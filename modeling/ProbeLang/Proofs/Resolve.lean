import ProbeLang.Expansion.Resolution
import ProbeLang.Proofs.Names

/-! # What resolution does to a clause

    One step of resolution keeps the node after a fault, replaces a form, notes a
    place where nothing could be read, or leaves the node to the walk (`step_cases`,
    `step_eq_none_iff`).  From that:

    * a clause without forms stays as it is (`resolve_eq_self`);
    * after a walk to the end no form is left: a replacement holds none, and putting
      it in the place of a part never makes a form of the node around it, since all
      parts of a form are of a kind that no replacement is (`isPlain_resolve`). -/

namespace ProbeLang

/-! ## One step -/

namespace Expr

/-- Whether resolution leaves a node as it is: it is no form, and it could be read. -/
def isPlain (inReturn : Bool) (e : Expr) : Bool :=
  (Form.of? inReturn e).isNone && !(e matches .placeholder _)

/-- Plain code is what resolution leaves alone: no form, and no place that could not be
    read. -/
theorem isPlain_iff {inReturn : Bool} {e : Expr} :
    e.isPlain inReturn = true ↔ Form.of? inReturn e = none ∧ ∀ s, e ≠ .placeholder s := by
  cases e <;> simp [isPlain]

end Expr

namespace Resolution

variable {inReturn : Bool} {e e' : Expr} {r r' : Resolution}

/-- What resolution can do at a node that it does not leave to the walk. -/
theorem step_cases (h : step inReturn e r = some (e', r')) :
    (r.fault.isSome ∧ e' = e ∧ r' = r) ∨
      (r.fault = none ∧ ∃ form, Form.of? inReturn e = some form ∧
        r.replace form e.span = (e', r')) ∨
      (r.fault = none ∧ ∃ s, e = .placeholder s ∧ e' = e ∧ r' = { r with fault := some s }) := by
  unfold step at h
  cases hf : r.fault with
  | some s =>
      rw [if_pos (by rw [hf]; rfl)] at h
      obtain ⟨rfl, rfl⟩ := Prod.mk.inj (Option.some.inj h)
      exact .inl ⟨rfl, rfl, rfl⟩
  | none =>
      rw [if_neg (by rw [hf]; exact Bool.false_ne_true)] at h
      cases hform : Form.of? inReturn e with
      | some form =>
          rw [hform] at h
          exact .inr (.inl ⟨rfl, form, rfl, Option.some.inj h⟩)
      | none =>
          rw [hform] at h
          cases e with
          | placeholder s =>
              obtain ⟨rfl, rfl⟩ := Prod.mk.inj (Option.some.inj h)
              exact .inr (.inr ⟨rfl, s, rfl, rfl, rfl⟩)
          | _ => exact absurd h (by simp)

/-- Resolution leaves the plain nodes before a fault to the walk, and no others. -/
theorem step_eq_none_iff :
    step inReturn e r = none ↔ r.fault = none ∧ e.isPlain inReturn = true := by
  rw [Expr.isPlain_iff]
  unfold step
  cases hf : r.fault with
  | some s => simp
  | none => cases hform : Form.of? inReturn e <;> cases e <;> simp

end Resolution

/-! ## Replacements -/

/-- The field whose slot stands in the place of a form that asks about the entry. -/
def Form.captures? : Form → Option EntryField
  | .field (.elapsed _) => some .timestamp
  | .field f => some f
  | .arg n => some (.args n)
  | .callers _ => none

namespace Slot

/-- A replacement for a form: the slot itself, or the time since the one it keeps. -/
inductive StandsIn (slot : Slot) (s : Span) : Expr → Prop where
  | slot : StandsIn slot s (slot.expr s)
  | elapsed (divisor : UInt64) :
      StandsIn slot s (Resolution.elapsed (slot.expr s) divisor s)

end Slot

namespace Resolution

variable {inReturn : Bool} {e e' : Expr} {r r' : Resolution} {form : Form} {s : Span}

/-- What replacing a form can do: it captures a field, or it takes a counter. -/
theorem replace_cases (h : r.replace form s = (e', r')) :
    r'.fault = r.fault ∧
    ((∃ f, form.captures? = some f ∧ (Slot.entry f (r.withField f).1.group).StandsIn s e' ∧
        r'.capture = some (r.withField f).1 ∧ r'.ids = (r.withField f).2 ∧
        r'.counters = r.counters) ∨
      (∃ targets, form = .callers targets ∧
        e' = (Slot.callers (r.ids.counters + 1)).expr s ∧ r'.capture = r.capture ∧
        r'.ids = r.ids.newCounter.2 ∧
        r'.counters = r.counters ++ [⟨r.ids.counters + 1, targets, s⟩])) := by
  cases form with
  | field f =>
      cases f with
      | elapsed unit =>
          obtain ⟨rfl, rfl⟩ := Prod.mk.inj h
          exact ⟨rfl, .inl ⟨_, rfl, .elapsed _, rfl, rfl, rfl⟩⟩
      | _ =>
          obtain ⟨rfl, rfl⟩ := Prod.mk.inj h
          exact ⟨rfl, .inl ⟨_, rfl, .slot, rfl, rfl, rfl⟩⟩
  | arg n =>
      obtain ⟨rfl, rfl⟩ := Prod.mk.inj h
      exact ⟨rfl, .inl ⟨_, rfl, .slot, rfl, rfl, rfl⟩⟩
  | callers targets =>
      obtain ⟨rfl, rfl⟩ := Prod.mk.inj h
      exact ⟨rfl, .inr ⟨targets, rfl, rfl, rfl, rfl, rfl⟩⟩

end Resolution

/-! ## Whole clauses -/

/-- How far the forms of a clause have been resolved at its end. -/
def Clause.resolution (c : Clause) (inReturn : Bool) (ids : Ids) : Resolution :=
  (c.walk (Resolution.step inReturn) (.start ids)).2

/-- The clause that resolution leaves is the walked one. -/
theorem Clause.resolve_clause (c : Clause) (inReturn : Bool) (ids : Ids) :
    (c.resolve inReturn ids).clause = (c.walk (Resolution.step inReturn) (.start ids)).1 := rfl

/-- What resolution does to the expressions of a clause, one after the other. -/
theorem Clause.resolve_induction {P : Expr → Resolution → Expr → Resolution → Prop}
    {inReturn : Bool} (taken : ∀ e r a, Resolution.step inReturn e r = some a → P e r a.1 a.2)
    (kept : ∀ e r ps r', Resolution.step inReturn e r = none → Expr.Threaded P e.parts r ps r' →
      P e r (e.rebuild ps) r') (c : Clause) (ids : Ids) :
    Expr.Threaded P c.exprs (.start ids) (c.resolve inReturn ids).clause.exprs
      (c.resolution inReturn ids) :=
  c.walk_induction taken kept (.start ids)

section Clause

variable {c : Clause} {inReturn : Bool} {ids : Ids} {needs : Needs}

private theorem any_isStructured (stmts : List Stmt) :
    (decide (0 < stmts.countP fun s => s matches .branch ..) ||
      decide (0 < stmts.countP fun s => s matches .loop ..)) = stmts.any Stmt.isStructured := by
  rw [Bool.eq_iff_iff, Bool.or_eq_true, decide_eq_true_iff, decide_eq_true_iff,
    List.countP_pos_iff, List.countP_pos_iff, List.any_eq_true]
  constructor
  · rintro (⟨stmt, hmem, hstmt⟩ | ⟨stmt, hmem, hstmt⟩) <;>
      exact ⟨stmt, hmem, by cases stmt <;> simp_all [Stmt.isStructured]⟩
  · rintro ⟨stmt, hmem, hstmt⟩
    cases stmt with
    | expr e => cases hstmt
    | branch cond onTrue onFalse s => exact .inl ⟨_, hmem, rfl⟩
    | loop cond maxIter body s => exact .inr ⟨_, hmem, rfl⟩

/-- What a clause needs is known once all of it could be read. -/
theorem Clause.resolve_needs (hf : (c.resolution inReturn ids).fault = none) :
    ∃ needs : Needs, (c.resolve inReturn ids).needs = .ok needs := by
  unfold resolve
  rw [resolution] at hf
  simp only [hf]
  exact ⟨_, rfl⟩

/-- What a resolved clause needs, once nothing has stopped the walk: the capture and the
    counters that were taken on the way, and control flow if there is any. -/
theorem Clause.of_resolve_needs (h : (c.resolve inReturn ids).needs = .ok needs) :
    (c.resolution inReturn ids).fault = none ∧
      needs.capture = (c.resolution inReturn ids).capture ∧
      needs.counters = (c.resolution inReturn ids).counters ∧
      needs.hasControlFlow = c.stmts.any Stmt.isStructured := by
  cases hf : (c.resolution inReturn ids).fault with
  | some s =>
      unfold resolve at h
      rw [resolution] at hf
      simp only [hf] at h
      cases h
  | none =>
      unfold resolve at h
      rw [resolution] at hf
      simp only [hf] at h
      obtain rfl := Except.ok.inj h
      exact ⟨rfl, rfl, rfl, any_isStructured c.stmts⟩

/-- Resolution leaves branches and loops where they are. -/
theorem Clause.any_isStructured_resolve (c : Clause) (inReturn : Bool) (ids : Ids) :
    (c.resolve inReturn ids).clause.stmts.any Stmt.isStructured =
      c.stmts.any Stmt.isStructured := by
  have h : ∀ stmts : List Stmt,
      stmts.any Stmt.isStructured = (stmts.map Stmt.isStructured).any id := by
    intro stmts
    rw [List.any_map]
    rfl
  rw [h, h, resolve_clause, walk_isStructured]

/-- A clause in which there is nothing to resolve stays as it is. -/
theorem Clause.resolve_eq_self (h : ∀ x ∈ c.exprNodes, x.isPlain inReturn = true) (ids : Ids) :
    (c.resolve inReturn ids).clause = c ∧ c.resolution inReturn ids = .start ids := by
  have hwalk : c.walk (Resolution.step inReturn) (.start ids) = (c, .start ids) :=
    Clause.walk_eq_self fun x hx => Resolution.step_eq_none_iff.mpr ⟨rfl, h x hx⟩
  exact ⟨congrArg Prod.fst hwalk, congrArg Prod.snd hwalk⟩

end Clause

/-! ## What forms look like -/

/-- An expression that has a name is that name. -/
theorem Expr.identName?_eq_some {e : Expr} {name : String} (h : e.identName? = some name) :
    ∃ s, e = .ident name s := by
  cases e with
  | ident x s => exact ⟨s, by rw [Option.some.inj h]⟩
  | _ => cases h

namespace Form

variable {inReturn : Bool} {e p : Expr} {form : Form} {name : String}

/-- What is asked about the entry by a name is written `entry->name`. -/
theorem entryMember?_eq_some (h : entryMember? e = some name) :
    ∃ s₁ s₂ s, e = .binary .ptr (.ident "entry" s₁) (.ident name s₂) s := by
  unfold entryMember? at h
  split at h
  · rename_i base member s
    split at h
    · rename_i hbase
      obtain ⟨s₁, rfl⟩ := Expr.identName?_eq_some (beq_iff_eq.mp hbase)
      obtain ⟨s₂, rfl⟩ := Expr.identName?_eq_some h
      exact ⟨s₁, s₂, s, rfl⟩
    · cases h
  · cases h

private theorem entryArg?_eq_some {n : Nat} (h : entryArg? e = some n) :
    n ≤ EntryField.maxArg ∧ ∃ k s₁ s₂ s₃ s₄ s, e = .index
      (.binary .ptr (.ident "entry" s₁) (.ident "args" s₂) s₃) [.int k s₄] s := by
  unfold entryArg? at h
  split at h
  · rename_i base k s₄ s
    split at h
    · rename_i hk
      obtain rfl := Option.some.inj h
      obtain ⟨s₁, s₂, s₃, rfl⟩ := entryMember?_eq_some hk.1
      exact ⟨hk.2, k, s₁, s₂, s₃, s₄, s, rfl⟩
    · cases h
  · cases h

private theorem callersTargets?_eq_some {targets : String} (h : callersTargets? e = some targets) :
    ∃ s₁ s₂ s, e = .index (.ident "callers" s₁) [.str targets s₂] s := by
  unfold callersTargets? at h
  split at h
  · rename_i base text s₂ s
    split at h
    · rename_i hbase
      obtain rfl := Option.some.inj h
      obtain ⟨s₁, rfl⟩ := Expr.identName?_eq_some (beq_iff_eq.mp hbase)
      exact ⟨s₁, s₂, s, rfl⟩
    · cases h
  · cases h

/-- The expressions that are forms. -/
theorem of?_cases (h : of? inReturn e = some form) :
    (inReturn = true ∧ ∃ f name s₁ s₂ s, form = field f ∧ EntryField.ofName? name = some f ∧
        e = .binary .ptr (.ident "entry" s₁) (.ident name s₂) s) ∨
      (inReturn = true ∧ ∃ n k s₁ s₂ s₃ s₄ s, form = arg n ∧ n ≤ EntryField.maxArg ∧
        e = .index (.binary .ptr (.ident "entry" s₁) (.ident "args" s₂) s₃) [.int k s₄] s) ∨
      (∃ targets s₁ s₂ s, form = callers targets ∧
        e = .index (.ident "callers" s₁) [.str targets s₂] s) := by
  have hcallers : (callersTargets? e).map callers = some form →
      ∃ targets s₁ s₂ s, form = callers targets ∧
        e = .index (.ident "callers" s₁) [.str targets s₂] s := by
    intro hc
    obtain ⟨targets, ht, rfl⟩ := Option.map_eq_some_iff.mp hc
    obtain ⟨s₁, s₂, s, he⟩ := callersTargets?_eq_some ht
    exact ⟨targets, s₁, s₂, s, rfl, he⟩
  cases inReturn with
  | false => exact .inr (.inr (hcallers h))
  | true =>
      unfold of? ofEntry? at h
      rw [if_pos rfl] at h
      cases hfield : entryField? e with
      | some f =>
          simp only [hfield] at h
          obtain ⟨name, hname, hf⟩ := Option.bind_eq_some_iff.mp hfield
          obtain ⟨s₁, s₂, s, he⟩ := entryMember?_eq_some hname
          exact .inl ⟨rfl, f, name, s₁, s₂, s, (Option.some.inj h).symm, hf, he⟩
      | none =>
          simp only [hfield] at h
          cases harg : entryArg? e with
          | none =>
              simp only [harg] at h
              exact .inr (.inr (hcallers h))
          | some n =>
              simp only [harg] at h
              obtain ⟨hn, k, s₁, s₂, s₃, s₄, s, he⟩ := entryArg?_eq_some harg
              exact .inr (.inl ⟨rfl, n, k, s₁, s₂, s₃, s₄, s, (Option.some.inj h).symm, hn, he⟩)

end Form

/-! ## No form is left -/

/-- An expression of a kind that the parts of forms are of: a leaf or `entry->member`. -/
def Expr.Fixed (e : Expr) : Prop := e.parts = [] ∨ (Form.entryMember? e).isSome

/-- What is of a fixed kind has parts of a fixed kind. -/
theorem Expr.Fixed.of_mem_parts {e p : Expr} (h : e.Fixed) (hp : p ∈ e.parts) : p.Fixed := by
  rcases h with hleaf | hmember
  · rw [hleaf] at hp
    cases hp
  · obtain ⟨name, hname⟩ := Option.isSome_iff_exists.mp hmember
    obtain ⟨s₁, s₂, s, rfl⟩ := Form.entryMember?_eq_some hname
    obtain rfl | rfl : p = .ident "entry" s₁ ∨ p = .ident name s₂ := by simpa [parts] using hp
    · exact .inl rfl
    · exact .inl rfl

/-- What a form is built from is of a fixed kind. -/
theorem Form.fixed_of_mem_parts {inReturn : Bool} {e p : Expr} {form : Form}
    (h : of? inReturn e = some form) (hp : p ∈ e.parts) : p.Fixed := by
  rcases of?_cases h with ⟨-, f, name, s₁, s₂, s, -, -, rfl⟩ |
    ⟨-, n, k, s₁, s₂, s₃, s₄, s, -, -, rfl⟩ | ⟨targets, s₁, s₂, s, -, rfl⟩
  · exact Expr.Fixed.of_mem_parts (.inr rfl) hp
  · simp only [Expr.parts, List.mem_cons, List.not_mem_nil, or_false] at hp
    rcases hp with rfl | rfl
    · exact .inr rfl
    · exact .inl rfl
  · simp only [Expr.parts, List.mem_cons, List.not_mem_nil, or_false] at hp
    rcases hp with rfl | rfl
    · exact .inl rfl
    · exact .inl rfl

namespace Slot

variable {slot : Slot} {s : Span} {e : Expr}

/-- No node of a slot is a form. -/
theorem isPlain_expr (slot : Slot) (s : Span) (inReturn : Bool) :
    ∀ x ∈ (slot.expr s).nodes, x.isPlain inReturn = true := by
  cases slot <;> cases inReturn <;>
    simp [expr, storage, Expr.scopeVar, Expr.ptr, scope, Expr.nodes, Expr.isPlain, Form.of?,
      Form.ofEntry?, Form.entryField?, Form.entryMember?, Form.entryArg?, Form.callersTargets?,
      Expr.isIdent, Expr.identName?]

/-- A replacement holds no form. -/
theorem StandsIn.isPlain (h : slot.StandsIn s e) (inReturn : Bool) :
    ∀ x ∈ e.nodes, x.isPlain inReturn = true := by
  cases h with
  | slot => exact isPlain_expr slot s inReturn
  | elapsed divisor =>
      have hslot := isPlain_expr slot s inReturn
      intro x hx
      cases inReturn <;>
        simp only [Resolution.elapsed, Expr.nodes, List.mem_cons, List.mem_append,
          List.not_mem_nil, or_false] at hx <;>
        rcases hx with rfl | (rfl | rfl | hx) | rfl <;>
        first | rfl | exact hslot x hx

/-- A replacement is of no fixed kind. -/
theorem StandsIn.not_fixed (h : slot.StandsIn s e) : ¬ e.Fixed := by
  intro hfixed
  cases h with
  | slot => cases slot <;> rcases hfixed with hp | hm <;> first | cases hp | exact nomatch hm
  | elapsed divisor => rcases hfixed with hp | hm <;> first | cases hp | exact nomatch hm

end Slot

namespace Resolution

variable {inReturn : Bool}

/-- What is left of an expression if the walk came to its end: it holds no form, and
    if it is of a fixed kind it is the one that stood there before. -/
def Settles (inReturn : Bool) (e : Expr) (r : Resolution) (e' : Expr) (r' : Resolution) : Prop :=
  r'.fault = none →
    r.fault = none ∧ (∀ x ∈ e'.nodes, x.isPlain inReturn = true) ∧ (e'.Fixed → e' = e)

/-- A step that takes an expression leaves it settled: what stands in the place of a
    form is plain and of no fixed kind. -/
theorem settles_taken {e : Expr} {r : Resolution} {a : Expr × Resolution}
    (h : step inReturn e r = some a) : Settles inReturn e r a.1 a.2 := by
  intro hf
  rcases step_cases h with ⟨hfault, -, ha⟩ | ⟨hnone, form, -, hrep⟩ | ⟨-, s, -, -, ha⟩
  · rw [ha] at hf
    rw [hf] at hfault
    cases hfault
  · refine ⟨hnone, ?_⟩
    obtain ⟨-, ⟨f, -, hin, -⟩ | ⟨targets, -, he, -⟩⟩ := replace_cases hrep
    · exact ⟨hin.isPlain inReturn, fun hfix => absurd hfix hin.not_fixed⟩
    · have hin : (Slot.callers (r.ids.counters + 1)).StandsIn e.span a.1 := he ▸ .slot
      exact ⟨hin.isPlain inReturn, fun hfix => absurd hfix hin.not_fixed⟩
  · rw [ha] at hf
    cases hf

/-- A list is settled item by item; a fault that is not there at the end was not there
    before. -/
theorem settles_list {es es' : List Expr} {r r' : Resolution}
    (h : Expr.Threaded (Settles inReturn) es r es' r') (hf : r'.fault = none) :
    r.fault = none ∧ (∀ p ∈ es', ∀ x ∈ p.nodes, x.isPlain inReturn = true) ∧
      ((∀ p ∈ es', p.Fixed) → es' = es) := by
  induction h with
  | nil r => exact ⟨hf, List.forall_mem_nil _, fun _ => rfl⟩
  | cons hhead _ ih =>
      obtain ⟨hmid, hplain, heq⟩ := ih hf
      obtain ⟨hstart, hplain', heq'⟩ := hhead hmid
      refine ⟨hstart, ?_, ?_⟩
      · intro p hp
        rcases List.mem_cons.mp hp with rfl | hp
        · exact hplain'
        · exact hplain p hp
      · intro hfix
        rw [heq' (hfix _ List.mem_cons_self),
          heq fun p hp => hfix p (List.mem_cons_of_mem _ hp)]

/-- Where no step is taken, a node is settled with its parts: put together again from
    plain parts it is plain, and from the same parts it is the same. -/
theorem settles_kept {e : Expr} {r r' : Resolution} {ps : List Expr}
    (h : step inReturn e r = none) (hps : Expr.Threaded (Settles inReturn) e.parts r ps r') :
    Settles inReturn e r (e.rebuild ps) r' := by
  intro hf
  obtain ⟨hnone, hplain, heq⟩ := settles_list hps hf
  have hparts : (e.rebuild ps).parts = ps := Expr.parts_rebuild hps.length_eq
  -- with parts of a fixed kind only, nothing has been replaced
  have hself : (∀ p ∈ (e.rebuild ps).parts, p.Fixed) → e.rebuild ps = e := by
    intro hfix
    rw [hparts] at hfix
    rw [heq hfix, Expr.rebuild_parts]
  obtain ⟨hform, hread⟩ := Expr.isPlain_iff.mp (step_eq_none_iff.mp h).2
  refine ⟨hnone, ?_, fun hfix => hself fun p hp => hfix.of_mem_parts hp⟩
  intro x hx
  rcases Expr.mem_nodes_iff.mp hx with rfl | ⟨p, hp, hx⟩
  · rw [Expr.isPlain_iff]
    refine ⟨?_, ?_⟩
    · cases hsome : Form.of? inReturn (e.rebuild ps) with
      | none => rfl
      | some form =>
          rw [hself fun p hp => Form.fixed_of_mem_parts hsome hp, hform] at hsome
          cases hsome
    · intro s hs
      refine hread s ?_
      rw [← hself fun p hp => ?_]
      · exact hs
      · rw [hs] at hp
        cases hp
  · rw [hparts] at hp
    exact hplain p hp x hx

/-- After a walk to the end no form is left. -/
theorem isPlain_resolve {c : Clause} {ids : Ids}
    (hf : (c.resolution inReturn ids).fault = none) :
    ∀ x ∈ (c.resolve inReturn ids).clause.exprNodes, x.isPlain inReturn = true := by
  obtain ⟨-, hplain, -⟩ := settles_list (Clause.resolve_induction (fun _ _ _ => settles_taken)
    (fun _ _ _ _ => settles_kept) c ids) hf
  intro x hx
  rw [Clause.exprNodes_eq] at hx
  obtain ⟨e, he, hx⟩ := List.mem_flatMap.mp hx
  exact hplain e he x hx

end Resolution

end ProbeLang
