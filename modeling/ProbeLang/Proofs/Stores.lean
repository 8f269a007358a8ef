import ProbeLang.Proofs.Expand
import ProbeLang.Proofs.Engine

/-! # What the code of a clause leaves alone

    Code changes a slot only if an action of it stores right into one.  An action of a
    clause that has no slots of its own does so if it stores into a form; unless that
    asks about the entry, what it stores into afterwards is a counter
    (`Clause.stores_resolve`).

    So the clauses of a body leave the captured values alone, and with them the first
    condition, which is handed out before the body (`Engine.keeps_piece`). -/

namespace ProbeLang

/-! ## Where an action stores -/

namespace Expr

/-- What an action stores into, if storing is all that it does. -/
def storeTarget? : Expr → Option Expr
  | binary .assign target _ _ => some target
  | unary .preInc target _ => some target
  | unary .preDec target _ => some target
  | _ => none

/-- The cell, if there is one, has the name of a counter. -/
def OnlyCounter (cell : Option Cell) : Prop :=
  ∀ c, cell = some c → ∃ id, c.name = (Slot.callers id).name

/-- What resolution makes of an expression without slots: it is an identifier only if
    it was that one before; if it is a variable, it is a counter; if it is a cell and
    was nothing about an entry, it is that of a counter; and the same for what it
    stores into. -/
structure Shaped (e e' : Expr) : Prop where
  ident : e'.identName? = e.identName?
  counter : ∀ v, e'.slotRef? = some v → ∃ id, v.2 = (Slot.callers id).name
  cell : Form.ofEntry? e = none → ∀ depth, OnlyCounter (e'.cell? depth)
  store : (∀ t, e.storeTarget? = some t → Form.ofEntry? t = none) →
    ∀ t, e'.storeTarget? = some t → ∀ depth, OnlyCounter (t.cell? depth)

/-- What is neither a cell nor stores into one has nothing to answer for. -/
theorem Shaped.of_code {e e' : Expr} (hid : e'.identName? = e.identName?)
    (hvar : e'.slotRef? = none) (hcell : ∀ depth, e'.cell? depth = none)
    (hstore : e'.storeTarget? = none) : e.Shaped e' := by
  refine ⟨hid, fun v hv => ?_, fun _ depth c hc => ?_, fun _ t ht => ?_⟩
  · cases hvar.symm.trans hv
  · cases (hcell depth).symm.trans hc
  · cases hstore.symm.trans ht

end Expr

namespace Resolution

open ProbeLang.Expr

variable {inReturn : Bool} {e : Expr} {r r' : Resolution}

/-- What is left of an expression if the walk comes to its end. -/
def Shapes (e : Expr) (r : Resolution) (e' : Expr) (r' : Resolution) : Prop :=
  r'.fault = none → r.fault = none ∧ (e.Unreserved → e.Shaped e')

private theorem identName?_of_form {form : Form} (h : Form.of? inReturn e = some form) :
    e.identName? = none := by
  rcases Form.of?_cases h with ⟨-, f, name, s₁, s₂, s, -, -, rfl⟩ |
    ⟨-, n, k, s₁, s₂, s₃, s₄, s, -, -, rfl⟩ | ⟨targets, s₁, s₂, s, -, rfl⟩ <;> rfl

/-- A form that asks about the entry is nothing that a variable could be stored into. -/
private theorem shaped_entry {f : EntryField} {group : UInt32} {s : Span} {e' : Expr}
    (hin : (Slot.entry f group).StandsIn s e') (hid : e.identName? = none)
    (hentry : Form.ofEntry? e ≠ none) : e.Shaped e' := by
  cases hin with
  | slot =>
      exact ⟨hid.symm, fun _ h => (nomatch h), fun h => absurd h hentry, fun _ _ h => (nomatch h)⟩
  | elapsed divisor =>
      exact ⟨hid.symm, fun _ h => (nomatch h), fun h => absurd h hentry, fun _ _ h => (nomatch h)⟩

private theorem shaped_callers (id : UInt32) (s : Span) (hid : e.identName? = none) :
    e.Shaped ((Slot.callers id).expr s) := by
  have hcell : ∀ depth, OnlyCounter (((Slot.callers id).expr s).cell? depth) := by
    intro depth c hc
    rw [Slot.cell?_expr] at hc
    obtain rfl := Option.some.inj hc
    exact ⟨id, rfl⟩
  refine ⟨hid.symm, fun v hv => ?_, fun _ => hcell, fun _ _ h => (nomatch h)⟩
  have hvar : ((Slot.callers id).expr s).slotRef? = some ("self", (Slot.callers id).name) := by
    simp [Slot.expr, Slot.storage, scopeVar, ptr, slotRef?, Slot.scope]
  obtain rfl := Option.some.inj (hvar.symm.trans hv)
  exact ⟨id, rfl⟩

/-- A step replaces a form by a slot, which is a counter unless the form asks about the
    entry. -/
theorem shapes_taken {a : Expr × Resolution} (h : step inReturn e r = some a) :
    Shapes e r a.1 a.2 := by
  intro hf
  rcases step_cases h with ⟨hfault, -, ha⟩ | ⟨hnone, form, hform, hrep⟩ | ⟨-, s, -, -, ha⟩
  · rw [ha] at hf
    rw [hf] at hfault
    cases hfault
  · refine ⟨hnone, fun _ => ?_⟩
    have hid := identName?_of_form hform
    obtain ⟨-, ⟨f, hcaptures, hin, -⟩ | ⟨targets, -, he, -⟩⟩ := replace_cases hrep
    · refine shaped_entry hin hid fun hentry => ?_
      -- without an entry to ask about, the form can only be one for callers
      have hcallers : (Form.callersTargets? e).map Form.callers = some form := by
        rw [← hform, Form.of?, hentry]
        cases inReturn <;> rfl
      obtain ⟨targets, -, rfl⟩ := Option.map_eq_some_iff.mp hcallers
      cases hcaptures
    · rw [he]
      exact shaped_callers _ _ hid
  · rw [ha] at hf
    cases hf

/-- No fault at the end of a list, no fault along it. -/
theorem shapes_fault {es es' : List Expr} (h : Expr.Threaded Shapes es r es' r')
    (hf : r'.fault = none) : r.fault = none := by
  induction h with
  | nil r => exact hf
  | cons hhead _ ih => exact (hhead (ih hf)).1

/-- A pointer made by a walk has the member that it had before, and that has no
    reserved name. -/
private theorem slotRef?_binary {right right' : Expr} (hright : right.Unreserved)
    (hshape : right.Shaped right') (op : BinaryOp) (left' : Expr) (s : Span) :
    (binary op left' right' s).slotRef? = none := by
  unfold slotRef?
  split
  · rename_i scope s₁ name s₂ s₃ heq
    obtain ⟨-, -, rfl, -⟩ := binary.inj heq
    obtain ⟨s₀, rfl⟩ := identName?_eq_some hshape.ident.symm
    have hname := hright _ (self_mem_nodes _)
    have hfree : Slot.isReserved name = false := by
      simpa [reservedName?, identName?, Option.filter] using hname
    rw [hfree]
    rfl
  · rfl

/-- Where no step is taken, a node keeps its kind; a store keeps what it stores into, up
    to what is below. -/
theorem shapes_kept {ps : List Expr} (h : step inReturn e r = none)
    (hps : Expr.Threaded Shapes e.parts r ps r') : Shapes e r (e.rebuild ps) r' := by
  intro hf
  refine ⟨(step_eq_none_iff.mp h).1, fun he => ?_⟩
  have hid : (e.rebuild ps).identName? = e.identName? := identName?_rebuild e ps
  cases e with
  | unary op operand s =>
      rcases hps with _ | ⟨hhead, _ | _⟩
      have hshape := (hhead hf).2 (he.of_mem_parts List.mem_cons_self)
      refine ⟨hid, fun _ h => (nomatch h), fun _ _ _ h => (nomatch h), fun hs t ht => ?_⟩
      cases op with
      | preInc =>
          obtain rfl := Option.some.inj ht
          exact hshape.cell (hs operand rfl)
      | preDec =>
          obtain rfl := Option.some.inj ht
          exact hshape.cell (hs operand rfl)
      | _ => cases ht
  | binary op left right s =>
      rcases hps with _ | ⟨hleft, _ | ⟨hright, _ | _⟩⟩
      rename_i left' _ right'
      obtain ⟨hmid, hshape'⟩ := hright hf
      have hmem : right ∈ (binary op left right s).parts :=
        List.mem_cons_of_mem _ List.mem_cons_self
      -- a pointer could only lead to a slot by the name of its member
      have hright := he.of_mem_parts hmem
      have hvar := slotRef?_binary hright (hshape' hright) op left' s
      have hshape := (hleft hmid).2 (he.of_mem_parts List.mem_cons_self)
      refine ⟨hid, fun v hv => ?_, fun _ depth c hc => ?_, fun hs t ht => ?_⟩
      · cases hvar.symm.trans hv
      · have hnone : (binary op left' right' s).cell? depth = none := by
          show (binary op left' right' s).slotRef?.map _ = none
          rw [hvar]
          rfl
        cases hnone.symm.trans hc
      · cases op with
        | assign =>
            obtain rfl := Option.some.inj ht
            exact hshape.cell (hs left rfl)
        | _ => cases ht
  | index base keys s =>
      rcases hps with _ | ⟨hbase, hkeys⟩
      rename_i base' keys' _
      -- an element is a cell if its array is a variable, and that can only be a counter
      have hshape := (hbase (shapes_fault hkeys hf)).2 (he.of_mem_parts List.mem_cons_self)
      refine ⟨hid, fun _ h => (nomatch h), fun _ depth c hc => ?_, fun _ _ h => (nomatch h)⟩
      have hc : (index base' keys' s).cell? depth = some c := hc
      unfold cell? at hc
      split at hc
      · rename_i heq
        obtain ⟨rfl, -, -⟩ := index.inj heq
        obtain ⟨v, hv, rfl⟩ := Option.map_eq_some_iff.mp hc
        exact hshape.counter v hv
      · cases hc
  | ternary cond onTrue onFalse s =>
      rcases hps with _ | ⟨_, _ | ⟨_, _ | ⟨_, _ | _⟩⟩⟩
      exact .of_code hid rfl (fun _ => rfl) rfl
  | inline name body s =>
      rcases hps with _ | ⟨_, _ | _⟩
      exact .of_code hid rfl (fun _ => rfl) rfl
  | _ => exact .of_code hid rfl (fun _ => rfl) rfl

/-- For a list: each item comes from one of the items before. -/
theorem shapes_mem {es es' : List Expr} (h : Expr.Threaded Shapes es r es' r')
    (hf : r'.fault = none) : ∀ e' ∈ es', ∃ e ∈ es, e.Unreserved → e.Shaped e' := by
  induction h with
  | nil r => exact List.forall_mem_nil _
  | @cons e _ _ _ _ _ _ hhead hrest ih =>
      intro e' he'
      rcases List.mem_cons.mp he' with rfl | he'
      · exact ⟨e, List.mem_cons_self, (hhead (shapes_fault hrest hf)).2⟩
      · obtain ⟨e₀, hmem, hshape⟩ := ih hf e' he'
        exact ⟨e₀, List.mem_cons_of_mem e hmem, hshape⟩

end Resolution

/-- No action of the clause stores right into something about the entry. -/
def Clause.SparesEntry (c : Clause) : Prop :=
  ∀ e ∈ c.exprs, ∀ t ∈ e.storeTarget?, Form.ofEntry? t = none

instance (c : Clause) : Decidable c.SparesEntry :=
  inferInstanceAs (Decidable (∀ e ∈ c.exprs, ∀ t ∈ e.storeTarget?, Form.ofEntry? t = none))

/-- After resolution, the code of a clause stores into counters at most. -/
theorem Clause.stores_resolve {c : Clause} {inReturn : Bool} {ids : Ids} (hc : c.Unreserved)
    (hstore : c.SparesEntry) (hf : (c.resolution inReturn ids).fault = none) :
    ∀ e ∈ (c.resolve inReturn ids).clause.exprs, ∀ t, e.storeTarget? = some t →
      ∀ depth, Expr.OnlyCounter (t.cell? depth) := by
  intro e he
  obtain ⟨e₀, hmem, hshape⟩ := Resolution.shapes_mem (Clause.resolve_induction
    (fun _ _ _ => Resolution.shapes_taken) (fun _ _ _ _ => Resolution.shapes_kept) c ids) hf e he
  exact (hshape (hc.of_mem_exprs hmem)).store (hstore e₀ hmem)

/-! ## What stays as it is -/

variable {S : Type}

/-- The captured values, and whether the entry was seen, are the same in both states. -/
structure Machine.Keeps (m m' : Machine S) : Prop where
  entry : ∀ f group depth, m'.read depth (.entry f group) = m.read depth (.entry f group)
  seen : m'.condition .first = m.condition .first

namespace Machine

variable {m m' m'' : Machine S}

theorem Keeps.of_slots (h : m'.slots = m.slots) : m.Keeps m' :=
  ⟨fun _ _ _ => congrFun h _, congrFun h _⟩

theorem Keeps.trans (h : m.Keeps m') (h' : m'.Keeps m'') : m.Keeps m'' :=
  ⟨fun f group depth => (h'.entry f group depth).trans (h.entry f group depth),
    h'.seen.trans h.seen⟩

/-- A write to a cell that is neither an entry slot nor the first condition. -/
theorem keeps_write {c : Cell} {v : Int}
    (hentry : ∀ f group, c.name ≠ (Slot.entry f group).name)
    (hseen : c.name ≠ (Slot.condition .first).name) : m.Keeps (m.write c v) :=
  ⟨fun f group _ => slots_write_of_ne fun heq => hentry f group (congrArg Cell.name heq).symm,
    slots_write_of_ne fun heq => hseen (congrArg Cell.name heq).symm⟩

/-- A write to a slot that is neither of these. -/
theorem keeps_write_slot (slot : Slot) (hentry : ∀ f group, slot ≠ .entry f group)
    (hseen : slot ≠ .condition .first) (depth : Nat) (v : Int) :
    m.Keeps (m.write (slot.cell depth) v) :=
  keeps_write (fun f group heq => hentry f group (Slot.name_injective heq))
    (fun heq => hseen (Slot.name_injective heq))

/-- Raising the flag touches neither. -/
theorem keeps_raise (m : Machine S) : m.Keeps m.raise :=
  keeps_write_slot .error (fun _ _ => nofun) nofun 0 1

/-- Nor does a counter that is written after something that keeps them. -/
theorem Keeps.write_counter (h : m.Keeps m') {c : Cell} (v : Int)
    (hc : ∃ id, c.name = (Slot.callers id).name) : m.Keeps (m'.write c v) := by
  obtain ⟨id, hid⟩ := hc
  refine h.trans (keeps_write ?_ ?_)
  · intro f group heq
    cases Slot.name_injective (hid.symm.trans heq)
  · intro heq
    cases Slot.name_injective (hid.symm.trans heq)

end Machine

namespace Engine

variable (E : Engine S) {m : Machine S} {e : Expr}

/-- Tests leave the slots alone. -/
theorem slots_check (e : Expr) (m : Machine S) : (E.check e m).1.slots = m.slots := by
  unfold check
  split
  · rfl
  · split <;> rfl

/-- So does a test of two parts, whether or not the second is made. -/
theorem slots_both (a b : Expr) (m : Machine S) : (E.both a b m).1.slots = m.slots := by
  unfold both
  have hfirst := E.slots_check a m
  rcases h : E.check a m with ⟨m', _ | _ | _⟩
  all_goals rw [h] at hfirst
  · exact (E.slots_check b m').trans hfirst
  · exact hfirst
  · exact hfirst

/-- So does working out a value. -/
theorem slots_value (e : Expr) (m : Machine S) : (E.value e m).1.slots = m.slots := by
  unfold value
  split
  · rfl
  · rfl
  · rfl
  · rename_i a b s
    have hboth := E.slots_both a b m
    rcases h : E.both a b m with ⟨m', _ | _ | _⟩ <;> rw [h] at hboth <;> exact hboth
  · rfl

/-- An action that stores into counters at most keeps what is to be kept. -/
theorem keeps_perform (h : ∀ t, e.storeTarget? = some t → Expr.OnlyCounter (t.cell? E.depth))
    (m : Machine S) : m.Keeps (E.perform e m).1 := by
  unfold perform
  split
  · rename_i target value s
    split
    · rename_i c hc
      have hvalue := E.slots_value value m
      rcases hval : E.value value m with ⟨m', _ | v⟩
      all_goals rw [hval] at hvalue
      · exact .of_slots hvalue
      · exact .write_counter (.of_slots hvalue) v (h target rfl c hc)
    · exact .of_slots rfl
  · rename_i target s
    split
    · rename_i c hc
      exact .write_counter (.of_slots rfl) _ (h target rfl c hc)
    · exact .of_slots rfl
  · rename_i target s
    split
    · rename_i c hc
      exact .write_counter (.of_slots rfl) _ (h target rfl c hc)
    · exact .of_slots rfl
  · exact .of_slots rfl

/-- Statements one after the other, up to a fault. -/
theorem keeps_performAll {stmts : List Stmt}
    (h : ∀ e, .expr e ∈ stmts → ∀ m : Machine S, m.Keeps (E.perform e m).1) (m : Machine S) :
    m.Keeps (E.performAll stmts m).1 := by
  induction stmts generalizing m with
  | nil => exact .of_slots rfl
  | cons stmt stmts ih =>
      have hrest := ih fun e he => h e (List.mem_cons_of_mem stmt he)
      cases stmt with
      | expr e =>
          have hfirst := h e List.mem_cons_self m
          rw [performAll]
          rcases hp : E.perform e m with ⟨m', _ | _⟩
          all_goals rw [hp] at hfirst
          · exact hfirst.trans (hrest m')
          · exact hfirst
      | _ => exact .of_slots rfl

/-- A clause keeps what its actions keep: to test its predicate changes no slot, and a
    fault only puts the flag up. -/
theorem keeps_runClause {c : Clause}
    (h : ∀ e, .expr e ∈ c.actions → ∀ m : Machine S, m.Keeps (E.perform e m).1) (m : Machine S) :
    m.Keeps (E.runClause c m) := by
  have hsettle : ∀ {m : Machine S} {a : Machine S × Outcome}, m.Keeps a.1 → m.Keeps (settle a) := by
    rintro m ⟨m', _ | _⟩ hm
    · exact hm
    · exact hm.trans (Machine.keeps_raise m')
  unfold runClause
  split
  · exact hsettle (E.keeps_performAll h m)
  · rename_i p _
    refine hsettle ?_
    have hcheck := E.slots_check p m
    rcases hp : E.check p m with ⟨m', _ | _ | _⟩
    all_goals rw [hp] at hcheck
    · exact (Machine.Keeps.of_slots hcheck).trans (E.keeps_performAll h m')
    · exact .of_slots hcheck
    · exact .of_slots hcheck

/-- The clauses of a body keep the captured values, and the first condition. -/
theorem keeps_piece {probes : List Probe} {own : Expr → Prop} {free : Prop} {k : Clause}
    (hk : Emitted.Piece probes own 1 free k)
    (hown : ∀ e, own e → ∀ t, e.storeTarget? = some t → Expr.OnlyCounter (t.cell? E.depth))
    (m : Machine S) : m.Keeps (E.runClause k m) := by
  refine E.keeps_runClause ?_ m
  cases hk with
  | @test around id value s hid hv =>
      intro e he m
      obtain rfl := Stmt.expr.inj (List.mem_singleton.mp he)
      have hvalue := E.slots_value ((Guard.ambient around s).and value s) m
      show m.Keeps (E.perform (((Slot.condition id).expr s).assign _ s) m).1
      rw [perform_assign]
      rcases hval : E.value ((Guard.ambient around s).and value s) m with ⟨m', _ | v⟩
      all_goals rw [hval] at hvalue
      · exact .of_slots hvalue
      · refine (Machine.Keeps.of_slots hvalue).trans (Machine.keeps_write_slot (.condition id)
          (fun _ _ => nofun) (fun heq => ?_) E.depth v)
        rw [Slot.condition.inj heq] at hid
        exact absurd hid (Nat.lt_irrefl 1)
  | block around anyBefore s hstmts hguard =>
      intro e he m
      obtain ⟨e', he', heq⟩ := hstmts _ he
      obtain rfl := Stmt.expr.inj heq
      exact E.keeps_perform (hown e he') m

/-- Clauses one after the other. -/
theorem keeps_runClauses {ks : List Clause}
    (h : ∀ k ∈ ks, ∀ m : Machine S, m.Keeps (E.runClause k m)) (m : Machine S) :
    m.Keeps (E.runClauses ks m) := by
  induction ks generalizing m with
  | nil => exact .of_slots rfl
  | cons k ks ih =>
      have hrest := ih fun k' hk' => h k' (List.mem_cons_of_mem k hk')
      exact (h k List.mem_cons_self m).trans (hrest _)

end Engine

end ProbeLang
