import ProbeLang.Proofs.Lookup
import ProbeLang.Proofs.Resolve

/-! # The forms that are met, and what stands in their places

    Resolution meets the forms of a clause that come before the first place where
    nothing could be read (`Meets`): each one that asks for callers takes a counter,
    and any that asks about the entry makes it capture something.

    What it puts into a clause that has no slots of its own are the slots it has
    provided for, and the counters among them stand there in the order in which they
    were taken (`Brings`).

    Both are kept along a list of expressions, one after the other. -/

namespace ProbeLang

variable {inReturn : Bool} {e e' : Expr} {r r' r'' : Resolution} {form : Form}

/-! ## Fields that are captured -/

/-- A capture as a clause can ask for it: the time of entry is among its fields, and
    all of them can be asked for and captured. -/
structure Capture.WellFormed (a : Capture) : Prop where
  marker : .timestamp ∈ a.fields
  captured : ∀ f ∈ a.fields, f.isCaptured = true
  registered : ∀ f ∈ a.fields, f ∈ EntryField.registry

theorem Capture.WellFormed.small {a : Capture} (h : a.WellFormed) (n : Nat)
    (hn : .args n ∈ a.fields) : n ≤ EntryField.maxArg :=
  EntryField.args_mem_registry.mp (h.registered _ hn)

/-- What a form captures is a field of the registry that is captured under its own name. -/
theorem Form.captures?_spec {f : EntryField} (h : Form.of? inReturn e = some form)
    (hf : form.captures? = some f) : f.isCaptured = true ∧ f ∈ EntryField.registry := by
  rcases of?_cases h with ⟨-, g, name, s₁, s₂, s, rfl, hg, -⟩ |
    ⟨-, n, k, s₁, s₂, s₃, s₄, s, rfl, hn, -⟩ | ⟨targets, s₁, s₂, s, rfl, -⟩
  · cases g with
    | elapsed unit =>
        obtain rfl := Option.some.inj hf
        exact ⟨rfl, by decide⟩
    | _ =>
        obtain rfl := Option.some.inj hf
        exact ⟨rfl, (EntryField.ofName?_eq_some_iff.mp hg).2⟩
  · obtain rfl := Option.some.inj hf
    exact ⟨rfl, EntryField.args_mem_registry.mpr hn⟩
  · cases hf

namespace Resolution

/-- The marker is always captured along with a field. -/
theorem mem_withField {f g : EntryField} :
    g ∈ (r.withField f).1.fields ↔
      g = .timestamp ∨ g = f ∨ ∃ a, r.capture = some a ∧ g ∈ a.fields := by
  unfold withField
  cases r.capture with
  | none =>
      simp only [FieldSet.mem_insert]
      constructor
      · rintro (h | h | h)
        · exact .inl h
        · exact .inr (.inl h)
        · cases h
      · rintro (h | h | ⟨a, ha, -⟩)
        · exact .inl h
        · exact .inr (.inl h)
        · cases ha
  | some a => simp

/-- Every capture along a resolution is well-formed. -/
theorem wellFormed_step (h : step inReturn e r = some (e', r'))
    (hr : ∀ a, r.capture = some a → a.WellFormed) : ∀ a, r'.capture = some a → a.WellFormed := by
  rcases step_cases h with ⟨-, -, rfl⟩ | ⟨-, form, hform, hrep⟩ | ⟨-, s, -, -, rfl⟩
  · exact hr
  · obtain ⟨-, ⟨f, hf, -, hcap, -⟩ | ⟨targets, -, -, hcap, -⟩⟩ := replace_cases hrep
    · obtain ⟨hcaptured, hregistered⟩ := Form.captures?_spec hform hf
      intro a ha
      obtain rfl : (r.withField f).1 = a := Option.some.inj (hcap.symm.trans ha)
      refine ⟨mem_withField.mpr (.inl rfl), ?_, ?_⟩
      · intro g hg
        rcases mem_withField.mp hg with rfl | rfl | ⟨a, ha, hg⟩
        · rfl
        · exact hcaptured
        · exact (hr a ha).captured g hg
      · intro g hg
        rcases mem_withField.mp hg with rfl | rfl | ⟨a, ha, hg⟩
        · decide
        · exact hregistered
        · exact (hr a ha).registered g hg
    · rw [hcap]
      exact hr
  · exact hr

end Resolution

/-- Fields are added one by one from an empty group, so what has been captured at the
    end is well formed. -/
theorem Clause.wellFormed_resolution {c : Clause} {ids : Ids} {a : Capture}
    (h : (c.resolution inReturn ids).capture = some a) : a.WellFormed := by
  have hstart : ∀ a, (Resolution.start ids).capture = some a → a.WellFormed :=
    fun _ h => nomatch h
  exact Clause.walk_invariant (I := fun r : Resolution => ∀ a, r.capture = some a → a.WellFormed)
    (fun _ _ _ => Resolution.wellFormed_step) c hstart a h

/-! ## The forms that are met -/

/-- What a form is built from holds no form. -/
theorem Form.isPlain_of_mem_parts {p x : Expr} (h : Form.of? inReturn e = some form)
    (hp : p ∈ e.parts) (hx : x ∈ p.nodes) : x.isPlain inReturn = true := by
  rcases of?_cases h with ⟨rfl, f, name, s₁, s₂, s, -, -, rfl⟩ |
    ⟨rfl, n, k, s₁, s₂, s₃, s₄, s, -, -, rfl⟩ | ⟨targets, s₁, s₂, s, -, rfl⟩
  · simp only [Expr.parts, List.mem_cons, List.not_mem_nil, or_false] at hp
    rcases hp with rfl | rfl <;> rw [List.mem_singleton.mp hx] <;> rfl
  · simp only [Expr.parts, List.mem_cons, List.not_mem_nil, or_false] at hp
    rcases hp with rfl | rfl
    · simp only [Expr.nodes, List.cons_append, List.nil_append, List.mem_cons, List.not_mem_nil,
        or_false] at hx
      rcases hx with rfl | rfl | rfl
      · rfl
      · rfl
      · rfl
    · rw [List.mem_singleton.mp hx]
      rfl
  · simp only [Expr.parts, List.mem_cons, List.not_mem_nil, or_false] at hp
    rcases hp with rfl | rfl <;> rw [List.mem_singleton.mp hx] <;> cases inReturn <;> rfl

namespace Expr

/-- Whether there is an expression at all. -/
def isReadable (e : Expr) : Bool := !(e matches .placeholder _)

/-- With no place that stops the walk, all nodes are met. -/
theorem takeWhile_isReadable {xs : List Expr} (h : ∀ x ∈ xs, x.isReadable = true) :
    xs.takeWhile isReadable = xs := by
  have hall : (xs ++ []).takeWhile isReadable = xs ++ [].takeWhile isReadable :=
    List.takeWhile_append_of_pos h
  rwa [List.takeWhile_nil, List.append_nil] at hall

/-- Whether the expression asks for the number of open calls. -/
def asksCallers (inReturn : Bool) (e : Expr) : Bool :=
  (Form.of? inReturn e) matches some (.callers _)

/-- Whether the expression asks about the entry. -/
def asksEntry (inReturn : Bool) (e : Expr) : Bool :=
  ((Form.of? inReturn e).bind Form.captures?).isSome

end Expr

namespace Resolution

/-- Resolution has come over the nodes `xs`.  Up to the first of them that could not
    be read, it has taken a counter for each one that asks for callers, and captures
    something if one of them asks about the entry. -/
structure Meets (inReturn : Bool) (xs : List Expr) (r r' : Resolution) : Prop where
  stuck : r.fault.isSome → r' = r
  fault : r.fault = none → (r'.fault = none ↔ ∀ x ∈ xs, x.isReadable = true)
  counters : r.fault = none → r'.counters.length =
    r.counters.length + (xs.takeWhile Expr.isReadable).countP (Expr.asksCallers inReturn)
  capture : r.fault = none → r'.capture.isSome =
    (r.capture.isSome || (xs.takeWhile Expr.isReadable).any (Expr.asksEntry inReturn))

/-- Plain nodes ask for nothing. -/
theorem meets_of_isPlain {xs : List Expr} (h : ∀ x ∈ xs, x.isPlain inReturn = true)
    (r : Resolution) : Meets inReturn xs r r := by
  have hform : ∀ x ∈ xs.takeWhile Expr.isReadable, Form.of? inReturn x = none := fun x hx =>
    (Expr.isPlain_iff.mp (h x ((List.takeWhile_sublist _).subset hx))).1
  refine ⟨fun _ => rfl, ?_, ?_, ?_⟩
  · intro hr
    refine ⟨fun _ x hx => ?_, fun _ => hr⟩
    have hread := (Expr.isPlain_iff.mp (h x hx)).2
    cases x with
    | placeholder s => exact absurd rfl (hread s)
    | _ => rfl
  · intro _
    rw [List.countP_eq_zero.mpr fun x hx => ?_]
    · rfl
    · rw [Expr.asksCallers, hform x hx]
      exact Bool.false_ne_true
  · intro _
    rw [List.any_eq_false.mpr fun x hx => ?_, Bool.or_false]
    rw [Expr.asksEntry, hform x hx]
    exact Bool.false_ne_true

/-- One list of nodes after the other; once the walk has stopped, the second asks for
    nothing. -/
theorem Meets.append {xs ys : List Expr} (h : Meets inReturn xs r r')
    (h' : Meets inReturn ys r' r'') : Meets inReturn (xs ++ ys) r r'' := by
  cases hr : r.fault with
  | some s =>
      have hsome : r.fault.isSome := Option.isSome_of_eq_some hr
      obtain rfl := h.stuck hsome
      exact ⟨h'.stuck, (nomatch hr.symm.trans ·), (nomatch hr.symm.trans ·),
        (nomatch hr.symm.trans ·)⟩
  | none =>
      have hstuck : r.fault.isSome → r'' = r := fun hsome => by
        rw [hr] at hsome
        cases hsome
      cases hr' : r'.fault with
      | none =>
          -- all of `xs` could be read, so what is met in `ys` adds to it
          have hxs := (h.fault hr).mp hr'
          have hcount := h.counters hr
          have hcap := h.capture hr
          rw [Expr.takeWhile_isReadable hxs] at hcount hcap
          refine ⟨hstuck, fun _ => ?_, fun _ => ?_, fun _ => ?_⟩
          · rw [h'.fault hr', List.forall_mem_append]
            exact ⟨fun hys => ⟨hxs, hys⟩, And.right⟩
          · rw [List.takeWhile_append_of_pos hxs, List.countP_append, h'.counters hr', hcount,
              Nat.add_assoc]
          · rw [List.takeWhile_append_of_pos hxs, List.any_append, h'.capture hr', hcap,
              Bool.or_assoc]
      | some s =>
          -- resolution got stuck in `xs`, and looks at nothing in `ys`
          have hxs : ¬ ∀ x ∈ xs, x.isReadable = true := fun hall => by
            rw [(h.fault hr).mpr hall] at hr'
            cases hr'
          have htake : (xs ++ ys).takeWhile Expr.isReadable = xs.takeWhile Expr.isReadable := by
            rw [List.takeWhile_append, if_neg]
            intro hlen
            have heq := (List.takeWhile_prefix Expr.isReadable (l := xs)).eq_of_length hlen
            exact hxs (List.all_eq_true.mp (heq ▸ List.all_takeWhile))
          obtain rfl := h'.stuck (Option.isSome_of_eq_some hr')
          refine ⟨hstuck, fun _ => ?_, fun _ => ?_, fun _ => ?_⟩
          · rw [h.fault hr, List.forall_mem_append]
            exact ⟨fun hall => absurd hall hxs, And.left⟩
          · rw [htake]
            exact h.counters hr
          · rw [htake]
            exact h.capture hr

/-- A form is met. -/
private theorem meets_form (hr : r.fault = none) (hform : Form.of? inReturn e = some form)
    (hrep : r.replace form e.span = (e', r')) : Meets inReturn [e] r r' := by
  have hread : e.isReadable = true := by
    cases e with
    | placeholder s => cases inReturn <;> cases hform
    | _ => rfl
  have htake : [e].takeWhile Expr.isReadable = [e] := by
    rw [List.takeWhile_cons_of_pos hread, List.takeWhile_nil]
  obtain ⟨hfault, hcase⟩ := replace_cases hrep
  refine ⟨fun hsome => ?_, fun _ => ?_, fun _ => ?_, fun _ => ?_⟩
  · rw [hr] at hsome
    cases hsome
  · rw [hfault, hr]
    exact ⟨fun _ x hx => by rw [List.mem_singleton.mp hx]; exact hread, fun _ => rfl⟩
  · rw [htake, List.countP_singleton, Expr.asksCallers, hform]
    rcases hcase with ⟨f, hf, -, -, -, hcnt⟩ | ⟨targets, rfl, -, -, -, hcnt⟩
    · cases form with
      | callers targets => cases hf
      | _ => rw [hcnt]; rfl
    · rw [hcnt, List.length_append]
      rfl
  · rw [htake, List.any_cons, List.any_nil, Bool.or_false, Expr.asksEntry, hform,
      Option.bind_some]
    rcases hcase with ⟨f, hf, -, hcap, -⟩ | ⟨targets, rfl, -, hcap, -⟩
    · rw [hcap, hf]
      exact (Bool.or_true _).symm
    · rw [hcap]
      exact (Bool.or_false _).symm

/-- A step over a form meets the form and what is inside it: nothing there is a form of
    its own, and all of it can be read. -/
theorem meets_step (h : step inReturn e r = some (e', r')) : Meets inReturn e.nodes r r' := by
  rcases step_cases h with ⟨hr, -, rfl⟩ | ⟨hr, form, hform, hrep⟩ | ⟨hr, s, rfl, -, rfl⟩
  · have hne : ∀ {P : Prop}, r'.fault = none → P := fun hnone => by
      rw [hnone] at hr
      cases hr
    exact ⟨fun _ => rfl, hne, hne, hne⟩
  · rw [Expr.nodes_eq, ← List.singleton_append]
    refine (meets_form hr hform hrep).append (meets_of_isPlain (fun x hx => ?_) r')
    obtain ⟨p, hp, hx⟩ := List.mem_flatMap.mp hx
    exact Form.isPlain_of_mem_parts hform hp hx
  · refine ⟨fun hsome => ?_, fun _ => ?_, fun _ => rfl, fun _ => ?_⟩
    · rw [hr] at hsome
      cases hsome
    · exact ⟨(nomatch ·), fun hall => Bool.noConfusion (hall _ (Expr.self_mem_nodes _))⟩
    · exact (Bool.or_false _).symm

/-- A list that is threaded through one expression at a time meets the nodes of all of
    them. -/
theorem meets_threaded {es es' : List Expr}
    (h : Expr.Threaded (fun e r _ r' => Meets inReturn e.nodes r r') es r es' r') :
    Meets inReturn (es.flatMap Expr.nodes) r r' := by
  induction h with
  | nil r => exact meets_of_isPlain (List.forall_mem_nil _) r
  | cons hhead _ ih =>
      rw [List.flatMap_cons]
      exact hhead.append ih

end Resolution

/-- Which forms of a clause are met. -/
theorem Clause.meets_resolution (c : Clause) (inReturn : Bool) (ids : Ids) :
    Resolution.Meets inReturn c.exprNodes (.start ids) (c.resolution inReturn ids) := by
  rw [exprNodes_eq]
  refine Resolution.meets_threaded (Clause.resolve_induction ?_ ?_ c ids)
  · exact fun _ _ _ => Resolution.meets_step
  · intro e r ps r' hstep hparts
    rw [Expr.nodes_eq, ← List.singleton_append]
    refine .append (Resolution.meets_of_isPlain (fun x hx => ?_) r)
      (Resolution.meets_threaded hparts)
    rw [List.mem_singleton.mp hx]
    exact (Resolution.step_eq_none_iff.mp hstep).2

/-! ## What stands in their places -/

/-- The number of the counter, if the slot is one. -/
def Slot.counter? : Slot → Option UInt32
  | callers id => some id
  | _ => none

namespace Resolution

/-- The slots that have been provided for: those of the captured fields and those of
    the counters. -/
def Provides (r : Resolution) : Slot → Prop
  | .entry f group => ∃ a, r.capture = some a ∧ a.group = group ∧ f ∈ a.fields
  | .callers id => id ∈ r.counters.map (·.id)
  | _ => False

/-- Resolution has brought in slots with the given names, all of them provided for,
    and a counter for each one that it has taken. -/
structure Brings (names : List String) (r r' : Resolution) : Prop where
  grows : ∀ slot, r.Provides slot → r'.Provides slot
  slots : ∃ slots : List Slot, names = slots.map Slot.name ∧ (∀ slot ∈ slots, r'.Provides slot) ∧
    r'.counters.map (·.id) = r.counters.map (·.id) ++ slots.filterMap Slot.counter?

theorem Brings.nil (r : Resolution) : Brings [] r r :=
  ⟨fun _ h => h, [], rfl, List.forall_mem_nil _, (List.append_nil _).symm⟩

/-- Names are brought in one list after the other, and what has been provided for stays
    so. -/
theorem Brings.append {xs ys : List String} (h : Brings xs r r') (h' : Brings ys r' r'') :
    Brings (xs ++ ys) r r'' := by
  obtain ⟨as, rfl, has, hcnt⟩ := h.slots
  obtain ⟨bs, rfl, hbs, hcnt'⟩ := h'.slots
  refine ⟨fun slot hslot => h'.grows slot (h.grows slot hslot), as ++ bs, ?_, ?_, ?_⟩
  · rw [List.map_append]
  · intro slot hslot
    rcases List.mem_append.mp hslot with hslot | hslot
    · exact h'.grows slot (has slot hslot)
    · exact hbs slot hslot
  · rw [hcnt', hcnt, List.filterMap_append, List.append_assoc]

end Resolution

/-- A replacement speaks of its slot only. -/
theorem Slot.StandsIn.reservedNames {slot : Slot} {s : Span} (h : slot.StandsIn s e) :
    e.reservedNames = [slot.name] := by
  cases h with
  | slot => exact slot.reservedNames_expr s
  | elapsed divisor =>
      have htime : (Expr.ident EntryField.timestamp.name s).reservedNames = [] := by
        rw [Expr.reservedNames_ident]
        rfl
      simp only [Resolution.elapsed, Expr.reservedNames_binary, htime, reservedNames_expr,
        Expr.reservedNames_int, List.nil_append, List.append_nil]

namespace Resolution

/-- A group is kept when a field is added. -/
theorem group_withField {a : Capture} (h : r.capture = some a) (f : EntryField) :
    (r.withField f).1.group = a.group := by
  unfold withField
  rw [h]

/-- A step brings in the slot that stands in the place of a form, and provides for it. -/
theorem brings_step (he : e.Unreserved) (h : step inReturn e r = some (e', r')) :
    Brings e'.reservedNames r r' := by
  rcases step_cases h with ⟨-, rfl, rfl⟩ | ⟨-, form, -, hrep⟩ | ⟨-, s, -, rfl, rfl⟩
  · rw [he.reservedNames]
    exact .nil _
  · obtain ⟨-, ⟨f, -, hin, hcap, -, hcnt⟩ | ⟨targets, -, rfl, hcap, -, hcnt⟩⟩ :=
      replace_cases hrep
    · rw [hin.reservedNames]
      refine ⟨?_, [_], rfl, ?_, ?_⟩
      · intro slot hslot
        cases slot with
        | entry g group =>
            obtain ⟨a, ha, hgroup, hg⟩ := hslot
            exact ⟨_, hcap, (group_withField ha f).trans hgroup,
              mem_withField.mpr (.inr (.inr ⟨a, ha, hg⟩))⟩
        | callers id =>
            show id ∈ _
            rw [hcnt]
            exact hslot
        | _ => exact hslot
      · intro slot hslot
        rw [List.mem_singleton.mp hslot]
        exact ⟨_, hcap, rfl, mem_withField.mpr (.inr (.inl rfl))⟩
      · rw [hcnt]
        exact (List.append_nil _).symm
    · have hcounters : r'.counters.map (·.id) = r.counters.map (·.id) ++ [r.ids.counters + 1] := by
        rw [hcnt, List.map_append]
        rfl
      rw [Slot.reservedNames_expr]
      refine ⟨?_, [_], rfl, ?_, hcounters⟩
      · intro slot hslot
        cases slot with
        | entry g group =>
            obtain ⟨a, ha, hg⟩ := hslot
            exact ⟨a, hcap.trans ha, hg⟩
        | callers id =>
            show id ∈ _
            rw [hcounters]
            exact List.mem_append_left _ hslot
        | _ => exact hslot
      · intro slot hslot
        rw [List.mem_singleton.mp hslot]
        show _ ∈ _
        rw [hcounters]
        exact List.mem_append_right _ List.mem_cons_self
  · rw [he.reservedNames]
    exact ⟨fun slot hslot => by cases slot <;> exact hslot, [], rfl, List.forall_mem_nil _,
      (List.append_nil _).symm⟩

end Resolution

section Names

variable {R : List String → Resolution → Resolution → Prop} (hnil : ∀ r, R [] r r)
  (happend : ∀ {xs ys r r' r''}, R xs r r' → R ys r' r'' → R (xs ++ ys) r r'')

include hnil happend in
private theorem names_threaded {es es' : List Expr} (hes : ∀ e ∈ es, e.Unreserved)
    (h : Expr.Threaded (fun e r e' r' => e.Unreserved → R e'.reservedNames r r') es r es' r') :
    R (es'.flatMap Expr.reservedNames) r r' := by
  induction h with
  | nil r => exact hnil r
  | cons hhead _ ih =>
      rw [List.flatMap_cons]
      exact happend (hhead (hes _ List.mem_cons_self))
        (ih fun e he => hes e (List.mem_cons_of_mem _ he))

include hnil happend in
/-- What holds of the slots that each step brings in, in order, holds of those that a clause
    speaks of after resolution. -/
theorem Clause.names_induction
    (hstep : ∀ {e r e' r'}, e.Unreserved → Resolution.step inReturn e r = some (e', r') →
      R e'.reservedNames r r') {c : Clause} (hc : c.Unreserved) (ids : Ids) :
    R (c.resolve inReturn ids).clause.reservedNames (.start ids) (c.resolution inReturn ids) := by
  refine names_threaded hnil happend (fun e he => hc.of_mem_exprs he)
    (Clause.resolve_induction ?_ ?_ c ids)
  · exact fun _ _ _ h he => hstep he h
  · intro e r ps r' _ hps he
    have hself : (e.rebuild ps).reservedName? = none := by
      rw [Expr.reservedName?, Expr.identName?_rebuild]
      exact he e (Expr.self_mem_nodes e)
    rw [Expr.reservedNames_eq, hself, Expr.parts_rebuild hps.length_eq]
    exact names_threaded hnil happend (fun p hp => he.of_mem_parts hp) hps

end Names

/-- Which slots a clause that had none speaks of after resolution. -/
theorem Clause.brings_resolution {c : Clause} (hc : c.Unreserved) (inReturn : Bool) (ids : Ids) :
    Resolution.Brings (c.resolve inReturn ids).clause.reservedNames (.start ids)
      (c.resolution inReturn ids) :=
  Clause.names_induction .nil .append Resolution.brings_step hc ids

end ProbeLang
