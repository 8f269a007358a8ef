import Mathlib.Algebra.GroupWithZero.Nat
import ProbeLang.Proofs.Expand
import ProbeLang.Proofs.Requests

/-! # Clauses share no slot that outlives them

    The slots of captured values and of counters keep what they hold from one firing
    to the next, so no two clauses of a session may use the same one.  They are told
    apart by the numbers in their names, and over any sequence of calls a session
    hands each number out once, also if a clause turns out to be wrong after it has
    taken some (`Session.separates_of_unreserved`).

    Each expansion owns the numbers that are handed out while it lasts
    (`Expansion.Owns`).  All slots that come out of it are its own, and the numbers of
    two expansions lie in stretches one after the other (`Successive`).  All this is as
    long as there are words left: the calls may not ask for more numbers than there is
    room for (`Session.RoomFor`). -/

namespace ProbeLang

/-! ## Names of slots that outlive a firing -/

namespace Slot

/-- Whether a name starts like that of a slot for a captured value. -/
def isEntryName (name : String) : Bool :=
  (mark ++ "entry_").toList.isPrefixOf name.toList

/-- Whether a name starts like that of a counter. -/
def isCallersName (name : String) : Bool :=
  (mark ++ "callers_").toList.isPrefixOf name.toList

/-- Entry names are those of entry slots, and of no others. -/
theorem isEntryName_name (slot : Slot) :
    isEntryName slot.name = (slot matches .entry ..) := by
  cases slot <;> simp [isEntryName, name, mark, List.isPrefixOf]

/-- Counter names are those of counters, and of no others. -/
theorem isCallersName_name (slot : Slot) :
    isCallersName slot.name = slot.counter?.isSome := by
  cases slot <;> simp [isCallersName, name, mark, List.isPrefixOf, counter?]

end Slot

/-- The names in some clauses that start like those of captured values or counters. -/
def Clause.persistentNames (cs : List Clause) : List String :=
  (cs.flatMap Clause.reservedNames).filter fun name =>
    Slot.isEntryName name || Slot.isCallersName name

/-! ## The slots that clauses speak of -/

namespace Expr

/-- Every slot that the expression speaks of has the property. -/
def SpeaksOf (P : Slot → Prop) (e : Expr) : Prop :=
  ∀ name ∈ e.reservedNames, ∃ slot : Slot, name = slot.name ∧ P slot

/-- Expansion brings in no slots but those that it puts there itself. -/
theorem composable_speaksOf (P : Slot → Prop) : Composable (SpeaksOf P) P where
  slot := by
    intro slot s hslot name hname
    rw [Slot.reservedNames_expr] at hname
    exact ⟨slot, List.mem_singleton.mp hname, hslot⟩
  int := fun n s name hname => nomatch hname
  captured := by
    intro f s e h name hname
    have hnone : e.reservedNames = [] := by
      cases f with
      | elapsed unit => cases h
      | args n =>
          obtain rfl := Option.some.inj h
          rfl
      | _ =>
          obtain rfl := Option.some.inj h
          rw [reservedNames_ident, Slot.isReserved_fieldName]
          rfl
    rw [hnone] at hname
    cases hname
  unary := by
    intro op a s ha name hname
    rw [reservedNames_unary] at hname
    exact ha name hname
  binary := by
    intro op a b s _ ha hb name hname
    rw [reservedNames_binary] at hname
    rcases List.mem_append.mp hname with hname | hname
    · exact ha name hname
    · exact hb name hname

end Expr

/-! ## Expansions and what they own -/

/-- An expansion that a session makes. -/
structure Expansion where
  /-- The session before it. -/
  session : Session
  clause : Clause

namespace Expansion

variable (x : Expansion)

/-- What it leads to. -/
def outcome : Step (List Clause) := x.session.expand x.clause

/-- The clause with its forms replaced, as far as it could be read. -/
def rewritten : Clause := (x.clause.resolve x.clause.allReturn x.session.ids).clause

/-- The names of the counters in the places of the forms, in source order. -/
def counterNames : List String := x.rewritten.reservedNames.filter Slot.isCallersName

/-- The forms that ask for callers, as far as the clause could be read. -/
def callersForms : List Expr :=
  (x.clause.exprNodes.takeWhile Expr.isReadable).filter (Expr.asksCallers x.clause.allReturn)

/-- The slots with the numbers that are handed out while it lasts. -/
def Owns : Slot → Prop
  | .entry _ group => x.session.ids.groups < group ∧ group ≤ x.outcome.session.ids.groups
  | .callers id => x.session.ids.counters < id ∧ id ≤ x.outcome.session.ids.counters
  | _ => False

variable {x}

/-- There is room for the numbers that it takes. -/
def HasRoom (x : Expansion) : Prop := x.session.ids.RoomFor x.clause.met

/-- What it asks for is what the forms that it meets need. -/
theorem asked : Resolution.Asked x.session.ids x.clause.met
    (x.clause.resolution x.clause.allReturn x.session.ids) :=
  x.clause.asked_resolution x.clause.allReturn x.session.ids

/-- It takes the numbers of the forms that it meets, and no others. -/
theorem ids_outcome : x.outcome.session.ids = Request.idsAfter x.session.ids x.clause.met := by
  show (x.session.expand x.clause).session.ids = _
  rw [Session.expand_ids]
  exact x.asked.ids

/-- What resolution provides for belongs to the expansion. -/
theorem owns_of_provides (hroom : x.HasRoom) {slot : Slot}
    (h : (x.clause.resolution x.clause.allReturn x.session.ids).Provides slot) : x.Owns slot := by
  have hfollow := Request.follow_of_roomFor hroom
  cases slot with
  | entry f group =>
      obtain ⟨a, ha, rfl, -⟩ := h
      rw [x.asked.capture] at ha
      have hgroup := hfollow.group a ha
      have hafter := hfollow.groupsAfter
      rw [(Request.group_of_capture ha).2] at hafter
      show _ < _ ∧ _ ≤ _
      rw [x.ids_outcome, UInt32.lt_iff_toNat_lt, UInt32.le_iff_toNat_le]
      omega
  | callers id =>
      have hid : id ∈ List.map _ _ := h
      rw [x.asked.counters] at hid
      have hnumber : id.toNat ∈ (Request.counters x.session.ids x.clause.met).map (·.id.toNat) := by
        obtain ⟨counter, hcounter, rfl⟩ := List.mem_map.mp hid
        exact List.mem_map_of_mem hcounter
      rw [hfollow.counters, List.mem_range'_1] at hnumber
      have hafter := hfollow.countersAfter
      show _ < _ ∧ _ ≤ _
      rw [x.ids_outcome, UInt32.lt_iff_toNat_lt, UInt32.le_iff_toNat_le]
      omega
  | _ => exact h

/-- The forms that ask for callers are the ones that take counters. -/
private theorem length_counters :
    (Request.counters x.session.ids x.clause.met).length = x.callersForms.length := by
  rw [callersForms, ← List.countP_eq_length_filter, ← x.asked.counters,
    (x.clause.meets_resolution x.clause.allReturn x.session.ids).counters rfl]
  exact Nat.zero_add _

/-- In the places of the forms stand the counters that were taken for them. -/
theorem counterNames_eq (hc : x.clause.Unreserved) :
    x.counterNames =
      ((Request.counters x.session.ids x.clause.met).map (·.id)).map
        fun id => (Slot.callers id).name := by
  have hfilter : ∀ slots : List Slot, (slots.map Slot.name).filter Slot.isCallersName =
      (slots.filterMap Slot.counter?).map fun id => (Slot.callers id).name := by
    intro slots
    induction slots with
    | nil => rfl
    | cons slot slots ih =>
        rw [List.map_cons, List.filter_cons, Slot.isCallersName_name, ih]
        cases slot <;> rfl
  obtain ⟨slots, hnames, -, hcounters⟩ :=
    (Clause.brings_resolution hc x.clause.allReturn x.session.ids).slots
  have hids : slots.filterMap Slot.counter? =
      (Request.counters x.session.ids x.clause.met).map (·.id) := by
    rw [← x.asked.counters]
    exact hcounters.symm
  rw [counterNames, rewritten, hnames, hfilter, hids]

/-- The counters of one expansion differ. -/
theorem nodup_counterNames (hc : x.clause.Unreserved) (hroom : x.HasRoom) :
    x.counterNames.Nodup := by
  have hnumbers := (Request.follow_of_roomFor hroom).counters
  have hnodup : ((Request.counters x.session.ids x.clause.met).map (·.id.toNat)).Nodup := by
    rw [hnumbers]
    exact List.nodup_range'
  rw [counterNames_eq hc, List.map_map]
  rw [List.Nodup, List.pairwise_map] at hnodup ⊢
  refine hnodup.imp fun hne hname => hne ?_
  exact congrArg UInt32.toNat (Slot.callers.inj (Slot.name_injective hname))

/-- The persistent slots that come out of an expansion are those it has provided for. -/
theorem provides_of_mem (hc : x.clause.Unreserved) {out : List Clause}
    (h : x.outcome.result = .ok out) {name : String} (hname : name ∈ Clause.persistentNames out) :
    ∃ slot : Slot, name = slot.name ∧
      (x.clause.resolution x.clause.allReturn x.session.ids).Provides slot := by
  -- besides what was provided for there are the flag and conditions, which do not persist
  let P : Slot → Prop := fun slot => slot = .error ∨ (∃ id, slot = .condition id) ∨
    (x.clause.resolution x.clause.allReturn x.session.ids).Provides slot
  have hbody : ∀ e ∈ x.rewritten.exprs, e.SpeaksOf P := by
    intro e he name hname
    obtain ⟨slots, hnames, hslots, -⟩ :=
      (Clause.brings_resolution hc x.clause.allReturn x.session.ids).slots
    have hmem : name ∈ slots.map Slot.name := by
      rw [← hnames]
      exact List.mem_flatMap.mpr ⟨e, he, hname⟩
    obtain ⟨slot, hslot, rfl⟩ := List.mem_map.mp hmem
    exact ⟨slot, rfl, .inr (.inr (hslots slot hslot))⟩
  have hall : ∀ k ∈ out, k.MadeOf (Expr.SpeaksOf P) := fun k hk =>
    Session.madeOf_of_mem_expand (Expr.composable_speaksOf P) (.inl rfl)
      (fun id => .inr (.inl ⟨id, rfl⟩)) (fun _ hslot => .inr (.inr hslot)) h hk fun _ => hbody
  obtain ⟨hname, hpersistent⟩ := List.mem_filter.mp hname
  obtain ⟨k, hk, hname⟩ := List.mem_flatMap.mp hname
  obtain ⟨e, he, hname⟩ := List.mem_flatMap.mp hname
  obtain ⟨slot, rfl, rfl | ⟨id, rfl⟩ | hprovides⟩ := (hall k hk).exprs e he name hname
  · rw [Slot.isEntryName_name, Slot.isCallersName_name] at hpersistent
    cases hpersistent
  · rw [Slot.isEntryName_name, Slot.isCallersName_name] at hpersistent
    cases hpersistent
  · exact ⟨slot, rfl, hprovides⟩

end Expansion

/-! ## Histories -/

/-- No more has been handed out at `a` than at `b`. -/
instance : LE Ids := ⟨fun a b => a.groups ≤ b.groups ∧ a.counters ≤ b.counters⟩

theorem Ids.le_refl (a : Ids) : a ≤ a := ⟨UInt32.le_refl _, UInt32.le_refl _⟩

theorem Ids.le_trans {a b c : Ids} (h : a ≤ b) (h' : b ≤ c) : a ≤ c :=
  ⟨UInt32.le_trans h.1 h'.1, UInt32.le_trans h.2 h'.2⟩

/-- An expansion takes no number back. -/
theorem Expansion.session_le_outcome {x : Expansion} (hroom : x.HasRoom) :
    x.session.ids ≤ x.outcome.session.ids := by
  have hfollow := Request.follow_of_roomFor hroom
  rw [x.ids_outcome]
  refine ⟨?_, ?_⟩
  · rw [UInt32.le_iff_toNat_le, hfollow.groupsAfter]
    exact Nat.le_add_right _ _
  · rw [UInt32.le_iff_toNat_le, hfollow.countersAfter]
    exact Nat.le_add_right _ _

/-- Expansions each of which starts with the numbers that the one before has left. -/
inductive Successive : Ids → List Expansion → Ids → Prop where
  | nil (a : Ids) : Successive a [] a
  | cons {x : Expansion} {xs : List Expansion} {b : Ids} :
      Successive x.outcome.session.ids xs b → Successive x.session.ids (x :: xs) b

namespace Successive

variable {a b d : Ids} {xs ys : List Expansion}

/-- Histories compose. -/
theorem append (h : Successive a xs b) (h' : Successive b ys d) : Successive a (xs ++ ys) d := by
  induction h with
  | nil a => exact h'
  | cons _ ih => exact .cons (ih h')

/-- Room for the numbers of all expansions is room for those of each one: what the ones
    before it have taken is used up exactly. -/
theorem hasRoom (h : Successive a xs b)
    (hroom : a.HasRoom (xs.map fun x => Request.groupCount x.clause.met).sum
      (xs.map fun x => x.clause.met.countP Request.isCallers).sum) : ∀ x ∈ xs, x.HasRoom := by
  induction h with
  | nil a => exact List.forall_mem_nil _
  | @cons x xs b hrest ih =>
      rw [List.map_cons, List.sum_cons, List.map_cons, List.sum_cons] at hroom
      have hlater := ih (x.ids_outcome ▸ hroom.taking)
      exact List.forall_mem_cons.mpr
        ⟨hroom.mono (Nat.le_add_right _ _) (Nat.le_add_right _ _), hlater⟩

/-- With room for all that is taken, numbers only grow along a history. -/
theorem le (h : Successive a xs b) (hxs : ∀ x ∈ xs, x.HasRoom) : a ≤ b := by
  induction h with
  | nil a => exact a.le_refl
  | cons _ ih =>
      obtain ⟨hx, hxs⟩ := List.forall_mem_cons.mp hxs
      exact Ids.le_trans (Expansion.session_le_outcome hx) (ih hxs)

/-- So each expansion of a history starts behind the numbers that the history started
    with. -/
theorem le_session (h : Successive a xs b) (hxs : ∀ x ∈ xs, x.HasRoom) :
    ∀ x ∈ xs, a ≤ x.session.ids := by
  induction h with
  | nil a => exact List.forall_mem_nil _
  | cons _ ih =>
      obtain ⟨hx, hxs⟩ := List.forall_mem_cons.mp hxs
      refine List.forall_mem_cons.mpr ⟨Ids.le_refl _, fun y hy => ?_⟩
      exact Ids.le_trans (Expansion.session_le_outcome hx) (ih hxs y hy)

/-- What one expansion has handed out is behind all that come after it. -/
theorem pairwise (h : Successive a xs b) (hxs : ∀ x ∈ xs, x.HasRoom) :
    xs.Pairwise fun x y => x.outcome.session.ids ≤ y.session.ids := by
  induction h with
  | nil a => exact .nil
  | cons hrest ih =>
      obtain ⟨-, hxs⟩ := List.forall_mem_cons.mp hxs
      exact List.pairwise_cons.mpr ⟨hrest.le_session hxs, ih hxs⟩

end Successive

/-- A call of a session. -/
inductive Call where
  | expand (c : Clause)
  | compile (p : Program)

namespace Session

/-- The expansions that a list of clauses leads to, up to the first one that fails. -/
def expansionsOf (s : Session) : List Clause → List Expansion
  | [] => []
  | c :: cs =>
      ⟨s, c⟩ :: match (s.expand c).result with
        | .ok _ => (s.expand c).session.expansionsOf cs
        | .error _ => []

/-- The expansions of a list are those of its clauses. -/
theorem clause_mem_of_mem_expansionsOf {s : Session} {cs : List Clause} {x : Expansion}
    (h : x ∈ s.expansionsOf cs) : x.clause ∈ cs := by
  induction cs generalizing s with
  | nil => cases h
  | cons c cs ih =>
      rcases List.mem_cons.mp h with rfl | h
      · exact List.mem_cons_self
      · split at h
        · exact List.mem_cons_of_mem c (ih h)
        · cases h

/-- The expansions of a list start one after the other, up to the first that fails. -/
theorem successive_expansionsOf (s : Session) (cs : List Clause) :
    Successive s.ids (s.expansionsOf cs) (s.expandAll cs).session.ids := by
  induction cs generalizing s with
  | nil => exact .nil _
  | cons c cs ih =>
      refine .cons (x := ⟨s, c⟩) ?_
      cases hres : (s.expand c).result with
      | error e =>
          -- the list ends here, with what the failed expansion has handed out
          simp only [expandAll, hres]
          exact .nil _
      | ok out =>
          simp only [expandAll, hres]
          exact ih _

end Session

namespace Call

/-- The clauses that a call is about. -/
def sources : Call → List Clause
  | expand c => [c]
  | compile p => p.clauses

/-- The session after a call. -/
def after (s : Session) : Call → Session
  | expand c => (s.expand c).session
  | compile p => (s.compile p).session

/-- The expansions that a call leads to. -/
def expansions (s : Session) : Call → List Expansion
  | expand c => [⟨s, c⟩]
  | compile p => if s.config.experimental then s.expansionsOf p.clauses else []

/-- The expansions of a call are those of clauses that the call is about. -/
theorem clause_mem_sources {s : Session} {call : Call} {x : Expansion}
    (h : x ∈ call.expansions s) : x.clause ∈ call.sources := by
  cases call with
  | expand c => exact List.mem_singleton.mpr (congrArg Expansion.clause (List.mem_singleton.mp h))
  | compile p =>
      have h : x ∈ if s.config.experimental then s.expansionsOf p.clauses else [] := h
      split at h
      · exact Session.clause_mem_of_mem_expansionsOf h
      · cases h

/-- The expansions of a call lead from the numbers before it to those after it; a call
    that expands nothing leaves them. -/
theorem successive_expansions (s : Session) (call : Call) :
    Successive s.ids (call.expansions s) (call.after s).ids := by
  cases call with
  | expand c => exact .cons (x := ⟨s, c⟩) (.nil _)
  | compile p =>
      unfold expansions after Session.compile
      cases s.config.experimental with
      | false =>
          simp only [Bool.false_eq_true, if_false]
          split <;> exact .nil _
      | true =>
          simp only [if_true]
          split <;> exact s.successive_expansionsOf p.clauses

end Call

namespace Session

/-- The session after some calls. -/
def run (s : Session) (calls : List Call) : Session := calls.foldl (fun s call => call.after s) s

/-- The expansions that some calls lead to, in order; those that fail are among them. -/
def history (s : Session) : List Call → List Expansion
  | [] => []
  | call :: calls => call.expansions s ++ (call.after s).history calls

/-- And the same for calls one after the other. -/
theorem successive_history (s : Session) (calls : List Call) :
    Successive s.ids (s.history calls) (s.run calls).ids := by
  induction calls generalizing s with
  | nil => exact .nil _
  | cons call calls ih => exact (call.successive_expansions s).append (ih _)

/-- Later calls add to what earlier ones have left. -/
theorem history_append (s : Session) (early late : List Call) :
    s.history (early ++ late) = s.history early ++ (s.run early).history late := by
  induction early generalizing s with
  | nil => rfl
  | cons call calls ih =>
      rw [List.cons_append, history, history, ih, List.append_assoc]
      rfl

/-- What is expanded along some calls has been given to one of them. -/
theorem clause_mem_of_mem_history {s : Session} {calls : List Call} {x : Expansion}
    (h : x ∈ s.history calls) : ∃ call ∈ calls, x.clause ∈ call.sources := by
  induction calls generalizing s with
  | nil => cases h
  | cons call calls ih =>
      rcases List.mem_append.mp h with h | h
      · exact ⟨call, List.mem_cons_self, Call.clause_mem_sources h⟩
      · obtain ⟨call', hcall, hx⟩ := ih h
        exact ⟨call', List.mem_cons_of_mem call hcall, hx⟩

end Session

/-! ## No slot is shared -/

namespace Successive

variable {a b : Ids} {xs : List Expansion}

/-- Counters are taken once, also by expansions that fail. -/
theorem nodup_counterNames (h : Successive a xs b) (hxs : ∀ x ∈ xs, x.clause.Unreserved)
    (hroom : ∀ x ∈ xs, x.HasRoom) :
    (xs.flatMap Expansion.counterNames).Nodup ∧
      ∀ name ∈ xs.flatMap Expansion.counterNames,
        ∃ id, a.counters < id ∧ name = (Slot.callers id).name := by
  -- the second half carries the induction: later counters are behind the earlier ones
  induction h with
  | nil a => exact ⟨.nil, List.forall_mem_nil _⟩
  | @cons x xs b hrest ih =>
      obtain ⟨hc, hxs⟩ := List.forall_mem_cons.mp hxs
      obtain ⟨hx, hroom⟩ := List.forall_mem_cons.mp hroom
      obtain ⟨hnodup, hlater⟩ := ih hxs hroom
      have hown : ∀ name ∈ x.counterNames, ∃ id, x.Owns (.callers id) ∧
          name = (Slot.callers id).name := by
        intro name hname
        rw [Expansion.counterNames_eq hc, ← x.asked.counters] at hname
        obtain ⟨id, hid, rfl⟩ := List.mem_map.mp hname
        have howns : x.Owns (.callers id) := Expansion.owns_of_provides hx hid
        exact ⟨id, howns, rfl⟩
      rw [List.flatMap_cons]
      refine ⟨List.nodup_append.mpr ⟨Expansion.nodup_counterNames hc hx, hnodup, ?_⟩, ?_⟩
      · rintro name hname _ hname' rfl
        obtain ⟨id, hid, rfl⟩ := hown name hname
        obtain ⟨id', hlt, heq⟩ := hlater _ hname'
        obtain rfl : id = id' := Slot.callers.inj (Slot.name_injective heq)
        exact absurd hid.2 (UInt32.not_le.mpr hlt)
      · intro name hname
        rcases List.mem_append.mp hname with hname | hname
        · obtain ⟨id, hid, heq⟩ := hown name hname
          exact ⟨id, hid.1, heq⟩
        · obtain ⟨id, hlt, heq⟩ := hlater name hname
          exact ⟨id, UInt32.lt_of_le_of_lt (Expansion.session_le_outcome hx).2 hlt, heq⟩

end Successive

/-- What belongs to one expansion does not belong to a later one. -/
theorem Expansion.not_owns_of_le {x y : Expansion}
    (h : x.outcome.session.ids ≤ y.session.ids) {slot : Slot} (hx : x.Owns slot) :
    ¬ y.Owns slot := by
  intro hy
  cases slot with
  | entry f group => exact UInt32.not_le.mpr hy.1 (UInt32.le_trans hx.2 h.1)
  | callers id => exact UInt32.not_le.mpr hy.1 (UInt32.le_trans hx.2 h.2)
  | _ => exact hx

namespace Session

/-- Over some calls of a session, no slot that outlives a firing is shared between
    clauses. -/
structure Separates (s : Session) (calls : List Call) : Prop where
  /-- The numbers of groups and counters that are handed out never go down. -/
  monotone : ∀ early middle late, calls = early ++ middle ++ late →
    (s.run early).ids ≤ (s.run (early ++ middle)).ids
  /-- No name of a captured value or of a counter comes out of two expansions. -/
  disjoint : (s.history calls).Pairwise fun x y =>
    ∀ out out', x.outcome.result = .ok out → y.outcome.result = .ok out' →
      ∀ name ∈ Clause.persistentNames out, name ∉ Clause.persistentNames out'
  /-- The captured values of an expansion are all in one group. -/
  oneGroup : ∀ x ∈ s.history calls, ∀ out, x.outcome.result = .ok out →
    ∃ group, ∀ name ∈ Clause.persistentNames out, Slot.isEntryName name = true →
      ∃ f, name = (Slot.entry f group).name
  /-- The counters of an expansion are those in the places of its forms. -/
  ownCounters : ∀ x ∈ s.history calls, ∀ out, x.outcome.result = .ok out →
    ∀ name ∈ Clause.persistentNames out, Slot.isCallersName name = true → name ∈ x.counterNames
  /-- There is one for each form, whether the expansion succeeds or not. -/
  eachCounter : ∀ x ∈ s.history calls, x.counterNames.length = x.callersForms.length
  /-- No counter stands in two places, of one expansion or of several. -/
  nodup : ((s.history calls).flatMap Expansion.counterNames).Nodup

/-- There is room for the numbers that all expansions of some calls take. -/
def RoomFor (s : Session) (calls : List Call) : Prop :=
  s.ids.HasRoom ((s.history calls).map fun x => Request.groupCount x.clause.met).sum
    ((s.history calls).map fun x => x.clause.met.countP Request.isCallers).sum

/-- Whatever a session is called for, no slot that outlives a firing is shared between
    clauses, as long as the clauses have no slots of their own and there is room for the
    numbers that they take. -/
theorem separates_of_unreserved (s : Session) {calls : List Call}
    (h : ∀ call ∈ calls, ∀ c ∈ call.sources, c.Unreserved) (hroom : s.RoomFor calls) :
    s.Separates calls := by
  have hsource : ∀ x ∈ s.history calls, x.clause.Unreserved := by
    intro x hx
    obtain ⟨call, hcall, hx⟩ := clause_mem_of_mem_history hx
    exact h call hcall _ hx
  have hsucc := s.successive_history calls
  have hfits : ∀ x ∈ s.history calls, x.HasRoom := hsucc.hasRoom hroom
  refine ⟨?_, ?_, ?_, ?_, ?_, (hsucc.nodup_counterNames hsource hfits).1⟩
  · rintro early middle late rfl
    have hrun : s.run (early ++ middle) = (s.run early).run middle := List.foldl_append
    rw [hrun]
    refine ((s.run early).successive_history middle).le fun x hx => hfits x ?_
    rw [history_append, history_append]
    exact List.mem_append_left _ (List.mem_append_right _ hx)
  · refine (hsucc.pairwise hfits).imp_of_mem ?_
    intro x y hx hy hle out out' hout hout' name hname hname'
    obtain ⟨slot, rfl, hslot⟩ := Expansion.provides_of_mem (hsource x hx) hout hname
    obtain ⟨slot', heq, hslot'⟩ := Expansion.provides_of_mem (hsource y hy) hout' hname'
    obtain rfl : slot = slot' := Slot.name_injective heq
    exact Expansion.not_owns_of_le hle (Expansion.owns_of_provides (hfits x hx) hslot)
      (Expansion.owns_of_provides (hfits y hy) hslot')
  · intro x hx out hout
    refine ⟨x.session.ids.groups + 1, fun name hname hentry => ?_⟩
    obtain ⟨slot, rfl, hslot⟩ := Expansion.provides_of_mem (hsource x hx) hout hname
    rw [Slot.isEntryName_name] at hentry
    cases slot with
    | entry f group =>
        obtain ⟨a, ha, rfl, -⟩ := hslot
        rw [x.asked.capture] at ha
        exact ⟨f, by rw [(Request.group_of_capture ha).1]⟩
    | _ => cases hentry
  · intro x hx out hout name hname hcallers
    obtain ⟨slot, rfl, hslot⟩ := Expansion.provides_of_mem (hsource x hx) hout hname
    rw [Slot.isCallersName_name] at hcallers
    cases slot with
    | callers id =>
        have hid : id ∈ List.map _ _ := hslot
        rw [x.asked.counters] at hid
        rw [Expansion.counterNames_eq (hsource x hx)]
        exact List.mem_map.mpr ⟨id, hid, rfl⟩
    | _ => cases hcallers
  · intro x hx
    rw [Expansion.counterNames_eq (hsource x hx), List.length_map, List.length_map,
      x.length_counters]

/-- The first clause takes a counter before it turns out to be wrong; the two of the
    program capture something, and take counters too. -/
theorem separates_after_failure :
    let s : Session := ⟨.experimentalOn, ⟨"dtrace", "", "", "ERROR"⟩, .fresh, false⟩
    let name (text : String) : Expr := .ident text .nowhere
    let callers : Expr := .index (name "callers") [.str "syscall::open" .nowhere] .nowhere
    let elapsed : Expr := .binary .ptr (name "entry") (name "elapsed_us") .nowhere
    let read (stmts : List Stmt) : Clause :=
      ⟨[⟨"syscall", "", "read", "return"⟩], some callers, stmts, .nowhere⟩
    let calls : List Call :=
      [.expand (read [.expr (.placeholder .nowhere)]),
        .compile ⟨[read [.branch elapsed [.expr callers] [] .nowhere], read [.expr elapsed]]⟩]
    (∀ call ∈ calls, ∀ c ∈ call.sources, c.Unreserved) ∧ s.RoomFor calls ∧
      (s.history calls).flatMap Expansion.counterNames =
        ["_XD_callers_1", "_XD_callers_2", "_XD_callers_3", "_XD_callers_4"] ∧
      s.Separates calls := by
  intro s name callers elapsed read calls
  have h : ∀ call ∈ calls, ∀ c ∈ call.sources, c.Unreserved := by decide
  have hroom : s.RoomFor calls := ⟨by decide +kernel, by decide +kernel⟩
  exact ⟨h, hroom, by decide +kernel, separates_of_unreserved s h hroom⟩

end Session

end ProbeLang
