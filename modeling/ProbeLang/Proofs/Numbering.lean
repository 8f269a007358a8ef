import Mathlib.Algebra.GroupWithZero.Nat
import ProbeLang.Proofs.Unrolling

/-! # The numbers of conditions

    A builder hands out conditions when it is asked for one, and for the lists inside the
    statements that it visits: one for each list of a branch and one for the body of a
    loop.  Each is for one such place (`Place`), and they are numbered from one up in the
    order of the source (`Stmt.placesAll`).

    What comes out can work out a condition several times or not at all, for it depends
    on how often a loop runs (`Stmt.settingsAll`).  The numbers do not
    (`Emitted.Splits.numbered`): a condition that is worked out is always the one of the
    place it is for.

    The numbers are kept in words.  With fewer than `2 ^ 32` conditions, the words differ
    and are ordered as the numbers are (`ConditionId.Ascends.words`), so that all of this
    is true of the words (`Blocks.conditions_in_order`). -/

namespace ProbeLang

/-! ## Places -/

/-- Where a condition is asked for: by a call of the builder, or for a list inside the
    statements that the call visits.  The path leads there from the outside, by the
    position of a statement and whether the list is for when its test holds. -/
structure Place where
  call : Nat
  path : List (Nat × Bool)
deriving DecidableEq

namespace Place

/-- The list inside statement `i` of the list at a place. -/
def within (p : Place) (i : Nat) (holds : Bool) : Place := ⟨p.call, p.path ++ [(i, holds)]⟩

/-- The place is the list of statement `i` that is given, or inside it. -/
def Inside (p : Place) (i : Nat) (holds : Bool) (q : Place) : Prop :=
  ∃ rest, q = ⟨p.call, p.path ++ (i, holds) :: rest⟩

/-- The place is inside a statement from number `i` on of the list at `p`. -/
def Among (p : Place) (i : Nat) (q : Place) : Prop := ∃ j holds, i ≤ j ∧ p.Inside j holds q

variable {p q : Place} {i j : Nat} {holds holds' : Bool} {qs : List Place}

/-- The list of a statement is inside the statement. -/
theorem inside_within (p : Place) (i : Nat) (holds : Bool) :
    p.Inside i holds (p.within i holds) :=
  ⟨[], rfl⟩

/-- What is inside a list that is itself inside a statement is inside the statement. -/
theorem Inside.outer (h : (p.within i holds).Inside j holds' q) : p.Inside i holds q := by
  obtain ⟨rest, rfl⟩ := h
  refine ⟨(j, holds') :: rest, ?_⟩
  simp [within]

/-- A place is inside one statement of a list only, and in one branch of it; this is
    what tells places apart. -/
theorem Inside.unique (h : p.Inside i holds q) (h' : p.Inside j holds' q) :
    i = j ∧ holds = holds' := by
  obtain ⟨rest, rfl⟩ := h
  obtain ⟨rest', heq⟩ := h'
  have hpath := List.append_cancel_left (congrArg path heq)
  exact Prod.mk.inj (List.cons.inj hpath).1

/-- No list is inside its own statements. -/
theorem not_inside_self (h : p.Inside i holds p) : False := by
  obtain ⟨rest, heq⟩ := h
  have hlength := congrArg (fun q => q.path.length) heq
  simp at hlength

/-- A list and what is among its statements are inside it. -/
theorem inside_of_mem_cons (hqs : ∀ q ∈ qs, (p.within i holds).Among 0 q)
    (h : q ∈ p.within i holds :: qs) : p.Inside i holds q := by
  rcases List.mem_cons.mp h with rfl | h
  · exact p.inside_within i holds
  · obtain ⟨j, holds', -, hq⟩ := hqs q h
    exact hq.outer

/-- A list is not among its own statements, so it can be put before the places in them. -/
theorem nodup_cons (hqs : ∀ q ∈ qs, (p.within i holds).Among 0 q) (h : qs.Nodup) :
    (p.within i holds :: qs).Nodup := by
  refine List.nodup_cons.mpr ⟨?_, h⟩
  intro hmem
  obtain ⟨j, holds', -, hself⟩ := hqs _ hmem
  exact not_inside_self hself

end Place

namespace Stmt

mutual
/-- The places of a statement that a condition is asked for, in this order. -/
def places (p : Place) (i : Nat) : Stmt → List Place
  | expr _ => []
  | branch _ onTrue onFalse _ =>
      p.within i true :: (placesAll (p.within i true) 0 onTrue ++
        if onFalse.isEmpty then []
        else p.within i false :: placesAll (p.within i false) 0 onFalse)
  | loop _ _ body _ => p.within i true :: placesAll (p.within i true) 0 body

/-- The places of the statements from number `i` on of a list. -/
def placesAll (p : Place) (i : Nat) : List Stmt → List Place
  | [] => []
  | stmt :: rest => stmt.places p i ++ placesAll p (i + 1) rest
end

mutual
/-- The places of a statement in the order in which their conditions are worked out: that
    of a loop once at the start, and then again for every time that it can run. -/
def settings (p : Place) (i : Nat) : Stmt → List Place
  | expr _ => []
  | branch _ onTrue onFalse _ =>
      p.within i true :: (settingsAll (p.within i true) 0 onTrue ++
        if onFalse.isEmpty then []
        else p.within i false :: settingsAll (p.within i false) 0 onFalse)
  | loop _ maxIter body _ =>
      p.within i true :: (List.replicate maxIter.toNat
        (p.within i true :: settingsAll (p.within i true) 0 body)).flatten

/-- The same for the statements from number `i` on of a list. -/
def settingsAll (p : Place) (i : Nat) : List Stmt → List Place
  | [] => []
  | stmt :: rest => stmt.settings p i ++ settingsAll p (i + 1) rest
end

mutual
/-- A statement has as many places as it takes conditions, with those in loops counted
    once. -/
theorem length_places : ∀ (stmt : Stmt) (p : Place) (i : Nat),
    (stmt.places p i).length = conditionCount [stmt]
  | expr e, p, i => rfl
  | branch cond onTrue onFalse s, p, i => by
      have htrue := length_placesAll onTrue (p.within i true) 0
      have hfalse := length_placesAll onFalse (p.within i false) 0
      rw [places, conditionCount_branch, List.length_cons, List.length_append, htrue]
      split
      · rw [List.length_nil]
        omega
      · rw [List.length_cons, hfalse]
        omega
  | loop cond maxIter body s, p, i => by
      rw [places, conditionCount_loop, List.length_cons, length_placesAll body]
      omega

/-- There is one place for each condition that the statements take up. -/
theorem length_placesAll : ∀ (stmts : List Stmt) (p : Place) (i : Nat),
    (placesAll p i stmts).length = conditionCount stmts
  | [], p, i => rfl
  | stmt :: rest, p, i => by
      rw [placesAll, conditionCount_cons, List.length_append, length_places stmt,
        length_placesAll rest]
end

mutual
/-- Each place of a statement is inside that statement. -/
private theorem inside_places : ∀ (stmt : Stmt) (p : Place) (i : Nat),
    ∀ q ∈ stmt.places p i, ∃ holds, p.Inside i holds q
  | expr e, p, i => List.forall_mem_nil _
  | branch cond onTrue onFalse s, p, i => by
      intro q hq
      rw [places, ← List.cons_append] at hq
      rcases List.mem_append.mp hq with hq | hq
      · exact ⟨true, Place.inside_of_mem_cons (among_placesAll onTrue _ 0) hq⟩
      · split at hq
        · cases hq
        · exact ⟨false, Place.inside_of_mem_cons (among_placesAll onFalse _ 0) hq⟩
  | loop cond maxIter body s, p, i => fun q hq =>
      ⟨true, Place.inside_of_mem_cons (among_placesAll body _ 0) hq⟩

/-- Each place of a list is inside a statement of the list. -/
theorem among_placesAll : ∀ (stmts : List Stmt) (p : Place) (i : Nat),
    ∀ q ∈ placesAll p i stmts, p.Among i q
  | [], p, i => List.forall_mem_nil _
  | stmt :: rest, p, i => by
      intro q hq
      rw [placesAll] at hq
      rcases List.mem_append.mp hq with hq | hq
      · obtain ⟨holds, hinside⟩ := inside_places stmt p i q hq
        exact ⟨i, holds, Nat.le_refl i, hinside⟩
      · obtain ⟨j, holds, hj, hinside⟩ := among_placesAll rest p (i + 1) q hq
        exact ⟨j, holds, Nat.le_of_succ_le hj, hinside⟩
end

mutual
/-- No place of a statement comes twice: its branches are apart, and so are a list and
    what is in it. -/
private theorem nodup_places : ∀ (stmt : Stmt) (p : Place) (i : Nat), (stmt.places p i).Nodup
  | expr e, p, i => List.nodup_nil
  | branch cond onTrue onFalse s, p, i => by
      have hinTrue := among_placesAll onTrue (p.within i true) 0
      have hinFalse := among_placesAll onFalse (p.within i false) 0
      have htrue := Place.nodup_cons hinTrue (nodup_placesAll onTrue _ 0)
      have hfalse := Place.nodup_cons hinFalse (nodup_placesAll onFalse _ 0)
      rw [places, ← List.cons_append]
      split
      · rw [List.append_nil]
        exact htrue
      · refine List.nodup_append'.mpr ⟨htrue, hfalse, ?_⟩
        intro q hq hq'
        have hside := (Place.inside_of_mem_cons hinTrue hq).unique
          (Place.inside_of_mem_cons hinFalse hq')
        exact Bool.noConfusion hside.2
  | loop cond maxIter body s, p, i =>
      Place.nodup_cons (among_placesAll body _ 0) (nodup_placesAll body _ 0)

/-- No place is asked for twice. -/
theorem nodup_placesAll : ∀ (stmts : List Stmt) (p : Place) (i : Nat), (placesAll p i stmts).Nodup
  | [], p, i => List.nodup_nil
  | stmt :: rest, p, i => by
      rw [placesAll]
      refine List.nodup_append'.mpr ⟨nodup_places stmt p i, nodup_placesAll rest p (i + 1), ?_⟩
      intro q hq hq'
      obtain ⟨holds, hfirst⟩ := inside_places stmt p i q hq
      obtain ⟨j, holds', hj, hlater⟩ := among_placesAll rest p (i + 1) q hq'
      have hij := (hfirst.unique hlater).1
      omega
end

/-- Plain statements have no places. -/
theorem placesAll_run (es : List Expr) (rest : List Stmt) (p : Place) (i : Nat) :
    placesAll p i (es.map .expr ++ rest) = placesAll p (i + es.length) rest := by
  induction es generalizing i with
  | nil => rfl
  | cons e es ih =>
      rw [List.map_cons, List.cons_append, placesAll, ih (i + 1), List.length_cons]
      simp only [places, List.nil_append, Nat.add_assoc, Nat.add_comm 1]

/-- Flat statements ask for nothing; they only count. -/
theorem settingsAll_run (es : List Expr) (rest : List Stmt) (p : Place) (i : Nat) :
    settingsAll p i (es.map .expr ++ rest) = settingsAll p (i + es.length) rest := by
  induction es generalizing i with
  | nil => rfl
  | cons e es ih =>
      rw [List.map_cons, List.cons_append, settingsAll, ih (i + 1), List.length_cons]
      simp only [settings, List.nil_append, Nat.add_assoc, Nat.add_comm 1]

end Stmt

/-! ## Numbers -/

/-- The condition is the one of the place, if those of the list are numbered in order after
    `n` others. -/
def Place.Has (ps : List Place) (n : Nat) (p : Place) (id : ConditionId) : Prop :=
  (p, id.index) ∈ ps.zipIdx (n + 1)

namespace Place

variable {ps qs : List Place} {n : Nat} {p q : Place} {id : ConditionId}

/-- The first place gets the next number. -/
theorem has_head (ps : List Place) (n : Nat) (p : Place) : Has (p :: ps) n p (.after n) :=
  List.mem_cons_self

/-- The numbers of the rest start one later. -/
theorem Has.tail (h : Has ps (n + 1) q id) (p : Place) : Has (p :: ps) n q id :=
  List.mem_cons_of_mem _ h

/-- More places after those of a list do not change their numbers. -/
theorem Has.left (h : Has ps n q id) (qs : List Place) : Has (ps ++ qs) n q id := by
  rw [Has, List.zipIdx_append]
  exact List.mem_append_left _ h

/-- The places of a second list are numbered on from the first one. -/
theorem Has.right (h : Has qs (n + ps.length) q id) : Has (ps ++ qs) n q id := by
  rw [Has, List.zipIdx_append, Nat.add_right_comm]
  exact List.mem_append_right _ h

/-- No condition is for two places. -/
theorem Has.unique (h : Has ps n p id) (h' : Has ps n q id) : p = q := by
  obtain ⟨-, hp⟩ := List.mk_mem_zipIdx_iff_le_and_getElem?_sub.mp h
  obtain ⟨-, hq⟩ := List.mk_mem_zipIdx_iff_le_and_getElem?_sub.mp h'
  exact Option.some.inj (hp.symm.trans hq)

/-- No two conditions are for one place, if it is in the list only once. -/
theorem Has.id_unique {id' : ConditionId} (hps : ps.Nodup) (h : Has ps n p id)
    (h' : Has ps n p id') : id = id' := by
  obtain ⟨hle, hid⟩ := List.mk_mem_zipIdx_iff_le_and_getElem?_sub.mp h
  obtain ⟨hle', hid'⟩ := List.mk_mem_zipIdx_iff_le_and_getElem?_sub.mp h'
  obtain ⟨hlt, -⟩ := List.getElem?_eq_some_iff.mp hid
  have hsub := (List.getElem?_inj hlt hps).mp (hid.trans hid'.symm)
  obtain ⟨index, pos⟩ := id
  obtain ⟨index', pos'⟩ := id'
  obtain rfl : index = index' := by dsimp only at hle hle' hsub; omega
  rfl

/-- One by one, the conditions are those of the places `ss`. -/
def Numbered (ps : List Place) (n : Nat) (ss : List Place) (ids : List ConditionId) : Prop :=
  List.Forall₂ (Has ps n) ss ids

variable {ss ts : List Place} {ids ids' : List ConditionId}

/-- The place that is first asked for is first worked out. -/
theorem Numbered.cons (h : Numbered ps (n + 1) ss ids) (p : Place) :
    Numbered (p :: ps) n (p :: ss) (.after n :: ids) :=
  List.Forall₂.cons (has_head ps n p) (h.imp fun _ _ hid => hid.tail p)

/-- What two lists of places are numbered with is put together as the lists are. -/
theorem Numbered.append (h : Numbered ps n ss ids)
    (h' : Numbered qs (n + ps.length) ts ids') :
    Numbered (ps ++ qs) n (ss ++ ts) (ids ++ ids') :=
  List.rel_append (h.imp fun _ _ hid => hid.left qs) (h'.imp fun _ _ hid => hid.right)

/-- Copies of some clauses work out the same conditions again, for the same places; this
    is the step for loops. -/
theorem Numbered.copies (h : Numbered ps n ss ids) (count : Nat) :
    Numbered ps n (List.replicate count ss).flatten (List.replicate count ids).flatten := by
  induction count with
  | zero => exact .nil
  | succ count ih =>
      rw [List.replicate_succ, List.replicate_succ, List.flatten_cons, List.flatten_cons]
      exact List.rel_append h ih

/-- The places and the conditions are read off side by side. -/
theorem Numbered.getElem? (h : Numbered ps n ss ids) (i : Nat) :
    (ss[i]? = none ∧ ids[i]? = none) ∨
      ∃ p id, ss[i]? = some p ∧ ids[i]? = some id ∧ Has ps n p id := by
  induction h generalizing i with
  | nil => exact .inl ⟨rfl, rfl⟩
  | cons hid _ ih =>
      cases i with
      | zero => exact .inr ⟨_, _, rfl, rfl, hid⟩
      | succ i => exact ih i

/-- The conditions are the same exactly where the places are. -/
theorem Numbered.getElem?_eq_iff (hps : ps.Nodup) (h : Numbered ps n ss ids) (i j : Nat) :
    ids[i]? = ids[j]? ↔ ss[i]? = ss[j]? := by
  rcases h.getElem? i with ⟨hs, hi⟩ | ⟨p, id, hs, hi, hid⟩ <;>
    rcases h.getElem? j with ⟨hs', hi'⟩ | ⟨p', id', hs', hi', hid'⟩ <;> rw [hs, hs', hi, hi']
  · simp
  · simp
  · simp
  · rw [Option.some.injEq, Option.some.injEq]
    constructor
    · rintro rfl
      exact hid.unique hid'
    · rintro rfl
      exact hid.id_unique hps hid'

end Place

/-! ## What is worked out -/

/-- The condition that the clause works out. -/
def Clause.assigned? (k : Clause) : Option ConditionId := k.test?.map Prod.fst

/-- The conditions that some clauses work out, in order. -/
def Clause.assignments (ks : List Clause) : List ConditionId := ks.filterMap Clause.assigned?

namespace Clause

@[simp] theorem assignments_append (ks ks' : List Clause) :
    assignments (ks ++ ks') = assignments ks ++ assignments ks' :=
  List.filterMap_append

/-- A clause that works out a condition works out that one. -/
@[simp] theorem assignments_setCondition (probes : List Probe) (around : Option ConditionId)
    (id : ConditionId) (value : Expr) (s : Span) (ks : List Clause) :
    assignments (setCondition probes around id value s :: ks) = id :: assignments ks := by
  rw [assignments, List.filterMap_cons, assigned?, test?_setCondition]
  rfl

/-- A block works out none, since the script assigns to no slot. -/
theorem assignments_block {es : List Expr} (hes : ∀ e ∈ es, e.Unreserved) (probes : List Probe)
    (around : Option ConditionId) (anyBefore : Bool) (s : Span) (ks : List Clause) :
    assignments (block probes around anyBefore (es.map .expr) s :: ks) = assignments ks := by
  rw [assignments, List.filterMap_cons, assigned?, test?_block hes]
  rfl

/-- Copies of clauses work out the same conditions again and again. -/
theorem assignments_copies (ks : List Clause) (count : Nat) :
    assignments (List.replicate count ks).flatten =
      (List.replicate count (assignments ks)).flatten := by
  rw [assignments, List.filterMap_flatten, List.map_replicate]
  rfl

end Clause

/-- What is worked out for a place is the condition of that place. -/
theorem Emitted.Splits.numbered {probes : List Probe} {stmts : List Stmt}
    {around : Option ConditionId} {n m : Nat} {ks : List Clause}
    (h : Splits probes stmts around n ks m) (hsource : ∀ e ∈ Stmt.exprsOf stmts, e.Unreserved)
    (p : Place) (i : Nat) :
    Place.Numbered (Stmt.placesAll p i stmts) n (Stmt.settingsAll p i stmts)
      (Clause.assignments ks) := by
  induction h generalizing p i with
  | nil around n => exact .nil
  | run first more _ _ ih =>
      obtain ⟨hrun, hrest⟩ := Stmt.forall_exprsOf_run.mp hsource
      rw [Stmt.placesAll_run, Stmt.settingsAll_run, Clause.assignments_block hrun]
      exact ih hrest p _
  | @branch _ n m _ onTrue _ as _ cond s ht _ iht ihr =>
      obtain ⟨-, htrue, -, hrest⟩ := Stmt.forall_exprsOf_branch.mp hsource
      have hm : m = n + (Stmt.places p i (.branch cond onTrue [] s)).length := by
        rw [ht.conditions, Stmt.length_places, Stmt.conditionCount_branch, List.isEmpty_nil,
          if_pos rfl]
        omega
      rw [Clause.assignments_setCondition, Clause.assignments_append, ← List.cons_append]
      refine .append ?_ (hm ▸ ihr hrest p (i + 1))
      simp only [Stmt.places, Stmt.settings, List.isEmpty_nil, if_true, List.append_nil]
      exact (iht htrue _ 0).cons _
  | @branchElse _ n m m' _ onTrue onFalse _ _ _ _ cond s hne ht hf _ iht ihf ihr =>
      obtain ⟨-, htrue, hfalse, hrest⟩ := Stmt.forall_exprsOf_branch.mp hsource
      have helse := mt List.isEmpty_iff.mp hne
      have hm : m = n + 1 + (Stmt.placesAll (p.within i true) 0 onTrue).length := by
        rw [ht.conditions, Stmt.length_placesAll]
      have hm' : m' = n + (Stmt.places p i (.branch cond onTrue onFalse s)).length := by
        rw [hf.conditions, ht.conditions, Stmt.length_places, Stmt.conditionCount_branch,
          if_neg helse]
        omega
      rw [Clause.assignments_setCondition, Clause.assignments_append,
        Clause.assignments_setCondition, Clause.assignments_append,
        ← List.cons_append (a := ConditionId.after m), ← List.append_assoc, ← List.cons_append]
      refine .append ?_ (hm' ▸ ihr hrest p (i + 1))
      simp only [Stmt.places, Stmt.settings, if_neg helse]
      -- the `else` is numbered on from where the other list ends
      exact ((iht htrue _ 0).append (hm ▸ (ihf hfalse _ 0).cons _)).cons _
  | @loop _ n m _ body _ _ _ cond maxIter s hb _ ihb ihr =>
      obtain ⟨-, hbody, hrest⟩ := Stmt.forall_exprsOf_loop.mp hsource
      have hm : m = n + (Stmt.places p i (.loop cond maxIter body s)).length := by
        rw [hb.conditions, Stmt.length_places, Stmt.conditionCount_loop]
        omega
      rw [Clause.assignments_setCondition, Clause.assignments_append, Clause.assignments_copies,
        Clause.assignments_setCondition, ← List.cons_append]
      refine .append ?_ (hm ▸ ihr hrest p (i + 1))
      -- the condition of the loop comes up at the start and again in every copy
      exact List.Forall₂.cons (Place.has_head _ _ _) (((ihb hbody _ 0).cons _).copies _)

/-! ## First assignments -/

/-- A condition that comes up for the first time is later than all before it. -/
def ConditionId.Ascends (ids : List ConditionId) : Prop :=
  InOrder (fun before id => id ∉ before → ∀ x ∈ before, x.index < id.index) ids

/-- The conditions are some of those handed out while their number went from `n` to `m`,
    and come up for the first time in order. -/
structure ConditionId.Rises (n m : Nat) (ids : List ConditionId) : Prop where
  le : n ≤ m
  bounds : ∀ id ∈ ids, n < id.index ∧ id.index ≤ m
  ascends : Ascends ids

namespace ConditionId

variable {n m l : Nat} {ids ids' : List ConditionId}

/-- Nothing is worked out, whatever is handed out. -/
theorem rises_nil (h : n ≤ m) : Rises n m [] := ⟨h, List.forall_mem_nil _, inOrder_nil⟩

/-- What is handed out after one more condition is handed out after `n` too. -/
theorem Rises.mono (h : Rises (n + 1) m ids) : Rises n m ids :=
  ⟨Nat.le_of_succ_le h.le, fun id hid => (h.bounds id hid).imp_left Nat.lt_of_succ_lt, h.ascends⟩

/-- The first of them can come up again. -/
theorem Rises.cons (hlt : n < m) (h : Rises n m ids) : Rises n m (.after n :: ids) := by
  refine ⟨h.le, List.forall_mem_cons.mpr ⟨⟨Nat.lt_succ_self n, hlt⟩, h.bounds⟩, ?_⟩
  refine inOrder_cons.mpr ⟨fun _ => List.forall_mem_nil _, InOrder.mono h.ascends ?_⟩
  intro before x hx hbefore hnew
  have hne : x.index ≠ n + 1 := by
    rintro heq
    obtain ⟨index, pos⟩ := x
    obtain rfl : index = n + 1 := heq
    exact hnew List.mem_cons_self
  have hx := (h.bounds x hx).1
  refine List.forall_mem_cons.mpr ⟨?_, hbefore fun hmem => hnew (List.mem_cons_of_mem _ hmem)⟩
  show n + 1 < x.index
  omega

/-- A later stretch works out later conditions, so first assignments stay in order. -/
theorem Rises.append (h : Rises n m ids) (h' : Rises m l ids') : Rises n l (ids ++ ids') := by
  have hle := h.le
  have hle' := h'.le
  refine ⟨Nat.le_trans hle hle', ?_, ?_⟩
  · refine List.forall_mem_append.mpr ⟨fun id hid => ?_, fun id hid => ?_⟩
    · have hbounds := h.bounds id hid
      omega
    · have hbounds := h'.bounds id hid
      omega
  · refine inOrder_append.mpr ⟨h.ascends, InOrder.mono h'.ascends ?_⟩
    intro before y hy hbefore hnew
    have hy := (h'.bounds y hy).1
    refine List.forall_mem_append.mpr ⟨fun x hx => ?_, hbefore fun hmem =>
      hnew (List.mem_append_right _ hmem)⟩
    exact Nat.lt_of_le_of_lt (h.bounds x hx).2 hy

/-- Copies bring up nothing for the first time. -/
theorem Rises.copies (h : Rises n m ids) (count : Nat) :
    Rises n m (List.replicate count ids).flatten := by
  refine ⟨h.le, fun x hx => h.bounds x (mem_of_mem_copies hx), ?_⟩
  cases count with
  | zero => exact inOrder_nil
  | succ count =>
      rw [List.replicate_succ, List.flatten_cons]
      -- after the first copy, nothing is new
      refine inOrder_append.mpr ⟨h.ascends, ?_⟩
      intro before x after heq hnew
      have hx : x ∈ (List.replicate count ids).flatten := by
        rw [heq]
        exact List.mem_append_right _ List.mem_cons_self
      exact absurd (List.mem_append_left _ (mem_of_mem_copies hx)) hnew

/-! ### Words -/

/-- Conditions with numbers below `2 ^ 32` are told apart by their words. -/
theorem word_inj {c d : ConditionId} (hc : c.index < UInt32.size) (hd : d.index < UInt32.size) :
    c.word = d.word ↔ c = d := by
  refine ⟨fun h => ?_, congrArg word⟩
  have hindex := congrArg UInt32.toNat h
  rw [toNat_word hc, toNat_word hd] at hindex
  obtain ⟨i, hi⟩ := c
  obtain ⟨j, hj⟩ := d
  obtain rfl : i = j := hindex
  rfl

/-- Their words show which ones come up again. -/
theorem getElem?_words_eq_iff (h : ∀ c ∈ ids, c.index < UInt32.size) (i j : Nat) :
    (ids.map word)[i]? = (ids.map word)[j]? ↔ ids[i]? = ids[j]? := by
  rw [List.getElem?_map, List.getElem?_map]
  cases hi : ids[i]? with
  | none => cases ids[j]? <;> simp
  | some c =>
      cases hj : ids[j]? with
      | none => simp
      | some d =>
          have hinj := word_inj (h c (List.mem_of_getElem? hi)) (h d (List.mem_of_getElem? hj))
          simpa using hinj

/-- Their words come up in the order of the numbers. -/
theorem Ascends.words (hids : Ascends ids) (h : ∀ c ∈ ids, c.index < UInt32.size) :
    InOrder (fun before w => w ∉ before → ∀ x ∈ before, x < w) (ids.map word) := by
  intro before w after heq hnew x hx
  obtain ⟨cs, rest, rfl, rfl, hrest⟩ := List.map_eq_append_iff.mp heq
  obtain ⟨c, ds, rfl, rfl, -⟩ := List.map_eq_cons_iff.mp hrest
  obtain ⟨d, hd, rfl⟩ := List.mem_map.mp hx
  have hlt := hids cs c ds rfl (fun hmem => hnew (List.mem_map_of_mem hmem)) d hd
  have hc := h c (List.mem_append_right _ List.mem_cons_self)
  rw [UInt32.lt_iff_toNat_lt, toNat_word (Nat.lt_trans hlt hc), toNat_word hc]
  exact hlt

end ConditionId

/-- What is worked out has been handed out meanwhile, and comes up in order. -/
theorem Emitted.Splits.rises {probes : List Probe} {stmts : List Stmt}
    {around : Option ConditionId} {n m : Nat} {ks : List Clause}
    (h : Splits probes stmts around n ks m)
    (hsource : ∀ e ∈ Stmt.exprsOf stmts, e.Unreserved) :
    ConditionId.Rises n m (Clause.assignments ks) := by
  induction h with
  | nil around n => exact ConditionId.rises_nil (Nat.le_refl n)
  | run first more _ _ ih =>
      obtain ⟨hrun, hrest⟩ := Stmt.forall_exprsOf_run.mp hsource
      rw [Clause.assignments_block hrun]
      exact ih hrest
  | branch cond s _ _ iht ihr =>
      obtain ⟨-, htrue, -, hrest⟩ := Stmt.forall_exprsOf_branch.mp hsource
      have ht := iht htrue
      rw [Clause.assignments_setCondition, Clause.assignments_append, ← List.cons_append]
      exact (ht.mono.cons ht.le).append (ihr hrest)
  | branchElse cond s _ _ _ _ iht ihf ihr =>
      obtain ⟨-, htrue, hfalse, hrest⟩ := Stmt.forall_exprsOf_branch.mp hsource
      have ht := iht htrue
      have hf := ihf hfalse
      rw [Clause.assignments_setCondition, Clause.assignments_append,
        Clause.assignments_setCondition, Clause.assignments_append, ← List.cons_append,
        ← List.cons_append]
      exact (ht.mono.cons ht.le).append ((hf.mono.cons hf.le).append (ihr hrest))
  | loop cond maxIter s _ _ ihb ihr =>
      obtain ⟨-, hbody, hrest⟩ := Stmt.forall_exprsOf_loop.mp hsource
      have hb := ihb hbody
      rw [Clause.assignments_setCondition, Clause.assignments_append, Clause.assignments_copies,
        Clause.assignments_setCondition, ← List.cons_append]
      exact (((hb.mono.cons hb.le).copies _).cons hb.le).append (ihr hrest)

/-! ## Builders -/

namespace Blocks

/-- A call of a builder. -/
inductive Call where
  | allocate
  | newCondition (value : Expr) (around : Option ConditionId) (s : Span)
  | visit (stmts : List Stmt) (around : Option ConditionId)

namespace Call

/-- The number of conditions that the call takes up. -/
def demand : Call → Nat
  | allocate => 1
  | newCondition .. => 1
  | visit stmts _ => Stmt.conditionCount stmts

/-- The places that the call asks for conditions for, as call number `j`. -/
def places (j : Nat) : Call → List Place
  | allocate => [⟨j, []⟩]
  | newCondition .. => [⟨j, []⟩]
  | visit stmts _ => Stmt.placesAll ⟨j, []⟩ 0 stmts

/-- The places whose conditions the clauses of the call work out, in order. -/
def settings (j : Nat) : Call → List Place
  | allocate => []
  | newCondition .. => [⟨j, []⟩]
  | visit stmts _ => Stmt.settingsAll ⟨j, []⟩ 0 stmts

/-- The statements that the call visits have no reserved names. -/
def Unreserved : Call → Prop
  | visit stmts _ => ∀ e ∈ Stmt.exprsOf stmts, e.Unreserved
  | _ => True

/-- The places of calls, the first of them being number `j`. -/
def placesFrom (j : Nat) : List Call → List Place
  | [] => []
  | c :: calls => c.places j ++ placesFrom (j + 1) calls

/-- The places whose conditions are worked out, in the same way. -/
def settingsFrom (j : Nat) : List Call → List Place
  | [] => []
  | c :: calls => c.settings j ++ settingsFrom (j + 1) calls

/-- A call has as many places as it takes conditions. -/
theorem length_places (c : Call) (j : Nat) : (c.places j).length = c.demand := by
  cases c with
  | visit stmts around => exact Stmt.length_placesAll stmts _ 0
  | _ => rfl

/-- So have calls one after the other. -/
theorem length_placesFrom (calls : List Call) (j : Nat) :
    (placesFrom j calls).length = (calls.map demand).sum := by
  induction calls generalizing j with
  | nil => rfl
  | cons c calls ih =>
      rw [placesFrom, List.length_append, length_places, ih, List.map_cons, List.sum_cons]

/-- Places know the call they come from. -/
theorem call_of_mem_places {c : Call} {j : Nat} {p : Place} (h : p ∈ c.places j) : p.call = j := by
  cases c with
  | visit stmts around =>
      obtain ⟨i, holds, -, rest, rfl⟩ := Stmt.among_placesAll stmts _ 0 p h
      rfl
  | _ =>
      rw [List.mem_singleton.mp h]

/-- Later calls have later places. -/
theorem le_call_of_mem_placesFrom {calls : List Call} {j : Nat} {p : Place}
    (h : p ∈ placesFrom j calls) : j ≤ p.call := by
  induction calls generalizing j with
  | nil => cases h
  | cons c calls ih =>
      rw [placesFrom] at h
      rcases List.mem_append.mp h with h | h
      · exact Nat.le_of_eq (call_of_mem_places h).symm
      · exact Nat.le_of_succ_le (ih h)

/-- No two calls ask for the same place. -/
theorem nodup_placesFrom (calls : List Call) (j : Nat) : (placesFrom j calls).Nodup := by
  induction calls generalizing j with
  | nil => exact List.nodup_nil
  | cons c calls ih =>
      have hc : (c.places j).Nodup := by
        cases c with
        | visit stmts around => exact Stmt.nodup_placesAll stmts _ 0
        | _ => exact List.nodup_singleton _
      rw [placesFrom]
      refine List.nodup_append'.mpr ⟨hc, ih (j + 1), ?_⟩
      intro p hp hp'
      have hcall := call_of_mem_places hp
      have hlater := le_call_of_mem_placesFrom hp'
      omega

end Call

/-- Makes a call, and gives what it returns. -/
def call (b : Blocks) : Call → Option ConditionId × Blocks
  | .allocate => (some b.allocate.1, b.allocate.2)
  | .newCondition value around s =>
      (some (b.newCondition value around s).1, (b.newCondition value around s).2)
  | .visit stmts around => (none, b.visit stmts around)

/-- Makes calls one after the other, and gives what each returns. -/
def run (b : Blocks) : List Call → List (Option ConditionId) × Blocks
  | [] => ([], b)
  | c :: calls =>
      ((b.call c).1 :: ((b.call c).2.run calls).1, ((b.call c).2.run calls).2)

/-- The builder has handed out the conditions of the places `ps`, in order, and its clauses
    work out those of the places `ss`. -/
structure Numbered (b : Blocks) (ps ss : List Place) : Prop where
  length : ps.length = b.conditions
  assigned : Place.Numbered ps 0 ss (Clause.assignments b.clauses)
  rises : ConditionId.Rises 0 b.conditions (Clause.assignments b.clauses)

variable {b : Blocks} {ps ss : List Place} {c : Call}

/-- A new builder has handed out nothing. -/
theorem numbered_start (probes : List Probe) : (start probes).Numbered [] [] :=
  ⟨rfl, .nil, ConditionId.rises_nil (Nat.le_refl 0)⟩

/-- A builder that hands out more conditions after the ones it had. -/
theorem Numbered.extend {b' : Blocks} {qs ts : List Place} {ks : List Clause}
    (h : b.Numbered ps ss) (hclauses : b'.clauses = b.clauses ++ ks)
    (hlength : b'.conditions = b.conditions + qs.length)
    (hassigned : Place.Numbered qs b.conditions ts (Clause.assignments ks))
    (hrises : ConditionId.Rises b.conditions b'.conditions (Clause.assignments ks)) :
    b'.Numbered (ps ++ qs) (ss ++ ts) := by
  refine ⟨?_, ?_, ?_⟩
  · rw [List.length_append, h.length, hlength]
  · rw [hclauses, Clause.assignments_append]
    refine h.assigned.append ?_
    rw [Nat.zero_add, h.length]
    exact hassigned
  · rw [hclauses, Clause.assignments_append]
    exact h.rises.append hrises

/-- What one call hands out, and what its clauses work out. -/
theorem Numbered.call (h : b.Numbered ps ss) (hc : c.Unreserved) (j : Nat) :
    (b.call c).2.Numbered (ps ++ c.places j) (ss ++ c.settings j) ∧
      ∀ id, (b.call c).1 = some id → Place.Has (ps ++ c.places j) 0 ⟨j, []⟩ id := by
  have hnew : Place.Has (ps ++ [⟨j, []⟩]) 0 ⟨j, []⟩ (.after b.conditions) := by
    refine Place.Has.right ?_
    rw [Nat.zero_add, h.length]
    exact Place.has_head _ _ _
  have hnone : ConditionId.Rises b.conditions (b.conditions + 1) [] :=
    ConditionId.rises_nil (Nat.le_succ _)
  cases c with
  | allocate =>
      refine ⟨h.extend (List.append_nil _).symm rfl .nil hnone, ?_⟩
      intro id hid
      rw [← Option.some.inj hid]
      exact hnew
  | newCondition value around s =>
      refine ⟨h.extend rfl rfl ?_ ?_, ?_⟩
      · rw [Clause.assignments_setCondition]
        exact Place.Numbered.cons .nil _
      · rw [Clause.assignments_setCondition]
        exact hnone.cons (Nat.lt_succ_self _)
      · intro id hid
        rw [← Option.some.inj hid]
        exact hnew
  | visit stmts around =>
      have hsplits := Emitted.splits_ofStmts b.probes stmts around b.conditions
      refine ⟨h.extend rfl ?_ (hsplits.numbered hc _ 0) (hsplits.rises hc), ?_⟩
      · rw [(Call.visit stmts around).length_places]
        exact hsplits.conditions
      · intro id hid
        cases hid

/-- What several calls hand out, and what their clauses work out. -/
theorem Numbered.run {calls : List Call} (h : b.Numbered ps ss) (hcalls : ∀ c ∈ calls, c.Unreserved)
    (j : Nat) :
    (b.run calls).2.Numbered (ps ++ Call.placesFrom j calls) (ss ++ Call.settingsFrom j calls) ∧
      ∀ i id, (b.run calls).1[i]? = some (some id) →
        Place.Has (ps ++ Call.placesFrom j calls) 0 ⟨j + i, []⟩ id := by
  induction calls generalizing b ps ss j with
  | nil =>
      rw [Call.placesFrom, Call.settingsFrom, List.append_nil, List.append_nil]
      refine ⟨h, ?_⟩
      intro i id hid
      cases hid
  | cons c calls ih =>
      obtain ⟨hc, hcalls⟩ := List.forall_mem_cons.mp hcalls
      obtain ⟨hstep, hreturned⟩ := h.call hc j
      obtain ⟨hrun, hlater⟩ := ih hstep hcalls (j + 1)
      rw [Call.placesFrom, Call.settingsFrom, ← List.append_assoc, ← List.append_assoc]
      refine ⟨hrun, ?_⟩
      intro i id hid
      cases i with
      | zero => exact (hreturned id (Option.some.inj hid)).left _
      | succ i =>
          rw [Nat.add_comm i 1, ← Nat.add_assoc]
          exact hlater i id hid

/-- A builder numbers conditions from one up in the order in which they are asked for, by a
    call or for a place inside statements that it visits, whatever loops there are around:
    one for each place, and as many as the calls take up.  As long as there are words for
    them, what it returns and what its clauses work out are the words of the right places,
    and these stand in the names; two clauses work out the same one exactly if they are for
    the same place, and one that is worked out for the first time is later than all before
    it. -/
theorem conditions_in_order (probes : List Probe) (calls : List Call)
    (hcalls : ∀ c ∈ calls, c.Unreserved) (hfew : (calls.map Call.demand).sum < UInt32.size) :
    let b := ((start probes).run calls).2
    let returned := ((start probes).run calls).1
    let places := Call.placesFrom 0 calls
    let settings := Call.settingsFrom 0 calls
    let assigned := Clause.assignments b.clauses
    let words := assigned.map ConditionId.word
    b.word.toNat = (calls.map Call.demand).sum ∧ b.word.toNat = places.length ∧ places.Nodup ∧
      (∀ j id, returned[j]? = some (some id) → (⟨j, []⟩, id.word.toNat) ∈ places.zipIdx 1) ∧
      List.Forall₂ (fun place w => (place, w.toNat) ∈ places.zipIdx 1) settings words ∧
      (∀ i j : Nat, words[i]? = words[j]? ↔ settings[i]? = settings[j]?) ∧
      InOrder (fun before w => w ∉ before → ∀ x ∈ before, x < w) words ∧
      ∀ id ∈ assigned, (Slot.condition id).name = "_XD_condition_" ++ toString id.word.toNat := by
  intro b returned places settings assigned words
  obtain ⟨hnumbered, hreturned⟩ := (numbered_start probes).run hcalls 0
  have hnodup : places.Nodup := Call.nodup_placesFrom calls 0
  have hcount : b.conditions = (calls.map Call.demand).sum :=
    hnumbered.length.symm.trans (Call.length_placesFrom calls 0)
  have hword : b.word.toNat = b.conditions := UInt32.toNat_ofNat_of_lt' (hcount ▸ hfew)
  -- what has been handed out is below the bound, and there the numbers are the words
  have hbelow : ∀ {place : Place} {id : ConditionId}, Place.Has places 0 place id →
      id.index < UInt32.size := by
    intro place id hhas
    have hle := List.snd_lt_add_of_mem_zipIdx hhas
    have hlength : places.length = b.conditions := hnumbered.length
    omega
  have hsmall : ∀ id ∈ assigned, id.index < UInt32.size := by
    intro id hid
    have hle : id.index ≤ b.conditions := (hnumbered.rises.bounds id hid).2
    omega
  refine ⟨hword.trans hcount, hword.trans hnumbered.length.symm, hnodup, ?_, ?_, ?_,
    hnumbered.rises.ascends.words hsmall, ?_⟩
  · intro j id hid
    have hhas := hreturned j id hid
    rw [Nat.zero_add] at hhas
    rw [ConditionId.toNat_word (hbelow hhas)]
    exact hhas
  · refine List.forall₂_map_right_iff.mpr (hnumbered.assigned.imp ?_)
    intro place id hhas
    rw [ConditionId.toNat_word (hbelow hhas)]
    exact hhas
  · intro i j
    rw [ConditionId.getElem?_words_eq_iff hsmall]
    exact hnumbered.assigned.getElem?_eq_iff hnodup i j
  · intro id hid
    rw [ConditionId.toNat_word (hsmall id hid)]
    rfl

/-- The branch inside the loop that never runs takes up the fifth and the sixth condition,
    which are never worked out; the loop that runs twice works out the eighth three times. -/
theorem conditions_in_order_nested :
    let name (text : String) : Expr := .ident text .nowhere
    let trace (text : String) : Stmt := .expr (.call "trace" [name text] .nowhere)
    let split : Stmt := .branch (name "odd") [trace "uid"] [trace "gid"] .nowhere
    let never : Stmt := .loop (name "on") 0 [split] .nowhere
    let twice : Stmt := .loop (name "on") 2 [trace "tid"] .nowhere
    let calls : List Call :=
      [.allocate, .newCondition (name "ready") (some .first) .nowhere,
        .visit [trace "pid", .branch (name "up") [never] [twice] .nowhere] (some (.after 1)),
        .allocate]
    let b := ((start [⟨"syscall", "", "read", "entry"⟩]).run calls).2
    let settings := Call.settingsFrom 0 calls
    let words := (Clause.assignments b.clauses).map ConditionId.word
    (calls.map Call.demand).sum < UInt32.size ∧ b.word = 9 ∧ words = [2, 3, 4, 7, 8, 8, 8] ∧
      settings = [⟨1, []⟩, ⟨2, [(1, true)]⟩, ⟨2, [(1, true), (0, true)]⟩, ⟨2, [(1, false)]⟩,
        ⟨2, [(1, false), (0, true)]⟩, ⟨2, [(1, false), (0, true)]⟩,
        ⟨2, [(1, false), (0, true)]⟩] ∧
      ∀ i j : Nat, words[i]? = words[j]? ↔ settings[i]? = settings[j]? := by
  intro name trace split never twice calls b settings words
  have hcalls : ∀ c ∈ calls, c.Unreserved := by
    have hvisit : ∀ e ∈ Stmt.exprsOf [trace "pid", .branch (name "up") [never] [twice] .nowhere],
        e.Unreserved := by decide +kernel
    simp only [calls, List.forall_mem_cons]
    exact ⟨trivial, trivial, hvisit, trivial, List.forall_mem_nil _⟩
  have hfew : (calls.map Call.demand).sum < UInt32.size := by decide +kernel
  obtain ⟨hcount, -, -, -, -, hsame, -, -⟩ := conditions_in_order _ calls hcalls hfew
  have hword : b.word = 9 := UInt32.toNat_inj.mp (hcount.trans (by decide +kernel))
  exact ⟨hfew, hword, by decide +kernel, by decide +kernel, hsame⟩

end Blocks

end ProbeLang
