import ProbeLang.Proofs.Locations
import ProbeLang.Proofs.Unrolling

/-! # Copies of the source

    Expansion writes an expression of the source down as often as it comes up when the
    source is unrolled.  In each copy the forms have been replaced.  Everything around them
    is as it was, and at the place where it was: a node that is not inside a form is in the
    copy at the end of the same path, with the same span (`Expr.Keeps`).  All nodes are at
    the end of some path (`Expr.mem_nodes_iff_at?`).

    The copies are found by going along the unrolled source and along the clauses that come
    out, side by side: one clause for every step (`Unrolled.CopiedTo`).  A clause that needs
    no splitting is copied as a whole (`Clause.CopiedTo`). -/

namespace ProbeLang

/-! ## Paths -/

namespace Expr

variable {inReturn : Bool} {e e' x : Expr}

/-- The node at the end of a path, which says which part to go into at each node. -/
def at? (e : Expr) : List Nat → Option Expr
  | [] => some e
  | i :: path => e.parts[i]?.bind fun p => p.at? path

/-- A node is reached through the parts, one index at a time. -/
theorem at?_cons_eq_some {i : Nat} {path : List Nat} :
    e.at? (i :: path) = some x ↔ ∃ p, e.parts[i]? = some p ∧ p.at? path = some x :=
  Option.bind_eq_some_iff

/-- Paths lead to all nodes of an expression, and to nothing else. -/
theorem mem_nodes_iff_at? : x ∈ e.nodes ↔ ∃ path, e.at? path = some x := by
  constructor
  · intro hx
    induction e using inductionOnParts with
    | node e ih =>
        rcases mem_nodes_iff.mp hx with rfl | ⟨p, hp, hx⟩
        · exact ⟨[], rfl⟩
        · obtain ⟨path, hpath⟩ := ih p hp hx
          obtain ⟨i, hi⟩ := List.mem_iff_getElem?.mp hp
          exact ⟨i :: path, at?_cons_eq_some.mpr ⟨p, hi, hpath⟩⟩
  · rintro ⟨path, hpath⟩
    induction path generalizing e with
    | nil =>
        obtain rfl := Option.some.inj hpath
        exact e.self_mem_nodes
    | cons i path ih =>
        obtain ⟨p, hp, hpath⟩ := at?_cons_eq_some.mp hpath
        exact mem_nodes_of_mem_parts (List.mem_of_getElem? hp) (ih hpath)

/-- Whether a form is on the path, at its end or before it. -/
def inForm (inReturn : Bool) (e : Expr) : List Nat → Bool
  | [] => (Form.of? inReturn e).isSome
  | i :: path =>
      (Form.of? inReturn e).isSome || e.parts[i]?.any fun p => p.inForm inReturn path

/-- All that is in a form is in it from its root on. -/
theorem inForm_of_form {form : Form} (h : Form.of? inReturn e = some form) (path : List Nat) :
    e.inForm inReturn path = true := by
  cases path <;> simp [inForm, h]

/-- Outside of all forms one is outside of those of a part. -/
theorem inForm_part {i : Nat} {path : List Nat} {p : Expr} (hp : e.parts[i]? = some p)
    (h : e.inForm inReturn (i :: path) = false) : p.inForm inReturn path = false := by
  rw [inForm, hp, Bool.or_eq_false_iff] at h
  exact h.2

/-- All nodes of `e` that are not inside a form are in `e'` too, each at the end of the same
    path, with the same span and the same but for its parts. -/
def Keeps (inReturn : Bool) (e e' : Expr) : Prop :=
  ∀ path x, e.at? path = some x → e.inForm inReturn path = false →
    ∃ ps, ps.length = x.parts.length ∧ e'.at? path = some (x.rebuild ps) ∧
      (x.rebuild ps).span = x.span

theorem keeps_refl (e : Expr) : e.Keeps inReturn e := by
  intro path x hx _
  refine ⟨x.parts, rfl, ?_, x.span_rebuild _⟩
  rw [rebuild_parts]
  exact hx

/-- In the place of a form there can be anything. -/
theorem keeps_of_form {form : Form} (h : Form.of? inReturn e = some form) (e' : Expr) :
    e.Keeps inReturn e' := by
  intro path x _ hout
  rw [inForm_of_form h] at hout
  cases hout

/-- A node keeps what its parts keep. -/
theorem keeps_rebuild {ps : List Expr} (h : List.Forall₂ (Keeps inReturn) e.parts ps) :
    e.Keeps inReturn (e.rebuild ps) := by
  intro path x hx hout
  cases path with
  | nil =>
      obtain rfl := Option.some.inj hx
      exact ⟨ps, h.length_eq.symm, rfl, e.span_rebuild ps⟩
  | cons i path =>
      obtain ⟨p, hp, hx⟩ := at?_cons_eq_some.mp hx
      obtain ⟨hi, rfl⟩ := List.getElem?_eq_some_iff.mp hp
      have hi' : i < ps.length := h.length_eq ▸ hi
      obtain ⟨qs, hlength, hat, hspan⟩ := h.get hi hi' path x hx (inForm_part hp hout)
      refine ⟨qs, hlength, at?_cons_eq_some.mpr ⟨ps[i], ?_, hat⟩, hspan⟩
      rw [parts_rebuild h.length_eq.symm]
      exact List.getElem?_eq_getElem hi'

end Expr

/-- Resolution touches nothing outside of forms. -/
theorem Resolution.keeps_walk {inReturn : Bool} (e : Expr) (r : Resolution) :
    e.Keeps inReturn (e.walk (step inReturn) r).1 := by
  refine Expr.walk_induction (P := fun e _ e' _ => e.Keeps inReturn e') ?_ ?_ e r
  · intro e r a hstep
    rcases step_cases hstep with ⟨-, hsame, -⟩ | ⟨-, form, hform, -⟩ | ⟨-, s, -, hsame, -⟩
    · rw [hsame]
      exact e.keeps_refl
    · exact Expr.keeps_of_form hform a.1
    · rw [hsame]
      exact e.keeps_refl
  · intro e r ps r' _ hps
    exact Expr.keeps_rebuild hps.forall₂

/-! ## Statements that are alike -/

namespace Stmt

variable {R : Expr → Expr → Prop} {stmts stmts' rest' : List Stmt}

/-- Statements that are alike take up as many conditions. -/
theorem conditionCount_eq_of_alike (h : List.Forall₂ (Alike R) stmts stmts') :
    conditionCount stmts = conditionCount stmts' := by
  have hcons : ∀ {x y : Stmt} {xs ys : List Stmt},
      conditionCount [x] = conditionCount [y] → conditionCount xs = conditionCount ys →
        conditionCount (x :: xs) = conditionCount (y :: ys) := by
    intro x y xs ys hfirst hrest
    rw [conditionCount_cons x xs, conditionCount_cons y ys, hfirst, hrest]
  induction h using alike_induction with
  | nil => rfl
  | expr _ _ ihr => exact hcons rfl ihr
  | branch s _ _ hfalse _ iht ihf ihr =>
      have helse : ∀ {xs ys : List Stmt}, List.Forall₂ (Alike R) xs ys →
          xs.isEmpty = ys.isEmpty := by
        intro xs ys h
        cases h <;> rfl
      refine hcons ?_ ihr
      rw [conditionCount_branch, conditionCount_branch, iht, ihf, helse hfalse]
  | loop maxIter s _ _ _ ihb ihr =>
      refine hcons ?_ ihr
      rw [conditionCount_loop, conditionCount_loop, ihb]

theorem alike_map_expr {es es' : List Expr} (h : List.Forall₂ R es es') :
    List.Forall₂ (Alike R) (es.map .expr) (es'.map .expr) := by
  induction h with
  | nil => exact .nil
  | cons he _ ih => exact .cons (.expr he) ih

/-- What is alike to a run and what comes after it is a run and what comes after it. -/
theorem of_alike_run {es' : List Expr}
    (h : List.Forall₂ (Alike R) stmts (es'.map .expr ++ rest')) :
    ∃ es rest, stmts = es.map .expr ++ rest ∧ List.Forall₂ R es es' ∧
      List.Forall₂ (Alike R) rest rest' := by
  induction es' generalizing stmts with
  | nil => exact ⟨[], stmts, rfl, .nil, h⟩
  | cons e' es' ih =>
      cases h with
      | cons hfirst htail =>
          cases hfirst with
          | expr he =>
              obtain ⟨es, rest, rfl, hes, hrest⟩ := ih htail
              exact ⟨_ :: es, rest, rfl, .cons he hes, hrest⟩

/-- Alike statements end runs alike. -/
theorem endsRun_of_alike (h : List.Forall₂ (Alike R) stmts stmts')
    (hends : Emitted.EndsRun stmts') : Emitted.EndsRun stmts := by
  cases h with
  | nil => exact hends
  | cons hfirst _ =>
      cases hfirst with
      | expr he => cases hends _ rfl
      | branch => exact Emitted.endsRun_cons rfl
      | loop => exact Emitted.endsRun_cons rfl

end Stmt

/-! ## Side by side -/

/-- The clause is a copy of the step: it runs statements that are alike, or it works out a
    condition from a copy of the test. -/
inductive Unrolled.CopiedTo (inReturn : Bool) : Unrolled → Clause → Prop where
  | block {stmts stmts' : List Stmt} (probes : List Probe) (around : Option ConditionId)
      (anyBefore : Bool) (s : Span) :
      List.Forall₂ (Stmt.Alike (Expr.Keeps inReturn)) stmts stmts' →
        CopiedTo inReturn (.block stmts) (.block probes around anyBefore stmts' s)
  | test {value value' : Expr} (probes : List Probe) (around : Option ConditionId)
      (id : ConditionId) (s : Span) :
      value.Keeps inReturn value' →
        CopiedTo inReturn (.test value) (.setCondition probes around id value' s)

/-- Statements that have been resolved are split into copies of the source, unrolled. -/
theorem Emitted.Splits.copies {inReturn : Bool} {probes : List Probe} {stmts stmts' : List Stmt}
    {around : Option ConditionId} {n m : Nat} {ks : List Clause}
    (h : Splits probes stmts' around n ks m)
    (hstmts : List.Forall₂ (Stmt.Alike (Expr.Keeps inReturn)) stmts stmts') :
    List.Forall₂ (Unrolled.CopiedTo inReturn) (Stmt.unrollAll n stmts) ks := by
  -- the rules say how the resolved statements begin, and so how those of the source do
  induction h generalizing stmts with
  | nil around n =>
      cases hstmts
      exact .nil
  | run first more hends _ ih =>
      obtain ⟨es, rest, rfl, hes, hrest⟩ := Stmt.of_alike_run hstmts
      cases hes with
      | cons hfirst hmore =>
          rw [Stmt.unrollAll_run (Stmt.endsRun_of_alike hrest hends)]
          exact .cons (.block _ _ _ _ (Stmt.alike_map_expr (.cons hfirst hmore))) (ih hrest)
  | branch cond s ht _ iht ihr =>
      cases hstmts with
      | cons hfirst hrest =>
          cases hfirst with
          | branch _ hcond htrue hfalse =>
              cases hfalse
              have hused := ht.conditions
              rw [← Stmt.conditionCount_eq_of_alike htrue] at hused
              rw [Stmt.unrollAll_branch, ← hused]
              exact .cons (.test _ _ _ _ hcond) (List.rel_append (iht htrue) (ihr hrest))
  | branchElse cond s hne ht hf _ iht ihf ihr =>
      cases hstmts with
      | cons hfirst hrest =>
          cases hfirst with
          | branch _ hcond htrue hfalse =>
              have hused := ht.conditions
              have hused' := hf.conditions
              rw [← Stmt.conditionCount_eq_of_alike htrue] at hused
              rw [← Stmt.conditionCount_eq_of_alike hfalse] at hused'
              rw [Stmt.unrollAll_branchElse, ← hused, ← hused']
              · exact .cons (.test _ _ _ _ hcond) (List.rel_append (iht htrue)
                  (.cons (.test _ _ _ _ (Expr.keeps_refl _))
                    (List.rel_append (ihf hfalse) (ihr hrest))))
              · rintro rfl
                cases hfalse
                exact hne rfl
  | loop cond maxIter s hb _ ihb ihr =>
      cases hstmts with
      | cons hfirst hrest =>
          cases hfirst with
          | loop _ _ hcond hbody =>
              have hused := hb.conditions
              rw [← Stmt.conditionCount_eq_of_alike hbody] at hused
              rw [Stmt.unrollAll_loop, ← hused]
              refine .cons (.test _ _ _ _ (Expr.keeps_refl _)) (List.rel_append ?_ (ihr hrest))
              -- the copies of the body, one after the other
              refine List.rel_flatten ?_
              generalize maxIter.toNat = count
              induction count with
              | zero => exact .nil
              | succ count ih => exact .cons (.cons (.test _ _ _ _ hcond) (ihb hbody)) ih

/-! ## Whole clauses -/

namespace Clause

/-- What the clause does, step by step, with `n` conditions used up before it: its
    predicate is a test that comes first. -/
def unroll (c : Clause) (n : Nat) : List Unrolled :=
  match c.predicate with
  | none => Stmt.unrollAll n c.actions
  | some p => .test p :: Stmt.unrollAll (n + 1) c.actions

/-- The clauses are a copy of the clause: one of the whole, if it has neither branches nor
    loops, or one for each step that it makes. -/
inductive CopiedTo (c : Clause) : List Clause → Prop where
  | whole {predicate : Option Expr} {actions : List Stmt} :
      (∀ stmt ∈ c.stmts, stmt.isStructured = false) →
        Option.Rel (Expr.Keeps c.allReturn) c.predicate predicate →
          List.Forall₂ (Stmt.Alike (Expr.Keeps c.allReturn)) c.actions actions →
            CopiedTo c [⟨c.probes, predicate, actions, c.span⟩]
  | split {ks : List Clause} (n : Nat) :
      List.Forall₂ (Unrolled.CopiedTo c.allReturn) (c.unroll n) ks → CopiedTo c ks

/-- A body is a copy of the clause. -/
theorem copiedTo_body {c : Clause} {ids : Ids} {needs : Needs}
    (h : (c.resolve c.allReturn ids).needs = .ok needs) :
    c.CopiedTo (Body.ofClause (c.resolve c.allReturn ids).clause needs).clauses := by
  obtain ⟨-, -, -, hflow⟩ := of_resolve_needs h
  have hpred : Option.Rel (Expr.Keeps c.allReturn) c.predicate
      (c.resolve c.allReturn ids).clause.predicate := by
    rw [resolve_clause, walk]
    cases c.predicate with
    | none => exact .none
    | some p => exact .some (Resolution.keeps_walk p _)
  have hactions : List.Forall₂ (Stmt.Alike (Expr.Keeps c.allReturn)) c.actions
      (c.resolve c.allReturn ids).clause.actions :=
    Stmt.alike_walkList Resolution.keeps_walk _ _
  cases hfast : Body.isFast needs with
  | true =>
      rw [Body.ofClause_of_isFast hfast]
      refine .whole ?_ hpred hactions
      intro stmt hstmt
      simp only [Body.isFast, hflow, Bool.and_eq_true, Bool.not_eq_true'] at hfast
      exact Bool.eq_false_iff.mpr (List.any_eq_false.mp hfast.1 stmt hstmt)
  | false =>
      rw [Body.ofClause_eq_split hfast]
      have hsplit := fun around n =>
        (Emitted.splits_ofStmts c.probes _ around n).copies hactions
      refine .split needs.before ?_
      rw [unroll, split]
      generalize c.predicate = source, (c.resolve c.allReturn ids).clause.predicate = resolved
        at hpred
      cases hpred with
      | none => exact hsplit _ _
      | some hp => exact .cons (.test _ _ _ _ hp) (hsplit _ _)

end Clause

/-! ## Expansion -/

namespace Session

/-- Every span that comes out of an expansion is one of the source.  What comes out is a
    copy of the source, in which each node that is not inside a form is at its own place
    every time that it is written down, with clauses around it that are each at one place
    only. -/
theorem expand_spans {s : Session} {c : Clause} {out : List Clause}
    (h : (s.expand c).result = .ok out) :
    (∀ k ∈ out, ∀ sp ∈ k.spans, sp ∈ c.spans) ∧
      ∃ before body after, out = before ++ body ++ after ∧ c.CopiedTo body ∧
        ∀ k ∈ before ++ after, ∃ sp ∈ c.spans, ∀ sp' ∈ k.spans, sp' = sp := by
  obtain ⟨needs, before, after, hneeds, hout, haround⟩ := of_expand_around h
  exact ⟨located_of_mem_expand h, before, _, after, hout, Clause.copiedTo_body hneeds, haround⟩

/-- A loop at a return whose test holds a form and, in an inline body, a node that is in
    none; its statement asks for callers. -/
theorem expand_spans_loop :
    let s : Session := ⟨.experimentalOn, ⟨"dtrace", "", "", "ERROR"⟩, ⟨2, 4⟩, false⟩
    let pos (n : UInt32) : Span := ⟨0, n, n + 1, 1⟩
    let name (text : String) (n : UInt32) : Expr := .ident text (pos n)
    let elapsed : Expr := .binary .ptr (name "entry" 1) (name "elapsed_us" 2) (pos 3)
    let late : Expr := .binary .gt elapsed (.inline "LIMIT" (name "limit" 4) (pos 5)) (pos 6)
    let calls : Expr := .index (name "callers" 7) [.str "g" (pos 8)] (pos 9)
    let trace : Stmt := .expr (.call "trace" [calls] (pos 10))
    let c : Clause := ⟨[⟨"syscall", "", "read", "return"⟩], some (name "arg1" 11),
      [.loop late 2 [trace] (pos 12)], pos 13⟩
    (late.at? [1, 0] = some (name "limit" 4) ∧ late.inForm c.allReturn [1, 0] = false ∧
      late.inForm c.allReturn [0, 1] = true) ∧
    ∃ out, (s.expand c).result = .ok out ∧ out.length = 13 ∧
      (∀ k ∈ out, ∀ sp ∈ k.spans, sp ∈ c.spans) ∧
      ∃ before body after, out = before ++ body ++ after ∧ c.CopiedTo body ∧
        ∀ k ∈ before ++ after, ∃ sp ∈ c.spans, ∀ sp' ∈ k.spans, sp' = sp := by
  intro s pos name elapsed late calls trace c
  refine ⟨⟨rfl, rfl, rfl⟩, ?_⟩
  have hlength : (s.expand c).result.toOption.map List.length = some 13 := by decide +kernel
  cases hout : (s.expand c).result with
  | error e =>
      rw [hout] at hlength
      cases hlength
  | ok out =>
      rw [hout] at hlength
      exact ⟨out, rfl, Option.some.inj hlength, expand_spans hout⟩

end Session

end ProbeLang
