import ProbeLang.Proofs.Expand

/-! # An expanded program is plain

    What comes out of an expansion has neither branches nor loops, all of it could be
    read, and it holds no form (`Clause.Plain`): neither do the slots and the values
    that go into them, nor does what is left of the source.  A clause like that has
    nothing that could be expanded, so a program made of such clauses comes out of
    every session as it went in (`Session.compile_idempotent`). -/

namespace ProbeLang

variable {inReturn : Bool}

/-! ## Expressions -/

namespace Expr

/-- No node of the expression is left for resolution to do something about. -/
def Settled (inReturn : Bool) (e : Expr) : Prop := ∀ x ∈ e.nodes, x.isPlain inReturn = true

/-- An expression is settled if it is plain and its parts are settled. -/
theorem settled_iff {e : Expr} :
    e.Settled inReturn ↔ e.isPlain inReturn = true ∧ ∀ p ∈ e.parts, p.Settled inReturn := by
  constructor
  · intro h
    exact ⟨h e (self_mem_nodes e), fun p hp x hx => h x (mem_nodes_of_mem_parts hp hx)⟩
  · rintro ⟨hself, hparts⟩ x hx
    rcases mem_nodes_iff.mp hx with rfl | ⟨p, hp, hx⟩
    · exact hself
    · exact hparts p hp x hx

private theorem settled_leaf (e : Expr) (h : e.parts = []) (hself : e.isPlain inReturn = true) :
    e.Settled inReturn := by
  rw [settled_iff, h]
  exact ⟨hself, List.forall_mem_nil _⟩

/-- Nothing that expansion puts together is a form: of the expressions with two
    operands only a pointer can be one, and a captured value is a name or an argument. -/
theorem composable_settled (inReturn : Bool) :
    Composable (Settled inReturn) fun _ => True where
  slot := fun {slot} s _ => slot.isPlain_expr s inReturn
  int := fun n s => settled_leaf (.int n s) rfl (by cases inReturn <;> rfl)
  captured := by
    intro f s e h
    cases f with
    | elapsed unit => cases h
    | args n =>
        obtain rfl := Option.some.inj h
        rw [settled_iff]
        refine ⟨by cases inReturn <;> rfl, fun p hp => ?_⟩
        obtain rfl | rfl : p = .ident "args" s ∨ p = .int (.ofNat n) s := by
          simpa [parts] using hp
        · exact settled_leaf _ rfl (by cases inReturn <;> rfl)
        · exact settled_leaf _ rfl (by cases inReturn <;> rfl)
    | _ =>
        obtain rfl := Option.some.inj h
        exact settled_leaf _ rfl (by cases inReturn <;> rfl)
  unary := by
    intro op a s ha
    rw [settled_iff]
    refine ⟨by cases inReturn <;> rfl, fun p hp => ?_⟩
    rwa [List.mem_singleton.mp hp]
  binary := by
    intro op a b s hop ha hb
    rw [settled_iff]
    refine ⟨?_, fun p hp => ?_⟩
    · cases op with
      | ptr => exact absurd rfl hop
      | _ => cases inReturn <;> rfl
    · obtain rfl | rfl : p = a ∨ p = b := by simpa [parts] using hp
      · exact ha
      · exact hb

end Expr

/-! ## Clauses -/

namespace Clause

/-- A clause in which there is nothing to expand. -/
structure Plain (c : Clause) : Prop where
  flat : ∀ stmt ∈ c.stmts, stmt.isStructured = false
  settled : ∀ x ∈ c.exprNodes, x.isPlain c.allReturn = true

/-- A clause made of settled expressions is plain, so that nothing is left to expand. -/
theorem MadeOf.plain {c : Clause} (h : c.MadeOf (Expr.Settled c.allReturn)) : c.Plain := by
  refine ⟨h.flat, fun x hx => ?_⟩
  rw [exprNodes_eq] at hx
  obtain ⟨e, he, hx⟩ := List.mem_flatMap.mp hx
  exact h.exprs e he x hx

end Clause

/-! ## Sessions -/

namespace Session

variable {s t : Session}

/-- What an expansion leads to is plain. -/
theorem plain_of_mem_expand {c k : Clause} {out : List Clause}
    (h : (s.expand c).result = .ok out) (hk : k ∈ out) : k.Plain := by
  obtain ⟨needs, -, hneeds, -⟩ := of_expand_ok h
  have hplain := Resolution.isPlain_resolve (Clause.of_resolve_needs hneeds).1
  refine (madeOf_of_mem_expand (Expr.composable_settled k.allReturn) trivial (fun _ => trivial)
    (fun _ _ => trivial) h hk ?_).plain
  -- a clause at the same probes gives the same meaning to forms
  intro hprobes e he x hx
  have hreturn : k.allReturn = c.allReturn := by
    rw [Clause.allReturn, hprobes]
    rfl
  rw [hreturn]
  refine hplain x ?_
  rw [Clause.exprNodes_eq]
  exact List.mem_flatMap.mpr ⟨e, he, hx⟩

/-- A plain clause comes out as it is, and leaves nothing behind. -/
theorem expand_of_plain {c : Clause} (hc : c.Plain) (t : Session) :
    (t.expand c).result = .ok [c] ∧ (t.expand c).session = t := by
  have hflat : c.flattened = [c] := by
    refine if_neg (Bool.eq_false_iff.mp (List.any_eq_false.mpr fun stmt hstmt => ?_))
    rw [hc.flat stmt hstmt]
    exact Bool.false_ne_true
  -- no handler is needed for a single clause, so the session does not change either
  have hone : t.needsHandler [c] = false := rfl
  obtain ⟨hout, hsess⟩ := expand_of_isPlain hc.settled t
  rw [hflat] at hout hsess
  rw [hout, hsess, withHandler, hone, Bool.or_false]
  exact ⟨rfl, rfl⟩

/-- Any session returns plain clauses as they are, and is what it was. -/
theorem expandAll_of_plain {cs : List Clause} (h : ∀ c ∈ cs, c.Plain) (t : Session) :
    (t.expandAll cs).result = .ok cs ∧ (t.expandAll cs).session = t := by
  induction cs with
  | nil => exact ⟨rfl, rfl⟩
  | cons c cs ih =>
      obtain ⟨hout, hsess⟩ := expand_of_plain (h c List.mem_cons_self) t
      obtain ⟨hrest, hsess'⟩ := ih fun c' hc' => h c' (List.mem_cons_of_mem c hc')
      simp only [expandAll, hout, hsess, hrest, hsess']
      exact ⟨rfl, trivial⟩

/-- A program of plain clauses comes out as it is, with the features on or off. -/
theorem compile_of_plain {q : Program} (h : ∀ c ∈ q.clauses, c.Plain) (t : Session) :
    (t.compile q).result = .ok q ∧ (t.compile q).session = t := by
  unfold compile
  split
  · obtain ⟨hout, hsess⟩ := expandAll_of_plain h t
    simp only [hout, hsess]
    exact ⟨trivial, trivial⟩
  · have hnone : firstStructured? q = none := by
      refine List.find?_eq_none.mpr fun stmt hstmt => ?_
      obtain ⟨c, hc, hstmt⟩ := List.mem_flatMap.mp hstmt
      rw [(h c hc).flat stmt hstmt]
      exact Bool.false_ne_true
    simp only [hnone]
    exact ⟨trivial, trivial⟩

/-- Expansion is idempotent, and what it leads to is plain: there is neither a branch
    nor a loop in it, no place where nothing could be read, and no form that the
    probes of its clause would give a meaning.  Every session, whatever its options
    and whatever it has done before, takes such a program as it is and stays as it
    is itself. -/
theorem compile_idempotent {s : Session} (hs : s.config.experimental = true) {p q : Program}
    (h : (s.compile p).result = .ok q) :
    (∀ c ∈ q.clauses, (∀ stmt ∈ c.stmts, stmt.isStructured = false) ∧
        ∀ e ∈ c.exprNodes, (∀ place : Span, e ≠ .placeholder place) ∧
          Form.of? c.allReturn e = none) ∧
      ∀ t : Session, (t.compile q).result = .ok q ∧ (t.compile q).session = t := by
  have hplain : ∀ c ∈ q.clauses, c.Plain := by
    intro c hc
    cases hall : (s.expandAll p.clauses).result with
    | error e =>
        simp only [compile, hs, hall, if_true] at h
        cases h
    | ok out =>
        simp only [compile, hs, hall, if_true] at h
        obtain rfl := Except.ok.inj h
        obtain ⟨t, c', part, -, hpart, hc⟩ := mem_expandAll hall hc
        exact plain_of_mem_expand hpart hc
  refine ⟨fun c hc => ⟨(hplain c hc).flat, fun e he => ?_⟩, compile_of_plain hplain⟩
  obtain ⟨hform, hread⟩ := Expr.isPlain_iff.mp ((hplain c hc).settled e he)
  exact ⟨hread, hform⟩

/-- A clause at a return, with all that expansion can be asked for in it. -/
theorem compile_idempotent_elapsed :
    let s : Session := ⟨.experimentalOn, ⟨"dtrace", "", "", "ERROR"⟩, .fresh, false⟩
    let name (text : String) : Expr := .ident text .nowhere
    let callers : Expr := .index (name "callers") [.str "syscall::open" .nowhere] .nowhere
    let elapsed : Expr := .binary .ptr (name "entry") (name "elapsed_us") .nowhere
    let trace (e : Expr) : Stmt := .expr (.call "trace" [e] .nowhere)
    let p : Program :=
      ⟨[⟨[⟨"syscall", "", "read", "return"⟩], some callers,
          [.branch elapsed [.loop (name "busy") 2 [trace elapsed] .nowhere] [trace callers]
            .nowhere], .nowhere⟩]⟩
    ∃ q, s.config.experimental = true ∧ (s.compile p).result = .ok q ∧ q.clauses.length = 18 ∧
      (∀ c ∈ q.clauses, (∀ stmt ∈ c.stmts, stmt.isStructured = false) ∧
        ∀ e ∈ c.exprNodes, (∀ place : Span, e ≠ .placeholder place) ∧
          Form.of? c.allReturn e = none) ∧
      ∀ t : Session, (t.compile q).result = .ok q ∧ (t.compile q).session = t := by
  intro s name callers elapsed trace p
  have hcount : (s.compile p).result.toOption.map (·.clauses.length) = some 18 := by
    decide +kernel
  cases hq : (s.compile p).result with
  | error e =>
      rw [hq] at hcount
      cases hcount
  | ok q =>
      rw [hq] at hcount
      exact ⟨q, rfl, rfl, Option.some.inj hcount, compile_idempotent rfl hq⟩

end Session

end ProbeLang
