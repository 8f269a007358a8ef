import ProbeLang.Clause.Walk

/-! # The parts of an expression

    A node and the list of the expressions it is built from say everything that a
    walk looks at.  Written that way, the forms of an expression need no cases of
    their own any more:

    * the nodes of an expression are the expression and the nodes of its parts;
    * a walk that leaves a node alone walks the list of its parts;
    * what holds of an expression as soon as it holds of its parts holds of all.

    The same is done for clauses: to a walk, a clause is the list of the
    expressions that it evaluates (`Clause.exprs`). -/

namespace ProbeLang

namespace Expr

/-- The expressions that a node is built from, in source order. -/
def parts : Expr → List Expr
  | unary _ operand _ => [operand]
  | binary _ left right _ => [left, right]
  | ternary cond onTrue onFalse _ => [cond, onTrue, onFalse]
  | index base keys _ => base :: keys
  | call _ args _ => args
  | agg _ keys func _ => keys ++ func.toList
  | inline _ body _ => [body]
  | _ => []

/-- The node with other parts in the place of its own. -/
def rebuild : Expr → List Expr → Expr
  | unary op _ s, [operand] => unary op operand s
  | binary op _ _ s, [left, right] => binary op left right s
  | ternary _ _ _ s, [cond, onTrue, onFalse] => ternary cond onTrue onFalse s
  | index _ _ s, base :: keys => index base keys s
  | call func _ s, args => call func args s
  | agg name keys _ s, ps => agg name (ps.take keys.length) (ps.drop keys.length).head? s
  | inline name _ s, [body] => inline name body s
  | e, _ => e

/-- A node with its own parts is itself. -/
@[simp] theorem rebuild_parts (e : Expr) : e.rebuild e.parts = e := by
  cases e with
  | agg name keys func s => cases func <;> simp [parts, rebuild]
  | _ => rfl

/-- A rebuilt node has the parts it was given, if it was given as many as it had. -/
theorem parts_rebuild {e : Expr} {ps : List Expr} (h : ps.length = e.parts.length) :
    (e.rebuild ps).parts = ps := by
  cases e with
  | unary op operand s => match ps, h with | [_], _ => rfl
  | binary op left right s => match ps, h with | [_, _], _ => rfl
  | ternary cond onTrue onFalse s => match ps, h with | [_, _, _], _ => rfl
  | index base keys s => match ps, h with | _ :: _, _ => rfl
  | agg name keys func s =>
      simp only [rebuild, parts]
      cases func with
      | none =>
          have hlen : ps.length = keys.length := by simpa [parts] using h
          simp [← hlen]
      | some f =>
          have hlen : ps.length = keys.length + 1 := by simpa [parts] using h
          obtain ⟨g, hg⟩ := List.length_eq_one_iff.mp
            (show (ps.drop keys.length).length = 1 by rw [List.length_drop, hlen]; omega)
          rw [hg]
          show ps.take keys.length ++ [g] = ps
          rw [← hg, List.take_append_drop]
  | inline name body s => match ps, h with | [_], _ => rfl
  | call func args s => rfl
  | _ =>
      rw [List.length_eq_zero_iff.mp h]
      rfl

/-- Only the parts given last are in a node. -/
theorem rebuild_rebuild {e : Expr} {ps qs : List Expr} (hps : ps.length = e.parts.length)
    (hqs : qs.length = e.parts.length) : (e.rebuild ps).rebuild qs = e.rebuild qs := by
  cases e with
  | unary op operand s => match ps, qs, hps, hqs with | [_], [_], _, _ => rfl
  | binary op left right s => match ps, qs, hps, hqs with | [_, _], [_, _], _, _ => rfl
  | ternary cond onTrue onFalse s =>
      match ps, qs, hps, hqs with | [_, _, _], [_, _, _], _, _ => rfl
  | index base keys s => match ps, qs, hps, hqs with | _ :: _, _ :: _, _, _ => rfl
  | agg name keys func s =>
      have hlen : keys.length ≤ ps.length := by
        rw [hps]
        simp [parts]
      simp [rebuild, Nat.min_eq_left hlen]
  | inline name body s => match ps, qs, hps, hqs with | [_], [_], _, _ => rfl
  | _ => rfl

/-- Only an identifier is rebuilt as one. -/
@[simp] theorem identName?_rebuild (e : Expr) (ps : List Expr) :
    (e.rebuild ps).identName? = e.identName? := by
  unfold rebuild
  split <;> rfl

/-- The nodes of an expression are itself and the nodes of its parts. -/
theorem nodes_eq (e : Expr) : e.nodes = e :: e.parts.flatMap nodes := by
  cases e with
  | agg name keys func s => cases func <;> simp [nodes, nodesOption, parts]
  | _ => simp [nodes, parts]

/-- An expression is one of its nodes. -/
theorem self_mem_nodes (e : Expr) : e ∈ e.nodes := by
  rw [nodes_eq]
  exact List.mem_cons_self

/-- The other nodes are those of its parts; inductions on nodes go by this. -/
theorem mem_nodes_iff {e x : Expr} :
    x ∈ e.nodes ↔ x = e ∨ ∃ p ∈ e.parts, x ∈ p.nodes := by
  rw [nodes_eq, List.mem_cons, List.mem_flatMap]

/-- The nodes of a part are nodes of the whole. -/
theorem mem_nodes_of_mem_parts {e p x : Expr} (hp : p ∈ e.parts) (hx : x ∈ p.nodes) :
    x ∈ e.nodes :=
  mem_nodes_iff.mpr (.inr ⟨p, hp, hx⟩)

private theorem sizeOf_part_lt {e p : Expr} (h : p ∈ e.parts) : sizeOf p < sizeOf e := by
  cases e with
  | unary op operand s =>
      obtain rfl : p = operand := by simpa [parts] using h
      simp; omega
  | binary op left right s =>
      obtain rfl | rfl : p = left ∨ p = right := by simpa [parts] using h
      all_goals simp; omega
  | ternary cond onTrue onFalse s =>
      obtain rfl | rfl | rfl : p = cond ∨ p = onTrue ∨ p = onFalse := by
        simpa [parts] using h
      all_goals simp; omega
  | index base keys s =>
      obtain rfl | hk : p = base ∨ p ∈ keys := by simpa [parts] using h
      · simp; omega
      · have := List.sizeOf_lt_of_mem hk
        simp; omega
  | call func args s =>
      have := List.sizeOf_lt_of_mem (show p ∈ args from h)
      simp; omega
  | agg name keys func s =>
      obtain hk | hf : p ∈ keys ∨ func = some p := by simpa [parts] using h
      · have := List.sizeOf_lt_of_mem hk
        simp; omega
      · subst hf
        simp; omega
  | inline name body s =>
      obtain rfl : p = body := by simpa [parts] using h
      simp; omega
  | _ => exact absurd h (by simp [parts])

/-- What holds of an expression as soon as it holds of its parts holds of every one. -/
@[elab_as_elim]
theorem inductionOnParts {P : Expr → Prop} (e : Expr)
    (node : ∀ e : Expr, (∀ p ∈ e.parts, P p) → P e) : P e :=
  node e fun p hp =>
    have : sizeOf p < sizeOf e := sizeOf_part_lt hp
    inductionOnParts p node
termination_by sizeOf e

/-! ## Walks over parts -/

variable {σ : Type} {step : WalkStep σ}

/-- A walk over two lists goes on in the state in which the first one ends. -/
theorem walkList_append (es fs : List Expr) (s : σ) :
    walkList step (es ++ fs) s =
      ((walkList step es s).1 ++ (walkList step fs (walkList step es s).2).1,
        (walkList step fs (walkList step es s).2).2) := by
  induction es generalizing s with
  | nil => rfl
  | cons e es ih => simp only [List.cons_append, walkList, ih]

@[simp] theorem length_walkList (es : List Expr) (s : σ) :
    (walkList step es s).1.length = es.length := by
  induction es generalizing s with
  | nil => rfl
  | cons e es ih => simp only [walkList, List.length_cons, ih]

private theorem walkOption_eq (func : Option Expr) (s : σ) :
    walkOption step func s =
      ((walkList step func.toList s).1.head?, (walkList step func.toList s).2) := by
  cases func <;> rfl

/-- Where a step is taken, its result is that of the walk, and nothing below is visited. -/
theorem walk_of_some {e : Expr} {s : σ} {r : Expr × σ} (h : step e s = some r) :
    e.walk step s = r := by
  unfold walk
  rw [h]

/-- A walk that leaves a node alone walks its parts. -/
theorem walk_of_none {e : Expr} {s : σ} (h : step e s = none) :
    e.walk step s = (e.rebuild (walkList step e.parts s).1, (walkList step e.parts s).2) := by
  cases e with
  | agg name keys func sp =>
      unfold walk
      rw [h]
      simp only [parts, walkList_append, rebuild, walkOption_eq]
      rw [List.take_left' (length_walkList keys s), List.drop_left' (length_walkList keys s)]
  | _ => unfold walk; rw [h]; rfl

/-- Two lists that are related item by item, where each item starts in the state in
    which the one before it ends. -/
inductive Threaded (P : Expr → σ → Expr → σ → Prop) : List Expr → σ → List Expr → σ → Prop where
  | nil (s : σ) : Threaded P [] s [] s
  | cons {e e' : Expr} {es es' : List Expr} {s t u : σ} :
      P e s e' t → Threaded P es t es' u → Threaded P (e :: es) s (e' :: es') u

/-- A walk keeps the number of items. -/
theorem Threaded.length_eq {P : Expr → σ → Expr → σ → Prop} {es es' : List Expr} {s t : σ}
    (h : Threaded P es s es' t) : es'.length = es.length := by
  induction h with
  | nil s => rfl
  | cons _ _ ih => rw [List.length_cons, List.length_cons, ih]

private theorem threaded_walkList {P : Expr → σ → Expr → σ → Prop} {es : List Expr}
    (h : ∀ e ∈ es, ∀ s, P e s (e.walk step s).1 (e.walk step s).2) (s : σ) :
    Threaded P es s (walkList step es s).1 (walkList step es s).2 := by
  induction es generalizing s with
  | nil => exact .nil s
  | cons e es ih =>
      refine .cons (h e List.mem_cons_self s) (ih ?_ _)
      intro e' he'
      exact h e' (List.mem_cons_of_mem e he')

/-- What a walk does to an expression, from what its step does to a node and from what
    a node inherits from its parts. -/
theorem walk_induction {P : Expr → σ → Expr → σ → Prop}
    (taken : ∀ e s r, step e s = some r → P e s r.1 r.2)
    (kept : ∀ e s ps t, step e s = none → Threaded P e.parts s ps t → P e s (e.rebuild ps) t)
    (e : Expr) (s : σ) : P e s (e.walk step s).1 (e.walk step s).2 := by
  induction e using inductionOnParts generalizing s with
  | node e ih =>
      cases h : step e s with
      | some r =>
          rw [walk_of_some h]
          exact taken e s r h
      | none =>
          rw [walk_of_none h]
          exact kept e s _ _ h (threaded_walkList ih s)

/-- What a walk does to a list, from what a step does and from how a node is put
    together again. -/
theorem walkList_induction {P : Expr → σ → Expr → σ → Prop}
    (taken : ∀ e s r, step e s = some r → P e s r.1 r.2)
    (kept : ∀ e s ps t, step e s = none → Threaded P e.parts s ps t → P e s (e.rebuild ps) t)
    (es : List Expr) (s : σ) : Threaded P es s (walkList step es s).1 (walkList step es s).2 :=
  threaded_walkList (fun e _ => walk_induction taken kept e) s

/-- What every step keeps of the state, a walk keeps. -/
theorem walkList_invariant {I : σ → Prop}
    (hstep : ∀ e s r, step e s = some r → I s → I r.2) (es : List Expr) {s : σ} (hs : I s) :
    I (walkList step es s).2 := by
  have hthread : ∀ {es es' : List Expr} {s t : σ},
      Threaded (fun _ s _ t => I s → I t) es s es' t → I s → I t := by
    intro es es' s t h
    induction h with
    | nil s => exact id
    | cons hhead _ ih => exact fun hs => ih (hhead hs)
  exact hthread (walkList_induction (P := fun _ s _ t => I s → I t) hstep
    (fun _ _ _ _ _ h => hthread h) es s) hs

/-- A walk that leaves every node alone changes nothing. -/
theorem walk_eq_self {e : Expr} {s : σ} (h : ∀ x ∈ e.nodes, step x s = none) :
    e.walk step s = (e, s) := by
  have hlist : ∀ es : List Expr, (∀ p ∈ es, p.walk step s = (p, s)) →
      walkList step es s = (es, s) := by
    intro es hes
    induction es with
    | nil => rfl
    | cons p es ih =>
        have hp := hes p List.mem_cons_self
        have hrest := ih fun q hq => hes q (List.mem_cons_of_mem p hq)
        simp only [walkList, hp, hrest]
  induction e using inductionOnParts with
  | node e ih =>
      rw [walk_of_none (h e (self_mem_nodes e)), hlist e.parts fun p hp =>
        ih p hp fun x hx => h x (mem_nodes_of_mem_parts hp hx), rebuild_parts]

end Expr

/-! ## Walks over clauses -/

namespace Stmt

variable {σ : Type} {step : WalkStep σ}

mutual
/-- The expressions of the statements are walked in the order of the statements, with
    the state going through all of them. -/
theorem walk_ownExprs : ∀ (stmt : Stmt) (s : σ),
    Expr.walkList step (stmt.nodes.map ownExpr) s =
      ((stmt.walk step s).1.nodes.map ownExpr, (stmt.walk step s).2)
  | expr e, s => by simp [nodes, walk, ownExpr, Expr.walkList]
  | branch cond onTrue onFalse sp, s => by
      simp only [nodes, walk, List.map_cons, List.map_append, ownExpr, Expr.walkList,
        Expr.walkList_append, walkList_ownExprs onTrue, walkList_ownExprs onFalse]
  | loop cond maxIter body sp, s => by
      simp only [nodes, walk, List.map_cons, ownExpr, Expr.walkList, walkList_ownExprs body]

/-- The same for a list of statements. -/
theorem walkList_ownExprs : ∀ (stmts : List Stmt) (s : σ),
    Expr.walkList step ((nodesList stmts).map ownExpr) s =
      ((nodesList (walkList step stmts s).1).map ownExpr, (walkList step stmts s).2)
  | [], s => rfl
  | stmt :: stmts, s => by
      simp only [nodesList, walkList, List.map_append, Expr.walkList_append,
        walk_ownExprs stmt, walkList_ownExprs stmts]
end

mutual
/-- A walk keeps the kind of every statement; it only reaches expressions. -/
private theorem walk_isStructured : ∀ (stmt : Stmt) (s : σ),
    (stmt.walk step s).1.nodes.map isStructured = stmt.nodes.map isStructured
  | expr e, s => rfl
  | branch cond onTrue onFalse sp, s => by
      simp only [nodes, walk, List.map_cons, List.map_append, isStructured,
        walkList_isStructured onTrue, walkList_isStructured onFalse]
  | loop cond maxIter body sp, s => by
      simp only [nodes, walk, List.map_cons, isStructured, walkList_isStructured body]

private theorem walkList_isStructured : ∀ (stmts : List Stmt) (s : σ),
    (nodesList (walkList step stmts s).1).map isStructured =
      (nodesList stmts).map isStructured
  | [], s => rfl
  | stmt :: stmts, s => by
      simp only [nodesList, walkList, List.map_append, walk_isStructured stmt,
        walkList_isStructured stmts]
end

mutual
/-- If no expression changes, no statement does. -/
private theorem walk_eq_self : ∀ (stmt : Stmt) (s : σ),
    (∀ e ∈ stmt.nodes.map ownExpr, e.walk step s = (e, s)) → stmt.walk step s = (stmt, s)
  | expr e, s, h => by
      simp only [walk, h e (by simp [nodes, ownExpr])]
  | branch cond onTrue onFalse sp, s, h => by
      have hcond := h cond (by simp [nodes, ownExpr])
      have htrue := walkList_eq_self onTrue s fun e he => h e (by simp_all [nodes])
      have hfalse := walkList_eq_self onFalse s fun e he => h e (by simp_all [nodes])
      simp only [walk, hcond, htrue, hfalse]
  | loop cond maxIter body sp, s, h => by
      have hcond := h cond (by simp [nodes, ownExpr])
      have hbody := walkList_eq_self body s fun e he => h e (by simp_all [nodes])
      simp only [walk, hcond, hbody]

private theorem walkList_eq_self : ∀ (stmts : List Stmt) (s : σ),
    (∀ e ∈ (nodesList stmts).map ownExpr, e.walk step s = (e, s)) →
      walkList step stmts s = (stmts, s)
  | [], s, h => rfl
  | stmt :: stmts, s, h => by
      have hfirst := walk_eq_self stmt s fun e he => h e (by
        rw [nodesList, List.map_append]; exact List.mem_append_left _ he)
      have hrest := walkList_eq_self stmts s fun e he => h e (by
        rw [nodesList, List.map_append]; exact List.mem_append_right _ he)
      simp only [walkList, hfirst, hrest]
end

end Stmt

namespace Clause

variable {σ : Type} {step : WalkStep σ}

/-- The expressions that a clause evaluates, in source order: its predicate, and for
    each statement the effect or the test. -/
def exprs (c : Clause) : List Expr := c.predicate.toList ++ c.stmts.map Stmt.ownExpr

/-- The nodes of a clause are those of its expressions in order. -/
theorem exprNodes_eq (c : Clause) : c.exprNodes = c.exprs.flatMap Expr.nodes := by
  cases h : c.predicate <;> simp [exprNodes, exprs, h, Expr.nodesOption, List.flatMap_map]

/-- Walking a clause is walking the expressions that it evaluates. -/
theorem walk_exprs (c : Clause) (s : σ) :
    Expr.walkList step c.exprs s = ((c.walk step s).1.exprs, (c.walk step s).2) := by
  have hpred : Expr.walkList step c.predicate.toList s =
      ((Expr.walkOption step c.predicate s).1.toList, (Expr.walkOption step c.predicate s).2) := by
    cases c.predicate <;> rfl
  simp only [exprs, stmts, walk, Expr.walkList_append, hpred, Stmt.walkList_ownExprs]

/-- What a walk does to the expressions of a clause, one after the other. -/
theorem walk_induction {P : Expr → σ → Expr → σ → Prop}
    (taken : ∀ e s r, step e s = some r → P e s r.1 r.2)
    (kept : ∀ e s ps t, step e s = none → Expr.Threaded P e.parts s ps t →
      P e s (e.rebuild ps) t) (c : Clause) (s : σ) :
    Expr.Threaded P c.exprs s (c.walk step s).1.exprs (c.walk step s).2 := by
  have h := Expr.walkList_induction taken kept c.exprs s
  rwa [walk_exprs] at h

/-- What every step keeps of the state, a walk over a clause keeps. -/
theorem walk_invariant {I : σ → Prop}
    (hstep : ∀ e s r, step e s = some r → I s → I r.2) (c : Clause) {s : σ} (hs : I s) :
    I (c.walk step s).2 := by
  have h := Expr.walkList_invariant hstep c.exprs hs
  rw [walk_exprs] at h
  exact h

/-- A walk makes no statement structured, and none plain. -/
theorem walk_isStructured (c : Clause) (s : σ) :
    (c.walk step s).1.stmts.map Stmt.isStructured = c.stmts.map Stmt.isStructured :=
  Stmt.walkList_isStructured c.actions _

/-- A walk that leaves every node alone changes nothing. -/
theorem walk_eq_self {c : Clause} {s : σ} (h : ∀ x ∈ c.exprNodes, step x s = none) :
    c.walk step s = (c, s) := by
  have hexpr : ∀ e ∈ c.exprs, e.walk step s = (e, s) := by
    intro e he
    refine Expr.walk_eq_self fun x hx => h x ?_
    rw [exprNodes_eq]
    exact List.mem_flatMap.mpr ⟨e, he, hx⟩
  have hpred : Expr.walkOption step c.predicate s = (c.predicate, s) := by
    cases hp : c.predicate with
    | none => rfl
    | some p => simp only [Expr.walkOption, hexpr p (by simp [exprs, hp])]
  have hacts : Stmt.walkList step c.actions s = (c.actions, s) := by
    refine Stmt.walkList_eq_self c.actions s fun e he => hexpr e ?_
    exact List.mem_append_right _ he
  simp only [walk, hpred, hacts]

end Clause

end ProbeLang
