import ProbeLang.Proofs.Forms

/-! # Forms collected, and something put in their places

    Resolution goes over a clause once: it meets a form, asks for what the form
    needs, and puts a slot in its place before it goes on.  The same can be said in
    two passes that know nothing of each other:

    * the forms of a clause are collected from its nodes, in source order
      (`Request.among`), each with the place where it stands;
    * given as many expressions as there are forms, they are put in the places of
      the forms, the first one first (`Clause.substitute`).

    Which part of the expressions belongs to which part of a clause is worked out
    from the number of forms among the nodes of what comes before it.

    The two agree: `Clause.resolve_eq_substitute`.  A walk that ends at a place where
    nothing could be read has replaced the forms before that place, and those are as
    many as the expressions that there are to put in. -/

namespace ProbeLang

/-! ## Collecting -/

/-- A form, and where it stands. -/
structure Request where
  form : Form
  span : Span
deriving DecidableEq, Repr

namespace Request

/-- The form that a node is. -/
def of? (inReturn : Bool) (e : Expr) : Option Request :=
  (Form.of? inReturn e).map (⟨·, e.span⟩)

/-- The forms among some nodes, in their order. -/
def among (inReturn : Bool) (xs : List Expr) : List Request := xs.filterMap (of? inReturn)

variable {inReturn : Bool}

@[simp] theorem among_append (xs ys : List Expr) :
    among inReturn (xs ++ ys) = among inReturn xs ++ among inReturn ys :=
  List.filterMap_append

/-- Plain code asks for nothing. -/
theorem among_of_isPlain {xs : List Expr} (h : ∀ x ∈ xs, x.isPlain inReturn = true) :
    among inReturn xs = [] := by
  refine List.filterMap_eq_nil_iff.mpr fun x hx => ?_
  rw [of?, (Expr.isPlain_iff.mp (h x hx)).1]
  rfl

/-- What a form is built from adds nothing to it. -/
theorem among_nodes_of_form {e : Expr} {form : Form} (h : Form.of? inReturn e = some form) :
    among inReturn e.nodes = [⟨form, e.span⟩] := by
  have hparts : among inReturn (e.parts.flatMap Expr.nodes) = [] := by
    refine among_of_isPlain fun x hx => ?_
    obtain ⟨p, hp, hx⟩ := List.mem_flatMap.mp hx
    exact Form.isPlain_of_mem_parts h hp hx
  have hself : among inReturn [e] = [⟨form, e.span⟩] := by
    rw [among, List.filterMap_cons_some (by rw [of?, h]; rfl)]
    rfl
  rw [Expr.nodes_eq, ← List.singleton_append, among_append, hself, hparts, List.append_nil]

/-- A node that is no form leaves the forms to its parts. -/
theorem among_nodes_of_none {e : Expr} (h : Form.of? inReturn e = none) :
    among inReturn e.nodes = among inReturn (e.parts.flatMap Expr.nodes) := by
  rw [Expr.nodes_eq, among, List.filterMap_cons_none (by rw [of?, h]; rfl)]
  rfl

end Request

/-- The forms of a clause, in source order. -/
def Clause.requests (c : Clause) (inReturn : Bool) : List Request :=
  Request.among inReturn c.exprNodes

/-! ## Substituting -/

namespace Expr

/-- How many forms an expression has. -/
def formCount (inReturn : Bool) (e : Expr) : Nat := (Request.among inReturn e.nodes).length

/-- How many forms the expressions of a list have. -/
def formCountList (inReturn : Bool) (es : List Expr) : Nat :=
  (Request.among inReturn (es.flatMap nodes)).length

mutual
/-- The expression with the ones of `new` in the places of its forms.  A form for
    which nothing is left in `new` stays. -/
def substitute (inReturn : Bool) (e : Expr) (new : List Expr) : Expr :=
  if (Form.of? inReturn e).isSome then new.headD e
  else
    match e with
    | unary op operand s => unary op (operand.substitute inReturn new) s
    | binary op left right s =>
        binary op (left.substitute inReturn new)
          (right.substitute inReturn (new.drop (left.formCount inReturn))) s
    | ternary cond onTrue onFalse s =>
        ternary (cond.substitute inReturn new)
          (onTrue.substitute inReturn (new.drop (cond.formCount inReturn)))
          (onFalse.substitute inReturn
            ((new.drop (cond.formCount inReturn)).drop (onTrue.formCount inReturn))) s
    | index base keys s =>
        index (base.substitute inReturn new)
          (substituteList inReturn keys (new.drop (base.formCount inReturn))) s
    | call func args s => call func (substituteList inReturn args new) s
    | agg name keys func s =>
        agg name (substituteList inReturn keys new)
          (substituteOption inReturn func (new.drop (formCountList inReturn keys))) s
    | inline name body s => inline name (body.substitute inReturn new) s
    | leaf => leaf

/-- The expressions of a list with the ones of `new` in the places of their forms. -/
def substituteList (inReturn : Bool) (es : List Expr) (new : List Expr) : List Expr :=
  match es with
  | [] => []
  | e :: es =>
      e.substitute inReturn new ::
        substituteList inReturn es (new.drop (e.formCount inReturn))

/-- An expression that may be missing, with the ones of `new` in the places of its forms. -/
def substituteOption (inReturn : Bool) (e : Option Expr) (new : List Expr) : Option Expr :=
  match e with
  | none => none
  | some e => some (e.substitute inReturn new)
end

variable {inReturn : Bool}

/-- A list has the forms of its items. -/
theorem formCountList_cons (e : Expr) (es : List Expr) :
    formCountList inReturn (e :: es) = e.formCount inReturn + formCountList inReturn es := by
  rw [formCountList, List.flatMap_cons, Request.among_append, List.length_append]
  rfl

/-- A form counts once; what is inside it is not looked at. -/
theorem formCount_of_form {e : Expr} {form : Form} (h : Form.of? inReturn e = some form) :
    e.formCount inReturn = 1 := by
  rw [formCount, Request.among_nodes_of_form h]
  rfl

/-- Elsewhere the forms are those of the parts. -/
theorem formCount_of_none {e : Expr} (h : Form.of? inReturn e = none) :
    e.formCount inReturn = formCountList inReturn e.parts := by
  rw [formCount, Request.among_nodes_of_none h]
  rfl

/-- Substitution keeps a list as long as it is. -/
@[simp] theorem length_substituteList (es new : List Expr) :
    (substituteList inReturn es new).length = es.length := by
  induction es generalizing new with
  | nil => rfl
  | cons e es ih => rw [substituteList, List.length_cons, ih, List.length_cons]

/-- The replacements of a list are used up from the front: the second list gets what the
    first one has left. -/
theorem substituteList_append (es fs new : List Expr) :
    substituteList inReturn (es ++ fs) new =
      substituteList inReturn es new ++
        substituteList inReturn fs (new.drop (formCountList inReturn es)) := by
  induction es generalizing new with
  | nil => rfl
  | cons e es ih =>
      rw [List.cons_append, substituteList, ih, formCountList_cons, List.drop_drop]
      rfl

/-- A form takes the first replacement there is. -/
theorem substitute_of_form {e : Expr} {form : Form} (h : Form.of? inReturn e = some form)
    (new : List Expr) : e.substitute inReturn new = new.headD e := by
  unfold substitute
  rw [h]
  rfl

/-- A node that is no form is kept, and its parts are substituted in. -/
theorem substitute_of_none {e : Expr} (h : Form.of? inReturn e = none) (new : List Expr) :
    e.substitute inReturn new = e.rebuild (substituteList inReturn e.parts new) := by
  unfold substitute
  rw [h, if_neg (by exact Bool.false_ne_true)]
  cases e with
  | agg name keys func s =>
      have hfunc : substituteOption inReturn func (new.drop (formCountList inReturn keys)) =
          (substituteList inReturn func.toList
            (new.drop (formCountList inReturn keys))).head? := by
        cases func <;> rfl
      simp only [parts, substituteList_append, rebuild]
      rw [List.take_left' (length_substituteList keys new),
        List.drop_left' (length_substituteList keys new), hfunc]
  | _ => rfl

/-! ### What a substitution looks at -/

private theorem substituteList_nil_of {es : List Expr}
    (h : ∀ e ∈ es, e.substitute inReturn [] = e) : substituteList inReturn es [] = es := by
  induction es with
  | nil => rfl
  | cons e es ih =>
      rw [substituteList, List.drop_nil, h e List.mem_cons_self,
        ih fun p hp => h p (List.mem_cons_of_mem e hp)]

/-- With nothing to put in, an expression stays as it is. -/
theorem substitute_nil (e : Expr) : e.substitute inReturn [] = e := by
  induction e using inductionOnParts with
  | node e ih =>
      cases h : Form.of? inReturn e with
      | some form => exact substitute_of_form h []
      | none => rw [substitute_of_none h, substituteList_nil_of ih, rebuild_parts]

/-- With nothing to put in, nothing changes. -/
theorem substituteList_nil (es : List Expr) : substituteList inReturn es [] = es :=
  substituteList_nil_of fun e _ => substitute_nil e

private theorem substituteList_take_of {es : List Expr}
    (h : ∀ e ∈ es, ∀ new, e.substitute inReturn (new.take (e.formCount inReturn)) =
      e.substitute inReturn new) (new : List Expr) :
    substituteList inReturn es (new.take (formCountList inReturn es)) =
      substituteList inReturn es new := by
  induction es generalizing new with
  | nil => rfl
  | cons e es ih =>
      have hfirst := h e List.mem_cons_self
      have hrest := ih fun p hp => h p (List.mem_cons_of_mem e hp)
      rw [substituteList, substituteList, formCountList_cons, List.drop_take,
        Nat.add_sub_cancel_left, hrest, ← hfirst (new.take _), List.take_take,
        Nat.min_eq_left (Nat.le_add_right _ _), hfirst]

/-- No more is put in than there are forms. -/
theorem substitute_take (e : Expr) (new : List Expr) :
    e.substitute inReturn (new.take (e.formCount inReturn)) = e.substitute inReturn new := by
  induction e using inductionOnParts generalizing new with
  | node e ih =>
      cases h : Form.of? inReturn e with
      | some form =>
          rw [substitute_of_form h, substitute_of_form h, formCount_of_form h]
          cases new <;> rfl
      | none =>
          rw [substitute_of_none h, substitute_of_none h, formCount_of_none h,
            substituteList_take_of ih]

/-- What is left over after the forms of some expressions is not put in there. -/
theorem substituteList_append_of_length {es new : List Expr}
    (h : new.length = formCountList inReturn es) (more : List Expr) :
    substituteList inReturn es (new ++ more) = substituteList inReturn es new := by
  rw [← substituteList_take_of fun e _ => substitute_take e, ← h, List.take_left]

end Expr

/-! ## Other expressions in a clause -/

namespace Stmt

mutual
/-- The statement that evaluates the expressions `es`, in source order, and is like
    this one otherwise. -/
def withExprs (stmt : Stmt) (es : List Expr) : Stmt :=
  match stmt with
  | expr e => expr (es.headD e)
  | branch cond onTrue onFalse s =>
      branch (es.headD cond) (withExprsList onTrue es.tail)
        (withExprsList onFalse (es.tail.drop (nodesList onTrue).length)) s
  | loop cond maxIter body s => loop (es.headD cond) maxIter (withExprsList body es.tail) s

/-- The statements that evaluate the expressions `es`, and are like these otherwise. -/
def withExprsList (stmts : List Stmt) (es : List Expr) : List Stmt :=
  match stmts with
  | [] => []
  | stmt :: stmts =>
      stmt.withExprs es :: withExprsList stmts (es.drop stmt.nodes.length)
end

variable {σ : Type} (step : WalkStep σ)

mutual
/-- A walk over a statement walks the expressions that it evaluates, and keeps the rest. -/
theorem walk_eq_withExprs : ∀ (stmt : Stmt) (s : σ) (more : List Expr),
    (stmt.walk step s).1 =
      stmt.withExprs ((Expr.walkList step (stmt.nodes.map ownExpr) s).1 ++ more)
  | expr e, s, more => rfl
  | branch cond onTrue onFalse sp, s, more => by
      simp only [nodes, walk, List.map_cons, List.map_append, ownExpr, Expr.walkList,
        Expr.walkList_append, withExprs, List.cons_append, List.headD_cons, List.tail_cons,
        List.append_assoc, ← walkList_eq_withExprs onTrue]
      rw [List.drop_left' (by rw [Expr.length_walkList, List.length_map]),
        ← walkList_eq_withExprs onFalse, walkList_ownExprs]
  | loop cond maxIter body sp, s, more => by
      simp only [nodes, walk, List.map_cons, ownExpr, Expr.walkList, withExprs, List.cons_append,
        List.headD_cons, List.tail_cons, ← walkList_eq_withExprs body]

/-- The same for a list of statements, with the expressions of each in a row. -/
theorem walkList_eq_withExprs : ∀ (stmts : List Stmt) (s : σ) (more : List Expr),
    (walkList step stmts s).1 =
      withExprsList stmts ((Expr.walkList step ((nodesList stmts).map ownExpr) s).1 ++ more)
  | [], s, more => rfl
  | stmt :: stmts, s, more => by
      simp only [nodesList, walkList, List.map_append, Expr.walkList_append, withExprsList,
        List.append_assoc, ← walk_eq_withExprs stmt]
      rw [List.drop_left' (by rw [Expr.length_walkList, List.length_map]),
        ← walkList_eq_withExprs stmts, walk_ownExprs]
end

end Stmt

namespace Clause

/-- The clause that evaluates the expressions `es`, in source order, and is like this
    one otherwise. -/
def withExprs (c : Clause) (es : List Expr) : Clause :=
  { c with
    predicate := c.predicate.map fun p => es.headD p
    actions := Stmt.withExprsList c.actions (es.drop c.predicate.toList.length) }

/-- A walk over a clause walks the expressions that it evaluates, and keeps the rest. -/
theorem walk_eq_withExprs {σ : Type} (step : WalkStep σ) (c : Clause) (s : σ) :
    (c.walk step s).1 = c.withExprs (Expr.walkList step c.exprs s).1 := by
  obtain ⟨probes, predicate, actions, sp⟩ := c
  have hacts := Stmt.walkList_eq_withExprs step actions (Expr.walkOption step predicate s).2 []
  rw [List.append_nil] at hacts
  cases predicate with
  | none => exact congrArg (Clause.mk probes none · sp) hacts
  | some p => exact congrArg (Clause.mk probes (some (p.walk step s).1) · sp) hacts

/-- The clause with the ones of `new` in the places of its forms. -/
def substitute (c : Clause) (inReturn : Bool) (new : List Expr) : Clause :=
  c.withExprs (Expr.substituteList inReturn c.exprs new)

end Clause

/-! ## The two passes and the one -/

/-- The forms that come before the first place where nothing could be read. -/
def Request.met (inReturn : Bool) (xs : List Expr) : List Request :=
  among inReturn (xs.takeWhile Expr.isReadable)

namespace Expr

/-- Plain code can be read. -/
theorem isReadable_of_isPlain {inReturn : Bool} {e : Expr} (h : e.isPlain inReturn = true) :
    e.isReadable = true :=
  (Bool.and_eq_true_iff.mp h).2

/-- The span of the first place where nothing could be read. -/
def stop? (xs : List Expr) : Option Span := (xs.find? fun x => !x.isReadable).map span

/-- No place stops the walk exactly if all can be read. -/
theorem stop?_eq_none_iff {xs : List Expr} :
    stop? xs = none ↔ ∀ x ∈ xs, x.isReadable = true := by
  simp [stop?]

/-- The first place of two lists that cannot be read is that of the first list, if it
    has one. -/
theorem stop?_append (xs ys : List Expr) :
    stop? (xs ++ ys) = (stop? xs).or (stop? ys) := by
  rw [stop?, List.find?_append, Option.map_or]
  rfl

end Expr

namespace Request

variable {inReturn : Bool} {xs : List Expr}

/-- If all can be read, all requests are met. -/
theorem met_of_readable (h : ∀ x ∈ xs, x.isReadable = true) :
    met inReturn xs = among inReturn xs := by
  rw [met, Expr.takeWhile_isReadable h]

/-- After a place that could be read, more forms are met. -/
theorem met_append (h : ∀ x ∈ xs, x.isReadable = true) (ys : List Expr) :
    met inReturn (xs ++ ys) = among inReturn xs ++ met inReturn ys := by
  rw [met, List.takeWhile_append_of_pos h, among_append]
  rfl

/-- After one that could not, none are. -/
theorem met_append_of_stop (h : ¬ ∀ x ∈ xs, x.isReadable = true) (ys : List Expr) :
    met inReturn (xs ++ ys) = met inReturn xs := by
  rw [met, List.takeWhile_append, if_neg]
  · rfl
  · intro hlen
    have heq := (List.takeWhile_prefix Expr.isReadable (l := xs)).eq_of_length hlen
    exact h (List.all_eq_true.mp (heq ▸ List.all_takeWhile))

/-- Only requests that are there are met. -/
theorem length_met_le (xs : List Expr) : (met inReturn xs).length ≤ (among inReturn xs).length :=
  ((List.takeWhile_sublist _).filterMap _).length_le

end Request

namespace Resolution

variable {inReturn : Bool} {e e' : Expr} {es es' fs fs' ps : List Expr} {r r' r'' : Resolution}

/-- Replaces forms one after the other. -/
def replaceAll (r : Resolution) : List Request → List Expr × Resolution
  | [] => ([], r)
  | q :: qs =>
      let a := r.replace q.form q.span
      let b := a.2.replaceAll qs
      (a.1 :: b.1, b.2)

/-- Requests are met one after the other, so those of a second list start where the
    first one ends. -/
theorem replaceAll_append (qs ts : List Request) (r : Resolution) :
    r.replaceAll (qs ++ ts) =
      ((r.replaceAll qs).1 ++ ((r.replaceAll qs).2.replaceAll ts).1,
        ((r.replaceAll qs).2.replaceAll ts).2) := by
  induction qs generalizing r with
  | nil => rfl
  | cons q qs ih => simp only [List.cons_append, replaceAll, ih]

/-- Every request that is met gets a replacement. -/
@[simp] theorem length_replaceAll (qs : List Request) (r : Resolution) :
    (r.replaceAll qs).1.length = qs.length := by
  induction qs generalizing r with
  | nil => rfl
  | cons q qs ih => simp only [replaceAll, List.length_cons, ih]

/-- Replacing a form is no fault. -/
theorem fault_replaceAll (qs : List Request) (r : Resolution) :
    (r.replaceAll qs).2.fault = r.fault := by
  induction qs generalizing r with
  | nil => rfl
  | cons q qs ih =>
      rw [replaceAll, ih]
      exact (replace_cases rfl).1

/-- A walk has made `es'` of `es`: it has replaced the forms that it met, one after
    the other, and put the replacements in their places. -/
structure Substitutes (inReturn : Bool) (es : List Expr) (r : Resolution) (es' : List Expr)
    (r' : Resolution) : Prop where
  stuck : r.fault.isSome → es' = es ∧ r' = r
  exprs : r.fault = none → es' =
    Expr.substituteList inReturn es
      (r.replaceAll (Request.met inReturn (es.flatMap Expr.nodes))).1
  state : r.fault = none → r' =
    { (r.replaceAll (Request.met inReturn (es.flatMap Expr.nodes))).2 with
      fault := Expr.stop? (es.flatMap Expr.nodes) }

/-- No expression, no replacement. -/
theorem substitutes_nil (r : Resolution) : Substitutes inReturn [] r [] r := by
  refine ⟨fun _ => ⟨rfl, rfl⟩, fun _ => rfl, ?_⟩
  intro hr
  show r = { r with fault := none }
  rw [← hr]

/-- Two lists in a row: replacements are taken off in order, and if the first list stops
    the walk the second one stays as it is. -/
theorem Substitutes.append (h : Substitutes inReturn es r es' r')
    (h' : Substitutes inReturn fs r' fs' r'') :
    Substitutes inReturn (es ++ fs) r (es' ++ fs') r'' := by
  cases hr : r.fault with
  | some s =>
      obtain ⟨rfl, rfl⟩ := h.stuck (by rw [hr]; rfl)
      obtain ⟨rfl, rfl⟩ := h'.stuck (by rw [hr]; rfl)
      refine ⟨fun _ => ⟨rfl, rfl⟩, ?_, ?_⟩ <;> intro hnone <;> rw [hr] at hnone <;> cases hnone
  | none =>
      have hstuck : r.fault.isSome → es' ++ fs' = es ++ fs ∧ r'' = r := by
        intro hsome
        rw [hr] at hsome
        cases hsome
      have hes := h.exprs hr
      have hstate := h.state hr
      by_cases hread : ∀ x ∈ es.flatMap Expr.nodes, x.isReadable = true
      · -- all of `es` could be read: the walk goes on from where that leaves it
        have hmid : r' = (r.replaceAll (Request.among inReturn (es.flatMap Expr.nodes))).2 := by
          rw [hstate, Request.met_of_readable hread, Expr.stop?_eq_none_iff.mpr hread]
          rw [← hr, ← fault_replaceAll (Request.among inReturn (es.flatMap Expr.nodes)) r]
        have hr' : r'.fault = none := by rw [hmid, fault_replaceAll, hr]
        have hlen : (r.replaceAll (Request.among inReturn (es.flatMap Expr.nodes))).1.length =
            Expr.formCountList inReturn es := length_replaceAll _ r
        refine ⟨hstuck, fun _ => ?_, fun _ => ?_⟩
        · rw [List.flatMap_append, Request.met_append hread, replaceAll_append, ← hmid]
          dsimp only
          rw [Expr.substituteList_append, Expr.substituteList_append_of_length hlen,
            List.drop_left' hlen, h'.exprs hr', hes, Request.met_of_readable hread]
        · rw [List.flatMap_append, Request.met_append hread, replaceAll_append, ← hmid,
            Expr.stop?_append, Expr.stop?_eq_none_iff.mpr hread]
          exact h'.state hr'
      · -- the walk got stuck in `es`: nothing is left to put into `fs`
        have hsome : r'.fault.isSome := by
          rw [hstate]
          exact Option.isSome_iff_ne_none.mpr fun h => hread (Expr.stop?_eq_none_iff.mp h)
        obtain ⟨rfl, rfl⟩ := h'.stuck hsome
        refine ⟨hstuck, fun _ => ?_, fun _ => ?_⟩
        · have hlen : (r.replaceAll (Request.met inReturn (es.flatMap Expr.nodes))).1.length ≤
              Expr.formCountList inReturn es := by
            rw [length_replaceAll]
            exact Request.length_met_le _
          rw [List.flatMap_append, Request.met_append_of_stop hread, Expr.substituteList_append,
            ← hes, List.drop_eq_nil_of_le hlen, Expr.substituteList_nil]
        · obtain ⟨s, hs⟩ := Option.isSome_iff_exists.mp hsome
          have hstop : Expr.stop? (es.flatMap Expr.nodes) = some s := by rw [← hs, hstate]
          rw [List.flatMap_append, Request.met_append_of_stop hread, Expr.stop?_append, hstop]
          rw [hstop] at hstate
          exact hstate

/-- What a step makes of a node. -/
theorem substitutes_taken (h : step inReturn e r = some (e', r')) :
    Substitutes inReturn [e] r [e'] r' := by
  have hnodes : [e].flatMap Expr.nodes = e.nodes := List.flatMap_singleton _ e
  rcases step_cases h with ⟨hr, rfl, rfl⟩ | ⟨hr, form, hform, hrep⟩ | ⟨hr, s, rfl, rfl, rfl⟩
  · refine ⟨fun _ => ⟨rfl, rfl⟩, ?_, ?_⟩ <;> intro hnone <;> rw [hnone] at hr <;> cases hr
  · -- the one form is met, and its replacement is put in its place
    have hread : ∀ x ∈ e.nodes, x.isReadable = true := by
      intro x hx
      rcases Expr.mem_nodes_iff.mp hx with rfl | ⟨p, hp, hx⟩
      · cases x with
        | placeholder s => cases inReturn <;> cases hform
        | _ => rfl
      · exact Expr.isReadable_of_isPlain (Form.isPlain_of_mem_parts hform hp hx)
    have hmet : r.replaceAll (Request.met inReturn e.nodes) = ([e'], r') := by
      rw [Request.met_of_readable hread, Request.among_nodes_of_form hform]
      show ([(r.replace form e.span).1], (r.replace form e.span).2) = ([e'], r')
      rw [hrep]
    refine ⟨?_, fun _ => ?_, fun _ => ?_⟩
    · intro hsome
      rw [hr] at hsome
      cases hsome
    · rw [hnodes, hmet, Expr.substituteList, Expr.substitute_of_form hform]
      rfl
    · rw [hnodes, hmet, Expr.stop?_eq_none_iff.mpr hread]
      show r' = { r' with fault := none }
      rw [← hr, ← (replace_cases hrep).1]
  · -- the walk stops at the placeholder
    have hkept : Expr.substituteList inReturn [.placeholder s] [] = [.placeholder s] :=
      Expr.substituteList_nil _
    refine ⟨?_, fun _ => hkept.symm, fun _ => rfl⟩
    intro hsome
    rw [hr] at hsome
    cases hsome

/-- What a walk makes of a node that the step leaves to it. -/
theorem substitutes_kept (h : step inReturn e r = none)
    (hps : Substitutes inReturn e.parts r ps r') :
    Substitutes inReturn [e] r [e.rebuild ps] r' := by
  obtain ⟨hr, hplain⟩ := step_eq_none_iff.mp h
  have hform := (Expr.isPlain_iff.mp hplain).1
  have hread := Expr.isReadable_of_isPlain hplain
  have hnodes : [e].flatMap Expr.nodes = [e] ++ e.parts.flatMap Expr.nodes := by
    rw [List.flatMap_singleton, Expr.nodes_eq, List.singleton_append]
  have hmet : Request.met inReturn ([e].flatMap Expr.nodes) =
      Request.met inReturn (e.parts.flatMap Expr.nodes) := by
    rw [hnodes, Request.met_append (List.forall_mem_singleton.mpr hread),
      Request.among_of_isPlain (List.forall_mem_singleton.mpr hplain), List.nil_append]
  have hstop : Expr.stop? ([e].flatMap Expr.nodes) =
      Expr.stop? (e.parts.flatMap Expr.nodes) := by
    rw [hnodes, Expr.stop?_append,
      Expr.stop?_eq_none_iff.mpr (List.forall_mem_singleton.mpr hread), Option.none_or]
  refine ⟨?_, fun _ => ?_, fun _ => ?_⟩
  · intro hsome
    rw [hr] at hsome
    cases hsome
  · rw [hmet, Expr.substituteList, Expr.substitute_of_none hform, ← hps.exprs hr]
    rfl
  · rw [hmet, hstop]
    exact hps.state hr

/-- So a list that is threaded through one expression at a time is substituted as a
    whole. -/
theorem substitutes_threaded
    (h : Expr.Threaded (fun e r e' r' => Substitutes inReturn [e] r [e'] r') es r es' r') :
    Substitutes inReturn es r es' r' := by
  induction h with
  | nil r => exact substitutes_nil r
  | cons hhead _ ih => exact hhead.append ih

end Resolution

namespace Clause

variable {c : Clause} {inReturn : Bool} {ids : Ids}

/-- What resolution does in one pass. -/
private theorem substitutes_resolution (c : Clause) (inReturn : Bool) (ids : Ids) :
    Resolution.Substitutes inReturn c.exprs (.start ids)
      (c.resolve inReturn ids).clause.exprs (c.resolution inReturn ids) :=
  Resolution.substitutes_threaded (Clause.resolve_induction
    (fun _ _ _ => Resolution.substitutes_taken)
    (fun _ _ _ _ h hps => Resolution.substitutes_kept h (Resolution.substitutes_threaded hps))
    c ids)

/-- Resolution replaces the forms that come before the first place where nothing
    could be read, and puts what it makes of them in their places. -/
theorem resolve_eq_substitute (c : Clause) (inReturn : Bool) (ids : Ids) :
    (c.resolve inReturn ids).clause = c.substitute inReturn
      ((Resolution.start ids).replaceAll (Request.met inReturn c.exprNodes)).1 := by
  have hexprs := (substitutes_resolution c inReturn ids).exprs rfl
  rw [← exprNodes_eq] at hexprs
  have hclause := c.walk_eq_withExprs (Resolution.step inReturn) (.start ids)
  rw [walk_exprs] at hclause
  exact hclause.trans (congrArg c.withExprs hexprs)

/-- What it asks for is what these forms ask for. -/
theorem resolution_eq (c : Clause) (inReturn : Bool) (ids : Ids) :
    c.resolution inReturn ids =
      { ((Resolution.start ids).replaceAll (Request.met inReturn c.exprNodes)).2 with
        fault := Expr.stop? c.exprNodes } := by
  have hstate := (substitutes_resolution c inReturn ids).state rfl
  rw [← exprNodes_eq] at hstate
  exact hstate

end Clause

end ProbeLang
