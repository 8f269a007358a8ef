import ProbeLang.Proofs.Regrouping

/-! # Expressions from left to right

    The text of an expression, taken as a string of signs, names, brackets and
    operators in the order in which they are written.  An expression is a tree with
    the last operator on top; a phrase has the first sign on top, and says nothing
    about the order in which signs, suffixes, subscripts and members apply.

    Every expression has a phrase (`Expr.phrase`) with the text of the expression.  A
    phrase can be made an expression again by the rule that members are taken from
    the left and signs apply last (`Phrase.toExpr`), and what comes out is a
    regrouping of the expression that the phrase was made of. -/

namespace ProbeLang

/-! ## Phrases -/

/-- A sign: an operator before its operand that is not made of other signs. -/
abbrev Sign := { op : UnaryOp // op.followsOperand = false ∧ op ≠ .preDec }

/-- An operator after its operand. -/
abbrev Suffix := { op : UnaryOp // op.followsOperand = true }

/-- An operator that takes a member. -/
abbrev Access := { op : BinaryOp // op.isMemberAccess = true }

/-- An operator with blanks around it. -/
abbrev Spaced := { op : BinaryOp // op.isMemberAccess = false }

theorem Suffix.eq_or_eq (op : Suffix) : op.val = .postInc ∨ op.val = .postDec := by
  obtain ⟨op, hop⟩ := op
  cases op with
  | postInc => exact .inl rfl
  | postDec => exact .inr rfl
  | _ => cases hop

theorem Access.eq_or_eq (op : Access) : op.val = .ptr ∨ op.val = .dot := by
  obtain ⟨op, hop⟩ := op
  cases op with
  | ptr => exact .inl rfl
  | dot => exact .inr rfl
  | _ => cases hop

mutual
/-- What stands alone, between commas or in parentheses. -/
inductive Phrase where
  | operand (operand : Operand)
  | binary (op : Spaced) (left right : Operand)
  | ternary (cond onTrue onFalse : Operand)

/-- What stands between blanks. -/
inductive Operand where
  | sign (op : Sign) (rest : Operand)
  | core (core : Core) (rest : Tail)

/-- What signs stand before and members are taken of. -/
inductive Core where
  | int (value : UInt64)
  | str (value : String)
  | ident (name : Text.Name)
  | sym (name : Text.Name)
  | call (func : Text.Name) (args : List Phrase)
  | parens (content : Phrase)

/-- What follows in the same operand. -/
inductive Tail where
  | stop
  | suffix (op : Suffix) (rest : Tail)
  | keys (keys : List Phrase) (rest : Tail)
  | member (op : Access) (rest : Operand)
end

mutual
/-- The characters of a phrase. -/
def Phrase.chars : Phrase → List Char
  | .operand o => o.chars
  | .binary op left right =>
      left.chars ++ ' ' :: (op.val.symbol.toList ++ ' ' :: right.chars)
  | .ternary cond onTrue onFalse =>
      cond.chars ++ ' ' :: '?' :: ' ' :: (onTrue.chars ++ ' ' :: ':' :: ' ' :: onFalse.chars)

/-- The characters of an operand. -/
def Operand.chars : Operand → List Char
  | .sign op rest => op.val.symbol.toList ++ rest.chars
  | .core c rest => c.chars ++ rest.chars

/-- The characters of what signs stand before. -/
def Core.chars : Core → List Char
  | .int value => Nat.toDigits 10 value.toNat
  | .str value => (Text.quote value).toList
  | .ident name => name.val.toList
  | .sym name => '`' :: name.val.toList
  | .call func args => func.val.toList ++ '(' :: (Phrase.listChars args ++ [')'])
  | .parens content => '(' :: (content.chars ++ [')'])

/-- The characters of the rest of an operand. -/
def Tail.chars : Tail → List Char
  | .stop => []
  | .suffix op rest => op.val.symbol.toList ++ rest.chars
  | .keys keys rest => '[' :: (Phrase.listChars keys ++ ']' :: rest.chars)
  | .member op rest => op.val.symbol.toList ++ rest.chars

/-- The characters of phrases with commas between them. -/
def Phrase.listChars : List Phrase → List Char
  | [] => []
  | p :: ps => p.chars ++ Phrase.moreChars ps

/-- The characters of phrases with a comma before each of them. -/
def Phrase.moreChars : List Phrase → List Char
  | [] => []
  | p :: ps => ',' :: ' ' :: (p.chars ++ Phrase.moreChars ps)
end

mutual
/-- An operand with `more` after it. -/
def Operand.append : Operand → Tail → Operand
  | .sign op rest, more => .sign op (rest.append more)
  | .core c rest, more => .core c (rest.append more)

/-- The rest of an operand with `more` after it. -/
def Tail.append : Tail → Tail → Tail
  | .stop, more => more
  | .suffix op rest, more => .suffix op (rest.append more)
  | .keys keys rest, more => .keys keys (rest.append more)
  | .member op rest, more => .member op (rest.append more)
end

mutual
/-- The text of an operand with more after it is the two texts in a row. -/
theorem Operand.chars_append : (o : Operand) → (more : Tail) →
    (o.append more).chars = o.chars ++ more.chars
  | .sign op rest, more => by
      simp only [Operand.append, Operand.chars, rest.chars_append more, List.append_assoc]
  | .core c rest, more => by
      simp only [Operand.append, Operand.chars, rest.chars_append more, List.append_assoc]

/-- The same for the rest of an operand. -/
theorem Tail.chars_append : (t : Tail) → (more : Tail) →
    (t.append more).chars = t.chars ++ more.chars
  | .stop, more => rfl
  | .suffix op rest, more => by
      simp only [Tail.append, Tail.chars, rest.chars_append more, List.append_assoc]
  | .keys keys rest, more => by
      simp only [Tail.append, Tail.chars, rest.chars_append more, List.append_assoc,
        List.cons_append]
  | .member op rest, more => by
      simp only [Tail.append, Tail.chars, rest.chars_append more, List.append_assoc]
end

/-! ## The phrase of an expression -/

/-- A phrase as an operand: in parentheses, unless it is an operand. -/
def Phrase.toOperand : Phrase → Operand
  | .operand o => o
  | p => .core (.parens p) .stop

@[simp] theorem Phrase.toOperand_operand (o : Operand) : (Phrase.operand o).toOperand = o := rfl

/-- The minus sign. -/
def Sign.minus : Sign := ⟨.neg, rfl, by decide⟩

/-- An operand with a unary operator put on it. -/
def Operand.withOp (op : UnaryOp) (o : Operand) : Operand :=
  if hop : op.followsOperand = true then o.append (.suffix ⟨op, hop⟩ .stop)
  else if hdec : op = .preDec then .sign .minus (.sign .minus o)
  else .sign ⟨op, Bool.eq_false_iff.2 hop, hdec⟩ o

/-- Two operands with a binary operator between them. -/
def Phrase.between (op : BinaryOp) (left right : Operand) : Phrase :=
  if hop : op.isMemberAccess = true then .operand (left.append (.member ⟨op, hop⟩ right))
  else .binary ⟨op, Bool.eq_false_iff.2 hop⟩ left right

namespace Expr

mutual
/-- Whether the expression is made of literals, names, symbols, operators, subscripts
    and calls, with names of the form that names have. -/
def isLexical : Expr → Bool
  | int .. | str .. => true
  | ident name _ | sym name _ => Text.isName name
  | unary _ operand _ => operand.isLexical
  | binary _ left right _ => left.isLexical && right.isLexical
  | ternary cond onTrue onFalse _ => cond.isLexical && onTrue.isLexical && onFalse.isLexical
  | index base keys _ => base.isLexical && areLexical keys
  | call func args _ => Text.isName func && areLexical args
  | typeName .. | agg .. | inline .. | placeholder .. => false

/-- Whether each expression of a list is lexical. -/
def areLexical : List Expr → Bool
  | [] => true
  | e :: es => e.isLexical && areLexical es
end

/-- A binary operator is lexical if both its operands are. -/
theorem isLexical_binary {op : BinaryOp} {left right : Expr} {s : Span} :
    (binary op left right s).isLexical = true ↔
      left.isLexical = true ∧ right.isLexical = true := by
  simp [isLexical]

/-- A conditional is lexical if all three of its operands are. -/
theorem isLexical_ternary {cond onTrue onFalse : Expr} {s : Span} :
    (ternary cond onTrue onFalse s).isLexical = true ↔
      cond.isLexical = true ∧ onTrue.isLexical = true ∧ onFalse.isLexical = true := by
  simp [isLexical, and_assoc]

/-- Subscripts are lexical if the base and all keys are. -/
theorem isLexical_index {base : Expr} {keys : List Expr} {s : Span} :
    (index base keys s).isLexical = true ↔ base.isLexical = true ∧ areLexical keys = true := by
  simp [isLexical]

/-- A call is lexical if its function has the form of a name and all arguments are
    lexical. -/
theorem isLexical_call {func : String} {args : List Expr} {s : Span} :
    (call func args s).isLexical = true ↔
      Text.isName func = true ∧ areLexical args = true := by
  simp [isLexical]

/-- A list is lexical if the head and the rest are. -/
theorem areLexical_cons {e : Expr} {es : List Expr} :
    areLexical (e :: es) = true ↔ e.isLexical = true ∧ areLexical es = true := by
  simp [areLexical]

mutual
/-- The phrase that has the text of an expression. -/
def phrase : (e : Expr) → e.isLexical = true → Phrase
  | int value _, _ => .operand (.core (.int value) .stop)
  | str value _, _ => .operand (.core (.str value) .stop)
  | ident name _, h => .operand (.core (.ident ⟨name, h⟩) .stop)
  | sym name _, h => .operand (.core (.sym ⟨name, h⟩) .stop)
  | unary op operand _, h => .operand ((phrase operand h).toOperand.withOp op)
  | binary op left right _, h =>
      .between op (phrase left (isLexical_binary.1 h).1).toOperand
        (phrase right (isLexical_binary.1 h).2).toOperand
  | ternary cond onTrue onFalse _, h =>
      .ternary (phrase cond (isLexical_ternary.1 h).1).toOperand
        (phrase onTrue (isLexical_ternary.1 h).2.1).toOperand
        (phrase onFalse (isLexical_ternary.1 h).2.2).toOperand
  | index base keys _, h =>
      .operand ((phrase base (isLexical_index.1 h).1).toOperand.append
        (.keys (phrases keys (isLexical_index.1 h).2) .stop))
  | call func args _, h =>
      .operand (.core (.call ⟨func, (isLexical_call.1 h).1⟩
        (phrases args (isLexical_call.1 h).2)) .stop)
  | typeName .., h | agg .., h | inline .., h | placeholder .., h => Bool.noConfusion h

/-- The phrases of each expression of a list. -/
def phrases : (es : List Expr) → areLexical es = true → List Phrase
  | [], _ => []
  | e :: es, h => phrase e (areLexical_cons.1 h).1 :: phrases es (areLexical_cons.1 h).2
end

end Expr

/-! ## The text of a phrase -/

/-- Whether a phrase is an operand as it stands. -/
def Phrase.isOperand : Phrase → Bool
  | .operand _ => true
  | _ => false

/-- A phrase that is no operand gets parentheses. -/
theorem Phrase.chars_toOperand (p : Phrase) :
    p.toOperand.chars = if p.isOperand then p.chars else '(' :: (p.chars ++ [')']) := by
  cases p <;> simp [toOperand, isOperand, Phrase.chars, Operand.chars, Core.chars, Tail.chars]

/-- An operator stands before its operand or behind it, as it is printed; two minus
    signs are the text of a decrement. -/
theorem Operand.chars_withOp (op : UnaryOp) (o : Operand) :
    (o.withOp op).chars =
      if op.followsOperand then o.chars ++ op.symbol.toList else op.symbol.toList ++ o.chars := by
  unfold withOp
  split
  next hop => simp [chars_append, Tail.chars]
  next hop =>
    split
    next hdec =>
      subst hdec
      rfl
    next hdec => simp [Operand.chars]

/-- A member is taken without blanks, other operators stand between blanks. -/
theorem Phrase.chars_between (op : BinaryOp) (left right : Operand) :
    (between op left right).chars =
      if op.isMemberAccess then left.chars ++ op.symbol.toList ++ right.chars
      else left.chars ++ ' ' :: (op.symbol.toList ++ ' ' :: right.chars) := by
  unfold between
  split
  next hop => simp [Phrase.chars, Operand.chars_append, Tail.chars]
  next hop => simp [Phrase.chars]

/-- Only members leave an operand as an operand. -/
theorem Phrase.isOperand_between (op : BinaryOp) (left right : Operand) :
    (between op left right).isOperand = op.isMemberAccess := by
  unfold between
  split
  next hop => exact hop.symm
  next hop => exact (Bool.eq_false_iff.2 hop).symm

namespace Expr

/-- The phrases that get parentheses are those of the expressions that do. -/
theorem isOperand_phrase (e : Expr) (h : e.isLexical = true) :
    (e.phrase h).isOperand = !e.isCompound := by
  cases e with
  | binary op left right s =>
    simp only [phrase, Phrase.isOperand_between, isCompound, Bool.not_not]
  | typeName | agg | inline | placeholder => cases h
  | _ => rfl

/-- So an operand is written as the printer writes it, if the expression in it is. -/
theorem chars_toOperand (e : Expr) (h : e.isLexical = true)
    (hchars : (e.phrase h).chars = e.text.toList) :
    (e.phrase h).toOperand.chars = (enclose e.isCompound e.text).toList := by
  rw [Phrase.chars_toOperand, isOperand_phrase, hchars]
  cases e.isCompound <;> simp [enclose]

/-- The printer's commas stand before all items but the first. -/
theorem toList_commaSeparated_cons (text : String) (texts : List String) :
    (commaSeparated (text :: texts)).toList =
      text.toList ++ texts.flatMap fun text => ',' :: ' ' :: text.toList := by
  induction texts generalizing text with
  | nil => simp [commaSeparated]
  | cons text' texts ih =>
    have hrest := ih text'
    rw [commaSeparated, String.toList_intercalate] at hrest ⊢
    rw [List.map_cons] at hrest ⊢
    rw [List.map_cons, List.intercalate_cons_cons, hrest]
    simp

mutual
/-- A phrase is written as the expression that it was made of. -/
theorem chars_phrase : (e : Expr) → (h : e.isLexical = true) →
    (e.phrase h).chars = e.text.toList
  | int value _, _ => by
      simp [phrase, Phrase.chars, Operand.chars, Core.chars, Tail.chars, text]
  | str value _, _ => by
      simp [phrase, Phrase.chars, Operand.chars, Core.chars, Tail.chars, text]
  | ident name _, h => by
      simp [phrase, Phrase.chars, Operand.chars, Core.chars, Tail.chars, text]
  | sym name _, h => by
      simp [phrase, Phrase.chars, Operand.chars, Core.chars, Tail.chars, text]
  | unary op operand _, h => by
      have hoperand := chars_toOperand operand h (chars_phrase operand h)
      simp only [phrase, Phrase.chars, Operand.chars_withOp, hoperand, text]
      split <;> simp
  | binary op left right _, h => by
      obtain ⟨hl, hr⟩ := isLexical_binary.1 h
      have hleft := chars_toOperand left hl (chars_phrase left hl)
      have hright := chars_toOperand right hr (chars_phrase right hr)
      simp only [phrase, Phrase.chars_between, hleft, hright, text]
      split <;> simp
  | ternary cond onTrue onFalse _, h => by
      obtain ⟨hc, ht, hf⟩ := isLexical_ternary.1 h
      have hcond := chars_toOperand cond hc (chars_phrase cond hc)
      have htrue := chars_toOperand onTrue ht (chars_phrase onTrue ht)
      have hfalse := chars_toOperand onFalse hf (chars_phrase onFalse hf)
      simp [phrase, Phrase.chars, hcond, htrue, hfalse, text]
  | index base keys _, h => by
      obtain ⟨hb, hk⟩ := isLexical_index.1 h
      have hbase := chars_toOperand base hb (chars_phrase base hb)
      simp [phrase, Phrase.chars, Operand.chars_append, Tail.chars, hbase,
        listChars_phrases keys hk, text, bracket, -texts_eq_map]
  | call func args _, h => by
      obtain ⟨-, ha⟩ := isLexical_call.1 h
      simp [phrase, Phrase.chars, Operand.chars, Core.chars, Tail.chars,
        listChars_phrases args ha, text, -texts_eq_map]
  | typeName .., h | agg .., h | inline .., h | placeholder .., h => Bool.noConfusion h

/-- The text of a list of phrases is what the printer writes for a list of expressions. -/
theorem listChars_phrases : (es : List Expr) → (h : areLexical es = true) →
    Phrase.listChars (phrases es h) = (commaSeparated (texts es)).toList
  | [], _ => rfl
  | e :: es, h => by
      obtain ⟨he, hes⟩ := areLexical_cons.1 h
      rw [texts, toList_commaSeparated_cons]
      simp only [phrases, Phrase.listChars, chars_phrase e he, moreChars_phrases es hes]

/-- The same for the items behind the first one, each with its comma. -/
theorem moreChars_phrases : (es : List Expr) → (h : areLexical es = true) →
    Phrase.moreChars (phrases es h) = (texts es).flatMap fun text => ',' :: ' ' :: text.toList
  | [], _ => rfl
  | e :: es, h => by
      obtain ⟨he, hes⟩ := areLexical_cons.1 h
      rw [texts, List.flatMap_cons]
      simp only [phrases, Phrase.moreChars, chars_phrase e he, moreChars_phrases es hes,
        List.cons_append]
end

end Expr

/-! ## The expression of a phrase -/

/-- An expression with a sign before it; two minus signs make a decrement. -/
def Expr.withSign : UnaryOp → Expr → Expr
  | .neg, .unary .neg e _ => .unary .preDec e .nowhere
  | op, e => .unary op e .nowhere

mutual
/-- The expression of a phrase. -/
def Phrase.toExpr : Phrase → Expr
  | .operand o => o.toExpr
  | .binary op left right => .binary op.val left.toExpr right.toExpr .nowhere
  | .ternary cond onTrue onFalse => .ternary cond.toExpr onTrue.toExpr onFalse.toExpr .nowhere

/-- The expression of an operand: signs apply last. -/
def Operand.toExpr : Operand → Expr
  | .sign op rest => rest.toExpr.withSign op.val
  | .core c rest => rest.onto c.toExpr

/-- The expression of what signs stand before. -/
def Core.toExpr : Core → Expr
  | .int value => .int value .nowhere
  | .str value => .str value .nowhere
  | .ident name => .ident name.val .nowhere
  | .sym name => .sym name.val .nowhere
  | .call func args => .call func.val (Phrase.toExprs args) .nowhere
  | .parens content => content.toExpr

/-- All that follows an expression in the same operand, put on the expression. -/
def Tail.onto : Tail → Expr → Expr
  | .stop, e => e
  | .suffix op rest, e => rest.onto (.unary op.val e .nowhere)
  | .keys keys rest, e => rest.onto (.index e (Phrase.toExprs keys) .nowhere)
  | .member op rest, e => rest.memberOf op.val e

/-- The member of an expression that an operand starts with, and all that follows put
    on it; if the operand starts with a sign, it is the member. -/
def Operand.memberOf : Operand → BinaryOp → Expr → Expr
  | .sign sgn rest, op, e => .binary op e (rest.toExpr.withSign sgn.val) .nowhere
  | .core c rest, op, e => rest.onto (.binary op e c.toExpr .nowhere)

/-- The expressions of phrases. -/
def Phrase.toExprs : List Phrase → List Expr
  | [] => []
  | p :: ps => p.toExpr :: Phrase.toExprs ps
end

namespace Expr

/-- Two minus signs may be read as a decrement, so a sign that is put on is a regrouping
    of the operator. -/
theorem Regroups.withSign (op : UnaryOp) (e : Expr) :
    Regroups (e.withSign op) (.unary op e .nowhere) := by
  unfold Expr.withSign
  split
  next e s =>
    exact (Regroups.decrement e .nowhere).symm.trans (.spans rfl)
  next => exact .refl _

end Expr

open ProbeLang.Expr (Regroups)

/-! ## Regrouping by phrases -/

mutual
/-- What follows is put on regrouped expressions alike. -/
theorem Tail.regroups_onto : (t : Tail) → {a b : Expr} → Regroups a b →
    Regroups (t.onto a) (t.onto b)
  | .stop, _, _, h => h
  | .suffix op rest, _, _, h => rest.regroups_onto (h.unary op.val .nowhere)
  | .keys _ rest, _, _, h => rest.regroups_onto (h.base _ .nowhere)
  | .member op rest, _, _, h => rest.regroups_memberOf op.val h

/-- So are the members of regrouped expressions. -/
theorem Operand.regroups_memberOf : (o : Operand) → (m : BinaryOp) → {a b : Expr} →
    Regroups a b → Regroups (o.memberOf m a) (o.memberOf m b)
  | .sign _ _, m, _, _, h => h.binary m .nowhere (.refl _)
  | .core _ rest, m, _, _, h => rest.regroups_onto (h.binary m .nowhere (.refl _))
end

/-- What stands to the left of an expression leaves open whether a suffix, subscripts or
    a member that follow apply before it or after it. -/
structure Slides (left : Expr → Expr) : Prop where
  suffix (q : Suffix) (e : Expr) :
    Regroups (.unary q.val (left e) .nowhere) (left (.unary q.val e .nowhere))
  keys (keys : List Expr) (e : Expr) :
    Regroups (.index (left e) keys .nowhere) (left (.index e keys .nowhere))
  member (m : Access) (e e' : Expr) :
    Regroups (.binary m.val (left e) e' .nowhere) (left (.binary m.val e e' .nowhere))

/-- A sign leaves it open. -/
theorem slides_unary {p : UnaryOp} (hp : p.followsOperand = false) :
    Slides fun e => .unary p e .nowhere where
  suffix q e := (Regroups.sign_suffix e .nowhere hp q.property).symm
  keys keys e := (Regroups.sign_index e keys .nowhere hp).symm
  member m e e' := (Regroups.sign_member e e' .nowhere hp m.property).symm

/-- So does the base of a member. -/
theorem slides_binary {m : BinaryOp} (hm : m.isMemberAccess = true) (a : Expr) :
    Slides fun e => .binary m a e .nowhere where
  suffix q e := .member_suffix a e .nowhere hm q.property
  keys keys e := .member_index a e keys .nowhere hm
  member n e e' := .member_member a e e' .nowhere hm n.property

mutual
/-- All that follows may be taken to apply first. -/
theorem Tail.onto_slides : (t : Tail) → {left : Expr → Expr} → Slides left → (e : Expr) →
    Regroups (t.onto (left e)) (left (t.onto e))
  | .stop, _, _, _ => .refl _
  | .suffix op rest, _, h, e => (rest.regroups_onto (h.suffix op e)).trans (rest.onto_slides h _)
  | .keys _ rest, _, h, e => (rest.regroups_onto (h.keys _ e)).trans (rest.onto_slides h _)
  | .member op rest, _, h, e => rest.memberOf_slides op h e

/-- A member that follows may be taken of what stands to the left or of all of it. -/
theorem Operand.memberOf_slides : (o : Operand) → (m : Access) → {left : Expr → Expr} →
    Slides left → (e : Expr) →
    Regroups (o.memberOf m.val (left e)) (left (o.memberOf m.val e))
  | .sign _ _, m, _, h, e => h.member m e _
  | .core _ rest, m, _, h, e => (rest.regroups_onto (h.member m e _)).trans (rest.onto_slides h _)
end

/-- An operand may be taken as the member as a whole. -/
theorem Operand.regroups_binary (o : Operand) {m : BinaryOp} (hm : m.isMemberAccess = true)
    (a : Expr) : Regroups (o.memberOf m a) (.binary m a o.toExpr .nowhere) := by
  cases o with
  | sign op rest => exact .refl _
  | core c rest => exact rest.onto_slides (slides_binary hm a) c.toExpr

/-- What follows a sign and an operand may be put on the operand alone. -/
theorem Tail.onto_withSign (t : Tail) (op : Sign) (a : Expr) :
    Regroups (t.onto (a.withSign op.val)) ((t.onto a).withSign op.val) :=
  calc
    Regroups (t.onto (a.withSign op.val)) (t.onto (.unary op.val a .nowhere)) :=
      t.regroups_onto (.withSign op.val a)
    Regroups _ (.unary op.val (t.onto a) .nowhere) := t.onto_slides (slides_unary op.property.1) a
    Regroups _ ((t.onto a).withSign op.val) := (Regroups.withSign op.val _).symm

mutual
/-- What is appended to an operand is put on its expression. -/
theorem Operand.regroups_append : (o : Operand) → (more : Tail) →
    Regroups (o.append more).toExpr (more.onto o.toExpr)
  | .sign op rest, more =>
      calc
        Regroups ((rest.append more).toExpr.withSign op.val)
            (.unary op.val (rest.append more).toExpr .nowhere) := .withSign op.val _
        Regroups _ (.unary op.val (more.onto rest.toExpr) .nowhere) :=
          (rest.regroups_append more).unary op.val .nowhere
        Regroups _ ((more.onto rest.toExpr).withSign op.val) := (Regroups.withSign op.val _).symm
        Regroups _ (more.onto (rest.toExpr.withSign op.val)) := (more.onto_withSign op _).symm
  | .core c rest, more => rest.regroups_append more c.toExpr

/-- What follows in two pieces applies piece by piece, or all at once. -/
theorem Tail.regroups_append : (t : Tail) → (more : Tail) → (e : Expr) →
    Regroups ((t.append more).onto e) (more.onto (t.onto e))
  | .stop, _, _ => .refl _
  | .suffix _ rest, more, _ => rest.regroups_append more _
  | .keys _ rest, more, _ => rest.regroups_append more _
  -- The member may start with a sign, so it is taken as a whole while `more` moves.
  | .member op rest, more, e =>
      calc
        Regroups ((rest.append more).memberOf op.val e)
            (.binary op.val e (rest.append more).toExpr .nowhere) :=
          (rest.append more).regroups_binary op.property e
        Regroups _ (.binary op.val e (more.onto rest.toExpr) .nowhere) :=
          .binary op.val .nowhere (.refl e) (rest.regroups_append more)
        Regroups _ (more.onto (.binary op.val e rest.toExpr .nowhere)) :=
          (more.onto_slides (slides_binary op.property e) rest.toExpr).symm
        Regroups _ (more.onto (rest.memberOf op.val e)) :=
          more.regroups_onto (rest.regroups_binary op.property e).symm
end

/-- Parentheses do not change what a phrase says. -/
theorem Phrase.toExpr_toOperand (p : Phrase) : p.toOperand.toExpr = p.toExpr := by
  cases p <;> rfl

/-- A unary operator on an operand: as a sign it applies last, as a suffix it is read
    before the signs. -/
theorem Operand.regroups_withOp (op : UnaryOp) (o : Operand) :
    Regroups (o.withOp op).toExpr (.unary op o.toExpr .nowhere) := by
  unfold withOp
  split
  next hop => exact o.regroups_append _
  next hop =>
    split
    next hdec =>
      subst hdec
      calc
        Regroups ((o.toExpr.withSign .neg).withSign .neg)
            (.unary .neg (o.toExpr.withSign .neg) .nowhere) := .withSign .neg _
        Regroups _ (.unary .neg (.unary .neg o.toExpr .nowhere) .nowhere) :=
          (Regroups.withSign .neg _).unary .neg .nowhere
        Regroups _ (.unary .preDec o.toExpr .nowhere) := .decrement _ .nowhere
    next hdec => exact .withSign op _

/-- A binary operator between operands: a member may slide into its left operand. -/
theorem Phrase.regroups_between (op : BinaryOp) (left right : Operand) :
    Regroups (between op left right).toExpr
      (.binary op left.toExpr right.toExpr .nowhere) := by
  unfold between
  split
  next hop => exact (left.regroups_append _).trans (right.regroups_binary hop _)
  next hop => exact .refl _

namespace Expr

mutual
/-- The expression of its phrase is a regrouping of an expression. -/
theorem regroups_phrase : (e : Expr) → (h : e.isLexical = true) →
    Regroups e (e.phrase h).toExpr
  | int .., _ | str .., _ | ident .., _ | sym .., _ => .spans rfl
  | unary op operand s, h =>
      calc
        Regroups (unary op operand s) (unary op (operand.phrase h).toExpr s) :=
          (regroups_phrase operand h).unary op s
        Regroups _ (unary op (operand.phrase h).toOperand.toExpr .nowhere) := by
          rw [Phrase.toExpr_toOperand]
          exact .spans rfl
        Regroups _ ((operand.phrase h).toOperand.withOp op).toExpr :=
          (Operand.regroups_withOp op _).symm
  | binary op left right s, h => by
      obtain ⟨hl, hr⟩ := isLexical_binary.1 h
      calc
        Regroups (binary op left right s)
            (binary op (left.phrase hl).toExpr (right.phrase hr).toExpr s) :=
          (regroups_phrase left hl).binary op s (regroups_phrase right hr)
        Regroups _ (binary op (left.phrase hl).toOperand.toExpr
            (right.phrase hr).toOperand.toExpr .nowhere) := by
          rw [Phrase.toExpr_toOperand, Phrase.toExpr_toOperand]
          exact .spans rfl
        Regroups _ (Phrase.between op (left.phrase hl).toOperand
            (right.phrase hr).toOperand).toExpr := (Phrase.regroups_between op _ _).symm
  | ternary cond onTrue onFalse s, h => by
      obtain ⟨hc, ht, hf⟩ := isLexical_ternary.1 h
      have hregroups := Regroups.ternary s (regroups_phrase cond hc) (regroups_phrase onTrue ht)
        (regroups_phrase onFalse hf)
      simp only [phrase, Phrase.toExpr, Phrase.toExpr_toOperand]
      exact hregroups.trans (.spans rfl)
  | index base keys s, h => by
      obtain ⟨hb, hk⟩ := isLexical_index.1 h
      calc
        Regroups (index base keys s) (index (base.phrase hb).toExpr keys s) :=
          (regroups_phrase base hb).base keys s
        Regroups _ (index (base.phrase hb).toExpr (Phrase.toExprs (phrases keys hk)) s) :=
          .items (index _ · s) (.key _ · · s) (regroups_phrases keys hk)
        Regroups _ (index (base.phrase hb).toOperand.toExpr
            (Phrase.toExprs (phrases keys hk)) .nowhere) := by
          rw [Phrase.toExpr_toOperand]
          exact .spans rfl
        Regroups _ ((base.phrase hb).toOperand.append (.keys (phrases keys hk) .stop)).toExpr :=
          ((base.phrase hb).toOperand.regroups_append (.keys (phrases keys hk) .stop)).symm
  | call func args s, h => by
      obtain ⟨-, ha⟩ := isLexical_call.1 h
      have hargs := Regroups.items (call func · s) (.arg func · · s) (regroups_phrases args ha)
      exact hargs.trans (.spans rfl)
  | typeName .., h | agg .., h | inline .., h | placeholder .., h => Bool.noConfusion h

/-- The same for each expression of a list. -/
theorem regroups_phrases : (es : List Expr) → (h : areLexical es = true) →
    List.Forall₂ Regroups es (Phrase.toExprs (phrases es h))
  | [], _ => .nil
  | e :: es, h =>
      .cons (regroups_phrase e (areLexical_cons.1 h).1)
        (regroups_phrases es (areLexical_cons.1 h).2)
end

end Expr

/-! ## Expressions in the order in which they are read -/

namespace Expr

/-- Whether the expression is a sign before its operand. -/
def isSigned : Expr → Bool
  | unary op _ _ => !op.followsOperand
  | _ => false

/-- Whether the expression is a minus sign before its operand. -/
def isNegative : Expr → Bool
  | unary .neg _ _ => true
  | _ => false

/-- Whether no sign, suffix, subscript or member comes last in the expression, or there
    are parentheses around it where it is an operand. -/
def isCore : Expr → Bool
  | unary .. | index .. => false
  | binary op _ _ _ => !op.isMemberAccess
  | _ => true

mutual
/-- Whether signs apply last everywhere in the expression, members are taken from the
    left, and no minus sign stands before another one. -/
def isGrouped : Expr → Bool
  | unary op operand _ =>
      operand.isGrouped &&
        if op.followsOperand then !operand.isSigned
        else !((op == .neg || op == .preDec) && operand.isNegative)
  | binary op left right _ =>
      left.isGrouped && right.isGrouped &&
        (!op.isMemberAccess || (!left.isSigned && right.isCore))
  | ternary cond onTrue onFalse _ => cond.isGrouped && onTrue.isGrouped && onFalse.isGrouped
  | index base keys _ => base.isGrouped && !base.isSigned && areGrouped keys
  | call _ args _ => areGrouped args
  | _ => true

/-- Whether each expression of a list is grouped. -/
def areGrouped : List Expr → Bool
  | [] => true
  | e :: es => e.isGrouped && areGrouped es
end

end Expr

mutual
/-- Whether an operand has no sign but in brackets. -/
def Operand.isUnsigned : Operand → Bool
  | .sign _ _ => false
  | .core _ rest => rest.isUnsigned

/-- Whether the rest of an operand has no sign but in brackets. -/
def Tail.isUnsigned : Tail → Bool
  | .stop => true
  | .suffix _ rest => rest.isUnsigned
  | .keys _ rest => rest.isUnsigned
  | .member _ rest => rest.isUnsigned
end

mutual
/-- What has no sign has none in its pieces. -/
theorem Operand.isUnsigned_append : (o : Operand) → (more : Tail) →
    (o.append more).isUnsigned = (o.isUnsigned && more.isUnsigned)
  | .sign _ _, _ => rfl
  | .core _ rest, more => rest.isUnsigned_append more

theorem Tail.isUnsigned_append : (t : Tail) → (more : Tail) →
    (t.append more).isUnsigned = (t.isUnsigned && more.isUnsigned)
  | .stop, _ => rfl
  | .suffix _ rest, more => rest.isUnsigned_append more
  | .keys _ rest, more => rest.isUnsigned_append more
  | .member _ rest, more => rest.isUnsigned_append more
end

mutual
/-- Without signs, what is appended to an operand applies last. -/
theorem Operand.toExpr_append : (o : Operand) → (more : Tail) → o.isUnsigned = true →
    (o.append more).toExpr = more.onto o.toExpr
  | .core _ rest, more, h => rest.onto_append more h _

/-- Without signs, what is appended to a member applies last too. -/
theorem Operand.memberOf_append : (o : Operand) → (more : Tail) → o.isUnsigned = true →
    (m : BinaryOp) → (e : Expr) → (o.append more).memberOf m e = more.onto (o.memberOf m e)
  | .core _ rest, more, h, _, _ => rest.onto_append more h _

/-- And so does what is appended to the rest of an operand. -/
theorem Tail.onto_append : (t : Tail) → (more : Tail) → t.isUnsigned = true → (e : Expr) →
    (t.append more).onto e = more.onto (t.onto e)
  | .stop, _, _, _ => rfl
  | .suffix _ rest, more, h, _ => rest.onto_append more h _
  | .keys _ rest, more, h, _ => rest.onto_append more h _
  | .member op rest, more, h, e => rest.memberOf_append more h op.val e
end

namespace Expr

/-- A sign is put on as it is, unless it would make a decrement of two minus signs. -/
theorem withSign_of_not_isNegative {op : UnaryOp} {e : Expr}
    (h : ¬ (op = .neg ∧ e.isNegative = true)) : e.withSign op = unary op e .nowhere := by
  unfold withSign
  split
  next => exact absurd ⟨rfl, rfl⟩ h
  next => rfl

/-- Where an expression stands does not tell whether it is negative. -/
theorem isNegative_bare (e : Expr) : e.bare.isNegative = e.isNegative := by
  cases e with
  | unary op operand s => cases op <;> rfl
  | _ => rfl

/-- What has nothing but a core in it is read as a core. -/
theorem exists_core_of_isCore {e : Expr} (h : e.isLexical = true) (hcore : e.isCore = true) :
    ∃ c, (e.phrase h).toOperand = .core c .stop := by
  cases e with
  | binary op left right s =>
    have hop : ¬ op.isMemberAccess = true := by simpa [isCore] using hcore
    exact ⟨_, by simp only [phrase, Phrase.between, dif_neg hop]; rfl⟩
  | unary | index => cases hcore
  | typeName | agg | inline | placeholder => cases h
  | _ => exact ⟨_, rfl⟩

/-- By recursion: a grouped expression without a sign of its own has none in its phrase,
    since grouping keeps signs out of what suffixes, subscripts and members are put on. -/
theorem isUnsigned_phrase : (e : Expr) → (h : e.isLexical = true) → e.isGrouped = true →
    e.isSigned = false → (e.phrase h).toOperand.isUnsigned = true
  | int .., _, _, _ | str .., _, _, _ | ident .., _, _, _ | sym .., _, _, _
  | ternary .., _, _, _ | call .., _, _, _ => rfl
  | unary op operand s, h, hgrouped, hsigned => by
      have hop : op.followsOperand = true := by simpa [isSigned] using hsigned
      simp only [isGrouped, hop, if_true, Bool.and_eq_true, Bool.not_eq_true'] at hgrouped
      have hoperand := isUnsigned_phrase operand h hgrouped.1 hgrouped.2
      simp only [phrase, Phrase.toOperand_operand, Operand.withOp, dif_pos hop,
        Operand.isUnsigned_append, hoperand, Tail.isUnsigned, Bool.and_self]
  | binary op left right s, h, hgrouped, _ => by
      obtain ⟨hl, hr⟩ := isLexical_binary.1 h
      by_cases hop : op.isMemberAccess = true
      · simp only [isGrouped, hop, Bool.not_true, Bool.false_or, Bool.and_eq_true,
          Bool.not_eq_true'] at hgrouped
        obtain ⟨⟨hleft, -⟩, hunsigned, hcore⟩ := hgrouped
        obtain ⟨c, hc⟩ := exists_core_of_isCore hr hcore
        simp only [phrase, Phrase.between, dif_pos hop, Phrase.toOperand_operand,
          Operand.isUnsigned_append, isUnsigned_phrase left hl hleft hunsigned, hc,
          Tail.isUnsigned, Operand.isUnsigned, Bool.and_self]
      · simp only [phrase, Phrase.between, dif_neg hop]
        rfl
  | index base keys s, h, hgrouped, _ => by
      obtain ⟨hb, hk⟩ := isLexical_index.1 h
      simp only [isGrouped, Bool.and_eq_true, Bool.not_eq_true'] at hgrouped
      have hbase := isUnsigned_phrase base hb hgrouped.1.1 hgrouped.1.2
      simp only [phrase, Phrase.toOperand_operand, Operand.isUnsigned_append, hbase,
        Tail.isUnsigned, Bool.and_self]
  | typeName .., h, _, _ | agg .., h, _, _ | inline .., h, _, _ | placeholder .., h, _, _ =>
      Bool.noConfusion h

mutual
/-- A grouped expression is the expression of its phrase. -/
theorem toExpr_phrase : (e : Expr) → (h : e.isLexical = true) → e.isGrouped = true →
    (e.phrase h).toExpr = e.bare
  | int .., _, _ | str .., _, _ | ident .., _, _ | sym .., _, _ => rfl
  | unary op operand s, h, hgrouped => by
      simp only [isGrouped, Bool.and_eq_true] at hgrouped
      obtain ⟨hoperand, hop⟩ := hgrouped
      have hexpr : (operand.phrase h).toOperand.toExpr = operand.bare := by
        rw [Phrase.toExpr_toOperand, toExpr_phrase operand h hoperand]
      rw [bare, phrase, Phrase.toExpr, ← hexpr, Operand.withOp]
      split
      next hfollows =>
        have hunsigned := isUnsigned_phrase operand h hoperand (by simpa [hfollows] using hop)
        exact Operand.toExpr_append _ _ hunsigned
      next hfollows =>
        -- A minus sign before another one would have been read as a decrement.
        have hminus : op = .neg ∨ op = .preDec →
            (operand.phrase h).toOperand.toExpr.isNegative ≠ true := by
          rw [hexpr, isNegative_bare]
          simp only [hfollows] at hop
          grind
        split
        next hdec =>
          rw [Operand.toExpr, Operand.toExpr,
            withSign_of_not_isNegative fun hneg => hminus (.inr hdec) hneg.2, hdec]
          rfl
        next => exact withSign_of_not_isNegative fun hneg => hminus (.inl hneg.1) hneg.2
  | binary op left right s, h, hgrouped => by
      obtain ⟨hl, hr⟩ := isLexical_binary.1 h
      simp only [isGrouped, Bool.and_eq_true] at hgrouped
      obtain ⟨⟨hleft, hright⟩, hop⟩ := hgrouped
      have hleftExpr : (left.phrase hl).toOperand.toExpr = left.bare := by
        rw [Phrase.toExpr_toOperand, toExpr_phrase left hl hleft]
      have hrightExpr : (right.phrase hr).toOperand.toExpr = right.bare := by
        rw [Phrase.toExpr_toOperand, toExpr_phrase right hr hright]
      rw [bare, phrase, ← hleftExpr, ← hrightExpr, Phrase.between]
      split
      next hmember =>
        simp only [hmember, Bool.not_true, Bool.false_or, Bool.and_eq_true,
          Bool.not_eq_true'] at hop
        obtain ⟨c, hc⟩ := exists_core_of_isCore hr hop.2
        rw [Phrase.toExpr, Operand.toExpr_append _ _ (isUnsigned_phrase left hl hleft hop.1), hc]
        rfl
      next => rfl
  | ternary cond onTrue onFalse s, h, hgrouped => by
      obtain ⟨hc, ht, hf⟩ := isLexical_ternary.1 h
      simp only [isGrouped, Bool.and_eq_true] at hgrouped
      obtain ⟨⟨hcond, htrue⟩, hfalse⟩ := hgrouped
      simp only [bare, phrase, Phrase.toExpr, Phrase.toExpr_toOperand, toExpr_phrase cond hc hcond,
        toExpr_phrase onTrue ht htrue, toExpr_phrase onFalse hf hfalse]
  | index base keys s, h, hgrouped => by
      obtain ⟨hb, hk⟩ := isLexical_index.1 h
      simp only [isGrouped, Bool.and_eq_true, Bool.not_eq_true'] at hgrouped
      obtain ⟨⟨hbase, hunsigned⟩, hkeys⟩ := hgrouped
      rw [bare, phrase, Phrase.toExpr,
        Operand.toExpr_append _ _ (isUnsigned_phrase base hb hbase hunsigned),
        Phrase.toExpr_toOperand, toExpr_phrase base hb hbase, ← toExprs_phrases keys hk hkeys]
      rfl
  | call func args s, h, hgrouped => by
      obtain ⟨-, ha⟩ := isLexical_call.1 h
      rw [bare, ← toExprs_phrases args ha hgrouped]
      rfl
  | typeName .., h, _ | agg .., h, _ | inline .., h, _ | placeholder .., h, _ =>
      Bool.noConfusion h

/-- The same for each expression of a list. -/
theorem toExprs_phrases : (es : List Expr) → (h : areLexical es = true) →
    areGrouped es = true → Phrase.toExprs (phrases es h) = bareList es
  | [], _, _ => rfl
  | e :: es, h, hgrouped => by
      obtain ⟨he, hes⟩ := areLexical_cons.1 h
      simp only [areGrouped, Bool.and_eq_true] at hgrouped
      simp only [phrases, Phrase.toExprs, bareList, toExpr_phrase e he hgrouped.1,
        toExprs_phrases es hes hgrouped.2]
end

end Expr

end ProbeLang
