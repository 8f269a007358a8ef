import Mathlib.Data.List.Forall2
import ProbeLang.Clause.Printer
import ProbeLang.Proofs.Lexemes

/-! # Expressions that are written alike

    Parentheses are put around an operand that is itself an operation between two or
    three operands, but not around a sign, a suffix, a subscript or a member.  So the
    text does not tell in which order these apply: `-a->b` is the negative of a member
    and the member of a negative.  Nor does it tell two minus signs from a decrement.

    `Expr.Regroups` relates the expressions that differ in no more than that, and in
    their spans; such expressions have one text (`Expr.Regroups.alike`). -/

namespace ProbeLang.Expr

/-! ## Spans left aside -/

mutual
/-- The expression with every span taken away. -/
def bare : Expr → Expr
  | int value _ => int value .nowhere
  | str value _ => str value .nowhere
  | ident name _ => ident name .nowhere
  | sym name _ => sym name .nowhere
  | typeName name _ => typeName name .nowhere
  | unary op operand _ => unary op operand.bare .nowhere
  | binary op left right _ => binary op left.bare right.bare .nowhere
  | ternary cond onTrue onFalse _ => ternary cond.bare onTrue.bare onFalse.bare .nowhere
  | index base keys _ => index base.bare (bareList keys) .nowhere
  | call func args _ => call func (bareList args) .nowhere
  | agg name keys func _ => agg name (bareList keys) (bareOption func) .nowhere
  | inline name body _ => inline name body.bare .nowhere
  | placeholder _ => placeholder .nowhere

/-- Each expression of a list with every span taken away. -/
def bareList : List Expr → List Expr
  | [] => []
  | e :: es => e.bare :: bareList es

/-- An expression that may be missing, with every span taken away. -/
def bareOption : Option Expr → Option Expr
  | none => none
  | some e => some e.bare
end

/-- Whether an expression gets parentheses does not depend on where it stands. -/
@[simp] theorem isCompound_bare (e : Expr) : e.bare.isCompound = e.isCompound := by
  cases e <;> rfl

theorem isEmpty_bareList (es : List Expr) : (bareList es).isEmpty = es.isEmpty := by
  cases es <;> rfl

mutual
/-- The text of an expression does not depend on where it stands. -/
theorem text_bare : (e : Expr) → e.bare.text = e.text
  | int .. | str .. | ident .. | sym .. | typeName .. | inline .. | placeholder .. => rfl
  | unary op operand _ => by
      simp only [bare, text, isCompound_bare, text_bare operand]
  | binary op left right _ => by
      simp only [bare, text, isCompound_bare, text_bare left, text_bare right]
  | ternary cond onTrue onFalse _ => by
      simp only [bare, text, isCompound_bare, text_bare cond, text_bare onTrue, text_bare onFalse]
  | index base keys _ => by
      simp only [bare, text, isCompound_bare, text_bare base, texts_bareList keys]
  | call func args _ => by
      simp only [bare, text, texts_bareList args]
  | agg name keys none _ => by
      simp only [bare, bareOption, text, isEmpty_bareList, texts_bareList keys]
  | agg name keys (some func) _ => by
      simp only [bare, bareOption, text, assignedText, isEmpty_bareList, texts_bareList keys,
        text_bare func]

/-- Nor do the texts of a list. -/
theorem texts_bareList : (es : List Expr) → texts (bareList es) = texts es
  | [] => rfl
  | e :: es => by simp only [bareList, texts, text_bare e, texts_bareList es]
end

/-! ## Regrouping -/

/-- Two expressions differ in no more than their spans, the order in which signs,
    suffixes, subscripts and members apply, and two minus signs for a decrement. -/
inductive Regroups : Expr → Expr → Prop where
  | spans {a b : Expr} : a.bare = b.bare → Regroups a b
  | symm {a b : Expr} : Regroups a b → Regroups b a
  | trans {a b c : Expr} : Regroups a b → Regroups b c → Regroups a c
  | unary {a b : Expr} (op : UnaryOp) (s : Span) :
      Regroups a b → Regroups (unary op a s) (unary op b s)
  | binary {a b c d : Expr} (op : BinaryOp) (s : Span) :
      Regroups a b → Regroups c d → Regroups (binary op a c s) (binary op b d s)
  | ternary {a b c d e f : Expr} (s : Span) :
      Regroups a b → Regroups c d → Regroups e f → Regroups (ternary a c e s) (ternary b d f s)
  | base {a b : Expr} (keys : List Expr) (s : Span) :
      Regroups a b → Regroups (index a keys s) (index b keys s)
  | key {a b : Expr} (base : Expr) (before after : List Expr) (s : Span) : Regroups a b →
      Regroups (index base (before ++ a :: after) s) (index base (before ++ b :: after) s)
  | arg {a b : Expr} (func : String) (before after : List Expr) (s : Span) : Regroups a b →
      Regroups (call func (before ++ a :: after) s) (call func (before ++ b :: after) s)
  -- `--a`
  | decrement (a : Expr) (s : Span) :
      Regroups (.unary .neg (.unary .neg a s) s) (.unary .preDec a s)
  -- `-a++`
  | sign_suffix {p q : UnaryOp} (a : Expr) (s : Span) :
      p.followsOperand = false → q.followsOperand = true →
      Regroups (.unary p (.unary q a s) s) (.unary q (.unary p a s) s)
  -- `-a[k]`
  | sign_index {p : UnaryOp} (a : Expr) (keys : List Expr) (s : Span) :
      p.followsOperand = false →
      Regroups (.unary p (.index a keys s) s) (.index (.unary p a s) keys s)
  -- `-a->b`
  | sign_member {p : UnaryOp} {m : BinaryOp} (a b : Expr) (s : Span) :
      p.followsOperand = false → m.isMemberAccess = true →
      Regroups (.unary p (.binary m a b s) s) (.binary m (.unary p a s) b s)
  -- `a->b++`
  | member_suffix {m : BinaryOp} {q : UnaryOp} (a b : Expr) (s : Span) :
      m.isMemberAccess = true → q.followsOperand = true →
      Regroups (.unary q (.binary m a b s) s) (.binary m a (.unary q b s) s)
  -- `a->b[k]`
  | member_index {m : BinaryOp} (a b : Expr) (keys : List Expr) (s : Span) :
      m.isMemberAccess = true →
      Regroups (.index (.binary m a b s) keys s) (.binary m a (.index b keys s) s)
  -- `a->b->c`
  | member_member {m n : BinaryOp} (a b c : Expr) (s : Span) :
      m.isMemberAccess = true → n.isMemberAccess = true →
      Regroups (.binary n (.binary m a b s) c s) (.binary m a (.binary n b c s) s)

namespace Regroups

variable {a b : Expr}

@[refl] theorem refl (a : Expr) : Regroups a a := .spans rfl

instance : Trans Regroups Regroups Regroups := ⟨Regroups.trans⟩

/-- Where one item of a list may be regrouped, all of them may be. -/
theorem items (f : List Expr → Expr)
    (hf : ∀ before after {a b : Expr}, Regroups a b →
      Regroups (f (before ++ a :: after)) (f (before ++ b :: after)))
    {as bs : List Expr} (h : List.Forall₂ Regroups as bs) : Regroups (f as) (f bs) := by
  suffices hbefore : ∀ before, Regroups (f (before ++ as)) (f (before ++ bs)) from hbefore []
  induction h with
  | nil => exact fun before => .refl _
  | @cons a b as bs hitem _ ih =>
    intro before
    have hrest := ih (before ++ [b])
    rw [List.append_assoc, List.append_assoc] at hrest
    exact (hf before as hitem).trans hrest

/-- Regrouped expressions are written alike, and alike where they are operands. -/
theorem alike (h : Regroups a b) : a.isCompound = b.isCompound ∧ a.text = b.text := by
  induction h with
  | @spans a b hbare =>
    constructor
    · rw [← a.isCompound_bare, hbare, b.isCompound_bare]
    · rw [← text_bare a, hbare, text_bare b]
  | symm _ ih => exact ⟨ih.1.symm, ih.2.symm⟩
  | trans _ _ ih ih' => exact ⟨ih.1.trans ih'.1, ih.2.trans ih'.2⟩
  | unary op s _ ih => exact ⟨rfl, by simp only [text, ih]⟩
  | binary op s _ _ ih ih' => exact ⟨rfl, by simp only [text, ih, ih']⟩
  | ternary s _ _ _ ih ih' ih'' => exact ⟨rfl, by simp only [text, ih, ih', ih'']⟩
  | base keys s _ ih => exact ⟨rfl, by simp only [text, ih]⟩
  | key base before after s _ ih => exact ⟨rfl, by simp [text, ih]⟩
  | arg func before after s _ ih => exact ⟨rfl, by simp [text, ih]⟩
  -- The rules that move an operator leave all parts of the text where they are: none of
  -- the operators that they move is put in parentheses.
  | decrement a s =>
    constructor
    · rfl
    · simp [text, enclose, isCompound, UnaryOp.followsOperand, UnaryOp.symbol,
        ← String.append_assoc]
  | sign_suffix a s hp hq =>
    constructor
    · rfl
    · simp [text, enclose, isCompound, hp, hq, String.append_assoc]
  | sign_index a keys s hp =>
    constructor
    · rfl
    · simp [text, enclose, isCompound, hp, String.append_assoc]
  | sign_member a b s hp hm =>
    constructor
    · simp [isCompound, hm]
    · simp [text, enclose, isCompound, hp, hm, String.append_assoc]
  | member_suffix a b s hm hq =>
    constructor
    · simp [isCompound, hm]
    · simp [text, enclose, isCompound, hq, hm, String.append_assoc]
  | member_index a b keys s hm =>
    constructor
    · simp [isCompound, hm]
    · simp [text, enclose, isCompound, hm, String.append_assoc]
  | member_member a b c s hm hn =>
    constructor
    · simp [isCompound, hm, hn]
    · simp [text, enclose, isCompound, hm, hn, String.append_assoc]

end Regroups

end ProbeLang.Expr
