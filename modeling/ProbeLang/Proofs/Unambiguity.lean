import Mathlib.Data.List.Nodup
import ProbeLang.Proofs.Phrase

/-! # What a text says of an expression

    A phrase can be read off its text from left to right: the first character tells
    what kind of sign, name or bracket comes next, and what comes next tells where it
    ends (`Phrase.chars_inj`).  So expressions with one text have one phrase, and are
    regroupings of each other. -/

namespace ProbeLang

/-! ## Where things end -/

/-- The text is empty or starts with one of `ends`. -/
def Bounded (ends text : List Char) : Prop := ∀ c ∈ text.head?, c ∈ ends

theorem Bounded.nil (ends : List Char) : Bounded ends [] := by
  intro c hc
  cases hc

theorem Bounded.cons {ends : List Char} {c : Char} (h : c ∈ ends) (text : List Char) :
    Bounded ends (c :: text) := by
  intro d hd
  cases hd
  exact h

theorem Bounded.head {ends : List Char} {c : Char} {text : List Char}
    (h : Bounded ends (c :: text)) : c ∈ ends :=
  h c rfl

/-- What may follow in fewer cases may follow in more. -/
theorem Bounded.mono {ends ends' text : List Char} (h : Bounded ends text)
    (hsub : ends ⊆ ends') : Bounded ends' text :=
  fun c hc => hsub (h c hc)

/-- What may follow the last phrase of a list. -/
def listEnds : List Char := [')', ']']

/-- What may follow a phrase. -/
def phraseEnds : List Char := ',' :: listEnds

/-- What may follow an operand. -/
def operandEnds : List Char := ' ' :: phraseEnds

/-- What may follow the first name or bracket of an operand. -/
def coreEnds : List Char := '+' :: '-' :: '[' :: '.' :: operandEnds

/-- No word goes on with a character that may follow it. -/
theorem not_isWordChar_of_bounded {text : List Char} (h : Bounded coreEnds text) :
    ∀ c ∈ text.head?, Text.isWordChar c = false := by
  have hends : coreEnds.all (fun c => !Text.isWordChar c) = true := by decide
  intro c hc
  simpa using List.all_eq_true.1 hends c (h c hc)

/-- Behind the first name or bracket of an operand stands a suffix, a subscript, a
    member, or what follows the operand. -/
theorem Tail.bounded (t : Tail) {rest : List Char} (h : Bounded operandEnds rest) :
    Bounded coreEnds (t.chars ++ rest) := by
  cases t with
  | stop => exact h.mono (by decide)
  | suffix op more =>
    rw [chars]
    rcases op.eq_or_eq with hop | hop <;> rw [hop] <;> exact .cons (by decide) _
  | keys keys more => exact .cons (by decide) _
  | member op more =>
    rw [chars]
    rcases op.eq_or_eq with hop | hop <;> rw [hop] <;> exact .cons (by decide) _

/-! ## How things start -/

/-- What the first character of an operand tells about it. -/
inductive Lead where
  | sign
  | number
  | quoted
  | name
  | symbol
  | parens
  | none
deriving DecidableEq

/-- The characters that signs start with. -/
def signChars : List Char := ['!', '~', '-', '*', '&', '+']

/-- What a first character tells. -/
def leadOf (c : Char) : Lead :=
  if c ∈ signChars then .sign
  else if c.isDigit then .number
  else if Text.isNameStart c then .name
  else if c = '"' then .quoted
  else if c = '`' then .symbol
  else if c = '(' then .parens
  else .none

/-- No character that signs start with is of a class that has none of them. -/
theorem notMem_signChars {p : Char → Bool} {c : Char} (hp : signChars.all (fun c => !p c) = true)
    (h : p c = true) : c ∉ signChars := by
  intro hmem
  have hc := List.all_eq_true.1 hp c hmem
  rw [h] at hc
  cases hc

/-- A digit starts a number. -/
theorem leadOf_of_isDigit {c : Char} (h : c.isDigit = true) : leadOf c = .number := by
  have hsign : c ∉ signChars := notMem_signChars (by decide) h
  rw [leadOf, if_neg hsign, if_pos h]

/-- A letter starts a name. -/
theorem leadOf_of_isNameStart {c : Char} (h : Text.isNameStart c = true) : leadOf c = .name := by
  have hsign : c ∉ signChars := notMem_signChars (by decide) h
  have hdigit : ¬ c.isDigit = true := Bool.eq_false_iff.1 (Text.isDigit_of_isNameStart h)
  rw [leadOf, if_neg hsign, if_neg hdigit, if_pos h]

/-- The kind of a core that its first character tells. -/
def Core.lead : Core → Lead
  | .int _ => .number
  | .str _ => .quoted
  | .ident _ | .call _ _ => .name
  | .sym _ => .symbol
  | .parens _ => .parens

/-- A core has a first character, and it tells the kind of the core. -/
theorem Core.exists_cons (c : Core) : ∃ a as, c.chars = a :: as ∧ leadOf a = c.lead := by
  cases c with
  | int value =>
    obtain ⟨a, as, heq, hdigit⟩ := Text.exists_cons_toDigits value.toNat
    exact ⟨a, as, by rw [chars, heq], leadOf_of_isDigit hdigit⟩
  | str value =>
    have hlead : leadOf '"' = .quoted := by decide
    exact ⟨'"', _, by rw [chars, Text.toList_quote], hlead⟩
  | ident name =>
    obtain ⟨a, as, heq, hstart⟩ := name.exists_cons
    exact ⟨a, as, by rw [chars, heq], leadOf_of_isNameStart hstart⟩
  | sym name => exact ⟨'`', _, rfl, (by decide : leadOf '`' = .symbol)⟩
  | call func args =>
    obtain ⟨a, as, heq, hstart⟩ := func.exists_cons
    exact ⟨a, _, by rw [chars, heq, List.cons_append], leadOf_of_isNameStart hstart⟩
  | parens content => exact ⟨'(', _, rfl, (by decide : leadOf '(' = .parens)⟩

/-- Every sign has a first character that tells it is one. -/
theorem UnaryOp.exists_cons_symbol {op : UnaryOp} (h : op.followsOperand = false) :
    ∃ a as, op.symbol.toList = a :: as ∧ leadOf a = .sign := by
  cases op with
  | not => exact ⟨'!', [], by decide⟩
  | bitNot => exact ⟨'~', [], by decide⟩
  | neg => exact ⟨'-', [], by decide⟩
  | deref => exact ⟨'*', [], by decide⟩
  | addrOf => exact ⟨'&', [], by decide⟩
  | preInc => exact ⟨'+', ['+'], by decide⟩
  | preDec => exact ⟨'-', ['-'], by decide⟩
  | postInc | postDec => cases h

/-- The kind of an operand that its first character tells. -/
def Operand.lead : Operand → Lead
  | .sign _ _ => .sign
  | .core c _ => c.lead

/-- So an operand has a first character that tells its kind. -/
theorem Operand.exists_cons (o : Operand) : ∃ a as, o.chars = a :: as ∧ leadOf a = o.lead := by
  cases o with
  | sign op rest =>
    obtain ⟨a, as, heq, hlead⟩ := UnaryOp.exists_cons_symbol op.property.1
    exact ⟨a, as ++ rest.chars, by rw [chars, heq, List.cons_append], hlead⟩
  | core c rest =>
    obtain ⟨a, as, heq, hlead⟩ := c.exists_cons
    exact ⟨a, as ++ rest.chars, by rw [chars, heq, List.cons_append], hlead⟩

/-- Texts that start with operands start with operands of one kind. -/
theorem Operand.lead_eq {o o' : Operand} {rest rest' : List Char}
    (h : o.chars ++ rest = o'.chars ++ rest') : o.lead = o'.lead := by
  obtain ⟨a, as, heq, hlead⟩ := o.exists_cons
  obtain ⟨a', as', heq', hlead'⟩ := o'.exists_cons
  rw [heq, heq'] at h
  rw [← hlead, ← hlead', (List.cons.inj h).1]

/-- The operators that are signs. -/
def UnaryOp.signs : List UnaryOp := [.not, .bitNot, .neg, .deref, .addrOf, .preInc]

/-- There are six signs; a decrement counts as two minus signs. -/
theorem Sign.mem_signs (op : Sign) : op.val ∈ UnaryOp.signs := by
  obtain ⟨op, hfollows, hdec⟩ := op
  cases op with
  | preDec => exact absurd rfl hdec
  | postInc | postDec => cases hfollows
  | _ => simp [UnaryOp.signs]

/-- Signs are told by their first characters. -/
theorem Sign.append_inj {op op' : Sign} {rest rest' : List Char}
    (h : op.val.symbol.toList ++ rest = op'.val.symbol.toList ++ rest') :
    op = op' ∧ rest = rest' := by
  have hnodup : (UnaryOp.signs.map fun op => op.symbol.toList.head?).Nodup := by decide
  obtain ⟨a, as, heq, -⟩ := UnaryOp.exists_cons_symbol op.property.1
  obtain ⟨a', as', heq', -⟩ := UnaryOp.exists_cons_symbol op'.property.1
  have hhead : op.val.symbol.toList.head? = op'.val.symbol.toList.head? := by
    rw [heq, heq'] at h ⊢
    rw [List.head?_cons, List.head?_cons, (List.cons.inj h).1]
  obtain rfl : op = op' :=
    Subtype.ext (List.inj_on_of_nodup_map hnodup op.mem_signs op'.mem_signs hhead)
  exact ⟨rfl, List.append_cancel_left h⟩

/-! ## Operators between blanks -/

namespace BinaryOp

/-- All operators with two operands. -/
def all : List BinaryOp :=
  [add, sub, mul, div, mod, bitAnd, bitOr, bitXor, shl, shr, eq, ne, lt, le, gt, ge, and, or, xor,
    assign, ptr, dot]

/-- The table of operators is complete. -/
theorem mem_all (op : BinaryOp) : op ∈ all := by
  cases op <;> decide

/-- No two operators look alike. -/
theorem symbol_injective {op op' : BinaryOp} (h : op.symbol = op'.symbol) : op = op' := by
  have hnodup : (all.map symbol).Nodup := by decide
  exact List.inj_on_of_nodup_map hnodup op.mem_all op'.mem_all h

/-- No operator is written like the mark of a condition, or with a blank. -/
theorem symbol_ne (op : BinaryOp) : op.symbol ≠ "?" ∧ ' ' ∉ op.symbol.toList := by
  have hall : ∀ op ∈ all, op.symbol ≠ "?" ∧ ' ' ∉ op.symbol.toList := by decide
  exact hall op op.mem_all

end BinaryOp

/-- A word between blanks is told by the blank behind it. -/
theorem spaced_inj {word word' rest rest' : List Char} (hword : ' ' ∉ word) (hword' : ' ' ∉ word')
    (h : ' ' :: (word ++ ' ' :: rest) = ' ' :: (word' ++ ' ' :: rest')) :
    word = word' ∧ rest = rest' := by
  have hclass : ∀ {word : List Char}, ' ' ∉ word → ∀ c ∈ word, (c != ' ') = true := by
    intro word hword c hc
    exact bne_iff_ne.2 fun heq => hword (heq ▸ hc)
  have hblank : ∀ rest : List Char, ∀ c ∈ (' ' :: rest).head?, (c != ' ') = false := by
    intro rest c hc
    cases hc
    rfl
  obtain ⟨rfl, hrest⟩ := Text.append_eq_append_of_class (hclass hword) (hclass hword')
    (hblank rest) (hblank rest') (List.cons.inj h).2
  exact ⟨rfl, (List.cons.inj hrest).2⟩

/-! ## The first operand -/

namespace Phrase

/-- The operand that a phrase starts with. -/
def first : Phrase → Operand
  | .operand o => o
  | .binary _ left _ => left
  | .ternary cond _ _ => cond

/-- What follows the first operand. -/
def afterFirst : Phrase → List Char
  | .operand _ => []
  | .binary op _ right => ' ' :: (op.val.symbol.toList ++ ' ' :: right.chars)
  | .ternary _ onTrue onFalse =>
      ' ' :: '?' :: ' ' :: (onTrue.chars ++ ' ' :: ':' :: ' ' :: onFalse.chars)

/-- A phrase is its first operand and what follows it. -/
theorem chars_eq (p : Phrase) : p.chars = p.first.chars ++ p.afterFirst := by
  cases p <;> simp [chars, first, afterFirst]

/-- What follows the first operand of a phrase is an operator between blanks, or what
    follows the phrase. -/
theorem bounded_afterFirst (p : Phrase) {rest : List Char} (h : Bounded phraseEnds rest) :
    Bounded operandEnds (p.afterFirst ++ rest) := by
  cases p with
  | operand o => exact h.mono (by decide)
  | binary | ternary => exact .cons (by decide) _

end Phrase

/-! ## Names, suffixes and members -/

/-- A name is read to its end: it goes on as long as there are characters of words. -/
theorem Text.Name.append_inj {name name' : Text.Name} {rest rest' : List Char}
    (hrest : ∀ c ∈ rest.head?, Text.isWordChar c = false)
    (hrest' : ∀ c ∈ rest'.head?, Text.isWordChar c = false)
    (h : name.val.toList ++ rest = name'.val.toList ++ rest') : name = name' ∧ rest = rest' := by
  obtain ⟨hname, rfl⟩ := Text.append_eq_append_of_class name.all_isWordChar
    name'.all_isWordChar hrest hrest' h
  exact ⟨Subtype.ext (String.toList_inj.1 hname), rfl⟩

/-- The two suffixes differ in their first character. -/
theorem Suffix.append_inj {op op' : Suffix} {rest rest' : List Char}
    (h : op.val.symbol.toList ++ rest = op'.val.symbol.toList ++ rest') :
    op = op' ∧ rest = rest' := by
  have heq : op.val = op'.val ∧ rest = rest' := by
    rcases op.eq_or_eq with hop | hop <;> rcases op'.eq_or_eq with hop' | hop' <;>
      simp_all [UnaryOp.symbol]
  exact ⟨Subtype.ext heq.1, heq.2⟩

/-- The two member operators differ in their first character. -/
theorem Access.append_inj {op op' : Access} {rest rest' : List Char}
    (h : op.val.symbol.toList ++ rest = op'.val.symbol.toList ++ rest') :
    op = op' ∧ rest = rest' := by
  have heq : op.val = op'.val ∧ rest = rest' := by
    rcases op.eq_or_eq with hop | hop <;> rcases op'.eq_or_eq with hop' | hop' <;>
      simp_all [BinaryOp.symbol]
  exact ⟨Subtype.ext heq.1, heq.2⟩

/-- A suffix `--` is told from the member operator `->` by its second character. -/
theorem Suffix.append_ne_access (op : Suffix) (op' : Access) (rest rest' : List Char) :
    op.val.symbol.toList ++ rest ≠ op'.val.symbol.toList ++ rest' := by
  rcases op.eq_or_eq with hop | hop <;> rcases op'.eq_or_eq with hop' | hop' <;>
    simp [hop, hop', UnaryOp.symbol, BinaryOp.symbol]

/-- No suffix looks like a subscript. -/
theorem Suffix.append_ne_bracket (op : Suffix) (rest rest' : List Char) :
    op.val.symbol.toList ++ rest ≠ '[' :: rest' := by
  rcases op.eq_or_eq with hop | hop <;> simp [hop, UnaryOp.symbol]

/-- No member operator looks like a subscript. -/
theorem Access.append_ne_bracket (op : Access) (rest rest' : List Char) :
    op.val.symbol.toList ++ rest ≠ '[' :: rest' := by
  rcases op.eq_or_eq with hop | hop <;> simp [hop, BinaryOp.symbol]

/-- Only an operand that has ended is followed by the end of an operand. -/
theorem Tail.eq_stop {t : Tail} {rest : List Char} (h : Bounded operandEnds (t.chars ++ rest)) :
    t = .stop := by
  cases t with
  | stop => rfl
  | keys keys more => exact absurd h.head (by decide)
  | suffix op more =>
    rw [chars] at h
    rcases op.eq_or_eq with hop | hop <;> rw [hop] at h <;> exact absurd h.head (by decide)
  | member op more =>
    rw [chars] at h
    rcases op.eq_or_eq with hop | hop <;> rw [hop] at h <;> exact absurd h.head (by decide)

/-- No phrase starts with the end of a list. -/
theorem Phrase.not_bounded (p : Phrase) (rest : List Char) :
    ¬ Bounded listEnds (p.chars ++ rest) := by
  intro h
  obtain ⟨a, as, heq, hlead⟩ := p.first.exists_cons
  rw [p.chars_eq, heq, List.cons_append, List.cons_append] at h
  have hends : listEnds.all (fun c => leadOf c == .none) = true := by decide
  rw [eq_of_beq (List.all_eq_true.1 hends a h.head)] at hlead
  cases hfirst : p.first with
  | sign op more => rw [hfirst] at hlead; cases hlead
  | core c more => rw [hfirst] at hlead; cases c <;> cases hlead

/-- Further items of a list start with a comma, so they end the phrase before them. -/
theorem Phrase.bounded_moreChars (ps : List Phrase) {rest : List Char}
    (h : Bounded listEnds rest) : Bounded phraseEnds (Phrase.moreChars ps ++ rest) := by
  cases ps with
  | nil => exact h.mono (by decide)
  | cons p ps => exact .cons (by decide) _

/-! ## Reading a phrase off its text -/

mutual
/-- A phrase is told by its text, whatever follows it. -/
theorem Phrase.chars_inj (p q : Phrase) {rest rest' : List Char}
    (hrest : Bounded phraseEnds rest) (hrest' : Bounded phraseEnds rest')
    (h : p.chars ++ rest = q.chars ++ rest') : p = q ∧ rest = rest' := by
  rw [p.chars_eq, q.chars_eq, List.append_assoc, List.append_assoc] at h
  -- Both texts start with an operand, which is read first; a blank after it tells that
  -- an operator follows, and no phrase is followed by a blank.
  have hends := p.bounded_afterFirst hrest
  have hends' := q.bounded_afterFirst hrest'
  cases p with
  | operand o =>
    obtain ⟨rfl, hafter⟩ := o.chars_inj q.first hends hends' h
    cases q with
    | operand o' => exact ⟨rfl, hafter⟩
    | binary | ternary =>
      rw [show rest = _ from hafter] at hrest
      exact absurd hrest.head (by decide)
  | binary op left right =>
    obtain ⟨hfirst, hafter⟩ := left.chars_inj q.first hends hends' h
    cases q with
    | operand o' =>
      rw [← show _ = rest' from hafter] at hrest'
      exact absurd hrest'.head (by decide)
    | binary op' left' right' =>
      simp only [Phrase.afterFirst, List.append_assoc, List.cons_append] at hafter
      obtain ⟨hsymbol, hright⟩ := spaced_inj op.val.symbol_ne.2 op'.val.symbol_ne.2 hafter
      obtain rfl := Subtype.ext (BinaryOp.symbol_injective (String.toList_inj.1 hsymbol))
      obtain ⟨rfl, rfl⟩ := right.chars_inj right' (hrest.mono (by decide))
        (hrest'.mono (by decide)) hright
      cases hfirst
      exact ⟨rfl, rfl⟩
    | ternary cond' onTrue' onFalse' =>
      simp only [Phrase.afterFirst, List.append_assoc, List.cons_append] at hafter
      have hsymbol := (spaced_inj op.val.symbol_ne.2 (by decide : ' ' ∉ ['?']) hafter).1
      exact absurd (String.toList_inj.1 hsymbol) op.val.symbol_ne.1
  | ternary cond onTrue onFalse =>
    obtain ⟨hfirst, hafter⟩ := cond.chars_inj q.first hends hends' h
    cases q with
    | operand o' =>
      rw [← show _ = rest' from hafter] at hrest'
      exact absurd hrest'.head (by decide)
    | binary op' left' right' =>
      simp only [Phrase.afterFirst, List.append_assoc, List.cons_append] at hafter
      have hsymbol := (spaced_inj (by decide : ' ' ∉ ['?']) op'.val.symbol_ne.2 hafter).1
      exact absurd (String.toList_inj.1 hsymbol.symm) op'.val.symbol_ne.1
    | ternary cond' onTrue' onFalse' =>
      simp only [Phrase.afterFirst, List.append_assoc, List.cons_append, List.cons.injEq,
        true_and] at hafter
      obtain ⟨rfl, hrestTrue⟩ := onTrue.chars_inj onTrue' (.cons (by decide) _)
        (.cons (by decide) _) hafter
      simp only [List.cons.injEq, true_and] at hrestTrue
      obtain ⟨rfl, rfl⟩ := onFalse.chars_inj onFalse' (hrest.mono (by decide))
        (hrest'.mono (by decide)) hrestTrue
      cases hfirst
      exact ⟨rfl, rfl⟩

/-- An operand is told by its text. -/
theorem Operand.chars_inj (o o' : Operand) {rest rest' : List Char}
    (hrest : Bounded operandEnds rest) (hrest' : Bounded operandEnds rest')
    (h : o.chars ++ rest = o'.chars ++ rest') : o = o' ∧ rest = rest' := by
  have hlead := Operand.lead_eq h
  cases o with
  | sign op more =>
    cases o' with
    | sign op' more' =>
      rw [Operand.chars, Operand.chars, List.append_assoc, List.append_assoc] at h
      obtain ⟨rfl, hmore⟩ := Sign.append_inj h
      obtain ⟨rfl, rfl⟩ := more.chars_inj more' hrest hrest' hmore
      exact ⟨rfl, rfl⟩
    | core c' more' => cases c' <;> cases hlead
  | core c more =>
    cases o' with
    | sign op' more' => cases c <;> cases hlead
    | core c' more' =>
      rw [Operand.chars, Operand.chars, List.append_assoc, List.append_assoc] at h
      obtain ⟨rfl, hmore⟩ := c.chars_inj c' (more.bounded hrest) (more'.bounded hrest') h hlead
      obtain ⟨rfl, rfl⟩ := more.chars_inj more' hrest hrest' hmore
      exact ⟨rfl, rfl⟩

/-- What an operand starts with is told by its text, if its first character is. -/
theorem Core.chars_inj (c c' : Core) {rest rest' : List Char}
    (hrest : Bounded coreEnds rest) (hrest' : Bounded coreEnds rest')
    (h : c.chars ++ rest = c'.chars ++ rest') (hlead : c.lead = c'.lead) :
    c = c' ∧ rest = rest' := by
  have hword := not_isWordChar_of_bounded hrest
  have hword' := not_isWordChar_of_bounded hrest'
  have hparen : ∀ rest : List Char, ∀ c ∈ ('(' :: rest).head?, Text.isWordChar c = false := by
    intro rest c hc
    cases hc
    rfl
  cases c with
  | int value =>
    cases c' with
    | int value' =>
      have hdigits : ∀ n : Nat, ∀ c ∈ Nat.toDigits 10 n, Text.isWordChar c = true :=
        fun n c hc => Text.isWordChar_of_isDigit
          (Nat.isDigit_of_mem_toDigits (by omega) (by omega) hc)
      obtain ⟨hvalue, rfl⟩ := Text.append_eq_append_of_class (hdigits _) (hdigits _) hword hword' h
      obtain rfl := UInt64.toNat_inj.1 (toDigits_injective hvalue)
      exact ⟨rfl, rfl⟩
    | _ => cases hlead
  | str value =>
    cases c' with
    | str value' =>
      obtain ⟨rfl, rfl⟩ := Text.quote_append_inj h
      exact ⟨rfl, rfl⟩
    | _ => cases hlead
  | ident name =>
    cases c' with
    | ident name' =>
      obtain ⟨rfl, rfl⟩ := Text.Name.append_inj hword hword' h
      exact ⟨rfl, rfl⟩
    -- A call starts with a name too, but nothing goes on with a parenthesis after one.
    | call func' args' =>
      rw [Core.chars, Core.chars, List.append_assoc] at h
      obtain ⟨-, rfl⟩ := Text.Name.append_inj hword (hparen _) h
      exact absurd hrest.head (by decide)
    | _ => cases hlead
  | sym name =>
    cases c' with
    | sym name' =>
      obtain ⟨rfl, rfl⟩ := Text.Name.append_inj hword hword' (List.cons.inj h).2
      exact ⟨rfl, rfl⟩
    | _ => cases hlead
  | call func args =>
    cases c' with
    | call func' args' =>
      simp only [Core.chars, List.append_assoc, List.cons_append, List.nil_append] at h
      obtain ⟨rfl, hargs⟩ := Text.Name.append_inj (hparen _) (hparen _) h
      obtain ⟨rfl, htail⟩ := Phrase.listChars_inj args args' (.cons (by decide) _)
        (.cons (by decide) _) (List.cons.inj hargs).2
      exact ⟨rfl, (List.cons.inj htail).2⟩
    | ident name' =>
      rw [Core.chars, Core.chars, List.append_assoc] at h
      obtain ⟨-, rfl⟩ := Text.Name.append_inj (hparen _) hword' h
      exact absurd hrest'.head (by decide)
    | _ => cases hlead
  | parens content =>
    cases c' with
    | parens content' =>
      simp only [Core.chars, List.append_assoc, List.cons_append, List.nil_append] at h
      obtain ⟨rfl, htail⟩ := content.chars_inj content' (.cons (by decide) _)
        (.cons (by decide) _) (List.cons.inj h).2
      exact ⟨rfl, (List.cons.inj htail).2⟩
    | _ => cases hlead

/-- The rest of an operand is told by its text. -/
theorem Tail.chars_inj (t t' : Tail) {rest rest' : List Char}
    (hrest : Bounded operandEnds rest) (hrest' : Bounded operandEnds rest')
    (h : t.chars ++ rest = t'.chars ++ rest') : t = t' ∧ rest = rest' := by
  -- The first character tells the cases apart, but for `--` and `->`, which the second
  -- one does.
  cases t with
  | stop =>
    rw [show rest = _ from h] at hrest
    obtain rfl := Tail.eq_stop hrest
    exact ⟨rfl, h⟩
  | suffix op more =>
    cases t' with
    | stop =>
      rw [← show _ = rest' from h] at hrest'
      cases Tail.eq_stop hrest'
    | suffix op' more' =>
      simp only [Tail.chars, List.append_assoc] at h
      obtain ⟨rfl, hmore⟩ := Suffix.append_inj h
      obtain ⟨rfl, rfl⟩ := more.chars_inj more' hrest hrest' hmore
      exact ⟨rfl, rfl⟩
    | keys keys' more' =>
      simp only [Tail.chars, List.append_assoc] at h
      exact absurd h (op.append_ne_bracket _ _)
    | member op' more' =>
      simp only [Tail.chars, List.append_assoc] at h
      exact absurd h (op.append_ne_access op' _ _)
  | keys keys more =>
    cases t' with
    | stop =>
      rw [← show _ = rest' from h] at hrest'
      cases Tail.eq_stop hrest'
    | suffix op' more' =>
      simp only [Tail.chars, List.append_assoc] at h
      exact absurd h.symm (op'.append_ne_bracket _ _)
    | keys keys' more' =>
      simp only [Tail.chars, List.append_assoc, List.cons_append, List.cons.injEq,
        true_and] at h
      obtain ⟨rfl, hclose⟩ := Phrase.listChars_inj keys keys' (.cons (by decide) _)
        (.cons (by decide) _) h
      obtain ⟨rfl, rfl⟩ := more.chars_inj more' hrest hrest' (List.cons.inj hclose).2
      exact ⟨rfl, rfl⟩
    | member op' more' =>
      simp only [Tail.chars, List.append_assoc] at h
      exact absurd h.symm (op'.append_ne_bracket _ _)
  | member op more =>
    cases t' with
    | stop =>
      rw [← show _ = rest' from h] at hrest'
      cases Tail.eq_stop hrest'
    | suffix op' more' =>
      simp only [Tail.chars, List.append_assoc] at h
      exact absurd h.symm (op'.append_ne_access op _ _)
    | keys keys' more' =>
      simp only [Tail.chars, List.append_assoc] at h
      exact absurd h (op.append_ne_bracket _ _)
    | member op' more' =>
      simp only [Tail.chars, List.append_assoc] at h
      obtain ⟨rfl, hmore⟩ := Access.append_inj h
      obtain ⟨rfl, rfl⟩ := more.chars_inj more' hrest hrest' hmore
      exact ⟨rfl, rfl⟩

/-- Phrases with commas between them are told by their text. -/
theorem Phrase.listChars_inj (ps qs : List Phrase) {rest rest' : List Char}
    (hrest : Bounded listEnds rest) (hrest' : Bounded listEnds rest')
    (h : Phrase.listChars ps ++ rest = Phrase.listChars qs ++ rest') :
    ps = qs ∧ rest = rest' := by
  cases ps with
  | nil =>
    cases qs with
    | nil => exact ⟨rfl, h⟩
    | cons q qs =>
      rw [Phrase.listChars, Phrase.listChars, List.append_assoc] at h
      rw [show rest = _ from h] at hrest
      exact absurd hrest (q.not_bounded _)
  | cons p ps =>
    cases qs with
    | nil =>
      rw [Phrase.listChars, Phrase.listChars, List.append_assoc] at h
      rw [← show _ = rest' from h] at hrest'
      exact absurd hrest' (p.not_bounded _)
    | cons q qs =>
      rw [Phrase.listChars, Phrase.listChars, List.append_assoc, List.append_assoc] at h
      obtain ⟨rfl, hmore⟩ := p.chars_inj q (Phrase.bounded_moreChars ps hrest)
        (Phrase.bounded_moreChars qs hrest') h
      obtain ⟨rfl, rfl⟩ := Phrase.moreChars_inj ps qs hrest hrest' hmore
      exact ⟨rfl, rfl⟩

/-- Lists are read item by item; a comma tells that there is one more. -/
theorem Phrase.moreChars_inj (ps qs : List Phrase) {rest rest' : List Char}
    (hrest : Bounded listEnds rest) (hrest' : Bounded listEnds rest')
    (h : Phrase.moreChars ps ++ rest = Phrase.moreChars qs ++ rest') :
    ps = qs ∧ rest = rest' := by
  cases ps with
  | nil =>
    cases qs with
    | nil => exact ⟨rfl, h⟩
    | cons q qs =>
      rw [show rest = _ from h] at hrest
      exact absurd hrest.head (by decide)
  | cons p ps =>
    cases qs with
    | nil =>
      rw [← show _ = rest' from h] at hrest'
      exact absurd hrest'.head (by decide)
    | cons q qs =>
      simp only [Phrase.moreChars, List.append_assoc, List.cons_append] at h
      obtain ⟨rfl, hmore⟩ := p.chars_inj q (Phrase.bounded_moreChars ps hrest)
        (Phrase.bounded_moreChars qs hrest') (List.cons.inj (List.cons.inj h).2).2
      obtain ⟨rfl, rfl⟩ := Phrase.moreChars_inj ps qs hrest hrest' hmore
      exact ⟨rfl, rfl⟩
end

namespace Expr

/-- Expressions with one text have one phrase. -/
theorem phrase_eq_of_text_eq {a b : Expr} (ha : a.isLexical = true) (hb : b.isLexical = true)
    (h : a.text = b.text) : a.phrase ha = b.phrase hb := by
  have hchars : (a.phrase ha).chars ++ [] = (b.phrase hb).chars ++ [] := by
    rw [chars_phrase, chars_phrase, h]
  exact (Phrase.chars_inj _ _ (.nil _) (.nil _) hchars).1

/-- Two expressions have one text if and only if they are regroupings of each other.
    If both are grouped, they differ in nothing but their spans. -/
theorem text_eq_iff_regroups (a b : Expr) (ha : a.isLexical = true) (hb : b.isLexical = true) :
    (a.text = b.text ↔ a.Regroups b) ∧
      (a.isGrouped = true → b.isGrouped = true → a.text = b.text → a.bare = b.bare) := by
  constructor
  · constructor
    · intro h
      calc
        Regroups a (a.phrase ha).toExpr := regroups_phrase a ha
        Regroups _ (b.phrase hb).toExpr := by rw [phrase_eq_of_text_eq ha hb h]
        Regroups _ b := (regroups_phrase b hb).symm
    · intro h
      exact h.alike.2
  · intro hga hgb h
    rw [← toExpr_phrase a ha hga, phrase_eq_of_text_eq ha hb h, toExpr_phrase b hb hgb]

/-- `*p.x` is the target of a member and the member of a target; of the two only the
    first is grouped, and then its spans are all that is open. -/
theorem text_eq_iff_regroups_member :
    let p : Expr := ident "p" .nowhere
    let x : Expr := ident "x" .nowhere
    let target (s : Span) : Expr := unary .deref (binary .dot p x s) s
    let member : Expr := binary .dot (unary .deref p .nowhere) x .nowhere
    (target .nowhere).Regroups member ∧ (target .nowhere).bare ≠ member.bare ∧
      (target ⟨0, 4, 8, 1⟩).bare = (target .nowhere).bare := by
  intro p x target member
  have hregroups := (text_eq_iff_regroups (target .nowhere) member (by decide) (by decide)).1
  have hspans := (text_eq_iff_regroups (target ⟨0, 4, 8, 1⟩) (target .nowhere) (by decide)
    (by decide)).2
  refine ⟨hregroups.1 (by decide), ?_, hspans (by decide) (by decide) (by decide)⟩
  simp [target, member, bare]

/-- Two minus signs and a decrement have one text. -/
theorem text_ambiguous :
    ¬ ∀ a b : Expr, a.isLexical = true → b.isLexical = true → a.text = b.text →
      a.bare = b.bare := by
  intro h
  have hequal := h (unary .neg (unary .neg (ident "x" .nowhere) .nowhere) .nowhere)
    (unary .preDec (ident "x" .nowhere) .nowhere) (by decide) (by decide) (by decide)
  exact absurd hequal (by simp [bare])

end Expr

end ProbeLang
