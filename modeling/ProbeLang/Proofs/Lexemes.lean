import Mathlib.Data.List.Basic
import ProbeLang.Proofs.Names
import ProbeLang.Text

/-! # Words, numbers and quoted texts

    Where a word, a number or a quoted text ends can be told from the characters
    alone: a word or a number ends before the first character that no word holds, a
    quoted text with the first quote that does not belong to a backslash.  So what is
    written and what follows it are both determined by the two together. -/

namespace ProbeLang.Text

/-! ## Words -/

/-- Whether a character may stand in a word. -/
def isWordChar (c : Char) : Bool := c.isAlphanum || c == '_'

/-- Whether a character may be the first one of a name. -/
def isNameStart (c : Char) : Bool := c.isAlpha || c == '_'

/-- Whether a text has the form of a name: `[A-Za-z_][A-Za-z0-9_]*`. -/
def isName (text : String) : Bool :=
  text.toList.head?.any isNameStart && text.toList.all isWordChar

/-- A text of the form of a name. -/
abbrev Name := { text : String // isName text = true }

/-- A name is one word. -/
theorem Name.all_isWordChar (name : Name) : ∀ c ∈ name.val.toList, isWordChar c = true := by
  have h := name.property
  rw [isName, Bool.and_eq_true, List.all_eq_true] at h
  exact h.2

/-- A name has a first character, and it is no digit. -/
theorem Name.exists_cons (name : Name) :
    ∃ c cs, name.val.toList = c :: cs ∧ isNameStart c = true := by
  have h := name.property
  rw [isName, Bool.and_eq_true] at h
  cases hchars : name.val.toList with
  | nil => rw [hchars] at h; cases h.1
  | cons c cs =>
    rw [hchars] at h
    exact ⟨c, cs, rfl, h.1⟩

/-- Numbers are words too, so a number is not followed by a character of a word. -/
theorem isWordChar_of_isDigit {c : Char} (h : c.isDigit = true) : isWordChar c = true := by
  simp [isWordChar, Char.isAlphanum, h]

theorem le_toNat_of_isAlpha {c : Char} (h : c.isAlpha = true) : 65 ≤ c.toNat := by
  rcases Bool.or_eq_true_iff.1 h with hupper | hlower
  · have hle : 'A'.val ≤ c.val := (of_decide_eq_true hupper).1
    exact UInt32.le_iff_toNat_le.1 hle
  · have hle : 'a'.val ≤ c.val := of_decide_eq_true (Bool.and_eq_true_iff.1 hlower).1
    exact Nat.le_trans (by decide) (UInt32.le_iff_toNat_le.1 hle)

/-- No digit is the first character of a name. -/
theorem isDigit_of_isNameStart {c : Char} (h : isNameStart c = true) : c.isDigit = false := by
  rw [Bool.eq_false_iff, ne_eq, Char.isDigit_iff_toNat]
  rcases Bool.or_eq_true_iff.1 h with halpha | hunderscore
  · have hle := le_toNat_of_isAlpha halpha
    have hnine : '9'.toNat = 57 := rfl
    omega
  · rw [eq_of_beq hunderscore]
    decide

/-- Characters of a class end where the class ends. -/
theorem append_eq_append_of_class {p : Char → Bool} {xs ys rest rest' : List Char}
    (hxs : ∀ c ∈ xs, p c = true) (hys : ∀ c ∈ ys, p c = true)
    (hrest : ∀ c ∈ rest.head?, p c = false) (hrest' : ∀ c ∈ rest'.head?, p c = false)
    (h : xs ++ rest = ys ++ rest') : xs = ys ∧ rest = rest' := by
  have htake : ∀ {zs tail : List Char}, (∀ c ∈ zs, p c = true) →
      (∀ c ∈ tail.head?, p c = false) → (zs ++ tail).takeWhile p = zs := by
    intro zs tail hzs htail
    rw [List.takeWhile_append_of_pos hzs]
    cases tail with
    | nil => simp
    | cons c tail => simp [htail c rfl]
  have heq : xs = ys := by rw [← htake hxs hrest, h, htake hys hrest']
  subst heq
  exact ⟨rfl, List.append_cancel_left h⟩

/-! ## Numbers -/

/-- A number has a first digit. -/
theorem exists_cons_toDigits (n : Nat) :
    ∃ c cs, Nat.toDigits 10 n = c :: cs ∧ c.isDigit = true := by
  cases h : Nat.toDigits 10 n with
  | nil => exact absurd h Nat.toDigits_ne_nil
  | cons c cs =>
    have hmem : c ∈ Nat.toDigits 10 n := h ▸ List.mem_cons_self
    exact ⟨c, cs, rfl, Nat.isDigit_of_mem_toDigits (by omega) (by omega) hmem⟩

/-! ## Quoted texts -/

/-- The characters of a quoted text after its first quote. -/
def quoteTail (cs : List Char) : List Char := cs.flatMap escape ++ ['"']

/-- A quoted text is a quote and then a tail that can be read to its end. -/
theorem toList_quote (text : String) : (quote text).toList = '"' :: quoteTail text.toList := by
  simp [quote, quoteTail]

/-- The tail is written character by character. -/
theorem quoteTail_cons (c : Char) (cs : List Char) :
    quoteTail (c :: cs) = escape c ++ quoteTail cs := by
  simp [quoteTail]

/-! ### Reading them back

    A reader goes over a quoted text from the left.  After a backslash it takes the next
    character with it, so that a quote ends the text only if the backslashes right before
    it pair up among themselves.  What it accepts is what is written, and nothing else
    (`unquote?_eq_some_iff`). -/

/-- The character that is written as a backslash and `d`. -/
def unescape? (d : Char) : Option Char :=
  if d = '"' then some '"'
  else if d = '\\' then some '\\'
  else if d = 'n' then some '\n'
  else if d = 't' then some '\t'
  else none

/-- The characters behind a backslash are told apart, so that an escape is undone. -/
theorem unescape?_eq_some_iff {c d : Char} : unescape? d = some c ↔ escape c = ['\\', d] := by
  unfold unescape? escape
  grind

/-- What stands between the first quote, after which `cs` begins, and the one that ends
    the quoted text, and what follows it. -/
def readQuoted : (cs : List Char) → Option (List Char × List Char)
  | [] => none
  | c :: cs =>
    if c = '"' then some ([], cs)
    else if c = '\\' then
      match cs with
      | [] => none
      | d :: cs =>
        (unescape? d).bind fun c => (readQuoted cs).map fun r => (c :: r.1, r.2)
    else if escape c = [c] then (readQuoted cs).map fun r => (c :: r.1, r.2)
    else none

/-- The closing quote ends the text; all else is what follows. -/
theorem readQuoted_quote (cs : List Char) : readQuoted ('"' :: cs) = some ([], cs) := by
  rw [readQuoted.eq_def]
  exact if_pos rfl

/-- Behind a backslash stands what an escaped character is written as. -/
theorem readQuoted_backslash (d : Char) (cs : List Char) :
    readQuoted ('\\' :: d :: cs) =
      (unescape? d).bind fun c => (readQuoted cs).map fun r => (c :: r.1, r.2) := by
  rw [readQuoted.eq_def]
  dsimp only
  rw [if_neg (by decide), if_pos rfl]

/-- Other characters stand for themselves. -/
theorem readQuoted_self {c : Char} (h : escape c = [c]) (cs : List Char) :
    readQuoted (c :: cs) = (readQuoted cs).map fun r => (c :: r.1, r.2) := by
  have hquote : c ≠ '"' := by rintro rfl; exact absurd h (by decide)
  have hback : c ≠ '\\' := by rintro rfl; exact absurd h (by decide)
  rw [readQuoted.eq_def]
  dsimp only
  rw [if_neg hquote, if_neg hback, if_pos h]

/-- One step of reading: what a character is written as is read as that character. -/
theorem readQuoted_escape (c : Char) (cs : List Char) :
    readQuoted (escape c ++ cs) = (readQuoted cs).map fun r => (c :: r.1, r.2) := by
  by_cases hself : escape c = [c]
  · rw [hself, List.singleton_append, readQuoted_self hself]
  · obtain ⟨d, hd⟩ : ∃ d, escape c = ['\\', d] := by
      unfold escape at hself ⊢
      grind
    rw [hd, List.cons_append, List.singleton_append, readQuoted_backslash,
      unescape?_eq_some_iff.mpr hd, Option.bind_some]

/-- What is written is read, and nothing of what follows is. -/
theorem readQuoted_quoteTail (cs rest : List Char) :
    readQuoted (quoteTail cs ++ rest) = some (cs, rest) := by
  induction cs with
  | nil => exact readQuoted_quote rest
  | cons c cs ih =>
    rw [quoteTail_cons, List.append_assoc, readQuoted_escape, ih]
    rfl

/-- Nothing else is read as that text: by recursion of the reader, each case undone by
    the character's escape. -/
theorem eq_quoteTail_of_readQuoted {cs text rest : List Char}
    (h : readQuoted cs = some (text, rest)) : cs = quoteTail text ++ rest := by
  fun_induction readQuoted cs generalizing text with
  | case1 => cases h
  | case2 cs =>
    obtain ⟨rfl, rfl⟩ := Prod.mk.inj (Option.some.inj h)
    rfl
  | case3 => cases h
  | case4 d cs _ ih =>
    obtain ⟨c, hc, h⟩ := Option.bind_eq_some_iff.mp h
    obtain ⟨r, hr, h⟩ := Option.map_eq_some_iff.mp h
    obtain ⟨rfl, rfl⟩ := Prod.mk.inj h
    rw [quoteTail_cons, unescape?_eq_some_iff.mp hc, ih hr]
    rfl
  | case5 c cs _ _ hself ih =>
    obtain ⟨r, hr, h⟩ := Option.map_eq_some_iff.mp h
    obtain ⟨rfl, rfl⟩ := Prod.mk.inj h
    rw [quoteTail_cons, hself, ih hr]
    rfl
  | case6 => cases h

/-- A quoted text and what follows it are told apart. -/
theorem quote_append_inj {text text' : String} {rest rest' : List Char}
    (h : (quote text).toList ++ rest = (quote text').toList ++ rest') :
    text = text' ∧ rest = rest' := by
  rw [toList_quote, toList_quote] at h
  have htail : quoteTail text.toList ++ rest = quoteTail text'.toList ++ rest' :=
    (List.cons.inj h).2
  have hread := readQuoted_quoteTail text.toList rest
  rw [htail, readQuoted_quoteTail] at hread
  obtain ⟨htext, hrest⟩ := Prod.mk.inj (Option.some.inj hread)
  exact ⟨String.toList_inj.1 htext.symm, hrest.symm⟩

/-- The text that is quoted at the beginning of `input`, and what follows there. -/
def unquote? (input : String) : Option (String × String) :=
  (['"'].isPrefixOf? input.toList).bind fun cs =>
    (readQuoted cs).map fun r => (String.ofList r.1, String.ofList r.2)

/-- The reader is exact: it takes a text off the front exactly if the quoted text stands
    there. -/
theorem unquote?_eq_some_iff {input text rest : String} :
    unquote? input = some (text, rest) ↔ input = quote text ++ rest := by
  constructor
  · intro h
    obtain ⟨cs, hcs, h⟩ := Option.bind_eq_some_iff.mp h
    obtain ⟨r, hr, h⟩ := Option.map_eq_some_iff.mp h
    obtain ⟨rfl, rfl⟩ := Prod.mk.inj h
    rw [← String.toList_inj, String.toList_append, toList_quote, String.toList_ofList,
      String.toList_ofList, ← List.isPrefixOf?_eq_some_iff_append_eq.mp hcs,
      eq_quoteTail_of_readQuoted hr]
    rfl
  · rintro rfl
    have hlead : ['"'].isPrefixOf? (quote text ++ rest).toList =
        some (quoteTail text.toList ++ rest.toList) :=
      List.isPrefixOf?_eq_some_iff_append_eq.mpr (by rw [String.toList_append, toList_quote]; rfl)
    rw [unquote?, hlead, Option.bind_some, readQuoted_quoteTail, Option.map_some,
      String.ofList_toList, String.ofList_toList]

/-- Quoted texts can be decoded wherever they stand.  Two of them that are followed by
    something agree only if they quote one text and the same follows; and a reader finds
    the text and what follows it, and takes nothing for a quoted text that is not one. -/
theorem quote_append_eq_iff (s t r₁ r₂ : String) :
    (quote s ++ r₁ = quote t ++ r₂ ↔ s = t ∧ r₁ = r₂) ∧
      ∀ input, unquote? input = some (s, r₁) ↔ input = quote s ++ r₁ := by
  refine ⟨⟨?_, ?_⟩, fun input => unquote?_eq_some_iff⟩
  · intro h
    have hread : unquote? (quote t ++ r₂) = some (s, r₁) := unquote?_eq_some_iff.mpr h.symm
    rw [unquote?_eq_some_iff.mpr rfl] at hread
    obtain ⟨hst, hr⟩ := Prod.mk.inj (Option.some.inj hread)
    exact ⟨hst.symm, hr.symm⟩
  · rintro ⟨rfl, rfl⟩
    rfl

end ProbeLang.Text
