/-! # Text

    What the language needs to know about texts: the fields between separators, the
    characters that count as blank, literals between quotes, and the names of files. -/

namespace ProbeLang.Text

/-! ## Fields

    A separator character cuts a text into fields: one more field than there are
    separators, none of them holding the separator.  Joining the fields with the
    separator gives the text back. -/

/-- The fields of `text` between separators, in order; an empty text has one empty field. -/
def fields (sep : Char) (text : String) : List String :=
  (text.toList.splitOn sep).map String.ofList

/-- There is always a field. -/
theorem fields_ne_nil (sep : Char) (text : String) : fields sep text ≠ [] :=
  mt List.map_eq_nil_iff.mp (List.splitOn_ne_nil sep text.toList)

/-- One field more than separators. -/
theorem length_fields (sep : Char) (text : String) :
    (fields sep text).length = text.toList.count sep + 1 := by
  have h : ∀ cs : List Char, (cs.splitOnP (· == sep)).length = cs.count sep + 1 := by
    intro cs
    induction cs with
    | nil => rfl
    | cons c cs ih =>
        by_cases hc : c = sep <;> simp [List.splitOnP_cons_eq_if_modifyHead, hc, ih]
  rw [fields, List.length_map, List.splitOn_eq_splitOnP, h]

/-- The fields of a text, with separators between them, are the text again. -/
theorem intercalate_fields (sep : Char) (text : String) :
    (String.singleton sep).intercalate (fields sep text) = text := by
  have hchars : String.toList ∘ String.ofList = id := funext fun _ => String.toList_ofList
  rw [← String.toList_inj, String.toList_intercalate, fields, List.map_map, hchars, List.map_id,
    String.toList_singleton]
  exact List.intercalate_splitOn sep

/-- No field of a text holds the separator. -/
theorem not_mem_of_mem_fields {sep : Char} {text field : String} (h : field ∈ fields sep text) :
    sep ∉ field.toList := by
  -- by induction on the characters: one that is no separator joins the first part
  have hparts : ∀ cs : List Char, ∀ part ∈ cs.splitOnP (· == sep), sep ∉ part := by
    intro cs
    induction cs with
    | nil => simp
    | cons c cs ih =>
        obtain ⟨first, rest, hcs⟩ := List.exists_cons_of_ne_nil (List.splitOnP_ne_nil (· == sep) cs)
        rw [List.splitOnP_cons_eq_if_modifyHead, hcs]
        rw [hcs] at ih
        by_cases hc : c = sep
        · simpa [hc] using ih
        · simpa [hc, Ne.symm hc] using ih
  obtain ⟨part, hpart, rfl⟩ := List.mem_map.mp h
  rw [String.toList_ofList]
  exact hparts _ part hpart

/-- The fields of two texts with a separator between them. -/
theorem fields_append (sep : Char) (a b : String) :
    fields sep (a ++ String.singleton sep ++ b) = fields sep a ++ fields sep b := by
  simp [fields, List.splitOn_append_cons_self]

/-- A text without a separator is one field. -/
theorem fields_of_not_mem {sep : Char} {text : String} (h : sep ∉ text.toList) :
    fields sep text = [text] := by
  have hnone : ∀ c ∈ text.toList, (c == sep) = false := by
    intro c hc
    exact beq_false_of_ne fun heq => h (heq ▸ hc)
  rw [fields, List.splitOn_eq_splitOnP, List.splitOnP_eq_singleton hnone, List.map_singleton,
    String.ofList_toList]

/-! ## Blank characters

    The characters with the Unicode property White_Space, and texts with the
    blanks at both ends taken away.  The class is wider than the blanks of ASCII:
    a no-break space or an ideographic space is blank too. -/

/-- The ranges of the property White_Space, both ends included. -/
def blankRanges : List (Nat × Nat) :=
  [(0x09, 0x0D), (0x20, 0x20), (0x85, 0x85), (0xA0, 0xA0), (0x1680, 0x1680),
   (0x2000, 0x200A), (0x2028, 0x2029), (0x202F, 0x202F), (0x205F, 0x205F),
   (0x3000, 0x3000)]

/-- Whether a character is blank. -/
def isBlank (c : Char) : Bool :=
  blankRanges.any fun r => r.1 ≤ c.toNat && c.toNat ≤ r.2

/-- `text` without the blanks at its two ends. -/
def trim (text : String) : String :=
  String.ofList ((text.toList.dropWhile isBlank).reverse.dropWhile isBlank).reverse

/-- Whether `text` holds blanks only. -/
def isBlankText (text : String) : Bool :=
  text.toList.all isBlank

/-! ## Quoted text

    A literal is written between double quotes.  A quote, a backslash, a line
    break and a tab are written as a backslash and one more character; all other
    characters stand for themselves, control characters among them. -/

/-- A character as written between quotes. -/
def escape (c : Char) : List Char :=
  if c = '"' then ['\\', '"']
  else if c = '\\' then ['\\', '\\']
  else if c = '\n' then ['\\', 'n']
  else if c = '\t' then ['\\', 't']
  else [c]

/-- The written form of `text`, its quotes included. -/
def quote (text : String) : String :=
  String.ofList ('"' :: (text.toList.flatMap escape ++ ['"']))

/-! ## File paths

    A path is a list of names divided by slashes.  Empty names and the name `.` say
    nothing and are passed over. -/

/-- The name of the file that a path leads to.  There is none if the path has no
    name in it, or if it leads to a parent directory. -/
def fileName? (path : String) : Option String :=
  match ((fields '/' path).filter fun name => name != "" && name != ".").getLast? with
  | none => none
  | some name => if name = ".." then none else some name

/-- What follows the last dot of a file name.  A dot that starts the name is part
    of it, unless another dot follows. -/
def nameExtension? (name : String) : Option String :=
  match fields '.' name with
  | [_] => none
  | ["", _] => none
  | parts => parts.getLast?

/-- The extension of the file that a path leads to. -/
def extension? (path : String) : Option String :=
  (fileName? path).bind nameExtension?

end ProbeLang.Text
