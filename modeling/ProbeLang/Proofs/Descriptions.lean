import ProbeLang.Probe

/-! # Reading and printing descriptions

    A text is read into the four components of a description from the right: those
    that it leaves out are empty (`Probe.components_of_read`).  Printing writes all
    four of them, so what has been read is printed with a colon more for each
    component left out (`Probe.text_of_read`).

    A component that holds a colon cannot be told from two components any more.  It
    makes one field too many of the printed text, and that is the only reason for
    which a printed description is not read back. -/

namespace ProbeLang.Probe

variable {text : String} {p : Probe}

/-- The four components, from left to right. -/
def components (p : Probe) : List String := [p.provider, p.module, p.function, p.name]

/-- A text with a colon before it for each component that it leaves out. -/
def padded (text : String) : String :=
  String.ofList (List.replicate (3 - text.toList.count ':') ':') ++ text

/-! ## Reading -/

/-- Components that are given fill a description from the right. -/
theorem components_of_ofComponents? {cs : List String} (h : ofComponents? cs = some p) :
    p.components = List.replicate (4 - cs.length) "" ++ cs := by
  rcases cs with _ | ⟨a, _ | ⟨b, _ | ⟨c, _ | ⟨d, _ | ⟨e, rest⟩⟩⟩⟩⟩
  · cases h
  · obtain rfl := Option.some.inj h
    rfl
  · obtain rfl := Option.some.inj h
    rfl
  · obtain rfl := Option.some.inj h
    rfl
  · obtain rfl := Option.some.inj h
    rfl
  · cases h

/-- The components of a description that has been read: the fields between colons, with
    empty ones in front. -/
theorem components_of_read (h : read text = .ok p) :
    p.components = List.replicate (3 - text.toList.count ':') "" ++ Text.fields ':' text := by
  have hlength := Text.length_fields ':' text
  have hlack : 4 - (Text.fields ':' text).length = 3 - text.toList.count ':' := by omega
  cases hcs : ofComponents? (Text.fields ':' text) with
  | none =>
      simp only [read, hcs] at h
      cases h
  | some q =>
      simp only [read, hcs] at h
      obtain rfl := Except.ok.inj h
      rw [← hlack]
      exact components_of_ofComponents? hcs

/-- A text with up to three colons is a description. -/
theorem read_of_le (text : String) (h : text.toList.count ':' ≤ 3) :
    ∃ p, read text = .ok p := by
  have hlength := Text.length_fields ':' text
  unfold read
  rcases hfields : Text.fields ':' text with _ | ⟨a, _ | ⟨b, _ | ⟨c, _ | ⟨d, _ | ⟨e, rest⟩⟩⟩⟩⟩
  · rw [hfields] at hlength
    cases hlength
  · exact ⟨_, rfl⟩
  · exact ⟨_, rfl⟩
  · exact ⟨_, rfl⟩
  · exact ⟨_, rfl⟩
  · rw [hfields] at hlength
    simp only [List.length_cons] at hlength
    omega

/-- A text can be refused for one reason only. -/
theorem of_read_error {e : ReadError} (h : read text = .error e) :
    e = .tooManyComponents text (text.toList.count ':' + 1) := by
  cases hcs : ofComponents? (Text.fields ':' text) with
  | some p =>
      simp only [read, hcs] at h
      cases h
  | none =>
      simp only [read, hcs] at h
      rw [← Except.error.inj h, Text.length_fields]

/-- A description has no more fields than components. -/
theorem count_le_of_read (h : read text = .ok p) : text.toList.count ':' ≤ 3 := by
  have hfour : p.components.length = 4 := rfl
  rw [components_of_read h, List.length_append, List.length_replicate, Text.length_fields] at hfour
  omega

/-- A text with more than three colons is no description. -/
theorem read_of_lt (text : String) (h : 3 < text.toList.count ':') :
    read text = .error (.tooManyComponents text (text.toList.count ':' + 1)) := by
  cases hread : read text with
  | error e => rw [of_read_error hread]
  | ok p => exact absurd (count_le_of_read hread) (Nat.not_le.mpr h)

/-! ## Printing -/

/-- A description is printed with colons between its components. -/
theorem text_eq_intercalate (p : Probe) : p.text = ":".intercalate p.components := by
  simp [Probe.text, components, String.append_assoc]

/-- An empty component on the left is printed as a colon. -/
theorem intercalate_replicate_append (n : Nat) {cs : List String} (hcs : cs ≠ []) :
    ":".intercalate (List.replicate n "" ++ cs) =
      String.ofList (List.replicate n ':') ++ ":".intercalate cs := by
  induction n with
  | zero => simp
  | succ n ih =>
      have hrest : List.replicate n "" ++ cs ≠ [] := List.append_ne_nil_of_right_ne_nil _ hcs
      rw [List.replicate_succ, List.cons_append, String.intercalate_cons_of_ne_nil hrest, ih,
        ← String.toList_inj]
      simp [List.replicate_succ]

/-- What has been read is printed in full. -/
theorem text_of_read (h : read text = .ok p) : p.text = padded text := by
  rw [text_eq_intercalate, components_of_read h,
    intercalate_replicate_append _ (Text.fields_ne_nil ':' text)]
  exact congrArg _ (Text.intercalate_fields ':' text)

/-! ## Reading what is printed -/

/-- Reading cuts a text at its colons, so that none is left inside a component. -/
theorem not_mem_of_read (h : read text = .ok p) :
    ∀ component ∈ p.components, ':' ∉ component.toList := by
  intro component hmem
  rw [components_of_read h] at hmem
  rcases List.mem_append.mp hmem with hmem | hmem
  · rw [List.eq_of_mem_replicate hmem]
    exact List.not_mem_nil
  · exact Text.not_mem_of_mem_fields hmem

/-- Without colons of their own, the components are the fields of the text. -/
theorem fields_text (hp : ∀ component ∈ p.components, ':' ∉ component.toList) :
    Text.fields ':' p.text = p.components := by
  have hone : ∀ component ∈ p.components, Text.fields ':' component = [component] :=
    fun component hmem => Text.fields_of_not_mem (hp component hmem)
  obtain ⟨hprovider, hmodule, hfunction, hname⟩ :
      Text.fields ':' p.provider = [p.provider] ∧ Text.fields ':' p.module = [p.module] ∧
        Text.fields ':' p.function = [p.function] ∧ Text.fields ':' p.name = [p.name] := by
    simpa [components] using hone
  have happend : ∀ a b : String,
      Text.fields ':' (a ++ ":" ++ b) = Text.fields ':' a ++ Text.fields ':' b :=
    Text.fields_append ':'
  rw [Probe.text, happend, happend, happend, hprovider, hmodule, hfunction, hname]
  rfl

/-- And then they are read back. -/
theorem read_text_of_not_mem (hp : ∀ component ∈ p.components, ':' ∉ component.toList) :
    read p.text = .ok p := by
  unfold read
  rw [fields_text hp]
  rfl

/-- The colons of a printed description are those inside its components and the three
    between them. -/
theorem count_text (p : Probe) :
    p.text.toList.count ':' =
      p.provider.toList.count ':' + p.module.toList.count ':' + p.function.toList.count ':' +
        p.name.toList.count ':' + 3 := by
  simp [Probe.text, List.count_append]
  omega

/-- A colon inside a component is one too many. -/
theorem lt_count_text {component : String} (hmem : component ∈ p.components)
    (hcolon : ':' ∈ component.toList) : 3 < p.text.toList.count ':' := by
  have hpos : 0 < component.toList.count ':' := List.count_pos_iff.mpr hcolon
  rw [count_text]
  simp only [components, List.mem_cons, List.not_mem_nil, or_false] at hmem
  rcases hmem with rfl | rfl | rfl | rfl <;> omega

/-! ## Adding a name -/

variable {name name' : String}

/-- A name that is added to a text brings one colon with it. -/
theorem count_concat (text : String) (hname : ':' ∉ name.toList) :
    (text ++ ":" ++ name).toList.count ':' = text.toList.count ':' + 1 := by
  simp [List.count_append, List.count_eq_zero_of_not_mem hname]

/-- A description with a name put behind it ends in that name, whatever stands before. -/
theorem components_of_read_concat (hname : ':' ∉ name.toList)
    (h : read (text ++ ":" ++ name) = .ok p) :
    p.components =
      List.replicate (3 - (text.toList.count ':' + 1)) "" ++ Text.fields ':' text ++ [name] := by
  have hfields : Text.fields ':' (text ++ ":" ++ name) = Text.fields ':' text ++ [name] := by
    rw [← Text.fields_of_not_mem hname]
    exact Text.fields_append ':' text name
  rw [components_of_read h, count_concat text hname, hfields, List.append_assoc]

/-- Whether a text with a name added to it is a description does not depend on the name,
    and the name is all that does. -/
theorem read_concat (hname : ':' ∉ name.toList) (hname' : ':' ∉ name'.toList)
    (h : read (text ++ ":" ++ name) = .ok p) :
    p.name = name ∧ read (text ++ ":" ++ name') = .ok (p.withName name') := by
  have hcount := count_le_of_read h
  rw [count_concat text hname, ← count_concat text hname'] at hcount
  obtain ⟨q, hq⟩ := read_of_le (text ++ ":" ++ name') hcount
  -- the name comes last, and the components before it are the same for both
  have hp : [p.provider, p.module, p.function] ++ [p.name] = _ := components_of_read_concat hname h
  have hq' : [q.provider, q.module, q.function] ++ [q.name] = _ :=
    components_of_read_concat hname' hq
  obtain ⟨hfront, hlast⟩ := List.append_inj' hp rfl
  obtain ⟨hfront', hlast'⟩ := List.append_inj' hq' rfl
  obtain ⟨hprovider, hmodule, hfunction⟩ :
      q.provider = p.provider ∧ q.module = p.module ∧ q.function = p.function := by
    simpa using hfront'.trans hfront.symm
  refine ⟨List.singleton_inj.mp hlast, ?_⟩
  rw [hq, withName, ← hprovider, ← hmodule, ← hfunction, ← List.singleton_inj.mp hlast']

/-- Reading and printing are inverse to each other, as far as that is possible.

    A text is a description if it has up to three colons.  Printed, it has a colon more
    for each one that is missing to three, and what is printed is read as the same
    description.  A text with more colons is refused with the number of its components.

    A description is read back from what is printed exactly if none of its components
    holds a colon; one that is not read back is refused. -/
theorem read_text_inverse :
    (∀ text : String,
      ((∃ p, read text = .ok p) ↔ text.toList.count ':' ≤ 3) ∧
      (∀ p, read text = .ok p → p.text = padded text ∧ read p.text = .ok p) ∧
      ∀ e, read text = .error e →
        e = .tooManyComponents text (text.toList.count ':' + 1)) ∧
    ∀ p : Probe,
      (read p.text = .ok p ↔ ∀ component ∈ p.components, ':' ∉ component.toList) ∧
      ((∃ component ∈ p.components, ':' ∈ component.toList) →
        ∃ count, read p.text = .error (.tooManyComponents p.text count)) := by
  constructor
  · intro text
    refine ⟨⟨?_, read_of_le text⟩, ?_, fun e => of_read_error⟩
    · rintro ⟨p, hp⟩
      exact count_le_of_read hp
    · intro p hp
      exact ⟨text_of_read hp, read_text_of_not_mem (not_mem_of_read hp)⟩
  · intro p
    refine ⟨⟨not_mem_of_read, read_text_of_not_mem⟩, ?_⟩
    rintro ⟨component, hmem, hcolon⟩
    exact ⟨_, read_of_lt p.text (lt_count_text hmem hcolon)⟩

/-- A text that leaves out two components, one that has one too many, and a description
    with a colon inside. -/
theorem read_text_inverse_short :
    let p : Probe := ⟨"", "", "spa_sync", "entry"⟩
    let odd : Probe := ⟨"fbt", "zfs:spa", "", "entry"⟩
    read "spa_sync:entry" = .ok p ∧ p.text = "::spa_sync:entry" ∧
      read "::spa_sync:entry" = .ok p ∧
      (∃ e, read "a:b::d:e" = .error e ∧ e = .tooManyComponents "a:b::d:e" 5) ∧
      read odd.text ≠ .ok odd ∧
      ∃ count, read odd.text = .error (.tooManyComponents "fbt:zfs:spa::entry" count) := by
  intro p odd
  have hread : read "spa_sync:entry" = .ok p := rfl
  have hcolon : ∃ component ∈ odd.components, ':' ∈ component.toList := by decide
  obtain ⟨htext, hagain⟩ := (read_text_inverse.1 "spa_sync:entry").2.1 p hread
  obtain ⟨hback, hrefused⟩ := read_text_inverse.2 odd
  refine ⟨hread, ?_, hagain, ?_, ?_, hrefused hcolon⟩
  · rw [htext]
    decide
  · cases hlong : read "a:b::d:e" with
    | ok q => exact absurd ((read_text_inverse.1 "a:b::d:e").1.mp ⟨q, hlong⟩) (by decide)
    | error e => exact ⟨e, rfl, (read_text_inverse.1 "a:b::d:e").2.2 e hlong⟩
  · intro hodd
    obtain ⟨component, hmem, hin⟩ := hcolon
    exact hback.mp hodd component hmem hin

end ProbeLang.Probe
