import Mathlib.Data.List.Basic
import ProbeLang.Proofs.Names

/-! # Fields by their names

    Looking up a name finds a field if and only if it is the name of a field that can be
    asked for (`EntryField.ofName?_eq_some_iff`).

    The lookup tries the fixed names first and then the leads of the names with a varying
    end.  One lead goes on where another stops, `arg` and `args`, but no number starts with
    the letter between them.  So a name with a lead is looked up by its end alone
    (`ofName?_elapsed`, `ofName?_args`, `ofName?_arg`).

    Texts that come close to a name without being one (`NearMiss`) are refused. -/

namespace ProbeLang

/-- A unit is found by its name, and by nothing else. -/
theorem TimeUnit.find?_name_iff {cs : List Char} {unit : TimeUnit} :
    (all.find? fun u => u.name.toList == cs) = some unit ↔ cs = unit.name.toList := by
  constructor
  · intro h
    have hname := List.find?_some h
    exact (beq_iff_eq.mp hname).symm
  · rintro rfl
    cases unit <;> rfl

namespace EntryField

variable {text : String} {f g : EntryField} {cs : List Char} {n : Nat}

/-! ## What can be asked for -/

/-- All fields can be asked for but the arguments past the last. -/
theorem mem_registry :
    f ∈ registry ↔ ∀ n, f = arg n ∨ f = args n → n ≤ maxArg := by
  cases f with
  | elapsed unit => cases unit <;> simp [registry, TimeUnit.all]
  | arg n =>
      have hmem : arg n ∈ registry ↔ n < maxArg + 1 := by simp [registry, TimeUnit.all]
      rw [hmem, Nat.lt_succ_iff]
      simp
  | args n =>
      have hmem : args n ∈ registry ↔ n < maxArg + 1 := by simp [registry, TimeUnit.all]
      rw [hmem, Nat.lt_succ_iff]
      simp
  | _ => simp [registry, TimeUnit.all]

@[simp] theorem arg_mem_registry : arg n ∈ registry ↔ n ≤ maxArg := by
  simp [mem_registry]

@[simp] theorem args_mem_registry : args n ∈ registry ↔ n ≤ maxArg := by
  simp [mem_registry]

/-- The number of an argument is one digit. -/
theorem toDigits_of_le_maxArg (h : n ≤ maxArg) : Nat.toDigits 10 n = [n.digitChar] :=
  Nat.toDigits_of_lt_base (Nat.lt_succ_of_le h)

/-- A digit is read as the argument whose number it is. -/
theorem digit?_eq_some_iff : digit? cs = some n ↔ n ≤ maxArg ∧ cs = Nat.toDigits 10 n := by
  constructor
  · intro h
    unfold digit? at h
    split at h
    · split at h
      · rename_i c hc
        obtain rfl := Option.some.inj h
        have hlow : '0'.toNat ≤ c.toNat := hc.1
        have hhigh : c.toNat ≤ '9'.toNat := hc.2
        have hle : c.toNat - '0'.toNat ≤ maxArg := Nat.sub_le_iff_le_add.mpr hhigh
        refine ⟨hle, ?_⟩
        rw [toDigits_of_le_maxArg hle, List.singleton_inj, ← Char.toNat_inj,
          Nat.toNat_digitChar_of_lt_ten (Nat.lt_succ_of_le hle)]
        exact (Nat.add_sub_cancel' hlow).symm
      · cases h
    · cases h
  · rintro ⟨hle, rfl⟩
    have hchar : n.digitChar.toNat = '0'.toNat + n :=
      Nat.toNat_digitChar_of_lt_ten (Nat.lt_succ_of_le hle)
    have hrange : '0' ≤ n.digitChar ∧ n.digitChar ≤ '9' := by
      constructor
      · show '0'.toNat ≤ n.digitChar.toNat
        omega
      · show n.digitChar.toNat ≤ '0'.toNat + maxArg
        omega
    rw [toDigits_of_le_maxArg hle, digit?, if_pos hrange, hchar, Nat.add_sub_cancel_left]

/-- More than one character is no digit. -/
theorem digit?_eq_none_of_lt (h : 1 < cs.length) : digit? cs = none := by
  refine Option.eq_none_iff_forall_ne_some.mpr fun n hn => ?_
  obtain ⟨hle, rfl⟩ := digit?_eq_some_iff.mp hn
  rw [toDigits_of_le_maxArg hle] at h
  exact Nat.lt_irrefl 1 h

/-! ## Names with a varying end -/

/-- Only the fixed names are not looked up by their leads. -/
theorem ofName?_eq_ofFamily?
    (h : text ∉ ["vtimestamp", "walltimestamp", "errno", "timestamp"]) :
    ofName? text = ofFamily? text.toList := by
  simp only [List.mem_cons, List.not_mem_nil, or_false, not_or] at h
  obtain ⟨hv, hw, he, ht⟩ := h
  rw [ofName?, if_neg hv, if_neg hw, if_neg he, if_neg ht]

/-- A name of this form is looked up among the units of time. -/
theorem ofName?_elapsed (unit : String) :
    ofName? ("elapsed_" ++ unit) =
      (TimeUnit.all.find? fun u => u.name.toList == unit.toList).map elapsed := by
  have hlead : "elapsed_".toList.isPrefixOf? ("elapsed_" ++ unit).toList = some unit.toList :=
    List.isPrefixOf?_eq_some_iff_append_eq.mpr (String.toList_append ..).symm
  rw [ofName?_eq_ofFamily? (by simp [← String.toList_inj]), ofFamily?, hlead]

/-- A name of this form is looked up by its digit. -/
theorem ofName?_args (number : String) :
    ofName? ("args" ++ number) = (digit? number.toList).map args := by
  have hlead : "args".toList.isPrefixOf? ("args" ++ number).toList = some number.toList :=
    List.isPrefixOf?_eq_some_iff_append_eq.mpr (String.toList_append ..).symm
  have hother : "elapsed_".toList.isPrefixOf? ("args" ++ number).toList = none := by
    simp [List.isPrefixOf?]
  rw [ofName?_eq_ofFamily? (by simp [← String.toList_inj]), ofFamily?, hother, hlead]

/-- So is one of this form, which is not tried as one of the other family. -/
theorem ofName?_arg {number : String} (h : 's' ∉ number.toList) :
    ofName? ("arg" ++ number) = (digit? number.toList).map arg := by
  have hlead : "arg".toList.isPrefixOf? ("arg" ++ number).toList = some number.toList :=
    List.isPrefixOf?_eq_some_iff_append_eq.mpr (String.toList_append ..).symm
  have hother : "elapsed_".toList.isPrefixOf? ("arg" ++ number).toList = none := by
    simp [List.isPrefixOf?]
  -- the longer lead would take its last letter from the number
  have hlonger : "args".toList.isPrefixOf? ("arg" ++ number).toList = none := by
    refine Option.eq_none_iff_forall_ne_some.mpr fun rest hrest => h ?_
    have htext := List.isPrefixOf?_eq_some_iff_append_eq.mp hrest
    rw [String.toList_append, show "args".toList = "arg".toList ++ ['s'] from rfl,
      List.append_assoc, List.append_right_inj] at htext
    simp [← htext]
  rw [ofName?_eq_ofFamily? (by simp [← String.toList_inj]), ofFamily?, hother, hlonger, hlead,
    Option.bind_some]

/-! ## Found by name -/

/-- A field that can be asked for is found by its name. -/
theorem ofName?_name (h : f ∈ registry) : ofName? f.name = some f := by
  cases f with
  | elapsed unit => rw [name, ofName?_elapsed, TimeUnit.find?_name_iff.mpr rfl, Option.map_some]
  | arg n =>
      have hdigit : digit? (toString n).toList = some n :=
        digit?_eq_some_iff.mpr ⟨arg_mem_registry.mp h, by simp⟩
      rw [name, ofName?_arg (by simp [not_mem_toDigits]), hdigit, Option.map_some]
  | args n =>
      have hdigit : digit? (toString n).toList = some n :=
        digit?_eq_some_iff.mpr ⟨args_mem_registry.mp h, by simp⟩
      rw [name, ofName?_args, hdigit, Option.map_some]
  | _ => rfl

/-- Only names of the registry are looked up in families. -/
theorem eq_name_of_ofFamily? (h : ofFamily? cs = some f) :
    cs = f.name.toList ∧ f ∈ registry := by
  unfold ofFamily? at h
  split at h
  · rename_i unit hlead
    obtain ⟨u, hu, rfl⟩ := Option.map_eq_some_iff.mp h
    rw [← List.isPrefixOf?_eq_some_iff_append_eq.mp hlead, TimeUnit.find?_name_iff.mp hu]
    exact ⟨(String.toList_append ..).symm, mem_registry.mpr (by simp)⟩
  · split at h
    · rename_i digits hlead
      obtain ⟨n, hn, rfl⟩ := Option.map_eq_some_iff.mp h
      obtain ⟨hle, rfl⟩ := digit?_eq_some_iff.mp hn
      have hdigits := List.isPrefixOf?_eq_some_iff_append_eq.mp hlead
      exact ⟨by simp [← hdigits, name], args_mem_registry.mpr hle⟩
    · obtain ⟨n, hn, rfl⟩ := Option.map_eq_some_iff.mp h
      obtain ⟨digits, hlead, hn⟩ := Option.bind_eq_some_iff.mp hn
      obtain ⟨hle, rfl⟩ := digit?_eq_some_iff.mp hn
      have hdigits := List.isPrefixOf?_eq_some_iff_append_eq.mp hlead
      exact ⟨by simp [← hdigits, name], arg_mem_registry.mpr hle⟩

/-- A name is looked up to the field it is the name of, if that can be asked for. -/
theorem ofName?_eq_some_iff : ofName? text = some f ↔ text = f.name ∧ f ∈ registry := by
  constructor
  · intro h
    by_cases hfixed : text ∈ ["vtimestamp", "walltimestamp", "errno", "timestamp"]
    · simp only [List.mem_cons, List.not_mem_nil, or_false] at hfixed
      rcases hfixed with rfl | rfl | rfl | rfl <;> obtain rfl := Option.some.inj h <;>
        exact ⟨rfl, by decide⟩
    · rw [ofName?_eq_ofFamily? hfixed] at h
      obtain ⟨htext, hmem⟩ := eq_name_of_ofFamily? h
      exact ⟨String.toList_inj.mp htext, hmem⟩
  · rintro ⟨rfl, hmem⟩
    exact ofName?_name hmem

/-- A text is refused if it is not the name of any field that can be asked for. -/
theorem ofName?_eq_none_iff : ofName? text = none ↔ ∀ f ∈ registry, text ≠ f.name := by
  simp only [Option.eq_none_iff_forall_ne_some, ne_eq, ofName?_eq_some_iff, not_and]
  exact forall_congr' fun f => imp_not_comm

/-! ## Close to a name -/

private theorem eq_nil_of_toDigits_append {m n : Nat} {rest : List Char} (hm : m ≤ maxArg)
    (hn : n ≤ maxArg) (h : Nat.toDigits 10 m ++ rest = Nat.toDigits 10 n) : rest = [] := by
  rw [toDigits_of_le_maxArg hm, toDigits_of_le_maxArg hn] at h
  exact (List.cons.inj h).2

/-- No name of a field that can be asked for goes on where another one ends. -/
theorem eq_nil_of_name_append {rest : List Char} (hf : f ∈ registry) (hg : g ∈ registry)
    (h : f.name.toList ++ rest = g.name.toList) : rest = [] := by
  -- the first letters tell most families apart; `arg` and `args` need a look at the digits
  cases f <;> cases g <;> simp [name] at h
  case vtimestamp.vtimestamp | walltimestamp.walltimestamp | errno.errno |
      timestamp.timestamp => exact h
  case elapsed.elapsed u v => cases u <;> cases v <;> simp_all [TimeUnit.name]
  case arg.arg m n =>
    exact eq_nil_of_toDigits_append (arg_mem_registry.mp hf) (arg_mem_registry.mp hg) h
  case args.args m n =>
    exact eq_nil_of_toDigits_append (args_mem_registry.mp hf) (args_mem_registry.mp hg) h
  case arg.args m n =>
    have hdigits := toDigits_of_le_maxArg (arg_mem_registry.mp hf)
    rw [hdigits] at h
    exact absurd (by simp [hdigits, (List.cons.inj h).1]) (not_mem_toDigits (c := 's') rfl m)
  case args.arg m n => exact absurd (by simp [← h]) (not_mem_toDigits (c := 's') rfl n)

/-- Names are in ASCII. -/
theorem toNat_lt_of_mem_name (f : EntryField) : ∀ c ∈ f.name.toList, c.toNat < 128 := by
  have hdigits (n : Nat) : ∀ c ∈ (toString n).toList, c.toNat < 128 := by
    intro c hc
    rw [Nat.toString_eq_repr, Nat.toList_repr] at hc
    have hdigit := Nat.isDigit_of_mem_toDigits (by omega) (by omega) hc
    exact Nat.lt_of_le_of_lt (Char.isDigit_iff_toNat.mp hdigit).2 (by decide)
  cases f with
  | elapsed unit => cases unit <;> simp [name, TimeUnit.name]
  | arg n =>
      rw [name, String.toList_append, List.forall_mem_append]
      exact ⟨by simp, hdigits n⟩
  | args n =>
      rw [name, String.toList_append, List.forall_mem_append]
      exact ⟨by simp, hdigits n⟩
  | _ => simp [name]

/-- A text that comes close to the name of a field without being one. -/
inductive NearMiss : String → Prop
  /-- A name that breaks off. -/
  | cut {f : EntryField} {text rest : String} (registered : f ∈ registry)
      (whole : text ++ rest = f.name) (more : rest ≠ "") : NearMiss text
  /-- An argument with a number of several digits: too large, or with zeros before it. -/
  | number {lead digits : String} (argument : lead = "arg" ∨ lead = "args")
      (decimal : ∀ c ∈ digits.toList, c.isDigit = true) (several : 1 < digits.length) :
      NearMiss (lead ++ digits)
  /-- A text with a character outside of ASCII, such as a digit of another script. -/
  | foreign {text : String} {c : Char} (holds : c ∈ text.toList) (outside : 128 ≤ c.toNat) :
      NearMiss text
  /-- An elapsed time in a unit that does not exist. -/
  | unit {unit : String} (unknown : ∀ u : TimeUnit, unit ≠ u.name) :
      NearMiss ("elapsed_" ++ unit)

/-- What comes close to a name is refused. -/
theorem NearMiss.ofName?_eq_none (h : NearMiss text) : ofName? text = none := by
  cases h with
  | @cut f _ rest hmem hwhole hmore =>
      refine ofName?_eq_none_iff.mpr ?_
      rintro g hg rfl
      have hrest := eq_nil_of_name_append hg hmem
        (by rw [← hwhole, String.toList_append])
      exact hmore (String.toList_eq_nil_iff.mp hrest)
  | @number lead digits hlead hdecimal hseveral =>
      have hnone : digit? digits.toList = none := digit?_eq_none_of_lt hseveral
      rcases hlead with rfl | rfl
      · have hletter : 's' ∉ digits.toList := fun hs => Bool.noConfusion (hdecimal 's' hs)
        rw [ofName?_arg hletter, hnone, Option.map_none]
      · rw [ofName?_args, hnone, Option.map_none]
  | @foreign _ c hc houtside =>
      refine ofName?_eq_none_iff.mpr ?_
      rintro f - rfl
      exact Nat.not_le_of_lt (toNat_lt_of_mem_name f c hc) houtside
  | @unit unit hunknown =>
      rw [ofName?_elapsed, Option.map_eq_none_iff]
      refine Option.eq_none_iff_forall_ne_some.mpr fun u hu => hunknown u ?_
      exact String.toList_inj.mp (TimeUnit.find?_name_iff.mp hu)

/-- Looking up a text finds a field if and only if the text is its name and the field can be
    asked for, the arguments among them being those from 0 to 9.  Every other text is
    refused, also those that come close to a name. -/
theorem lookup_exact (text : String) (f : EntryField) :
    (ofName? text = some f ↔ text = f.name ∧ f ∈ registry) ∧
      (f ∈ registry ↔ ∀ n, f = arg n ∨ f = args n → n ≤ 9) ∧
      (ofName? text = none ↔ ∀ g ∈ registry, text ≠ g.name) ∧
      (NearMiss text → ofName? text = none) :=
  ⟨ofName?_eq_some_iff, mem_registry, ofName?_eq_none_iff, NearMiss.ofName?_eq_none⟩

/-- A name that is found, an argument past the last one, and texts that come close to a name,
    one of which has the digit three of another script. -/
theorem lookup_exact_close :
    ofName? "args7" = some (args 7) ∧ args 10 ∉ registry ∧
      ∀ text ∈ ["args", "arg10", "args07", "arg\u0663", "elapsed_min"],
        NearMiss text ∧ ofName? text = none := by
  have hmiss : ∀ text ∈ ["args", "arg10", "args07", "arg\u0663", "elapsed_min"],
      NearMiss text := by
    simp only [List.forall_mem_cons]
    refine ⟨?_, ?_, ?_, ?_, ?_, List.forall_mem_nil _⟩
    · exact .cut (f := args 7) (by decide) (show "args" ++ "7" = _ from rfl) (by decide)
    · exact .number (.inl rfl) (show ∀ c ∈ "10".toList, c.isDigit from by simp) (by decide)
    · exact .number (.inr rfl) (show ∀ c ∈ "07".toList, c.isDigit from by simp) (by decide)
    · exact .foreign (c := '\u0663') (by decide) (by decide)
    · have hunknown : ∀ u : TimeUnit, "min" ≠ u.name := by
        intro u
        cases u <;> decide
      exact .unit hunknown
  refine ⟨(lookup_exact "args7" (args 7)).1.mpr ⟨rfl, by decide⟩, ?_, ?_⟩
  · intro hmem
    exact absurd ((lookup_exact "args10" (args 10)).2.1.mp hmem 10 (.inr rfl)) (by decide)
  · intro text htext
    exact ⟨hmiss text htext, (lookup_exact text timestamp).2.2.2 (hmiss text htext)⟩

end EntryField

end ProbeLang
