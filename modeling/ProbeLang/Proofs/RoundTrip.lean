import Mathlib.Data.List.Nodup
import ProbeLang.Json.Decode
import ProbeLang.Json.Encode

/-! # Scripts written and read

    What is written of a script is read as that script again.  Readers also accept
    what others write: an object that holds the fields of a record may hold more
    members besides, and a predicate or an aggregating function that is not there may
    be left out.  `Json.Relaxes` says which values are such variants of a given one,
    and `Json.script_roundTrips` that each of them is read alike.

    The argument goes by what can be looked up.  Whatever has been added to an object,
    the members with the names of its fields are still there, with a variant of the
    value they had (`Relaxes.field`); so each reader finds what it looks for, and the
    rest is induction over the script. -/

namespace ProbeLang

namespace Json

/-! ## Variants of a value -/

/-- The fields of the records that scripts are made of, in the order in which they are
    written. -/
def layouts : List (List String) :=
  [Span.layout, Probe.layout, Expr.layout, ["op", "operand"], ["op", "left", "right"],
    ["cond", "then_expr", "else_expr"], ["base", "keys"], ["func", "args"],
    ["name", "keys", "func"], ["name", "body"], ["cond", "then_body", "else_body", "span"],
    ["cond", "max_iter", "body", "span"], Clause.layout, Program.layout]

/-- The fields that may be left out if they are null. -/
def omissible : List String := ["predicate", "func"]

mutual
/-- The second value is a variant of the first one.  Records in it may have members
    that are none of their fields, and have lost fields that were null and may be left
    out; the order of their members is of no matter.  All else is alike. -/
inductive Relaxes : Json → Json → Prop where
  | same (j : Json) : Relaxes j j
  | arr {items items' : List Json} : RelaxesList items items' → Relaxes (arr items) (arr items')
  | tagged {content content' : Json} (tag : String) :
      Relaxes content content' → Relaxes (tagged tag content) (tagged tag content')
  | record {fields kept members : List (String × Json)} :
      fields.map Prod.fst ∈ layouts → RelaxesFields fields kept →
      (members.filter fun m => decide (m.1 ∈ fields.map Prod.fst)).Perm kept →
      Relaxes (obj fields) (obj members)

/-- The values of the second list are variants of those of the first, one by one. -/
inductive RelaxesList : List Json → List Json → Prop where
  | nil : RelaxesList [] []
  | cons {j j' : Json} {js js' : List Json} :
      Relaxes j j' → RelaxesList js js' → RelaxesList (j :: js) (j' :: js')

/-- The second list has a variant of each field of the first, but for some that may be
    left out. -/
inductive RelaxesFields : List (String × Json) → List (String × Json) → Prop where
  | nil : RelaxesFields [] []
  | keep {v v' : Json} {fields kept : List (String × Json)} (key : String) :
      Relaxes v v' → RelaxesFields fields kept →
      RelaxesFields ((key, v) :: fields) ((key, v') :: kept)
  | drop {key : String} {fields kept : List (String × Json)} :
      key ∈ omissible → RelaxesFields fields kept → RelaxesFields ((key, null) :: fields) kept
end

/-! ## What a variant looks like -/

variable {j j' : Json} {js js' : List Json} {key tag text : String}
  {fields kept members : List (String × Json)}

theorem RelaxesList.refl (js : List Json) : RelaxesList js js := by
  induction js with
  | nil => exact .nil
  | cons j js ih => exact .cons (.same j) ih

/-- There is no freedom in a null, a text or a number: its only variant is itself. -/
theorem Relaxes.of_null (h : Relaxes null j) : j = null := by
  cases h with
  | same => rfl

theorem Relaxes.of_str (h : Relaxes (str text) j) : j = str text := by
  cases h with
  | same => rfl

theorem Relaxes.of_nat {n : Nat} (h : Relaxes (nat n) j) : j = nat n := by
  cases h with
  | same => rfl

/-- A variant of a list is a list of variants, one for each item and in order. -/
theorem Relaxes.of_arr (h : Relaxes (.arr js) j) : ∃ js', j = .arr js' ∧ RelaxesList js js' := by
  cases h with
  | same => exact ⟨js, rfl, .refl js⟩
  | arr hjs => exact ⟨_, rfl, hjs⟩

theorem RelaxesFields.refl (fields : List (String × Json)) : RelaxesFields fields fields := by
  induction fields with
  | nil => exact .nil
  | cons field fields ih => exact .keep field.1 (.same field.2) ih

/-- Whatever is kept under a name is a variant of a field of that name. -/
theorem RelaxesFields.of_mem_kept (h : RelaxesFields fields kept) (hmem : (key, j') ∈ kept) :
    ∃ v, (key, v) ∈ fields ∧ Relaxes v j' := by
  induction fields generalizing kept with
  | nil =>
    cases h with
    | nil => cases hmem
  | cons field fields ih =>
    cases h with
    | keep key' hv hfields =>
      rcases List.mem_cons.1 hmem with heq | hmem
      · cases heq
        exact ⟨_, List.mem_cons_self, hv⟩
      · obtain ⟨v, hv, hrelaxes⟩ := ih hfields hmem
        exact ⟨v, List.mem_cons_of_mem _ hv, hrelaxes⟩
    | drop homissible hfields =>
      obtain ⟨v, hv, hrelaxes⟩ := ih hfields hmem
      exact ⟨v, List.mem_cons_of_mem _ hv, hrelaxes⟩

/-- A field is kept, or it is one that may be left out and is null. -/
theorem RelaxesFields.of_mem (h : RelaxesFields fields kept) {v : Json}
    (hmem : (key, v) ∈ fields) :
    (∃ v', (key, v') ∈ kept) ∨ key ∈ omissible ∧ v = null := by
  induction fields generalizing kept with
  | nil => cases hmem
  | cons field fields ih =>
    cases h with
    | keep key' hv hfields =>
      rcases List.mem_cons.1 hmem with heq | hmem
      · cases heq
        exact .inl ⟨_, List.mem_cons_self⟩
      · exact (ih hfields hmem).imp_left fun ⟨v', hv'⟩ => ⟨v', List.mem_cons_of_mem _ hv'⟩
    | drop homissible hfields =>
      rcases List.mem_cons.1 hmem with heq | hmem
      · cases heq
        exact .inr ⟨homissible, rfl⟩
      · exact ih hfields hmem

/-- The object of a form keeps its only member. -/
theorem Relaxes.of_tagged {content : Json} (h : Relaxes (Json.tagged tag content) j)
    (htag : [tag] ∉ layouts) :
    ∃ content', j = Json.tagged tag content' ∧ Relaxes content content' := by
  cases h with
  | same => exact ⟨content, rfl, .same content⟩
  | tagged _ hcontent => exact ⟨_, rfl, hcontent⟩
  | record hlayout => exact absurd hlayout htag

/-! ## Looking up a field -/

/-- What is looked up is a member. -/
theorem mem_of_lookup (h : members.lookup key = some j) : (key, j) ∈ members := by
  obtain ⟨before, after, rfl, -⟩ := List.lookup_eq_some_iff.1 h
  exact List.mem_append_right _ List.mem_cons_self

/-- A name that is not found is that of no member. -/
theorem notMem_of_lookup (h : members.lookup key = none) : (key, j) ∉ members := by
  intro hmem
  simpa using List.lookup_eq_none_iff.1 h _ hmem

/-- The search that carries a proof of smaller size finds what the library's search
    finds. -/
theorem map_val_find? (key : String) (members : List (String × Json)) :
    (find? key members).map Subtype.val = members.lookup key := by
  induction members with
  | nil => rfl
  | cons m members ih =>
    obtain ⟨k, v⟩ := m
    by_cases hk : k = key
    · simp [find?, hk]
    · have hk' : (key == k) = false := beq_false_of_ne (Ne.symm hk)
      simp [find?, hk, ih, Function.comp_def, List.lookup_cons, hk']

/-- So does the lookup of a field, which makes the lemmas on `List.lookup` those on
    fields. -/
theorem map_val_field? (key : String) (members : List (String × Json)) :
    ((obj members).field? key).map Subtype.val = members.lookup key := by
  simp [field?, ← map_val_find?, Function.comp_def]

/-- A record has its fields once each, so what stands under the name of a field in a
    variant of the record was made of that field. -/
theorem RelaxesFields.lookup (h : RelaxesFields fields kept)
    (hkeys : (fields.map Prod.fst).Nodup)
    (hperm : (members.filter fun m => decide (m.1 ∈ fields.map Prod.fst)).Perm kept)
    (hfield : fields.lookup key = some j) :
    (∃ j', members.lookup key = some j' ∧ Relaxes j j') ∨
      members.lookup key = none ∧ key ∈ omissible ∧ j = null := by
  have hmem : (key, j) ∈ fields := mem_of_lookup hfield
  -- Members with other names than those of fields play no part in this.
  have hkept : ∀ v, (key, v) ∈ kept ↔ (key, v) ∈ members := by
    intro v
    have hkey : key ∈ fields.map Prod.fst := List.mem_map_of_mem hmem
    rw [← hperm.mem_iff, List.mem_filter]
    simp only [hkey, decide_true, and_true]
  cases hfound : members.lookup key with
  | some j' =>
    left
    obtain ⟨w, hw, hrelaxes⟩ := h.of_mem_kept ((hkept j').2 (mem_of_lookup hfound))
    cases List.inj_on_of_nodup_map hkeys hw hmem rfl
    exact ⟨j', rfl, hrelaxes⟩
  | none =>
    right
    rcases h.of_mem hmem with ⟨j', hj'⟩ | homitted
    · exact absurd ((hkept j').1 hj') (notMem_of_lookup hfound)
    · exact ⟨rfl, homitted⟩

/-- No record has two fields of one name; without this the first of two would hide the
    other. -/
theorem nodup_of_mem_layouts : ∀ layout ∈ layouts, layout.Nodup := by
  decide

/-- Under the name of a field stands a variant of its value, if anything does. -/
theorem Relaxes.lookup (h : Relaxes (obj fields) j) :
    ∃ members, j = obj members ∧ ∀ key v, fields.lookup key = some v →
      (∃ v', members.lookup key = some v' ∧ Relaxes v v') ∨
        members.lookup key = none ∧ key ∈ omissible ∧ v = null := by
  cases h with
  | same => exact ⟨fields, rfl, fun key v hfield => .inl ⟨v, hfield, .same v⟩⟩
  | tagged tag hcontent =>
    have hkept := RelaxesFields.keep tag hcontent .nil
    refine ⟨_, rfl, fun key v hfield => hkept.lookup ?_ ?_ hfield⟩
    · exact List.nodup_singleton tag
    · simp
  | record hlayout hkept hperm =>
    exact ⟨_, rfl, fun key v hfield =>
      hkept.lookup (nodup_of_mem_layouts _ hlayout) hperm hfield⟩

/-- A field that is not null is found. -/
theorem Relaxes.field_of_ne_null (h : Relaxes (obj fields) j) (key : String) {v : Json}
    (hfield : fields.lookup key = some v) (hkept : key ∈ omissible → v ≠ null) :
    ∃ v' hlt, j.field? key = some ⟨v', hlt⟩ ∧ Relaxes v v' := by
  obtain ⟨members, rfl, hlookup⟩ := h.lookup
  rcases hlookup key v hfield with ⟨v', hfound, hrelaxes⟩ | ⟨-, homissible, hnull⟩
  · obtain ⟨r, hr, rfl⟩ := Option.map_eq_some_iff.1 ((map_val_field? key members).trans hfound)
    exact ⟨r.val, r.property, hr, hrelaxes⟩
  · exact absurd hnull (hkept homissible)

/-- A field that may not be left out is found. -/
theorem Relaxes.field (h : Relaxes (obj fields) j) (key : String) {v : Json}
    (hfield : fields.lookup key = some v) (hkept : key ∉ omissible) :
    ∃ v' hlt, j.field? key = some ⟨v', hlt⟩ ∧ Relaxes v v' :=
  h.field_of_ne_null key hfield fun homissible => absurd homissible hkept

/-- A field that is null is null or left out. -/
theorem Relaxes.field_null (h : Relaxes (obj fields) j) (key : String)
    (hfield : fields.lookup key = some null) :
    (j.field? key).map Subtype.val = some null ∨ j.field? key = none := by
  obtain ⟨members, rfl, hlookup⟩ := h.lookup
  rcases hlookup key null hfield with ⟨v', hfound, hrelaxes⟩ | ⟨hnone, -⟩
  · left
    rw [map_val_field?, hfound, hrelaxes.of_null]
  · right
    exact Option.map_eq_none_iff.1 ((map_val_field? key members).trans hnone)

/-- An object is taken apart as a record by the names of its fields. -/
theorem Relaxes.recordField?_eq (h : Relaxes (obj fields) j) (layout : List String)
    (key : String) : j.recordField? layout key = j.field? key := by
  obtain ⟨members, rfl, -⟩ := h.lookup
  rfl

/-! ## Reading what was written -/

/-- A number that fits is read as it is. -/
theorem natBelow?_nat {n bound : Nat} (h : n < bound) : (nat n).natBelow? bound = some n :=
  if_pos h

theorem uint16?_nat (n : UInt16) : (nat n.toNat).uint16? = some n := by
  rw [uint16?, natBelow?_nat n.toNat_lt, Option.map_some, UInt16.ofNat_toNat]

theorem uint32?_nat (n : UInt32) : (nat n.toNat).uint32? = some n := by
  rw [uint32?, natBelow?_nat n.toNat_lt, Option.map_some, UInt32.ofNat_toNat]

theorem uint64?_nat (n : UInt64) : (nat n.toNat).uint64? = some n := by
  rw [uint64?, natBelow?_nat n.toNat_lt, Option.map_some, UInt64.ofNat_toNat]

/-- A tagged value is not the bare name of another kind. -/
theorem unit?_tagged_ne {content : Json} {name : String} (h : tag ≠ name) :
    (tagged tag content).unit? ≠ some name := by
  cases content <;> simp [tagged, unit?, h]

/-- A field that is there and not null counts as present. -/
theorem present?_of_field {v : Json} {hlt : sizeOf v < sizeOf j}
    (h : j.field? key = some ⟨v, hlt⟩) (hv : v ≠ null) : j.present? key = some ⟨v, hlt⟩ := by
  rw [present?, h]
  cases v with
  | null => exact absurd rfl hv
  | _ => rfl

/-- A null counts as not there, and so does a field that was left out. -/
theorem Relaxes.present?_eq_none (h : Relaxes (obj fields) j) (key : String)
    (hfield : fields.lookup key = some null) : j.present? key = none := by
  rcases h.field_null key hfield with hnull | hnone
  · obtain ⟨⟨v, hlt⟩, hr, rfl⟩ := Option.map_eq_some_iff.1 hnull
    rw [present?, hr]
  · rw [present?, hnone]

/-- What a value is written as can be read, and so can each variant of it, as that very
    value. -/
def RoundTrips {α : Type} (write : α → Json) (read : Json → Option α) : Prop :=
  ∀ a, read (write a) = some a ∧ ∀ j, Relaxes (write a) j → read j = some a

/-- A value is a variant of itself, so it is enough to read variants. -/
theorem RoundTrips.of_relaxes {α : Type} {write : α → Json} {read : Json → Option α}
    (h : ∀ a j, Relaxes (write a) j → read j = some a) : RoundTrips write read :=
  fun a => ⟨h a _ (.same _), h a⟩

/-- A list is read item by item. -/
theorem RoundTrips.mapM {α : Type} {write : α → Json} {read : Json → Option α}
    (h : RoundTrips write read) {as : List α} (hrelaxes : RelaxesList (as.map write) js) :
    js.mapM read = some as := by
  induction as generalizing js with
  | nil =>
    cases hrelaxes with
    | nil => rfl
  | cons a as ih =>
    cases hrelaxes with
    | cons ha has => simp [(h a).2 _ ha, ih has]

/-- A list of values is read back if each of them is. -/
theorem RoundTrips.listOf? {α : Type} {write : α → Json} {read : Json → Option α}
    (h : RoundTrips write read) {as : List α} (hrelaxes : Relaxes (arr (as.map write)) j) :
    j.listOf? read = some as := by
  obtain ⟨js, rfl, hjs⟩ := hrelaxes.of_arr
  exact h.mapM hjs

end Json

open Json

/-- The names of the operators are told apart. -/
theorem UnaryOp.ofJson?_tag (op : UnaryOp) : UnaryOp.ofJson? (.str op.tag) = some op := by
  cases op <;> rfl

theorem BinaryOp.ofJson?_tag (op : BinaryOp) : BinaryOp.ofJson? (.str op.tag) = some op := by
  cases op <;> rfl

/-- A span is read back from its four numbers, in whatever order they stand. -/
theorem Span.roundTrips : RoundTrips Span.toJson Span.ofJson? := by
  refine .of_relaxes fun s j h => ?_
  obtain ⟨_, _, hfileId, hf⟩ := h.field "file_id" rfl (by decide)
  obtain ⟨_, _, hstart, hs⟩ := h.field "start" rfl (by decide)
  obtain ⟨_, _, hstop, he⟩ := h.field "end" rfl (by decide)
  obtain ⟨_, _, hline, hl⟩ := h.field "start_line" rfl (by decide)
  cases hf.of_nat
  cases hs.of_nat
  cases he.of_nat
  cases hl.of_nat
  simp [Span.ofJson?, h.recordField?_eq, hfileId, hstart, hstop, hline, uint16?_nat, uint32?_nat]

/-- A description of probes is read back from its four texts. -/
theorem Probe.roundTrips : RoundTrips Probe.toJson Probe.ofJson? := by
  refine .of_relaxes fun p j h => ?_
  obtain ⟨_, _, hprovider, hp⟩ := h.field "provider" rfl (by decide)
  obtain ⟨_, _, hmodule, hm⟩ := h.field "module" rfl (by decide)
  obtain ⟨_, _, hfunction, hf⟩ := h.field "function" rfl (by decide)
  obtain ⟨_, _, hname, hn⟩ := h.field "name" rfl (by decide)
  cases hp.of_str
  cases hm.of_str
  cases hf.of_str
  cases hn.of_str
  simp [Probe.ofJson?, h.recordField?_eq, hprovider, hmodule, hfunction, hname, text?]

namespace Expr

/-- Every expression is written as a kind and a span. -/
theorem toJson_eq_node (e : Expr) : ∃ kind, e.toJson = node kind e.span := by
  cases e <;> exact ⟨_, rfl⟩

/-- An expression is never written as null, so one that may be absent is told from an
    absent one. -/
theorem ne_null_of_relaxes {e : Expr} {j : Json} (h : Relaxes e.toJson j) : j ≠ .null := by
  obtain ⟨kind, heq⟩ := e.toJson_eq_node
  rw [heq] at h
  obtain ⟨members, rfl, -⟩ := h.lookup
  intro hnull
  cases hnull

/-- Under a node stands its form, which has the span of the node put on it. -/
theorem ofJson?_of_node {kind : Json} {s : Span} {j : Json} (h : Relaxes (node kind s) j) :
    ∃ kind', Relaxes kind kind' ∧ ofJson? j = ofKind? kind' s := by
  obtain ⟨kind', _, hkind, hrelaxes⟩ := h.field "kind" rfl (by decide)
  obtain ⟨_, _, hspan, hs⟩ := h.field "span" rfl (by decide)
  refine ⟨kind', hrelaxes, ?_⟩
  rw [ofJson?]
  simp [h.recordField?_eq, hkind, hspan, (Span.roundTrips s).2 _ hs]

/-- Reading a tagged kind: the span is taken off, and the content is a variant of what
    was written. -/
theorem ofJson?_of_tagged {tag : String} {content : Json} {s : Span} {j : Json}
    (h : Relaxes (node (.tagged tag content) s) j) (htag : [tag] ∉ layouts) :
    ∃ content', Relaxes content content' ∧ ofJson? j = ofKind? (.tagged tag content') s := by
  obtain ⟨kind, hkind, hread⟩ := ofJson?_of_node h
  obtain ⟨content', rfl, hcontent⟩ := hkind.of_tagged htag
  exact ⟨content', hcontent, hread⟩

/-- The forms that hold a text, with their names. -/
def textForms : List (String × (String → Span → Expr)) :=
  [("Str", str), ("Ident", ident), ("Sym", sym), ("Type", typeName)]

/-- The kinds that hold one text are read by one table. -/
theorem ofKind?_of_textForms {form : String × (String → Span → Expr)} (hform : form ∈ textForms)
    (text : String) (s : Span) :
    ofKind? (.tagged form.1 (.str text)) s = some (form.2 text s) := by
  simp only [textForms, List.mem_cons, List.not_mem_nil, or_false] at hform
  rcases hform with rfl | rfl | rfl | rfl <;>
    (rw [ofKind?, if_neg (unit?_tagged_ne (by decide))]; rfl)

/-- So an expression that holds one text is read back by finding its row in the table. -/
theorem ofJson?_of_text {tag text : String} {form : String → Span → Expr} {s : Span} {j : Json}
    (hform : (tag, form) ∈ textForms) (h : Relaxes (node (.tagged tag (.str text)) s) j) :
    ofJson? j = some (form text s) := by
  have htags : ∀ tag ∈ textForms.map Prod.fst, [tag] ∉ layouts := by decide
  obtain ⟨_, hcontent, hread⟩ := ofJson?_of_tagged h (htags tag (List.mem_map_of_mem hform))
  cases hcontent.of_str
  rw [hread, ofKind?_of_textForms hform]

mutual
/-- By recursion on the expression, with a case for each kind: each part is read from a
    variant of what was written for it. -/
theorem ofJson?_of_relaxes (e : Expr) {j : Json} (h : Relaxes e.toJson j) :
    ofJson? j = some e := by
  -- The node gives away its form, the form its fields, and nested expressions are read
  -- by induction.  The form without content is the only one that is no object.
  cases e with
  | int value s =>
    obtain ⟨_, hcontent, hread⟩ := ofJson?_of_tagged h (by decide)
    cases hcontent.of_nat
    rw [hread, ofKind?, if_neg (unit?_tagged_ne (by decide))]
    simp [Json.tagged, variant?, uint64?_nat]
  | str value s => exact ofJson?_of_text (by simp [textForms]) h
  | ident name s => exact ofJson?_of_text (by simp [textForms]) h
  | sym name s => exact ofJson?_of_text (by simp [textForms]) h
  | typeName name s => exact ofJson?_of_text (by simp [textForms]) h
  | unary op operand s =>
    obtain ⟨_, hcontent, hread⟩ := ofJson?_of_tagged h (by decide)
    obtain ⟨_, _, hop, ho⟩ := hcontent.field "op" rfl (by decide)
    obtain ⟨_, _, hoperand, ha⟩ := hcontent.field "operand" rfl (by decide)
    cases ho.of_str
    rw [hread, ofKind?, if_neg (unit?_tagged_ne (by decide))]
    simp [Json.tagged, variant?, hop, hoperand, UnaryOp.ofJson?_tag,
      ofJson?_of_relaxes operand ha]
  | binary op left right s =>
    obtain ⟨_, hcontent, hread⟩ := ofJson?_of_tagged h (by decide)
    obtain ⟨_, _, hop, ho⟩ := hcontent.field "op" rfl (by decide)
    obtain ⟨_, _, hleft, hl⟩ := hcontent.field "left" rfl (by decide)
    obtain ⟨_, _, hright, hr⟩ := hcontent.field "right" rfl (by decide)
    cases ho.of_str
    rw [hread, ofKind?, if_neg (unit?_tagged_ne (by decide))]
    simp [Json.tagged, variant?, hop, hleft, hright, BinaryOp.ofJson?_tag,
      ofJson?_of_relaxes left hl, ofJson?_of_relaxes right hr]
  | ternary cond onTrue onFalse s =>
    obtain ⟨_, hcontent, hread⟩ := ofJson?_of_tagged h (by decide)
    obtain ⟨_, _, hcond, hc⟩ := hcontent.field "cond" rfl (by decide)
    obtain ⟨_, _, htrue, ht⟩ := hcontent.field "then_expr" rfl (by decide)
    obtain ⟨_, _, hfalse, hf⟩ := hcontent.field "else_expr" rfl (by decide)
    rw [hread, ofKind?, if_neg (unit?_tagged_ne (by decide))]
    simp [Json.tagged, variant?, hcond, htrue, hfalse, ofJson?_of_relaxes cond hc,
      ofJson?_of_relaxes onTrue ht, ofJson?_of_relaxes onFalse hf]
  | index base keys s =>
    obtain ⟨_, hcontent, hread⟩ := ofJson?_of_tagged h (by decide)
    obtain ⟨_, _, hbase, hb⟩ := hcontent.field "base" rfl (by decide)
    obtain ⟨_, _, hkeys, hk⟩ := hcontent.field "keys" rfl (by decide)
    obtain ⟨_, rfl, hks⟩ := hk.of_arr
    rw [hread, ofKind?, if_neg (unit?_tagged_ne (by decide))]
    simp [Json.tagged, variant?, hbase, hkeys, items?, ofJson?_of_relaxes base hb,
      ofJsons?_of_relaxes keys hks]
  | call func args s =>
    obtain ⟨_, hcontent, hread⟩ := ofJson?_of_tagged h (by decide)
    obtain ⟨_, _, hfunc, hf⟩ := hcontent.field_of_ne_null "func" rfl (fun _ h => by cases h)
    obtain ⟨_, _, hargs, ha⟩ := hcontent.field "args" rfl (by decide)
    obtain ⟨_, rfl, has⟩ := ha.of_arr
    cases hf.of_str
    rw [hread, ofKind?, if_neg (unit?_tagged_ne (by decide))]
    simp [Json.tagged, variant?, hfunc, hargs, items?, text?, ofJsons?_of_relaxes args has]
  | agg name keys func s =>
    obtain ⟨_, hcontent, hread⟩ := ofJson?_of_tagged h (by decide)
    obtain ⟨_, _, hname, hn⟩ := hcontent.field "name" rfl (by decide)
    obtain ⟨_, _, hkeys, hk⟩ := hcontent.field "keys" rfl (by decide)
    obtain ⟨_, rfl, hks⟩ := hk.of_arr
    cases hn.of_str
    rw [hread, ofKind?, if_neg (unit?_tagged_ne (by decide))]
    -- Only here may a field of a form be missing; a function that is there is not null.
    cases func with
    | none =>
      have hfunc := hcontent.present?_eq_none "func" rfl
      simp [Json.tagged, variant?, hname, hkeys, hfunc, items?, text?,
        ofJsons?_of_relaxes keys hks]
    | some func =>
      obtain ⟨_, _, hfunc, hf⟩ := hcontent.field_of_ne_null "func" rfl
        (fun _ => ne_null_of_relaxes (.same func.toJson))
      have hpresent := present?_of_field hfunc (ne_null_of_relaxes hf)
      simp [Json.tagged, variant?, hname, hkeys, hpresent, items?, text?,
        ofJsons?_of_relaxes keys hks, ofJson?_of_relaxes func hf]
  | inline name body s =>
    obtain ⟨_, hcontent, hread⟩ := ofJson?_of_tagged h (by decide)
    obtain ⟨_, _, hname, hn⟩ := hcontent.field "name" rfl (by decide)
    obtain ⟨_, _, hbody, hb⟩ := hcontent.field "body" rfl (by decide)
    cases hn.of_str
    rw [hread, ofKind?, if_neg (unit?_tagged_ne (by decide))]
    simp [Json.tagged, variant?, hname, hbody, text?, ofJson?_of_relaxes body hb]
  | placeholder s =>
    obtain ⟨_, hkind, hread⟩ := ofJson?_of_node h
    cases hkind.of_str
    have hunit : (Json.str "Error").unit? = some "Error" := rfl
    rw [hread, ofKind?, if_pos hunit]

/-- A list of expressions is read back item by item. -/
theorem ofJsons?_of_relaxes (es : List Expr) {js : List Json}
    (h : RelaxesList (toJsons es) js) : ofJsons? js = some es := by
  cases es with
  | nil =>
    cases h with
    | nil => rw [ofJsons?]
  | cons e es =>
    cases h with
    | cons he hes =>
      rw [ofJsons?]
      simp [ofJson?_of_relaxes e he, ofJsons?_of_relaxes es hes]
end

theorem roundTrips : RoundTrips toJson ofJson? :=
  .of_relaxes fun e _ h => ofJson?_of_relaxes e h

end Expr

namespace Stmt

mutual
/-- By recursion on the statement; the three kinds are told apart by their tags. -/
theorem ofJson?_of_relaxes (st : Stmt) {j : Json} (h : Relaxes st.toJson j) :
    ofJson? j = some st := by
  cases st with
  | expr e =>
    obtain ⟨_, rfl, hcontent⟩ := h.of_tagged (by decide)
    rw [ofJson?]
    simp [Json.tagged, variant?, (Expr.roundTrips e).2 _ hcontent]
  | branch cond onTrue onFalse s =>
    obtain ⟨_, rfl, hcontent⟩ := h.of_tagged (by decide)
    obtain ⟨_, _, hcond, hc⟩ := hcontent.field "cond" rfl (by decide)
    obtain ⟨_, _, htrue, ht⟩ := hcontent.field "then_body" rfl (by decide)
    obtain ⟨_, _, hfalse, hf⟩ := hcontent.field "else_body" rfl (by decide)
    obtain ⟨_, _, hspan, hs⟩ := hcontent.field "span" rfl (by decide)
    obtain ⟨_, rfl, hts⟩ := ht.of_arr
    obtain ⟨_, rfl, hfs⟩ := hf.of_arr
    rw [ofJson?]
    simp [Json.tagged, variant?, hcond, htrue, hfalse, hspan, items?,
      (Expr.roundTrips cond).2 _ hc, (Span.roundTrips s).2 _ hs,
      ofJsons?_of_relaxes onTrue hts, ofJsons?_of_relaxes onFalse hfs]
  | loop cond maxIter body s =>
    obtain ⟨_, rfl, hcontent⟩ := h.of_tagged (by decide)
    obtain ⟨_, _, hcond, hc⟩ := hcontent.field "cond" rfl (by decide)
    obtain ⟨_, _, hiter, hi⟩ := hcontent.field "max_iter" rfl (by decide)
    obtain ⟨_, _, hbody, hb⟩ := hcontent.field "body" rfl (by decide)
    obtain ⟨_, _, hspan, hs⟩ := hcontent.field "span" rfl (by decide)
    obtain ⟨_, rfl, hbs⟩ := hb.of_arr
    cases hi.of_nat
    rw [ofJson?]
    simp [Json.tagged, variant?, hcond, hiter, hbody, hspan, items?, uint32?_nat,
      (Expr.roundTrips cond).2 _ hc, (Span.roundTrips s).2 _ hs, ofJsons?_of_relaxes body hbs]

/-- A list of statements is read back item by item. -/
theorem ofJsons?_of_relaxes (sts : List Stmt) {js : List Json}
    (h : RelaxesList (toJsons sts) js) : ofJsons? js = some sts := by
  cases sts with
  | nil =>
    cases h with
    | nil => rw [ofJsons?]
  | cons st sts =>
    cases h with
    | cons hst hsts =>
      rw [ofJsons?]
      simp [ofJson?_of_relaxes st hst, ofJsons?_of_relaxes sts hsts]
end

theorem roundTrips : RoundTrips toJson ofJson? :=
  .of_relaxes fun st _ h => ofJson?_of_relaxes st h

end Stmt

/-- A predicate is read, or found to be missing, wherever it stands. -/
theorem Clause.predicate_of_relaxes (c : Clause) {j : Json} (h : Relaxes c.toJson j) :
    Expr.optionOfJson? ((j.field? "predicate").map Subtype.val) = some c.predicate := by
  obtain ⟨probes, predicate, actions, s⟩ := c
  cases predicate with
  | none =>
    rcases h.field_null "predicate" rfl with hnull | hnone
    · rw [hnull]
      rfl
    · rw [hnone]
      rfl
  | some e =>
    obtain ⟨v, _, hpredicate, hp⟩ := h.field_of_ne_null "predicate" rfl
      (fun _ => Expr.ne_null_of_relaxes (.same e.toJson))
    have hv : v ≠ .null := Expr.ne_null_of_relaxes hp
    rw [hpredicate]
    simp [Expr.optionOfJson?, (Expr.roundTrips e).2 _ hp]

/-- A clause is read back from its four fields; a predicate that is absent may be left
    out. -/
theorem Clause.roundTrips : RoundTrips Clause.toJson Clause.ofJson? := by
  refine .of_relaxes fun c j h => ?_
  obtain ⟨_, _, hprobes, hp⟩ := h.field "probes" rfl (by decide)
  obtain ⟨_, _, hactions, ha⟩ := h.field "actions" rfl (by decide)
  obtain ⟨_, _, hspan, hs⟩ := h.field "span" rfl (by decide)
  obtain ⟨_, rfl, has⟩ := ha.of_arr
  simp only [Clause.ofJson?, h.recordField?_eq, c.predicate_of_relaxes h]
  simp [hprobes, hactions, hspan, items?, Probe.roundTrips.listOf? hp,
    Stmt.ofJsons?_of_relaxes c.actions has, (Span.roundTrips c.span).2 _ hs]

/-- A program is read back from the list of its clauses. -/
theorem Program.roundTrips : RoundTrips Program.toJson Program.ofJson? := by
  refine .of_relaxes fun p j h => ?_
  obtain ⟨_, _, hclauses, hc⟩ := h.field "clauses" rfl (by decide)
  simp [Program.ofJson?, h.recordField?_eq, hclauses, Clause.roundTrips.listOf? hc]

/-- Spans, probe descriptions, expressions, statements, clauses and programs are read
    back from what they are written as, and from each variant of it. -/
theorem Json.script_roundTrips :
    RoundTrips Span.toJson Span.ofJson? ∧ RoundTrips Probe.toJson Probe.ofJson? ∧
      RoundTrips Expr.toJson Expr.ofJson? ∧ RoundTrips Stmt.toJson Stmt.ofJson? ∧
      RoundTrips Clause.toJson Clause.ofJson? ∧ RoundTrips Program.toJson Program.ofJson? :=
  ⟨Span.roundTrips, Probe.roundTrips, Expr.roundTrips, Stmt.roundTrips, Clause.roundTrips,
    Program.roundTrips⟩

/-- A program with members that no field has the name of, without the predicate of its
    clause and without the function of the aggregation in it. -/
theorem Json.script_roundTrips_lenient :
    Program.ofJson?
        (obj [("version", nat 2), ("clauses", arr [obj [("span", Span.nowhere.toJson),
          ("probes", arr []), ("actions", arr [tagged "Expr"
            (obj [("kind", tagged "Agg" (obj [("name", str "reads"), ("keys", arr [])])),
              ("comment", null), ("span", Span.nowhere.toJson)])])]])]) =
      some ⟨[⟨[], none, [.expr (.agg "reads" [] none .nowhere)], .nowhere⟩]⟩ := by
  obtain ⟨-, -, -, -, -, hprogram⟩ := script_roundTrips
  have hagg : Relaxes (obj [("name", str "reads"), ("keys", arr []), ("func", null)])
      (obj [("name", str "reads"), ("keys", arr [])]) :=
    .record (by decide)
      (.keep "name" (.same _) (.keep "keys" (.same _) (.drop (by decide) .nil))) (.refl _)
  have hnode : Relaxes (Expr.agg "reads" [] none .nowhere).toJson
      (obj [("kind", tagged "Agg" (obj [("name", str "reads"), ("keys", arr [])])),
        ("comment", null), ("span", Span.nowhere.toJson)]) :=
    .record (by decide) (.keep "kind" (.tagged "Agg" hagg) (.keep "span" (.same _) .nil)) (.refl _)
  refine (hprogram _).2 _
    (.record (by decide) (.keep "clauses" (.arr (.cons ?_ .nil)) .nil) (.refl _))
  exact .record (by decide)
    (.keep "probes" (.same _) (.drop (by decide)
      (.keep "actions" (.arr (.cons (.tagged "Expr" hnode) .nil)) (.keep "span" (.same _) .nil))))
    (@List.perm_append_comm _ [_] [_, _])

end ProbeLang
