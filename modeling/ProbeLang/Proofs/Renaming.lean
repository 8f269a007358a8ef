import Mathlib.Data.List.Basic
import ProbeLang.Proofs.Names

/-! # Renaming identifiers

    To rename an expression is to walk it and to give each identifier another name.
    Nothing else about it changes, and where no name changes nothing does
    (`Expr.rename_eq_self`).

    Slots that are kept from one firing to the next have numbers in their names.
    `Ids.rename` puts the numbers that follow on what has been handed out at one time in
    the place of those that follow on what has been at another.  With room for them on
    both sides it takes each slot to its counterpart (`Ids.rename_entry`,
    `Ids.rename_callers`), and it leaves all other names (`Ids.sparesLocals_rename`). -/

namespace ProbeLang

/-- A renaming that leaves all names alone that are not reserved. -/
def Slot.SparesOthers (ρ : String → String) : Prop :=
  ∀ {name : String}, isReserved name = false → ρ name = name

/-! ## Expressions -/

namespace Expr

variable {ρ : String → String} {e : Expr} {ps : List Expr}

/-- Gives each identifier another name. -/
def renameStep (ρ : String → String) : WalkStep Unit
  | ident name s, _ => some (ident (ρ name) s, ())
  | _, _ => none

/-- The expression with other names for its identifiers. -/
def rename (ρ : String → String) (e : Expr) : Expr := (e.walk (renameStep ρ) ()).1

@[simp] theorem rename_ident (name : String) (s : Span) :
    (ident name s).rename ρ = ident (ρ name) s := rfl

@[simp] theorem rename_int (n : UInt64) (s : Span) : (int n s).rename ρ = int n s := rfl

@[simp] theorem rename_unary (op : UnaryOp) (a : Expr) (s : Span) :
    (unary op a s).rename ρ = unary op (a.rename ρ) s := rfl

@[simp] theorem rename_binary (op : BinaryOp) (a b : Expr) (s : Span) :
    (binary op a b s).rename ρ = binary op (a.rename ρ) (b.rename ρ) s := rfl

/-- Renaming keeps no state, so a list of expressions is renamed one by one. -/
theorem walkList_renameStep (es : List Expr) :
    walkList (renameStep ρ) es () = (es.map (rename ρ), ()) := by
  induction es with
  | nil => rfl
  | cons e es ih => simp only [walkList, ih, List.map_cons, rename]

/-- Subscripts are renamed in their base and in each key. -/
@[simp] theorem rename_index (base : Expr) (keys : List Expr) (s : Span) :
    (index base keys s).rename ρ = index (base.rename ρ) (keys.map (rename ρ)) s := by
  show index (base.rename ρ) (walkList (renameStep ρ) keys ()).1 s = _
  rw [walkList_renameStep]

/-- What is no identifier is renamed part by part. -/
theorem rename_of_identName? (h : e.identName? = none) :
    e.rename ρ = e.rebuild (e.parts.map (rename ρ)) := by
  have hstep : renameStep ρ e () = none := by
    cases e with
    | ident name s => cases h
    | _ => rfl
  rw [rename, walk_of_none hstep, walkList_renameStep]

/-- A node that is no name may be renamed before or after other parts are put into it. -/
theorem rename_rebuild (h : e.identName? = none) (hps : ps.length = e.parts.length) :
    (e.rebuild ps).rename ρ = e.rebuild (ps.map (rename ρ)) := by
  have hmap : (ps.map (rename ρ)).length = e.parts.length := (List.length_map _).trans hps
  rw [rename_of_identName? ((identName?_rebuild e ps).trans h), parts_rebuild hps,
    rebuild_rebuild hps hmap]

/-- Renaming moves nothing. -/
@[simp] theorem span_rename (ρ : String → String) (e : Expr) : (e.rename ρ).span = e.span := by
  cases e <;> rfl

/-- Without a reserved name in it, an expression stays as it is. -/
theorem rename_eq_self (hρ : Slot.SparesOthers ρ)
    (he : e.Unreserved) : e.rename ρ = e := by
  induction e using inductionOnParts with
  | node e ih =>
      cases e with
      | ident name s =>
          have hname := he _ (self_mem_nodes _)
          have hfree : Slot.isReserved name = false := by
            simpa [reservedName?, identName?, Option.filter] using hname
          rw [rename_ident, hρ hfree]
      | _ =>
          rw [rename_of_identName? rfl,
            List.map_congr_left fun p hp => ih p hp (he.of_mem_parts hp), List.map_id',
            rebuild_parts]

end Expr

/-! ## Statements and clauses -/

/-- The statement with other names for its identifiers. -/
def Stmt.rename (ρ : String → String) (stmt : Stmt) : Stmt :=
  (stmt.walk (Expr.renameStep ρ) ()).1

/-- The clause with other names for its identifiers. -/
def Clause.rename (ρ : String → String) (c : Clause) : Clause :=
  (c.walk (Expr.renameStep ρ) ()).1

namespace Stmt

variable {ρ : String → String}

/-- The same for a list of statements. -/
theorem walkList_renameStep (stmts : List Stmt) :
    walkList (Expr.renameStep ρ) stmts () = (stmts.map (rename ρ), ()) := by
  induction stmts with
  | nil => rfl
  | cons stmt stmts ih => simp only [walkList, ih, List.map_cons, rename]

@[simp] theorem rename_expr (e : Expr) : (expr e).rename ρ = expr (e.rename ρ) := rfl

/-- A branch is renamed in its test and in both bodies. -/
@[simp] theorem rename_branch (cond : Expr) (onTrue onFalse : List Stmt) (s : Span) :
    (branch cond onTrue onFalse s).rename ρ =
      branch (cond.rename ρ) (onTrue.map (rename ρ)) (onFalse.map (rename ρ)) s := by
  show branch (cond.rename ρ) (walkList (Expr.renameStep ρ) onTrue ()).1
    (walkList (Expr.renameStep ρ) onFalse ()).1 s = _
  rw [walkList_renameStep, walkList_renameStep]

/-- A loop is renamed in its test and in its body, and runs as often. -/
@[simp] theorem rename_loop (cond : Expr) (maxIter : UInt32) (body : List Stmt) (s : Span) :
    (loop cond maxIter body s).rename ρ = loop (cond.rename ρ) maxIter (body.map (rename ρ)) s := by
  show loop (cond.rename ρ) maxIter (walkList (Expr.renameStep ρ) body ()).1 s = _
  rw [walkList_renameStep]

/-- Renaming keeps the form of a statement, so that expansion makes the same choices on
    both sides. -/
@[simp] theorem isStructured_rename (stmt : Stmt) :
    (stmt.rename ρ).isStructured = stmt.isStructured := by
  cases stmt <;> rfl

@[simp] theorem span_rename (stmt : Stmt) : (stmt.rename ρ).span = stmt.span := by
  cases stmt with
  | expr e => exact e.span_rename ρ
  | _ => rfl

end Stmt

/-- A clause is renamed in its predicate and its actions; its probes are no expressions. -/
theorem Clause.rename_eq (ρ : String → String) (c : Clause) :
    c.rename ρ = ⟨c.probes, c.predicate.map (Expr.rename ρ), c.actions.map (Stmt.rename ρ),
      c.span⟩ := by
  have hacts : Stmt.walkList (Expr.renameStep ρ) c.actions () = _ :=
    Stmt.walkList_renameStep c.actions
  have hpred : (Expr.walkOption (Expr.renameStep ρ) c.predicate ()).1 =
      c.predicate.map (Expr.rename ρ) := by
    cases c.predicate <;> rfl
  show (⟨c.probes, (Expr.walkOption (Expr.renameStep ρ) c.predicate ()).1,
    (Stmt.walkList (Expr.renameStep ρ) c.actions ()).1, c.span⟩ : Clause) = _
  rw [hacts, hpred]

/-! ## Slots with other numbers -/

namespace Text

/-- The number that a text is in decimal, without zeros before it. -/
def decimal? (cs : List Char) : Option Nat :=
  if Nat.toDigits 10 (Nat.ofDigitChars 10 cs 0) = cs then some (Nat.ofDigitChars 10 cs 0) else none

/-- What is printed as a number is read as that number. -/
theorem decimal?_toDigits (n : Nat) : decimal? (Nat.toDigits 10 n) = some n := by
  simp [decimal?, Nat.ofDigitChars_ten_toDigits]

end Text

/-- A renaming that leaves all names alone but those of slots that outlive a firing. -/
structure Slot.SparesLocals (ρ : String → String) : Prop where
  others : SparesOthers ρ
  error : ρ Slot.error.name = Slot.error.name
  condition : ∀ id, ρ (Slot.condition id).name = (Slot.condition id).name

namespace Ids

/-- The name with the number of the first group after `b` for that of the first one
    after `a`, if it is that of a captured value with this group. -/
def renameCaptured? (a b : Ids) (name : String) : Option String :=
  (((Slot.mark ++ "entry_").toList.isPrefixOf? name.toList).bind
    ("_" ++ toString (a.groups.toNat + 1)).toList.isSuffixOf?).map fun field =>
      Slot.mark ++ "entry_" ++ String.ofList field ++ "_" ++ toString (b.groups.toNat + 1)

/-- The name with a number after `b` for one after `a`, if it is that of a counter. -/
def renameCounter? (a b : Ids) (name : String) : Option String :=
  (((Slot.mark ++ "callers_").toList.isPrefixOf? name.toList).bind Text.decimal?).bind fun n =>
    if a.counters.toNat < n then
      some (Slot.mark ++ "callers_" ++ toString (b.counters.toNat + (n - a.counters.toNat)))
    else none

/-- The name with what has been handed out after `b` for what has been after `a`; any
    other name stays. -/
def rename (a b : Ids) (name : String) : String :=
  ((renameCaptured? a b name).or (renameCounter? a b name)).getD name

/-- The renaming looks at nothing but captured values and counters. -/
theorem sparesLocals_rename (a b : Ids) : Slot.SparesLocals (a.rename b) where
  others := by
    intro name hname
    have hlead : ∀ kind, (Slot.mark ++ kind).toList.isPrefixOf? name.toList = none := by
      intro kind
      cases h : (Slot.mark ++ kind).toList.isPrefixOf? name.toList with
      | none => rfl
      | some rest =>
          have hreserved : Slot.isReserved name = true :=
            Slot.isReserved_iff.mpr ⟨kind.toList ++ rest, by
              rw [← List.isPrefixOf?_eq_some_iff_append_eq.mp h, String.toList_append,
                List.append_assoc]⟩
          rw [hname] at hreserved
          cases hreserved
    rw [rename, renameCaptured?, renameCounter?, hlead, hlead]
    rfl
  error := by
    simp [rename, renameCaptured?, renameCounter?, Slot.name, Slot.mark, List.isPrefixOf?]
  condition := by
    intro id
    simp [rename, renameCaptured?, renameCounter?, Slot.name, Slot.mark, List.isPrefixOf?]

section Room

variable {a b : Ids} {groups counters : Nat} (ha : a.HasRoom groups counters)
  (hb : b.HasRoom groups counters)

include ha hb

/-- The slots of the next group get the number of the other next group. -/
theorem rename_entry (hgroups : 0 < groups) (f : EntryField) :
    a.rename b (Slot.entry f (a.groups + 1)).name = (Slot.entry f (b.groups + 1)).name := by
  have hnext : (a.groups + 1).toNat = a.groups.toNat + 1 :=
    (ha.mono hgroups (Nat.zero_le _)).toNat_groups
  have hnext' : (b.groups + 1).toNat = b.groups.toNat + 1 :=
    (hb.mono hgroups (Nat.zero_le _)).toNat_groups
  have hlead : (Slot.mark ++ "entry_").toList.isPrefixOf?
      (Slot.entry f (a.groups + 1)).name.toList =
        some (f.name.toList ++ ("_" ++ toString (a.groups.toNat + 1)).toList) :=
    List.isPrefixOf?_eq_some_iff_append_eq.mpr (by simp [Slot.name, hnext])
  have htail : ("_" ++ toString (a.groups.toNat + 1)).toList.isSuffixOf?
      (f.name.toList ++ ("_" ++ toString (a.groups.toNat + 1)).toList) = some f.name.toList :=
    List.isSuffixOf?_eq_some_iff_append_eq.mpr rfl
  rw [rename, renameCaptured?, hlead, Option.bind_some, htail, Option.map_some,
    String.ofList_toList, ← hnext']
  rfl

/-- A counter gets the number that is as far after `b` as its own one is after `a`. -/
theorem rename_callers {n : Nat} (hpos : 0 < n) (hle : n ≤ counters) :
    a.rename b (Slot.callers (a.counters + UInt32.ofNat n)).name =
      (Slot.callers (b.counters + UInt32.ofNat n)).name := by
  have hid : (a.counters + UInt32.ofNat n).toNat = a.counters.toNat + n :=
    (ha.mono (Nat.zero_le _) hle).toNat_counters
  have hid' : (b.counters + UInt32.ofNat n).toNat = b.counters.toNat + n :=
    (hb.mono (Nat.zero_le _) hle).toNat_counters
  have hlead : (Slot.mark ++ "callers_").toList.isPrefixOf?
      (Slot.callers (a.counters + UInt32.ofNat n)).name.toList =
        some (Nat.toDigits 10 (a.counters.toNat + n)) :=
    List.isPrefixOf?_eq_some_iff_append_eq.mpr (by simp [Slot.name, hid])
  have hentry :
      renameCaptured? a b (Slot.callers (a.counters + UInt32.ofNat n)).name = none := by
    simp [renameCaptured?, Slot.name, Slot.mark, List.isPrefixOf?]
  have hlt : a.counters.toNat < a.counters.toNat + n := Nat.lt_add_of_pos_right hpos
  rw [rename, hentry, renameCounter?, hlead, Option.bind_some, Text.decimal?_toDigits,
    Option.bind_some, if_pos hlt, Nat.add_sub_cancel_left, ← hid']
  rfl

end Room

end Ids

namespace Slot.SparesLocals

variable {ρ : String → String} (hρ : SparesLocals ρ)

include hρ

/-- A slot is renamed through its name. -/
theorem storage {slot slot' : Slot} (hname : ρ slot.name = slot'.name)
    (hscope : slot'.scope = slot.scope) (s : Span) :
    (slot.storage s).rename ρ = slot'.storage s := by
  have hkept : ρ slot.scope = slot.scope := hρ.others slot.isReserved_scope
  show Expr.binary .ptr (.ident (ρ slot.scope) s) (.ident (ρ slot.name) s) s = _
  rw [hkept, hname, ← hscope]
  rfl

/-- The flag is told by its name alone, which is spared. -/
theorem errorFlag (s : Span) : (Slot.error.expr s).rename ρ = Slot.error.expr s :=
  hρ.storage hρ.error rfl s

/-- So is a condition. -/
theorem conditionExpr (id : ConditionId) (s : Span) :
    ((Slot.condition id).expr s).rename ρ = (Slot.condition id).expr s :=
  hρ.storage (hρ.condition id) rfl s

/-- A reference to a captured value follows its name; the depth it is indexed by is the
    script's own variable. -/
theorem entryExpr {f : EntryField} {group group' : UInt32}
    (hname : ρ (Slot.entry f group).name = (Slot.entry f group').name) (s : Span) :
    ((Slot.entry f group).expr s).rename ρ = (Slot.entry f group').expr s := by
  have hdepth : ρ "stackdepth" = "stackdepth" := hρ.others rfl
  show (Expr.index ((Slot.entry f group).storage s) [.ident "stackdepth" s] s).rename ρ = _
  rw [Expr.rename_index, hρ.storage hname rfl, List.map_singleton, Expr.rename_ident, hdepth]
  rfl

/-- So does a reference to a counter. -/
theorem callersExpr {id id' : UInt32}
    (hname : ρ (Slot.callers id).name = (Slot.callers id').name) (s : Span) :
    ((Slot.callers id).expr s).rename ρ = (Slot.callers id').expr s :=
  hρ.storage hname rfl s

end Slot.SparesLocals

end ProbeLang
