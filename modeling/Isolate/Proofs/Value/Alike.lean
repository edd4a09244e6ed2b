import Isolate.Machine.Operators
import Isolate.Proofs.Context.Isomorphism
import Isolate.Proofs.Value.Key
import Mathlib.Data.List.Forall2

/-!
# Computing with like values

What scripts compute from like values is like, whatever the handles of their
objects are, as long as handles are paired one to one.  References are compared
and used as keys, and nothing else is done with a handle.
-/

namespace Isolate

/-- Every handle has at most one partner. -/
structure OneToOne (pairs : Handle → Handle → Prop) : Prop where
  functional : ∀ left right right', pairs left right → pairs left right' →
    right = right'
  injective : ∀ left left' right, pairs left right → pairs left' right →
    left = left'

theorem OneToOne.flip {pairs : Handle → Handle → Prop} (h : OneToOne pairs) :
    OneToOne fun right left => pairs left right :=
  ⟨fun _ _ _ hpair hpair' => h.injective _ _ _ hpair hpair',
    fun _ _ _ hpair hpair' => h.functional _ _ _ hpair hpair'⟩

/-- Keys of like values. -/
def Key.Alike (pairs : Handle → Handle → Prop) (key other : Key) : Prop :=
  key.toValue.Alike pairs other.toValue

namespace Value

variable {pairs : Handle → Handle → Prop}
  {left left' right right' value other : Value}

namespace Alike

theorem mono {pairs' : Handle → Handle → Prop} (h : value.Alike pairs other)
    (himp : ∀ left right, pairs left right → pairs' left right) :
    value.Alike pairs' other := by
  cases h with
  | plain h => exact .plain h
  | table h => exact .table (himp _ _ h)
  | function h => exact .function (himp _ _ h)
  | userdata h => exact .userdata (himp _ _ h)

theorem kindName_eq (h : value.Alike pairs other) :
    value.kindName = other.kindName := by
  cases h <;> rfl

theorem truthy_eq (h : value.Alike pairs other) :
    value.truthy = other.truthy := by
  cases h <;> rfl

theorem isNil_eq (h : value.Alike pairs other) : value.isNil = other.isNil := by
  cases h <;> rfl

theorem eq_of_left (hpairs : OneToOne pairs) (h : value.Alike pairs right)
    (h' : value.Alike pairs right') : right = right' := by
  cases h with
  | plain hplain =>
    cases h' with
    | plain => rfl
    | _ => cases hplain
  | table hpair =>
    cases h' with
    | plain hplain => cases hplain
    | table hpair' => rw [hpairs.functional _ _ _ hpair hpair']
  | function hpair =>
    cases h' with
    | plain hplain => cases hplain
    | function hpair' => rw [hpairs.functional _ _ _ hpair hpair']
  | userdata hpair =>
    cases h' with
    | plain hplain => cases hplain
    | userdata hpair' => rw [hpairs.functional _ _ _ hpair hpair']

/-- Like values are equal on one side if they are on the other. -/
theorem eq_iff (hpairs : OneToOne pairs) (h : left.Alike pairs left')
    (h' : right.Alike pairs right') : left = right ↔ left' = right' := by
  constructor
  · rintro rfl
    exact h.eq_of_left hpairs h'
  · rintro rfl
    exact h.symm.eq_of_left hpairs.flip h'.symm

theorem stringOrNumberText?_eq (h : value.Alike pairs other) :
    value.stringOrNumberText? = other.stringOrNumberText? := by
  cases h <;> rfl

theorem arithmetic_eq (op : Arithmetic)
    (onIntegers : Option (Int64 → Int64 → Int64))
    (onFloats : Binary64 → Binary64 → Binary64) (h : left.Alike pairs left')
    (h' : right.Alike pairs right') :
    arithmetic op onIntegers onFloats left right =
      arithmetic op onIntegers onFloats left' right' := by
  cases h with
  | plain =>
    cases h' with
    | plain => rfl
    | _ => cases left <;> rfl
  | _ => cases h' <;> rfl

theorem concat_eq (h : left.Alike pairs left') (h' : right.Alike pairs right') :
    concat left right = concat left' right' := by
  simp only [concat, mismatch]
  rw [h.stringOrNumberText?_eq, h'.stringOrNumberText?_eq, h.kindName_eq,
    h'.kindName_eq]

theorem negate_eq (h : value.Alike pairs other) :
    value.negate = other.negate := by
  cases h <;> rfl

theorem lessThan_eq (h : left.Alike pairs left')
    (h' : right.Alike pairs right') :
    lessThan left right = lessThan left' right' := by
  cases h with
  | plain =>
    cases h' with
    | plain => rfl
    | _ => cases left <;> rfl
  | _ => cases h' <;> rfl

theorem rawEqual_of_handle {left right : Value}
    (h : left.handle?.isSome = true ∨ right.handle?.isSome = true) :
    left.rawEqual right = decide (left = right) := by
  cases left with
  | integer | float => cases right <;> first | rfl | simp [handle?] at h
  | _ => rfl

theorem rawEqual_eq (hpairs : OneToOne pairs) (h : left.Alike pairs left')
    (h' : right.Alike pairs right') :
    left.rawEqual right = left'.rawEqual right' := by
  have hiff := h.eq_iff hpairs h'
  cases h with
  | plain =>
    cases h' with
    | plain => rfl
    | _ =>
      rw [rawEqual_of_handle (Or.inr rfl), rawEqual_of_handle (Or.inr rfl)]
      exact decide_eq_decide.2 hiff
  | _ =>
    rw [rawEqual_of_handle (Or.inl rfl), rawEqual_of_handle (Or.inl rfl)]
    exact decide_eq_decide.2 hiff

theorem key? (h : value.Alike pairs other) :
    Option.Rel (Key.Alike pairs) value.key? other.key? := by
  cases h with
  | plain h =>
    cases hkey : value.key? with
    | none => exact .none
    | some key =>
      refine .some (.plain ?_)
      cases value with
      | table => cases h
      | function => cases h
      | userdata => cases h
      | nil => cases hkey
      | float x =>
        simp only [Value.key?] at hkey
        split at hkey
        · cases hkey
        · split at hkey <;> cases hkey <;> rfl
      | _ =>
        cases hkey
        rfl
  | table h => exact .some (.table h)
  | function h => exact .some (.function h)
  | userdata h => exact .some (.userdata h)

end Alike

end Value

/-! ## Tables -/

/-- Bindings of like keys to like values. -/
def Binding.Alike (pairs : Handle → Handle → Prop)
    (entry other : Key × Value) : Prop :=
  entry.1.Alike pairs other.1 ∧ entry.2.Alike pairs other.2

/-- Tables with like bindings in one order. -/
def Table.Alike (pairs : Handle → Handle → Prop) (table other : Table) : Prop :=
  List.Forall₂ (Binding.Alike pairs) table.entries other.entries

section Tables

variable {pairs : Handle → Handle → Prop} {table table' : Table}
  {key key' : Key} {value value' : Value}

theorem Key.Alike.eq_iff (hpairs : OneToOne pairs) {other other' : Key}
    (h : key.Alike pairs key') (h' : other.Alike pairs other') :
    key = other ↔ key' = other' := by
  have hiff := Value.Alike.eq_iff hpairs h h'
  exact ⟨fun heq => toValue_injective (hiff.1 (congrArg toValue heq)),
    fun heq => toValue_injective (hiff.2 (congrArg toValue heq))⟩

namespace Table.Alike

theorem mono {pairs' : Handle → Handle → Prop} (h : table.Alike pairs table')
    (himp : ∀ left right, pairs left right → pairs' left right) :
    table.Alike pairs' table' :=
  List.Forall₂.imp (fun _ _ hentry =>
    ⟨hentry.1.mono himp, hentry.2.mono himp⟩) h

theorem empty : Table.Alike pairs .empty .empty := .nil

variable (hpairs : OneToOne pairs) (h : table.Alike pairs table')
include hpairs h

theorem find? (hkey : key.Alike pairs key') :
    Option.Rel (Value.Alike pairs) (table.find? key) (table'.find? key') := by
  have hentries :
      List.Forall₂ (Binding.Alike pairs) table.entries table'.entries := h
  simp only [Table.find?]
  generalize table.entries = entries at hentries ⊢
  generalize table'.entries = others at hentries ⊢
  induction hentries with
  | nil => exact .none
  | @cons entry other entries others hentry _ ih =>
    have hiff := hkey.eq_iff hpairs hentry.1
    rw [List.lookup_cons, List.lookup_cons]
    by_cases heq : key = entry.1
    · rw [beq_iff_eq.2 heq, beq_iff_eq.2 (hiff.1 heq)]
      exact .some hentry.2
    · rw [beq_eq_false_iff_ne.2 heq,
        beq_eq_false_iff_ne.2 fun heq' => heq (hiff.2 heq')]
      exact ih

theorem get (hkey : key.Alike pairs key') :
    (table.get key).Alike pairs (table'.get key') := by
  have hfound := find? hpairs h hkey
  simp only [Table.get]
  generalize table.find? key = found at hfound ⊢
  generalize table'.find? key' = found' at hfound ⊢
  cases hfound with
  | none => exact .plain rfl
  | some hvalue => exact hvalue

theorem set (hkey : key.Alike pairs key') (hvalue : value.Alike pairs value') :
    (table.set key value).Alike pairs (table'.set key' value') := by
  have herased : (table.erase key).Alike pairs (table'.erase key') := by
    refine List.rel_filter (fun entry other hentry => ?_) h
    change decide (entry.1 ≠ key) = true ↔ decide (other.1 ≠ key') = true
    rw [decide_eq_true_iff, decide_eq_true_iff]
    exact not_congr (hentry.1.eq_iff hpairs hkey)
  have hnil : value = .nil ↔ value' = .nil := by
    rw [← Value.isNil_iff, ← Value.isNil_iff, hvalue.isNil_eq]
  by_cases hvalueNil : value = .nil
  · rw [Table.set, Table.set, dif_pos hvalueNil, dif_pos (hnil.1 hvalueNil)]
    exact herased
  · rw [Table.set, Table.set, dif_neg hvalueNil,
      dif_neg fun heq => hvalueNil (hnil.2 heq)]
    exact .cons ⟨hkey, hvalue⟩ herased

theorem border_eq : table.border = table'.border := by
  have hcontains :
      ∀ i, table.contains (.integer i) = table'.contains (.integer i) := by
    intro i
    have hkey : Key.Alike pairs (.integer i) (.integer i) := .plain rfl
    have hfound := find? hpairs h hkey
    simp only [contains]
    generalize table.find? (.integer i) = found at hfound ⊢
    generalize table'.find? (.integer i) = found' at hfound ⊢
    cases hfound <;> rfl
  have hfrom :
      ∀ steps n, table.borderFrom steps n = table'.borderFrom steps n := by
    intro steps
    induction steps with
    | zero => exact fun _ => rfl
    | succ steps ih =>
      intro n
      rw [borderFrom, borderFrom, hcontains, ih]
  rw [border, border, size, size, List.Forall₂.length_eq h, hfrom]

end Table.Alike

end Tables

end Isolate
