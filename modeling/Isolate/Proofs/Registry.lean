import Isolate.Registry

/-!
# Pins

In a well-formed registry the free slots are empty and different from each
other, so a new pin takes no slot of another one, and a release frees its own
slot only.
-/

namespace Isolate.Registry

/-- The free slots are empty and different. -/
structure WellFormed (registry : Registry) : Prop where
  empty : ∀ slot ∈ registry.free, registry.slots[slot]? = some none
  nodup : registry.free.Nodup

variable {registry : Registry} {value : Value} {p q : Pin}

theorem get?_eq_some_iff {found : Value} :
    registry.get? p = some found ↔
      registry.slots[p.slot]? = some (some found) := by
  simp [get?, Option.join_eq_some_iff]

theorem pin_of_nil (h : registry.free = []) :
    registry.pin value =
      (⟨registry.slots.size⟩,
        { slots := registry.slots.push (some value), free := [] }) := by
  simp only [Registry.pin]
  rw [h]

theorem pin_of_cons {slot : Nat} {rest : List Nat}
    (h : registry.free = slot :: rest) :
    registry.pin value =
      (⟨slot⟩, {
        slots := registry.slots.setIfInBounds slot (some value)
        free := rest }) := by
  simp only [Registry.pin]
  rw [h]

theorem WellFormed.get?_pin_self (h : registry.WellFormed) :
    (registry.pin value).2.get? (registry.pin value).1 = some value := by
  rw [get?_eq_some_iff]
  cases hfree : registry.free with
  | nil =>
    rw [pin_of_nil hfree]
    exact Array.getElem?_push_size
  | cons slot rest =>
    obtain ⟨hlt, -⟩ :=
      Array.getElem?_eq_some_iff.1 (h.empty slot (hfree ▸ List.mem_cons_self))
    rw [pin_of_cons hfree]
    exact Array.getElem?_setIfInBounds_self_of_lt hlt

/-- A new pin leaves the others as they are. -/
theorem WellFormed.get?_pin_of_some (h : registry.WellFormed) {found : Value}
    (hfound : registry.get? q = some found) :
    (registry.pin value).2.get? q = some found := by
  rw [get?_eq_some_iff] at hfound ⊢
  cases hfree : registry.free with
  | nil =>
    obtain ⟨hlt, -⟩ := Array.getElem?_eq_some_iff.1 hfound
    rw [pin_of_nil hfree]
    change (registry.slots.push (some value))[q.slot]? = _
    rw [Array.getElem?_push, if_neg (Nat.ne_of_lt hlt)]
    exact hfound
  | cons slot rest =>
    have hempty := h.empty slot (hfree ▸ List.mem_cons_self)
    rw [pin_of_cons hfree]
    change (registry.slots.setIfInBounds slot (some value))[q.slot]? = _
    rw [Array.getElem?_setIfInBounds_ne]
    · exact hfound
    · rintro rfl
      cases hempty.symm.trans hfound

/-- What is pinned after a pin. -/
theorem get?_pin_eq_some {found : Value}
    (h : (registry.pin value).2.get? q = some found) :
    found = value ∨ registry.get? q = some found := by
  rw [get?_eq_some_iff] at h ⊢
  cases hfree : registry.free with
  | nil =>
    rw [pin_of_nil hfree] at h
    have hslot : (registry.slots.push (some value))[q.slot]? =
        some (some found) := h
    rw [Array.getElem?_push] at hslot
    split at hslot
    · cases hslot
      exact Or.inl rfl
    · exact Or.inr hslot
  | cons slot rest =>
    rw [pin_of_cons hfree] at h
    have hslot : (registry.slots.setIfInBounds slot (some value))[q.slot]? =
        some (some found) := h
    rw [Array.getElem?_setIfInBounds] at hslot
    split at hslot
    · split at hslot
      · cases hslot
        exact Or.inl rfl
      · cases hslot
    · exact Or.inr hslot

theorem WellFormed.pin (h : registry.WellFormed) :
    (registry.pin value).2.WellFormed := by
  cases hfree : registry.free with
  | nil =>
    rw [pin_of_nil hfree]
    exact ⟨nofun, List.nodup_nil⟩
  | cons slot rest =>
    have hnodup := h.nodup
    rw [hfree, List.nodup_cons] at hnodup
    rw [pin_of_cons hfree]
    refine ⟨fun free hmem => ?_, hnodup.2⟩
    change (registry.slots.setIfInBounds slot (some value))[free]? = _
    rw [Array.getElem?_setIfInBounds_ne]
    · exact h.empty free (hfree ▸ List.mem_cons_of_mem slot hmem)
    · rintro rfl
      exact hnodup.1 hmem

/-- A new pin takes a slot that held nothing. -/
theorem WellFormed.get?_pin_before (h : registry.WellFormed) :
    registry.get? (registry.pin value).1 = none := by
  simp only [get?]
  cases hfree : registry.free with
  | nil =>
    rw [pin_of_nil hfree]
    simp
  | cons slot rest =>
    rw [pin_of_cons hfree, h.empty slot (hfree ▸ List.mem_cons_self)]
    rfl

theorem get?_pin_of_ne (hne : q ≠ (registry.pin value).1) :
    (registry.pin value).2.get? q = registry.get? q := by
  simp only [get?]
  cases hfree : registry.free with
  | nil =>
    rw [pin_of_nil hfree] at hne ⊢
    have hslot : q.slot ≠ registry.slots.size :=
      fun heq => hne (congrArg Pin.mk heq)
    dsimp only
    rw [Array.getElem?_push, if_neg hslot]
  | cons slot rest =>
    rw [pin_of_cons hfree] at hne ⊢
    have hslot : slot ≠ q.slot := fun heq => hne (congrArg Pin.mk heq.symm)
    dsimp only
    rw [Array.getElem?_setIfInBounds_ne hslot]

/-! ## Releasing pins -/

theorem unpin_of_some (h : registry.get? p = some value) :
    registry.unpin p =
      { slots := registry.slots.setIfInBounds p.slot none
        free := p.slot :: registry.free } := by
  simp only [unpin]
  rw [h]

theorem unpin_of_none (h : registry.get? p = none) :
    registry.unpin p = registry := by
  simp only [unpin]
  rw [h]

theorem get?_unpin_self : (registry.unpin p).get? p = none := by
  cases hfound : registry.get? p with
  | none => rw [unpin_of_none hfound, hfound]
  | some value =>
    have hlt := (Array.getElem?_eq_some_iff.1 (get?_eq_some_iff.1 hfound)).1
    rw [unpin_of_some hfound, get?]
    dsimp only
    rw [Array.getElem?_setIfInBounds_self_of_lt hlt]
    rfl

theorem get?_unpin_of_ne (hne : q ≠ p) :
    (registry.unpin p).get? q = registry.get? q := by
  cases hfound : registry.get? p with
  | none => rw [unpin_of_none hfound]
  | some value =>
    have hslot : p.slot ≠ q.slot := fun heq => hne (congrArg Pin.mk heq.symm)
    rw [unpin_of_some hfound, get?, get?]
    dsimp only
    rw [Array.getElem?_setIfInBounds_ne hslot]

/-- What is pinned after a release was pinned before. -/
theorem get?_of_get?_unpin (h : (registry.unpin p).get? q = some value) :
    registry.get? q = some value := by
  have hne : q ≠ p := by
    rintro rfl
    cases get?_unpin_self.symm.trans h
  exact (get?_unpin_of_ne hne).symm.trans h

theorem WellFormed.unpin (h : registry.WellFormed) :
    (registry.unpin p).WellFormed := by
  cases hfound : registry.get? p with
  | none =>
    rw [unpin_of_none hfound]
    exact h
  | some value =>
    have hslot := get?_eq_some_iff.1 hfound
    have hlt := (Array.getElem?_eq_some_iff.1 hslot).1
    have hmem : p.slot ∉ registry.free := by
      intro hmem
      cases (h.empty p.slot hmem).symm.trans hslot
    rw [unpin_of_some hfound]
    refine ⟨fun free hfree => ?_, List.nodup_cons.2 ⟨hmem, h.nodup⟩⟩
    rcases List.mem_cons.1 hfree with rfl | hfree
    · exact Array.getElem?_setIfInBounds_self_of_lt hlt
    · refine (Array.getElem?_setIfInBounds_ne ?_).trans (h.empty free hfree)
      rintro rfl
      exact hmem hfree

theorem mem_values (h : registry.get? p = some value) :
    value ∈ registry.values := by
  have hslot := get?_eq_some_iff.1 h
  refine List.mem_filterMap.2 ⟨some value, ?_, rfl⟩
  exact Array.mem_toList_iff.2 (Array.mem_of_getElem? hslot)

end Isolate.Registry
