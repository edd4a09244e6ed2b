import Isolate.Proofs.Registry
import Isolate.Transfer.Copies

/-!
# Pins are never mixed up

A registry is only ever changed by pins and by releases.  Through all of them
each slot is either occupied or listed exactly once as free, whatever the
releases name, so a pin keeps its slot to itself until that slot is released for
the first time.
-/

namespace Isolate

namespace Registry

/-- The ways in which a registry is changed. -/
inductive Request
  | pin (value : Value)
  | unpin (pin : Pin)

def apply (registry : Registry) : Request → Registry
  | .pin value => (registry.pin value).2
  | .unpin pin => registry.unpin pin

/-- The registry after a list of requests, the first one first. -/
def run (registry : Registry) (requests : List Request) :
    Registry := requests.foldl apply registry

variable {registry : Registry} {value : Value} {p q : Pin} {slot : Nat}

/-! ## One slot changes -/

theorem slots_pin_of_ne (hne : slot ≠ (registry.pin value).1.slot) :
    (registry.pin value).2.slots[slot]? = registry.slots[slot]? := by
  cases hfree : registry.free with
  | nil =>
    rw [pin_of_nil hfree] at hne ⊢
    exact (Array.getElem?_push ..).trans (if_neg hne)
  | cons first rest =>
    rw [pin_of_cons hfree] at hne ⊢
    exact Array.getElem?_setIfInBounds_ne (Ne.symm hne)

theorem slots_unpin_of_ne (hne : slot ≠ p.slot) :
    (registry.unpin p).slots[slot]? = registry.slots[slot]? := by
  cases hfound : registry.get? p with
  | none => rw [unpin_of_none hfound]
  | some value =>
    rw [unpin_of_some hfound]
    exact Array.getElem?_setIfInBounds_ne (Ne.symm hne)

/-- Releasing a pin once more changes nothing. -/
theorem unpin_unpin : (registry.unpin p).unpin p = registry.unpin p :=
  unpin_of_none get?_unpin_self

/-! ## Every slot is accounted for -/

/-- Well-formed, no empty slot is forgotten, and each slot is
occupied or free. -/
structure Accounted (registry : Registry) : Prop
    extends registry.WellFormed where
  listed : ∀ slot, registry.slots[slot]? = some none → slot ∈ registry.free
  counted : registry.slots.countP (·.isSome) + registry.free.length =
    registry.slots.size

theorem Accounted.mem_free_iff (h : registry.Accounted) (slot : Nat) :
    slot ∈ registry.free ↔ registry.slots[slot]? = some none :=
  ⟨h.empty slot, h.listed slot⟩

theorem Accounted.count_free (h : registry.Accounted) (slot : Nat) :
    registry.free.count slot =
      if registry.slots[slot]? = some none then 1 else 0 := by
  rw [h.nodup.count]
  simp only [h.mem_free_iff]

theorem accounted_empty : Accounted {} where
  empty := nofun
  nodup := List.nodup_nil
  listed := nofun
  counted := rfl

/-- The number of occupied slots when one slot changes. -/
theorem countP_setIfInBounds {slots : Array (Option Value)}
    {before : Option Value} (h : slots[slot]? = some before)
    (after : Option Value) :
    (slots.setIfInBounds slot after).countP (·.isSome) +
      (if before.isSome then 1 else 0) =
      slots.countP (·.isSome) + if after.isSome then 1 else 0 := by
  obtain ⟨hlt, rfl⟩ := Array.getElem?_eq_some_iff.1 h
  have hpos : slots[slot].isSome → 0 < slots.countP (·.isSome) := fun hsome =>
    Array.countP_pos_iff.2 ⟨slots[slot], Array.getElem_mem hlt, hsome⟩
  rw [Array.setIfInBounds, dif_pos hlt, Array.countP_set]
  split
  · next hsome =>
    have hoccupied := hpos hsome
    omega
  · omega

/-- A pin takes no free slot but its own. -/
theorem mem_free_pin (hmem : slot ∈ registry.free)
    (hne : slot ≠ (registry.pin value).1.slot) :
    slot ∈ (registry.pin value).2.free := by
  cases hfree : registry.free with
  | nil =>
    rw [hfree] at hmem
    cases hmem
  | cons first rest =>
    rw [hfree] at hmem
    rw [pin_of_cons hfree] at hne ⊢
    exact (List.mem_cons.1 hmem).resolve_left hne

theorem Accounted.counted_pin (h : registry.Accounted) (value : Value) :
    (registry.pin value).2.slots.countP (·.isSome) +
      (registry.pin value).2.free.length =
      (registry.pin value).2.slots.size := by
  have hcounted := h.counted
  cases hfree : registry.free with
  | nil =>
    rw [hfree] at hcounted
    rw [pin_of_nil hfree]
    simpa using hcounted
  | cons first rest =>
    have hset :
        (registry.slots.setIfInBounds first (some value)).countP (·.isSome) =
          registry.slots.countP (·.isSome) + 1 := by
      have hempty := h.empty first (hfree ▸ List.mem_cons_self)
      simpa using countP_setIfInBounds hempty (some value)
    rw [hfree, List.length_cons] at hcounted
    rw [pin_of_cons hfree]
    simp only [Array.size_setIfInBounds]
    omega

theorem Accounted.pin (h : registry.Accounted) (value : Value) :
    (registry.pin value).2.Accounted := by
  refine ⟨h.toWellFormed.pin, fun slot hslot => ?_, h.counted_pin value⟩
  -- The slot that the pin takes is not empty any more, and the others are as
  -- before.
  have hne : slot ≠ (registry.pin value).1.slot := by
    rintro rfl
    cases hslot.symm.trans (get?_eq_some_iff.1 h.get?_pin_self)
  rw [slots_pin_of_ne hne] at hslot
  exact mem_free_pin (h.listed slot hslot) hne

theorem Accounted.counted_unpin (h : registry.Accounted)
    (hfound : registry.get? p = some value) :
    (registry.unpin p).slots.countP (·.isSome) +
      (registry.unpin p).free.length =
      (registry.unpin p).slots.size := by
  have hcounted := h.counted
  have hset : (registry.slots.setIfInBounds p.slot none).countP (·.isSome) + 1 =
      registry.slots.countP (·.isSome) := by
    simpa using countP_setIfInBounds (get?_eq_some_iff.1 hfound) none
  rw [unpin_of_some hfound]
  simp only [Array.size_setIfInBounds, List.length_cons]
  omega

theorem Accounted.unpin (h : registry.Accounted) (p : Pin) :
    (registry.unpin p).Accounted := by
  cases hfound : registry.get? p with
  | none =>
    rw [unpin_of_none hfound]
    exact h
  | some value =>
    refine ⟨h.toWellFormed.unpin, fun slot hslot => ?_, h.counted_unpin hfound⟩
    by_cases hself : slot = p.slot
    · rw [unpin_of_some hfound, hself]
      exact List.mem_cons_self
    · rw [slots_unpin_of_ne hself] at hslot
      rw [unpin_of_some hfound]
      exact List.mem_cons_of_mem _ (h.listed slot hslot)

theorem Accounted.apply (h : registry.Accounted) (request : Request) :
    (registry.apply request).Accounted := by
  cases request with
  | pin value => exact h.pin value
  | unpin p => exact h.unpin p

theorem Accounted.run (h : registry.Accounted) (requests : List Request) :
    (registry.run requests).Accounted := by
  induction requests generalizing registry with
  | nil => exact h
  | cons request rest ih => exact ih (h.apply request)

/-! ## Pins over a history -/

/-- The slot of a new pin is one that the registry has. -/
theorem Accounted.slot_lt_size (h : registry.Accounted) :
    (registry.pin value).1.slot < (registry.pin value).2.slots.size :=
  (Array.getElem?_eq_some_iff.1 (get?_eq_some_iff.1 h.get?_pin_self)).1

/-- A pinned value stays behind its pin as long as that pin is not released. -/
theorem Accounted.get?_run (h : registry.Accounted)
    (hvalue : registry.get? p = some value) {requests : List Request}
    (hkept : .unpin p ∉ requests) :
    (registry.run requests).get? p = some value := by
  induction requests generalizing registry with
  | nil => exact hvalue
  | cons request rest ih =>
    obtain ⟨hrequest, hrest⟩ := not_or.1 (hkept ∘ List.mem_cons.2)
    refine ih (h.apply request) ?_ hrest
    cases request with
    | pin other => exact h.get?_pin_of_some hvalue
    | unpin q =>
      have hne : p ≠ q := fun heq => hrequest (congrArg Request.unpin heq)
      exact (get?_unpin_of_ne hne).trans hvalue

/-- Pins that are released together, in whatever order and however often. -/
theorem get?_run_unpin (pins : List Pin) :
    (registry.run (pins.map .unpin)).get? q =
      if q ∈ pins then none else registry.get? q := by
  induction pins generalizing registry with
  | nil => rfl
  | cons p rest ih =>
    refine ih.trans ?_
    change (if q ∈ rest then none else (registry.unpin p).get? q) = _
    by_cases hrest : q ∈ rest
    · rw [if_pos hrest, if_pos (List.mem_cons_of_mem p hrest)]
    · by_cases hself : q = p
      · rw [if_neg hrest, hself, if_pos List.mem_cons_self]
        exact get?_unpin_self
      · rw [if_neg hrest, if_neg (by simp [hrest, hself])]
        exact get?_unpin_of_ne hself

/-- A registry that mixes up no pins. -/
structure KeepsApart (registry : Registry) : Prop where
  /-- The empty slots are listed once as free, and no other slot is. -/
  listed : ∀ slot, registry.free.count slot =
    if registry.slots[slot]? = some none then 1 else 0
  /-- The number of pins is a difference of natural numbers. -/
  fits : registry.free.length ≤ registry.slots.size
  counted : registry.pinnedCount = registry.slots.countP (·.isSome)
  pinEmpty : ∀ value, registry.get? (registry.pin value).1 = none
  /-- The number of a new pin is as small as the number of slots. -/
  pinInside : ∀ value,
    (registry.pin value).1.slot < (registry.pin value).2.slots.size
  pinOthers : ∀ value slot, slot ≠ (registry.pin value).1.slot →
    (registry.pin value).2.slots[slot]? = registry.slots[slot]?
  unpinOthers : ∀ (p : Pin) slot, slot ≠ p.slot →
    (registry.unpin p).slots[slot]? = registry.slots[slot]?
  /-- Releasing what is free, was released before or was never handed out. -/
  unpinIdle : ∀ p, registry.get? p = none → registry.unpin p = registry
  unpinTwice : ∀ p, (registry.unpin p).unpin p = registry.unpin p
  /-- Until its slot is released, a pin reads back its value, whatever is pinned
  and released meanwhile. -/
  kept : ∀ value later, .unpin (registry.pin value).1 ∉ later →
    ((registry.pin value).2.run later).get? (registry.pin value).1 = some value
  released : ∀ p, (registry.unpin p).get? p = none
  /-- Released together, pins take no other pin along, whatever their order. -/
  together : ∀ (pins : List Pin) q, (registry.run (pins.map .unpin)).get? q =
    if q ∈ pins then none else registry.get? q

/-- Pins are kept apart in every registry that requests lead to. -/
theorem keepsApart_run (requests : List Request) :
    (run {} requests).KeepsApart := by
  have hregistry : (run {} requests).Accounted := accounted_empty.run requests
  have hcounted := hregistry.counted
  exact {
    listed := hregistry.count_free
    fits := by omega
    counted := by
      rw [pinnedCount]
      omega
    pinEmpty := fun _ => hregistry.get?_pin_before
    pinInside := fun _ => hregistry.slot_lt_size
    pinOthers := fun _ _ => slots_pin_of_ne
    unpinOthers := fun _ _ => slots_unpin_of_ne
    unpinIdle := fun _ => unpin_of_none
    unpinTwice := fun _ => unpin_unpin
    kept := fun value _ =>
      (hregistry.pin value).get?_run hregistry.get?_pin_self
    released := fun _ => get?_unpin_self
    together := fun pins _ => get?_run_unpin pins }

end Registry

/-- The copies of a transfer are released by requests. -/
theorem Copies.release_eq (copies : Copies) (ctx : Context) :
    copies.release ctx =
      .ok ⟨⟩ { ctx with
        registry := ctx.registry.run (copies.entries.map (.unpin ·.2)) } := by
  rw [release]
  induction copies.entries generalizing ctx with
  | nil => rfl
  | cons entry rest ih =>
    exact ih { ctx with registry := ctx.registry.unpin entry.2 }

end Isolate
