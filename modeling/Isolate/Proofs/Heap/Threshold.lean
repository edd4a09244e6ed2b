import Isolate.Context.Basic
import Isolate.Proofs.Heap.History

/-!
# The adaptive threshold

A collection that frees little doubles the threshold, and one that frees much
halves it.  Doubling wraps at 64 bits, and what is left of a long threshold may
be next to nothing.  A threshold that was halved or doubled once is short, so
only the one that was chosen can wrap, and the threshold stays between the
bounds that go with that one unless it does.
-/

namespace Isolate.Heap

theorem toNat_min (x y : UInt64) : (min x y).toNat = min x.toNat y.toNat := by
  change (if x ≤ y then x else y).toNat = _
  split
  · next hle => exact (Nat.min_eq_left (UInt64.le_iff_toNat_le.1 hle)).symm
  · next hle =>
      exact (Nat.min_eq_right
        (Nat.le_of_not_le (mt UInt64.le_iff_toNat_le.2 hle))).symm

theorem toNat_max (x y : UInt64) : (max x y).toNat = max x.toNat y.toNat := by
  change (if x ≤ y then y else x).toNat = _
  split
  · next hle => exact (Nat.max_eq_right (UInt64.le_iff_toNat_le.1 hle)).symm
  · next hle =>
      exact (Nat.max_eq_left
        (Nat.le_of_not_le (mt UInt64.le_iff_toNat_le.2 hle))).symm

/-! ## One adaptation -/

variable {chosen threshold : UInt64} {freed before : Nat}

/-- A collection that freed less than a quarter doubles the
threshold, within a word. -/
theorem toNat_nextThreshold_of_little (hlittle : 4 * freed < before) :
    (nextThreshold threshold freed before).toNat =
      min (threshold.toNat * 2 % UInt64.size) 1000000 := by
  rw [nextThreshold, if_neg (by omega), if_pos hlittle, toNat_min,
    UInt64.toNat_mul]
  rfl

/-- Any other collection halves the threshold or leaves it. -/
theorem nextThreshold_of_not_little (hlittle : ¬4 * freed < before) :
    (nextThreshold threshold freed before).toNat =
      max (threshold.toNat / 2) 64 ∨
      nextThreshold threshold freed before = threshold := by
  rw [nextThreshold, if_neg hlittle]
  split
  · exact Or.inr rfl
  · split
    · rw [toNat_max, UInt64.toNat_div]
      exact Or.inl rfl
    · exact Or.inr rfl

/-- Within the bounds that go with a chosen threshold: at least 64 and at most a
million, but for what was chosen beyond that. -/
def Bounded (chosen threshold : UInt64) : Prop :=
  min chosen.toNat 64 ≤ threshold.toNat ∧
    threshold.toNat ≤ max chosen.toNat 1000000

/-- Bounded, and short enough to be doubled. -/
structure Settled (chosen threshold : UInt64) : Prop where
  bounded : Bounded chosen threshold
  short : threshold.toNat * 2 < UInt64.size

/-- Doubling leaves less than 64. -/
def WrapsLow (chosen : UInt64) : Prop :=
  UInt64.size ≤ chosen.toNat * 2 ∧ chosen.toNat * 2 < UInt64.size + 64

theorem bounded_chosen (chosen : UInt64) : Bounded chosen chosen :=
  ⟨Nat.min_le_left _ _, Nat.le_max_left _ _⟩

/-- A threshold that came of a halving is half a word at most. -/
theorem settled_of_halved (hhigh : threshold.toNat ≤ max chosen.toNat 1000000)
    {next : UInt64} (hnext : next.toNat = max (threshold.toNat / 2) 64) :
    Settled chosen next := by
  have hword := threshold.toNat_lt_size
  simp only [UInt64.size] at hword
  refine ⟨⟨?_, ?_⟩, ?_⟩
  · omega
  · omega
  · simp only [UInt64.size]
    omega

theorem Settled.next (h : Settled chosen threshold) :
    Settled chosen (nextThreshold threshold freed before) := by
  obtain ⟨⟨hlow, hhigh⟩, hshort⟩ := h
  by_cases hlittle : 4 * freed < before
  · have hnext : (nextThreshold threshold freed before).toNat =
        min (threshold.toNat * 2) 1000000 := by
      rw [toNat_nextThreshold_of_little hlittle, Nat.mod_eq_of_lt hshort]
    simp only [UInt64.size] at hshort
    refine ⟨⟨?_, ?_⟩, ?_⟩
    · omega
    · omega
    · simp only [UInt64.size]
      omega
  · rcases nextThreshold_of_not_little hlittle with hhalved | hsame
    · exact settled_of_halved hhigh hhalved
    · rw [hsame]
      exact ⟨⟨hlow, hhigh⟩, hshort⟩

/-- The chosen threshold is left as it is, or settles, unless it wraps low. -/
theorem next_chosen (hwrap : ¬(WrapsLow chosen ∧ 4 * freed < before)) :
    nextThreshold chosen freed before = chosen ∨
      Settled chosen (nextThreshold chosen freed before) := by
  by_cases hshort : chosen.toNat * 2 < UInt64.size
  · exact Or.inr (Settled.next ⟨bounded_chosen chosen, hshort⟩)
  · by_cases hlittle : 4 * freed < before
    · have hnext : (nextThreshold chosen freed before).toNat =
          min (chosen.toNat * 2 % UInt64.size) 1000000 :=
        toNat_nextThreshold_of_little hlittle
      have hhigh :
          UInt64.size + 64 ≤ chosen.toNat * 2 := Nat.le_of_not_lt fun hlow =>
            hwrap ⟨⟨Nat.le_of_not_lt hshort, hlow⟩, hlittle⟩
      have hword := chosen.toNat_lt_size
      simp only [UInt64.size] at hnext hhigh hword
      refine Or.inr ⟨⟨?_, ?_⟩, ?_⟩
      · omega
      · omega
      · simp only [UInt64.size]
        omega
    · rcases nextThreshold_of_not_little hlittle with hhalved | hsame
      · exact Or.inr (settled_of_halved (Nat.le_max_left _ _) hhalved)
      · exact Or.inl hsame

/-- What wraps low is out of bounds. -/
theorem WrapsLow.not_bounded_next (h : WrapsLow chosen)
    (hlittle : 4 * freed < before) :
    ¬Bounded chosen (nextThreshold chosen freed before) := by
  rintro ⟨hlow, -⟩
  rw [toNat_nextThreshold_of_little hlittle] at hlow
  obtain ⟨hlong, hless⟩ := h
  simp only [UInt64.size] at hlow hlong hless
  omega

/-! ## Runs of changes -/

/-- The ways in which a threshold is chosen: for a fresh heap, in the settings
of a context, or later on. -/
inductive Chosen : UInt64 → Heap → Prop
  | fresh (threshold : UInt64) : Chosen threshold { threshold := threshold }
  | created (settings : ContextSettings) (bindings : Bindings) :
      Chosen settings.gcThreshold (Context.create settings bindings).heap
  | set (heap : Heap) (threshold : UInt64) :
      Chosen threshold (heap.setThreshold threshold)

/-- Whether a change chooses a new threshold. -/
def Change.Chooses : Change → Prop
  | setThreshold _ => True
  | _ => False

variable {heap : Heap} {change : Change} {changes : List Change}

theorem threshold_allocate (object : Object) :
    (heap.allocate object).2.threshold = heap.threshold := by
  simp only [allocate]
  cases heap.free <;> rfl

theorem Chosen.settled_or (h : Chosen chosen heap) :
    heap.threshold = chosen ∨ Settled chosen heap.threshold := by
  cases h with
  | fresh => exact Or.inl rfl
  | created settings bindings => exact Or.inl rfl
  | set heap =>
    have hset : (heap.setThreshold chosen).threshold.toNat =
        max chosen.toNat 64 :=
      toNat_max chosen minThreshold
    by_cases hleast : chosen.toNat < 64
    · refine Or.inr ⟨⟨?_, ?_⟩, ?_⟩
      · omega
      · omega
      · simp only [UInt64.size]
        omega
    · exact Or.inl (UInt64.toNat_inj.1 (by omega))

/-- Some collection finds the chosen threshold still in place and frees less
than a quarter of the objects. -/
def DoublesChosen (chosen : UInt64) (heap : Heap)
    (changes : List Change) : Prop :=
  ∃ done roots handles, done ++ [.collect roots handles] <+: changes ∧
    (heap.run done).threshold = chosen ∧
    4 * ((heap.run done).collect roots handles).1 < (heap.run done).liveCount

theorem DoublesChosen.cons
    (h : DoublesChosen chosen (heap.apply change) changes) :
    DoublesChosen chosen heap (change :: changes) := by
  obtain ⟨done, roots, handles, hdone, hthreshold, hlittle⟩ := h
  exact ⟨change :: done, roots, handles, List.cons_prefix_cons.2 ⟨rfl, hdone⟩,
    hthreshold, hlittle⟩

/-- The step: a change leaves the chosen threshold in place or lets it
settle. -/
theorem settled_or_apply
    (h : heap.threshold = chosen ∨ Settled chosen heap.threshold)
    (hchange : ¬change.Chooses)
    (hwrap : ¬(WrapsLow chosen ∧ DoublesChosen chosen heap [change])) :
    (heap.apply change).threshold = chosen ∨
      Settled chosen (heap.apply change).threshold := by
  cases change with
  | allocate object =>
    rw [apply, threshold_allocate]
    exact h
  | update handle f => exact h
  | setEnabled enabled => exact h
  | setThreshold threshold => exact absurd trivial hchange
  | collect roots handles =>
    rcases h with hsame | hsettled
    · subst hsame
      exact next_chosen fun hlow =>
        hwrap ⟨hlow.1, [], roots, handles, List.prefix_rfl, rfl, hlow.2⟩
    · exact Or.inr hsettled.next

/-- The run: without a wrap the threshold stays bounded. -/
theorem bounded_run
    (h : heap.threshold = chosen ∨ Settled chosen heap.threshold)
    (hchanges : ∀ change ∈ changes, ¬change.Chooses)
    (hwrap : ¬(WrapsLow chosen ∧ DoublesChosen chosen heap changes)) :
    Bounded chosen (heap.run changes).threshold := by
  induction changes generalizing heap with
  | nil =>
    rcases h with hsame | hsettled
    · exact hsame ▸ bounded_chosen chosen
    · exact hsettled.bounded
  | cons change rest ih =>
    refine ih (settled_or_apply h (hchanges change List.mem_cons_self)
      fun hlow => hwrap ?_)
      (fun other hother => hchanges other (List.mem_cons_of_mem change hother))
      fun hlow => hwrap ⟨hlow.1, hlow.2.cons⟩
    obtain ⟨hlow, done, roots, handles, hdone, hrest⟩ := hlow
    exact ⟨hlow, done, roots, handles, hdone.trans ⟨rest, rfl⟩, hrest⟩

/-- Whatever threshold is chosen, allocations and collections keep it within
the bounds that go with it, and above zero, if and only if they do not double
one that wraps low. -/
theorem bounded_iff_not_doublesChosen (hchosen : Chosen chosen heap)
    (hpositive : chosen ≠ 0) (hchanges : ∀ change ∈ changes, ¬change.Chooses) :
    (∀ done, done <+: changes →
      Bounded chosen (heap.run done).threshold ∧
        (heap.run done).threshold ≠ 0) ↔
        ¬(WrapsLow chosen ∧ DoublesChosen chosen heap changes) := by
  constructor
  · rintro hbounded ⟨hlow, done, roots, handles, hdone, hthreshold, hlittle⟩
    have hrun : (heap.run (done ++ [.collect roots handles])).threshold =
        nextThreshold chosen ((heap.run done).collect roots handles).1
          (heap.run done).liveCount := by
      rw [run, List.foldl_append, ← hthreshold]
      rfl
    exact hlow.not_bounded_next hlittle (hrun ▸ (hbounded _ hdone).1)
  · intro hwrap done hdone
    have hbounded : Bounded chosen (heap.run done).threshold := by
      refine bounded_run hchosen.settled_or
        (fun change hchange => hchanges change (hdone.subset hchange))
        fun hlow => hwrap ?_
      obtain ⟨hlow, first, roots, handles, hfirst, hrest⟩ := hlow
      exact ⟨hlow, first, roots, handles, hfirst.trans hdone, hrest⟩
    refine ⟨hbounded, fun hzero => hpositive (UInt64.toNat_inj.1 ?_)⟩
    have hleast := hbounded.1
    rw [hzero, UInt64.toNat_zero] at hleast
    rw [UInt64.toNat_zero]
    omega

/-- A context whose settings say nothing but the threshold. -/
def fresh (threshold : UInt64) : Context :=
  .create { gcThreshold := threshold } {}

theorem chosen_fresh (threshold : UInt64) :
    Chosen threshold (fresh threshold).heap :=
  .created { gcThreshold := threshold } {}

/-- A collection that frees nothing, as the globals are a root. -/
def idle : List Change := [.collect [] [⟨0⟩]]

theorem not_chooses_idle : ∀ change ∈ idle, ¬change.Chooses := by
  intro change hchange
  rw [List.mem_singleton.1 hchange]
  exact not_false

/-- An object that refers to nothing is marked alone. -/
theorem mark_alone {object : Object} (hchildren : object.children = []) :
    mark #[some { object }] [⟨0⟩] = #[some { object, marked := true }] := by
  simp [mark, hchildren]

theorem threshold_run_idle (threshold : UInt64) :
    ((fresh threshold).heap.run idle).threshold =
      nextThreshold threshold 0 1 := by
  have hslots : ∃ object : Object, object.children = [] ∧
      (fresh threshold).heap.slots = #[some { object }] := ⟨_, rfl, rfl⟩
  obtain ⟨object, hchildren, hslots⟩ := hslots
  change nextThreshold threshold
    (garbage (mark (fresh threshold).heap.slots [⟨0⟩])).length 1 = _
  rw [hslots, mark_alone hchildren]
  rfl

/-- The shortest threshold whose doubling leaves as much as the bound. -/
theorem bounded_iff_not_doublesChosen_idle :
    let heap := (fresh 9223372036854775840).heap
    Chosen 9223372036854775840 heap ∧ (9223372036854775840 : UInt64) ≠ 0 ∧
      (∀ change ∈ idle, ¬change.Chooses) ∧
      (∀ done, done <+: idle →
        Bounded 9223372036854775840 (heap.run done).threshold ∧
          (heap.run done).threshold ≠ 0) ∧
      (heap.run idle).threshold = 64 := by
  intro heap
  have hchosen : Chosen 9223372036854775840 heap := chosen_fresh _
  have hwrap : ¬WrapsLow 9223372036854775840 := by
    rintro ⟨-, hless⟩
    exact absurd hless (by decide)
  refine ⟨hchosen, by decide, not_chooses_idle, ?_, threshold_run_idle _⟩
  exact (bounded_iff_not_doublesChosen hchosen (by decide) not_chooses_idle).2
    fun hlow => hwrap hlow.1

/-- The threshold in the middle of a word is at least 64, but a collection that
frees nothing doubles it to zero, and with that the next one is due at once. -/
theorem doubled_to_zero :
    let heap := (fresh 9223372036854775808).heap
    Chosen 9223372036854775808 heap ∧ (∀ change ∈ idle, ¬change.Chooses) ∧
      ¬Bounded 9223372036854775808 (heap.run idle).threshold ∧
      (heap.run idle).threshold = 0 ∧ (heap.run idle).due = true := by
  intro heap
  have hzero : (heap.run idle).threshold = 0 := threshold_run_idle _
  have hdue : (heap.run idle).due = true := by
    rw [due, hzero]
    rfl
  refine ⟨chosen_fresh _, not_chooses_idle, fun hbounded => ?_, hzero, hdue⟩
  rw [hzero] at hbounded
  exact absurd hbounded.1 (by decide)

end Isolate.Heap
