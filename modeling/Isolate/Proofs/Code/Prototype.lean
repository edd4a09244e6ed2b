import Isolate.Code.Prototype

/-!
# Trees of prototypes

Prototypes nest to any depth.  This module provides the induction over a tree,
the depth of a tree, and what stripping and attribution do to each part of a
prototype.
-/

namespace Isolate.Prototype

/-- A property of a prototype may be assumed of the prototypes nested in it. -/
theorem nestedInduction {P : Prototype → Prop}
    (step : ∀ proto : Prototype, (∀ child ∈ proto.protos, P child) → P proto) :
    ∀ proto, P proto :=
  @Prototype.rec P (fun protos => ∀ child ∈ protos, P child)
    (fun _ _ _ _ _ _ _ ih => step _ ih)
    (fun _ h => absurd h List.not_mem_nil)
    (fun _ _ ihHead ihTail child h => by
      rcases List.mem_cons.1 h with rfl | h
      · exact ihHead
      · exact ihTail child h)

/-! ## Stripping -/

theorem strippedAll_eq_map (protos : List Prototype) :
    strippedAll protos = protos.map stripped := by
  induction protos with
  | nil => rfl
  | cons proto rest ih => rw [strippedAll, ih, List.map_cons]

@[simp]
theorem stripped_code (proto : Prototype) :
    proto.stripped.code = proto.code := by
  cases proto
  rw [stripped]

@[simp]
theorem stripped_constants (proto : Prototype) :
    proto.stripped.constants = proto.constants := by
  cases proto
  rw [stripped]

@[simp]
theorem stripped_upvalues (proto : Prototype) :
    proto.stripped.upvalues =
      proto.upvalues.map fun u => { u with name := none } := by
  cases proto
  rw [stripped]

@[simp]
theorem stripped_protos (proto : Prototype) :
    proto.stripped.protos = proto.protos.map stripped := by
  cases proto
  rw [stripped, strippedAll_eq_map]

@[simp]
theorem stripped_numLocals (proto : Prototype) :
    proto.stripped.numLocals = proto.numLocals := by
  cases proto
  rw [stripped]

@[simp]
theorem stripped_numParams (proto : Prototype) :
    proto.stripped.numParams = proto.numParams := by
  cases proto
  rw [stripped]

/-- Stripping twice is stripping once. -/
@[simp]
theorem stripped_stripped (proto : Prototype) :
    proto.stripped.stripped = proto.stripped := by
  induction proto using nestedInduction with
  | step proto ih =>
    obtain ⟨code, constants, upvalues, protos, numParams, numLocals, debug⟩ :=
      proto
    have hprotos :
        (protos.map stripped).map stripped = protos.map stripped := by
      rw [List.map_map]
      exact List.map_congr_left fun child h => ih child h
    simp only [stripped, strippedAll_eq_map, hprotos, Array.map_map]
    rfl

/-! ## Attribution -/

theorem attributedAllTo_eq_map (source : String) (protos : List Prototype) :
    attributedAllTo source protos = protos.map (attributedTo source) := by
  induction protos with
  | nil => rfl
  | cons proto rest ih => rw [attributedAllTo, ih, List.map_cons]

section Attribution

variable (source : String) (proto : Prototype)

@[simp]
theorem attributedTo_code : (proto.attributedTo source).code = proto.code := by
  cases proto
  rw [attributedTo]

@[simp]
theorem attributedTo_constants :
    (proto.attributedTo source).constants = proto.constants := by
  cases proto
  rw [attributedTo]

@[simp]
theorem attributedTo_upvalues :
    (proto.attributedTo source).upvalues = proto.upvalues := by
  cases proto
  rw [attributedTo]

@[simp]
theorem attributedTo_protos :
    (proto.attributedTo source).protos =
      proto.protos.map (attributedTo source) := by
  cases proto
  rw [attributedTo, attributedAllTo_eq_map]

@[simp]
theorem attributedTo_numLocals :
    (proto.attributedTo source).numLocals = proto.numLocals := by
  cases proto
  rw [attributedTo]

@[simp]
theorem attributedTo_numParams :
    (proto.attributedTo source).numParams = proto.numParams := by
  cases proto
  rw [attributedTo]

end Attribution

/-- Only the first attribution has an effect, because it leaves no prototype of
the tree without a source. -/
theorem attributedTo_attributedTo (first second : String) (proto : Prototype) :
    (proto.attributedTo first).attributedTo second =
      proto.attributedTo first := by
  induction proto using nestedInduction with
  | step proto ih =>
    obtain ⟨code, constants, upvalues, protos, numParams, numLocals, debug⟩ :=
      proto
    have hprotos : (protos.map (attributedTo first)).map (attributedTo second) =
        protos.map (attributedTo first) := by
      rw [List.map_map]
      exact List.map_congr_left fun child h => ih child h
    simp only [attributedTo, attributedAllTo_eq_map, hprotos, Option.getD_some]

/-- Attribution changes nothing that stripping keeps. -/
@[simp]
theorem stripped_attributedTo (source : String) (proto : Prototype) :
    (proto.attributedTo source).stripped = proto.stripped := by
  induction proto using nestedInduction with
  | step proto ih =>
    obtain ⟨code, constants, upvalues, protos, numParams, numLocals, debug⟩ :=
      proto
    have hprotos : (protos.map (attributedTo source)).map stripped =
        protos.map stripped := by
      rw [List.map_map]
      exact List.map_congr_left fun child h => ih child h
    simp only [attributedTo, stripped, attributedAllTo_eq_map,
      strippedAll_eq_map, hprotos]

/-! ## Depth -/

mutual

/-- How many levels of prototypes there are, the outermost included. -/
def depth : Prototype → Nat
  | ⟨_, _, _, protos, _, _, _⟩ => depthAll protos + 1

/-- The greatest depth in a list. -/
def depthAll : List Prototype → Nat
  | [] => 0
  | proto :: rest => max (depth proto) (depthAll rest)

end

theorem depth_eq (proto : Prototype) :
    proto.depth = depthAll proto.protos + 1 := by
  cases proto
  rw [depth]

theorem depthAll_le_iff (protos : List Prototype) (levels : Nat) :
    depthAll protos ≤ levels ↔ ∀ child ∈ protos, child.depth ≤ levels := by
  induction protos with
  | nil => simp [depthAll]
  | cons proto rest ih => rw [depthAll, Nat.max_le, ih, List.forall_mem_cons]

/-- A tree fits into so many levels if its nested trees fit into one less. -/
theorem depth_le_succ_iff (proto : Prototype) (levels : Nat) :
    proto.depth ≤ levels + 1 ↔
      ∀ child ∈ proto.protos, child.depth ≤ levels := by
  rw [depth_eq, Nat.add_le_add_iff_right, depthAll_le_iff]

theorem depth_pos (proto : Prototype) : 0 < proto.depth := by
  rw [depth_eq]
  exact Nat.succ_pos _

end Isolate.Prototype
