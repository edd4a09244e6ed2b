import Isolate.Heap.Basic

/-!
# Collection

Marking follows a worklist of handles from the roots.  Every step either marks
one more object or shortens the worklist, so it ends on any graph, and handles
that name no object are passed over.  Sweeping frees the objects without a mark
and clears the marks of the others.
-/

namespace Isolate.Heap

def isUnmarked : Option Entry → Bool
  | some entry => !entry.marked
  | none => false

/-- The number of objects without a mark. -/
def unmarkedCount (slots : Array (Option Entry)) :
    Nat := slots.countP isUnmarked

theorem unmarkedCount_set_lt (slots : Array (Option Entry)) (i : Nat)
    (h : i < slots.size) (entry : Entry) (hentry : slots[i] = some entry)
    (hmark : entry.marked = false) :
    unmarkedCount (slots.set i (some { entry with marked := true })) <
      unmarkedCount slots := by
  have hold : isUnmarked slots[i] = true := by
    rw [hentry]
    exact congrArg not hmark
  have hnew : ¬isUnmarked (some { entry with marked := true }) = true :=
    Bool.false_ne_true
  have hpos : 0 < slots.countP isUnmarked :=
    Array.countP_pos_iff.2 ⟨slots[i], Array.getElem_mem h, hold⟩
  rw [unmarkedCount, unmarkedCount, Array.countP_set, if_pos hold, if_neg hnew]
  omega

/-- Marks every object that the worklist leads to. -/
def mark (slots : Array (Option Entry)) : List Handle → Array (Option Entry)
  | [] => slots
  | handle :: rest =>
    if h : handle.index < slots.size then
      match hentry : slots[handle.index] with
      | none => mark slots rest
      | some entry =>
        if hmark : entry.marked then mark slots rest
        else
          mark (slots.set handle.index (some { entry with marked := true }))
            (entry.object.children ++ rest)
    else mark slots rest
termination_by worklist => (unmarkedCount slots, worklist.length)
decreasing_by
  · exact Prod.Lex.right _ (by simp)
  · exact Prod.Lex.right _ (by simp)
  · exact Prod.Lex.left _ _
      (unmarkedCount_set_lt slots handle.index h entry hentry
        (by simpa using hmark))
  · exact Prod.Lex.right _ (by simp)

/-- The slots of the objects without a mark, in ascending order. -/
def garbage (slots : Array (Option Entry)) : List Nat :=
  (List.range slots.size).filter fun i => isUnmarked (slots.getD i none)

/-- What is left of a slot after sweeping. -/
def sweepSlot : Option Entry → Option Entry
  | some entry =>
    if entry.marked then some { entry with marked := false } else none
  | none => none

/-- The threshold after a collection: doubled up to a bound when less than a
quarter of the objects was freed, halved down to a bound when more than three
quarters were. -/
def nextThreshold (threshold : UInt64) (freed before : Nat) : UInt64 :=
  if before = 0 then threshold
  else if 4 * freed < before then min (threshold * 2) maxThreshold
  else if 3 * before < 4 * freed then max (threshold / 2) minThreshold
  else threshold

/-- Frees every object that the root values and root handles do not lead to,
and gives the number of objects freed. -/
def collect (heap : Heap) (roots : List Value)
    (handles : List Handle) : Nat × Heap :=
  let before := heap.liveCount
  let marked := mark heap.slots (handles ++ roots.filterMap Value.handle?)
  let freed := garbage marked
  (freed.length,
   { heap with
     slots := marked.map sweepSlot
     free := freed.reverse ++ heap.free
     allocated := 0
     threshold := nextThreshold heap.threshold freed.length before
     collections := heap.collections + 1 })

end Isolate.Heap
