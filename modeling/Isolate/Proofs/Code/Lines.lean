import Isolate.Proofs.Code.Assembly

/-!
# Line tables

An assembler records a line where it changes, and looking a line up halves the
table until one entry is left.  In code that offsets of 32 bits reach, every
byte of an instruction is found to be on the line that was set last before the
instruction.
-/

namespace Isolate

/-! ## Looking up a line -/

namespace DebugInfo

/-- In a table whose entries up to an offset come first, halving ends at the
last of them, or at the first entry if there is none. -/
theorem searchFrom_eq {lines : Array (UInt32 × UInt32)} {offset : UInt32}
    {count base size : Nat}
    (hcount : ∀ (i : Nat) entry, lines[i]? = some entry →
      (offset < entry.1 ↔ count ≤ i)) (hbase : base ≤ count - 1)
    (hend : count ≤ base + size) (hsize : base + size ≤ lines.size) :
    searchFrom lines offset base size = count - 1 := by
  fun_induction searchFrom lines offset base size with
  | case1 base size hsmall => omega
  | case2 base size hlarge half middle above ih =>
    have hhalf : half = size / 2 := rfl
    have hmiddle : middle = base + half := rfl
    have hlt : middle < lines.size := by omega
    have habove : above = true ↔ count ≤ middle := by
      have hentry := Array.getElem?_eq_getElem hlt
      simp only [above, hentry, decide_eq_true_eq]
      exact hcount middle _ hentry
    cases hcase : above with
    | true =>
      have hle := habove.1 hcase
      simp only [hcase, ↓reduceDIte] at ih
      exact ih hbase (by omega) (by omega)
    | false =>
      have hgt : ¬count ≤ middle := fun hle => by
        rw [habove.2 hle] at hcase
        cases hcase
      simp only [hcase, Bool.false_eq_true, ↓reduceDIte] at ih
      exact ih (by omega) (by omega) (by omega)

/-- The line at an offset is that of the last entry up to it. -/
theorem lineAt_eq {info : DebugInfo} {older newer : List (UInt32 × UInt32)}
    {offset : Nat} (hlines : info.lines.toList = older ++ newer)
    (holder : ∀ entry ∈ older, entry.1 ≤ UInt32.ofNat offset)
    (hnewer : ∀ entry ∈ newer, UInt32.ofNat offset < entry.1) :
    info.lineAt offset = older.getLast?.map Prod.snd := by
  have hget : ∀ i : Nat, info.lines[i]? = (older ++ newer)[i]? := by
    intro i
    rw [← hlines, Array.getElem?_toList]
  have hsize : info.lines.size = older.length + newer.length := by
    rw [← Array.length_toList, hlines, List.length_append]
  have hcount : ∀ (i : Nat) entry, info.lines[i]? = some entry →
      (UInt32.ofNat offset < entry.1 ↔ older.length ≤ i) := by
    intro i entry hentry
    rw [hget] at hentry
    rcases Nat.lt_or_ge i older.length with hlt | hge
    · rw [List.getElem?_append_left hlt] at hentry
      exact iff_of_false
        (UInt32.not_lt.2 (holder entry (List.mem_of_getElem? hentry)))
        (Nat.not_le.2 hlt)
    · rw [List.getElem?_append_right hge] at hentry
      exact iff_of_true (hnewer entry (List.mem_of_getElem? hentry)) hge
  have hsearch : searchFrom info.lines (UInt32.ofNat offset) 0 info.lines.size =
      older.length - 1 :=
    searchFrom_eq hcount (Nat.zero_le _) (by omega) (by omega)
  rw [lineAt, hsearch, hget]
  cases hlast : older.getLast? with
  | none =>
    rw [List.getLast?_eq_none_iff] at hlast
    subst hlast
    cases newer with
    | nil => rfl
    | cons entry newer =>
      have habove := hnewer entry List.mem_cons_self
      exact if_neg (UInt32.not_le.2 habove)
  | some entry =>
    have hpos : older.length - 1 < older.length := by
      have := List.ne_nil_of_mem (List.mem_of_getLast? hlast)
      have := List.length_pos_iff.2 this
      omega
    rw [List.getElem?_append_left hpos, ← List.getLast?_eq_getElem?, hlast]
    exact if_pos (holder entry (List.mem_of_getLast? hlast))

end DebugInfo

/-! ## Recording a line -/

namespace Assembler

variable {a b c start : Assembler} {steps : List Step}

/-- The line that a call sets. -/
def Step.line? : Step → Option UInt32
  | line number => some number
  | _ => none

/-- The line that was set last. -/
def lastLine (steps : List Step) : Option UInt32 :=
  (steps.filterMap Step.line?).getLast?

theorem Step.currentLine_run (a : Assembler) (step : Step) :
    (step.run a).currentLine = step.line?.or a.currentLine := by
  cases step with
  | constant literal => rw [run, call, constant_snd]; rfl
  | string text => rw [run, call, Assembler.string, constant_snd]; rfl
  | _ => rfl

theorem currentLine_after (a : Assembler) (steps : List Step) :
    (a.after steps).currentLine = (lastLine steps).or a.currentLine := by
  induction steps generalizing a with
  | nil => rfl
  | cons step steps ih =>
    have hlast : lastLine (step :: steps) = (lastLine steps).or step.line? := by
      cases hline : step.line? with
      | none =>
        rw [lastLine, List.filterMap_cons_none hline, Option.or_none, lastLine]
      | some line =>
        rw [lastLine, List.filterMap_cons_some hline, ← List.singleton_append,
          List.getLast?_append, lastLine]
        rfl
    rw [after_cons, ih, Step.currentLine_run, hlast, Option.or_assoc]

theorem Fresh.currentLine_after (h : start.Fresh) (steps : List Step) :
    (start.after steps).currentLine = lastLine steps := by
  have hnone : start.currentLine = none := by cases h <;> rfl
  rw [Assembler.currentLine_after, hnone, Option.or_none]

/-- At most one line is recorded, at the end of the code and only if a line is
set. -/
theorem nextLines_cases (a : Assembler) : a.nextLines = a.lines ∨
    ∃ line, a.currentLine = some line ∧
      a.nextLines = a.lines.push (UInt32.ofNat a.code.size, line) := by
  rw [nextLines]
  cases a.currentLine with
  | none => exact Or.inl rfl
  | some line =>
    dsimp only
    split
    · exact Or.inl rfl
    · exact Or.inr ⟨line, rfl, rfl⟩

theorem size_emit (a : Assembler) (op : Opcode) (operands : List Nat) :
    (a.emit op operands).2.code.size =
      a.code.size + (op.encode operands).length := by
  exact Array.size_append

/-- Only an emission records a line, and the code grows with it. -/
theorem Step.lines_cases (a : Assembler) (step : Step) :
    (step.run a).lines = a.lines ∨
      ∃ line, a.currentLine = some line ∧ a.code.size < (step.run a).code.size ∧
        (step.run a).lines = a.lines.push (UInt32.ofNat a.code.size, line) := by
  cases step with
  | emit op operands =>
    rcases a.nextLines_cases with h | ⟨line, hline, h⟩
    · exact Or.inl h
    · refine Or.inr ⟨line, hline, ?_, h⟩
      rw [run, call, size_emit, Opcode.encode_eq, List.length_cons]
      omega
  | constant literal => rw [run, call, constant_snd]; exact Or.inl rfl
  | string text =>
    rw [run, call, Assembler.string, constant_snd]; exact Or.inl rfl
  | _ => exact Or.inl rfl

/-- What holds of the lines of an assembler. -/
structure Ruled (a : Assembler) : Prop where
  sorted : a.lines.toList.Pairwise fun x y => x.1 < y.1
  inside : ∀ entry ∈ a.lines.toList, entry.1.toNat < a.code.size
  unset : a.currentLine = none → a.lines = #[]

theorem Fresh.ruled (h : start.Fresh) : start.Ruled := by
  cases h <;>
    exact ⟨.nil, fun _ hmem => absurd hmem List.not_mem_nil, fun _ => rfl⟩

/-- The line recorded last is the one that is set. -/
theorem Ruled.back?_nextLines (h : a.Ruled) :
    a.nextLines.back?.map Prod.snd = a.currentLine := by
  rw [nextLines]
  cases hline : a.currentLine with
  | none => rw [h.unset hline]; rfl
  | some line =>
    dsimp only
    split
    next hsame => exact hsame
    next => rw [Array.back?_push]; rfl

theorem Ruled.run (h : a.Ruled) (hsize : a.code.size < UInt32.size)
    (step : Step) : (step.run a).Ruled := by
  have hoffset : (UInt32.ofNat a.code.size).toNat = a.code.size :=
    UInt32.toNat_ofNat_of_lt' hsize
  have hgrows := (a.extends_run step).size
  have hunset : (step.run a).currentLine = none → a.currentLine = none := by
    rw [Step.currentLine_run, Option.or_eq_none_iff]
    exact And.right
  rcases Step.lines_cases a step with hlines | ⟨line, hline, hlarger, hlines⟩
  · refine ⟨?_, ?_, ?_⟩
    · rw [hlines]
      exact h.sorted
    · rw [hlines]
      exact fun entry hmem => Nat.lt_of_lt_of_le (h.inside entry hmem) hgrows
    · rw [hlines]
      exact fun hnone => h.unset (hunset hnone)
  · refine ⟨?_, ?_, ?_⟩
    · rw [hlines, Array.toList_push, List.pairwise_append]
      refine ⟨h.sorted, List.pairwise_singleton _ _, ?_⟩
      intro entry hmem last hlast
      rw [List.mem_singleton.1 hlast, UInt32.lt_iff_toNat_lt, hoffset]
      exact h.inside entry hmem
    · intro entry hmem
      rw [hlines, Array.toList_push, List.mem_append,
        List.mem_singleton] at hmem
      rcases hmem with hmem | rfl
      · exact Nat.lt_of_lt_of_le (h.inside entry hmem) hgrows
      · rw [hoffset]
        exact hlarger
    · intro hnone
      rw [hunset hnone] at hline
      cases hline

theorem Ruled.after (h : a.Ruled)
    (hsize : (a.after steps).code.size < UInt32.size) :
    (a.after steps).Ruled := by
  induction steps generalizing a with
  | nil => exact h
  | cons step steps ih =>
    have hgrows := (a.extends_after (step :: steps)).size
    exact ih (h.run (Nat.lt_of_le_of_lt hgrows hsize) step) hsize

/-- Every line recorded in between starts at the end of the code before or
later. -/
def Records (a b : Assembler) : Prop :=
  ∃ newer, b.lines.toList = a.lines.toList ++ newer ∧
    ∀ entry ∈ newer, a.code.size ≤ entry.1.toNat

theorem Records.refl (a : Assembler) : Records a a :=
  ⟨[], (List.append_nil _).symm, fun _ hmem => absurd hmem List.not_mem_nil⟩

theorem Records.trans (h : Records a b) (h' : Records b c)
    (hgrows : a.code.size ≤ b.code.size) : Records a c := by
  obtain ⟨newer, hlines, hnewer⟩ := h
  obtain ⟨newest, hlines', hnewest⟩ := h'
  refine ⟨newer ++ newest, by rw [hlines', hlines, List.append_assoc], ?_⟩
  intro entry hmem
  rcases List.mem_append.1 hmem with hmem | hmem
  · exact hnewer entry hmem
  · exact Nat.le_trans hgrows (hnewest entry hmem)

theorem records_run (hsize : a.code.size < UInt32.size) (step : Step) :
    Records a (step.run a) := by
  rcases Step.lines_cases a step with hlines | ⟨line, -, -, hlines⟩
  · exact ⟨[], by rw [hlines, List.append_nil],
      fun _ hmem => absurd hmem List.not_mem_nil⟩
  · refine ⟨_, by rw [hlines, Array.toList_push], ?_⟩
    intro entry hmem
    rw [List.mem_singleton.1 hmem]
    exact Nat.le_of_eq (UInt32.toNat_ofNat_of_lt' hsize).symm

theorem records_after (hsize : (a.after steps).code.size < UInt32.size) :
    Records a (a.after steps) := by
  induction steps generalizing a with
  | nil => exact .refl a
  | cons step steps ih =>
    have hgrows := (a.extends_after (step :: steps)).size
    exact (records_run (Nat.lt_of_le_of_lt hgrows hsize) step).trans (ih hsize)
      (a.extends_run step).size

/-! ## The line of an instruction -/

/-- Each byte of an instruction is on the line that was set last before it. -/
theorem lineAt_build (hstart : start.Fresh) {before later : List Step}
    {op : Opcode} {operands : List Nat} {i : Nat}
    (hi : i < (op.encode operands).length)
    (hsize : (start.after (before ++ .emit op operands :: later)).code.size <
      UInt32.size) :
    (start.after (before ++ .emit op operands :: later)).build.debug.bind
        (·.lineAt ((start.after before).code.size + i)) = lastLine before := by
  rw [after_append, after_cons] at hsize ⊢
  have hgrows :=
    (extends_after (Step.run (start.after before) (.emit op operands))
      later).size
  have hemitted := (start.after before).size_emit op operands
  change (Step.run (start.after before) (.emit op operands)).code.size =
    _ at hemitted
  have hruled : (start.after before).Ruled := hstart.ruled.after (by omega)
  have hword : (UInt32.ofNat ((start.after before).code.size + i)).toNat =
      (start.after before).code.size + i := UInt32.toNat_ofNat_of_lt' (by omega)
  obtain ⟨newer, hlines, hnewer⟩ := records_after hsize
  have holder : ∀ entry ∈ (start.after before).nextLines.toList,
      entry.1 ≤ UInt32.ofNat ((start.after before).code.size + i) := by
    intro entry hmem
    rw [UInt32.le_iff_toNat_le, hword]
    rcases (start.after before).nextLines_cases with hsame | ⟨line, -, hpushed⟩
    · rw [hsame] at hmem
      have := hruled.inside entry hmem
      omega
    · rw [hpushed, Array.toList_push, List.mem_append,
        List.mem_singleton] at hmem
      rcases hmem with hmem | rfl
      · have := hruled.inside entry hmem
        omega
      · rw [UInt32.toNat_ofNat_of_lt' (by omega)]
        omega
  have hnewer : ∀ entry ∈ newer,
      UInt32.ofNat ((start.after before).code.size + i) < entry.1 := by
    intro entry hmem
    have hafter := hnewer entry hmem
    rw [UInt32.lt_iff_toNat_lt, hword]
    omega
  rw [build, Option.bind_some, DebugInfo.lineAt_eq hlines holder hnewer,
    Array.getLast?_toList, hruled.back?_nextLines, hstart.currentLine_after]

end Assembler

end Isolate
