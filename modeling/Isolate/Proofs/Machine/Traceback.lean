import Isolate.Proofs.Code.Lines
import Isolate.Proofs.Machine.Suspended

/-!
# Lines of a traceback

A frame stands behind the instruction that it executes, and a traceback looks up
the byte before.  For a frame that waits behind a call of assembled code that
byte is the operand of the call, so the entry of the frame has the line that was
set when the call was emitted.
-/

namespace Isolate

/-- The entry of a function in a traceback. -/
def tracebackEntry (name : String) : Option UInt32 → String
  | some line => name ++ ":" ++ toString line.toNat
  | none => name

theorem Prototype.location_eq (proto : Prototype) (offset : Nat) :
    proto.location offset =
      tracebackEntry (proto.name.getD "?")
        (proto.debug.bind (·.lineAt offset)) := by
  rw [location]
  cases proto.debug.bind fun info => info.lineAt offset <;> rfl

/-- The frame waits behind a call that was emitted under this line.  Its
prototype has the code and the lines that were assembled; the source may have
been named since. -/
inductive Frame.WaitsUnder (frame : Frame) (line : Option UInt32) : Prop
  | intro {start : Assembler} {before later : List Assembler.Step}
      {argumentCount : Nat} {built : Prototype} (hstart : start.Fresh)
    (hbuilt : built =
      (start.after (before ++ .emit .call [argumentCount] :: later)).build)
    (hsize : built.code.size < UInt32.size)
    (hcode : frame.proto.code = built.code)
    (hlines : frame.proto.debug.map DebugInfo.lines =
      built.debug.map DebugInfo.lines)
    (hip : frame.ip = (start.after before).code.size + Opcode.call.length)
    (hline : line = Assembler.lastLine before)

/-- Only the line table matters to where a line is looked up. -/
theorem lineAt_congr {debug debug' : Option DebugInfo}
    (h : debug.map DebugInfo.lines = debug'.map DebugInfo.lines)
    (offset : Nat) :
    debug.bind (·.lineAt offset) = debug'.bind (·.lineAt offset) := by
  cases debug with
  | none =>
    cases debug' with
    | none => rfl
    | some info => cases h
  | some info =>
    cases debug' with
    | none => cases h
    | some info' =>
      have hlines : info.lines = info'.lines := Option.some.inj h
      rw [Option.bind_some, Option.bind_some, DebugInfo.lineAt,
        DebugInfo.lineAt, hlines]

theorem Frame.WaitsUnder.location_eq {frame : Frame} {line : Option UInt32}
    (h : frame.WaitsUnder line) :
    frame.proto.location (frame.ip - 1) =
      tracebackEntry (frame.proto.name.getD "?") line := by
  cases h with
  | @intro start before later argumentCount built hstart hbuilt hsize hcode
      hlines hip hline =>
    have hinside : 1 < (Opcode.call.encode [argumentCount]).length := by
      change 1 < 2
      decide
    have hoffset : frame.ip - 1 = (start.after before).code.size + 1 := by
      rw [hip]
      rfl
    rw [hbuilt] at hsize hlines
    rw [Prototype.location_eq, lineAt_congr hlines, hoffset,
      Assembler.lineAt_build hstart hinside hsize, hline]

/-- A traceback has the entry of each frame at its place, the innermost
first. -/
theorem Context.getElem?_traceback (ctx : Context) (i : Nat) :
    ctx.traceback[i]? = (ctx.frames.toList.reverse[i]?).map
      fun frame => frame.proto.location (frame.ip - 1) := by
  rw [traceback, List.getElem?_map]

namespace Machine

open Context

/-- Line information is exact.  Each byte of an assembled instruction is on the
line that was set last before the instruction, and offsets grow in the line
table.  A native function that is called runs in a context that has each frame
suspended at a call, and where that is a call of assembled code, the entry of
the frame in a traceback has the line of the call. -/
theorem line_information_exact :
    (∀ start : Assembler, start.Fresh → ∀ steps,
      (start.after steps).build.code.size < UInt32.size →
      (∀ info, (start.after steps).build.debug = some info →
        info.lines.toList.Pairwise fun x y => x.1 < y.1) ∧
      ∀ before op operands later i,
        steps = before ++ .emit op operands :: later →
        i < (op.encode operands).length →
        (start.after steps).build.debug.bind
          (·.lineAt ((start.after before).code.size + i)) =
          Assembler.lastLine before) ∧
    (∀ natives : Natives, natives.Proper → ∀ (ctx : Context) frames budget
      argumentCount name c, ctx.Runs Prototype.Accepted frames →
      stackFloor frames + argumentCount < ctx.stack.size →
      (∀ frame ∈ frames, frame.Suspended) →
      StartsNative natives budget argumentCount ctx name c →
        RunsNative natives budget argumentCount ctx name c ∧
          ∀ frame ∈ c.frames.toList, frame.Suspended) ∧
    ∀ (ctx : Context) (i : Nat) frame line,
      ctx.frames.toList.reverse[i]? = some frame → frame.WaitsUnder line →
        ctx.traceback[i]? =
          some (tracebackEntry (frame.proto.name.getD "?") line) := by
  refine ⟨fun start hstart steps hsize => ⟨?_, ?_⟩, ?_, ?_⟩
  · rintro info ⟨⟩
    exact (hstart.ruled.after hsize).sorted
  · rintro before op operands later i rfl hi
    exact Assembler.lineAt_build hstart hi hsize
  · intro natives hnatives ctx frames budget argumentCount name c hruns hroom
      hsuspended hstarts
    constructor
    · exact runsNative_of_startsNative hereditary_accepted hnatives hruns hroom
        hsuspended hstarts
    · exact suspended_of_startsNative hereditary_accepted hnatives hruns hroom
        hsuspended hstarts
  · intro ctx i frame line hframe hwaits
    rw [ctx.getElem?_traceback, hframe, Option.map_some, hwaits.location_eq]

/-- A function of one parameter that it calls, on a line of its own. -/
def callOfParameter : List Assembler.Step :=
  [.params 1, .line 3, .emit .getLocal [0], .line 5, .emit .call [0],
    .emit .ret []]

/-- A context with this function and a native function on its stack. -/
def traced : Context :=
  stateOf ((Operation.push (.native "traceback")).run (stateOf
    ((Operation.loadPrototype
      (Assembler.after { name := "f" } callOfParameter).build "=f").run
      (create {} {}))))

theorem built_traced : traced.Built :=
  .operate (.operate (.create _ _) trivial) (Or.inl rfl)

/-- The second turn of the call starts the native function, and the frame that
it finds is one of the function above. -/
theorem traced_starts :
    ∃ t ∈ turnsOf Native.probe 9 1 traced, ∃ frame ∈ t.ctx.frames.back?,
      t.proto.code.opcodeAt? frame.ip = some .call ∧
        t.proto.code.byteAt? (frame.ip + 1) = some 0 ∧
        answerOf (fetch t.proto frame.ip .call t.ctx) = .ok () ∧
        frame.localsEnd + 0 + 1 ≤
          (stateOf (fetch t.proto frame.ip .call t.ctx)).stack.size ∧
        (stateOf (fetch t.proto frame.ip .call t.ctx)).stack.getD
          ((stateOf (fetch t.proto frame.ip .call t.ctx)).stack.size - (0 + 1))
          .nil =
            .native "traceback" ∧
        ∃ waiting ∈
          (stateOf (fetch t.proto frame.ip .call
            t.ctx)).frames.toList.reverse[0]?,
          waiting.proto.name = some "f" ∧ waiting.ip = 4 ∧
            waiting.proto.code =
              (Assembler.after { name := "f" } callOfParameter).build.code ∧
            waiting.proto.debug.map DebugInfo.lines =
              (Assembler.after { name := "f" } callOfParameter).build.debug.map
                DebugInfo.lines := by
  decide +kernel

theorem line_information_exact_traced :
    traced.Runs Prototype.Accepted [] ∧ stackFloor [] + 1 < traced.stack.size ∧
      ∃ c, StartsNative Native.probe 9 1 traced "traceback" c ∧
        RunsNative Native.probe 9 1 traced "traceback" c ∧
        (∀ frame ∈ c.frames.toList, frame.Suspended) ∧
        c.traceback[0]? = some "f:5" := by
  obtain ⟨-, hsuspended, htraceback⟩ := line_information_exact
  have hruns := built_traced.runs
  have hroom : stackFloor [] + 1 < traced.stack.size := by decide +kernel
  obtain ⟨t, ht, frame, hframe, hop, hcount, hfetch, hlocals, hcallee, waiting,
      hwaiting, hname, hip, hcode, hlines⟩ := traced_starts
  have hstarts : StartsNative Native.probe 9 1 traced "traceback" _ :=
    .turn ht hframe hop hcount (eq_of_answerOf_ok hfetch) hlocals hcallee
  have hwaits : waiting.WaitsUnder (some 5) :=
    @Frame.WaitsUnder.intro _ _ { name := "f" } (callOfParameter.take 4)
      (callOfParameter.drop 5) 0 _ (.named "f") rfl (by decide) hcode
      hlines hip rfl
  obtain ⟨hrun, hbehind⟩ :=
    hsuspended _ Native.proper_probe _ _ _ _ _ _ hruns hroom nofun hstarts
  refine ⟨hruns, hroom, _, hstarts, hrun, hbehind, ?_⟩
  rw [htraceback _ 0 waiting (some 5) hwaiting hwaits, hname]
  decide +kernel

end Machine

end Isolate
