import Isolate.Context.Basic

/-!
# Where scripts are
-/

namespace Isolate

/-- The name of a function, with the line of an instruction if it is known. -/
def Prototype.location (proto : Prototype) (offset : Nat) : String :=
  let name := proto.name.getD "?"
  match proto.debug.bind fun info => info.lineAt offset with
  | some line => name ++ ":" ++ toString line.toNat
  | none => name

/-- The locations of the frames, the innermost first.  A frame stands behind the
instruction that it is executing. -/
def Context.traceback (ctx : Context) : List String :=
  ctx.frames.toList.reverse.map fun frame => frame.proto.location (frame.ip - 1)

end Isolate
