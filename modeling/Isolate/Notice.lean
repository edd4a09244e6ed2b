import Isolate.Code.Instruction
import Isolate.Error
import Isolate.Settings.Basic

/-!
# Notices

What a context reports while it works.  Notices are data; their text is made
only when they are shown.
-/

namespace Isolate

inductive Notice
  | collected (freed live : Nat)
  | chunkLoaded (name : String) (size : Nat) (stripped : Bool)
  | cacheCleared (entries : Nat)
  | callFailed (error : RuntimeError)
  /-- An instruction is about to run: where it is, and the frames and stack
  slots in use. -/
  | executing (location : String) (offset : Nat) (op : Opcode)
      (operands : List Nat) (depth top : Nat)
  | transferStarted (kind : String)
  | transferDone (copied released : Nat)
  | transferFailed (error : TransferError) (released : Nat)
  | mergeStarted (slot : Nat)
  | mergeDone (added released : Nat)
  | mergeFailed (error : TransferError) (released : Nat)
  | globalsMerged (added : Nat)
  | globalsNotMerged (error : TransferError)
  /-- A remote call passes nil for an argument. -/
  | argumentReplaced (number : Nat) (error : TransferError)
  deriving DecidableEq

namespace Notice

def level : Notice → LogLevel
  | collected .. | chunkLoaded .. | executing .. | globalsMerged .. => .trace
  | globalsNotMerged .. | argumentReplaced .. => .warn
  | _ => .debug

def text : Notice → String
  | collected freed live =>
    "gc: freed " ++ toString freed ++ " objects, " ++ toString live ++ " live"
  | chunkLoaded name size stripped =>
    "loaded chunk " ++ name ++ " (" ++ toString size ++ " bytes, stripped: "
      ++ toString stripped ++ ")"
  | cacheCleared entries =>
    "chunk cache full (" ++ toString entries ++ " entries), clearing"
  | callFailed error => "call failed: " ++ error.message
  | executing location offset op operands depth top =>
    "[" ++ location ++ "] " ++ Text.decimal 4 offset ++ " " ++ op.name
      ++ Code.Line.operandText operands ++ " depth=" ++
      toString depth ++ " top=" ++ toString top
  | transferStarted kind => "transfer: start (" ++ kind ++ ")"
  | transferDone copied released =>
    "transfer: done, " ++ toString copied ++ " references copied, "
      ++ toString released ++ " pins released"
  | transferFailed error released =>
    "transfer: failed: " ++ error.message ++ " (" ++ toString released
      ++ " pins released)"
  | mergeStarted slot => "merge: start into destination slot " ++ toString slot
  | mergeDone added released =>
    "merge: done, " ++ toString added ++ " entries added, " ++ toString released
      ++ " pins released"
  | mergeFailed error released =>
    "merge: failed: " ++ error.message ++ " (" ++ toString released ++
      " pins released)"
  | globalsMerged added =>
    "remote call: merged " ++ toString added ++ " globals"
  | globalsNotMerged error =>
    "remote call: globals not merged: " ++ error.message
  | argumentReplaced number error =>
    "remote call: argument " ++ toString number ++ " not transferable ("
      ++ error.message ++ "), passing nil"

def line (notice : Notice) : String := notice.level.name ++ " " ++ notice.text

end Notice

end Isolate
