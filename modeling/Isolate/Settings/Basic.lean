/-!
# Settings
-/

namespace Isolate

/-- Limits and tuning of one context. -/
structure ContextSettings where
  /-- The most stack slots a script may use. -/
  maxStack : Nat := 65536
  /-- The most nested script calls. -/
  maxCallDepth : Nat := 200
  /-- Allocations between collections; the collector adapts it later. -/
  gcThreshold : UInt64 := 10000
  gcEnabled : Bool := true
  /-- Functions kept in the chunk cache; zero turns the cache off. -/
  chunkCacheCapacity : Nat := 64
  /-- The most bytes of a chunk that is written. -/
  maxChunkSize : Nat := 16777216
  /-- Whether every executed instruction is logged. -/
  trace : Bool := false
  deriving DecidableEq, Inhabited

/-- Tuning of copies between contexts. -/
structure TransferSettings where
  /-- Whether functions travel without debug information. -/
  stripDebug : Bool := true
  /-- The chunk name of functions loaded on the other side. -/
  chunkName : String := "=transfer"
  deriving DecidableEq, Inhabited

inductive LogLevel
  | off
  | error
  | warn
  | info
  | debug
  | trace
  deriving DecidableEq, Inhabited

namespace LogLevel

def name : LogLevel → String
  | off => "OFF"
  | error => "ERROR"
  | warn => "WARN"
  | info => "INFO"
  | debug => "DEBUG"
  | trace => "TRACE"

def all : List LogLevel := [off, error, warn, info, debug, trace]

/-- The level with a name, in either case of its letters. -/
def ofName? (text : String) : Option LogLevel :=
  all.find? fun level => text.toList.map Char.toUpper = level.name.toList

end LogLevel

structure Settings where
  context : ContextSettings := {}
  transfer : TransferSettings := {}
  logLevel : LogLevel := .info
  deriving DecidableEq, Inhabited

end Isolate
