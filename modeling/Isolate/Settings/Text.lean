import Isolate.Json.Parser
import Isolate.Json.Quoted
import Isolate.Settings.Basic

/-!
# Settings as text

A record of settings is a JSON object, or an array of its fields in order.  What
is not given keeps its default, unknown fields are ignored, and a known field
may be given once.
-/

namespace Isolate

/-- One field of a record: its name and how a document changes it. -/
structure Field (α : Type) where
  name : String
  put : Json → α → Option α

namespace Field

/-- Reads the members of an object; `seen` holds the fields read so far. -/
def putMembers {α : Type} (fields : List (Field α)) (seen : List String)
    (record : α) :
    List (List UInt8 × Json) → Option α
  | [] => some record
  | (bytes, document) :: rest => do
    let name ← Json.textOf? bytes
    match fields.find? fun field => field.name = name with
    | none => putMembers fields seen record rest
    | some field =>
      if name ∈ seen then none
      else
        let record ← field.put document record
        putMembers fields (name :: seen) record rest

/-- Reads the items of an array into the fields in order. -/
def putItems {α : Type} (record : α) : List (Field α) → List Json → Option α
  | _, [] => some record
  | [], _ :: _ => none
  | field :: fields, document :: rest => do
    let record ← field.put document record
    putItems record fields rest

def readRecord {α : Type} (fields : List (Field α)) (default : α) :
    Json → Option α
  | .object members => putMembers fields [] default members
  | .array items => putItems default fields items
  | _ => none

end Field

namespace Json

/-- A size is a natural number that fits in 64 bits. -/
def size? : Json → Option Nat
  | number (some n) => if n < UInt64.size then some n else none
  | _ => none

def bool? : Json → Option Bool
  | bool b => some b
  | _ => none

def text? : Json → Option String
  | string bytes => textOf? bytes
  | _ => none

/-- A level is its name, or an object whose only member is the name with a
null. -/
def logLevel? : Json → Option LogLevel
  | string bytes => (textOf? bytes).bind LogLevel.ofName?
  | object [(bytes, null)] => (textOf? bytes).bind LogLevel.ofName?
  | _ => none

end Json

namespace ContextSettings

def fields : List (Field ContextSettings) := [
  ⟨"max_stack", fun d s => d.size?.map fun n => { s with maxStack := n }⟩,
  ⟨"max_call_depth", fun d s =>
    d.size?.map fun n => { s with maxCallDepth := n }⟩,
  ⟨"gc_threshold", fun d s =>
    d.size?.map fun n => { s with gcThreshold := .ofNat n }⟩,
  ⟨"gc_enabled", fun d s => d.bool?.map fun b => { s with gcEnabled := b }⟩,
  ⟨"chunk_cache_capacity",
    fun d s => d.size?.map fun n => { s with chunkCacheCapacity := n }⟩,
  ⟨"max_chunk_size", fun d s =>
    d.size?.map fun n => { s with maxChunkSize := n }⟩,
  ⟨"trace", fun d s => d.bool?.map fun b => { s with trace := b }⟩]

def ofJson? : Json → Option ContextSettings := Field.readRecord fields {}

end ContextSettings

namespace TransferSettings

def fields : List (Field TransferSettings) := [
  ⟨"strip_debug", fun d s => d.bool?.map fun b => { s with stripDebug := b }⟩,
  ⟨"chunk_name", fun d s => d.text?.map fun t => { s with chunkName := t }⟩]

def ofJson? : Json → Option TransferSettings := Field.readRecord fields {}

end TransferSettings

/-- Why settings could not be had. -/
inductive SettingsError
  | unreadable
  | malformed
  deriving DecidableEq, Inhabited

/-- The message begins with the step that failed. -/
def SettingsError.message : SettingsError → String
  | unreadable => "cannot read config"
  | malformed => "invalid config"

namespace Settings

def fields : List (Field Settings) := [
  ⟨"context", fun d s =>
    (ContextSettings.ofJson? d).map fun c => { s with context := c }⟩,
  ⟨"transfer",
    fun d s =>
      (TransferSettings.ofJson? d).map fun t => { s with transfer := t }⟩,
  ⟨"log_level", fun d s => d.logLevel?.map fun l => { s with logLevel := l }⟩]

def ofJson? : Json → Option Settings := Field.readRecord fields {}

/-- Reads settings from the bytes of a document. -/
def ofBytes (bytes : List UInt8) : Except SettingsError Settings :=
  match (Json.parse? bytes).bind ofJson? with
  | some settings => .ok settings
  | none => .error .malformed

def ofText (text : String) : Except SettingsError Settings :=
  ofBytes text.toUTF8.toList

/-- Reads settings from the bytes of a file, if there is one. -/
def ofFile : Option (List UInt8) → Except SettingsError Settings
  | some bytes => ofBytes bytes
  | none => .error .unreadable

def boolText (b : Bool) : String := if b then "true" else "false"

/-- An object with each member on a line of its own, indented by `indent`. -/
def objectText (indent : String) (members : List (String × String)) : String :=
  let lines := members.map fun (name, document) =>
    indent ++ "  " ++ Json.quoted name ++ ": " ++ document
  "\x7b\n" ++ ",\n".intercalate lines ++ "\n" ++ indent ++ "\x7d"

/-- The settings as an indented document with all fields in order. -/
def text (s : Settings) : String :=
  objectText "" [
    ("context", objectText "  " [
      ("max_stack", toString s.context.maxStack),
      ("max_call_depth", toString s.context.maxCallDepth),
      ("gc_threshold", toString s.context.gcThreshold.toNat),
      ("gc_enabled", boolText s.context.gcEnabled),
      ("chunk_cache_capacity", toString s.context.chunkCacheCapacity),
      ("max_chunk_size", toString s.context.maxChunkSize),
      ("trace", boolText s.context.trace)]),
    ("transfer", objectText "  " [
      ("strip_debug", boolText s.transfer.stripDebug),
      ("chunk_name", Json.quoted s.transfer.chunkName)]),
    ("log_level", Json.quoted s.logLevel.name)]

end Settings

end Isolate
