import Isolate.Json.Quoted
import Isolate.Value.Key

/-!
# The order of listings

Where the bindings of a table are listed they are sorted by key, kind by kind.
-/

namespace Isolate

/-- A proxy as an object of JSON, by which proxies are sorted. -/
def Proxy.listing (proxy : Proxy) : String :=
  "\x7b\"host\":" ++ Json.quoted proxy.host.token ++ ",\"proxy\":\""
    ++ proxy.kind.name ++ "\"\x7d"

namespace Key

/-- The place of the kind of a key. -/
def group : Key → Nat
  | boolean _ => 0
  | integer _ => 1
  | float _ => 2
  | string _ => 3
  | light _ => 4
  | native _ => 5
  | proxy _ => 6
  | table _ => 7
  | function _ => 8
  | userdata _ => 9

/-- Whether a key is listed at or before another. -/
def atMost : Key → Key → Bool
  | boolean a, boolean b => !a || b
  | integer i, integer j => decide (i ≤ j)
  | float x, float y => decide (x.rank ≤ y.rank)
  | string s, string t => decide (s ≤ t)
  | light a, light b => decide (a ≤ b)
  | native m, native n => decide (m ≤ n)
  | proxy p, proxy q => decide (p.listing ≤ q.listing)
  | table h, table k | function h, function k | userdata h, userdata k =>
    decide (h.index ≤ k.index)
  | a, b => decide (a.group ≤ b.group)

/-- Bindings in the order of their keys. -/
def sorted {α : Type} (entries : List (Key × α)) : List (Key × α) :=
  entries.mergeSort fun a b => a.1.atMost b.1

end Key

end Isolate
