import Isolate.Proofs.Context.Assignment
import Isolate.Proofs.Context.Handling
import Isolate.Proofs.Value.Equality
import Isolate.Proofs.Value.Order
import Mathlib.Data.List.Nodup

/-!
# Tables as maps

A host writes to one table in three ways: under a value, under a name, and under
an integer.  However the writes follow each other, the table is the map from
values up to equality that the last write to each of them makes, and its border
is that of the numbers that are bound.
-/

namespace Isolate

open Context

/-- A write of a host to the table at a stack index. -/
inductive TableWrite
  | entry (index : Int) (key value : Value)
  | field (index : Int) (name : String) (value : Value)
  | item (index : Int) (n : Int64) (value : Value)

namespace TableWrite

def index : TableWrite → Int
  | entry index _ _ | field index _ _ | item index _ _ => index

def key : TableWrite → Value
  | entry _ key _ => key
  | field _ name _ => .string name
  | item _ n _ => .integer n

def value : TableWrite → Value
  | entry _ _ value | field _ _ value | item _ _ value => value

/-- The stack on which the operands lie. -/
def onto (stack : Array Value) : TableWrite → Array Value
  | entry _ key value => (stack.push key).push value
  | field _ _ value | item _ _ value => stack.push value

/-- Pushes the operands and writes. -/
def run : TableWrite → Action Unit
  | entry index key value => do
    push key
    push value
    rawSet index
  | field index name value => do
    push value
    rawSetField index name
  | item index n value => do
    push value
    rawSetIndex index n

/-- With the operands on the stack, the index is that of the table. -/
def Targets (ctx : Context) (handle : Handle) (w : TableWrite) : Prop :=
  { ctx with stack := w.onto ctx.stack }.tableRefAt w.index = .ok handle

end TableWrite

/-- What the last write to an equal key stored, and nil without one. -/
def lastWritten (writes : List TableWrite) (key : Value) : Value :=
  ((writes.reverse.find? fun w => w.key.rawEqual key).map
    TableWrite.value).getD .nil

/-- A number is an index that is bound, whether as an integer or as a float. -/
def BoundIndex (writes : List TableWrite) (i : Nat) : Prop :=
  ∃ key : Value, key.denoted? = some ((i : ℝ) : EReal) ∧
    lastWritten writes key ≠ .nil

/-- The indices from 1 to a number are bound, and the next one is not. -/
def IsBorder (writes : List TableWrite) (n : Nat) : Prop :=
  (∀ i, 1 ≤ i → i ≤ n → BoundIndex writes i) ∧ ¬BoundIndex writes (n + 1)

variable {writes : List TableWrite} {w : TableWrite} {key : Value}
  {k : Key} {t : Table} {ctx : Context} {handle : Handle} {n : Nat}

theorem lastWritten_concat (writes : List TableWrite) (w : TableWrite)
    (key : Value) :
    lastWritten (writes ++ [w]) key =
      if w.key.rawEqual key then w.value else lastWritten writes key := by
  rw [lastWritten, List.reverse_append, List.reverse_singleton,
    List.singleton_append, List.find?_cons]
  cases w.key.rawEqual key <;> rfl

theorem isKey_of_key? (h : key.key? = some k) :
    key.IsKey := Value.isKey_iff.2 ⟨k, h⟩

theorem IsBorder.unique {m : Nat} (hm : IsBorder writes m)
    (hn : IsBorder writes n) : m = n := by
  rcases Nat.lt_trichotomy m n with hlt | heq | hlt
  · exact absurd (hn.1 (m + 1) (Nat.le_add_left 1 m) hlt) hm.2
  · exact heq
  · exact absurd (hm.1 (n + 1) (Nat.le_add_left 1 n) hlt) hn.2

/-! ## One write -/

theorem TableWrite.run_eq (htable : ctx.heap.get? handle = some (.table t))
    (htargets : w.Targets ctx handle) (hkey : w.key.key? = some k) :
    w.run ctx = .ok () { ctx with
      heap := ctx.heap.update handle fun
        | .table t => .table (t.set k w.value)
        | object => object } := by
  cases w with
  | entry index key value => exact rawSet_of_tableRefAt htargets rfl htable hkey
  | field index name value =>
    cases hkey
    exact rawSetKey_of_tableRefAt htargets rfl htable (.string name)
  | item index n value =>
    cases hkey
    exact rawSetKey_of_tableRefAt htargets rfl htable (.integer n)

/-- A table that binds what the last writes stored. -/
structure Table.Records (writes : List TableWrite) (t : Table) : Prop where
  canonical : ∀ entry ∈ t.entries, entry.1.Canonical
  get_eq : ∀ (key : Value) (k : Key), key.key? = some k →
    t.get k = lastWritten writes key

namespace Table.Records

theorem empty : Table.Records [] Table.empty := ⟨nofun, fun _ _ _ => rfl⟩

/-- The step of the history: equal values have the same key. -/
theorem set (h : t.Records writes) (hkey : w.key.key? = some k) :
    (t.set k w.value).Records (writes ++ [w]) where
  canonical := by
    intro entry hentry
    rcases mem_of_mem_entries_set hentry with hentry | ⟨rfl, -⟩
    · exact h.canonical entry hentry
    · exact Value.canonical_of_key? hkey
  get_eq := by
    intro other k' hother
    have hequal :=
      Value.rawEqual_iff_key? (isKey_of_key? hkey) (isKey_of_key? hother)
    rw [hkey, hother, Option.some_inj] at hequal
    rw [get_set, lastWritten_concat, h.get_eq other k' hother]
    by_cases hsame : k = k'
    · rw [if_pos hsame.symm, if_pos (hequal.2 hsame)]
    · rw [if_neg (Ne.symm hsame), if_neg fun htrue => hsame (hequal.1 htrue)]

end Table.Records

/-- A context in which only the table has changed, to what the
writes make of it. -/
structure Context.Written (writes : List TableWrite) (handle : Handle)
    (ctx c : Context) : Prop where
  stack : c.stack = ctx.stack
  table : ∃ t : Table, c.heap.get? handle = some (.table t) ∧ t.Records writes

theorem Context.Written.run (c : Context) (h : ctx.Written writes handle c)
    (htargets : w.Targets ctx handle) (hkey : w.key.IsKey) :
    ∃ d, w.run c = .ok () d ∧ ctx.Written (writes ++ [w]) handle d := by
  obtain ⟨t, htable, hrecords⟩ := h.table
  obtain ⟨k, hk⟩ := Value.isKey_iff.1 hkey
  have htargets : w.Targets c handle := by
    rw [TableWrite.Targets, tableRefAt_eq_ok_iff] at htargets ⊢
    rw [h.stack]
    exact htargets
  exact ⟨_, TableWrite.run_eq htable htargets hk, h.stack, _,
    get?_storeKey htable k w.value, hrecords.set hk⟩

/-- A sequence of writes leaves the stack as it was and the table as the last of
them have made it. -/
theorem Context.written_forM
    (hempty : ctx.heap.get? handle = some (.table .empty))
    (hwrites : ∀ w ∈ writes, w.Targets ctx handle ∧ w.key.IsKey) :
    ∃ c, writes.forM TableWrite.run ctx = .ok () c ∧
      ctx.Written writes handle c := by
  have hends : Ends (writes.forM TableWrite.run ctx)
      (fun _ c => ctx.Written writes handle c) (fun _ _ => False) := by
    let written : List TableWrite → Context → Prop :=
      fun done c => ctx.Written done handle c
    have hstart : written [] ctx := ⟨rfl, _, hempty, .empty⟩
    refine ends_forM hstart (fun done w rest c hsplit hc => ?_)
      (List.nil_append _).symm
    obtain ⟨htargets, hkey⟩ :=
      hwrites w (hsplit ▸ List.mem_append_right _ List.mem_cons_self)
    obtain ⟨d, hrun, hd⟩ := hc.run c htargets hkey
    rw [hrun]
    exact hd
  cases hresult : writes.forM TableWrite.run ctx with
  | ok _ c => exact ⟨c, rfl, hends.ok hresult⟩
  | error e c => exact (hends.error hresult).elim

/-! ## The pairs of a table -/

namespace Table.Records

/-- The pairs under a key equal to this one. -/
theorem countP_pairs (h : t.Records writes) (hkey : key.IsKey) :
    (t.entries.map fun (k, value) => (k.toValue, value)).countP
        (fun pair => pair.1.rawEqual key) =
      if lastWritten writes key = .nil then 0 else 1 := by
  obtain ⟨k, hk⟩ := Value.isKey_iff.1 hkey
  have hcount : (t.entries.map fun (k, value) => (k.toValue, value)).countP
      (fun pair => pair.1.rawEqual key) = (t.entries.map Prod.fst).count k := by
    rw [List.countP_map, List.count, List.countP_map]
    apply List.countP_congr
    intro entry hentry
    have hcanonical := h.canonical entry hentry
    have hequal := Value.rawEqual_iff_key? (isKey_of_key? hcanonical) hkey
    rw [hcanonical, hk, Option.some_inj] at hequal
    exact hequal.trans beq_iff_eq.symm
  have hbound : lastWritten writes key = .nil ↔ k ∉ t.entries.map Prod.fst := by
    rw [← h.get_eq key k hk, get_eq_nil_iff, find?_eq_none_iff]
  rw [hcount, t.distinct.count]
  by_cases hnil : lastWritten writes key = .nil
  · rw [if_pos hnil, if_neg (hbound.1 hnil)]
  · rw [if_neg hnil, if_pos (not_not.1 fun hmem => hnil (hbound.2 hmem))]

/-- Every pair is what was written last under its key. -/
theorem lastWritten_of_mem_pairs (h : t.Records writes) {pair : Value × Value}
    (hpair : pair ∈ t.entries.map fun (k, value) => (k.toValue, value)) :
    pair.1.IsKey ∧ pair.2 ≠ .nil ∧ lastWritten writes pair.1 = pair.2 := by
  obtain ⟨⟨k, value⟩, hentry, rfl⟩ := List.mem_map.1 hpair
  have hcanonical := h.canonical _ hentry
  have hvalue : value ≠ .nil := t.bound _ hentry
  refine ⟨isKey_of_key? hcanonical, hvalue, ?_⟩
  rw [← h.get_eq k.toValue k hcanonical]
  exact (get_eq_iff_mem hvalue).2 hentry

end Table.Records

/-! ## The border of a table -/

/-- Values that denote a number within the range of integers have the
key of that integer. -/
theorem key?_of_denoted? {i : Nat} (hi : i < 2 ^ 63)
    (h : key.denoted? = some ((i : ℝ) : EReal)) :
    key.key? = some (.integer (Int64.ofNat i)) := by
  have hvalue : (Int64.ofNat i).toInt = (i : Int) := Int64.toInt_ofNat_of_lt hi
  rcases Value.denoted?_cases h with ⟨j, rfl, hj⟩ | ⟨x, rfl, -, hx⟩
  · rw [EReal.coe_eq_coe_iff, ← Int.cast_natCast, Int.cast_inj] at hj
    have hsame : Int64.ofNat i = j := Int64.toInt_inj.1 (hvalue.trans hj)
    rw [hsame]
    rfl
  · apply Value.key?_float_of_some
    rw [Binary64.toInt64?_eq_some_iff, ← hx, hvalue, Int.cast_natCast]

theorem isKey_of_denoted? {p : EReal}
    (h : key.denoted? = some p) : key.IsKey := by
  rcases Value.denoted?_cases h with ⟨j, rfl, -⟩ | ⟨x, rfl, hx, -⟩
  · exact ⟨nofun, rfl⟩
  · exact ⟨nofun, hx⟩

namespace Table.Records

/-- A number within the range of integers is bound if its key is. -/
theorem boundIndex_iff (h : t.Records writes) {i : Nat} (hi : i < 2 ^ 63) :
    BoundIndex writes i ↔ t.contains (.integer (Int64.ofNat i)) = true := by
  have hcontains : t.contains (.integer (Int64.ofNat i)) = true ↔
      lastWritten writes (.integer (Int64.ofNat i)) ≠ .nil := by
    rw [contains, Option.isSome_iff_ne_none, ne_eq, ← get_eq_nil_iff,
      h.get_eq (.integer (Int64.ofNat i)) _ rfl]
  rw [hcontains]
  constructor
  · rintro ⟨key, hdenoted, hbound⟩
    have hkey := key?_of_denoted? hi hdenoted
    rwa [← h.get_eq key _ hkey,
      h.get_eq (.integer (Int64.ofNat i)) _ rfl] at hbound
  · intro hbound
    refine ⟨.integer (Int64.ofNat i), ?_, hbound⟩
    rw [Value.denoted?, Int64.toInt_ofNat_of_lt hi, Int.cast_natCast]

/-- Bound indices have different keys, so there are no more of them than
entries. -/
theorem le_size (h : t.Records writes)
    (hbound : ∀ i, 1 ≤ i → i ≤ n → BoundIndex writes i) : n ≤ t.size := by
  choose! key hdenoted hlast using hbound
  have hkeys : ∀ i ∈ List.range' 1 n, 1 ≤ i ∧ i ≤ n := by
    intro i hi
    rw [List.mem_range'_1] at hi
    omega
  have hnodup : ((List.range' 1 n).map fun i => (key i).key?).Nodup := by
    refine List.Nodup.map_on ?_ List.nodup_range'
    intro i hi j hj hsame
    obtain ⟨hi, hin⟩ := hkeys i hi
    obtain ⟨hj, hjn⟩ := hkeys j hj
    have hequal :=
      (Value.rawEqual_iff_key? (isKey_of_denoted? (hdenoted i hi hin))
        (isKey_of_denoted? (hdenoted j hj hjn))).2 hsame
    rw [Value.rawEqual_iff_exact (hdenoted i hi hin) (hdenoted j hj hjn),
      EReal.coe_eq_coe_iff] at hequal
    exact Nat.cast_injective hequal
  have hsubset : ((List.range' 1 n).map fun i => (key i).key?) ⊆
      t.entries.map fun entry => some entry.1 := by
    intro found hfound
    obtain ⟨i, hi, rfl⟩ := List.mem_map.1 hfound
    obtain ⟨hi, hin⟩ := hkeys i hi
    obtain ⟨k, hk⟩ := Value.isKey_iff.1 (isKey_of_denoted? (hdenoted i hi hin))
    have hentry := (get_eq_iff_mem (hlast i hi hin)).1 (h.get_eq (key i) k hk)
    exact List.mem_map.2 ⟨_, hentry, hk.symm⟩
  have hlength := (List.subperm_of_subset hnodup hsubset).length_le
  rwa [List.length_map, List.length_range', List.length_map] at hlength

end Table.Records

/-- Counting on for as long as the next index is bound, with no
limit on the rounds. -/
inductive Table.CountsTo (t : Table) : Nat → Nat → Prop
  | stop {n : Nat} (h : t.contains (.integer (Int64.ofNat (n + 1))) = false) :
      t.CountsTo n n
  | next {n m : Nat} (h : t.contains (.integer (Int64.ofNat (n + 1))) = true)
      (hrest : t.CountsTo (n + 1) m) : t.CountsTo n m

/-- The counting stops at the first index that is not bound, or when it has
counted as often as it may. -/
theorem Table.borderFrom_spec (t : Table) (steps n : Nat) :
    t.borderFrom steps n ≤ n + steps ∧
      (∀ i, n < i → i ≤ t.borderFrom steps n →
        t.contains (.integer (Int64.ofNat i)) = true) ∧
      (t.borderFrom steps n < n + steps →
        t.contains (.integer (Int64.ofNat (t.borderFrom steps n + 1))) =
          false) := by
  induction steps generalizing n with
  | zero =>
    rw [borderFrom]
    exact ⟨Nat.le_refl n, fun i hi hin => by omega, fun hlt => by omega⟩
  | succ steps ih =>
    rw [borderFrom]
    split
    · next hnext =>
      obtain ⟨hmost, hall, hstop⟩ := ih (n + 1)
      refine ⟨by omega, fun i hi hin => ?_, fun hlt => hstop (by omega)⟩
      rcases Nat.eq_or_lt_of_le (Nat.succ_le_of_lt hi) with rfl | hi
      · exact hnext
      · exact hall i hi hin
    · next hnext =>
      exact ⟨Nat.le_add_right _ _, fun i hi hin => by omega,
        fun _ => eq_false_of_ne_true hnext⟩

/-- Where the limit on the rounds is not what ends the counting, there
is no need for it. -/
theorem Table.countsTo_borderFrom {steps : Nat}
    (hstop :
      t.contains (.integer (Int64.ofNat (t.borderFrom steps n + 1))) = false) :
    t.CountsTo n (t.borderFrom steps n) := by
  induction steps generalizing n with
  | zero => exact .stop hstop
  | succ steps ih =>
    rw [borderFrom] at hstop ⊢
    split at hstop
    · next hnext =>
      rw [if_pos hnext]
      exact .next hnext (ih hstop)
    · next hnext =>
      rw [if_neg hnext]
      exact .stop hstop

/-- The border that a table gives is the one of what was written, and counting
without a limit comes to it. -/
theorem Table.Records.isBorder_border (h : t.Records writes)
    (hsize : t.size + 1 < 2 ^ 63) :
    IsBorder writes t.border ∧ t.CountsTo 0 t.border := by
  obtain ⟨hmost, hall, hstop⟩ := t.borderFrom_spec t.size 0
  rw [Nat.zero_add] at hmost hstop
  change t.border ≤ t.size at hmost
  have hbound :
      ∀ i, 1 ≤ i → i ≤ t.border → BoundIndex writes i := fun i hi hin =>
    (h.boundIndex_iff (by omega)).2 (hall i hi hin)
  have hlast : ¬BoundIndex writes (t.border + 1) := by
    intro hnext
    rcases Nat.lt_or_eq_of_le hmost with hlt | heq
    · rw [h.boundIndex_iff (by omega)] at hnext
      exact absurd (hnext.symm.trans (hstop hlt)) nofun
    -- The count is exhausted, so all entries are among the indices below.
    · have hmore : t.border + 1 ≤ t.size := by
        apply h.le_size
        intro i hi hin
        rcases Nat.lt_or_eq_of_le hin with hlt | rfl
        · exact hbound i hi (Nat.le_of_lt_succ hlt)
        · exact hnext
      omega
  refine ⟨⟨hbound, hlast⟩,
    countsTo_borderFrom (eq_false_of_ne_true fun hnext => hlast ?_)⟩
  exact (h.boundIndex_iff (by omega)).2 hnext

/-! ## What is read -/

namespace Context.Written

variable {c : Context} {index : Int}

theorem rawGet_eq (h : ctx.Written writes handle c) (hkey : key.IsKey)
    (hat : Context.tableRefAt { c with stack := c.stack.push key } index =
      .ok handle) :
    (do push key; rawGet index : Action Kind) c =
      .ok (lastWritten writes key).kind
        { c with stack := c.stack.push (lastWritten writes key) } := by
  obtain ⟨t, htable, hrecords⟩ := h.table
  obtain ⟨k, hk⟩ := Value.isKey_iff.1 hkey
  have hfound : Context.lookupKey { c with stack := c.stack } handle key =
      .ok (lastWritten writes key) := by
    rw [lookupKey_eq htable hk, hrecords.get_eq key k hk]
  have hpush : push key c = .ok () { c with stack := c.stack.push key } := rfl
  rw [bind_of_ok hpush, rawGet, bind_of_ok (query_eq hat),
    bind_of_ok (popTop_eq rfl), bind_of_ok (query_eq hfound)]
  rfl

theorem exists_pairs (h : ctx.Written writes handle c)
    (hat : c.tableRefAt index = .ok handle) :
    ∃ t : Table, c.tableOf handle = .ok t ∧ t.Records writes ∧
      c.rawLength index = .ok t.border ∧
      c.tablePairs index =
        .ok (t.entries.map fun (k, value) => (k.toValue, value)) := by
  obtain ⟨t, htable, hrecords⟩ := h.table
  have htableOf : c.tableOf handle = .ok t := tableOf_eq_ok_iff.2 htable
  refine ⟨t, htableOf, hrecords, ?_, ?_⟩
  · simp only [rawLength]
    rw [tableRefAt_eq_ok_iff.1 hat]
    change (c.tableOf handle).map Table.border = _
    rw [htableOf]
    rfl
  · simp only [tablePairs, tableAt]
    rw [hat]
    change (c.tableOf handle >>= _) = _
    rw [htableOf]
    rfl

end Context.Written

/-- After any writes to a new table each value is bound to what the last write
to an equal one stored.  The table lists one pair for each class of equal values
that are bound, and its border is the one number up to which all indices are
bound, at which the counting ends by itself.  With more pairs than there are
integers to count them the counting would wrap. -/
theorem tables_are_maps (hempty : ctx.heap.get? handle = some (.table .empty))
    (hwrites : ∀ w ∈ writes, w.Targets ctx handle ∧ w.key.IsKey) :
    ∃ c, writes.forM TableWrite.run ctx = .ok () c ∧ c.stack = ctx.stack ∧
      (∀ (index : Int) (key : Value), key.IsKey →
        Context.tableRefAt { c with stack := c.stack.push key } index =
          .ok handle →
        (do push key; rawGet index : Action Kind) c =
          .ok (lastWritten writes key).kind
            { c with stack := c.stack.push (lastWritten writes key) }) ∧
      ∀ index, c.tableRefAt index = .ok handle → ∃ pairs n,
        c.tablePairs index = .ok pairs ∧ c.rawLength index = .ok n ∧
        (∀ key : Value, key.IsKey →
          pairs.countP (fun pair => pair.1.rawEqual key) =
            if lastWritten writes key = .nil then 0 else 1) ∧
        (∀ pair ∈ pairs, pair.1.IsKey ∧ pair.2 ≠ .nil ∧
          lastWritten writes pair.1 = pair.2) ∧
        (pairs.length + 1 < 2 ^ 63 → (∀ m, IsBorder writes m ↔ m = n) ∧
          ∃ t : Table, c.tableOf handle = .ok t ∧ t.CountsTo 0 n) := by
  obtain ⟨c, hrun, hwritten⟩ := written_forM hempty hwrites
  refine ⟨c, hrun, hwritten.stack,
    fun index key hkey hat => hwritten.rawGet_eq hkey hat, fun index hat => ?_⟩
  obtain ⟨t, htableOf, hrecords, hlength, hpairs⟩ := hwritten.exists_pairs hat
  refine ⟨_, t.border, hpairs, hlength,
    fun key hkey => hrecords.countP_pairs hkey, fun pair hpair =>
      hrecords.lastWritten_of_mem_pairs hpair, fun hsize => ?_⟩
  rw [List.length_map] at hsize
  obtain ⟨hborder, hcounts⟩ := hrecords.isBorder_border hsize
  refine ⟨fun m => ⟨fun hm => hm.unique hborder, fun hm => hm ▸ hborder⟩, t,
    htableOf, hcounts⟩

/-- A context with one new table on its stack. -/
def withNewTable : Context := stateOf (newTable (create {} {}))

/-- Writes under the float 1, the integers 1 and 2 and a name, one of which
takes back what another one stored. -/
def mixedWrites : List TableWrite :=
  [.entry 1 (.float ⟨0x3ff0000000000000⟩) (.string "first"),
    .item (-2) 1 (.string "second"), .field 1 "x" (.boolean true),
    .entry (-3) (.integer 2) (.string "third"), .field (-2) "x" .nil]

theorem tables_are_maps_mixed :
    withNewTable.heap.get? ⟨1⟩ = some (.table .empty) ∧
      (∀ w ∈ mixedWrites, w.Targets withNewTable ⟨1⟩ ∧ w.key.IsKey) ∧
      ∃ c, mixedWrites.forM TableWrite.run withNewTable = .ok () c ∧
        (do push (.float ⟨0x3ff0000000000000⟩); rawGet (-2) : Action Kind) c =
          .ok .string { c with stack := c.stack.push (.string "second") } ∧
        ∃ pairs n, c.tablePairs 1 = .ok pairs ∧ c.rawLength 1 = .ok n ∧
          (pairs.length + 1 < 2 ^ 63 → ∀ m,
            IsBorder mixedWrites m ↔ m = n) := by
  have hempty : withNewTable.heap.get? ⟨1⟩ = some (.table .empty) := by rfl
  have hwrites :
      ∀ w ∈ mixedWrites, w.Targets withNewTable ⟨1⟩ ∧ w.key.IsKey := by
    simp only [mixedWrites, List.forall_mem_cons]
    refine ⟨⟨rfl, nofun, rfl⟩, ⟨rfl, nofun, rfl⟩, ⟨rfl, nofun, rfl⟩,
      ⟨rfl, nofun, rfl⟩, ⟨rfl, nofun, rfl⟩, nofun⟩
  obtain ⟨c, hrun, hstack, hget, hlist⟩ := tables_are_maps hempty hwrites
  have hsame : c.stack = #[.table ⟨1⟩] := hstack
  have hfloat : (Value.float ⟨0x3ff0000000000000⟩).IsKey := ⟨nofun, rfl⟩
  refine ⟨hempty, hwrites, c, hrun, hget (-2) _ hfloat ?_, ?_⟩
  · rw [tableRefAt_eq_ok_iff, hsame]
    rfl
  · obtain ⟨pairs, n, hpairs, hlength, -, -, hborder⟩ := hlist 1 (by
      rw [tableRefAt_eq_ok_iff]
      exact valueAt_of_getElem? (i := 0) (by rw [hsame]; rfl))
    exact ⟨pairs, n, hpairs, hlength, fun hsize => (hborder hsize).1⟩

end Isolate
