import Isolate.Chunk.Reader

/-!
# Agreement of writers and readers

A writer is uniform: it appends the same bytes to every sink that has room for
them, or it fails on every sink.  A writer and a reader agree on a result when
the reader gives that result on the bytes of the writer, whatever follows them.
Agreement is closed under sequencing and under counted repetition, so a record
agrees when its fields do.
-/

namespace Isolate.Chunk

/-! ## Writers -/

namespace Writer

/-- Appends these bytes to every sink with room for them, and fails on every
other.  Sinks never hold more than their limit. -/
def Appends (w : Writer) (bytes : List UInt8) : Prop :=
  ∀ sink : Sink, sink.bytes.size ≤ sink.limit → w sink =
    if sink.limit < sink.bytes.size + bytes.length then
      .error (.tooLarge sink.limit)
    else .ok ((), { sink with bytes := sink.bytes ++ bytes.toArray })

/-- Fails on every sink. -/
def Refuses (w : Writer) : Prop :=
  ∀ sink : Sink, sink.bytes.size ≤ sink.limit →
    w sink = .error (.tooLarge sink.limit)

/-- Fails on every sink or appends fixed bytes, of which there are at least so
many. -/
def Uniform (least : Nat) (w : Writer) : Prop :=
  w.Refuses ∨ ∃ bytes, least ≤ bytes.length ∧ w.Appends bytes

theorem bind_apply (w v : Writer) (sink : Sink) :
    (w >>= fun _ => v) sink = (match w sink with
      | .ok ((), sink) => v sink
      | .error error => .error error) := by
  change StateT.bind w (fun _ => v) sink = _
  simp only [StateT.bind]
  cases w sink <;> rfl

theorem appends_pure : Appends (pure ()) [] := by
  intro sink hsink
  rw [if_neg (by simpa using hsink), Array.append_empty]
  rfl

theorem appends_put (bytes : List UInt8) :
    (put bytes).Appends bytes := fun _ _ => rfl

theorem Appends.bind {w v : Writer} {first second : List UInt8}
    (hw : w.Appends first) (hv : v.Appends second) :
    Appends (w >>= fun _ => v) (first ++ second) := by
  intro sink hsink
  rw [bind_apply, hw sink hsink]
  by_cases h : sink.limit < sink.bytes.size + first.length
  · have htotal : sink.limit < sink.bytes.size + (first ++ second).length := by
      rw [List.length_append]
      omega
    rw [if_pos h, if_pos htotal]
  · have hroom : (sink.bytes ++ first.toArray).size ≤ sink.limit := by
      simp only [Array.size_append, List.size_toArray]
      omega
    rw [if_neg h]
    simp only [hv { sink with bytes := _ } hroom, Array.size_append,
      List.size_toArray, List.length_append, Nat.add_assoc, Array.append_assoc,
      List.append_toArray]

theorem Refuses.bind {w : Writer} (hw : w.Refuses) (v : Writer) :
    Refuses (w >>= fun _ => v) := by
  intro sink hsink
  rw [bind_apply, hw sink hsink]

/-- A sink that the first bytes do not fit into is refused for that reason, and
any other by the second writer. -/
theorem Appends.bind_refuses {w v : Writer} {first : List UInt8}
    (hw : w.Appends first) (hv : v.Refuses) : Refuses (w >>= fun _ => v) := by
  intro sink hsink
  rw [bind_apply, hw sink hsink]
  by_cases h : sink.limit < sink.bytes.size + first.length
  · rw [if_pos h]
  · have hroom : (sink.bytes ++ first.toArray).size ≤ sink.limit := by
      simp only [Array.size_append, List.size_toArray]
      omega
    rw [if_neg h]
    exact hv { sink with bytes := _ } hroom

end Writer

/-! ## Readers -/

namespace Reader

variable {α β : Type}

/-- Gives this result on every input that starts with these bytes, and on
success leaves what follows them. -/
def Takes (r : Reader α) (bytes : List UInt8)
    (result : Except LoadError α) : Prop :=
  ∀ rest, r (bytes ++ rest) = result.map fun a => (a, rest)

theorem bind_apply (r : Reader α) (k : α → Reader β) (bytes : List UInt8) :
    (r >>= k) bytes = (match r bytes with
      | .ok (a, rest) => k a rest
      | .error error => .error error) := by
  change StateT.bind r k bytes = _
  simp only [StateT.bind]
  cases r bytes <;> rfl

theorem takes_pure (a : α) : Takes (pure a) [] (.ok a) := fun _ => rfl

theorem Takes.bind {r : Reader α} {k : α → Reader β}
    {first second : List UInt8} {a : α} {result : Except LoadError β}
    (hr : r.Takes first (.ok a)) (hk : (k a).Takes second result) :
    Takes (r >>= k) (first ++ second) result := by
  intro rest
  rw [bind_apply, List.append_assoc, hr]
  exact hk rest

theorem Takes.bind_error {r : Reader α} {first : List UInt8} {error : LoadError}
    (hr : r.Takes first (.error error)) (k : α → Reader β)
    (second : List UInt8) :
    Takes (r >>= k) (first ++ second) (.error error) := by
  intro rest
  rw [bind_apply, List.append_assoc, hr]
  rfl

end Reader

/-! ## Agreement -/

section Agreement

variable {α β : Type}

/-- The reader gives the result on what the writer writes, which is at least so
many bytes. -/
def Agrees (least : Nat) (w : Writer) (r : Reader α)
    (result : Except LoadError α) : Prop :=
  w.Refuses ∨
    ∃ bytes, least ≤ bytes.length ∧ w.Appends bytes ∧ r.Takes bytes result

theorem Agrees.uniform {least : Nat} {w : Writer} {r : Reader α}
    {result : Except LoadError α} (h : Agrees least w r result) :
    w.Uniform least := by
  rcases h with h | ⟨bytes, hleast, h, -⟩
  · exact .inl h
  · exact .inr ⟨bytes, hleast, h⟩

theorem agrees_pure (a : α) : Agrees 0 (pure ()) (pure a) (.ok a) :=
  .inr ⟨[], Nat.le_refl 0, Writer.appends_pure, Reader.takes_pure a⟩

theorem Agrees.mono {least less : Nat} {w : Writer} {r : Reader α}
    {result : Except LoadError α} (h : Agrees least w r result)
    (hless : less ≤ least) : Agrees less w r result := by
  rcases h with h | ⟨bytes, hleast, hw, hr⟩
  · exact .inl h
  · exact .inr ⟨bytes, Nat.le_trans hless hleast, hw, hr⟩

/-- One field after another. -/
theorem Agrees.bind {least more : Nat} {w v : Writer} {r : Reader α}
    {k : α → Reader β} {a : α} {result : Except LoadError β}
    (hw : Agrees least w r (.ok a)) (hv : Agrees more v (k a) result) :
    Agrees (least + more) (w >>= fun _ => v) (r >>= k) result := by
  rcases hw with hw | ⟨bytes, hleast, hw, hr⟩
  · exact .inl (hw.bind v)
  rcases hv with hv | ⟨others, hmore, hv, hk⟩
  · exact .inl (hw.bind_refuses hv)
  refine .inr ⟨bytes ++ others, ?_, hw.bind hv, hr.bind hk⟩
  rw [List.length_append]
  exact Nat.add_le_add hleast hmore

/-- What follows a field that cannot be read is written all the same. -/
theorem Agrees.bind_error {least more : Nat} {w v : Writer} {r : Reader α}
    {error : LoadError} (hw : Agrees least w r (.error error))
    (hv : v.Uniform more) (k : α → Reader β) :
    Agrees (least + more) (w >>= fun _ => v) (r >>= k) (.error error) := by
  rcases hw with hw | ⟨bytes, hleast, hw, hr⟩
  · exact .inl (hw.bind v)
  rcases hv with hv | ⟨others, hmore, hv⟩
  · exact .inl (hw.bind_refuses hv)
  refine .inr ⟨bytes ++ others, ?_, hw.bind hv, hr.bind_error k others⟩
  rw [List.length_append]
  exact Nat.add_le_add hleast hmore

/-- One field after another, where the first alone is long enough. -/
theorem Agrees.seq {least less : Nat} {w v : Writer} {r : Reader α}
    {k : α → Reader β} {a : α} {result : Except LoadError β}
    (hw : Agrees least w r (.ok a)) (hless : less ≤ least)
    (hv : Agrees 0 v (k a) result) :
    Agrees less (w >>= fun _ => v) (r >>= k) result :=
  (hw.bind hv).mono hless

theorem Agrees.map {least : Nat} {w : Writer} {r : Reader α}
    {result : Except LoadError α} (f : α → β) (h : Agrees least w r result) :
    Agrees least w (r >>= fun a => pure (f a)) (result.map f) := by
  rcases h with h | ⟨bytes, hleast, hw, hr⟩
  · exact .inl h
  refine .inr ⟨bytes, hleast, hw, fun rest => ?_⟩
  rw [Reader.bind_apply, hr]
  cases result <;> rfl

/-- As many elements as the list has, in order. -/
theorem agrees_many {least : Nat} {w : β → Writer} {r : Reader α}
    {result : β → Except LoadError α} (xs : List β)
    (h : ∀ x ∈ xs, Agrees least (w x) r (result x)) :
    Agrees (xs.length * least) (xs.forM w) (Reader.many r xs.length)
      (xs.mapM result) := by
  induction xs with
  | nil =>
    rw [List.length_nil, Nat.zero_mul]
    exact agrees_pure []
  | cons x xs ih =>
    have hx := h x List.mem_cons_self
    have hxs := ih fun y hy => h y (List.mem_cons_of_mem x hy)
    rw [List.length_cons, Nat.succ_mul, Nat.add_comm, List.forM, Reader.many,
      List.mapM_cons]
    cases hresult : result x with
    | error error => exact (hresult ▸ hx).bind_error hxs.uniform _
    | ok a => exact (hresult ▸ hx).bind (hxs.map (a :: ·))

/-! ## Counts -/

/-- A number below `256 ^ width` is read back from its bytes. -/
theorem takes_number (width n : Nat) (h : n < Nat.pow 256 width) :
    (Reader.number width).Takes (littleEndian width n) (.ok n) := by
  induction width generalizing n with
  | zero =>
    obtain rfl : n = 0 := by simpa using h
    exact Reader.takes_pure 0
  | succ width ih =>
    have hhigh : n / 256 < Nat.pow 256 width :=
      Nat.div_lt_of_lt_mul (Nat.mul_comm 256 _ ▸ h)
    have hsum : (UInt8.ofNat n).toNat + 256 * (n / 256) = n := by
      rw [UInt8.toNat_ofNat']
      omega
    intro rest
    rw [Reader.number, littleEndian, List.cons_append, Reader.bind_apply]
    change (Reader.number width >>= fun high =>
      pure ((UInt8.ofNat n).toNat + 256 * high)) _ = _
    rw [Reader.bind_apply, ih _ hhigh]
    change Except.ok ((UInt8.ofNat n).toNat + 256 * (n / 256), rest) = _
    rw [hsum]
    rfl

theorem length_littleEndian (width n : Nat) :
    (littleEndian width n).length = width := by
  induction width generalizing n with
  | zero => rfl
  | succ width ih => rw [littleEndian, List.length_cons, ih]

theorem agrees_byte (b : UInt8) :
    Agrees 1 (Writer.byte b) Reader.byte (.ok b) :=
  .inr ⟨[b], Nat.le_refl 1, Writer.appends_put [b], fun _ => rfl⟩

theorem agrees_number (width n : Nat) (h : n < Nat.pow 256 width) :
    Agrees width (Writer.put (littleEndian width n))
      (Reader.number width) (.ok n) :=
  .inr ⟨littleEndian width n, Nat.le_of_eq (length_littleEndian width n).symm,
    Writer.appends_put _, takes_number width n h⟩

theorem agrees_bytes (bytes : List UInt8) :
    Agrees bytes.length (Writer.put bytes)
      (Reader.take bytes.length) (.ok bytes) := by
  refine .inr ⟨bytes, Nat.le_refl _, Writer.appends_put bytes, fun rest => ?_⟩
  simp [Reader.take, Except.map]

theorem agrees_count (n : Nat) :
    Agrees 4 (Writer.count n) (Reader.number 4) (.ok n) := by
  by_cases hn : n < UInt32.size
  · rcases agrees_number 4 n hn with h | ⟨bytes, hleast, hw, hr⟩
    · exact .inl fun sink hsink => by rw [Writer.count, if_pos hn, h sink hsink]
    · refine .inr ⟨bytes, hleast, fun sink hsink => ?_, hr⟩
      rw [Writer.count, if_pos hn, hw sink hsink]
  · exact .inl fun sink _ => by rw [Writer.count, if_neg hn]

/-- A counted field: the reader checks that the rest can hold the elements, and
the writer has written them. -/
theorem Agrees.counted {least n : Nat} {w : Writer} {r : Nat → Reader α}
    {result : Except LoadError α} (h : Agrees (n * least) w (r n) result) :
    Agrees 0 (Writer.count n >>= fun _ => w)
      (Reader.count least >>= r) result := by
  rcases agrees_count n with hcount | ⟨front, -, hcount, hnumber⟩
  · exact .inl (hcount.bind w)
  rcases h with h | ⟨bytes, hleast, hw, hr⟩
  · exact .inl (hcount.bind_refuses h)
  refine .inr ⟨front ++ bytes, Nat.zero_le _, hcount.bind hw, fun rest => ?_⟩
  have hroom : ¬((bytes ++ rest).take (n * least)).length < n * least := by
    rw [List.length_take, List.length_append]
    omega
  rw [Reader.bind_apply, List.append_assoc, Reader.count,
    Reader.bind_apply, hnumber]
  simp only [Except.map, if_neg hroom]
  exact hr rest

end Agreement

end Isolate.Chunk
