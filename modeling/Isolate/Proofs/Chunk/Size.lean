import Isolate.Proofs.Chunk.RoundTrip

/-!
# The size of chunks

The limit never changes what is written: a chunk comes out whole under every
limit that its length allows, and under no other.  Stripping writes nothing that
is not written without it, so it makes no chunk longer.
-/

namespace Isolate.Chunk

/-! ## Limits -/

/-- A prototype has a chunk for every limit with room for it, or none at all. -/
theorem exists_chunk_or_refuses (proto : Prototype) (strip : Bool) :
    (∃ written, (writeContents strip proto).Appends written) ∨
      (writeContents strip proto).Refuses := by
  rcases (agrees_contents strip proto).uniform with
    hrefuses | ⟨written, -, happends⟩
  · exact .inr hrefuses
  · exact .inl ⟨written, happends⟩

/-- A chunk that came out under some limit is all that its writer ever
writes. -/
theorem appends_of_dump {proto : Prototype} {strip : Bool} {enough : Nat}
    {bytes : List UInt8} (h : dump proto strip enough = .ok bytes) :
    (writeContents strip proto).Appends bytes := by
  rcases exists_chunk_or_refuses proto strip with ⟨written, happends⟩ | hrefuses
  · rw [dump_of_appends happends] at h
    by_cases hlimit : enough < written.length
    · simp [hlimit] at h
    · simp only [hlimit, if_false, Except.ok.injEq] at h
      exact h ▸ happends
  · rw [dump_of_refuses hrefuses] at h
    cases h

section Chunks

variable {proto : Prototype} {strip : Bool} {limit enough : Nat}
  {bytes others : List UInt8}

/-- A prototype has no two chunks of a kind. -/
theorem dump_unique (h : dump proto strip limit = .ok bytes)
    (h' : dump proto strip enough = .ok others) : bytes = others := by
  rw [dump_of_appends (appends_of_dump h)] at h'
  by_cases hlimit : enough < bytes.length
  · simp [hlimit] at h'
  · simpa [hlimit] using h'

theorem length_le_of_dump (h : dump proto strip limit = .ok bytes) :
    bytes.length ≤ limit := by
  refine Nat.not_lt.1 fun hlimit => ?_
  have hnone := dump_of_appends (appends_of_dump h) limit
  rw [h, if_pos hlimit] at hnone
  cases hnone

theorem dump_of_length_le (h : dump proto strip limit = .ok bytes)
    (hroom : bytes.length ≤ enough) : dump proto strip enough = .ok bytes := by
  rw [dump_of_appends (appends_of_dump h), if_neg (Nat.not_lt.2 hroom)]

end Chunks

/-- The limit is exact: the same chunk under every limit that is not below its
length, and under any other no chunk at all. -/
theorem dump_eq_ite_length_le (proto : Prototype) (strip : Bool) (enough : Nat)
    (bytes : List UInt8) (h : dump proto strip enough = .ok bytes)
    (limit : Nat) :
    dump proto strip limit =
      if bytes.length ≤ limit then .ok bytes else .error (.tooLarge limit) := by
  by_cases hlimit : bytes.length ≤ limit
  · rw [if_pos hlimit, dump_of_length_le h hlimit]
  · rw [if_neg hlimit, dump_of_appends (appends_of_dump h),
      if_pos (Nat.not_le.1 hlimit)]

theorem dump_capturing_at_length :
    ∃ bytes, dump capturing true 100 = .ok bytes ∧ 0 < bytes.length ∧
      dump capturing true bytes.length = .ok bytes ∧
      dump capturing true (bytes.length - 1) =
        .error (.tooLarge (bytes.length - 1)) := by
  cases h : dump capturing true 100 with
  | error error =>
    exact absurd isOk_dump_capturing (by rw [h]; exact Bool.false_ne_true)
  | ok bytes =>
    have hexact := dump_eq_ite_length_le capturing true 100 bytes h
    have hpos : 0 < bytes.length := by
      refine Nat.pos_of_ne_zero fun hempty => ?_
      have hnone := hexact 0
      rw [if_pos (Nat.le_of_eq hempty)] at hnone
      cases hnone
    refine ⟨bytes, rfl, hpos, ?_, ?_⟩
    · rw [hexact, if_pos (Nat.le_refl _)]
    · rw [hexact, if_neg (by omega)]

/-! ## Shorter chunks -/

namespace Writer

/-- Where the second writer succeeds the first one does, with no more bytes. -/
def Shortens (w v : Writer) : Prop :=
  v.Refuses ∨
    ∃ short long, w.Appends short ∧ v.Appends long ∧ short.length ≤ long.length

theorem Uniform.shortens {least : Nat} {w : Writer} (h : w.Uniform least) :
    w.Shortens w := by
  rcases h with h | ⟨bytes, -, h⟩
  · exact .inl h
  · exact .inr ⟨bytes, bytes, h, h, Nat.le_refl _⟩

theorem Shortens.bind {w v w' v' : Writer} (h : w.Shortens v)
    (h' : w'.Shortens v') :
    Shortens (w >>= fun _ => w') (v >>= fun _ => v') := by
  rcases h with h | ⟨short, long, hshort, hlong, hle⟩
  · exact .inl (h.bind v')
  rcases h' with h' | ⟨short', long', hshort', hlong', hle'⟩
  · exact .inl (hlong.bind_refuses h')
  refine .inr ⟨short ++ short', long ++ long', hshort.bind hshort',
    hlong.bind hlong', ?_⟩
  rw [List.length_append, List.length_append]
  exact Nat.add_le_add hle hle'

theorem shortens_forM {α : Type} {w v : α → Writer} (xs : List α)
    (h : ∀ x ∈ xs, (w x).Shortens (v x)) :
    Shortens (xs.forM w) (xs.forM v) := by
  induction xs with
  | nil => exact (agrees_pure ()).uniform.shortens
  | cons x xs ih =>
    exact (h x List.mem_cons_self).bind
      (ih fun y hy => h y (List.mem_cons_of_mem x hy))

/-- A marker for something absent is as short as a field gets. -/
theorem Uniform.shortens_byte {w : Writer} (h : w.Uniform 1) (b : UInt8) :
    (byte b).Shortens w := by
  rcases h with h | ⟨bytes, hleast, h⟩
  · exact .inl h
  · exact .inr ⟨[b], bytes, appends_put [b], h, hleast⟩

theorem shortens_upvalue (u : Upvalue) :
    (upvalue true u).Shortens (upvalue false u) := by
  have hname : (optionalString none).Shortens (optionalString u.name) :=
    (agrees_optionalString u.name).uniform.shortens_byte 0
  have hcapture : ∀ source : List UInt8,
      Shortens (put source >>= fun _ => optionalString none)
        (put source >>= fun _ => optionalString u.name) :=
    fun source => (agrees_bytes source).uniform.shortens.bind hname
  simp only [upvalue]
  cases u.capture with
  | ofLocal slot => exact hcapture [0, slot]
  | ofEnclosing slot => exact hcapture [1, slot]

/-- A record without debug information is no longer than the record with it. -/
theorem shortens_prototype (proto : Prototype) :
    (prototype true proto).Shortens (prototype false proto) := by
  induction proto using Prototype.nestedInduction with
  | step proto ih =>
    obtain ⟨code, constants, upvalues, protos, numParams, numLocals, debug⟩ :=
      proto
    have hconstants :=
      agrees_many constants.toList fun literal _ => agrees_constant literal
    simp only [prototype, prototypes_eq_forM]
    apply (agrees_byte numParams).uniform.shortens.bind
    apply (agrees_byte numLocals).uniform.shortens.bind
    apply (agrees_count code.size).uniform.shortens.bind
    apply (agrees_bytes code.toList).uniform.shortens.bind
    apply (agrees_count constants.size).uniform.shortens.bind
    apply hconstants.uniform.shortens.bind
    apply (agrees_count upvalues.size).uniform.shortens.bind
    apply (shortens_forM upvalues.toList fun u _ => shortens_upvalue u).bind
    apply (agrees_count protos.length).uniform.shortens.bind
    apply (shortens_forM protos ih).bind
    exact (agrees_debugInfo debug).uniform.shortens_byte 0

end Writer

theorem shortens_writeContents (proto : Prototype) :
    (writeContents true proto).Shortens (writeContents false proto) := by
  have hflag : (Writer.byte 1).Shortens (Writer.byte 0) :=
    (agrees_byte 0).uniform.shortens_byte 1
  apply (agrees_bytes signature).uniform.shortens.bind
  apply (agrees_bytes (littleEndian 2 formatVersion)).uniform.shortens.bind
  exact hflag.bind (Writer.shortens_prototype proto)

/-- A prototype with a chunk has a stripped chunk under the same limit,
which is no longer. -/
theorem exists_dump_stripped_le {proto : Prototype} {limit : Nat}
    {bytes : List UInt8} (h : dump proto false limit = .ok bytes) :
    ∃ short, dump proto true limit = .ok short ∧
      short.length ≤ bytes.length := by
  rcases shortens_writeContents proto with
    hrefuses | ⟨short, long, hshort, hlong, hle⟩
  · rw [dump_of_refuses hrefuses] at h
    cases h
  · rw [dump_of_appends hlong] at h
    by_cases hlimit : limit < long.length
    · simp [hlimit] at h
    · simp only [hlimit, if_false, Except.ok.injEq] at h
      refine ⟨short, ?_, h ▸ hle⟩
      rw [dump_of_appends hshort, if_neg (by omega)]

end Isolate.Chunk
