import Isolate.Proofs.Chunk.RoundTrip

/-!
# Chunks are self-delimiting

What follows a chunk cannot change how it reads.  A reader is settled on an
input when bytes appended to the input change nothing but what is left over,
unless bytes were wanting.  That is closed under sequencing and under counted
repetition, so a record is settled when its fields are.  A proper prefix of a
chunk is therefore truncated, and nothing may follow a chunk.
-/

namespace Isolate.Chunk

namespace Reader

variable {α β : Type}

/-- The three ways to be settled.  What is left over is always an end of the
input, so no reader gets past it. -/
inductive SettledOn (r : Reader α) (bytes : List UInt8) : Prop
  | found (a : α) (rest : List UInt8) (hrest : rest <:+ bytes)
      (hread : ∀ more, r (bytes ++ more) = .ok (a, rest ++ more))
  | wanting (hread : r bytes = .error .truncated)
  | refused (error : LoadError)
      (hread : ∀ more, r (bytes ++ more) = .error error)

def Settled (r : Reader α) : Prop := ∀ bytes, r.SettledOn bytes

/-! ## Single readers -/

theorem settled_pure (a : α) : Settled (pure a : Reader α) :=
  fun bytes => .found a bytes List.suffix_rfl fun _ => rfl

theorem settled_fail (error : LoadError) : Settled (fail error : Reader α) :=
  fun _ => .refused error fun _ => rfl

theorem settled_byte : Settled byte := by
  intro bytes
  cases bytes with
  | nil => exact .wanting rfl
  | cons b bytes => exact .found b bytes (List.suffix_cons b bytes) fun _ => rfl

theorem take_of_le {n : Nat} {bytes : List UInt8} (h : n ≤ bytes.length) :
    take n bytes = .ok (bytes.take n, bytes.drop n) := by
  simp only [take, List.splitAt_eq]
  exact if_pos (List.length_take_of_le h)

theorem take_of_lt {n : Nat} {bytes : List UInt8} (h : bytes.length < n) :
    take n bytes = .error .truncated := by
  simp only [take, List.splitAt_eq]
  apply if_neg
  rw [List.length_take]
  omega

theorem take_append_of_le {n : Nat} {bytes : List UInt8} (h : n ≤ bytes.length)
    (more : List UInt8) :
    take n (bytes ++ more) = .ok (bytes.take n, bytes.drop n ++ more) := by
  have hmore : n ≤ (bytes ++ more).length := by
    rw [List.length_append]
    omega
  rw [take_of_le hmore, List.take_append_of_le_length h,
    List.drop_append_of_le_length h]

theorem settled_take (n : Nat) : Settled (take n) := by
  intro bytes
  rcases Nat.lt_or_ge bytes.length n with hlt | hle
  · exact .wanting (take_of_lt hlt)
  · exact .found _ _ (List.drop_suffix n bytes) (take_append_of_le hle)

/-! ## Combinations -/

theorem SettledOn.of_eq_ok {r : Reader α} {bytes rest : List UInt8} {a : α}
    (hr : r.SettledOn bytes) (h : r bytes = .ok (a, rest)) :
    rest <:+ bytes ∧ ∀ more, r (bytes ++ more) = .ok (a, rest ++ more) := by
  cases hr with
  | wanting hread => cases hread.symm.trans h
  | refused error hread =>
    have hbytes := hread []
    rw [List.append_nil] at hbytes
    cases hbytes.symm.trans h
  | found b rest hrest hread =>
    have hbytes := hread []
    rw [List.append_nil, List.append_nil] at hbytes
    cases hbytes.symm.trans h
    exact ⟨hrest, hread⟩

theorem SettledOn.bind {r : Reader α} {k : α → Reader β} {bytes : List UInt8}
    (hr : r.SettledOn bytes) (hk : ∀ a, (k a).Settled) :
    SettledOn (r >>= k) bytes := by
  cases hr with
  | wanting hread =>
    apply SettledOn.wanting
    rw [bind_apply, hread]
  | refused error hread =>
    apply SettledOn.refused error
    intro more
    rw [bind_apply, hread]
  | found a middle hmiddle hread =>
    have hbind : ∀ more, (r >>= k) (bytes ++ more) = k a (middle ++ more) := by
      intro more
      rw [bind_apply, hread]
    cases hk a middle with
    | wanting hnext =>
      apply SettledOn.wanting
      have h := hbind []
      rwa [List.append_nil, List.append_nil, hnext] at h
    | refused error hnext =>
      exact .refused error fun more => (hbind more).trans (hnext more)
    | found b rest hrest hnext =>
      exact .found b rest (hrest.trans hmiddle)
        fun more => (hbind more).trans (hnext more)

theorem Settled.bind {r : Reader α} {k : α → Reader β} (hr : r.Settled)
    (hk : ∀ a, (k a).Settled) : Settled (r >>= k) :=
  fun bytes => (hr bytes).bind hk

theorem Settled.map {r : Reader α} (hr : r.Settled) (f : α → β) :
    Settled (f <$> r) := by
  rw [← bind_pure_comp]
  exact hr.bind fun a => settled_pure (f a)

theorem settled_number (width : Nat) : Settled (number width) := by
  induction width with
  | zero => exact settled_pure 0
  | succ width ih =>
    exact settled_byte.bind fun low => ih.bind fun high => settled_pure _

/-- The check of a count refuses nothing for good: more bytes may be enough. -/
theorem settled_count (least : Nat) : Settled (count least) := by
  apply (settled_number 4).bind
  intro n rest
  by_cases hsize : (rest.take (n * least)).length < n * least
  · exact .wanting (if_pos hsize)
  · apply SettledOn.found n rest List.suffix_rfl
    intro more
    apply if_neg
    rw [List.length_take] at hsize ⊢
    rw [List.length_append]
    omega

theorem Settled.many {element : Reader α} (h : element.Settled) (n : Nat) :
    Settled (many element n) := by
  induction n with
  | zero => exact settled_pure []
  | succ n ih =>
    exact h.bind fun first =>
      ih.bind fun others => settled_pure (first :: others)

/-! ## Records -/

theorem settled_string : Settled string := by
  apply (settled_number 4).bind
  intro length
  apply (settled_take length).bind
  intro bytes
  split
  · exact settled_pure _
  · exact settled_fail .invalidUtf8

theorem settled_optionalString : Settled optionalString := by
  apply settled_byte.bind
  intro flag
  split
  · exact settled_pure none
  · exact settled_string.map some

theorem settled_constant : Settled constant := by
  apply settled_byte.bind
  intro tag
  split
  · exact settled_pure Constant.nil
  · exact settled_pure (Constant.boolean false)
  · exact settled_pure (Constant.boolean true)
  · exact (settled_number 8).bind fun n => settled_pure _
  · exact (settled_number 8).bind fun n => settled_pure _
  · exact settled_string.map Constant.string
  · exact settled_fail (.invalidConstantTag tag)

theorem settled_upvalue : Settled upvalue := by
  apply settled_byte.bind
  intro kind
  apply settled_byte.bind
  intro slot
  have hname (capture : Capture) : Settled (do
      let name ← optionalString
      pure ({ name, capture } : Upvalue)) :=
    settled_optionalString.bind fun name => settled_pure _
  dsimp only
  split
  · exact (settled_pure _).bind hname
  · exact (settled_pure _).bind hname
  · exact (settled_fail (.invalidUpvalueKind kind)).bind hname

theorem settled_line : Settled line :=
  (settled_number 4).bind fun _ =>
    (settled_number 4).bind fun _ => settled_pure _

theorem settled_debugInfo : Settled debugInfo := by
  apply settled_byte.bind
  intro flag
  split
  · exact settled_pure none
  · apply settled_optionalString.bind
    intro name
    apply settled_optionalString.bind
    intro source
    apply (settled_count 8).bind
    intro n
    exact (settled_line.many n).bind fun lines => settled_pure _

/-- Without levels left a record is refused whatever its bytes are. -/
theorem settled_prototype (levels : Nat) : Settled (prototype levels) := by
  induction levels with
  | zero => exact settled_fail .tooDeep
  | succ levels ih =>
    apply settled_byte.bind
    intro numParams
    apply settled_byte.bind
    intro numLocals
    apply (settled_count 1).bind
    intro codeLength
    apply (settled_take codeLength).bind
    intro code
    apply (settled_count 1).bind
    intro constantCount
    apply (settled_constant.many constantCount).bind
    intro constants
    apply (settled_count 3).bind
    intro upvalueCount
    apply (settled_upvalue.many upvalueCount).bind
    intro upvalues
    apply (settled_count 1).bind
    intro protoCount
    apply (ih.many protoCount).bind
    intro protos
    exact settled_debugInfo.bind fun debug => settled_pure _

/-- An input too short for the signature is refused as something else than a
chunk, and more bytes may make it one. -/
theorem header_of_lt {bytes : List UInt8}
    (h : bytes.length < signature.length) :
    header bytes = .error .notBinary := by
  rw [header, bind_apply, take_of_lt h]

theorem settledOn_header {bytes : List UInt8}
    (h : signature.length ≤ bytes.length) : header.SettledOn bytes := by
  apply SettledOn.bind
  · apply SettledOn.found _ _ (List.drop_suffix signature.length bytes)
    intro more
    rw [take_append_of_le h]
  · intro start
    split
    · apply (settled_number 2).bind
      intro version
      split
      · exact settled_byte.bind fun flags => settled_pure _
      · exact settled_fail (.unsupportedVersion version)
    · exact settled_fail .notBinary

end Reader

/-! ## Whole chunks -/

theorem contents_of_lt {bytes : List UInt8}
    (h : bytes.length < signature.length) :
    contents bytes = .error .notBinary := by
  rw [contents, Reader.bind_apply, Reader.header_of_lt h]

theorem settledOn_contents {bytes : List UInt8}
    (h : signature.length ≤ bytes.length) : contents.SettledOn bytes :=
  (Reader.settledOn_header h).bind fun _ =>
    (Reader.settled_prototype Prototype.maxLevels).bind
      fun _ => Reader.settled_pure _

/-- What is left over is an end of the input, and bytes that are appended are
left over as well. -/
theorem contents_append {bytes rest : List UInt8} {chunk : Contents}
    (h : contents bytes = .ok (chunk, rest)) :
    rest <:+ bytes ∧
      ∀ more, contents (bytes ++ more) = .ok (chunk, rest ++ more) := by
  rcases Nat.lt_or_ge bytes.length signature.length with hlt | hle
  · cases (contents_of_lt hlt).symm.trans h
  · exact (settledOn_contents hle).of_eq_ok h

/-- A front of a chunk wants bytes: were it refused for another reason, or read
to its end, so were the chunk. -/
theorem contents_of_front {front ending : List UInt8} {chunk : Contents}
    (h : contents (front ++ ending) = .ok (chunk, [])) (hending : ending ≠ []) :
    contents front =
      .error (if front.length < signature.length then .notBinary
        else .truncated) := by
  by_cases hlength : front.length < signature.length
  · rw [if_pos hlength, contents_of_lt hlength]
  rw [if_neg hlength]
  cases settledOn_contents (Nat.not_lt.1 hlength) with
  | wanting hread => exact hread
  | refused error hread => cases (hread ending).symm.trans h
  | found other rest hrest hread =>
    have hleft : rest ++ ending = [] :=
      congrArg Prod.snd (Except.ok.inj ((hread ending).symm.trans h))
    exact absurd (List.append_eq_nil_iff.1 hleft).2 hending

/-- No proper prefix of a chunk is a chunk: it is too short for the signature or
truncated.  Nothing may follow a chunk.  Whatever the bytes are, reading them
ends in an error or in an accepted prototype; what is left over after the
contents is an end of the bytes, and what would come after them is not looked
at. -/
theorem undump_self_delimiting :
    (∀ (bytes : List UInt8) (name : String) (result : Prototype),
      undump bytes name = .ok result →
        (∀ (front : List UInt8) (other : String), front <+: bytes →
          front ≠ bytes →
          undump front other =
            .error (if front.length < 4 then .notBinary else .truncated)) ∧
        (∀ (more : List UInt8) (other : String), more ≠ [] →
          undump (bytes ++ more) other = .error (.trailingBytes more.length))) ∧
    (∀ (bytes : List UInt8) (name : String),
      (∃ error, undump bytes name = .error error) ∨
        ∃ result, undump bytes name = .ok result ∧ result.verify = .ok ()) ∧
    (∀ (bytes rest : List UInt8) (chunk : Contents),
      contents bytes = .ok (chunk, rest) →
        rest <:+ bytes ∧
          ∀ more, contents (bytes ++ more) = .ok (chunk, rest ++ more)) := by
  constructor
  · intro bytes name result h
    obtain ⟨chunk, hchunk⟩ := contents_of_undump_eq_ok h
    constructor
    · rintro front other ⟨ending, rfl⟩ hproper
      have hending : ending ≠ [] := by
        rintro rfl
        exact hproper (List.append_nil front).symm
      exact undump_of_contents_eq_error (contents_of_front hchunk hending) other
    · intro more other hmore
      exact undump_of_leftover ((contents_append hchunk).2 more) hmore other
  constructor
  · intro bytes name
    cases h : undump bytes name with
    | error error => exact .inl ⟨error, rfl⟩
    | ok result => exact .inr ⟨result, rfl, (of_undump_eq_ok h).1⟩
  · intro bytes rest chunk h
    exact contents_append h

/-- The chunk of a function without code. -/
def emptyChunk : List UInt8 := prelude false ++ List.replicate 19 0

theorem contents_emptyChunk :
    contents emptyChunk = .ok ({ stripped := false, main := {} }, []) :=
  rfl

theorem verify_empty : ({} : Prototype).verify = .ok () := by
  apply (Prototype.verifyWithin_succ_eq_ok_iff 200 {}).2
  constructor
  · simp [Prototype.verifyCode]
  · rintro child ⟨⟩

theorem undump_emptyChunk :
    undump emptyChunk "=(load)" = .ok (Prototype.attributedTo "=(load)" {}) ∧
      undump (emptyChunk.take 3) "=(load)" = .error .notBinary ∧
      undump (emptyChunk.take 25) "=(load)" = .error .truncated ∧
      undump (emptyChunk ++ [0, 0]) "=(load)" = .error (.trailingBytes 2) ∧
      contents (emptyChunk ++ [0, 0]) =
        .ok ({ stripped := false, main := {} }, [0, 0]) := by
  have hload : undump emptyChunk "=(load)" =
      .ok (Prototype.attributedTo "=(load)" {}) := by
    rw [undump_of_contents contents_emptyChunk, verify_empty]
    rfl
  obtain ⟨hdelimited, -, hcontents⟩ := undump_self_delimiting
  obtain ⟨hfront, hmore⟩ := hdelimited emptyChunk "=(load)" _ hload
  have hproper : ∀ n < 26, emptyChunk.take n ≠ emptyChunk := by
    decide
  exact ⟨hload, hfront _ _ (List.take_prefix 3 emptyChunk)
    (hproper 3 (by decide)),
    hfront _ _ (List.take_prefix 25 emptyChunk) (hproper 25 (by decide)),
    hmore [0, 0] _ (by decide), (hcontents _ _ _ contents_emptyChunk).2 [0, 0]⟩

end Isolate.Chunk
