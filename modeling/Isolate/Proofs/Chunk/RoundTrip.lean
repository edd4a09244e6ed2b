import Isolate.Proofs.Chunk.Agreement
import Isolate.Proofs.Chunk.Verify

/-!
# Chunks are read back

Writing a prototype and reading the chunk gives the prototype again, without
what stripping leaves out, exactly when the prototype is accepted.  Only the
reader bounds the depth, and so does acceptance.
-/

namespace Isolate.Chunk

/-! ## The bytes of a string -/

theorem toList_loop_eq (bytes : ByteArray) (i : Nat) (front : List UInt8) :
    ByteArray.toList.loop bytes i front =
      front.reverse ++ bytes.data.toList.drop i := by
  induction i, front using ByteArray.toList.loop.induct bytes with
  | case1 i front hi ih =>
    have hlength : i < bytes.data.toList.length := by simpa using hi
    have hget : bytes.get! i = bytes.data.toList[i] := by
      simp [ByteArray.get!, hi]
    rw [ByteArray.toList.loop, if_pos hi, ih,
      List.drop_eq_getElem_cons hlength, hget, List.reverse_cons,
      List.append_assoc, List.singleton_append]
  | case2 i front hi =>
    have hlength : bytes.data.toList.length ≤ i := by simpa using hi
    rw [ByteArray.toList.loop, if_neg hi, List.drop_eq_nil_of_le hlength,
      List.append_nil]

theorem toList_byteArray (bytes : ByteArray) :
    bytes.toList = bytes.data.toList :=
  toList_loop_eq bytes 0 []

theorem length_toUTF8_toList (text : String) :
    text.toUTF8.toList.length = text.utf8ByteSize := by
  rw [toList_byteArray, Array.length_toList]
  rfl

/-- The bytes of a string decode to the string. -/
theorem fromUTF8?_toList (text : String) :
    String.fromUTF8? ⟨text.toUTF8.toList.toArray⟩ = some text := by
  have hbytes :
      (⟨text.toUTF8.toList.toArray⟩ : ByteArray) = text.toByteArray := by
    rw [toList_byteArray]
    rfl
  rw [String.fromUTF8?, hbytes, dif_pos text.isValidUTF8]
  rfl

/-! ## Fields -/

theorem agrees_string (text : String) :
    Agrees 4 (Writer.string text) Reader.string (.ok text) := by
  have hbytes := agrees_bytes text.toUTF8.toList
  rw [length_toUTF8_toList] at hbytes
  have htext : ∀ next : List UInt8 → Reader String,
      next text.toUTF8.toList = pure text →
      Agrees text.utf8ByteSize (Writer.put text.toUTF8.toList)
        (Reader.take text.utf8ByteSize >>= next) (.ok text) := by
    intro next hnext
    rcases hbytes with h | ⟨bytes, hleast, hw, hr⟩
    · exact .inl h
    · refine .inr ⟨bytes, hleast, hw, fun rest => ?_⟩
      rw [Reader.bind_apply, hr]
      simp only [Except.map]
      rw [hnext]
      rfl
  refine ((agrees_count text.utf8ByteSize).bind (htext _ ?_)).mono
    (Nat.le_add_right 4 _)
  rw [fromUTF8?_toList]

theorem agrees_optionalString (text : Option String) :
    Agrees 1 (Writer.optionalString text) Reader.optionalString (.ok text) := by
  simp only [Reader.optionalString]
  cases text with
  | none =>
    exact .inr ⟨[0], Nat.le_refl 1, Writer.appends_put [0], fun _ => rfl⟩
  | some text =>
    simp only [Writer.optionalString]
    refine ((agrees_byte 1).bind ?_).mono (Nat.le_add_right 1 4)
    rw [if_neg (by decide), ← bind_pure_comp]
    exact (agrees_string text).map some

theorem agrees_constant (literal : Constant) :
    Agrees 1 (Writer.constant literal) Reader.constant (.ok literal) := by
  simp only [Reader.constant]
  cases literal with
  | nil => exact .inr ⟨[0], Nat.le_refl 1, Writer.appends_put [0], fun _ => rfl⟩
  | boolean value =>
    cases value with
    | false =>
      exact .inr ⟨[1], Nat.le_refl 1, Writer.appends_put [1], fun _ => rfl⟩
    | true =>
      exact .inr ⟨[2], Nat.le_refl 1, Writer.appends_put [2], fun _ => rfl⟩
  | integer value =>
    simp only [Writer.constant]
    refine ((agrees_byte 3).bind ?_).mono (Nat.le_add_right 1 8)
    have h := (agrees_number 8 value.toUInt64.toNat value.toUInt64.toNat_lt).map
      fun n => Constant.integer (UInt64.ofNat n).toInt64
    rwa [Except.map, UInt64.ofNat_toNat] at h
  | float value =>
    simp only [Writer.constant]
    refine ((agrees_byte 4).bind ?_).mono (Nat.le_add_right 1 8)
    have h := (agrees_number 8 value.bits.toNat value.bits.toNat_lt).map
      fun n => Constant.float ⟨UInt64.ofNat n⟩
    rwa [Except.map, UInt64.ofNat_toNat] at h
  | string value =>
    simp only [Writer.constant]
    refine ((agrees_byte 5).bind ?_).mono (Nat.le_add_right 1 4)
    have h := (agrees_string value).map Constant.string
    rwa [bind_pure_comp] at h

theorem Agrees.twoBytes {α : Type} {least : Nat} {a b : UInt8} {w : Writer}
    {k : UInt8 → UInt8 → Reader α} {result : Except LoadError α}
    (h : Agrees least w (k a b) result) :
    Agrees (2 + least) (Writer.put [a, b] >>= fun _ => w)
      (Reader.byte >>= fun x => Reader.byte >>= fun y => k x y) result := by
  rcases h with h | ⟨bytes, hleast, hw, hr⟩
  · exact .inl ((Writer.appends_put [a, b]).bind_refuses h)
  · refine .inr ⟨a :: b :: bytes, ?_, (Writer.appends_put [a, b]).bind hw,
      fun rest => hr rest⟩
    rw [List.length_cons, List.length_cons]
    omega

/-- An upvalue as it is written: stripping drops its name. -/
theorem agrees_upvalue (strip : Bool) (u : Upvalue) :
    Agrees 3 (Writer.upvalue strip u) Reader.upvalue
      (.ok { u with name := if strip then none else u.name }) := by
  obtain ⟨name, capture⟩ := u
  have hname : Agrees 1 (Writer.optionalString (if strip then none else name))
      (do
        let name ← Reader.optionalString
        pure ({ name, capture } : Upvalue))
      (.ok { name := if strip then none else name, capture }) :=
    (agrees_optionalString _).map fun name => ({ name, capture } : Upvalue)
  simp only [Writer.upvalue, Reader.upvalue]
  change Agrees (2 + 1) _ _ _
  cases capture with
  | ofLocal slot => exact Agrees.twoBytes hname
  | ofEnclosing slot => exact Agrees.twoBytes hname

theorem agrees_line (entry : UInt32 × UInt32) :
    Agrees 8 (Writer.line entry) Reader.line (.ok entry) := by
  obtain ⟨offset, line⟩ := entry
  simp only [Writer.line, Reader.line]
  change Agrees (4 + 4) _ _ _
  apply (agrees_number 4 offset.toNat offset.toNat_lt).bind
  have h := (agrees_number 4 line.toNat line.toNat_lt).map
    fun line => (offset, UInt32.ofNat line)
  rw [Except.map, UInt32.ofNat_toNat] at h
  rwa [UInt32.ofNat_toNat]

theorem mapM_ok {ε α β : Type} (f : α → β) (xs : List α) :
    (xs.mapM fun x => (.ok (f x) : Except ε β)) = .ok (xs.map f) :=
  List.mapM_pure

theorem agrees_debugInfo (info : Option DebugInfo) :
    Agrees 1 (Writer.debugInfo info) Reader.debugInfo (.ok info) := by
  simp only [Reader.debugInfo]
  cases info with
  | none =>
    exact .inr ⟨[0], Nat.le_refl 1, Writer.appends_put [0], fun _ => rfl⟩
  | some info =>
    simp only [Writer.debugInfo]
    have hlines :=
      agrees_many info.lines.toList fun entry _ => agrees_line entry
    rw [mapM_ok fun entry => entry, List.map_id', Array.length_toList] at hlines
    apply (agrees_byte 1).seq (Nat.le_refl 1)
    rw [if_neg (by decide)]
    apply (agrees_optionalString info.name).seq (Nat.zero_le 1)
    apply (agrees_optionalString info.source).seq (Nat.zero_le 1)
    exact Agrees.counted (hlines.map fun lines =>
      some { name := info.name, source := info.source, lines := lines.toArray :
        DebugInfo })

/-! ## Records -/

theorem prototypes_eq_forM (strip : Bool) (protos : List Prototype) :
    Writer.prototypes strip protos = protos.forM (Writer.prototype strip) := by
  induction protos with
  | nil => rfl
  | cons proto rest ih => rw [Writer.prototypes, ih, List.forM]

end Isolate.Chunk

namespace Isolate

/-- What a chunk keeps of a prototype. -/
def Prototype.kept (strip : Bool) (proto : Prototype) : Prototype :=
  if strip then proto.stripped else proto

theorem Prototype.size_upvalues_kept (strip : Bool) (proto : Prototype) :
    (proto.kept strip).upvalues.size = proto.upvalues.size := by
  simp only [Prototype.kept]
  split
  · rw [stripped_upvalues, Array.size_map]
  · rfl

theorem Prototype.kept_eq (strip : Bool) (proto : Prototype) :
    proto.kept strip =
      { code := proto.code.toList.toArray
        constants := proto.constants.toList.toArray
        upvalues := (proto.upvalues.toList.map fun u =>
          { u with name := if strip then none else u.name }).toArray
        protos := proto.protos.map (Prototype.kept strip)
        numParams := proto.numParams
        numLocals := proto.numLocals
        debug := if strip then none else proto.debug } := by
  obtain ⟨code, constants, upvalues, protos, numParams, numLocals, debug⟩ :=
    proto
  cases strip with
  | false =>
    have hprotos : protos.map (kept false) = protos :=
      List.map_id'' (fun _ => rfl) protos
    simp [hprotos]
    rfl
  | true =>
    have hprotos : protos.map (kept true) = protos.map stripped := rfl
    simp [hprotos, kept, stripped, strippedAll_eq_map, ← Array.toList_map]

/-- The outcome of reading a record with so many levels left. -/
def Prototype.keptWithin (strip : Bool) (levels : Nat) (proto : Prototype) :
    Except LoadError Prototype :=
  if proto.depth ≤ levels then .ok (proto.kept strip) else .error .tooDeep

end Isolate

namespace Isolate.Chunk

theorem mapM_keptWithin (strip : Bool) (levels : Nat)
    (protos : List Prototype) :
    protos.mapM (Prototype.keptWithin strip levels) =
      if ∀ child ∈ protos, child.depth ≤ levels then
        .ok (protos.map (Prototype.kept strip))
      else .error .tooDeep := by
  induction protos with
  | nil => rfl
  | cons proto rest ih =>
    rw [List.mapM_cons, ih, Prototype.keptWithin]
    have hcons : (∀ child ∈ proto :: rest, child.depth ≤ levels) ↔
        proto.depth ≤ levels ∧ ∀ child ∈ rest, child.depth ≤ levels :=
      List.forall_mem_cons
    by_cases hproto : proto.depth ≤ levels
    · by_cases hrest : ∀ child ∈ rest, child.depth ≤ levels
      · rw [if_pos hproto, if_pos hrest, if_pos (hcons.2 ⟨hproto, hrest⟩)]
        rfl
      · rw [if_pos hproto, if_neg hrest, if_neg fun h => hrest (hcons.1 h).2]
        rfl
    · rw [if_neg hproto, if_neg fun h => hproto (hcons.1 h).1]
      rfl

/-- One record, once its nested records agree. -/
theorem agrees_prototype_succ (strip : Bool) (levels : Nat) (proto : Prototype)
    (ih : ∀ child ∈ proto.protos, Agrees 1 (Writer.prototype strip child)
      (Reader.prototype levels) (child.keptWithin strip levels)) :
    Agrees 1 (Writer.prototype strip proto) (Reader.prototype (levels + 1))
      (proto.keptWithin strip (levels + 1)) := by
  have hdepth := proto.depth_le_succ_iff levels
  obtain ⟨code, constants, upvalues, protos, numParams, numLocals, debug⟩ :=
    proto
  have hcode := agrees_bytes code.toList
  have hconstants :=
    agrees_many constants.toList fun literal _ => agrees_constant literal
  have hupvalues :=
    agrees_many upvalues.toList fun u _ => agrees_upvalue strip u
  have hprotos := agrees_many protos ih
  have hdebug := agrees_debugInfo (if strip then none else debug)
  rw [mapM_keptWithin] at hprotos
  rw [mapM_ok fun literal => literal, List.map_id'] at hconstants
  rw [mapM_ok] at hupvalues
  rw [Array.length_toList] at hcode hconstants hupvalues
  simp only [Writer.prototype, Reader.prototype]
  apply (agrees_byte numParams).seq (Nat.le_refl 1)
  apply (agrees_byte numLocals).seq (Nat.zero_le 1)
  refine Agrees.counted (hcode.seq (Nat.le_of_eq (Nat.mul_one _)) ?_)
  refine Agrees.counted (hconstants.seq (Nat.le_refl _) ?_)
  refine Agrees.counted (hupvalues.seq (Nat.le_refl _) ?_)
  rw [prototypes_eq_forM, Prototype.keptWithin]
  by_cases hchildren : ∀ child ∈ protos, child.depth ≤ levels
  · rw [if_pos hchildren] at hprotos
    rw [if_pos (hdepth.2 hchildren)]
    refine Agrees.counted (hprotos.seq (Nat.le_refl _) ?_)
    have hrecord := (hdebug.mono (Nat.zero_le 1)).map fun debug =>
      ({ code := code.toList.toArray, constants := constants.toList.toArray,
         upvalues := (upvalues.toList.map fun u =>
           { u with name := if strip then none else u.name }).toArray,
         protos := protos.map (Prototype.kept strip), numParams, numLocals,
         debug } : Prototype)
    rwa [Except.map, ← Prototype.kept_eq strip
      ⟨code, constants, upvalues, protos, numParams, numLocals,
        debug⟩] at hrecord
  · rw [if_neg hchildren] at hprotos
    rw [if_neg fun h => hchildren (hdepth.1 h)]
    exact Agrees.counted
      (hprotos.bind_error (hdebug.mono (Nat.zero_le 1)).uniform _)

/-- Every record is read back if its depth allows that, and refused for
its depth otherwise. -/
theorem agrees_prototype (strip : Bool) (levels : Nat) (proto : Prototype) :
    Agrees 1 (Writer.prototype strip proto) (Reader.prototype levels)
      (proto.keptWithin strip levels) := by
  induction proto using Prototype.nestedInduction generalizing levels with
  | step proto ih =>
    cases levels with
    | succ levels =>
      exact agrees_prototype_succ strip levels proto
        fun child h => ih child h levels
    | zero =>
      have huniform :=
        (agrees_prototype_succ strip 0 proto
          fun child h => ih child h 0).uniform
      have hdepth : ¬proto.depth ≤ 0 := Nat.not_le.2 proto.depth_pos
      rw [Prototype.keptWithin, if_neg hdepth]
      rcases huniform with h | ⟨bytes, hleast, hw⟩
      · exact .inl h
      · exact .inr ⟨bytes, hleast, hw, fun rest => rfl⟩

/-! ## Whole chunks -/

/-- What comes in front of the function record. -/
def prelude (strip : Bool) : List UInt8 :=
  signature ++ (littleEndian 2 formatVersion ++ [if strip then 1 else 0])

theorem takes_header (strip : Bool) :
    Reader.header.Takes (prelude strip) (.ok strip) := by
  cases strip with
  | false => exact fun _ => rfl
  | true => exact fun _ => rfl

/-- Everything that `dump` writes. -/
def writeContents (strip : Bool) (proto : Prototype) : Writer := do
  Writer.put signature
  Writer.put (littleEndian 2 formatVersion)
  Writer.byte (if strip then 1 else 0)
  Writer.prototype strip proto

theorem agrees_contents (strip : Bool) (proto : Prototype) :
    Agrees 0 (writeContents strip proto) contents
      ((proto.keptWithin strip Prototype.maxLevels).map fun main =>
        { stripped := strip, main }) := by
  simp only [contents]
  have hrecord :=
    (agrees_prototype strip Prototype.maxLevels proto).map fun main =>
      ({ stripped := strip, main } : Contents)
  have hsignature := Writer.appends_put signature
  have hversion := Writer.appends_put (littleEndian 2 formatVersion)
  have hflag := Writer.appends_put [if strip then (1 : UInt8) else 0]
  rcases hrecord with h | ⟨bytes, -, hw, hr⟩
  · exact .inl (hsignature.bind_refuses
      (hversion.bind_refuses (hflag.bind_refuses h)))
  · refine .inr ⟨_, Nat.zero_le _,
      hsignature.bind (hversion.bind (hflag.bind hw)), ?_⟩
    have hcontents := (takes_header strip).bind (k := fun stripped => do
      let main ← Reader.prototype Prototype.maxLevels
      pure ({ stripped, main } : Contents)) hr
    simpa only [prelude, List.append_assoc] using hcontents

theorem dump_of_refuses {proto : Prototype} {strip : Bool}
    (h : (writeContents strip proto).Refuses) (limit : Nat) :
    dump proto strip limit = .error (.tooLarge limit) := by
  change (writeContents strip proto { bytes := #[], limit } >>= fun result =>
    pure result.2.bytes.toList) = _
  rw [h { bytes := #[], limit } (Nat.zero_le limit)]
  rfl

/-- The limit decides by the length alone. -/
theorem dump_of_appends {proto : Prototype} {strip : Bool}
    {written : List UInt8} (h : (writeContents strip proto).Appends written)
    (limit : Nat) :
    dump proto strip limit =
      if limit < written.length then .error (.tooLarge limit)
      else .ok written := by
  change (writeContents strip proto { bytes := #[], limit } >>= fun result =>
    pure result.2.bytes.toList) = _
  rw [h { bytes := #[], limit } (Nat.zero_le limit), List.size_toArray,
    List.length_nil, Nat.zero_add]
  by_cases hlimit : limit < written.length
  · rw [if_pos hlimit, if_pos hlimit]
    rfl
  · rw [if_neg hlimit, if_neg hlimit]
    exact congrArg Except.ok (by simp)

/-- A prototype is not written only if it is too large. -/
theorem eq_tooLarge_of_dump {proto : Prototype} {strip : Bool} {limit : Nat}
    {error : DumpError} (h : dump proto strip limit = .error error) :
    error = .tooLarge limit := by
  rcases agrees_contents strip proto with hw | ⟨written, -, hw, -⟩
  · rw [dump_of_refuses hw] at h
    cases h
    rfl
  · rw [dump_of_appends hw] at h
    split at h
    · cases h
      rfl
    · cases h

/-- Reading a chunk gives what was kept of the prototype and leaves nothing. -/
theorem contents_of_dump {proto : Prototype} {strip : Bool} {limit : Nat}
    {bytes : List UInt8} (h : dump proto strip limit = .ok bytes) :
    contents bytes =
      (proto.keptWithin strip Prototype.maxLevels).map fun main =>
        ({ stripped := strip, main }, []) := by
  rcases agrees_contents strip proto with hw | ⟨written, -, hw, hr⟩
  · rw [dump_of_refuses hw] at h
    cases h
  · rw [dump_of_appends hw] at h
    obtain rfl : written = bytes := by
      by_cases hlimit : limit < written.length
      · simp [hlimit] at h
      · simpa [hlimit] using h
    have hread := hr []
    rw [List.append_nil] at hread
    rw [hread]
    cases proto.keptWithin strip Prototype.maxLevels <;> rfl

theorem verify_kept (strip : Bool) (proto : Prototype) :
    (proto.kept strip).verify = proto.verify := by
  cases strip with
  | false => rfl
  | true => exact proto.verify_stripped

/-- A chunk that is read to its end is accepted when its function is. -/
theorem undump_of_contents {bytes : List UInt8} {chunk : Contents}
    (h : contents bytes = .ok (chunk, [])) (name : String) :
    undump bytes name =
      chunk.main.verify.map fun _ => chunk.main.attributedTo name := by
  cases hverify : chunk.main.verify <;>
    simp [undump, load, h, bind, Except.bind, pure, Except.pure,
      Except.map, hverify]

theorem undump_of_contents_eq_error {bytes : List UInt8} {error : LoadError}
    (h : contents bytes = .error error) (name : String) :
    undump bytes name = .error error := by
  simp [undump, load, h, bind, Except.bind]

theorem undump_of_leftover {bytes rest : List UInt8} {chunk : Contents}
    (h : contents bytes = .ok (chunk, rest)) (hrest : rest ≠ [])
    (name : String) :
    undump bytes name = .error (.trailingBytes rest.length) := by
  simp [undump, load, h, hrest, bind, Except.bind]

/-- What is accepted was read to its end. -/
theorem contents_of_undump_eq_ok {bytes : List UInt8} {name : String}
    {result : Prototype} (h : undump bytes name = .ok result) :
    ∃ chunk, contents bytes = .ok (chunk, []) := by
  cases hcontents : contents bytes with
  | error error =>
    cases (undump_of_contents_eq_error hcontents name).symm.trans h
  | ok read =>
    obtain ⟨chunk, rest⟩ := read
    by_cases hrest : rest = []
    · exact ⟨chunk, by rw [hrest]⟩
    · cases (undump_of_leftover hcontents hrest name).symm.trans h

/-- A chunk is read back exactly when its prototype is accepted. -/
theorem undump_of_dump {proto : Prototype} {strip : Bool} {limit : Nat}
    {bytes : List UInt8} (h : dump proto strip limit = .ok bytes)
    (name : String) :
    ((∃ result, undump bytes name = .ok result) ↔ proto.verify = .ok ()) ∧
      (proto.verify = .ok () →
        undump bytes name = .ok ((proto.kept strip).attributedTo name)) := by
  have hcontents := contents_of_dump h
  by_cases hdepth : proto.depth ≤ Prototype.maxLevels
  · rw [Prototype.keptWithin, if_pos hdepth] at hcontents
    rw [undump_of_contents hcontents, verify_kept]
    cases proto.verify with
    | error error => simp [Except.map]
    | ok => simp [Except.map]
  · have hverify : proto.verify ≠ .ok () := fun hverify =>
      hdepth (Prototype.depth_le_of_verifyWithin hverify)
    rw [Prototype.keptWithin, if_neg hdepth] at hcontents
    simp [undump_of_contents_eq_error hcontents name, hverify]

/-- What `undump` gives is accepted and has a source at every level. -/
theorem of_undump_eq_ok {bytes : List UInt8} {name : String}
    {result : Prototype} (h : undump bytes name = .ok result) :
    result.verify = .ok () ∧ ∀ other, result.attributedTo other = result := by
  obtain ⟨chunk, hchunk⟩ := contents_of_undump_eq_ok h
  rw [undump_of_contents hchunk] at h
  cases hverify : chunk.main.verify with
  | error error =>
    rw [hverify] at h
    cases h
  | ok =>
    rw [hverify] at h
    obtain rfl : chunk.main.attributedTo name = result := Except.ok.inj h
    rw [Prototype.verify_attributedTo]
    exact ⟨hverify, fun other =>
      chunk.main.attributedTo_attributedTo name other⟩

/-- Writing and reading are inverse: a chunk is accepted exactly when its
prototype is, and then gives what was kept of the prototype, attributed to the
chunk name.  What was read once is read back unchanged under any name. -/
theorem undump_dump :
    (∀ (proto : Prototype) (strip : Bool) (limit : Nat) (name : String)
        (bytes : List UInt8), dump proto strip limit = .ok bytes →
      ((∃ result, undump bytes name = .ok result) ↔ proto.verify = .ok ()) ∧
        (proto.verify = .ok () → undump bytes name =
          .ok ((if strip then proto.stripped else proto).attributedTo name))) ∧
    (∀ (bytes : List UInt8) (name : String) (result : Prototype),
      undump bytes name = .ok result →
        ∀ (limit : Nat) (written : List UInt8) (other : String),
          dump result false limit = .ok written →
          undump written other = .ok result) := by
  refine ⟨fun proto strip limit name bytes h => undump_of_dump h name, ?_⟩
  intro bytes name result h limit written other hwritten
  obtain ⟨hverify, hsource⟩ := of_undump_eq_ok h
  have hread := (undump_of_dump hwritten other).2 hverify
  rwa [Prototype.kept, if_neg Bool.false_ne_true, hsource other] at hread

/-- A function that makes a closure over its local, with a NaN among its
literals. -/
def capturing : Prototype where
  code := #[28, 0, 0]
  constants := #[.float ⟨0x7ff8000000000001⟩]
  protos := [{
    code := #[27]
    upvalues := #[{ name := none, capture := .ofLocal 0 }] }]
  numLocals := 1

theorem verifyCode_capturing : capturing.verifyCode 0 = .ok () := by
  simp [Prototype.verifyCode, capturing, Opcode.ofByte?, Opcode.all,
    Opcode.widths, Opcode.length, Code.operandsAt?, Code.pairAt?, Code.byteAt?,
    Prototype.admits]

theorem verify_capturing : capturing.verify = .ok () := by
  refine (Prototype.verifyWithin_succ_eq_ok_iff 200 capturing).2
    ⟨verifyCode_capturing, fun child hchild => ?_⟩
  obtain rfl := List.mem_singleton.1 hchild
  refine ⟨by simp [Prototype.verifyCaptures, Prototype.provides, capturing],
    (Prototype.verifyWithin_succ_eq_ok_iff 199 _).2 ⟨?_, fun _ h => by cases h⟩⟩
  simp [Prototype.verifyCode, Opcode.ofByte?, Opcode.all, Opcode.widths,
    Opcode.length, Code.operandsAt?, Prototype.admits]

theorem isOk_dump_capturing : (dump capturing true 100).isOk = true := by
  decide +kernel

theorem undump_dump_capturing :
    ∃ bytes, dump capturing true 100 = .ok bytes ∧ capturing.verify = .ok () ∧
      undump bytes "=copy" = .ok (capturing.stripped.attributedTo "=copy") := by
  cases h : dump capturing true 100 with
  | error error =>
    exact absurd isOk_dump_capturing (by rw [h]; exact Bool.false_ne_true)
  | ok bytes =>
    have hread := undump_dump.1 capturing true 100 "=copy" bytes h
    exact ⟨bytes, rfl, verify_capturing, hread.2 verify_capturing⟩

end Isolate.Chunk