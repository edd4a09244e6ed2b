import Isolate.Proofs.Chunk.Size

/-!
# Stripped chunks

Stripping is defined on prototypes and once more in the writer.  Both give the
same record, so a stripped chunk says nothing that the stripped prototype does
not, and the function read from it is written as the same chunk again.
-/

namespace Isolate.Chunk

namespace Writer

theorem upvalue_true (u : Upvalue) :
    upvalue true u = upvalue false { u with name := none } := by
  simp only [upvalue]
  cases u.capture <;> rfl

theorem forM_map {α β : Type} (f : α → β) (w : β → Writer) (xs : List α) :
    (xs.map f).forM w = xs.forM fun x => w (f x) := by
  induction xs with
  | nil => rfl
  | cons x xs ih => rw [List.map_cons, List.forM, List.forM, ih]

theorem forM_congr {α : Type} {w v : α → Writer} {xs : List α}
    (h : ∀ x ∈ xs, w x = v x) : xs.forM w = xs.forM v := by
  induction xs with
  | nil => rfl
  | cons x xs ih =>
    rw [List.forM, List.forM, h x List.mem_cons_self,
      ih fun y hy => h y (List.mem_cons_of_mem x hy)]

/-- Leaving out while writing is writing what was left over. -/
theorem prototype_true (proto : Prototype) :
    prototype true proto = prototype false proto.stripped := by
  induction proto using Prototype.nestedInduction with
  | step proto ih =>
    obtain ⟨code, constants, upvalues, protos, numParams, numLocals, debug⟩ :=
      proto
    -- Names stand at two places only: with the upvalues, and in the debug
    -- record.
    have hupvalues : upvalues.toList.forM (upvalue true) =
        (upvalues.map fun u => { u with name := none }).toList.forM
          (upvalue false) := by
      rw [Array.toList_map, forM_map]
      exact forM_congr fun u _ => upvalue_true u
    have hprotos : protos.forM (prototype true) =
        (protos.map Prototype.stripped).forM (prototype false) := by
      rw [forM_map]
      exact forM_congr ih
    simp only [Prototype.stripped, Prototype.strippedAll_eq_map, prototype,
      prototypes_eq_forM, hupvalues, hprotos, Array.size_map,
      List.length_map, if_true]
    rfl

end Writer

/-- What precedes the flags. -/
def front : List UInt8 := signature ++ littleEndian 2 formatVersion

theorem length_front : front.length = 6 := rfl

/-- A record that is written comes after the front and the flags. -/
theorem appends_contents {proto : Prototype} {strip : Bool}
    {record : List UInt8} (h : (Writer.prototype strip proto).Appends record) :
    (writeContents strip proto).Appends
      (front ++ (if strip then (1 : UInt8) else 0) :: record) := by
  have hrest := (Writer.appends_put [if strip then (1 : UInt8) else 0]).bind h
  have hall := (Writer.appends_put signature).bind
    ((Writer.appends_put (littleEndian 2 formatVersion)).bind hrest)
  rw [front, List.append_assoc]
  exact hall

theorem refuses_contents {proto : Prototype} {strip : Bool}
    (h : (Writer.prototype strip proto).Refuses) :
    (writeContents strip proto).Refuses :=
  (Writer.appends_put signature).bind_refuses
    ((Writer.appends_put (littleEndian 2 formatVersion)).bind_refuses
      ((Writer.appends_put [if strip then (1 : UInt8) else 0]).bind_refuses h))

/-- The two ways to strip give chunks that only the flags tell apart. -/
theorem dump_stripped (proto : Prototype) (limit : Nat) :
    (dump proto true limit = .error (.tooLarge limit) ∧
        dump proto.stripped false limit = .error (.tooLarge limit)) ∨
      ∃ record, dump proto true limit = .ok (front ++ 1 :: record) ∧
        dump proto.stripped false limit = .ok (front ++ 0 :: record) := by
  have hsame := Writer.prototype_true proto
  rcases (agrees_prototype true 0 proto).uniform with
    hrefuses | ⟨record, -, happends⟩
  · exact .inl ⟨dump_of_refuses (refuses_contents hrefuses) limit,
      dump_of_refuses (refuses_contents (hsame ▸ hrefuses)) limit⟩
  · have htrue := dump_of_appends (appends_contents happends) limit
    have hfalse := dump_of_appends (appends_contents (hsame ▸ happends)) limit
    simp only [List.length_append, List.length_cons, if_true,
      Bool.false_eq_true, if_false] at htrue hfalse
    by_cases hlimit : limit < front.length + (record.length + 1)
    · rw [if_pos hlimit] at htrue hfalse
      exact .inl ⟨htrue, hfalse⟩
    · rw [if_neg hlimit] at htrue hfalse
      exact .inr ⟨record, htrue, hfalse⟩

/-- A stripped chunk shows nothing that stripping leaves out. -/
theorem dump_true_congr {proto other : Prototype}
    (h : proto.stripped = other.stripped) (limit : Nat) :
    dump proto true limit = dump other true limit := by
  have hwriter : Writer.prototype true proto = Writer.prototype true other := by
    rw [Writer.prototype_true, Writer.prototype_true, h]
  simp only [dump, hwriter]

/-- What is read from a stripped chunk is accepted and keeps all
that stripping keeps. -/
theorem stripped_of_undump {proto result : Prototype} {limit : Nat}
    {bytes : List UInt8} {name : String}
    (hdump : dump proto true limit = .ok bytes)
    (hread : undump bytes name = .ok result) :
    result.verify = .ok () ∧ result.stripped = proto.stripped := by
  have haccepted := (undump_of_dump hdump name).1.1 ⟨result, hread⟩
  have hresult := hread.symm.trans ((undump_of_dump hdump name).2 haccepted)
  refine ⟨(of_undump_eq_ok hread).1, ?_⟩
  rw [Except.ok.inj hresult, Prototype.stripped_attributedTo,
    Prototype.kept, if_pos rfl, Prototype.stripped_stripped]

end Isolate.Chunk
