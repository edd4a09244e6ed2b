import Isolate.Proofs.Chunk.Verify
import Isolate.Proofs.Code.Encoding

/-!
# Instruction boundaries

The offsets at which a walk from the start of the code decodes, and the one at
which it ends.  The operands of every instruction that begins at a boundary of
accepted code can be read and name things that exist.
-/

namespace Isolate

namespace Code

/-- The start of the code, and the end of every instruction that begins at a
boundary. -/
inductive Boundary (code : Code) : Nat → Prop
  | start : Boundary code 0
  | next {offset : Nat} {op : Opcode} (h : Boundary code offset)
      (hop : code.opcodeAt? offset = some op) :
        Boundary code (offset + op.length)

end Code

namespace Prototype

open Code

/-- The operands of an instruction can be read and name things that exist. -/
def Decodes (proto : Prototype) (offset : Nat) (op : Opcode) : Prop :=
  ∃ operands, proto.code.operandsAt? (offset + 1) op.widths = some operands ∧
    proto.admits op operands = true

theorem Decodes.end_le {proto : Prototype} {offset : Nat} {op : Opcode}
    (h : proto.Decodes offset op) (hoffset : offset < proto.code.size) :
    offset + op.length ≤ proto.code.size := by
  obtain ⟨operands, hoperands, -⟩ := h
  have hle := operandsAt?_le op.width_eq hoffset hoperands
  rw [op.length_eq]
  omega

theorem Decodes.byte {proto : Prototype} {offset : Nat} {op : Opcode}
    (h : proto.Decodes offset op) (hwidths : op.widths = [1]) :
    ∃ index, proto.code.byteAt? (offset + 1) = some index ∧
      proto.admits op [index] = true := by
  obtain ⟨operands, hoperands, hadmits⟩ := h
  rw [hwidths] at hoperands
  obtain ⟨index, hindex, hoperands⟩ := Option.bind_eq_some_iff.1 hoperands
  cases hoperands
  exact ⟨index, hindex, hadmits⟩

theorem Decodes.pair {proto : Prototype} {offset : Nat} {op : Opcode}
    (h : proto.Decodes offset op) (hwidths : op.widths = [2]) :
    ∃ index, proto.code.pairAt? (offset + 1) = some index ∧
      proto.admits op [index] = true := by
  obtain ⟨operands, hoperands, hadmits⟩ := h
  rw [hwidths] at hoperands
  obtain ⟨index, hindex, hoperands⟩ := Option.bind_eq_some_iff.1 hoperands
  cases hoperands
  exact ⟨index, hindex, hadmits⟩

theorem Decodes.bytePair {proto : Prototype} {offset : Nat} {op : Opcode}
    (h : proto.Decodes offset op) (hwidths : op.widths = [1, 2]) :
    ∃ index field, proto.code.byteAt? (offset + 1) = some index ∧
      proto.code.pairAt? (offset + 2) = some field ∧
      proto.admits op [index, field] = true := by
  obtain ⟨operands, hoperands, hadmits⟩ := h
  rw [hwidths] at hoperands
  obtain ⟨index, hindex, hoperands⟩ := Option.bind_eq_some_iff.1 hoperands
  obtain ⟨others, hothers, hoperands⟩ := Option.bind_eq_some_iff.1 hoperands
  obtain ⟨field, hfield, hothers⟩ := Option.bind_eq_some_iff.1 hothers
  cases hothers
  cases hoperands
  exact ⟨index, field, hindex, hfield, hadmits⟩

/-- One step of the walk. -/
theorem verifyCode_eq_ok_iff {proto : Prototype} {offset : Nat}
    (hoffset : offset < proto.code.size) :
    proto.verifyCode offset = .ok () ↔
      ∃ op, proto.code.opcodeAt? offset = some op ∧ proto.Decodes offset op ∧
        proto.verifyCode (offset + op.length) = .ok () := by
  rw [verifyCode, dif_pos hoffset]
  constructor
  · intro h
    split at h
    · cases h
    · next op hop =>
      split at h
      · cases h
      · next operands hoperands =>
        split at h
        · next hadmits =>
          exact ⟨op, opcodeAt?_eq_some_iff.2 ⟨hoffset, hop⟩,
            ⟨operands, hoperands, hadmits⟩, h⟩
        · cases h
  · rintro ⟨op, hop, ⟨operands, hoperands, hadmits⟩, h⟩
    obtain ⟨_, hbyte⟩ := opcodeAt?_eq_some_iff.1 hop
    simp only [hbyte, hoperands, hadmits, if_true, h]

/-- The walk of accepted code comes by every boundary. -/
theorem verifyCode_of_boundary {proto : Prototype} {offset : Nat}
    (hproto : proto.verifyCode 0 = .ok ()) (h : Boundary proto.code offset) :
    offset ≤ proto.code.size ∧ proto.verifyCode offset = .ok () := by
  induction h with
  | start => exact ⟨Nat.zero_le _, hproto⟩
  | @next offset op _ hop ih =>
    obtain ⟨hoffset, hbyte⟩ := opcodeAt?_eq_some_iff.1 hop
    obtain ⟨op', hop', hdecodes, hrest⟩ := (verifyCode_eq_ok_iff hoffset).1 ih.2
    obtain rfl : op = op' := Option.some.inj (hop.symm.trans hop')
    exact ⟨hdecodes.end_le hoffset, hrest⟩

/-- At a boundary of accepted code there is an instruction, or the end of the
code. -/
theorem decodes_of_boundary {proto : Prototype} {offset : Nat}
    (hproto : proto.verifyCode 0 = .ok ()) (h : Boundary proto.code offset) :
    offset = proto.code.size ∨
      ∃ op, proto.code.opcodeAt? offset = some op ∧
        proto.Decodes offset op := by
  obtain ⟨hle, hrest⟩ := verifyCode_of_boundary hproto h
  rcases Nat.lt_or_eq_of_le hle with hlt | heq
  · obtain ⟨op, hop, hdecodes, -⟩ := (verifyCode_eq_ok_iff hlt).1 hrest
    exact Or.inr ⟨op, hop, hdecodes⟩
  · exact Or.inl heq

end Prototype

end Isolate
