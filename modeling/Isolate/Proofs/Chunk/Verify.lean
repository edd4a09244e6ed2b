import Isolate.Chunk.Verify
import Isolate.Proofs.Code.Prototype

/-!
# What verification accepts

Acceptance of a prototype is acceptance of its code, of the captures of its
nested prototypes, and of these prototypes themselves.  It bounds the depth,
does not depend on names, and passes to every nested prototype.
-/

namespace Isolate.Prototype

/-- A check of every member of a list succeeds if it succeeds at each. -/
theorem forM_eq_ok_iff {ε α : Type} (check : α → Except ε Unit) (xs : List α) :
    xs.forM check = .ok () ↔ ∀ x ∈ xs, check x = .ok () := by
  induction xs with
  | nil => exact ⟨fun _ x h => absurd h List.not_mem_nil, fun _ => rfl⟩
  | cons x xs ih =>
    rw [List.forM, List.forall_mem_cons, ← ih]
    cases h : check x with
    | error e => simp [bind, Except.bind]
    | ok => simp [bind, Except.bind]

theorem verifyWithin_succ_eq_ok_iff (levels : Nat) (proto : Prototype) :
    verifyWithin (levels + 1) proto = .ok () ↔
      proto.verifyCode 0 = .ok () ∧
        ∀ child ∈ proto.protos,
          proto.verifyCaptures child = .ok () ∧
            verifyWithin levels child = .ok () := by
  have hchild :
      ∀ child, (do proto.verifyCaptures child; verifyWithin levels child) =
        Except.ok () ↔
          proto.verifyCaptures child = .ok () ∧
            verifyWithin levels child = .ok () := by
    intro child
    cases h : proto.verifyCaptures child with
    | error e => simp [bind, Except.bind]
    | ok => simp [bind, Except.bind]
  rw [verifyWithin]
  cases hcode : proto.verifyCode 0 with
  | error e => simp [bind, Except.bind]
  | ok =>
    simp only [bind, Except.bind, true_and]
    exact (forM_eq_ok_iff _ _).trans
      (forall_congr' fun child => imp_congr_right fun _ => hchild child)

/-- More levels accept more. -/
theorem verifyWithin_mono {levels more : Nat} (h : levels ≤ more)
    {proto : Prototype} (hproto : verifyWithin levels proto = .ok ()) :
    verifyWithin more proto = .ok () := by
  induction proto using nestedInduction generalizing levels more with
  | step proto ih =>
    cases levels with
    | zero => simp [verifyWithin] at hproto
    | succ levels =>
      obtain ⟨more, rfl⟩ : ∃ n, more = n + 1 := ⟨more - 1, by omega⟩
      rw [verifyWithin_succ_eq_ok_iff] at hproto ⊢
      refine ⟨hproto.1, fun child hchild => ⟨(hproto.2 child hchild).1, ?_⟩⟩
      exact ih child hchild (Nat.le_of_succ_le_succ h) (hproto.2 child hchild).2

/-- Nested prototypes of an accepted prototype are accepted on their own. -/
theorem verify_of_mem_protos {proto child : Prototype}
    (hproto : proto.verify = .ok ()) (hchild : child ∈ proto.protos) :
    child.verify = .ok () := by
  have h := ((verifyWithin_succ_eq_ok_iff 200 proto).1 hproto).2 child hchild
  exact verifyWithin_mono (by decide) h.2

theorem verifyCaptures_of_verify {proto child : Prototype}
    (hproto : proto.verify = .ok ()) (hchild : child ∈ proto.protos) :
    proto.verifyCaptures child = .ok () :=
  (((verifyWithin_succ_eq_ok_iff 200 proto).1 hproto).2 child hchild).1

theorem verifyCode_of_verify {proto : Prototype}
    (hproto : proto.verify = .ok ()) : proto.verifyCode 0 = .ok () :=
  ((verifyWithin_succ_eq_ok_iff 200 proto).1 hproto).1

theorem depth_le_of_verifyWithin {levels : Nat} {proto : Prototype}
    (hproto : verifyWithin levels proto = .ok ()) : proto.depth ≤ levels := by
  induction proto using nestedInduction generalizing levels with
  | step proto ih =>
    cases levels with
    | zero => simp [verifyWithin] at hproto
    | succ levels =>
      rw [verifyWithin_succ_eq_ok_iff] at hproto
      exact (depth_le_succ_iff proto levels).2 fun child hchild =>
        ih child hchild (hproto.2 child hchild).2

/-! ## Names do not matter -/

@[simp]
theorem admits_stripped (proto : Prototype) (op : Opcode)
    (operands : List Nat) :
    proto.stripped.admits op operands = proto.admits op operands := by
  simp only [admits]
  simp

/-- The check of the code reads only the code and what operands name. -/
theorem verifyCode_stripped (proto : Prototype) (offset : Nat) :
    proto.stripped.verifyCode offset = proto.verifyCode offset := by
  fun_induction verifyCode proto offset with
  | case1 offset h hop =>
    rw [verifyCode, dif_pos (by simpa using h)]
    simp [hop]
  | case2 offset h op hop hoperands =>
    rw [verifyCode, dif_pos (by simpa using h)]
    simp [hop, hoperands]
  | case3 offset h op hop operands hoperands hadmits ih =>
    rw [verifyCode, dif_pos (by simpa using h)]
    simp [hop, hoperands, hadmits, ih]
  | case4 offset h op hop operands hoperands hadmits =>
    rw [verifyCode, dif_pos (by simpa using h)]
    simp [hop, hoperands, hadmits]
  | case5 offset h => rw [verifyCode, dif_neg (by simpa using h)]

theorem verifyCaptures_stripped (proto child : Prototype) :
    proto.stripped.verifyCaptures child.stripped =
      proto.verifyCaptures child := by
  have hprovides :
      ∀ capture, proto.stripped.provides capture = proto.provides capture := by
    intro capture
    cases capture <;> simp [provides]
  simp only [verifyCaptures]
  rw [stripped_upvalues, Array.all_map]
  simp only [hprovides, Function.comp_def]

theorem verifyWithin_stripped (levels : Nat) (proto : Prototype) :
    verifyWithin levels proto.stripped = verifyWithin levels proto := by
  induction proto using nestedInduction generalizing levels with
  | step proto ih =>
    cases levels with
    | zero => rfl
    | succ levels =>
      have hforM :
          ∀ protos : List Prototype, (∀ child ∈ protos, child ∈ proto.protos) →
            ((protos.map stripped).forM fun child => do
              proto.stripped.verifyCaptures child
              verifyWithin levels child) =
            (protos.forM fun child => do
              proto.verifyCaptures child
              verifyWithin levels child) := by
        intro protos hmem
        induction protos with
        | nil => rfl
        | cons child rest ihRest =>
          rw [List.map_cons, List.forM, List.forM, verifyCaptures_stripped,
            ih child (hmem child List.mem_cons_self) levels,
            ihRest fun other h => hmem other (List.mem_cons_of_mem child h)]
      rw [verifyWithin, verifyWithin, verifyCode_stripped, stripped_protos,
        hforM _ fun child h => h]

theorem verify_stripped (proto : Prototype) :
    proto.stripped.verify = proto.verify :=
  verifyWithin_stripped maxLevels proto

/-- Prototypes that differ only in names and debug information are accepted
alike. -/
theorem verify_attributedTo (source : String) (proto : Prototype) :
    (proto.attributedTo source).verify = proto.verify := by
  rw [← verify_stripped, stripped_attributedTo, verify_stripped]

end Isolate.Prototype
