import Isolate.Native.Standard
import Isolate.Proofs.Machine.Intact
import Isolate.Proofs.Machine.Parallel

/-!
# Instructions of parallel contexts

Whatever an instruction does in one context it does in a parallel one.  Each
instruction is followed through its actions, which keep contexts parallel or
fail on both sides.  Only a native function that makes text of a reference can
tell handles apart.
-/

namespace Isolate

/-- A native function makes text of a table, function or block of host memory
that it is given. -/
def Native.Shows : String → List Value → Prop
  | "tostring", [value] => value.handle?.isSome
  | "assert", [value, message] => value.truthy = false ∧ message.handle?.isSome
  | _, _ => False

/-- The value in a stack slot is a native function that makes text of a
reference, given the values above it. -/
def Context.CallShows (ctx : Context) (calleeSlot : Nat) : Prop :=
  ∃ name, ctx.stack.getD calleeSlot .nil = .native name ∧
    Native.Shows name (ctx.stack.extract (calleeSlot + 1)).toList

/-- A call with so many arguments, as a prototype has it at an offset, makes
text of a reference. -/
def Context.Shows (ctx : Context) (proto : Prototype) (offset : Nat) : Prop :=
  ∃ frame argumentCount, ctx.frames.back? = some frame ∧
    proto.code.byteAt? (offset + 1) = some argumentCount ∧
    frame.localsEnd + argumentCount + 1 ≤ ctx.stack.size ∧
    ctx.CallShows (ctx.stack.size - (argumentCount + 1))

namespace Machine

open Context Code

variable {like : Likeness} {pairs : Handle → Handle → Prop} {c d : Context}
  {natives : Natives} {callBack : CallBack} {proto proto' : Prototype}

/-! ## Native functions -/

/-- Two runs of a native function change nothing and answer alike. -/
def AnsweredAlike (pairs : Handle → Handle → Prop) (c d : Context)
    (left right : EStateM.Result RuntimeError Context
      (Except String Value)) : Prop :=
  Accord left right
    (fun result c' other d' =>
      c' = c ∧ d' = d ∧ Answered result other (Value.Alike pairs) Eq)
    fun _ _ _ _ => False

/-- Native functions answer alike.  Those that make text of a reference do so as
long as handles are the same. -/
def Likeness.Answers (like : Likeness) (natives : Natives) : Prop :=
  ∀ (name : String) (native : Native) (callBack : CallBack)
    (pairs : Handle → Handle → Prop) (c d : Context)
    (arguments others : List Value), natives name = some native →
      Parallel like pairs c d →
      List.Forall₂ (Value.Alike pairs) arguments others →
      (Native.Shows name arguments → like.legible) →
        AnsweredAlike pairs c d (native callBack arguments c)
          (native callBack others d)

section Answers

variable {arguments others : List Value} {value other : Value}

/-- Native functions of one argument answer alike if they do so for
values that are alike. -/
theorem answeredAlike_ofOne {name : String}
    {f : Context → Value → Except String Value}
    (harguments : List.Forall₂ (Value.Alike pairs) arguments others)
    (hf : ∀ value other : Value, arguments = [value] → value.Alike pairs other →
      Answered (f c value) (f d other) (Value.Alike pairs) Eq) :
    AnsweredAlike pairs c d (Native.ofOne name f callBack arguments c)
      (Native.ofOne name f callBack others d) := by
  refine ⟨rfl, rfl, ?_⟩
  rcases harguments with - | ⟨hvalue, - | ⟨-, hrest⟩⟩
  · exact rfl
  · exact hf _ _ rfl hvalue
  · exact congrArg _ (congrArg (· + 1 + 1) hrest.length_eq)

/-- The text of a value that is shown only as long as handles are the same. -/
theorem Parallel.text_eq (h : Parallel like pairs c d)
    (hvalue : value.Alike pairs other)
    (hshown : value.handle?.isSome → like.legible) :
    value.text = other.text := by
  cases hvalue with
  | plain => rfl
  | table hpair => rw [like.shown (hshown rfl) h.heap hpair]
  | function hpair => rw [like.shown (hshown rfl) h.heap hpair]
  | userdata hpair => rw [like.shown (hshown rfl) h.heap hpair]

theorem Parallel.answeredAlike_rawlen (h : Parallel like pairs c d)
    (harguments : List.Forall₂ (Value.Alike pairs) arguments others) :
    AnsweredAlike pairs c d (Native.rawlen callBack arguments c)
      (Native.rawlen callBack others d) := by
  refine answeredAlike_ofOne harguments fun value other _ hvalue => ?_
  have hlength := h.lengthOf hvalue
  cases hvalue with
  | plain hplain =>
    cases value with
    | table => cases hplain
    | string => exact .plain rfl
    | _ => exact rfl
  | table hpair =>
    dsimp only
    rcases hlength.cases with ⟨m, n, hm, hn, rfl⟩ | ⟨e, f, he, hf, rfl⟩
    · rw [hm, hn]
      exact .plain rfl
    · rw [he, hf]
      exact rfl
  | _ => exact rfl

theorem Parallel.answeredAlike_rawequal (h : Parallel like pairs c d)
    (harguments : List.Forall₂ (Value.Alike pairs) arguments others) :
    AnsweredAlike pairs c d (Native.rawequal callBack arguments c)
      (Native.rawequal callBack others d) := by
  refine ⟨rfl, rfl, ?_⟩
  rcases harguments with - | ⟨hleft, - | ⟨hright, - | ⟨-, hrest⟩⟩⟩
  · exact rfl
  · exact rfl
  · change Value.Alike pairs (.boolean _) (.boolean _)
    rw [hleft.rawEqual_eq (like.oneToOne h.heap) hright]
    exact .plain rfl
  · exact congrArg _ (congrArg (· + 1 + 1 + 1) hrest.length_eq)

/-- A message of `assert` is shown only if there is one and the first
argument is false. -/
theorem Parallel.answeredAlike_assert (h : Parallel like pairs c d)
    (harguments : List.Forall₂ (Value.Alike pairs) arguments others)
    (hshown : Native.Shows "assert" arguments → like.legible) :
    AnsweredAlike pairs c d (Native.assert callBack arguments c)
      (Native.assert callBack others d) := by
  refine ⟨rfl, rfl, ?_⟩
  rcases harguments with - | ⟨hvalue, - | ⟨hmessage, - | ⟨-, hrest⟩⟩⟩
  · exact rfl
  · exact .ite hvalue.truthy_eq (fun _ => hvalue) fun _ => rfl
  · exact .ite hvalue.truthy_eq (fun _ => hvalue) fun hfalse =>
      h.text_eq hmessage fun hsome => hshown ⟨hfalse, hsome⟩
  · exact congrArg _ (congrArg (· + 1 + 1 + 1) hrest.length_eq)

/-- The standard native functions answer alike. -/
theorem answers_standard (like : Likeness) : like.Answers Native.standard := by
  intro name native callBack pairs c d arguments others hnative h
    harguments hshown
  simp only [Native.standard] at hnative
  split at hnative <;> cases hnative
  · refine answeredAlike_ofOne harguments fun value other _ hvalue => ?_
    rw [hvalue.kindName_eq]
    exact .plain rfl
  · exact h.answeredAlike_rawlen harguments
  · exact h.answeredAlike_rawequal harguments
  · refine answeredAlike_ofOne harguments fun value other hone hvalue => ?_
    have htext :=
      h.text_eq hvalue fun hsome => hshown (by rw [hone]; exact hsome)
    rw [htext]
    exact .plain rfl
  · exact h.answeredAlike_assert harguments hshown
  · refine answeredAlike_ofOne harguments fun value other _ hvalue => ?_
    cases hvalue with
    | plain hplain =>
      cases value with
      | string hostName =>
        dsimp only
        rw [h.bindings]
        cases d.bindings.find? hostName with
        | none => exact rfl
        | some host => exact .plain rfl
      | _ => exact rfl
    | _ => exact rfl

end Answers

/-- A new table, which may be collected for first, and is dropped where there
is no room for it. -/
theorem accord_newTable (offset : Nat)
    (hcollect : Accord (collectIfDue c) (collectIfDue d) like.Done
      like.Failed) :
    Accord (execute natives callBack proto offset .newTable c)
      (execute natives callBack proto' offset .newTable d)
      like.Done like.Failed := by
  have hnewTable :
      Accord (Context.newTable c) (Context.newTable d) like.Done like.Failed :=
    hcollect.bind fun _ c₁ _ d₁ ⟨_, h₁⟩ =>
      (h₁.allocate (.table .empty)).bind
        fun left c₂ right d₂ ⟨_, _, h₂, hpair⟩ =>
          h₂.push (.table hpair)
  refine hnewTable.bind fun _ c₁ _ d₁ ⟨_, h₁⟩ => ?_
  rw [get_bind, get_bind, (like.limits h₁.settings).1, h₁.stack.size_eq]
  exact .ite Iff.rfl (fun _ => (h₁.withStack h₁.stack.pop).fails _)
    fun _ => h₁.done

/-- The cells that two closures capture are paired, and what was
paired before still is. -/
def Likeness.Captured (like : Likeness) (pairs : Handle → Handle → Prop)
    (cells : List Handle) (c : Context) (others : List Handle)
    (d : Context) : Prop :=
  ∃ pairs' : Handle → Handle → Prop,
    (∀ left right, pairs left right → pairs' left right) ∧
      Parallel like pairs' c d ∧ List.Forall₂ pairs' cells others

theorem Likeness.Captured.cons {pairs₁ : Handle → Handle → Prop}
    {cell cell' : Handle} {cells cells' : List Handle}
    (himp : ∀ left right, pairs left right → pairs₁ left right)
    (hcell : pairs₁ cell cell') (h : like.Captured pairs₁ cells c cells' d) :
    like.Captured pairs (cell :: cells) c (cell' :: cells') d := by
  obtain ⟨pairs₂, himp₂, h₂, hcells⟩ := h
  exact ⟨pairs₂, fun left right hpair =>
    himp₂ left right (himp left right hpair), h₂,
    .cons (himp₂ cell cell' hcell) hcells⟩

namespace Parallel

variable (h : Parallel like pairs c d)
include h

/-! ## Operators -/

/-- The result of an operator is plain, and the same on both sides. -/
theorem yield {f g : Context → Except RuntimeError Value} (heq : f c = g d)
    (hf : Yields (f c)) :
    Accord ((Context.query f >>= Machine.putOperand) c)
      ((Context.query g >>= Machine.putOperand) d) like.Done like.Failed := by
  have hanswered : Answered (f c) (g d) (Value.Alike pairs) Eq := by
    rw [← heq]
    cases hresult : f c with
    | ok value =>
      rw [hresult] at hf
      exact .plain hf
    | error e => exact rfl
  exact (h.query hanswered).look fun value value' hvalue => h.putOperand hvalue

theorem unary {f : Value → Except RuntimeError Value}
    (heq : ∀ operand operand' : Value, operand.Alike pairs operand' →
      f operand = f operand')
    (hf : ∀ operand, Operates (f operand)) :
    Accord (unary f c) (unary f d) like.Done like.Failed :=
  h.takeOperand.bind fun operand _ operand' _ ⟨h', hoperand⟩ =>
    h'.yield (heq operand operand' hoperand) (hf operand).yields

theorem binary {f : Value → Value → Except RuntimeError Value}
    (heq : ∀ left left' right right' : Value, left.Alike pairs left' →
      right.Alike pairs right' → f left right = f left' right')
    (hf : ∀ left right, Operates (f left right)) :
    Accord (binary f c) (binary f d) like.Done like.Failed :=
  h.takeOperand.bind fun right _ right' _ ⟨h', hright⟩ =>
    h'.takeOperand.bind fun left _ left' _ ⟨h'', hleft⟩ =>
      h''.yield (heq left left' right right' hleft hright)
        (hf left right).yields

/-! ## Calls -/

theorem enterClosure {left right : Handle} (hpair : pairs left right)
    (calleeSlot argumentCount : Nat) :
    Accord (enterClosure left calleeSlot argumentCount c)
      (enterClosure right calleeSlot argumentCount d)
      like.Done like.Failed := by
  obtain ⟨hstack, hdepth⟩ := like.limits h.settings
  simp only [Machine.enterClosure]
  rw [get_bind, get_bind, hstack, hdepth, h.frames.size_eq]
  refine .ite Iff.rfl (fun _ => h.fails _) fun _ => ?_
  refine (h.query (h.closureOf hpair)).look fun closure closure' hclosure => ?_
  obtain ⟨hproto, hcells⟩ := hclosure
  have hbody := like.sameBody hproto
  rw [Frame.localsEnd, Frame.localsEnd, hbody.numLocals, hbody.numParams]
  refine .ite Iff.rfl (fun _ => h.fails _) fun _ => ?_
  have hresized := (h.truncateStack (calleeSlot + 1 +
    min argumentCount closure'.proto.numParams.toNat)).resizeStack
      (calleeSlot + 1 + closure'.proto.numLocals.toNat)
  exact ⟨pairs,
    hresized.withFrames
      (hresized.frames.push ⟨hpair, hproto, hcells, rfl, rfl⟩)⟩

theorem runNative (hnatives : like.Answers natives) {name : String}
    {calleeSlot : Nat}
    (hshown : Native.Shows name (c.stack.extract (calleeSlot + 1)).toList →
      like.legible) :
    Accord (runNative natives callBack name calleeSlot c)
      (runNative natives callBack name calleeSlot d) like.Done like.Failed := by
  simp only [Machine.runNative]
  cases hnative : natives name with
  | none => exact h.fails _
  | some native =>
    dsimp only
    rw [get_bind, get_bind]
    have hanswered := hnatives name native callBack pairs c d _ _ hnative h
      (h.stack.extract (calleeSlot + 1)).forall₂ hshown
    refine (hanswered.mono (fun _ _ _ _ => id) fun _ _ _ _ => False.elim).look
      fun result other hresult => ?_
    rcases hresult.cases with
      ⟨value, value', rfl, rfl, hvalue⟩ | ⟨message, _, rfl, rfl, rfl⟩
    · dsimp only
      rw [modify_bind, modify_bind]
      exact (h.truncateStack calleeSlot).putOperand hvalue
    · exact h.fails _

theorem startCall (hnatives : like.Answers natives) {calleeSlot : Nat}
    (hshown : c.CallShows calleeSlot → like.legible) (argumentCount : Nat) :
    Accord (startCall natives callBack calleeSlot argumentCount c)
      (startCall natives callBack calleeSlot argumentCount d)
      like.Done like.Failed := by
  have hcallee := h.stack.getD calleeSlot (a := .nil) (b := .nil) (.plain rfl)
  simp only [Machine.startCall]
  rw [get_bind, get_bind]
  generalize hvalue : c.stack.getD calleeSlot .nil = callee at hcallee ⊢
  generalize d.stack.getD calleeSlot .nil = callee' at hcallee ⊢
  cases hcallee with
  | plain hplain =>
    cases callee with
    | native name =>
      exact h.runNative hnatives fun hshows => hshown ⟨name, hvalue, hshows⟩
    | function => cases hplain
    | _ => exact h.fails _
  | function hpair => exact h.enterClosure hpair calleeSlot argumentCount
  | _ => exact h.fails _

theorem returnValue {value value' : Value} (hvalue : value.Alike pairs value') :
    Accord (returnValue value c) (returnValue value' d)
      like.Done like.Failed := by
  refine h.innermost.look fun frame frame' ⟨_, hframe⟩ => ?_
  rw [modify_bind, modify_bind, modify_bind, modify_bind, hframe.base]
  exact ((h.withFrames h.frames.pop).truncateStack
    (frame'.base - 1)).push hvalue

/-! ## Closures -/

theorem captureCells {frame frame' : Frame}
    (hframe : frame.Matches like.protos pairs frame')
    {upvalues upvalues' : List Upvalue}
    (hcaptures : upvalues.map Upvalue.capture = upvalues'.map Upvalue.capture) :
    Accord (captureCells frame upvalues c) (captureCells frame' upvalues' d)
      (like.Captured pairs) like.Failed := by
  induction upvalues generalizing pairs c d upvalues' with
  | nil =>
    obtain rfl := List.map_eq_nil_iff.1 hcaptures.symm
    exact ⟨pairs, fun _ _ => id, h, .nil⟩
  | cons upvalue rest ih =>
    cases upvalues' with
    | nil => cases hcaptures
    | cons upvalue' rest' =>
      obtain ⟨hcapture, hrest⟩ := List.cons.inj hcaptures
      -- What is left to do once the first cell is there.
      have hothers : ∀ (pairs₁ : Handle → Handle → Prop) (c₁ d₁ : Context)
          (cell cell' : Handle),
          (∀ left right, pairs left right → pairs₁ left right) →
          Parallel like pairs₁ c₁ d₁ → pairs₁ cell cell' →
            Accord ((captureCells frame rest >>=
              fun others => pure (cell :: others)) c₁)
              ((captureCells frame' rest' >>=
                fun others => pure (cell' :: others)) d₁)
              (like.Captured pairs) like.Failed := by
        intro pairs₁ c₁ d₁ cell cell' himp₁ h₁ hcell
        exact (ih h₁ (hframe.mono himp₁) hrest).bind fun _ _ _ _ hcaptured =>
          hcaptured.cons himp₁ hcell
      rw [Machine.captureCells, Machine.captureCells, hcapture]
      cases upvalue'.capture with
      | ofLocal slot =>
        dsimp only
        rw [get_bind, get_bind, hframe.base]
        refine (h.allocate (.cell (h.stack.getD _ (.plain rfl)))).bind
          fun cell c₁ cell' d₁ hallocated => ?_
        obtain ⟨pairs₁, himp₁, h₁, hcell⟩ := hallocated
        exact hothers pairs₁ c₁ d₁ cell cell' himp₁ h₁ hcell
      | ofEnclosing slot =>
        have hcell := hframe.cells slot.toNat
        dsimp only
        generalize frame.cells[slot.toNat]? = cell at hcell ⊢
        generalize frame'.cells[slot.toNat]? = cell' at hcell ⊢
        cases hcell with
        | none => exact h.fails _
        | some hcell => exact hothers pairs c d _ _ (fun _ _ => id) h hcell

/-- The machine may collect before it makes a closure. -/
theorem instantiate (hproto : like.protos proto proto')
    (hcollect : Accord (collectIfDue c) (collectIfDue d) like.Done like.Failed)
    (index : Nat) :
    Accord (instantiate proto index c) (instantiate proto' index d)
      like.Done like.Failed := by
  have hchild := rel_getElem?_of_forall₂ (like.nested hproto) index
  simp only [Machine.instantiate]
  generalize proto.protos[index]? = child at hchild ⊢
  generalize proto'.protos[index]? = child' at hchild ⊢
  cases hchild with
  | none => exact h.fails _
  | some hchild =>
    refine hcollect.bind fun _ c₁ _ d₁ hcollected => ?_
    obtain ⟨_, h₁⟩ := hcollected
    refine h₁.innermost.look fun frame frame' hfound => ?_
    refine (h₁.captureCells hfound.2 (like.sameBody hchild).captures).bind
      fun cells c₂ cells' d₂ hcaptured => ?_
    obtain ⟨_, _, h₂, hcells⟩ := hcaptured
    refine (h₂.allocate (.closure hchild (.of_forall₂ hcells))).bind
      fun left _ right _ hallocated => ?_
    obtain ⟨_, _, h₃, hpair⟩ := hallocated
    exact h₃.putOperand (.function hpair)

/-! ## Instructions -/

theorem execute (hnatives : like.Answers natives)
    (hproto : like.protos proto proto')
    (hcollect : Accord (collectIfDue c) (collectIfDue d) like.Done like.Failed)
    (offset : Nat) (op : Opcode)
    (hshown : op = .call → c.Shows proto offset → like.legible) :
    Accord (execute natives callBack proto offset op c)
      (execute natives callBack proto' offset op d) like.Done like.Failed := by
  have hbody := like.sameBody hproto
  have hpairs := like.oneToOne h.heap
  cases op with
  | constant =>
    refine (h.pairOperand hbody.code _).look fun index _ hindex => ?_
    subst hindex
    refine (h.literal hbody.constants index offset).look
      fun value value' hvalue => ?_
    exact h.putOperand hvalue
  | loadNil => exact h.putOperand (.plain rfl)
  | loadTrue => exact h.putOperand (.plain rfl)
  | loadFalse => exact h.putOperand (.plain rfl)
  | pop => exact h.takeOperand.bind fun _ _ _ _ ⟨h₁, _⟩ => h₁.done
  | getLocal =>
    refine (h.byteOperand hbody.code _).look fun index _ ⟨hindex, _⟩ => ?_
    subst hindex
    refine (h.slotOfLocal index).look fun slot _ hslot => ?_
    subst hslot
    rw [get_bind, get_bind]
    exact h.putOperand (h.stack.getD slot (.plain rfl))
  | setLocal =>
    refine (h.byteOperand hbody.code _).look fun index _ ⟨hindex, _⟩ => ?_
    subst hindex
    refine (h.slotOfLocal index).look fun slot _ hslot => ?_
    subst hslot
    refine h.takeOperand.bind fun value c₁ value' d₁ ⟨h₁, hvalue⟩ => ?_
    exact (h₁.withStack (h₁.stack.setIfInBounds slot hvalue)).done
  | getUpvalue =>
    refine (h.byteOperand hbody.code _).look fun index _ ⟨hindex, _⟩ => ?_
    subst hindex
    refine (h.cellOfUpvalue index).look fun cell cell' hcell => ?_
    refine (h.queryCell hcell).look fun value value' hvalue => ?_
    exact h.putOperand hvalue
  | setUpvalue =>
    refine (h.byteOperand hbody.code _).look fun index _ ⟨hindex, _⟩ => ?_
    subst hindex
    refine (h.cellOfUpvalue index).look fun cell cell' hcell => ?_
    refine h.takeOperand.bind fun value c₁ value' d₁ ⟨h₁, hvalue⟩ => ?_
    exact h₁.storeCell hcell hvalue
  | getTabUp =>
    refine (h.byteOperand hbody.code _).look fun index _ ⟨hindex, _⟩ => ?_
    subst hindex
    refine (h.pairOperand hbody.code _).look fun field _ hfield => ?_
    subst hfield
    refine (h.literal hbody.constants field field).look fun key key' hkey => ?_
    refine (h.cellOfUpvalue index).look fun cell cell' hcell => ?_
    refine (h.queryCell hcell).look fun target target' htarget => ?_
    refine (h.indexed htarget hkey).look fun value value' hvalue => ?_
    exact h.putOperand hvalue
  | setTabUp =>
    refine (h.byteOperand hbody.code _).look fun index _ ⟨hindex, _⟩ => ?_
    subst hindex
    refine (h.pairOperand hbody.code _).look fun field _ hfield => ?_
    subst hfield
    refine (h.literal hbody.constants field field).look fun key key' hkey => ?_
    refine (h.cellOfUpvalue index).look fun cell cell' hcell => ?_
    refine h.takeOperand.bind fun value c₁ value' d₁ ⟨h₁, hvalue⟩ => ?_
    refine (h₁.queryCell hcell).look fun target target' htarget => ?_
    exact h₁.assign htarget hkey hvalue
  | newTable => exact accord_newTable offset hcollect
  | getIndex =>
    refine h.takeOperand.bind fun key c₁ key' d₁ ⟨h₁, hkey⟩ => ?_
    refine h₁.takeOperand.bind fun target c₂ target' d₂ ⟨h₂, htarget⟩ => ?_
    refine (h₂.indexed htarget hkey).look fun value value' hvalue => ?_
    exact h₂.putOperand hvalue
  | setIndex =>
    refine h.takeOperand.bind fun value c₁ value' d₁ ⟨h₁, hvalue⟩ => ?_
    refine h₁.takeOperand.bind fun key c₂ key' d₂ ⟨h₂, hkey⟩ => ?_
    refine h₂.takeOperand.bind fun target c₃ target' d₃ ⟨h₃, htarget⟩ => ?_
    exact h₃.assign htarget hkey hvalue
  | add =>
    exact h.binary (fun _ _ _ _ => Value.Alike.arithmetic_eq _ _ _)
      (operates_arithmetic _ _ _)
  | sub =>
    exact h.binary (fun _ _ _ _ => Value.Alike.arithmetic_eq _ _ _)
      (operates_arithmetic _ _ _)
  | mul =>
    exact h.binary (fun _ _ _ _ => Value.Alike.arithmetic_eq _ _ _)
      (operates_arithmetic _ _ _)
  | div =>
    exact h.binary (fun _ _ _ _ => Value.Alike.arithmetic_eq _ _ _)
      (operates_arithmetic _ _ _)
  | concat =>
    exact h.binary (fun _ _ _ _ => Value.Alike.concat_eq) operates_concat
  | minus => exact h.unary (fun _ _ => Value.Alike.negate_eq) operates_negate
  | not =>
    refine h.unary (fun operand operand' hoperand => ?_) fun _ => rfl
    rw [hoperand.truthy_eq]
  | equal =>
    refine h.binary (fun left left' right right' hleft hright => ?_)
      fun _ _ => rfl
    rw [hleft.rawEqual_eq hpairs hright]
  | lessThan =>
    refine h.binary (fun left left' right right' hleft hright => ?_)
      operates_lessThan
    rw [hleft.lessThan_eq hright]
  | len =>
    refine h.takeOperand.bind fun operand c₁ operand' d₁ ⟨h₁, hoperand⟩ => ?_
    refine (h₁.query (h₁.lengthOf hoperand)).look fun length _ hlength => ?_
    subst hlength
    exact h₁.putOperand (.plain rfl)
  | jump =>
    refine (h.pairOperand hbody.code _).look fun target _ htarget => ?_
    subst htarget
    exact h.moveTo target
  | jumpIfFalse =>
    refine h.takeOperand.bind fun condition c₁ condition' d₁
      ⟨h₁, hcondition⟩ => ?_
    rw [hcondition.truthy_eq]
    refine .ite Iff.rfl (fun _ => h₁.done) fun _ => ?_
    refine (h₁.pairOperand hbody.code _).look fun target _ htarget => ?_
    subst htarget
    exact h₁.moveTo target
  | call =>
    refine (h.byteOperand hbody.code _).look
      fun argumentCount _ ⟨hcount, hread⟩ => ?_
    subst hcount
    refine h.innermost.look fun frame frame' ⟨hback, hframe⟩ => ?_
    rw [get_bind, get_bind, ← localsEnd_eq hframe, ← h.stack.size_eq]
    refine .ite Iff.rfl (fun hheight => ?_) fun _ => h.fails _
    refine h.startCall hnatives (fun hshows => ?_) argumentCount
    exact hshown rfl ⟨frame, argumentCount, hback, hread, hheight, hshows⟩
  | ret =>
    refine h.innermost.look fun frame frame' ⟨_, hframe⟩ => ?_
    rw [get_bind, get_bind, localsEnd_eq hframe, h.stack.size_eq]
    refine .ite Iff.rfl (fun _ => ?_) fun _ => h.returnValue (.plain rfl)
    exact h.popTop.bind fun value c₁ value' d₁
      ⟨h₁, hvalue⟩ => h₁.returnValue hvalue
  | closure =>
    refine (h.pairOperand hbody.code _).look fun index _ hindex => ?_
    subst hindex
    exact h.instantiate hproto hcollect index

end Parallel

end Machine

end Isolate
