import Isolate.Proofs.Chunk.Acceptance
import Isolate.Proofs.Context.Idle
import Isolate.Proofs.Machine.Limits
import Isolate.Proofs.Machine.Oblivious

/-!
# The discipline of the stack

At every turn of a call the frames and the stack are within the limits, and each
frame has its callee, its locals and its operands to itself.  Instructions reach
no slot that is not there and none that belongs to another frame.
-/

namespace Isolate

/-- The context with other values at the bottom of its stack. -/
def Context.withBelow {count : Nat} (below : Vector Value count)
    (ctx : Context) : Context :=
  { ctx with stack := below.toArray ++ ctx.stack.extract count }

namespace Machine

open Context Code

variable {good : Prototype → Prop} {frame : Frame}
  {inner outer frames rest : List Frame} {ctx start : Context}
  {natives : Natives} {slot depth budget argumentCount height : Nat}
  {proto : Prototype}

/-! ## What turns find -/

/-- The innermost frame with nothing asked of what lies below it. -/
theorem within_of_runs (h : ctx.Runs good (frame :: outer)) :
    Within [] outer.reverse frame ctx where
  stack := List.nil_prefix
  above := Nat.zero_le _
  locals := h.layout.2.1
  frames := ⟨frame.ip, by rw [h.frames_toList, List.reverse_cons]⟩

/-- A turn of the loop begins with the innermost frame's prototype at hand,
within the limits. -/
theorem found_of_turnsOf (hgood : Hereditary good) (hnatives : natives.Proper)
    (hquiet : natives.Quiet) (h : ctx.Runs good frames)
    (hroom : stackFloor frames + argumentCount < ctx.stack.size)
    (budget : Nat) :
    ∀ t ∈ turnsOf natives budget argumentCount ctx,
      ∃ frame rest, t.ctx.Runs good (frame :: rest) ∧ t.proto = frame.proto ∧
        ctx.KeepsLimits t.ctx := by
  refine holds_turnsOf hgood hnatives (fun budget hruns hlimits => ?_) h hroom
    (fun budget => ?_) budget
  · exact (ends_turn_limited hquiet (within_of_runs hruns)
      hruns.layout.1 _).mono (fun _ _ hc => hlimits.trans hc) fun _ _ he => he
  · have hlimited :
        Limited (enter natives budget (ctx.stack.size - argumentCount - 1)
          argumentCount) :=
      parts_limited.collectIfDue.bind fun _ => limited_startCall hquiet _ _
    exact hlimited ctx

/-! ## The slots that a turn reaches -/

/-- A slot that the instruction of a turn reads or writes, with the height that
the stack then has.  Locals and operands are checked before, captured locals and
the slot of the callee are not. -/
inductive Turn.Touches (t : Turn) (frame : Frame) : Nat → Nat → Prop
  | read {index slot : Nat} {c : Context}
      (hop : t.proto.code.opcodeAt? frame.ip = some .getLocal)
      (hindex : t.proto.code.byteAt? (frame.ip + 1) = some index)
      (hslot : slotOfLocal index t.ctx = .ok slot c) :
        t.Touches frame slot t.ctx.stack.size
  | assigned {index slot : Nat} {value : Value} {c d : Context}
      (hop : t.proto.code.opcodeAt? frame.ip = some .setLocal)
      (hindex : t.proto.code.byteAt? (frame.ip + 1) = some index)
      (hslot : slotOfLocal index t.ctx = .ok slot c)
      (htaken : takeOperand c = .ok value d) :
      t.Touches frame slot d.stack.size
  | captured {index : Nat} {child : Prototype} {upvalue : Upvalue}
      {slot : UInt8} (hop : t.proto.code.opcodeAt? frame.ip = some .closure)
      (hindex : t.proto.code.pairAt? (frame.ip + 1) = some index)
      (hchild : t.proto.protos[index]? = some child)
      (hupvalue : upvalue ∈ child.upvalues)
      (hcapture : upvalue.capture = .ofLocal slot) :
      t.Touches frame (frame.base + slot.toNat) t.ctx.stack.size
  | called {argumentCount : Nat}
      (hop : t.proto.code.opcodeAt? frame.ip = some .call)
      (hcount : t.proto.code.byteAt? (frame.ip + 1) = some argumentCount)
      (hroom : frame.localsEnd + argumentCount + 1 ≤ t.ctx.stack.size) :
      t.Touches frame (t.ctx.stack.size - (argumentCount + 1)) t.ctx.stack.size
  /-- An operand that is taken after others. -/
  | operand {taken : Nat} (hroom : frame.localsEnd + taken < t.ctx.stack.size) :
      t.Touches frame (t.ctx.stack.size - taken - 1) (t.ctx.stack.size - taken)
  /-- The slot of the callee, where a return leaves its result. -/
  | result : t.Touches frame (frame.base - 1) t.ctx.stack.size

/-- A slot of the frame that is there. -/
theorem bounds_of_slotOfLocal (h : ctx.Runs good (frame :: outer)) {index : Nat}
    {c : Context} (hslot : slotOfLocal index ctx = .ok slot c) :
    c = ctx ∧ frame.base ≤ slot ∧ slot < frame.localsEnd := by
  have hends : Ends (slotOfLocal index ctx)
      (fun slot c => c = ctx ∧ frame.base ≤ slot ∧ slot < frame.localsEnd)
      fun _ _ => True := by
    refine (ends_innermost h).bind fun found c hc => ?_
    rw [hc.1, hc.2, ends_bind, ends_get]
    split
    · trivial
    · next hbounds =>
      refine ⟨rfl, Nat.le_add_right _ _, ?_⟩
      omega
  exact hends.ok hslot

/-- The locals stay while an operand is taken. -/
theorem localsEnd_le_of_takeOperand (h : ctx.Runs good (frame :: outer))
    {value : Value} {c : Context} (htaken : takeOperand ctx = .ok value c) :
    frame.localsEnd ≤ c.stack.size := by
  have hends :
      Ends (takeOperand ctx) (fun _ c => frame.localsEnd ≤ c.stack.size)
        fun _ _ => True := by
    refine (ends_innermost h).bind fun found c hc => ?_
    rw [hc.1, hc.2, ends_bind, ends_get]
    split
    · trivial
    · simp only [popTop]
      cases ctx.stack.back? with
      | none => trivial
      | some value =>
        change frame.localsEnd ≤ ctx.stack.pop.size
        rw [Array.size_pop]
        omega
  exact hends.ok htaken

/-- Captured locals are among those of the function. -/
theorem lt_numLocals_of_capture {child : Prototype} {upvalue : Upvalue}
    {slot : UInt8} (haccepted : proto.Accepted) (hchild : child ∈ proto.protos)
    (hupvalue : upvalue ∈ child.upvalues)
    (hcapture : upvalue.capture = .ofLocal slot) :
    slot.toNat < proto.numLocals.toNat := by
  have hcaptures := Prototype.verifyCaptures_of_verify haccepted hchild
  have hgrants := (Prototype.verifyCaptures_eq_ok_iff proto child).1 hcaptures
    upvalue hupvalue
  rw [hcapture] at hgrants
  cases hgrants with
  | ofLocal hlt => exact hlt

theorem Turn.Touches.inBounds {t : Turn} (hgood : Hereditary good)
    (h : t.ctx.Runs good (frame :: outer)) (hproto : t.proto = frame.proto)
    (htouches : t.Touches frame slot height) :
    frame.base - 1 ≤ slot ∧ slot < height := by
  obtain ⟨hbase, hlocals, -⟩ := h.layout
  have hend : frame.base ≤ frame.localsEnd := Nat.le_add_right _ _
  cases htouches with
  | read _ _ hslot =>
    obtain ⟨-, hfrom, hto⟩ := bounds_of_slotOfLocal h hslot
    omega
  | assigned _ _ hslot htaken =>
    obtain ⟨rfl, hfrom, hto⟩ := bounds_of_slotOfLocal h hslot
    have hroom := localsEnd_le_of_takeOperand h htaken
    omega
  | @captured _ child upvalue slot _ _ hchild hupvalue hcapture =>
    have haccepted : t.proto.Accepted :=
      hproto ▸ hgood.verified _ (h.runnable frame List.mem_cons_self).good
    have hlt := lt_numLocals_of_capture haccepted (List.mem_of_getElem? hchild)
      hupvalue hcapture
    rw [hproto] at hlt
    have hlocal : frame.base + slot.toNat < frame.localsEnd :=
      Nat.add_lt_add_left hlt _
    omega
  | called _ _ hroom => omega
  | operand hroom => omega
  | result => omega

/-! ## What a turn does not reach -/

/-- Whatever lies below a slot, the turn does the same and leaves it
there.  Only a collection goes over all of the stack, for the
references that it finds. -/
def Turn.Secluded (natives : Natives) (t : Turn) (slot : Nat) : Prop :=
  ∀ below : Vector Value slot,
    t.ctx.heap.enabled = false ∨ below.toList.filterMap Value.handle? =
        (t.ctx.stack.toList.take slot).filterMap Value.handle? →
      Accord (turn natives (call natives t.budget) t.proto t.ctx)
        (turn natives (call natives t.budget) t.proto (t.ctx.withBelow below))
        (fun _ c _ d =>
          c.stack.toList.take slot = t.ctx.stack.toList.take slot ∧
            d = c.withBelow below)
        fun e c e' d =>
          e = e' ∧ c.stack.toList.take slot = t.ctx.stack.toList.take slot ∧
            d = c.withBelow below

theorem shrink_append_extract (stack : Array Value) (slot : Nat) :
    stack.shrink slot ++ stack.extract slot = stack := by
  apply Array.toList_inj.1
  have hrest : (stack.toList.drop slot).take (stack.size - slot) =
      stack.toList.drop slot :=
    List.take_of_length_le (by simp)
  rw [Array.toList_append, Array.toList_shrink, Array.toList_extract,
    List.extract_eq_take_drop, hrest, List.take_append_drop]

theorem extract_append_of_size {below upper : Array Value}
    (hsize : below.size = slot) : (below ++ upper).extract slot = upper := by
  apply Array.toList_inj.1
  simp [← hsize]

/-- Contexts that hide nothing but what lies below a slot. -/
theorem withBelow_of_apart {hidden other : Hidden slot} {c d : Context}
    (h : Apart hidden other c d) (hpast : other.past = hidden.past)
    (hcache : other.cache = hidden.cache)
    (hcapacity : other.capacity = hidden.capacity) :
    c.stack.toList.take slot = hidden.below.toList ∧
      d = c.withBelow other.below := by
  cases h with
  | intro base upper recent =>
    refine ⟨?_, ?_⟩
    · simp only [Hidden.put, Array.toList_append]
      exact List.take_left' (by simp)
    · simp only [withBelow, Hidden.put, hpast, hcache, hcapacity,
        extract_append_of_size hidden.below.size_toArray]

/-- The innermost frame sees nothing of what lies below its callee. -/
theorem secluded_of_runs (hnatives : natives.Look)
    (h : ctx.Runs good (frame :: outer)) (budget : Nat) (proto : Prototype) :
    Turn.Secluded natives ⟨budget, proto, ctx⟩ (frame.base - 1) := by
  intro below hreferences
  obtain ⟨hbase, hlocals, -⟩ := h.layout
  have hend : frame.base ≤ frame.localsEnd := Nat.le_add_right _ _
  have hsize : (ctx.stack.shrink (frame.base - 1)).size = frame.base - 1 := by
    rw [Array.size_shrink]
    omega
  -- Hidden are the slots below the called function; the reports are shared by
  -- both runs.
  let hidden : Hidden (frame.base - 1) :=
    { below := ⟨ctx.stack.shrink (frame.base - 1), hsize⟩
      cache := ctx.cache
      capacity := ctx.settings.chunkCacheCapacity }
  have htaken :
      hidden.below.toList = ctx.stack.toList.take (frame.base - 1) := by
    exact Array.toList_shrink
  have hapart :
      Apart hidden { hidden with below } ctx (ctx.withBelow below) := by
    refine .of_hidden ctx (ctx.stack.extract (frame.base - 1)) ctx.journal ?_ ?_
      (hreferences.imp_right fun hsame => ?_)
    · simp only [Hidden.put, hidden, shrink_append_extract, Array.empty_append]
    · simp only [Hidden.put, hidden, withBelow, Array.empty_append]
    · rw [← htaken] at hsame
      exact hsame.symm
  have hclear : Clear (frame.base - 1) ctx := by
    intro found hfound
    rw [h.back?] at hfound
    cases hfound
    exact Nat.le_refl _
  refine (agree_turn hnatives proto hclear hapart).mono
    (fun _ c _ d hdone => ?_) fun e c e' d hfailed => ⟨hfailed.1, ?_⟩
  · obtain ⟨-, hdone⟩ := hdone
    obtain ⟨hbelow, hd⟩ := withBelow_of_apart hdone rfl rfl rfl
    exact ⟨hbelow.trans htaken, hd⟩
  · obtain ⟨hbelow, hd⟩ := withBelow_of_apart hfailed.2 rfl rfl rfl
    exact ⟨hbelow.trans htaken, hd⟩

/-! ## The discipline -/

/-- A turn of a call that was made in a context: frames and values are within
its limits, the frames stand on each other on the stack, and the innermost one,
whose instruction is next, reaches what is its own and nothing else. -/
structure Turn.Disciplined (natives : Natives) (ctx : Context)
    (t : Turn) : Prop where
  depth : t.ctx.frames.size ≤ ctx.settings.maxCallDepth
  height : t.ctx.stack.size ≤ max ctx.settings.maxStack ctx.stack.size
  adjacent : ∀ before after outer inner,
    t.ctx.frames.toList = before ++ outer :: inner :: after →
    outer.localsEnd ≤ inner.base - 1
  based : ∀ frame ∈ t.ctx.frames.toList, 0 < frame.base
  innermost : ∃ frame, t.ctx.frames.back? = some frame ∧ t.proto = frame.proto ∧
    frame.localsEnd ≤ t.ctx.stack.size ∧
    (∀ slot height, t.Touches frame slot height →
      frame.base - 1 ≤ slot ∧ slot < height) ∧
    (∀ other ∈ t.ctx.frames.toList.dropLast, other.localsEnd ≤ frame.base - 1) ∧
    t.Secluded natives (frame.base - 1)

theorem disciplined_of_found {t : Turn} (hgood : Hereditary good)
    (hnatives : natives.Look) (hidle : ctx.frames = #[])
    (h : t.ctx.Runs good (frame :: outer)) (hproto : t.proto = frame.proto)
    (hlimits : ctx.KeepsLimits t.ctx) : t.Disciplined natives ctx where
  depth := by
    have hdepth := hlimits.depth
    rw [hidle] at hdepth
    exact Nat.le_trans hdepth (Nat.max_le.2 ⟨Nat.le_refl _, Nat.zero_le _⟩)
  height := hlimits.height
  adjacent := by
    intro before after outer' inner hframes
    have hlayout := h.layout
    rw [← h.frames_eq, hframes] at hlayout
    simp only [List.reverse_append, List.reverse_cons, List.append_assoc,
      List.cons_append, List.nil_append] at hlayout
    exact Layout.adjacent hlayout
  based := by
    intro other hother
    rw [h.frames_toList] at hother
    exact h.layout.base_pos (List.mem_reverse.1 hother)
  innermost := by
    refine ⟨frame, h.back?, hproto, h.layout.2.1, fun slot height htouches =>
      htouches.inBounds hgood h hproto, fun other hother => ?_,
      secluded_of_runs hnatives h _ _⟩
    rw [h.frames_toList, List.reverse_cons, List.dropLast_concat] at hother
    exact h.layout.2.2.localsEnd_le (List.mem_reverse.1 hother)

/-- Whatever function a host calls in a context, every turn of the call is
disciplined, also where the host had filled the stack beyond its limit. -/
theorem disciplined_turns (h : ctx.Built) (budget : Nat)
    (hroom : argumentCount < ctx.stack.size) :
    ∀ t ∈ turnsOf Native.standard budget argumentCount ctx,
      t.Disciplined Native.standard ctx := by
  intro t ht
  have hfloor : stackFloor [] + argumentCount < ctx.stack.size := by
    rw [stackFloor, Nat.zero_add]
    exact hroom
  obtain ⟨frame, rest, hruns, hproto, hlimits⟩ :=
    found_of_turnsOf hereditary_accepted
      Native.proper_standard Native.quiet_standard h.runs hfloor budget t ht
  exact disciplined_of_found hereditary_accepted Native.look_standard
    h.frames_eq hruns hproto hlimits

/-- A function that makes a function and calls it. -/
def nesting : Prototype where
  code := #[28, 0, 0, 26, 0, 27]
  protos := [{ code := #[27] }]

/-- A context whose stack has more values than scripts may put there. -/
def overfilled : Context :=
  stateOf ((Operation.push .nil).run (stateOf ((Operation.push .nil).run
    (stateOf ((Operation.loadPrototype nesting "=main").run
      (create { maxStack := 2 } {}))))))

theorem built_overfilled : overfilled.Built :=
  .operate (.operate (.operate (.create _ _) trivial) (Or.inl rfl)) (Or.inl rfl)

theorem frames_nested : (turnsOf Native.standard 9 2 overfilled)[2]?.map
    (fun t => t.ctx.frames.size) = some 2 := by
  decide +kernel

theorem disciplined_turns_overfilled :
    overfilled.Built ∧ 2 < overfilled.stack.size ∧
      ∃ t ∈ turnsOf Native.standard 9 2 overfilled, t.ctx.frames.size = 2 ∧
        t.Disciplined Native.standard overfilled := by
  have hroom : 2 < overfilled.stack.size := by decide +kernel
  obtain ⟨t, ht, hframes⟩ := Option.map_eq_some_iff.1 frames_nested
  have hmem := List.mem_of_getElem? ht
  exact ⟨built_overfilled, hroom, t, hmem, hframes,
    disciplined_turns built_overfilled 9 hroom t hmem⟩

end Machine

end Isolate
