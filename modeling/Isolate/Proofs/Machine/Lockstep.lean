import Isolate.Proofs.Machine.Instructions

/-!
# Parallel runs

A call of parallel contexts takes the same instructions in both and ends in the
same way, with parallel contexts again.  The step is a turn of the loop; what a
turn does not see, a run does not either.
-/

namespace Isolate

namespace Machine

open Context Code

variable {like : Likeness} {pairs : Handle → Handle → Prop} {c d : Context}
  {natives : Natives} {callBack : CallBack} {proto proto' : Prototype}

/-! ## Turns -/

/-- The instruction of a turn, as a listing shows it.  At the end of the code
there is none, and the turn returns. -/
def Turn.instruction (turn : Turn) : Option Line :=
  turn.ctx.frames.back?.bind fun frame =>
    (turn.proto.code.listingFrom frame.ip).head?

/-- The turn calls a native function that makes text of a reference. -/
def Turn.Shows (turn : Turn) : Prop :=
  ∃ frame, turn.ctx.frames.back? = some frame ∧
    turn.proto.code.opcodeAt? frame.ip = some .call ∧
    turn.ctx.Shows turn.proto frame.ip

theorem ends_fetch_moved (proto : Prototype) (offset : Nat) (op : Opcode)
    (ctx : Context) :
    Ends (fetch proto offset op ctx)
      (fun _ ctx' => ctx'.stack = ctx.stack ∧ ctx'.frames =
        ctx.frames.modify (ctx.frames.size - 1) fun frame =>
          { frame with ip := offset + op.length })
      fun _ _ => True := by
  simp only [fetch, report]
  rw [ends_bind, ends_bind, ends_get]
  split
  · cases proto.code.operandsAt? (offset + 1) op.widths with
    | none => trivial
    | some operands => exact ⟨rfl, rfl⟩
  · exact ⟨rfl, rfl⟩

/-- The offset of the innermost frame does not matter to what an
instruction shows. -/
theorem shows_of_moved {ctx ctx' : Context} {ip offset : Nat}
    (hstack : ctx'.stack = ctx.stack) (hframes : ctx'.frames =
      ctx.frames.modify (ctx.frames.size - 1) fun frame => { frame with ip })
    (h : ctx'.Shows proto offset) : ctx.Shows proto offset := by
  obtain ⟨frame, argumentCount, hback, hread, hheight, hshows⟩ := h
  have hmoved : ∃ before, ctx.frames.back? = some before ∧
      before.localsEnd = frame.localsEnd := by
    rw [hframes, Array.back?_eq_getElem?, Array.size_modify,
      Array.getElem?_modify, if_pos rfl, ← Array.back?_eq_getElem?] at hback
    obtain ⟨before, hbefore, rfl⟩ := Option.map_eq_some_iff.1 hback
    exact ⟨before, hbefore, rfl⟩
  obtain ⟨before, hbefore, hlocals⟩ := hmoved
  rw [CallShows, hstack] at hshows
  rw [hstack] at hheight
  exact ⟨before, argumentCount, hbefore, hread, hlocals ▸ hheight, hshows⟩

/-- What contexts are like while they run: a property that turns keep, with
which a collection leaves parallel contexts parallel. -/
structure Likeness.Lasting (like : Likeness) (natives : Natives)
    (sound : Context → Prop) (accepts : Prototype → Prop) : Prop where
  collected : ∀ {pairs : Handle → Handle → Prop} {c d : Context},
    sound c → sound d →
    Parallel like pairs c d →
    Accord (collectIfDue c) (collectIfDue d) like.Done like.Failed
  running : ∀ {ctx : Context} {frame : Frame}, sound ctx →
    ctx.frames.back? = some frame → accepts frame.proto
  fetched : ∀ {ctx : Context} (proto : Prototype) (offset : Nat)
    (op : Opcode), sound ctx →
      Ends (fetch proto offset op ctx) (fun _ ctx' => sound ctx')
        fun _ _ => True
  turned : ∀ {ctx : Context} {proto : Prototype} (budget : Nat), sound ctx →
    accepts proto →
    Ends (turn natives (call natives budget) proto ctx)
      (fun _ ctx' => sound ctx') fun _ _ => True
  entered : ∀ {ctx : Context}
    (budget calleeSlot argumentCount : Nat), sound ctx →
      Ends (enter natives budget calleeSlot argumentCount ctx)
        (fun _ ctx' => sound ctx') fun _ _ => True

namespace Parallel

variable {sound : Context → Prop} {accepts : Prototype → Prop}
  (hlasting : like.Lasting natives sound accepts)
  (hnatives : like.Answers natives) (hc : sound c) (hd : sound d)
  (h : Parallel like pairs c d)

include h in
theorem instruction_eq (hproto : like.protos proto proto') (budget : Nat) :
    Turn.instruction ⟨budget, proto, c⟩ =
      Turn.instruction ⟨budget, proto', d⟩ := by
  have hback := h.frames.back?
  simp only [Turn.instruction]
  rw [(like.sameBody hproto).code]
  generalize c.frames.back? = frame at hback ⊢
  generalize d.frames.back? = frame' at hback ⊢
  cases hback with
  | none => rfl
  | some hframe => rw [Option.bind_some, Option.bind_some, hframe.ip]

include h in
theorem fetch (hproto : like.protos proto proto') (offset : Nat) (op : Opcode) :
    Accord (fetch proto offset op c) (fetch proto' offset op d)
      like.Done like.Failed := by
  have hreport :
      Accord (report proto offset op c) (report proto' offset op d) like.Done
        like.Failed := by
    simp only [report]
    rw [get_bind, get_bind, h.tracing, (like.sameBody hproto).code,
      h.frames.size_eq, h.stack.size_eq]
    refine .ite Iff.rfl (fun _ => ?_) fun _ => h.done
    cases proto'.code.operandsAt? (offset + 1) op.widths with
    | none => exact h.fails _
    | some operands =>
      exact (h.note (like.executed h.journal _ _ _ _ _ _ _)).done
  exact hreport.bind fun _ c₁ _ d₁ ⟨_, h₁⟩ => h₁.moveTo _

include hlasting hnatives hc hd h

theorem turn (hproto : like.protos proto proto') {budget : Nat}
    (hshown : Turn.Shows ⟨budget, proto, c⟩ → like.legible) :
    Accord (turn natives callBack proto c)
      (turn natives callBack proto' d) like.Done like.Failed := by
  refine h.innermost.look fun frame frame' hfound => ?_
  obtain ⟨hback, hframe⟩ := hfound
  rw [(like.sameBody hproto).code, ← hframe.ip]
  cases hbyte : proto'.code[frame.ip]? with
  | none => exact h.returnValue (.plain rfl)
  | some byte =>
    dsimp only
    cases hop : Opcode.ofByte? byte with
    | none => exact h.fails _
    | some op =>
      have hopcode : proto.code.opcodeAt? frame.ip = some op := by
        rw [(like.sameBody hproto).code, opcodeAt?, hbyte]
        exact hop
      have hexecuted : Accord
          ((Machine.fetch proto frame.ip op >>= fun _ =>
            Machine.execute natives callBack proto frame.ip op) c)
          ((Machine.fetch proto' frame.ip op >>= fun _ =>
            Machine.execute natives callBack proto' frame.ip op) d)
          like.Done like.Failed := by
        have hfetched := (h.fetch hproto frame.ip op).and_ends
          ((hlasting.fetched proto frame.ip op hc).and (ends_fetch_moved proto
            frame.ip op c))
          (hlasting.fetched proto' frame.ip op hd)
        refine (hfetched.mono (fun _ _ _ _ => id) fun _ _ _ _ he => he.1).bind
          fun _ c₁ _ d₁ hended => ?_
        obtain ⟨⟨_, h₁⟩, ⟨hc₁, hstack, hframes⟩, hd₁⟩ := hended
        refine h₁.execute hnatives hproto
          (hlasting.collected hc₁ hd₁ h₁) frame.ip op fun hcall hshows =>
            hshown ⟨frame, hback, ?_, shows_of_moved hstack hframes hshows⟩
        rw [← hcall]
        exact hopcode
      rw [Machine.fetch, Machine.fetch, bind_assoc, bind_assoc] at hexecuted
      exact hexecuted

end Parallel

/-! ## The loop -/

namespace Parallel

variable {sound : Context → Prop} {accepts : Prototype → Prop}
  {budget entry depth : Nat}

theorem atHand (h : Parallel like pairs c d) (hproto : like.protos proto proto')
    (depth : Nat) :
    like.protos (atHand c depth proto) (atHand d depth proto') := by
  have hback := h.frames.back?
  rw [Machine.atHand, Machine.atHand, h.frames.size_eq]
  split
  · exact hproto
  · generalize c.frames.back? = frame at hback ⊢
    generalize d.frames.back? = frame' at hback ⊢
    cases hback with
    | none => exact hproto
    | some hframe => exact hframe.proto

theorem accepts_atHand (hlasting : like.Lasting natives sound accepts)
    (hc : sound c) (hproto : accepts proto) (depth : Nat) :
    accepts (Machine.atHand c depth proto) := by
  rw [Machine.atHand]
  split
  · exact hproto
  · cases hback : c.frames.back? with
    | none => exact hproto
    | some frame => exact hlasting.running hc hback

/-- Two loops take the same instructions and end in the same way.
The step is a turn. -/
theorem loop (hlasting : like.Lasting natives sound accepts)
    (hnatives : like.Answers natives) (h : Parallel like pairs c d)
    (hc : sound c) (hd : sound d) (hproto : like.protos proto proto')
    (haccepts : accepts proto) (haccepts' : accepts proto')
    (hshown :
      (∃ turn ∈ turnsFrom natives budget entry depth proto c, turn.Shows) →
        like.legible) :
    (turnsFrom natives budget entry depth proto c).map Turn.instruction =
        (turnsFrom natives budget entry depth proto' d).map Turn.instruction ∧
      Accord (loop natives budget entry depth proto c)
        (loop natives budget entry depth proto' d) like.Done like.Failed := by
  induction budget generalizing pairs c d depth proto proto' with
  | zero => exact ⟨rfl, h.fails _⟩
  | succ budget ih =>
    by_cases hentry : c.frames.size ≤ entry
    · have hentry' : d.frames.size ≤ entry := h.frames.size_eq ▸ hentry
      rw [turnsFrom, turnsFrom, if_pos hentry, if_pos hentry', Machine.loop,
        Machine.loop, get_bind, get_bind, if_pos hentry, if_pos hentry']
      exact ⟨rfl, h.done⟩
    · have hentry' : ¬d.frames.size ≤ entry := h.frames.size_eq ▸ hentry
      have hat := h.atHand hproto depth
      have haccepted := accepts_atHand hlasting hc haccepts depth
      have haccepted' := accepts_atHand hlasting hd haccepts' depth
      rw [turnsFrom_round hentry] at hshown
      rw [turnsFrom_round hentry, turnsFrom_round hentry', loop_round hentry,
        loop_round hentry', List.map_cons, List.map_cons, h.instruction_eq hat]
      have hturn : Accord
          (Machine.turn natives (call natives budget)
            (Machine.atHand c depth proto) c)
          (Machine.turn natives (call natives budget)
            (Machine.atHand d depth proto') d)
          like.Done like.Failed :=
        h.turn hlasting hnatives hc hd hat fun hshows =>
          hshown ⟨_, List.mem_cons_self, hshows⟩
      have hkept := hlasting.turned budget hc haccepted
      have hkept' := hlasting.turned budget hd haccepted'
      rcases hturn.cases with
        ⟨_, c₁, _, d₁, hc₁, hd₁, _, h₁⟩ | ⟨e, c₁, e', d₁, hc₁, hd₁, h₁⟩
      · rw [bind_of_ok hc₁, bind_of_ok hd₁, hc₁, hd₁, ← h.frames.size_eq]
        rw [hc₁] at hshown
        obtain ⟨hturns, hloop⟩ := ih h₁ (hkept.ok hc₁) (hkept'.ok hd₁) hat
          haccepted haccepted' fun hlater =>
            hshown (hlater.imp fun _ hturn =>
              ⟨List.mem_cons_of_mem _ hturn.1, hturn.2⟩)
        exact ⟨congrArg _ hturns, hloop⟩
      · rw [bind_of_error hc₁, bind_of_error hd₁, hc₁, hd₁]
        exact ⟨rfl, h₁⟩

end Parallel

/-! ## Calls -/

/-- The instructions of a call in order.  A call without its function on
the stack has none. -/
def instructionsOf (natives : Natives) (budget argumentCount : Nat)
    (ctx : Context) : List (Option Line) :=
  if argumentCount < ctx.stack.size then
    (turnsOf natives budget argumentCount ctx).map Turn.instruction
  else []

/-- A call makes text of a reference, at once or in one of its turns. -/
def ShowsReference (natives : Natives) (budget argumentCount : Nat)
    (ctx : Context) : Prop :=
  argumentCount < ctx.stack.size ∧
    (ctx.CallShows (ctx.stack.size - argumentCount - 1) ∨
      ∃ turn ∈ turnsOf natives budget argumentCount ctx, turn.Shows)

theorem accord_unwinding {action action' : Action Unit}
    (h : Accord (action c) (action' d) like.Done like.Failed)
    (entry calleeSlot : Nat) :
    Accord (unwinding entry calleeSlot action c)
      (unwinding entry calleeSlot action' d) like.Done like.Failed := by
  simp only [unwinding]
  rcases h.cases with
    ⟨_, c₁, _, d₁, hc, hd, h₁⟩ | ⟨e, c₁, e', d₁, hc, hd, pairs, h₁, he⟩
  · rw [hc, hd]
    exact h₁
  · have hnoted := h₁.note (like.failed h₁.heap h₁.journal he)
    rw [hc, hd]
    exact ⟨pairs,
      (hnoted.withFrames (h₁.frames.shrink entry)).truncateStack calleeSlot, he⟩

theorem stack_collectIfDue (ctx : Context) :
    Ends (collectIfDue ctx) (fun _ ctx' => ctx'.stack = ctx.stack)
      fun _ _ => True := by
  simp only [collectIfDue]
  rw [ends_bind, ends_get]
  split
  · exact rfl
  · exact rfl

/-- Without its function on the stack a call fails in both. -/
theorem Parallel.call_of_le {budget argumentCount : Nat}
    (h : Parallel like pairs c d) (hnone : c.stack.size ≤ argumentCount) :
    Accord (call natives budget argumentCount c)
      (call natives budget argumentCount d) like.Done like.Failed := by
  cases budget with
  | zero => exact h.fails _
  | succ budget =>
    rw [Machine.call, get_bind, get_bind, if_pos hnone,
      if_pos (h.stack.size_eq ▸ hnone)]
    exact h.fails _

namespace Parallel

variable {sound : Context → Prop} {accepts : Prototype → Prop}
  {budget argumentCount : Nat} (hlasting : like.Lasting natives sound accepts)
  (hnatives : like.Answers natives) (h : Parallel like pairs c d) (hc : sound c)
  (hd : sound d)
include hlasting hnatives h hc hd

theorem enter {calleeSlot : Nat}
    (hshown : c.CallShows calleeSlot → like.legible) :
    Accord (enter natives budget calleeSlot argumentCount c)
      (enter natives budget calleeSlot argumentCount d)
      like.Done like.Failed := by
  have hcollected :=
    (hlasting.collected hc hd h).and_ends (stack_collectIfDue c)
      (stack_collectIfDue d)
  refine (hcollected.mono (fun _ _ _ _ => id) fun _ _ _ _ he => he.1).bind
    fun _ c₁ _ d₁ ⟨⟨_, h₁⟩, hstack, _⟩ => ?_
  refine h₁.startCall hnatives (fun hshows => hshown ?_) argumentCount
  rw [CallShows, hstack] at hshows
  exact hshows

/-- The rest of a call, with the turns that it takes. -/
theorem finish {entry : Nat}
    (hshown : ∀ frame turn, c.frames.back? = some frame →
      turn ∈ turnsFrom natives budget entry c.frames.size frame.proto c →
      turn.Shows → like.legible) :
    (match c.frames.back? with
      | some frame => turnsFrom natives budget entry c.frames.size frame.proto c
      | none => []).map Turn.instruction =
      (match d.frames.back? with
      | some frame => turnsFrom natives budget entry d.frames.size frame.proto d
      | none => []).map Turn.instruction ∧
      Accord (finish natives budget entry c)
        (finish natives budget entry d) like.Done like.Failed := by
  have hback := h.frames.back?
  simp only [Machine.finish]
  rw [get_bind, get_bind]
  generalize hframe : c.frames.back? = frame at hback ⊢
  generalize hframe' : d.frames.back? = frame' at hback ⊢
  cases hback with
  | none => exact ⟨rfl, h.done⟩
  | @some frame frame' hmatches =>
    dsimp only
    rw [get_bind, get_bind, ← h.frames.size_eq]
    exact h.loop hlasting hnatives hc hd hmatches.proto
      (hlasting.running hc hframe) (hlasting.running hd hframe')
      fun ⟨turn, hturn, hshows⟩ =>
        hshown frame turn hframe hturn hshows

/-- A call of parallel contexts takes the same instructions in both, and
ends in the same way. -/
theorem call
    (hshown : ShowsReference natives budget argumentCount c → like.legible) :
    instructionsOf natives budget argumentCount c =
        instructionsOf natives budget argumentCount d ∧
      Accord (call natives budget argumentCount c)
        (call natives budget argumentCount d) like.Done like.Failed := by
  have hheight := h.stack.size_eq
  simp only [instructionsOf]
  by_cases hroom : argumentCount < c.stack.size
  · rw [if_pos hroom, if_pos (hheight ▸ hroom)]
    cases budget with
    | zero => exact ⟨rfl, h.fails _⟩
    | succ budget =>
      have hentered : Accord
          (Machine.enter natives budget (c.stack.size - argumentCount - 1)
            argumentCount c)
          (Machine.enter natives budget (c.stack.size - argumentCount - 1)
            argumentCount d)
          like.Done like.Failed :=
        h.enter hlasting hnatives hc hd
          fun hshows => hshown ⟨hroom, Or.inl hshows⟩
      have hkept := hlasting.entered budget (c.stack.size - argumentCount - 1)
        argumentCount hc
      have hkept' := hlasting.entered budget (c.stack.size - argumentCount - 1)
        argumentCount hd
      rw [call_eq hroom, call_eq (hheight ▸ hroom), turnsOf, turnsOf, ← hheight,
        ← h.frames.size_eq]
      rw [ShowsReference, turnsOf] at hshown
      rcases hentered.cases with
        ⟨_, c₁, _, d₁, hc₁, hd₁, _, h₁⟩ | ⟨e, c₁, e', d₁, hc₁, hd₁, h₁⟩
      · rw [hc₁] at hshown
        rw [hc₁, hd₁]
        have hturns : ∀ frame turn, c₁.frames.back? = some frame →
            turn ∈ turnsFrom natives budget c.frames.size c₁.frames.size
              frame.proto c₁ →
            turn.Shows → like.legible := by
          intro frame turn hframe hturn hshows
          refine hshown ⟨hroom, Or.inr ⟨turn, ?_, hshows⟩⟩
          dsimp only
          rw [hframe]
          exact hturn
        have hfinished :=
          h₁.finish hlasting hnatives (hkept.ok hc₁) (hkept'.ok hd₁) hturns
        refine ⟨hfinished.1, accord_unwinding ?_ _ _⟩
        rw [bind_of_ok hc₁, bind_of_ok hd₁]
        exact hfinished.2
      · rw [hc₁, hd₁]
        refine ⟨rfl, accord_unwinding ?_ _ _⟩
        rw [bind_of_error hc₁, bind_of_error hd₁]
        exact h₁
  · rw [if_neg hroom, if_neg (hheight ▸ hroom)]
    exact ⟨rfl, h.call_of_le (Nat.le_of_not_lt hroom)⟩

end Parallel

/-- A context that is about to call a function without upvalues. -/
def calling (proto : Prototype) : Context :=
  holding [.table .empty, .closure ⟨proto, #[]⟩] #[.function ⟨1⟩]

end Machine

end Isolate
