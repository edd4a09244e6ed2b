import Isolate.Proofs.Session.Locking
import Isolate.Proofs.Transfer.Delivery
import Isolate.Proofs.Transfer.Merging
import Isolate.Proofs.Transfer.Release
import Isolate.Session.Remote

/-!
# Transfers leave the destination alone

Whether a transfer or a merge succeeds or fails, the stack of the destination,
its pins, its frames and every object that was reachable are as before, but for
the copy on top, or the bindings that a table was given.
-/

namespace Isolate

namespace Context

variable {source dest c : Context} {settings : TransferSettings}
  {chunks : List UInt8 → String → Prop}

/-- Pins, frames and everything that was reachable are as before. -/
structure Unharmed (dest c : Context) : Prop extends dest.SamePins c where
  objects : ∀ handle, dest.Live handle →
    c.heap.get? handle = dest.heap.get? handle

/-- A table on top of the stack has got bindings in front of those that it had,
and pins, frames and everything else that was reachable are as before. -/
structure Enriched (dest c : Context) (target : Handle) : Prop
    extends dest.SamePins c where
  top : dest.stack.back? = some (.table target)
  others : ∀ handle, dest.Live handle → handle ≠ target →
    c.heap.get? handle = dest.heap.get? handle
  table : ∃ before after news, dest.heap.get? target = some (.table before) ∧
    c.heap.get? target = some (.table after) ∧
    after.entries = news ++ before.entries

/-- A transfer that succeeds pushes one value, and one that fails pushes
none. -/
theorem ends_receive_unharmed (hsource : source.Intact) (hdest : dest.Intact)
    (hchunks : Chunk.Cache.Distinguished chunks)
    (hcache : dest.cache.Genuine chunks)
    (htravelling : ∀ bytes name, source.Travelling settings bytes name →
      chunks bytes name) (index : Int) :
    Ends (source.receive index settings dest)
      (fun _ c => dest.Unharmed c ∧ ∃ copy, c.stack = dest.stack.push copy)
      fun _ c => dest.Unharmed c ∧ c.stack = dest.stack := by
  have hkept : Ends (source.receive index settings dest)
      (fun _ c => (∃ copy, c.stack = dest.stack.push copy) ∧
        ∀ handle, dest.Live handle → c.heap.get? handle = dest.heap.get? handle)
      fun _ c => c.stack = dest.stack ∧
        ∀ handle, dest.Live handle →
          c.heap.get? handle = dest.heap.get? handle := by
    simp only [receive]
    cases hroot : source.valueAt index with
    | error error => exact ⟨rfl, fun _ _ => rfl⟩
    | ok root =>
      dsimp only
      have hsound : Transfer.Sound source settings
          (.start (dest.note (.transferStarted root.kindName))) :=
        Transfer.sound_start (hdest.toWellFormed.note _)
          (hcache.trusted hchunks htravelling)
      have hcopy := Transfer.ends_copy hsound rfl hsource.toWellFormed
        (hchunks.mono htravelling) (hsource.names_of_valueAt hroot)
      cases hresult : Transfer.copy source settings root
          (.start (dest.note (.transferStarted root.kindName))) with
      | ok _ t =>
        obtain ⟨hsettled, image, -, hstack⟩ := hcopy.ok hresult
        have hreleased := t.released_finish
        refine ⟨⟨image, hreleased.stack.trans hstack⟩, fun handle hlive => ?_⟩
        change t.finish.2.heap.get? handle = _
        rw [hreleased.heap]
        exact hsettled.grown.keeps.objects handle hlive
      | error error t =>
        obtain ⟨hgrown, -, hstack⟩ := hcopy.error hresult
        have hreleased := t.released_finish
        have hsame : t.finish.2.stack = dest.stack :=
          hreleased.stack.trans hstack
        refine ⟨Transfer.truncateStack_of_prefix (hsame ▸ List.prefix_refl _),
          fun handle hlive => ?_⟩
        change t.finish.2.heap.get? handle = _
        rw [hreleased.heap]
        exact hgrown.keeps.objects handle hlive
  refine ((hsource.ends_receive hdest index settings).and hkept).mono
    (fun _ c hc => ?_) fun _ c he => ?_
  · obtain ⟨⟨-, hpins⟩, hstack, hobjects⟩ := hc
    exact ⟨⟨hpins, hobjects⟩, hstack⟩
  · obtain ⟨⟨-, -, hpins⟩, hstack, hobjects⟩ := he
    exact ⟨⟨hpins, hobjects⟩, hstack⟩

/-- The value in the topmost slot. -/
theorem back?_of_valueAt_size {value : Value}
    (h : dest.valueAt dest.stack.size = .ok value) :
    dest.stack.back? = some value := by
  obtain ⟨rest, top, hstack⟩ := exists_top_of_valueAt h
  have htop : dest.stack[rest.size]? = some top := by
    rw [hstack]
    exact Array.getElem?_push_size
  have hvalue := valueAt_of_getElem? htop
  rw [hstack, Array.size_push] at h
  cases h.symm.trans hvalue
  rw [hstack, Array.back?_push]

/-- A merge that succeeds gives bindings to the table on top, and one that
fails takes them back. -/
theorem ends_receiveBindings_unharmed (hsource : source.Intact)
    (hdest : dest.Intact) (hchunks : Chunk.Cache.Distinguished chunks)
    (hcache : dest.cache.Genuine chunks)
    (htravelling : ∀ bytes name, source.Travelling settings bytes name →
      chunks bytes name) (index : Int) :
    Ends (source.receiveBindings index settings dest)
      (fun _ c => (∃ target, dest.Enriched c target) ∧ c.stack = dest.stack)
      fun _ c => dest.Unharmed c ∧ c.stack = dest.stack := by
  have hkept : Ends (source.receiveBindings index settings dest)
      (fun _ c => c.stack = dest.stack ∧ ∃ target first news c',
        dest.stack.back? = some (.table target) ∧
          dest.Gains c' target first news ∧ c.heap = c'.heap)
      fun _ c => c.stack = dest.stack ∧
        ∀ handle, dest.Live handle →
          c.heap.get? handle = dest.heap.get? handle := by
    simp only [receiveBindings]
    cases hhandle : source.tableRefAt index with
    | error error => exact ⟨rfl, fun _ _ => rfl⟩
    | ok handle =>
      dsimp only
      have hready : Transfer.Ready source settings
          (.start (dest.note (.mergeStarted dest.stack.size))) :=
        ⟨Transfer.sound_start (hdest.toWellFormed.note _)
          (hcache.trusted hchunks htravelling), rfl⟩
      have hmerge := hready.ends_mergeTable hsource.toWellFormed
        (hchunks.mono htravelling) handle dest.stack.size
      cases hresult : Transfer.mergeTable source settings handle dest.stack.size
          (.start (dest.note (.mergeStarted dest.stack.size))) with
      | ok added t =>
        obtain ⟨-, -, hstack, target, first, news, htop, hgains⟩ :=
          hmerge.ok hresult
        have hreleased := t.released_finish
        have hgains' : dest.Gains t.dest target first news :=
          ⟨hgains.globals, hgains.frames, hgains.stack, hgains.pinned,
            hgains.before, hgains.table, hgains.others⟩
        exact ⟨hreleased.stack.trans hstack, target, first, news, t.dest,
          back?_of_valueAt_size htop, hgains', hreleased.heap⟩
      | error error t =>
        obtain ⟨-, hstack, hkeeps⟩ := hmerge.error hresult
        have hreleased := t.released_finish
        have hsame : t.finish.2.stack = dest.stack :=
          hreleased.stack.trans hstack
        refine ⟨Transfer.truncateStack_of_prefix (hsame ▸ List.prefix_refl _),
          fun handle hlive => ?_⟩
        change t.finish.2.heap.get? handle = _
        rw [hreleased.heap]
        exact hkeeps.objects handle hlive
  refine ((hsource.ends_receiveBindings hdest index settings).and hkept).mono
    (fun _ c hc => ?_) fun _ c he => ?_
  · obtain ⟨⟨-, hpins⟩, hstack, target, first, news, c', htop, hgains, hheap⟩ :=
      hc
    obtain ⟨table, htable, hentries⟩ := hgains.table
    refine ⟨⟨target, hpins, htop, ?_, first, table, news, hgains.before, ?_,
      hentries⟩, hstack⟩
    · rw [hheap]
      exact hgains.others
    · rw [hheap]
      exact htable
  · obtain ⟨⟨-, -, hpins⟩, hstack, hobjects⟩ := he
    exact ⟨⟨hpins, hobjects⟩, hstack⟩

end Context

namespace Session

variable {source dest session : Session}

/-- A session that got one pin, and is otherwise as before where it was
reachable. -/
structure Pinned (dest session : Session) (pin : Pin)
    (copy : Value) : Prop where
  id : session.id = dest.id
  transfer : session.transfer = dest.transfer
  stack : session.context.stack = dest.context.stack
  globals : session.context.globals = dest.context.globals
  frames : session.context.frames = dest.context.frames
  free : dest.context.registry.get? pin = none
  pinned : session.context.registry.get? pin = some copy
  others : ∀ other, other ≠ pin →
    session.context.registry.get? other = dest.context.registry.get? other
  objects : ∀ handle, dest.context.Live handle →
    session.context.heap.get? handle = dest.context.heap.get? handle

/-- What sending a value leaves in the destination: one pin more, which holds
what the transfer pushed, or nothing new.  It fails if both sessions are one,
and for what the transfer fails with. -/
def Sent (source dest : Session) (index : Int) :
    Except SessionError Pin × Session → Prop
  | (.ok pin, session) => source.id ≠ dest.id ∧ ∃ copy c,
    source.context.receive index source.transfer dest.context = .ok () c ∧
      c.stack = dest.context.stack.push copy ∧
      session.context.heap = c.heap ∧ dest.Pinned session pin copy
  | (.error error, session) =>
    (source.id = dest.id ∧ error = .sameSession ∨
      source.id ≠ dest.id ∧ ∃ cause c,
        source.context.receive index source.transfer dest.context =
          .error cause c ∧ error = .transfer cause) ∧
      session.id = dest.id ∧ session.transfer = dest.transfer ∧
      session.context.stack = dest.context.stack ∧
      dest.context.Unharmed session.context

theorem Sent.exists_ok_iff {index : Int}
    {outcome : Except SessionError Pin × Session}
    (h : Sent source dest index outcome) :
    (∃ pin, outcome.1 = .ok pin) ↔ source.id ≠ dest.id ∧ ∃ c,
      source.context.receive index source.transfer dest.context =
        .ok () c := by
  obtain ⟨result, session⟩ := outcome
  cases result with
  | ok pin =>
    obtain ⟨hids, copy, c, hreceive, -⟩ := h
    exact ⟨fun _ => ⟨hids, c, hreceive⟩, fun _ => ⟨pin, rfl⟩⟩
  | error error =>
    constructor
    · intro hok
      obtain ⟨pin, hpin⟩ := hok
      cases hpin
    · rintro ⟨hids, c, hreceive⟩
      obtain ⟨⟨hsame, -⟩ | ⟨-, cause, c', hfails, -⟩, -⟩ := h
      · exact absurd hsame hids
      · cases hreceive.symm.trans hfails

theorem sent_send {chunks : List UInt8 → String → Prop}
    (hsource : source.context.Intact) (hdest : dest.context.Intact)
    (hchunks : Chunk.Cache.Distinguished chunks)
    (hcache : dest.context.cache.Genuine chunks)
    (htravelling : ∀ bytes name,
      source.context.Travelling source.transfer bytes name →
      chunks bytes name) (index : Int) :
    Sent source dest index (source.send index dest) := by
  have hreceive := (hsource.ends_receive hdest index source.transfer).and
    (Context.ends_receive_unharmed hsource hdest hchunks hcache
      htravelling index)
  simp only [send]
  by_cases hids : source.id = dest.id
  · rw [hids, SessionId.pairOrder?_self]
    exact ⟨.inl ⟨hids, rfl⟩, rfl, rfl, rfl, .refl _, fun _ _ => rfl⟩
  · obtain ⟨order, horder⟩ := SessionId.exists_pairOrder? hids
    rw [horder]
    dsimp only
    cases hresult : source.context.receive index source.transfer
        dest.context with
    | error error c =>
      obtain ⟨-, hunharmed, hstack⟩ := hreceive.error hresult
      exact ⟨.inr ⟨hids, error, c, hresult, rfl⟩, rfl, rfl, hstack, hunharmed⟩
    | ok _ c =>
      obtain ⟨⟨hintact, -⟩, hunharmed, copy, hstack⟩ := hreceive.ok hresult
      have hpop : Context.pop 1 { c with registry := (c.registry.pin copy).2 } =
          .ok () { c with
            registry := (c.registry.pin copy).2
            stack := dest.context.stack } := Context.pop_one_eq hstack
      have hpinned : (do
          let pin ← Context.pin (-1)
          Context.pop 1
          pure pin : Action Pin) c = .ok (c.registry.pin copy).1 { c with
            registry := (c.registry.pin copy).2
            stack := dest.context.stack } := by
        rw [bind_of_ok (Context.pin_top_eq hstack), bind_of_ok hpop]
        rfl
      dsimp only
      rw [hpinned]
      have hfree :
          dest.context.registry.get? (c.registry.pin copy).1 = none := by
        rw [← hunharmed.pinned]
        exact hintact.registry.get?_pin_before
      refine ⟨hids, copy, c, hresult, hstack, rfl, ?_⟩
      exact {
        id := rfl
        transfer := rfl
        stack := rfl
        globals := hunharmed.globals
        frames := hunharmed.frames
        free := hfree
        pinned := hintact.registry.get?_pin_self
        others := fun other hne =>
          (Registry.get?_pin_of_ne hne).trans (hunharmed.pinned other)
        objects := hunharmed.objects }

end Session

namespace Context

variable {source dest : Context} {settings : TransferSettings}

/-- Transfers leave the destination alone, at whatever value they fail, whenever
they collect and whatever slots they reuse, as long as no two of the chunks that
its cache was filled from or that travel share a key.  A value is sent to
another session just when the transfer to its context succeeds. -/
theorem dest_unharmed {chunks : List UInt8 → String → Prop}
    (hsource : source.Intact) (hdest : dest.Intact)
    (hchunks : Chunk.Cache.Distinguished chunks)
    (hcache : dest.cache.Genuine chunks)
    (htravelling : ∀ bytes name, source.Travelling settings bytes name →
      chunks bytes name) (index : Int) :
    Ends (source.receive index settings dest)
      (fun _ c => dest.Unharmed c ∧ ∃ copy, c.stack = dest.stack.push copy)
      (fun _ c => dest.Unharmed c ∧ c.stack = dest.stack) ∧
    Ends (source.receiveBindings index settings dest)
      (fun _ c => (∃ target, dest.Enriched c target) ∧ c.stack = dest.stack)
      (fun _ c => dest.Unharmed c ∧ c.stack = dest.stack) ∧
    ∀ first second : Session, first.context = source →
      first.transfer = settings → second.context = dest →
        ((∃ pin, (first.send index second).1 = .ok pin) ↔
          first.id ≠ second.id ∧ ∃ c,
            source.receive index settings dest = .ok () c) ∧
        first.Sent second index (first.send index second) := by
  refine ⟨ends_receive_unharmed hsource hdest hchunks hcache htravelling index,
    ends_receiveBindings_unharmed hsource hdest hchunks hcache
      htravelling index, ?_⟩
  rintro first second rfl rfl rfl
  have hsent := Session.sent_send hsource hdest hchunks hcache htravelling index
  exact ⟨hsent.exists_ok_iff, hsent⟩

/-- Everything that can be copied from the table that holds itself is copied,
and only its copy is new on the stack. -/
theorem dest_unharmed_knotted : ∃ c copy, knotted.receive 1 {} bare = .ok () c ∧
    bare.Unharmed c ∧ c.stack = bare.stack.push copy := by
  obtain ⟨hreceive, -, -⟩ := dest_unharmed intact_knotted intact_bare
    distinguished_knotted nofun (fun _ _ h => h) 1
  cases hresult : knotted.receive 1 {} bare with
  | error error c =>
    have hisOk := isOk_receive_knotted
    rw [hresult] at hisOk
    cases hisOk
  | ok _ c =>
    obtain ⟨hunharmed, copy, hstack⟩ := hreceive.ok hresult
    exact ⟨c, copy, rfl, hunharmed, hstack⟩

end Context

end Isolate
