import Isolate.Proofs.Machine.Isolation
import Isolate.Proofs.Machine.Reserved
import Isolate.Proofs.Transfer.Isolation
import Isolate.Proofs.Transfer.Lasting

/-!
# Remote calls

A remote call copies a function and its arguments, merges the globals that the
function uses, runs it, and copies the result back.  Wherever it stops, the
target still has its frames, its pins and the stack that it had, with nothing
but what the call pushed on top, so that cutting the stack back leaves it as it
was.
-/

namespace Isolate

namespace Context

variable {source dest c : Context} {settings : TransferSettings}
  {chunks : List UInt8 → String → Prop}

/-- The bindings of the globals are still there. -/
def KeepsBindings (dest c : Context) : Prop :=
  ∃ first merged, dest.heap.get? dest.globals = some (.table first) ∧
    c.heap.get? dest.globals = some (.table merged) ∧
    ∀ key value, first.find? key = some value → merged.find? key = some value

/-- What is kept has gained nothing. -/
theorem Keeps.gains (h : dest.Keeps c) {target : Handle} {first : Table}
    (hlive : dest.Live target)
    (hfirst : dest.heap.get? target = some (.table first)) :
    dest.Gains c target first [] :=
  ⟨h.globals, h.frames, h.stack, h.pinned, hfirst,
    ⟨first, (h.objects target hlive).trans hfirst,
      rfl⟩, fun handle hhandle _ => h.objects handle hhandle⟩

theorem Unharmed.keeps (h : dest.Unharmed c)
    (hstack : dest.stack.toList <+: c.stack.toList) : dest.Keeps c :=
  ⟨h.globals, h.frames, hstack,
    fun pin _ hvalue => (h.pinned pin).trans hvalue, h.objects⟩

/-- Nothing that was reachable had changed before. -/
theorem KeepsBindings.of_unharmed {target : Context}
    (h : target.KeepsBindings c) (hdest : dest.WellFormed)
    (hunharmed : dest.Unharmed target) : dest.KeepsBindings c := by
  obtain ⟨first, merged, hfirst, hmerged, hkept⟩ := h
  rw [hunharmed.globals] at hfirst hmerged
  rw [hunharmed.objects _ (live_globals hdest)] at hfirst
  exact ⟨first, merged, hfirst, hmerged, hkept⟩

end Context

/-- Natives that no call does harm with: an intact context stays intact, whether
the call succeeds or fails. -/
def Natives.Harmless (natives : Natives) : Prop :=
  ∀ (budget argumentCount : Nat) (ctx : Context), ctx.Intact →
    Ends (Machine.call natives budget argumentCount ctx) (fun _ c => c.Intact)
      fun _ c => c.Intact

theorem Natives.Quiet.harmless {natives : Natives} (h : natives.Quiet) :
    natives.Harmless :=
  fun budget argumentCount _ hctx =>
    (hctx.ends_call h budget argumentCount).mono
      (fun _ _ hc => hc) fun _ _ he => he.intact

namespace Session

open Context

variable {source dest target : Context} {settings : TransferSettings}
  {natives : Natives} {chunks : List UInt8 → String → Prop} {count : Nat}

/-- A merge into the globals of a target, which are on top of its
stack, has ended. -/
structure GlobalsMerged (chunks : List UInt8 → String → Prop) (target : Context)
    (t : Transfer) : Prop where
  intact : t.finish.2.Intact
  pins : target.SamePins t.finish.2
  genuine : t.dest.cache.Genuine chunks
  stack : t.dest.stack = target.stack.push target.globalsValue
  gains : ∃ first news, target.Gains t.dest target.globals first news

/-- Whether it succeeds or fails, the merge gives bindings to the globals at
most. -/
theorem ends_mergeTable_globals (hsource : source.Intact)
    (htarget : target.Intact) (hchunks : Chunk.Cache.Distinguished chunks)
    (hcache : target.cache.Genuine chunks)
    (htravelling : ∀ bytes name, source.Travelling settings bytes name →
      chunks bytes name) :
    Ends (Transfer.mergeTable source settings source.globals (-1)
        (.start { target with stack := target.stack.push target.globalsValue }))
      (fun _ t => GlobalsMerged chunks target t)
      fun _ t => GlobalsMerged chunks target t := by
  let loaded : Context :=
    { target with stack := target.stack.push target.globalsValue }
  have hloaded : loaded.Intact := htarget.push htarget.globals
  have hbelow : target.Keeps loaded := (Keeps.refl target).push _
  obtain ⟨table, htable⟩ := hsource.globals
  obtain ⟨globals, hglobals⟩ := htarget.globals
  have htop : loaded.valueAt (-1) = .ok (.table target.globals) :=
    valueAt_top rfl
  have hready : Transfer.Ready source settings (.start loaded) :=
    ⟨Transfer.sound_start hloaded.toWellFormed
      (hcache.trusted hchunks htravelling), rfl⟩
  have htraversing :
      Transfer.Traversing source settings source.Names (.start loaded) :=
    Transfer.traversing_start hloaded
  have hwalk := htraversing.ends_mergeTable rfl hsource
    hsource.closed_names htable (fun key value hentry =>
      (hsource.objects _ _ htable key value hentry).2) (-1)
  have hgenuine := (Transfer.steps_upholds (lasting_genuine chunks)).mergeTable
    (fun _ _ hbytes => upholds_loadChunk (htravelling _ _ ⟨rfl, _, hbytes⟩))
    source.globals (-1) (.start loaded) hcache
  have hmerge := hready.ends_mergeTable hsource.toWellFormed
    (hchunks.mono htravelling) source.globals (-1)
  have hgains : ∀ {t : Transfer} {first news},
      loaded.Gains t.dest target.globals first news →
      ∃ first news, target.Gains t.dest target.globals first news := fun h =>
    ⟨_, _, h.globals, h.frames, hbelow.stack.trans h.stack, h.pinned,
      h.before, h.table, fun handle hlive hne =>
        h.others handle (hbelow.live hlive) hne⟩
  refine ((hwalk.and hgenuine).and hmerge).mono (fun _ t h => ?_)
    fun _ t h => ?_
  · obtain ⟨⟨hrests, hcache'⟩, -, -, hstack, found, first, news, hfound,
        hgained⟩ := h
    cases htop.symm.trans hfound
    obtain ⟨hintact, hpins⟩ := hrests.finish rfl
    exact ⟨hintact, ⟨hpins.globals, hpins.frames, hpins.pinned⟩, hcache',
      hstack, hgains hgained⟩
  · obtain ⟨⟨⟨-, hrests⟩, hcache'⟩, -, hstack, hkeeps⟩ := h
    obtain ⟨hintact, hpins⟩ := hrests.finish rfl
    exact ⟨hintact, ⟨hpins.globals, hpins.frames, hpins.pinned⟩,
      hcache', hstack,
      hgains (hkeeps.gains (hbelow.live (live_globals htarget.toWellFormed))
        hglobals)⟩

theorem GlobalsMerged.prefix_stack {t : Transfer}
    (h : GlobalsMerged chunks target t) :
    (t.finish.2.stack.shrink target.stack.size) = target.stack := by
  rw [t.finish_dest.1]
  exact Machine.shrink_eq_of_below (h.stack ▸ toList_prefix_push _ _) rfl

theorem GlobalsMerged.keepsBindings {t : Transfer}
    (h : GlobalsMerged chunks target t) : target.KeepsBindings t.finish.2 := by
  obtain ⟨first, news, hgains⟩ := h.gains
  obtain ⟨merged, hmerged, hentries⟩ := hgains.table
  refine ⟨first, merged, hgains.before, t.finish_dest.2 ▸ hmerged,
    fun key value hfound => ?_⟩
  rw [Table.find?_eq_some_iff] at hfound ⊢
  rw [hentries]
  exact List.mem_append_right news hfound

theorem keepsBindings_mergeGlobals (hsource : source.Intact)
    (htarget : target.Intact) (hchunks : Chunk.Cache.Distinguished chunks)
    (hcache : target.cache.Genuine chunks)
    (htravelling : ∀ bytes name, source.Travelling settings bytes name →
      chunks bytes name) :
    target.KeepsBindings (mergeGlobals source settings target) := by
  have hmerge :=
    ends_mergeTable_globals hsource htarget hchunks hcache htravelling
  simp only [mergeGlobals]
  split
  · next added t hresult => exact (hmerge.ok hresult).keepsBindings
  · next error t hresult => exact (hmerge.error hresult).keepsBindings

/-! ## A target during a call -/

/-- A target has its frames, its pins and the stack that it had, with so
many values on top. -/
structure Hosts (chunks : List UInt8 → String → Prop) (dest : Context)
    (count : Nat) (c : Context) : Prop extends dest.SamePins c where
  intact : c.Intact
  genuine : c.cache.Genuine chunks
  stack : dest.stack.toList <+: c.stack.toList
  size : c.stack.size = dest.stack.size + count

namespace Hosts

theorem refl (hdest : dest.Intact) (hcache : dest.cache.Genuine chunks) :
    Hosts chunks dest 0 dest :=
  ⟨.refl dest, hdest, hcache, List.prefix_refl _, rfl⟩

variable {c : Context} (h : Hosts chunks dest count c)
include h

theorem note (notice : Notice) : Hosts chunks dest count (c.note notice) :=
  ⟨h.toSamePins.note notice, h.intact.note notice, h.genuine, h.stack, h.size⟩

theorem push {value : Value} (hvalue : c.Names value) :
    Hosts chunks dest (count + 1) { c with stack := c.stack.push value } where
  globals := h.globals
  frames := h.frames
  pinned := h.pinned
  intact := h.intact.push hvalue
  genuine := h.genuine
  stack := h.stack.trans (toList_prefix_push _ _)
  size := by rw [Array.size_push, h.size, Nat.add_assoc]

/-- What is left once the stack is cut back. -/
theorem truncateStack : (c.truncateStack dest.stack.size).stack = dest.stack :=
  Machine.shrink_eq_of_below h.stack rfl

section Copying

variable (hsource : source.Intact) (hchunks : Chunk.Cache.Distinguished chunks)
  (htravelling : ∀ bytes name, source.Travelling settings bytes name →
    chunks bytes name)
include hsource hchunks htravelling

theorem ends_receive (index : Int) :
    Ends (source.receive index settings c)
      (fun _ c' => Hosts chunks dest (count + 1) c')
      fun _ c' => Hosts chunks dest count c' := by
  have hreceive := ((hsource.ends_receive h.intact index settings).and
    (ends_receive_genuine htravelling h.genuine index)).and
      (ends_receive_unharmed hsource h.intact hchunks h.genuine
        htravelling index)
  refine hreceive.mono (fun _ c' hc => ?_) fun _ c' hc => ?_
  · obtain ⟨⟨⟨hintact, hpins⟩, hgenuine⟩, -, copy, hstack⟩ := hc
    refine ⟨h.toSamePins.trans hpins, hintact, hgenuine, ?_, ?_⟩
    · rw [hstack]
      exact h.stack.trans (toList_prefix_push _ _)
    · rw [hstack, Array.size_push, h.size, Nat.add_assoc]
  · obtain ⟨⟨⟨-, hintact, hpins⟩, hgenuine⟩, -, hstack⟩ := hc
    exact ⟨h.toSamePins.trans hpins, hintact, hgenuine, hstack ▸ h.stack,
      hstack ▸ h.size⟩

theorem mergeGlobals :
    Hosts chunks dest count (mergeGlobals source settings c) := by
  have hmerge :=
    ends_mergeTable_globals hsource h.intact hchunks h.genuine htravelling
  have hcut : ∀ (t : Transfer) (notice : Notice), GlobalsMerged chunks c t →
      Hosts chunks dest count
        ((t.finish.2.note notice).truncateStack c.stack.size) := by
    intro t notice hmerged
    have hstack :
        ((t.finish.2.note notice).truncateStack c.stack.size).stack = c.stack :=
      hmerged.prefix_stack
    refine ⟨((h.toSamePins.trans hmerged.pins).note notice).truncateStack _,
      (hmerged.intact.note notice).truncateStack _,
      Transfer.holds_finish (lasting_genuine chunks) hmerged.genuine, ?_, ?_⟩
    · rw [hstack]
      exact h.stack
    · rw [hstack]
      exact h.size
  simp only [Session.mergeGlobals]
  split
  · next added t hresult => exact hcut t _ (hmerge.ok hresult)
  · next error t hresult => exact hcut t _ (hmerge.error hresult)

theorem copyArguments (index : Int) (number arguments : Nat) :
    Hosts chunks dest (count + arguments)
      (copyArguments source settings index number arguments c) := by
  induction arguments generalizing c index number count with
  | zero => exact h
  | succ arguments ih =>
    have hreceive := h.ends_receive hsource hchunks htravelling index
    rw [Session.copyArguments, Nat.add_comm arguments, ← Nat.add_assoc]
    dsimp only
    cases hresult : source.receive index settings c with
    | ok _ c' => exact ih (hreceive.ok hresult) _ _
    | error error c' =>
      have hnil : (c'.note (.argumentReplaced number error)).Names .nil :=
        trivial
      exact ih (((hreceive.error hresult).note _).push hnil) _ _

end Copying

/-- A call leaves its result in the place of the function and its arguments, and
one that fails leaves them or takes them away. -/
theorem ends_call (hquiet : natives.Quiet) (hbalanced : natives.Balanced)
    (budget : Nat) {argumentCount : Nat} (hcount : count = argumentCount + 1) :
    Ends (Machine.call natives budget argumentCount c)
      (fun _ c' => Hosts chunks dest 1 c')
      fun _ c' => ∃ left, Hosts chunks dest left c' := by
  cases budget with
  | zero => exact ⟨count, h⟩
  | succ budget =>
    have hroom : argumentCount < c.stack.size := by
      have hsize := h.size
      omega
    have hcut :
        c.stack.shrink (c.stack.size - (argumentCount + 1)) = dest.stack :=
      Machine.shrink_eq_of_below h.stack
        (by rw [h.size, hcount, Nat.add_sub_cancel])
    have hpins : ∀ {c' : Context}, c.SameReserve c' → c'.frames = c.frames →
        dest.SamePins c' := fun hreserve hframes =>
      h.toSamePins.trans ⟨hreserve.globals, hframes,
        fun pin => by rw [hreserve.registry]⟩
    refine (((h.intact.ends_call hquiet (budget + 1) argumentCount).and
      (Machine.reserved_call hquiet (budget + 1) argumentCount c)).and
        (Machine.ends_call_isolated hbalanced (fun less _ =>
          Machine.isolated_call hbalanced less) hroom)).mono
      (fun _ c' hc => ?_) fun _ c' hc => ⟨0, ?_⟩
    · obtain ⟨⟨hintact, hreserve⟩, hframes, result, hstack⟩ := hc
      rw [hcut] at hstack
      refine ⟨hpins hreserve hframes, hintact,
        hreserve.cache ▸ h.genuine, ?_, ?_⟩
      · rw [hstack]
        exact toList_prefix_push _ _
      · rw [hstack, Array.size_push]
    · obtain ⟨⟨hfails, hreserve⟩, hframes, hstack⟩ := hc
      rw [hcut] at hstack
      exact ⟨hpins hreserve hframes, hfails.intact, hreserve.cache ▸ h.genuine,
        hstack ▸ List.prefix_refl _, hstack ▸ rfl⟩

end Hosts

/-! ## The run and the result -/

section Run

variable (hsource : source.Intact) (hdest : dest.Intact)
  (hchunks : Chunk.Cache.Distinguished chunks)
  (hcache : dest.cache.Genuine chunks)
  (htravelling : ∀ bytes name, source.Travelling settings bytes name →
    chunks bytes name)
include hsource hdest hchunks hcache htravelling

/-- A run stops before its call, or puts the function and its arguments
on top and calls. -/
theorem runIn_cases (natives : Natives) (budget slot : Nat)
    (argumentCount : UInt64) :
    (∃ count target error, Hosts chunks dest count target ∧
      runIn natives budget source slot argumentCount settings dest =
        (.error error, target)) ∨
    ∃ target, Hosts chunks dest (argumentCount.toNat + 1) target ∧
      runIn natives budget source slot argumentCount settings dest =
        match Machine.call natives budget argumentCount.toNat target with
        | .ok () target => (.ok (), target)
        | .error error target => (.error (.runtime error), target) := by
  have hreceive := (Hosts.refl hdest hcache).ends_receive hsource hchunks
    htravelling (slot + 1)
  simp only [runIn]
  cases hresult : source.receive (slot + 1) settings dest with
  | error error target =>
    exact Or.inl ⟨0, target, _, hreceive.error hresult, rfl⟩
  | ok _ target =>
    have hreceived := hreceive.ok hresult
    dsimp only
    cases source.valueAt (slot + 1) with
    | error error => exact Or.inl ⟨0 + 1, target, _, hreceived, rfl⟩
    | ok function =>
      dsimp only
      have hsupplied : Hosts chunks dest (0 + 1)
          (if usesGlobals source function then
            Session.mergeGlobals source settings target else target) := by
        split
        · exact hreceived.mergeGlobals hsource hchunks htravelling
        · exact hreceived
      have hcount : 0 + 1 + argumentCount.toNat = argumentCount.toNat + 1 := by
        omega
      have hcopied := hsupplied.copyArguments hsource hchunks htravelling
        (slot + 1 + 1) 1 argumentCount.toNat
      exact Or.inr ⟨_, hcount ▸ hcopied, rfl⟩

/-- A run leaves its result in the target, or whatever it had pushed when it
failed. -/
theorem hosts_runIn (hquiet : natives.Quiet) (hbalanced : natives.Balanced)
    (budget slot : Nat) (argumentCount : UInt64) :
    ∃ count, Hosts chunks dest count
        (runIn natives budget source slot argumentCount settings dest).2 ∧
      ((runIn natives budget source slot argumentCount settings dest).1 =
        .ok () → count = 1) := by
  rcases runIn_cases hsource hdest hchunks hcache htravelling natives budget
    slot argumentCount
    with ⟨count, target, error, htarget, heq⟩ | ⟨target, htarget, heq⟩
  · rw [heq]
    exact ⟨count, htarget, nofun⟩
  · have hcall := htarget.ends_call hquiet hbalanced budget rfl
    rw [heq]
    split
    · next c hcalled => exact ⟨1, hcall.ok hcalled, fun _ => rfl⟩
    · next error c hcalled =>
      obtain ⟨left, hleft⟩ := hcall.error hcalled
      exact ⟨left, hleft, nofun⟩

/-- A run leaves an intact target intact. -/
theorem intact_runIn (hnatives : natives.Harmless) (budget slot : Nat)
    (argumentCount : UInt64) :
    (runIn natives budget source slot argumentCount settings
      dest).2.Intact := by
  rcases runIn_cases hsource hdest hchunks hcache htravelling natives budget
    slot argumentCount
    with ⟨count, target, error, htarget, heq⟩ | ⟨target, htarget, heq⟩
  · rw [heq]
    exact htarget.intact
  · have hcall := hnatives budget argumentCount.toNat target htarget.intact
    rw [heq]
    split
    · next c hcalled => exact hcall.ok hcalled
    · next error c hcalled => exact hcall.error hcalled

end Run

/-- What fetching a result leaves in the source: the copy of the value on top of
the worker, or nothing. -/
structure Fetched (chunks : List UInt8 → String → Prop)
    (settings : TransferSettings) (worker : Context)
    (outcome : Except SessionError Unit) (source : Context)
    (result : Except SessionError Unit) (c : Context) : Prop
    extends source.Unharmed c where
  intact : c.Intact
  genuine : c.cache.Genuine chunks
  pushed : result = .ok () → outcome = .ok () ∧ ∃ value rename,
    worker.valueAt (-1) = .ok value ∧
      worker.Faithful source c settings value rename
  dropped : ∀ error, result = .error error → c.stack = source.stack

theorem fetched_fetchResult {worker : Context}
    {outcome : Except SessionError Unit} (hsource : source.Intact)
    (hworker : worker.Intact) (hchunks : Chunk.Cache.Distinguished chunks)
    (hcache : source.cache.Genuine chunks)
    (htravelling : outcome = .ok () → ∀ bytes name,
      worker.Travelling settings bytes name → chunks bytes name) :
    Fetched chunks settings worker outcome source
      (fetchResult settings worker outcome source).1
      (fetchResult settings worker outcome source).2 := by
  simp only [fetchResult]
  cases outcome with
  | error error =>
    exact ⟨⟨.refl source, fun _ _ => rfl⟩, hsource, hcache, nofun,
      fun _ _ => rfl⟩
  | ok _ =>
    have htravelling := htravelling rfl
    have hreceive := ((hworker.ends_receive hsource (-1) settings).and
      (ends_receive_genuine htravelling hcache (-1))).and
        (ends_receive_unharmed hworker hsource hchunks hcache htravelling (-1))
    dsimp only
    cases hresult : worker.receive (-1) settings source with
    | error error c =>
      obtain ⟨⟨⟨-, hintact, -⟩, hgenuine⟩, hunharmed, hstack⟩ :=
        hreceive.error hresult
      exact ⟨hunharmed, hintact, hgenuine, nofun, fun _ _ => hstack⟩
    | ok _ c =>
      obtain ⟨⟨⟨hintact, -⟩, hgenuine⟩, hunharmed, -⟩ := hreceive.ok hresult
      refine ⟨hunharmed, hintact, hgenuine, fun _ => ⟨rfl, ?_⟩, nofun⟩
      exact (ends_receive_faithful hworker.toWellFormed hsource.toWellFormed
        hchunks hcache htravelling (-1)).ok hresult

/-- What a remote call of the function in a slot leaves in both sessions; `run`
is what ran in the target. -/
structure CleanedUp (source dest : Session) (slot : Nat)
    (run : Except SessionError Unit × Context)
    (result : Except SessionError Unit) (source' dest' : Session) : Prop where
  /-- A call that succeeds leaves one copy of its result in the place of the
  function and its arguments. -/
  pushed : result = .ok () → run.1 = .ok () ∧ ∃ value rename,
    run.2.valueAt (-1) = .ok value ∧
      source'.context.stack =
        (source.context.stack.shrink slot).push (value.rename rename) ∧
      run.2.Faithful (source.context.truncateStack slot) source'.context
        source.transfer value rename
  /-- A call that fails leaves nothing in their place. -/
  dropped : ∀ error, result = .error error →
    source'.context.stack = source.context.stack.shrink slot
  sourcePins : source.context.SamePins source'.context
  destStack : dest'.context.stack = dest.context.stack
  destPins : dest.context.SamePins dest'.context

end Session

namespace Session

open Context

variable {source dest : Session} {natives : Natives} {argumentCount : UInt64}
  {chunks : List UInt8 → String → Prop} {slot : Nat}

/-- The slots that a call needs, as long as their number fits a word. -/
theorem toNat_needed (hfits : argumentCount.toNat + 1 < UInt64.size) :
    (argumentCount + 1).toNat = argumentCount.toNat + 1 := by
  rw [UInt64.toNat_add]
  exact Nat.mod_eq_of_lt hfits

theorem exists_functionSlot? (hheight : source.context.stack.size < UInt64.size)
    (hcount : argumentCount.toNat < source.context.stack.size) :
    ∃ slot, functionSlot? source.context argumentCount = some slot ∧
      slot + (argumentCount.toNat + 1) = source.context.stack.size := by
  have hneeded :=
    toNat_needed (by omega : argumentCount.toNat + 1 < UInt64.size)
  simp only [functionSlot?]
  rw [hneeded, if_pos (Nat.succ_le_of_lt hcount)]
  exact ⟨_, rfl, Nat.sub_add_cancel (Nat.succ_le_of_lt hcount)⟩

theorem callIn_eq (budget : Nat) (hids : source.id ≠ dest.id)
    (hslot : functionSlot? source.context argumentCount = some slot) :
    callIn natives budget source argumentCount dest =
      let run := runIn natives budget source.context slot argumentCount
        source.transfer dest.context
      let fetched :=
        fetchResult source.transfer run.2 run.1
          (source.context.truncateStack slot)
      (fetched.1, { source with context := fetched.2 },
        { dest with
          context := run.2.truncateStack dest.context.stack.size }) := by
  obtain ⟨order, horder⟩ := SessionId.exists_pairOrder? hids
  simp only [callIn]
  rw [horder]
  dsimp only
  rw [hslot]

/-- What was hosted and fetched is cleaned up. -/
theorem cleanedUp_of_hosts {run : Except SessionError Unit × Context}
    {left : Nat} {result : Except SessionError Unit} {c : Context}
    (hhosts : Hosts chunks dest.context left run.2)
    (hfetched : Fetched chunks source.transfer run.2 run.1
      (source.context.truncateStack slot) result c) :
    CleanedUp source dest slot run result { source with context := c }
      { dest with context := run.2.truncateStack dest.context.stack.size } where
  pushed := by
    intro hresult
    obtain ⟨hrun, value, rename, hvalue, hfaithful⟩ := hfetched.pushed hresult
    exact ⟨hrun, value, rename, hvalue, hfaithful.pushed, hfaithful⟩
  dropped := hfetched.dropped
  sourcePins := ⟨hfetched.globals, hfetched.frames, hfetched.pinned⟩
  destStack := hhosts.truncateStack
  destPins := hhosts.toSamePins.truncateStack _

/-- A remote call cleans up wherever it stops: of the source it replaces the
function and its arguments by a copy of the result or by nothing, and the target
keeps its stack, its frames, its pins and, while the globals are merged, every
binding of its globals. -/
theorem callIn_cleans_up (budget : Nat) (hids : source.id ≠ dest.id)
    (hsource : source.context.Intact) (hdest : dest.context.Intact)
    (hheight : source.context.stack.size < UInt64.size)
    (hcount : argumentCount.toNat < source.context.stack.size)
    (hchunks : Chunk.Cache.Distinguished chunks)
    (hsourceCache : source.context.cache.Genuine chunks)
    (hdestCache : dest.context.cache.Genuine chunks)
    (htravelling : ∀ bytes name,
      source.context.Travelling source.transfer bytes name → chunks bytes name)
    (hback : ∀ slot target,
      functionSlot? source.context argumentCount = some slot →
      runIn Native.standard budget source.context slot argumentCount
        source.transfer dest.context = (.ok (), target) →
      ∀ bytes name, target.Travelling source.transfer bytes name →
      chunks bytes name) :
    ∃ slot result source' dest',
      slot + (argumentCount.toNat + 1) = source.context.stack.size ∧
        callIn Native.standard budget source argumentCount dest =
          (result, source', dest') ∧
        CleanedUp source dest slot
          (runIn Native.standard budget source.context slot argumentCount
            source.transfer dest.context) result source' dest' ∧
        ∀ target,
          source.context.receive (slot + 1) source.transfer dest.context =
            .ok () target →
          dest.context.KeepsBindings (mergeGlobals source.context
            source.transfer target) := by
  obtain ⟨slot, hslot, hsum⟩ := exists_functionSlot? hheight hcount
  obtain ⟨left, hhosts, -⟩ := hosts_runIn hsource hdest hchunks
    hdestCache htravelling Native.quiet_standard Native.balanced_standard budget
    slot argumentCount
  have hfetched := fetched_fetchResult (hsource.truncateStack slot)
    hhosts.intact hchunks hsourceCache fun hrun =>
      hback _ _ hslot (Prod.ext hrun rfl)
  refine ⟨slot, _, _, _, hsum, callIn_eq budget hids hslot,
    cleanedUp_of_hosts hhosts hfetched, fun target hreceived => ?_⟩
  have hreceive := (Hosts.refl hdest hdestCache).ends_receive hsource hchunks
    htravelling (slot + 1)
  have htarget := hreceive.ok hreceived
  obtain ⟨hunharmed, -⟩ :=
    (ends_receive_unharmed hsource hdest hchunks hdestCache htravelling
      (slot + 1)).ok hreceived
  exact (keepsBindings_mergeGlobals hsource htarget.intact hchunks
    htarget.genuine htravelling).of_unharmed hdest.toWellFormed hunharmed

/-! ## A function that returns at once -/

/-- A context that writes no chunk but one. -/
def writesOnly (ctx : Context) (settings : TransferSettings)
    (bytes : List UInt8) : Bool :=
  (List.range ctx.heap.slots.size).all fun index =>
    (ctx.chunkOf (.function ⟨index⟩) settings.stripDebug).toOption.all
      (· = bytes)

theorem eq_of_writesOnly {ctx : Context} {settings : TransferSettings}
    {bytes found : List UInt8} {name : String}
    (h : writesOnly ctx settings bytes = true)
    (hfound : ctx.Travelling settings found name) :
    found = bytes ∧ name = settings.chunkName := by
  obtain ⟨rfl, function, hbytes⟩ := hfound
  obtain ⟨handle, closure, rfl, hclosure, -⟩ := exists_closure_of_chunkOf hbytes
  obtain ⟨entry, hentry, -⟩ := Heap.objectIn_eq_some_iff.1 hclosure
  have hslot : handle.index ∈ List.range ctx.heap.slots.size :=
    List.mem_range.2 (Array.getElem?_eq_some_iff.1 hentry).1
  have honly := List.all_eq_true.1 h _ hslot
  rw [hbytes] at honly
  exact ⟨of_decide_eq_true honly, rfl⟩

theorem distinguished_of_eq (bytes : List UInt8) (name : String) :
    Chunk.Cache.Distinguished fun found
      other => found = bytes ∧ other = name := by
  rintro _ _ _ _ ⟨rfl, rfl⟩ ⟨rfl, rfl⟩ -
  exact ⟨rfl, rfl⟩

/-- A context with one function on the stack, which takes no arguments and
captures nothing. -/
theorem intact_alone {code : Array UInt8}
    (hcode : Prototype.Accepted { code }) :
    (holding [.table .empty, .closure ⟨{ code }, #[]⟩]
      #[.function ⟨1⟩]).Intact := by
  refine intact_holding (wellFormed_holding (fun object hobject => ?_)
    (fun value hvalue => ?_) ⟨_, rfl⟩) fun closure hclosure => ?_
  · simp only [List.mem_cons, List.not_mem_nil, or_false] at hobject
    rcases hobject with rfl | rfl
    · exact holds_empty
    · exact ⟨rfl, nofun⟩
  · cases List.mem_singleton.1 hvalue
    exact ⟨_, rfl⟩
  · simp only [List.mem_cons, List.not_mem_nil, or_false,
      reduceCtorEq, false_or, Object.closure.injEq] at hclosure
    subst hclosure
    exact hcode

/-- The function on the stack returns at once. -/
def caller : Session where
  id := 1
  context := holding [.table .empty, .closure ⟨{ code := #[27] }, #[]⟩]
    #[.function ⟨1⟩]
  transfer := {}

def callee : Session where
  id := 2
  context := bare
  transfer := {}

theorem intact_caller : caller.context.Intact :=
  intact_alone (Prototype.accepted_of_isOk (by decide +kernel))

/-- What the function travels as. -/
def calledChunk : List UInt8 :=
  ((caller.context.chunkOf (.function ⟨1⟩) true).toOption).getD []

theorem isOk_callIn_caller :
    (callIn Native.standard 9 caller 0 callee).1.toOption.isSome = true := by
  decide +kernel

theorem callIn_cleans_up_caller : caller.id ≠ callee.id ∧
    caller.context.stack.size < UInt64.size ∧
    UInt64.toNat 0 < caller.context.stack.size ∧
    ∃ slot source' dest',
      slot + (UInt64.toNat 0 + 1) = caller.context.stack.size ∧
        callIn Native.standard 9 caller 0 callee = (.ok (), source', dest') ∧
        CleanedUp caller callee slot
          (runIn Native.standard 9 caller.context slot 0 caller.transfer
            callee.context)
          (.ok ()) source' dest' := by
  have hids : caller.id ≠ callee.id := by decide
  have hheight : caller.context.stack.size < UInt64.size := by decide
  have hcount : UInt64.toNat 0 < caller.context.stack.size := by decide
  have hthere :
      writesOnly caller.context caller.transfer calledChunk = true := by
    decide +kernel
  have hback :
      writesOnly (runIn Native.standard 9 caller.context 0 0 caller.transfer
        callee.context).2 caller.transfer calledChunk = true := by
    decide +kernel
  have hslot : functionSlot? caller.context 0 = some 0 := by decide
  obtain ⟨slot, result, source', dest', hsum, hcall, hclean, -⟩ :=
    callIn_cleans_up 9 hids intact_caller intact_bare hheight hcount
      (distinguished_of_eq calledChunk caller.transfer.chunkName) nofun nofun
      (fun _ _ htravels => eq_of_writesOnly hthere htravels)
      fun slot target hfound hrun _ _ htravels => by
        cases hslot.symm.trans hfound
        rw [hrun] at hback
        exact eq_of_writesOnly hback htravels
  have hok := isOk_callIn_caller
  rw [hcall] at hok
  cases result with
  | error error => cases hok
  | ok _ =>
    exact ⟨hids, hheight, hcount, slot, source', dest', hsum, hcall, hclean⟩

end Session

end Isolate
