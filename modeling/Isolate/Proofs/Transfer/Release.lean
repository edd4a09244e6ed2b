import Isolate.Proofs.Transfer.MergeWalk

/-!
# The end of a transfer

A transfer releases the pins that it took and no others, since it took none that
were in use.  So whether it succeeds or fails, what the host had pinned is
pinned as before.
-/

namespace Isolate

namespace Context

variable {ctx c d : Context}

/-- Contexts with the same globals and frames, and the same values
behind the same pins. -/
structure SamePins (ctx c : Context) : Prop where
  globals : c.globals = ctx.globals
  frames : c.frames = ctx.frames
  pinned : ∀ pin, c.registry.get? pin = ctx.registry.get? pin

theorem SamePins.refl (ctx : Context) :
    ctx.SamePins ctx := ⟨rfl, rfl, fun _ => rfl⟩

theorem SamePins.trans (h : ctx.SamePins c) (h' : c.SamePins d) :
    ctx.SamePins d where
  globals := h'.globals.trans h.globals
  frames := h'.frames.trans h.frames
  pinned := fun pin => (h'.pinned pin).trans (h.pinned pin)

/-- Pins are released, and nothing else changes. -/
structure Released (entries : List (Nat × Pin)) (ctx c : Context) : Prop where
  heap : c.heap = ctx.heap
  stack : c.stack = ctx.stack
  globals : c.globals = ctx.globals
  frames : c.frames = ctx.frames
  cache : c.cache = ctx.cache
  intact : ctx.Intact → c.Intact
  free : ∀ entry ∈ entries, c.registry.get? entry.2 = none
  others : ∀ pin, (∀ entry ∈ entries, entry.2 ≠ pin) →
    c.registry.get? pin = ctx.registry.get? pin

theorem Released.unpin {entries : List (Nat × Pin)} (h : Released entries ctx c)
    (entry : Nat × Pin) :
    Released (entries ++ [entry]) ctx
      { c with registry := c.registry.unpin entry.2 } where
  heap := h.heap
  stack := h.stack
  globals := h.globals
  frames := h.frames
  cache := h.cache
  intact := fun hctx => (h.intact hctx).withoutPin entry.2
  free := by
    intro other hother
    by_cases hpin : other.2 = entry.2
    · rw [hpin]
      exact Registry.get?_unpin_self
    · refine (Registry.get?_unpin_of_ne hpin).trans ?_
      rcases List.mem_append.1 hother with hother | hother
      · exact h.free other hother
      · cases List.mem_singleton.1 hother
        exact absurd rfl hpin
  others := by
    intro pin hpin
    have hne : pin ≠ entry.2 := fun heq =>
      hpin entry (List.mem_append_right _ List.mem_cons_self) heq.symm
    refine (Registry.get?_unpin_of_ne hne).trans
      (h.others pin fun other hother => ?_)
    exact hpin other (List.mem_append_left _ hother)

end Context

theorem Copies.ends_release (copies : Copies) (ctx : Context) :
    Ends (copies.release ctx) (fun _ c => Context.Released copies.entries ctx c)
      fun _ _ => False := by
  let released : List (Nat × Pin) → Context → Prop :=
    fun done c => Context.Released done ctx c
  have hstart : released [] ctx :=
    ⟨rfl, rfl, rfl, rfl, rfl, id, nofun, fun _ _ => rfl⟩
  simp only [release]
  refine ends_forM hstart (fun done entry _ c _ hc => ?_)
    (List.nil_append _).symm
  exact Context.Released.unpin hc entry

namespace Transfer

variable {source : Context} {settings : TransferSettings} {among : Value → Prop}
  {t t' : Transfer}

theorem released_finish (t : Transfer) :
    Context.Released t.copies.entries t.dest t.finish.2 := by
  rw [finish_dest_eq]
  exact (t.copies.ends_release t.dest).stateOf (fun _ _ hc => hc)
    fun _ _ => False.elim

/-- A transfer that began without copies ends with the pins that it found. -/
theorem Onward.samePins_finish (h : Onward t t')
    (hempty : t.copies.entries = []) : t.dest.SamePins t'.finish.2 := by
  have hreleased := t'.released_finish
  refine ⟨hreleased.globals.trans h.globals, hreleased.frames.trans h.frames,
    fun pin => ?_⟩
  by_cases hrecorded : ∃ entry ∈ t'.copies.entries, entry.2 = pin
  · obtain ⟨entry, hentry, rfl⟩ := hrecorded
    rw [hreleased.free entry hentry]
    rcases h.free entry hentry with hbefore | hfree
    · rw [hempty] at hbefore
      cases hbefore
    · exact hfree.symm
  · refine (hreleased.others pin
      fun entry hentry hpin => hrecorded ⟨entry, hentry, hpin⟩).trans ?_
    exact (h.others pin).resolve_right hrecorded

/-- A walk that rests leaves an intact destination with the pins that it
found. -/
theorem Rests.finish (h : Rests source settings among t t')
    (hempty : t.copies.entries = []) :
    t'.finish.2.Intact ∧ t.dest.SamePins t'.finish.2 :=
  ⟨t'.released_finish.intact h.passage.traversing.dest,
    h.passage.onward.samePins_finish hempty⟩

end Transfer

namespace Context

variable {source dest : Context}

theorem SamePins.note {ctx c : Context} (h : ctx.SamePins c) (notice : Notice) :
    ctx.SamePins (c.note notice) :=
  ⟨h.globals, h.frames, h.pinned⟩

theorem SamePins.truncateStack {ctx c : Context} (h : ctx.SamePins c)
    (height : Nat) : ctx.SamePins (c.truncateStack height) :=
  ⟨h.globals, h.frames, h.pinned⟩

/-- What a transfer leaves in the destination, whatever its cache holds. -/
theorem Intact.ends_receive (hsource : source.Intact) (hdest : dest.Intact)
    (index : Int) (settings : TransferSettings) :
    Ends (source.receive index settings dest)
      (fun _ c => c.Intact ∧ dest.SamePins c) fun e c =>
        ¬e.Dangles ∧ c.Intact ∧ dest.SamePins c := by
  simp only [receive]
  cases hroot : source.valueAt index with
  | error error =>
    exact ⟨TransferError.not_dangles_ofRuntime
      (misplaced_of_valueAt hroot).not_dangles, hdest,
      .refl dest⟩
  | ok root =>
    have hclosed := hsource.closed_names
    have hstart : Transfer.Traversing source settings source.Names
        (.start (dest.note (.transferStarted root.kindName))) :=
      Transfer.traversing_start (hdest.note _)
    have hcopy := hstart.ends_copy_rests rfl hsource hclosed
      (hsource.names_of_valueAt hroot)
    have hnoted := (SamePins.refl dest).note (.transferStarted root.kindName)
    dsimp only
    cases hresult : Transfer.copy source settings root
        (.start (dest.note (.transferStarted root.kindName))) with
    | ok _ t =>
      obtain ⟨hintact, hpins⟩ := (hcopy.ok hresult).1.finish rfl
      exact ⟨hintact.note _, (hnoted.trans hpins).note _⟩
    | error error t =>
      obtain ⟨hnamed, hrests⟩ := (hcopy.error hresult).1
      obtain ⟨hintact, hpins⟩ := hrests.finish rfl
      exact ⟨hnamed, (hintact.truncateStack _).note _,
        ((hnoted.trans hpins).truncateStack _).note _⟩

/-- What a merge leaves in the destination, whatever its cache holds. -/
theorem Intact.ends_receiveBindings (hsource : source.Intact)
    (hdest : dest.Intact) (index : Int) (settings : TransferSettings) :
    Ends (source.receiveBindings index settings dest)
      (fun _ c => c.Intact ∧ dest.SamePins c) fun e c =>
        ¬e.Dangles ∧ c.Intact ∧ dest.SamePins c := by
  simp only [receiveBindings]
  cases hhandle : source.tableRefAt index with
  | error error =>
    exact ⟨TransferError.not_dangles_ofRuntime
      (misplaced_of_tableRefAt hhandle).not_dangles, hdest,
      .refl dest⟩
  | ok handle =>
    obtain ⟨table, htable⟩ :=
      hsource.names_of_valueAt (tableRefAt_eq_ok_iff.1 hhandle)
    have hstart : Transfer.Traversing source settings source.Names
        (.start (dest.note (.mergeStarted dest.stack.size))) :=
      Transfer.traversing_start (hdest.note _)
    have hmerge := hstart.ends_mergeTable rfl hsource
      hsource.closed_names htable (fun key value hentry =>
        (hsource.objects _ _ htable key value hentry).2) dest.stack.size
    have hnoted := (SamePins.refl dest).note (.mergeStarted dest.stack.size)
    dsimp only
    cases hresult : Transfer.mergeTable source settings handle dest.stack.size
        (.start (dest.note (.mergeStarted dest.stack.size))) with
    | ok added t =>
      obtain ⟨hintact, hpins⟩ := (hmerge.ok hresult).finish rfl
      exact ⟨hintact.note _, (hnoted.trans hpins).note _⟩
    | error error t =>
      obtain ⟨hnamed, hrests⟩ := hmerge.error hresult
      obtain ⟨hintact, hpins⟩ := hrests.finish rfl
      exact ⟨hnamed, (hintact.truncateStack _).note _,
        ((hnoted.trans hpins).truncateStack _).note _⟩

end Context

end Isolate
