import Isolate.Proofs.Transfer.Draining
import Isolate.Proofs.Transfer.Fidelity

/-!
# When a transfer succeeds

A transfer always ends.  It succeeds exactly if everything that travels with the
root can live in another context, and then it creates each table and function
once.  If it fails it names a value that cannot.
-/

namespace Isolate

/-- The value that refers to an object. -/
def Object.reference (object : Object) (handle : Handle) : Value :=
  match object with
  | table _ => .table handle
  | closure _ => .function handle
  | userdata _ => .userdata handle
  | cell _ => .nil

namespace Context

variable {source : Context} {settings : TransferSettings}
  {value other root : Value} {handle : Handle}

/-- What can live in another context: plain data, tables, and functions that a
chunk has room for. -/
structure Portable (source : Context) (settings : TransferSettings)
    (value : Value) : Prop where
  not_native : ∀ name, value ≠ .native name
  not_userdata : ∀ handle, value ≠ .userdata handle
  written : ∀ handle, value = .function handle →
    ∃ bytes, source.chunkOf value settings.stripDebug = .ok bytes

/-- A value is refused exactly if it is not portable. -/
theorem portable_iff (hnames : source.Names value) :
    source.Portable settings value ↔
      ∀ error, ¬source.Refuses settings value error := by
  constructor
  · rintro h error (name | found | @⟨found, hlarge⟩)
    · exact h.not_native name rfl
    · exact h.not_userdata found rfl
    · obtain ⟨bytes, hbytes⟩ := h.written found rfl
      cases hlarge.symm.trans hbytes
  · intro h
    refine ⟨?_, ?_, ?_⟩
    · rintro name rfl
      exact h _ (.native name)
    · rintro found rfl
      exact h _ (.userdata found)
    · rintro found rfl
      cases hbytes : source.chunkOf (.function found) settings.stripDebug with
      | ok bytes => exact ⟨bytes, rfl⟩
      | error error => exact absurd (refuses_of_chunkOf hnames hbytes) (h _)

/-- A reference is the one that its object goes by. -/
theorem Names.exists_object (h : source.Names value)
    (hhandle : value.handle? = some handle) :
    ∃ object, source.heap.get? handle = some object ∧
      value = object.reference handle := by
  cases value with
  | table =>
    cases hhandle
    obtain ⟨table, hobject⟩ := h
    exact ⟨_, hobject, rfl⟩
  | function =>
    cases hhandle
    obtain ⟨closure, hobject⟩ := h
    exact ⟨_, hobject, rfl⟩
  | userdata =>
    cases hhandle
    obtain ⟨block, hobject⟩ := h
    exact ⟨_, hobject, rfl⟩
  | _ => cases hhandle

/-- Two references to one object are the same. -/
theorem Names.eq_of_handle (h : source.Names value) (h' : source.Names other)
    (hhandle : value.handle? = some handle)
    (hhandle' : other.handle? = some handle) : value = other := by
  obtain ⟨object, hobject, rfl⟩ := h.exists_object hhandle
  obtain ⟨object', hobject', rfl⟩ := h'.exists_object hhandle'
  cases hobject.symm.trans hobject'
  rfl

end Context

namespace Transfer

variable {source : Context} {settings : TransferSettings} {root : Value}
  {t t' pushed : Transfer} {taken : List Filling}

/-- On the way each table and each function that travels is created and recorded
once, and taken once from the queue. -/
structure Tally (source : Context) (settings : TransferSettings) (root : Value)
    (t : Transfer) (references : List Handle) (t' : Transfer) : Prop where
  nodup : references.Nodup
  travel : ∀ handle, handle ∈ references ↔
    source.Travels root (.table handle) ∨ source.Travels root (.function handle)
  queued : ∃ pushed taken, pushImage source settings root t = .ok () pushed ∧
    Drains source settings pushed taken (.ok () t') ∧
    taken.map Filling.identity = references.map Handle.index
  recorded : (references.map Handle.index).Perm (t'.copies.entries.map Prod.fst)
  copied : t'.copied = references.length

section Delivers

variable (h : Delivers source settings (source.Travels root) root t
  pushed taken t')
  (hempty : t.copies.entries = []) (hidle : t.fillings = [])

include h hempty hidle

/-- What was taken from the queue is what was recorded. -/
theorem Delivers.perm_taken :
    (taken.map Filling.entry).Perm t'.copies.entries := by
  obtain ⟨new, hfillings, hentries⟩ := h.pushes.walked.queue
  have honce := h.drained.once
  rw [hfillings, hentries, hempty, hidle, List.append_nil,
    List.append_nil] at honce
  exact (List.perm_append_left_iff _).1 (List.perm_append_comm.trans honce)

/-- Everything that travels is carried. -/
theorem Delivers.carried (hclosed : source.Closed (source.Travels root))
    {value : Value} (hvalue : source.Travels root value) :
    Carried source settings t' value := by
  have hperm := h.perm_taken hempty hidle
  have hnext : ∀ {parent next handle}, source.Travels root parent →
      Carried source settings t' parent → parent.handle? = some handle →
      source.Leads parent next → Carried source settings t' next := by
    intro parent next handle hparent hcarried hhandle hleads
    obtain ⟨pin, hpin⟩ :=
      Option.isSome_iff_exists.1 (hcarried.contains handle hhandle)
    have hentry : (handle.index, pin) ∈ t'.copies.entries := mem_of_lookup hpin
    obtain ⟨filling, hfilling, heq⟩ := List.mem_map.1 (hperm.mem_iff.2 hentry)
    obtain ⟨hamong, hidentity⟩ := h.drained.sources filling hfilling
    have hindex : filling.identity = handle.index := congrArg Prod.fst heq
    rw [hindex] at hidentity
    have hsource : filling.source = parent :=
      (hclosed.names _ hamong).eq_of_handle (hclosed.names _ hparent)
        hidentity hhandle
    exact h.drained.carried filling hfilling next (hsource ▸ hleads)
  induction hvalue with
  | root => exact h.pushes.carried.mono h.drained.passage.onward
  | key hparent htable hentry ih =>
    exact hnext hparent ih rfl (.key htable hentry)
  | value hparent htable hentry ih =>
    exact hnext hparent ih rfl (.value htable hentry)
  | captured hparent hupvalue hplace ih =>
    exact hnext hparent ih rfl (.captured hupvalue hplace)

theorem Delivers.tally (hclosed : source.Closed (source.Travels root)) :
    Tally source settings root t
      (taken.map fun filling => ⟨filling.identity⟩) t' := by
  have hperm := h.perm_taken hempty hidle
  have hrecorded :
      (taken.map Filling.identity).Perm (t'.copies.entries.map Prod.fst) := by
    have hfst := hperm.map Prod.fst
    rwa [List.map_map] at hfst
  have hindices :
      (taken.map fun filling => (⟨filling.identity⟩ : Handle)).map
        Handle.index =
        taken.map Filling.identity := List.map_map
  have hcarried :
      ∀ value, source.Travels root value → Carried source settings t' value :=
    fun _ => h.carried hempty hidle hclosed
  refine ⟨?_, fun handle => ⟨fun hmem => ?_, fun htravels => ?_⟩,
    ⟨pushed, taken, h.push, h.drains, hindices.symm⟩, hindices ▸ hrecorded, ?_⟩
  · have hnodup := hrecorded.nodup_iff.2 h.passage.traversing.distinct
    rw [← hindices] at hnodup
    exact List.Pairwise.of_map _
      (fun _ _ hne heq => hne (congrArg _ heq)) hnodup
  · obtain ⟨filling, hfilling, rfl⟩ := List.mem_map.1 hmem
    obtain ⟨hamong, hidentity⟩ := h.drained.sources filling hfilling
    generalize filling.source = value at hamong hidentity
    cases value with
    | table =>
      cases hidentity
      exact Or.inl hamong
    | function =>
      cases hidentity
      exact Or.inr hamong
    | userdata found =>
      exact absurd (.userdata found) ((hcarried _ hamong).accepted _)
    | _ => cases hidentity
  · have hcontains : t'.copies.contains handle.index = true := by
      rcases htravels with htravels | htravels
      · exact (hcarried _ htravels).contains handle rfl
      · exact (hcarried _ htravels).contains handle rfl
    obtain ⟨pin, hpin⟩ := Option.isSome_iff_exists.1 hcontains
    have hentry : (handle.index, pin) ∈ t'.copies.entries := mem_of_lookup hpin
    obtain ⟨filling, hfilling, heq⟩ := List.mem_map.1 (hperm.mem_iff.2 hentry)
    exact List.mem_map.2 ⟨filling, hfilling,
      congrArg (fun entry => Handle.mk entry.1) heq⟩
  · rw [h.passage.traversing.counted, Copies.size, ← hperm.length_eq,
      List.length_map, List.length_map]

end Delivers

theorem finish_eq (t : Transfer) : t.finish.1 = t.copies.size := by
  obtain ⟨dest, copies, fillings, copied⟩ := t
  rw [finish]
  dsimp only
  cases copies.release dest <;> rfl

end Transfer

namespace Context

variable {source dest : Context} {settings : TransferSettings} {root : Value}
  {index : Int}

/-- The transfer of a root, before it does anything. -/
def opening (dest : Context) (root : Value) : Transfer :=
  .start (dest.note (.transferStarted root.kindName))

theorem receive_eq (hroot : source.valueAt index = .ok root) :
    source.receive index settings dest =
      match Transfer.copy source settings root (dest.opening root) with
      | .ok () t => .ok () (t.finish.2.note (.transferDone t.copied t.finish.1))
      | .error error t => .error error
          ((t.finish.2.truncateStack dest.stack.size).note
            (.transferFailed error t.finish.1)) := by
  simp only [receive]
  rw [hroot]
  rfl

/-- A walk that has only recorded its root finds its queue empty in the end. -/
theorem exists_drains_settle {t pushed : Transfer}
    (h : Transfer.Traversing source settings (source.Travels root) t)
    (hempty : t.copies.entries = []) (hidle : t.fillings = [])
    (hsource : source.Intact) (hroot : source.Names root)
    (hpush : Transfer.pushImage source settings root t = .ok () pushed) :
    ∃ taken, Transfer.Drains source settings pushed taken
      (Transfer.settle source settings pushed) := by
  have hclosed := hsource.closed_travels hroot
  have hpushes := (h.ends_pushImage hsource hclosed .root).ok hpush
  obtain ⟨new, hfillings, hentries⟩ := hpushes.walked.queue
  refine hpushes.traversing.drains_settle hsource hclosed (Nat.le_of_eq ?_)
  rw [hfillings, hidle, Copies.size, hentries, hempty, List.append_nil,
    List.append_nil, List.length_map]

/-- A transfer that fails has come to a value that is not portable. -/
theorem ends_receive_refused (settings : TransferSettings)
    (hsource : source.Intact) (hdest : dest.Intact)
    (hroot : source.valueAt index = .ok root) :
    Ends (source.receive index settings dest)
      (fun _ _ => True)
      fun error _ => ∃ value,
        source.Travels root value ∧ source.Refuses settings value error := by
  have hclosed := hsource.closed_travels (hsource.names_of_valueAt hroot)
  have hopening : Transfer.Traversing source settings (source.Travels root)
      (dest.opening root) :=
    Transfer.traversing_start (hdest.note _)
  have hcopy := hopening.ends_copy rfl hsource hclosed .root
  rw [receive_eq hroot]
  cases hresult : Transfer.copy source settings root (dest.opening root) with
  | ok _ t => exact trivial
  | error error t =>
    obtain ⟨⟨-, hrefused⟩, -⟩ := hcopy.error hresult
    exact hrefused

/-- A transfer ends, since the loop over its queue does.  It succeeds exactly if
everything that travels is portable, whatever the order of the bindings,
whenever the destination collects and whatever its cache holds.  If it succeeds,
each table and each function that travels was created, recorded and queued once,
and the report says how many they are.  If it fails, the error is that of a
value that travels and is not portable. -/
theorem receive_decided (settings : TransferSettings) (hsource : source.Intact)
    (hdest : dest.Intact) (hroot : source.valueAt index = .ok root) :
    (∀ pushed, Transfer.pushImage source settings root (dest.opening root) =
      .ok () pushed →
      ∃ taken, Transfer.Drains source settings pushed taken
        (Transfer.settle source settings pushed)) ∧
    ((∃ dest', source.receive index settings dest = .ok () dest') ↔
      ∀ value, source.Travels root value → source.Portable settings value) ∧
    (∀ dest', source.receive index settings dest = .ok () dest' →
      ∃ references t,
      Transfer.Tally source settings root (dest.opening root) references t ∧
        dest' =
          t.finish.2.note (.transferDone references.length references.length)) ∧
    ∀ error dest', source.receive index settings dest = .error error dest' →
      (∃ value, source.Travels root value ∧
        source.Refuses settings value error) ∧
      (∀ e, error ≠ .load e) ∧ ∀ e, error ≠ .runtime e := by
  have hnames := hsource.names_of_valueAt hroot
  have hclosed := hsource.closed_travels hnames
  have hopening : Transfer.Traversing source settings (source.Travels root)
      (dest.opening root) :=
    Transfer.traversing_start (hdest.note _)
  have hcopy := hopening.ends_copy rfl hsource hclosed .root
  refine ⟨fun pushed hpush =>
    exists_drains_settle hopening rfl rfl hsource hnames hpush, ?_⟩
  rw [receive_eq hroot]
  cases hresult : Transfer.copy source settings root (dest.opening root) with
  | ok _ t =>
    obtain ⟨pushed, taken, hdelivers⟩ := hcopy.ok hresult
    have htally := hdelivers.tally rfl rfl hclosed
    refine ⟨⟨fun _ value hvalue => ?_, fun _ => ⟨_, rfl⟩⟩, ?_, ?_⟩
    · exact (portable_iff (hclosed.names value hvalue)).2
        (hdelivers.carried rfl rfl hclosed hvalue).accepted
    · rintro dest' ⟨⟩
      refine ⟨_, t, htally, ?_⟩
      have hcopied := htally.copied
      rw [t.finish_eq, ← hdelivers.passage.traversing.counted, hcopied]
    · intro error dest' herror
      cases herror
  | error error t =>
    obtain ⟨⟨hpassage, value, hvalue, hrefused⟩, -⟩ := hcopy.error hresult
    refine ⟨⟨nofun, fun hportable => ?_⟩, nofun, ?_⟩
    · exact absurd hrefused ((portable_iff (hclosed.names value hvalue)).1
        (hportable value hvalue) error)
    · rintro _ _ ⟨⟩
      refine ⟨⟨value, hvalue, hrefused⟩, ?_⟩
      cases hrefused with
      | native => exact ⟨nofun, nofun⟩
      | userdata => exact ⟨nofun, nofun⟩
      | tooLarge => exact ⟨nofun, nofun⟩

theorem intact_knotted : knotted.Intact := by
  refine intact_holding wellFormed_knotted fun closure hclosure => ?_
  simp only [List.mem_cons, List.not_mem_nil, or_false, reduceCtorEq, false_or,
    Object.closure.injEq] at hclosure
  subst hclosure
  exact Prototype.accepted_of_isOk (by decide +kernel)

/-- The table that holds itself and the function that has captured it are two
objects. -/
theorem receive_decided_knotted :
    ∃ dest' references t, knotted.valueAt 1 = .ok (.table ⟨1⟩) ∧
      knotted.receive 1 {} bare = .ok () dest' ∧
      Transfer.Tally knotted {} (.table ⟨1⟩) (bare.opening (.table ⟨1⟩))
        references t ∧
      dest' =
        t.finish.2.note (.transferDone references.length
          references.length) := by
  have hroot : knotted.valueAt 1 = .ok (.table ⟨1⟩) := rfl
  obtain ⟨-, -, hok, -⟩ := receive_decided {} intact_knotted intact_bare hroot
  cases hresult : knotted.receive 1 {} bare with
  | error error dest' =>
    have hisOk := isOk_receive_knotted
    rw [hresult] at hisOk
    cases hisOk
  | ok _ dest' =>
    obtain ⟨references, t, htally, hdest'⟩ := hok dest' hresult
    exact ⟨dest', references, t, hroot, rfl, htally, hdest'⟩

end Context

end Isolate
