import Isolate.Proofs.Transfer.Merging

/-!
# Requests to one transfer

A transfer serves copies and merges one after the other, and goes on after those
that fail.  What a failed request recorded stays recorded, filled or not, so a
later copy that comes to it is complete only if it happens to be filled.
-/

namespace Isolate.Transfer

/-- A request to a transfer. -/
inductive Request
  | copy (value : Value)
  | copyAt (index : Int)
  | merge (table : Handle) (index : Int)

namespace Request

def run (source : Context) (settings : TransferSettings) :
    Request → Copying Unit
  | copy value => Transfer.copy source settings value
  | copyAt index => Transfer.copyAt source settings index
  | merge table index => do
    let _ ← mergeTable source settings table index

/-- The value that a request copies. -/
def root? (source : Context) : Request → Option Value
  | copy value => some value
  | copyAt index => (source.valueAt index).toOption
  | merge _ _ => none

/-- A value to copy is one of the source. -/
def Proper (source : Context) : Request → Prop
  | copy value => source.Names value
  | _ => True

/-- What a request leaves behind, whether it succeeds or fails. -/
def leave (source : Context) (settings : TransferSettings) (request : Request)
    (t : Transfer) : Transfer :=
  match request.run source settings t with
  | .ok _ t | .error _ t => t

def Fails (source : Context) (settings : TransferSettings) (request : Request)
    (t : Transfer) : Prop :=
  (failureOf (request.run source settings t)).isSome = true

end Request

/-- What a list of requests leaves behind. -/
def serve (source : Context) (settings : TransferSettings)
    (requests : List Request) (t : Transfer) : Transfer :=
  requests.foldl (fun t request => request.leave source settings t) t

/-- The copy of an identity was first recorded by a request that failed. -/
def Abandoned (source : Context) (settings : TransferSettings) :
    List Request → Transfer → Nat → Prop
  | [], _, _ => False
  | request :: rest, t, identity =>
    request.Fails source settings t ∧ ¬t.copies.contains identity = true ∧
        (request.leave source settings t).copies.contains identity = true ∨
      Abandoned source settings rest (request.leave source settings t) identity

variable {source : Context} {settings : TransferSettings} {t : Transfer}

theorem Request.Proper.names {request : Request} (h : request.Proper source)
    (hsource : source.WellFormed) {value : Value}
    (hvalue : request.root? source = some value) : source.Names value := by
  cases request with
  | copy found =>
    cases hvalue
    exact h
  | copyAt index =>
    simp only [Request.root?] at hvalue
    cases hfound : source.valueAt index with
    | error error =>
      rw [hfound] at hvalue
      cases hvalue
    | ok found =>
      rw [hfound] at hvalue
      cases hvalue
      exact hsource.names_of_valueAt hfound
  | merge => cases hvalue

/-- What one request does, whether it succeeds or fails. -/
theorem Ready.ends_run (h : Ready source settings t)
    (hsource : source.WellFormed)
    (hchunks : Chunk.Cache.Distinguished (source.Travelling settings))
    {request : Request} (hproper : request.Proper source) :
    Ends (request.run source settings t)
      (fun _ t' =>
        Advanced source settings t t' ∧ Completes source settings t t' ∧
          ∀ value, request.root? source = some value →
            Grown source settings t t' ∧
              ∃ image,
                t'.Image value image ∧ t'.dest.stack = t.dest.stack.push image)
      fun _ t' => Advanced source settings t t' := by
  have hcopy : ∀ {value}, source.Names value →
      Ends (copy source settings value t)
        (fun _ t' =>
          Advanced source settings t t' ∧ Completes source settings t t' ∧
            ∀ found, some value = some found → Grown source settings t t' ∧
              ∃ image,
                t'.Image found image ∧ t'.dest.stack = t.dest.stack.push image)
        fun _ t' => Advanced source settings t t' := by
    intro value hvalue
    refine (h.ends_copy hsource hchunks hvalue).mono
      (fun _ t' ⟨hadvanced, hcompletes, hgrown, himage⟩ =>
        ⟨hadvanced, hcompletes, ?_⟩)
      fun _ _ ⟨hadvanced, _⟩ => hadvanced
    rintro _ ⟨⟩
    exact ⟨hgrown, himage⟩
  cases request with
  | copy value => exact hcopy hproper
  | copyAt index =>
    simp only [Request.run, Request.root?, copyAt]
    cases hvalue : source.valueAt index with
    | error error => exact .refl h
    | ok value => exact hcopy (hsource.names_of_valueAt hvalue)
  | merge handle index =>
    refine (h.ends_mergeTable hsource hchunks handle index).bind
      (fun _ t' ⟨hcompletes, hadvanced, _⟩ => ?_) |>.mono (fun _ _ hok => hok)
        fun _ _ ⟨hadvanced, _⟩ => hadvanced
    exact ⟨hadvanced, hcompletes, nofun⟩

theorem Ready.leave (h : Ready source settings t) (hsource : source.WellFormed)
    (hchunks : Chunk.Cache.Distinguished (source.Travelling settings))
    {request : Request} (hproper : request.Proper source) :
    Advanced source settings t (request.leave source settings t) ∧
      ∀ identity, ¬t.copies.contains identity = true →
        (request.leave source settings t).copies.contains identity = true →
          Complete source settings (request.leave source settings t) identity ∨
            request.Fails source settings t := by
  have hrun := h.ends_run hsource hchunks hproper
  simp only [Request.leave, Request.Fails]
  cases hresult : request.run source settings t with
  | ok _ t' =>
    obtain ⟨hadvanced, hcompletes, -⟩ := hrun.ok hresult
    exact ⟨hadvanced, fun identity hnot hcontains =>
      Or.inl (hcompletes identity hnot hcontains)⟩
  | error error t' => exact ⟨hrun.error hresult, fun _ _ _ => Or.inr rfl⟩

/-- What a failed request recorded first is all that may be left unfilled. -/
theorem Ready.serve (h : Ready source settings t) (hsource : source.WellFormed)
    (hchunks : Chunk.Cache.Distinguished (source.Travelling settings))
    {requests : List Request}
    (hproper : ∀ request ∈ requests, request.Proper source) :
    Advanced source settings t (t.serve source settings requests) ∧
      ∀ identity, ¬t.copies.contains identity = true →
        (t.serve source settings requests).copies.contains identity = true →
          Complete source settings (t.serve source settings requests) identity ∨
            Abandoned source settings requests t identity := by
  induction requests generalizing t with
  | nil => exact ⟨.refl h, fun _ hnot hcontains => absurd hcontains hnot⟩
  | cons request rest ih =>
    obtain ⟨hadvanced, hfirst⟩ :=
      h.leave hsource hchunks (hproper request List.mem_cons_self)
    have hrest := fun other hother =>
      hproper other (List.mem_cons_of_mem request hother)
    obtain ⟨hadvanced', hlater⟩ := ih hadvanced.ready hrest
    refine ⟨hadvanced.trans hadvanced', fun identity hnot hcontains => ?_⟩
    by_cases hbetween :
      (request.leave source settings t).copies.contains identity = true
    · rcases hfirst identity hnot hbetween with hcomplete | hfails
      · exact Or.inl (hadvanced'.complete identity hcomplete)
      · exact Or.inr (Or.inl ⟨hfails, hnot, hbetween⟩)
    · exact (hlater identity hbetween hcontains).imp_right Or.inr

/-- What a failed request recorded stays recorded. -/
theorem Ready.contains_of_abandoned (h : Ready source settings t)
    (hsource : source.WellFormed)
    (hchunks : Chunk.Cache.Distinguished (source.Travelling settings))
    {requests : List Request}
    (hproper : ∀ request ∈ requests, request.Proper source) {identity : Nat}
    (habandoned : Abandoned source settings requests t identity) :
    (t.serve source settings requests).copies.contains identity = true := by
  induction requests generalizing t with
  | nil => exact habandoned.elim
  | cons request rest ih =>
    obtain ⟨hadvanced, -⟩ :=
      h.leave hsource hchunks (hproper request List.mem_cons_self)
    have hrest := fun other hother =>
      hproper other (List.mem_cons_of_mem request hother)
    rcases habandoned with ⟨-, -, hcontains⟩ | hlater
    · obtain ⟨hserved, -⟩ := hadvanced.ready.serve hsource hchunks hrest
      exact hserved.contains hadvanced.ready hcontains
    · exact ih hadvanced.ready hrest hlater

/-- A copy that succeeds pushes the image of its value, and what was copied
before is resolved to the same object.  The copy is complete exactly if
whatever it comes to that a failed request recorded first was complete already
when it was asked for. -/
theorem complete_iff_of_run {dest : Context} {requests : List Request}
    {request : Request} {value : Value} {t' : Transfer}
    (hsource : source.WellFormed) (hdest : dest.WellFormed)
    {chunks : List UInt8 → String → Prop}
    (hchunks : Chunk.Cache.Distinguished chunks)
    (hcache : dest.cache.Genuine chunks)
    (htravelling : ∀ bytes name, source.Travelling settings bytes name →
      chunks bytes name) (hproper : ∀ request ∈ requests, request.Proper source)
    (hrequest : request.Proper source)
    (hvalue : request.root? source = some value)
    (h : request.run source settings
      ((start dest).serve source settings requests) = .ok () t') :
    (∃ image, t'.Image value image ∧
      t'.dest.stack =
        ((start dest).serve source settings requests).dest.stack.push image) ∧
    (∀ identity copy,
      ((start dest).serve source settings requests).copyOf? identity =
        some copy →
        t'.copyOf? identity = some copy) ∧
    ((∀ found handle, source.Travels value found → found.handle? = some handle →
        Complete source settings t' handle.index) ↔
      ∀ found handle, source.Travels value found → found.handle? = some handle →
        Abandoned source settings requests (start dest) handle.index →
          Complete source settings ((start dest).serve source settings requests)
            handle.index) := by
  have hready : Ready source settings (start dest) :=
    ⟨sound_start hdest (hcache.trusted hchunks htravelling), rfl⟩
  have hdistinguished := hchunks.mono htravelling
  obtain ⟨hserved, hleft⟩ := hready.serve hsource hdistinguished hproper
  have hrun := (hserved.ready.ends_run hsource hdistinguished hrequest).ok h
  obtain ⟨hadvanced, hcompletes, hcopied⟩ := hrun
  obtain ⟨hgrown, image, hroot, hstack⟩ := hcopied value hvalue
  refine ⟨⟨image, hroot, hstack⟩, hadvanced.copies,
    fun hall found handle htravels hhandle habandoned => ?_, fun hfilled => ?_⟩
  · exact hgrown.complete_before hserved.ready.sound
      (hready.contains_of_abandoned hsource hdistinguished hproper habandoned)
      (hall found handle htravels hhandle)
  · have hall : ∀ found, source.Travels value found → ∀ handle,
        found.handle? = some handle →
        t'.copies.contains handle.index = true →
        Complete source settings t' handle.index := by
      intro found htravels handle hhandle hcontains
      by_cases hbefore :
          ((start dest).serve source settings requests).copies.contains
            handle.index = true
      · refine hadvanced.complete _ ?_
        rcases hleft handle.index nofun hbefore with hcomplete | habandoned
        · exact hcomplete
        · exact hfilled found handle htravels hhandle habandoned
      · exact hcompletes _ hbefore hcontains
    intro found handle htravels hhandle
    obtain ⟨image, himage⟩ :=
      image_of_travels hsource (hrequest.names hsource hvalue) hall
        ⟨image, hroot⟩ htravels
    exact hall found htravels handle hhandle (himage.contains hhandle)

/-! ## An unfilled copy -/

/-- The first two tables of this source can be copied; the third has the second
for a key and a native function for its value. -/
def partly : Context :=
  .holding [.table .empty, .table (Table.empty.set (.string "x") (.integer 1)),
    .table (Table.empty.set (.table ⟨1⟩) (.native "type"))]
    #[.table ⟨1⟩, .table ⟨2⟩]

theorem wellFormed_partly : partly.WellFormed := by
  refine Context.wellFormed_holding (fun object hobject => ?_)
    (fun value hvalue => ?_) ⟨_, rfl⟩
  · simp only [List.mem_cons, List.not_mem_nil, or_false] at hobject
    rcases hobject with rfl | rfl | rfl
    · exact Context.holds_empty
    · intro key value hentry
      cases List.mem_singleton.1 hentry
      exact ⟨rfl, trivial, trivial⟩
    · intro key value hentry
      cases List.mem_singleton.1 hentry
      exact ⟨rfl, ⟨_, rfl⟩, trivial⟩
  · simp only [List.mem_cons, List.not_mem_nil, or_false] at hvalue
    rcases hvalue with rfl | rfl
    · exact ⟨_, rfl⟩
    · exact ⟨_, rfl⟩

theorem distinguished_partly :
    Chunk.Cache.Distinguished (partly.Travelling {}) := by
  rintro bytes name bytes' name' ⟨rfl, function, hbytes⟩ -
  obtain ⟨⟨index⟩, closure, rfl, hclosure, -⟩ :=
    Context.exists_closure_of_chunkOf hbytes
  rw [partly, Context.get?_holding] at hclosure
  rcases index with - | - | - | index
  · cases hclosure
  · cases hclosure
  · cases hclosure
  · cases hclosure

/-- Whether the copy of an identity is a table without bindings. -/
def isBlank (t : Transfer) (identity : Nat) : Bool :=
  match t.copyOf? identity with
  | some (.table copy) =>
    match t.dest.heap.get? copy with
    | some (.table copied) => copied.isEmpty
    | _ => false
  | _ => false

theorem isBlank_copy_partly : (match Request.run partly {} (.copyAt 1)
      ((start .bare).serve partly {} [.copy (.table ⟨2⟩)]) with
    | .ok _ t => t.isBlank 1
    | .error _ _ => false) = true := by
  decide +kernel

/-- After a copy that fails on a binding of the third table, the second is
copied without an error and without its binding. -/
theorem not_complete_copy_partly : ∃ t',
    Request.run partly {} (.copyAt 1)
      ((start .bare).serve partly {} [.copy (.table ⟨2⟩)]) =
      .ok () t' ∧
    partly.valueAt 1 = .ok (.table ⟨1⟩) ∧ ¬Complete partly {} t' 1 := by
  have hblank := isBlank_copy_partly
  cases hresult : Request.run partly {} (.copyAt 1)
      ((start .bare).serve partly {} [.copy (.table ⟨2⟩)]) with
  | error error t' =>
    rw [hresult] at hblank
    cases hblank
  | ok _ t' =>
    rw [hresult] at hblank
    refine ⟨t', rfl, rfl, fun hcomplete => ?_⟩
    obtain ⟨copy, copied, hcopy, hobject, hincludes⟩ :=
      Twin.of_table hcomplete rfl
    obtain ⟨key', value', hentry, -⟩ := hincludes _ _ List.mem_cons_self
    simp only [isBlank] at hblank
    rw [hcopy] at hblank
    dsimp only at hblank
    rw [hobject] at hblank
    rw [List.isEmpty_iff.1 hblank] at hentry
    cases hentry

theorem isNone_failureOf_partly : (failureOf (Request.run partly {} (.copyAt 1)
    ((start .bare).serve partly {} [.copy (.native "type")]))).isNone =
    true := by
  decide +kernel

/-- After a request that fails and records nothing, the second table is copied
with its binding. -/
theorem complete_copy_partly : ∃ t',
    Request.run partly {} (.copyAt 1)
      ((start .bare).serve partly {} [.copy (.native "type")]) =
      .ok () t' ∧
    ∀ found handle, partly.Travels (.table ⟨1⟩) found →
      found.handle? = some handle → Complete partly {} t' handle.index := by
  cases hresult : Request.run partly {} (.copyAt 1)
      ((start .bare).serve partly {} [.copy (.native "type")]) with
  | error error t' =>
    have hnone := isNone_failureOf_partly
    rw [hresult] at hnone
    cases hnone
  | ok _ t' =>
    have hproper :
        ∀ request ∈ [Request.copy (.native "type")], request.Proper partly := by
      intro request hrequest
      cases List.mem_singleton.1 hrequest
      trivial
    have hrequest : (Request.copyAt 1).Proper partly := trivial
    obtain ⟨-, -, hiff⟩ := complete_iff_of_run wellFormed_partly
      Context.wellFormed_bare distinguished_partly nofun (fun _ _ h => h)
      hproper hrequest rfl hresult
    refine ⟨t', rfl, hiff.2 fun found handle _ _ habandoned => ?_⟩
    rcases habandoned with ⟨_, _, hcontains⟩ | hnone
    · exact absurd hcontains nofun
    · exact hnone.elim

end Isolate.Transfer
