import Isolate.Proofs.Transfer.Filling
import Mathlib.Data.List.Perm.Subperm

/-!
# Draining the queue

The loop over the queue ends because the objects of the source bound the number
of copies.  It takes every copy from the queue once, and once nothing waits
everything that the walk leads to is carried.
-/

namespace Isolate.Transfer

variable {source : Context} {settings : TransferSettings} {among : Value → Prop}
  {t t' : Transfer} {value : Value}

/-! ## The queue -/

/-- The loop over the queue without a bound: what it took, in order, and how it
ended. -/
inductive Drains (source : Context) (settings : TransferSettings) :
    Transfer → List Filling → EStateM.Result TransferError Transfer Unit → Prop
  | idle {t : Transfer} (hidle : t.fillings = []) :
      Drains source settings t [] (.ok () t)
  | fails {t t' : Transfer} {filling : Filling} {rest : List Filling}
      {error : TransferError} (hnext : t.fillings = filling :: rest)
      (hfill : fill source settings filling { t with fillings := rest } =
        .error error t') :
      Drains source settings t [filling] (.error error t')
  | fills {t t' : Transfer} {filling : Filling} {rest taken : List Filling}
      {result : EStateM.Result TransferError Transfer Unit}
      (hnext : t.fillings = filling :: rest)
      (hfill : fill source settings filling { t with fillings := rest } =
        .ok () t') (hrest : Drains source settings t' taken result) :
      Drains source settings t (filling :: taken) result

theorem Traversing.withFillings (h : Traversing source settings among t)
    {fillings : List Filling}
    (hfillings : ∀ filling ∈ fillings, filling ∈ t.fillings) :
    Traversing source settings among { t with fillings } where
  dest := h.dest
  distinct := h.distinct
  counted := h.counted
  recorded := fun identity hcontains =>
    (h.recorded identity hcontains).mono fun _ _ hcopy => hcopy
  pending := by
    intro filling hfilling
    cases h.pending filling (hfillings filling hfilling) with
    | table hsource hpin => exact .table hsource hpin
    | captured hsource hpin => exact .captured hsource hpin

theorem Onward.withFillings (h : Onward t t') (fillings : List Filling) :
    Onward t { t' with fillings } :=
  ⟨h.globals, h.frames, h.pinned, h.others, h.free, h.copies, h.entries⟩

/-- What is taken from the queue. -/
theorem Traversing.passage_take (h : Traversing source settings among t)
    {filling : Filling} {rest : List Filling}
    (hnext : t.fillings = filling :: rest) :
    Passage source settings among t { t with fillings := rest } ∧
      Pending among { t with fillings := rest } filling := by
  have hrest : Traversing source settings among
      { t with fillings := rest } := by
    refine h.withFillings fun other hother => ?_
    rw [hnext]
    exact List.mem_cons_of_mem filling hother
  refine ⟨⟨hrest, (Onward.refl t).withFillings rest, List.prefix_refl _⟩, ?_⟩
  exact (h.pending filling (hnext ▸ List.mem_cons_self)).mono
    ((Onward.refl t).withFillings rest)

/-- The objects of the source bound the number of copies. -/
theorem Traversing.size_copies_le (h : Traversing source settings among t)
    (hclosed : source.Closed among) :
    t.copies.size ≤ source.heap.slots.size := by
  have hslots : ∀ identity, t.copies.contains identity = true →
      identity < source.heap.slots.size := by
    intro identity hcontains
    have hobject : ∃ object, source.heap.get? ⟨identity⟩ = some object := by
      cases h.recorded identity hcontains with
      | table hsource =>
        obtain ⟨table, htable⟩ := hclosed.names _ hsource
        exact ⟨_, htable⟩
      | function hsource =>
        obtain ⟨closure, hclosure⟩ := hclosed.names _ hsource
        exact ⟨_, hclosure⟩
    obtain ⟨object, hobject⟩ := hobject
    obtain ⟨entry, hentry, -⟩ := Heap.objectIn_eq_some_iff.1 hobject
    exact (Array.getElem?_eq_some_iff.1 hentry).1
  have hsubset :
      t.copies.entries.map Prod.fst ⊆ List.range source.heap.slots.size := by
    intro identity hmem
    obtain ⟨entry, hentry, rfl⟩ := List.mem_map.1 hmem
    exact List.mem_range.2 (hslots _ (Copies.contains_of_mem hentry))
  have hlength := (h.distinct.subperm hsubset).length_le
  rwa [List.length_map, List.length_range] at hlength

/-- As many steps as the source has objects without a copy, and one for each
that waits, empty the queue. -/
theorem Traversing.drains_settleWithin (h : Traversing source settings among t)
    (hsource : source.Intact) (hclosed : source.Closed among) {steps : Nat}
    (hbudget :
      t.fillings.length + (source.heap.slots.size - t.copies.size) ≤ steps) :
    ∃ taken, Drains source settings t taken
      (settleWithin source settings (steps + 1) t) := by
  induction steps generalizing t with
  | zero =>
    have hidle : t.fillings = [] := List.length_eq_zero_iff.1 (by omega)
    refine ⟨[], ?_⟩
    rw [settleWithin, bind_of_ok (nextFilling_of_nil hidle)]
    exact .idle hidle
  | succ steps ih =>
    cases hnext : t.fillings with
    | nil =>
      refine ⟨[], ?_⟩
      rw [settleWithin, bind_of_ok (nextFilling_of_nil hnext)]
      exact .idle hnext
    | cons filling rest =>
      rw [settleWithin, bind_of_ok (nextFilling_of_cons hnext)]
      dsimp only
      obtain ⟨htake, hpending⟩ := h.passage_take hnext
      have hends := htake.traversing.ends_fill hsource hclosed hpending
      cases hfill : fill source settings filling
          { t with fillings := rest } with
      | error error t' =>
        refine ⟨[filling], ?_⟩
        rw [bind_of_error hfill]
        exact .fails hnext hfill
      | ok _ t' =>
        obtain ⟨hprogress, -⟩ := hends.ok hfill
        obtain ⟨new, hfillings, hentries⟩ := hprogress.walked.queue
        have hlength : t'.fillings.length = new.length + rest.length := by
          rw [hfillings, List.length_append]
        have hsize : t'.copies.size = new.length + t.copies.size := by
          rw [Copies.size, hentries, List.length_append, List.length_map]
          rfl
        have hle := hprogress.traversing.size_copies_le hclosed
        rw [hnext, List.length_cons] at hbudget
        obtain ⟨taken, hdrains⟩ := ih hprogress.traversing (by omega)
        refine ⟨filling :: taken, ?_⟩
        rw [bind_of_ok hfill]
        exact .fills hnext hfill hdrains

theorem Traversing.drains_settle (h : Traversing source settings among t)
    (hsource : source.Intact) (hclosed : source.Closed among)
    (hqueue : t.fillings.length ≤ t.copies.size) :
    ∃ taken, Drains source settings t taken (settle source settings t) := by
  refine h.drains_settleWithin hsource hclosed ?_
  have hle := h.size_copies_le hclosed
  omega

/-- Everything that was recorded is taken from the queue once, and what its
source leads to is carried. -/
structure Drained (source : Context) (settings : TransferSettings)
    (among : Value → Prop) (t : Transfer) (taken : List Filling)
    (t' : Transfer) : Prop where
  passage : Passage source settings among t t'
  idle : t'.fillings = []
  once : (taken.map Filling.entry ++ t.copies.entries).Perm
    (t.fillings.map Filling.entry ++ t'.copies.entries)
  sources : ∀ filling ∈ taken, among filling.source ∧
    filling.source.handle? = some ⟨filling.identity⟩
  carried : ∀ filling ∈ taken, ∀ value, source.Leads filling.source value →
    Carried source settings t' value

theorem Drains.ends {taken : List Filling}
    {result : EStateM.Result TransferError Transfer Unit}
    (h : Drains source settings t taken result)
    (ht : Traversing source settings among t) (hsource : source.Intact)
    (hclosed : source.Closed among) :
    Ends result (fun _ t' => Drained source settings among t taken t')
      fun e t' => Stops source settings among t e t' := by
  induction h with
  | @idle t hidle =>
    refine ⟨(Progress.refl ht).passage, hidle, ?_, nofun, nofun⟩
    rw [hidle]
  | @fails t t' filling rest error hnext hfill =>
    obtain ⟨htake, hpending⟩ := ht.passage_take hnext
    exact htake.stops
      ((htake.traversing.ends_fill hsource hclosed hpending).error hfill)
  | @fills t t' filling rest taken result hnext hfill _ ih =>
    obtain ⟨htake, hpending⟩ := ht.passage_take hnext
    obtain ⟨hprogress, hcarried⟩ :=
      (htake.traversing.ends_fill hsource hclosed hpending).ok hfill
    have hpassage := htake.trans hprogress.passage
    refine (ih hprogress.traversing).mono (fun _ t'' hdrained => ?_)
      fun e t'' hstops => hpassage.stops hstops
    refine ⟨hpassage.trans hdrained.passage, hdrained.idle, ?_,
      fun other hother => ?_, fun other hother value hleads => ?_⟩
    · obtain ⟨new, hfillings, hentries⟩ := hprogress.walked.queue
      have honce := hdrained.once
      rw [hfillings, hentries] at honce
      rw [hnext]
      rw [List.perm_iff_count] at honce ⊢
      intro entry
      have hcount := honce entry
      simp only [List.map_append, List.map_cons, List.count_append,
        List.cons_append, List.count_cons] at hcount ⊢
      omega
    · rcases List.mem_cons.1 hother with rfl | hother
      · cases hpending with
        | table hsource => exact ⟨hsource, rfl⟩
        | captured hsource => exact ⟨hsource, rfl⟩
      · exact hdrained.sources other hother
    · rcases List.mem_cons.1 hother with rfl | hother
      · exact (hcarried value hleads).mono hdrained.passage.onward
      · exact hdrained.carried other hother value hleads

/-! ## Copies -/

/-- The image of a value is pushed, and then the queue is drained. -/
structure Delivers (source : Context) (settings : TransferSettings)
    (among : Value → Prop) (value : Value) (t pushed : Transfer)
    (taken : List Filling) (t' : Transfer) : Prop where
  push : pushImage source settings value t = .ok () pushed
  pushes : Pushes source settings among value t pushed
  drains : Drains source settings pushed taken (.ok () t')
  drained : Drained source settings among pushed taken t'

/-- A copy either delivers the value or stops at one that cannot be copied, and
leaves the stack as it was. -/
theorem Traversing.ends_copy (h : Traversing source settings among t)
    (hidle : t.fillings = []) (hsource : source.Intact)
    (hclosed : source.Closed among) (hvalue : among value) :
    Ends (copy source settings value t)
      (fun _ t' =>
        ∃ pushed taken, Delivers source settings among value t pushed taken t')
      fun e t' => Stops source settings among t e t' ∧ t'.fillings = [] ∧
        t'.dest.stack = t.dest.stack := by
  have hsteps : Ends ((do
      pushImage source settings value
      settle source settings : Copying Unit) t)
      (fun _ t' =>
        ∃ pushed taken, Delivers source settings among value t pushed taken t')
      fun e t' => Stops source settings among t e t' := by
    have hpush := (Progress.refl h).ends_pushImage hsource hclosed hvalue
    cases hresult : pushImage source settings value t with
    | error e t₁ =>
      rw [bind_of_error hresult]
      exact hpush.error hresult
    | ok _ t₁ =>
      rw [bind_of_ok hresult]
      have hpushes := hpush.ok hresult
      obtain ⟨new, hfillings, hentries⟩ := hpushes.walked.queue
      have hqueue : t₁.fillings.length ≤ t₁.copies.size := by
        rw [hfillings, hidle, Copies.size, hentries, List.append_nil,
          List.length_append, List.length_map]
        exact Nat.le_add_right _ _
      obtain ⟨taken, hdrains⟩ :=
        hpushes.traversing.drains_settle hsource hclosed hqueue
      have hends := hdrains.ends hpushes.traversing hsource hclosed
      cases hsettle : settle source settings t₁ with
      | ok _ t' =>
        rw [hsettle] at hdrains hends
        exact ⟨t₁, taken, hresult, hpushes, hdrains, hends⟩
      | error e t' =>
        rw [hsettle] at hends
        exact hpushes.progress.stops hends
  rw [copy_eq_restoring]
  refine ends_restoring (hsteps.mono (fun _ _ ht' => ht') fun e t' hstops => ?_)
  obtain ⟨hpassage, hrefused⟩ := hstops
  have hstack :
      (t'.dest.truncateStack t.dest.stack.size).stack = t.dest.stack :=
    truncateStack_of_prefix hpassage.stack
  have hsame : t'.dest.SameRoots (t'.dest.truncateStack t.dest.stack.size) :=
    ⟨rfl, rfl, rfl⟩
  have htruncated : Traversing source settings among
      { t' with dest := t'.dest.truncateStack t.dest.stack.size } :=
    hpassage.traversing.withDest
      (hpassage.traversing.dest.truncateStack _) hsame
  have honward :
      Onward t { t' with dest := t'.dest.truncateStack t.dest.stack.size } :=
    hpassage.onward.trans (Walked.withDest hsame).toOnward
  refine ⟨⟨⟨htruncated.withFillings fun _ hnil => (List.not_mem_nil hnil).elim,
    honward.withFillings [], ?_⟩, hrefused⟩, rfl, hstack⟩
  exact ⟨[], (List.append_nil _).trans (congrArg Array.toList hstack.symm)⟩

section Delivers

variable {pushed : Transfer} {taken : List Filling}

theorem Delivers.passage
    (h : Delivers source settings among value t pushed taken t') :
    Passage source settings among t t' :=
  h.pushes.progress.passage.trans h.drained.passage

theorem Delivers.exists_image
    (h : Delivers source settings among value t pushed taken t') :
    ∃ image, (t.dest.stack.push image).toList <+: t'.dest.stack.toList := by
  obtain ⟨image, -, hstack⟩ := h.pushes.image
  exact ⟨image, hstack ▸ h.drained.passage.stack⟩

end Delivers

end Isolate.Transfer
