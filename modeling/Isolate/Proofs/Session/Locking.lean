import Isolate.Session.Locking
import Mathlib.Logic.Function.Basic
import Mathlib.Logic.Relation

/-!
# Threads that lock sessions

Any number of threads lock sessions one at a time and release them later.  A
thread locks in ascending order, so whoever it waits for waits for a session
further up, if for any.  The sessions come to an end, hence no threads wait for
each other in a circle and at the end of every chain of waiting threads is one
that goes on.
-/

namespace Isolate

/-! ## Orders -/

namespace SessionId

theorem sorted_mergeSort (ids : List SessionId) :
    ids.mergeSort.Pairwise (· ≤ ·) := by
  have hpairwise : ids.mergeSort.Pairwise fun a b => decide (a ≤ b) = true :=
    List.pairwise_mergeSort (by simpa using fun a b c => Nat.le_trans)
      (by simpa using Nat.le_total) ids
  simpa using hpairwise

/-- A sorted list without equal neighbours ascends. -/
theorem ascending_of_sorted {ids : List SessionId}
    (hsorted : ids.Pairwise (· ≤ ·))
    (hneighbours : hasEqualNeighbours ids = false) : ids.Pairwise (· < ·) := by
  induction ids with
  | nil => exact .nil
  | cons a rest ih =>
    obtain ⟨hleast, hrest⟩ := List.pairwise_cons.1 hsorted
    cases rest with
    | nil => exact List.pairwise_singleton _ a
    | cons b rest =>
      rw [hasEqualNeighbours, Bool.or_eq_false_iff,
        decide_eq_false_iff_not] at hneighbours
      have hascending := ih hrest hneighbours.2
      have hab : a < b :=
        Nat.lt_of_le_of_ne (hleast b List.mem_cons_self) hneighbours.1
      refine List.pairwise_cons.2 ⟨fun c hc => ?_, hascending⟩
      rcases List.mem_cons.1 hc with rfl | hc
      · exact hab
      · exact Nat.lt_trans hab ((List.pairwise_cons.1 hascending).1 c hc)

theorem hasEqualNeighbours_of_nodup {ids : List SessionId} (h : ids.Nodup) :
    hasEqualNeighbours ids = false := by
  induction ids with
  | nil => rfl
  | cons a rest ih =>
    cases rest with
    | nil => rfl
    | cons b rest =>
      obtain ⟨hne, hrest⟩ := List.nodup_cons.1 h
      have hdistinct : a ≠ b := fun heq => hne (heq ▸ List.mem_cons_self)
      rw [hasEqualNeighbours, decide_eq_false hdistinct, ih hrest]
      rfl

theorem ascending_mergeSort {ids : List SessionId} (h : ids.Nodup) :
    ids.mergeSort.Pairwise (· < ·) := by
  apply ascending_of_sorted (sorted_mergeSort ids)
  apply hasEqualNeighbours_of_nodup
  exact (List.mergeSort_perm ids _).nodup_iff.2 h

theorem pairOrder?_self (a : SessionId) : pairOrder? a a = none := by
  rw [pairOrder?, if_pos rfl]

/-- Two sessions can be locked. -/
theorem exists_pairOrder? {a b : SessionId} (hids : a ≠ b) :
    ∃ order, pairOrder? a b = some order := by
  rw [pairOrder?, if_neg hids]
  split
  · exact ⟨(a, b), rfl⟩
  · exact ⟨(b, a), rfl⟩

/-- Distinct sessions can be locked. -/
theorem lockOrder?_of_nodup {ids : List SessionId} (h : ids.Nodup) :
    lockOrder? ids = some ids.mergeSort := by
  have hsorted : ids.mergeSort.Nodup :=
    (List.mergeSort_perm ids _).nodup_iff.2 h
  simp only [lockOrder?]
  rw [hasEqualNeighbours_of_nodup hsorted]
  rfl

/-- Sessions are refused just when one of them comes twice. -/
theorem lockOrder?_eq_none_iff {ids : List SessionId} :
    lockOrder? ids = none ↔ ¬ids.Nodup := by
  constructor
  · intro hnone hnodup
    cases hnone.symm.trans (lockOrder?_of_nodup hnodup)
  · intro hrepeated
    simp only [lockOrder?]
    rw [if_pos]
    -- Without equal neighbours the sorted list would ascend.
    cases hneighbours : hasEqualNeighbours ids.mergeSort with
    | true => rfl
    | false =>
      have hascending :=
        ascending_of_sorted (sorted_mergeSort ids) hneighbours
      have hnodup : ids.mergeSort.Nodup := hascending.imp Nat.ne_of_lt
      exact absurd ((List.mergeSort_perm ids _).nodup_iff.1 hnodup) hrepeated

theorem exists_bound (ids : List SessionId) :
    ∃ bound, ∀ id ∈ ids, id ≤ bound := by
  induction ids with
  | nil => exact ⟨0, fun _ hnone => absurd hnone List.not_mem_nil⟩
  | cons first rest ih =>
    obtain ⟨bound, hbound⟩ := ih
    refine ⟨max first bound, fun id hid => ?_⟩
    rcases List.mem_cons.1 hid with rfl | hid
    · exact Nat.le_max_left _ _
    · exact Nat.le_trans (hbound id hid) (Nat.le_max_right _ _)

end SessionId

namespace Locking

variable {α β : Type} {bound : SessionId}

/-- Every session that is locked lies above those that were locked before it,
and above the ones given. -/
def Ascends : List SessionId → Locking α → Prop
  | _, done _ => True
  | held, lock session next =>
    (∀ other ∈ held, other < session) ∧
      (next ⟨session⟩).Ascends (session :: held)

/-- No session that is locked lies above a bound. -/
def Bounded (bound : SessionId) : Locking α → Prop
  | done _ => True
  | lock session next => session ≤ bound ∧ (next ⟨session⟩).Bounded bound

theorem Ascends.map {locking : Locking α} {held : List SessionId}
    (h : locking.Ascends held) (f : α → β) : (locking.map f).Ascends held := by
  induction locking generalizing held with
  | done result => trivial
  | lock session next ih => exact ⟨h.1, ih _ h.2⟩

theorem Bounded.map {locking : Locking α}
    (h : locking.Bounded bound) (f : α → β) :
    (locking.map f).Bounded bound := by
  induction locking with
  | done result => trivial
  | lock session next ih => exact ⟨h.1, ih _ h.2⟩

theorem outcome_map (f : α → β) (locking : Locking α) :
    (locking.map f).outcome = (locking.outcome.1, f locking.outcome.2) := by
  induction locking with
  | done result => rfl
  | lock session next ih => simp only [Locking.map, outcome, ih]

/-! ## The two ways to lock -/

theorem ascends_pair (a b : SessionId) : (pair a b).Ascends [] := by
  rw [pair]
  split
  · trivial
  · next hne =>
    split
    · next hlt => exact ⟨nofun, by simpa using hlt, trivial⟩
    · next hnot =>
      have hlt : b < a :=
        Nat.lt_of_le_of_ne (Nat.le_of_not_lt hnot) (Ne.symm hne)
      exact ⟨nofun, by simpa using hlt, trivial⟩

theorem bounded_pair {a b : SessionId} (ha : a ≤ bound) (hb : b ≤ bound) :
    (pair a b).Bounded bound := by
  rw [pair]
  split
  · trivial
  · split
    · exact ⟨ha, hb, trivial⟩
    · exact ⟨hb, ha, trivial⟩

theorem ascends_each {ids held : List SessionId} (hids : ids.Pairwise (· < ·))
    (hheld : ∀ other ∈ held, ∀ id ∈ ids, other < id) :
    (each ids).Ascends held := by
  induction ids generalizing held with
  | nil => trivial
  | cons id rest ih =>
    obtain ⟨habove, hrest⟩ := List.pairwise_cons.1 hids
    refine ⟨fun other hother => hheld other hother id List.mem_cons_self, ?_⟩
    refine (ih hrest fun other hother next hnext => ?_).map _
    rcases List.mem_cons.1 hother with rfl | hother
    · exact habove next hnext
    · exact hheld other hother next (List.mem_cons_of_mem id hnext)

theorem bounded_each {ids : List SessionId} (hids : ∀ id ∈ ids, id ≤ bound) :
    (each ids).Bounded bound := by
  induction ids with
  | nil => trivial
  | cons id rest ih =>
    refine ⟨hids id List.mem_cons_self, ?_⟩
    exact (ih fun next hnext => hids next (List.mem_cons_of_mem id hnext)).map _

theorem ascends_all (source : SessionId) (workers : List SessionId) :
    (all source workers).Ascends [] := by
  simp only [all]
  split
  · trivial
  · next hneighbours =>
    refine (ascends_each ?_
      fun _ hnone => absurd hnone List.not_mem_nil).map some
    exact SessionId.ascending_of_sorted (SessionId.sorted_mergeSort _)
      (by simpa using hneighbours)

theorem bounded_all {source : SessionId} {workers : List SessionId}
    (hsource : source ≤ bound) (hworkers : ∀ worker ∈ workers, worker ≤ bound) :
    (all source workers).Bounded bound := by
  simp only [all]
  split
  · trivial
  · refine (bounded_each fun id hid => ?_).map some
    rcases List.mem_cons.1 (List.mem_mergeSort.1 hid) with rfl | hid
    · exact hsource
    · exact hworkers id hid

/-- Two guards come back in the order of the arguments, whichever was taken
first. -/
theorem outcome_pair (a b : SessionId) :
    (pair a b).outcome = match SessionId.pairOrder? a b with
      | none => ([], none)
      | some (first, second) => ([first, second], some (⟨a⟩, ⟨b⟩)) := by
  rw [pair, SessionId.pairOrder?]
  split
  · rfl
  · split <;> rfl

theorem outcome_each (ids : List SessionId) :
    (each ids).outcome = (ids, ids.map fun id => (id, ⟨id⟩)) := by
  induction ids with
  | nil => rfl
  | cons id rest ih => simp only [each, outcome, outcome_map, ih, List.map_cons]

theorem outcome_all (source : SessionId) (workers : List SessionId) :
    (all source workers).outcome =
      match SessionId.lockOrder? (source :: workers) with
        | none => ([], none)
        | some order => (order, some (order.map fun id => (id, ⟨id⟩))) := by
  simp only [all, SessionId.lockOrder?]
  split
  · rfl
  · simp only [outcome_map, outcome_each]

/-- One session cannot be locked as two. -/
theorem outcome_pair_self (a : SessionId) :
    (pair a a).outcome = ([], none) := by
  rw [outcome_pair, SessionId.pairOrder?_self]

/-- Of two sessions both are locked, the lower one first. -/
theorem outcome_pair_of_ne {a b : SessionId} (hne : a ≠ b) :
    (pair a b).outcome = ([min a b, max a b], some (⟨a⟩, ⟨b⟩)) := by
  rw [outcome_pair, SessionId.pairOrder?, if_neg hne]
  by_cases hlt : a < b
  · have hle : a ≤ b := Nat.le_of_lt hlt
    rw [if_pos hlt, Nat.min_eq_left hle, Nat.max_eq_right hle]
  · have hle : b ≤ a := Nat.le_of_not_lt hlt
    rw [if_neg hlt, Nat.min_eq_right hle, Nat.max_eq_left hle]

/-- Of distinct sessions all are locked, in ascending order. -/
theorem outcome_all_of_nodup {source : SessionId} {workers : List SessionId}
    (h : (source :: workers).Nodup) :
    ∃ order, order.Perm (source :: workers) ∧ order.Pairwise (· < ·) ∧
      (all source workers).outcome =
        (order, some (order.map fun id => (id, ⟨id⟩))) := by
  refine ⟨(source :: workers).mergeSort, List.mergeSort_perm _ _,
    SessionId.ascending_mergeSort h, ?_⟩
  rw [outcome_all, SessionId.lockOrder?_of_nodup h]

theorem outcome_all_of_repeated {source : SessionId}
    {workers : List SessionId} (h : ¬(source :: workers).Nodup) :
    (all source workers).outcome = ([], none) := by
  rw [outcome_all, SessionId.lockOrder?_eq_none_iff.2 h]

/-! ## Threads -/

/-- An operation that takes guards. -/
inductive Request
  | pair (a b : SessionId)
  | all (source : SessionId) (workers : List SessionId)

namespace Request

def sessions : Request → List SessionId
  | pair a b => [a, b]
  | all source workers => source :: workers

def locking : Request → Locking Unit
  | pair a b => (Locking.pair a b).map fun _ => ()
  | all source workers => (Locking.all source workers).map fun _ => ()

end Request

/-- A thread is outside of any operation, or it has locked some sessions and has
the rest of its locking before it, or it has ended. -/
inductive Thread
  | idle
  | busy (held : List SessionId) (rest : Locking Unit)
  | finished

namespace Thread

def held : Thread → List SessionId
  | busy held _ => held
  | _ => []

/-- The session that a thread is about to lock. -/
def wanted? : Thread → Option SessionId
  | busy _ (.lock session _) => some session
  | _ => none

/-- One step of a thread.  A session is locked when nobody has it.  An
operation releases its guards in any order, and the thread begins another one
when it has none left. -/
inductive Step (sessions : List SessionId) (free : SessionId → Prop) :
    Thread → Thread → Prop
  | begin (request : Request)
      (hsessions : ∀ id ∈ request.sessions, id ∈ sessions) :
    Step sessions free idle (busy [] request.locking)
  | lock {held : List SessionId} {session : SessionId}
      {next : Guard → Locking Unit} (hfree : free session) :
    Step sessions free (busy held (.lock session next))
      (busy (session :: held) (next ⟨session⟩))
  | release {held : List SessionId} {session : SessionId}
      (hheld : session ∈ held) :
    Step sessions free (busy held (.done ()))
      (busy (held.erase session) (.done ()))
  | leave : Step sessions free (busy [] (.done ())) idle
  | finish : Step sessions free idle finished

theorem eq_of_wanted? {thread : Thread} {session : SessionId}
    (h : thread.wanted? = some session) :
    ∃ held next, thread = busy held (.lock session next) := by
  cases thread with
  | idle => cases h
  | finished => cases h
  | busy held rest =>
    cases rest with
    | done => cases h
    | lock wanted next =>
      cases h
      exact ⟨held, next, rfl⟩

theorem Step.ne_finished {sessions : List SessionId} {free : SessionId → Prop}
    {thread thread' : Thread} (h : Step sessions free thread thread') :
    thread ≠ finished := by
  rintro rfl
  cases h

/-- A thread locks in ascending order, below a bound. -/
def Orderly (bound : SessionId) : Thread → Prop
  | busy held rest => rest.Ascends held ∧ rest.Bounded bound
  | _ => True

variable {sessions : List SessionId} {free : SessionId → Prop}
  {thread thread' : Thread} {bound : SessionId}

theorem Orderly.step (h : thread.Orderly bound)
    (hbound : ∀ id ∈ sessions, id ≤ bound)
    (hstep : Step sessions free thread thread') : thread'.Orderly bound := by
  cases hstep with
  | begin request hsessions =>
    cases request with
    | pair a b =>
      have ha := hbound a (hsessions a List.mem_cons_self)
      have hb :=
        hbound b (hsessions b (List.mem_cons_of_mem a List.mem_cons_self))
      exact ⟨(Locking.ascends_pair a b).map _,
        (Locking.bounded_pair ha hb).map _⟩
    | all source workers =>
      have hsource := hbound source (hsessions source List.mem_cons_self)
      have hworkers :
          ∀ worker ∈ workers, worker ≤ bound := fun worker hworker =>
        hbound worker (hsessions worker (List.mem_cons_of_mem source hworker))
      exact ⟨(Locking.ascends_all source workers).map _,
        (Locking.bounded_all hsource hworkers).map _⟩
  | lock => exact ⟨h.1.2, h.2.2⟩
  | release => exact ⟨trivial, trivial⟩
  | leave => trivial
  | finish => trivial

/-- What a thread wants lies above what it has. -/
theorem Orderly.lt_wanted {id session : SessionId} (h : thread.Orderly bound)
    (hheld : id ∈ thread.held) (hwanted : thread.wanted? = some session) :
    id < session := by
  obtain ⟨held, next, rfl⟩ := eq_of_wanted? hwanted
  exact h.1.1 id hheld

/-- A thread that has a guard is about to lock another session or can release
it. -/
theorem Orderly.wanted_or_step {id : SessionId} (h : thread.Orderly bound)
    (hheld : id ∈ thread.held) (sessions : List SessionId)
    (free : SessionId → Prop) :
    (∃ session, thread.wanted? = some session ∧ id < session ∧
      session ≤ bound) ∨
      ∃ thread', Step sessions free thread thread' := by
  cases thread with
  | idle => cases hheld
  | finished => cases hheld
  | busy held rest =>
    cases rest with
    | done => exact Or.inr ⟨_, .release hheld⟩
    | lock session next => exact Or.inl ⟨session, rfl, h.1.1 id hheld, h.2.1⟩

end Thread

/-! ## Interleavings -/

section Threads

variable {Index : Type}

/-- Nobody has a guard on a session. -/
def Free (threads : Index → Thread) (session : SessionId) : Prop :=
  ∀ t, session ∉ (threads t).held

/-- One thread takes a step while the others rest. -/
structure StepOf (sessions : List SessionId) (t : Index)
    (threads threads' : Index → Thread) : Prop where
  own : (threads t).Step sessions (Free threads) (threads' t)
  others : ∀ u, u ≠ t → threads' u = threads u

/-- What threads come to that start outside of any operation, however their
steps are interleaved. -/
inductive Interleaved (sessions : List SessionId) : (Index → Thread) → Prop
  | start : Interleaved sessions fun _ => .idle
  | step {threads threads' : Index → Thread} {t : Index}
      (h : Interleaved sessions threads)
      (hstep : StepOf sessions t threads threads') :
        Interleaved sessions threads'

/-- A thread is about to lock a session that another one, or itself, has
locked. -/
def WaitsFor (threads : Index → Thread) (t u : Index) : Prop :=
  ∃ session, (threads t).wanted? = some session ∧ session ∈ (threads u).held

variable {sessions : List SessionId} {threads threads' : Index → Thread}
  {t u : Index} {bound : SessionId}

theorem Interleaved.orderly (h : Interleaved sessions threads)
    (hbound : ∀ id ∈ sessions, id ≤ bound) (t : Index) :
    (threads t).Orderly bound := by
  induction h with
  | start => trivial
  | @step threads threads' mover _ hstep ih =>
    by_cases ht : t = mover
    · rw [ht]
      exact (ht ▸ ih).step hbound hstep.own
    · rw [hstep.others t ht]
      exact ih

/-- No session is locked twice. -/
structure Exclusive (threads : Index → Thread) : Prop where
  nodup : ∀ t, (threads t).held.Nodup
  apart : ∀ t u session, session ∈ (threads t).held →
    session ∈ (threads u).held → t = u

/-- The guards of a thread after a step are among those before it, but for one
on a session that was free. -/
theorem Thread.Step.held {free : SessionId → Prop} {thread thread' : Thread}
    (h : thread.Step sessions free thread') :
    thread'.held.Sublist thread.held ∨
      ∃ session, free session ∧ thread'.held = session :: thread.held := by
  cases h with
  | begin => exact Or.inl (List.Sublist.refl [])
  | lock hfree => exact Or.inr ⟨_, hfree, rfl⟩
  | release => exact Or.inl List.erase_sublist
  | leave => exact Or.inl (List.Sublist.refl [])
  | finish => exact Or.inl (List.Sublist.refl [])

theorem Exclusive.step (h : Exclusive threads)
    (hstep : StepOf sessions t threads threads') : Exclusive threads' := by
  have hmem : ∀ u session, session ∈ (threads' u).held →
      session ∈ (threads u).held ∨ (u = t ∧ Free threads session) := by
    intro u session hsession
    by_cases hu : u = t
    · subst hu
      rcases hstep.own.held with hsub | ⟨new, hfree, heq⟩
      · exact Or.inl (hsub.subset hsession)
      · rw [heq] at hsession
        rcases List.mem_cons.1 hsession with rfl | hsession
        · exact Or.inr ⟨rfl, hfree⟩
        · exact Or.inl hsession
    · rw [hstep.others u hu] at hsession
      exact Or.inl hsession
  constructor
  · intro u
    by_cases hu : u = t
    · subst hu
      rcases hstep.own.held with hsub | ⟨new, hfree, heq⟩
      · exact hsub.nodup (h.nodup u)
      · rw [heq]
        exact List.nodup_cons.2 ⟨hfree u, h.nodup u⟩
    · rw [hstep.others u hu]
      exact h.nodup u
  · intro u v session hu hv
    rcases hmem u session hu with hu | ⟨rfl, hfree⟩
    · rcases hmem v session hv with hv | ⟨rfl, hfree⟩
      · exact h.apart u v session hu hv
      · exact absurd hu (hfree u)
    · rcases hmem v session hv with hv | ⟨rfl, -⟩
      · exact absurd hv (hfree v)
      · rfl

theorem Interleaved.exclusive (h : Interleaved sessions threads) :
    Exclusive threads := by
  induction h with
  | start => exact ⟨fun _ => .nil, fun _ _ _ hheld => nomatch hheld⟩
  | step _ hstep ih => exact ih.step hstep

/-! ## Waiting -/

/-- A thread waits for sessions below the one that the thread it waits for
wants. -/
theorem WaitsFor.wanted_lt (horderly : ∀ t, (threads t).Orderly bound)
    (h : Relation.TransGen (WaitsFor threads) t u) {session : SessionId}
    (hwanted : (threads u).wanted? = some session) :
    ∃ first, (threads t).wanted? = some first ∧ first < session := by
  induction h generalizing session with
  | single hwaits =>
    obtain ⟨first, hfirst, hmem⟩ := hwaits
    exact ⟨first, hfirst, (horderly _).lt_wanted hmem hwanted⟩
  | tail _ hwaits ih =>
    obtain ⟨middle, hmiddle, hmem⟩ := hwaits
    obtain ⟨first, hfirst, hlt⟩ := ih hmiddle
    exact ⟨first, hfirst,
      Nat.lt_trans hlt ((horderly _).lt_wanted hmem hwanted)⟩

open Classical in
theorem StepOf.update {thread : Thread}
    (h : (threads t).Step sessions (Free threads) thread) :
    StepOf sessions t threads (Function.update threads t thread) where
  own := by
    rw [Function.update_self]
    exact h
  others := fun u hu => Function.update_of_ne hu _ _

/-- A chain of waiting threads ends with one that can take a step. -/
theorem Interleaved.exists_step_of_wanted
    (horderly : ∀ t, (threads t).Orderly bound)
    {session : SessionId} (hwanted : (threads t).wanted? = some session)
    (hle : session ≤ bound) :
    ∃ u, Relation.ReflTransGen (WaitsFor threads) t u ∧
      ∃ threads', StepOf sessions u threads threads' := by
  induction hdistance : bound - session using Nat.strongRecOn
      generalizing t session with
  | ind distance ih =>
    by_cases hfree : Free threads session
    · refine ⟨t, .refl, ?_⟩
      obtain ⟨held, next, hthread⟩ := Thread.eq_of_wanted? hwanted
      have hstep : (threads t).Step sessions (Free threads)
          (.busy (session :: held) (next ⟨session⟩)) := by
        rw [hthread]
        exact .lock hfree
      exact ⟨_, .update hstep⟩
    · obtain ⟨owner, howner⟩ : ∃ owner, session ∈ (threads owner).held := by
        simpa only [Free, not_forall, not_not] using hfree
      have hwaits : WaitsFor threads t owner := ⟨session, hwanted, howner⟩
      rcases (horderly owner).wanted_or_step howner sessions (Free threads) with
        ⟨further, hfurther, hlt, hbelow⟩ | ⟨thread, hstep⟩
      · have hcloser : bound - further < bound - session :=
          Nat.sub_lt_sub_left (Nat.lt_of_lt_of_le hlt hbelow) hlt
        obtain ⟨u, hchain, hsteps⟩ :=
          ih _ (hdistance ▸ hcloser) hfurther hbelow rfl
        exact ⟨u, .head hwaits hchain, hsteps⟩
      · exact ⟨owner, .single hwaits, _, .update hstep⟩

/-- A thread that has not ended can take a step, or waits at last
for one that can. -/
theorem Interleaved.exists_step (horderly : ∀ t, (threads t).Orderly bound)
    (hunfinished : threads t ≠ .finished) :
    ∃ u, Relation.ReflTransGen (WaitsFor threads) t u ∧
      ∃ threads', StepOf sessions u threads threads' := by
  have hsteps : ∀ {thread thread' : Thread}, threads t = thread →
      thread.Step sessions (Free threads) thread' →
      ∃ u, Relation.ReflTransGen (WaitsFor threads) t u ∧
        ∃ threads', StepOf sessions u threads threads' := by
    rintro _ _ rfl hstep
    exact ⟨t, .refl, _, .update hstep⟩
  cases hthread : threads t with
  | idle => exact hsteps hthread .finish
  | finished => exact absurd hthread hunfinished
  | busy held rest =>
    cases rest with
    | done =>
      cases held with
      | nil => exact hsteps hthread .leave
      | cons session held => exact hsteps hthread (.release List.mem_cons_self)
    | lock session next =>
      have horder := horderly t
      rw [hthread] at horder
      exact Interleaved.exists_step_of_wanted horderly
        (hthread ▸ rfl) horder.2.1

/-- However threads are interleaved that lock pairs and lists of sessions, no
session is locked twice and no threads wait for each other in a circle.  A
thread that has not ended can take a step, or waits at last for one that has
not ended and can.  Two sessions are both locked, and their guards come back in
the order of the arguments; distinct sessions are all locked, and each of their
guards comes back with its session; and nothing is locked when a session comes
twice. -/
theorem Interleaved.never_deadlocks (h : Interleaved sessions threads) :
    Exclusive threads ∧
    (∀ t, ¬Relation.TransGen (WaitsFor threads) t t) ∧
    (∀ t, threads t ≠ .finished → ∃ u, threads u ≠ .finished ∧
      Relation.ReflTransGen (WaitsFor threads) t u ∧
      ∃ threads', StepOf sessions u threads threads') ∧
    (∀ a, (Locking.pair a a).outcome = ([], none)) ∧
    (∀ a b, a ≠ b →
      (Locking.pair a b).outcome =
        ([min a b, max a b], some (⟨a⟩, ⟨b⟩))) ∧
    (∀ source workers, (source :: workers).Nodup →
      ∃ order, order.Perm (source :: workers) ∧ order.Pairwise (· < ·) ∧
        (Locking.all source workers).outcome =
          (order, some (order.map fun id => (id, ⟨id⟩)))) ∧
    ∀ source workers, ¬(source :: workers).Nodup →
      (Locking.all source workers).outcome = ([], none) := by
  obtain ⟨bound, hbound⟩ := SessionId.exists_bound sessions
  have horderly := h.orderly hbound
  refine ⟨h.exclusive, ?_, ?_, Locking.outcome_pair_self,
    fun a b => Locking.outcome_pair_of_ne,
    fun source workers => Locking.outcome_all_of_nodup,
    fun source workers => Locking.outcome_all_of_repeated⟩
  · intro t hcycle
    obtain ⟨_, ⟨session, hwanted, -⟩, -⟩ :=
      Relation.TransGen.head'_iff.1 hcycle
    obtain ⟨first, hfirst, hlt⟩ :=
      WaitsFor.wanted_lt horderly hcycle hwanted
    cases hwanted.symm.trans hfirst
    exact Nat.lt_irrefl _ hlt
  · intro t hunfinished
    obtain ⟨u, hchain, threads', hstep⟩ :=
      Interleaved.exists_step horderly hunfinished
    exact ⟨u, hstep.own.ne_finished, hchain, threads', hstep⟩

end Threads

/-! ## Two threads in each other's way -/

def twoThreads (first second : Thread) : Bool → Thread
  | true => first
  | false => second

section TwoThreads

variable {sessions : List SessionId} {first second thread : Thread}

theorem Interleaved.stepFirst
    (h : Interleaved sessions (twoThreads first second))
    (hstep : first.Step sessions (Free (twoThreads first second)) thread) :
    Interleaved sessions (twoThreads thread second) :=
  h.step (t := true)
    ⟨hstep, Bool.forall_bool.2 ⟨fun _ => rfl, fun hne => absurd rfl hne⟩⟩

theorem Interleaved.stepSecond
    (h : Interleaved sessions (twoThreads first second))
    (hstep : second.Step sessions (Free (twoThreads first second)) thread) :
    Interleaved sessions (twoThreads first thread) :=
  h.step (t := false)
    ⟨hstep, Bool.forall_bool.2 ⟨fun hne => absurd rfl hne, fun _ => rfl⟩⟩

end TwoThreads

/-- The first thread asked for 2 and 1 and has locked 1, the second one asked
for 2 and 3 and has locked 2. -/
def contending : Bool → Thread :=
  twoThreads (.busy [1] (.lock 2 fun _ => .done ()))
    (.busy [2] (.lock 3 fun _ => .done ()))

theorem interleaved_contending : Interleaved [1, 2, 3] contending := by
  have hidle : twoThreads .idle .idle = fun _ => .idle :=
    funext (Bool.forall_bool.2 ⟨rfl, rfl⟩)
  have hstart : Interleaved [1, 2, 3] (twoThreads .idle .idle) := hidle ▸ .start
  have hasked := (hstart.stepFirst (.begin (.pair 2 1) (by decide))).stepSecond
    (.begin (.pair 2 3) (by decide))
  have hlocked :=
    hasked.stepFirst (.lock (Bool.forall_bool.2 ⟨by decide, by decide⟩))
  exact hlocked.stepSecond (.lock (Bool.forall_bool.2 ⟨by decide, by decide⟩))

/-- The first thread waits for the second one, which can go on. -/
theorem never_deadlocks_contending : WaitsFor contending true false ∧
    ¬Relation.TransGen (WaitsFor contending) false false ∧
    ∃ u, contending u ≠ .finished ∧
      Relation.ReflTransGen (WaitsFor contending) true u ∧
      ∃ threads', StepOf [1, 2, 3] u contending threads' := by
  obtain ⟨-, hacyclic, hprogress, -⟩ := interleaved_contending.never_deadlocks
  exact ⟨⟨2, rfl, List.mem_cons_self⟩, hacyclic false, hprogress true nofun⟩

end Locking

end Isolate
