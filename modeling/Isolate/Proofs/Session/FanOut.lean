import Isolate.Proofs.Session.Locking
import Isolate.Proofs.Session.Remote
import Isolate.Proofs.Transfer.Course
import Isolate.Proofs.Transfer.Siblings

/-!
# Remote calls in many workers

A call in every worker at once amounts to one remote call for each of them.  The
workers run apart from each other, in whatever order.  While the results are
copied back one after another, the source keeps all that it had when the first
was copied, so each result comes back as if it were the only one.
-/

namespace Isolate

namespace Session

/-! ## The order of the runs -/

/-- A worker before or after its run. -/
inductive Job
  | waiting (worker : Session)
  | done (worker : Session) (run : Except SessionError Unit × Context)

namespace Job

/-- Runs a worker that waits. -/
def perform (run : Session → Except SessionError Unit × Context) : Job → Job
  | waiting worker => done worker (run worker)
  | done worker result => done worker result

def result? : Job → Option (Session × Except SessionError Unit × Context)
  | waiting _ => none
  | done worker run => some (worker, run)

variable {run : Session → Except SessionError Unit × Context}

theorem perform_perform (job : Job) :
    (job.perform run).perform run = job.perform run := by
  cases job <;> rfl

/-- The workers run one at a time, in an order given by their places in the
list. -/
def performInOrder (run : Session → Except SessionError Unit × Context)
    (order : List Nat) (jobs : List Job) : List Job :=
  order.foldl (fun jobs number => jobs.modify number (perform run)) jobs

/-- What has become of a worker says only whether it was its turn at some
time. -/
theorem getElem?_performInOrder (order : List Nat) (jobs : List Job) (i : Nat) :
    (performInOrder run order jobs)[i]? =
      if i ∈ order then jobs[i]?.map (perform run) else jobs[i]? := by
  induction order generalizing jobs with
  | nil => rfl
  | cons number rest ih =>
    have hstep : (jobs.modify number (perform run))[i]? =
        if i = number then jobs[i]?.map (perform run) else jobs[i]? := by
      rw [List.getElem?_modify]
      by_cases heq : i = number
      · rw [if_pos heq]
        exact congrArg (· <$> jobs[i]?) (funext fun job => if_pos heq.symm)
      · rw [if_neg heq]
        refine (congrArg (· <$> jobs[i]?)
          (funext fun job => if_neg (Ne.symm heq))).trans ?_
        exact id_map _
    have hrest := ih (jobs.modify number (perform run))
    rw [hstep] at hrest
    refine hrest.trans ?_
    by_cases heq : i = number
    · rw [if_pos heq, if_pos (List.mem_cons.2 (Or.inl heq)), Option.map_map]
      split
      · exact congrArg (jobs[i]?.map ·) (funext perform_perform)
      · rfl
    · rw [if_neg heq]
      simp only [List.mem_cons, heq, false_or]

/-- In any order in which everyone has a turn, everyone has run. -/
theorem performInOrder_eq {order : List Nat} {workers : List Session}
    (horder : order.Perm (List.range workers.length)) :
    performInOrder run order (workers.map waiting) =
      workers.map fun worker => done worker (run worker) := by
  refine List.ext_getElem? fun i => ?_
  rw [getElem?_performInOrder, List.getElem?_map, List.getElem?_map]
  split
  · rw [Option.map_map]
    rfl
  · next hturn =>
    have hnone : workers[i]? = none := by
      refine List.getElem?_eq_none (Nat.le_of_not_lt fun hi => hturn ?_)
      exact horder.mem_iff.2 (List.mem_range.2 hi)
    rw [hnone]
    rfl

theorem results_performInOrder {order : List Nat} {workers : List Session}
    (horder : order.Perm (List.range workers.length)) :
    (performInOrder run order (workers.map waiting)).filterMap result? =
      workers.map fun worker => (worker, run worker) := by
  rw [performInOrder_eq horder, List.filterMap_map, ← List.filterMap_eq_map]
  rfl

end Job

/-- A call in every worker at once, in which the workers run in a given
order. -/
def callInOrder (natives : Natives) (budget : Nat) (source : Session)
    (argumentCount : UInt64) (workers : List Session) (order : List Nat) :
    Except SessionError (List (Except SessionError Unit)) × Session ×
      List Session :=
  match SessionId.lockOrder? (source.id :: workers.map (·.id)) with
  | none => (.error .sameSession, source, workers)
  | some _ =>
    match functionSlot? source.context argumentCount with
    | none => (.error (.runtime .stackUnderflow), source, workers)
    | some slot =>
      let jobs := Job.performInOrder (fun worker =>
        runIn natives budget source.context slot
          argumentCount source.transfer worker.context) order
          (workers.map .waiting)
      let (results, context, workers) := collectResults source.transfer
        (source.context.truncateStack slot) (jobs.filterMap Job.result?)
      (.ok results, { source with context }, workers)

/-- The order in which the workers run does not matter. -/
theorem callInOrder_eq {natives : Natives} {budget : Nat} {source : Session}
    {argumentCount : UInt64} {workers : List Session} {order : List Nat}
    (horder : order.Perm (List.range workers.length)) :
    callInOrder natives budget source argumentCount workers order =
      callInEach natives budget source argumentCount workers := by
  simp only [callInOrder, callInEach]
  cases SessionId.lockOrder? (source.id :: workers.map (·.id)) with
  | none => rfl
  | some _ =>
    cases functionSlot? source.context argumentCount with
    | none => rfl
    | some slot =>
      dsimp only
      rw [Job.results_performInOrder horder]

/-! ## Fetching results -/

open Context

variable {settings : TransferSettings} {chunks : List UInt8 → String → Prop}
  {base c c' worker : Context} {value : Value}

/-- Whether and why a result is not fetched does not depend on what
is in the source. -/
theorem fst_fetchResult (settings : TransferSettings)
    (outcome : Except SessionError Unit) (hworker : worker.Intact)
    (hc : c.Intact) (hbase : base.Intact) :
    (fetchResult settings worker outcome c).1 =
      (fetchResult settings worker outcome base).1 := by
  cases outcome with
  | error error => rfl
  | ok _ =>
    have hresult :
        ∀ source : Context, (fetchResult settings worker (.ok ()) source).1 =
          match failureOf (worker.receive (-1) settings source) with
          | none => .ok ()
          | some error => .error (.transfer error) := by
      intro source
      simp only [fetchResult]
      cases worker.receive (-1) settings source <;> rfl
    rw [hresult, hresult, failureOf_receive_eq settings (-1) hworker hc hbase]

/-- The source after a result has been fetched, or nil in its place. -/
def answered (settings : TransferSettings)
    (run : Except SessionError Unit × Context) (source : Context) : Context :=
  match fetchResult settings run.2 run.1 source with
  | (.ok (), source) => source
  | (.error _, source) => { source with stack := source.stack.push .nil }

theorem collectResults_cons (settings : TransferSettings) (source : Context)
    (worker : Session) (run : Except SessionError Unit × Context)
    (rest : List (Session × Except SessionError Unit × Context)) :
    collectResults settings source ((worker, run) :: rest) =
      let later := collectResults settings (answered settings run source) rest
      ((fetchResult settings run.2 run.1 source).1 :: later.1, later.2.1,
        { worker with
          context := run.2.truncateStack worker.context.stack.size } ::
          later.2.2) := by
  obtain ⟨outcome, context⟩ := run
  rw [collectResults, answered]
  dsimp only
  rcases fetchResult settings context outcome source with ⟨result, source'⟩
  cases result <;> rfl

/-- A value of a source stands for what a call alone leaves: it is isomorphic to
the result that the call pushes on its base, or nil if the call fails. -/
def Answers (base c : Context) (value : Value) :
    Except SessionError Unit × Context → Prop
  | (.ok (), alone) => ∃ result, alone.stack = base.stack.push result ∧
    c.Isomorphic alone value result
  | (.error _, _) => value = .nil

theorem Answers.of_keeps {call : Except SessionError Unit × Context}
    (h : Answers base c value call) (hkeeps : c.Keeps c') :
    Answers base c' value call := by
  obtain ⟨result, alone⟩ := call
  cases result with
  | error error => exact h
  | ok _ =>
    obtain ⟨result, hstack, hisomorphic⟩ := h
    exact ⟨result, hstack, hisomorphic.of_keeps hkeeps⟩

/-- A source that has kept what it had at first. -/
structure Collecting (chunks : List UInt8 → String → Prop)
    (base c : Context) : Prop where
  keeps : base.Keeps c
  intact : c.Intact
  genuine : c.cache.Genuine chunks

/-- A worker whose run is over: it is intact, and what travels back
are known chunks. -/
structure Finished (chunks : List UInt8 → String → Prop)
    (settings : TransferSettings)
    (run : Except SessionError Unit × Context) : Prop where
  intact : run.2.Intact
  travelling : run.1 = .ok () → ∀ bytes name,
    run.2.Travelling settings bytes name → chunks bytes name

section Collecting

variable (hbase : Collecting chunks base base)
  (hchunks : Chunk.Cache.Distinguished chunks)
include hbase hchunks

/-- Fetching one result pushes an answer, whatever has been fetched before. -/
theorem Collecting.answered (h : Collecting chunks base c)
    {run : Except SessionError Unit × Context}
    (hrun : Finished chunks settings run) :
    Collecting chunks base (answered settings run c) ∧
      c.Keeps (answered settings run c) ∧
      ∃ value, (Session.answered settings run c).stack = c.stack.push value ∧
        Answers base (Session.answered settings run c) value
          (fetchResult settings run.2 run.1 base) := by
  have hfetched :=
    fetched_fetchResult h.intact hrun.intact hchunks h.genuine hrun.travelling
  have halone := fetched_fetchResult hbase.intact hrun.intact hchunks
    hbase.genuine hrun.travelling
  have hsame := fst_fetchResult settings run.1 hrun.intact h.intact hbase.intact
  simp only [Session.answered]
  generalize fetchResult settings run.2 run.1 c = fetched at *
  generalize fetchResult settings run.2 run.1 base = alone at *
  obtain ⟨result, c'⟩ := fetched
  obtain ⟨result', d⟩ := alone
  obtain rfl : result = result' := hsame
  cases result with
  | error error =>
    have hstack : c'.stack = c.stack := hfetched.dropped error rfl
    have hkeeps :=
      (hfetched.toUnharmed.keeps (hstack ▸ List.prefix_refl _)).push .nil
    exact ⟨⟨h.keeps.trans hkeeps, hfetched.intact.push trivial,
      hfetched.genuine⟩, hkeeps, .nil,
      congrArg (·.push .nil) hstack, rfl⟩
  | ok _ =>
    obtain ⟨-, value, rename, hvalue, hfaithful⟩ := hfetched.pushed rfl
    obtain ⟨-, value', rename', hvalue', hfaithful'⟩ := halone.pushed rfl
    cases hvalue.symm.trans hvalue'
    have hkeeps :=
      hfetched.toUnharmed.keeps (hfaithful.pushed ▸ toList_prefix_push _ _)
    have hkeeps' :=
      halone.toUnharmed.keeps (hfaithful'.pushed ▸ toList_prefix_push _ _)
    refine ⟨⟨h.keeps.trans hkeeps, hfetched.intact, hfetched.genuine⟩,
      hkeeps, _, hfaithful.pushed, _, hfaithful'.pushed, ?_⟩
    exact Received.isomorphic hrun.intact.toWellFormed
      (hrun.intact.names_of_valueAt hvalue)
      ⟨hfaithful, h.keeps, hkeeps, hfetched.intact.toWellFormed⟩
      ⟨hfaithful', hbase.keeps, hkeeps', halone.intact.toWellFormed⟩
      hbase.intact.toWellFormed

/-- All results are fetched, each as if it were the only one. -/
theorem Collecting.collectResults (h : Collecting chunks base c)
    {runs : List (Session × Except SessionError Unit × Context)}
    (hruns : ∀ run ∈ runs, Finished chunks settings run.2) :
    ∃ values c', collectResults settings c runs =
        (runs.map fun run => (fetchResult settings run.2.2 run.2.1 base).1, c',
          runs.map fun run =>
            { run.1 with
                context := run.2.2.truncateStack run.1.context.stack.size }) ∧
      c.Keeps c' ∧ c'.stack.toList = c.stack.toList ++ values ∧
      List.Forall₂ (fun run value =>
        Answers base c' value (fetchResult settings run.2.2 run.2.1 base))
          runs values := by
  induction runs generalizing c with
  | nil => exact ⟨[], c, rfl, .refl c, (List.append_nil _).symm, .nil⟩
  | cons first rest ih =>
    obtain ⟨worker, run⟩ := first
    obtain ⟨hfirst, hrest⟩ := List.forall_mem_cons.1 hruns
    obtain ⟨hnext, hkeeps, value, hstack, hanswers⟩ :=
      Collecting.answered hbase hchunks h hfirst
    obtain ⟨values, c', hcollected, hkeeps', hstack', hothers⟩ := ih hnext hrest
    -- The results that are fetched later keep this one, so it stays an answer.
    refine ⟨value :: values, c', ?_, hkeeps.trans hkeeps', ?_,
      .cons (hanswers.of_keeps hkeeps') hothers⟩
    · rw [collectResults_cons, hcollected,
        fst_fetchResult settings run.1 hfirst.intact h.intact hbase.intact]
      rfl
    · rw [hstack', hstack, Array.toList_push, List.append_assoc]
      rfl

end Collecting

end Session

namespace Session

open Context

variable {source : Session} {workers : List Session} {natives : Natives}
  {argumentCount : UInt64} {chunks : List UInt8 → String → Prop} {slot : Nat}
  {order : List Nat}

/-- A call in many workers is one remote call for each of them.  In whatever
order the workers run, each ends with the outcome and in the context that the
call of it alone has, and the function and its arguments are replaced by one
value for each worker, in order: what the call alone pushes, but for the slots
it lies in, or nil where it fails. -/
theorem callInEach_eq_callIn (budget : Nat)
    (hids : (source.id :: workers.map (·.id)).Nodup)
    (horder : order.Perm (List.range workers.length))
    (hnatives : natives.Harmless) (hsource : source.context.Intact)
    (hworkers : ∀ worker ∈ workers, worker.context.Intact)
    (hheight : source.context.stack.size < UInt64.size)
    (hcount : argumentCount.toNat < source.context.stack.size)
    (hchunks : Chunk.Cache.Distinguished chunks)
    (hsourceCache : source.context.cache.Genuine chunks)
    (hcaches : ∀ worker ∈ workers, worker.context.cache.Genuine chunks)
    (htravelling : ∀ bytes name,
      source.context.Travelling source.transfer bytes name → chunks bytes name)
    (hback : ∀ worker ∈ workers, ∀ slot target,
      functionSlot? source.context argumentCount = some slot →
      runIn natives budget source.context slot argumentCount source.transfer
        worker.context =
        (.ok (), target) →
      ∀ bytes name, target.Travelling source.transfer bytes name →
      chunks bytes name) :
    ∃ slot values c,
      slot + (argumentCount.toNat + 1) = source.context.stack.size ∧
        callInOrder natives budget source argumentCount workers order =
          callInEach natives budget source argumentCount workers ∧
        callInEach natives budget source argumentCount workers =
          (.ok (workers.map fun worker =>
            (callIn natives budget source argumentCount worker).1),
            { source with context := c },
            workers.map fun worker =>
              (callIn natives budget source argumentCount worker).2.2) ∧
        c.stack.toList = (source.context.stack.shrink slot).toList ++ values ∧
        List.Forall₂ (fun worker value =>
          let call := callIn natives budget source argumentCount worker
          Answers (source.context.truncateStack slot) c value
            (call.1, call.2.1.context))
          workers values := by
  obtain ⟨slot, hslot, hsum⟩ := exists_functionSlot? hheight hcount
  have hbase : Collecting chunks (source.context.truncateStack slot)
      (source.context.truncateStack slot) :=
    ⟨.refl _, hsource.truncateStack slot, hsourceCache⟩
  have hdistinct :
      ∀ worker ∈ workers, source.id ≠ worker.id := fun worker hworker hid =>
    (List.nodup_cons.1 hids).1 (hid ▸ List.mem_map_of_mem hworker)
  have hruns :
      ∀ run ∈ workers.map fun worker =>
        (worker, runIn natives budget source.context slot
          argumentCount source.transfer worker.context),
          Finished chunks source.transfer run.2 := by
    intro run hrun
    obtain ⟨worker, hworker, rfl⟩ := List.mem_map.1 hrun
    exact ⟨intact_runIn hsource (hworkers worker hworker) hchunks
      (hcaches worker hworker) htravelling hnatives budget slot argumentCount,
        fun hok => hback worker hworker slot _ hslot (Prod.ext hok rfl)⟩
  obtain ⟨values, c, hcollected, -, hstack, hanswers⟩ :=
    Collecting.collectResults hbase hchunks hbase hruns
  refine ⟨slot, values, c, hsum, callInOrder_eq horder, ?_, hstack, ?_⟩
  · simp only [callInEach]
    rw [SessionId.lockOrder?_of_nodup hids]
    dsimp only
    rw [hslot]
    dsimp only
    rw [hcollected, List.map_map, List.map_map]
    refine Prod.ext (congrArg Except.ok ?_) (Prod.ext rfl ?_)
    · refine List.map_congr_left fun worker hworker => ?_
      rw [callIn_eq budget (hdistinct worker hworker) hslot]
      rfl
    · refine List.map_congr_left fun worker hworker => ?_
      rw [callIn_eq budget (hdistinct worker hworker) hslot]
      rfl
  · refine ((List.forall₂_and_left _ _).2
      ⟨hdistinct, List.forall₂_map_left_iff.1 hanswers⟩).imp
      fun worker value h => ?_
    dsimp only
    rw [callIn_eq budget h.1 hslot]
    exact h.2

/-- The function on the stack returns a new table. -/
def maker : Session where
  id := 1
  context := holding [.table .empty, .closure ⟨{ code := #[11, 27] }, #[]⟩]
    #[.function ⟨1⟩]
  transfer := {}

/-- A worker that refuses every call of a script function. -/
def refusing : Session where
  id := 3
  context := { bare with settings := { maxCallDepth := 0 } }
  transfer := {}

/-- What the function travels as. -/
def makingChunk : List UInt8 :=
  ((maker.context.chunkOf (.function ⟨1⟩) true).toOption).getD []

theorem intact_maker : maker.context.Intact :=
  intact_alone (Prototype.accepted_of_isOk (by decide +kernel))

theorem intact_refusing : refusing.context.Intact :=
  intact_bare.change rfl rfl intact_bare.registry intact_bare.cached
    intact_bare.stack intact_bare.pinned intact_bare.running

theorem isNone_callIn_refusing :
    (callIn Native.standard 9 maker 0 refusing).1.toOption = none := by
  decide +kernel

/-- A worker that returns and one that fails, called in the other order. -/
theorem callInEach_eq_callIn_maker :
    (maker.id :: [callee, refusing].map (·.id)).Nodup ∧
      [1, 0].Perm (List.range [callee, refusing].length) ∧
      Native.standard.Harmless ∧
      maker.context.stack.size < UInt64.size ∧
      UInt64.toNat 0 < maker.context.stack.size ∧
      (callIn Native.standard 9 maker 0 callee).2.1.context.stack =
        #[.table ⟨2⟩] ∧
      ∃ slot value c, slot + (UInt64.toNat 0 + 1) = maker.context.stack.size ∧
        callInOrder Native.standard 9 maker 0 [callee, refusing] [1, 0] =
          callInEach Native.standard 9 maker 0 [callee, refusing] ∧
        callInEach Native.standard 9 maker 0 [callee, refusing] =
          (.ok [(callIn Native.standard 9 maker 0 callee).1,
              (callIn Native.standard 9 maker 0 refusing).1],
              { maker with context := c },
              [(callIn Native.standard 9 maker 0 callee).2.2,
                (callIn Native.standard 9 maker 0 refusing).2.2]) ∧
        c.stack.toList =
          (maker.context.stack.shrink slot).toList ++ [value, .nil] ∧
        Answers (maker.context.truncateStack slot) c value
          ((callIn Native.standard 9 maker 0 callee).1,
            (callIn Native.standard 9 maker 0 callee).2.1.context) := by
  have hids : (maker.id :: [callee, refusing].map (·.id)).Nodup := by decide
  have horder : [1, 0].Perm (List.range [callee, refusing].length) := by decide
  have hheight : maker.context.stack.size < UInt64.size := by decide
  have hcount : UInt64.toNat 0 < maker.context.stack.size := by decide
  have hslot : functionSlot? maker.context 0 = some 0 := by decide
  have hmade : (callIn Native.standard 9 maker 0 callee).2.1.context.stack =
      #[.table ⟨2⟩] := by decide +kernel
  have hthere : writesOnly maker.context maker.transfer makingChunk = true := by
    decide +kernel
  have hback :
      [callee, refusing].all (fun worker => writesOnly (runIn Native.standard 9
        maker.context 0 0 maker.transfer worker.context).2 maker.transfer
          makingChunk) = true := by
    decide +kernel
  have hworkers : ∀ worker ∈ [callee, refusing], worker.context.Intact ∧
      worker.context.cache.Genuine fun bytes name =>
        bytes = makingChunk ∧ name = maker.transfer.chunkName := by
    intro worker hworker
    simp only [List.mem_cons, List.not_mem_nil, or_false] at hworker
    rcases hworker with rfl | rfl
    · exact ⟨intact_bare, nofun⟩
    · exact ⟨intact_refusing, nofun⟩
  obtain ⟨slot, values, c, hsum, horders, hcall, hstack, hanswers⟩ :=
    callInEach_eq_callIn 9 hids horder Native.quiet_standard.harmless
      intact_maker (fun worker hworker => (hworkers worker hworker).1)
      hheight hcount (distinguished_of_eq makingChunk
        maker.transfer.chunkName) nofun
      (fun worker hworker => (hworkers worker hworker).2)
      (fun _ _ htravels => eq_of_writesOnly hthere htravels)
      fun worker hworker slot target hfound hrun _ _ htravels => by
        cases hslot.symm.trans hfound
        have honly := List.all_eq_true.1 hback worker hworker
        rw [hrun] at honly
        exact eq_of_writesOnly honly htravels
  obtain ⟨value, _, hvalue, hothers, rfl⟩ :=
    List.forall₂_cons_left_iff.1 hanswers
  obtain ⟨other, _, hother, hnone, rfl⟩ := List.forall₂_cons_left_iff.1 hothers
  cases hnone
  have hnil : other = .nil := by
    have hfails := isNone_callIn_refusing
    dsimp only at hother
    cases hresult : (callIn Native.standard 9 maker 0 refusing).1 with
    | ok _ =>
      rw [hresult] at hfails
      cases hfails
    | error error =>
      rw [hresult] at hother
      exact hother
  rw [hnil] at hstack
  exact ⟨hids, horder, Native.quiet_standard.harmless, hheight, hcount, hmade,
    slot, value, c, hsum, horders, hcall, hstack, hvalue⟩

end Session

end Isolate
