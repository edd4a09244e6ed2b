import Isolate.Proofs.Context.Chunks
import Isolate.Proofs.Context.Elements
import Isolate.Proofs.Transfer.Delivery

/-!
# The course of a transfer

Which values of the source a transfer comes to, in which order, and which of
them stops it does not depend on the destination.  The course of a transfer is
its walk without the destination: it knows what has been created and what waits
to be filled.
-/

namespace Isolate

/-- The errors that come from a destination and not from a value of the
source. -/
def TransferError.Foreign : TransferError → Prop
  | load _ | runtime _ => True
  | _ => False

theorem TransferError.foreign_ofRuntime {e : RuntimeError} (h : ¬e.Dumps) :
    (ofRuntime e).Foreign := by
  cases e with
  | dump error => exact (h trivial).elim
  | _ => exact trivial

namespace Context

variable {α : Type}

/-- An action that does not fail to write a function. -/
def Undumped (action : Action α) : Prop :=
  ∀ ctx, Ends (action ctx) (fun _ _ => True) fun e _ => ¬e.Dumps

theorem elements_undumped : Elements fun _ => Undumped where
  pure := fun _ _ => trivial
  throw := fun _ he _ => he
  look := fun _ hf ctx => hf ctx ctx
  query := fun _ _ hf ctx => ends_query.2 ⟨fun _ _ => trivial, hf ctx⟩
  bind := fun hx hf ctx => (hx ctx).bind fun a c _ => hf a c
  push := fun _ _ => trivial
  popTop := by
    intro ctx
    simp only [popTop]
    cases ctx.stack.back? with
    | none => exact id
    | some value => exact trivial
  pop := by
    intro count ctx
    simp only [pop]
    split
    · exact trivial
    · exact id
  allocate := fun _ _ => trivial
  change := fun _ _ _ => trivial
  collectIfDue := by
    intro ctx
    simp only [collectIfDue]
    rw [ends_bind, ends_get]
    split <;> exact trivial

theorem undumped_pin (index : Int) : Undumped (pin index) :=
  elements_undumped.pin (fun _ _ => trivial) index

theorem undumped_loadChunk (bytes : List UInt8) (name : String) :
    Undumped (loadChunk bytes name) := fun _ =>
  ends_loadChunk_of (fun _ => True) (fun _ => True)
    trivial trivial (fun _ _ => trivial) (fun _ _ => trivial)
    (fun _ _ _ _ => trivial) (fun _ _ _ _ _ => id) fun proto c _ _ _ =>
      elements_undumped.pushMain proto c

end Context

/-! ## The walk without a destination -/

/-- What waits to be filled, without its copy. -/
inductive Stage
  | bindings (handle : Handle)
  | captures (function : Value)

def Filling.stage : Filling → Stage
  | .table source _ => .bindings source
  | .captured source _ => .captures source

/-- The values that are copied for upvalues, counted on from a number. -/
def Context.copiedFrom (source : Context) :
    Nat → List (String × Value) → List Value
  | _, [] => []
  | number, (name, value) :: rest =>
    if number = 1 && source.bindsGlobals name value then
      source.copiedFrom (number + 1) rest
    else value :: source.copiedFrom (number + 1) rest

/-- The values that a transfer comes to while it fills a copy. -/
def Stage.values (source : Context) : Stage → Except TransferError (List Value)
  | .bindings handle =>
    match source.tableOf handle with
    | .error error => .error (.ofRuntime error)
    | .ok table =>
      .ok (table.entries.flatMap fun entry => [entry.1.toValue, entry.2])
  | .captures function => .ok (source.copiedFrom 1 (source.upvalues function))

structure Course where
  /-- The identities that have a copy. -/
  created : List Nat := []
  /-- What has to be filled, the latest in front. -/
  waiting : List Stage := []

namespace Course

def create (course : Course) (identity : Nat) (stage : Stage) : Course :=
  ⟨identity :: course.created, stage :: course.waiting⟩

variable (source : Context) (settings : TransferSettings)

/-- Comes to a value, which is created unless it has a copy. -/
def visit (value : Value) (course : Course) : Except TransferError Course :=
  match value with
  | .table handle =>
    if handle.index ∈ course.created then .ok course
    else .ok (course.create handle.index (.bindings handle))
  | .function handle =>
    if handle.index ∈ course.created then .ok course
    else
      match source.chunkOf value settings.stripDebug with
      | .error error => .error (.dump error)
      | .ok _ => .ok (course.create handle.index (.captures value))
  | .native name => .error (.dump (.nativeFunction name))
  | .userdata _ => .error (.unsupported value.kindName)
  | _ => .ok course

def visitAll : List Value → Course → Except TransferError Course
  | [], course => .ok course
  | value :: rest, course => do
    let course ← visit source settings value course
    visitAll rest course

/-- Comes to everything that a copy is filled with. -/
def fill (stage : Stage) (course : Course) : Except TransferError Course := do
  let values ← stage.values source
  visitAll source settings values course

/-- Fills what waits, at most so many copies. -/
def fillWithin : Nat → Course → Except TransferError Course
  | 0, course => .ok course
  | steps + 1, course =>
    match course.waiting with
    | [] => .ok course
    | stage :: rest => do
      let course ← fill source settings stage { course with waiting := rest }
      fillWithin steps course

end Course

/-- The whole course of the transfer of a value: where it ends, or why it
stops. -/
def Context.courseOf (source : Context) (settings : TransferSettings)
    (root : Value) : Except TransferError Course := do
  let course ← Course.visit source settings root {}
  Course.fillWithin source settings (source.heap.slots.size + 1) course

namespace Transfer

variable {source : Context} {settings : TransferSettings} {t : Transfer}
  {α β : Type} {identity : Nat}

def course (t : Transfer) : Course :=
  ⟨t.copies.entries.map Prod.fst, t.fillings.map Filling.stage⟩

theorem mem_created_iff :
    identity ∈ t.course.created ↔ t.copies.contains identity = true := by
  refine ⟨fun hmem => ?_, fun hcontains => ?_⟩
  · obtain ⟨entry, hentry, rfl⟩ := List.mem_map.1 hmem
    exact Copies.contains_of_mem hentry
  · obtain ⟨pin, hpin⟩ := Option.isSome_iff_exists.1 hcontains
    exact List.mem_map.2 ⟨_, mem_of_lookup hpin, rfl⟩

/-- A request goes on along a course.  It stops where the course stops, unless
the destination stops it. -/
def Follows (f : Course → Except TransferError Course) (x : Copying α) : Prop :=
  ∀ t, Ends (x t) (fun _ t' => f t.course = .ok t'.course)
    fun e _ => f t.course = .error e ∨ e.Foreign

namespace Follows

variable {f g : Course → Except TransferError Course} {x : Copying α}
  {k : α → Copying β}

theorem pure (a : α) : Follows .ok (Pure.pure a) := fun _ => rfl

theorem get : Follows .ok (MonadState.get : Copying Transfer) := fun _ => rfl

theorem throw (e : TransferError) :
    Follows (fun _ => .error e) (throw e : Copying α) :=
  fun _ => Or.inl rfl

theorem onDest {action : Action α} (h : Context.Undumped action) :
    Follows .ok (onDest action) :=
  fun t => ends_onDest.2 ((h t.dest).mono (fun _ _ _ => rfl)
    fun _ _ he => Or.inr (TransferError.foreign_ofRuntime he))

theorem bind (hx : Follows f x) (hk : ∀ a, Follows g (k a)) :
    Follows (fun course => f course >>= g) (x >>= k) := by
  intro t
  refine ends_bind.2 ((hx t).mono (fun a t' ht' => ?_) fun e _ he => ?_)
  · dsimp only
    rw [ht']
    exact hk a t'
  · refine he.imp_left fun he => ?_
    dsimp only
    rw [he]
    rfl

/-- Nothing is visited before the rest. -/
theorem before (hx : Follows .ok x) (hk : ∀ a, Follows g (k a)) :
    Follows g (x >>= k) :=
  hx.bind hk

/-- Nothing is visited after the first. -/
theorem after (hx : Follows f x) (hk : ∀ a, Follows .ok (k a)) :
    Follows f (x >>= k) := by
  have hboth := hx.bind hk
  have hsame : (fun course => f course >>= Except.ok) = f := by
    funext course
    cases f course <;> rfl
  rwa [hsame] at hboth

end Follows

/-! ## One value -/

theorem ends_recordTop_course {fill : Pin → Filling} {stage : Stage}
    (hstage : ∀ pin, (fill pin).stage = stage)
    (hnew : identity ∉ t.course.created) :
    Ends (recordTop identity fill t) (fun _ t' =>
      t'.course = t.course.create identity stage) fun e _ => e.Foreign := by
  rw [mem_created_iff] at hnew
  refine ends_onDest_bind (Context.undumped_pin (-1) t.dest) (fun pin c _ => ?_)
    fun e _ he => TransferError.foreign_ofRuntime he
  rw [ends_bind, ends_get, Copies.find?_of_not_contains hnew]
  change Course.mk _ _ = _
  rw [Copies.entries_insert hnew, List.map_cons, List.map_cons, hstage]
  rfl

/-- A copy is made on the course unless there is one. -/
theorem follows_pushShared {create : Copying Unit}
    {f : Course → Except TransferError Course}
    (hcreate : ∀ t, identity ∉ t.course.created →
      Ends (create t) (fun _ t' => f t.course = .ok t'.course)
        fun e _ => f t.course = .error e ∨ e.Foreign) :
    Follows (fun course =>
      if identity ∈ course.created then .ok course else f course)
      (pushSharedImage identity create) := by
  intro t
  simp only [pushSharedImage]
  rw [ends_bind, ends_get]
  by_cases hmem : identity ∈ t.course.created
  · obtain ⟨pin, hpin⟩ := Option.isSome_iff_exists.1 (mem_created_iff.1 hmem)
    rw [hpin, if_pos hmem]
    exact Follows.onDest (Context.elements_undumped.pushPinned pin) t
  · rw [Copies.find?_of_not_contains (mt mem_created_iff.2 hmem), if_neg hmem]
    exact hcreate t hmem

/-- What is created is recorded. -/
theorem ends_create {action : Action Unit} (haction : Context.Undumped action)
    (fill : Pin → Filling) {stage : Stage}
    (hstage : ∀ pin, (fill pin).stage = stage)
    (hnew : identity ∉ t.course.created) :
    Ends ((do
        onDest action
        recordTop identity fill : Copying Unit) t)
      (fun _ t' => t'.course = t.course.create identity stage)
      fun e _ => e.Foreign :=
  ends_onDest_bind (haction t.dest)
    (fun _ c _ => ends_recordTop_course (t := { t with dest := c }) hstage hnew)
    fun _ _ he => TransferError.foreign_ofRuntime he

theorem follows_pushImage (value : Value) :
    Follows (Course.visit source settings value)
      (pushImage source settings value) := by
  cases value with
  | table handle =>
    refine follows_pushShared fun t hnew => ?_
    exact (ends_create Context.elements_undumped.newTable (.table handle)
      (fun _ => rfl) hnew).mono
      (fun _ _ ht' => congrArg Except.ok ht'.symm) fun _ _ => Or.inr
  | function handle =>
    refine follows_pushShared fun t hnew => ?_
    simp only [pushFunctionImage]
    cases source.chunkOf (.function handle) settings.stripDebug with
    | error error => exact Or.inl rfl
    | ok bytes =>
      exact (ends_create (Context.undumped_loadChunk bytes settings.chunkName)
        (.captured (.function handle)) (fun _ => rfl) hnew).mono
          (fun _ _ ht' => congrArg Except.ok ht'.symm) fun _ _ => Or.inr
  | native name => exact .throw _
  | userdata handle => exact .throw _
  | _ => exact .onDest (Context.elements_undumped.push _)

/-! ## Whole transfers -/

theorem follows_fillBindings (handle : Handle) (copy : Pin) :
    Follows (Course.fill source settings (.bindings handle))
      (fillBindings source settings handle copy) := by
  change Follows (fun course =>
    Stage.values source (.bindings handle) >>= fun values =>
      Course.visitAll source settings values course) _
  simp only [fillBindings, Stage.values]
  cases source.tableOf handle with
  | error error => exact .throw _
  | ok table =>
    refine (Follows.onDest (Context.elements_undumped.pushPinned copy)).before
      fun _ =>
        Follows.get.before fun t => Follows.after ?_ fun _ =>
          .onDest (Context.elements_undumped.pop 1)
    change Follows (Course.visitAll source settings _) _
    induction table.entries with
    | nil => exact .pure _
    | cons entry rest ih =>
      have hround : Follows (fun course =>
        Course.visit source settings entry.1.toValue course >>=
          Course.visit source settings entry.2) (do
            pushImage source settings entry.1.toValue
            pushImage source settings entry.2
            onDest (Context.rawSet t.dest.height)) :=
        (follows_pushImage _).bind fun _ => (follows_pushImage _).after fun _ =>
          .onDest (Context.elements_undumped.rawSet _)
      have hassoc : ∀ values,
          (fun course =>
            (Course.visit source settings entry.1.toValue course >>=
              Course.visit source settings entry.2) >>=
                Course.visitAll source settings values) =
          Course.visitAll source settings
            (entry.1.toValue :: entry.2 :: values) := fun values =>
        funext fun course => bind_assoc _ _ _
      have hrounds := hround.bind fun _ => ih
      rw [hassoc] at hrounds
      exact hrounds

theorem follows_fillCapturedFrom (slot number : Nat)
    (upvalues : List (String × Value)) :
    Follows (Course.visitAll source settings
      (source.copiedFrom number upvalues))
      (fillCapturedFrom source settings slot number upvalues) := by
  induction upvalues generalizing number with
  | nil => exact .pure _
  | cons upvalue rest ih =>
    obtain ⟨name, value⟩ := upvalue
    rw [fillCapturedFrom, Context.copiedFrom]
    dsimp only
    have hstore :
        Follows (Course.visitAll source settings
          (source.copiedFrom (number + 1) rest)) (do
            let _ ← onDest (Context.setUpvalue slot number)
            fillCapturedFrom source settings slot (number + 1) rest) :=
      (Follows.onDest (Context.elements_undumped.setUpvalue _ _)).before
        fun _ => ih (number + 1)
    split
    · exact (Follows.onDest Context.elements_undumped.pushGlobals).before
        fun _ => hstore
    · exact (follows_pushImage value).bind fun _ => hstore

theorem follows_fill (filling : Filling) :
    Follows (Course.fill source settings filling.stage)
      (fill source settings filling) := by
  cases filling with
  | table handle copy => exact follows_fillBindings handle copy
  | captured function copy =>
    exact (Follows.onDest (Context.elements_undumped.pushPinned copy)).before
      fun _ =>
        Follows.get.before fun t =>
          (follows_fillCapturedFrom _ 1 _).after fun _ =>
            .onDest (Context.elements_undumped.pop 1)

theorem follows_settleWithin (steps : Nat) :
    Follows (Course.fillWithin source settings steps)
      (settleWithin source settings steps) := by
  induction steps with
  | zero => exact .pure _
  | succ steps ih =>
    intro t
    rw [settleWithin, Course.fillWithin]
    cases hfillings : t.fillings with
    | nil =>
      rw [bind_of_ok (nextFilling_of_nil hfillings)]
      refine ends_pure.2 ?_
      simp only [course]
      rw [hfillings]
      rfl
    | cons filling rest =>
      rw [bind_of_ok (nextFilling_of_cons hfillings)]
      have hround : Follows (fun course =>
        Course.fill source settings filling.stage course >>=
          Course.fillWithin source settings steps) (do
            fill source settings filling
            settleWithin source settings steps) :=
        (follows_fill filling).bind fun _ => ih
      have hends := hround { t with fillings := rest }
      simp only [course] at hends ⊢
      rw [hfillings]
      exact hends

/-- A whole copy follows the course of its value. -/
theorem ends_copy_course {root : Value} (h : t.course = {}) :
    Ends (copy source settings root t)
      (fun _ _ => ∃ course, source.courseOf settings root = .ok course)
      fun e _ => source.courseOf settings root = .error e ∨ e.Foreign := by
  have hsteps :
      Follows (fun course => Course.visit source settings root course >>=
        Course.fillWithin source settings (source.heap.slots.size + 1)) (do
          pushImage source settings root
          settleWithin source settings (source.heap.slots.size + 1)) :=
    (follows_pushImage root).bind fun _ => follows_settleWithin _
  have hcopy := hsteps t
  rw [h] at hcopy
  simp only [copy, settle]
  split
  · next t' hresult => exact ⟨_, hcopy.ok hresult⟩
  · next error t' hresult => exact hcopy.error hresult

end Transfer

namespace Context

variable {source dest : Context} {settings : TransferSettings} {root : Value}
  {index : Int}

/-- Whether a transfer fails, and why, is a matter of the source. -/
theorem failureOf_receive (hsource : source.Intact) (hdest : dest.Intact)
    (hroot : source.valueAt index = .ok root) :
    failureOf (source.receive index settings dest) =
      match source.courseOf settings root with
      | .ok _ => none
      | .error error => some error := by
  have hrefused := ends_receive_refused settings hsource hdest hroot
  have hcopy :
      Ends (Transfer.copy source settings root (dest.opening root)) _ _ :=
    Transfer.ends_copy_course rfl
  rw [receive_eq hroot] at hrefused ⊢
  cases hresult : Transfer.copy source settings root (dest.opening root) with
  | ok _ t =>
    obtain ⟨course, hcourse⟩ := hcopy.ok hresult
    rw [hcourse]
    rfl
  | error error t =>
    rw [hresult] at hrefused
    obtain ⟨value, -, hvalue⟩ := hrefused.error rfl
    rcases hcopy.error hresult with hcourse | hforeign
    · rw [hcourse]
      rfl
    · cases hvalue <;> exact hforeign.elim

/-- A transfer fails into one destination as it does into another. -/
theorem failureOf_receive_eq {dest' : Context} (settings : TransferSettings)
    (index : Int) (hsource : source.Intact) (hdest : dest.Intact)
    (hdest' : dest'.Intact) :
    failureOf (source.receive index settings dest) =
      failureOf (source.receive index settings dest') := by
  cases hroot : source.valueAt index with
  | error error =>
    simp only [receive]
    rw [hroot]
    rfl
  | ok root =>
    rw [failureOf_receive hsource hdest hroot,
      failureOf_receive hsource hdest' hroot]

end Context

end Isolate
