import Isolate.Proofs.Transfer.Draining
import Isolate.Transfer.Merge

/-!
# The walk of a merge

A merge walks as its copies do.  Whether it succeeds or fails it leaves the
destination intact, what was on the stack in place and nothing in the queue, and
it never comes to a handle that names nothing.
-/

namespace Isolate

/-- The failure of a transfer that comes from a handle that names nothing. -/
def TransferError.Dangles : TransferError → Prop
  | .runtime error => error.Dangles
  | _ => False

theorem TransferError.not_dangles_ofRuntime {error : RuntimeError}
    (h : ¬error.Dangles) : ¬(TransferError.ofRuntime error).Dangles := by
  cases error with
  | dump => exact id
  | load => exact id
  | _ => exact h

theorem Context.Refuses.not_dangles {source : Context}
    {settings : TransferSettings} {value : Value} {error : TransferError}
    (h : source.Refuses settings value error) : ¬error.Dangles := by
  cases h <;> exact id

namespace Transfer

variable {source : Context} {settings : TransferSettings} {among : Value → Prop}
  {t t' t'' : Transfer} {value : Value}

/-- A walk has gone on and nothing waits. -/
structure Rests (source : Context) (settings : TransferSettings)
    (among : Value → Prop) (t t' : Transfer) : Prop where
  passage : Passage source settings among t t'
  idle : t'.fillings = []

/-- A walk has failed otherwise than at a handle that names nothing, and nothing
waits. -/
structure FailsResting (source : Context) (settings : TransferSettings)
    (among : Value → Prop) (t : Transfer) (error : TransferError)
    (t' : Transfer) : Prop where
  named : ¬error.Dangles
  rests : Rests source settings among t t'

theorem Rests.refl (h : Traversing source settings among t)
    (hidle : t.fillings = []) : Rests source settings among t t :=
  ⟨(Progress.refl h).passage, hidle⟩

theorem Rests.trans (h : Rests source settings among t t')
    (h' : Rests source settings among t' t'') :
    Rests source settings among t t'' :=
  ⟨h.passage.trans h'.passage, h'.idle⟩

theorem Rests.fails (h : Rests source settings among t t')
    {error : TransferError}
    (h' : FailsResting source settings among t' error t'') :
    FailsResting source settings among t error t'' :=
  ⟨h'.named, h.trans h'.rests⟩

theorem Traversing.ends_copy_rests (h : Traversing source settings among t)
    (hidle : t.fillings = []) (hsource : source.Intact)
    (hclosed : source.Closed among) (hvalue : among value) :
    Ends (copy source settings value t)
      (fun _ t' => Rests source settings among t t' ∧
        ∃ image, (t.dest.stack.push image).toList <+: t'.dest.stack.toList)
      fun e t' =>
        FailsResting source settings among t e t' ∧
            t'.dest.stack = t.dest.stack := by
  refine (h.ends_copy hidle hsource hclosed hvalue).mono
    (fun _ t' ⟨_, _, hdelivers⟩ => ?_)
    fun e t' ⟨⟨hpassage, value, _, hrefused⟩, hidle', hstack⟩ => ?_
  · exact ⟨⟨hdelivers.passage, hdelivers.drained.idle⟩, hdelivers.exists_image⟩
  · exact ⟨⟨hrefused.not_dangles, hpassage, hidle'⟩, hstack⟩

/-- An action on the destination between copies. -/
theorem Rests.ends_onDest (h : Rests source settings among t t') {α : Type}
    {action : Action α} (hconfined : Context.Confined action)
    (hends : Ends (action t'.dest) (fun _ c => c.Intact) Context.FailsIntact)
    (hstack : Ends (action t'.dest) (fun _ c =>
      t.dest.stack.toList <+: c.stack.toList)
      fun _ c => t.dest.stack.toList <+: c.stack.toList) :
    Ends (onDest action t') (fun _ t'' => Rests source settings among t t'')
      fun e t'' => FailsResting source settings among t e t'' := by
  have hrests : ∀ {c : Context}, c.Intact → t'.dest.SameRoots c →
      t.dest.stack.toList <+: c.stack.toList →
      Rests source settings among t { t' with dest := c } :=
    fun hc hsame hbase => ⟨⟨h.passage.traversing.withDest hc hsame,
      h.passage.onward.trans (Walked.withDest hsame).toOnward, hbase⟩, h.idle⟩
  rw [Transfer.ends_onDest]
  refine ((hends.and (hconfined t'.dest)).and hstack).mono
    (fun _ c ⟨⟨hc, hsame⟩, hbase⟩ => hrests hc hsame hbase)
    fun e c ⟨⟨hfails, hsame⟩, hbase⟩ => ?_
  exact ⟨TransferError.not_dangles_ofRuntime hfails.named,
    hrests hfails.intact hsame hbase⟩

/-- One value is dropped from above what was on the stack. -/
theorem Rests.ends_pop (h : Rests source settings among t t')
    {rest : Array Value} {top : Value} (hstack : t'.dest.stack = rest.push top)
    (hbase : t.dest.stack.toList <+: rest.toList) :
    Ends (onDest (Context.pop 1) t')
      (fun _ t'' => Rests source settings among t t'') fun e t'' =>
        FailsResting source settings among t e t'' := by
  refine h.ends_onDest (Context.elements_confined.pop 1)
    (h.passage.traversing.dest.ends_pop 1) ?_
  rw [Context.pop_one_eq hstack]
  exact hbase

section Merging

variable {target : Handle}

/-- One binding is merged into a table that is on the stack. -/
theorem Traversing.ends_mergeBinding (h : Traversing source settings among t)
    (hidle : t.fillings = []) (hsource : source.Intact)
    (hclosed : source.Closed among)
    (htarget : .table target ∈ t.dest.stack.toList) (slot : Int) {key : Value}
    (hkey : among key) (hvalue : among value) :
    Ends (mergeBinding source settings target slot key value t)
      (fun _ t' => Rests source settings among t t')
      fun e t' => FailsResting source settings among t e t' := by
  simp only [mergeBinding]
  refine ((h.ends_copy_rests hidle hsource hclosed hkey).mono
    (fun _ _ hok => hok)
    fun _ _ hfails => hfails.1).bind fun _ t₁ ⟨h₁, image, himage⟩ => ?_
  obtain ⟨rest, top, hstack₁, hbase⟩ := exists_top_of_prefix himage
  have hdest₁ := h₁.passage.traversing.dest
  have hnames : t₁.dest.Names (.table target) :=
    hdest₁.stack _ (h₁.passage.stack.subset htarget)
  obtain ⟨present, hpresent, -⟩ := hdest₁.lookupKey hnames top
  refine ends_bind.2
    (ends_onDest_of_eq (Context.query_eq (Context.valueAt_top hstack₁)) ?_)
  refine ends_bind.2 (ends_onDest_of_eq (Context.query_eq hpresent) ?_)
  dsimp only
  split
  · have hcopy :=
      h₁.passage.traversing.ends_copy_rests h₁.idle hsource hclosed hvalue
    refine Ends.bind (hcopy.tryCatch fun error t₂ ⟨hfails, hstack₂⟩ => ?_)
      fun _ t₂ ⟨h₂, valueImage, hvalueImage⟩ => ?_
    · refine ((h₁.trans hfails.rests).ends_pop (hstack₂.trans hstack₁)
        hbase).bind fun _ t₃ h₃ => ?_
      exact ⟨hfails.named, h₃⟩
    · obtain ⟨rest₂, top₂, hstack₂, hbase₂⟩ := exists_top_of_prefix hvalueImage
      rw [hstack₁] at hbase₂
      obtain ⟨rest₃, top₃, rfl, hbase₃⟩ := exists_top_of_prefix hbase₂
      have hpopped : t₂.dest.stack.pop.pop = rest₃ := by
        rw [hstack₂, Array.pop_push, Array.pop_push]
      have hboth := h₁.trans h₂
      have hkept : ∀ {c : Context},
          c.stack = t₂.dest.stack ∨ c.stack = t₂.dest.stack.pop.pop →
            t.dest.stack.toList <+: c.stack.toList := by
        rintro c (heq | heq)
        · rw [heq]
          exact hboth.passage.stack
        · rw [heq, hpopped]
          exact hbase.trans hbase₃
      exact (hboth.ends_onDest (Context.elements_confined.rawSet slot)
        ((hboth.passage.traversing.dest.ends_rawSet slot).mono
          (fun _ _ hc => hc.1) fun _ _ he => he)
        ((Context.stack_rawSet t₂.dest slot).mono (fun _ _ => hkept)
          fun _ _ => hkept)).bind fun _ _ h₃ => h₃
  · exact (h₁.ends_pop hstack₁ hbase).bind fun _ _ h₂ => h₂

theorem Rests.ends_removeKeys (h : Rests source settings among t t')
    (htarget : .table target ∈ t.dest.stack.toList) (added : List Value) :
    Ends (removeKeys target added t')
      (fun _ t'' => Rests source settings among t t'') fun e t'' =>
        FailsResting source settings among t e t'' := by
  let rests : List Value → Transfer → Prop :=
    fun _ t'' => Rests source settings among t t''
  have hstart : rests [] t' := h
  simp only [removeKeys]
  refine ends_forM hstart (fun _ key _ t₁ _ h₁ => ?_) (List.nil_append _).symm
  have hdest := h₁.passage.traversing.dest
  have hnames : t₁.dest.Names (.table target) :=
    hdest.stack _ (h₁.passage.stack.subset htarget)
  refine h₁.ends_onDest (Context.elements_confined.bindKey target key .nil)
    ((hdest.ends_bindKey hnames (fun hnil => absurd rfl hnil) trivial).mono
      (fun _ _ hc => hc.1) fun _ _ he => he) ?_
  have hkept : ∀ {c : Context}, c.stack = t₁.dest.stack →
      t.dest.stack.toList <+: c.stack.toList :=
    fun heq => heq ▸ h₁.passage.stack
  exact (Context.stack_bindKey t₁.dest target key .nil).mono (fun _ _ => hkept)
    fun _ _ => hkept

theorem Traversing.ends_mergeBindings (h : Traversing source settings among t)
    (hidle : t.fillings = []) (hsource : source.Intact)
    (hclosed : source.Closed among)
    (htarget : .table target ∈ t.dest.stack.toList) (slot : Int)
    {entries : List (Key × Value)}
    (hentries : ∀ key value, (key, value) ∈ entries →
      among key.toValue ∧ among value) (added : List Value) :
    Ends (mergeBindings source settings target slot added entries t)
      (fun _ t' => Rests source settings among t t')
      fun e t' => FailsResting source settings among t e t' := by
  induction entries generalizing added t with
  | nil => exact .refl h hidle
  | cons entry rest ih =>
    obtain ⟨key, value⟩ := entry
    obtain ⟨hkey, hvalue⟩ := hentries key value List.mem_cons_self
    have hbinding :=
      h.ends_mergeBinding hidle hsource hclosed htarget slot hkey hvalue
    have hlater : ∀ {t₁ : Transfer} (added : List Value),
        Rests source settings among t t₁ →
        Ends (mergeBindings source settings target slot added rest t₁)
          (fun _ t' => Rests source settings among t t')
          fun e t' => FailsResting source settings among t e t' := by
      intro t₁ added h₁
      refine (ih h₁.passage.traversing h₁.idle (h₁.passage.stack.subset htarget)
        (fun other bound hother =>
          hentries other bound (List.mem_cons_of_mem _ hother))
        added).mono (fun _ _ h₂ => h₁.trans h₂)
          fun _ _ hfails => h₁.fails hfails
    simp only [mergeBindings]
    rw [ends_bind]
    refine Ends.tryCatch (hbinding.bind fun result t₁ h₁ => ?_)
      fun error t₁ hfails => ?_
    · cases result with
      | none => exact hlater _ h₁
      | some key' => exact hlater _ h₁
    · refine (hfails.rests.ends_removeKeys htarget added).bind fun _ t₂ h₂ => ?_
      exact ⟨hfails.named, h₂⟩

end Merging

/-- A merge of a table that is there. -/
theorem Traversing.ends_mergeTable (h : Traversing source settings among t)
    (hidle : t.fillings = []) (hsource : source.Intact)
    (hclosed : source.Closed among) {handle : Handle} {table : Table}
    (htable : source.heap.get? handle = some (.table table))
    (hentries : ∀ key value, (key, value) ∈ table.entries →
      among key.toValue ∧ among value) (index : Int) :
    Ends (mergeTable source settings handle index t)
      (fun _ t' => Rests source settings among t t')
      fun e t' => FailsResting source settings among t e t' := by
  have hrefl := Rests.refl h hidle
  simp only [mergeTable]
  rw [ends_bind, Transfer.ends_onDest, Context.ends_query]
  refine ⟨fun value hvalue => ?_, fun error herror =>
    ⟨TransferError.not_dangles_ofRuntime
      (Context.misplaced_of_valueAt herror).not_dangles, hrefl⟩⟩
  cases value with
  | table target =>
    obtain ⟨i, hslot, habsolute⟩ :=
      Context.absoluteIndex_of_valueAt hvalue nofun
    dsimp only
    refine ends_bind.2 (ends_onDest_of_eq (Context.query_eq habsolute) ?_)
    rw [Context.tableOf_eq_ok_iff.2 htable]
    exact h.ends_mergeBindings hidle hsource hclosed
      (Array.mem_toList_iff.2 (Array.mem_of_getElem? hslot))
      (i + 1 : Nat) hentries []
  | _ => exact ⟨id, hrefl⟩

end Transfer

end Isolate
