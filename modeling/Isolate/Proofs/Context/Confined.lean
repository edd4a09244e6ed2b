import Isolate.Proofs.Context.Elements
import Isolate.Proofs.Context.Handling

/-!
# Actions on the stack and the heap

Most operations change the stack and the heap of a context and leave its pins,
its globals and its frames alone, even where they fail.  Sequences of such
actions do too.
-/

namespace Isolate.Context

variable {ctx c d : Context} {α β : Type}

/-- Contexts with the same globals, frames and pins. -/
structure SameRoots (ctx c : Context) : Prop where
  globals : c.globals = ctx.globals
  frames : c.frames = ctx.frames
  registry : c.registry = ctx.registry

theorem SameRoots.refl (ctx : Context) : ctx.SameRoots ctx := ⟨rfl, rfl, rfl⟩

theorem SameRoots.trans (h : ctx.SameRoots c) (h' : c.SameRoots d) :
    ctx.SameRoots d where
  globals := h'.globals.trans h.globals
  frames := h'.frames.trans h.frames
  registry := h'.registry.trans h.registry

/-- An action that leaves pins, globals and frames alone. -/
def Confined (action : Action α) : Prop :=
  ∀ ctx, Ends (action ctx) (fun _ c => ctx.SameRoots c)
    fun _ c => ctx.SameRoots c

namespace Confined

theorem pure (a : α) : Confined (Pure.pure a) := fun ctx => .refl ctx

theorem throw (e : RuntimeError) : Confined (throw e : Action α) :=
  fun ctx => .refl ctx

theorem get : Confined (MonadState.get : Action Context) := fun ctx => .refl ctx

theorem modify {f : Context → Context}
    (hf : ∀ ctx : Context, ctx.SameRoots (f ctx)) :
    Confined (modify f : Action Unit) := hf

theorem query (f : Context → Except RuntimeError α) : Confined (query f) :=
  fun ctx => ends_query.2 ⟨fun _ _ => .refl ctx, fun _ _ => .refl ctx⟩

theorem bind {x : Action α} {f : α → Action β} (hx : Confined x)
    (hf : ∀ a, Confined (f a)) : Confined (x >>= f) := by
  intro ctx
  refine (hx ctx).bind fun a c hc => ?_
  exact (hf a c).mono (fun _ _ hd => hc.trans hd) fun _ _ hd => hc.trans hd

end Confined

/-- Everything but pinning is confined. -/
theorem elements_confined : Elements fun _ => Confined where
  pure := .pure
  throw := fun e _ => .throw e
  look := fun _ hf ctx => hf ctx ctx
  query := fun f _ _ => .query f
  bind := .bind
  push := fun _ => .modify fun _ => ⟨rfl, rfl, rfl⟩
  popTop := by
    intro ctx
    simp only [popTop]
    cases ctx.stack.back? with
    | none => exact .refl ctx
    | some value => exact ⟨rfl, rfl, rfl⟩
  pop := by
    intro count ctx
    simp only [pop]
    split
    · exact ⟨rfl, rfl, rfl⟩
    · exact .refl ctx
  allocate := fun _ _ => ⟨rfl, rfl, rfl⟩
  change := fun _ _ => .modify fun _ => ⟨rfl, rfl, rfl⟩
  collectIfDue := by
    refine Confined.get.bind fun ctx => ?_
    split
    · exact Confined.bind (fun _ => ⟨rfl, rfl, rfl⟩) fun _ => .pure _
    · exact .pure _

/-! ## What happens to the stack -/

theorem stack_bindKey (ctx : Context) (handle : Handle) (key value : Value) :
    Ends (bindKey handle key value ctx) (fun _ c => c.stack = ctx.stack)
      fun _ c => c.stack = ctx.stack := by
  simp only [bindKey]
  cases key.key? with
  | none => rfl
  | some key =>
    simp only [storeKey]
    rw [ends_bind, ends_query]
    exact ⟨fun _ _ => rfl, fun _ _ => rfl⟩

/-- An assignment takes the key and the value off the stack, or leaves both. -/
theorem stack_rawSet (ctx : Context) (index : Int) :
    Ends (rawSet index ctx) (fun _ c =>
      c.stack = ctx.stack ∨ c.stack = ctx.stack.pop.pop)
      fun _ c => c.stack = ctx.stack ∨ c.stack = ctx.stack.pop.pop := by
  simp only [rawSet]
  rw [ends_bind, ends_query]
  refine ⟨fun handle _ => ?_, fun _ _ => Or.inl rfl⟩
  rw [ends_bind, ends_get]
  split
  · exact Or.inl rfl
  · next hheight =>
    have htop : ctx.stack.size ≠ 0 := by omega
    obtain ⟨rest, value, hstack⟩ := Array.eq_push_of_size_ne_zero htop
    have hbelow : rest.size ≠ 0 := by
      rw [hstack, Array.size_push] at hheight
      omega
    obtain ⟨below, key, hrest⟩ := Array.eq_push_of_size_ne_zero hbelow
    have hpopped : ctx.stack.pop.pop = below := by
      rw [hstack, Array.pop_push, hrest, Array.pop_push]
    have hpop : popTop { ctx with stack := rest } =
        .ok key { ctx with stack := below } :=
      popTop_eq hrest
    rw [bind_of_ok (popTop_eq hstack), bind_of_ok hpop, hpopped]
    exact (stack_bindKey _ handle key value).mono (fun _ _ hc => Or.inr hc)
      fun _ _ hc => Or.inr hc

/-! ## Functions -/

theorem confined_readChunk (bytes : List UInt8) (name : String) :
    Confined (readChunk bytes name) := by
  intro ctx
  simp only [readChunk]
  cases Chunk.load bytes with
  | error e => exact .refl ctx
  | ok chunk => exact ⟨rfl, rfl, rfl⟩

theorem confined_loadChunk (bytes : List UInt8) (name : String) :
    Confined (loadChunk bytes name) := by
  have hremember : ∀ key proto, Confined (rememberChunk key proto) := by
    intro key proto
    refine .modify fun ctx => ?_
    dsimp only
    split <;> exact ⟨rfl, rfl, rfl⟩
  refine Confined.get.bind fun ctx => ?_
  split
  · refine Confined.bind (fun _ => ⟨rfl, rfl, rfl⟩) fun found => ?_
    cases found with
    | some proto => exact elements_confined.pushMain proto
    | none => exact (confined_readChunk bytes name).bind fun proto =>
        (hremember _ proto).bind fun _ => elements_confined.pushMain proto
  · exact (confined_readChunk bytes name).bind
      fun proto => elements_confined.pushMain proto

/-! ## New objects on the stack -/

/-- A table is put on the stack of an intact context, and nothing fails. -/
theorem Intact.ends_newTable_top (h : ctx.Intact) :
    Ends (newTable ctx)
      (fun _ c =>
        c.Intact ∧ ctx.SameRoots c ∧
            ∃ new, c.stack = ctx.stack.push (.table new))
      fun _ _ => False := by
  have hpushed : Ends (newTable ctx) _ fun _ _ => False :=
    Context.ends_newTable h.toWellFormed
  refine ((h.ends_newTable.and
    (elements_confined.newTable ctx)).and hpushed).mono
    (fun _ c hc => ?_) fun _ _ he => he.2
  obtain ⟨⟨hintact, hsame⟩, new, hstack, -⟩ := hc
  exact ⟨hintact, hsame, new, hstack⟩

/-- A chunk that can be read is put on the stack as a function, and nothing
fails. -/
theorem Intact.ends_loadChunk_top (h : ctx.Intact) {bytes : List UInt8}
    {name : String} {proto : Prototype}
    (hread : Chunk.undump bytes name = .ok proto) :
    Ends (loadChunk bytes name ctx)
      (fun _ c => c.Intact ∧ ctx.SameRoots c ∧
        ∃ function, c.stack = ctx.stack.push (.function function))
      fun _ _ => False := by
  have hpushed : Ends (loadChunk bytes name ctx)
      (fun _ c => ∃ function, c.stack = ctx.stack.push (.function function))
      fun _ _ => False := by
    refine ends_loadChunk_of (fun _ => True) (fun _ => True)
      trivial trivial (fun _ _ => trivial) (fun _ _ => trivial)
      (fun _ _ _ _ => trivial) (fun error c he _ _ => ?_)
      fun proto c _ hsame _ => ?_
    · cases hread.symm.trans he
    · refine (Context.ends_pushMain (hsame.wellFormed h.toWellFormed)
        proto).mono (fun _ d hd => ?_) fun _ _ he => he
      obtain ⟨-, function, cells, hfunction⟩ := hd
      exact ⟨function, hsame.stack ▸ hfunction.stack⟩
  refine (((h.ends_loadChunk bytes name).and (confined_loadChunk bytes name
    ctx)).and hpushed).mono
    (fun _ c hc => ⟨hc.1.1, hc.1.2, hc.2⟩) fun _ _ he => he.2

end Isolate.Context
