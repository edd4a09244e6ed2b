import Isolate.Context.Basic

/-!
# Outcomes of actions

An action has two postconditions, one for the case that it succeeds and one for
the case that it fails, because a failed action keeps the changes it made.  The
outcome of a sequence is the outcome of its parts, and every action of a context
gets one lemma about its outcome, from which the actions made of it are read.
-/

namespace Isolate

variable {ε σ α β : Type}

/-- A result meets one condition if it is a success and another one if it is a
failure. -/
def Ends (result : EStateM.Result ε σ α) (onOk : α → σ → Prop)
    (onError : ε → σ → Prop) : Prop :=
  match result with
  | .ok a s => onOk a s
  | .error e s => onError e s

variable {onOk : α → σ → Prop} {onError : ε → σ → Prop}

theorem Ends.ok {result : EStateM.Result ε σ α} (h : Ends result onOk onError)
    {a : α} {s : σ} (hresult : result = .ok a s) : onOk a s := by
  rw [hresult] at h
  exact h

theorem Ends.error {result : EStateM.Result ε σ α}
    (h : Ends result onOk onError) {e : ε} {s : σ}
    (hresult : result = .error e s) : onError e s := by
  rw [hresult] at h
  exact h

theorem Ends.mono {result : EStateM.Result ε σ α} {onOk' : α → σ → Prop}
    {onError' : ε → σ → Prop} (h : Ends result onOk onError)
    (hok : ∀ a s, onOk a s → onOk' a s)
    (herror : ∀ e s, onError e s → onError' e s) :
    Ends result onOk' onError' := by
  cases result with
  | ok a s => exact hok a s h
  | error e s => exact herror e s h

theorem Ends.trivial (result : EStateM.Result ε σ α) :
    Ends result (fun _ _ => True) fun _ _ => True := by
  cases result <;> exact True.intro

/-- What is known of one outcome in two ways. -/
theorem Ends.and {result : EStateM.Result ε σ α} {onOk' : α → σ → Prop}
    {onError' : ε → σ → Prop} (h : Ends result onOk onError)
    (h' : Ends result onOk' onError') :
    Ends result (fun a s => onOk a s ∧ onOk' a s)
      (fun e s => onError e s ∧ onError' e s) := by
  cases result with
  | ok a s => exact ⟨h, h'⟩
  | error e s => exact ⟨h, h'⟩

/-- The error of a failure. -/
def failureOf : EStateM.Result ε σ α → Option ε
  | .ok _ _ => none
  | .error e _ => some e

/-- What a success gives, or the error of a failure. -/
def answerOf : EStateM.Result ε σ α → Except ε α
  | .ok a _ => .ok a
  | .error e _ => .error e

/-- What a success or a failure leaves behind. -/
def stateOf : EStateM.Result ε σ α → σ
  | .ok _ s => s
  | .error _ s => s

theorem Ends.stateOf {result : EStateM.Result ε σ α}
    (h : Ends result onOk onError) {p : σ → Prop} (hok : ∀ a s, onOk a s → p s)
    (herror : ∀ e s, onError e s → p s) : p (stateOf result) := by
  cases result with
  | ok a s => exact hok a s h
  | error e s => exact herror e s h

theorem eq_of_answerOf_ok {result : EStateM.Result ε σ α} {a : α}
    (h : answerOf result = .ok a) : result = .ok a (stateOf result) := by
  cases result with
  | ok b s =>
    cases h
    rfl
  | error e s => cases h

theorem eq_of_answerOf_error {result : EStateM.Result ε σ α} {e : ε}
    (h : answerOf result = .error e) : result = .error e (stateOf result) := by
  cases result with
  | ok b s => cases h
  | error e' s =>
    cases h
    rfl

theorem failureOf_eq_some_iff {result : EStateM.Result ε σ α} {e : ε} :
    failureOf result = some e ↔ ∃ s, result = .error e s := by
  cases result <;> simp [failureOf]

/-! ## Failures of computations without a state -/

/-- Where a sequence fails, its first part fails or what follows it does. -/
theorem eq_error_of_bind {x : Except ε β} {f : β → Except ε α} {e : ε}
    (h : x >>= f = .error e) :
    x = .error e ∨ ∃ b, x = .ok b ∧ f b = .error e := by
  cases x with
  | error e' =>
    cases h
    exact .inl rfl
  | ok b => exact .inr ⟨b, rfl, h⟩

theorem eq_error_of_map {x : Except ε β} {f : β → α} {e : ε}
    (h : x.map f = .error e) : x = .error e := by
  cases x with
  | error e' =>
    cases h
    rfl
  | ok b => cases h

/-! ## Sequences -/

@[simp]
theorem ends_pure {a : α} {s : σ} :
    Ends ((pure a : EStateM ε σ α) s) onOk onError ↔ onOk a s :=
  Iff.rfl

@[simp]
theorem ends_throw {e : ε} {s : σ} :
    Ends ((throw e : EStateM ε σ α) s) onOk onError ↔ onError e s :=
  Iff.rfl

@[simp]
theorem ends_get {s : σ} {onOk : σ → σ → Prop} :
    Ends ((get : EStateM ε σ σ) s) onOk onError ↔ onOk s s :=
  Iff.rfl

@[simp]
theorem ends_modify {s : σ} {f : σ → σ} {onOk : PUnit → σ → Prop} :
    Ends ((modify f : EStateM ε σ PUnit) s) onOk onError ↔ onOk ⟨⟩ (f s) :=
  Iff.rfl

theorem ends_bind {x : EStateM ε σ β} {f : β → EStateM ε σ α} {s : σ} :
    Ends ((x >>= f) s) onOk onError ↔
      Ends (x s) (fun b s' => Ends (f b s') onOk onError) onError := by
  change Ends (EStateM.bind x f s) onOk onError ↔ _
  simp only [EStateM.bind]
  cases x s <;> exact Iff.rfl

theorem bind_of_ok {x : EStateM ε σ β} {f : β → EStateM ε σ α}
    {s s' : σ} {b : β} (h : x s = .ok b s') : (x >>= f) s = f b s' := by
  change EStateM.bind x f s = _
  simp only [EStateM.bind]
  rw [h]

theorem bind_of_error {x : EStateM ε σ β} {f : β → EStateM ε σ α}
    {s s' : σ} {e : ε} (h : x s = .error e s') : (x >>= f) s = .error e s' := by
  change EStateM.bind x f s = _
  simp only [EStateM.bind]
  rw [h]

theorem get_bind {f : σ → EStateM ε σ α} {s : σ} : (get >>= f) s = f s s := rfl

/-- The outcome of a sequence, from what is known of its first part. -/
theorem Ends.bind {x : EStateM ε σ β} {f : β → EStateM ε σ α} {s : σ}
    {onFirst : β → σ → Prop} (h : Ends (x s) onFirst onError)
    (hf : ∀ b s', onFirst b s' → Ends (f b s') onOk onError) :
    Ends ((x >>= f) s) onOk onError :=
  ends_bind.2 (h.mono hf fun _ _ he => he)

/-- The first part of a sequence leaves the state as it is. -/
theorem Ends.same {x : EStateM ε σ β} {f : β → EStateM ε σ α} {s : σ}
    (h : Ends (x s) (fun _ s' => s' = s) onError)
    (hf : ∀ b, Ends (f b s) onOk onError) :
    Ends ((x >>= f) s) onOk onError := by
  refine h.bind fun b s' hs => ?_
  rw [hs]
  exact hf b

/-- The first part of a sequence looks something up. -/
theorem Ends.look {x : EStateM ε σ β} {f : β → EStateM ε σ α} {s : σ}
    {found : β → Prop} (h : Ends (x s) (fun b s' => s' = s ∧ found b) onError)
    (hf : ∀ b, found b → Ends (f b s) onOk onError) :
    Ends ((x >>= f) s) onOk onError := by
  refine h.bind fun b s' hs => ?_
  rw [hs.1]
  exact hf b hs.2

/-- What is done before an error is raised again does not end in success. -/
theorem ends_bind_throw {x : EStateM ε σ β} {e : ε} {s : σ} :
    Ends ((x >>= fun _ => throw e) s) onOk fun _ _ => True := by
  rw [ends_bind]
  cases x s <;> exact trivial

/-- To drop a result is to go on with nothing. -/
theorem discard_eq_bind (x : EStateM ε σ α) :
    discard x = x >>= fun _ => pure () := by
  funext s
  change EStateM.map _ x s = EStateM.bind x _ s
  simp only [EStateM.map, EStateM.bind]
  cases x s <;> rfl

theorem tryCatch_of_ok {x : EStateM ε σ α} {handle : ε → EStateM ε σ α}
    {s s' : σ} {a : α} (h : x s = .ok a s') :
    tryCatch x handle s = .ok a s' := by
  change EStateM.tryCatch x handle s = _
  delta EStateM.tryCatch
  dsimp only
  rw [h]

theorem tryCatch_of_error {x : EStateM ε σ α} {handle : ε → EStateM ε σ α}
    {s s' : σ} {e : ε} (h : x s = .error e s') :
    tryCatch x handle s = handle e s' := by
  change EStateM.tryCatch x handle s = _
  delta EStateM.tryCatch
  dsimp only
  rw [h]
  rfl

/-- A failure that is caught keeps the changes made before it. -/
theorem Ends.tryCatch {x : EStateM ε σ α} {handle : ε → EStateM ε σ α} {s : σ}
    {onFail : ε → σ → Prop} (h : Ends (x s) onOk onFail)
    (hhandle : ∀ e s', onFail e s' → Ends (handle e s') onOk onError) :
    Ends (MonadExcept.tryCatch x handle s) onOk onError := by
  cases hresult : x s with
  | ok a s' =>
    rw [tryCatch_of_ok hresult]
    exact h.ok hresult
  | error e s' =>
    rw [tryCatch_of_error hresult]
    exact hhandle e s' (h.error hresult)

/-! ## Runs over lists -/

/-- A loop over a list, whose rounds know what was done before them. -/
theorem ends_forM {xs : List β} {f : β → EStateM ε σ PUnit}
    {holds : List β → σ → Prop} {done : List β} {s : σ} (hs : holds done s)
    (hf : ∀ done x rest s, xs = done ++ x :: rest → holds done s →
      Ends (f x s) (fun _ s' => holds (done ++ [x]) s') onError)
    {rest : List β} (hxs : xs = done ++ rest) :
    Ends (rest.forM f s) (fun _ s' => holds xs s') onError := by
  induction rest generalizing done s with
  | nil =>
    rw [hxs, List.append_nil]
    exact hs
  | cons x rest ih =>
    rw [List.forM]
    refine (hf done x rest s hxs hs).bind fun _ s' hs' => ?_
    exact ih hs' (hxs.trans (List.append_cons done x rest))

namespace Context

variable {ctx : Context} {onOk : α → Context → Prop}
  {onError : RuntimeError → Context → Prop}

theorem ends_query {f : Context → Except RuntimeError α} :
    Ends (query f ctx) onOk onError ↔
      (∀ a, f ctx = .ok a → onOk a ctx) ∧
        (∀ e, f ctx = .error e → onError e ctx) := by
  simp only [query]
  cases f ctx with
  | ok a => simp [Ends]
  | error e => simp [Ends]

end Context

end Isolate
