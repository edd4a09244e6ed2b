import Isolate.Proofs.Outcome
import Mathlib.Data.List.Forall2

/-!
# Two runs side by side

Two results accord if both are successes or both are failures, and what they
give and leave behind is related.  Sequences whose parts accord accord, so two
runs of one program are compared along it, part by part.  Arrays are compared
place by place.
-/

namespace Isolate

/-! ## Results -/

section Results

variable {ε σ α β α' β' : Type} {onOk : α → σ → β → σ → Prop}
  {onError : ε → σ → ε → σ → Prop}

/-- Two results of the same kind, which meet one condition if they are successes
and another one if they are failures. -/
def Accord (left : EStateM.Result ε σ α) (right : EStateM.Result ε σ β)
    (onOk : α → σ → β → σ → Prop) (onError : ε → σ → ε → σ → Prop) : Prop :=
  match left, right with
  | .ok a s, .ok b t => onOk a s b t
  | .error e s, .error f t => onError e s f t
  | _, _ => False

/-- Two answers of the same kind. -/
def Answered (left : Except ε α) (right : Except ε β) (onOk : α → β → Prop)
    (onError : ε → ε → Prop) : Prop :=
  match left, right with
  | .ok a, .ok b => onOk a b
  | .error e, .error f => onError e f
  | _, _ => False

section Answers

variable {left : Except ε α} {right : Except ε β} {okAnswer : α → β → Prop}
  {errorAnswer : ε → ε → Prop}

theorem Answered.cases (h : Answered left right okAnswer errorAnswer) :
    (∃ a b, left = .ok a ∧ right = .ok b ∧ okAnswer a b) ∨
      ∃ e f, left = .error e ∧ right = .error f ∧ errorAnswer e f := by
  cases left with
  | ok a =>
    cases right with
    | ok b => exact Or.inl ⟨a, b, rfl, rfl, h⟩
    | error f => exact h.elim
  | error e =>
    cases right with
    | ok b => exact h.elim
    | error f => exact Or.inr ⟨e, f, rfl, rfl, h⟩

theorem Answered.mono {okAnswer' : α → β → Prop} {errorAnswer' : ε → ε → Prop}
    (h : Answered left right okAnswer errorAnswer)
    (hok : ∀ a b, okAnswer a b → okAnswer' a b)
    (herror : ∀ e f, errorAnswer e f → errorAnswer' e f) :
    Answered left right okAnswer' errorAnswer' := by
  rcases h.cases with ⟨a, b, rfl, rfl, h⟩ | ⟨e, f, rfl, rfl, h⟩
  · exact hok a b h
  · exact herror e f h

theorem Answered.bind {f : α → Except ε α'} {g : β → Except ε β'}
    {okNext : α' → β' → Prop} (h : Answered left right okAnswer errorAnswer)
    (hfg : ∀ a b, okAnswer a b → Answered (f a) (g b) okNext errorAnswer) :
    Answered (left >>= f) (right >>= g) okNext errorAnswer := by
  rcases h.cases with ⟨a, b, rfl, rfl, h⟩ | ⟨e, e', rfl, rfl, h⟩
  · exact hfg a b h
  · exact h

/-- Two branches on the same truth value. -/
theorem Answered.ite {left' : Except ε α} {right' : Except ε β} {p q : Bool}
    (hpq : p = q) (hthen : p = true → Answered left right okAnswer errorAnswer)
    (helse : p = false → Answered left' right' okAnswer errorAnswer) :
    Answered (if p then left else left') (if q then right else right')
      okAnswer errorAnswer := by
  subst hpq
  cases p with
  | true => exact hthen rfl
  | false => exact helse rfl

end Answers

theorem Accord.cases {left : EStateM.Result ε σ α}
    {right : EStateM.Result ε σ β} (h : Accord left right onOk onError) :
    (∃ a s b t, left = .ok a s ∧ right = .ok b t ∧ onOk a s b t) ∨
      ∃ e s f t, left = .error e s ∧ right = .error f t ∧ onError e s f t := by
  cases left with
  | ok a s =>
    cases right with
    | ok b t => exact Or.inl ⟨a, s, b, t, rfl, rfl, h⟩
    | error f t => exact h.elim
  | error e s =>
    cases right with
    | ok b t => exact h.elim
    | error f t => exact Or.inr ⟨e, s, f, t, rfl, rfl, h⟩

theorem Accord.mono {left : EStateM.Result ε σ α} {right : EStateM.Result ε σ β}
    {onOk' : α → σ → β → σ → Prop} {onError' : ε → σ → ε → σ → Prop}
    (h : Accord left right onOk onError)
    (hok : ∀ a s b t, onOk a s b t → onOk' a s b t)
    (herror : ∀ e s f t, onError e s f t → onError' e s f t) :
    Accord left right onOk' onError' := by
  rcases h.cases with ⟨a, s, b, t, rfl, rfl, h⟩ | ⟨e, s, f, t, rfl, rfl, h⟩
  · exact hok a s b t h
  · exact herror e s f t h

/-- What is known of two results together, and of each of them. -/
theorem Accord.and_ends {left : EStateM.Result ε σ α}
    {right : EStateM.Result ε σ β} {okLeft : α → σ → Prop}
    {okRight : β → σ → Prop} {errorLeft errorRight : ε → σ → Prop}
    (h : Accord left right onOk onError) (hleft : Ends left okLeft errorLeft)
    (hright : Ends right okRight errorRight) :
    Accord left right (fun a s b t => onOk a s b t ∧ okLeft a s ∧ okRight b t)
      fun e s f t => onError e s f t ∧ errorLeft e s ∧ errorRight f t := by
  rcases h.cases with ⟨a, s, b, t, rfl, rfl, h⟩ | ⟨e, s, f, t, rfl, rfl, h⟩
  · exact ⟨h, hleft, hright⟩
  · exact ⟨h, hleft, hright⟩

theorem Accord.bind {x : EStateM ε σ α'} {y : EStateM ε σ β'}
    {f : α' → EStateM ε σ α} {g : β' → EStateM ε σ β} {s t : σ}
    {onFirst : α' → σ → β' → σ → Prop} (h : Accord (x s) (y t) onFirst onError)
    (hfg : ∀ a s' b t', onFirst a s' b t' →
      Accord (f a s') (g b t') onOk onError) :
    Accord ((x >>= f) s) ((y >>= g) t) onOk onError := by
  rcases h.cases with ⟨a, s', b, t', hx, hy, h⟩ | ⟨e, s', e', t', hx, hy, h⟩
  · rw [bind_of_ok hx, bind_of_ok hy]
    exact hfg a s' b t' h
  · rw [bind_of_error hx, bind_of_error hy]
    exact h

/-- The first parts look something up. -/
theorem Accord.look {x : EStateM ε σ α'} {y : EStateM ε σ β'}
    {f : α' → EStateM ε σ α} {g : β' → EStateM ε σ β} {s t : σ}
    {found : α' → β' → Prop}
    (h : Accord (x s) (y t) (fun a s' b t' => s' = s ∧ t' = t ∧ found a b)
      onError) (hfg : ∀ a b, found a b → Accord (f a s) (g b t) onOk onError) :
    Accord ((x >>= f) s) ((y >>= g) t) onOk onError := by
  refine h.bind fun a s' b t' hfound => ?_
  obtain ⟨rfl, rfl, hfound⟩ := hfound
  exact hfg a b hfound

theorem modify_bind {f : σ → σ} {g : PUnit → EStateM ε σ α} {s : σ} :
    (modify f >>= g) s = g ⟨⟩ (f s) :=
  rfl

/-- Two branches on conditions that are equivalent. -/
theorem Accord.ite {p q : Prop} [Decidable p] [Decidable q]
    {x x' : EStateM ε σ α} {y y' : EStateM ε σ β} {s t : σ} (hpq : p ↔ q)
    (hthen : p → Accord (x s) (y t) onOk onError)
    (helse : ¬p → Accord (x' s) (y' t) onOk onError) :
    Accord ((if p then x else x') s) ((if q then y else y') t)
      onOk onError := by
  by_cases hp : p
  · rw [if_pos hp, if_pos (hpq.1 hp)]
    exact hthen hp
  · rw [if_neg hp, if_neg fun hq => hp (hpq.2 hq)]
    exact helse hp

end Results

theorem Context.accord_query {α β : Type} {c d : Context}
    {f : Context → Except RuntimeError α} {g : Context → Except RuntimeError β}
    {okAnswer : α → β → Prop}
    {onError : RuntimeError → Context → RuntimeError → Context → Prop}
    (h : Answered (f c) (g d) okAnswer fun e e' => onError e c e' d) :
    Accord (query f c) (query g d)
      (fun a c' b d' => c' = c ∧ d' = d ∧ okAnswer a b) onError := by
  simp only [query]
  rcases h.cases with ⟨a, b, hf, hg, h⟩ | ⟨e, e', hf, hg, h⟩
  · rw [hf, hg]
    exact ⟨rfl, rfl, h⟩
  · rw [hf, hg]
    exact h

/-! ## Arrays -/

section Arrays

variable {α β : Type} {related : α → β → Prop} {xs : Array α} {ys : Array β}

/-- What two arrays hold in one place is related. -/
def Pointwise (related : α → β → Prop) (xs : Array α) (ys : Array β) : Prop :=
  ∀ i : Nat, Option.Rel related xs[i]? ys[i]?

theorem exists_of_forall₂ {as : List α} {bs : List β}
    (h : List.Forall₂ related as bs) {a : α} (ha : a ∈ as) :
    ∃ b ∈ bs, related a b := by
  induction h with
  | nil => cases ha
  | cons hrelated _ ih =>
    rcases List.mem_cons.1 ha with rfl | ha
    · exact ⟨_, List.mem_cons_self, hrelated⟩
    · obtain ⟨b, hb, hab⟩ := ih ha
      exact ⟨b, List.mem_cons_of_mem _ hb, hab⟩

theorem exists_of_forall₂_flip {as : List α} {bs : List β}
    (h : List.Forall₂ related as bs) {b : β} (hb : b ∈ bs) :
    ∃ a ∈ as, related a b :=
  have hflip : List.Forall₂ (flip related) bs as := List.Forall₂.flip h
  exists_of_forall₂ hflip hb

theorem rel_getElem?_of_forall₂ {xs : List α} {ys : List β}
    (h : List.Forall₂ related xs ys) (i : Nat) :
    Option.Rel related xs[i]? ys[i]? := by
  induction h generalizing i with
  | nil => exact .none
  | cons hab _ ih =>
    cases i with
    | zero => exact .some hab
    | succ i => exact ih i

/-- Places are related if something that can be read off them is equal. -/
theorem rel_iff_map_eq {γ : Type} {f : α → γ} {g : β → γ}
    (hrelated : ∀ a b, related a b ↔ f a = g b) {x : Option α} {y : Option β} :
    Option.Rel related x y ↔ x.map f = y.map g := by
  constructor
  · intro h
    cases h with
    | none => rfl
    | some hab => exact congrArg some ((hrelated _ _).1 hab)
  · intro h
    cases x with
    | none =>
      cases y with
      | none => exact .none
      | some b => cases h
    | some a =>
      cases y with
      | none => cases h
      | some b => exact .some ((hrelated a b).2 (Option.some.inj h))

theorem rel_eq : Option.Rel (Eq : α → α → Prop) = Eq := by
  funext x y
  have hmap : Option.Rel Eq x y ↔ x.map id = y.map id :=
    rel_iff_map_eq fun _ _ => Iff.rfl
  rw [Option.map_id, id, id] at hmap
  exact propext hmap

theorem pointwise_iff_map_eq {γ : Type} {f : α → γ} {g : β → γ}
    (hrelated : ∀ a b, related a b ↔ f a = g b) :
    Pointwise related xs ys ↔ xs.map f = ys.map g := by
  have hplaces :
      Pointwise related xs ys ↔ ∀ i : Nat, (xs.map f)[i]? = (ys.map g)[i]? := by
    refine forall_congr' fun i => ?_
    rw [Array.getElem?_map, Array.getElem?_map]
    exact rel_iff_map_eq hrelated
  rw [hplaces]
  exact ⟨Array.ext_getElem?, fun heq i => by rw [heq]⟩

theorem pointwise_eq_iff {zs : Array α} : Pointwise Eq xs zs ↔ xs = zs := by
  have hmap : Pointwise Eq xs zs ↔ xs.map id = zs.map id :=
    pointwise_iff_map_eq fun _ _ => Iff.rfl
  rwa [Array.map_id, Array.map_id] at hmap

namespace Pointwise

theorem size_eq (h : Pointwise related xs ys) : xs.size = ys.size := by
  have hlt : ∀ i : Nat, i < xs.size ↔ i < ys.size := by
    intro i
    have hi := h i
    rw [← isSome_getElem? xs i, ← isSome_getElem? ys i]
    generalize xs[i]? = x at hi ⊢
    generalize ys[i]? = y at hi ⊢
    cases hi <;> rfl
  have hxs := hlt ys.size
  have hys := hlt xs.size
  omega

theorem mono {related' : α → β → Prop} (h : Pointwise related xs ys)
    (himp : ∀ a b, related a b → related' a b) : Pointwise related' xs ys := by
  intro i
  have hi := h i
  generalize xs[i]? = x at hi ⊢
  generalize ys[i]? = y at hi ⊢
  cases hi with
  | none => exact .none
  | some hab => exact .some (himp _ _ hab)

theorem back? (h : Pointwise related xs ys) :
    Option.Rel related xs.back? ys.back? := by
  rw [Array.back?_eq_getElem?, Array.back?_eq_getElem?, h.size_eq]
  exact h _

theorem push (h : Pointwise related xs ys) {a : α} {b : β} (hab : related a b) :
    Pointwise related (xs.push a) (ys.push b) := by
  intro i
  rw [Array.getElem?_push, Array.getElem?_push, h.size_eq]
  split
  · exact .some hab
  · exact h i

theorem pop (h : Pointwise related xs ys) :
    Pointwise related xs.pop ys.pop := by
  intro i
  rw [Array.getElem?_pop, Array.getElem?_pop, h.size_eq]
  split
  · exact h i
  · exact .none

theorem shrink (h : Pointwise related xs ys) (size : Nat) :
    Pointwise related (xs.shrink size) (ys.shrink size) := by
  intro i
  rw [← Array.getElem?_toList, ← Array.getElem?_toList, Array.toList_shrink,
    Array.toList_shrink, List.getElem?_take, List.getElem?_take,
    Array.getElem?_toList, Array.getElem?_toList]
  split
  · exact h i
  · exact .none

theorem append {xs' : Array α} {ys' : Array β} (h : Pointwise related xs ys)
    (h' : Pointwise related xs' ys') :
    Pointwise related (xs ++ xs') (ys ++ ys') := by
  intro i
  rw [Array.getElem?_append, Array.getElem?_append, h.size_eq]
  split
  · exact h i
  · exact h' _

theorem replicate (n : Nat) {a : α} {b : β} (hab : related a b) :
    Pointwise related (Array.replicate n a) (Array.replicate n b) := by
  intro i
  rw [Array.getElem?_replicate, Array.getElem?_replicate]
  split
  · exact .some hab
  · exact .none

theorem setIfInBounds (h : Pointwise related xs ys) (slot : Nat) {a : α} {b : β}
    (hab : related a b) :
    Pointwise related (xs.setIfInBounds slot a) (ys.setIfInBounds slot b) := by
  intro i
  rw [Array.getElem?_setIfInBounds, Array.getElem?_setIfInBounds, h.size_eq]
  split
  · split
    · exact .some hab
    · exact .none
  · exact h i

theorem modify (h : Pointwise related xs ys) (slot : Nat)
    {f : α → α} {g : β → β} (hfg : ∀ a b, related a b → related (f a) (g b)) :
    Pointwise related (xs.modify slot f) (ys.modify slot g) := by
  intro i
  have hi := h i
  rw [Array.getElem?_modify, Array.getElem?_modify]
  generalize xs[i]? = x at hi ⊢
  generalize ys[i]? = y at hi ⊢
  split
  · cases hi with
    | none => exact .none
    | some hab => exact .some (hfg _ _ hab)
  · exact hi

theorem getD (h : Pointwise related xs ys) (slot : Nat) {a : α} {b : β}
    (hab : related a b) :
    related (xs.getD slot a) (ys.getD slot b) := by
  have hslot := h slot
  rw [Array.getD_eq_getD_getElem?, Array.getD_eq_getD_getElem?]
  generalize xs[slot]? = x at hslot ⊢
  generalize ys[slot]? = y at hslot ⊢
  cases hslot with
  | none => exact hab
  | some hab => exact hab

theorem forall₂ (h : Pointwise related xs ys) :
    List.Forall₂ related xs.toList ys.toList := by
  have hlist : ∀ (xs : List α) (ys : List β),
      (∀ i : Nat, Option.Rel related xs[i]? ys[i]?) →
      List.Forall₂ related xs ys := by
    intro xs
    induction xs with
    | nil =>
      intro ys h
      cases ys with
      | nil => exact .nil
      | cons b ys => cases h 0
    | cons a xs ih =>
      intro ys h
      cases ys with
      | nil => cases h 0
      | cons b ys =>
        have hhead := h 0
        rw [List.getElem?_cons_zero, List.getElem?_cons_zero] at hhead
        cases hhead with
        | some hab => exact .cons hab (ih ys fun i => h (i + 1))
  refine hlist _ _ fun i => ?_
  rw [Array.getElem?_toList, Array.getElem?_toList]
  exact h i

theorem of_forall₂ {xs : List α} {ys : List β}
    (h : List.Forall₂ related xs ys) :
    Pointwise related xs.toArray ys.toArray := by
  intro i
  rw [List.getElem?_toArray, List.getElem?_toArray]
  exact rel_getElem?_of_forall₂ h i

theorem self {related : α → α → Prop} (h : ∀ a ∈ xs.toList, related a a) :
    Pointwise related xs xs := by
  intro i
  cases hx : xs[i]? with
  | none => exact .none
  | some a =>
    exact .some (h a (Array.mem_toList_iff.2 (Array.mem_of_getElem? hx)))

/-- What is known of every element of the first array is known of its
partner. -/
theorem and_left {p : α → Prop} (h : Pointwise related xs ys)
    (hp : ∀ a ∈ xs.toList, p a) :
    Pointwise (fun a b => related a b ∧ p a) xs ys := by
  intro i
  have hi := h i
  have hmem : ∀ a, xs[i]? = some a → p a := fun a ha =>
    hp a (Array.mem_toList_iff.2 (Array.mem_of_getElem? ha))
  generalize xs[i]? = x at hi hmem ⊢
  generalize ys[i]? = y at hi ⊢
  cases hi with
  | none => exact .none
  | some hab => exact .some ⟨hab, hmem _ rfl⟩

theorem extract (h : Pointwise related xs ys) (start : Nat) :
    Pointwise related (xs.extract start) (ys.extract start) := by
  intro i
  rw [Array.getElem?_extract, Array.getElem?_extract, h.size_eq]
  split
  · exact h _
  · exact .none

end Pointwise

end Arrays

end Isolate
