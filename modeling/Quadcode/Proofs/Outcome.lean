import Mathlib.Data.List.Forall2
import Quadcode.Failure

/-!
# Stages that succeed

A stage made of steps succeeds when each of its steps does.
-/

namespace Quadcode

open List

variable {ε α β σ : Type} {f : α → Except ε β} {x : Except ε α} {items xs : List α} {rel : α → β → Prop} {e : ε} {b : β}
  {step : σ → α → Except ε σ} {results ys : List β} {a : α} {s s' : σ}

@[simp]
theorem bind_eq_ok : x >>= f = .ok b ↔ ∃ a, x = .ok a ∧ f a = .ok b := by
  cases x <;> simp [bind, Except.bind]

theorem bind_eq_error : x >>= f = .error e ↔ x = .error e ∨ ∃ a, x = .ok a ∧ f a = .error e := by
  cases x <;> simp [bind, Except.bind]

@[simp]
theorem pure_eq_ok {b : α} : (pure a : Except ε α) = .ok b ↔ a = b := by
  simp [pure, Except.pure]

@[simp]
theorem map_eq_ok {f : α → β} : f <$> x = .ok b ↔ ∃ a, x = .ok a ∧ f a = b := by
  cases x <;> simp [Functor.map, Except.map]

@[simp]
theorem orFault_eq_ok {o : Option α} : orFault o = .ok a ↔ o = some a := by
  cases o <;> simp [orFault]

theorem toOption_map_eq_some {f : α → β} : x.toOption.map f = some b ↔ ∃ a, x = .ok a ∧ f a = b := by
  cases x <;> simp [Except.toOption]

/-- Fails in one of some ways, if at all. -/
def FailsOnly (soft : ε → Prop) (x : Except ε α) : Prop := ∀ e, x = .error e → soft e

section FailsOnly

variable {soft : ε → Prop}

@[simp]
theorem FailsOnly.ok (a : α) : FailsOnly soft (.ok a) := nofun

@[simp]
theorem FailsOnly.pure (a : α) : FailsOnly soft (pure a) := nofun

@[simp]
theorem failsOnly_error : FailsOnly soft (.error e : Except ε α) ↔ soft e := by simp [FailsOnly]

@[simp]
theorem failsOnly_bind : FailsOnly soft (x >>= f) ↔ FailsOnly soft x ∧ ∀ a, x = .ok a → FailsOnly soft (f a) := by
  cases x <;> simp [bind, Except.bind]

theorem FailsOnly.bind (first : FailsOnly soft x) (rest : ∀ a, x = .ok a → FailsOnly soft (f a)) :
    FailsOnly soft (x >>= f) :=
  failsOnly_bind.2 ⟨first, rest⟩

end FailsOnly

/-- What each step of a loop preserves, a finished loop has preserved; `holds` may speak of the items
that were taken. -/
theorem foldlM_ok (holds : List α → σ → Prop) (start : holds [] s)
    (steps : ∀ done a rest s s', items = done ++ a :: rest → holds done s → step s a = .ok s' → holds (done ++ [a]) s')
    (run : items.foldlM step s = .ok s') : holds items s' := by
  suffices general : ∀ rest done s, items = done ++ rest → holds done s →
      rest.foldlM step s = .ok s' → holds items s' from general items [] s rfl start run
  intro rest
  induction rest with
  | nil =>
    intro done s split before run
    rw [foldlM_nil, pure_eq_ok] at run
    rw [split, append_nil, ← run]
    exact before
  | cons a rest ih =>
    intro done s split before run
    rw [foldlM_cons, bind_eq_ok] at run
    obtain ⟨t, first, others⟩ := run
    exact ih (done ++ [a]) t (by simp [split]) (steps done a rest s t split before first) others

/-- A loop whose steps all succeed succeeds. -/
theorem foldlM_succeeds (holds : List α → σ → Prop) (start : holds [] s)
    (steps : ∀ done a rest s, items = done ++ a :: rest → holds done s →
      ∃ s', step s a = .ok s' ∧ holds (done ++ [a]) s') :
    ∃ s', items.foldlM step s = .ok s' ∧ holds items s' := by
  suffices general : ∀ rest done s, items = done ++ rest → holds done s →
      ∃ s', rest.foldlM step s = .ok s' ∧ holds items s' from general items [] s rfl start
  intro rest
  induction rest with
  | nil =>
    intro done s split before
    exact ⟨s, rfl, by rwa [split, append_nil]⟩
  | cons a rest ih =>
    intro done s split before
    obtain ⟨t, first, after⟩ := steps done a rest s split before
    obtain ⟨s', others, result⟩ := ih (done ++ [a]) t (by simp [split]) after
    exact ⟨s', by rw [foldlM_cons, first]; exact others, result⟩

theorem mapM_eq_ok : items.mapM f = .ok results ↔ List.Forall₂ (fun a b => f a = .ok b) items results := by
  induction items generalizing results with
  | nil => simp [eq_comm (b := results)]
  | cons a rest ih =>
    simp only [mapM_cons, bind_eq_ok, pure_eq_ok, ih, forall₂_cons_left_iff]
    grind

/-- A list whose items all go through goes through. -/
theorem mapM_succeeds (each : ∀ a ∈ items, ∃ b, f a = .ok b ∧ rel a b) :
    ∃ results, items.mapM f = .ok results ∧ List.Forall₂ rel items results := by
  induction items with
  | nil => exact ⟨[], rfl, .nil⟩
  | cons a rest ih =>
    obtain ⟨⟨b, done, here⟩, others⟩ := forall_mem_cons.1 each
    obtain ⟨results, mapped, later⟩ := ih others
    exact ⟨b :: results, by simp [mapM_cons, done, mapped], .cons here later⟩

theorem exists_of_forall₂ (related : List.Forall₂ rel xs ys) (member : a ∈ xs) : ∃ b ∈ ys, rel a b := by
  induction related with
  | nil => cases member
  | cons here _ ih =>
    rcases mem_cons.1 member with rfl | later
    · exact ⟨_, mem_cons_self, here⟩
    · obtain ⟨b, found, holds⟩ := ih later
      exact ⟨b, .tail _ found, holds⟩

theorem mem_of_mapM (run : items.mapM f = .ok results) (member : b ∈ results) : ∃ a ∈ items, f a = .ok b :=
  exists_of_forall₂ (List.Forall₂.flip (mapM_eq_ok.1 run)) member

/-- Items that are related one by one through those of a third list. -/
theorem forall₂_trans {γ : Type} {rel' : β → γ → Prop} {rel'' : α → γ → Prop}
    (compose : ∀ a b c, rel a b → rel' b c → rel'' a c) {zs : List γ} (first : List.Forall₂ rel xs ys)
    (second : List.Forall₂ rel' ys zs) : List.Forall₂ rel'' xs zs := by
  induction first generalizing zs with
  | nil =>
    cases second
    exact .nil
  | cons here _ ih =>
    cases second with
    | cons here' later => exact .cons (compose _ _ _ here here') (ih later)

section States

variable {x : ExceptT ε (StateM σ) α} {f : α → ExceptT ε (StateM σ) β} {t : σ} {c : α}

/-- What a stage with a state makes of it. -/
def outcome (x : ExceptT ε (StateM σ) α) (s : σ) : Except ε α × σ := x.run.run s

/-- A stage comes to a result and leaves its state behind. -/
def Gives (x : ExceptT ε (StateM σ) α) (s : σ) (a : α) (s' : σ) : Prop := outcome x s = (.ok a, s')

/-- A stage has one result. -/
theorem Gives.unique (first : Gives x s a s') (second : Gives x s c t) : a = c ∧ s' = t := by
  have same := first.symm.trans second
  simpa using same

theorem outcome_bind_error (ran : outcome x s = (.error e, t)) : outcome (x >>= f) s = (.error e, t) := by
  unfold outcome at *
  rw [ExceptT.run_bind, StateT.run_bind, ran]
  rfl

theorem outcome_bind_ok (ran : outcome x s = (.ok a, t)) : outcome (x >>= f) s = outcome (f a) t := by
  unfold outcome at *
  rw [ExceptT.run_bind, StateT.run_bind, ran]
  rfl

/-- A stage that succeeds ends where it ends. -/
theorem gives_of_ok (ran : (outcome x s).1 = .ok a) : Gives x s a (outcome x s).2 := Prod.ext ran rfl

@[simp]
theorem gives_bind : Gives (x >>= f) s b s' ↔ ∃ a t, Gives x s a t ∧ Gives (f a) t b s' := by
  unfold Gives
  rcases ran : outcome x s with ⟨e | a, t⟩
  · simp [outcome_bind_error ran]
  · simp [outcome_bind_ok ran, and_assoc]

@[simp]
theorem gives_pure : Gives (pure a : ExceptT ε (StateM σ) α) s c s' ↔ c = a ∧ s' = s := by
  have ran : outcome (pure a : ExceptT ε (StateM σ) α) s = (.ok a, s) := rfl
  simp [Gives, ran, eq_comm]

@[simp]
theorem not_gives_throw : ¬Gives (throw e : ExceptT ε (StateM σ) α) s a s' := by
  have ran : outcome (throw e : ExceptT ε (StateM σ) α) s = (.error e, s) := rfl
  simp [Gives, ran]

@[simp]
theorem gives_get : Gives (get : ExceptT ε (StateM σ) σ) s t s' ↔ t = s ∧ s' = s := by
  have ran : outcome (get : ExceptT ε (StateM σ) σ) s = (.ok s, s) := rfl
  simp [Gives, ran, eq_comm]

@[simp]
theorem gives_modify {f : σ → σ} {u : Unit} : Gives (modify f : ExceptT ε (StateM σ) Unit) s u s' ↔ s' = f s := by
  have ran : outcome (modify f : ExceptT ε (StateM σ) Unit) s = (.ok (), f s) := rfl
  simp [Gives, ran, eq_comm]

/-- A stage comes to a result such that `post`, or fails in a state such that `failed`. -/
def Ensures (x : ExceptT ε (StateM σ) α) (s : σ) (post : α → σ → Prop) (failed : σ → Prop) : Prop :=
  match outcome x s with
  | (.ok a, s') => post a s'
  | (.error _, s') => failed s'

variable {post : α → σ → Prop} {after : β → σ → Prop} {failed : σ → Prop}

@[simp]
theorem ensures_bind :
    Ensures (x >>= f) s after failed ↔ Ensures x s (fun a t => Ensures (f a) t after failed) failed := by
  unfold Ensures
  rcases ran : outcome x s with ⟨e | a, t⟩
  · rw [outcome_bind_error ran]
  · rw [outcome_bind_ok ran]

@[simp]
theorem ensures_pure : Ensures (pure a : ExceptT ε (StateM σ) α) s post failed ↔ post a s := .rfl

@[simp]
theorem ensures_throw : Ensures (throw e : ExceptT ε (StateM σ) α) s post failed ↔ failed s := .rfl

@[simp]
theorem ensures_get {post : σ → σ → Prop} : Ensures (get : ExceptT ε (StateM σ) σ) s post failed ↔ post s s := .rfl

@[simp]
theorem ensures_modify {f : σ → σ} {post : Unit → σ → Prop} :
    Ensures (modify f : ExceptT ε (StateM σ) Unit) s post failed ↔ post () (f s) := .rfl

theorem Ensures.mono {post' : α → σ → Prop} {failed' : σ → Prop} (ensures : Ensures x s post failed)
    (weaker : ∀ a t, post a t → post' a t) (weaker' : ∀ t, failed t → failed' t) : Ensures x s post' failed' := by
  unfold Ensures at *
  split <;> rename_i ran <;> rw [ran] at ensures
  · exact weaker _ _ ensures
  · exact weaker' _ ensures

theorem Ensures.of_gives (ensures : Ensures x s post failed) (given : Gives x s a s') : post a s' := by
  unfold Ensures at ensures
  unfold Gives at given
  rwa [given] at ensures

/-- What holds at either end holds in the end. -/
theorem Ensures.outcome {holds : σ → Prop} (ensures : Ensures x s (fun _ => holds) holds) :
    holds (Quadcode.outcome x s).2 := by
  unfold Ensures at ensures
  rcases ran : Quadcode.outcome x s with ⟨e | a, t⟩
  · rwa [ran] at ensures
  · rwa [ran] at ensures

theorem Ensures.bind (first : Ensures x s post failed) (rest : ∀ a t, post a t → Ensures (f a) t after failed) :
    Ensures (x >>= f) s after failed :=
  ensures_bind.2 (first.mono rest fun _ => id)

end States

end Quadcode
