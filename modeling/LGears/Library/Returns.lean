import Mathlib.Tactic.Common

/- Computations with a state that may fail, read as relations: which result and which
   state a computation returns. -/
namespace StateExcept

variable {σ ε α β : Type} {s s' : σ}

/-- Started in s the computation returns a and leaves s'. -/
def Returns (c : StateT σ (Except ε) α) (s : σ) (a : α) (s' : σ) : Prop := c s = .ok (a, s')

theorem pure_apply (a : α) (s : σ) : (pure a : StateT σ (Except ε) α) s = .ok (a, s) := rfl

@[simp] theorem returns_pure {a b : α} :
    Returns (pure a : StateT σ (Except ε) α) s b s' ↔ a = b ∧ s = s' := by
  rw [Returns, pure_apply, Except.ok.injEq, Prod.mk.injEq]

@[simp] theorem returns_bind {c : StateT σ (Except ε) α} {f : α → StateT σ (Except ε) β} {b : β} :
    Returns (c >>= f) s b s' ↔ ∃ a t, Returns c s a t ∧ Returns (f a) t b s' := by
  simp only [Returns, bind, StateT.bind, Except.bind]
  cases c s with
  | error e => simp
  | ok p => simp [Prod.ext_iff]

@[simp] theorem returns_map {c : StateT σ (Except ε) α} {f : α → β} {b : β} :
    Returns (f <$> c) s b s' ↔ ∃ a, Returns c s a s' ∧ f a = b := by
  simp only [Returns, Functor.map, StateT.map, bind, Except.bind]
  cases c s with
  | error e => simp
  | ok p => simp [pure, Except.pure, Prod.ext_iff, and_comm]

theorem Returns.unique {c : StateT σ (Except ε) α} {a b : α} {t : σ} (first : Returns c s a s')
    (second : Returns c s b t) : a = b ∧ s' = t := by
  rw [Returns] at first second
  rw [first] at second
  simpa using second

theorem returns_after {c : StateT σ (Except ε) α} {f : α → StateT σ (Except ε) β} {a : α} {b : β}
    {t : σ} (first : Returns c s a t) : Returns (c >>= f) s b s' ↔ Returns (f a) t b s' := by
  rw [returns_bind]
  constructor
  · intro both
    obtain ⟨a', t', first', rest⟩ := both
    obtain ⟨rfl, rfl⟩ := first.unique first'
    exact rest
  · intro rest
    exact ⟨a, t, first, rest⟩

/-- Started in s the computation returns with Q or fails with E. -/
def Ends (c : StateT σ (Except ε) α) (s : σ) (Q : α → σ → Prop) (E : ε → Prop) : Prop :=
  match c s with
  | .ok (a, s') => Q a s'
  | .error e => E e

section ends
variable {Q : α → σ → Prop} {E : ε → Prop}

@[simp] theorem ends_pure {a : α} : Ends (pure a : StateT σ (Except ε) α) s Q E ↔ Q a s := Iff.rfl

@[simp] theorem ends_get {Q : σ → σ → Prop} :
    Ends (get : StateT σ (Except ε) σ) s Q E ↔ Q s s := Iff.rfl

theorem ends_set {t : σ} {Q : PUnit → σ → Prop} :
    Ends (set t : StateT σ (Except ε) PUnit) s Q E ↔ Q ⟨⟩ t := Iff.rfl

theorem ends_modify {f : σ → σ} {Q : PUnit → σ → Prop} :
    Ends (modify f : StateT σ (Except ε) PUnit) s Q E ↔ Q ⟨⟩ (f s) := Iff.rfl

theorem ends_throw {e : ε} : Ends (throw e : StateT σ (Except ε) α) s Q E ↔ E e := Iff.rfl

@[simp] theorem ends_bind {c : StateT σ (Except ε) α} {f : α → StateT σ (Except ε) β}
    {Q : β → σ → Prop} :
    Ends (c >>= f) s Q E ↔ Ends c s (fun a t => Ends (f a) t Q E) E := by
  simp only [Ends, bind, StateT.bind, Except.bind]
  cases c s <;> rfl

@[simp] theorem ends_map {c : StateT σ (Except ε) α} {f : α → β} {Q : β → σ → Prop} :
    Ends (f <$> c) s Q E ↔ Ends c s (fun a => Q (f a)) E := by
  rw [← bind_pure_comp]
  simp only [ends_bind, ends_pure]

theorem ends_ite {p : Prop} [Decidable p] {c d : StateT σ (Except ε) α} :
    Ends (if p then c else d) s Q E ↔ (p → Ends c s Q E) ∧ (¬ p → Ends d s Q E) := by
  by_cases h : p <;> simp [h]

theorem Ends.mono {c : StateT σ (Except ε) α} {R : α → σ → Prop} {F : ε → Prop}
    (ends : Ends c s Q E) (post : ∀ a t, Q a t → R a t) (fail : ∀ e, E e → F e) :
    Ends c s R F := by
  unfold Ends at ends ⊢
  cases h : c s with
  | error e =>
    rw [h] at ends
    exact fail e ends
  | ok r =>
    rw [h] at ends
    exact post r.1 r.2 ends

theorem Ends.post {c : StateT σ (Except ε) α} {R : α → σ → Prop} (ends : Ends c s Q E)
    (post : ∀ a t, Q a t → R a t) : Ends c s R E :=
  ends.mono post fun _ => id

theorem Ends.and {c : StateT σ (Except ε) α} {R : α → σ → Prop} {F : ε → Prop}
    (first : Ends c s Q E) (second : Ends c s R F) :
    Ends c s (fun a t => Q a t ∧ R a t) fun e => E e ∧ F e := by
  unfold Ends at *
  cases h : c s with
  | error e =>
    rw [h] at first second
    exact ⟨first, second⟩
  | ok r =>
    rw [h] at first second
    exact ⟨first, second⟩

theorem ends_last {c : StateT σ (Except ε) α} {f : α → StateT σ (Except ε) β} {Q : β → σ → Prop}
    (last : ∀ a t, Ends (f a) t Q fun _ => True) : Ends (c >>= f) s Q fun _ => True := by
  rw [ends_bind]
  unfold Ends
  cases c s with
  | error e => trivial
  | ok r => exact last r.1 r.2

theorem Ends.returned {c : StateT σ (Except ε) α} {a : α} (ends : Ends c s Q E)
    (result : c s = .ok (a, s')) : Q a s' := by
  rw [Ends, result] at ends
  exact ends

theorem Ends.failed {c : StateT σ (Except ε) α} {e : ε} (ends : Ends c s Q E)
    (result : c s = .error e) : E e := by
  rw [Ends, result] at ends
  exact ends

end ends

/-- Wherever it is started with I the computation leaves I, or fails with E. -/
def Keeps (I : σ → Prop) (E : ε → Prop) (c : StateT σ (Except ε) α) : Prop :=
  ∀ s, I s → Ends c s (fun _ => I) E

section keeps
variable {I : σ → Prop} {E : ε → Prop}

theorem keeps_pure (a : α) : Keeps I E (pure a : StateT σ (Except ε) α) := fun _ => id

theorem keeps_bind {c : StateT σ (Except ε) α} {f : α → StateT σ (Except ε) β}
    (first : Keeps I E c) (rest : ∀ a, Keeps I E (f a)) : Keeps I E (c >>= f) := by
  intro s holds
  rw [ends_bind]
  exact (first s holds).post fun a t => rest a t

theorem keeps_get {f : σ → StateT σ (Except ε) β}
    (rest : ∀ s, I s → Ends (f s) s (fun _ => I) E) : Keeps I E (get >>= f) := by
  intro s holds
  rw [ends_bind, ends_get]
  exact rest s holds

theorem keeps_ite {p : Prop} [Decidable p] {c d : StateT σ (Except ε) α} (yes : p → Keeps I E c)
    (no : ¬ p → Keeps I E d) : Keeps I E (if p then c else d) := by
  by_cases h : p
  · rw [if_pos h]
    exact yes h
  · rw [if_neg h]
    exact no h

end keeps

/-- What the first computation returns the second one returns as well. -/
def Below (c d : StateT σ (Except ε) α) : Prop :=
  ∀ s a s', Returns c s a s' → Returns d s a s'

section below
variable {c d : StateT σ (Except ε) α} {f g : α → StateT σ (Except ε) β}

theorem Below.refl (c : StateT σ (Except ε) α) : Below c c := fun _ _ _ => id

theorem Below.trans {e : StateT σ (Except ε) α} (first : Below c d) (second : Below d e) :
    Below c e := fun s a s' result => second s a s' (first s a s' result)

theorem Below.bind (first : Below c d) (rest : ∀ a, Below (f a) (g a)) :
    Below (c >>= f) (d >>= g) := by
  intro s b s' result
  rw [returns_bind] at result ⊢
  obtain ⟨a, t, here, there⟩ := result
  exact ⟨a, t, first s a t here, rest a t b s' there⟩

theorem Below.andThen (rest : ∀ a, Below (f a) (g a)) : Below (c >>= f) (c >>= g) :=
  (Below.refl c).bind rest

theorem Below.mapM {γ : Type} {f g : γ → StateT σ (Except ε) β} (each : ∀ x, Below (f x) (g x))
    (xs : List γ) : Below (xs.mapM f) (xs.mapM g) := by
  induction xs with
  | nil => exact Below.refl _
  | cons x xs ih =>
    rw [List.mapM_cons, List.mapM_cons]
    apply (each x).bind
    intro a
    apply ih.bind
    intro as
    exact Below.refl _

end below
theorem except_bind_ok {x : Except ε α} {f : α → Except ε β} {b : β} :
    x >>= f = .ok b ↔ ∃ a, x = .ok a ∧ f a = .ok b := by
  cases x <;> simp [bind, Except.bind]

theorem except_pure_ok {a b : α} : (pure a : Except ε α) = .ok b ↔ a = b := by
  simp [pure, Except.pure]

end StateExcept
