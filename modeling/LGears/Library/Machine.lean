import Mathlib.Data.List.Basic
import Mathlib.Tactic.Common

/- Deterministic machines, and interpreters with fuel that such a machine refines.
   Nothing here is about a particular language. -/
namespace Machine

inductive Next (C R : Type) where
  | next (c : C)
  | halt (r : R)
  | stuck

inductive Outcome (A : Type) where
  | ok (a : A)
  | timeout
  | stuck
  deriving DecidableEq, Repr

namespace Outcome
variable {A B : Type}

def bind (o : Outcome A) (f : A → Outcome B) : Outcome B :=
  match o with
  | ok a => f a
  | timeout => timeout
  | stuck => stuck

instance : Monad Outcome where
  pure := ok
  bind := bind

def ofOption : Option A → Outcome A
  | some a => ok a
  | none => stuck

@[simp] theorem pure_eq (a : A) : (pure a : Outcome A) = ok a := rfl
@[simp] theorem ok_bind (a : A) (f : A → Outcome B) : (ok a >>= f) = f a := rfl
@[simp] theorem timeout_bind (f : A → Outcome B) : ((timeout : Outcome A) >>= f) = timeout := rfl
@[simp] theorem stuck_bind (f : A → Outcome B) : ((stuck : Outcome A) >>= f) = stuck := rfl
@[simp] theorem ofOption_some (a : A) : ofOption (some a) = ok a := rfl
@[simp] theorem ofOption_none : ofOption (none : Option A) = stuck := rfl

theorem bind_ok (o : Outcome A) : (o >>= fun a => ok a) = o := by
  cases o <;> rfl

end Outcome

theorem bind_ok_iff {A B : Type} {o : Outcome A} {f : A → Outcome B} {b : B} :
    (o >>= f) = .ok b ↔ ∃ a, o = .ok a ∧ f a = .ok b := by
  cases o with
  | ok a => simp
  | timeout | stuck => simp

theorem ofOption_ok_iff {A : Type} {o : Option A} {a : A} :
    Outcome.ofOption o = .ok a ↔ o = some a := by
  cases o with
  | none => simp
  | some b => simp

variable {C R : Type} (step : C → Next C R)

/-- Exactly n steps. -/
inductive Steps : C → Nat → C → Prop where
  | zero (c : C) : Steps c 0 c
  | succ {c d e : C} {n : Nat} (first : step c = .next d) (rest : Steps d n e) :
      Steps c (n + 1) e

def Reaches (c d : C) : Prop := ∃ n, Steps step c n d

def Halts (c : C) (r : R) : Prop := ∃ d, Reaches step c d ∧ step d = .halt r

variable {step}

theorem Steps.trans {c d e : C} {m n : Nat} (first : Steps step c m d)
    (second : Steps step d n e) : Steps step c (m + n) e := by
  induction first with
  | zero => simpa using second
  | @succ c _ _ k one _ ih =>
    rw [Nat.add_right_comm]
    exact .succ one (ih second)

theorem Steps.one {c d : C} (h : step c = .next d) : Steps step c 1 d := .succ h (.zero d)

theorem Reaches.refl (c : C) : Reaches step c c := ⟨0, .zero c⟩

theorem Reaches.one {c d : C} (h : step c = .next d) : Reaches step c d := ⟨1, .one h⟩

theorem Reaches.trans {c d e : C} (first : Reaches step c d) (second : Reaches step d e) :
    Reaches step c e := by
  obtain ⟨m, hm⟩ := first
  obtain ⟨n, hn⟩ := second
  exact ⟨m + n, hm.trans hn⟩

theorem Reaches.head {c d e : C} (h : step c = .next d) (rest : Reaches step d e) :
    Reaches step c e := (Reaches.one h).trans rest

theorem Reaches.keeps {I G : C → Prop} (one : ∀ c d, I c → G c → step c = .next d → I d)
    {c d : C} (run : Reaches step c d) (guarded : ∀ e, Reaches step c e → G e) (start : I c) :
    I d := by
  obtain ⟨n, steps⟩ := run
  induction steps with
  | zero => exact start
  | succ first _ ih =>
    apply ih
    · intro e rest
      exact guarded e (.head first rest)
    · exact one _ _ start (guarded _ (.refl _)) first

theorem Steps.linear {c d e : C} {m n : Nat} (long : Steps step c m d)
    (short : Steps step c n e) (le : n ≤ m) : Steps step e (m - n) d := by
  induction short generalizing m with
  | zero => simpa using long
  | succ first _ ih =>
    cases long with
    | zero => omega
    | succ first' rest' =>
      rw [first] at first'
      cases first'
      have := ih rest' (by omega)
      rwa [Nat.add_sub_add_right]

theorem Steps.of_final {c d : C} {n : Nat} (run : Steps step c n d)
    (final : ∀ e, step c ≠ .next e) : n = 0 ∧ d = c := by
  cases run with
  | zero => exact ⟨rfl, rfl⟩
  | succ first _ => exact absurd first (final _)

theorem Steps.to_final {c d e : C} {m n : Nat} (toEnd : Steps step c m d)
    (final : ∀ f, step d ≠ .next f) (other : Steps step c n e) :
    n ≤ m ∧ Steps step e (m - n) d := by
  by_cases le : n ≤ m
  · exact ⟨le, toEnd.linear other le⟩
  · have after := other.linear toEnd (by omega)
    have := (after.of_final final).1
    omega

theorem Halts.unique {c : C} {r s : R} (hr : Halts step c r) (hs : Halts step c s) : r = s := by
  obtain ⟨d, ⟨m, hd⟩, endD⟩ := hr
  obtain ⟨e, ⟨n, he⟩, endE⟩ := hs
  obtain ⟨le, rest⟩ := hd.to_final (by simp [endD]) he
  obtain ⟨zero, same⟩ := rest.of_final (by simp [endE])
  subst same
  simpa [endD] using endE

theorem Halts.here {c : C} {r : R} (ending : step c = .halt r) : Halts step c r :=
  ⟨c, .refl c, ending⟩

theorem Halts.after {c d : C} {r : R} (halts : Halts step d r) (reach : Reaches step c d) :
    Halts step c r := by
  obtain ⟨e, run, ending⟩ := halts
  exact ⟨e, reach.trans run, ending⟩

theorem stuck_not_halts {c : C} {r : R} (h : step c = .stuck) : ¬ Halts step c r := by
  rintro ⟨d, ⟨n, run⟩, ending⟩
  obtain ⟨_, rfl⟩ := run.of_final (by simp [h])
  simp [h] at ending

/-- One run of the interpreter against the machine: a result is matched by a state in Q,
   running out of fuel n by at least n steps, and an error by an error of the machine. -/
def Refines (step : C → Next C R) (bad : C → Prop) {A : Type} (n : Nat)
    (o : Outcome A) (c : C) (Q : A → C → Prop) : Prop :=
  match o with
  | .ok a => ∃ d, Reaches step c d ∧ Q a d
  | .timeout => ∃ k d, n ≤ k ∧ Steps step c k d
  | .stuck => ∃ d, Reaches step c d ∧ bad d

namespace Refines
variable {bad : C → Prop} {A B : Type} {n : Nat}

theorem ok {a : A} {c : C} {Q : A → C → Prop} (h : Q a c) :
    Refines step bad n (.ok a) c Q := ⟨c, .refl c, h⟩

theorem error {c : C} {Q : A → C → Prop} (h : bad c) :
    Refines step bad n (.stuck : Outcome A) c Q := ⟨c, .refl c, h⟩

theorem after {o : Outcome A} {c d : C} {Q : A → C → Prop} (first : Reaches step c d)
    (h : Refines step bad n o d Q) : Refines step bad n o c Q := by
  match o with
  | .ok a =>
    obtain ⟨e, he, hQ⟩ := h
    exact ⟨e, first.trans he, hQ⟩
  | .timeout =>
    obtain ⟨k, e, le, he⟩ := h
    obtain ⟨m, hm⟩ := first
    exact ⟨m + k, e, by omega, hm.trans he⟩
  | .stuck =>
    obtain ⟨e, he, hbad⟩ := h
    exact ⟨e, first.trans he, hbad⟩

theorem tick {o : Outcome A} {c d : C} {Q : A → C → Prop} (first : step c = .next d)
    (h : Refines step bad n o d Q) : Refines step bad (n + 1) o c Q := by
  match o with
  | .timeout =>
    obtain ⟨k, e, le, he⟩ := h
    exact ⟨k + 1, e, by omega, .succ first he⟩
  | .ok _ | .stuck => exact after (.one first) h

theorem mono {o : Outcome A} {c : C} {Q Q' : A → C → Prop}
    (h : Refines step bad n o c Q) (imp : ∀ a d, Q a d → Q' a d) :
    Refines step bad n o c Q' := by
  match o with
  | .ok a =>
    obtain ⟨d, hd, hQ⟩ := h
    exact ⟨d, hd, imp a d hQ⟩
  | .timeout | .stuck => exact h

theorem traced {o : Outcome A} {c : C} {Q : A → C → Prop} (h : Refines step bad n o c Q) :
    Refines step bad n o c fun a d => o = .ok a ∧ Q a d := by
  match o with
  | .ok a =>
    obtain ⟨d, hd, hQ⟩ := h
    exact ⟨d, hd, rfl, hQ⟩
  | .timeout | .stuck => exact h

theorem bind {o : Outcome A} {f : A → Outcome B} {c : C} {Q : A → C → Prop}
    {Q' : B → C → Prop} (h : Refines step bad n o c Q)
    (rest : ∀ a d, Q a d → Refines step bad n (f a) d Q') :
    Refines step bad n (o >>= f) c Q' := by
  match o with
  | .ok a =>
    obtain ⟨d, hd, hQ⟩ := h
    exact after hd (rest a d hQ)
  | .timeout | .stuck => exact h

end Refines

theorem adequacy {A : Type} {run : Nat → Outcome A} {c : C} {bad : C → Prop} {T : A → R → Prop}
    {Q : A → C → Prop}
    (sim : ∀ n, Refines step bad n (run n) c Q)
    (final : ∀ a d, Q a d → ∃ r, step d = .halt r ∧ T a r) :
    ∀ n a, run n = .ok a → ∃ r, Halts step c r ∧ T a r := by
  intro n a ran
  have h := sim n
  rw [ran] at h
  obtain ⟨d, hd, hQ⟩ := h
  obtain ⟨r, hr, hT⟩ := final a d hQ
  exact ⟨r, ⟨d, hd, hr⟩, hT⟩

/- If the interpreter never has enough fuel, the machine never halts. -/
theorem divergence {A : Type} {run : Nat → Outcome A} {c : C} {bad : C → Prop}
    {Q : A → C → Prop} (sim : ∀ n, Refines step bad n (run n) c Q)
    (endless : ∀ n, run n = .timeout) (r : R) : ¬ Halts step c r := by
  rintro ⟨d, ⟨m, hd⟩, ending⟩
  have h := sim (m + 1)
  rw [endless] at h
  obtain ⟨k, e, le, he⟩ := h
  have := (hd.to_final (by simp [ending]) he).1
  omega

theorem adequacy_converse {A : Type} {run : Nat → Outcome A} {c : C} {bad : C → Prop}
    {T : A → R → Prop} {Q : A → C → Prop} (good : R → Prop)
    (sim : ∀ n, Refines step bad n (run n) c Q)
    (final : ∀ a d, Q a d → ∃ r, step d = .halt r ∧ T a r)
    (failed : ∀ d, bad d → ∀ e, step d ≠ .next e)
    (fails : ∀ d r, bad d → step d = .halt r → ¬ good r) :
    ∀ r, Halts step c r → good r → ∃ n a, run n = .ok a ∧ T a r := by
  rintro r ⟨d, ⟨m, hd⟩, ending⟩ isGood
  have atEnd : ∀ f, step d ≠ .next f := by simp [ending]
  have h := sim (m + 1)
  match hrun : run (m + 1) with
  | .ok a =>
    rw [hrun] at h
    obtain ⟨e, he, hQ⟩ := h
    obtain ⟨s, hs, hT⟩ := final a e hQ
    have same := Halts.unique (⟨d, ⟨m, hd⟩, ending⟩ : Halts step c r) ⟨e, he, hs⟩
    exact ⟨m + 1, a, hrun, same ▸ hT⟩
  | .timeout =>
    rw [hrun] at h
    obtain ⟨k, e, le, he⟩ := h
    have := (hd.to_final atEnd he).1
    omega
  | .stuck =>
    rw [hrun] at h
    obtain ⟨e, ⟨k, he⟩, hbad⟩ := h
    obtain ⟨_, rest⟩ := hd.to_final atEnd he
    obtain ⟨_, same⟩ := rest.of_final (failed e hbad)
    subst same
    exact absurd isGood (fails d r hbad ending)

end Machine
