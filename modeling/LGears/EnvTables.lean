import LGears.CodeEmitted
import Mathlib.Data.List.Nodup
import Mathlib.Data.List.TakeWhile

/- The tables of bindings of an environment. An index that env-bind returns is written into
   code while the tables still grow; make-func turns them round. -/
namespace LGears.EnvTables
open Opcode Compiler CodeEmitted

/-- Calls of (env-bind env up idx), one after the other: the indices they return, and the
    environment behind them. -/
def envBinds : FuncEnv → List (Nat × Nat) → List Nat × FuncEnv
  | env, [] => ([], env)
  | env, (up, idx) :: calls =>
    let (bidx, env) := envBind env up idx
    let (indices, env) := envBinds env calls
    (bidx :: indices, env)

/-- The binding at an index of the tables of a function is a slot of the function of a depth. -/
def Denotes (f : IFunc) (pair : Nat × Nat) (bidx : Nat) : Prop :=
  ∃ midx, f.bindings[bidx]? = some (midx, pair.2) ∧ f.bindmap[midx]? = some pair.1

/-- No entry of the tables is there twice. -/
structure Single (env : FuncEnv) : Prop where
  bindings : env.bindings.Nodup
  bindmap : env.bindmap.Nodup

/-- What the indices of a sequence of calls are worth in the tables of the function. -/
structure Valid (calls : List (Nat × Nat)) (indices : List Nat) (f : IFunc) : Prop where
  denotes : List.Forall₂ (Denotes f) calls indices
  same : ∀ x ∈ calls.zip indices, ∀ y ∈ calls.zip indices, x.2 = y.2 ↔ x.1 = y.1
  bindings : f.bindings.Nodup
  bindmap : f.bindmap.Nodup

section tables
variable {α : Type} {table : List α}

theorem place_unique (single : table.Nodup) {key : α} {i j : Nat}
    (first : table.reverse[i]? = some key) (second : table.reverse[j]? = some key) : i = j := by
  have inside := (List.getElem?_eq_some_iff.mp first).1
  apply (List.getElem?_inj inside (List.nodup_reverse.mpr single)).mp
  rw [first, second]

variable [DecidableEq α]

theorem intern_nodup (key : α) (single : table.Nodup) : (intern key table).2.Nodup := by
  unfold intern
  cases found : table.dropWhile (· ≠ key) with
  | nil =>
    apply List.nodup_cons.mpr
    constructor
    · intro member
      have other := List.dropWhile_eq_nil_iff.mp found key member
      simp at other
    · exact single
  | cons x rest => exact single

end tables

section calls
variable {env : FuncEnv} {code : List Instr} {pair : Nat × Nat} {bidx : Nat}

theorem envBind_single (up idx : Nat) (single : Single env) : Single (envBind env up idx).2 := by
  constructor
  · exact intern_nodup _ single.bindings
  · exact intern_nodup up single.bindmap

theorem envBind_denotes (env : FuncEnv) (code : List Instr) (up idx : Nat) :
    Denotes (makeFunc code (envBind env up idx).2) (up, idx) (envBind env up idx).1 :=
  ⟨(intern up env.bindmap).1, intern_at _ env.bindings, intern_at up env.bindmap⟩

theorem Denotes.grows {env' : FuncEnv} (here : Denotes (makeFunc code env) pair bidx)
    (grown : EnvGrows env env') : Denotes (makeFunc code env') pair bidx := by
  obtain ⟨midx, binding, depth⟩ := here
  refine ⟨midx, ?_, ?_⟩
  · exact getElem_of_prefix (List.reverse_prefix.mpr grown.bindings) binding
  · exact getElem_of_prefix (List.reverse_prefix.mpr grown.bindmap) depth

theorem Denotes.pair_unique {f : IFunc} {other : Nat × Nat} (one : Denotes f pair bidx)
    (two : Denotes f other bidx) : pair = other := by
  obtain ⟨midx, binding, depth⟩ := one
  obtain ⟨midx', binding', depth'⟩ := two
  have entry : (midx, pair.2) = (midx', other.2) := Option.some.inj (binding.symm.trans binding')
  obtain ⟨same, slot⟩ := Prod.mk.inj entry
  rw [same] at depth
  exact Prod.ext (Option.some.inj (depth.symm.trans depth')) slot

theorem Denotes.index_unique {other : Nat} (single : Single env)
    (one : Denotes (makeFunc code env) pair bidx) (two : Denotes (makeFunc code env) pair other) :
    bidx = other := by
  obtain ⟨midx, binding, depth⟩ := one
  obtain ⟨midx', binding', depth'⟩ := two
  have same : midx = midx' := place_unique single.bindmap depth depth'
  rw [← same] at binding'
  exact place_unique single.bindings binding binding'

/- What a run of calls does: by induction on the calls, with the tables that the first one leaves. -/
theorem envBinds_run (code : List Instr) (calls : List (Nat × Nat)) (single : Single env) :
    EnvGrows env (envBinds env calls).2 ∧ Single (envBinds env calls).2 ∧
      List.Forall₂ (Denotes (makeFunc code (envBinds env calls).2)) calls
        (envBinds env calls).1 := by
  induction calls generalizing env with
  | nil => exact ⟨.refl env, single, .nil⟩
  | cons call calls ih =>
    obtain ⟨up, idx⟩ := call
    obtain ⟨grown, singles, denotes⟩ := ih (envBind_single up idx single)
    refine ⟨(envBind_grows env up idx).trans grown, singles, ?_⟩
    apply List.Forall₂.cons _ denotes
    exact (envBind_denotes env code up idx).grows grown

theorem makeEnv_single (envs : List FuncEnv) (args : Formals) : Single (makeEnv envs args) := by
  constructor
  · exact List.nodup_nil
  · exact List.nodup_nil

theorem indices_valid (envs : List FuncEnv) (args : Formals) (calls : List (Nat × Nat))
    (code : List Instr) :
    Valid calls (envBinds (makeEnv envs args) calls).1
      (makeFunc code (envBinds (makeEnv envs args) calls).2) := by
  obtain ⟨_, single, denotes⟩ := envBinds_run code calls (makeEnv_single envs args)
  have each : ∀ x ∈ calls.zip (envBinds (makeEnv envs args) calls).1,
      Denotes (makeFunc code (envBinds (makeEnv envs args) calls).2) x.1 x.2 := by
    intro x member
    exact (List.forall₂_iff_zip.mp denotes).2 member
  constructor
  · exact denotes
  · intro x hx y hy
    constructor
    · intro same
      have other := each y hy
      rw [← same] at other
      exact (each x hx).pair_unique other
    · intro same
      have other := each y hy
      rw [← same] at other
      exact (each x hx).index_unique single other
  · exact List.nodup_reverse.mpr single.bindings
  · exact List.nodup_reverse.mpr single.bindmap

end calls

end LGears.EnvTables
