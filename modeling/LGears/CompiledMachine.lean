import LGears.CpsMachine

/- The machine of CPS terms as the code generator reads them: where `builtin-call` stands for the
   operator of a call, the builtin is found by its name. -/
namespace LGears.CompiledMachine
open PrimitivesInfo Values Machine CpsMachine

/-- (builtin-call k name arg ...) -/
def stepBuiltin (W : World) (args : List Node) (ρ : Env) (s : State) : Next Config Final :=
  match args with
  | cont :: .sym name :: args =>
    match evalSimples W ρ (cont :: args) s with
    | some (vs, s) => .next (.call (.atom (.prim name)) vs s)
    | none => .stuck
  | _ => .stuck

def step (W : World) : Config → Next Config Final
  | .code (.app func args :: rest) ρ s =>
    if isBuiltinCall func then stepBuiltin W args ρ s
    else stepCode W (.app func args :: rest) ρ s
  | .code body ρ s => stepCode W body ρ s
  | .call f vs s => stepCall W f vs s

section steps
variable {W : World} {c d : Config} {ρ : Env} {s : State}

/-- The body starts with a call by name. -/
def isNamed : Config → Bool
  | .code (.app func _ :: _) _ _ => isBuiltinCall func
  | _ => false

theorem step_plain (plain : isNamed c = false) : step W c = CpsMachine.step W c := by
  cases c with
  | call => rfl
  | code body ρ s =>
    cases body with
    | nil => rfl
    | cons x rest =>
      cases x with
      | app func args =>
        rw [isNamed] at plain
        rw [step, if_neg (by simp [plain])]
        rfl
      | _ => rfl

theorem plain_code {body : List Node} {r : Final} : CpsMachine.step W (.code body ρ s) ≠ .halt r := by
  intro halts
  simp only [CpsMachine.step, stepCode] at halts
  split at halts
  · cases halts
  · split at halts
    · split at halts <;> cases halts
    · cases halts
  · split at halts <;> cases halts
  · split at halts
    · cases halts
    · split at halts
      · split at halts <;> cases halts
      · cases halts
  · cases halts

theorem stepBuiltin_halts {args : List Node} {r : Final} : stepBuiltin W args ρ s ≠ .halt r := by
  intro halts
  unfold stepBuiltin at halts
  split at halts
  · split at halts <;> cases halts
  · cases halts

theorem step_code {body : List Node} {r : Final} : step W (.code body ρ s) ≠ .halt r := by
  cases named : isNamed (.code body ρ s) with
  | false =>
    rw [step_plain named]
    exact plain_code
  | true =>
    cases body with
    | nil => cases named
    | cons x rest =>
      cases x with
      | app func args =>
        rw [isNamed] at named
        rw [step, if_pos named]
        exact stepBuiltin_halts
      | _ => cases named

end steps

end LGears.CompiledMachine
