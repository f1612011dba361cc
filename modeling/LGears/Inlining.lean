import LGears.SourceOptimizer

/- What the optimizer is for, on programs themselves: a pass that carries, for the variables
   in scope, what their uses become, and that knows all uses of the whole program. A variable
   in scope is one whose binder has been met; a name that is not is left alone. -/
namespace LGears.Inlining
open PrimitivesInfo CoreProgram Cps

/-- An occurrence of a variable in scope. -/
structure Use where
  name : Symbol
  assigns : Bool
  deriving DecidableEq, Repr

/-- The scope behind a form of a body. -/
def enter (x : Node) (seen : List Symbol) : List Symbol :=
  match x with
  | .define y _ => y :: seen
  | _ => seen

mutual
def uses (seen : List Symbol) : Node → List Use
  | .const _ | .quote _ | .extend _ => []
  | .sym x => if x ∈ seen then [⟨x, false⟩] else []
  | .lambda args body => usesAll (args.names ++ seen) body
  | .ite pred conseq alt => uses seen pred ++ uses seen conseq ++ uses seen alt
  | .set x value => if x ∈ seen then ⟨x, true⟩ :: uses seen value else []
  | .define x value => uses (x :: seen) value
  | .begin forms => usesAll seen forms
  | .app f args => uses seen f ++ usesAll seen args
def usesAll (seen : List Symbol) : List Node → List Use
  | [] => []
  | x :: xs => uses seen x ++ usesAll (enter x seen) xs
end

def used (U : List Use) (x : Symbol) : Bool := U.any fun u => u.name == x

def assigned (U : List Use) (x : Symbol) : Bool := U.any fun u => u.name == x && u.assigns

/-- What the uses of the variables in scope become. -/
abbrev Subst := List (Symbol × Node)

/-- Variables that keep their names. -/
def own (names : List Symbol) : Subst := names.map fun x => (x, .sym x)

/-- The variables in scope. -/
def seenIn {β : Type} (σ : List (Symbol × β)) : List Symbol := σ.map Prod.fst

def selfEvalIn (seen : List Symbol) : Node → Bool
  | .const _ | .quote _ | .lambda _ _ => true
  | .sym x => x ∈ seen
  | _ => false

def assignedVar (U : List Use) (seen : List Symbol) : Node → Bool
  | .sym x => x ∈ seen && assigned U x
  | _ => false

/-- The parameter x of an immediately applied lambda goes when v is its argument. -/
def inlines (U : List Use) (seen : List Symbol) (x : Symbol) (v : Node) : Bool :=
  !assigned U x && selfEvalIn seen v && !assignedVar U seen v

def effectFree (seen : List Symbol) : Node → Bool
  | .app (.sym s) _ => s ∉ seen && SourceOptimizer.effectFreeHead (.raw (.sym s))
  | .app _ _ => false
  | node => selfEvalIn seen node

/-- A parameter with its argument, and with what has been computed for the argument. -/
structure Arg (β : Type) where
  name : Symbol
  before : Node
  after : β

def zipArgs {β : Type} : List Symbol → List Node → List β → List (Arg β)
  | x :: xs, v :: vs, w :: ws => ⟨x, v, w⟩ :: zipArgs xs vs ws
  | _, _, _ => []

section args
variable {β : Type} (U : List Use) (seen : List Symbol)

def Arg.inlined (a : Arg β) : Bool := inlines U seen a.name a.before

def keptArgs (as : List (Arg β)) : List (Arg β) := as.filter fun a => !a.inlined U seen

/-- Some parameter of the call goes, and there is an argument for each. -/
def inlinesCall (args : Formals) (vals : List Node) : Bool :=
  args.rest.isNone && decide (args.fixed.length ≤ vals.length) &&
    (zipArgs args.fixed vals vals).any (Arg.inlined U seen)

/-- What the uses of a parameter become. -/
def Arg.value (a : Arg Node) : Symbol × Node :=
  (a.name, if a.inlined U seen then a.after else .sym a.name)

end args

mutual
def opt (U : List Use) (σ : Subst) : Node → Node
  | .const d => .const d
  | .quote d => .quote d
  | .extend names => .extend names
  | .sym x => (σ.lookup x).getD (.sym x)
  | .lambda args body => .lambda args (optBody U (own args.names ++ σ) body)
  | .ite pred conseq alt => .ite (opt U σ pred) (opt U σ conseq) (opt U σ alt)
  | .set x value => if x ∈ seenIn σ then .set x (opt U σ value) else .set x value
  | .define x value => .define x (opt U ((x, .sym x) :: σ) value)
  | .begin forms => .begin (optAll U σ forms)
  | .app (.lambda args body) vals =>
    let vals' := optAll U σ vals
    let as := zipArgs args.fixed vals vals'
    if inlinesCall U (seenIn σ) args vals then
      let body' := optBody U (as.map (Arg.value U (seenIn σ)) ++ σ) body
      let kept := keptArgs U (seenIn σ) as
      if kept.isEmpty && !body.any isDefine then .begin body'
      else .app (.lambda ⟨kept.map Arg.name, none⟩ body') (kept.map Arg.after)
    else .app (.lambda args (optBody U (own args.names ++ σ) body)) vals'
  | .app f args => .app (opt U σ f) (optAll U σ args)
def optAll (U : List Use) (σ : Subst) : List Node → List Node
  | [] => []
  | x :: xs => opt U σ x :: optAll U σ xs
def optBody (U : List Use) (σ : Subst) : List Node → List Node
  | [] => []
  | .define x value :: next =>
    if used U x then .define x (opt U ((x, .sym x) :: σ) value) :: optBody U ((x, .sym x) :: σ) next
    else optBody U ((x, .sym x) :: σ) next
  | x :: next =>
    if !next.isEmpty && effectFree (seenIn σ) x then optBody U σ next
    else opt U σ x :: optBody U σ next
end

/- Induction that tells an immediately applied lambda from other calls. -/
@[elab_as_elim]
theorem inductCall {P : Node → Prop}
    (const : ∀ d, P (.const d)) (sym : ∀ s, P (.sym s)) (quote : ∀ d, P (.quote d))
    (lambda : ∀ args body, (∀ x ∈ body, P x) → P (.lambda args body))
    (ite : ∀ p a b, P p → P a → P b → P (.ite p a b))
    (set : ∀ x v, P v → P (.set x v)) (define : ∀ x v, P v → P (.define x v))
    (begin : ∀ forms, (∀ x ∈ forms, P x) → P (.begin forms))
    (extend : ∀ names, P (.extend names))
    (call : ∀ args body vals, (∀ x ∈ body, P x) → (∀ v ∈ vals, P v) →
      P (.app (.lambda args body) vals))
    (app : ∀ f args, (∀ xs body, f ≠ .lambda xs body) → P f → (∀ x ∈ args, P x) →
      P (.app f args)) (n : Node) : P n := by
  have both : P n ∧ ∀ xs body, n = .lambda xs body → ∀ x ∈ body, P x := by
    induction n with
    | const d => exact ⟨const d, by simp⟩
    | sym s => exact ⟨sym s, by simp⟩
    | quote d => exact ⟨quote d, by simp⟩
    | lambda args body ih =>
      have inner : ∀ x ∈ body, P x := fun x hx => (ih x hx).1
      refine ⟨lambda args body inner, ?_⟩
      rintro _ _ ⟨⟩
      exact inner
    | ite p a b hp ha hb => exact ⟨ite p a b hp.1 ha.1 hb.1, by simp⟩
    | set x v ih => exact ⟨set x v ih.1, by simp⟩
    | define x v ih => exact ⟨define x v ih.1, by simp⟩
    | begin forms ih => exact ⟨begin forms fun x hx => (ih x hx).1, by simp⟩
    | extend names => exact ⟨extend names, by simp⟩
    | app f args hf ih =>
      have each : ∀ x ∈ args, P x := fun x hx => (ih x hx).1
      refine ⟨?_, by simp⟩
      cases f with
      | lambda xs body => exact call xs body args (hf.2 xs body rfl) each
      | _ => exact app _ args (by simp) hf.1 each
  exact both.1

/-- The pass on a whole program. -/
def inlineAll (p : Node) : Node := opt (uses [] p) [] p

end LGears.Inlining
