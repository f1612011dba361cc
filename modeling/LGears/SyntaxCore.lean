import LGears.Syntax

/- Syntax objects: syntax-core.scm. -/
namespace LGears.SyntaxCore

abbrev Mark := Nat
abbrev Label := Nat

/-- A substitution. An expression that is no symbol is none: no search asks for it. -/
structure Subst where
  sym : Option Symbol
  marks : List Mark
  label : Label
  deriving DecidableEq, Repr

inductive WrapItem where
  | mark (m : Mark)
  | subst (s : Subst)
  deriving DecidableEq, Repr

abbrev Wrap := List WrapItem

/-- Data that are no pairs and no symbols. -/
inductive Lit where
  | null
  | bool (b : Bool)
  | char (c : Char)
  | num (i : Int)
  | str (s : String)
  | vec (xs : List Datum)
  deriving DecidableEq

/-- Data, without syntax objects in them. -/
inductive Raw where
  | lit (l : Lit)
  | sym (s : Symbol)
  | pair (a d : Raw)
  deriving DecidableEq

/-- The values of the expander: data with syntax objects in them. -/
inductive Stx where
  | lit (l : Lit)
  | sym (s : Symbol)
  | pair (a d : Stx)
  | object (expr : Stx) (wrap : Wrap)
  deriving DecidableEq

/-- '() -/
abbrev Stx.null : Stx := .lit .null

def isNull : Stx → Bool
  | .lit .null => true
  | _ => false

def isPair : Stx → Bool
  | .pair _ _ => true
  | _ => false

def isSyntaxObject : Stx → Bool
  | .object _ _ => true
  | _ => false

/-- (car x) -/
def car : Stx → Option Stx
  | .pair a _ => some a
  | _ => none

/-- (cdr x) -/
def cdr : Stx → Option Stx
  | .pair _ d => some d
  | _ => none

/-- (strip x) -/
def strip : Stx → Raw
  | .object expr _ => strip expr
  | .pair a d => .pair (strip a) (strip d)
  | .lit l => .lit l
  | .sym s => .sym s

/-- (join-wraps wrap1 wrap2) -/
def joinWraps : Wrap → Wrap → Wrap
  | [], wrap2 => wrap2
  | wrap1, [] => wrap1
  | [.mark w], .mark w' :: wrap2 => if w' = w then wrap2 else .mark w :: .mark w' :: wrap2
  | [w], wrap2 => w :: wrap2
  | w :: wrap1, wrap2 => w :: joinWraps wrap1 wrap2

/-- (extend-wrap wrap x) -/
def extendWrap (wrap : Wrap) : Stx → Stx
  | .object expr wrap2 => .object expr (joinWraps wrap wrap2)
  | x => .object x wrap

/-- (identifier? x) -/
def isIdentifier : Stx → Bool
  | .object (.sym _) _ => true
  | _ => false

/-- (syntax-pair? x) -/
def isSyntaxPair : Stx → Bool
  | .pair _ _ | .object (.pair _ _) _ => true
  | _ => false

/-- (syntax-null? x) -/
def isSyntaxNull : Stx → Bool
  | .lit .null | .object (.lit .null) _ => true
  | _ => false

/-- (syntax-object-expr x); it is an error for other values. -/
def syntaxObjectExpr : Stx → Option Stx
  | .object expr _ => some expr
  | _ => none

/-- (syntax-car x) -/
def syntaxCar : Stx → Option Stx
  | .pair a _ => some a
  | .object (.pair a _) wrap => some (extendWrap wrap a)
  | _ => none

/-- (syntax-cdr x) -/
def syntaxCdr : Stx → Option Stx
  | .pair _ d => some d
  | .object (.pair _ d) wrap => some (extendWrap wrap d)
  | _ => none

/-- The pairs and leaves of a value, without its wraps. -/
def Stx.size : Stx → Nat
  | .object expr _ => expr.size
  | .pair a d => a.size + d.size + 1
  | _ => 1

example (x : Stx) (wrap : Wrap) : (Stx.object (.pair x x) wrap).size = 2 * x.size + 1 := by
  rw [Stx.size, Stx.size]
  omega

theorem size_pos (x : Stx) : 0 < x.size := by
  induction x with
  | object expr wrap ih => exact ih
  | _ => simp [Stx.size]

theorem size_extendWrap (wrap : Wrap) (x : Stx) : (extendWrap wrap x).size = x.size := by
  cases x <;> rfl

theorem isSyntaxObject_extendWrap (wrap : Wrap) (x : Stx) :
    isSyntaxObject (extendWrap wrap x) = true := by
  cases x <;> rfl

theorem size_syntaxCdr {x d : Stx} (here : syntaxCdr x = some d) : d.size < x.size := by
  unfold syntaxCdr at here
  split at here
  · cases here
    simp only [Stx.size]
    omega
  · cases here
    rw [size_extendWrap]
    simp only [Stx.size]
    omega
  · cases here

theorem size_parts {x a d : Stx} (first : syntaxCar x = some a) (rest : syntaxCdr x = some d) :
    x.size = a.size + d.size + 1 := by
  cases x with
  | pair u v =>
    cases first
    cases rest
    rfl
  | object expr wrap =>
    cases expr with
    | pair u v =>
      cases first
      cases rest
      rw [size_extendWrap, size_extendWrap]
      rfl
    | _ => cases first
  | _ => cases first

theorem object_syntaxCar {x a : Stx} (object : isSyntaxObject x = true)
    (here : syntaxCar x = some a) : isSyntaxObject a = true := by
  unfold syntaxCar at here
  split at here
  · cases object
  · cases here
    exact isSyntaxObject_extendWrap _ _
  · cases here

theorem object_syntaxCdr {x d : Stx} (object : isSyntaxObject x = true)
    (here : syntaxCdr x = some d) : isSyntaxObject d = true := by
  unfold syntaxCdr at here
  split at here
  · cases object
  · cases here
    exact isSyntaxObject_extendWrap _ _
  · cases here

theorem syntaxPair_parts {x : Stx} (pair : isSyntaxPair x = true) :
    ∃ a d, syntaxCar x = some a ∧ syntaxCdr x = some d := by
  unfold isSyntaxPair at pair
  split at pair
  · exact ⟨_, _, rfl, rfl⟩
  · exact ⟨_, _, rfl, rfl⟩
  · cases pair

end LGears.SyntaxCore
