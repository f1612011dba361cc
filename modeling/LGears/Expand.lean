import LGears.SyntaxBind
import LGears.GenName
import LGears.Library.Returns

/- The expander: expand.scm, with the identifiers of syntax-core.scm. -/
namespace LGears.Expand
open SyntaxCore SyntaxPattern

/-- Why an expansion has no result: it needs a deeper recursion, or it is an error. -/
inductive Stop where
  | fuel
  | error
  deriving DecidableEq, Repr

/-- The next mark and label, and last-name of gen-name. -/
structure Fresh where
  mark : Mark
  label : Label
  lastName : Nat
  deriving DecidableEq, Repr

abbrev Expansion := StateT Fresh (Except Stop)

/-- (syntax-error what msg), and the errors of the primitives. -/
def syntaxError {α : Type} : Expansion α := fun _ => .error .error

def ofOption {α : Type} : Option α → Expansion α
  | some a => pure a
  | none => syntaxError

/-- (make-mark) -/
def makeMark : Expansion Mark := fun s => .ok (s.mark, { s with mark := s.mark + 1 })

/-- (make-label) -/
def makeLabel : Expansion Label := fun s => .ok (s.label, { s with label := s.label + 1 })

/-- The procedures of $builtin. -/
inductive Core where
  | expQuote
  | expLambda
  | expDefine
  | expIf
  | expSet
  | expBegin
  | expSyntax
  | expSyntaxCase
  | expBuiltin
  deriving DecidableEq, Repr

/-- A binding, with its type; transformers are the macros. -/
inductive Binding (Proc : Type) where
  | core (p : Core)
  | transformer (p : Proc)
  | lexical (name : Symbol)

abbrev Env (Proc : Type) := List (Label × Binding Proc)

/-- What the expander uses of the system it runs on: eval in the environment of sys-env, the calls
    of the procedures that it returns, and (format "~a" x). -/
structure Host (Proc : Type) where
  eval : Raw → Expansion Proc
  call : Proc → Stx → Expansion Stx
  display : Stx → String

/- Identifiers. -/

/-- (wrap-marks wrap) -/
def wrapMarks (wrap : Wrap) : List Mark :=
  wrap.filterMap fun
    | .mark m => some m
    | .subst _ => none

/-- (same-marks? m1* m2*). The one-armed if has the unspecified value for different lengths, which
    is no #f. -/
def sameMarks (marks1 marks2 : List Mark) : Bool :=
  if marks1.length = marks2.length then marks1 = marks2 else true

/-- The loop of find-label. -/
def search (sym : Symbol) : Wrap → List Mark → Option Label
  | [], _ => none
  | .mark _ :: wrap, marks => search sym wrap marks.tail
  | .subst w0 :: wrap, marks =>
    if w0.sym = some sym ∧ sameMarks w0.marks marks then some w0.label else search sym wrap marks

/-- (find-label sym wrap) -/
def findLabel (sym : Symbol) (wrap : Wrap) : Option Label := search sym wrap (wrapMarks wrap)

/-- (id-label id), for an identifier. -/
def idLabel : Stx → Option Label
  | .object (.sym sym) wrap => findLabel sym wrap
  | _ => none

/-- (syntax-object-wrap x) -/
def syntaxObjectWrap : Stx → Expansion Wrap
  | .object _ wrap => pure wrap
  | _ => syntaxError

def symOf : Stx → Option Symbol
  | .sym s => some s
  | _ => none

/-- (make-subst (syntax-object-expr v) marks l) -/
def makeSubst (v : Stx) (marks : List Mark) (label : Label) : Expansion WrapItem := do
  let expr ← ofOption (syntaxObjectExpr v)
  return .subst { sym := symOf expr, marks := marks, label := label }

/-- (add-subst obj label) -/
def addSubst (obj : Stx) (label : Label) : Expansion WrapItem := do
  let wrap ← syntaxObjectWrap obj
  makeSubst obj (wrapMarks wrap) label

/-- (add-mark mark x) -/
def addMark (mark : Mark) (x : Stx) : Stx := extendWrap [.mark mark] x

/-- (syntax->pair x) -/
def syntaxToPair (x : Stx) : Stx :=
  if isSyntaxNull x then .null
  else
    match syntaxCar x, _here : syntaxCdr x with
    | some a, some d => .pair a (syntaxToPair d)
    | _, _ => x
termination_by x.size
decreasing_by exact size_syntaxCdr _here

/-- A proper list as the list of its elements. -/
def toList : Stx → Option (List Stx)
  | .lit .null => some []
  | .pair a d => (toList d).map (a :: ·)
  | _ => none

def rawList : List Raw → Raw
  | [] => .lit .null
  | x :: xs => .pair x (rawList xs)

/- Patterns of syntax-match. -/

/-- (pattern-bind xpr pat vars) -/
def patternBind : Stx → Raw → List Stx → Option (List Stx)
  | xpr, .pair a d, vars =>
    if isEllipsis d then do return (← toList xpr) ++ vars
    else do
      let vars ← patternBind (← cdr xpr) d vars
      patternBind (← car xpr) a vars
  | xpr, .sym s, vars => if s = "_" then some vars else some (xpr :: vars)
  | _, .lit _, vars => some vars

/-- (syntax-dispatch x reserved . rules), without reserved words. -/
def syntaxMatch {α : Type} (x : Stx) : List (Raw × (List Stx → Expansion α)) → Expansion α
  | [] => syntaxError
  | (pat, accept) :: rules =>
    match patternMatch [] x pat with
    | .ok (some res) => do accept (← ofOption (patternBind res pat []))
    | .ok none => syntaxMatch x rules
    | .error () => syntaxError

/-- The symbols of a pattern, and the pattern p ... at the end of a list. -/
def pats (ps : List Raw) (rest : Raw) : Raw := ps.foldr .pair rest

def more (p : Raw) : Raw := .pair p (.pair (.sym "...") (.lit .null))

/-- The list of the symbols and values ps, with the values rest behind it. -/
def stxs (ps : List Stx) (rest : Stx) : Stx := ps.foldr .pair rest

section expander
variable {Proc : Type} (host : Host Proc)

/-- (label-binding id label r) -/
def labelBinding (label : Label) (r : Env Proc) : Expansion (Binding Proc) :=
  ofOption (r.lookup label)

/-- (id-binding id r) -/
def idBinding (id : Stx) (r : Env Proc) : Expansion (Option (Binding Proc)) :=
  match idLabel id with
  | some label => some <$> labelBinding label r
  | none => return none

/-- (exp-macro p x) -/
def expMacro (p : Proc) (x : Stx) : Expansion Stx := do
  let m ← makeMark
  let xm := addMark m x
  let out ← host.call p xm
  return addMark m (extendWrap (← syntaxObjectWrap xm) out)

/-- (gen-name x) -/
def genName (x : Stx) : Expansion Symbol := fun s =>
  .ok ((GenName.genNameOf (host.display x) s.lastName).1, { s with lastName := s.lastName + 1 })

/-- (gen-names lst) -/
def genNames (lst : List Stx) : Expansion (List Symbol) :=
  lst.mapM fun x => do genName host (← ofOption (syntaxObjectExpr x))

/-- (gen-labels lst) -/
def genLabels (lst : List Stx) : Expansion (List Label) := lst.mapM fun _ => makeLabel

/-- (improper->propper pair) -/
def improperToPropper : Stx → List Stx
  | .pair a d => a :: improperToPropper d
  | cur => [cur]

/-- (apply cons* lst) -/
def consStar : List Raw → Raw
  | [] => .lit .null
  | [x] => x
  | x :: xs => .pair x (consStar xs)

/-- Whether x is a pair with the word in its car: begin?, define-syntax? and define?. -/
def isForm (word : Symbol) (x : Stx) : Option Bool :=
  if isSyntaxPair x then do
    let head ← syntaxCar x
    let expr ← syntaxObjectExpr head
    return expr = .sym word
  else some false

/-- The pairs and leaves of several values. -/
def sizes (xs : List Stx) : Nat := (xs.map Stx.size).sum

theorem sizes_cons (x : Stx) (xs : List Stx) : sizes (x :: xs) = x.size + sizes xs := by
  rw [sizes, List.map_cons, List.sum_cons]
  rfl

theorem sizes_elements {x : Stx} {xs : List Stx} (here : elements x = some xs) :
    sizes xs < x.size := by
  induction h : x.size using Nat.strongRecOn generalizing x xs with
  | ind n ih =>
    rcases syntax_cases x with null | ⟨some, a, d, first, rest⟩ | ⟨some, none⟩
    · rw [elements_null null] at here
      cases here
      exact h ▸ size_pos x
    · rw [elements_pair some first rest, Option.map_eq_some_iff] at here
      obtain ⟨ys, there, rfl⟩ := here
      have tail := ih d.size (h ▸ size_syntaxCdr rest) there rfl
      have both := size_parts first rest
      rw [sizes_cons]
      omega
    · rw [elements_other some none] at here
      cases here

/-- (splice-begin body) -/
def spliceBegin : List Stx → Option (List Stx)
  | [] => some []
  | x :: body => do
    let y ← spliceBegin body
    if ← isForm "begin" x then
      match _here : (syntaxCdr x).bind elements with
      | some inner => return (← spliceBegin inner) ++ y
      | none => none
    else return x :: y
termination_by body => sizes body
decreasing_by
  · have := size_pos x
    rw [sizes_cons]
    omega
  · obtain ⟨d, rest, inside⟩ := Option.bind_eq_some_iff.mp _here
    have := sizes_elements inside
    have := size_syntaxCdr rest
    rw [sizes_cons]
    omega

/-- (partition define-syntax? body) -/
def partitionDefineSyntax : List Stx → Option (List Stx × List Stx)
  | [] => some ([], [])
  | x :: body => do
    let (forms, others) ← partitionDefineSyntax body
    if ← isForm "define-syntax" x then return (x :: forms, others) else return (forms, x :: others)

/-- (scan-defines body) -/
def scanDefines : List Stx → Option (List Stx)
  | [] => some []
  | x :: body => do
    let defines ← scanDefines body
    if ← isForm "define" x then
      let head ← syntaxCar (← syntaxCdr x)
      if isSyntaxPair head then return (← syntaxCar head) :: defines else return head :: defines
    else return defines

/- The expander is given as self to its parts. -/

variable (self : Stx → Env Proc → Expansion Raw)

/-- (exp-exprs x* r) -/
def expExprs (r : Env Proc) : Stx → Expansion Raw
  | .lit .null => return .lit .null
  | .pair a d => do
    let first ← self a r
    let rest ← expExprs r d
    return .pair first rest
  | x => self x r

/-- (make-macro macro env) -/
def makeMacro (form : Stx) (env : Env Proc) : Expansion (Stx × Proc) :=
  syntaxMatch form [
    (pats [.sym "_", .sym "name", .sym "expander"] (.lit .null), fun
      | [name, expander] => do
        let proc ← host.eval (← self expander env)
        return (name, proc)
      | _ => syntaxError)]

/-- (compile-i wrap env macro* ) -/
def compileI (wrap : Wrap) (env : Env Proc) : List Stx → Expansion (Wrap × Env Proc)
  | [] => return (wrap, env)
  | form :: forms => do
    let (name, proc) ← makeMacro host self (extendWrap wrap form) env
    let label ← makeLabel
    let subst ← addSubst name label
    compileI (subst :: wrap) ((label, .transformer proc) :: env) forms

/-- (extend-syntax env body), as body, env and wrap -/
def extendSyntax (env : Env Proc) (body : List Stx) : Expansion (List Stx × Env Proc × Wrap) := do
  let (forms, body) ← ofOption (partitionDefineSyntax body)
  let (wrap, env) ← compileI host self [] env forms
  return (body, env, wrap)

/-- The substitutions (map new-subst env-vars labels). -/
def newSubsts (marks : List Mark) (envVars : List Stx) (labels : List Label) : Expansion Wrap :=
  (envVars.zip labels).mapM fun (v, l) => makeSubst v marks l

/-- The forms of a body in the syntax that expand-body gives to expand, and their environment. -/
def extendBody (src : Stx) (env : Env Proc) (varlist : List Stx) (newVars : List Symbol)
    (body : List Stx) : Expansion (Wrap × List Stx × Env Proc) := do
  let (body, env, wrap) ← extendSyntax host self env (← ofOption (spliceBegin body))
  let defines ← ofOption (scanDefines body)
  let newDefines ← genNames host defines
  let envVars := varlist ++ defines
  let labels ← genLabels envVars
  let marks := wrapMarks (← syntaxObjectWrap src)
  let substs ← newSubsts marks envVars labels
  return (substs ++ wrap, body,
    (labels.zip (newVars ++ newDefines)).foldl (fun prev (label, v) => (label, .lexical v) :: prev)
      env)

/-- (expand-body src env varlist new-vars body) -/
def expandBody (src : Stx) (env : Env Proc) (varlist : List Stx) (newVars : List Symbol)
    (body : List Stx) : Expansion Raw := do
  let (wrap, body, env) ← extendBody host self src env varlist newVars body
  self (extendWrap wrap (list body)) env

/-- (exp-lambda x env) -/
def expLambda (x : Stx) (env : Env Proc) : Expansion Raw :=
  let expandLambda (varlist : List Stx) (newVars : List Symbol) (body : Stx) : Expansion Raw := do
    expandBody host self x env varlist newVars (← ofOption (toList body))
  syntaxMatch x [
    (.pair (.sym "_") (.pair (more (.sym "varlist")) (more (.sym "body"))), fun
      | [varlist, body] => do
        let varlist ← ofOption (toList varlist)
        let newVars ← genNames host varlist
        let body ← expandLambda varlist newVars body
        return .pair (.sym "lambda") (.pair (rawList (newVars.map .sym)) body)
      | _ => syntaxError),
    (.pair (.sym "_") (.pair (.pair (.sym "v1") (.sym "rem")) (more (.sym "body"))), fun
      | [v1, rem, body] => do
        let varlist := improperToPropper (.pair v1 (syntaxToPair rem))
        let newVars ← genNames host varlist
        let body ← expandLambda varlist newVars body
        return .pair (.sym "lambda") (.pair (consStar (newVars.map .sym)) body)
      | _ => syntaxError),
    (.pair (.sym "_") (.pair (.sym "var") (more (.sym "body"))), fun
      | [var, body] => do
        let varlist := [var]
        let newVars ← genNames host varlist
        let body ← expandLambda varlist newVars body
        return pats (.sym "lambda" :: newVars.map .sym) body
      | _ => syntaxError)]

/-- (extend-wrap-from obj x) -/
def extendWrapFrom (obj x : Stx) : Expansion Stx := do
  return extendWrap (← syntaxObjectWrap obj) x

/-- (exp-define x r) -/
def expDefine (x : Stx) (r : Env Proc) : Expansion Raw :=
  let define (var : Stx) (value : Expansion Raw) : Expansion Raw := do
    let name ← self var r
    return pats [.sym "define", name, ← value] (.lit .null)
  syntaxMatch x [
    (.pair (.sym "_") (.pair (.pair (.sym "var") (more (.sym "args"))) (more (.sym "body"))), fun
      | [var, args, body] => define var do
        self (← extendWrapFrom x (stxs [.sym "lambda", args] body)) r
      | _ => syntaxError),
    (.pair (.sym "_") (.pair (.pair (.sym "var") (.sym "rem")) (more (.sym "body"))), fun
      | [var, rem, body] => define var do
        self (← extendWrapFrom x (stxs [.sym "lambda", rem] body)) r
      | _ => syntaxError),
    (pats [.sym "_", .sym "var", .sym "val"] (.lit .null), fun
      | [var, val] => define var (self val r)
      | _ => syntaxError),
    (pats [.sym "_", .sym "var"] (.lit .null), fun
      | [var] => define var (return .pair (.sym "void") (.lit .null))
      | _ => syntaxError)]

/-- (always-true? dt) -/
def alwaysTrue : Raw → Bool
  | .lit l => l ≠ .bool false
  | _ => false

/-- (always-false? dt) -/
def alwaysFalse (dt : Raw) : Bool := dt = .lit (.bool false)

/-- (exp-if x r) -/
def expIf (x : Stx) (r : Env Proc) : Expansion Raw :=
  syntaxMatch x [
    (pats [.sym "_", .sym "a", .sym "b"] (.lit .null), fun
      | [a, b] => do
        let void := Stx.pair (.sym "void") .null
        self (← extendWrapFrom x (stxs [.sym "if", a, b, void] .null)) r
      | _ => syntaxError),
    (pats [.sym "_", .sym "a", .sym "b", .sym "c"] (.lit .null), fun
      | [a, b, c] => do
        let pred ← self a r
        if alwaysTrue pred then self b r
        else if alwaysFalse pred then self c r
        else
          let conseq ← self b r
          let alt ← self c r
          return pats [.sym "if", pred, conseq, alt] (.lit .null)
      | _ => syntaxError)]

/-- (exp-set! x r) -/
def expSet (x : Stx) (r : Env Proc) : Expansion Raw :=
  syntaxMatch x [
    (pats [.sym "_", .sym "a", .sym "b"] (.lit .null), fun
      | [a, b] => do
        let name ← self a r
        let value ← self b r
        return pats [.sym "set!", name, value] (.lit .null)
      | _ => syntaxError)]

/-- (exp-begin x r) -/
def expBegin (x : Stx) (r : Env Proc) : Expansion Raw :=
  syntaxMatch x [
    (pats [.sym "_", .sym "e"] (.lit .null), fun
      | [e] => self e r
      | _ => syntaxError),
    (.pair (.sym "_") (more (.sym "body")), fun
      | [body] => do return .pair (.sym "begin") (← expExprs self r body)
      | _ => syntaxError)]

/-- (exp-builtin x r) -/
def expBuiltin (x : Stx) (r : Env Proc) : Expansion Raw :=
  syntaxMatch x [
    (.pair (.sym "_") (.pair (.sym "func") (more (.sym "argl"))), fun
      | [func, argl] =>
        if isIdentifier func then do
          return pats [.sym "builtin-call", strip func] (← expExprs self r argl)
        else syntaxError
      | _ => syntaxError)]

/-- (quote x) -/
def quoted (x : Raw) : Raw := pats [.sym "quote", x] (.lit .null)

/-- (exp-quote x r) -/
def expQuote (x : Stx) : Expansion Raw :=
  syntaxMatch x [
    (pats [.sym "_", .sym "a"] (.lit .null), fun
      | [a] => return quoted (strip a)
      | _ => syntaxError)]

/-- (exp-syntax x r) -/
def expSyntax (x : Stx) : Expansion Raw :=
  syntaxMatch x [
    (pats [.sym "_", .sym "e"] (.lit .null), fun
      | [e] => return pats [.sym "gen-syntax", .sym "syntax-vars", quoted (strip e)] (.lit .null)
      | _ => syntaxError)]

/-- (datum->syntax tmpl x) -/
def datumToSyntax (tmpl x : Stx) : Expansion Stx := do
  return .object x (← syntaxObjectWrap tmpl)

/-- The variant (list 'pat fender (lambda (syntax-vars) acc)), expanded once more. -/
def variant (x : Stx) (r : Env Proc) (pat : Stx) (fender acc : Stx) : Expansion Raw := do
  let lambda := stxs [.sym "lambda", .pair (.sym "syntax-vars") .null, acc] .null
  let form := stxs [.sym "list", SyntaxBind.ofRaw (quoted (strip pat)), fender, lambda] .null
  self (← datumToSyntax x form) r

/-- (make-variant var) -/
def makeVariant (x : Stx) (r : Env Proc) (var : Stx) : Expansion Raw :=
  syntaxMatch var [
    (pats [.sym "pat", .sym "acc"] (.lit .null), fun
      | [pat, acc] => do
        let acc ← self acc r
        variant self x r pat (.lit (.bool false)) (SyntaxBind.ofRaw acc)
      | _ => syntaxError),
    (pats [.sym "pat", .sym "fender", .sym "acc"] (.lit .null), fun
      | [pat, fender, acc] => do
        let fender ← self fender r
        let acc ← self acc r
        let lambda := stxs [.sym "lambda", .pair (.sym "syntax-vars") .null,
          SyntaxBind.ofRaw fender] .null
        variant self x r pat lambda (SyntaxBind.ofRaw acc)
      | _ => syntaxError)]

/-- (exp-syntax-case x r) -/
def expSyntaxCase (x : Stx) (r : Env Proc) : Expansion Raw :=
  syntaxMatch x [
    (.pair (.sym "_") (.pair (.sym "src") (.pair (.sym "reserved") (more (.sym "variants")))), fun
      | [src, reserved, variants] => do
        let src ← self src r
        let variants ← (← ofOption (toList variants)).mapM (makeVariant self x r)
        return pats [.sym "sc-dispatch", .sym "syntax-vars", src, quoted (strip reserved)]
          (rawList variants)
      | _ => syntaxError)]

/-- (exp-core p x r) -/
def expCore (p : Core) (x : Stx) (r : Env Proc) : Expansion Raw :=
  match p with
  | .expQuote => expQuote x
  | .expLambda => expLambda host self x r
  | .expDefine => expDefine self x r
  | .expIf => expIf self x r
  | .expSet => expSet self x r
  | .expBegin => expBegin self x r
  | .expSyntax => expSyntax x
  | .expSyntaxCase => expSyntaxCase self x r
  | .expBuiltin => expBuiltin self x r

/-- The body of expand for an identifier. -/
def expandIdentifier (x : Stx) (r : Env Proc) : Expansion Raw := do
  match ← idBinding x r with
  | some (.transformer p) => self (← expMacro host p x) r
  | some (.lexical name) => return .sym name
  | some (.core _) => syntaxError
  | none => return strip x

/-- The body of expand for a pair with an identifier in its car. -/
def expandForm (x head rest : Stx) (r : Env Proc) : Expansion Raw := do
  match ← idBinding head r with
  | some (.transformer p) => self (← expMacro host p x) r
  | some (.lexical name) => return .pair (.sym name) (← expExprs self r (syntaxToPair rest))
  | some (.core p) => expCore host self p x r
  | none => return .pair (strip head) (← expExprs self r (syntaxToPair rest))

/-- The body of expand. -/
def expandWith (x : Stx) (r : Env Proc) : Expansion Raw :=
  if isIdentifier x then expandIdentifier host self x r
  else
    match syntaxCar x, syntaxCdr x with
    | some head, some rest =>
      if isIdentifier head then expandForm host self x head rest r
      else do
        let first ← self head r
        return .pair first (← expExprs self r (syntaxToPair rest))
    | _, _ => return strip x

end expander

/-- (expand x r), to a depth of recursion. -/
def expand {Proc : Type} (host : Host Proc) : Nat → Stx → Env Proc → Expansion Raw
  | 0 => fun _ _ _ => .error .fuel
  | depth + 1 => expandWith host (expand host depth)

/- More depth changes no result. -/

open StateExcept

theorem syntaxMatch_below {α : Type} {x : Stx} {rules others : List (Raw × (List Stx → Expansion α))}
    (each : List.Forall₂ (fun one other => one.1 = other.1 ∧ ∀ vs, Below (one.2 vs) (other.2 vs))
      rules others) : Below (syntaxMatch x rules) (syntaxMatch x others) := by
  induction each with
  | nil => exact Below.refl _
  | cons first rest ih =>
    rename_i one other rules others
    rcases one with ⟨pat, accept⟩
    rcases other with ⟨pat', accept'⟩
    obtain ⟨same, accepts⟩ := first
    change pat = pat' at same
    subst same
    rw [syntaxMatch, syntaxMatch]
    split
    · exact Below.andThen accepts
    · exact ih
    · exact Below.refl _

section below
variable {Proc : Type} {host : Host Proc} {self other : Stx → Env Proc → Expansion Raw}

theorem expExprs_below (more : ∀ x r, Below (self x r) (other x r)) (r : Env Proc) (x : Stx) :
    Below (expExprs self r x) (expExprs other r x) := by
  induction x with
  | lit l =>
    cases l with
    | null => exact Below.refl _
    | _ => exact more _ r
  | pair a d _ ih =>
    rw [expExprs, expExprs]
    exact (more a r).bind fun first => ih.bind fun rest => Below.refl _
  | _ => exact more _ r

theorem makeMacro_below (more : ∀ x r, Below (self x r) (other x r)) (form : Stx) (env : Env Proc) :
    Below (makeMacro host self form env) (makeMacro host other form env) := by
  apply syntaxMatch_below
  refine .cons ⟨rfl, ?_⟩ .nil
  intro vs
  match vs with
  | [name, expander] => exact (more expander env).bind fun _ => Below.refl _
  | [] | [_] | _ :: _ :: _ :: _ => exact Below.refl _

theorem compileI_below (more : ∀ x r, Below (self x r) (other x r)) (forms : List Stx) (wrap : Wrap)
    (env : Env Proc) :
    Below (compileI host self wrap env forms) (compileI host other wrap env forms) := by
  induction forms generalizing wrap env with
  | nil => exact Below.refl _
  | cons form forms ih =>
    rw [compileI, compileI]
    apply (makeMacro_below more _ env).bind
    intro compiled
    apply Below.andThen
    intro label
    apply Below.andThen
    intro subst
    exact ih _ _

theorem extendBody_below (more : ∀ x r, Below (self x r) (other x r)) (src : Stx) (env : Env Proc)
    (varlist : List Stx) (newVars : List Symbol) (body : List Stx) :
    Below (extendBody host self src env varlist newVars body)
      (extendBody host other src env varlist newVars body) := by
  have extends_ : ∀ body, Below (extendSyntax host self env body)
      (extendSyntax host other env body) := by
    intro body
    apply Below.andThen
    intro forms
    exact (compileI_below more _ _ _).bind fun _ => Below.refl _
  apply Below.andThen
  intro forms
  exact (extends_ forms).bind fun _ => Below.refl _

theorem expandBody_below (more : ∀ x r, Below (self x r) (other x r)) (src : Stx) (env : Env Proc)
    (varlist : List Stx) (newVars : List Symbol) (body : List Stx) :
    Below (expandBody host self src env varlist newVars body)
      (expandBody host other src env varlist newVars body) :=
  (extendBody_below more src env varlist newVars body).bind fun _ => more _ _

theorem expLambda_below (more : ∀ x r, Below (self x r) (other x r)) (x : Stx) (env : Env Proc) :
    Below (expLambda host self x env) (expLambda host other x env) := by
  apply syntaxMatch_below
  refine .cons ⟨rfl, ?_⟩ (.cons ⟨rfl, ?_⟩ (.cons ⟨rfl, ?_⟩ .nil))
  · intro vs
    match vs with
    | [varlist, body] =>
      apply Below.andThen
      intro varlist
      apply Below.andThen
      intro newVars
      apply Below.bind _ fun _ => Below.refl _
      apply Below.andThen
      intro body
      exact expandBody_below more x env varlist newVars body
    | [] | [_] | _ :: _ :: _ :: _ => exact Below.refl _
  · intro vs
    match vs with
    | [v1, rem, body] =>
      apply Below.andThen
      intro newVars
      apply Below.bind _ fun _ => Below.refl _
      apply Below.andThen
      intro body
      exact expandBody_below more x env _ newVars body
    | [] | [_] | [_, _] | _ :: _ :: _ :: _ :: _ => exact Below.refl _
  · intro vs
    match vs with
    | [var, body] =>
      apply Below.andThen
      intro newVars
      apply Below.bind _ fun _ => Below.refl _
      apply Below.andThen
      intro body
      exact expandBody_below more x env _ newVars body
    | [] | [_] | _ :: _ :: _ :: _ => exact Below.refl _

theorem expDefine_below (more : ∀ x r, Below (self x r) (other x r)) (x : Stx) (r : Env Proc) :
    Below (expDefine self x r) (expDefine other x r) := by
  apply syntaxMatch_below
  refine .cons ⟨rfl, ?_⟩ (.cons ⟨rfl, ?_⟩ (.cons ⟨rfl, ?_⟩ (.cons ⟨rfl, ?_⟩ .nil)))
  · intro vs
    match vs with
    | [var, args, body] =>
      apply (more var r).bind
      intro name
      apply Below.bind _ fun _ => Below.refl _
      exact Below.andThen fun form => more form r
    | [] | [_] | [_, _] | _ :: _ :: _ :: _ :: _ => exact Below.refl _
  · intro vs
    match vs with
    | [var, rem, body] =>
      apply (more var r).bind
      intro name
      apply Below.bind _ fun _ => Below.refl _
      exact Below.andThen fun form => more form r
    | [] | [_] | [_, _] | _ :: _ :: _ :: _ :: _ => exact Below.refl _
  · intro vs
    match vs with
    | [var, val] =>
      apply (more var r).bind
      intro name
      exact (more val r).bind fun _ => Below.refl _
    | [] | [_] | _ :: _ :: _ :: _ => exact Below.refl _
  · intro vs
    match vs with
    | [var] =>
      apply (more var r).bind
      intro name
      exact Below.refl _
    | [] | _ :: _ :: _ => exact Below.refl _

theorem expIf_below (more : ∀ x r, Below (self x r) (other x r)) (x : Stx) (r : Env Proc) :
    Below (expIf self x r) (expIf other x r) := by
  apply syntaxMatch_below
  refine .cons ⟨rfl, ?_⟩ (.cons ⟨rfl, ?_⟩ .nil)
  · intro vs
    match vs with
    | [a, b] => exact Below.andThen fun form => more form r
    | [] | [_] | _ :: _ :: _ :: _ => exact Below.refl _
  · intro vs
    match vs with
    | [a, b, c] =>
      apply (more a r).bind
      intro pred
      split
      · exact more b r
      · split
        · exact more c r
        · exact (more b r).bind fun _ => (more c r).bind fun _ => Below.refl _
    | [] | [_] | [_, _] | _ :: _ :: _ :: _ :: _ => exact Below.refl _

theorem expSet_below (more : ∀ x r, Below (self x r) (other x r)) (x : Stx) (r : Env Proc) :
    Below (expSet self x r) (expSet other x r) := by
  apply syntaxMatch_below
  refine .cons ⟨rfl, ?_⟩ .nil
  intro vs
  match vs with
  | [a, b] => exact (more a r).bind fun _ => (more b r).bind fun _ => Below.refl _
  | [] | [_] | _ :: _ :: _ :: _ => exact Below.refl _

theorem expBegin_below (more : ∀ x r, Below (self x r) (other x r)) (x : Stx) (r : Env Proc) :
    Below (expBegin self x r) (expBegin other x r) := by
  apply syntaxMatch_below
  refine .cons ⟨rfl, ?_⟩ (.cons ⟨rfl, ?_⟩ .nil)
  · intro vs
    match vs with
    | [e] => exact more e r
    | [] | _ :: _ :: _ => exact Below.refl _
  · intro vs
    match vs with
    | [body] => exact (expExprs_below more r body).bind fun _ => Below.refl _
    | [] | _ :: _ :: _ => exact Below.refl _

theorem expBuiltin_below (more : ∀ x r, Below (self x r) (other x r)) (x : Stx) (r : Env Proc) :
    Below (expBuiltin self x r) (expBuiltin other x r) := by
  apply syntaxMatch_below
  refine .cons ⟨rfl, ?_⟩ .nil
  intro vs
  match vs with
  | [func, argl] =>
    dsimp only
    split
    · exact (expExprs_below more r argl).bind fun _ => Below.refl _
    · exact Below.refl _
  | [] | [_] | _ :: _ :: _ :: _ => exact Below.refl _

theorem makeVariant_below (more : ∀ x r, Below (self x r) (other x r)) (x : Stx) (r : Env Proc)
    (var : Stx) : Below (makeVariant self x r var) (makeVariant other x r var) := by
  apply syntaxMatch_below
  refine .cons ⟨rfl, ?_⟩ (.cons ⟨rfl, ?_⟩ .nil)
  · intro vs
    match vs with
    | [pat, acc] =>
      exact (more acc r).bind fun _ => Below.andThen fun form => more form r
    | [] | [_] | _ :: _ :: _ :: _ => exact Below.refl _
  · intro vs
    match vs with
    | [pat, fender, acc] =>
      apply (more fender r).bind
      intro fender
      exact (more acc r).bind fun _ => Below.andThen fun form => more form r
    | [] | [_] | [_, _] | _ :: _ :: _ :: _ :: _ => exact Below.refl _

theorem expSyntaxCase_below (more : ∀ x r, Below (self x r) (other x r)) (x : Stx) (r : Env Proc) :
    Below (expSyntaxCase self x r) (expSyntaxCase other x r) := by
  apply syntaxMatch_below
  refine .cons ⟨rfl, ?_⟩ .nil
  intro vs
  match vs with
  | [src, reserved, variants] =>
    apply (more src r).bind
    intro src
    apply Below.andThen
    intro variants
    exact (Below.mapM (makeVariant_below more x r) variants).bind fun _ => Below.refl _
  | [] | [_] | [_, _] | _ :: _ :: _ :: _ :: _ => exact Below.refl _

theorem expCore_below (more : ∀ x r, Below (self x r) (other x r)) (p : Core) (x : Stx)
    (r : Env Proc) : Below (expCore host self p x r) (expCore host other p x r) := by
  cases p with
  | expQuote => exact Below.refl _
  | expLambda => exact expLambda_below more x r
  | expDefine => exact expDefine_below more x r
  | expIf => exact expIf_below more x r
  | expSet => exact expSet_below more x r
  | expBegin => exact expBegin_below more x r
  | expSyntax => exact Below.refl _
  | expSyntaxCase => exact expSyntaxCase_below more x r
  | expBuiltin => exact expBuiltin_below more x r

theorem expandWith_below (more : ∀ x r, Below (self x r) (other x r)) (x : Stx) (r : Env Proc) :
    Below (expandWith host self x r) (expandWith host other x r) := by
  rw [expandWith, expandWith]
  split
  · apply Below.andThen
    intro binding
    match binding with
    | some (.transformer p) => exact Below.andThen fun out => more out r
    | some (.lexical _) | some (.core _) | none => exact Below.refl _
  · split
    · rename_i head rest _ _
      split
      · apply Below.andThen
        intro binding
        match binding with
        | some (.transformer p) => exact Below.andThen fun out => more out r
        | some (.core p) => exact expCore_below more p x r
        | some (.lexical _) | none => exact (expExprs_below more r _).bind fun _ => Below.refl _
      · exact (more head r).bind fun _ => (expExprs_below more r _).bind fun _ => Below.refl _
    · exact Below.refl _

theorem expand_below {depth deeper : Nat} (more : depth ≤ deeper) (x : Stx) (r : Env Proc) :
    Below (expand host depth x r) (expand host deeper x r) := by
  induction depth generalizing deeper x r with
  | zero =>
    intro s a s' never
    cases never
  | succ depth ih =>
    obtain ⟨n, rfl⟩ : ∃ n, deeper = n + 1 := ⟨deeper - 1, by omega⟩
    exact expandWith_below (fun x r => ih (by omega) x r) x r

end below

end LGears.Expand
