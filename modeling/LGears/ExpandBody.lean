import LGears.Expand

/- The body of a lambda: expand-body hands the list of its forms to expand. -/
namespace LGears.ExpandBody
open SyntaxCore SyntaxPattern Expand StateExcept

section body
variable {Proc : Type} (host : Host Proc)

/-- The expansion of x returns out and leaves s'. -/
def Expands (x : Stx) (r : Env Proc) (s : Fresh) (out : Raw) (s' : Fresh) : Prop :=
  ∃ depth, Returns (expand host depth x r) s out s'

/-- The expansions of the forms, each on its own, one after the other. -/
inductive ExpandsEach (r : Env Proc) : List Stx → Fresh → List Raw → Fresh → Prop where
  | nil (s : Fresh) : ExpandsEach r [] s [] s
  | cons {x : Stx} {xs : List Stx} {s t s' : Fresh} {out : Raw} {outs : List Raw} :
    Expands host x r s out t → ExpandsEach r xs t outs s' →
      ExpandsEach r (x :: xs) s (out :: outs) s'

/-- The arguments of expand-body. -/
structure Body (Proc : Type) where
  src : Stx
  env : Env Proc
  varlist : List Stx
  newVars : List Symbol
  body : List Stx

/-- After splicing and the removal of define-syntax the body is the list whole of the forms, to be
    expanded in r. -/
def Extended (b : Body Proc) (s : Fresh) (whole : Stx) (forms : List Stx) (r : Env Proc)
    (t : Fresh) : Prop :=
  ∃ depth wrap inner,
    Returns (extendBody host (expand host depth) b.src b.env b.varlist b.newVars b.body) s
      (wrap, inner, r) t ∧ whole = .object (list inner) wrap ∧ forms = inner.map (extendWrap wrap)

/-- (expand-body src env varlist new-vars body) returns out. -/
def Returned (b : Body Proc) (s : Fresh) (out : Raw) (s' : Fresh) : Prop :=
  ∃ depth, Returns
    (expandBody host (expand host depth) b.src b.env b.varlist b.newVars b.body) s out s'

/-- The first form is no identifier with a binding that is not lexical. -/
def FirstPlain (r : Env Proc) : List Stx → Prop
  | [] => True
  | x :: _ => isIdentifier x = true → ∀ label b, idLabel x = some label → r.lookup label = some b →
    ∃ name, b = .lexical name

end body

section forms
variable {Proc : Type} {host : Host Proc} {r : Env Proc} {self : Stx → Env Proc → Expansion Raw}
  {x : Stx} {xs : List Stx} {s t s' : Fresh} {out : Raw} {outs : List Raw} {wrap : Wrap}

theorem object_list (wrap : Wrap) (xs : List Stx) :
    extendWrap wrap (list xs) = .object (list xs) wrap := by
  cases xs <;> rfl

theorem syntaxToPair_list (wrap : Wrap) (xs : List Stx) :
    syntaxToPair (.object (list xs) wrap) = list (xs.map (extendWrap wrap)) := by
  induction xs with
  | nil =>
    rw [syntaxToPair, if_pos (by rfl)]
    rfl
  | cons x xs ih =>
    have rest : syntaxCdr (.object (list (x :: xs)) wrap) = some (.object (list xs) wrap) :=
      congrArg some (object_list wrap xs)
    rw [syntaxToPair, if_neg (by simp [list, isSyntaxNull])]
    split
    · rename_i a d first' rest'
      rw [rest] at rest'
      cases rest'
      cases first'
      rw [ih]
      rfl
    · rename_i never
      exact absurd rest (never _ _ rfl)

theorem expExprs_list (self : Stx → Env Proc → Expansion Raw) (r : Env Proc) (xs : List Stx) :
    expExprs self r (list xs) = rawList <$> xs.mapM fun x => self x r := by
  induction xs with
  | nil => rfl
  | cons x xs ih =>
    rw [list, expExprs, ih, List.mapM_cons]
    simp only [map_bind, bind_map_left, map_pure]
    rfl

theorem ExpandsEach.ofMapM {depth : Nat}
    (runs : Returns (xs.mapM fun x => expand host depth x r) s outs s') :
    ExpandsEach host r xs s outs s' := by
  induction xs generalizing s outs with
  | nil =>
    rw [List.mapM_nil, returns_pure] at runs
    obtain ⟨rfl, rfl⟩ := runs
    exact .nil s
  | cons x xs ih =>
    simp only [List.mapM_cons, returns_bind, returns_pure] at runs
    obtain ⟨out, t, first, outs, t', rest, rfl, rfl⟩ := runs
    exact .cons ⟨depth, first⟩ (ih rest)

theorem ExpandsEach.toMapM (each : ExpandsEach host r xs s outs s') :
    ∃ depth, Returns (xs.mapM fun x => expand host depth x r) s outs s' := by
  induction each with
  | nil s => exact ⟨0, by rw [List.mapM_nil, returns_pure]; exact ⟨rfl, rfl⟩⟩
  | cons first rest ih =>
    obtain ⟨n, first⟩ := first
    obtain ⟨m, rest⟩ := ih
    have first := expand_below (Nat.le_max_left n m) _ r _ _ _ first
    have rest := Below.mapM (fun x => expand_below (Nat.le_max_right n m) x r) _ _ _ _ rest
    refine ⟨max n m, ?_⟩
    simp only [List.mapM_cons, returns_bind, returns_pure]
    exact ⟨_, _, first, _, _, rest, rfl, rfl⟩

theorem ExpandsEach.length (each : ExpandsEach host r xs s outs s') : outs.length = xs.length := by
  induction each with
  | nil s => rfl
  | cons first rest ih => rw [List.length_cons, List.length_cons, ih]

theorem expandForm_plain {head rest whole : Stx} (identifier : isIdentifier head = true)
    (plain : FirstPlain r [head]) : expandForm host self whole head rest r = (do
      let first ← expandIdentifier host self head r
      return .pair first (← expExprs self r (syntaxToPair rest))) := by
  have plain := plain identifier
  rw [expandForm, expandIdentifier, idBinding]
  cases label : idLabel head with
  | none => rfl
  | some label' =>
    cases binding : r.lookup label' with
    | none =>
      simp only [labelBinding, binding]
      rfl
    | some b =>
      obtain ⟨name, rfl⟩ := plain label' b label binding
      simp only [labelBinding, binding]
      rfl

/-- The first form of a list in expand. -/
def expandHead (host : Host Proc) (self : Stx → Env Proc → Expansion Raw) (head : Stx)
    (r : Env Proc) : Expansion Raw :=
  if isIdentifier head then expandWith host self head r else self head r

theorem expandWith_list (plain : FirstPlain r ((x :: xs).map (extendWrap wrap))) :
    expandWith host self (.object (list (x :: xs)) wrap) r = (do
      let first ← expandHead host self (extendWrap wrap x) r
      let rest ← (xs.map (extendWrap wrap)).mapM fun x => self x r
      return rawList (first :: rest)) := by
  have parts : syntaxCdr (.object (list (x :: xs)) wrap) = some (.object (list xs) wrap) :=
    congrArg some (object_list wrap xs)
  rw [expandWith, if_neg (by simp [list, isIdentifier]), parts]
  simp only [list, syntaxCar, expandHead]
  cases identifier : isIdentifier (extendWrap wrap x) with
  | true =>
    rw [if_pos rfl, if_pos rfl, expandForm_plain identifier plain, expandWith, if_pos identifier,
      syntaxToPair_list, expExprs_list]
    simp only [map_eq_pure_bind, bind_assoc, pure_bind]
    rfl
  | false =>
    rw [if_neg Bool.false_ne_true, if_neg Bool.false_ne_true, syntaxToPair_list, expExprs_list]
    simp only [map_eq_pure_bind, bind_assoc, pure_bind]
    rfl

theorem expands_list_iff (plain : FirstPlain r (xs.map (extendWrap wrap))) :
    Expands host (.object (list xs) wrap) r s out s' ↔
      ∃ outs, out = rawList outs ∧ ExpandsEach host r (xs.map (extendWrap wrap)) s outs s' := by
  cases xs with
  | nil =>
    have empty : ∀ depth, Returns (expand host (depth + 1) (.object (list []) wrap) r) s out s' ↔
        .lit .null = out ∧ s = s' := fun depth => returns_pure
    constructor
    · intro expands
      obtain ⟨depth, runs⟩ := expands
      cases depth with
      | zero => cases runs
      | succ depth =>
        obtain ⟨rfl, rfl⟩ := (empty depth).mp runs
        exact ⟨[], rfl, .nil s⟩
    · intro several
      obtain ⟨outs, same, each⟩ := several
      cases each
      exact ⟨1, (empty 0).mpr ⟨same.symm, rfl⟩⟩
  | cons x xs =>
    constructor
    · intro expands
      obtain ⟨depth, runs⟩ := expands
      cases depth with
      | zero => cases runs
      | succ depth =>
        rw [expand, expandWith_list plain] at runs
        simp only [returns_bind, returns_pure] at runs
        obtain ⟨first, t, head, outs, t', rest, rfl, rfl⟩ := runs
        refine ⟨first :: outs, rfl, .cons ?_ (.ofMapM rest)⟩
        rw [expandHead] at head
        split at head
        · exact ⟨depth + 1, head⟩
        · exact ⟨depth, head⟩
    · intro several
      obtain ⟨outs, same, each⟩ := several
      obtain ⟨depth, runs⟩ := each.toMapM
      simp only [List.map_cons, List.mapM_cons, returns_bind, returns_pure] at runs
      obtain ⟨first, t, head, outs, t', rest, rfl, rfl⟩ := runs
      refine ⟨depth + 1, ?_⟩
      rw [expand, expandWith_list plain]
      simp only [returns_bind, returns_pure]
      refine ⟨first, t, ?_, outs, t', rest, same.symm, rfl⟩
      rw [expandHead]
      split
      · exact expand_below (Nat.le_succ depth) _ r _ _ _ head
      · exact head

/-- What expand makes of a list whose first form is an identifier with the binding. -/
def operate (host : Host Proc) (self : Stx → Env Proc → Expansion Raw) (whole : Stx)
    (r : Env Proc) : Binding Proc → Expansion Raw
  | .transformer p => do self (← expMacro host p whole) r
  | .core p => expCore host self p whole r
  | .lexical name => do return .pair (.sym name) (← expExprs self r (syntaxToPair whole))

theorem expands_list_other {label : Label} {b : Binding Proc}
    (identifier : isIdentifier (extendWrap wrap x) = true)
    (here : idLabel (extendWrap wrap x) = some label) (bound : r.lookup label = some b)
    (other : ∀ name, b ≠ .lexical name) :
    Expands host (.object (list (x :: xs)) wrap) r s out s' ↔ ∃ depth,
      Returns (operate host (expand host depth) (.object (list (x :: xs)) wrap) r b) s out s' := by
  have parts : syntaxCdr (.object (list (x :: xs)) wrap) = some (.object (list xs) wrap) :=
    congrArg some (object_list wrap xs)
  have step : ∀ depth, expand host (depth + 1) (.object (list (x :: xs)) wrap) r =
      operate host (expand host depth) (.object (list (x :: xs)) wrap) r b := by
    intro depth
    rw [expand, expandWith, if_neg (by simp [list, isIdentifier]), parts]
    simp only [list, syntaxCar]
    rw [if_pos identifier, expandForm, idBinding, here]
    simp only [labelBinding, bound, ofOption, map_pure, pure_bind]
    cases b with
    | lexical name => exact absurd rfl (other name)
    | _ => rfl
  constructor
  · intro expands
    obtain ⟨depth, runs⟩ := expands
    cases depth with
    | zero => cases runs
    | succ depth =>
      rw [step] at runs
      exact ⟨depth, runs⟩
  · intro expands
    obtain ⟨depth, runs⟩ := expands
    refine ⟨depth + 1, ?_⟩
    rw [step]
    exact runs

end forms

section whole
variable {Proc : Type} {host : Host Proc} {b : Body Proc} {s s' t : Fresh} {out : Raw}
  {whole : Stx} {forms : List Stx} {r : Env Proc}

theorem returned_iff (extended : Extended host b s whole forms r t) :
    Returned host b s out s' ↔ Expands host whole r t out s' := by
  obtain ⟨n, wrap, inner, extends_n, rfl, _⟩ := extended
  constructor
  · intro ⟨m, runs⟩
    rw [expandBody, returns_bind] at runs
    obtain ⟨⟨wrap', inner', r'⟩, t', extends_m, runs⟩ := runs
    have first := extendBody_below (fun x r => expand_below (Nat.le_max_left n m) x r)
      _ _ _ _ _ _ _ _ extends_n
    have second := extendBody_below (fun x r => expand_below (Nat.le_max_right n m) x r)
      _ _ _ _ _ _ _ _ extends_m
    obtain ⟨same, rfl⟩ := first.unique second
    cases same
    change Returns (expand host m (extendWrap wrap (list inner)) r) t out s' at runs
    rw [object_list] at runs
    exact ⟨m, runs⟩
  · intro ⟨m, runs⟩
    refine ⟨max n m, ?_⟩
    rw [expandBody, returns_bind]
    refine ⟨(wrap, inner, r), t, ?_, ?_⟩
    · exact extendBody_below (fun x r => expand_below (Nat.le_max_left n m) x r)
        _ _ _ _ _ _ _ _ extends_n
    · rw [← object_list] at runs
      exact expand_below (Nat.le_max_right n m) _ r _ _ _ runs

/- Each form of a body is expanded on its own unless the first one is an identifier whose binding is
   not lexical; such an identifier is given the list of all forms as its own form. -/
theorem body_by_first_form (extended : Extended host b s whole forms r t) :
    (FirstPlain r forms → ∀ out s', Returned host b s out s' ↔
      ∃ outs, out = rawList outs ∧ outs.length = forms.length ∧
        ExpandsEach host r forms t outs s') ∧
    (∀ x xs label binding, forms = x :: xs → isIdentifier x = true → idLabel x = some label →
      r.lookup label = some binding → (∀ name, binding ≠ .lexical name) →
      ∀ out s', Returned host b s out s' ↔
        ∃ depth, Returns (operate host (expand host depth) whole r binding) t out s') := by
  have whole_list : ∀ out s', Returned host b s out s' ↔ Expands host whole r t out s' :=
    fun _ _ => returned_iff extended
  obtain ⟨_, wrap, inner, _, rfl, rfl⟩ := extended
  constructor
  · intro plain out s'
    rw [whole_list, expands_list_iff plain]
    constructor
    · intro ⟨outs, same, each⟩
      exact ⟨outs, same, each.length, each⟩
    · intro ⟨outs, same, _, each⟩
      exact ⟨outs, same, each⟩
  · intro x xs label binding same identifier here bound other out s'
    rw [whole_list]
    cases inner with
    | nil => cases same
    | cons y ys =>
      cases same
      exact expands_list_other identifier here bound other

end whole

/- Bodies of (lambda (x) ...) where + is a macro and x is lexical. -/

/-- The transformer of + in core.arithmetic. -/
def addTransformer (y : Stx) : Expansion Stx :=
  syntaxMatch y [
    (pats [.sym "_"] (.lit .null), fun _ => return .lit (.num 0)),
    (pats [.sym "_", .sym "a"] (.lit .null), fun
      | [a] => return a
      | _ => syntaxError),
    (pats [.sym "_", .sym "a", .sym "b"] (.lit .null), fun
      | [a, b] => return stxs [.sym "$+", a, b] .null
      | _ => syntaxError),
    (pats [.sym "mac", .sym "a", .sym "b"] (more (.sym "c")), fun
      | [mac, a, b, c] => return stxs [mac, stxs [.sym "$+", a, b] .null] c
      | _ => syntaxError),
    (.sym "id", fun _ =>
      let params := stxs [.sym "x", .sym "y"] .null
      let lambda := stxs [.sym "lambda", params, stxs [.sym "$+", .sym "x", .sym "y"] .null] .null
      return stxs [.sym "__add/mul_proc", .lit (.num 0), lambda] .null)]

def sampleHost : Host Unit where
  eval _ := return ()
  call _ := addTransformer
  display
    | .sym s => s
    | _ => ""

def sampleWrap : Wrap := [.subst { sym := some "+", marks := [0], label := 0 }, .mark 0]

def sampleBody (forms : List Symbol) : Body Unit where
  src := .object .null sampleWrap
  env := [(0, .transformer ())]
  varlist := [.object (.sym "x") sampleWrap]
  newVars := ["x.0"]
  body := forms.map fun s => .object (.sym s) sampleWrap

def sampleFresh : Fresh := { mark := 1, label := 1, lastName := 1 }

theorem spliceBegin_symbols (names : List Symbol) :
    spliceBegin (names.map fun s => .object (.sym s) sampleWrap) =
      some (names.map fun s => .object (.sym s) sampleWrap) := by
  induction names with
  | nil => simp [spliceBegin]
  | cons s names ih =>
    simp only [List.map_cons]
    rw [spliceBegin, ih]
    rfl

theorem sample_extended (first second : Symbol) :
    Extended sampleHost (sampleBody [first, second]) sampleFresh
      (.object (list [.object (.sym first) sampleWrap, .object (.sym second) sampleWrap])
        [.subst { sym := some "x", marks := [0], label := 1 }])
      [.object (.sym first) (.subst { sym := some "x", marks := [0], label := 1 } :: sampleWrap),
        .object (.sym second) (.subst { sym := some "x", marks := [0], label := 1 } :: sampleWrap)]
      [(1, .lexical "x.0"), (0, .transformer ())] { sampleFresh with label := 2 } := by
  refine ⟨0, _, [.object (.sym first) sampleWrap, .object (.sym second) sampleWrap], ?_, rfl, rfl⟩
  have splice := spliceBegin_symbols [first, second]
  simp only [Returns, extendBody, sampleBody, splice]
  rfl

/- The body x y has two forms. -/
theorem body_by_first_form_sample : Returned sampleHost (sampleBody ["x", "y"]) sampleFresh
    (rawList [.sym "x.0", .sym "y"]) { sampleFresh with label := 2 } := by
  refine ((body_by_first_form (sample_extended "x" "y")).1 ?_ _ _).mpr ⟨_, rfl, rfl, ?_⟩
  · intro _ label b here bound
    cases here
    cases bound
    exact ⟨_, rfl⟩
  · exact .cons ⟨1, rfl⟩ (.cons ⟨1, rfl⟩ (.nil _))

/- The body + x is given to the macro + and comes to x, which is no list. -/
theorem macro_takes_body : ¬ ∀ (b : Body Unit) (s t s' : Fresh) (whole : Stx) (forms : List Stx)
    (r : Env Unit) (out : Raw), Extended sampleHost b s whole forms r t →
    Returned sampleHost b s out s' → ∃ outs, out = rawList outs ∧ outs.length = forms.length ∧
      ExpandsEach sampleHost r forms t outs s' := by
  intro claim
  have extended := sample_extended "+" "x"
  have runs : Returned sampleHost (sampleBody ["+", "x"]) sampleFresh (.sym "x.0")
      { sampleFresh with mark := 2, label := 2 } := by
    rw [returned_iff extended]
    exact ⟨3, rfl⟩
  obtain ⟨outs, same, two, _⟩ := claim _ _ _ _ _ _ _ _ extended runs
  cases outs with
  | nil => cases two
  | cons x outs => cases same

end LGears.ExpandBody
