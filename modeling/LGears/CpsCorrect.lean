import LGears.CpsInvariant

/- Correctness of the conversion: the machine running a converted program refines the
   direct evaluation of the source, fuel for steps. -/
namespace LGears.CpsCorrect
open StateExcept GenName PrimitivesInfo Values Machine Cps CpsMachine Renaming Direct CoreProgram

/-- A state from which the run gives no result. -/
def Bad (W : World) (c : Config) : Prop :=
  step W c = .stuck ∨ ∃ v s, step W c = .halt (.exit v s)

/-- Source closures and the closures of their converted code. -/
def Converted (lax : Bool) (m₀ m₁ : Nat) : ClosureRel := fun s β args body ρ args' body' ρ' =>
  ∃ bound m m', m₀ ≤ m ∧ m' ≤ m₁ ∧ Returns (convertFunc args body) m (.lambda args' body') m' ∧
    EnvRel (SourceName m₀ m₁) β ρ ρ' ∧ convertible lax bound .value (.lambda args body) = true ∧
    (Node.lambda args body).Over (SourceName m₀ m₁) ∧ (lax = true → ρ' "void" = none) ∧
    Ready bound ρ s

theorem converted_widening (lax : Bool) (m₀ m₁ : Nat) : Widening (Converted lax m₀ m₁) := by
  rintro s s₁ β β' later le args body ρ args' body' ρ'
    ⟨bound, m, m', low, high, conv, env, ok, named, void, ready⟩
  exact ⟨bound, m, m', low, high, conv, env.mono le, ok, named, void, ready.later later⟩

/-- The conversion of a node, with the counter between m₀ and m₁. -/
structure Placed (lax : Bool) (bound : List Symbol) (m₀ m₁ : Nat) (node : Node) (pos : Position) (res : Option Node)
    (name : Symbol) (m : Nat) (t : Node) (m' : Nat) : Prop where
  conv : Returns (convert res node name) m t m'
  ok : convertible lax bound pos node = true
  wellNamed : node.Over (SourceName m₀ m₁)
  tail : res = none ↔ pos = .tail
  name : ∃ k, m₀ ≤ k ∧ k < m ∧ name = varName k
  high : m' ≤ m₁

/-- The two states in which a node and its conversion are run. -/
structure Situation (W : World) (lax : Bool) (bound : List Symbol) (m₀ m₁ : Nat) (β γ : Ren) (ρ ρ' : Env)
    (s s' : State) (res : Option Node) (name : Symbol) (κ : Value) : Prop where
  rel : StateRel W (Converted lax m₀ m₁) β γ s s'
  env : EnvRel (SourceName m₀ m₁) β ρ ρ'
  void : lax = true → ρ' "void" = none
  cont : res = none → Holds β ρ' s' name κ
  ready : Ready bound ρ s

/-- The variables a converted node may bind. -/
def Changed (name : Symbol) (m m' : Nat) : Symbol → Prop := fun x => x = name ∨ Generated m m' x

section simulation
variable {W : World} {lax : Bool} {bound : List Symbol} {m₀ m₁ : Nat}

def Simulates (W : World) (lax : Bool) (m₀ m₁ n : Nat) (β γ : Ren) (ρ' : Env) (s s' : State)
    (D : Symbol → Prop) (name : Symbol) (pos : Position) (κ : Value) (res : Option Node)
    (o : Outcome (Value × State)) (c : Config) : Prop :=
  Refines (step W) (Bad W) n o c fun p d =>
    Arrive W (Converted lax m₀ m₁) β γ ρ' s s' D name pos κ res p.1 p.2 d

def EvalSim (W : World) (lax : Bool) (m₀ m₁ n : Nat) (node : Node) : Prop :=
  ∀ {bound pos res name m t m'}, Placed lax bound m₀ m₁ node pos res name m t m' →
    ∀ {β γ ρ ρ' s s' κ}, Situation W lax bound m₀ m₁ β γ ρ ρ' s s' res name κ →
      Simulates W lax m₀ m₁ n β γ ρ' s s' (Changed name m m') name pos κ res
        (eval W selfEval (enterN W selfEval n) ρ node s) (start [t] ρ' s')

def CallSim (W : World) (lax : Bool) (m₀ m₁ n : Nat) : Prop :=
  ∀ {β γ s s' f f' vs vs'} (κ : Value), StateRel W (Converted lax m₀ m₁) β γ s s' →
    ValueRel β γ f f' → List.Forall₂ (ValueRel β γ) vs vs' →
      Refines (step W) (Bad W) n (applyProc W (enterN W selfEval n) f vs s)
        (.call f' (κ :: vs') s') fun p c => ∃ v' s₁' β₁ γ₁, c = .call κ [v'] s₁' ∧
          StateRel W (Converted lax m₀ m₁) β₁ γ₁ p.2 s₁' ∧
          Extends NoneOld β γ s s' β₁ γ₁ p.2 s₁' ∧ ValueRel β₁ γ₁ p.1 v'

variable {n m m' : Nat} {β γ β₁ γ₁ : Ren} {ρ ρ' ρ₁' : Env} {s s' s₁ s₁' : State}
  {res : Option Node} {name : Symbol} {κ : Value} {pos : Position} {D E : Symbol → Prop}
  {node t : Node}

theorem bad_stuck {c : Config} (h : step W c = .stuck) : Bad W c := .inl h

theorem generated_source {x : Symbol} (low : m₀ ≤ m) (high : m' ≤ m₁) (h : Generated m m' x) :
    ¬ SourceName m₀ m₁ x := by
  obtain ⟨i, hm, hm', rfl⟩ := h
  exact fun source => source ⟨i, by omega, by omega, rfl⟩

theorem Placed.nameNot (h : Placed lax bound m₀ m₁ node pos res name m t m') :
    name ∉ primitivesOperators := by
  obtain ⟨k, _, _, rfl⟩ := h.name
  exact varName_not_operator k

theorem Situation.later (h : Situation W lax bound m₀ m₁ β γ ρ ρ' s s' res name κ)
    (res₁ : Option Node) (name₁ : Symbol) (κ₁ : Value)
    (rel : StateRel W (Converted lax m₀ m₁) β₁ γ₁ s₁ s₁') (agree : Agree D ρ' ρ₁')
    {A : Nat → Prop} (grow : Extends A β γ s s' β₁ γ₁ s₁ s₁')
    (gen : ∀ x, D x → ∃ k, m₀ ≤ k ∧ k < m₁ ∧ x = varName k) (cont : res₁ = none → Holds β₁ ρ₁' s₁' name₁ κ₁) :
    Situation W lax bound m₀ m₁ β₁ γ₁ ρ ρ₁' s₁ s₁' res₁ name₁ κ₁ where
  rel := rel
  env x hx := by
    rw [agree x]
    · exact (h.env.mono grow.objs) x hx
    · intro hD
      obtain ⟨k, low, high, rfl⟩ := gen x hD
      exact hx ⟨k, low, high, rfl⟩
  void l := by
    rw [agree, h.void l]
    intro hD
    obtain ⟨k, _, _, same⟩ := gen _ hD
    exact varName_ne (by decide) k same.symm
  cont := cont
  ready := h.ready.later grow.cells

theorem Situation.unname (h : Situation W lax bound m₀ m₁ β γ ρ ρ' s s' res name κ) (r : Node)
    (name₁ : Symbol) : Situation W lax bound m₀ m₁ β γ ρ ρ' s s' (some r) name₁ κ :=
  ⟨h.rel, h.env, h.void, by simp, h.ready⟩

theorem pass_simulates (n : Nat) (pos : Position) {ctl node' : Node} {o : Option (Value × State)} {t' : State}
    (hc : Control name res ctl) (notOp : name ∉ primitivesOperators) (agree : Agree D ρ' ρ₁')
    (cont : res = none → Holds β ρ₁' s' name κ)
    (matched : MatchedValue W (Converted lax m₀ m₁) NoneOld β γ s s' o
      (evalSimple W ρ₁' node' t')) (hD : D name) :
    Simulates W lax m₀ m₁ n β γ ρ' s s' D name pos κ res (.ofOption o)
      (start [.app ctl [node']] ρ₁' t') := by
  have fn := hc.notOperator notOp
  match o, ev : evalSimple W ρ₁' node' t' with
  | none, none =>
    exact .error (bad_stuck (step_app_fails fn (by simp [evalSimples, ev])))
  | none, some _ | some _, none =>
    rw [ev] at matched
    exact matched.elim
  | some (v, s₁), some (v', s₁') =>
    rw [ev] at matched
    obtain ⟨β₁, γ₁, rel, grow, val⟩ := matched
    obtain ⟨κ₁, s₂', evalC, rel₂, grow₂, awaits⟩ :=
      hc.eval (converted_widening _ _ _) rel fun h => (cont h).extend grow
    have operands : evalSimples W ρ₁' [node'] t' = some ([v'], s₁') := by simp [evalSimples, ev]
    obtain ⟨c, reach, arrive⟩ := awaits.resume pos (converted_widening _ _ _) rel₂
      (grow.then grow₂) val hD
    exact .after (.one (step_app fn operands evalC))
      (.after reach (.ok (arrive.earlier agree (.refl _ _ _ _ _) fun _ h => h)))

theorem deliver_simulates {node' : Node} {o : Option (Value × State)}
    (notOp : name ∉ primitivesOperators)
    (sit : Situation W lax bound m₀ m₁ β γ ρ ρ' s s' res name κ)
    (matched : MatchedValue W (Converted lax m₀ m₁) NoneOld β γ s s' o
      (evalSimple W ρ' node' s')) (hD : D name) :
    Simulates W lax m₀ m₁ n β γ ρ' s s' D name pos κ res (.ofOption o)
      (start [deliver res name node'] ρ' s') := by
  obtain ⟨ctl, hc, same⟩ := deliver_eq res name node'
  rw [same]
  exact pass_simulates n pos hc notOp (.refl _ _) sit.cont matched hD

theorem convertFunc_lambda {args : Formals} {body : List Node} {func : Node}
    (h : Returns (convertFunc args body) m func m') :
    ∃ args' body', func = .lambda args' body' := by
  rw [convertFunc_eq] at h
  simp only [returns_bind, returns_pure] at h
  obtain ⟨_, _, _, _, _, _, rfl, _⟩ := h
  exact ⟨_, _, rfl⟩

/- A source closure that is not known yet gets the closure of its converted code. -/
theorem map_closure {args args' : Formals} {body body' : List Node} {i : Nat}
    (sit : Situation W lax bound m₀ m₁ β γ ρ ρ' s s' res name κ) (low : m₀ ≤ m) (high : m' ≤ m₁)
    (conv : Returns (convertFunc args body) m (.lambda args' body') m')
    (ok : convertible lax bound .value (.lambda args body) = true)
    (wellNamed : (Node.lambda args body).Over (SourceName m₀ m₁))
    (here : s.get i = some (.closure args body ρ)) (fresh : ∀ b, ¬ γ i b) :
    StateRel W (Converted lax m₀ m₁) β (γ.add i s'.top) s (s'.alloc (.closure args' body' ρ')) :=
  sit.rel.mapProc (converted_widening _ _ _) here (fun _ => fresh)
    ⟨bound, m, m', low, high, conv, sit.env, ok, wellNamed, sit.void, sit.ready⟩

theorem lambda_matched {args : Formals} {body : List Node} {func : Node}
    (sit : Situation W lax bound m₀ m₁ β γ ρ ρ' s s' res name κ) (low : m₀ ≤ m) (high : m' ≤ m₁)
    (conv : Returns (convertFunc args body) m func m')
    (ok : convertible lax bound .value (.lambda args body) = true)
    (wellNamed : (Node.lambda args body).Over (SourceName m₀ m₁)) :
    MatchedValue W (Converted lax m₀ m₁) NoneOld β γ s s'
      (evalSimple W ρ (.lambda args body) s) (evalSimple W ρ' func s') := by
  obtain ⟨args', body', rfl⟩ := convertFunc_lambda conv
  rw [evalSimple_lambda, evalSimple_lambda]
  have left := extends_allocLeft β γ s s' (.closure args body ρ)
  have sit₁ := sit.later res name κ (sit.rel.allocLeft (converted_widening _ _ _) _)
    (.refl (fun _ => False) ρ') left (fun _ no => no.elim) fun h => (sit.cont h).extend left
  refine ⟨β, γ.add s.top s'.top, map_closure sit₁ low high conv ok wellNamed (by simp) ?_,
    left.trans (extends_mapProc _ _ _ _ _ _) fun m h => .inr (h ▸ le_refl _),
    .proc (Ren.add_self _ _ _)⟩
  intro b hb
  have := sit.rel.proc_lt_left hb
  omega

theorem join_reaches (k : Nat) (cond : Node) (rel : StateRel W (Converted lax m₀ m₁) β γ s s')
    (cont : res = none → Holds β ρ' s' name κ) :
    ∃ κ₁ ρ₁' s₁', Reaches (step W) (start [joinExpr res name (varName k) cond] ρ' s')
        (start [cond] ρ₁' s₁') ∧
      StateRel W (Converted lax m₀ m₁) β γ s s₁' ∧ Extends NoneOld β γ s s' β γ s s₁' ∧
      Agree (fun x => x = varName k) ρ' ρ₁' ∧
      Holds β ρ₁' s₁' (if res.isNone then name else varName k) κ₁ ∧
      Awaits κ ρ' name res κ₁ s₁' := by
  cases res with
  | none =>
    exact ⟨κ, ρ', s', .refl _, rel, .refl _ _ _ _ _, .refl _ _, by simpa using cont rfl, .tail⟩
  | some r =>
    have mono := converted_widening lax m₀ m₁
    let join : Obj := .closure ⟨[name], none⟩ [r] ρ'
    let body : Obj := .closure ⟨[varName k], none⟩ [cond] ρ'
    have rel₁ := (rel.allocRight mono join).allocRight mono body
    have grow₁ := (extends_allocRight β γ s s' join).then (extends_allocRight β γ s _ body)
    have call : step W (start [joinExpr (some r) name (varName k) cond] ρ' s') =
        .next (.call (.proc (s'.top + 1)) [.proc s'.top] ((s'.alloc join).alloc body)) :=
      step_app rfl (by simp [evalSimples]; rfl) (by simp [join, body])
    have enter : step W (.call (.proc (s'.top + 1)) [.proc s'.top] ((s'.alloc join).alloc body)) =
        .next (start [cond] (ρ'.bind (varName k) (s'.top + 2))
          (((s'.alloc join).alloc body).alloc (.cell (some (.proc s'.top))))) := by
      have here : ((s'.alloc join).alloc body).get (s'.top + 1) = some body := by
        rw [← top_alloc s' join, get_alloc_top]
      rw [step_cont here]
      simp
    refine ⟨.proc s'.top, _, _, (Reaches.one call).trans (.one enter), rel₁.allocRight mono _,
      grow₁.then (extends_allocRight _ _ _ _ _), agree_bind (D := fun x => x = varName k) rfl _ _, ?_, .rest ?_ fun _ _ => rfl⟩
    · have := holds_bind rel₁ ρ' (varName k) (.proc s'.top)
      simpa using this
    · exact get_alloc (get_alloc (get_alloc_top s' join) _) _

theorem join_simulates (pos : Position) {a b a' b' : Node} (predname : Node) {k m₂ m₃ : Nat} (ha : EvalSim W lax m₀ m₁ n a)
    (hb : EvalSim W lax m₀ m₁ n b)
    (placedA : Placed lax bound m₀ m₁ a .tail none (if res.isNone then name else varName k) (k + 1) a' m₂)
    (placedB : Placed lax bound m₀ m₁ b .tail none (if res.isNone then name else varName k) m₂ b' m₃)
    (hk : m₀ ≤ k ∧ k < m₁) (sit : Situation W lax bound m₀ m₁ β γ ρ ρ' s s' res name κ) (hD : D name)
    {o : Option (Value × State)}
    (pred : ∀ {ρ₁' s₁'}, StateRel W (Converted lax m₀ m₁) β γ s s₁' →
      Extends NoneOld β γ s s' β γ s s₁' → Agree (fun x => x = varName k) ρ' ρ₁' →
      MatchedValue W (Converted lax m₀ m₁) NoneOld β γ s s₁' o (evalSimple W ρ₁' predname s₁')) :
    Simulates W lax m₀ m₁ n β γ ρ' s s' D name pos κ res
      (.ofOption o >>= fun p => if truthy p.1 then eval W selfEval (enterN W selfEval n) ρ a p.2
        else eval W selfEval (enterN W selfEval n) ρ b p.2)
      (start [joinExpr res name (varName k) (.ite predname a' b')] ρ' s') := by
  obtain ⟨κ₁, ρ₁', s₁', reach, rel₁, grow₁, agree₁, holds₁, awaits⟩ :=
    join_reaches k (.ite predname a' b') sit.rel sit.cont
  refine .after reach ?_
  have matched := pred rel₁ grow₁ agree₁
  match o, ev : evalSimple W ρ₁' predname s₁' with
  | none, none => exact .error (bad_stuck (step_ite_fails ev))
  | none, some _ | some _, none =>
    rw [ev] at matched
    exact matched.elim
  | some (v, s₂), some (v', s₂') =>
    rw [ev] at matched
    obtain ⟨β₂, γ₂, rel₂, grow₂, val⟩ := matched
    have sit₂ := sit.later none _ κ₁ rel₂ agree₁ (grow₁.trans grow₂ fun _ h => h.elim)
      (fun x hx => ⟨k, hk.1, hk.2, hx⟩) fun _ => holds₁.extend grow₂
    have resume {o : Outcome (Value × State)} {c : Config} {E : Symbol → Prop}
        (h : Simulates W lax m₀ m₁ n β₂ γ₂ ρ₁' s₂ s₂' E
          (if res.isNone then name else varName k) .tail κ₁ none o c) :
        Simulates W lax m₀ m₁ n β γ ρ' s s' D name pos κ res o c := by
      rw [← Outcome.bind_ok o]
      refine Refines.bind h ?_
      rintro ⟨v, s₃⟩ _ ⟨rel₃, grow₃, val₃⟩
      have grow := (grow₁.then grow₂).then grow₃
      obtain ⟨c, reach, arrive⟩ := ((awaits.keep rel₁ grow₂).keep rel₂ grow₃).resume pos
        (converted_widening _ _ _) rel₃ grow val₃ hD
      exact .after reach (.ok arrive)
    refine .after (.one (step_ite ev)) ?_
    simp only [Outcome.ofOption_some, Outcome.ok_bind, val.truthy]
    split
    · exact resume (ha placedA sit₂)
    · exact resume (hb placedB sit₂)

theorem Placed.counter (h : Placed lax bound m₀ m₁ node pos res name m t m') : m ≤ m' :=
  convert_rising node res name m t m' h.conv

theorem Placed.changed (h : Placed lax bound m₀ m₁ node pos res name m t m') :
    ∀ x, Changed name m m' x → ∃ k, m₀ ≤ k ∧ k < m₁ ∧ x = varName k := by
  obtain ⟨k, low, lt, rfl⟩ := h.name
  have := h.counter
  have := h.high
  rintro x (rfl | ⟨i, hi, hi', rfl⟩)
  · exact ⟨k, low, by omega, rfl⟩
  · exact ⟨i, by omega, by omega, rfl⟩

theorem Placed.low (h : Placed lax bound m₀ m₁ node pos res name m t m') : m₀ ≤ m := by
  obtain ⟨k, low, lt, rfl⟩ := h.name
  omega

theorem simple_simulates {node : Node} (simple : selfEval node = true) :
    EvalSim W lax m₀ m₁ n node := by
  intro bound pos res name m t m' placed β γ ρ ρ' s s' κ sit
  have conv := placed.conv
  rw [convert_selfEval _ _ simple, returns_pure] at conv
  obtain ⟨rfl, rfl⟩ := conv
  rw [eval_late simple]
  exact deliver_simulates placed.nameNot sit (sit.rel.evalSimple (converted_widening _ _ _)
    simple placed.wellNamed sit.env) (.inl rfl)

theorem lambda_simulates (args : Formals) (body : List Node) :
    EvalSim W lax m₀ m₁ n (.lambda args body) := by
  intro bound pos res name m t m' placed β γ ρ ρ' s s' κ sit
  have conv := placed.conv
  rw [convert_lambda] at conv
  simp only [returns_bind, returns_pure] at conv
  obtain ⟨func, _, func_conv, rfl, rfl⟩ := conv
  rw [eval_lambda]
  exact deliver_simulates placed.nameNot sit
    (lambda_matched sit placed.low placed.high func_conv
      (by simpa [convertible] using placed.ok) placed.wellNamed) (.inl rfl)

theorem ite_simulates {p a b : Node} (hp : EvalSim W lax m₀ m₁ n p)
    (ha : EvalSim W lax m₀ m₁ n a) (hb : EvalSim W lax m₀ m₁ n b) :
    EvalSim W lax m₀ m₁ n (.ite p a b) := by
  intro bound pos res name m t m' placed β γ ρ ρ' s s' κ sit
  have conv := placed.conv
  rw [convert_ite] at conv
  simp only [returns_bind, returns_genName] at conv
  obtain ⟨predname, k, named, _, _, ⟨rfl, rfl⟩, a', m₂, convA, b', m₃, convB, conv⟩ := conv
  have ok := placed.ok
  simp only [convertible, Bool.and_eq_true] at ok
  have wellNamed := over_ite.mp placed.wellNamed
  obtain ⟨i, low, lt, same⟩ := placed.name
  have risesA := convert_rising a _ _ _ _ _ convA
  have risesB := convert_rising b _ _ _ _ _ convB
  have high := placed.high
  rw [eval_ite (by simp [selfEval])]
  by_cases simple : selfEval p = true
  · simp only [predName, simple, if_true, returns_pure] at named conv
    obtain ⟨rfl, rfl⟩ := named
    obtain ⟨rfl, rfl⟩ := conv
    have escape : ∃ j, m₀ ≤ j ∧ j < m + 1 ∧ (if res.isNone then name else varName m) = varName j := by
      split
      · exact ⟨i, low, by omega, same⟩
      · exact ⟨m, by omega, by omega, rfl⟩
    rw [eval_late simple]
    refine join_simulates pos p ha hb ⟨convA, ok.1.2, wellNamed.2.1, by simp, escape, by omega⟩
      ⟨convB, ok.2, wellNamed.2.2, by simp, ?_, high⟩ ⟨by omega, by omega⟩ sit (.inl rfl) ?_
    · obtain ⟨j, hj, hj', e⟩ := escape
      exact ⟨j, hj, by omega, e⟩
    · intro ρ₁' s₁' rel₁ grow₁ agree₁
      have sit₁ := sit.later (some p) name κ rel₁ agree₁ grow₁
        (fun x hx => ⟨m, by omega, by omega, hx⟩) (by simp)
      exact rel₁.evalSimple (converted_widening _ _ _) simple wellNamed.1 sit₁.env
  · simp only [predName, simple, Bool.false_eq_true, if_false, returns_map, returns_genName]
      at named conv
    obtain ⟨_, ⟨rfl, rfl⟩, rfl⟩ := named
    have risesP := convert_rising p _ _ _ _ _ conv
    have escape : ∃ j, m₀ ≤ j ∧ j < m + 1 + 1 ∧
        (if res.isNone then name else varName (m + 1)) = varName j := by
      split
      · exact ⟨i, low, by omega, same⟩
      · exact ⟨m + 1, by omega, by omega, rfl⟩
    -- the test is converted last, around the `if`
    have placedP : Placed lax bound m₀ m₁ p .value _ (varName m) m₃ t m' :=
      ⟨conv, ok.1.1, wellNamed.1, by simp, ⟨m, by omega, by omega, rfl⟩, high⟩
    refine Refines.bind (hp placedP (sit.unname _ _)) ?_
    rintro ⟨v, s₁⟩ c arrive
    cases arrive with
    | @rest _ _ ρ₁' _ s₁' β₁ γ₁ agree₁ rel₁ grow₁ val =>
      obtain ⟨v', hv, holds⟩ := val rfl
      have keep (j : Nat) (hj : j ≤ m + 1) (ne : j ≠ m) :
          ¬ Changed (varName m) m₃ m' (varName j) := by
        rintro (h | ⟨l, _, _, h⟩)
        · exact ne (varName_injective h)
        · have := varName_injective h
          omega
      have sit₁ := sit.later res name κ rel₁ agree₁ grow₁
        placedP.changed fun h => by
          rw [same]
          exact (same ▸ (sit.cont h).extend grow₁).agree agree₁ (keep i (by omega) (by omega))
      have placedA : Placed lax bound m₀ m₁ a .tail none
          (if res.isNone then name else varName (m + 1)) (m + 1 + 1) a' m₂ :=
        ⟨convA, ok.1.2, wellNamed.2.1, by simp, escape, by omega⟩
      have placedB : Placed lax bound m₀ m₁ b .tail none
          (if res.isNone then name else varName (m + 1)) m₂ b' m₃ := by
        obtain ⟨j, hj, hj', e⟩ := escape
        exact ⟨convB, ok.2, wellNamed.2.2, by simp, ⟨j, hj, by omega, e⟩, by omega⟩
      have run := join_simulates pos (.sym (varName m)) (o := some (v, s₁)) (D := Changed name m m') ha hb placedA placedB ⟨by omega, by omega⟩ sit₁ (.inl rfl) ?_
      · refine Refines.mono run fun p d h => h.earlier (agree₁.mono ?_) grow₁ fun _ h => h
        rintro x (rfl | ⟨l, hl, hl', rfl⟩)
        · exact .inr ⟨m, by omega, by omega, rfl⟩
        · exact .inr ⟨l, by omega, by omega, rfl⟩
      · intro ρ₂' s₂' rel₂ grow₂ agree₂
        have there := (holds.extend grow₂).agree agree₂ (by simp)
        rw [there.evalSimple]
        exact .same rel₂ hv

/-- An operand between its own evaluation and the call: left for the call itself, a closure
   that has no counterpart yet, or a value in a generated variable. Closures have their
   places between lo and hi, generated variables their counters between k and k'. -/
inductive Pending (W : World) (lax : Bool) (bound : List Symbol) (m₀ m₁ : Nat) (β γ : Ren) (ρ ρ' : Env) (s s' : State)
    (k k' lo hi : Nat) : Node → Node → Option Value → Prop where
  | simple {x : Node} (simple : selfEval x = true) (wellNamed : x.Over (SourceName m₀ m₁)) :
      Pending W lax bound m₀ m₁ β γ ρ ρ' s s' k k' lo hi x x none
  | closure {args args' : Formals} {body body' : List Node} {i m m' : Nat} (above : lo ≤ i)
      (below : i < hi) (low : m₀ ≤ m) (high : m' ≤ m₁)
      (conv : Returns (convertFunc args body) m (.lambda args' body') m')
      (ok : convertible lax bound .value (.lambda args body) = true)
      (wellNamed : (Node.lambda args body).Over (SourceName m₀ m₁))
      (here : s.get i = some (.closure args body ρ)) (fresh : ∀ b, ¬ γ i b) :
      Pending W lax bound m₀ m₁ β γ ρ ρ' s s' k k' lo hi (.lambda args body) (.lambda args' body')
        (some (.proc i))
  | value {x : Node} {j : Nat} {v v' : Value} (above : k ≤ j) (below : j < k')
      (val : ValueRel β γ v v') (holds : Holds β ρ' s' (varName j) v') :
      Pending W lax bound m₀ m₁ β γ ρ ρ' s s' k k' lo hi x (.sym (varName j)) (some v)

inductive PendingAll (W : World) (lax : Bool) (bound : List Symbol) (m₀ m₁ : Nat) (β γ : Ren) (ρ ρ' : Env) (s s' : State)
    (k k' : Nat) : Nat → List Node → List Node → List (Option Value) → Prop where
  | nil {lo : Nat} : PendingAll W lax bound m₀ m₁ β γ ρ ρ' s s' k k' lo [] [] []
  | cons {lo hi : Nat} {x larg : Node} {ov : Option Value} {xs largs : List Node}
      {ovs : List (Option Value)} (le : lo ≤ hi)
      (first : Pending W lax bound m₀ m₁ β γ ρ ρ' s s' k k' lo hi x larg ov)
      (rest : PendingAll W lax bound m₀ m₁ β γ ρ ρ' s s' k k' hi xs largs ovs) :
      PendingAll W lax bound m₀ m₁ β γ ρ ρ' s s' k k' lo (x :: xs) (larg :: largs) (ov :: ovs)

variable {k k' lo hi : Nat} {A : Nat → Prop}

theorem Pending.keep {x larg : Node} {ov : Option Value}
    (h : Pending W lax bound m₀ m₁ β γ ρ ρ' s s' k k' lo hi x larg ov)
    (grow : Extends A β γ s s' β₁ γ₁ s₁ s₁') (agree : Agree D ρ' ρ₁')
    (apart : ∀ i, lo ≤ i → i < hi → ¬ A i) (unchanged : ∀ j, k ≤ j → j < k' → ¬ D (varName j)) :
    Pending W lax bound m₀ m₁ β₁ γ₁ ρ ρ₁' s₁ s₁' k k' lo hi x larg ov := by
  cases h with
  | simple h wellNamed => exact .simple h wellNamed
  | closure above below low high conv ok wellNamed here fresh =>
    refine .closure above below low high conv ok wellNamed (grow.closures here) fun b hb => ?_
    rcases grow.newProcs hb with h | ⟨h | h, _⟩
    · exact fresh b h
    · exact apart _ above below h
    · have := get_lt here
      omega
  | value above below val holds =>
    exact .value above below (val.mono grow.objs grow.procs)
      ((holds.extend grow).agree agree (unchanged _ above below))

theorem PendingAll.keep {xs largs : List Node} {ovs : List (Option Value)}
    (h : PendingAll W lax bound m₀ m₁ β γ ρ ρ' s s' k k' lo xs largs ovs)
    (grow : Extends A β γ s s' β₁ γ₁ s₁ s₁') (agree : Agree D ρ' ρ₁')
    (apart : ∀ i, lo ≤ i → ¬ A i) (unchanged : ∀ j, k ≤ j → j < k' → ¬ D (varName j)) :
    PendingAll W lax bound m₀ m₁ β₁ γ₁ ρ ρ₁' s₁ s₁' k k' lo xs largs ovs := by
  induction h with
  | nil => exact .nil
  | cons le first rest ih =>
    exact .cons le (first.keep grow agree (fun i hi _ => apart i hi) unchanged)
      (ih fun i hi => apart i (by omega))

theorem Pending.wider {x larg : Node} {ov : Option Value} {j j' : Nat}
    (h : Pending W lax bound m₀ m₁ β γ ρ ρ' s s' k k' lo hi x larg ov) (hj : j ≤ k) (hj' : k' ≤ j') :
    Pending W lax bound m₀ m₁ β γ ρ ρ' s s' j j' lo hi x larg ov := by
  cases h with
  | simple h wellNamed => exact .simple h wellNamed
  | closure above below low high conv ok wellNamed here fresh =>
    exact .closure above below low high conv ok wellNamed here fresh
  | value above below val holds => exact .value (by omega) (by omega) val holds

theorem PendingAll.wider {xs largs : List Node} {ovs : List (Option Value)} {j j' : Nat}
    (h : PendingAll W lax bound m₀ m₁ β γ ρ ρ' s s' k k' lo xs largs ovs) (hj : j ≤ k) (hj' : k' ≤ j') :
    PendingAll W lax bound m₀ m₁ β γ ρ ρ' s s' j j' lo xs largs ovs := by
  induction h with
  | nil => exact .nil
  | cons le first _ ih => exact .cons le (first.wider hj hj') ih

theorem Pending.matched {x larg : Node} {ov : Option Value}
    (h : Pending W lax bound m₀ m₁ β γ ρ ρ' s s' k k' lo hi x larg ov)
    (sit : Situation W lax bound m₀ m₁ β γ ρ ρ' s s' res name κ) :
    MatchedValue W (Converted lax m₀ m₁) (fun i => lo ≤ i ∧ i < hi) β γ s s'
      (evalLateOne W ρ x ov s) (evalSimple W ρ' larg s') := by
  cases h with
  | simple h wellNamed => exact sit.rel.evalSimple (converted_widening _ _ _) h wellNamed sit.env
  | closure above below low high conv ok wellNamed here fresh =>
    rw [evalSimple_lambda]
    exact ⟨β, _, map_closure sit low high conv ok wellNamed here fresh,
      (extends_mapProc _ _ _ _ _ _).weaken fun _ e => .inl ⟨e ▸ above, e ▸ below⟩,
      .proc (Ren.add_self _ _ _)⟩
  | value _ _ val holds =>
    rw [holds.evalSimple]
    exact .same sit.rel val

theorem evalLate_cons (x : Node) (xs : List Node) (ov : Option Value) (ovs : List (Option Value)) :
    evalLate W ρ (x :: xs) (ov :: ovs) s = (do
      let (w, s) ← evalLateOne W ρ x ov s
      let (ws, s) ← evalLate W ρ xs ovs s
      pure (w :: ws, s)) := by
  cases ov <;> rfl

theorem PendingAll.matched {xs largs : List Node} {ovs : List (Option Value)}
    (h : PendingAll W lax bound m₀ m₁ β γ ρ ρ' s s' k k' lo xs largs ovs)
    (sit : Situation W lax bound m₀ m₁ β γ ρ ρ' s s' res name κ) :
    MatchedValues W (Converted lax m₀ m₁) (fun i => lo ≤ i) β γ s s'
      (evalLate W ρ xs ovs s) (evalSimples W ρ' largs s') := by
  induction xs generalizing lo β γ s s' largs ovs with
  | nil =>
    cases h
    exact .same sit.rel .nil
  | cons x xs ih =>
    cases h with
    | cons le first rest =>
      rw [evalLate_cons]
      refine (first.matched sit).bindThen (fun i h => .inl h.1)
        fun v w s₁ s₁' β₁ γ₁ rel₁ grow₁ hv => ?_
      have rest₁ := rest.keep grow₁ (.refl (fun _ => False) ρ')
        (fun i hi h => absurd h.2 (by omega)) fun _ _ _ no => no
      have sit₁ := sit.later res name κ rel₁ (.refl (fun _ => False) ρ') grow₁
        (fun _ no => no.elim) fun h => (sit.cont h).extend grow₁
      refine ((ih rest₁ sit₁).weaken fun i hi => .inl (le_trans le hi)).bind
        fun vs ws s₂ s₂' β₂ γ₂ rel₂ grow₂ hvs => ?_
      exact .same rel₂ (.cons (hv.mono grow₂.objs grow₂.procs) hvs)

theorem glue_simulates {x larg prev t : Node} (hx : EvalSim W lax m₀ m₁ n x)
    (ok : convertible lax bound .value x = true) (wellNamed : x.Over (SourceName m₀ m₁)) (low : m₀ ≤ k)
    (arg : Returns (convertArg x) k larg k') (order : k' ≤ m)
    (glue : Returns (glueArg prev x larg) m t m') (high : m' ≤ m₁)
    (sit : Situation W lax bound m₀ m₁ β γ ρ ρ' s s' res name κ) :
    Refines (step W) (Bad W) n (evalEarlyOne W selfEval (enterN W selfEval n) ρ x s)
      (start [t] ρ' s') fun p c => ∃ ρ₁' s₁' β₁ γ₁, c = start [prev] ρ₁' s₁' ∧
        StateRel W (Converted lax m₀ m₁) β₁ γ₁ p.2 s₁' ∧
        Extends NoneOld β γ s s' β₁ γ₁ p.2 s₁' ∧
        Agree (fun y => Generated k k' y ∨ Generated m m' y) ρ' ρ₁' ∧
        Pending W lax bound m₀ m₁ β₁ γ₁ ρ ρ₁' p.2 s₁' k k' s.top p.2.top x larg p.1 := by
  rw [convertArg_eq] at arg
  rw [glueArg_eq] at glue
  unfold evalEarlyOne earlyOf
  by_cases simple : selfEval x = true
  · simp only [simple, if_true, returns_pure, Bool.true_or] at arg glue ⊢
    obtain ⟨rfl, rfl⟩ := arg
    obtain ⟨rfl, rfl⟩ := glue
    exact .ok ⟨ρ', s', β, γ, rfl, sit.rel, .refl _ _ _ _ _, .refl _ _, .simple simple wellNamed⟩
  · by_cases inl : inlinable x = true
    · cases x with
      | lambda args body =>
        simp only [simple, inl, if_true, Bool.or_true, returns_pure, Bool.false_eq_true,
          if_false] at arg glue ⊢
        obtain ⟨rfl, rfl⟩ := glue
        obtain ⟨args', body', rfl⟩ := convertFunc_lambda arg
        have rises := convertFunc_rising (fun x _ => convert_rising x)
          (fun _ v _ => convert_rising v) args _ _ _ arg
        have left := extends_allocLeft β γ s s' (.closure args body ρ)
        rw [eval_lambda, evalSimple_lambda]
        refine .ok ⟨ρ', s', β, γ, rfl, sit.rel.allocLeft (converted_widening _ _ _) _, left,
          .refl _ _, .closure (le_refl _) (by simp) low (by omega) arg
            (by simpa [convertible] using ok) wellNamed (by simp) fun b hb => ?_⟩
        have := sit.rel.proc_lt_left hb
        omega
      | _ => simp [inlinable] at inl
    · simp only [simple, inl, Bool.or_self, Bool.false_eq_true, if_false] at arg glue ⊢
      have named : larg = .sym (varName k) ∧ k' = k + 1 := by
        cases x <;> simp [inlinable] at inl arg <;> exact ⟨arg.2.symm ▸ rfl, arg.1⟩
      obtain ⟨rfl, rfl⟩ := named
      have placed : Placed lax bound m₀ m₁ x .value (some prev) (varName k) m t m' :=
        ⟨glue, ok, wellNamed, by simp, ⟨k, low, by omega, rfl⟩, high⟩
      refine Refines.bind (hx placed (sit.unname _ _)) ?_
      rintro ⟨v, s₁⟩ c arrive
      cases arrive with
      | @rest _ _ ρ₁' _ s₁' β₁ γ₁ agree₁ rel₁ grow₁ val =>
        obtain ⟨v', hv, holds⟩ := val rfl
        refine .ok ⟨ρ₁', s₁', β₁, γ₁, rfl, rel₁, grow₁, agree₁.mono ?_,
          .value (le_refl _) (by omega) hv holds⟩
        rintro y (rfl | h)
        · exact .inl ⟨k, by omega, by omega, rfl⟩
        · exact .inr h

theorem generated_range {a b : Nat} {x : Symbol} (low : m₀ ≤ a) (high : b ≤ m₁)
    (h : Generated a b x) : ∃ j, m₀ ≤ j ∧ j < m₁ ∧ x = varName j := by
  obtain ⟨j, hj, hj', rfl⟩ := h
  exact ⟨j, by omega, by omega, rfl⟩

theorem Generated.mono {a b c d : Nat} {x : Symbol} (h : Generated a b x) (left : c ≤ a)
    (right : b ≤ d) : Generated c d x := by
  obtain ⟨j, hj, hj', rfl⟩ := h
  exact ⟨j, by omega, by omega, rfl⟩

theorem varName_generated {a b j : Nat} : Generated a b (varName j) ↔ a ≤ j ∧ j < b := by
  constructor
  · rintro ⟨i, hi, hi', same⟩
    have := varName_injective same
    omega
  · exact fun h => ⟨j, h.1, h.2, rfl⟩

theorem convertArg_rising (x : Node) {larg : Node} (h : Returns (convertArg x) k larg k') : k ≤ k' :=
  (convert_rising x).arg _ _ _ h

theorem glueArgs_simulates {xs largs : List Node} {expr t : Node}
    (hx : ∀ x ∈ xs, EvalSim W lax m₀ m₁ n x)
    (ok : ∀ x ∈ xs, convertible lax bound .value x = true)
    (wellNamed : ∀ x ∈ xs, x.Over (SourceName m₀ m₁)) (low : m₀ ≤ k)
    (args : Returns (convertArgs xs) k largs k') (order : k' ≤ m)
    (glue : Returns (glueArgs expr xs largs) m t m') (high : m' ≤ m₁)
    (sit : Situation W lax bound m₀ m₁ β γ ρ ρ' s s' res name κ) :
    Refines (step W) (Bad W) n (evalEarly W selfEval (enterN W selfEval n) ρ xs s)
      (start [t] ρ' s') fun p c => ∃ ρ₁' s₁' β₁ γ₁, c = start [expr] ρ₁' s₁' ∧
        StateRel W (Converted lax m₀ m₁) β₁ γ₁ p.2 s₁' ∧
        Extends NoneOld β γ s s' β₁ γ₁ p.2 s₁' ∧
        Agree (fun y => Generated k k' y ∨ Generated m m' y) ρ' ρ₁' ∧
        PendingAll W lax bound m₀ m₁ β₁ γ₁ ρ ρ₁' p.2 s₁' k k' s.top xs largs p.1 := by
  induction xs generalizing largs k' t m' β γ ρ' s s' res name κ with
  | nil =>
    simp only [convertArgs_nil, returns_pure] at args
    obtain ⟨rfl, rfl⟩ := args
    simp only [glueArgs_nil, returns_pure] at glue
    obtain ⟨rfl, rfl⟩ := glue
    rw [evalEarly]
    exact .ok ⟨ρ', s', β, γ, rfl, sit.rel, .refl _ _ _ _ _, .refl _ _, .nil⟩
  | cons x xs ih =>
    rw [convertArgs_cons] at args
    simp only [returns_bind, returns_pure] at args
    obtain ⟨largs, k₁, args, larg, _, arg, rfl, rfl⟩ := args
    rw [glueArgs_cons, returns_bind] at glue
    obtain ⟨prev, m₂, glueRest, glueOne⟩ := glue
    have rise₁ := convertArgs_rising (fun x _ => convert_rising x) _ _ _ args
    have rise₂ := convertArg_rising x arg
    have rise₃ := glueArgs_rising (fun x _ => convert_rising x) _ _ _ _ _ glueRest
    have rise₄ := (convert_rising x).glue _ _ _ _ _ glueOne
    have first := glue_simulates (hx x (by simp)) (ok x (by simp)) (wellNamed x (by simp))
      (by omega) arg (by omega) glueOne high sit
    rw [evalEarly_cons]
    refine Refines.bind first ?_
    rintro ⟨ov, s₁⟩ _ ⟨ρ₁', s₁', β₁, γ₁, rfl, rel₁, grow₁, agree₁, pend₁⟩
    have sit₁ := sit.later (some expr) name κ rel₁ agree₁ grow₁
      (fun y hy => hy.elim (generated_range (by omega) (by omega))
        (generated_range (by omega) (by omega))) (by simp)
    refine Refines.bind (ih (fun y hy => hx y (by simp [hy])) (fun y hy => ok y (by simp [hy]))
      (fun y hy => wellNamed y (by simp [hy])) args (by omega) glueRest (by omega) sit₁) ?_
    rintro ⟨ovs, s₂⟩ _ ⟨ρ₂', s₂', β₂, γ₂, rfl, rel₂, grow₂, agree₂, pend₂⟩
    refine .ok ⟨ρ₂', s₂', β₂, γ₂, rfl, rel₂, grow₁.then grow₂, ?_, .cons grow₁.left ?_
      (pend₂.wider (le_refl _) rise₂)⟩
    · refine agree₁.trans agree₂ ?_
      rintro y ((h | h) | (h | h))
      · exact .inl (h.mono rise₁ (le_refl _))
      · exact .inr (h.mono rise₃ (le_refl _))
      · exact .inl (h.mono (le_refl _) rise₂)
      · exact .inr (h.mono (le_refl _) rise₄)
    · refine (pend₁.keep grow₂ agree₂ (fun _ _ _ no => no) fun j hj hj' h => ?_).wider rise₁
        (le_refl _)
      simp only [varName_generated] at h
      omega

theorem callSim_prim {κ : Value} {vs vs' : List Value} (p : Symbol)
    (rel : StateRel W (Converted lax m₀ m₁) β γ s s')
    (args : List.Forall₂ (ValueRel β γ) vs vs') :
    Refines (step W) (Bad W) n (.ofOption (callBuiltin W p vs s))
      (.call (.atom (.prim p)) (κ :: vs') s') fun q c => ∃ v' s₁' β₁ γ₁, c = .call κ [v'] s₁' ∧
        StateRel W (Converted lax m₀ m₁) β₁ γ₁ q.2 s₁' ∧
        Extends NoneOld β γ s s' β₁ γ₁ q.2 s₁' ∧ ValueRel β₁ γ₁ q.1 v' := by
  by_cases exit : p = "__exit"
  · subst exit
    have none : callBuiltin W "__exit" vs s = none := by simp [callBuiltin, W.exit_call]
    rw [none]
    refine .error ?_
    cases vs' with
    | nil => exact .inr ⟨κ, s', by simp [step, stepCall]⟩
    | cons => exact .inl (by simp [step, stepCall])
  · have matched := rel.callBuiltin (A := NoneOld) (converted_widening _ _ _) p args
    rcases hl : callBuiltin W p vs s with _ | ⟨v, s₁⟩ <;>
      rcases hr : callBuiltin W p vs' s' with _ | ⟨v', s₁'⟩ <;> rw [hl, hr] at matched
    · exact .error (bad_stuck (step_prim_fails exit hr))
    · exact matched.elim
    · exact matched.elim
    · obtain ⟨β₁, γ₁, rel₁, grow₁, hv⟩ := matched
      exact .after (.one (step_prim exit hr)) (.ok ⟨v', s₁', β₁, γ₁, rfl, rel₁, grow₁, hv⟩)

theorem convertArg_operator {f lf : Node} (h : Returns (convertArg f) k lf k') :
    isOperator lf = isOperator f := by
  rw [convertArg_eq] at h
  split at h
  · simp only [returns_pure] at h
    rw [h.1]
  · rename_i complex
    cases f with
    | lambda args body =>
      obtain ⟨args', body', rfl⟩ := convertFunc_lambda h
      rfl
    | sym s => simp [selfEval] at complex
    | _ =>
      simp only [returns_map, returns_genName] at h
      obtain ⟨_, ⟨rfl, rfl⟩, rfl⟩ := h
      simpa [isOperator] using varName_not_operator k

theorem call_simulates {f lf ctl : Node} {args largs : List Node} {fv : Option Value}
    {ovs : List (Option Value)} (hcall : CallSim W lax m₀ m₁ n) (hc : Control name res ctl)
    (fn : isOperator lf = false) (le : lo ≤ hi)
    (pendF : Pending W lax bound m₀ m₁ β γ ρ ρ' s s' k k' lo hi f lf fv)
    (pend : PendingAll W lax bound m₀ m₁ β γ ρ ρ' s s' k k' hi args largs ovs)
    (sit : Situation W lax bound m₀ m₁ β γ ρ ρ' s s' res name κ) (hD : D name)
    {base base' : State} {β₀ γ₀ : Ren} {ρ₀' : Env} (grow₀ : Extends NoneOld β₀ γ₀ base base' β γ s s')
    (agree₀ : Agree D ρ₀' ρ') (above : base.top ≤ lo) :
    Simulates W lax m₀ m₁ n β₀ γ₀ ρ₀' base base' D name pos κ res
      (do let (vs, s) ← .ofOption (evalLate W ρ args ovs s)
          let (f, s) ← .ofOption (evalLateOne W ρ f fv s)
          applyProc W (enterN W selfEval n) f vs s)
      (start [.app lf (ctl :: largs)] ρ' s') := by
  have mono := converted_widening lax m₀ m₁
  -- the continuation is the first operand of the converted call
  obtain ⟨κ₁, s₁', evalC, rel₁, grow₁, awaits⟩ := hc.eval mono sit.rel sit.cont
  have same := Agree.refl (fun _ => False) ρ'
  have sit₁ := sit.later res name κ rel₁ same grow₁ (fun _ no => no.elim)
    fun h => (sit.cont h).extend grow₁
  have pend₁ := pend.keep grow₁ same (fun _ _ no => no) fun _ _ _ no => no
  have pendF₁ := pendF.keep grow₁ same (fun _ _ _ no => no) fun _ _ _ no => no
  have operands := pend₁.matched sit₁
  rcases hl : evalLate W ρ args ovs s with _ | ⟨vs, s₂⟩ <;>
    rcases hr : evalSimples W ρ' largs s₁' with _ | ⟨vs', s₂'⟩ <;> rw [hl, hr] at operands
  · exact .error (bad_stuck (step_app_fails fn (by simp [evalSimples, evalC, hr])))
  · exact operands.elim
  · exact operands.elim
  · obtain ⟨β₂, γ₂, rel₂, grow₂, hvs⟩ := operands
    have sit₂ := sit₁.later res name κ rel₂ same grow₂ (fun _ no => no.elim)
      fun h => (sit₁.cont h).extend grow₂
    have operator := (pendF₁.keep grow₂ same (fun i _ hi h => by omega) fun _ _ _ no => no).matched
      sit₂
    have all : evalSimples W ρ' (ctl :: largs) s' = some (κ₁ :: vs', s₂') := by
      simp [evalSimples, evalC, hr]
    simp only [Outcome.ofOption_some, Outcome.ok_bind]
    rcases hfl : evalLateOne W ρ f fv s₂ with _ | ⟨g, s₃⟩ <;>
      rcases hfr : evalSimple W ρ' lf s₂' with _ | ⟨g', s₃'⟩ <;> rw [hfl, hfr] at operator
    · exact .error (bad_stuck (step_operator_fails fn all hfr))
    · exact operator.elim
    · exact operator.elim
    · obtain ⟨β₃, γ₃, rel₃, grow₃, hg⟩ := operator
      simp only [Outcome.ofOption_some, Outcome.ok_bind]
      refine .after (.one (step_app fn all hfr)) ?_
      have call := hcall κ₁ rel₃ hg (forall_mono grow₃.objs grow₃.procs hvs)
      rw [← Outcome.bind_ok (applyProc W _ g vs s₃)]
      refine Refines.bind call ?_
      rintro ⟨v, s₄⟩ _ ⟨v', s₄', β₄, γ₄, rfl, rel₄, grow₄, hv⟩
      have awaits₄ := ((awaits.keep rel₁ grow₂).keep rel₂ grow₃).keep rel₃ grow₄
      have grow : Extends NoneOld β₀ γ₀ base base' β₄ γ₄ s₄ s₄' :=
        (((grow₀.then grow₁).trans grow₂ fun i h => .inr (by omega)).trans grow₃
          fun i h => .inr (by omega)).then grow₄
      obtain ⟨c, reach, arrive⟩ := awaits₄.resume pos mono rel₄ grow hv hD
      exact .after reach (.ok (arrive.earlier agree₀ (.refl _ _ _ _ _) fun _ h => h))

theorem op_simulates {ctl f : Node} {args largs : List Node} {ovs : List (Option Value)}
    (hc : Control name res ctl) (notOp : name ∉ primitivesOperators) (op : isOperator f = true)
    (typed : isTypeTest f = true → ∃ t xs ls, args = .sym t :: xs ∧ largs = .sym t :: ls)
    (pend : PendingAll W lax bound m₀ m₁ β γ ρ ρ' s s' k k' lo (if isTypeTest f then args.tail else args)
      (if isTypeTest f then largs.tail else largs) ovs)
    (sit : Situation W lax bound m₀ m₁ β γ ρ ρ' s s' res name κ) (hD : D name)
    {base base' : State} {β₀ γ₀ : Ren} {ρ₀' : Env} (grow₀ : Extends NoneOld β₀ γ₀ base base' β γ s s')
    (agree₀ : Agree D ρ₀' ρ') (above : base.top ≤ lo) (cont : res = none → Holds β₀ ρ' base' name κ) :
    Simulates W lax m₀ m₁ n β₀ γ₀ ρ₀' base base' D name pos κ res
      (do let (vs, s) ← .ofOption (evalLate W ρ (if isTypeTest f then args.tail else args) ovs s)
          .ofOption (finishOp W f args vs s))
      (start [.app ctl [.app f largs]] ρ' s') := by
  have mono := converted_widening lax m₀ m₁
  have finish (vs : List Value) (t : State) : finishOp W f largs vs t = finishOp W f args vs t := by
    unfold finishOp
    by_cases test : isTypeTest f = true
    · obtain ⟨t, xs, ls, rfl, rfl⟩ := typed test
      simp only [test, if_true]
      rcases vs with _ | ⟨v, _ | _⟩ <;> rfl
    · simp only [test, Bool.false_eq_true, if_false]
  have ev : evalSimple W ρ' (.app f largs) s' =
      (evalSimples W ρ' (if isTypeTest f then largs.tail else largs) s' >>= fun p =>
        finishOp W f args p.1 p.2) := by
    simp only [evalSimple, op, if_true, evalTail_eq, finish]
    split <;> rfl
  have matched : MatchedValue W (Converted lax m₀ m₁) (fun i => lo ≤ i) β γ s s'
      (evalLate W ρ (if isTypeTest f then args.tail else args) ovs s >>= fun p =>
        finishOp W f args p.1 p.2) (evalSimple W ρ' (.app f largs) s') := by
    rw [ev]
    exact (pend.matched sit).bind fun vs vs' s₁ s₁' β₁ γ₁ rel₁ _ hvs =>
      rel₁.finishOp mono f args hvs
  have run := pass_simulates n pos hc notOp agree₀ cont
    ((matched.after (grow₀.ofNone)).weaken fun i h => .inr (by omega)) hD
  refine cast (congrArg (Simulates W lax m₀ m₁ n β₀ γ₀ ρ₀' base base' D name pos κ res · _) ?_) run
  cases evalLate W ρ (if isTypeTest f then args.tail else args) ovs s <;> rfl

theorem app_simulates {f : Node} {args : List Node} (complex : selfEval (.app f args) = false)
    (hcall : CallSim W lax m₀ m₁ n) (hf : EvalSim W lax m₀ m₁ n f)
    (hargs : ∀ x ∈ args, EvalSim W lax m₀ m₁ n x) : EvalSim W lax m₀ m₁ n (.app f args) := by
  intro bound pos res name m t m' placed β γ ρ ρ' s s' κ sit
  have conv := placed.conv
  rw [convert_app _ _ complex] at conv
  simp only [returns_bind] at conv
  obtain ⟨largs, k₁, argsConv, lf, k₂, funcConv, inner, k₃, glueArgs, glueF⟩ := conv
  have ok := placed.ok
  simp only [convertible, Bool.and_eq_true, convertibleAll_iff] at ok
  have wellNamed := over_app.mp placed.wellNamed
  obtain ⟨i, low, lt, same⟩ := placed.name
  have high := placed.high
  have rise₁ := convertArgs_rising (fun x _ => convert_rising x) _ _ _ argsConv
  have rise₂ := convertArg_rising f funcConv
  have rise₃ := glueArgs_rising (fun x _ => convert_rising x) _ _ _ _ _ glueArgs
  have rise₄ := (convert_rising f).glue _ _ _ _ _ glueF
  have ctl := control_control res name
  -- all variables bound on the way to the call are generated by this conversion
  have within {a b c d : Nat} (ha : m ≤ a) (hb : b ≤ m') (hc : m ≤ c) (hd : d ≤ m') (y : Symbol)
      (h : Generated a b y ∨ Generated c d y) : Generated m m' y :=
    h.elim (·.mono ha hb) (·.mono hc hd)
  have kept (y : Symbol) (h : Generated m m' y) : ∃ j, m₀ ≤ j ∧ j < m₁ ∧ y = varName j :=
    generated_range (by omega) high h
  have nameKept : ¬ Generated m m' name := by
    rw [same, varName_generated]
    omega
  by_cases op : isOperator f = true
  · have simple : selfEval f = true := by
      cases f <;> simp [isOperator] at op
      simp [selfEval]
    have isSame : lf = f ∧ k₂ = k₁ := by
      rw [convertArg_eq, if_pos simple, returns_pure] at funcConv
      exact ⟨funcConv.1.symm, funcConv.2.symm⟩
    obtain ⟨rfl, rfl⟩ := isSame
    rw [glueArg_eq] at glueF
    simp only [simple, Bool.true_or, if_true, returns_pure] at glueF
    obtain ⟨rfl, rfl⟩ := glueF
    simp only [callExpr, op, if_true] at glueArgs
    rw [eval_op complex op]
    -- the type of a type test is no operand
    have operands : ∃ t', (isTypeTest lf = true → ∃ t xs ls, args = .sym t :: xs ∧ largs = .sym t :: ls) ∧
        Returns (convertArgs (if isTypeTest lf then args.tail else args)) m t' k₂ ∧
        (if isTypeTest lf then largs.tail else largs) = t' ∧
        Returns (Cps.glueArgs (.app (control res name) [.app lf largs])
          (if isTypeTest lf then args.tail else args) t') k₂ inner k₃ := by
      by_cases test : isTypeTest lf = true
      · obtain ⟨ty, xs, rfl⟩ : ∃ ty xs, args = .sym ty :: xs := by
          have := ok.1.1
          simp only [typeTestOk, test, Bool.not_true, Bool.false_or] at this
          split at this
          · exact ⟨_, _, rfl⟩
          · simp at this
        rw [convertArgs_cons] at argsConv
        simp only [returns_bind, returns_pure, convertArg_eq, selfEval, if_true] at argsConv
        obtain ⟨ls, _, argsConv, _, _, ⟨rfl, rfl⟩, rfl, rfl⟩ := argsConv
        rw [glueArgs_cons] at glueArgs
        simp only [returns_bind, returns_pure, glueArg_eq, selfEval, Bool.true_or, if_true]
          at glueArgs
        obtain ⟨_, _, glueArgs, rfl, rfl⟩ := glueArgs
        simp only [test, if_true, List.tail_cons]
        exact ⟨ls, fun _ => ⟨ty, xs, ls, rfl, rfl⟩, argsConv, rfl, glueArgs⟩
      · simp only [test, Bool.false_eq_true, if_false]
        exact ⟨largs, fun no => no.elim, argsConv, rfl, glueArgs⟩
    obtain ⟨ls, typed, argsConv, isTail, glueArgs⟩ := operands
    have mem {x : Node} (hx : x ∈ if isTypeTest lf then args.tail else args) : x ∈ args := by
      split at hx
      · exact List.mem_of_mem_tail hx
      · exact hx
    refine Refines.bind (glueArgs_simulates (fun x hx => hargs x (mem hx))
      (fun x hx => ok.2 x (mem hx)) (fun x hx => wellNamed.2 x (mem hx)) (by omega) argsConv
      (le_refl _) glueArgs high sit) ?_
    rintro ⟨ovs, s₁⟩ _ ⟨ρ₁', s₁', β₁, γ₁, rfl, rel₁, grow₁, agree₁, pend⟩
    have agree := agree₁.mono (within (le_refl _) rise₃ rise₁ (le_refl _))
    have sit₁ := sit.later res name κ rel₁ agree grow₁ kept
      fun h => ((sit.cont h).extend grow₁).agree agree nameKept
    exact op_simulates ctl placed.nameNot op typed (isTail.symm ▸ pend) sit₁ (.inl rfl) grow₁
      (agree.mono fun _ h => .inr h) (le_refl _) fun h => (sit.cont h).agree agree nameKept
  · have fn : isOperator lf = false := by
      rw [convertArg_operator funcConv]
      simpa using op
    simp only [callExpr, fn, Bool.false_eq_true, if_false] at glueArgs
    rw [eval_call complex (by simpa using op)]
    refine Refines.bind (glue_simulates hf ok.1.2 wellNamed.1 (by omega) funcConv rise₃ glueF high sit) ?_
    rintro ⟨fv, s₁⟩ _ ⟨ρ₁', s₁', β₁, γ₁, rfl, rel₁, grow₁, agree₁, pendF⟩
    have agree := agree₁.mono (within rise₁ (by omega) (by omega) (le_refl _))
    have sit₁ := sit.later res name κ rel₁ agree grow₁ kept
      fun h => ((sit.cont h).extend grow₁).agree agree nameKept
    refine Refines.bind (glueArgs_simulates hargs ok.2 wellNamed.2 (by omega) argsConv rise₂ glueArgs
      (by omega) sit₁) ?_
    rintro ⟨ovs, s₂⟩ _ ⟨ρ₂', s₂', β₂, γ₂, rfl, rel₂, grow₂, agree₂, pend⟩
    have later := agree₂.mono (within (le_refl _) (by omega) (by omega) (by omega))
    have sit₂ := sit₁.later res name κ rel₂ later grow₂ kept
      fun h => ((sit₁.cont h).extend grow₂).agree later nameKept
    have pendF₂ := pendF.keep grow₂ agree₂ (fun _ _ _ no => no) fun j hj hj' h => by
      simp only [varName_generated] at h
      omega
    exact call_simulates hcall ctl fn grow₁.left
      (pendF₂.wider (Nat.zero_le _) (le_refl _)) (pend.wider (Nat.zero_le _) rise₂) sit₂ (.inl rfl)
      (grow₁.then grow₂) ((agree.trans later fun _ h => h.elim id id).mono fun _ h => .inr h) (le_refl _)

theorem setBody_simulates (n : Nat) {x : Symbol} (val : Node) {o : Option (Value × State)} {t' : State}
    (hpos : pos ≠ .value) (hx : SourceName m₀ m₁ x) (agree : Agree D ρ' ρ₁')
    (env : EnvRel (SourceName m₀ m₁) β ρ ρ₁') (void : ρ₁' "void" = none)
    (cont : res = none → Holds β ρ₁' s' name κ)
    (matched : MatchedValue W (Converted lax m₀ m₁) NoneOld β γ s s' o
      (evalSimple W ρ₁' val t')) :
    Simulates W lax m₀ m₁ n β γ ρ' s s' D name pos κ res
      (.ofOption o >>= fun p => .ofOption (assign ρ p.2 x p.1) >>= fun s => pure (Values.void, s))
      (start (setBody x res name val) ρ₁' t') := by
  match o, ev : evalSimple W ρ₁' val t' with
  | none, none => exact .error (bad_stuck (step_set_fails ev))
  | none, some _ | some _, none =>
    rw [ev] at matched
    exact matched.elim
  | some (v, s₁), some (v', s₁') =>
    rw [ev] at matched
    obtain ⟨β₁, γ₁, rel₁, grow₁, hv⟩ := matched
    have put := rel₁.assign (A := NoneOld) (converted_widening _ _ _) (env.mono grow₁.objs) hx hv
    simp only [Outcome.ofOption_some, Outcome.ok_bind]
    match hl : assign ρ s₁ x v, hr : assign ρ₁' s₁' x v' with
    | none, none => exact .error (bad_stuck (step_assign_fails ev hr))
    | none, some _ | some _, none =>
      rw [hl, hr] at put
      exact put.elim
    | some s₂, some s₂' =>
      rw [hl, hr] at put
      obtain ⟨β₂, γ₂, rel₂, grow₂, _⟩ := put
      have grow := grow₁.then grow₂
      simp only [Outcome.ofOption_some, Outcome.ok_bind]
      refine .after (.one (step_set ev hr)) ?_
      cases res with
      | none =>
        -- ((void) name): the builtin calls the continuation with its value
        have operands : evalSimples W ρ₁' [.sym name] s₂' = some ([κ], s₂') := by
          simp [evalSimples, (((cont rfl).extend grow₁).extend grow₂).evalSimple]
        have operator : evalSimple W ρ₁' (.sym "void") s₂' =
            some (.atom (.prim "void"), s₂') := by
          have known : "void" ∈ builtinNames := by decide
          simp [evalSimple, lookupVar, void, known]
        have call : callBuiltin W "void" [] s₂' = some (Values.void, s₂') := by
          have pure : hasSideEffect "void" = false := by decide
          simp [callBuiltin, W.void_call, State.build, pure]
        exact .after (.one (step_app rfl operands operator)) (.after (.one (step_prim (by decide) call))
          (.ok (.ret rel₂ grow (.atom (by simp)))))
      | some r =>
        rw [start_splice]
        exact .ok (.rest agree rel₂ grow fun value => absurd value hpos)

theorem convertSet_simulates (pos : Position) {x : Symbol} {value t : Node} (isLax : lax = true)
    (hv : EvalSim W lax m₀ m₁ n value) (ok : convertible lax bound .tail value = true)
    (wellNamed : value.Over (SourceName m₀ m₁)) (hx : SourceName m₀ m₁ x) (hpos : pos ≠ .value)
    (named : ∃ j, m₀ ≤ j ∧ j < m ∧ name = varName j)
    (conv : Returns (convertSet res x value name) m t m') (high : m' ≤ m₁)
    (sit : Situation W lax bound m₀ m₁ β γ ρ ρ' s s' res name κ) :
    Simulates W lax m₀ m₁ n β γ ρ' s s' (Changed name m m') name pos κ res
      (eval W selfEval (enterN W selfEval n) ρ value s >>= fun p =>
        .ofOption (assign ρ p.2 x p.1) >>= fun s => pure (Values.void, s))
      (start [t] ρ' s') := by
  have mono := converted_widening lax m₀ m₁
  rw [convertSet_eq] at conv
  by_cases simple : selfEval value = true
  · simp only [simple, if_true, returns_pure] at conv
    obtain ⟨rfl, rfl⟩ := conv
    rw [eval_late simple, start_begin]
    exact setBody_simulates n _ hpos hx (.refl _ _) sit.env (sit.void isLax) sit.cont
      (sit.rel.evalSimple mono simple wellNamed sit.env)
  · obtain ⟨j, low, lt, same⟩ := named
    by_cases inl : inlinable value = true
    · cases value with
      | lambda args body =>
        simp only [simple, Bool.false_eq_true, if_false, returns_bind, returns_pure] at conv
        obtain ⟨func, _, funcConv, rfl, rfl⟩ := conv
        rw [eval_lambda, start_begin]
        exact setBody_simulates n _ hpos hx (.refl _ _) sit.env (sit.void isLax) sit.cont
          (lambda_matched sit (by omega) high funcConv (by simpa [convertible] using ok) wellNamed)
      | _ => simp [inlinable] at inl
    · rw [← convertSet_eq, convertSet_complex _ _ _ (by simpa using simple) (by simpa using inl)]
        at conv
      simp only [returns_bind, returns_genName, returns_pure] at conv
      obtain ⟨_, _, ⟨rfl, rfl⟩, _, _, ⟨rfl, rfl⟩, term, last, conv, rfl, rfl⟩ := conv
      have rises := convert_rising value _ _ _ _ _ conv
      -- ((lambda (setter) term) (lambda (nv) set-body ...))
      let assignCont : Obj := .closure ⟨[varName (m + 1)], none⟩
        (setBody x res name (.sym (varName (m + 1)))) ρ'
      let body : Obj := .closure ⟨[varName m], none⟩ [term] ρ'
      have rel₁ := (sit.rel.allocRight mono assignCont).allocRight mono body
      have grow₁ := (extends_allocRight β γ s s' assignCont).then (extends_allocRight β γ s _ body)
      have call : step W (start [.app (.lambda ⟨[varName m], none⟩ [term])
          [.lambda ⟨[varName (m + 1)], none⟩ (setBody x res name (.sym (varName (m + 1))))]] ρ' s') =
          .next (.call (.proc (s'.top + 1)) [.proc s'.top] ((s'.alloc assignCont).alloc body)) :=
        step_app rfl (by simp [evalSimples]; rfl) (by simp [assignCont, body])
      have here : ((s'.alloc assignCont).alloc body).get (s'.top + 1) = some body := by
        rw [← top_alloc s' assignCont, get_alloc_top]
      refine .after (.one call) (.after (.one (step_cont here)) ?_)
      have rel₂ := rel₁.allocRight mono (.cell (some (.proc s'.top)))
      have grow₂ := grow₁.then (extends_allocRight β γ s _ (.cell (some (.proc s'.top))))
      have agree := agree_bind (D := Generated m (m + 1)) ⟨m, by omega, by omega, rfl⟩ ρ'
        ((s'.alloc assignCont).alloc body).top
      have placed : Placed lax bound m₀ m₁ value .tail none (varName m) (m + 1 + 1) term last :=
        ⟨conv, ok, wellNamed, by simp, ⟨m, by omega, by omega, rfl⟩, high⟩
      have sit₂ := sit.later none (varName m) (.proc s'.top) rel₂ agree grow₂
        (fun y => generated_range (by omega) (by omega)) fun _ => holds_bind rel₁ _ _ _
      refine Refines.bind (hv placed sit₂) ?_
      rintro ⟨v, s₁⟩ c arrive
      cases arrive with
      | @ret _ v' _ s₁' β₁ γ₁ rel₃ grow₃ val =>
        have cont : s₁'.get s'.top = some assignCont :=
          closure_keep rel₂ grow₃ (get_alloc (get_alloc (get_alloc_top s' assignCont) _) _)
        refine .after (.one (step_cont cont)) ?_
        have rel₄ := rel₃.allocRight mono (.cell (some v'))
        have grow₄ := (grow₂.then grow₃).then (extends_allocRight _ _ _ _ (.cell (some v')))
        have agree₄ := agree_bind (D := Generated (m + 1) last) ⟨m + 1, by omega, by omega, rfl⟩ ρ'
          s₁'.top
        have sit₄ := sit.later res name κ rel₄ agree₄ grow₄
          (fun y => generated_range (by omega) (by omega)) fun h =>
            ((sit.cont h).extend grow₄).agree agree₄ (by
              rw [same, varName_generated]
              omega)
        have value := (holds_bind rel₃ ρ' (varName (m + 1)) v').evalSimple (W := W)
        have run := setBody_simulates n (.sym (varName (m + 1))) (D := Changed name m last)
          (o := some (v, s₁)) hpos hx (.refl _ _) sit₄.env
          (sit₄.void isLax) sit₄.cont (by rw [value]; exact .same rel₄ val)
        exact Refines.mono run fun p d h => h.earlier
          (agree₄.mono fun _ h => .inr (h.mono (by omega) (le_refl _))) grow₄ fun _ h => h

theorem set_simulates {x : Symbol} {value : Node} (hv : EvalSim W lax m₀ m₁ n value) :
    EvalSim W lax m₀ m₁ n (.set x value) := by
  intro bound pos res name m t m' placed β γ ρ ρ' s s' κ sit
  have conv := placed.conv
  rw [convert_set] at conv
  have ok := placed.ok
  simp only [convertible, Bool.and_eq_true, bne_iff_ne] at ok
  have wellNamed := over_set.mp placed.wellNamed
  rw [eval_set (by simp [selfEval])]
  exact convertSet_simulates pos ok.1.1 hv ok.2 wellNamed.2 wellNamed.1 ok.1.2 placed.name conv placed.high sit

theorem simpleSeq_eval (n : Nat) {ρ : Env} {s : State} {xs : List Node} {frst : Node}
    (last : xs.getLast? = some frst) (simple : ∀ x ∈ xs, selfEval x = true)
    (ok : convertibleSeq lax bound pos xs = true) (ready : Ready bound ρ s) :
    ∃ s₁, Grown s s₁ ∧ evalSeq W selfEval (enterN W selfEval n) ρ xs s =
      .ofOption (evalSimple W ρ frst s₁) := by
  induction xs generalizing s with
  | nil => simp at last
  | cons x xs ih =>
    by_cases more : xs = []
    · subst more
      simp only [List.getLast?_singleton, Option.some.injEq] at last
      rw [evalSeq_one, eval_late (simple x (by simp)), last]
      exact ⟨s, .refl, rfl⟩
    · rw [List.getLast?_cons_of_ne_nil more] at last
      simp only [convertibleSeq, Bool.and_eq_true] at ok
      obtain ⟨v, s₁, value⟩ := harmless_value (W := W)
        (keepsOrder_harmless ok.1.2 last (simple x (by simp))) ready
      rw [evalSeq_cons x more, eval_late (simple x (by simp)), value]
      have grown := evalSimple_grown value
      obtain ⟨s₂, later, run⟩ := ih last (fun y hy => simple y (by simp [hy])) ok.2
        (ready.later grown.persists)
      exact ⟨s₂, grown.trans later, run⟩

theorem convertibleSeq_tail {xs : List Node} (ok : convertibleSeq lax bound pos xs = true)
    (some : xs ≠ []) (simple : ∀ x ∈ xs, selfEval x = true) : pos = .tail := by
  induction xs with
  | nil => exact absurd rfl some
  | cons x xs ih =>
    simp only [convertibleSeq, Bool.and_eq_true] at ok
    by_cases more : xs = []
    · subst more
      simpa [keepsOrder, simple x (by simp)] using ok.1.2
    · exact ih ok.2 more fun y hy => simple y (by simp [hy])

theorem simpleSeq_simulates {xs : List Node} {frst t : Node} (last : xs.getLast? = some frst)
    (simple : ∀ x ∈ xs, selfEval x = true) (ok : convertibleSeq lax bound pos xs = true)
    (wellNamed : ∀ x ∈ xs, x.Over (SourceName m₀ m₁)) (tail : res = none ↔ pos = .tail)
    (notOp : name ∉ primitivesOperators)
    (conv : Returns (seqLoop res frst name xs) m (some t) m')
    (sit : Situation W lax bound m₀ m₁ β γ ρ ρ' s s' res name κ) :
    Simulates W lax m₀ m₁ n β γ ρ' s s' (Changed name m m') name pos κ res
      (evalSeq W selfEval (enterN W selfEval n) ρ xs s) (start [t] ρ' s') := by
  have mono := converted_widening lax m₀ m₁
  have member : frst ∈ xs := List.mem_of_getLast? last
  obtain ⟨rfl, rfl⟩ := seqLoop_simple simple last conv
  have none := tail.mpr (convertibleSeq_tail ok (List.ne_nil_of_mem member) simple)
  subst none
  obtain ⟨s₁, grown, run⟩ := simpleSeq_eval (W := W) n last simple ok sit.ready
  rw [run]
  obtain ⟨rel₁, grow₁⟩ := grown.left mono sit.rel
  refine pass_simulates n pos .tail notOp (.refl _ _) sit.cont ?_ (.inl rfl)
  exact (rel₁.evalSimple mono (simple frst member) (wellNamed frst member)
    (sit.env.mono grow₁.objs)).after grow₁

theorem seqLoop_simulates {xs : List Node} {frst t : Node} (last : xs.getLast? = some frst)
    (hx : ∀ x ∈ xs, EvalSim W lax m₀ m₁ n x) (ok : convertibleSeq lax bound pos xs = true)
    (wellNamed : ∀ x ∈ xs, x.Over (SourceName m₀ m₁))
    (tail : res = none ↔ pos = .tail) (named : ∃ j, m₀ ≤ j ∧ j < m ∧ name = varName j)
    (conv : Returns (seqLoop res frst name xs) m (some t) m') (high : m' ≤ m₁)
    (sit : Situation W lax bound m₀ m₁ β γ ρ ρ' s s' res name κ) :
    Simulates W lax m₀ m₁ n β γ ρ' s s' (Changed name m m') name pos κ res
      (evalSeq W selfEval (enterN W selfEval n) ρ xs s) (start [t] ρ' s') := by
  have mono := converted_widening lax m₀ m₁
  induction xs generalizing t m' β γ ρ' s s' with
  | nil => simp at last
  | cons x xs ih =>
    obtain ⟨j, low, lt, same⟩ := named
    have notOp : name ∉ primitivesOperators := same ▸ varName_not_operator j
    by_cases allSimple : ∀ y ∈ x :: xs, selfEval y = true
    · exact simpleSeq_simulates last allSimple ok wellNamed tail notOp conv sit
    rw [seqLoop_cons] at conv
    simp only [returns_bind] at conv
    obtain ⟨prev, k, convRest, conv⟩ := conv
    simp only [convertibleSeq, Bool.and_eq_true] at ok
    by_cases more : xs = []
    · subst more
      simp only [seqLoop_nil, returns_pure] at convRest
      obtain ⟨rfl, rfl⟩ := convRest
      have complex : selfEval x = false := by simpa using allSimple
      rw [evalSeq_one]
      simp only [complex, Bool.false_eq_true, if_false, List.isEmpty_nil, Bool.true_or, seqName,
        if_true, returns_bind, returns_pure, returns_map, Option.some.injEq] at conv
      obtain ⟨_, _, ⟨rfl, rfl⟩, _, conv, rfl⟩ := conv
      exact hx x (by simp) ⟨conv, by simpa using ok.1.1, wellNamed x (by simp), tail,
        ⟨j, low, lt, same⟩, high⟩ sit
    · rw [List.getLast?_cons_of_ne_nil more] at last
      have empty : xs.isEmpty = false := by simpa using more
      have rest {t₁ : Node} {k₁ : Nat} {β₁ γ₁ : Ren} {ρ₁' : Env} {s₁ s₁' : State}
          (conv : Returns (seqLoop res frst name xs) m (some t₁) k₁) (high : k₁ ≤ m₁)
          (sit : Situation W lax bound m₀ m₁ β₁ γ₁ ρ ρ₁' s₁ s₁' res name κ) :=
        ih last (fun y hy => hx y (by simp [hy])) ok.2
          (fun y hy => wellNamed y (by simp [hy])) conv high sit
      obtain ⟨prev, rfl⟩ := seqLoop_some more convRest
      rw [evalSeq_cons x more]
      by_cases simple : selfEval x = true
      · have distinct : eqObject x frst = false := by
          by_contra same
          exact allSimple (keepsOrder_shared ok.1.2 last (eqObject_share (by simpa using same)))
        simp only [simple, if_true, empty, distinct, Bool.or_self, Bool.false_eq_true, if_false,
          returns_pure, Option.some.injEq] at conv
        obtain ⟨rfl, rfl⟩ := conv
        obtain ⟨v, s₁, value⟩ := harmless_value (W := W)
          (keepsOrder_harmless ok.1.2 last simple) sit.ready
        rw [eval_late simple, value]
        obtain ⟨rel₁, grow₁⟩ := (evalSimple_grown value).left mono sit.rel
        have run := rest convRest high ⟨rel₁, sit.env.mono grow₁.objs, sit.void,
          fun h => (sit.cont h).extend grow₁, sit.ready.later grow₁.cells⟩
        exact Refines.mono run fun p d h => h.earlier (.refl _ _) grow₁ fun _ h => h
      · have distinct : eqObject x frst = false := by
          by_contra h
          exact simple (eqObject_simple (by simpa using h)).1
        simp only [simple, Bool.false_eq_true, if_false, empty, distinct, Bool.or_self, seqName,
          returns_bind, returns_genName, returns_map, Option.some.injEq] at conv
        obtain ⟨_, _, ⟨rfl, rfl⟩, _, conv, rfl⟩ := conv
        have rise₁ := seqLoop_rising (fun x _ => convert_rising x) _ _ _ _ _ _ convRest
        have rise₂ := convert_rising x _ _ _ _ _ conv
        have placed : Placed lax bound m₀ m₁ x .effect _ (varName k) (k + 1) _ m' :=
          ⟨conv, by simpa [empty] using ok.1.1, wellNamed x (by simp), by simp,
            ⟨k, by omega, by omega, rfl⟩, high⟩
        refine Refines.bind (hx x (by simp) placed (sit.unname _ _)) ?_
        rintro ⟨v, s₁⟩ c arrive
        cases arrive with
        | @rest _ _ ρ₁' _ s₁' β₁ γ₁ agree₁ rel₁ grow₁ val =>
          have sit₁ := sit.later res name κ rel₁ agree₁ grow₁
            placed.changed fun h => ((sit.cont h).extend grow₁).agree agree₁ (by
              rw [same]
              rintro (h | h)
              · have := varName_injective h
                omega
              · rw [varName_generated] at h
                omega)
          refine Refines.mono (rest convRest (by omega) sit₁) fun p d h =>
            h.earlier (agree₁.mono ?_) grow₁ ?_
          · rintro y (rfl | h)
            · exact .inr ⟨k, by omega, by omega, rfl⟩
            · exact .inr (h.mono (by omega) (le_refl _))
          · rintro y (h | h)
            · exact .inl h
            · exact .inr (h.mono (le_refl _) (by omega))

theorem convertSeq_simulates (n : Nat) (pos : Position) {xs : List Node} {o : Option Node} (some : xs ≠ [])
    (hx : ∀ x ∈ xs, EvalSim W lax m₀ m₁ n x)
    (ok : convertibleSeq lax bound pos xs = true) (wellNamed : ∀ x ∈ xs, x.Over (SourceName m₀ m₁))
    (tail : res = none ↔ pos = .tail) (named : ∃ j, m₀ ≤ j ∧ j < m ∧ name = varName j)
    (conv : Returns (convertSeq res xs name) m o m') (high : m' ≤ m₁) :
    ∃ t, o = .some t ∧ ∀ {β γ ρ ρ' s s' κ}, Situation W lax bound m₀ m₁ β γ ρ ρ' s s' res name κ →
      Simulates W lax m₀ m₁ n β γ ρ' s s' (Changed name m m') name pos κ res
        (evalSeq W selfEval (enterN W selfEval n) ρ xs s) (start [t] ρ' s') := by
  cases xs with
  | nil => exact absurd rfl some
  | cons x xs =>
    rw [convertSeq_cons] at conv
    obtain ⟨t, rfl⟩ := seqLoop_some (by simp) conv
    exact ⟨t, rfl, fun sit => seqLoop_simulates (List.getLast?_eq_some_getLast _) hx ok wellNamed
      tail named conv high sit⟩

theorem begin_simulates {forms : List Node} (hx : ∀ x ∈ forms, EvalSim W lax m₀ m₁ n x) :
    EvalSim W lax m₀ m₁ n (.begin forms) := by
  intro bound pos res name m t m' placed β γ ρ ρ' s s' κ sit
  have conv := placed.conv
  rw [convert_begin] at conv
  simp only [returns_bind, returns_pure] at conv
  obtain ⟨o, _, conv, rfl, rfl⟩ := conv
  have ok := placed.ok
  simp only [convertible, Bool.and_eq_true, Bool.not_eq_true', List.isEmpty_eq_false_iff] at ok
  obtain ⟨t, rfl, run⟩ := convertSeq_simulates n pos ok.1.2 hx ok.2
    (over_begin.mp placed.wellNamed) placed.tail placed.name conv placed.high
  rw [eval_begin (by simp [selfEval])]
  exact run sit

theorem evalItem_define (x : Symbol) (v : Node) :
    evalItem W selfEval (enterN W selfEval n) ρ (.define x v) s =
      (eval W selfEval (enterN W selfEval n) ρ v s >>= fun p =>
        .ofOption (assign ρ p.2 x p.1) >>= fun s => pure (Values.void, s)) := rfl

theorem defines_simulates {defs exprs : List Node} {rest t : Node} {m₂ : Nat} (some : exprs ≠ [])
    (isLax : defs ≠ [] → lax = true) {before done after : List Symbol}
    (all : ∀ x ∈ after, x ∈ before ∨ x ∈ done ∨ x ∈ defs.map defineName)
    (hd : ∀ x ∈ defs, ∃ y v, x = .define y v ∧ y ≠ "void" ∧ convertible lax before .tail v = true ∧
      SourceName m₀ m₁ y ∧ v.Over (SourceName m₀ m₁) ∧ EvalSim W lax m₀ m₁ n v)
    (named : ∃ j, m₀ ≤ j ∧ j < m ∧ name = varName j) (rise : m ≤ m₂)
    (run : ∀ {β γ ρ' s s'}, Situation W lax after m₀ m₁ β γ ρ ρ' s s' none name κ →
      Simulates W lax m₀ m₁ n β γ ρ' s s' (Changed name m m₂) name .tail κ none
        (evalItems W selfEval (enterN W selfEval n) ρ exprs s) (start [rest] ρ' s'))
    (conv : Returns (convertDefines (.some rest) defs) m₂ (.some t) m') (high : m' ≤ m₁)
    (sit : Situation W lax before m₀ m₁ β γ ρ ρ' s s' none name κ) (ready : Ready done ρ s) :
    Simulates W lax m₀ m₁ n β γ ρ' s s' (Changed name m m') name .tail κ none
      (evalItems W selfEval (enterN W selfEval n) ρ (defs ++ exprs) s) (start [t] ρ' s') := by
  induction defs generalizing t m' β γ ρ' s s' done with
  | nil =>
    rw [convertDefines_nil, returns_pure, Option.some.injEq] at conv
    obtain ⟨rfl, rfl⟩ := conv
    refine run ⟨sit.rel, sit.env, sit.void, sit.cont, fun x member => ?_⟩
    rcases all x member with old | new | never
    · exact sit.ready x old
    · exact ready x new
    · cases never
  | cons x defs ih =>
    obtain ⟨y, v, rfl, notVoid, ok, source, wellNamed, hv⟩ := hd x (by simp)
    rw [convertDefines_cons] at conv
    simp only [returns_bind, returns_genName, returns_map, Option.some.injEq] at conv
    obtain ⟨prev, k, convRest, _, _, ⟨rfl, rfl⟩, _, conv, rfl⟩ := conv
    obtain ⟨j, low, lt, same⟩ := named
    have rise₁ := convertDefines_rising (fun _ v _ => convert_rising v) _ _ _ _ convRest
    have rise₂ := (convert_rising v).set _ _ _ _ _ _ conv
    obtain ⟨prev, rfl⟩ := convertDefines_some convRest
    have more : defs ++ exprs ≠ [] := by simp [some]
    rw [List.cons_append, evalItems_cons _ more, evalItem_define]
    have step := convertSet_simulates .effect (isLax (by simp)) hv ok wellNamed source (by simp)
      ⟨k, by omega, by omega, rfl⟩ conv high (sit.unname prev (varName k))
    refine Refines.bind step.traced ?_
    rintro ⟨w, s₁⟩ c ⟨ran, arrive⟩
    cases arrive with
    | @rest _ _ ρ₁' _ s₁' β₁ γ₁ agree₁ rel₁ grow₁ val =>
      have sit₁ := sit.later none name κ rel₁ agree₁ grow₁
        (by
          rintro x (rfl | h)
          · exact ⟨k, by omega, by omega, rfl⟩
          · exact generated_range (by omega) high h)
        fun h => ((sit.cont h).extend grow₁).agree agree₁ (by
          rw [same]
          rintro (h | h)
          · have := varName_injective h
            omega
          · rw [varName_generated] at h
            omega)
      have settled : Ready (y :: done) ρ s₁ := by
        simp only [bind_ok_iff, ofOption_ok_iff, Outcome.pure_eq, Outcome.ok.injEq,
          Prod.mk.injEq] at ran
        obtain ⟨_, _, _, assigned, _, rfl⟩ := ran
        intro x member
        rcases List.mem_cons.mp member with rfl | old
        · exact assign_ready assigned
        · exact ready.later grow₁.cells x old
      have covered : ∀ x ∈ after, x ∈ before ∨ x ∈ y :: done ∨ x ∈ defs.map defineName := by
        intro x member
        have := all x member
        simp only [List.map_cons, List.mem_cons] at this ⊢
        tauto
      refine Refines.mono (ih (fun _ => isLax (by simp)) covered (fun z hz => hd z (by simp [hz])) convRest
        (by omega) sit₁ settled) fun p d h => h.earlier (agree₁.mono ?_) grow₁ ?_
      · rintro y (rfl | h)
        · exact .inr ⟨k, by omega, by omega, rfl⟩
        · exact .inr (h.mono (by omega) (le_refl _))
      · rintro y (h | h)
        · exact .inl h
        · exact .inr (h.mono (le_refl _) (by omega))

theorem body_simulates {body body' : List Node}
    (parts : BodyParts lax (ahead (definedNames body) bound) (definedNames body ++ bound) body)
    (hx : ∀ node, EvalSim W lax m₀ m₁ n node) (wellNamed : ∀ x ∈ body, x.Over (SourceName m₀ m₁))
    (conv : Returns (convertBody body name) m body' m')
    (named : ∃ j, m₀ ≤ j ∧ j < m ∧ name = varName j) (high : m' ≤ m₁)
    (sit : Situation W lax bound m₀ m₁ β γ ρ ρ' s s' none name κ) :
    Simulates W lax m₀ m₁ n β γ ρ' s s' (Changed name m m') name .tail κ none
      (evalBody W selfEval (enterN W selfEval n) ρ body s) (start body' ρ' s') := by
  rw [convertBody_eq] at conv
  have nonempty : (expressionsOf body).isEmpty = false := by simpa using parts.some
  simp only [nonempty, Bool.false_eq_true, if_false, returns_bind, returns_pure] at conv
  obtain ⟨rest, m₂, convSeq, term, _, convDefs, rfl, rfl⟩ := conv
  have rise := convertSeq_rising (fun x _ => convert_rising x) _ _ _ _ _ convSeq
  have rise₂ := convertDefines_rising (fun _ v _ => convert_rising v) _ _ _ _ convDefs
  have exprMem {x : Node} (h : x ∈ expressionsOf body) : x ∈ body := List.mem_of_mem_filter h
  obtain ⟨rest, rfl, run⟩ := convertSeq_simulates n .tail parts.some
    (fun x _ => hx x) parts.seq (fun x h => wellNamed x (exprMem h)) (by simp) named convSeq
    (by omega)
  obtain ⟨t, rfl⟩ := convertDefines_some convDefs
  have defines : ∀ x ∈ definesOf body, ∃ y v, x = .define y v ∧ y ≠ "void" ∧
      convertible lax (ahead (definedNames body) bound) .tail v = true ∧ SourceName m₀ m₁ y ∧ v.Over (SourceName m₀ m₁) ∧
      EvalSim W lax m₀ m₁ n v := by
    intro x h
    obtain ⟨y, v, rfl, notVoid, ok⟩ := parts.defines x h
    have := over_define.mp (wellNamed _ (List.mem_of_mem_filter h))
    exact ⟨y, v, rfl, notVoid, ok, this.1, this.2, hx v⟩
  have isLax : definesOf body ≠ [] → lax = true := by
    intro some
    by_contra strict
    obtain ⟨x, rfl, plain⟩ := parts.strict (by simpa using strict)
    simp [definesOf, plain] at some
  -- both sides give every definition a cell
  obtain ⟨β₁, γ₁, rel₁, grow₁, env₁⟩ := sit.rel.bindNames (A := NoneOld)
    (converted_widening _ _ _) sit.env ((definesOf body).map defineName)
  have names : ∀ x ∈ (definesOf body).map defineName, SourceName m₀ m₁ x ∧ x ≠ "void" := by
    intro x h
    obtain ⟨z, hz, rfl⟩ := List.mem_map.mp h
    obtain ⟨y, v, rfl, notVoid, _, source, _⟩ := defines z hz
    exact ⟨source, notVoid⟩
  obtain ⟨j, low, lt, same⟩ := named
  have kept (x : Symbol) (h : x ∉ (definesOf body).map defineName) :
      (bindNames ((definesOf body).map defineName) ρ' s').1 x = ρ' x := bindNames_other h ρ' s'
  have sit₁ : Situation W lax (ahead (definedNames body) bound) m₀ m₁ β₁ γ₁ (bindNames ((definesOf body).map defineName) ρ s).1
      (bindNames ((definesOf body).map defineName) ρ' s').1
      (bindNames ((definesOf body).map defineName) ρ s).2
      (bindNames ((definesOf body).map defineName) ρ' s').2 none name κ := by
    refine ⟨rel₁, env₁, fun l => ?_, fun h => ?_, sit.ready.names _⟩
    · rw [kept _ fun h => (names _ h).2 rfl, sit.void l]
    · refine ((sit.cont h).extend grow₁).agree (D := (· ∈ (definesOf body).map defineName)) kept ?_
      intro h
      exact (names _ h).1 ⟨j, low, by omega, same⟩
  have covered : ∀ x ∈ definedNames body ++ bound, x ∈ ahead (definedNames body) bound ∨
      x ∈ ([] : List Symbol) ∨ x ∈ (definesOf body).map defineName := by
    intro x member
    by_cases defined : x ∈ definedNames body
    · exact .inr (.inr defined)
    · refine .inl (List.mem_filter.mpr ⟨(List.mem_append.mp member).resolve_left defined, ?_⟩)
      simpa using defined
  have main := defines_simulates (n := n) parts.some isLax covered defines ⟨j, low, lt, same⟩ rise
    (fun sit => by
      rw [evalItems_plain parts.plain]
      exact run sit) convDefs high sit₁ fun _ never => absurd never List.not_mem_nil
  rw [← parts.split] at main
  have reach : Reaches (step W) (start (extendForm ((definesOf body).map defineName) ++ [t]) ρ' s')
      (start [t] (bindNames ((definesOf body).map defineName) ρ' s').1
        (bindNames ((definesOf body).map defineName) ρ' s').2) := by
    unfold extendForm
    split
    · rename_i empty
      rw [List.isEmpty_iff] at empty
      rw [empty]
      exact .refl _
    · exact .one (step_extend _ _)
  refine .after reach (Refines.mono main fun p d h => ?_)
  cases h with
  | ret rel grow val => exact .ret rel (grow₁.then grow) val

theorem bindFixed_other {xs : List Symbol} {x : Symbol} (other : x ∉ xs) {vs left : List Value}
    {ρ ρ₁ : Env} {s s₁ : State} (h : bindFixed xs vs ρ s = some ((left, ρ₁), s₁)) :
    ρ₁ x = ρ x := by
  induction xs generalizing vs ρ s with
  | nil =>
    simp only [bindFixed, Option.some.injEq, Prod.mk.injEq] at h
    rw [h.1.2]
  | cons y ys ih =>
    simp only [List.mem_cons, not_or] at other
    cases vs with
    | nil => simp [bindFixed] at h
    | cons v vs =>
      rw [ih other.2 h]
      simp [Env.bind, other.1]

theorem bindArgs_other {args : Formals} {x : Symbol} (other : x ∉ args.names) {vs : List Value}
    {ρ ρ₁ : Env} {s s₁ : State} (h : bindArgs args vs ρ s = some (ρ₁, s₁)) : ρ₁ x = ρ x := by
  simp only [Formals.names, List.mem_append, not_or] at other
  simp only [bindArgs, Option.bind_eq_bind, Option.bind_eq_some_iff, Prod.exists] at h
  obtain ⟨left, ρ₂, s₂, fixed, h⟩ := h
  have same := bindFixed_other other.1 fixed
  cases hr : args.rest with
  | none =>
    simp only [hr] at h
    split at h
    · simp only [Option.some.injEq, Prod.mk.injEq] at h
      rw [← h.1, same]
    · simp at h
  | some r =>
    simp only [hr, Option.some.injEq, Prod.mk.injEq] at h
    have ne : x ≠ r := by simpa [hr] using other.2
    rw [← h.1, Env.bind, if_neg ne, same]

theorem bindArgs_cont (args : Formals) (name : Symbol) (κ : Value) (vs : List Value) (ρ : Env)
    (s : State) : bindArgs ⟨name :: args.fixed, args.rest⟩ (κ :: vs) ρ s =
      bindArgs args vs (ρ.bind name s.top) (s.alloc (.cell (some κ))) := by
  simp only [bindArgs, bindFixed]

theorem eval_simulates (hcall : CallSim W lax m₀ m₁ n) (node : Node) :
    EvalSim W lax m₀ m₁ n node := by
  induction node using bodyInduct with
  | simple node simple => exact simple_simulates simple
  | lambda args body => exact lambda_simulates args body
  | ite p a b hp ha hb => exact ite_simulates hp ha hb
  | set x v hv => exact set_simulates hv
  | define x v =>
    intro bound pos res name m t m' placed
    exact absurd placed.ok (by simp [convertible])
  | begin forms ih => exact begin_simulates ih
  | extend names =>
    intro bound pos res name m t m' placed
    exact absurd placed.ok (by simp [convertible])
  | app f args complex hf ih => exact app_simulates complex hcall hf ih

theorem closure_simulates (hcall : CallSim W lax m₀ m₁ n) {vs vs' : List Value} {args args' : Formals}
    {body body' : List Node} {i : Nat} (rel : StateRel W (Converted lax m₀ m₁) β γ s s')
    (here : s'.get i = some (.closure args' body' ρ'))
    (conv : Converted lax m₀ m₁ s β args body ρ args' body' ρ')
    (hvs : List.Forall₂ (ValueRel β γ) vs vs') :
    Refines (step W) (Bad W) (n + 1) (enterN W selfEval (n + 1) args body ρ vs s)
      (.call (.proc i) (κ :: vs') s') fun p c => ∃ v' s₁' β₁ γ₁, c = .call κ [v'] s₁' ∧
          StateRel W (Converted lax m₀ m₁) β₁ γ₁ p.2 s₁' ∧
          Extends NoneOld β γ s s' β₁ γ₁ p.2 s₁' ∧ ValueRel β₁ γ₁ p.1 v' := by
  have mono := converted_widening lax m₀ m₁
  obtain ⟨bound, m, m', low, high, conv, env, ok, wellNamed, void, ready⟩ := conv
  rw [convertFunc_eq] at conv
  simp only [returns_bind, returns_genName, returns_pure, Node.lambda.injEq] at conv
  obtain ⟨_, _, ⟨rfl, rfl⟩, code, last, conv, ⟨rfl, rfl⟩, rfl⟩ := conv
  simp only [convertible, Bool.and_eq_true, Bool.or_eq_true, Bool.not_eq_true'] at ok
  have wellNamed := over_lambda.mp wellNamed
  have parts := convertibleBody_parts ok.2
  have rises := convertBody_rising (fun x _ => convert_rising x) (fun _ v _ => convert_rising v)
    _ _ _ _ conv
  have rel₁ := rel.allocRight mono (.cell (some κ))
  have grow₁ := extends_allocRight β γ s s' (.cell (some κ))
  have agree := agree_bind (D := Generated m (m + 1)) ⟨m, by omega, by omega, rfl⟩ ρ' s'.top
  have env₁ : EnvRel (SourceName m₀ m₁) β ρ (ρ'.bind (varName m) s'.top) := by
    intro x hx
    rw [agree x fun h => generated_source low (by omega) h hx]
    exact env x hx
  have holds := holds_bind rel ρ' (varName m) κ
  have bound := rel₁.bindArgs (A := NoneOld) mono env₁ args hvs
  have split := bindArgs_cont args (varName m) κ vs' ρ' s'
  rcases hl : bindArgs args vs ρ s with _ | ⟨ρ₁, s₁⟩ <;>
    rcases hr : bindArgs args vs' (ρ'.bind (varName m) s'.top) (s'.alloc (.cell (some κ))) with
      _ | ⟨ρ₁', s₁'⟩ <;> rw [hl, hr] at bound <;> rw [hr] at split
  · simp only [enterN, hl]
    exact .error (bad_stuck (step_proc_fails here split))
  · exact bound.elim
  · exact bound.elim
  · simp only [enterN, hl]
    obtain ⟨β₁, γ₁, rel₂, grow₂, env₂⟩ := bound
    have sit : Situation W lax (args.names ++ bound) m₀ m₁ β₁ γ₁ ρ₁ ρ₁' s₁ s₁' none
        (varName m) κ := by
      refine ⟨rel₂, env₂, fun l => ?_, fun _ => ?_, ready.args hl⟩
      · have free : "void" ∉ args.names := by simpa [l] using ok.1
        rw [bindArgs_other free hr, agree _ fun h => ?_, void l]
        obtain ⟨j, _, _, same⟩ := h
        exact varName_ne (by decide) j same.symm
      · refine (holds.extend grow₂).agree (D := (· ∈ args.names)) (fun x hx => bindArgs_other hx hr) ?_
        exact fun h => wellNamed.1 _ h ⟨m, low, by omega, rfl⟩
    have run := body_simulates (n := n) parts (eval_simulates hcall) wellNamed.2 conv
      ⟨m, low, by omega, rfl⟩ high sit
    rw [← start_splice] at run
    refine .tick (step_proc here split) ?_
    rw [← Outcome.bind_ok (evalBody W selfEval (enterN W selfEval n) ρ₁ body s₁)]
    refine Refines.bind run ?_
    rintro ⟨v, s₂⟩ c arrive
    cases arrive with
    | @ret _ v' _ s₂' β₂ γ₂ rel₃ grow₃ val =>
      exact .ok ⟨v', s₂', β₂, γ₂, rfl, rel₃, (grow₁.then grow₂).then grow₃, val⟩

theorem call_refines (W : World) (lax : Bool) (m₀ m₁ n : Nat) : CallSim W lax m₀ m₁ n := by
  have proc (n : Nat) (ih : ∀ k, k < n → CallSim W lax m₀ m₁ k) : CallSim W lax m₀ m₁ n := by
    intro β γ s s' f f' vs vs' κ rel hf hvs
    cases hf with
    | @atom a notDone =>
      cases a with
      | prim p => exact callSim_prim p rel hvs
      | done => exact absurd rfl notDone
      | _ => exact .error (bad_stuck rfl)
    | ref => exact .error (bad_stuck rfl)
    | @proc i i' h =>
      obtain ⟨args, body, ρ, args', body', ρ', hl, hr, conv⟩ := rel.procs h
      simp only [applyProc, hl]
      cases n with
      | zero => exact ⟨0, _, le_refl _, .zero _⟩
      | succ n => exact closure_simulates (ih n (by omega)) rel hr conv hvs
  induction n using Nat.strongRecOn with
  | ind n ih => exact proc n ih

end simulation

end LGears.CpsCorrect
