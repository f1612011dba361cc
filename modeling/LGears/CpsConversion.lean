import LGears.CpsCorrect

/- What the conversion guarantees for whole programs: the converted program, given the
   halting continuation, computes what the source computes. -/
namespace LGears.CpsConversion
open StateExcept GenName PrimitivesInfo Values Machine Cps CpsMachine Renaming Direct CoreProgram CpsCorrect

/-- Two results that differ only in where their objects are: corresponding values, with
   corresponding contents to any depth, after corresponding side effects. -/
def SameAnswer (v : Value) (s : State) (v' : Value) (s' : State) : Prop :=
  ∃ β γ : Ren, Relator.BiUnique β ∧
    (∀ m n, β m n → ∃ o p, s.get m = some o ∧ s'.get n = some p ∧ ObjRel β γ o p) ∧
    (∀ m n, γ m n → ∃ args body ρ args' body' ρ', s.get m = some (.closure args body ρ) ∧
      s'.get n = some (.closure args' body' ρ')) ∧
    ValueRel β γ v v' ∧ List.Forall₂ (EventRel β γ) s.trace s'.trace

theorem sameAnswer_of {W : World} {K : ClosureRel} {β γ : Ren} {v v' : Value} {s s' : State}
    (rel : StateRel W K β γ s s') (val : ValueRel β γ v v') : SameAnswer v s v' s' := by
  refine ⟨β, γ, rel.objUniq, fun m n h => rel.objs h, fun m n h => ?_, val, rel.trace⟩
  obtain ⟨args, body, ρ, args', body', ρ', hm, hn, _⟩ := rel.procs h
  exact ⟨args, body, ρ, args', body', ρ', hm, hn⟩

theorem SameAnswer.atom {a : Atom} {s s' : State} {v' : Value} (h : SameAnswer (.atom a) s v' s') :
    v' = .atom a := by
  obtain ⟨_, _, _, _, _, val, _⟩ := h
  cases val
  rfl

/-- The expander's output is wrapped into a procedure without parameters. -/
def toplevel (body : List Node) : Node := .lambda ⟨[], none⟩ body

/-- The value of the conversion of a program started with the halting continuation. -/
def Yields (W : World) (program : Node) (v' : Value) (s' : State) : Prop :=
  Halts (step W) (initial program (.atom .done)) (.done v' s')

def runBody (W : World) (n : Nat) (body : List Node) : Outcome (Value × State) :=
  evalBody W selfEval (enterN W selfEval n) Env.empty body State.empty

section program
variable {W : World} {lax : Bool} {m₀ m₁ : Nat} {body : List Node} {program : Node}

theorem empty_rel (W : World) (K : ClosureRel) :
    StateRel W K (fun _ _ => False) (fun _ _ => False) State.empty State.empty where
  objUniq := ⟨fun _ _ _ h => h.elim, fun _ _ _ h => h.elim⟩
  procUniq _ := ⟨fun _ _ _ h => h.elim, fun _ _ _ h => h.elim⟩
  objs h := h.elim
  procs h := h.elim
  trace := .nil

theorem program_refines (conv : cpsConvert (toplevel body) m₀ = .ok (program, m₁))
    (ok : convertible lax builtinNames .tail (toplevel body) = true)
    (wellNamed : ∀ x ∈ body, x.Over (SourceName m₀ m₁)) (n : Nat) :
    Refines (step W) (Bad W) n (runBody W n body)
      (initial program (.atom .done)) fun p c => ∃ v' s', c = .call (.atom .done) [v'] s' ∧
        SameAnswer p.1 p.2 v' s' := by
  replace conv : Returns (convertFunc ⟨[], none⟩ body) m₀ program m₁ := conv
  rw [convertFunc_eq] at conv
  simp only [returns_bind, returns_genName, returns_pure] at conv
  obtain ⟨_, _, ⟨rfl, rfl⟩, code, last, conv, rfl, isLast⟩ := conv
  subst isLast
  have mono := converted_widening lax m₀ last
  have rises := convertBody_rising (fun x _ => convert_rising x) (fun _ v _ => convert_rising v)
    _ _ _ _ conv
  have rel₀ := empty_rel W (Converted lax m₀ last)
  have rel := rel₀.allocRight mono (.cell (some (.atom .done)))
  have agree := agree_bind (D := Generated m₀ (m₀ + 1)) ⟨m₀, by omega, by omega, rfl⟩ Env.empty 0
  have sit : Situation W lax builtinNames m₀ last (fun _ _ => False) (fun _ _ => False) Env.empty
      (Env.empty.bind (varName m₀) 0) State.empty (State.empty.alloc (.cell (some (.atom .done))))
      none (varName m₀) (.atom .done) := by
    refine ⟨rel, fun x hx => ?_, fun _ => ?_, fun _ => holds_bind rel₀ _ _ _, ready_builtins⟩
    · rw [agree x fun h => generated_source (le_refl _) rises h hx]
      exact .none
    · rw [agree]
      · rfl
      · rintro ⟨j, _, _, same⟩
        exact varName_ne (by decide) j same.symm
  simp only [toplevel, convertible, Formals.names, Option.toList_none, List.append_nil,
    List.nil_append, Bool.and_eq_true] at ok
  have run := body_simulates (n := n) (convertibleBody_parts ok.2)
    (eval_simulates (call_refines W lax m₀ last n)) wellNamed conv ⟨m₀, by omega, by omega, rfl⟩
    (le_refl _) sit
  rw [← start_splice] at run
  refine Refines.mono run ?_
  rintro ⟨v, s⟩ c arrive
  cases arrive with
  | ret rel _ val => exact ⟨_, _, rfl, sameAnswer_of rel val⟩

theorem bad_final (c : Config) (h : Bad W c) : ∀ d, step W c ≠ .next d := by
  rcases h with h | ⟨_, _, h⟩ <;> simp [h]

/- What the source computes, the converted program computes. -/
theorem program_preserved (conv : cpsConvert (toplevel body) m₀ = .ok (program, m₁))
    (ok : convertible lax builtinNames .tail (toplevel body) = true)
    (wellNamed : ∀ x ∈ body, x.Over (SourceName m₀ m₁)) {n : Nat}
    {v : Value} {s : State} (ran : runBody W n body = .ok (v, s)) :
    ∃ v' s', Yields W program v' s' ∧ SameAnswer v s v' s' := by
  obtain ⟨r, halts, v', s', rfl, same⟩ := adequacy (T := fun p r => ∃ v' s', r = .done v' s' ∧
    SameAnswer p.1 p.2 v' s') (program_refines conv ok wellNamed) (by
      rintro p d ⟨v', s', rfl, same⟩
      exact ⟨.done v' s', rfl, v', s', rfl, same⟩) n (v, s) ran
  exact ⟨v', s', halts, same⟩

/- What the converted program computes, the source computes. -/
theorem program_reflected
    (conv : cpsConvert (toplevel body) m₀ = .ok (program, m₁))
    (ok : convertible lax builtinNames .tail (toplevel body) = true)
    (wellNamed : ∀ x ∈ body, x.Over (SourceName m₀ m₁))
    {v' : Value} {s' : State} (yields : Yields W program v' s') :
    ∃ n v s, runBody W n body = .ok (v, s) ∧ SameAnswer v s v' s' := by
  obtain ⟨n, ⟨v, s⟩, ran, same⟩ := adequacy_converse (fun r => ∃ v s, r = .done v s)
    (T := fun p r => ∃ v' s', r = .done v' s' ∧ SameAnswer p.1 p.2 v' s')
    (program_refines (W := W) conv ok wellNamed) (by
      rintro p d ⟨v', s', rfl, same⟩
      exact ⟨.done v' s', rfl, v', s', rfl, same⟩) bad_final (by
      rintro d r (h | ⟨v, s, h⟩) halted ⟨v', s', rfl⟩ <;> simp [h] at halted) _ yields ⟨_, _, rfl⟩
  obtain ⟨w, t, eq, same⟩ := same
  cases eq
  exact ⟨n, v, s, ran, same⟩

end program

/-- Conversions that report no violation. -/
def Total {α : Type} (c : Conv α) : Prop := ∀ m, ∃ a m', Returns c m a m'

section total
variable {α β : Type}

theorem Total.pure (a : α) : Total (pure a) := fun m => ⟨a, m, by simp⟩

theorem Total.bind {c : Conv α} {f : α → Conv β} (hc : Total c) (hf : ∀ a, Total (f a)) :
    Total (c >>= f) := by
  intro m
  obtain ⟨a, k, first⟩ := hc m
  obtain ⟨b, m', second⟩ := hf a k
  exact ⟨b, m', by simpa using ⟨a, k, first, second⟩⟩

theorem Total.map {c : Conv α} {f : α → β} (hc : Total c) : Total (f <$> c) := by
  intro m
  obtain ⟨a, k, h⟩ := hc m
  exact ⟨f a, k, by simpa using ⟨a, h, rfl⟩⟩

theorem Total.genName : Total genName := fun m => ⟨varName m, m + 1, by simp⟩

theorem Total.ite {p : Prop} [Decidable p] {c d : Conv α} (hc : Total c) (hd : Total d) :
    Total (if p then c else d) := by
  split
  · exact hc
  · exact hd

/-- Every conversion of the node succeeds. -/
def Converts (n : Node) : Prop := ∀ res name, Total (convert res n name)

theorem Converts.func {args : Formals} {body : List Node} (h : Converts (.lambda args body)) :
    Total (convertFunc args body) := by
  intro m
  obtain ⟨t, m', ran⟩ := h none "" m
  rw [convert_lambda] at ran
  simp only [returns_bind] at ran
  obtain ⟨func, k, ran, _⟩ := ran
  exact ⟨func, k, ran⟩

theorem Converts.arg {x : Node} (h : Converts x) : Total (convertArg x) := by
  rw [convertArg_eq]
  refine .ite (.pure _) ?_
  cases x with
  | lambda args body => exact h.func
  | _ => exact Total.genName.map

theorem Converts.glue {x : Node} (h : Converts x) (prev larg : Node) :
    Total (glueArg prev x larg) := by
  rw [glueArg_eq]
  exact .ite (.pure _) (h _ _)

theorem convertArgs_total {xs : List Node} (h : ∀ x ∈ xs, Converts x) : Total (convertArgs xs) := by
  induction xs with
  | nil => simpa using Total.pure _
  | cons x xs ih =>
    rw [convertArgs_cons]
    exact .bind (ih fun y hy => h y (by simp [hy])) fun _ =>
      .bind (h x (by simp)).arg fun _ => .pure _

theorem glueArgs_total {xs : List Node} (h : ∀ x ∈ xs, Converts x) (expr : Node)
    (largs : List Node) : Total (glueArgs expr xs largs) := by
  induction xs generalizing largs with
  | nil => simpa using Total.pure _
  | cons x xs ih =>
    cases largs with
    | nil =>
      rw [glueArgs.eq_def]
      exact .pure _
    | cons larg largs =>
      rw [glueArgs_cons]
      exact .bind (ih (fun y hy => h y (by simp [hy])) _) fun _ => (h x (by simp)).glue _ _

theorem convertSeq_total {xs : List Node} (h : ∀ x ∈ xs, Converts x) (res : Option Node)
    (name : Symbol) : Total (convertSeq res xs name) := by
  have loop (frst : Node) {ys : List Node} (h : ∀ x ∈ ys, Converts x) :
      Total (seqLoop res frst name ys) := by
    induction ys with
    | nil => simpa using Total.pure _
    | cons x ys ih =>
      rw [seqLoop_cons]
      refine .bind (ih fun y hy => h y (by simp [hy])) fun prev => ?_
      exact .ite (.pure _) (.bind (.ite (.pure _) .genName) fun _ => (h x (by simp) _ _).map)
  cases xs with
  | nil =>
    rw [convertSeq]
    exact .pure _
  | cons x xs =>
    rw [convertSeq_cons]
    exact loop _ h

theorem Converts.set {v : Node} (h : Converts v) (res : Option Node) (x name : Symbol) :
    Total (convertSet res x v name) := by
  rw [convertSet_eq]
  refine .ite (.pure _) ?_
  cases v with
  | lambda args body => exact .bind h.func fun _ => .pure _
  | _ => exact .bind .genName fun _ => .bind .genName fun _ => .bind (h _ _) fun _ => .pure _

theorem convertFunc_total {args : Formals} {body : List Node} (parts : CoreParts body)
    (h : ∀ x ∈ expressionsOf body, Converts x)
    (values : ∀ y v, .define y v ∈ body → Converts v) : Total (convertFunc args body) := by
  have defines {defs : List Node} (hd : ∀ x ∈ defs, ∃ y v, x = .define y v ∧ Converts v)
      (rest : Option Node) : Total (convertDefines rest defs) := by
    induction defs with
    | nil => simpa [convertDefines_nil] using Total.pure _
    | cons x xs ih =>
      obtain ⟨y, v, rfl, hv⟩ := hd x (by simp)
      rw [convertDefines_cons]
      exact .bind (ih fun z hz => hd z (by simp [hz])) fun _ => .bind .genName fun _ =>
        (hv.set _ _ _).map
  have some : (expressionsOf body).isEmpty = false := by simpa using parts.some
  rw [convertFunc_eq]
  refine .bind .genName fun name => .bind ?_ fun _ => .pure _
  rw [convertBody_eq, some, if_neg (by simp)]
  refine .bind (convertSeq_total h _ _) fun rest => .bind (defines (fun x hx => ?_) rest)
    fun _ => .pure _
  obtain ⟨y, v, rfl, _⟩ := parts.defines x hx
  exact ⟨y, v, rfl, values y v (List.mem_of_mem_filter hx)⟩

theorem convert_total {n : Node} (core : isCore n = true) : Converts n := by
  induction n using bodyInduct with
  | simple n h =>
    intro res name
    rw [convert_selfEval _ _ h]
    exact .pure _
  | lambda args body ih values =>
    rw [isCore] at core
    have parts := isCoreBody_parts core
    intro res name
    rw [convert_lambda]
    refine .bind (convertFunc_total parts (fun x hx => ih x (List.mem_of_mem_filter hx)
      (parts.exprs x hx)) fun y v hv => ?_) fun _ => .pure _
    obtain ⟨_, _, same, ok⟩ := parts.defines (.define y v) (List.mem_filter.mpr ⟨hv, rfl⟩)
    cases same
    exact values y v hv ok
  | ite p a b hp ha hb =>
    simp only [isCore, Bool.and_eq_true] at core
    intro res name
    rw [convert_ite]
    refine .bind (.ite (.pure _) Total.genName.map) fun _ => .bind .genName fun _ => ?_
    exact .bind (ha core.1.2 _ _) fun _ => .bind (hb core.2 _ _) fun _ =>
      .ite (.pure _) (hp core.1.1 _ _)
  | set x v hv =>
    intro res name
    rw [convert_set]
    exact (hv (by simpa [isCore] using core)).set _ _ _
  | define x v => simp [isCore] at core
  | begin forms ih =>
    simp only [isCore, Bool.and_eq_true, isCoreAll_iff] at core
    intro res name
    rw [convert_begin]
    exact .bind (convertSeq_total (fun x hx => ih x hx (core.2 x hx)) _ _) fun _ => .pure _
  | extend names => simp [isCore] at core
  | app f args h hf ih =>
    simp only [isCore, Bool.and_eq_true, isCoreAll_iff] at core
    have each : ∀ x ∈ args, Converts x := fun x hx => ih x hx (core.2 x hx)
    have func := hf core.1.2
    intro res name
    rw [convert_app _ _ h]
    exact .bind (convertArgs_total each) fun _ => .bind func.arg fun _ =>
      .bind (glueArgs_total each _ _) fun _ => func.glue _ _

end total

/- The applicative core: constants, variables, operations, `if`, procedures of fixed
   parameters with one expression, and calls. -/
mutual
def applicative : Node → Bool
  | .const _ | .quote _ | .sym _ => true
  | .lambda args body => args.rest.isNone && body.length == 1 && applicativeAll body
  | .ite pred conseq alt => applicative pred && applicative conseq && applicative alt
  | .app f args => typeTestOk f args && applicative f && applicativeAll args
  | .set _ _ | .define _ _ | .begin _ | .extend _ => false
def applicativeAll : List Node → Bool
  | [] => true
  | x :: xs => applicative x && applicativeAll xs
end

theorem applicativeAll_iff {xs : List Node} :
    applicativeAll xs = true ↔ ∀ x ∈ xs, applicative x = true := by
  induction xs with
  | nil => simp [applicativeAll]
  | cons x xs ih => simp [applicativeAll, ih]

theorem applicative_notDefine {e : Node} (h : applicative e = true) : isDefine e = false := by
  cases e <;> first | rfl | simp [applicative] at h

theorem applicative_core {e : Node} (h : applicative e = true) : isCore e = true := by
  induction e with
  | const | quote | sym => rfl
  | lambda args body ih =>
    simp only [applicative, Bool.and_eq_true, beq_iff_eq, applicativeAll_iff] at h
    obtain ⟨e, rfl⟩ := List.length_eq_one_iff.mp h.1.2
    have ok := h.2 e (by simp)
    rw [isCore, isCoreBody, applicative_notDefine ok, ih e (by simp) ok]
    rfl
  | ite p a b hp ha hb =>
    simp only [applicative, Bool.and_eq_true] at h
    simp [isCore, hp h.1.1, ha h.1.2, hb h.2]
  | app f args hf ih =>
    simp only [applicative, Bool.and_eq_true, applicativeAll_iff] at h
    simp only [isCore, Bool.and_eq_true, isCoreAll_iff]
    exact ⟨⟨h.1.1, hf h.1.2⟩, fun x hx => ih x hx (h.2 x hx)⟩
  | _ => simp [applicative] at h

theorem applicative_convertible {e : Node} (h : applicative e = true) (bound : List Symbol)
    (pos : Position) : convertible false bound pos e = true := by
  induction e generalizing bound pos with
  | const | quote | sym => rfl
  | lambda args body ih =>
    simp only [applicative, Bool.and_eq_true, beq_iff_eq, applicativeAll_iff] at h
    obtain ⟨e, rfl⟩ := List.length_eq_one_iff.mp h.1.2
    have ok := h.2 e (by simp)
    simp [convertible, convertibleBody, applicative_notDefine ok, ih e (by simp) ok, keepsOrder,
      convertibleSeq]
  | ite p a b hp ha hb =>
    simp only [applicative, Bool.and_eq_true] at h
    simp [convertible, hp h.1.1, ha h.1.2, hb h.2]
  | app f args hf ih =>
    simp only [applicative, Bool.and_eq_true, applicativeAll_iff] at h
    simp only [convertible, Bool.and_eq_true, convertibleAll_iff]
    exact ⟨⟨h.1.1, hf h.1.2 _ _⟩, fun x hx => ih x hx (h.2 x hx) _ _⟩
  | _ => simp [applicative] at h

theorem runBody_one (W : World) (n : Nat) {e : Node} (expr : isDefine e = false) :
    runBody W n [e] = run W selfEval n e := by
  have body : evalBody W selfEval (enterN W selfEval n) Env.empty [e] State.empty =
      evalItems W selfEval (enterN W selfEval n) Env.empty [e] State.empty := by
    simp [evalBody, definesOf, expr, bindNames]
  rw [runBody, body, evalItems_plain (by simpa using expr), evalSeq_one, run]

/- The conversion of the applicative core preserves and reflects results and effects. -/
theorem cpsConvert_applicative (W : World) (e : Node) (core : applicative e = true)
    (lastName : Nat) :
    ∃ program lastName', cpsConvert (toplevel [e]) lastName = .ok (program, lastName') ∧
      (e.Over (SourceName lastName lastName') →
        (∀ n v s, run W selfEval n e = .ok (v, s) →
          ∃ v' s', Yields W program v' s' ∧ SameAnswer v s v' s') ∧
        (∀ v' s', Yields W program v' s' →
          ∃ n v s, run W selfEval n e = .ok (v, s) ∧ SameAnswer v s v' s')) := by
  have expr := applicative_notDefine core
  have whole : isCore (toplevel [e]) = true := by
    rw [toplevel, isCore, isCoreBody, expr, applicative_core core]
    rfl
  have ok : convertible false builtinNames .tail (toplevel [e]) = true :=
    applicative_convertible (by simp [toplevel, applicative, applicativeAll, core]) _ _
  obtain ⟨program, lastName', conv⟩ := (convert_total whole).func lastName
  refine ⟨program, lastName', conv, fun wellNamed => ⟨fun n v s ran => ?_, fun v' s' yields => ?_⟩⟩
  · rw [← runBody_one W n expr] at ran
    exact program_preserved conv ok (by simpa using wellNamed) ran
  · obtain ⟨n, v, s, ran, same⟩ := program_reflected conv ok (by simpa using wellNamed) yields
    rw [runBody_one W n expr] at ran
    exact ⟨n, v, s, ran, same⟩

/-- ((lambda (x y) (if x (display ($+ y 1)) 0)) (display 1) (list y))-like nesting of operands. -/
def nestedCalls : Node :=
  .app (.lambda ⟨["x", "y"], none⟩
      [.ite (.sym "x") (.app (.sym "list") [.app (.sym "$+") [.sym "y", .const (.num 1)], .sym "x"])
        (.const (.num 0))])
    [.app (.sym "display") [.app (.sym "list") [.const (.num 7)]],
      .app (.sym "$car") [.app (.sym "list") [.const (.num 2), .sym "display"]]]

theorem cpsConvert_applicative_nested :
    ∃ program lastName', cpsConvert (toplevel [nestedCalls]) 5 = .ok (program, lastName') ∧
      ∃ v' s', Yields basicWorld program v' s' ∧ s'.trace.length = 1 := by
  obtain ⟨program, last, conv, main⟩ := cpsConvert_applicative basicWorld nestedCalls (by decide) 5
  have wellNamed : nestedCalls.Over (SourceName 5 last) := by
    have plain : ∀ x ∈ nestedCalls.syms, x.toList.take 5 ≠ "_var.".toList := by decide
    rintro x hx ⟨i, _, _, rfl⟩
    exact varName_ne (plain _ hx) i rfl
  obtain ⟨v', s', yields, same⟩ := (main wellNamed).1 3 _ _ rfl
  obtain ⟨_, _, _, _, _, _, trace⟩ := same
  exact ⟨program, last, conv, v', s', yields, trace.length_eq.symm⟩

/- The sequences and assignments of a node, in the given position, are converted faithfully:
   no self-evaluating form ends a sequence outside tail position, none that can fail stands
   before the end, none that may be the last form itself stands before other than self-evaluating
   forms, and the value of a `set!` is not needed. The variables in `bound` have values. -/
mutual
def orderly (bound : List Symbol) (pos : Position) : Node → Bool
  | .const _ | .quote _ | .sym _ | .extend _ => true
  | .lambda args body => orderlyBody (ahead (definedNames body) (args.names ++ bound))
      (definedNames body ++ (args.names ++ bound)) body
  | .ite pred conseq alt =>
    orderly bound .value pred && orderly bound .tail conseq && orderly bound .tail alt
  | .set _ value => pos != .value && orderly bound .tail value
  | .define _ value => orderly bound .tail value
  | .begin forms => orderlySeq bound pos forms
  | .app f args => orderly bound .value f && orderlyAll bound args
def orderlyAll (bound : List Symbol) : List Node → Bool
  | [] => true
  | x :: xs => orderly bound .value x && orderlyAll bound xs
def orderlySeq (bound : List Symbol) (pos : Position) : List Node → Bool
  | [] => true
  | x :: xs => orderly bound (if xs.isEmpty then pos else .effect) x && keepsOrder bound pos x xs &&
    orderlySeq bound pos xs
def orderlyBody (before after : List Symbol) : List Node → Bool
  | [] => true
  | x :: xs =>
    if isDefine x then orderly before .effect x && orderlyBody before after xs
    else orderly after (if xs.isEmpty then .tail else .effect) x && keepsOrder after .tail x xs &&
      orderlySeq after .tail xs
end

/-- A program is run where only the builtins have values. -/
def orderlyProgram (body : List Node) : Bool := orderly builtinNames .tail (toplevel body)

example (x : Symbol) : orderly [x] .tail (.begin [.sym x, .quote .null]) = true := by
  simp [orderly, orderlySeq, keepsOrder, harmless, mayShare, selfEval]

theorem orderlyAll_iff {bound : List Symbol} {xs : List Node} :
    orderlyAll bound xs = true ↔ ∀ x ∈ xs, orderly bound .value x = true := by
  induction xs with
  | nil => simp [orderlyAll]
  | cons x xs ih => simp [orderlyAll, ih]

/-- Programs whose binders are no words of the language. -/
def Plain (names : List Symbol) : Prop := ∀ x ∈ names, plainName x = true

theorem Plain.notVoid {names : List Symbol} (h : Plain names) : "void" ∉ names := by
  intro mem
  have := h _ mem
  revert this
  decide

theorem convertibleSeq_of {bound : List Symbol} {pos : Position} {xs : List Node}
    (each : ∀ x ∈ xs, ∀ pos, orderly bound pos x = true → convertible true bound pos x = true)
    (order : orderlySeq bound pos xs = true) : convertibleSeq true bound pos xs = true := by
  induction xs with
  | nil => rfl
  | cons x xs ih =>
    simp only [orderlySeq, convertibleSeq, Bool.and_eq_true] at order ⊢
    exact ⟨⟨each x (by simp) _ order.1.1, order.1.2⟩, ih (fun y hy => each y (by simp [hy])) order.2⟩

theorem convertibleBody_of {before after : List Symbol} {body : List Node}
    (core : isCoreBody body = true)
    (exprs : ∀ x ∈ body, isCore x = true → ∀ pos, orderly after pos x = true →
      convertible true after pos x = true)
    (defines : ∀ y v, .define y v ∈ body → isCore v = true → orderly before .tail v = true →
      y ≠ "void" ∧ convertible true before .tail v = true)
    (order : orderlyBody before after body = true) :
    convertibleBody true before after body = true := by
  induction body with
  | nil => simp [isCoreBody] at core
  | cons x xs ih =>
    rw [isCoreBody] at core
    rw [orderlyBody] at order
    rw [convertibleBody]
    split at core
    · rename_i isDef
      simp only [isDef, if_true, Bool.and_eq_true, Bool.true_and] at core order ⊢
      refine ⟨?_, ih core.2 (fun y hy => exprs y (by simp [hy]))
        (fun y v hv => defines y v (by simp [hv])) order.2⟩
      cases x with
      | define y v =>
        obtain ⟨notVoid, ok⟩ := defines y v (by simp) (by simpa [isCoreDefine] using core.1)
          (by simpa [orderly] using order.1)
        simp [convertibleDefine, notVoid, ok]
      | _ => simp [isDefine] at isDef
    · rename_i isDef
      simp only [isDef, Bool.false_eq_true, if_false, Bool.and_eq_true, Bool.true_or,
        isCoreAll_iff] at core order ⊢
      exact ⟨⟨⟨trivial, exprs x (by simp) core.1 _ order.1.1⟩, order.1.2⟩,
        convertibleSeq_of (fun y hy => exprs y (by simp [hy]) (core.2 y hy)) order.2⟩

theorem orderly_convertible {n : Node} (bound : List Symbol) (pos : Position)
    (core : isCore n = true) (plain : Plain (binders n)) (order : orderly bound pos n = true) :
    convertible true bound pos n = true := by
  induction n using bodyInduct generalizing bound pos with
  | simple n simple =>
    induction n generalizing bound pos with
    | const | quote | sym => rfl
    | app f args hf ih =>
      simp only [isCore, Bool.and_eq_true, isCoreAll_iff] at core
      simp only [selfEval, Bool.and_eq_true, simpleOperation_iff] at simple
      simp only [orderly, Bool.and_eq_true, orderlyAll_iff] at order
      have self : selfEval f = true := by
        cases f <;> simp [isOperator] at simple
        simp [selfEval]
      simp only [convertible, Bool.and_eq_true, convertibleAll_iff]
      refine ⟨⟨core.1.1, hf self _ _ core.1.2 (fun y hy => plain y (by simp [binders, hy])) order.1⟩, ?_⟩
      intro x hx
      refine ih x hx (simple.2 x hx) _ _ (core.2 x hx) (fun y hy => plain y ?_) (order.2 x hx)
      simp only [binders, List.mem_append, mem_bindersAll]
      exact .inr ⟨x, hx, hy⟩
    | _ => simp [selfEval] at simple
  | lambda args body ih values =>
    have inBody (x : Node) (hx : x ∈ body) : Plain (binders x) := fun y hy => plain y (by
      simp only [binders, List.mem_append, mem_bindersAll]
      exact .inr ⟨x, hx, hy⟩)
    have notVoid : "void" ∉ args.names :=
      Plain.notVoid fun y hy => plain y (by simp [binders, hy])
    have inside : convertibleBody true (ahead (definedNames body) (args.names ++ bound))
        (definedNames body ++ (args.names ++ bound)) body = true :=
      convertibleBody_of (by simpa [isCore] using core)
      (fun x hx core pos order => ih x hx _ pos core (inBody x hx) order)
      (fun y v hv core order => by
        have names := inBody _ hv
        simp only [binders] at names
        refine ⟨?_, values y v hv _ _ core (fun z hz => names z (by simp [hz])) order⟩
        rintro rfl
        exact names.notVoid (by simp)) (by simpa [orderly] using order)
    simp [convertible, notVoid, inside]
  | ite p a b hp ha hb =>
    simp only [isCore, Bool.and_eq_true] at core
    simp only [orderly, Bool.and_eq_true] at order
    simp only [binders] at plain
    simp only [convertible, Bool.and_eq_true]
    exact ⟨⟨hp _ _ core.1.1 (fun y hy => plain y (by simp [hy])) order.1.1,
      ha _ _ core.1.2 (fun y hy => plain y (by simp [hy])) order.1.2⟩,
      hb _ _ core.2 (fun y hy => plain y (by simp [hy])) order.2⟩
  | set x v hv =>
    simp only [isCore] at core
    simp only [orderly, Bool.and_eq_true] at order
    simp only [convertible, Bool.and_eq_true, true_and]
    exact ⟨order.1, hv _ _ core (by simpa [binders] using plain) order.2⟩
  | define x v => simp [isCore] at core
  | begin forms ih =>
    simp only [isCore, Bool.and_eq_true, isCoreAll_iff] at core
    simp only [convertible, Bool.and_eq_true, true_and]
    refine ⟨core.1, convertibleSeq_of (fun x hx pos order => ih x hx _ _ (core.2 x hx) ?_ order)
      (by simpa [orderly] using order)⟩
    intro y hy
    exact plain y (by simpa [binders, mem_bindersAll] using ⟨x, hx, hy⟩)
  | extend names => simp [isCore] at core
  | app f args complex hf ih =>
    simp only [isCore, Bool.and_eq_true, isCoreAll_iff] at core
    simp only [orderly, Bool.and_eq_true, orderlyAll_iff] at order
    simp only [convertible, Bool.and_eq_true, convertibleAll_iff]
    refine ⟨⟨core.1.1, hf _ _ core.1.2 (fun y hy => plain y (by simp [binders, hy])) order.1⟩, ?_⟩
    intro x hx
    refine ih x hx _ _ (core.2 x hx) (fun y hy => plain y ?_) (order.2 x hx)
    simp only [binders, List.mem_append, mem_bindersAll]
    exact .inr ⟨x, hx, hy⟩

/- A program whose sequences are converted faithfully is converted to a program that
   evaluates the same forms in the same order to the same value, gets stuck when the source does
   and runs on when it does. -/
theorem cpsConvert_orderly (W : World) (body : List Node) (core : isCoreBody body = true)
    (plain : Plain (bindersAll body)) (order : orderlyProgram body = true) (lastName : Nat) :
    ∃ program lastName', cpsConvert (toplevel body) lastName = .ok (program, lastName') ∧
      ((∀ x ∈ body, x.Over (SourceName lastName lastName')) →
        (∀ n v s, runBody W n body = .ok (v, s) →
          ∃ v' s', Yields W program v' s' ∧ SameAnswer v s v' s') ∧
        (∀ v' s', Yields W program v' s' →
          ∃ n v s, runBody W n body = .ok (v, s) ∧ SameAnswer v s v' s') ∧
        ((∀ n, runBody W n body = .timeout) →
          ∀ r, ¬ Halts (step W) (initial program (.atom .done)) r)) := by
  have whole : isCore (toplevel body) = true := by simpa [toplevel, isCore] using core
  have ok : convertible true builtinNames .tail (toplevel body) = true :=
    orderly_convertible _ _ whole (by simpa [Plain, toplevel, binders, Formals.names] using plain)
      order
  obtain ⟨program, lastName', conv⟩ := (convert_total whole).func lastName
  refine ⟨program, lastName', conv, fun wellNamed => ⟨?_, ?_, ?_⟩⟩
  · exact fun n v s ran => program_preserved conv ok wellNamed ran
  · exact fun v' s' yields => program_reflected conv ok wellNamed yields
  · exact fun endless r halts => divergence (program_refines conv ok wellNamed) endless r halts

/-- (define y (begin (display 1) 3))
    ((lambda (x) (begin (set! x y) '() y ($cons x list) (display x)) (begin x x))
      (if 1 (begin (display 2) y) 4)) -/
def sequences : List Node :=
  [.define "y" (.begin [.app (.sym "display") [.const (.num 1)], .const (.num 3)]),
    .app (.lambda ⟨["x"], none⟩ [.begin [.set "x" (.sym "y"), .quote .null, .sym "y",
        .app (.sym "$cons") [.sym "x", .sym "list"], .app (.sym "display") [.sym "x"]],
      .begin [.sym "x", .sym "x"]])
      [.ite (.const (.num 1)) (.begin [.app (.sym "display") [.const (.num 2)], .sym "y"])
        (.const (.num 4))]]

theorem cpsConvert_orderly_sequences :
    ∃ program lastName', cpsConvert (toplevel sequences) 0 = .ok (program, lastName') ∧
      ∃ v' s', Yields basicWorld program v' s' ∧ v' = .atom (.data (.num 3)) ∧
        s'.trace.length = 3 := by
  obtain ⟨program, last, conv, main⟩ := cpsConvert_orderly basicWorld sequences (by decide)
    (by unfold Plain; decide) (by decide) 0
  have wellNamed : ∀ x ∈ sequences, x.Over (SourceName 0 last) := by
    have plain : ∀ x ∈ sequences, ∀ y ∈ x.syms, y.toList.take 5 ≠ "_var.".toList := by decide
    rintro x hx y hy ⟨i, _, _, rfl⟩
    exact varName_ne (plain x hx _ hy) i rfl
  obtain ⟨v', s', yields, same⟩ := (main wellNamed).1 3 (.atom (.data (.num 3))) _ rfl
  refine ⟨program, last, conv, v', s', yields, same.atom, ?_⟩
  obtain ⟨_, _, _, _, _, _, trace⟩ := same
  exact trace.length_eq.symm

/-- The sequence ends with a form that evaluates itself, in operand position. -/
def endsSimple : List Node := [.app (.sym "$+") [.begin [.const (.num 1)], .const (.num 2)]]

/- Sequences are not always converted faithfully. -/
theorem cpsConvert_drops_rest :
    ¬ ∀ (W : World) (body : List Node), isCoreBody body = true → Plain (bindersAll body) →
      ∀ lastName program lastName',
        cpsConvert (toplevel body) lastName = .ok (program, lastName') →
        (∀ x ∈ body, x.Over (SourceName lastName lastName')) →
        ∀ n v s, runBody W n body = .ok (v, s) →
          ∃ v' s', Yields W program v' s' ∧ SameAnswer v s v' s' := by
  intro claim
  have wellNamed : ∀ x ∈ endsSimple, x.Over (SourceName 0 2) := by
    have plain : ∀ x ∈ endsSimple, ∀ y ∈ x.syms, y.toList.take 5 ≠ "_var.".toList := by decide
    rintro x hx y hy ⟨i, _, _, rfl⟩
    exact varName_ne (plain x hx _ hy) i rfl
  have conv : cpsConvert (toplevel endsSimple) 0 =
      .ok (.lambda ⟨[varName 0], none⟩ [.app (.sym (varName 1)) [.const (.num 1)]], 2) := by
    change Returns (convertFunc ⟨[], none⟩ endsSimple) 0 _ 2
    have plus : isOperator (.sym "$+") = true := by decide
    have sum : selfEval (.app (.sym "$+") [.begin [.const (.num 1)], .const (.num 2)]) = false := by
      decide
    simp [convertFunc_eq, convertBody_eq, endsSimple, expressionsOf, definesOf, isDefine,
      convertSeq_cons, seqLoop_cons, simpleOperation, seqName, convertDefines_nil, extendForm,
      convert_app none (varName 0) sum, convertArgs_cons, convertArg_eq, glueArgs_cons, glueArg_eq,
      selfEval, inlinable, callExpr, plus, convert_begin, spliceBegin, spliceNode, symbolOf]
  obtain ⟨v', s', yields, _⟩ := claim basicWorld endsSimple (by decide) (by unfold Plain; decide) 0
    _ 2 conv wellNamed 1 (.atom (.data (.num 3))) _ rfl
  -- the converted program calls a variable that nothing binds
  have operands : evalSimples basicWorld (Env.empty.bind (varName 0) 0) [.const (.num 1)]
      (State.empty.alloc (.cell (some (.atom .done)))) = some ([.atom (.data (.num 1))], _) := rfl
  refine stuck_not_halts (step_operator_fails rfl operands ?_) yields
  simp [evalSimple, lookupVar, Env.bind, Env.empty, varName_not_builtin]

end LGears.CpsConversion
