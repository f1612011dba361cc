import LGears.OptimizerLink

/- The source optimizer preserves what a program computes and the effects it has, as long as
   what it drops has none. -/
namespace LGears.OptimizerCorrect
open PrimitivesInfo Values Machine Cps CoreProgram Inlining OptimizerRefines OptimizerScope
  OptimizerPlaces OptimizerLink Resolution Renaming Direct

/-- Every operand in its turn. -/
def inOrder : Node → Bool := fun _ => false

section inorder
variable (W : World) (enter : Enter)

def evalArgs (ρ : Env) : List Node → State → Outcome (List Value × State)
  | [], s => pure ([], s)
  | x :: xs, s => do
    let (v, s) ← eval W inOrder enter ρ x s
    let (vs, s) ← evalArgs ρ xs s
    pure (v :: vs, s)

variable {W enter} {ρ : Env} {s s₁ : State}

theorem evalArgs_cons {x : Node} {xs : List Node} {vs : List Value} :
    evalArgs W enter ρ (x :: xs) s = .ok (vs, s₁) ↔
      ∃ v us t, eval W inOrder enter ρ x s = .ok (v, t) ∧
        evalArgs W enter ρ xs t = .ok (us, s₁) ∧ vs = v :: us := by
  simp only [evalArgs, bind_ok_iff, Prod.exists, Outcome.pure_eq, Outcome.ok.injEq, Prod.mk.injEq]
  constructor
  · rintro ⟨v, t, first, us, _, rest, same, rfl⟩
    exact ⟨v, us, t, first, rest, same.symm⟩
  · rintro ⟨v, us, t, first, rest, same⟩
    exact ⟨v, t, first, us, s₁, rest, same.symm, rfl⟩

theorem evalEarlyOne_inOrder (x : Node) : evalEarlyOne W inOrder enter ρ x s =
    (eval W inOrder enter ρ x s >>= fun p => pure (some p.1, p.2)) := by
  rw [evalEarlyOne, earlyOf, if_neg (by simp [inOrder])]

theorem evalEarly_inOrder (xs : List Node) : evalEarly W inOrder enter ρ xs s =
    (evalArgs W enter ρ xs s >>= fun p => pure (p.1.map some, p.2)) := by
  induction xs generalizing s with
  | nil => rfl
  | cons x xs ih =>
    rw [evalEarly_cons, evalArgs, evalEarlyOne_inOrder]
    cases eval W inOrder enter ρ x s with
    | timeout | stuck => rfl
    | ok p =>
      simp only [Outcome.ok_bind, Outcome.pure_eq, ih]
      cases evalArgs W enter ρ xs p.2 <;> rfl

theorem evalArgs_length {xs : List Node} {vs : List Value}
    (h : evalArgs W enter ρ xs s = .ok (vs, s₁)) : vs.length = xs.length := by
  induction xs generalizing s vs with
  | nil =>
    cases h
    rfl
  | cons x xs ih =>
    obtain ⟨v, us, t, _, rest, rfl⟩ := evalArgs_cons.mp h
    rw [List.length_cons, List.length_cons, ih rest]

theorem evalLate_done {xs : List Node} {vs : List Value} (len : vs.length = xs.length) :
    evalLate W ρ xs (vs.map some) s = some (vs, s) := by
  induction xs generalizing vs with
  | nil =>
    rw [List.length_eq_zero_iff.mp len]
    rfl
  | cons x xs ih =>
    cases vs with
    | nil => simp at len
    | cons v vs =>
      rw [List.map_cons, evalLate, ih (by simpa using len)]
      rfl

theorem eval_operation {f : Node} {args : List Node} (op : isOperator f = true) :
    eval W inOrder enter ρ (.app f args) s =
      (evalArgs W enter ρ (if isTypeTest f then args.tail else args) s >>= fun p =>
        .ofOption (finishOp W f args p.1 p.2)) := by
  rw [eval_op rfl op, evalEarly_inOrder]
  cases operands : evalArgs W enter ρ (if isTypeTest f then args.tail else args) s with
  | timeout | stuck => rfl
  | ok p =>
    simp only [Outcome.ok_bind, Outcome.pure_eq, evalLate_done (evalArgs_length operands),
      Outcome.ofOption_some]

theorem eval_application {f : Node} {args : List Node} (fn : isOperator f = false) :
    eval W inOrder enter ρ (.app f args) s =
      (eval W inOrder enter ρ f s >>= fun p =>
        evalArgs W enter ρ args p.2 >>= fun q => applyProc W enter p.1 q.1 q.2) := by
  rw [eval_call rfl fn, evalEarlyOne_inOrder]
  cases eval W inOrder enter ρ f s with
  | timeout | stuck => rfl
  | ok p =>
    simp only [Outcome.ok_bind, Outcome.pure_eq, evalEarly_inOrder]
    cases operands : evalArgs W enter ρ args p.2 with
    | timeout | stuck => rfl
    | ok q =>
      simp only [Outcome.ok_bind, evalLate_done (evalArgs_length operands),
        Outcome.ofOption_some, evalLateOne]

theorem eval_sym (x : Symbol) : eval W inOrder enter ρ (.sym x) s =
    .ofOption ((lookupVar ρ s x).map (·, s)) := by
  rw [eval.eq_def, if_neg (by simp [inOrder])]
  rfl

theorem eval_const (d : Datum) :
    eval W inOrder enter ρ (.const d) s = .ok (literal d, s) := by
  rw [eval.eq_def, if_neg (by simp [inOrder])]
  rfl

theorem eval_quote (d : Datum) :
    eval W inOrder enter ρ (.quote d) s = .ok (literal d, s) := by
  rw [eval.eq_def, if_neg (by simp [inOrder])]
  rfl

theorem eval_closure (args : Formals) (body : List Node) :
    eval W inOrder enter ρ (.lambda args body) s =
      .ok (.proc s.top, s.alloc (.closure args body ρ)) := by
  rw [eval_lambda, evalSimple]
  rfl

theorem enterN_succ (n : Nat) (args : Formals) (body : List Node) (vs : List Value) :
    enterN W inOrder (n + 1) args body ρ vs s =
      (.ofOption (bindArgs args vs ρ s) >>= fun p =>
        evalBody W inOrder (enterN W inOrder n) p.1 body p.2) := by
  simp only [enterN]
  cases bindArgs args vs ρ s <;> rfl

theorem callBuiltin_grown {name : Symbol} {vs : List Value} {v : Value}
    (pure : hasSideEffect name = false) (h : callBuiltin W name vs s = some (v, s₁)) :
    Grown s s₁ := by
  have build (answer : Answer) (s : State) : Grown s (s.build answer).2 := by
    induction answer generalizing s with
    | value v => exact .refl
    | fresh kind => exact .alloc .refl _
    | cons a d ihCar ihCdr => exact .alloc ((ihCdr s).trans (ihCar _)) _
  unfold callBuiltin at h
  split at h
  · simp at h
  · rename_i answer _
    have grown := build answer s
    simp only [pure, Bool.false_eq_true, if_false, Option.some.injEq, Prod.mk.injEq] at h
    obtain ⟨_, rfl⟩ := h
    exact grown

theorem effectFreeHead_cases {f : Symbol}
    (free : SourceOptimizer.effectFreeHead (.raw (.sym f)) = true) :
    isOperator (.sym f) = true ∨ f ∈ builtinNames ∧ hasSideEffect f = false := by
  unfold SourceOptimizer.effectFreeHead at free
  cases found : lookupBuiltin f with
  | none =>
    simp only [found] at free
    exact .inl free
  | some b =>
    simp only [found, Bool.not_eq_true', Bool.or_eq_false_iff] at free
    refine .inr ⟨?_, by rw [hasSideEffect, found]; exact free.1⟩
    have mem := List.mem_of_find?_eq_some found
    have name := List.find?_some found
    exact List.mem_map.mpr ⟨b, mem, by simpa using name⟩

theorem evalArgs_grown {xs : List Node} (each : ∀ x ∈ xs, ∀ {s s₁ : State} {v : Value},
    eval W inOrder enter ρ x s = .ok (v, s₁) → Grown s s₁) {vs : List Value}
    (h : evalArgs W enter ρ xs s = .ok (vs, s₁)) : Grown s s₁ := by
  induction xs generalizing s vs with
  | nil =>
    cases h
    exact .refl
  | cons x xs ih =>
    obtain ⟨v, us, t, first, rest, rfl⟩ := evalArgs_cons.mp h
    exact (each x (by simp) first).trans (ih (fun y hy => each y (by simp [hy])) rest)

theorem evalSeq_grown {xs : List Node} (each : ∀ x ∈ xs, ∀ {s s₁ : State} {v : Value},
    eval W inOrder enter ρ x s = .ok (v, s₁) → Grown s s₁) {v : Value}
    (h : evalSeq W inOrder enter ρ xs s = .ok (v, s₁)) : Grown s s₁ := by
  induction xs generalizing s with
  | nil =>
    rw [evalSeq] at h
    cases h
  | cons x xs ih =>
    by_cases more : xs = []
    · subst more
      rw [evalSeq_one] at h
      exact each x (by simp) h
    · simp only [evalSeq_cons x more, bind_ok_iff, Prod.exists] at h
      obtain ⟨_, _, first, second⟩ := h
      exact (each x (by simp) first).trans (ih (fun y hy => each y (by simp [hy])) second)

theorem quietAll_iff {around : List Symbol} {xs : List Node} :
    quietAll around xs = true ↔ ∀ x ∈ xs, quiet around x = true := by
  induction xs with
  | nil => simp [quietAll]
  | cons x xs ih => simp [quietAll, ih]

theorem quiet_grown {around : List Symbol} (outer : ∀ y, y ∉ around → ρ y = none) {n : Node}
    (still : quiet around n = true) {v : Value} (ran : eval W inOrder enter ρ n s = .ok (v, s₁)) :
    Grown s s₁ := by
  induction n generalizing s s₁ v with
  | const d =>
    rw [eval_const] at ran
    cases ran
    exact .refl
  | quote d =>
    rw [eval_quote] at ran
    cases ran
    exact .refl
  | sym x =>
    rw [eval_sym] at ran
    simp only [ofOption_ok_iff, Option.map_eq_some_iff, Prod.mk.injEq] at ran
    obtain ⟨_, _, _, rfl⟩ := ran
    exact .refl
  | lambda args body =>
    rw [eval_closure] at ran
    cases ran
    exact .alloc .refl _
  | ite p a b hp ha hb =>
    simp only [quiet, Bool.and_eq_true] at still
    rw [eval_ite rfl] at ran
    simp only [bind_ok_iff, Prod.exists] at ran
    obtain ⟨_, _, first, second⟩ := ran
    split at second
    · exact (hp still.1.1 first).trans (ha still.1.2 second)
    · exact (hp still.1.1 first).trans (hb still.2 second)
  | begin forms ih =>
    rw [quiet, quietAll_iff] at still
    rw [eval_begin rfl] at ran
    exact evalSeq_grown (fun x hx _ _ _ => ih x hx (still x hx)) ran
  | app f args _ ih =>
    cases f with
    | sym f =>
      simp only [quiet, Bool.and_eq_true, decide_eq_true_eq, quietAll_iff] at still
      obtain ⟨⟨out, free⟩, still⟩ := still
      have operands {xs : List Node} (sub : ∀ x ∈ xs, x ∈ args) {s s₁ : State} {vs : List Value}
          (ran : evalArgs W enter ρ xs s = .ok (vs, s₁)) : Grown s s₁ :=
        evalArgs_grown (fun x hx _ _ _ => ih x (sub x hx) (still x (sub x hx))) ran
      by_cases op : isOperator (.sym f) = true
      · simp only [eval_operation op, bind_ok_iff, Prod.exists, ofOption_ok_iff] at ran
        obtain ⟨_, _, first, second⟩ := ran
        refine (operands ?_ first).trans (finishOp_grown second)
        intro x hx
        split at hx
        · exact List.mem_of_mem_tail hx
        · exact hx
      · obtain ⟨builtin, noEffect⟩ := (effectFreeHead_cases free).resolve_left op
        have lookup (s : State) : lookupVar ρ s f = some (.atom (.prim f)) := by
          simp [lookupVar, outer f out, builtin]
        rw [eval_application (by simpa using op)] at ran
        simp only [eval_sym, lookup, Option.map_some, Outcome.ofOption_some, Outcome.ok_bind,
          bind_ok_iff, Prod.exists, applyProc, ofOption_ok_iff] at ran
        obtain ⟨_, _, first, second⟩ := ran
        exact (operands (fun _ => id) first).trans (callBuiltin_grown noEffect second)
    | _ => simp [quiet] at still
  | set | define | extend => simp [quiet] at still

end inorder

/-- What the parameters of a call get in the source, and those that are left in the optimized
    run. The list gives what the uses of each parameter become. -/
inductive Passed (U : List Use) (L : Link) (ρ' : Env) (around : List Symbol) :
    Subst → List Symbol → List Value → List Value → Prop where
  | nil : Passed U L ρ' around [] [] [] []
  | own {τ : Subst} {xs : List Symbol} {vs ws : List Value} {x : Symbol} {v w : Value}
      (rel : ValueIn L v w) (rest : Passed U L ρ' around τ xs vs ws) :
      Passed U L ρ' around ((x, .sym x) :: τ) (x :: xs) (v :: vs) (w :: ws)
  | gone {τ : Subst} {xs : List Symbol} {vs ws : List Value} {x : Symbol} {v : Value} {w : Node}
      (kept : assigned U x = false) (denotes : Denotes U L ρ' around w v)
      (rest : Passed U L ρ' around τ xs vs ws) :
      Passed U L ρ' around ((x, w) :: τ) xs (v :: vs) ws

/-- The cells of the definitions that have not run. -/
structure Awaits (U : List Use) (L : Link) (base : Nat) (names : List Symbol) (ρ : Env)
    (s : State) : Prop where
  cell : ∀ y ∈ names, ∃ l, ρ y = some l ∧ base ≤ l ∧ l < s.top ∧ L.fixed l = none ∧
    (used U y = false → L.kind l = some .lone)
  apart : ∀ y ∈ names, ∀ z ∈ names, ρ y = ρ z → y = z

section binding
variable {W : World} {U : List Use} {L L₀ L₁ : Link} {ahead around : List Symbol} {σ τ : Subst}
  {ρ ρ' ρ₀ : Env} {s s' : State}

theorem passed_own {xs : List Symbol} {vs ws : List Value} (len : xs.length = vs.length)
    (rel : ValuesIn L vs ws) : Passed U L ρ' around (own xs) xs vs ws := by
  induction rel generalizing xs with
  | nil =>
    rw [List.length_eq_zero_iff.mp len]
    exact .nil
  | cons first _ ih =>
    cases xs with
    | nil => simp at len
    | cons x xs => exact .own first (ih (by simpa using len))

theorem lookup_reverse (nodup : (seenIn τ).Nodup) (y : Symbol) :
    (τ.reverse ++ σ).lookup y = (τ ++ σ).lookup y := by
  induction τ generalizing σ with
  | nil => rfl
  | cons p τ ih =>
    rw [seenIn_cons, List.nodup_cons] at nodup
    rw [List.reverse_cons, List.append_assoc, ih nodup.2, List.singleton_append]
    by_cases same : y = p.1
    · subst same
      have none : τ.lookup p.1 = none := by
        rw [← Option.not_isSome_iff_eq_none, lookup_isSome]
        exact nodup.1
      rw [List.lookup_append, none, Option.none_or, List.cons_append, lookup_self, lookup_self]
    · rw [List.cons_append, lookup_ne same, List.lookup_append, List.lookup_append,
        lookup_ne same]

/- Parameters get cells of their own, the inlined ones in the source alone. -/
theorem Passed.bind {xs : List Symbol} {vs ws : List Value}
    (passed : Passed U L₀ ρ₀ around τ xs vs ws) (older : L₀.Grows L) (h : Linked W U L s s')
    (scope : Scope U L ahead σ ρ ρ') (alike : Alike around ρ₀ ρ')
    (sub : ∀ y ∈ around, y ∈ seenIn σ ++ ahead) (nodup : (seenIn τ).Nodup)
    (fresh : ∀ y ∈ seenIn τ, y ∉ seenIn σ ++ ahead)
    (words : ∀ y ∈ seenIn τ, variableName y = true) (us us' : List Value) :
    ∃ ρ₁ ρ₁' s₁ s₁' L₁, bindFixed (seenIn τ) (vs ++ us) ρ s = some ((us, ρ₁), s₁) ∧
      bindFixed xs (ws ++ us') ρ' s' = some ((us', ρ₁'), s₁') ∧
      Reach W U s.top L L₁ s₁ s₁' ∧ Scope U L₁ ahead (τ.reverse ++ σ) ρ₁ ρ₁' := by
  induction passed generalizing L σ ρ ρ' s s' with
  | nil => exact ⟨ρ, ρ', s, s', L, rfl, rfl, h.reach, scope⟩
  | @own τ xs vs ws x v w rel rest ih =>
    rw [seenIn_cons, List.nodup_cons] at nodup
    have out := fresh x (by simp)
    have word := words x (by simp)
    obtain ⟨L₁, reach, pair, kind⟩ := h.newCell x (ValueIn.grow older rel)
    have inner := (scope.grow reach.grow).bindOwn out word pair kind
    have apart (y : Symbol) (hy : y ∈ seenIn τ) : y ≠ x := fun e => nodup.1 (e ▸ hy)
    obtain ⟨ρ₁, ρ₁', s₁, s₁', L₂, left, right, reach₂, scope₂⟩ := ih
      (older.trans reach.grow) reach.linked inner
      (alike.trans ((alike_bind word out ρ' s'.top).sub sub))
      (fun y hy => List.mem_cons_of_mem _ (sub y hy)) nodup.2
      (fun y hy => by
        rw [seenIn_cons, List.cons_append, List.mem_cons, not_or]
        exact ⟨apart y hy, fresh y (List.mem_cons_of_mem _ hy)⟩)
      (fun y hy => words y (List.mem_cons_of_mem _ hy))
    refine ⟨ρ₁, ρ₁', s₁, s₁', L₂, left, right, reach.trans reach.top reach₂, ?_⟩
    rw [List.reverse_cons, List.append_assoc]
    exact scope₂
  | @gone τ xs vs ws x v w kept denotes rest ih =>
    rw [seenIn_cons, List.nodup_cons] at nodup
    have out := fresh x (by simp)
    have word := words x (by simp)
    obtain ⟨L₁, reach, set⟩ := h.newFixed (.cell (some v))
    have inner := (scope.grow reach.grow).bindInlined out word kept set
      (denotes.move (older.trans reach.grow) sub alike)
    have apart (y : Symbol) (hy : y ∈ seenIn τ) : y ≠ x := fun e => nodup.1 (e ▸ hy)
    obtain ⟨ρ₁, ρ₁', s₁, s₁', L₂, left, right, reach₂, scope₂⟩ := ih
      (older.trans reach.grow) reach.linked inner alike (fun y hy => List.mem_cons_of_mem _ (sub y hy)) nodup.2
      (fun y hy => by
        rw [seenIn_cons, List.cons_append, List.mem_cons, not_or]
        exact ⟨apart y hy, fresh y (List.mem_cons_of_mem _ hy)⟩)
      (fun y hy => words y (List.mem_cons_of_mem _ hy))
    refine ⟨ρ₁, ρ₁', s₁, s₁', L₂, left, right, reach.trans reach.top reach₂, ?_⟩
    rw [List.reverse_cons, List.append_assoc]
    exact scope₂

theorem bindFixed_length {xs : List Symbol} {vs us : List Value} {ρ₁ : Env} {s₁ : State}
    (h : bindFixed xs vs ρ s = some ((us, ρ₁), s₁)) : xs.length ≤ vs.length := by
  induction xs generalizing vs ρ s with
  | nil => simp
  | cons x xs ih =>
    cases vs with
    | nil => simp [bindFixed] at h
    | cons v vs => simpa using ih h

theorem lookup_own_append (names : List Symbol) (y : Symbol) :
    (own names ++ σ).lookup y = if y ∈ names then some (.sym y) else σ.lookup y := by
  rw [List.lookup_append]
  split
  · rename_i mem
    rw [lookup_own mem, Option.some_or]
  · rename_i out
    have none : (own names).lookup y = none := by
      rw [← Option.not_isSome_iff_eq_none, lookup_isSome, own_names]
      exact out
    rw [none, Option.none_or]

theorem own_values {names : List Symbol} (values : ∀ p ∈ σ, isDefine p.2 = false) :
    ∀ p ∈ own names ++ σ, isDefine p.2 = false := by
  intro p hp
  rcases List.mem_append.mp hp with hp | hp
  · obtain ⟨x, _, rfl⟩ := List.mem_map.mp hp
    rfl
  · exact values p hp

theorem bindFixed_follows (h : Linked W U L s s') (scope : Scope U L ahead σ ρ ρ')
    {xs : List Symbol} {vs ws : List Value} (rel : ValuesIn L vs ws) (nodup : xs.Nodup)
    (fresh : ∀ y ∈ xs, y ∉ seenIn σ ++ ahead) (words : ∀ y ∈ xs, variableName y = true) :
    Follows W U s.top L
      (fun L₁ p q => ValuesIn L₁ p.1 q.1 ∧ Scope U L₁ ahead (own xs ++ σ) p.2 q.2)
      (.ofOption (bindFixed xs vs ρ s)) (.ofOption (bindFixed xs ws ρ' s')) := by
  intro p s₂ ran
  rw [ofOption_ok_iff] at ran
  obtain ⟨us, ρ₁⟩ := p
  have enough := bindFixed_length ran
  have taken : ValuesIn L (vs.take xs.length) (ws.take xs.length) := List.forall₂_take _ rel
  have dropped : ValuesIn L (vs.drop xs.length) (ws.drop xs.length) := List.forall₂_drop _ rel
  have names : seenIn (own xs) = xs := own_names xs
  have passed : Passed U L ρ' [] (own xs) xs (vs.take xs.length) (ws.take xs.length) :=
    passed_own (by simp [enough]) taken
  obtain ⟨ρ₃, ρ₃', s₃, s₃', L₁, left, right, reach, inner⟩ := passed.bind (.refl L) h scope
    ⟨by simp, fun _ _ h => h⟩ (by simp) (names.symm ▸ nodup) (names.symm ▸ fresh)
    (names.symm ▸ words) (vs.drop xs.length) (ws.drop xs.length)
  rw [names, List.take_append_drop, ran, Option.some.injEq, Prod.mk.injEq, Prod.mk.injEq] at left
  obtain ⟨⟨rfl, rfl⟩, rfl⟩ := left
  rw [List.take_append_drop] at right
  exact ⟨(ws.drop xs.length, ρ₃'), s₃', L₁, by rw [right, Outcome.ofOption_some], reach,
    ValuesIn.grow reach.grow dropped, inner.congr
      (fun y => (lookup_reverse (names.symm ▸ nodup) y).symm) (own_values scope.values)⟩

theorem mkList_follows (h : Linked W U L s s') {vs ws : List Value} (rel : ValuesIn L vs ws) :
    Follows W U s.top L ValueIn (.ok (mkList s vs)) (.ok (mkList s' ws)) := by
  exact Linked.matched (o := some (mkList s vs)) h
    (h.rel.mkList (A := NoneOld) (called_widening U L) rel) (by
      intro v s₁ same
      have keeps := mkList_keeps s vs
      rwa [Option.some.inj same] at keeps) (by
      intro v s₁ same
      have keeps := mkList_keeps s' ws
      rwa [Option.some.inj same] at keeps)

theorem bindArgs_follows (h : Linked W U L s s') (scope : Scope U L ahead σ ρ ρ')
    {args : Formals} {vs ws : List Value} (rel : ValuesIn L vs ws) (nodup : args.names.Nodup)
    (fresh : ∀ y ∈ args.names, y ∉ seenIn σ ++ ahead)
    (words : ∀ y ∈ args.names, variableName y = true) :
    Follows W U s.top L (fun L₁ => Scope U L₁ ahead (own args.names ++ σ))
      (.ofOption (bindArgs args vs ρ s)) (.ofOption (bindArgs args ws ρ' s')) := by
  obtain ⟨fixed, rest⟩ := args
  have split (us : List Value) (η : Env) (t : State) :
      Outcome.ofOption (bindArgs ⟨fixed, rest⟩ us η t) =
        (.ofOption (bindFixed fixed us η t) >>= fun p => match rest with
          | none => .ofOption (if p.1.1.isEmpty then some (p.1.2, p.2) else none)
          | some r => .ok (mkList p.2 p.1.1) >>= fun q =>
            .ok (p.1.2.bind r q.2.top, q.2.alloc (.cell (some q.1)))) := by
    unfold bindArgs
    cases bindFixed fixed us η t with
    | none => rfl
    | some p => cases rest <;> rfl
  rw [Formals.names, List.nodup_append] at nodup
  have inNames {y : Symbol} (hy : y ∈ fixed) : y ∈ (Formals.mk fixed rest).names :=
    List.mem_append_left _ hy
  rw [split, split]
  refine (bindFixed_follows h scope rel nodup.1 (fun y hy => fresh y (inNames hy))
    fun y hy => words y (inNames hy)).bind fun p q s₁ s₁' L₁ reach related => ?_
  obtain ⟨left, inner⟩ := related
  cases rest with
  | none =>
    have same : p.1.isEmpty = q.1.isEmpty := by
      rw [Bool.eq_iff_iff, List.isEmpty_iff_length_eq_zero, List.isEmpty_iff_length_eq_zero,
        left.length_eq]
    simp only [same]
    split
    · refine reach.linked.done ?_
      simpa [Formals.names] using inner
    · exact follows_stuck
  | some r =>
    have mem : r ∈ (Formals.mk fixed (some r)).names := by simp [Formals.names]
    have apart : r ∉ fixed := fun hr => nodup.2.2 r hr r (by simp) rfl
    refine (mkList_follows reach.linked left).bind fun v w s₂ s₂' L₂ reach₂ rel => ?_
    obtain ⟨L₃, reach₃, pair, kind⟩ := reach₂.linked.newCell r rel
    have out : r ∉ seenIn (own fixed ++ σ) ++ ahead := by
      have := fresh r mem
      rw [seenIn_append, seenIn_own, List.append_assoc, List.mem_append, not_or]
      exact ⟨apart, this⟩
    have bound := (inner.grow (reach₂.grow.trans reach₃.grow)).bindOwn out (words r mem) pair kind
    refine Follows.after reach₃ (Follows.weaken (reach₃.linked.done (bound.congr (fun y => ?_) ?_)) reach₃.top)
    · rw [lookup_own_append]
      by_cases same : y = r
      · subst same
        rw [if_pos mem, lookup_self]
      · rw [lookup_ne same, lookup_own_append]
        simp [Formals.names, same]
    · exact own_values scope.values

/- The defined names get cells without a value, those of the dropped definitions in the source
   alone. -/
theorem bindNames_follows {xs : List Symbol} (h : Linked W U L s s')
    (scope : Scope U L ahead σ ρ ρ') (nodup : xs.Nodup)
    (fresh : ∀ y ∈ xs, y ∉ seenIn σ ++ ahead) (words : ∀ y ∈ xs, variableName y = true) :
    ∃ ρ₁ ρ₁' s₁ s₁' L₁, bindNames xs ρ s = (ρ₁, s₁) ∧
      bindNames (xs.filter (used U)) ρ' s' = (ρ₁', s₁') ∧ Reach W U s.top L L₁ s₁ s₁' ∧
      Scope U L₁ (xs ++ ahead) σ ρ₁ ρ₁' ∧ Awaits U L₁ s.top xs ρ₁ s₁ ∧
      ∀ y, y ∉ xs → ρ₁ y = ρ y := by
  induction xs generalizing L ahead ρ ρ' s s' with
  | nil => exact ⟨ρ, ρ', s, s', L, rfl, rfl, h.reach, scope, ⟨by simp, by simp⟩, fun _ _ => rfl⟩
  | cons x xs ih =>
    rw [List.nodup_cons] at nodup
    have out := fresh x (by simp)
    have word := words x (by simp)
    -- the first cell, with a counterpart when the definition stays
    have first : ∃ t' L₁, Reach W U s.top L L₁ (s.alloc (.cell none)) t' ∧
        L₁.fixed s.top = none ∧ (used U x = false → L₁.kind s.top = some .lone) ∧
        Scope U L₁ (x :: ahead) σ (ρ.bind x s.top)
          (if used U x then ρ'.bind x s'.top else ρ') ∧
        bindNames ((x :: xs).filter (used U)) ρ' s' =
          bindNames (xs.filter (used U)) (if used U x then ρ'.bind x s'.top else ρ') t' := by
      by_cases use : used U x = true
      · obtain ⟨L₁, reach, pair, kind, unset⟩ := h.newUnset x
        refine ⟨s'.alloc (.cell none), L₁, reach, unset, by simp [use],
          (scope.grow reach.grow).bindAhead out word fun _ => ⟨pair, kind⟩, ?_⟩
        rw [List.filter_cons, if_pos use, if_pos use, bindNames]
      · obtain ⟨L₁, reach, kind, unset⟩ := h.newLone
        refine ⟨s', L₁, reach, unset, fun _ => kind,
          (scope.grow reach.grow).bindAhead out word fun yes => absurd yes use, ?_⟩
        rw [List.filter_cons, if_neg use, if_neg use]
    obtain ⟨t', L₁, reach, unset, lone, inner, right⟩ := first
    obtain ⟨ρ₁, ρ₁', s₁, s₁', L₂, left₂, right₂, reach₂, scope₂, awaits, stay⟩ := ih reach.linked inner
      nodup.2 (fun y hy => by
        have apart : y ≠ x := fun e => nodup.1 (e ▸ hy)
        have := fresh y (List.mem_cons_of_mem _ hy)
        simp only [List.mem_append, List.mem_cons, not_or] at this ⊢
        exact ⟨this.1, apart, this.2⟩)
      fun y hy => words y (List.mem_cons_of_mem _ hy)
    have below : s.top < (s.alloc (.cell none)).top := by simp
    have here : ρ₁ x = some s.top := by rw [stay x nodup.1, bind_self]
    have later {y : Symbol} (hy : y ∈ xs) : ρ₁ y ≠ ρ₁ x := by
      obtain ⟨l, hl, above, _⟩ := awaits.cell y hy
      rw [hl, here, ne_eq, Option.some.injEq]
      omega
    refine ⟨ρ₁, ρ₁', s₁, s₁', L₂, by rw [bindNames, left₂], by rw [right, right₂],
      reach.trans reach.top reach₂, scope₂.reorder (by simp [or_left_comm]), ⟨?_, ?_⟩, ?_⟩
    · intro y hy
      rcases List.mem_cons.mp hy with rfl | hy
      · exact ⟨s.top, here, le_refl _, lt_of_lt_of_le below reach₂.top,
          by rw [reach₂.frame _ below, unset], fun dead => reach₂.grow.kind (lone dead)⟩
      · obtain ⟨l, hl, above, rest⟩ := awaits.cell y hy
        exact ⟨l, hl, by omega, rest⟩
    · intro y hy z hz same
      rcases List.mem_cons.mp hy with rfl | left
      · rcases List.mem_cons.mp hz with rfl | right
        · rfl
        · exact absurd same.symm (later right)
      · rcases List.mem_cons.mp hz with rfl | right
        · exact absurd same (later left)
        · exact awaits.apart y left z right same
    · intro y hy
      rw [List.mem_cons, not_or] at hy
      rw [stay y hy.2, bind_ne ρ hy.1]

end binding

section simulation
variable {W : World} {U : List Use} {L L₁ : Link} {ahead around : List Symbol} {σ : Subst}
  {ρ ρ' : Env} {s s' : State} {n m : Nat}

theorem own_lookup (h : Linked W U L s s') {x : Symbol} (own : L.Own U x ρ ρ') :
    Option.Rel (ValueRel L.objs L.procs) (lookupVar ρ s x) (lookupVar ρ' s' x) := by
  obtain ⟨l, l', hl, hl', pair, _⟩ := own
  refine h.rel.lookupVar (S := (· = x)) ?_ rfl
  rintro y rfl
  rw [hl, hl']
  exact .some pair

theorem lookup_follows {x : Symbol} (h : Linked W U L s s')
    (rel : Option.Rel (ValueRel L.objs L.procs) (lookupVar ρ s x) (lookupVar ρ' s' x)) :
    Follows W U s.top L ValueIn (.ofOption ((lookupVar ρ s x).map (·, s)))
      (.ofOption ((lookupVar ρ' s' x).map (·, s'))) := by
  have keeps {o : Option Value} {t : State} (v : Value) (s₁ : State)
      (same : o.map (·, t) = some (v, s₁)) : Keeps t s₁ := by
    simp only [Option.map_eq_some_iff, Prod.mk.injEq] at same
    obtain ⟨_, _, _, rfl⟩ := same
    exact fun _ _ => id
  exact h.matched (Matched.mapSame (A := NoneOld) id id h.rel rel) keeps keeps

theorem denotes_eval (noProcs : W.eqProcs = false) (enter : Enter) (h : Linked W U L s s')
    {w : Node} {v : Value} (denotes : Denotes U L ρ' around w v) :
    ∃ v' s₁' L₁, eval W inOrder enter ρ' w s' = .ok (v', s₁') ∧
      Reach W U s.top L L₁ s s₁' ∧ ValueIn L₁ v v' := by
  cases denotes with
  | const d => exact ⟨_, s', L, eval_const d, h.reach, .data _⟩
  | quote d => exact ⟨_, s', L, eval_quote d, h.reach, .data _⟩
  | @var _ y l l' _ mem here pair val =>
    obtain ⟨o, p, hm, hn, rel⟩ := h.rel.objs pair
    rw [h.fixed val, Option.some.injEq] at hm
    subst hm
    cases rel with
    | @cell _ v' rel =>
      refine ⟨v', s', L, ?_, h.reach, rel⟩
      rw [eval_sym]
      simp [lookupVar, here, hn]
  | @lambda _ ahead k args body η τ here fits _ ground settled each =>
    have called : Called U L s L.objs args body η args (optBody U (own args.names ++ τ) body) ρ' :=
      ⟨rfl, τ, ahead, rfl, fits, ⟨ground, settled, each⟩⟩
    exact ⟨.proc s'.top, _, L.pairProcs k s'.top, eval_closure .., ⟨pairProcs_grows .., fun _ _ => rfl,
      h.mapProc noProcs (h.fixed here) called, le_refl _⟩, .proc (Ren.add_self _ _ _)⟩

/- The value of a variable of the source whose uses become w. -/
theorem gone_value (h : Linked W U L s s') (scope : Scope U L ahead σ ρ ρ') {x : Symbol} {w : Node}
    (gone : Gone U σ x w) : ∃ v, lookupVar ρ s x = some v ∧
      Denotes U L ρ' (seenIn σ ++ ahead) w v := by
  obtain ⟨v, held⟩ := Option.isSome_iff_exists.mp (scope.settled x w gone).2
  obtain ⟨l, hl, hv⟩ := held_iff.mp held
  refine ⟨v, ?_, scope.each x w v gone held⟩
  simp [lookupVar, hl, h.fixed hv]

theorem sym_follows (noProcs : W.eqProcs = false) (enter enter' : Enter) {x : Symbol}
    (fits : Fits U (seenIn σ) ahead (.sym x)) (scope : Scope U L ahead σ ρ ρ')
    (h : Linked W U L s s') :
    Follows W U s.top L ValueIn (eval W inOrder enter ρ (.sym x) s)
      (eval W inOrder enter' ρ' (opt U σ (.sym x)) s') := by
  rw [opt]
  cases found : σ.lookup x with
  | none =>
    have notSeen : x ∉ seenIn σ := by
      rw [seenIn, ← lookup_isSome, found]
      simp
    rw [Option.getD_none, eval_sym, eval_sym]
    by_cases mem : x ∈ ahead
    · exact lookup_follows h (own_lookup h (scope.coming mem notSeen (fits.sym (.inr mem))))
    · have free := scope.outer notSeen mem
      by_cases builtin : x ∈ builtinNames
      · refine lookup_follows h ?_
        rw [lookupVar, lookupVar, free, scope.builtins builtin]
        simp only [if_pos builtin]
        exact .some (.atom (by simp))
      · have stuck : lookupVar ρ s x = none := by simp [lookupVar, free, builtin]
        rw [stuck]
        exact follows_stuck
  | some w =>
    have use := fits.sym (.inl (mem_seenIn found))
    rw [Option.getD_some]
    by_cases own : w = .sym x
    · subst own
      rw [eval_sym, eval_sym]
      exact lookup_follows h (own_lookup h (scope.own found use))
    · obtain ⟨v, lookup, denotes⟩ := gone_value h scope ⟨found, own, use⟩
      intro u s₁ ran
      rw [eval_sym, lookup] at ran
      cases ran
      exact denotes_eval noProcs enter' h denotes

theorem closure_follows (noProcs : W.eqProcs = false) (enter enter' : Enter) {args : Formals}
    {body : List Node} (fits : Fits U (seenIn σ) ahead (.lambda args body))
    (scope : Scope U L ahead σ ρ ρ') (h : Linked W U L s s') :
    Follows W U s.top L ValueIn (eval W inOrder enter ρ (.lambda args body) s)
      (eval W inOrder enter' ρ' (opt U σ (.lambda args body)) s') := by
  intro v s₁ ran
  rw [eval_closure] at ran
  cases ran
  rw [opt, eval_closure]
  have called : Called U L s L.objs args body ρ args (optBody U (own args.names ++ σ) body) ρ' :=
    ⟨rfl, σ, ahead, rfl, fits, scope⟩
  exact ⟨.proc s'.top, _, L.pairProcs s.top s'.top, rfl, ⟨pairProcs_grows .., fun _ _ => rfl,
    (h.allocLeft _).mapProc noProcs (get_alloc_top s _) called, by simp⟩,
    .proc (Ren.add_self _ _ _)⟩

/-- The optimized node gives what the node gives, with calls of the depths n and m. -/
def Simulates (W : World) (U : List Use) (n m : Nat) (node : Node) : Prop :=
  ∀ (σ : Subst) (ahead : List Symbol) (L : Link) (ρ ρ' : Env) (s s' : State),
    Fits U (seenIn σ) ahead node → Scope U L ahead σ ρ ρ' → Linked W U L s s' →
    Follows W U s.top L ValueIn (eval W inOrder (enterN W inOrder n) ρ node s)
      (eval W inOrder (enterN W inOrder m) ρ' (opt U σ node) s')

/-- The same for bodies. -/
def Bodies (W : World) (U : List Use) (n m : Nat) : Prop :=
  ∀ (σ : Subst) (ahead : List Symbol) (L : Link) (ρ ρ' : Env) (s s' : State) (body : List Node),
    FitsItems U (seenIn σ) (defined body ++ ahead) body →
    (∀ y ∈ defined body, y ∉ seenIn σ ++ ahead) → Scope U L ahead σ ρ ρ' → Linked W U L s s' →
    Follows W U s.top L ValueIn (evalBody W inOrder (enterN W inOrder n) ρ body s)
      (evalBody W inOrder (enterN W inOrder m) ρ' (optBody U σ body) s')

theorem callBuiltin_follows (h : Linked W U L s s') (name : Symbol) {vs ws : List Value}
    (rel : ValuesIn L vs ws) : Follows W U s.top L ValueIn
      (.ofOption (callBuiltin W name vs s)) (.ofOption (callBuiltin W name ws s')) :=
  h.matched (h.rel.callBuiltin (A := NoneOld) (called_widening U L) name rel)
    (fun _ _ => callBuiltin_keeps) fun _ _ => callBuiltin_keeps

theorem finishOp_follows (h : Linked W U L s s') (f : Node) (args : List Node) {vs ws : List Value}
    (rel : ValuesIn L vs ws) : Follows W U s.top L ValueIn
      (.ofOption (finishOp W f args vs s)) (.ofOption (finishOp W f args ws s')) :=
  h.matched (h.rel.finishOp (A := NoneOld) (called_widening U L) f args rel)
    (fun _ _ ran => grown_keeps (finishOp_grown ran))
    fun _ _ ran => grown_keeps (finishOp_grown ran)

theorem params_fresh {args : Formals} {body : List Node}
    (fits : Fits U (seenIn σ) ahead (.lambda args body)) :
    args.names.Nodup ∧ (∀ y ∈ args.names, y ∉ seenIn σ ++ ahead) ∧
      (∀ y ∈ args.names, variableName y = true) ∧
      ∀ y ∈ defined body, y ∉ args.names ++ seenIn σ ++ ahead := by
  have nodup := fits.nodup
  rw [binders, List.nodup_append] at nodup
  have fresh := fits.fresh
  have words := fits.words
  rw [binders] at fresh words
  refine ⟨nodup.1, fun y hy => ?_, fun y hy => words y (List.mem_append_left _ hy), fun y hy => ?_⟩
  · have out := fresh y (List.mem_append_left _ hy)
    rw [List.mem_append, not_or]
    exact out
  · have mem := (defined_sublist body).subset hy
    have out := fresh y (List.mem_append_right _ mem)
    rw [List.mem_append, List.mem_append, not_or, not_or]
    exact ⟨⟨fun param => nodup.2.2 y param y mem rfl, out.1⟩, out.2⟩

theorem applyProc_follows (bodies : ∀ k m, k < n → k ≤ m → Bodies W U k m) (le : n ≤ m)
    (h : Linked W U L s s') {f f' : Value} (func : ValueIn L f f') {vs ws : List Value}
    (rel : ValuesIn L vs ws) : Follows W U s.top L ValueIn
      (applyProc W (enterN W inOrder n) f vs s) (applyProc W (enterN W inOrder m) f' ws s') := by
  cases func with
  | ref => exact follows_stuck
  | @atom a _ =>
    cases a with
    | prim name => exact callBuiltin_follows h name rel
    | _ => exact follows_stuck
  | @proc k k' pair =>
    obtain ⟨_, body, η, args, _, η', here, there, rfl, τ, front, rfl, fits, scope⟩ :=
      h.rel.procs pair
    simp only [applyProc, here, there]
    cases n with
    | zero =>
      intro v s₁ ran
      cases ran
    | succ n =>
      obtain ⟨m, rfl⟩ := Nat.exists_eq_add_of_le le
      rw [Nat.add_right_comm]
      obtain ⟨nodup, fresh, words, defs⟩ := params_fresh fits
      have bound := bindArgs_follows h scope rel nodup fresh words
      rw [enterN_succ, enterN_succ]
      refine bound.bind fun ρ₁ ρ₁' s₁ s₁' L₁ reach inner => ?_
      have names : seenIn (own args.names ++ τ) = args.names ++ seenIn τ := by simp
      exact bodies n (n + m) (by omega) (by omega) _ front L₁ ρ₁ ρ₁' s₁ s₁' body
        (names ▸ fits.items) (names ▸ defs) inner reach.linked

theorem evalArgs_follows {xs : List Node} (each : ∀ x ∈ xs, Simulates W U n m x)
    (fits : ∀ x ∈ xs, Fits U (seenIn σ) ahead x) (scope : Scope U L ahead σ ρ ρ')
    (h : Linked W U L s s') : Follows W U s.top L ValuesIn
      (evalArgs W (enterN W inOrder n) ρ xs s)
      (evalArgs W (enterN W inOrder m) ρ' (optAll U σ xs) s') := by
  induction xs generalizing L s s' with
  | nil => exact h.done .nil
  | cons x xs ih =>
    rw [optAll, evalArgs, evalArgs]
    refine (each x (by simp) σ ahead L ρ ρ' s s' (fits x (by simp)) scope h).bind
      fun v w s₁ s₁' L₁ reach first => ?_
    refine (ih (fun y hy => each y (by simp [hy])) (fun y hy => fits y (by simp [hy]))
      (scope.grow reach.grow) reach.linked).bind fun vs ws s₂ s₂' L₂ reach₂ rest => ?_
    exact reach₂.linked.done (.cons (ValueIn.grow reach₂.grow first) rest)

theorem evalSeq_follows {xs : List Node} (each : ∀ x ∈ xs, Simulates W U n m x)
    (fits : ∀ x ∈ xs, Fits U (seenIn σ) ahead x) (scope : Scope U L ahead σ ρ ρ')
    (h : Linked W U L s s') : Follows W U s.top L ValueIn
      (evalSeq W inOrder (enterN W inOrder n) ρ xs s)
      (evalSeq W inOrder (enterN W inOrder m) ρ' (optAll U σ xs) s') := by
  induction xs generalizing L s s' with
  | nil =>
    intro v s₁ ran
    rw [evalSeq] at ran
    cases ran
  | cons x xs ih =>
    have first := each x (by simp) σ ahead L ρ ρ' s s' (fits x (by simp)) scope h
    rw [optAll]
    by_cases more : xs = []
    · subst more
      rw [optAll, evalSeq_one, evalSeq_one]
      exact first
    · have more' : optAll U σ xs ≠ [] := by
        rw [ne_eq, ← List.length_eq_zero_iff, length_optAll, List.length_eq_zero_iff]
        exact more
      rw [evalSeq_cons x more, evalSeq_cons _ more']
      exact first.bind fun v w s₁ s₁' L₁ reach _ => ih (fun y hy => each y (by simp [hy]))
        (fun y hy => fits y (by simp [hy])) (scope.grow reach.grow) reach.linked

theorem assign_own (h : Linked W U L s s') {x : Symbol} (own : L.Own U x ρ ρ') {v w : Value}
    (rel : ValueIn L v w)
    (unset : assigned U x = false → ∀ l, ρ x = some l → L.fixed l = none) {t : State}
    (ran : assign ρ s x v = some t) : ∃ t' L₁, assign ρ' s' x w = some t' ∧ L.Grows L₁ ∧
      (∀ k, ρ x ≠ some k → L₁.fixed k = L.fixed k) ∧ (assigned U x = true → L₁ = L) ∧
      Linked W U L₁ t t' ∧ t.top = s.top := by
  obtain ⟨l, l', hl, hl', pair, kind⟩ := own
  obtain ⟨o, p, hm, hn, objs⟩ := h.rel.objs pair
  simp only [assign, hl, hm] at ran
  have cells : (∃ u, s.get l = some (.cell u)) ∧ (∃ u, s'.get l' = some (.cell u)) ∧
      t = s.put l (.cell (some v)) ∧ assign ρ' s' x w = some (s'.put l' (.cell (some w))) := by
    cases objs with
    | unset | cell =>
      cases ran
      exact ⟨⟨_, hm⟩, ⟨_, hn⟩, rfl, by simp only [assign, hl', hn]⟩
    | pair | foreign => cases ran
  obtain ⟨cell, cell', rfl, done⟩ := cells
  by_cases moves : assigned U x = true
  · rw [kindOf, if_pos moves] at kind
    exact ⟨_, L, done, .refl L, fun _ _ => rfl, fun _ => rfl, h.put rel pair kind cell cell',
      top_put ..⟩
  · have still : assigned U x = false := by simpa using moves
    rw [kindOf, if_neg moves] at kind
    have none := unset still l hl
    refine ⟨_, L.fix l (.cell (some v)), done, fix_grows none, fun k ne => fix_ne fun e => ?_,
      fun yes => absurd yes moves, h.define rel pair kind none cell cell', top_put ..⟩
    exact ne (by rw [hl, e])

theorem assigned_own (scope : Scope U L ahead σ ρ ρ') {x : Symbol} (mem : x ∈ seenIn σ)
    (moves : assigned U x = true) : L.Own U x ρ ρ' := by
  have use : used U x = true := by
    obtain ⟨u, hu, same⟩ := List.any_eq_true.mp moves
    exact List.any_eq_true.mpr ⟨u, hu, (Bool.and_eq_true_iff.mp same).1⟩
  obtain ⟨w, found⟩ := Option.isSome_iff_exists.mp (lookup_isSome.mpr mem)
  by_cases own : w = .sym x
  · exact scope.own (own ▸ found) use
  · have := (scope.settled x w ⟨found, own, use⟩).1
    rw [moves] at this
    cases this

theorem set_follows {x : Symbol} {v : Node} (each : Simulates W U n m v)
    (fits : Fits U (seenIn σ) ahead (.set x v)) (scope : Scope U L ahead σ ρ ρ')
    (h : Linked W U L s s') : Follows W U s.top L ValueIn
      (eval W inOrder (enterN W inOrder n) ρ (.set x v) s)
      (eval W inOrder (enterN W inOrder m) ρ' (opt U σ (.set x v)) s') := by
  rw [eval_set rfl]
  by_cases mem : x ∈ seenIn σ
  · obtain ⟨inner, moves⟩ := fits.set mem
    rw [opt, if_pos mem, eval_set rfl]
    refine (each σ ahead L ρ ρ' s s' inner scope h).bind fun u w s₁ s₁' L₁ reach rel => ?_
    intro r t ran
    simp only [bind_ok_iff, ofOption_ok_iff, Outcome.pure_eq, Outcome.ok.injEq, Prod.mk.injEq] at ran
    obtain ⟨_, ran, rfl, rfl⟩ := ran
    obtain ⟨t', L₂, ran', _, _, same, linked, top⟩ := assign_own reach.linked
      ((assigned_own scope mem moves).grow reach.grow) rel (by simp [moves]) ran
    obtain rfl := same moves
    exact ⟨void, t', L₂, by simp [ran'], ⟨.refl _, fun _ _ => rfl, linked, le_of_eq top.symm⟩,
      .atom (by simp)⟩
  · intro r t ran
    simp only [bind_ok_iff, Prod.exists, ofOption_ok_iff] at ran
    obtain ⟨_, _, _, _, bad, _⟩ := ran
    have notAhead : x ∉ ahead := by
      have drops := fits.drops
      rw [dropsQuiet, if_neg mem] at drops
      simpa using drops
    simp [assign, scope.outer mem notAhead] at bad

theorem evalItem_expr {late : Node → Bool} {enter : Enter} {x : Node} (plain : isDefine x = false) :
    evalItem W late enter ρ x s = eval W late enter ρ x s := by
  cases x <;> first | rfl | simp [isDefine] at plain

theorem optBody_ne_nil {xs : List Node} (core : isCoreBody xs = true) : optBody U σ xs ≠ [] := by
  induction xs generalizing σ with
  | nil => simp [isCoreBody] at core
  | cons x xs ih =>
    rcases item_cases x with ⟨y, v, rfl⟩ | ⟨_, notDefine⟩
    · rw [isCoreBody_define, Bool.and_eq_true] at core
      rw [optBody_define]
      split
      · simp
      · exact ih core.2
    · have plain : isDefine x = false := by
        cases x <;> first | rfl | exact absurd rfl (notDefine _ _)
      rw [isCoreBody_expr plain, Bool.and_eq_true] at core
      rw [optBody_expr (isCore_placed core.1)]
      split
      · rename_i drop
        cases xs with
        | nil => simp at drop
        | cons z zs =>
          have all := isCoreAll_iff.mp core.2
          refine ih ?_
          rw [isCoreBody_expr (isCore_notDefine (all z (by simp))), Bool.and_eq_true]
          exact ⟨all z (by simp), isCoreAll_iff.mpr fun y hy => all y (by simp [hy])⟩
      · simp

theorem Awaits.later {base : Nat} {xs ys : List Symbol} {s₁ : State} (h : Awaits U L base xs ρ s)
    (sub : ∀ y ∈ ys, y ∈ xs) (grow : L.Grows L₁)
    (frame : ∀ y ∈ ys, ∀ l, ρ y = some l → l < s.top → L₁.fixed l = L.fixed l)
    (top : s.top ≤ s₁.top) : Awaits U L₁ base ys ρ s₁ where
  cell y hy := by
    obtain ⟨l, hl, above, lt, none, lone⟩ := h.cell y (sub y hy)
    exact ⟨l, hl, above, by omega, by rw [frame y hy l hl lt, none],
      fun dead => grow.kind (lone dead)⟩
  apart y hy z hz := h.apart y (sub y hy) z (sub z hz)

theorem grown_top {s₁ : State} (grown : Grown s s₁) : s.top ≤ s₁.top := by
  induction grown with
  | refl => exact le_refl _
  | alloc _ o ih =>
    rw [top_alloc]
    omega

/-- What is known, by induction, of the items behind one. -/
def ItemsFollow (W : World) (U : List Use) (n m base : Nat) (ahead : List Symbol) (ρ ρ' : Env)
    (xs : List Node) : Prop :=
  ∀ {σ : Subst} {L : Link} {s s' : State}, FitsItems U (seenIn σ) ahead xs →
    Scope U L ahead σ ρ ρ' → Linked W U L s s' → Awaits U L base (defined xs) ρ s → base ≤ s.top →
    Follows W U base L ValueIn (evalItems W inOrder (enterN W inOrder n) ρ xs s)
      (evalItems W inOrder (enterN W inOrder m) ρ' (optBody U σ xs) s')

section items
variable {base : Nat} {x v : Node} {y : Symbol} {xs : List Node}

theorem ItemsFollow.afterDefine (rest : ItemsFollow W U n m base ahead ρ ρ' xs)
    (fits : FitsItems U (seenIn σ) ahead (.define y v :: xs)) (scope : Scope U L ahead σ ρ ρ')
    (awaits : Awaits U L base (defined (.define y v :: xs)) ρ s) (le : base ≤ s.top) {L₁ : Link}
    {t t' : State} (grow : L.Grows L₁) (linked : Linked W U L₁ t t')
    (frame : ∀ z ∈ defined xs, ∀ l, ρ z = some l → l < s.top → L₁.fixed l = L.fixed l)
    (top : s.top ≤ t.top) : Follows W U base L₁ ValueIn
      (evalItems W inOrder (enterN W inOrder n) ρ xs t)
      (evalItems W inOrder (enterN W inOrder m) ρ' (optBody U ((y, .sym y) :: σ) xs) t') := by
  have mem : y ∈ ahead := fits.defs y (by simp [defined_cons])
  have out : y ∉ seenIn σ := (fits.fresh y (by simp [bindersAll, binders])).1
  exact rest fits.afterDefine ((scope.meet mem out).grow grow) linked
    (awaits.later (fun z hz => List.mem_cons_of_mem _ hz) grow frame top) (by omega)

/- A definition that stays is evaluated on both sides. -/
theorem definition_follows (each : ∀ node, Simulates W U n m node)
    (rest : ItemsFollow W U n m base ahead ρ ρ' xs)
    (fits : FitsItems U (seenIn σ) ahead (.define y v :: xs)) (scope : Scope U L ahead σ ρ ρ')
    (h : Linked W U L s s') (awaits : Awaits U L base (defined (.define y v :: xs)) ρ s)
    (le : base ≤ s.top) (use : used U y = true) : Follows W U base L ValueIn
      (evalItems W inOrder (enterN W inOrder n) ρ (.define y v :: xs) s)
      (evalItems W inOrder (enterN W inOrder m) ρ' (optBody U σ (.define y v :: xs)) s') := by
  have mem : y ∈ ahead := fits.defs y (by simp [defined_cons])
  have out : y ∉ seenIn σ := (fits.fresh y (by simp [bindersAll, binders])).1
  obtain ⟨k, hk, above, below, unset, _⟩ := awaits.cell y (by simp [defined_cons])
  rw [evalItems_cons _ fits.notLast, optBody_define, evalItem, if_pos use,
    evalItems_cons _ (optBody_ne_nil fits.afterDefine.core), evalItem]
  intro r t₂ ran
  simp only [bind_ok_iff, Prod.exists, ofOption_ok_iff, Outcome.pure_eq, Outcome.ok.injEq,
    Prod.mk.injEq] at ran
  obtain ⟨_, _, ⟨u, s₁, value, t, set, rfl, rfl⟩, ran⟩ := ran
  obtain ⟨w, s₁', L₁, value', reach, rel⟩ := each v ((y, .sym y) :: σ) ahead L ρ ρ' s s'
    (fits.value use) (scope.meet mem out) h u s₁ value
  have own := (scope.coming mem out use).grow reach.grow
  obtain ⟨t', L₂, set', grow, frame, _, linked, top⟩ := assign_own reach.linked own rel
    (fun _ l hl => by
      rw [hk, Option.some.injEq] at hl
      rw [← hl, reach.frame k below, unset]) set
  have kept : ∀ z ∈ defined xs, ∀ l, ρ z = some l → l < s.top → L₂.fixed l = L.fixed l := by
    intro z hz l hl lt
    rw [frame l, reach.frame l lt]
    intro same
    exact fits.apart z hz (awaits.apart z (List.mem_cons_of_mem _ hz) y (by simp [defined_cons])
      (hl.trans same.symm))
  obtain ⟨w₂, t₂', L₃, ran', reach₂, rel₂⟩ := rest.afterDefine fits scope awaits le
    (reach.grow.trans grow) linked kept (by rw [top]; exact reach.top) r t₂ ran
  refine ⟨w₂, t₂', L₃, by simp [value', set', ran'], ?_, rel₂⟩
  have first : Reach W U base L L₂ t t' := by
    refine ⟨reach.grow.trans grow, fun l lt => ?_, linked, by rw [top]; exact le_trans le reach.top⟩
    rw [frame l, reach.frame l (by omega)]
    intro same
    rw [hk, Option.some.injEq] at same
    omega
  exact first.trans (le_refl _) reach₂

/- A definition that goes is evaluated in the source alone, and its variable is not used. -/
theorem definition_gone_follows (rest : ItemsFollow W U n m base ahead ρ ρ' xs)
    (fits : FitsItems U (seenIn σ) ahead (.define y v :: xs)) (scope : Scope U L ahead σ ρ ρ')
    (h : Linked W U L s s') (awaits : Awaits U L base (defined (.define y v :: xs)) ρ s)
    (le : base ≤ s.top) (use : ¬ used U y = true) : Follows W U base L ValueIn
      (evalItems W inOrder (enterN W inOrder n) ρ (.define y v :: xs) s)
      (evalItems W inOrder (enterN W inOrder m) ρ' (optBody U σ (.define y v :: xs)) s') := by
  obtain ⟨k, hk, _, _, _, lone⟩ := awaits.cell y (by simp [defined_cons])
  have dead : used U y = false := by simpa using use
  have still : quiet (seenIn σ ++ ahead) v = true := by
    have drops := fits.drops
    simp only [dropsQuietBody, if_neg use, Bool.and_eq_true] at drops
    exact drops.1
  rw [evalItems_cons _ fits.notLast, optBody_define, evalItem, if_neg use]
  intro r t₂ ran
  simp only [bind_ok_iff, Prod.exists, ofOption_ok_iff, Outcome.pure_eq, Outcome.ok.injEq,
    Prod.mk.injEq] at ran
  obtain ⟨_, _, ⟨u, s₁, value, t, set, rfl, rfl⟩, ran⟩ := ran
  have grown := quiet_grown (fun z hz => scope.outer
    (fun h => hz (List.mem_append_left _ h)) fun h => hz (List.mem_append_right _ h)) still value
  have cell : (∃ u', s₁.get k = some (.cell u')) ∧ t = s₁.put k (.cell (some u)) := by
    simp only [assign, hk] at set
    split at set
    · cases set
      exact ⟨⟨_, by assumption⟩, rfl⟩
    · cases set
  obtain ⟨cell, rfl⟩ := cell
  have top : s.top ≤ (s₁.put k (.cell (some u))).top := by
    rw [top_put]
    exact grown_top grown
  exact rest.afterDefine fits scope awaits le (.refl L)
    ((h.grown grown).putLone u (lone dead) cell) (fun _ _ _ _ _ => rfl) top r t₂ ran

theorem ItemsFollow.afterExpr (rest : ItemsFollow W U n m base ahead ρ ρ' xs)
    (plain : isDefine x = false) (fits : FitsItems U (seenIn σ) ahead (x :: xs))
    (scope : Scope U L ahead σ ρ ρ') (awaits : Awaits U L base (defined (x :: xs)) ρ s)
    (le : base ≤ s.top) {L₁ : Link} {t t' : State} (grow : L.Grows L₁)
    (linked : Linked W U L₁ t t') (more : xs ≠ [])
    (frame : ∀ l, l < s.top → L₁.fixed l = L.fixed l) (top : s.top ≤ t.top) :
    Follows W U base L₁ ValueIn
      (evalItems W inOrder (enterN W inOrder n) ρ xs t)
      (evalItems W inOrder (enterN W inOrder m) ρ' (optBody U σ xs) t') := by
  have same : defined (x :: xs) = defined xs := defined_skip plain xs
  exact rest (fits.afterExpr plain more) (scope.grow grow) linked
    (awaits.later (by simp [same]) grow (fun _ _ l _ lt => frame l lt) top) (by omega)

/- An expression that goes has no effect. -/
theorem expression_gone_follows (rest : ItemsFollow W U n m base ahead ρ ρ' xs)
    (plain : isDefine x = false) (fits : FitsItems U (seenIn σ) ahead (x :: xs))
    (scope : Scope U L ahead σ ρ ρ') (h : Linked W U L s s')
    (awaits : Awaits U L base (defined (x :: xs)) ρ s) (le : base ≤ s.top)
    (drop : (!xs.isEmpty && effectFree (seenIn σ) x) = true) : Follows W U base L ValueIn
      (evalItems W inOrder (enterN W inOrder n) ρ (x :: xs) s)
      (evalItems W inOrder (enterN W inOrder m) ρ' (optBody U σ xs) s') := by
  have more : xs ≠ [] := by
    rintro rfl
    simp at drop
  have still : quiet (seenIn σ ++ ahead) x = true := by
    have drops := fits.drops
    rw [dropsQuietBody_expr plain, if_pos drop, Bool.and_eq_true] at drops
    exact drops.1
  rw [evalItems_cons x more, evalItem_expr plain]
  intro r t₂ ran
  simp only [bind_ok_iff, Prod.exists] at ran
  obtain ⟨_, t, value, ran⟩ := ran
  have grown := quiet_grown (fun z hz => scope.outer
    (fun h => hz (List.mem_append_left _ h)) fun h => hz (List.mem_append_right _ h)) still value
  exact rest.afterExpr plain fits scope awaits le (.refl L) (h.grown grown) more (fun _ _ => rfl)
    (grown_top grown) r t₂ ran

theorem expression_follows (each : ∀ node, Simulates W U n m node)
    (rest : ItemsFollow W U n m base ahead ρ ρ' xs) (plain : isDefine x = false)
    (fits : FitsItems U (seenIn σ) ahead (x :: xs)) (scope : Scope U L ahead σ ρ ρ')
    (h : Linked W U L s s') (awaits : Awaits U L base (defined (x :: xs)) ρ s) (le : base ≤ s.top)
    (stays : (!xs.isEmpty && effectFree (seenIn σ) x) = false) (place : placed x = true) :
    Follows W U base L ValueIn
      (evalItems W inOrder (enterN W inOrder n) ρ (x :: xs) s)
      (evalItems W inOrder (enterN W inOrder m) ρ' (opt U σ x :: optBody U σ xs) s') := by
  have first := each x σ ahead L ρ ρ' s s' (fits.expr plain stays) scope h
  have plain' : isDefine (opt U σ x) = false := opt_notDefine place scope.values
  by_cases more : xs = []
  · subst more
    rw [optBody, evalItems, evalItems, evalItem_expr plain, evalItem_expr plain']
    exact first.weaken le
  · have coreRest := (fits.afterExpr plain more).core
    rw [evalItems_cons x more, evalItems_cons _ (optBody_ne_nil coreRest), evalItem_expr plain,
      evalItem_expr plain']
    intro r t₂ ran
    simp only [bind_ok_iff, Prod.exists] at ran
    obtain ⟨u, t, value, ran⟩ := ran
    obtain ⟨w, t', L₁, value', reach, _⟩ := first u t value
    obtain ⟨w₂, t₂', L₂, ran', reach₂, rel⟩ := rest.afterExpr plain fits scope awaits le reach.grow
      reach.linked more reach.frame reach.top r t₂ ran
    refine ⟨w₂, t₂', L₂, by simp [value', ran'], ?_, rel⟩
    have first' : Reach W U base L L₁ t t' :=
      ⟨reach.grow, fun l lt => reach.frame l (by omega), reach.linked, le_trans le reach.top⟩
    exact first'.trans (le_refl _) reach₂

theorem evalItems_follows (each : ∀ node, Simulates W U n m node) :
    ItemsFollow W U n m base ahead ρ ρ' xs := by
  induction xs with
  | nil =>
    intro σ L s s' fits
    have core := fits.core
    simp [isCoreBody] at core
  | cons x xs ih =>
    intro σ L s s' fits scope h awaits le
    rcases item_cases x with ⟨y, v, rfl⟩ | ⟨_, notDefine⟩
    · by_cases use : used U y = true
      · exact definition_follows each ih fits scope h awaits le use
      · exact definition_gone_follows ih fits scope h awaits le use
    · have plain : isDefine x = false := by
        cases x <;> first | rfl | exact absurd rfl (notDefine _ _)
      have core := fits.core
      rw [isCoreBody_expr plain, Bool.and_eq_true] at core
      have place := isCore_placed core.1
      rw [optBody_expr place]
      by_cases drop : (!xs.isEmpty && effectFree (seenIn σ) x) = true
      · rw [if_pos drop]
        exact expression_gone_follows ih plain fits scope h awaits le drop
      · rw [if_neg drop]
        exact expression_follows each ih plain fits scope h awaits le (by simpa using drop) place

end items

theorem evalBody_eq {late : Node → Bool} {enter : Enter} {body : List Node} {ρ₁ : Env} {s₁ : State}
    (bound : bindNames (defined body) ρ s = (ρ₁, s₁)) :
    evalBody W late enter ρ body s = evalItems W late enter ρ₁ body s₁ := by
  unfold evalBody
  rw [show (definesOf body).map defineName = defined body from rfl, bound]

theorem bodies_of (each : ∀ node, Simulates W U n m node) : Bodies W U n m := by
  intro σ ahead L ρ ρ' s s' body fits fresh scope h
  have nodup : (defined body).Nodup := fits.nodup.sublist (defined_sublist body)
  have words : ∀ y ∈ defined body, variableName y = true :=
    fun y hy => fits.words y ((defined_sublist body).subset hy)
  obtain ⟨ρ₁, ρ₁', s₁, s₁', L₁, left, right, reach, inner, awaits, _⟩ :=
    bindNames_follows h scope nodup fresh words
  have place : placedBody body = true := by
    have core : isCore (.lambda ⟨[], none⟩ body) = true := by
      rw [isCore]
      exact fits.core
    simpa [placed] using isCore_placed core
  have stay : defined (optBody U σ body) = (defined body).filter (used U) :=
    defined_optBody place scope.values
  rw [evalBody_eq left, evalBody_eq (stay ▸ right)]
  exact Follows.after reach (evalItems_follows each fits inner reach.linked awaits reach.top)

theorem inlined_denotes {enter : Enter} {x : Symbol} {v : Node}
    (goes : inlines U (seenIn σ) x v = true) (fits : Fits U (seenIn σ) ahead v)
    (scope : Scope U L ahead σ ρ ρ') (h : Linked W U L s s') {u : Value} {s₁ : State}
    (ran : eval W inOrder enter ρ v s = .ok (u, s₁)) :
    ∃ L₁, Reach W U s.top L L₁ s₁ s' ∧ Denotes U L₁ ρ' (seenIn σ ++ ahead) (opt U σ v) u := by
  simp only [inlines, Bool.and_eq_true, Bool.not_eq_true'] at goes
  obtain ⟨⟨_, self⟩, still⟩ := goes
  cases v with
  | const d =>
    rw [eval_const] at ran
    cases ran
    rw [opt]
    exact ⟨L, h.reach, .const d⟩
  | quote d =>
    rw [eval_quote] at ran
    cases ran
    rw [opt]
    exact ⟨L, h.reach, .quote d⟩
  | lambda args body =>
    rw [eval_closure] at ran
    cases ran
    obtain ⟨L₁, reach, set⟩ := h.newFixed (.closure args body ρ)
    have inner := scope.grow reach.grow
    rw [opt]
    exact ⟨L₁, reach, .lambda set fits (fun _ => id) inner.toGround inner.settled inner.each⟩
  | sym y =>
    simp only [selfEvalIn, decide_eq_true_eq] at self
    have still : assigned U y = false := by simpa [assignedVar, self] using still
    have use := fits.sym (.inl self)
    obtain ⟨w, found⟩ := Option.isSome_iff_exists.mp (lookup_isSome.mpr self)
    rw [opt, found, Option.getD_some]
    simp only [eval_sym, ofOption_ok_iff, Option.map_eq_some_iff, Prod.mk.injEq] at ran
    obtain ⟨_, lookup, rfl, rfl⟩ := ran
    by_cases own : w = .sym y
    · subst own
      obtain ⟨l, l', hl, hl', pair, kind⟩ := scope.own found use
      rw [kindOf, if_neg (by simp [still])] at kind
      refine ⟨L, h.reach, .var (List.mem_append_left _ self) hl' pair ?_⟩
      rcases (h.kinds kind).2 with ⟨_, unset⟩ | ⟨v, set⟩
      · simp [lookupVar, hl, unset] at lookup
      · simp only [lookupVar, hl, h.fixed set, Option.some.injEq] at lookup
        rw [set, lookup]
    · obtain ⟨v, lookup', denotes⟩ := gone_value h scope ⟨found, own, use⟩
      rw [lookup, Option.some.injEq] at lookup'
      exact ⟨L, h.reach, lookup' ▸ denotes⟩
  | _ => simp [selfEvalIn] at self

theorem passArgs {names : List Symbol} {vals : List Node}
    (each : ∀ v ∈ vals, Simulates W U n m v) (fits : ∀ v ∈ vals, Fits U (seenIn σ) ahead v)
    (scope : Scope U L ahead σ ρ ρ') (h : Linked W U L s s') (len : names.length = vals.length)
    {vs : List Value} {s₁ : State}
    (ran : evalArgs W (enterN W inOrder n) ρ vals s = .ok (vs, s₁)) :
    ∃ ws s₁' L₁, evalArgs W (enterN W inOrder m) ρ'
        ((keptArgs U (seenIn σ) (zipArgs names vals (optAll U σ vals))).map Arg.after) s' =
          .ok (ws, s₁') ∧ Reach W U s.top L L₁ s₁ s₁' ∧
      Passed U L₁ ρ' (seenIn σ ++ ahead)
        ((zipArgs names vals (optAll U σ vals)).map (Arg.value U (seenIn σ)))
        ((keptArgs U (seenIn σ) (zipArgs names vals (optAll U σ vals))).map Arg.name) vs ws := by
  induction vals generalizing names L s s' vs with
  | nil =>
    cases ran
    rw [List.length_eq_zero_iff.mp len]
    exact ⟨[], s', L, rfl, h.reach, .nil⟩
  | cons v vals ih =>
    cases names with
    | nil => simp at len
    | cons x names =>
      obtain ⟨u, us, t, first, rest, rfl⟩ := evalArgs_cons.mp ran
      have len : names.length = vals.length := by simpa using len
      have tail {L₁ : Link} {t' : State} (grow : L.Grows L₁) (linked : Linked W U L₁ t t') :=
        ih (fun z hz => each z (by simp [hz])) (fun z hz => fits z (by simp [hz]))
          (scope.grow grow) linked len rest
      rw [optAll, zipArgs, keptArgs, List.filter_cons, List.map_cons]
      by_cases goes : inlines U (seenIn σ) x v = true
      · obtain ⟨L₁, reach, denotes⟩ := inlined_denotes goes (fits v (by simp)) scope h first
        obtain ⟨ws, s₁', L₂, ran', reach₂, passed⟩ := tail reach.grow reach.linked
        have stays : assigned U x = false := by
          simp only [inlines, Bool.and_eq_true, Bool.not_eq_true'] at goes
          exact goes.1.1
        rw [if_neg (by simp [Arg.inlined, goes]), Arg.value, if_pos (by simp [Arg.inlined, goes])]
        exact ⟨ws, s₁', L₂, ran', reach.trans reach.top reach₂,
          .gone stays (denotes.move reach₂.grow (fun _ => id) (.refl _ _)) passed⟩
      · obtain ⟨w, t', L₁, value, reach, rel⟩ := each v (by simp) σ ahead L ρ ρ' s s'
          (fits v (by simp)) scope h u t first
        obtain ⟨ws, s₁', L₂, ran', reach₂, passed⟩ := tail reach.grow reach.linked
        rw [if_pos (by simp [Arg.inlined, goes]), Arg.value, if_neg (by simp [Arg.inlined, goes])]
        exact ⟨w :: ws, s₁', L₂, evalArgs_cons.mpr ⟨w, ws, t', value, ran', rfl⟩,
          reach.trans reach.top reach₂, .own (ValueIn.grow reach₂.grow rel) passed⟩

theorem bindFixed_left {xs : List Symbol} {vs us : List Value} {ρ₁ : Env} {s₁ : State}
    (h : bindFixed xs vs ρ s = some ((us, ρ₁), s₁)) : vs.length = xs.length + us.length := by
  induction xs generalizing vs ρ s with
  | nil =>
    cases h
    simp
  | cons x xs ih =>
    cases vs with
    | nil => simp [bindFixed] at h
    | cons v vs =>
      rw [List.length_cons, ih h, List.length_cons]
      omega

theorem bindArgs_fixed {xs : List Symbol} {vs : List Value} {ρ₁ : Env} {s₁ : State} :
    bindArgs ⟨xs, none⟩ vs ρ s = some (ρ₁, s₁) ↔ bindFixed xs vs ρ s = some (([], ρ₁), s₁) := by
  unfold bindArgs
  cases bindFixed xs vs ρ s with
  | none => simp
  | some p =>
    obtain ⟨⟨us, η⟩, t⟩ := p
    cases us <;> simp

theorem seq_of_body {late : Node → Bool} {enter : Enter} {body : List Node}
    (none : defined body = []) : evalBody W late enter ρ body s = evalSeq W late enter ρ body s := by
  have plain : ∀ x ∈ body, isDefine x = false := by
    intro x hx
    have no : definesOf body = [] := List.map_eq_nil_iff.mp none
    rw [definesOf, List.filter_eq_nil_iff] at no
    simpa using no x hx
  have bound : bindNames (defined body) ρ s = (ρ, s) := by
    rw [none]
    rfl
  rw [evalBody_eq bound, evalItems_plain plain]

theorem operation_follows {args : List Node} (each : ∀ x ∈ args, Simulates W U n m x)
    (fits : ∀ x ∈ args, Fits U (seenIn σ) ahead x) (scope : Scope U L ahead σ ρ ρ')
    (h : Linked W U L s s') (op : Symbol) : Follows W U s.top L ValueIn
      (evalArgs W (enterN W inOrder n) ρ (if isTypeTest (.sym op) then args.tail else args) s >>=
        fun p => .ofOption (finishOp W (.sym op) args p.1 p.2))
      (evalArgs W (enterN W inOrder m) ρ'
          (if isTypeTest (.sym op) then (optAll U σ args).tail else optAll U σ args) s' >>=
        fun p => .ofOption (finishOp W (.sym op) (optAll U σ args) p.1 p.2)) := by
  by_cases test : isTypeTest (.sym op) = true
  · rw [if_pos test, if_pos test]
    cases args with
    | nil =>
      intro v s₁ ran
      simp [evalArgs, finishOp, test] at ran
    | cons t args =>
      rw [optAll, List.tail_cons, List.tail_cons]
      refine (evalArgs_follows (fun x hx => each x (by simp [hx])) (fun x hx => fits x (by simp [hx]))
        scope h).bind fun vs ws s₁ s₁' L₁ reach rel => ?_
      by_cases known : ∃ x ∈ Opcode.typeTests, t = .sym x
      · obtain ⟨x, mem, rfl⟩ := known
        have notSeen : x ∉ seenIn σ := fun seen =>
          variableName_notType (scope.words x (List.mem_append_left _ seen)) mem
        have stays : opt U σ (.sym x) = .sym x := by
          rw [opt, Option.not_isSome_iff_eq_none.mp (fun some => notSeen (lookup_isSome.mp some))]
          rfl
        have same : finishOp W (.sym op) (.sym x :: optAll U σ args) ws s₁' =
            finishOp W (.sym op) (.sym x :: args) ws s₁' := by
          unfold finishOp
          rw [if_pos test, if_pos test]
          cases ws with
          | nil => rfl
          | cons w ws => cases ws <;> rfl
        rw [stays, same]
        exact finishOp_follows reach.linked _ _ rel
      · have stuck : finishOp W (.sym op) (t :: args) vs s₁ = none := by
          unfold finishOp
          rw [if_pos test]
          split
          · rename_i x _ v heq
            obtain ⟨rfl, _⟩ := List.cons.inj heq
            have unknown : x ∉ Opcode.typeTests := fun mem => known ⟨x, mem, rfl⟩
            simp only [Opcode.typeTests, List.mem_cons, List.not_mem_nil, or_false, not_or] at unknown
            simp [typeTest, unknown]
          · rfl
        simp only [stuck]
        exact follows_stuck
  · rw [if_neg test, if_neg test]
    refine (evalArgs_follows each fits scope h).bind fun vs ws s₁ s₁' L₁ reach rel => ?_
    have same : finishOp W (.sym op) (optAll U σ args) ws s₁' =
        finishOp W (.sym op) args ws s₁' := by
      unfold finishOp
      rw [if_neg test, if_neg test]
    rw [same]
    exact finishOp_follows reach.linked _ _ rel

theorem opt_notOperator {f : Node} (fits : Fits U (seenIn σ) ahead f)
    (scope : Scope U L ahead σ ρ ρ') (call : isOperator f = false) :
    isOperator (opt U σ f) = false := by
  cases f with
  | sym x =>
    rw [opt]
    cases found : σ.lookup x with
    | none => exact call
    | some w =>
      rw [Option.getD_some]
      by_cases own : w = .sym x
      · rw [own]
        exact call
      · have gone : Gone U σ x w := ⟨found, own, fits.sym (.inl (mem_seenIn found))⟩
        obtain ⟨v, held⟩ := Option.isSome_iff_exists.mp (scope.settled x w gone).2
        have denotes := scope.each x w v gone held
        cases denotes with
        | var mem =>
          have := variableName_notOperator (scope.words _ mem)
          simpa [isOperator] using this
        | _ => rfl
  | app f args =>
    cases f with
    | lambda xs body =>
      rw [opt]
      split
      · simp only
        split <;> rfl
      · rfl
    | _ =>
      rw [opt_app (by simp)]
      rfl
  | set x v =>
    rw [opt]
    split <;> rfl
  | _ =>
    rw [opt]
    rfl

/-- The arguments that are left are evaluated and bound as all of them are, and what is inlined
    denotes what it did. -/
theorem bindKept_follows {base : Nat} {fixed : List Symbol} {vals : List Node} {t : State}
    {vs : List Value} {ρ₁ : Env} (each : ∀ v ∈ vals, Simulates W U n m v)
    (fits : ∀ v ∈ vals, Fits U (seenIn σ) ahead v) (scope : Scope U L ahead σ ρ ρ')
    (reach : Reach W U base L L₁ s t) (len : fixed.length = vals.length) (nodup : fixed.Nodup)
    (fresh : ∀ y ∈ fixed, y ∉ seenIn σ ++ ahead) (words : ∀ y ∈ fixed, variableName y = true)
    (ran : evalArgs W (enterN W inOrder n) ρ vals s = .ok (vs, s₁))
    (bound : bindFixed fixed vs ρ s₁ = some (([], ρ₁), s₂)) {as : List (Arg Node)}
    (zipped : as = zipArgs fixed vals (optAll U σ vals)) :
    ∃ ws s₁' L₂ ρ₂' s₂' L₃,
      evalArgs W (enterN W inOrder m) ρ' ((keptArgs U (seenIn σ) as).map Arg.after) t =
        .ok (ws, s₁') ∧
      bindFixed ((keptArgs U (seenIn σ) as).map Arg.name) ws ρ' s₁' = some (([], ρ₂'), s₂') ∧
      L₁.Grows L₂ ∧ Linked W U L₂ s₁ s₁' ∧ Reach W U base L L₃ s₂ s₂' ∧
      Scope U L₃ ahead (as.map (Arg.value U (seenIn σ)) ++ σ) ρ₁ ρ₂' := by
  have count : (optAll U σ vals).length = vals.length := length_optAll vals
  have names : seenIn (as.map (Arg.value U (seenIn σ))) = fixed := by
    rw [seenIn_values, zipped, zipArgs_names count (le_of_eq len)]
  obtain ⟨ws, s₁', L₂, ran', reach₂, passed⟩ := passArgs each fits (scope.grow reach.grow)
    reach.linked len ran
  rw [← zipped] at ran' passed
  rw [← names] at nodup fresh words
  obtain ⟨ρ₂, ρ₂', s₃, s₂', L₃, left, right, reach₃, scope₃⟩ := passed.bind (.refl L₂)
    reach₂.linked (scope.grow (reach.grow.trans reach₂.grow)) (.refl _ _) (fun _ => id)
    nodup fresh words [] []
  rw [List.append_nil, names, bound, Option.some.injEq, Prod.mk.injEq, Prod.mk.injEq] at left
  obtain ⟨⟨_, rfl⟩, rfl⟩ := left
  rw [List.append_nil] at right
  refine ⟨ws, s₁', L₂, ρ₂', s₂', L₃, ran', right, reach₂.grow, reach₂.linked,
    (reach.trans reach.top reach₂).trans (le_trans reach.top reach₂.top) reach₃,
    scope₃.congr (fun y => (lookup_reverse nodup y).symm) ?_⟩
  intro p hp
  rcases List.mem_append.mp hp with hp | hp
  · exact scope₃.values p (List.mem_append_left _ (List.mem_reverse.mpr hp))
  · exact scope.values p hp

theorem lambdaCall_follows (bodies : ∀ k m, k < n → k ≤ m → Bodies W U k m) (le : n ≤ m)
    {args : Formals} {body vals : List Node} (each : ∀ v ∈ vals, Simulates W U n m v)
    (fits : Fits U (seenIn σ) ahead (.app (.lambda args body) vals))
    (scope : Scope U L ahead σ ρ ρ') (h : Linked W U L s s')
    (goes : inlinesCall U (seenIn σ) args vals = true) : Follows W U s.top L ValueIn
      (eval W inOrder (enterN W inOrder n) ρ (.app (.lambda args body) vals) s)
      (eval W inOrder (enterN W inOrder m) ρ' (opt U σ (.app (.lambda args body) vals)) s') := by
  intro r t ran
  obtain ⟨fixed, rest⟩ := args
  have noRest : rest = none := by
    simp only [inlinesCall, Bool.and_eq_true, Option.isNone_iff_eq_none] at goes
    exact goes.1.1
  subst noRest
  obtain ⟨fitsFunc, fitsVals⟩ := fits.app
  have names : (Formals.mk fixed none).names = fixed := by simp [Formals.names]
  obtain ⟨nodup, fresh, words, defs⟩ := params_fresh fitsFunc
  rw [names] at nodup fresh words defs
  rw [eval_application rfl, eval_closure, Outcome.ok_bind] at ran
  simp only [bind_ok_iff, Prod.exists] at ran
  obtain ⟨vs, s₁, operands, ran⟩ := ran
  obtain ⟨L₀, reach₀, set⟩ := h.newFixed (.closure ⟨fixed, none⟩ body ρ)
  -- the closure is still there when it is called
  have here : s₁.get s.top = some (.closure ⟨fixed, none⟩ body ρ) := by
    obtain ⟨_, _, L', _, reach, _⟩ := evalArgs_follows each fitsVals (scope.grow reach₀.grow)
      reach₀.linked vs s₁ operands
    exact reach.linked.fixed (reach.grow.fixed set)
  simp only [applyProc, here] at ran
  cases n with
  | zero => cases ran
  | succ n =>
    rw [enterN_succ] at ran
    simp only [bind_ok_iff, Prod.exists, ofOption_ok_iff, bindArgs_fixed] at ran
    obtain ⟨ρ₁, s₂, bound, ran⟩ := ran
    have len : fixed.length = vals.length := by
      rw [← evalArgs_length operands, bindFixed_left bound]
      rfl
    obtain ⟨as, has⟩ : ∃ as, as = zipArgs fixed vals (optAll U σ vals) := ⟨_, rfl⟩
    have paramNames : seenIn (as.map (Arg.value U (seenIn σ))) = fixed := by
      rw [seenIn_values, has, zipArgs_names (length_optAll vals) (le_of_eq len)]
    have inner : FitsItems U (seenIn (as.map (Arg.value U (seenIn σ)) ++ σ)) (defined body ++ ahead)
        body := by
      have items := fitsFunc.items
      rw [names] at items
      rwa [seenIn_append, paramNames]
    have continues {L₁ : Link} {t' : State} (reach₁ : Reach W U s.top L L₁
        (s.alloc (.closure ⟨fixed, none⟩ body ρ)) t') :=
      bindKept_follows each fitsVals scope reach₁ len nodup fresh words operands bound has
    have outside : ∀ y ∈ defined body,
        y ∉ seenIn (as.map (Arg.value U (seenIn σ)) ++ σ) ++ ahead := by
      rw [seenIn_append, paramNames]
      exact defs
    rw [opt, if_pos goes]
    simp only [← has]
    split
    · rename_i bare
      simp only [Bool.and_eq_true, List.isEmpty_iff, Bool.not_eq_true'] at bare
      obtain ⟨ws, s₁', L₂, ρ₂', s₂', L₃, ran', right, _, _, reach, scope'⟩ := continues reach₀
      rw [bare.1] at ran' right
      cases ran'
      cases right
      obtain ⟨w, t', L₄, ran₄, reach₄, rel⟩ := bodies n m (by omega) (by omega) _ ahead L₃ ρ₁ _ _ _
        body inner outside scope' reach.linked r t ran
      refine ⟨w, t', L₄, ?_, reach.trans reach.top reach₄, rel⟩
      have place : placedBody body = true := by
        have core := isCore_placed fitsFunc.core
        simpa [placed] using core
      rw [eval_begin rfl, ← seq_of_body, ran₄]
      rw [defined_optBody place scope'.values, defined_none bare.2]
      rfl
    · obtain ⟨L₁, reach₁, code⟩ := reach₀.linked.newCode
        ⟨(keptArgs U (seenIn σ) as).map Arg.name, none⟩
        (optBody U (as.map (Arg.value U (seenIn σ)) ++ σ) body) ρ'
      obtain ⟨ws, s₁', L₂, ρ₂', s₂', L₃, ran', right, grow, linked, reach, scope'⟩ :=
        continues (reach₀.trans reach₀.top reach₁)
      have there := linked.code (grow.code code)
      obtain ⟨m, rfl⟩ := Nat.exists_eq_add_of_le le
      obtain ⟨w, t', L₄, ran₄, reach₄, rel⟩ := bodies n (n + m) (by omega) (by omega) _ ahead L₃ ρ₁ _
        _ _ body inner outside scope' reach.linked r t ran
      refine ⟨w, t', L₄, ?_, reach.trans reach.top reach₄, rel⟩
      rw [eval_application rfl, eval_closure, Outcome.ok_bind]
      rw [Nat.add_right_comm] at ran' ⊢
      simp only [ran', Outcome.ok_bind, applyProc, there, enterN_succ, bindArgs_fixed.mpr right,
        Outcome.ofOption_some, ran₄]

/-- Every node is followed by its optimized form, at every depth of calls. -/
theorem simulates (noProcs : W.eqProcs = false)
    (bodies : ∀ k m, k < n → k ≤ m → Bodies W U k m) (le : n ≤ m) (node : Node) :
    Simulates W U n m node := by
  induction node using inductCall with
  | const d =>
    intro σ ahead L ρ ρ' s s' _ _ h
    rw [opt, eval_const, eval_const]
    exact h.done (.data _)
  | quote d =>
    intro σ ahead L ρ ρ' s s' _ _ h
    rw [opt, eval_quote, eval_quote]
    exact h.done (.data _)
  | sym x =>
    intro σ ahead L ρ ρ' s s' fits scope h
    exact sym_follows noProcs _ _ fits scope h
  | lambda args body _ =>
    intro σ ahead L ρ ρ' s s' fits scope h
    exact closure_follows noProcs _ _ fits scope h
  | ite p a b hp ha hb =>
    intro σ ahead L ρ ρ' s s' fits scope h
    obtain ⟨first, second, third⟩ := fits.ite
    rw [opt, eval_ite rfl, eval_ite rfl]
    refine (hp σ ahead L ρ ρ' s s' first scope h).bind fun v w s₁ s₁' L₁ reach rel => ?_
    have same : truthy v = truthy w := ValueRel.truthy rel
    simp only [same]
    split
    · exact ha σ ahead L₁ ρ ρ' s₁ s₁' second (scope.grow reach.grow) reach.linked
    · exact hb σ ahead L₁ ρ ρ' s₁ s₁' third (scope.grow reach.grow) reach.linked
  | set x v ih =>
    intro σ ahead L ρ ρ' s s' fits scope h
    exact set_follows ih fits scope h
  | define x v _ =>
    intro σ ahead L ρ ρ' s s' fits _ _
    have core := fits.core
    simp [isCore] at core
  | extend names =>
    intro σ ahead L ρ ρ' s s' fits _ _
    have core := fits.core
    simp [isCore] at core
  | begin forms ih =>
    intro σ ahead L ρ ρ' s s' fits scope h
    rw [opt, eval_begin rfl, eval_begin rfl]
    exact evalSeq_follows ih fits.begin scope h
  | call args body vals _ ih =>
    intro σ ahead L ρ ρ' s s' fits scope h
    by_cases goes : inlinesCall U (seenIn σ) args vals = true
    · exact lambdaCall_follows bodies le ih fits scope h goes
    · obtain ⟨fitsFunc, fitsVals⟩ := fits.app
      have same : opt U σ (.app (.lambda args body) vals) =
          .app (opt U σ (.lambda args body)) (optAll U σ vals) := by
        conv_lhs => rw [opt, if_neg goes]
        rw [opt]
      rw [same, eval_application rfl, eval_application (by rw [opt]; rfl)]
      refine (closure_follows noProcs _ _ fitsFunc scope h).bind
        fun f f' s₁ s₁' L₁ reach func => ?_
      refine (evalArgs_follows ih fitsVals (scope.grow reach.grow) reach.linked).bind
        fun vs ws s₂ s₂' L₂ reach₂ rel => ?_
      exact applyProc_follows bodies le reach₂.linked (ValueIn.grow reach₂.grow func) rel
  | app f args plain hf ih =>
    intro σ ahead L ρ ρ' s s' fits scope h
    obtain ⟨fitsFunc, fitsArgs⟩ := fits.app
    rw [opt_app plain]
    by_cases op : isOperator f = true
    · obtain ⟨x, rfl⟩ : ∃ x, f = .sym x := by
        cases f <;> first | exact ⟨_, rfl⟩ | simp [isOperator] at op
      have notSeen : x ∉ seenIn σ := fun mem =>
        variableName_notOperator (scope.words x (List.mem_append_left _ mem))
          (by simpa [isOperator] using op)
      have stays : opt U σ (.sym x) = .sym x := by
        rw [opt, Option.not_isSome_iff_eq_none.mp (fun some => notSeen (lookup_isSome.mp some))]
        rfl
      rw [stays, eval_operation op, eval_operation op]
      exact operation_follows ih fitsArgs scope h x
    · have call : isOperator f = false := by simpa using op
      rw [eval_application call, eval_application (opt_notOperator fitsFunc scope call)]
      refine (hf σ ahead L ρ ρ' s s' fitsFunc scope h).bind fun f f' s₁ s₁' L₁ reach func => ?_
      refine (evalArgs_follows ih fitsArgs (scope.grow reach.grow) reach.linked).bind
        fun vs ws s₂ s₂' L₂ reach₂ rel => ?_
      exact applyProc_follows bodies le reach₂.linked (ValueIn.grow reach₂.grow func) rel

theorem simulates_all (noProcs : W.eqProcs = false) (n : Nat) :
    ∀ m, n ≤ m → ∀ node, Simulates W U n m node := by
  induction n using Nat.strongRecOn with
  | ind n ih =>
    intro m le node
    exact simulates noProcs (fun k m lt le => bodies_of (ih k lt m le)) le node

end simulation

/-- Nothing has been made yet. -/
def Link.start : Link :=
  ⟨fun _ _ => False, fun _ _ => False, fun _ => none, fun _ => none, fun _ => none⟩

theorem linked_start (W : World) (U : List Use) : Linked W U Link.start State.empty State.empty where
  rel := CpsConversion.empty_rel W _
  fixed found := by cases found
  kinds found := by cases found
  code found := by cases found

theorem scope_start (U : List Use) : Scope U Link.start [] [] Env.empty Env.empty where
  words := by simp
  values := by simp
  outer _ _ := rfl
  builtins _ := rfl
  coming mem := by cases mem
  own found := by cases found
  settled _ _ gone := by cases gone.found
  each _ _ _ gone := by cases gone.found

/- A whole program, when the optimizer gives what the pass gives. -/
theorem inlineAll_follows {W : World} (noProcs : W.eqProcs = false) {p : Node}
    (fits : Fits (uses [] p) [] [] p) {n : Nat} {v : Value} {s : State}
    (ran : run W inOrder n p = .ok (v, s)) :
    ∃ v' s', run W inOrder n (inlineAll p) = .ok (v', s') ∧ CpsConversion.SameAnswer v s v' s' := by
  obtain ⟨v', s', L, ran', reach, rel⟩ := simulates_all noProcs n n (le_refl n) p [] [] Link.start
    Env.empty Env.empty State.empty State.empty fits (scope_start _) (linked_start W _) v s ran
  exact ⟨v', s', ran', CpsConversion.sameAnswer_of reach.linked.rel rel⟩

/- Lambdas have one expression for their body. -/
mutual
def oneExpression : Node → Bool
  | .const _ | .quote _ | .sym _ | .extend _ => true
  | .lambda _ body => body.length == 1 && oneExpressionAll body
  | .ite pred conseq alt => oneExpression pred && oneExpression conseq && oneExpression alt
  | .set _ value => oneExpression value
  | .define _ _ => false
  | .begin forms => oneExpressionAll forms
  | .app f args => oneExpression f && oneExpressionAll args
def oneExpressionAll : List Node → Bool
  | [] => true
  | x :: xs => oneExpression x && oneExpressionAll xs
end

theorem oneExpressionAll_iff {xs : List Node} :
    oneExpressionAll xs = true ↔ ∀ x ∈ xs, oneExpression x = true := by
  induction xs with
  | nil => simp [oneExpressionAll]
  | cons x xs ih => simp [oneExpressionAll, ih]

theorem dropsQuietAll_iff {U : List Use} {seen ahead : List Symbol} {xs : List Node} :
    dropsQuietAll U seen ahead xs = true ↔ ∀ x ∈ xs, dropsQuiet U seen ahead x = true := by
  induction xs with
  | nil => simp [dropsQuietAll]
  | cons x xs ih => simp [dropsQuietAll, ih]

theorem oneExpression_drops {U : List Use} {seen : List Symbol} {n : Node}
    (single : oneExpression n = true) : dropsQuiet U seen [] n = true := by
  induction n generalizing seen with
  | const | quote | extend => rw [dropsQuiet]
  | sym x => simp [dropsQuiet]
  | lambda args body ih =>
    simp only [oneExpression, Bool.and_eq_true, beq_iff_eq, oneExpressionAll_iff] at single
    obtain ⟨x, rfl⟩ := List.length_eq_one_iff.mp single.1
    have inner := single.2 x (by simp)
    have plain : isDefine x = false := by
      cases x <;> first | rfl | simp [oneExpression] at inner
    have none : defined [x] = [] := by rw [defined_skip plain]; rfl
    rw [dropsQuiet, none, List.nil_append, dropsQuietBody_expr plain]
    simp [dropsQuietBody, ih x (by simp) inner]
  | ite p a b hp ha hb =>
    simp only [oneExpression, Bool.and_eq_true] at single
    simp [dropsQuiet, hp single.1.1, ha single.1.2, hb single.2]
  | set x v ih =>
    rw [oneExpression] at single
    simp [dropsQuiet, ih single]
  | define x v ih => simp [oneExpression] at single
  | begin forms ih =>
    rw [oneExpression, oneExpressionAll_iff] at single
    rw [dropsQuiet, dropsQuietAll_iff]
    exact fun x hx => ih x hx (single x hx)
  | app f args hf ih =>
    simp only [oneExpression, Bool.and_eq_true, oneExpressionAll_iff] at single
    simp only [dropsQuiet, Bool.and_eq_true, dropsQuietAll_iff]
    exact ⟨hf single.1, fun x hx => ih x hx (single.2 x hx)⟩

section preserves
variable {W : World} {p : Node} {n : Nat} {v : Value} {s : State}

/- Where nothing but quiet code is dropped, the optimized program computes what the program
   computes, after the same effects. -/
theorem optimizeSource_preserves (noProcs : W.eqProcs = false) (core : isCore p = true)
    (matching : regular p = true) (distinct : (binders p).Nodup)
    (words : ∀ y ∈ binders p, variableName y = true)
    (drops : dropsQuiet (uses [] p) [] [] p = true) (ran : run W inOrder n p = .ok (v, s)) :
    ∃ out v' s', SourceOptimizer.optimizeSource p = .ok out ∧
      run W inOrder n out = .ok (v', s') ∧ CpsConversion.SameAnswer v s v' s' := by
  have fits : Fits (uses [] p) [] [] p :=
    ⟨core, distinct, by simp, words, fun _ => id, drops⟩
  obtain ⟨v', s', ran', same⟩ := inlineAll_follows noProcs fits ran
  exact ⟨inlineAll p, v', s', optimizeSource_regular (isCore_placed core) distinct matching, ran', same⟩

/- Inlining alone needs no condition: a program without definitions, each lambda of which has
   one expression for its body, computes the same after optimization. -/
theorem inlining_preserves (noProcs : W.eqProcs = false) (core : isCore p = true)
    (single : oneExpression p = true) (matching : regular p = true) (distinct : (binders p).Nodup)
    (words : ∀ y ∈ binders p, variableName y = true) (ran : run W inOrder n p = .ok (v, s)) :
    ∃ out v' s', SourceOptimizer.optimizeSource p = .ok out ∧
      run W inOrder n out = .ok (v', s') ∧ CpsConversion.SameAnswer v s v' s' := by
  have fits : Fits (uses [] p) [] [] p :=
    ⟨core, distinct, by simp, words, fun _ => id, oneExpression_drops single⟩
  obtain ⟨v', s', ran', same⟩ := inlineAll_follows noProcs fits ran
  exact ⟨inlineAll p, v', s', optimizeSource_regular (isCore_placed core) distinct matching, ran', same⟩

end preserves

/-- The builtins `void`, `display` and `list`, where `$eq?` does not compare procedures. -/
def plainWorld : World := { basicWorld with eqProcs := false }

/-- ((lambda () (define k (list 1)) (define g (lambda (u) (display u) u)) (list 2)
      ((lambda (f x) (list (f x) (f 3))) g 4))), where k and (list 2) are dropped, and f and x
    are inlined. -/
def droppedAndInlined : Node :=
  .app (.lambda ⟨[], none⟩ [.define "k" (.app (.sym "list") [.const (.num 1)]),
    .define "g" (.lambda ⟨["u"], none⟩ [.app (.sym "display") [.sym "u"], .sym "u"]),
    .app (.sym "list") [.const (.num 2)],
    .app (.lambda ⟨["f", "x"], none⟩ [.app (.sym "list") [.app (.sym "f") [.sym "x"],
      .app (.sym "f") [.const (.num 3)]]]) [.sym "g", .const (.num 4)]]) []

theorem optimizeSource_preserves_dropped :
    ∃ out v' s', SourceOptimizer.optimizeSource droppedAndInlined = .ok out ∧
      run plainWorld inOrder 3 out = .ok (v', s') ∧ s'.trace.length = 2 := by
  obtain ⟨out, v', s', result, ran, _, _, _, _, _, _, trace⟩ := optimizeSource_preserves
    (W := plainWorld) (p := droppedAndInlined) (n := 3) (v := .ref 12) rfl (by decide) (by decide)
    (by decide) (by decide) (by decide) rfl
  exact ⟨out, v', s', result, ran, trace.length_eq.symm⟩

/-- (list ((lambda (g w) (list ((g w)) ((g 2)))) (lambda (a) (lambda () (display a))) (list 1))),
    where g goes and w stays. -/
def twice : Node :=
  .app (.sym "list") [.app (.lambda ⟨["g", "w"], none⟩
      [.app (.sym "list") [.app (.app (.sym "g") [.sym "w"]) [],
        .app (.app (.sym "g") [.const (.num 2)]) []]])
    [.lambda ⟨["a"], none⟩ [.lambda ⟨[], none⟩ [.app (.sym "display") [.sym "a"]]],
      .app (.sym "list") [.const (.num 1)]]]

theorem inlining_preserves_twice :
    ∃ out v' s', SourceOptimizer.optimizeSource twice = .ok out ∧
      run plainWorld inOrder 3 out = .ok (v', s') ∧ s'.trace.length = 2 := by
  obtain ⟨out, v', s', result, ran, _, _, _, _, _, _, trace⟩ := inlining_preserves
    (W := plainWorld) (p := twice) (n := 3) (v := .ref 11) rfl (by decide) (by decide) (by decide)
    (by decide) (by decide) rfl
  exact ⟨out, v', s', result, ran, trace.length_eq.symm⟩

end LGears.OptimizerCorrect
