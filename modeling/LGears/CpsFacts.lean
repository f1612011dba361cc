import LGears.Cps
import LGears.Library.Returns

/- The conversion as a relation: which term and which counter it returns. -/
namespace LGears.Cps
open GenName PrimitivesInfo StateExcept

section returns
variable {α : Type} {m m' : Nat}

@[simp] theorem returns_genName {x : Symbol} :
    Returns genName m x m' ↔ x = varName m ∧ m' = m + 1 := by
  simp [Returns, genName, eq_comm]

@[simp] theorem returns_violation {v : Violation} {a : α} :
    ¬ Returns (violation v) m a m' := by
  simp [Returns, violation]

end returns

section equations
variable (res : Option Node) (name : Symbol)

example (d : Datum) : convert res (.const d) name = pure (deliver res name (.const d)) := by
  rw [convert.eq_def, ite_eq_left_iff]
  simp [selfEval]

theorem convert_selfEval {node : Node} (simple : selfEval node = true) :
    convert res node name = pure (deliver res name node) := by
  rw [convert.eq_def, if_pos simple]

theorem convert_lambda (args : Formals) (body : List Node) :
    convert res (.lambda args body) name = (do
      let func ← convertFunc args body
      pure (deliver res name func)) := by
  rw [convert.eq_def, if_neg (by simp [selfEval])]

theorem convert_ite (pred conseq alt : Node) :
    convert res (.ite pred conseq alt) name = (do
      let predname ← predName pred
      let lname ← genName
      let escape := if res.isNone then name else lname
      let conseq' ← convert none conseq escape
      let alt' ← convert none alt escape
      let expr := joinExpr res name lname (.ite predname conseq' alt')
      if selfEval pred then pure expr else convert (some expr) pred (symbolOf predname)) := by
  rw [convert.eq_def, if_neg (by simp [selfEval])]

theorem convert_begin (forms : List Node) :
    convert res (.begin forms) name = (do
      let seq ← convertSeq res forms name
      pure (seq.getD (.const .null))) := by
  rw [convert.eq_def, if_neg (by simp [selfEval])]

theorem convert_set (x : Symbol) (value : Node) :
    convert res (.set x value) name = convertSet res x value name := by
  rw [convert.eq_def, if_neg (by simp [selfEval])]

theorem convert_app {f : Node} {args : List Node} (complex : selfEval (.app f args) = false) :
    convert res (.app f args) name = (do
      let largs ← convertArgs args
      let lf ← convertArg f
      let inner ← glueArgs (callExpr (control res name) lf largs) args largs
      glueArg inner f lf) := by
  rw [convert.eq_def, if_neg (by simp [complex])]

theorem convertArg_eq (x : Node) :
    convertArg x = if selfEval x then pure x
      else match x with
      | .lambda args body => convertFunc args body
      | _ => Node.sym <$> genName := by
  cases x <;> rw [convertArg.eq_def]

theorem glueArg_eq (prev x larg : Node) :
    glueArg prev x larg = if selfEval x || inlinable x then pure prev
      else convert (some prev) x (symbolOf larg) := by
  rw [glueArg.eq_def]

@[simp] theorem convertArgs_nil : convertArgs [] = pure [] := by rw [convertArgs]

theorem convertArgs_cons (x : Node) (xs : List Node) :
    convertArgs (x :: xs) = (do
      let largs ← convertArgs xs
      let larg ← convertArg x
      pure (larg :: largs)) := by
  rw [convertArgs]

@[simp] theorem glueArgs_nil (expr : Node) (largs : List Node) :
    glueArgs expr [] largs = pure expr := by
  rw [glueArgs.eq_def]

theorem glueArgs_cons (expr x larg : Node) (xs largs : List Node) :
    glueArgs expr (x :: xs) (larg :: largs) = (do
      let prev ← glueArgs expr xs largs
      glueArg prev x larg) := by
  rw [glueArgs]

theorem convertSeq_cons (x : Node) (xs : List Node) :
    convertSeq res (x :: xs) name =
      seqLoop res ((x :: xs).getLast (by simp)) name (x :: xs) := by
  rw [convertSeq]

@[simp] theorem seqLoop_nil (frst : Node) : seqLoop res frst name [] = pure res := by
  rw [seqLoop]

theorem seqLoop_cons (frst x : Node) (xs : List Node) :
    seqLoop res frst name (x :: xs) = (do
      let prev ← seqLoop res frst name xs
      let tail := xs.isEmpty || eqObject x frst
      if selfEval x then pure (if tail then some (.app (.sym name) [x]) else prev)
      else do
        let value ← seqName tail name
        some <$> convert prev x value) := by
  rw [seqLoop]

theorem convertSet_eq (x : Symbol) (value : Node) :
    convertSet res x value name =
      if selfEval value then pure (.begin (setBody x res name value))
      else match value with
      | .lambda args body => (do
        let func ← convertFunc args body
        pure (.begin (setBody x res name func)))
      | value => (do
        let setter ← genName
        let nv ← genName
        let term ← convert none value setter
        pure (.app (.lambda ⟨[setter], none⟩ [term])
          [.lambda ⟨[nv], none⟩ (setBody x res name (.sym nv))])) := by
  cases value <;> rw [convertSet.eq_def]

theorem convertSet_complex (x : Symbol) {value : Node} (complex : selfEval value = false)
    (notLambda : inlinable value = false) :
    convertSet res x value name = (do
      let setter ← genName
      let nv ← genName
      let term ← convert none value setter
      pure (.app (.lambda ⟨[setter], none⟩ [term])
        [.lambda ⟨[nv], none⟩ (setBody x res name (.sym nv))])) := by
  rw [convertSet.eq_def, if_neg (by simp [complex])]
  cases value <;> first | rfl | simp [inlinable] at notLambda

theorem convertFunc_eq (args : Formals) (body : List Node) :
    convertFunc args body = (do
      let name ← genName
      let body' ← convertBody body name
      pure (.lambda ⟨name :: args.fixed, args.rest⟩ (spliceBegin body'))) := by
  rw [convertFunc]

theorem convertBody_eq (body : List Node) :
    convertBody body name = (do
      if (expressionsOf body).isEmpty then violation .emptyBody
      else do
        let rest ← convertSeq none (expressionsOf body) name
        let term ← convertDefines rest (definesOf body)
        pure (extendForm ((definesOf body).map defineName) ++ term.toList)) := by
  rw [convertBody]

theorem convertDefines_nil (rest : Option Node) : convertDefines rest [] = pure rest := by
  rw [convertDefines]

theorem convertDefines_cons (rest : Option Node) (y : Symbol) (value : Node) (xs : List Node) :
    convertDefines rest (.define y value :: xs) = (do
      let prev ← convertDefines rest xs
      let name ← genName
      some <$> convertSet prev y value name) := by
  rw [convertDefines]

end equations

theorem eqObject_simple {x y : Node} (h : eqObject x y = true) : selfEval x = true ∧ x = y := by
  cases x <;> cases y <;> simp [eqObject] at h
  · rename_i d e
    cases d <;> cases e <;> simp_all [selfEval]
  · exact ⟨by simp [selfEval], by rw [h]⟩

theorem seqLoop_some {res : Option Node} {frst : Node} {name : Symbol} {xs : List Node}
    {m m' : Nat} {o : Option Node} (some : xs ≠ [])
    (h : Returns (seqLoop res frst name xs) m o m') : ∃ t, o = .some t := by
  induction xs generalizing m' o with
  | nil => exact absurd rfl some
  | cons x xs ih =>
    rw [seqLoop_cons] at h
    simp only [returns_bind] at h
    obtain ⟨prev, k, first, rest⟩ := h
    split at rest
    · simp only [returns_pure] at rest
      split at rest
      · exact ⟨_, rest.1.symm⟩
      · rename_i tail
        simp only [Bool.or_eq_true, not_or, List.isEmpty_iff] at tail
        exact rest.1 ▸ ih tail.1 first
    · simp only [returns_bind, returns_map] at rest
      obtain ⟨_, _, _, t, _, same⟩ := rest
      exact ⟨t, same.symm⟩

/- A sequence of forms that evaluate themselves is converted to the last one, whichever of them
   `eq?` takes for it. -/
theorem seqLoop_simple {res : Option Node} {name : Symbol} {frst t : Node} {xs : List Node}
    {m m' : Nat} (simple : ∀ x ∈ xs, selfEval x = true) (last : xs.getLast? = some frst)
    (conv : Returns (seqLoop res frst name xs) m (some t) m') :
    t = .app (.sym name) [frst] ∧ m' = m := by
  induction xs generalizing t m' with
  | nil => cases last
  | cons x xs ih =>
    rw [seqLoop_cons] at conv
    simp only [simple x (by simp), if_true, returns_bind, returns_pure] at conv
    obtain ⟨prev, k, rest, same, rfl⟩ := conv
    by_cases more : xs = []
    · subst more
      simp only [List.getLast?_singleton, Option.some.injEq] at last
      subst last
      rw [seqLoop_nil, returns_pure] at rest
      simp only [List.isEmpty_nil, Bool.true_or, if_true, Option.some.injEq] at same
      exact ⟨same.symm, rest.2.symm⟩
    · rw [List.getLast?_cons_of_ne_nil more] at last
      obtain ⟨u, rfl⟩ := seqLoop_some more rest
      obtain ⟨rfl, rfl⟩ := ih (fun y member => simple y (by simp [member])) last rest
      have empty : xs.isEmpty = false := by simpa using more
      rw [empty, Bool.false_or] at same
      split at same
      · rename_i shared
        rw [Option.some.injEq, (eqObject_simple shared).2] at same
        exact ⟨same.symm, rfl⟩
      · rw [Option.some.injEq] at same
        exact ⟨same.symm, rfl⟩

theorem convertDefines_some {rest : Node} {defines : List Node} {m m' : Nat} {o : Option Node}
    (h : Returns (convertDefines (.some rest) defines) m o m') : ∃ t, o = .some t := by
  induction defines generalizing m' o with
  | nil =>
    rw [convertDefines_nil, returns_pure] at h
    exact ⟨rest, h.1.symm⟩
  | cons x xs ih =>
    rw [convertDefines.eq_def] at h
    simp only [returns_bind] at h
    obtain ⟨prev, k, first, second⟩ := h
    cases x with
    | define y value =>
      simp only [returns_bind, returns_map] at second
      obtain ⟨_, _, _, t, _, same⟩ := second
      exact ⟨t, same.symm⟩
    | _ =>
      rw [returns_pure] at second
      exact second.1 ▸ ih first

section splice

theorem spliceNode_eq (x : Node) (ys : List Node) : spliceNode x ys = spliceBegin [x] ++ ys := by
  cases x <;> simp [spliceNode, spliceBegin]

theorem spliceBegin_append (xs ys : List Node) :
    spliceBegin (xs ++ ys) = spliceBegin xs ++ spliceBegin ys := by
  induction xs with
  | nil => simp [spliceBegin]
  | cons x xs ih =>
    simp only [List.cons_append, spliceBegin, ih]
    rw [spliceNode_eq x (_ ++ _), spliceNode_eq x (spliceBegin xs), List.append_assoc]

theorem spliceBegin_cons (x : Node) (xs : List Node) :
    spliceBegin (x :: xs) = spliceBegin [x] ++ spliceBegin xs := spliceBegin_append [x] xs

theorem splice_idem_all {xs : List Node}
    (h : ∀ x ∈ xs, spliceBegin (spliceBegin [x]) = spliceBegin [x]) :
    spliceBegin (spliceBegin xs) = spliceBegin xs := by
  induction xs with
  | nil => simp [spliceBegin]
  | cons x xs ih =>
    rw [spliceBegin_cons, spliceBegin_append, h x (by simp), ih fun y hy => h y (by simp [hy])]

theorem splice_idem_one (x : Node) : spliceBegin (spliceBegin [x]) = spliceBegin [x] := by
  induction x with
  | begin forms ih =>
    have : spliceBegin [Node.begin forms] = spliceBegin forms := by simp [spliceBegin, spliceNode]
    rw [this]
    exact splice_idem_all ih
  | _ => simp [spliceBegin, spliceNode]

@[simp] theorem spliceBegin_idem (xs : List Node) :
    spliceBegin (spliceBegin xs) = spliceBegin xs := splice_idem_all fun x _ => splice_idem_one x

end splice

/- Induction over a program whose bodies may hold definitions: the hypothesis also covers
   the value of every definition. -/
theorem bodyInduct {P : Node → Prop} (simple : ∀ n, selfEval n = true → P n)
    (lambda : ∀ args body, (∀ x ∈ body, P x) → (∀ y v, .define y v ∈ body → P v) →
      P (.lambda args body))
    (ite : ∀ p a b, P p → P a → P b → P (.ite p a b))
    (set : ∀ x v, P v → P (.set x v)) (define : ∀ x v, P v → P (.define x v))
    (begin : ∀ forms, (∀ x ∈ forms, P x) → P (.begin forms))
    (extend : ∀ names, P (.extend names))
    (app : ∀ f args, selfEval (.app f args) = false → P f → (∀ x ∈ args, P x) → P (.app f args))
    (n : Node) : P n := by
  suffices P n ∧ ∀ y v, n = .define y v → P v from this.1
  induction n with
  | const d => exact ⟨simple _ (by simp [selfEval]), by simp⟩
  | sym s => exact ⟨simple _ (by simp [selfEval]), by simp⟩
  | quote d => exact ⟨simple _ (by simp [selfEval]), by simp⟩
  | lambda args body ih =>
    exact ⟨lambda _ _ (fun x hx => (ih x hx).1) fun y v hv => (ih _ hv).2 y v rfl, by simp⟩
  | ite p a b hp ha hb => exact ⟨ite _ _ _ hp.1 ha.1 hb.1, by simp⟩
  | set x v hv => exact ⟨set _ _ hv.1, by simp⟩
  | define x v hv =>
    refine ⟨define _ _ hv.1, ?_⟩
    rintro _ _ ⟨rfl, rfl⟩
    exact hv.1
  | begin forms ih => exact ⟨begin _ fun x hx => (ih x hx).1, by simp⟩
  | extend names => exact ⟨extend _, by simp⟩
  | app f args hf ih =>
    refine ⟨?_, by simp⟩
    by_cases h : selfEval (.app f args) = true
    · exact simple _ h
    · exact app _ _ (by simpa using h) hf.1 fun x hx => (ih x hx).1

/-- The counter of the name generator never goes back. -/
def Rising {α : Type} (c : Conv α) : Prop := ∀ m a m', Returns c m a m' → m ≤ m'

section rising
variable {α β : Type}

theorem Rising.pure (a : α) : Rising (pure a) := by
  intro m b m' h
  simp at h
  omega

theorem Rising.bind {c : Conv α} {f : α → Conv β} (hc : Rising c) (hf : ∀ a, Rising (f a)) :
    Rising (c >>= f) := by
  intro m b m' h
  rw [returns_bind] at h
  obtain ⟨a, k, first, second⟩ := h
  exact le_trans (hc _ _ _ first) (hf a _ _ _ second)

theorem Rising.map {c : Conv α} {f : α → β} (hc : Rising c) : Rising (f <$> c) := by
  intro m b m' h
  rw [returns_map] at h
  obtain ⟨a, first, _⟩ := h
  exact hc _ _ _ first

theorem Rising.genName : Rising genName := by
  intro m a m' h
  simp at h
  omega

theorem Rising.violation (v : Violation) : Rising (violation v : Conv α) :=
  fun _ _ _ h => absurd h returns_violation

theorem Rising.ite {p : Prop} [Decidable p] {c d : Conv α} (hc : Rising c) (hd : Rising d) :
    Rising (if p then c else d) := by
  split
  · exact hc
  · exact hd

/-- Every conversion of the node raises the counter. -/
def Raises (n : Node) : Prop := ∀ res name, Rising (convert res n name)

theorem Raises.func {args : Formals} {body : List Node} (h : Raises (.lambda args body)) :
    Rising (convertFunc args body) := by
  intro m a m' ran
  refine h none "" m (deliver none "" a) m' ?_
  rw [convert_lambda]
  simpa using ⟨a, ran, rfl⟩

theorem Raises.arg {x : Node} (h : Raises x) : Rising (convertArg x) := by
  rw [convertArg_eq]
  refine .ite (.pure _) ?_
  cases x with
  | lambda args body => exact h.func
  | _ => exact Rising.genName.map

theorem Raises.glue {x : Node} (h : Raises x) (prev larg : Node) :
    Rising (glueArg prev x larg) := by
  rw [glueArg_eq]
  exact .ite (.pure _) (h _ _)

theorem convertArgs_rising {xs : List Node} (h : ∀ x ∈ xs, Raises x) :
    Rising (convertArgs xs) := by
  induction xs with
  | nil => simpa using Rising.pure _
  | cons x xs ih =>
    rw [convertArgs_cons]
    exact .bind (ih fun y hy => h y (by simp [hy])) fun _ =>
      .bind (h x (by simp)).arg fun _ => .pure _

theorem glueArgs_rising {xs : List Node} (h : ∀ x ∈ xs, Raises x) (expr : Node)
    (largs : List Node) : Rising (glueArgs expr xs largs) := by
  induction xs generalizing largs with
  | nil => simpa using Rising.pure _
  | cons x xs ih =>
    cases largs with
    | nil =>
      rw [glueArgs.eq_def]
      exact .pure _
    | cons larg largs =>
      rw [glueArgs_cons]
      exact .bind (ih (fun y hy => h y (by simp [hy])) _) fun _ => (h x (by simp)).glue _ _

theorem seqLoop_rising {xs : List Node} (h : ∀ x ∈ xs, Raises x) (res : Option Node)
    (frst : Node) (name : Symbol) : Rising (seqLoop res frst name xs) := by
  induction xs with
  | nil => simpa using Rising.pure _
  | cons x xs ih =>
    rw [seqLoop_cons]
    refine .bind (ih fun y hy => h y (by simp [hy])) fun prev => ?_
    exact .ite (.pure _) (.bind (.ite (.pure _) .genName) fun _ => (h x (by simp) _ _).map)

theorem convertSeq_rising {xs : List Node} (h : ∀ x ∈ xs, Raises x) (res : Option Node)
    (name : Symbol) : Rising (convertSeq res xs name) := by
  cases xs with
  | nil =>
    rw [convertSeq]
    exact .pure _
  | cons x xs =>
    rw [convertSeq_cons]
    exact seqLoop_rising h _ _ _

theorem Raises.set {v : Node} (h : Raises v) (res : Option Node) (x name : Symbol) :
    Rising (convertSet res x v name) := by
  rw [convertSet_eq]
  refine .ite (.pure _) ?_
  cases v with
  | lambda args body => exact .bind h.func fun _ => .pure _
  | _ => exact .bind .genName fun _ => .bind .genName fun _ => .bind (h _ _) fun _ => .pure _

theorem convertDefines_rising {xs : List Node} (h : ∀ y v, .define y v ∈ xs → Raises v)
    (rest : Option Node) : Rising (convertDefines rest xs) := by
  induction xs with
  | nil => simpa [convertDefines_nil] using Rising.pure _
  | cons x xs ih =>
    have next := ih fun y v hv => h y v (by simp [hv])
    cases x with
    | define y v =>
      rw [convertDefines_cons]
      exact .bind next fun _ => .bind .genName fun _ => ((h y v (by simp)).set _ _ _).map
    | _ =>
      rw [convertDefines.eq_def]
      exact .bind next fun _ => .pure _

theorem convertBody_rising {body : List Node} (h : ∀ x ∈ body, Raises x)
    (values : ∀ y v, .define y v ∈ body → Raises v) (name : Symbol) :
    Rising (convertBody body name) := by
  rw [convertBody_eq]
  refine .ite (.violation _) (.bind (convertSeq_rising ?_ _ _) fun _ =>
    .bind (convertDefines_rising ?_ _) fun _ => .pure _)
  · exact fun x hx => h x (List.mem_of_mem_filter hx)
  · exact fun y v hv => values y v (List.mem_of_mem_filter hv)

theorem convertFunc_rising {body : List Node} (h : ∀ x ∈ body, Raises x)
    (values : ∀ y v, .define y v ∈ body → Raises v) (args : Formals) :
    Rising (convertFunc args body) := by
  rw [convertFunc_eq]
  exact .bind .genName fun _ => .bind (convertBody_rising h values _) fun _ => .pure _

theorem convert_rising (n : Node) : Raises n := by
  induction n using bodyInduct with
  | simple n h =>
    intro res name
    rw [convert_selfEval _ _ h]
    exact .pure _
  | lambda args body ih values =>
    intro res name
    rw [convert_lambda]
    exact .bind (convertFunc_rising ih values args) fun _ => .pure _
  | ite p a b hp ha hb =>
    intro res name
    rw [convert_ite]
    refine .bind (.ite (.pure _) Rising.genName.map) fun _ => .bind .genName fun _ => ?_
    exact .bind (ha _ _) fun _ => .bind (hb _ _) fun _ => .ite (.pure _) (hp _ _)
  | set x v hv =>
    intro res name
    rw [convert_set]
    exact hv.set _ _ _
  | define x v =>
    intro res name
    rw [convert.eq_def, if_neg (by simp [selfEval])]
    exact .violation _
  | begin forms ih =>
    intro res name
    rw [convert_begin]
    exact .bind (convertSeq_rising ih _ _) fun _ => .pure _
  | extend names =>
    intro res name
    rw [convert.eq_def, if_neg (by simp [selfEval])]
    exact .violation _
  | app f args h hf ih =>
    intro res name
    rw [convert_app _ _ h]
    exact .bind (convertArgs_rising ih) fun _ => .bind hf.arg fun _ =>
      .bind (glueArgs_rising ih _ _) fun _ => hf.glue _ _

end rising

end LGears.Cps
