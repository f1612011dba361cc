import LGears.CpsFacts

/- The symbols of a converted term are those of the source, the generated ones, and `void`. -/
namespace LGears.Cps
open GenName PrimitivesInfo StateExcept

@[simp] theorem over_extend {S : Symbol → Prop} {names : List Symbol} :
    (Node.extend names).Over S ↔ ∀ y ∈ names, S y := by
  simp [Node.Over, Node.syms]

/-- When S holds of the symbols the computation generates, P holds of its result. -/
def Names {α : Type} (S : Symbol → Prop) (c : Conv α) (P : α → Prop) : Prop :=
  ∀ m a m', Returns c m a m' → (∀ i, m ≤ i → i < m' → S (varName i)) → P a

/-- The conversion of the node adds no symbols but generated ones and `void`. -/
def NamesOf (S : Symbol → Prop) (n : Node) : Prop :=
  n.Over S → ∀ res name, (∀ r ∈ res, r.Over S) → S name →
    Names S (convert res n name) fun t => t.Over S

section names
variable {α β : Type} {S : Symbol → Prop} {P : α → Prop} {Q : β → Prop}

theorem Names.pure {a : α} (h : P a) : Names S (pure a) P := by
  intro m b m' ran _
  rw [returns_pure] at ran
  exact ran.1 ▸ h

theorem Names.bind {c : Conv α} {f : α → Conv β} (rising : Rising c)
    (next : ∀ a, Rising (f a)) (hc : Names S c P) (hf : ∀ a, P a → Names S (f a) Q) :
    Names S (c >>= f) Q := by
  intro m b m' ran gen
  rw [returns_bind] at ran
  obtain ⟨a, k, first, second⟩ := ran
  have le := rising _ _ _ first
  have le' := next a _ _ _ second
  have ha := hc _ _ _ first fun i hi hk => gen i hi (by omega)
  exact hf a ha _ _ _ second fun i hi hk => gen i (by omega) hk

theorem Names.map {c : Conv α} {f : α → β} (hc : Names S c P) (hf : ∀ a, P a → Q (f a)) :
    Names S (f <$> c) Q := by
  intro m b m' ran gen
  rw [returns_map] at ran
  obtain ⟨a, first, rfl⟩ := ran
  exact hf a (hc _ _ _ first gen)

theorem Names.genName : Names S genName S := by
  intro m x m' ran gen
  rw [returns_genName] at ran
  obtain ⟨rfl, rfl⟩ := ran
  exact gen m le_rfl (by omega)

theorem Names.violation (v : Violation) : Names S (violation v) P :=
  fun _ _ _ ran => absurd ran returns_violation

theorem Names.ite {p : Prop} [Decidable p] {c d : Conv α} (hc : p → Names S c P)
    (hd : ¬ p → Names S d P) : Names S (if p then c else d) P := by
  split
  · exact hc ‹_›
  · exact hd ‹_›

theorem over_splice {xs : List Node} :
    (∀ x ∈ spliceBegin xs, x.Over S) ↔ ∀ x ∈ xs, x.Over S := by
  have one (x : Node) : (∀ y ∈ spliceBegin [x], y.Over S) ↔ x.Over S := by
    induction x with
    | begin forms ih =>
      have same : spliceBegin [Node.begin forms] = spliceBegin forms := by
        simp [spliceBegin, spliceNode]
      rw [same, over_begin]
      clear same
      induction forms with
      | nil => simp [spliceBegin]
      | cons y ys next =>
        rw [spliceBegin_cons]
        simp only [List.mem_append, List.mem_cons, or_imp, forall_and, forall_eq, ih y (by simp),
          next fun z hz => ih z (by simp [hz])]
    | _ => simp [spliceBegin, spliceNode]
  induction xs with
  | nil => simp [spliceBegin]
  | cons x xs ih =>
    rw [spliceBegin_cons]
    simp only [List.mem_append, List.mem_cons, or_imp, forall_and, forall_eq, one, ih]

theorem over_deliver {res : Option Node} {name : Symbol} {node : Node}
    (hres : ∀ r ∈ res, r.Over S) (hname : S name) (hnode : node.Over S) :
    (deliver res name node).Over S := by
  cases res with
  | none => simpa [deliver, hname] using hnode
  | some r => simpa [deliver, hname, Formals.names, hnode] using hres r rfl

theorem over_joinExpr {res : Option Node} {name lname : Symbol} {condition : Node}
    (hres : ∀ r ∈ res, r.Over S) (hname : S name) (hl : S lname) (hc : condition.Over S) :
    (joinExpr res name lname condition).Over S := by
  cases res with
  | none => simpa [joinExpr] using hc
  | some r => simpa [joinExpr, hname, hl, Formals.names, hc] using hres r rfl

theorem over_setBody {res : Option Node} {x name : Symbol} {val : Node}
    (void : S "void") (hres : ∀ r ∈ res, r.Over S) (hx : S x) (hname : S name)
    (hval : val.Over S) : ∀ y ∈ setBody x res name val, y.Over S := by
  cases res with
  | none => simp [setBody, hx, hval, void, hname]
  | some r =>
    have : ∀ y ∈ spliceBegin [r], y.Over S := over_splice.mpr (by simpa using hres r rfl)
    simpa [setBody, hx, hval] using this

theorem over_callExpr {res : Option Node} {name : Symbol} {func : Node} {args : List Node}
    (hres : ∀ r ∈ res, r.Over S) (hname : S name) (hf : func.Over S)
    (hargs : ∀ x ∈ args, x.Over S) : (callExpr (control res name) func args).Over S := by
  have ctl : (control res name).Over S := by
    cases res with
    | none => simpa [control] using hname
    | some r =>
      have : ∀ y ∈ spliceBegin [r], y.Over S := over_splice.mpr (by simpa using hres r rfl)
      simpa [control, hname, Formals.names] using this
  unfold callExpr
  split
  · simp only [over_app, List.mem_singleton, forall_eq]
    exact ⟨ctl, hf, hargs⟩
  · simp only [over_app, List.mem_cons, forall_eq_or_imp]
    exact ⟨hf, ctl, hargs⟩

theorem convertFunc_raises {args : Formals} {body : List Node} {m m' : Nat} {t : Node}
    (ran : Returns (convertFunc args body) m t m') : m < m' := by
  rw [convertFunc_eq] at ran
  simp only [returns_bind, returns_genName, returns_pure] at ran
  obtain ⟨_, _, ⟨_, rfl⟩, _, _, inner, _, rfl⟩ := ran
  exact convertBody_rising (fun x _ => convert_rising x) (fun _ v _ => convert_rising v) _ _ _ _ inner

theorem NamesOf.func {args : Formals} {body : List Node} (h : NamesOf S (.lambda args body))
    (node : (Node.lambda args body).Over S) :
    Names S (convertFunc args body) fun t => t.Over S := by
  intro m t m' ran gen
  have name := gen m le_rfl (convertFunc_raises ran)
  have := h node none (varName m) (by simp) name m (deliver none (varName m) t) m' (by
    rw [convert_lambda]
    simpa using ⟨t, ran, rfl⟩) gen
  simpa [deliver, name] using this

/-- What stands for an operand in a call; a complex one is passed through a variable. -/
def ArgOver (S : Symbol → Prop) (x larg : Node) : Prop :=
  larg.Over S ∧ ((selfEval x || inlinable x) = false → S (symbolOf larg))

theorem argsOver {xs largs : List Node} (h : List.Forall₂ (ArgOver S) xs largs) :
    ∀ x ∈ largs, x.Over S := by
  induction h with
  | nil => simp
  | cons hx _ ih => simpa [hx.1] using ih

theorem NamesOf.arg {x : Node} (h : NamesOf S x) (node : x.Over S) :
    Names S (convertArg x) (ArgOver S x) := by
  rw [convertArg_eq]
  refine .ite (fun simple => .pure ⟨node, by simp [simple]⟩) fun _ => ?_
  cases x with
  | lambda args body =>
    intro m t m' ran gen
    exact ⟨h.func node _ _ _ ran gen, by simp [inlinable]⟩
  | _ => exact Names.genName.map fun y hy => ⟨by simpa using hy, fun _ => hy⟩

theorem NamesOf.glue {x : Node} (h : NamesOf S x) (node : x.Over S) {prev larg : Node}
    (hprev : prev.Over S) (hlarg : ArgOver S x larg) :
    Names S (glueArg prev x larg) fun t => t.Over S := by
  rw [glueArg_eq]
  refine .ite (fun _ => .pure hprev) fun complex => ?_
  exact h node (some prev) _ (by simpa using hprev) (hlarg.2 (by simpa using complex))

theorem convertArgs_names {xs : List Node} (h : ∀ x ∈ xs, NamesOf S x)
    (node : ∀ x ∈ xs, x.Over S) : Names S (convertArgs xs) (List.Forall₂ (ArgOver S) xs) := by
  induction xs with
  | nil =>
    rw [convertArgs_nil]
    exact .pure .nil
  | cons x xs ih =>
    rw [convertArgs_cons]
    have rest := ih (fun y hy => h y (by simp [hy])) (fun y hy => node y (by simp [hy]))
    refine .bind (convertArgs_rising fun y _ => convert_rising y)
      (fun _ => .bind (convert_rising x).arg fun _ => .pure _) rest fun largs hl => ?_
    refine .bind (convert_rising x).arg (fun _ => .pure _) ((h x (by simp)).arg (node x (by simp)))
      fun larg hx => ?_
    exact .pure (.cons hx hl)

theorem glueArgs_names {xs largs : List Node} (h : ∀ x ∈ xs, NamesOf S x)
    (node : ∀ x ∈ xs, x.Over S) {expr : Node} (hexpr : expr.Over S)
    (named : List.Forall₂ (ArgOver S) xs largs) :
    Names S (glueArgs expr xs largs) fun t => t.Over S := by
  induction named with
  | nil =>
    rw [glueArgs_nil]
    exact .pure hexpr
  | @cons x larg xs largs hx _ ih =>
    rw [glueArgs_cons]
    have rest := ih (fun y hy => h y (by simp [hy])) (fun y hy => node y (by simp [hy]))
    refine .bind (glueArgs_rising (fun y _ => convert_rising y) _ _)
      (fun _ => (convert_rising x).glue _ _) rest fun prev hprev => ?_
    exact (h x (by simp)).glue (node x (by simp)) hprev hx

theorem seqLoop_names {xs : List Node} (h : ∀ x ∈ xs, NamesOf S x) (node : ∀ x ∈ xs, x.Over S)
    {res : Option Node} (frst : Node) {name : Symbol} (hres : ∀ r ∈ res, r.Over S)
    (hname : S name) : Names S (seqLoop res frst name xs) fun o => ∀ t ∈ o, t.Over S := by
  induction xs with
  | nil =>
    rw [seqLoop_nil]
    exact .pure hres
  | cons x xs ih =>
    rw [seqLoop_cons]
    have here := node x (by simp)
    have rest := ih (fun y hy => h y (by simp [hy])) (fun y hy => node y (by simp [hy]))
    have step (tail : Bool) : Rising (seqName tail name) := .ite (.pure _) .genName
    refine .bind (seqLoop_rising (fun y _ => convert_rising y) _ _ _) (fun _ => .ite (.pure _)
      (.bind (step _) fun _ => (convert_rising x _ _).map)) rest fun prev hprev => ?_
    refine .ite (fun _ => .pure ?_) fun _ => ?_
    · split
      · intro t ht
        cases ht
        simp [hname, here]
      · exact hprev
    · refine .bind (step _) (fun _ => (convert_rising x _ _).map)
        (.ite (fun _ => .pure hname) fun _ => .genName) fun value hvalue => ?_
      refine ((h x (by simp)) here prev value hprev hvalue).map fun t ht => ?_
      intro u hu
      cases hu
      exact ht

theorem convertSet_names {v : Node} (h : NamesOf S v) (node : v.Over S) (void : S "void")
    {res : Option Node} {x name : Symbol} (hres : ∀ r ∈ res, r.Over S) (hx : S x)
    (hname : S name) : Names S (convertSet res x v name) fun t => t.Over S := by
  rw [convertSet_eq]
  refine .ite (fun _ => .pure ?_) fun _ => ?_
  · rw [over_begin]
    exact over_setBody void hres hx hname node
  · have complex : Names S (do
        let setter ← genName
        let nv ← genName
        let term ← convert none v setter
        pure (Node.app (.lambda ⟨[setter], none⟩ [term])
          [.lambda ⟨[nv], none⟩ (setBody x res name (.sym nv))])) fun t => t.Over S := by
      have last (setter nv : Symbol) : Rising (do
          let term ← convert none v setter
          pure (Node.app (.lambda ⟨[setter], none⟩ [term])
            [.lambda ⟨[nv], none⟩ (setBody x res name (.sym nv))])) :=
        .bind (convert_rising v _ _) fun _ => .pure _
      refine .bind .genName (fun _ => .bind .genName fun _ => last _ _) .genName
        fun setter hsetter => ?_
      refine .bind .genName (fun _ => last _ _) .genName fun nv hnv => ?_
      refine .bind (convert_rising v _ _) (fun _ => .pure _) (h node none setter (by simp) hsetter)
        fun term hterm => .pure ?_
      have body : ∀ y ∈ setBody x res name (.sym nv), y.Over S :=
        over_setBody void hres hx hname (by simpa using hnv)
      simpa [Formals.names, hsetter, hnv, hterm] using body
    cases v with
    | lambda args body =>
      refine .bind (convert_rising _).func (fun _ => .pure _) (h.func node) fun func hfunc => .pure ?_
      rw [over_begin]
      exact over_setBody void hres hx hname hfunc
    | _ => exact complex

theorem convertDefines_names {xs : List Node} (h : ∀ y v, .define y v ∈ xs → NamesOf S v)
    (node : ∀ x ∈ xs, x.Over S) (void : S "void") {rest : Option Node}
    (hrest : ∀ r ∈ rest, r.Over S) :
    Names S (convertDefines rest xs) fun o => ∀ t ∈ o, t.Over S := by
  induction xs with
  | nil =>
    rw [convertDefines_nil]
    exact .pure hrest
  | cons x xs ih =>
    have later := ih (fun y v hv => h y v (by simp [hv])) (fun y hy => node y (by simp [hy]))
    have rising : Rising (convertDefines rest xs) :=
      convertDefines_rising (fun _ v _ => convert_rising v) rest
    have here := node x (by simp)
    cases x with
    | define y v =>
      rw [over_define] at here
      rw [convertDefines_cons]
      refine .bind rising (fun _ => .bind .genName fun _ => ((convert_rising v).set _ _ _).map) later
        fun prev hprev => ?_
      refine .bind .genName (fun _ => ((convert_rising v).set _ _ _).map) .genName
        fun name hname => ?_
      refine (convertSet_names (h y v (by simp)) here.2 void hprev here.1 hname).map fun t ht => ?_
      intro u hu
      cases hu
      exact ht
    | _ =>
      rw [convertDefines.eq_def]
      exact .bind rising (fun _ => .pure _) later fun prev hprev => .pure hprev

theorem convertBody_names {body : List Node} (h : ∀ x ∈ body, NamesOf S x)
    (values : ∀ y v, .define y v ∈ body → NamesOf S v) (node : ∀ x ∈ body, x.Over S)
    (void : S "void") {name : Symbol} (hname : S name) :
    Names S (convertBody body name) fun body' => ∀ x ∈ body', x.Over S := by
  rw [convertBody_eq]
  refine .ite (fun _ => .violation _) fun _ => ?_
  have exprs (x : Node) (hx : x ∈ expressionsOf body) : x ∈ body := List.mem_of_mem_filter hx
  have defs (x : Node) (hx : x ∈ definesOf body) : x ∈ body := List.mem_of_mem_filter hx
  have rising (rest : Option Node) : Rising (convertDefines rest (definesOf body)) :=
    convertDefines_rising (fun _ v _ => convert_rising v) rest
  have seq : Names S (convertSeq none (expressionsOf body) name) fun o => ∀ t ∈ o, t.Over S := by
    cases same : expressionsOf body with
    | nil =>
      rw [convertSeq]
      exact .pure (by simp)
    | cons x xs =>
      rw [convertSeq_cons]
      rw [same] at exprs
      exact seqLoop_names (fun y hy => h y (exprs y hy)) (fun y hy => node y (exprs y hy)) _
        (by simp) hname
  refine .bind (convertSeq_rising (fun x _ => convert_rising x) _ _)
    (fun _ => .bind (rising _) fun _ => .pure _) seq fun rest hrest => ?_
  refine .bind (rising _) (fun _ => .pure _) (convertDefines_names
    (fun y v hv => values y v (defs _ hv)) (fun y hy => node y (defs y hy)) void hrest)
    fun term hterm => .pure ?_
  intro x hx
  rcases List.mem_append.mp hx with hx | hx
  · unfold extendForm at hx
    split at hx
    · simp at hx
    · simp only [List.mem_singleton] at hx
      subst hx
      rw [over_extend]
      intro y hy
      obtain ⟨d, hd, rfl⟩ := List.mem_map.mp hy
      have isDef : isDefine d = true := (List.mem_filter.mp hd).2
      cases d with
      | define y v => exact ((over_define.mp (node _ (defs _ hd))).1 : S y)
      | _ => simp [isDefine] at isDef
  · exact hterm x (by simpa using hx)

theorem convertFunc_names {args : Formals} {body : List Node} (h : ∀ x ∈ body, NamesOf S x)
    (values : ∀ y v, .define y v ∈ body → NamesOf S v)
    (node : (Node.lambda args body).Over S) (void : S "void") :
    Names S (convertFunc args body) fun t => t.Over S := by
  rw [convertFunc_eq]
  rw [over_lambda] at node
  have rising (name : Symbol) : Rising (convertBody body name) :=
    convertBody_rising (fun x _ => convert_rising x) (fun _ v _ => convert_rising v) name
  refine .bind .genName (fun _ => .bind (rising _) fun _ => .pure _) .genName fun name hname => ?_
  refine .bind (rising _) (fun _ => .pure _) (convertBody_names h values node.2 void hname)
    fun body' hbody => .pure ?_
  rw [over_lambda]
  refine ⟨fun y hy => ?_, over_splice.mpr hbody⟩
  simp only [Formals.names, List.cons_append, List.mem_cons] at hy
  rcases hy with rfl | hy
  · exact hname
  · exact node.1 y hy

theorem convert_names (void : S "void") (n : Node) : NamesOf S n := by
  induction n using bodyInduct with
  | simple n h =>
    intro node res name hres hname
    rw [convert_selfEval _ _ h]
    exact .pure (over_deliver hres hname node)
  | lambda args body ih values =>
    intro node res name hres hname
    rw [convert_lambda]
    exact .bind (convert_rising (.lambda args body)).func (fun _ => .pure _)
      (convertFunc_names ih values node void) fun func hf => .pure (over_deliver hres hname hf)
  | ite p a b hp ha hb =>
    intro node res name hres hname
    rw [over_ite] at node
    rw [convert_ite]
    have pred : Names S (predName p) fun t => t.Over S ∧ (selfEval p = false → S (symbolOf t)) := by
      refine .ite (fun simple => .pure ⟨node.1, by simp [simple]⟩) fun _ => ?_
      exact Names.genName.map fun y hy => ⟨by simpa using hy, fun _ => hy⟩
    have last (e : Node) (predname : Symbol) : Rising
        (if selfEval p then pure e else convert (some e) p predname : Conv Node) :=
      .ite (.pure _) (convert_rising p _ _)
    have third (lname : Symbol) (predname a' : Node) : Rising (do
        let alt' ← convert none b (if res.isNone then name else lname)
        let expr := joinExpr res name lname (.ite predname a' alt')
        if selfEval p then pure expr else convert (some expr) p (symbolOf predname)) :=
      .bind (convert_rising b _ _) fun _ => last _ _
    refine .bind (.ite (.pure _) Rising.genName.map) (fun _ => .bind .genName fun _ =>
      .bind (convert_rising a _ _) fun _ => third _ _ _) pred fun predname hpred => ?_
    refine .bind .genName (fun _ => .bind (convert_rising a _ _) fun _ => third _ _ _) .genName
      fun lname hl => ?_
    have escape : S (if res.isNone then name else lname) := by
      split
      · exact hname
      · exact hl
    refine .bind (convert_rising a _ _) (fun _ => third _ _ _)
      (ha node.2.1 none _ (by simp) escape) fun a' ha' => ?_
    refine .bind (convert_rising b _ _) (fun _ => last _ _)
      (hb node.2.2 none _ (by simp) escape) fun b' hb' => ?_
    have expr := over_joinExpr hres hname hl (over_ite.mpr ⟨hpred.1, ha', hb'⟩)
    refine .ite (fun _ => .pure expr) fun complex => ?_
    exact hp node.1 (some _) _ (by simpa using expr) (hpred.2 (by simpa using complex))
  | set x v hv =>
    intro node res name hres hname
    rw [over_set] at node
    rw [convert_set]
    exact convertSet_names hv node.2 void hres node.1 hname
  | define x v =>
    intro _ res name _ _
    rw [convert.eq_def, if_neg (by simp [selfEval])]
    exact .violation _
  | begin forms ih =>
    intro node res name hres hname
    rw [over_begin] at node
    rw [convert_begin]
    have seq : Names S (convertSeq res forms name) fun o => ∀ t ∈ o, t.Over S := by
      cases forms with
      | nil =>
        rw [convertSeq]
        exact .pure (by simp)
      | cons x xs =>
        rw [convertSeq_cons]
        exact seqLoop_names ih node _ hres hname
    refine .bind (convertSeq_rising (fun x _ => convert_rising x) _ _) (fun _ => .pure _) seq
      fun o ho => .pure ?_
    cases o with
    | none => simp
    | some t => exact ho t rfl
  | extend names =>
    intro _ res name _ _
    rw [convert.eq_def, if_neg (by simp [selfEval])]
    exact .violation _
  | app f args complex hf ih =>
    intro node res name hres hname
    rw [over_app] at node
    rw [convert_app _ _ complex]
    have outer (inner lf : Node) : Rising (glueArg inner f lf) := (convert_rising f).glue _ _
    have glue (expr : Node) (largs : List Node) (lf : Node) : Rising (do
        let inner ← glueArgs expr args largs
        glueArg inner f lf) :=
      .bind (glueArgs_rising (fun x _ => convert_rising x) _ _) fun _ => outer _ _
    refine .bind (convertArgs_rising fun x _ => convert_rising x)
      (fun _ => .bind (convert_rising f).arg fun _ => glue _ _ _) (convertArgs_names ih node.2)
      fun largs hl => ?_
    refine .bind (convert_rising f).arg (fun _ => glue _ _ _) (hf.arg node.1) fun lf hlf => ?_
    refine .bind (glueArgs_rising (fun x _ => convert_rising x) _ _) (fun _ => outer _ _)
      (glueArgs_names ih node.2 (over_callExpr hres hname hlf.1 (argsOver hl)) hl) fun inner hi => ?_
    exact hf.glue node.1 hi hlf

end names

end LGears.Cps
