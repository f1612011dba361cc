import LGears.Resolution

/- The optimizer with its heap of binding records computes the pass on programs: each record
   holds what the pass carries for the variable, whenever the variable is in scope. -/
namespace LGears.OptimizerRefines
open Analyze CoreProgram Inlining Resolution SourceOptimizer StateExcept

/- Immediately applied lambdas have as many parameters as arguments, and no assigned value has
   a parameter list with a dot. -/
mutual
def regular : Node → Bool
  | .const _ | .quote _ | .sym _ | .extend _ => true
  | .lambda _ body => regularAll body
  | .ite pred conseq alt => regular pred && regular conseq && regular alt
  | .set _ value => mappable value && regular value
  | .define _ value => regular value
  | .begin forms => regularAll forms
  | .app (.lambda args body) vals =>
    args.rest.isNone && args.fixed.length == vals.length && regularAll body && regularAll vals
  | .app f args => regular f && regularAll args
def regularAll : List Node → Bool
  | [] => true
  | x :: xs => regular x && regularAll xs
end

/- Calls of anything but a lambda expression. -/
section calls
attribute [local simp] optimize opt regular

theorem optimize_app {f : Analyzed} {args : List Analyzed}
    (plain : ∀ bs xs body d, f ≠ .function bs xs body d) :
    optimize (.app f args) = (do
      let f' ← optimize f
      let args' ← optimizeAll args
      pure (.app f' args')) := by
  simp

theorem opt_app {U : List Use} {σ : Subst} {f : Node} {args : List Node}
    (plain : ∀ xs body, f ≠ .lambda xs body) :
    opt U σ (.app f args) = .app (opt U σ f) (optAll U σ args) := by
  simp

theorem regular_app {f : Node} {args : List Node} (plain : ∀ xs body, f ≠ .lambda xs body) :
    regular (.app f args) = (regular f && regularAll args) := by
  simp

end calls

section refines
variable {R : Nat → Symbol → Prop} {U : List Use}

/-- The two environments have the same variables in scope, and what a variable becomes is the
    value of its record. -/
structure Agree (E : Frame) (σ : Subst) (h : Heap) : Prop where
  names : σ.map Prod.fst = E.map Prod.fst
  value : ∀ x b, E.lookup x = some b → σ.lookup x = some (h.get b).value

/-- What optimization of a node with the binders `new` starts from. -/
structure Pre (R : Nat → Symbol → Prop) (U : List Use) (E : Frame) (σ : Subst) (h : Heap)
    (new : List Symbol) : Prop where
  name : ∀ i x y, R i x → R i y → x = y
  single : ∀ i j x, R i x → R j x → i = j
  facts : Facts R U h
  agree : Agree E σ h
  inScope : ∀ p ∈ E, R p.2 p.1
  stays : ∀ x b, E.lookup x = some b → assigned U x = true → (h.get b).value = .sym x
  own : ∀ i, ∀ x ∈ new, R i x → (h.get i).value = .sym x
  nodup : new.Nodup
  fresh : ∀ x ∈ new, x ∉ E.map Prod.fst

/-- Only values of records of the names in `new` change. -/
structure Differs (R : Nat → Symbol → Prop) (new : List Symbol) (h h' : Heap) : Prop where
  count : ∀ i, (h'.get i).refCount = (h.get i).refCount
  mutate : ∀ i, (h'.get i).mutate = (h.get i).mutate
  value : ∀ i x, R i x → x ∉ new → (h'.get i).value = (h.get i).value

theorem Differs.refl {new : List Symbol} {h : Heap} : Differs R new h h :=
  ⟨fun _ => rfl, fun _ => rfl, fun _ _ _ _ => rfl⟩

theorem Differs.trans {new new' : List Symbol} {h h' k : Heap} (first : Differs R new h h')
    (second : Differs R new' h' k) : Differs R (new ++ new') h k where
  count i := (second.count i).trans (first.count i)
  mutate i := (second.mutate i).trans (first.mutate i)
  value i x known out := by
    rw [List.mem_append, not_or] at out
    exact (second.value i x known out.2).trans (first.value i x known out.1)

theorem Differs.widen {new new' : List Symbol} {h h' : Heap} (differs : Differs R new h h')
    (sub : ∀ x ∈ new, x ∈ new') : Differs R new' h h' :=
  { differs with value := fun i x known out => differs.value i x known fun mem => out (sub x mem) }

theorem facts_differ {new : List Symbol} {h h' : Heap} (facts : Facts R U h)
    (differs : Differs R new h h') : Facts R U h' where
  count i x known := by rw [differs.count]; exact facts.count i x known
  mutate i x known := by rw [differs.mutate]; exact facts.mutate i x known

variable {E : Frame} {σ : Subst} {h h' : Heap} {new rest : List Symbol}

theorem Agree.differs (agree : Agree E σ h) (inScope : ∀ p ∈ E, R p.2 p.1)
    (fresh : ∀ x ∈ new, x ∉ E.map Prod.fst) (differs : Differs R new h h') : Agree E σ h' where
  names := agree.names
  value x b found := by
    have mem := mem_of_lookup found
    rw [differs.value b x (inScope _ mem) fun new => fresh x new (List.mem_map.mpr ⟨_, mem, rfl⟩)]
    exact agree.value x b found

theorem lookup_none_iff {β γ : Type} {E : List (Symbol × β)} {F : List (Symbol × γ)}
    (names : E.map Prod.fst = F.map Prod.fst) {x : Symbol} :
    E.lookup x = none ↔ F.lookup x = none := by
  rw [← Option.not_isSome_iff_eq_none, ← Option.not_isSome_iff_eq_none, lookup_isSome,
    lookup_isSome, names]

theorem Agree.none_iff (agree : Agree E σ h) {x : Symbol} :
    E.lookup x = none ↔ σ.lookup x = none := lookup_none_iff agree.names.symm

theorem Agree.unseen (agree : Agree E σ h) {x : Symbol} (out : E.lookup x = none) :
    x ∉ seenIn σ := by
  rw [seenIn, agree.names, ← lookup_isSome, out]
  simp

theorem Agree.seen (agree : Agree E σ h) {x : Symbol} {b : Nat} (found : E.lookup x = some b) :
    x ∈ seenIn σ := by
  rw [seenIn, agree.names, ← lookup_isSome, found]
  rfl

theorem Pre.perm (pre : Pre R U E σ h new) (perm : new.Perm rest) : Pre R U E σ h rest :=
  { pre with
    own := fun i x mem => pre.own i x (perm.mem_iff.mpr mem)
    nodup := perm.nodup_iff.mp pre.nodup
    fresh := fun x mem => pre.fresh x (perm.mem_iff.mpr mem) }

theorem Pre.first (pre : Pre R U E σ h (new ++ rest)) : Pre R U E σ h new :=
  { pre with
    own := fun i x mem => pre.own i x (by simp [mem])
    nodup := (List.nodup_append.mp pre.nodup).1
    fresh := fun x mem => pre.fresh x (by simp [mem]) }

theorem Pre.next (pre : Pre R U E σ h (new ++ rest)) (differs : Differs R new h h') :
    Pre R U E σ h' rest :=
  { pre with
    facts := facts_differ pre.facts differs
    agree := pre.agree.differs pre.inScope (fun x mem => pre.fresh x (by simp [mem])) differs
    stays := fun x b found assigns => by
      have mem := mem_of_lookup found
      rw [differs.value b x (pre.inScope _ mem) fun new => pre.fresh x (by simp [new])
        (List.mem_map.mpr ⟨_, mem, rfl⟩)]
      exact pre.stays x b found assigns
    own := fun i x mem known => by
      rw [differs.value i x known fun before =>
        (List.nodup_append.mp pre.nodup).2.2 x before x mem rfl]
      exact pre.own i x (by simp [mem]) known
    nodup := (List.nodup_append.mp pre.nodup).2.1
    fresh := fun x mem => pre.fresh x (by simp [mem]) }

/-- What optimization returns and leaves. -/
structure Optimized (R : Nat → Symbol → Prop) (new : List Symbol) (h : Heap) {α : Type} (want : α)
    (out : α) (h' : Heap) : Prop where
  out : out = want
  differs : Differs R new h h'

/-- Every optimization of the resolved node does what the pass does, or the node is irregular. -/
def Refines (R : Nat → Symbol → Prop) (U : List Use) (n : Node) : Prop :=
  ∀ E σ h a, Resolves R E n a → (∀ u ∈ uses (E.map Prod.fst) n, u ∈ U) →
    Pre R U E σ h (binders n) →
    Ends (optimize a) h (Optimized R (binders n) h (opt U σ n)) fun _ => ¬ regular n = true

theorem ends_optimize_bind {n : Node} {a : Analyzed} {β : Type} {f : Node → Optimization β}
    {Q : β → Heap → Prop} {F : Failure → Prop} (ih : Refines R U n) (resolves : Resolves R E n a)
    (sub : ∀ u ∈ uses (E.map Prod.fst) n, u ∈ U)
    (pre : Pre R U E σ h (binders n ++ rest)) (fail : ¬ regular n = true → ∀ e, F e)
    (next : ∀ t, Differs R (binders n) h t → Pre R U E σ t rest → Ends (f (opt U σ n)) t Q F) :
    Ends (optimize a >>= f) h Q F := by
  rw [ends_bind]
  refine (ih E σ h a resolves sub pre.first).mono ?_ fun e irregular => fail irregular e
  intro out t done
  rw [done.out]
  exact next t done.differs (pre.next done.differs)

theorem optimizeAll_ends {xs : List Node} (each : ∀ x ∈ xs, Refines R U x)
    (place : placedAll xs = true) {as : List Analyzed} (resolves : ResolvesAll R E xs as)
    (sub : ∀ u ∈ usesAll (E.map Prod.fst) xs, u ∈ U) (pre : Pre R U E σ h (bindersAll xs)) :
    Ends (optimizeAll as) h (Optimized R (bindersAll xs) h (optAll U σ xs))
      fun _ => ¬ regularAll xs = true := by
  induction xs generalizing as h with
  | nil =>
    cases resolves
    rw [optimizeAll, ends_pure]
    exact ⟨by rw [optAll], .refl⟩
  | cons x xs ih =>
    obtain _ | ⟨first, more⟩ := resolves
    simp only [placedAll, Bool.and_eq_true] at place
    rw [placed_enterBind place.1 first] at more
    rw [usesAll, placed_enter place.1, List.forall_mem_append] at sub
    rw [bindersAll] at pre ⊢
    rw [optimizeAll]
    refine ends_optimize_bind (each x (by simp)) first sub.1 pre (by simp +contextual [regularAll])
      fun t differs pre' => ?_
    rw [ends_bind]
    refine (ih (fun y hy => each y (by simp [hy])) place.2 more sub.2 pre').mono ?_
      (by simp +contextual [regularAll])
    intro outs u done
    rw [ends_pure]
    exact ⟨by rw [done.out, optAll], differs.trans done.differs⟩

theorem selfEval_resolved {v : Node} {a : Analyzed} (agree : Agree E σ h)
    (place : placed v = true) (resolves : Resolves R E v a) :
    selfEval a = selfEvalIn (seenIn σ) v := by
  cases resolves with
  | unbound out => simp [selfEval, selfEvalIn, agree.unseen out]
  | bound found => simp [selfEval, selfEvalIn, agree.seen found]
  | extend => simp [placed] at place
  | _ => rfl

theorem mutated_resolved {v : Node} {a : Analyzed} (agree : Agree E σ h) (facts : Facts R U h)
    (inScope : ∀ p ∈ E, R p.2 p.1) (resolves : Resolves R E v a) :
    mutated h a = assignedVar U (seenIn σ) v := by
  cases resolves with
  | unbound out => simp [mutated, assignedVar, agree.unseen out]
  | bound found =>
    simp [mutated, assignedVar, agree.seen found,
      facts.mutate _ _ (inScope _ (mem_of_lookup found))]
  | _ => rfl

theorem sideEffectsFree_resolved {v : Node} {a : Analyzed} (agree : Agree E σ h)
    (place : placed v = true) (resolves : Resolves R E v a) :
    sideEffectsFree a = effectFree (seenIn σ) v := by
  have simple := selfEval_resolved agree place resolves
  cases resolves with
  | app first second =>
    rw [sideEffectsFree]
    cases first with
    | unbound out => simp [effectFree, agree.unseen out]
    | bound found => simp [effectFree, agree.seen found, effectFreeHead]
    | const => rfl
    | quote => rfl
    | extend => rfl
    | _ => rfl
  | _ => exact simple

theorem mayInline_ends {bs : Frame} {x : Symbol} {b : Nat} {v : Node} {a : Analyzed}
    (found : bs.lookup x = some b) (known : R b x) (agree : Agree E σ h) (facts : Facts R U h)
    (inScope : ∀ p ∈ E, R p.2 p.1) (place : placed v = true) (resolves : Resolves R E v a)
    {F : Failure → Prop} :
    Ends (mayInline bs x a) h (fun r h' => r = inlines U (seenIn σ) x v ∧ h' = h) F := by
  rw [mayInline, findBinding, found]
  change _ = _ ∧ h = h
  rw [facts.mutate b x known, selfEval_resolved agree place resolves,
    mutated_resolved agree facts inScope resolves]
  exact ⟨rfl, rfl⟩

theorem existsInline_ends {bs : Frame} {names : List Symbol} {tail : Option Symbol}
    {vals : List Node} {as : List Analyzed}
    (params : ∀ x ∈ names, ∃ b, bs.lookup x = some b ∧ R b x) (agree : Agree E σ h)
    (facts : Facts R U h) (inScope : ∀ p ∈ E, R p.2 p.1) (place : placedAll vals = true)
    (resolves : ResolvesAll R E vals as) :
    Ends (existsInline bs names tail as) h (fun r h' => h' = h ∧
        r = (zipArgs names vals vals).any (Arg.inlined U (seenIn σ)))
      fun _ => ¬ (tail = none ∧ names.length = vals.length) := by
  induction names generalizing vals as with
  | nil =>
    cases resolves with
    | nil =>
      cases tail with
      | none =>
        rw [existsInline, ends_pure]
        simp [zipArgs]
      | some r =>
        rw [existsInline, ends_throw]
        simp
    | cons first more =>
      cases tail with
      | none =>
        rw [existsInline, ends_throw] <;> simp
      | some r =>
        rw [existsInline, ends_throw] <;> simp
  | cons x names ih =>
    cases resolves with
    | nil =>
      cases tail with
      | none =>
        rw [existsInline, ends_throw] <;> simp
      | some r =>
        rw [existsInline, ends_throw]
        simp
    | @cons _ v vals a as first more =>
      simp only [placedAll, Bool.and_eq_true] at place
      rw [placed_enterBind place.1 first] at more
      obtain ⟨b, found, known⟩ := params x (by simp)
      rw [existsInline, ends_bind]
      refine (mayInline_ends found known agree facts inScope place.1 first).post ?_
      rintro r _ ⟨rfl, rfl⟩
      rw [zipArgs, List.any_cons, ends_ite, Arg.inlined]
      refine ⟨fun yes => ?_, fun no => ?_⟩
      · rw [ends_pure]
        simp [yes]
      · rw [Bool.not_eq_true] at no
        refine (ih (fun y hy => params y (by simp [hy])) place.2 more).mono ?_ ?_
        · rintro r _ ⟨rfl, rfl⟩
          simp [no]
        · simp

theorem Agree.enter (agree : Agree E σ h) {y : Symbol} {b : Nat}
    (value : (h.get b).value = .sym y) : Agree ((y, b) :: E) ((y, .sym y) :: σ) h where
  names := by simp [agree.names]
  value x c found := by
    rw [List.lookup_cons] at found ⊢
    by_cases same : x = y
    · have : b = c := by simpa [same] using found
      simp [same, ← this, value]
    · simp only [beq_eq_false_iff_ne.mpr same] at found ⊢
      exact agree.value x c found

theorem Pre.enter {y : Symbol} {b : Nat} (pre : Pre R U E σ h (y :: new)) (known : R b y) :
    Pre R U ((y, b) :: E) ((y, .sym y) :: σ) h new :=
  { pre with
    agree := pre.agree.enter (pre.own b y (by simp) known)
    inScope := List.forall_mem_cons.mpr ⟨known, pre.inScope⟩
    stays := fun x c found assigns => by
      rw [List.lookup_cons] at found
      by_cases same : x = y
      · have : b = c := by simpa [same] using found
        rw [same, ← this]
        exact pre.own b y (by simp) known
      · simp only [beq_eq_false_iff_ne.mpr same] at found
        exact pre.stays x c found assigns
    own := fun i x mem => pre.own i x (by simp [mem])
    nodup := (List.nodup_cons.mp pre.nodup).2
    fresh := fun x mem => by
      have ne : x ≠ y := fun same => (List.nodup_cons.mp pre.nodup).1 (same ▸ mem)
      have old := pre.fresh x (by simp [mem])
      simp only [List.map_cons, List.mem_cons, not_or]
      exact ⟨ne, old⟩ }

theorem resolvesAll_isEmpty {xs : List Node} {as : List Analyzed}
    (resolves : ResolvesAll R E xs as) : as.isEmpty = xs.isEmpty := by
  cases resolves <;> rfl

theorem optBody_define {x : Symbol} {v : Node} {next : List Node} :
    optBody U σ (.define x v :: next) = if used U x = true then
        .define x (opt U ((x, .sym x) :: σ) v) :: optBody U ((x, .sym x) :: σ) next
      else optBody U ((x, .sym x) :: σ) next := by
  rw [optBody]

theorem optBody_expr {x : Node} {next : List Node} (place : placed x = true) :
    optBody U σ (x :: next) =
      if (!next.isEmpty && effectFree (seenIn σ) x) = true then optBody U σ next
      else opt U σ x :: optBody U σ next := by
  rw [optBody]
  rintro y v rfl
  simp [placed] at place

theorem optimizeBody_expr {a : Analyzed} {next : List Analyzed} {x : Node}
    (place : placed x = true) (resolves : Resolves R E x a) :
    optimizeBody (a :: next) = (do
      if !next.isEmpty && sideEffectsFree a then optimizeBody next
      else
        let node' ← optimize a
        let rest ← optimizeBody next
        pure (node' :: rest)) := by
  rw [optimizeBody]
  rintro y b v rfl
  cases resolves
  simp [placed] at place

theorem optimizeBody_ends {xs : List Node} (each : ∀ x ∈ xs, Refines R U (itemValue x))
    (place : placedBody xs = true) {as : List Analyzed} (resolves : ResolvesAll R E xs as)
    (sub : ∀ u ∈ usesAll (E.map Prod.fst) xs, u ∈ U) (pre : Pre R U E σ h (bindersAll xs)) :
    Ends (optimizeBody as) h (Optimized R (bindersAll xs) h (optBody U σ xs))
      fun _ => ¬ regularAll xs = true := by
  induction xs generalizing as E σ h with
  | nil =>
    cases resolves
    rw [optimizeBody, ends_pure]
    exact ⟨by rw [optBody], .refl⟩
  | cons x xs ih =>
    obtain _ | ⟨first, more⟩ := resolves
    rename_i a as
    rw [placedBody_cons, Bool.and_eq_true] at place
    rw [usesAll, List.forall_mem_append] at sub
    rw [bindersAll] at pre ⊢
    have ih' := fun {E σ h as} => @ih E σ h (fun y hy => each y (by simp [hy])) place.2 as
    have here := each x (by simp)
    rcases item_cases x with ⟨y, v, rfl⟩ | ⟨plain, _⟩
    · obtain ⟨⟩ := first
      rename_i b v' known inner
      rw [optimizeBody, optBody_define, ends_bind, ends_get, ends_ite]
      have count := pre.facts.count b y known
      have whole : Pre R U E σ h (y :: (binders v ++ bindersAll xs)) := pre
      have pre' := whole.enter known
      refine ⟨fun kept => ?_, fun dropped => ?_⟩
      · rw [if_pos (count.mp kept)]
        refine ends_optimize_bind here inner sub.1 pre'
          (by simp +contextual [regularAll, regular, itemValue]) fun t differs pre'' => ?_
        rw [ends_bind]
        refine (ih' more sub.2 pre'').mono ?_ (by simp +contextual [regularAll])
        intro outs u done
        rw [ends_pure]
        exact ⟨by rw [done.out]; rfl, (differs.trans done.differs).widen (by
          simp +contextual [binders, itemValue])⟩
      · rw [if_neg fun h => dropped (count.mpr h)]
        refine (ih' more sub.2 (pre'.next Differs.refl)).mono ?_ (by simp +contextual [regularAll])
        intro outs u done
        exact ⟨done.out, done.differs.widen (by simp +contextual)⟩
    · rw [plain] at place here
      rw [placed_enterBind place.1 first] at more
      rw [placed_enter place.1] at sub
      rw [optimizeBody_expr place.1 first, optBody_expr place.1,
        sideEffectsFree_resolved pre.agree place.1 first, resolvesAll_isEmpty more, ends_ite]
      refine ⟨fun dropped => ?_, fun kept => ?_⟩
      · rw [if_pos dropped]
        refine (ih' more sub.2 (pre.next Differs.refl)).mono ?_ (by simp +contextual [regularAll])
        intro outs u done
        exact ⟨done.out, done.differs.widen (by simp +contextual)⟩
      · rw [if_neg kept]
        refine ends_optimize_bind here first sub.1 pre (by simp +contextual [regularAll])
          fun t differs pre' => ?_
        rw [ends_bind]
        refine (ih' more sub.2 pre').mono ?_ (by simp +contextual [regularAll])
        intro outs u done
        rw [ends_pure]
        exact ⟨by rw [done.out], differs.trans done.differs⟩

theorem Differs.put {b : Nat} {x : Symbol} (name : ∀ i x y, R i x → R i y → x = y)
    (known : R b x) (value : Node) :
    Differs R [x] h (h.put b { h.get b with value := value }) where
  count i := by
    by_cases here : i = b <;> simp [Heap.put, here]
  mutate i := by
    by_cases here : i = b <;> simp [Heap.put, here]
  value i y other out := by
    have here : i ≠ b := by
      rintro rfl
      exact out (by simp [name i y x other known])
    simp [Heap.put, here]

/-- What the parameters of an immediately applied lambda have become. -/
structure Inlined (R : Nat → Symbol → Prop) (U : List Use) (σ : Subst) (as : List (Arg Node))
    (new : List Symbol) (h : Heap) (out : List Symbol × List Node) (h' : Heap) : Prop where
  rused : out.1 = (keptArgs U (seenIn σ) as).map Arg.name
  sused : out.2 = (keptArgs U (seenIn σ) as).map Arg.after
  differs : Differs R new h h'
  values : ∀ a ∈ as, ∀ i, R i a.name → (h'.get i).value = (a.value U (seenIn σ)).2

section inlined
variable {as : List (Arg Node)} {all : List Symbol} {h₀ : Heap} {x : Symbol} {v w : Node}
  {out : List Symbol × List Node}

theorem Inlined.gone (rest : Inlined R U σ as new h out h')
    (gone : Arg.inlined U (seenIn σ) ⟨x, v, w⟩ = true) (differs : Differs R all h₀ h')
    (value : ∀ i, R i x → (h'.get i).value = w) : Inlined R U σ (⟨x, v, w⟩ :: as) all h₀ out h' where
  rused := by rw [rest.rused, keptArgs, keptArgs, List.filter_cons_of_neg (by simp [gone])]
  sused := by rw [rest.sused, keptArgs, keptArgs, List.filter_cons_of_neg (by simp [gone])]
  differs := differs
  values a mem i known := by
    rcases List.mem_cons.mp mem with rfl | mem
    · rw [value i known]
      simp [Arg.value, gone]
    · exact rest.values a mem i known

theorem Inlined.stays (rest : Inlined R U σ as new h out h')
    (stays : Arg.inlined U (seenIn σ) ⟨x, v, w⟩ = false) (differs : Differs R all h₀ h')
    (value : ∀ i, R i x → (h'.get i).value = .sym x) :
    Inlined R U σ (⟨x, v, w⟩ :: as) all h₀ (x :: out.1, w :: out.2) h' where
  rused := by
    rw [rest.rused, keptArgs, keptArgs, List.filter_cons_of_pos (by simp [stays])]
    rfl
  sused := by
    rw [rest.sused, keptArgs, keptArgs, List.filter_cons_of_pos (by simp [stays])]
    rfl
  differs := differs
  values a mem i known := by
    rcases List.mem_cons.mp mem with rfl | mem
    · rw [value i known]
      simp [Arg.value, stays]
    · exact rest.values a mem i known

end inlined

theorem inlineLambda_ends {bs : Frame} {names : List Symbol} {tail : Option Symbol}
    {vals : List Node} {as : List Analyzed}
    (params : ∀ x ∈ names, ∃ b, bs.lookup x = some b ∧ R b x)
    (each : ∀ v ∈ vals, Refines R U v) (place : placedAll vals = true)
    (resolves : ResolvesAll R E vals as) (sub : ∀ u ∈ usesAll (E.map Prod.fst) vals, u ∈ U)
    (pre : Pre R U E σ h (names ++ bindersAll vals)) :
    Ends (inlineLambda bs tail names as) h (fun out h' => (tail = none ∧
        names.length ≤ vals.length) ∧
        Inlined R U σ (zipArgs names vals (optAll U σ vals)) (names ++ bindersAll vals) h out h')
      fun _ => ¬ (tail = none ∧ names.length = vals.length ∧ regularAll vals = true) := by
  induction names generalizing vals as h with
  | nil =>
    rw [inlineLambda, ends_ite]
    refine ⟨fun plain => ?_, fun dotted => ?_⟩
    · rw [ends_pure]
      exact ⟨⟨by simpa using plain, by simp⟩, by simp [zipArgs, keptArgs],
        by simp [zipArgs, keptArgs], .refl, by simp [zipArgs]⟩
    · rw [ends_throw]
      intro both
      exact dotted (by simp [both.1])
  | cons x names ih =>
    cases resolves with
    | nil =>
      rw [inlineLambda, ends_throw]
      simp
    | @cons _ v vals a as first more =>
      simp only [placedAll, Bool.and_eq_true] at place
      rw [placed_enterBind place.1 first] at more
      rw [usesAll, placed_enter place.1, List.forall_mem_append] at sub
      obtain ⟨b, found, known⟩ := params x (by simp)
      have pre' : Pre R U E σ h (binders v ++ ([x] ++ (names ++ bindersAll vals))) := by
        refine pre.perm ?_
        change ((x :: names) ++ (binders v ++ bindersAll vals)).Perm
          (binders v ++ ((x :: names) ++ bindersAll vals))
        rw [← List.append_assoc, ← List.append_assoc]
        exact List.perm_append_comm.append_right _
      have unnamed : x ∉ names ++ bindersAll vals := by
        intro mem
        refine (List.nodup_cons.mp pre.nodup).1 ?_
        rw [bindersAll]
        rcases List.mem_append.mp mem with mem | mem <;> simp [mem]
      rw [inlineLambda, ends_bind]
      refine (mayInline_ends found known pre.agree pre.facts pre.inScope place.1 first).post ?_
      rintro r h' ⟨rfl, same⟩
      subst same
      have ih' := fun {h as} => @ih h vals as (fun y hy => params y (by simp [hy]))
        (fun w hw => each w (by simp [hw])) place.2
      have fail : ¬ regular v = true → ∀ e : Failure, ¬ (tail = none ∧
          (x :: names).length = (v :: vals).length ∧ regularAll (v :: vals) = true) := by
        simp +contextual [regularAll]
      have later : ∀ e : Failure, ¬ (tail = none ∧ names.length = vals.length ∧
          regularAll vals = true) → ¬ (tail = none ∧
          (x :: names).length = (v :: vals).length ∧ regularAll (v :: vals) = true) := by
        intro _ shorter both
        simp only [List.length_cons, regularAll, Bool.and_eq_true] at both
        exact shorter ⟨both.1, by omega, both.2.2.2⟩
      have whole {s t u : Heap} (first : Differs R (binders v) s t)
          (second : Differs R ([x] ++ (names ++ bindersAll vals)) t u) :
          Differs R ((x :: names) ++ bindersAll (v :: vals)) s u := by
        refine (first.trans second).widen ?_
        rw [bindersAll]
        simp +contextual [or_imp]
      rw [optAll, zipArgs, ends_ite]
      refine ⟨fun yes => ?_, fun no => ?_⟩
      · refine ends_optimize_bind (each v (by simp)) first sub.1 pre' fail fun t differs pre1 => ?_
        have put := Differs.put (h := t) pre.name known (opt U σ v)
        have set : inlineBinding bs x (opt U σ v) t =
            .ok (⟨⟩, t.put b { t.get b with value := opt U σ v }) := by
          rw [inlineBinding, findBinding, found]
          rfl
        rw [ends_bind, Ends, set]
        refine (ih' more sub.2 (pre1.next put)).mono ?_ later
        rintro out u ⟨⟨plain, le⟩, done⟩
        have gone : Arg.inlined U (seenIn σ) ⟨x, v, opt U σ v⟩ = true := yes
        refine ⟨⟨plain, by simpa using le⟩,
          done.gone gone (whole differs (put.trans done.differs)) fun i hi => ?_⟩
        obtain rfl := pre.single _ _ _ hi known
        rw [done.differs.value i x hi unnamed]
        simp [Heap.put]
      · refine ends_optimize_bind (each v (by simp)) first sub.1 pre' fail fun t differs pre1 => ?_
        rw [ends_bind]
        refine (ih' more sub.2 (pre1.next Differs.refl)).mono ?_ later
        rintro out u ⟨⟨plain, le⟩, done⟩
        have stays : Arg.inlined U (seenIn σ) ⟨x, v, opt U σ v⟩ = false := by
          rwa [Bool.not_eq_true] at no
        rw [ends_pure]
        refine ⟨⟨plain, by simpa using le⟩,
          done.stays stays (whole differs (Differs.refl.trans done.differs)) fun i hi => ?_⟩
        rw [done.differs.value i x hi unnamed, differs.value i x hi fun mem => ?_,
          pre.own i x (by simp) hi]
        exact (List.nodup_append.mp pre'.nodup).2.2 x mem x (by simp) rfl

theorem Pre.extend {bs : Frame} {τ : Subst} (pre : Pre R U E σ h new)
    (names : τ.map Prod.fst = bs.map Prod.fst)
    (value : ∀ x b, bs.lookup x = some b → τ.lookup x = some (h.get b).value)
    (stays : ∀ x b, bs.lookup x = some b → assigned U x = true → (h.get b).value = .sym x)
    (recs : ∀ p ∈ bs, R p.2 p.1) (apart : ∀ x ∈ new, x ∉ bs.map Prod.fst) :
    Pre R U (bs ++ E) (τ ++ σ) h new :=
  { pre with
    agree := by
      refine ⟨by simp [names, pre.agree.names], fun x b found => ?_⟩
      rw [List.lookup_append] at found ⊢
      cases here : bs.lookup x with
      | none =>
        rw [here, Option.none_or] at found
        rw [(lookup_none_iff names).mpr here, Option.none_or]
        exact pre.agree.value x b found
      | some c =>
        rw [here, Option.some_or, Option.some.injEq] at found
        rw [value x c here, Option.some_or, found]
    inScope := by
      intro p mem
      rcases List.mem_append.mp mem with mem | mem
      · exact recs p mem
      · exact pre.inScope p mem
    stays := fun x b found assigns => by
      rw [List.lookup_append] at found
      cases here : bs.lookup x with
      | none =>
        rw [here, Option.none_or] at found
        exact pre.stays x b found assigns
      | some c =>
        rw [here, Option.some_or, Option.some.injEq] at found
        exact found ▸ stays x c here assigns
    fresh := fun x mem => by
      rw [List.map_append, List.mem_append, not_or]
      exact ⟨apart x mem, pre.fresh x mem⟩ }

theorem lookup_own {names : List Symbol} {x : Symbol} (mem : x ∈ names) :
    (own names).lookup x = some (.sym x) := by
  induction names with
  | nil => simp at mem
  | cons y ys ih =>
    rw [own, List.map_cons, List.lookup_cons]
    by_cases same : x = y
    · simp [same]
    · simp only [beq_eq_false_iff_ne.mpr same]
      exact ih (by simpa [same] using mem)

theorem own_names (names : List Symbol) : (own names).map Prod.fst = names := by
  simp [own, Function.comp_def]

theorem Pre.params {bs : Frame} {names : List Symbol} (pre : Pre R U E σ h (names ++ new))
    (same : bs.map Prod.fst = names) (recs : ∀ p ∈ bs, R p.2 p.1) :
    Pre R U (bs ++ E) (Inlining.own names ++ σ) h new := by
  have named : ∀ x b, bs.lookup x = some b → x ∈ names ∧ (h.get b).value = .sym x := by
    intro x b found
    have mem := mem_of_lookup found
    have named : x ∈ names := by
      rw [← same]
      exact List.mem_map.mpr ⟨_, mem, rfl⟩
    exact ⟨named, pre.own b x (by simp [named]) (recs _ mem)⟩
  refine Pre.extend (pre.next Differs.refl) (by rw [own_names, same]) ?_
    (fun x b found _ => (named x b found).2) recs ?_
  · intro x b found
    rw [lookup_own (named x b found).1, (named x b found).2]
  · intro x mem here
    rw [same] at here
    exact (List.nodup_append.mp pre.nodup).2.2 x here x mem rfl

theorem refines_lambda {args : Formals} {body : List Node}
    (each : ∀ x ∈ body, Refines R U (itemValue x)) (place : placedBody body = true) :
    Refines R U (.lambda args body) := by
  intro E σ h a resolves sub pre
  cases resolves with
  | lambda names recs params inner =>
    rw [optimize, ends_bind]
    rw [binders] at pre ⊢
    rw [uses, ← names, ← List.map_append] at sub
    refine (optimizeBody_ends each place inner sub (pre.params names recs)).mono ?_ (by
      simp [regular])
    intro outs t done
    rw [ends_pure]
    exact ⟨by rw [done.out, opt], done.differs.widen (by simp +contextual)⟩

theorem zipArgs_names {names : List Symbol} {vals outs : List Node}
    (same : outs.length = vals.length) (le : names.length ≤ vals.length) :
    (zipArgs names vals outs).map Arg.name = names := by
  induction names generalizing vals outs with
  | nil => simp [zipArgs]
  | cons x names ih =>
    cases vals with
    | nil => simp at le
    | cons v vals =>
      cases outs with
      | nil => simp at same
      | cons w outs =>
        rw [zipArgs, List.map_cons, ih (by simpa using same) (by simpa using le)]

theorem length_optAll (xs : List Node) : (optAll U σ xs).length = xs.length := by
  induction xs with
  | nil => simp [optAll]
  | cons x xs ih => simp [optAll, ih]

theorem lookup_args {as : List (Arg Node)} {x : Symbol} (mem : x ∈ as.map Arg.name) :
    ∃ a ∈ as, a.name = x ∧
      (as.map (Arg.value U (seenIn σ))).lookup x = some (a.value U (seenIn σ)).2 := by
  induction as with
  | nil => simp at mem
  | cons a as ih =>
    rw [List.map_cons, List.lookup_cons]
    by_cases same : x = a.name
    · refine ⟨a, by simp, same.symm, ?_⟩
      have : (a.value U (seenIn σ)).1 = a.name := rfl
      simp [this, same]
    · have differs : (x == (a.value U (seenIn σ)).1) = false := beq_eq_false_iff_ne.mpr same
      simp only [differs]
      obtain ⟨c, hc, name, found⟩ := ih (by simpa [same] using mem)
      exact ⟨c, by simp [hc], name, found⟩

theorem regular_lambdaCall {args : Formals} {body vals : List Node} :
    regular (.app (.lambda args body) vals) = true ↔
      (args.rest = none ∧ args.fixed.length = vals.length) ∧ regularAll body = true ∧
        regularAll vals = true := by
  simp only [regular, Bool.and_eq_true, Option.isNone_iff_eq_none, beq_iff_eq, and_assoc]

section lambdaCall
variable {args : Formals} {body vals : List Node} {bs bs' : Frame} {body' vals' : List Analyzed}

theorem called_ends (each : ∀ x ∈ body, Refines R U (itemValue x)) (place : placedBody body = true)
    (eachVal : ∀ v ∈ vals, Refines R U v) (placeVals : placedAll vals = true)
    (names : bs.map Prod.fst = args.names) (recs : ∀ p ∈ bs, R p.2 p.1)
    (inner : ResolvesAll R (bs ++ E) body body') (second : ResolvesAll R E vals vals')
    (sub : ∀ u ∈ usesAll ((bs ++ E).map Prod.fst) body, u ∈ U)
    (subVals : ∀ u ∈ usesAll (E.map Prod.fst) vals, u ∈ U)
    (pre : Pre R U E σ h (args.names ++ bindersAll body ++ bindersAll vals)) :
    Ends (do
        let body' ← optimizeBody body'
        let vals' ← optimizeAll vals'
        pure (Node.app (.lambda args body') vals') : Optimization Node) h
      (Optimized R (args.names ++ bindersAll body ++ bindersAll vals) h
        (.app (.lambda args (optBody U (own args.names ++ σ) body)) (optAll U σ vals)))
      fun _ => ¬ regular (.app (.lambda args body) vals) = true := by
  rw [ends_bind]
  refine (optimizeBody_ends each place inner sub (pre.first.params names recs)).mono ?_
    (by simp +contextual [regular_lambdaCall])
  rintro outs t ⟨rfl, differs⟩
  have differs : Differs R (args.names ++ bindersAll body) h t := differs.widen (by simp +contextual)
  rw [ends_bind]
  refine (optimizeAll_ends eachVal placeVals second subVals (pre.next differs)).mono ?_
    (by simp +contextual [regular_lambdaCall])
  rintro outs u ⟨rfl, differs'⟩
  rw [ends_pure]
  exact ⟨rfl, differs.trans differs'⟩

/- Some parameters go, and their records hold what the pass puts in their place. -/
theorem inlined_ends (each : ∀ x ∈ body, Refines R U (itemValue x)) (place : placedBody body = true)
    (eachVal : ∀ v ∈ vals, Refines R U v) (placeVals : placedAll vals = true)
    (names : bs.map Prod.fst = args.names) (recs : ∀ p ∈ bs, R p.2 p.1)
    (found : ∀ x ∈ args.fixed, ∃ b, bs'.lookup x = some b ∧ R b x)
    (inner : ResolvesAll R (bs ++ E) body body') (second : ResolvesAll R E vals vals')
    (sub : ∀ u ∈ usesAll ((bs ++ E).map Prod.fst) body, u ∈ U)
    (subVals : ∀ u ∈ usesAll (E.map Prod.fst) vals, u ∈ U)
    (pre : Pre R U E σ h (args.names ++ bindersAll body ++ bindersAll vals)) (hasDefines : Bool) :
    Ends (do
        let (rused, sused) ← inlineLambda bs' args.rest args.fixed vals'
        let body' ← optimizeBody body'
        if rused.isEmpty && !hasDefines then pure (.begin body')
        else pure (.app (.lambda ⟨rused, none⟩ body') sused) : Optimization Node) h
      (fun out t => (args.rest = none ∧ args.fixed.length ≤ vals.length) ∧
        Optimized R (args.names ++ bindersAll body ++ bindersAll vals) h
          (let as := zipArgs args.fixed vals (optAll U σ vals)
          let body' := optBody U (as.map (Arg.value U (seenIn σ)) ++ σ) body
          let kept := keptArgs U (seenIn σ) as
          if kept.isEmpty && !hasDefines then .begin body'
          else .app (.lambda ⟨kept.map Arg.name, none⟩ body') (kept.map Arg.after)) out t)
      fun _ => ¬ regular (.app (.lambda args body) vals) = true := by
  set as := zipArgs args.fixed vals (optAll U σ vals) with as_def
  have perm : (args.names ++ bindersAll body ++ bindersAll vals).Perm
      (args.fixed ++ bindersAll vals ++ (args.rest.toList ++ bindersAll body)) := by
    have split : args.names ++ bindersAll body ++ bindersAll vals =
        args.fixed ++ ((args.rest.toList ++ bindersAll body) ++ bindersAll vals) := by
      simp only [Formals.names, List.append_assoc]
    rw [split, List.append_assoc args.fixed]
    exact List.perm_append_comm.append_left _
  have pre' := pre.perm perm
  rw [ends_bind]
  refine (inlineLambda_ends found eachVal placeVals second subVals pre'.first).mono ?_
    (fun _ fail whole => fail ?_)
  · rintro ⟨rused, sused⟩ t ⟨⟨plain, le⟩, done⟩
    obtain ⟨rfl, rfl, differs, values⟩ := done
    have fixed : args.names = args.fixed := by simp [Formals.names, plain]
    rw [plain, Option.toList_none, List.nil_append] at perm pre'
    rw [fixed] at names
    have known : as.map Arg.name = args.fixed := zipArgs_names (length_optAll vals) le
    have inside : Pre R U (bs ++ E) (as.map (Arg.value U (seenIn σ)) ++ σ) t (bindersAll body) := by
      refine (pre'.next differs).extend ?_ ?_ ?_ recs ?_
      · rw [List.map_map, names, ← known]
        rfl
      · intro x b here
        have mem := mem_of_lookup here
        have named : x ∈ as.map Arg.name := by
          rw [known, ← names]
          exact List.mem_map.mpr ⟨_, mem, rfl⟩
        obtain ⟨a, ha, rfl, value⟩ := lookup_args (U := U) (σ := σ) named
        rw [value, values a ha b (recs _ mem)]
      · intro x b here assigns
        have mem := mem_of_lookup here
        have named : x ∈ as.map Arg.name := by
          rw [known, ← names]
          exact List.mem_map.mpr ⟨_, mem, rfl⟩
        obtain ⟨a, ha, rfl⟩ := List.mem_map.mp named
        rw [values a ha b (recs _ mem)]
        simp [Arg.value, Arg.inlined, inlines, assigns]
      · intro x mem here
        rw [names] at here
        exact (List.nodup_append.mp pre'.nodup).2.2 x (by simp [here]) x mem rfl
    rw [ends_bind]
    refine (optimizeBody_ends each place inner sub inside).mono ?_
      (by simp +contextual [regular_lambdaCall])
    rintro outs u ⟨rfl, differs'⟩
    have total := (differs.trans differs').widen fun x mem => perm.mem_iff.mpr mem
    simp only [List.isEmpty_map]
    split
    · rw [ends_pure]
      exact ⟨⟨plain, le⟩, rfl, total⟩
    · rw [ends_pure]
      exact ⟨⟨plain, le⟩, rfl, total⟩
  · rw [regular_lambdaCall] at whole
    exact ⟨whole.1.1, whole.1.2, whole.2.2⟩

end lambdaCall

theorem refines_lambdaCall {args : Formals} {body vals : List Node}
    (each : ∀ x ∈ body, Refines R U (itemValue x)) (place : placedBody body = true)
    (eachVal : ∀ v ∈ vals, Refines R U v) (placeVals : placedAll vals = true) :
    Refines R U (.app (.lambda args body) vals) := by
  intro E σ h a resolves sub pre
  obtain _ | _ | _ | _ | _ | _ | _ | _ | _ | _ | _ | ⟨first, second⟩ := resolves
  rename_i f' vals'
  cases first with
  | @lambda _ bs bs' _ _ body' names recs params inner =>
    rw [binders, binders] at pre ⊢
    rw [uses, uses, ← names, ← List.map_append, List.forall_mem_append] at sub
    have found : ∀ x ∈ args.fixed, ∃ b, bs'.lookup x = some b ∧ R b x := by
      intro x mem
      have named : x ∈ args.names := by simp [Formals.names, mem]
      have seen : (bs.lookup x).isSome = true := by
        rw [lookup_isSome, names]
        exact named
      obtain ⟨b, here⟩ := Option.isSome_iff_exists.mp seen
      exact ⟨b, by rw [params x named, here], recs _ (mem_of_lookup here)⟩
    rw [optimize, mayInlineLambda, opt]
    simp only [bind_assoc]
    rw [ends_bind]
    refine (existsInline_ends found pre.agree pre.facts pre.inScope placeVals second).mono ?_ ?_
    · rintro r t ⟨rfl, rfl⟩
      split
      · rename_i some
        have nonempty : args.names.isEmpty = false := by
          cases fixed : args.fixed with
          | nil => simp [fixed, zipArgs] at some
          | cons x xs => simp [Formals.names, fixed]
        simp only [nonempty, pure_bind, Bool.not_false, if_true]
        refine (inlined_ends each place eachVal placeVals names recs found inner second sub.1
          sub.2 pre (body.any Cps.isDefine)).post ?_
        rintro out u ⟨⟨plain, le⟩, done⟩
        have inlines : inlinesCall U (seenIn σ) args vals = true := by
          simp [inlinesCall, plain, le, some]
        rw [if_pos inlines]
        exact done
      · rename_i none
        have keeps : ¬ inlinesCall U (seenIn σ) args vals = true := by
          simp only [inlinesCall, Bool.and_eq_true]
          exact fun both => none both.2
        rw [if_neg keeps]
        simp only [pure_bind, Bool.false_eq_true, if_false]
        exact called_ends each place eachVal placeVals names recs inner second sub.1 sub.2 pre
    · rintro _ short whole
      exact short (regular_lambdaCall.mp whole).1

theorem refines_sym (x : Symbol) : Refines R U (.sym x) := by
  intro E σ h a resolves sub pre
  change Ends _ _ (Optimized R [] h (opt U σ (.sym x))) _
  rw [opt]
  cases resolves with
  | unbound out =>
    rw [pre.agree.none_iff.mp out]
    exact ⟨rfl, .refl⟩
  | bound found =>
    rw [pre.agree.value _ _ found]
    exact ⟨rfl, .refl⟩

theorem refines_set {x : Symbol} {v : Node} (ih : Refines R U v) : Refines R U (.set x v) := by
  intro E σ h a resolves sub pre
  change Pre R U E σ h (binders v) at pre
  change Ends _ _ (Optimized R (binders v) h (opt U σ (.set x v))) fun _ => ¬ regular (.set x v) = true
  rw [opt]
  cases resolves with
  | unassigned out =>
    rw [if_neg (pre.agree.unseen out), optimize, ends_ite]
    refine ⟨fun _ => ?_, fun dotted => ?_⟩
    · rw [ends_pure]
      exact ⟨rfl, .refl⟩
    · rw [ends_throw]
      intro whole
      simp only [regular, Bool.and_eq_true] at whole
      exact dotted (by simp [mappable, whole.1])
  | @set _ _ b _ _ found inner =>
    have here : x ∈ E.map Prod.fst := by
      rw [← lookup_isSome, found]
      rfl
    change ∀ u ∈ uses (E.map Prod.fst) (.set x v), u ∈ U at sub
    rw [uses, if_pos here, List.forall_mem_cons] at sub
    have assigns : assigned U x = true := by
      rw [assigned, List.any_eq_true]
      exact ⟨_, sub.1, by simp⟩
    rw [if_pos (pre.agree.seen found), optimize, ends_bind, ends_get, ends_bind]
    refine (ih _ _ _ _ inner sub.2 pre).mono ?_ (by simp +contextual [regular])
    rintro out t ⟨rfl, differs⟩
    rw [ends_pure, pre.stays x b found assigns]
    exact ⟨rfl, differs⟩

theorem refines_ite {p c t : Node} (hp : Refines R U p) (hc : Refines R U c)
    (ht : Refines R U t) : Refines R U (.ite p c t) := by
  intro E σ h a resolves sub pre
  change Pre R U E σ h (binders p ++ binders c ++ binders t) at pre
  change Ends _ _ (Optimized R (binders p ++ binders c ++ binders t) h (opt U σ (.ite p c t)))
    fun _ => ¬ regular (.ite p c t) = true
  rw [List.append_assoc] at pre ⊢
  cases resolves with
  | ite first second third =>
    change ∀ u ∈ uses (E.map Prod.fst) (.ite p c t), u ∈ U at sub
    rw [uses, List.forall_mem_append, List.forall_mem_append] at sub
    rw [optimize, opt]
    refine ends_optimize_bind hp first sub.1.1 pre (by simp +contextual [regular])
      fun s1 differs1 pre1 => ?_
    refine ends_optimize_bind hc second sub.1.2 pre1 (by simp +contextual [regular])
      fun s2 differs2 pre2 => ?_
    rw [ends_bind]
    refine (ht _ _ _ _ third sub.2 pre2).mono ?_ (by simp +contextual [regular])
    rintro out s3 ⟨rfl, differs3⟩
    rw [ends_pure]
    exact ⟨rfl, differs1.trans (differs2.trans differs3)⟩

theorem refines_begin {forms : List Node} (place : placedAll forms = true)
    (each : ∀ x ∈ forms, Refines R U x) : Refines R U (.begin forms) := by
  intro E σ h a resolves sub pre
  change Pre R U E σ h (bindersAll forms) at pre
  change Ends _ _ (Optimized R (bindersAll forms) h (opt U σ (.begin forms))) fun _ =>
    ¬ regular (.begin forms) = true
  cases resolves with
  | begin inner =>
    rw [optimize, opt, ends_bind]
    refine (optimizeAll_ends each place inner sub pre).mono ?_ (by simp [regular])
    rintro outs t ⟨rfl, differs⟩
    rw [ends_pure]
    exact ⟨rfl, differs⟩

theorem refines_app {f : Node} {args : List Node} (plain : ∀ xs body, f ≠ .lambda xs body)
    (place : placedAll args = true) (hf : Refines R U f) (each : ∀ x ∈ args, Refines R U x) :
    Refines R U (.app f args) := by
  intro E σ h a resolves sub pre
  change ∀ u ∈ uses (E.map Prod.fst) (.app f args), u ∈ U at sub
  change Pre R U E σ h (binders f ++ bindersAll args) at pre
  change Ends _ _ (Optimized R (binders f ++ bindersAll args) h (opt U σ (.app f args)))
    fun _ => ¬ regular (.app f args) = true
  rw [uses, List.forall_mem_append] at sub
  rw [opt_app plain, regular_app plain]
  obtain _ | _ | _ | _ | _ | _ | _ | _ | _ | _ | _ | ⟨first, second⟩ := resolves
  rename_i f' args'
  have other : ∀ bs xs body d, f' ≠ Analyzed.function bs xs body d := by
    rintro bs xs body d rfl
    cases first
    exact plain _ _ rfl
  rw [optimize_app other]
  refine ends_optimize_bind hf first sub.1 pre (by simp +contextual) fun t differs pre' => ?_
  rw [ends_bind]
  refine (optimizeAll_ends each place second sub.2 pre').mono ?_ (by simp +contextual)
  rintro outs u ⟨rfl, differs'⟩
  rw [ends_pure]
  exact ⟨rfl, differs.trans differs'⟩

theorem refines (n : Node) : placed (itemValue n) = true → Refines R U (itemValue n) := by
  have inside {n : Node} (ih : placed (itemValue n) = true → Refines R U (itemValue n))
      (place : placed n = true) : Refines R U n := by
    have := ih (by rwa [placed_itemValue place])
    rwa [placed_itemValue place] at this
  induction n using inductCall with
  | const d =>
    intro _ E σ h a resolves sub pre
    cases resolves
    exact ⟨rfl, .refl⟩
  | quote d =>
    intro _ E σ h a resolves sub pre
    cases resolves
    exact ⟨rfl, .refl⟩
  | extend names => simp [itemValue, placed]
  | define x v ih => exact inside ih
  | sym x => exact fun _ => refines_sym x
  | lambda args body ih =>
    intro place
    change placedBody body = true at place
    exact refines_lambda (fun x hx => ih x hx (placedBody_iff.mp place x hx)) place
  | set x v ih => exact fun place => refines_set (inside ih place)
  | ite p c t hp hc ht =>
    intro place
    simp only [itemValue, placed, Bool.and_eq_true] at place
    exact refines_ite (inside hp place.1.1) (inside hc place.1.2) (inside ht place.2)
  | begin forms ih =>
    intro place
    exact refines_begin place fun x hx => inside (ih x hx) (placedAll_iff.mp place x hx)
  | call xs body vals ih ihVals =>
    intro place
    simp only [itemValue, placed, Bool.and_eq_true] at place
    exact refines_lambdaCall (fun x hx => ih x hx (placedBody_iff.mp place.1 x hx)) place.1
      (fun x hx => inside (ihVals x hx) (placedAll_iff.mp place.2 x hx)) place.2
  | app f args plain hf ih =>
    intro place
    simp only [itemValue, placed, Bool.and_eq_true] at place
    exact refines_app plain place.2 (inside hf place.1) fun x hx =>
      inside (ih x hx) (placedAll_iff.mp place.2 x hx)

/- The pass computes what the optimizer returns, and the optimizer returns on regular programs. -/
theorem optimizeSource_ends {p : Node} (place : placed p = true) (nodup : (binders p).Nodup) :
    match optimizeSource p with
    | .ok out => out = inlineAll p
    | .error _ => ¬ regular p = true := by
  have analysed := analyze_ends place nodup
  unfold Ends at analysed
  rw [optimizeSource]
  cases run : analyze p start with
  | error e =>
    rw [run] at analysed
    exact analysed.elim
  | ok r =>
    obtain ⟨a, s⟩ := r
    rw [run] at analysed
    obtain ⟨resolves, sound, facts⟩ := analysed
    have pre : Pre (Rec s.heap) (uses [] p) [] [] s.heap (binders p) :=
      ⟨fun i x y => Rec.name_eq, sound.single, facts, ⟨rfl, by simp⟩, by simp, by simp,
        fun i x _ known => known.2, nodup, by simp⟩
    have refined := refines (R := Rec s.heap) (U := uses [] p) p (by rwa [placed_itemValue place])
    rw [placed_itemValue place] at refined
    have ends := refined [] [] s.heap a resolves (fun u => id) pre
    unfold Ends at ends
    dsimp only
    cases opt : optimize a s.heap with
    | error e =>
      rw [opt] at ends
      exact ends
    | ok r =>
      rw [opt] at ends
      exact ends.out

theorem optimizeSource_eq {p out : Node} (place : placed p = true) (nodup : (binders p).Nodup)
    (result : optimizeSource p = .ok out) : out = inlineAll p := by
  have := optimizeSource_ends place nodup
  rwa [result] at this

theorem optimizeSource_regular {p : Node} (place : placed p = true) (nodup : (binders p).Nodup)
    (whole : regular p = true) : optimizeSource p = .ok (inlineAll p) := by
  have ends := optimizeSource_ends place nodup
  cases result : optimizeSource p with
  | error e =>
    rw [result] at ends
    exact absurd whole ends
  | ok out =>
    rw [result] at ends
    exact congrArg Except.ok ends

end refines

end LGears.OptimizerRefines
