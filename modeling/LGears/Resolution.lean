import LGears.Inlining

/- What analysis returns and leaves: the records are those of the binders met, one for each
   name, and they tell which variables are used and which are assigned to. -/
namespace LGears.Resolution
open Analyze CoreProgram Cps Inlining StateExcept

/- Definitions stand in bodies only, as the expander leaves them. -/
mutual
def placed : Node → Bool
  | .const _ | .quote _ | .sym _ => true
  | .lambda _ body => placedBody body
  | .ite pred conseq alt => placed pred && placed conseq && placed alt
  | .set _ value => placed value
  | .begin forms => placedAll forms
  | .app f args => placed f && placedAll args
  | .define _ _ | .extend _ => false
def placedAll : List Node → Bool
  | [] => true
  | x :: xs => placed x && placedAll xs
def placedBody : List Node → Bool
  | [] => true
  | .define _ value :: xs => placed value && placedBody xs
  | x :: xs => placed x && placedBody xs
end

/-- The record of a variable of the name. -/
def Rec (h : Heap) (i : Nat) (x : Symbol) : Prop := i < h.next ∧ (h.get i).value = .sym x

section resolves
variable (R : Nat → Symbol → Prop)

/-- The scope behind an analysed form of a body. -/
def enterBind (a : Analyzed) (E : Frame) : Frame :=
  match a with
  | .define y b _ => (y, b) :: E
  | _ => E

/- The second node is the first one with the names that E has in scope resolved to records of
   their names. -/
mutual
inductive Resolves : Frame → Node → Analyzed → Prop where
  | const {E : Frame} {d : Datum} : Resolves E (.const d) (.raw (.const d))
  | quote {E : Frame} {d : Datum} : Resolves E (.quote d) (.raw (.quote d))
  | extend {E : Frame} {names : List Symbol} : Resolves E (.extend names) (.raw (.extend names))
  | unbound {E : Frame} {x : Symbol} (out : E.lookup x = none) :
    Resolves E (.sym x) (.raw (.sym x))
  | bound {E : Frame} {x : Symbol} {b : Nat} (found : E.lookup x = some b) :
    Resolves E (.sym x) (.reference b)
  | lambda {E bs bs' : Frame} {args : Formals} {body : List Node} {body' : List Analyzed}
    (names : bs.map Prod.fst = args.names) (recs : ∀ p ∈ bs, R p.2 p.1)
    (params : ∀ x ∈ args.names, bs'.lookup x = bs.lookup x)
    (inner : ResolvesAll (bs ++ E) body body') :
    Resolves E (.lambda args body) (.function bs' args body' (body.any isDefine))
  | ite {E : Frame} {pred conseq alt : Node} {pred' conseq' alt' : Analyzed}
    (first : Resolves E pred pred') (second : Resolves E conseq conseq')
    (third : Resolves E alt alt') : Resolves E (.ite pred conseq alt) (.ite pred' conseq' alt')
  | unassigned {E : Frame} {x : Symbol} {value : Node} (out : E.lookup x = none) :
    Resolves E (.set x value) (.raw (.set x value))
  | set {E : Frame} {x : Symbol} {b : Nat} {value : Node} {value' : Analyzed}
    (found : E.lookup x = some b) (inner : Resolves E value value') :
    Resolves E (.set x value) (.set b value')
  | define {E : Frame} {x : Symbol} {b : Nat} {value : Node} {value' : Analyzed}
    (known : R b x) (inner : Resolves ((x, b) :: E) value value') :
    Resolves E (.define x value) (.define x b value')
  | begin {E : Frame} {forms : List Node} {forms' : List Analyzed}
    (inner : ResolvesAll E forms forms') : Resolves E (.begin forms) (.begin forms')
  | app {E : Frame} {f : Node} {f' : Analyzed} {args : List Node} {args' : List Analyzed}
    (first : Resolves E f f') (second : ResolvesAll E args args') :
    Resolves E (.app f args) (.app f' args')
inductive ResolvesAll : Frame → List Node → List Analyzed → Prop where
  | nil {E : Frame} : ResolvesAll E [] []
  | cons {E : Frame} {x : Node} {xs : List Node} {a : Analyzed} {as : List Analyzed}
    (first : Resolves E x a) (second : ResolvesAll (enterBind a E) xs as) :
    ResolvesAll E (x :: xs) (a :: as)
end

end resolves

theorem envLookup_eq (env : List Frame) (x : Symbol) : envLookup env x = env.flatten.lookup x := by
  induction env with
  | nil => rfl
  | cons bs prev ih =>
    rw [envLookup, List.flatten_cons, List.lookup_append, ih]
    cases bs.lookup x <;> rfl

theorem lookup_isSome {β : Type} {E : List (Symbol × β)} {x : Symbol} :
    (E.lookup x).isSome = true ↔ x ∈ E.map Prod.fst := by
  induction E with
  | nil => simp
  | cons p E ih =>
    rw [List.lookup_cons, List.map_cons, List.mem_cons, ← ih]
    by_cases same : x = p.1
    · simp [same]
    · simp only [beq_eq_false_iff_ne.mpr same, same, false_or]

theorem mem_of_lookup {β : Type} {E : List (Symbol × β)} {x : Symbol} {b : β}
    (h : E.lookup x = some b) : (x, b) ∈ E := by
  induction E with
  | nil => simp at h
  | cons p E ih =>
    rw [List.lookup_cons] at h
    by_cases same : x = p.1
    · have : p.2 = b := by simpa [same] using h
      simp [same, ← this]
    · simp only [beq_eq_false_iff_ne.mpr same] at h
      simp [ih h]

/-- One record for each name; an address without a record counts nothing. -/
structure Sound (h : Heap) : Prop where
  named : ∀ i < h.next, ∃ x, Rec h i x
  single : ∀ i j x, Rec h i x → Rec h j x → i = j
  blank : ∀ i, h.next ≤ i → (h.get i).refCount = 0 ∧ (h.get i).mutate = false

/-- From h to h' records are made for names in `new`, and they tell of the uses `us`. -/
structure Grows (h h' : Heap) (new : List Symbol) (us : List Use) : Prop where
  sound : Sound h'
  le : h.next ≤ h'.next
  keeps : ∀ i x, Rec h i x → Rec h' i x
  made : ∀ i x, Rec h' i x → Rec h i x ∨ x ∈ new
  met : ∀ u ∈ us, ∃ i, Rec h' i u.name
  counts : ∀ i x, Rec h' i x →
    (0 < (h'.get i).refCount ↔ 0 < (h.get i).refCount ∨ used us x = true)
  mutates : ∀ i x, Rec h' i x →
    ((h'.get i).mutate = true ↔ (h.get i).mutate = true ∨ assigned us x = true)

@[simp] theorem used_nil (x : Symbol) : used [] x = false := rfl

@[simp] theorem assigned_nil (x : Symbol) : assigned [] x = false := rfl

theorem used_append {us ws : List Use} {x : Symbol} :
    used (us ++ ws) x = true ↔ used us x = true ∨ used ws x = true := by
  simp [used]

theorem assigned_append {us ws : List Use} {x : Symbol} :
    assigned (us ++ ws) x = true ↔ assigned us x = true ∨ assigned ws x = true := by
  simp [assigned]

theorem used_of_assigned {us : List Use} {x : Symbol} (h : assigned us x = true) :
    used us x = true := by
  simp only [assigned, used, List.any_eq_true, Bool.and_eq_true] at h ⊢
  obtain ⟨u, mem, same, -⟩ := h
  exact ⟨u, mem, same⟩

theorem Rec.name_eq {h : Heap} {i : Nat} {x y : Symbol} (hx : Rec h i x) (hy : Rec h i y) :
    x = y := by
  have := hx.2.symm.trans hy.2
  injection this

section grows
variable {h h' k : Heap} {new new' : List Symbol} {us us' : List Use}

theorem Grows.refl (sound : Sound h) : Grows h h [] [] where
  sound := sound
  le := le_rfl
  keeps _ _ := id
  made _ _ := Or.inl
  met := by simp
  counts := by simp
  mutates := by simp

theorem Grows.trans (sound : Sound h) (first : Grows h h' new us) (second : Grows h' k new' us') :
    Grows h k (new ++ new') (us ++ us') := by
  have unmet : ∀ i x, h'.next ≤ i → Rec k i x → ¬ used us x = true := by
    intro i x out known met
    simp only [used, List.any_eq_true, beq_iff_eq] at met
    obtain ⟨u, hu, rfl⟩ := met
    obtain ⟨j, old⟩ := first.met u hu
    have := second.sound.single i j _ known (second.keeps j _ old)
    have := old.1
    omega
  have old : ∀ i x, i < h'.next → Rec k i x → Rec h' i x := by
    intro i x lt known
    obtain ⟨y, hy⟩ := first.sound.named i lt
    exact known.name_eq (second.keeps i y hy) ▸ hy
  refine ⟨second.sound, first.le.trans second.le, fun i x known => second.keeps i x
    (first.keeps i x known), ?_, ?_, ?_, ?_⟩
  · intro i x known
    rw [List.mem_append]
    rcases second.made i x known with known | mem
    · exact (first.made i x known).imp_right Or.inl
    · exact .inr (.inr mem)
  · intro u hu
    rcases List.mem_append.mp hu with hu | hu
    · obtain ⟨i, known⟩ := first.met u hu
      exact ⟨i, second.keeps i _ known⟩
    · exact second.met u hu
  · intro i x known
    rw [used_append, second.counts i x known]
    rcases Nat.lt_or_ge i h'.next with lt | out
    · rw [first.counts i x (old i x lt known), or_assoc]
    · have now := first.sound.blank i out
      have before := sound.blank i (first.le.trans out)
      simp [now, before, unmet i x out known]
  · intro i x known
    rw [assigned_append, second.mutates i x known]
    rcases Nat.lt_or_ge i h'.next with lt | out
    · rw [first.mutates i x (old i x lt known), or_assoc]
    · have now := first.sound.blank i out
      have before := sound.blank i (first.le.trans out)
      have : ¬ assigned us x = true := fun met => unmet i x out known (used_of_assigned met)
      simp [now, before, this]

theorem rec_alloc {x : Symbol} {i : Nat} {y : Symbol} :
    Rec (h.alloc ⟨0, false, .sym x⟩) i y ↔ Rec h i y ∨ i = h.next ∧ x = y := by
  unfold Rec Heap.alloc
  dsimp only
  by_cases new : i = h.next
  · simp [new]
  · simp only [new, if_false, false_and, or_false, and_congr_left_iff]
    omega

theorem Grows.alloc (sound : Sound h) {x : Symbol} (fresh : ∀ i, ¬ Rec h i x) :
    Grows h (h.alloc ⟨0, false, .sym x⟩) [x] [] := by
  have blank := sound.blank h.next le_rfl
  refine ⟨⟨?_, ?_, ?_⟩, Nat.le_succ _, fun i y known => rec_alloc.mpr (.inl known), ?_, by simp,
    ?_, ?_⟩
  · intro i lt
    simp only [rec_alloc]
    by_cases new : i = h.next
    · exact ⟨x, .inr ⟨new, rfl⟩⟩
    · obtain ⟨y, known⟩ := sound.named i (by simp only [Heap.alloc] at lt; omega)
      exact ⟨y, .inl known⟩
  · intro i j y hi hj
    rw [rec_alloc] at hi hj
    rcases hi with hi | ⟨rfl, rfl⟩
    · rcases hj with hj | ⟨rfl, rfl⟩
      · exact sound.single i j y hi hj
      · exact absurd hi (fresh i)
    · rcases hj with hj | ⟨rfl, _⟩
      · exact absurd hj (fresh j)
      · rfl
  · intro i le
    simp only [Heap.alloc] at le ⊢
    rw [if_neg (by omega)]
    exact sound.blank i (by omega)
  · intro i y known
    rw [rec_alloc] at known
    exact known.imp_right fun new => by simp [new.2]
  · intro i y _
    simp only [Heap.alloc, used_nil, Bool.false_eq_true, or_false]
    by_cases new : i = h.next
    · simp [new, blank]
    · simp [new]
  · intro i y _
    simp only [Heap.alloc, assigned_nil, Bool.false_eq_true, or_false]
    by_cases new : i = h.next
    · simp [new, blank]
    · simp [new]

theorem Grows.use (sound : Sound h) {b : Nat} {x : Symbol} (known : Rec h b x) {r : Binding}
    {assigns : Bool} (value : r.value = (h.get b).value) (count : 0 < r.refCount)
    (mutate : r.mutate = ((h.get b).mutate || assigns)) :
    Grows h (h.put b r) [] [⟨x, assigns⟩] := by
  have same : ∀ i y, Rec (h.put b r) i y ↔ Rec h i y := by
    intro i y
    unfold Rec Heap.put
    dsimp only
    by_cases here : i = b
    · simp [here, value]
    · simp [here]
  have other : ∀ i y, i ≠ b → Rec h i y → x ≠ y := fun i y ne hy eq =>
    ne (sound.single i b y hy (eq ▸ known))
  refine ⟨⟨?_, ?_, ?_⟩, le_rfl, fun i y => (same i y).mpr, fun i y hy => .inl ((same i y).mp hy),
    ?_, ?_, ?_⟩
  · intro i lt
    simp only [same]
    exact sound.named i lt
  · intro i j y hi hj
    exact sound.single i j y ((same i y).mp hi) ((same j y).mp hj)
  · intro i le
    have := known.1
    simp only [Heap.put] at le ⊢
    rw [if_neg (by omega)]
    exact sound.blank i le
  · intro u hu
    rw [List.mem_singleton.mp hu]
    exact ⟨b, (same b x).mpr known⟩
  · intro i y hy
    rw [same] at hy
    by_cases here : i = b
    · subst here
      simp [Heap.put, count, used, known.name_eq hy]
    · simp [Heap.put, here, used, other i y here hy]
  · intro i y hy
    rw [same] at hy
    by_cases here : i = b
    · subst here
      simp [Heap.put, mutate, assigned, known.name_eq hy]
    · simp [Heap.put, here, assigned, other i y here hy]

theorem Grows.widen (grows : Grows h h' new us) (sub : ∀ x ∈ new, x ∈ new') :
    Grows h h' new' us :=
  { grows with made := fun i x known => (grows.made i x known).imp_right (sub x) }

end grows

theorem placed_enter {x : Node} (h : placed x = true) (seen : List Symbol) :
    enter x seen = seen := by
  cases x <;> first | rfl | simp [placed] at h

theorem placed_notDefine {x : Node} (h : placed x = true) : isDefine x = false := by
  cases x <;> first | rfl | simp [placed] at h

theorem placed_enterBind {R : Nat → Symbol → Prop} {E F : Frame} {x : Node} {a : Analyzed}
    (h : placed x = true) (resolves : Resolves R E x a) : enterBind a F = F := by
  cases resolves <;> first | rfl | simp [placed] at h

def scope (s : State) : Frame := s.env.flatten

def scopeNames (s : State) : List Symbol := (scope s).map Prod.fst

/-- The state lets new records be made for the names. -/
structure Ready (s : State) (new : List Symbol) : Prop where
  sound : Sound s.heap
  inScope : ∀ p ∈ scope s, Rec s.heap p.2 p.1
  fresh : ∀ x ∈ new, ∀ i, ¬ Rec s.heap i x
  nodup : new.Nodup

/-- Behind a step that made the first names the others are still to be made. -/
theorem Ready.next {s s' : State} {new rest : List Symbol} {us : List Use}
    (ready : Ready s (new ++ rest)) (grows : Grows s.heap s'.heap new us)
    (inScope : ∀ p ∈ scope s', Rec s'.heap p.2 p.1) : Ready s' rest where
  sound := grows.sound
  inScope := inScope
  fresh x mem i known := by
    rcases grows.made i x known with old | new
    · exact ready.fresh x (by simp [mem]) i old
    · exact (List.nodup_append.mp ready.nodup).2.2 x new x mem rfl
  nodup := (List.nodup_append.mp ready.nodup).2.1

theorem Ready.first {s : State} {new rest : List Symbol} (ready : Ready s (new ++ rest)) :
    Ready s new :=
  { ready with
    fresh := fun x mem => ready.fresh x (by simp [mem])
    nodup := (List.nodup_append.mp ready.nodup).1 }

/-- What analysis of an expression returns and leaves. -/
structure Analysed (s : State) (n : Node) (a : Analyzed) (s' : State) : Prop where
  env : s'.env = s.env
  grows : Grows s.heap s'.heap (binders n) (uses (scopeNames s) n)
  resolves : ∀ R : Nat → Symbol → Prop, (∀ i x, Rec s'.heap i x → R i x) →
    Resolves R (scope s) n a

structure AnalysedAll (s : State) (xs : List Node) (as : List Analyzed) (s' : State) : Prop where
  env : s'.env = s.env
  grows : Grows s.heap s'.heap (bindersAll xs) (usesAll (scopeNames s) xs)
  resolves : ∀ R : Nat → Symbol → Prop, (∀ i x, Rec s'.heap i x → R i x) →
    ResolvesAll R (scope s) xs as

theorem Grows.inScope {s s' : State} {new : List Symbol} {us : List Use}
    (grows : Grows s.heap s'.heap new us) (env : s'.env = s.env)
    (inScope : ∀ p ∈ scope s, Rec s.heap p.2 p.1) : ∀ p ∈ scope s', Rec s'.heap p.2 p.1 := by
  intro p mem
  rw [scope, env] at mem
  exact grows.keeps _ _ (inScope p mem)

/-- Every analysis of the expression does so. -/
def Analyses (n : Node) : Prop :=
  ∀ s, Ready s (binders n) → Ends (analyze n) s (Analysed s n) fun _ => False

theorem scope_eq {s t : State} (env : t.env = s.env) : scope t = scope s := by
  rw [scope, scope, env]

theorem scopeNames_eq {s t : State} (env : t.env = s.env) : scopeNames t = scopeNames s := by
  rw [scopeNames, scopeNames, scope_eq env]

theorem analyzeAll_ends {xs : List Node} (each : ∀ x ∈ xs, Analyses x)
    (place : placedAll xs = true) {s : State} (ready : Ready s (bindersAll xs)) :
    Ends (analyzeAll xs) s (AnalysedAll s xs) fun _ => False := by
  induction xs generalizing s with
  | nil =>
    rw [analyzeAll, ends_pure]
    exact ⟨rfl, .refl ready.sound, fun _ _ => .nil⟩
  | cons x xs ih =>
    simp only [placedAll, Bool.and_eq_true] at place
    rw [bindersAll] at ready
    rw [analyzeAll, ends_bind]
    refine (each x (by simp) s ready.first).post ?_
    intro a t here
    have ready' := ready.next here.grows (here.grows.inScope here.env ready.inScope)
    rw [ends_bind]
    refine (ih (fun y hy => each y (by simp [hy])) place.2 ready').post ?_
    intro as t' there
    rw [ends_pure]
    refine ⟨there.env.trans here.env, ?_, ?_⟩
    · have rest := there.grows
      rw [scopeNames_eq here.env] at rest
      rw [usesAll, placed_enter place.1, bindersAll]
      exact here.grows.trans ready.sound rest
    · intro R known
      have first := here.resolves R fun i y h => known i y (there.grows.keeps i y h)
      refine .cons first ?_
      rw [placed_enterBind place.1 first, ← scope_eq here.env]
      exact there.resolves R known

/-- The expression of a form of a body. -/
def itemValue : Node → Node
  | .define _ value => value
  | node => node

/-- What analysis of a body returns and leaves: the definitions are entered in its frame. -/
structure AnalysedBody (s : State) (xs : List Node) (as : List Analyzed) (s' : State) : Prop where
  env : ∃ new, (∀ p ∈ new, p.1 ∈ bindersAll xs) ∧ s'.env = (new ++ s.env.headD []) :: s.env.tail
  grows : Grows s.heap s'.heap (bindersAll xs) (usesAll (scopeNames s) xs)
  resolves : ∀ R : Nat → Symbol → Prop, (∀ i x, Rec s'.heap i x → R i x) →
    ResolvesAll R (scope s) xs as

theorem item_cases (x : Node) :
    (∃ y v, x = .define y v) ∨ itemValue x = x ∧ ∀ y v, x ≠ .define y v := by
  cases x <;> simp [itemValue]

theorem placedBody_cons {x : Node} {xs : List Node} :
    placedBody (x :: xs) = (placed (itemValue x) && placedBody xs) := by
  cases x <;> rfl

theorem analyzeDefine_ends {x : Symbol} {value : Node}
    (analyses : Analyses value) {s : State} {bs : Frame} {prev : List Frame}
    (env : s.env = bs :: prev) (ready : Ready s (x :: binders value)) :
    Ends (analyzeDefine x (analyze value)) s (fun a s' =>
      ∃ b value', a = .define x b value' ∧ s'.env = ((x, b) :: bs) :: prev ∧
        Rec s'.heap b x ∧
        Grows s.heap s'.heap (x :: binders value) (uses (x :: scopeNames s) value) ∧
        ∀ R : Nat → Symbol → Prop, (∀ i x, Rec s'.heap i x → R i x) →
          Resolves R ((x, b) :: scope s) value value') fun _ => False := by
  have fresh := ready.fresh x (by simp)
  let t : State := ⟨s.heap.alloc ⟨0, false, .sym x⟩, ((x, s.heap.next) :: bs) :: prev⟩
  have made : Grows s.heap t.heap [x] [] := .alloc ready.sound fresh
  have known : Rec t.heap s.heap.next x := rec_alloc.mpr (.inr ⟨rfl, rfl⟩)
  have scope_t : scope t = (x, s.heap.next) :: scope s := by
    simp only [scope, env, t, List.flatten_cons, List.cons_append]
  have ready' : Ready t (binders value) := by
    have all : Ready s ([x] ++ binders value) := ready
    refine all.next made ?_
    intro p mem
    rw [scope_t, List.mem_cons] at mem
    rcases mem with rfl | mem
    · exact known
    · exact made.keeps _ _ (ready.inScope p mem)
  have run := analyses t ready'
  rw [analyzeDefine, freshBind, ends_bind, ends_bind, ends_get, ends_bind, ends_set, ends_pure,
    ends_bind, ends_get]
  dsimp only
  rw [env]
  dsimp only
  rw [ends_bind, ends_set]
  change Ends _ t _ _
  rw [ends_bind]
  refine run.post ?_
  intro a u here
  rw [ends_pure]
  refine ⟨s.heap.next, a, rfl, here.env, here.grows.keeps _ _ known, ?_, ?_⟩
  · have names : scopeNames t = x :: scopeNames s := by simp [scopeNames, scope_t]
    rw [← names]
    exact made.trans ready.sound here.grows
  · intro R all
    rw [← scope_t]
    exact here.resolves R all

theorem analyzeBody_ends {xs : List Node} (each : ∀ x ∈ xs, Analyses (itemValue x))
    (place : placedBody xs = true) {s : State} (inside : s.env ≠ [])
    (ready : Ready s (bindersAll xs)) :
    Ends (analyzeAll xs) s (AnalysedBody s xs) fun _ => False := by
  obtain ⟨bs, prev, env⟩ := List.exists_cons_of_ne_nil inside
  induction xs generalizing s bs with
  | nil =>
    rw [analyzeAll, ends_pure]
    exact ⟨⟨[], by simp, by simp [env]⟩, .refl ready.sound, fun _ _ => .nil⟩
  | cons x xs ih =>
    rw [placedBody_cons, Bool.and_eq_true] at place
    rw [bindersAll] at ready
    have ih' := fun {s : State} => @ih (fun y hy => each y (by simp [hy])) place.2 s
    have here := each x (by simp)
    rw [analyzeAll, ends_bind]
    rcases item_cases x with ⟨y, v, rfl⟩ | ⟨plain, _⟩
    · refine (analyzeDefine_ends here env ready.first).post ?_
      rintro a t ⟨b, v', rfl, env', known, grows, resolves⟩
      have scope_t : scope t = (y, b) :: scope s := by
        simp [scope, env', env]
      have ready' := ready.next grows (by
        intro p mem
        rw [scope_t, List.mem_cons] at mem
        rcases mem with rfl | mem
        · exact known
        · exact grows.keeps _ _ (ready.inScope p mem))
      rw [ends_bind]
      refine (ih' (by simp [env']) ready' _ env').post ?_
      intro as t' there
      rw [ends_pure]
      obtain ⟨new, sub, env''⟩ := there.env
      refine ⟨⟨new ++ [(y, b)], ?_, by simp [env'', env', env]⟩, ?_, ?_⟩
      · intro p mem
        rw [bindersAll, List.mem_append]
        rcases List.mem_append.mp mem with mem | mem
        · exact .inr (sub p mem)
        · rw [List.mem_singleton.mp mem]
          exact .inl (by simp [binders])
      · have names : scopeNames t = enter (.define y v) (scopeNames s) := by
          simp [scopeNames, scope_t, enter]
        rw [usesAll, bindersAll, ← names]
        exact grows.trans ready.sound there.grows
      · intro R all
        refine .cons (.define (all _ _ (there.grows.keeps _ _ known))
          (resolves R fun i z h => all i z (there.grows.keeps i z h))) ?_
        rw [enterBind, ← scope_t]
        exact there.resolves R all
    · rw [plain] at place here
      refine (here s ready.first).post ?_
      intro a t here
      have ready' := ready.next here.grows (here.grows.inScope here.env ready.inScope)
      rw [ends_bind]
      refine (ih' (by simp [here.env, env]) ready' _ (here.env.trans env)).post ?_
      intro as t' there
      rw [ends_pure]
      obtain ⟨new, sub, env'⟩ := there.env
      refine ⟨⟨new, ?_, by simp [env', here.env]⟩, ?_, ?_⟩
      · intro p mem
        rw [bindersAll, List.mem_append]
        exact .inr (sub p mem)
      · have rest := there.grows
        rw [scopeNames_eq here.env] at rest
        rw [usesAll, placed_enter place.1, bindersAll]
        exact here.grows.trans ready.sound rest
      · intro R all
        have first := here.resolves R fun i y h => all i y (there.grows.keeps i y h)
        refine .cons first ?_
        rw [placed_enterBind place.1 first, ← scope_eq here.env]
        exact there.resolves R all

theorem makeBindings_ends {names : List Symbol} {s : State} (ready : Ready s names) :
    Ends (makeBindings names) s (fun bs s' => bs.map Prod.fst = names ∧ s'.env = s.env ∧
      (∀ p ∈ bs, Rec s'.heap p.2 p.1) ∧ Grows s.heap s'.heap names []) fun _ => False := by
  induction names generalizing s with
  | nil =>
    rw [makeBindings, ends_pure]
    exact ⟨rfl, rfl, by simp, .refl ready.sound⟩
  | cons x names ih =>
    let t : State := { s with heap := s.heap.alloc ⟨0, false, .sym x⟩ }
    have made : Grows s.heap t.heap [x] [] := .alloc ready.sound (ready.fresh x (by simp))
    have known : Rec t.heap s.heap.next x := rec_alloc.mpr (.inr ⟨rfl, rfl⟩)
    have all : Ready s ([x] ++ names) := ready
    have ready' : Ready t names := all.next made (made.inScope rfl ready.inScope)
    rw [makeBindings, ends_bind]
    change Ends _ t _ _
    rw [ends_bind]
    refine (ih ready').post ?_
    rintro bs u ⟨same, env, recs, grows⟩
    rw [ends_pure]
    refine ⟨by simp [same], env, ?_, made.trans ready.sound grows⟩
    intro p mem
    rcases List.mem_cons.mp mem with rfl | mem
    · exact grows.keeps _ _ known
    · exact recs p mem

theorem lookup_params {bs new : Frame} (params : ∀ p ∈ new, p.1 ∉ bs.map Prod.fst) {x : Symbol}
    (mem : x ∈ bs.map Prod.fst) : (new ++ bs).lookup x = bs.lookup x := by
  rw [List.lookup_append]
  have none : new.lookup x = none := by
    rw [← Option.not_isSome_iff_eq_none, Bool.not_eq_true, Bool.eq_false_iff]
    intro found
    obtain ⟨p, hp, same⟩ := List.mem_map.mp (lookup_isSome.mp found)
    exact params p hp (same ▸ mem)
  rw [none]
  rfl

theorem analyzeLambda_ends {args : Formals} {body : List Node}
    (each : ∀ x ∈ body, Analyses (itemValue x)) (place : placedBody body = true) :
    Analyses (.lambda args body) := by
  intro s ready
  rw [binders] at ready
  rw [analyze, analyzeLambda, ends_bind]
  refine (makeBindings_ends ready.first).post ?_
  rintro bs t ⟨names, env, recs, made⟩
  let u : State := { t with env := bs :: t.env }
  rw [ends_bind, ends_modify]
  change Ends _ u _ _
  rw [ends_bind]
  have scope_u : scope u = bs ++ scope s := by simp [scope, u, env]
  have ready' : Ready u (bindersAll body) := by
    have made' : Grows s.heap u.heap args.names [] := made
    refine ready.next made' ?_
    intro p mem
    rw [scope_u, List.mem_append] at mem
    rcases mem with mem | mem
    · exact recs p mem
    · exact made.keeps _ _ (ready.inScope p mem)
  refine (analyzeBody_ends each place (by simp [u]) ready').post ?_
  intro body' w inner
  obtain ⟨new, sub, env'⟩ := inner.env
  rw [ends_bind, ends_get, ends_bind, ends_set, ends_pure]
  have grows : Grows s.heap w.heap (args.names ++ bindersAll body)
      (usesAll (args.names ++ scopeNames s) body) := by
    have := made.trans ready.sound inner.grows
    rwa [scopeNames, scope_u, List.map_append, names] at this
  refine ⟨by simp [env', u, env], grows, fun R all => ?_⟩
  rw [env', List.headD_cons]
  refine Resolves.lambda names ?_ ?_ ?_
  · intro p mem
    exact all _ _ (inner.grows.keeps _ _ (recs p mem))
  · intro x mem
    refine lookup_params ?_ (names ▸ mem)
    intro p hp hx
    exact (List.nodup_append.mp ready.nodup).2.2 p.1 (names ▸ hx) p.1 (sub p hp) rfl
  · rw [← scope_u]
    exact inner.resolves R all

theorem placedAll_iff {xs : List Node} : placedAll xs = true ↔ ∀ x ∈ xs, placed x = true := by
  induction xs with
  | nil => simp [placedAll]
  | cons y ys ih => simp [placedAll, ih]

theorem placedBody_iff {xs : List Node} :
    placedBody xs = true ↔ ∀ x ∈ xs, placed (itemValue x) = true := by
  induction xs with
  | nil => simp [placedBody]
  | cons y ys ih => simp [placedBody_cons, ih]

theorem placed_itemValue {n : Node} (place : placed n = true) : itemValue n = n := by
  rcases item_cases n with ⟨y, v, rfl⟩ | ⟨plain, _⟩
  · simp [placed] at place
  · exact plain

theorem analyses_sym (x : Symbol) : Analyses (.sym x) := by
  intro s ready
  have same : envLookup s.env x = (scope s).lookup x := envLookup_eq s.env x
  rw [analyze, ends_bind, ends_get, same]
  have seen := lookup_isSome (E := scope s) (x := x)
  cases found : (scope s).lookup x with
  | none =>
    rw [found] at seen
    dsimp only
    rw [ends_pure]
    have out : x ∉ scopeNames s := by simpa [scopeNames] using seen
    refine ⟨rfl, ?_, fun R _ => .unbound found⟩
    rw [binders, uses, if_neg out]
    exact .refl ready.sound
  | some b =>
    rw [found] at seen
    dsimp only
    have here : x ∈ scopeNames s := seen.mp rfl
    have known : Rec s.heap b x := ready.inScope _ (mem_of_lookup found)
    rw [freshReference, ends_bind, ends_modify, ends_pure]
    refine ⟨rfl, ?_, fun R _ => .bound found⟩
    rw [binders, uses, if_pos here]
    exact .use ready.sound known rfl (by simp) (by simp)

theorem analyses_set {x : Symbol} {v : Node} (ih : Analyses v) : Analyses (.set x v) := by
  intro s ready
  have same : envLookup s.env x = (scope s).lookup x := envLookup_eq s.env x
  rw [analyze, analyzeAssigment, ends_bind, ends_get, same]
  have seen := lookup_isSome (E := scope s) (x := x)
  cases found : (scope s).lookup x with
  | none =>
    rw [found] at seen
    dsimp only
    rw [ends_pure]
    have out : x ∉ scopeNames s := by simpa [scopeNames] using seen
    refine ⟨rfl, ?_, fun R _ => .unassigned found⟩
    rw [uses, if_neg out]
    exact (Grows.refl ready.sound).widen (by simp)
  | some b =>
    rw [found] at seen
    dsimp only
    have here : x ∈ scopeNames s := seen.mp rfl
    have known : Rec s.heap b x := ready.inScope _ (mem_of_lookup found)
    let t : State := { s with heap := bindingIncref (bindingMutateSet s.heap b) b }
    have same : t.heap =
        s.heap.put b ⟨(s.heap.get b).refCount + 1, true, (s.heap.get b).value⟩ := by
      simp only [t, bindingIncref, bindingMutateSet, Heap.put, if_true, Heap.mk.injEq, true_and]
      funext j
      split <;> rfl
    have step : Grows s.heap t.heap [] [⟨x, true⟩] := by
      rw [same]
      exact .use ready.sound known rfl (by simp) (by simp)
    rw [ends_bind, ends_set]
    change Ends _ t _ _
    have all : Ready s ([] ++ binders v) := ready
    have ready' : Ready t (binders v) := all.next step (step.inScope rfl ready.inScope)
    rw [ends_bind]
    refine (ih t ready').post ?_
    intro a u rest
    rw [ends_pure]
    refine ⟨rest.env, ?_, fun R all => ?_⟩
    · rw [uses, if_pos here]
      exact step.trans ready.sound rest.grows
    · exact .set found (rest.resolves R all)

theorem ends_analyze_bind {n : Node} {rest : List Symbol} {s : State} {β : Type}
    {f : Analyzed → Analysis β} {Q : β → State → Prop} (ih : Analyses n)
    (ready : Ready s (binders n ++ rest))
    (next : ∀ a t, Analysed s n a t → Ready t rest → Ends (f a) t Q fun _ => False) :
    Ends (analyze n >>= f) s Q fun _ => False := by
  rw [ends_bind]
  refine (ih s ready.first).post ?_
  intro a t here
  exact next a t here (ready.next here.grows (here.grows.inScope here.env ready.inScope))

theorem analyses (n : Node) : placed (itemValue n) = true → Analyses (itemValue n) := by
  have inside {n : Node} (ih : placed (itemValue n) = true → Analyses (itemValue n))
      (place : placed n = true) : Analyses n := by
    have := ih (by rwa [placed_itemValue place])
    rwa [placed_itemValue place] at this
  induction n with
  | const d =>
    intro _ s ready
    exact ⟨rfl, .refl ready.sound, fun _ _ => .const⟩
  | quote d =>
    intro _ s ready
    exact ⟨rfl, .refl ready.sound, fun _ _ => .quote⟩
  | extend names => simp [itemValue, placed]
  | define x v ih => exact inside ih
  | sym x => exact fun _ => analyses_sym x
  | lambda args body ih =>
    intro place
    change placedBody body = true at place
    exact analyzeLambda_ends (fun x hx => ih x hx (placedBody_iff.mp place x hx)) place
  | set x v ih => exact fun place => analyses_set (inside ih place)
  | ite p c t hp hc ht =>
    intro place s ready
    simp only [itemValue, placed, Bool.and_eq_true] at place
    change Ready s (binders p ++ binders c ++ binders t) at ready
    change Ends (analyze (.ite p c t)) s (Analysed s (.ite p c t)) _
    rw [List.append_assoc] at ready
    rw [analyze]
    refine ends_analyze_bind (inside hp place.1.1) ready fun p' s1 first ready' => ?_
    refine ends_analyze_bind (inside hc place.1.2) ready' fun c' s2 second ready'' => ?_
    rw [ends_bind]
    refine (inside ht place.2 s2 ready'').post fun t' s3 third => ?_
    rw [ends_pure]
    have env := second.env.trans first.env
    have rest := second.grows.trans ready'.sound third.grows
    rw [scopeNames_eq first.env, scopeNames_eq env] at rest
    refine ⟨third.env.trans env, ?_, fun R all => ?_⟩
    · rw [binders, uses, List.append_assoc, List.append_assoc]
      exact first.grows.trans ready.sound rest
    · have known : ∀ i x, Rec s2.heap i x → R i x := fun i x h => all i x (third.grows.keeps i x h)
      have two := second.resolves R known
      have three := third.resolves R all
      rw [scope_eq first.env] at two
      rw [scope_eq env] at three
      exact .ite (first.resolves R fun i x h => known i x (second.grows.keeps i x h)) two three
  | begin forms ih =>
    intro place s ready
    change placedAll forms = true at place
    change Ready s (bindersAll forms) at ready
    change Ends (analyze (.begin forms)) s (Analysed s (.begin forms)) _
    rw [analyze, ends_bind]
    refine (analyzeAll_ends (fun x hx => inside (ih x hx) (placedAll_iff.mp place x hx)) place
      ready).post fun as t here => ?_
    rw [ends_pure]
    exact ⟨here.env, here.grows, fun R known => .begin (here.resolves R known)⟩
  | app f args hf ih =>
    intro place s ready
    simp only [itemValue, placed, Bool.and_eq_true] at place
    change Ready s (binders f ++ bindersAll args) at ready
    change Ends (analyze (.app f args)) s (Analysed s (.app f args)) _
    rw [analyze]
    refine ends_analyze_bind (inside hf place.1) ready fun f' t first ready' => ?_
    rw [ends_bind]
    refine (analyzeAll_ends (fun x hx => inside (ih x hx) (placedAll_iff.mp place.2 x hx)) place.2
      ready').post fun as u second => ?_
    rw [ends_pure]
    refine ⟨second.env.trans first.env, ?_, fun R all => ?_⟩
    · have rest := second.grows
      rw [scopeNames_eq first.env] at rest
      exact first.grows.trans ready.sound rest
    · have rest := second.resolves R all
      rw [scope_eq first.env] at rest
      exact .app (first.resolves R fun i y h => all i y (second.grows.keeps i y h)) rest

theorem isCore_placed {n : Node} (core : isCore n = true) : placed n = true := by
  have both : (isCore n = true → placed n = true) ∧
      ∀ y v, n = .define y v → isCore v = true → placed v = true := by
    clear core
    induction n with
    | const | sym | quote => simp [placed]
    | extend names => simp [isCore]
    | define y v ih =>
      refine ⟨by simp [isCore], ?_⟩
      rintro _ _ ⟨⟩
      exact ih.1
    | set x v ih => simpa [isCore, placed] using ih.1
    | ite p a b hp ha hb =>
      refine ⟨fun core => ?_, by simp⟩
      simp only [isCore, Bool.and_eq_true] at core
      simp only [placed, Bool.and_eq_true]
      exact ⟨⟨hp.1 core.1.1, ha.1 core.1.2⟩, hb.1 core.2⟩
    | begin forms ih =>
      refine ⟨fun core => ?_, by simp⟩
      simp only [isCore, Bool.and_eq_true, isCoreAll_iff] at core
      rw [placed, placedAll_iff]
      exact fun x hx => (ih x hx).1 (core.2 x hx)
    | app f args hf ih =>
      refine ⟨fun core => ?_, by simp⟩
      simp only [isCore, Bool.and_eq_true, isCoreAll_iff] at core
      simp only [placed, Bool.and_eq_true, placedAll_iff]
      exact ⟨hf.1 core.1.2, fun x hx => (ih x hx).1 (core.2 x hx)⟩
    | lambda args body ih =>
      refine ⟨fun core => ?_, by simp⟩
      have parts := isCoreBody_parts (by simpa [isCore] using core)
      rw [placed, placedBody_iff]
      intro x hx
      have hx' := hx
      rw [parts.split, List.mem_append] at hx'
      rcases hx' with def' | expr
      · obtain ⟨y, v, rfl, value⟩ := parts.defines x def'
        exact (ih _ hx).2 y v rfl value
      · have := (ih x hx).1 (parts.exprs x expr)
        rwa [placed_itemValue this]
  exact both.1 core

/-- The records of a heap tell of the uses U of a whole program. -/
structure Facts (R : Nat → Symbol → Prop) (U : List Use) (h : Heap) : Prop where
  count : ∀ i x, R i x → (0 < (h.get i).refCount ↔ used U x = true)
  mutate : ∀ i x, R i x → (h.get i).mutate = assigned U x

theorem analyze_ends {p : Node} (place : placed p = true) (nodup : (binders p).Nodup) :
    Ends (analyze p) start (fun a s => Resolves (Rec s.heap) [] p a ∧ Sound s.heap ∧
      Facts (Rec s.heap) (uses [] p) s.heap) fun _ => False := by
  have analysed := analyses p (by rwa [placed_itemValue place])
  rw [placed_itemValue place] at analysed
  have ready : Ready start (binders p) :=
    ⟨⟨by simp [start], by simp [start, Rec], by intros; exact ⟨rfl, rfl⟩⟩, by simp [scope, start],
      by simp [start, Rec], nodup⟩
  refine (analysed start ready).post fun a s here => ?_
  refine ⟨here.resolves _ fun _ _ => id, here.grows.sound,
    ⟨fun i x known => ?_, fun i x known => ?_⟩⟩
  · have := here.grows.counts i x known
    simpa [scopeNames, scope, start] using this
  · have := here.grows.mutates i x known
    rw [Bool.eq_iff_iff, this]
    simp [scopeNames, scope, start]

end LGears.Resolution
