import LGears.OptimizerPlaces

/- What ties the run of an optimized program to the run of its source. A variable that is left
   has a cell in both; one that is inlined has a cell in the source alone, and each of its uses
   denotes what the cell holds. -/
namespace LGears.OptimizerLink
open PrimitivesInfo Values Machine Cps CoreProgram Inlining OptimizerScope OptimizerPlaces Resolution
  Renaming

/-- How a cell of the source is used: it belongs to a variable that is assigned to, to one that
    gets its value once, or to one without a counterpart. -/
inductive Kind where
  | moving
  | once
  | lone

/-- Where the objects of the source are in the optimized run, what the run of the source will
    never change again, and which closures of the optimized run are in use. -/
structure Link where
  objs : Ren
  procs : Ren
  fixed : Nat → Option Obj
  kind : Nat → Option Kind
  code : Nat → Option (Formals × List Node × Env)

structure Link.Grows (L L₁ : Link) : Prop where
  objs : L.objs ≤ L₁.objs
  procs : L.procs ≤ L₁.procs
  fixed : ∀ {l o}, L.fixed l = some o → L₁.fixed l = some o
  kind : ∀ {l k}, L.kind l = some k → L₁.kind l = some k
  code : ∀ {l c}, L.code l = some c → L₁.code l = some c

/-- The kind of the cell of a variable that is left. -/
def kindOf (U : List Use) (x : Symbol) : Kind := if assigned U x then .moving else .once

/-- A variable that is left is at corresponding places. -/
def Link.Own (L : Link) (U : List Use) (x : Symbol) (ρ ρ' : Env) : Prop :=
  ∃ l l', ρ x = some l ∧ ρ' x = some l' ∧ L.objs l l' ∧ L.kind l = some (kindOf U x)

/-- The value a variable has for good. -/
def Link.held (L : Link) (ρ : Env) (x : Symbol) : Option Value :=
  match ρ x with
  | none => none
  | some l => match L.fixed l with
    | some (.cell v) => v
    | _ => none

/-- The variables of a place that are not inlined. -/
structure Ground (U : List Use) (L : Link) (ahead : List Symbol) (σ : Subst) (ρ ρ' : Env) :
    Prop where
  words : ∀ y ∈ seenIn σ ++ ahead, variableName y = true
  values : ∀ p ∈ σ, isDefine p.2 = false
  outer : ∀ {y}, y ∉ seenIn σ → y ∉ ahead → ρ y = none
  builtins : ∀ {y}, y ∈ builtinNames → ρ' y = none
  coming : ∀ {y}, y ∈ ahead → y ∉ seenIn σ → used U y = true → L.Own U y ρ ρ'
  own : ∀ {y}, σ.lookup y = some (.sym y) → used U y = true → L.Own U y ρ ρ'

/-- A variable whose uses become something else. -/
structure Gone (U : List Use) (σ : Subst) (x : Symbol) (w : Node) : Prop where
  found : σ.lookup x = some w
  other : w ≠ .sym x
  used : used U x = true

/-- What a node that stands for the uses of a variable gives, in the optimized run and
    wherever the names in the list are bound as in ρ'. -/
inductive Denotes (U : List Use) (L : Link) (ρ' : Env) : List Symbol → Node → Value → Prop where
  | const {around : List Symbol} (d : Datum) : Denotes U L ρ' around (.const d) (literal d)
  | quote {around : List Symbol} (d : Datum) : Denotes U L ρ' around (.quote d) (literal d)
  | var {around : List Symbol} {y : Symbol} {l l' : Nat} {v : Value} (mem : y ∈ around)
      (here : ρ' y = some l') (rel : L.objs l l') (val : L.fixed l = some (.cell (some v))) :
      Denotes U L ρ' around (.sym y) v
  | lambda {around ahead : List Symbol} {n : Nat} {args : Formals} {body : List Node} {ρ : Env}
      {σ : Subst} (here : L.fixed n = some (.closure args body ρ))
      (fits : Fits U (seenIn σ) ahead (.lambda args body))
      (sub : ∀ y ∈ seenIn σ ++ ahead, y ∈ around) (ground : Ground U L ahead σ ρ ρ')
      (settled : ∀ x w, Gone U σ x w → assigned U x = false ∧ (L.held ρ x).isSome = true)
      (each : ∀ x w v, Gone U σ x w → L.held ρ x = some v →
        Denotes U L ρ' (seenIn σ ++ ahead) w v) :
      Denotes U L ρ' around (.lambda args (optBody U (own args.names ++ σ) body)) (.proc n)

/-- The variables of a place in the source and in the optimized program. -/
structure Scope (U : List Use) (L : Link) (ahead : List Symbol) (σ : Subst) (ρ ρ' : Env) : Prop
    extends Ground U L ahead σ ρ ρ' where
  settled : ∀ x w, Gone U σ x w → assigned U x = false ∧ (L.held ρ x).isSome = true
  each : ∀ x w v, Gone U σ x w → L.held ρ x = some v →
    Denotes U L ρ' (seenIn σ ++ ahead) w v

/-- The closure of an optimized lambda. -/
def Called (U : List Use) (L : Link) : ClosureRel := fun _ β args body ρ args' body' ρ' =>
  args' = args ∧ ∃ σ ahead, body' = optBody U (own args.names ++ σ) body ∧
    Fits U (seenIn σ) ahead (.lambda args body) ∧ Scope U { L with objs := β } ahead σ ρ ρ'

/-- What a cell of each kind shows. -/
def Shows (L : Link) (s : State) (l : Nat) : Kind → Prop
  | .moving => L.fixed l = none
  | .once => L.fixed l = none ∧ s.get l = some (.cell none) ∨
      ∃ v, L.fixed l = some (.cell (some v))
  | .lone => L.fixed l = none ∧ ∀ n, ¬ L.objs l n

structure Linked (W : World) (U : List Use) (L : Link) (s s' : State) : Prop where
  rel : StateRel W (Called U L) L.objs L.procs s s'
  fixed : ∀ {l o}, L.fixed l = some o → s.get l = some o
  kinds : ∀ {l k}, L.kind l = some k → l < s.top ∧ Shows L s l k
  code : ∀ {l args body η}, L.code l = some (args, body, η) →
    s'.get l = some (.closure args body η)

section link
variable {U : List Use} {L L₁ L₂ : Link}

theorem Link.Grows.refl (L : Link) : L.Grows L := ⟨le_refl _, le_refl _, id, id, id⟩

theorem Link.Grows.trans (first : L.Grows L₁) (second : L₁.Grows L₂) : L.Grows L₂ where
  objs := le_trans first.objs second.objs
  procs := le_trans first.procs second.procs
  fixed h := second.fixed (first.fixed h)
  kind h := second.kind (first.kind h)
  code h := second.code (first.code h)

theorem Link.Own.grow (grow : L.Grows L₁) {x : Symbol} {ρ ρ' : Env} (h : L.Own U x ρ ρ') :
    L₁.Own U x ρ ρ' := by
  obtain ⟨l, l', hl, hl', rel, kind⟩ := h
  exact ⟨l, l', hl, hl', grow.objs _ _ rel, grow.kind kind⟩

theorem Link.Own.move {x : Symbol} {ρ ρ' ρ₁ : Env} (h : L.Own U x ρ ρ') (same : ρ₁ x = ρ' x) :
    L.Own U x ρ ρ₁ := by
  obtain ⟨l, l', hl, hl', rel, kind⟩ := h
  exact ⟨l, l', hl, by rw [same, hl'], rel, kind⟩

theorem held_iff {ρ : Env} {x : Symbol} {v : Value} :
    L.held ρ x = some v ↔ ∃ l, ρ x = some l ∧ L.fixed l = some (.cell (some v)) := by
  unfold Link.held
  cases ρ x with
  | none => simp
  | some l =>
    simp only [Option.some.injEq, exists_eq_left']
    cases L.fixed l with
    | none => simp
    | some o => cases o <;> simp

theorem held_grow (grow : L.Grows L₁) {ρ : Env} {x : Symbol} {v : Value}
    (h : L.held ρ x = some v) : L₁.held ρ x = some v := by
  obtain ⟨l, hl, hv⟩ := held_iff.mp h
  exact held_iff.mpr ⟨l, hl, grow.fixed hv⟩

theorem held_back (grow : L.Grows L₁) {ρ : Env} {x : Symbol} {v : Value}
    (known : (L.held ρ x).isSome = true) (h : L₁.held ρ x = some v) : L.held ρ x = some v := by
  obtain ⟨w, hw⟩ := Option.isSome_iff_exists.mp known
  have := held_grow grow hw
  rw [h] at this
  rw [hw, this]

/-- Two environments of the optimized run with the same variables. -/
structure Alike (around : List Symbol) (ρ' ρ₁ : Env) : Prop where
  same : ∀ y ∈ around, ρ₁ y = ρ' y
  builtins : ∀ y ∈ builtinNames, ρ' y = none → ρ₁ y = none

theorem Alike.refl (around : List Symbol) (ρ' : Env) : Alike around ρ' ρ' :=
  ⟨fun _ _ => rfl, fun _ _ h => h⟩

theorem Alike.sub {around less : List Symbol} {ρ' ρ₁ : Env} (alike : Alike around ρ' ρ₁)
    (sub : ∀ y ∈ less, y ∈ around) : Alike less ρ' ρ₁ :=
  ⟨fun y hy => alike.same y (sub y hy), alike.builtins⟩

theorem Alike.trans {around : List Symbol} {ρ' ρ₁ ρ₂ : Env} (first : Alike around ρ' ρ₁)
    (second : Alike around ρ₁ ρ₂) : Alike around ρ' ρ₂ :=
  ⟨fun y hy => (second.same y hy).trans (first.same y hy),
    fun y hy none => second.builtins y hy (first.builtins y hy none)⟩

theorem Ground.move {ahead : List Symbol} {σ : Subst} {ρ ρ' ρ₁ : Env}
    (h : Ground U L ahead σ ρ ρ') (grow : L.Grows L₁) (alike : Alike (seenIn σ ++ ahead) ρ' ρ₁) :
    Ground U L₁ ahead σ ρ ρ₁ where
  words := h.words
  values := h.values
  outer := h.outer
  builtins mem := alike.builtins _ mem (h.builtins mem)
  coming mem out use :=
    ((h.coming mem out use).grow grow).move (alike.same _ (List.mem_append_right _ mem))
  own {y} found use := by
    have mem : y ∈ seenIn σ := lookup_isSome.mp (by simp [found])
    exact ((h.own found use).grow grow).move (alike.same _ (List.mem_append_left _ mem))

theorem Denotes.move {around more : List Symbol} {ρ' ρ₁ : Env} {w : Node} {v : Value}
    (h : Denotes U L ρ' around w v) (grow : L.Grows L₁) (sub : ∀ y ∈ around, y ∈ more)
    (alike : Alike around ρ' ρ₁) : Denotes U L₁ ρ₁ more w v := by
  induction h generalizing more with
  | const d => exact .const d
  | quote d => exact .quote d
  | var mem here rel val =>
    exact .var (sub _ mem) (by rw [alike.same _ mem, here]) (grow.objs _ _ rel) (grow.fixed val)
  | lambda here fits inside ground settled _ ih =>
    refine .lambda (grow.fixed here) fits (fun y hy => sub y (inside y hy))
      (ground.move grow (alike.sub inside)) (fun x w gone => ?_) fun x w v gone held => ?_
    · have known := settled x w gone
      obtain ⟨v, hv⟩ := Option.isSome_iff_exists.mp known.2
      exact ⟨known.1, by rw [held_grow grow hv]; rfl⟩
    · exact ih x w v gone (held_back grow (settled x w gone).2 held) (fun y hy => hy)
        (alike.sub inside)

theorem Scope.grow {ahead : List Symbol} {σ : Subst} {ρ ρ' : Env} (h : Scope U L ahead σ ρ ρ')
    (grow : L.Grows L₁) : Scope U L₁ ahead σ ρ ρ' where
  toGround := h.toGround.move grow (.refl _ _)
  settled x w gone := by
    have known := h.settled x w gone
    obtain ⟨v, hv⟩ := Option.isSome_iff_exists.mp known.2
    exact ⟨known.1, by rw [held_grow grow hv]; rfl⟩
  each x w v gone held :=
    (h.each x w v gone (held_back grow (h.settled x w gone).2 held)).move grow (fun _ h => h)
      (.refl _ _)

theorem called_widening (U : List Use) (L : Link) : Widening (Called U L) := by
  rintro s s₁ β β' _ le args body ρ args' body' ρ' ⟨same, σ, ahead, code, fits, scope⟩
  exact ⟨same, σ, ahead, code, fits, scope.grow ⟨le, le_refl _, id, id, id⟩⟩

theorem called_grow (grow : L.Grows L₁) {s : State} {β : Ren} {args args' : Formals} {body body' : List Node}
    {ρ ρ' : Env} (h : Called U L s β args body ρ args' body' ρ') :
    Called U L₁ s β args body ρ args' body' ρ' := by
  obtain ⟨same, σ, ahead, code, fits, scope⟩ := h
  exact ⟨same, σ, ahead, code, fits, scope.grow ⟨le_refl _, grow.procs, grow.fixed, grow.kind, grow.code⟩⟩

end link

/-- Every object stays as it is. -/
def Keeps (s s₁ : State) : Prop := ∀ l o, s.get l = some o → s₁.get l = some o

theorem grown_keeps {s s₁ : State} (h : Grown s s₁) : Keeps s s₁ := by
  induction h with
  | refl => exact fun _ _ => id
  | alloc _ o ih => exact fun l p found => get_alloc (ih l p found) o

theorem build_keeps (s : State) (answer : Answer) : Keeps s (s.build answer).2 := by
  induction answer generalizing s with
  | value v => exact fun _ _ => id
  | fresh kind => exact fun l p found => get_alloc found _
  | cons a d ihCar ihCdr => exact fun l p found => get_alloc (ihCar _ l p (ihCdr _ l p found)) _

theorem callBuiltin_keeps {W : World} {name : Symbol} {vs : List Value} {s s₁ : State} {v : Value}
    (h : callBuiltin W name vs s = some (v, s₁)) : Keeps s s₁ := by
  unfold callBuiltin at h
  split at h
  · simp at h
  · rename_i answer _
    have keeps := build_keeps s answer
    simp only [Option.some.injEq, Prod.mk.injEq] at h
    obtain ⟨_, rfl⟩ := h
    split <;> exact keeps

theorem mkList_keeps (s : State) (vs : List Value) : Keeps s (mkList s vs).2 := by
  induction vs generalizing s with
  | nil => exact fun _ _ => id
  | cons v vs ih => exact fun l p found => get_alloc (ih _ l p found) _

/-- A piece of both runs has been taken. Nothing below `base` has been settled meanwhile. -/
structure Reach (W : World) (U : List Use) (base : Nat) (L L₁ : Link) (s₁ s₁' : State) :
    Prop where
  grow : L.Grows L₁
  frame : ∀ l, l < base → L₁.fixed l = L.fixed l
  linked : Linked W U L₁ s₁ s₁'
  top : base ≤ s₁.top

/-- Whatever the source gives, the optimized program gives a counterpart. -/
def Follows (W : World) (U : List Use) (base : Nat) (L : Link) {T T' : Type}
    (R : Link → T → T' → Prop) (o : Outcome (T × State)) (o' : Outcome (T' × State)) : Prop :=
  ∀ v s₁, o = .ok (v, s₁) → ∃ w s₁' L₁, o' = .ok (w, s₁') ∧ Reach W U base L L₁ s₁ s₁' ∧ R L₁ v w

/-- The values correspond. -/
def ValueIn (L : Link) (v w : Value) : Prop := ValueRel L.objs L.procs v w

def ValuesIn (L : Link) (vs ws : List Value) : Prop :=
  List.Forall₂ (ValueRel L.objs L.procs) vs ws

section follows
variable {W : World} {U : List Use} {base : Nat} {L L₁ L₂ : Link} {s s' s₁ s₁' s₂ s₂' : State}
  {T T' V V' : Type}

theorem ValueIn.grow (grow : L.Grows L₁) {v w : Value} (h : ValueIn L v w) : ValueIn L₁ v w :=
  ValueRel.mono grow.objs grow.procs h

theorem ValuesIn.grow (grow : L.Grows L₁) {vs ws : List Value} (h : ValuesIn L vs ws) :
    ValuesIn L₁ vs ws := forall_mono grow.objs grow.procs h

theorem Reach.trans {base₁ : Nat} (first : Reach W U base L L₁ s₁ s₁') (le : base ≤ base₁)
    (second : Reach W U base₁ L₁ L₂ s₂ s₂') : Reach W U base L L₂ s₂ s₂' where
  grow := first.grow.trans second.grow
  frame l lt := by rw [second.frame l (by omega), first.frame l lt]
  linked := second.linked
  top := le_trans le second.top

theorem Linked.reach (h : Linked W U L s s') : Reach W U s.top L L s s' :=
  ⟨.refl _, fun _ _ => rfl, h, le_refl _⟩

theorem Follows.weaken {base₁ : Nat} {R : Link → T → T' → Prop} {o : Outcome (T × State)}
    {o' : Outcome (T' × State)} (h : Follows W U base₁ L R o o') (le : base ≤ base₁) :
    Follows W U base L R o o' := by
  intro v s₁ ran
  obtain ⟨w, s₁', L₁, ran', reach, related⟩ := h v s₁ ran
  exact ⟨w, s₁', L₁, ran', ⟨reach.grow, fun l lt => reach.frame l (by omega), reach.linked,
    le_trans le reach.top⟩, related⟩

theorem Follows.bindAt {R : Link → T → T' → Prop} {R' : Link → V → V' → Prop}
    {o : Outcome (T × State)} {o' : Outcome (T' × State)} {f : T × State → Outcome (V × State)}
    {f' : T' × State → Outcome (V' × State)} (h : Follows W U base L R o o')
    (rest : ∀ v w s₁ s₁' L₁, Reach W U base L L₁ s₁ s₁' → R L₁ v w →
      Follows W U base L₁ R' (f (v, s₁)) (f' (w, s₁'))) :
    Follows W U base L R' (o >>= f) (o' >>= f') := by
  intro v s₂ ran
  cases o with
  | timeout | stuck => cases ran
  | ok p =>
    obtain ⟨u, s₁⟩ := p
    obtain ⟨w, s₁', L₁, ran', reach, related⟩ := h u s₁ rfl
    obtain ⟨v', s₂', L₂, ran₂, reach₂, related₂⟩ :=
      rest u w s₁ s₁' L₁ reach related v s₂ ran
    exact ⟨v', s₂', L₂, by rw [ran', Outcome.ok_bind, ran₂],
      reach.trans (le_refl _) reach₂, related₂⟩

theorem Follows.bind {R : Link → T → T' → Prop} {R' : Link → V → V' → Prop}
    {o : Outcome (T × State)} {o' : Outcome (T' × State)} {f : T × State → Outcome (V × State)}
    {f' : T' × State → Outcome (V' × State)} (h : Follows W U base L R o o')
    (rest : ∀ v w s₁ s₁' L₁, Reach W U base L L₁ s₁ s₁' → R L₁ v w →
      Follows W U s₁.top L₁ R' (f (v, s₁)) (f' (w, s₁'))) :
    Follows W U base L R' (o >>= f) (o' >>= f') :=
  h.bindAt fun v w s₁ s₁' L₁ reach related =>
    (rest v w s₁ s₁' L₁ reach related).weaken reach.top

theorem Follows.after {R : Link → T → T' → Prop} {o : Outcome (T × State)}
    {o' : Outcome (T' × State)} (reach : Reach W U base L L₁ s₁ s₁')
    (h : Follows W U base L₁ R o o') : Follows W U base L R o o' := by
  intro v s₂ ran
  obtain ⟨w, s₂', L₂, ran', reach₂, related⟩ := h v s₂ ran
  exact ⟨w, s₂', L₂, ran', reach.trans (le_refl _) reach₂, related⟩

theorem Linked.done (h : Linked W U L s s') {R : Link → T → T' → Prop} {v : T} {w : T'}
    (related : R L v w) : Follows W U s.top L R (pure (v, s)) (pure (w, s')) := by
  rintro _ _ ⟨⟩
  exact ⟨w, s', L, rfl, h.reach, related⟩

theorem follows_stuck {R : Link → T → T' → Prop} {o' : Outcome (T' × State)} :
    Follows W U base L R .stuck o' := by
  intro _ _ ran
  cases ran

theorem relImp {K K' : ClosureRel} {β γ : Ren} (h : StateRel W K β γ s s')
    (imp : ∀ {args body ρ args' body' ρ'}, K s β args body ρ args' body' ρ' →
      K' s β args body ρ args' body' ρ') : StateRel W K' β γ s s' where
  objUniq := h.objUniq
  procUniq := h.procUniq
  objs := h.objs
  procs hp := by
    obtain ⟨args, body, ρ, args', body', ρ', hm, hn, related⟩ := h.procs hp
    exact ⟨args, body, ρ, args', body', ρ', hm, hn, imp related⟩
  trace := h.trace

theorem relGrow (grow : L.Grows L₁) (rel : StateRel W (Called U L) L₁.objs L₁.procs s₁ s₁') :
    StateRel W (Called U L₁) L₁.objs L₁.procs s₁ s₁' :=
  relImp rel fun h => called_grow grow h

theorem Linked.matched {A : Nat → Prop} {R : Ren → Ren → T → T → Prop} {o o' : Option (T × State)}
    (h : Linked W U L s s') (steps : Matched W (Called U L) A L.objs L.procs s s' R o o')
    (keeps : ∀ v s₁, o = some (v, s₁) → Keeps s s₁)
    (keeps' : ∀ v s₁, o' = some (v, s₁) → Keeps s' s₁) :
    Follows W U s.top L (fun L₁ => R L₁.objs L₁.procs) (.ofOption o) (.ofOption o') := by
  intro v s₁ ran
  cases o with
  | none => cases ran
  | some p =>
    obtain ⟨u, t⟩ := p
    cases ran
    cases o' with
    | none => exact steps.elim
    | some q =>
      obtain ⟨β₁, γ₁, rel, grow, related⟩ := steps
      have keep := keeps v s₁ rfl
      have grows : L.Grows { L with objs := β₁, procs := γ₁ } :=
        ⟨grow.objs, grow.procs, id, id, id⟩
      refine ⟨q.1, q.2, { L with objs := β₁, procs := γ₁ }, rfl,
        ⟨grows, fun _ _ => rfl, ⟨relGrow grows rel, fun found => keep _ _ (h.fixed found), ?_,
          fun found => keeps' q.1 q.2 rfl _ _ (h.code found)⟩, grow.left⟩, related⟩
      intro l k kind
      have shows := h.kinds kind
      refine ⟨lt_of_lt_of_le shows.1 grow.left, ?_⟩
      cases k with
      | moving => exact shows.2
      | once =>
        rcases shows.2 with ⟨none, unset⟩ | set
        · exact .inl ⟨none, keep _ _ unset⟩
        · exact .inr set
      | lone =>
        refine ⟨shows.2.1, fun n here => ?_⟩
        rcases grow.newObjs here with here | ⟨above, _⟩
        · exact shows.2.2 n here
        · have := shows.1
          omega

end follows

/-- An object of the source will not change any more. -/
def Link.fix (L : Link) (l : Nat) (o : Obj) : Link :=
  { L with fixed := Function.update L.fixed l (some o) }

def Link.mark (L : Link) (l : Nat) (k : Kind) : Link :=
  { L with kind := Function.update L.kind l (some k) }

def Link.pairObjs (L : Link) (m n : Nat) : Link := { L with objs := L.objs.add m n }

def Link.pairProcs (L : Link) (m n : Nat) : Link := { L with procs := L.procs.add m n }

section steps
variable {W : World} {U : List Use} {L L₁ : Link} {s s' s₁ : State} {l : Nat} {k : Kind} {o o' : Obj}

theorem fix_self : (L.fix l o).fixed l = some o := Function.update_self ..

theorem fix_ne {m : Nat} (ne : m ≠ l) : (L.fix l o).fixed m = L.fixed m :=
  Function.update_of_ne ne ..

theorem mark_self : (L.mark l k).kind l = some k := Function.update_self ..

theorem mark_ne {m : Nat} (ne : m ≠ l) : (L.mark l k).kind m = L.kind m :=
  Function.update_of_ne ne ..

theorem fix_grows (none : L.fixed l = none) : L.Grows (L.fix l o) where
  objs := le_refl _
  procs := le_refl _
  fixed {m p} found := by
    have ne : m ≠ l := fun e => by rw [e, none] at found; cases found
    rw [fix_ne ne, found]
  kind := id
  code := id

theorem mark_grows (none : L.kind l = none) : L.Grows (L.mark l k) where
  objs := le_refl _
  procs := le_refl _
  fixed := id
  kind {m j} found := by
    have ne : m ≠ l := fun e => by rw [e, none] at found; cases found
    rw [mark_ne ne, found]
  code := id

theorem pairObjs_grows (L : Link) (m n : Nat) : L.Grows (L.pairObjs m n) :=
  ⟨Ren.le_add _ _ _, le_refl _, id, id, id⟩

theorem pairProcs_grows (L : Link) (m n : Nat) : L.Grows (L.pairProcs m n) :=
  ⟨le_refl _, Ren.le_add _ _ _, id, id, id⟩

theorem Linked.new_fixed (h : Linked W U L s s') (above : s.top ≤ l) : L.fixed l = none := by
  cases found : L.fixed l with
  | none => rfl
  | some o =>
    have := get_lt (h.fixed found)
    omega

theorem Linked.new_kind (h : Linked W U L s s') (above : s.top ≤ l) : L.kind l = none := by
  cases found : L.kind l with
  | none => rfl
  | some k =>
    have := (h.kinds found).1
    omega

theorem Shows.keep (shows : Shows L s l k) (keep : ∀ o, s.get l = some o → s₁.get l = some o)
    (fixed : L₁.fixed l = L.fixed l) (objs : ∀ n, L₁.objs l n → L.objs l n) :
    Shows L₁ s₁ l k := by
  cases k with
  | moving => exact fixed.trans shows
  | once =>
    rcases shows with ⟨none, unset⟩ | ⟨v, set⟩
    · exact .inl ⟨fixed.trans none, keep _ unset⟩
    · exact .inr ⟨v, fixed.trans set⟩
  | lone => exact ⟨fixed.trans shows.1, fun n here => shows.2 n (objs n here)⟩

theorem Linked.fix (h : Linked W U L s s') (here : s.get l = some o) (none : L.fixed l = none)
    (noKind : L.kind l = Option.none) : Linked W U (L.fix l o) s s' where
  rel := relGrow (fix_grows none) h.rel
  fixed {m p} found := by
    by_cases same : m = l
    · subst same
      rw [fix_self] at found
      exact here.trans found
    · rw [fix_ne same] at found
      exact h.fixed found
  kinds {m j} found := by
    have ne : m ≠ l := fun e => by rw [e] at found; exact absurd (noKind.symm.trans found) (by simp)
    have shows := h.kinds (k := j) (l := m) found
    exact ⟨shows.1, shows.2.keep (fun _ => id) (fix_ne ne) fun _ => id⟩
  code := h.code

theorem Linked.mark (h : Linked W U L s s') (lt : l < s.top) (none : L.kind l = none)
    (shows : Shows L s l k) : Linked W U (L.mark l k) s s' where
  rel := relGrow (mark_grows none) h.rel
  fixed found := h.fixed found
  kinds {m j} found := by
    by_cases same : m = l
    · subst same
      rw [mark_self, Option.some.injEq] at found
      subst found
      exact ⟨lt, shows.keep (fun _ => id) rfl fun _ => id⟩
    · rw [mark_ne same] at found
      have shows := h.kinds found
      exact ⟨shows.1, shows.2.keep (fun _ => id) rfl fun _ => id⟩
  code found := h.code found

theorem Linked.allocLeft (h : Linked W U L s s') (o : Obj) : Linked W U L (s.alloc o) s' where
  rel := h.rel.allocLeft (called_widening U L) o
  fixed found := get_alloc (h.fixed found) o
  kinds found := by
    have shows := h.kinds found
    exact ⟨by rw [top_alloc]; exact Nat.lt_succ_of_lt shows.1,
      shows.2.keep (fun _ found => get_alloc found o) rfl fun _ => id⟩
  code := h.code

theorem Linked.newCode (h : Linked W U L s s') (args : Formals) (body : List Node) (η : Env) :
    ∃ L₁, Reach W U s.top L L₁ s (s'.alloc (.closure args body η)) ∧
      L₁.code s'.top = some (args, body, η) := by
  have none : L.code s'.top = none := by
    cases found : L.code s'.top with
    | none => rfl
    | some c =>
      have placed : s'.get s'.top = some (.closure c.1 c.2.1 c.2.2) := h.code found
      have := get_lt placed
      omega
  have grows : L.Grows { L with code := Function.update L.code s'.top (some (args, body, η)) } := by
    refine ⟨le_refl _, le_refl _, id, id, fun {l c} found => ?_⟩
    have ne : l ≠ s'.top := fun e => by rw [e, none] at found; cases found
    exact (Function.update_of_ne ne ..).trans found
  refine ⟨_, ⟨grows, fun _ _ => rfl, ⟨relGrow grows (h.rel.allocRight (called_widening U L) _),
    h.fixed, fun found => ⟨(h.kinds found).1, ?_⟩, fun {l as code μ} found => ?_⟩, le_refl _⟩,
    Function.update_self ..⟩
  · exact (h.kinds found).2.keep (fun _ => id) rfl fun _ => id
  · by_cases same : l = s'.top
    · subst same
      have here := (Function.update_self ..).symm.trans found
      cases here
      exact get_alloc_top s' _
    · exact get_alloc (h.code ((Function.update_of_ne same ..).symm.trans found)) _

theorem Linked.grown (h : Linked W U L s s') (grown : Grown s s₁) : Linked W U L s₁ s' := by
  induction grown with
  | refl => exact h
  | alloc _ o ih => exact ih.allocLeft o

theorem Linked.allocBoth (h : Linked W U L s s') (rel : ObjRel L.objs L.procs o o') :
    Linked W U (L.pairObjs s.top s'.top) (s.alloc o) (s'.alloc o') where
  rel := relGrow (pairObjs_grows ..) (h.rel.allocObj (called_widening U L) rel)
  fixed found := get_alloc (h.fixed found) o
  kinds {m j} found := by
    have shows := h.kinds (k := j) (l := m) found
    refine ⟨by rw [top_alloc]; exact Nat.lt_succ_of_lt shows.1,
      shows.2.keep (fun _ found => get_alloc found o) rfl ?_⟩
    rintro n (here | ⟨rfl, _⟩)
    · exact here
    · have := shows.1
      omega
  code found := get_alloc (h.code found) o'

theorem Linked.mapProc (noProcs : W.eqProcs = false) (h : Linked W U L s s') {n : Nat}
    {args args' : Formals} {body body' : List Node} {ρ ρ' : Env}
    (here : s.get n = some (.closure args body ρ))
    (called : Called U L s L.objs args body ρ args' body' ρ') :
    Linked W U (L.pairProcs n s'.top) s (s'.alloc (.closure args' body' ρ')) where
  rel := relGrow (pairProcs_grows ..)
    (h.rel.mapProc (called_widening U L) here (by simp [noProcs]) called)
  fixed := h.fixed
  kinds := h.kinds
  code found := get_alloc (h.code found) _

theorem Linked.put (h : Linked W U L s s') {l' : Nat} {v w : Value} (rel : ValueIn L v w)
    (pair : L.objs l l') (kind : L.kind l = some .moving) (cell : ∃ u, s.get l = some (.cell u))
    (cell' : ∃ u, s'.get l' = some (.cell u)) :
    Linked W U L (s.put l (.cell (some v))) (s'.put l' (.cell (some w))) where
  rel := h.rel.put (called_widening U L) pair rel cell cell'
  fixed {m p} found := by
    have moving : L.fixed l = none := (h.kinds kind).2
    have ne : m ≠ l := fun e => by rw [e, moving] at found; cases found
    rw [get_put_ne _ _ ne, h.fixed found]
  kinds {m j} found := by
    have shows := h.kinds found
    refine ⟨by rw [top_put]; exact shows.1, ?_⟩
    by_cases same : m = l
    · subst same
      rw [kind, Option.some.injEq] at found
      subst found
      exact shows.2
    · exact shows.2.keep (fun _ found => by rw [get_put_ne _ _ same, found]) rfl fun _ => id
  code {m as body η} found := by
    have ne : m ≠ l' := by
      rintro rfl
      obtain ⟨u, hu⟩ := cell'
      have here := h.code found
      rw [hu] at here
      cases here
    rw [get_put_ne _ _ ne, h.code found]

theorem Linked.define (h : Linked W U L s s') {l' : Nat} {v w : Value} (rel : ValueIn L v w)
    (pair : L.objs l l') (kind : L.kind l = some .once) (none : L.fixed l = none)
    (cell : ∃ u, s.get l = some (.cell u)) (cell' : ∃ u, s'.get l' = some (.cell u)) :
    Linked W U (L.fix l (.cell (some v))) (s.put l (.cell (some v)))
      (s'.put l' (.cell (some w))) where
  rel := relGrow (fix_grows none) (h.rel.put (called_widening U L) pair rel cell cell')
  fixed {m p} found := by
    by_cases same : m = l
    · subst same
      rw [fix_self] at found
      rw [get_put_self _ _ (h.rel.obj_lt_left pair), found]
    · rw [fix_ne same] at found
      rw [get_put_ne _ _ same, h.fixed found]
  kinds {m j} found := by
    have shows := h.kinds (k := j) (l := m) found
    refine ⟨by rw [top_put]; exact shows.1, ?_⟩
    by_cases same : m = l
    · subst same
      have here : L.kind m = some j := found
      rw [kind, Option.some.injEq] at here
      subst here
      exact .inr ⟨v, fix_self⟩
    · exact shows.2.keep (fun _ found => by rw [get_put_ne _ _ same, found])
        (fix_ne same) fun _ => id
  code {m as body η} found := by
    have ne : m ≠ l' := by
      rintro rfl
      obtain ⟨u, hu⟩ := cell'
      have here := h.code found
      rw [hu] at here
      cases here
    rw [get_put_ne _ _ ne, h.code found]

theorem Linked.putLone (h : Linked W U L s s') (v : Value) (kind : L.kind l = some .lone)
    (cell : ∃ u, s.get l = some (.cell u)) : Linked W U L (s.put l (.cell (some v))) s' where
  rel := by
    have alone := (h.kinds kind).2.2
    exact {
      objUniq := h.rel.objUniq
      procUniq := h.rel.procUniq
      objs := fun {m n} here => by
        obtain ⟨o, p, hm, hn, rel⟩ := h.rel.objs here
        have ne : m ≠ l := fun e => alone n (e ▸ here)
        exact ⟨o, p, by rw [get_put_ne _ _ ne, hm], hn, rel⟩
      procs := fun {m n} here => by
        obtain ⟨args, body, ρ, args', body', ρ', hm, hn, called⟩ := h.rel.procs here
        have ne : m ≠ l := by
          rintro rfl
          obtain ⟨u, hu⟩ := cell
          rw [hu] at hm
          cases hm
        exact ⟨args, body, ρ, args', body', ρ', by rw [get_put_ne _ _ ne, hm], hn, called⟩
      trace := h.rel.trace }
  fixed {m p} found := by
    have ne : m ≠ l := fun e => by
      rw [e, (h.kinds kind).2.1] at found
      cases found
    rw [get_put_ne _ _ ne, h.fixed found]
  kinds {m j} found := by
    have shows := h.kinds found
    refine ⟨by rw [top_put]; exact shows.1, ?_⟩
    by_cases same : m = l
    · subst same
      rw [kind, Option.some.injEq] at found
      subst found
      exact shows.2
    · exact shows.2.keep (fun _ found => by rw [get_put_ne _ _ same, found]) rfl fun _ => id
  code := h.code

theorem Linked.newCell (h : Linked W U L s s') (x : Symbol) {v w : Value} (rel : ValueIn L v w) :
    ∃ L₁, Reach W U s.top L L₁ (s.alloc (.cell (some v))) (s'.alloc (.cell (some w))) ∧
      L₁.objs s.top s'.top ∧ L₁.kind s.top = some (kindOf U x) := by
  have both := h.allocBoth (.cell rel)
  have top : s.top < (s.alloc (.cell (some v))).top := by simp
  have noFixed : (L.pairObjs s.top s'.top).fixed s.top = none := h.new_fixed (le_refl _)
  have noKind : (L.pairObjs s.top s'.top).kind s.top = none := h.new_kind (le_refl _)
  have first := pairObjs_grows L s.top s'.top
  by_cases moves : assigned U x = true
  · refine ⟨(L.pairObjs s.top s'.top).mark s.top .moving, ⟨first.trans (mark_grows noKind),
      fun _ _ => rfl, both.mark top noKind noFixed, by simp⟩, Ren.add_self _ _ _, ?_⟩
    rw [mark_self, kindOf, if_pos moves]
  · have second := fix_grows (o := .cell (some v)) noFixed
    refine ⟨((L.pairObjs s.top s'.top).fix s.top (.cell (some v))).mark s.top .once,
      ⟨(first.trans second).trans (mark_grows noKind), fun l lt => ?_,
        (both.fix (get_alloc_top s _) noFixed noKind).mark top noKind (.inr ⟨v, fix_self⟩), by simp⟩,
      Ren.add_self _ _ _, ?_⟩
    · exact (fix_ne (by omega)).trans rfl
    · rw [mark_self, kindOf, if_neg moves]

theorem Linked.newUnset (h : Linked W U L s s') (x : Symbol) :
    ∃ L₁, Reach W U s.top L L₁ (s.alloc (.cell none)) (s'.alloc (.cell none)) ∧
      L₁.objs s.top s'.top ∧ L₁.kind s.top = some (kindOf U x) ∧ L₁.fixed s.top = none := by
  have both := h.allocBoth .unset
  have top : s.top < (s.alloc (.cell none)).top := by simp
  have noFixed : (L.pairObjs s.top s'.top).fixed s.top = none := h.new_fixed (le_refl _)
  have noKind : (L.pairObjs s.top s'.top).kind s.top = none := h.new_kind (le_refl _)
  have shows : Shows (L.pairObjs s.top s'.top) (s.alloc (.cell none)) s.top (kindOf U x) := by
    unfold kindOf
    split
    · exact noFixed
    · exact .inl ⟨noFixed, get_alloc_top s _⟩
  exact ⟨(L.pairObjs s.top s'.top).mark s.top (kindOf U x),
    ⟨(pairObjs_grows ..).trans (mark_grows noKind), fun _ _ => rfl, both.mark top noKind shows,
      by simp⟩, Ren.add_self _ _ _, mark_self, noFixed⟩

/- The source alone makes an object that stays as it is. -/
theorem Linked.newFixed (h : Linked W U L s s') (o : Obj) :
    ∃ L₁, Reach W U s.top L L₁ (s.alloc o) s' ∧ L₁.fixed s.top = some o :=
  have noFixed := h.new_fixed (le_refl s.top)
  ⟨L.fix s.top o, ⟨fix_grows noFixed, fun _ lt => fix_ne (by omega),
    (h.allocLeft o).fix (get_alloc_top s o) noFixed (h.new_kind (le_refl _)), by simp⟩, fix_self⟩

/- The source alone makes a cell for a variable that has no counterpart. -/
theorem Linked.newLone (h : Linked W U L s s') :
    ∃ L₁, Reach W U s.top L L₁ (s.alloc (.cell none)) s' ∧ L₁.kind s.top = some .lone ∧
      L₁.fixed s.top = none := by
  have noFixed := h.new_fixed (le_refl s.top)
  have noKind := h.new_kind (le_refl s.top)
  refine ⟨L.mark s.top .lone, ⟨mark_grows noKind, fun _ _ => rfl,
    (h.allocLeft _).mark (by simp) noKind ⟨noFixed, fun n here => ?_⟩, by simp⟩, mark_self, noFixed⟩
  have := h.rel.obj_lt_left here
  omega

end steps

section scope
variable {U : List Use} {L : Link} {ahead : List Symbol} {σ τ : Subst} {ρ ρ' ρ₁ : Env} {x : Symbol}
  {l l' : Nat}

theorem bind_self (ρ : Env) (x : Symbol) (l : Nat) : ρ.bind x l x = some l := by simp [Env.bind]

theorem bind_ne (ρ : Env) {x y : Symbol} (ne : y ≠ x) (l : Nat) : ρ.bind x l y = ρ y := by
  simp [Env.bind, ne]

theorem held_congr (same : ρ₁ x = ρ x) : L.held ρ₁ x = L.held ρ x := by
  rw [Link.held, Link.held, same]

theorem Link.Own.congr (h : L.Own U x ρ ρ') (same : ρ₁ x = ρ x) : L.Own U x ρ₁ ρ' := by
  obtain ⟨l, l', hl, rest⟩ := h
  exact ⟨l, l', by rw [same, hl], rest⟩

theorem variableName_notBuiltin (word : variableName x = true) : x ∉ builtinNames := by
  simp only [variableName, plainName, Bool.and_eq_true, Bool.not_eq_true', Bool.or_eq_false_iff,
    List.contains_eq_mem, decide_eq_false_iff_not] at word
  exact word.1.1.1

theorem variableName_notOperator (word : variableName x = true) : x ∉ primitivesOperators := by
  simp only [variableName, plainName, Bool.and_eq_true, Bool.not_eq_true', Bool.or_eq_false_iff,
    List.contains_eq_mem, decide_eq_false_iff_not] at word
  exact word.1.1.2

theorem variableName_notType (word : variableName x = true) : x ∉ Opcode.typeTests := by
  simp only [variableName, Bool.and_eq_true, Bool.not_eq_true', List.contains_eq_mem,
    decide_eq_false_iff_not] at word
  exact word.2

theorem mem_seenIn {w : Node} (found : σ.lookup x = some w) : x ∈ seenIn σ :=
  lookup_isSome.mp (by simp [found])

theorem alike_bind {around : List Symbol} (word : variableName x = true) (out : x ∉ around) (ρ' : Env)
    (l' : Nat) : Alike around ρ' (ρ'.bind x l') where
  same y hy := bind_ne ρ' (fun e => out (by rwa [← e])) l'
  builtins y hy none := by
    rw [bind_ne ρ' (fun e => variableName_notBuiltin word (by rwa [← e])) l', none]

theorem lookup_ne {w : Node} {y : Symbol} (ne : y ≠ x) : ((x, w) :: σ).lookup y = σ.lookup y := by
  rw [List.lookup_cons, beq_eq_false_iff_ne.mpr ne]

theorem lookup_self {w : Node} : ((x, w) :: σ).lookup x = some w := by
  rw [List.lookup_cons, beq_self_eq_true]

theorem Scope.congr (h : Scope U L ahead σ ρ ρ') (same : ∀ y, τ.lookup y = σ.lookup y)
    (values : ∀ p ∈ τ, isDefine p.2 = false) : Scope U L ahead τ ρ ρ' := by
  have seen (y : Symbol) : y ∈ seenIn τ ↔ y ∈ seenIn σ := by
    rw [seenIn, seenIn, ← lookup_isSome, ← lookup_isSome, same]
  have around (y : Symbol) : y ∈ seenIn τ ++ ahead ↔ y ∈ seenIn σ ++ ahead := by
    rw [List.mem_append, List.mem_append, seen]
  have gone {x : Symbol} {w : Node} (h : Gone U τ x w) : Gone U σ x w :=
    ⟨by rw [← same, h.found], h.other, h.used⟩
  exact {
    words := fun y hy => h.words y ((around y).mp hy)
    values := values
    outer := fun out => h.outer (by rwa [← seen])
    builtins := h.builtins
    coming := fun mem out => h.coming mem (by rwa [← seen])
    own := fun found => h.own (by rwa [← same])
    settled := fun x w g => h.settled x w (gone g)
    each := fun x w v g held =>
      (h.each x w v (gone g) held).move (.refl L) (fun y hy => (around y).mpr hy) (.refl _ _) }

theorem Scope.reorder {more : List Symbol} (h : Scope U L ahead σ ρ ρ')
    (same : ∀ y, y ∈ more ↔ y ∈ ahead) : Scope U L more σ ρ ρ' := by
  have around (y : Symbol) : y ∈ seenIn σ ++ more ↔ y ∈ seenIn σ ++ ahead := by
    rw [List.mem_append, List.mem_append, same]
  exact {
    words := fun y hy => h.words y ((around y).mp hy)
    values := h.values
    outer := fun out notAhead => h.outer out (by rwa [← same])
    builtins := h.builtins
    coming := fun mem out => h.coming ((same _).mp mem) out
    own := h.own
    settled := h.settled
    each := fun x w v g held =>
      (h.each x w v g held).move (.refl L) (fun y hy => (around y).mpr hy) (.refl _ _) }

theorem Scope.bindOwn (h : Scope U L ahead σ ρ ρ') (out : x ∉ seenIn σ ++ ahead)
    (word : variableName x = true) (pair : L.objs l l') (kind : L.kind l = some (kindOf U x)) :
    Scope U L ahead ((x, .sym x) :: σ) (ρ.bind x l) (ρ'.bind x l') := by
  have alike := alike_bind word out ρ' l'
  have apart {y : Symbol} (mem : y ∈ seenIn σ ++ ahead) : y ≠ x := fun e => out (e ▸ mem)
  have gone {y : Symbol} {w : Node} (g : Gone U ((x, .sym x) :: σ) y w) :
      y ≠ x ∧ Gone U σ y w := by
    have ne : y ≠ x := by
      rintro rfl
      have found := g.found
      rw [lookup_self, Option.some.injEq] at found
      exact g.other found.symm
    exact ⟨ne, by rw [← lookup_ne ne, g.found], g.other, g.used⟩
  have ground := h.toGround.move (.refl L) alike
  exact {
    words := fun y hy => by
      rcases List.mem_cons.mp hy with rfl | hy
      · exact word
      · exact h.words y hy
    values := List.forall_mem_cons.mpr ⟨rfl, h.values⟩
    outer := fun {y} notSeen notAhead => by
      rw [seenIn_cons, List.mem_cons, not_or] at notSeen
      rw [bind_ne ρ notSeen.1, h.outer notSeen.2 notAhead]
    builtins := ground.builtins
    coming := fun {y} mem notSeen use => by
      rw [seenIn_cons, List.mem_cons, not_or] at notSeen
      exact (ground.coming mem notSeen.2 use).congr (bind_ne ρ notSeen.1 l)
    own := fun {y} found use => by
      by_cases same : y = x
      · subst same
        exact ⟨l, l', bind_self .., bind_self .., pair, kind⟩
      · rw [lookup_ne same] at found
        exact (ground.own found use).congr (bind_ne ρ same l)
    settled := fun y w g => by
      rw [held_congr (bind_ne ρ (gone g).1 l)]
      exact h.settled y w (gone g).2
    each := fun y w v g held => by
      rw [held_congr (bind_ne ρ (gone g).1 l)] at held
      exact (h.each y w v (gone g).2 held).move (.refl L)
        (fun z hz => List.mem_cons_of_mem _ hz) alike }

theorem Denotes.other {w : Node} {v : Value} {around : List Symbol}
    (h : Denotes U L ρ' around w v) (out : x ∉ around) : w ≠ .sym x := by
  rintro rfl
  cases h with
  | var mem => exact out mem

theorem Denotes.notDefine {w : Node} {v : Value} {around : List Symbol}
    (h : Denotes U L ρ' around w v) : isDefine w = false := by
  cases h <;> rfl

/- A variable that is inlined is bound in the source alone. -/
theorem Scope.bindInlined (h : Scope U L ahead σ ρ ρ') (out : x ∉ seenIn σ ++ ahead)
    (word : variableName x = true) (kept : assigned U x = false) {v : Value} {w : Node}
    (set : L.fixed l = some (.cell (some v))) (denotes : Denotes U L ρ' (seenIn σ ++ ahead) w v) :
    Scope U L ahead ((x, w) :: σ) (ρ.bind x l) ρ' := by
  have other := denotes.other out
  have heldX : L.held (ρ.bind x l) x = some v := held_iff.mpr ⟨l, bind_self .., set⟩
  have gone {y : Symbol} {u : Node} (g : Gone U ((x, w) :: σ) y u) (ne : y ≠ x) :
      Gone U σ y u := ⟨by rw [← lookup_ne ne, g.found], g.other, g.used⟩
  exact {
    words := fun y hy => by
      rcases List.mem_cons.mp hy with rfl | hy
      · exact word
      · exact h.words y hy
    values := List.forall_mem_cons.mpr ⟨denotes.notDefine, h.values⟩
    outer := fun {y} notSeen notAhead => by
      rw [seenIn_cons, List.mem_cons, not_or] at notSeen
      rw [bind_ne ρ notSeen.1, h.outer notSeen.2 notAhead]
    builtins := h.builtins
    coming := fun {y} mem notSeen use => by
      rw [seenIn_cons, List.mem_cons, not_or] at notSeen
      exact (h.coming mem notSeen.2 use).congr (bind_ne ρ notSeen.1 l)
    own := fun {y} found use => by
      by_cases same : y = x
      · subst same
        rw [lookup_self, Option.some.injEq] at found
        exact absurd found other
      · rw [lookup_ne same] at found
        exact (h.own found use).congr (bind_ne ρ same l)
    settled := fun y u g => by
      by_cases same : y = x
      · subst same
        exact ⟨kept, by rw [heldX]; rfl⟩
      · rw [held_congr (bind_ne ρ same l)]
        exact h.settled y u (gone g same)
    each := fun y u v' g held => by
      have sub : ∀ z ∈ seenIn σ ++ ahead, z ∈ seenIn ((x, w) :: σ) ++ ahead :=
        fun z hz => List.mem_cons_of_mem _ hz
      by_cases same : y = x
      · subst same
        have found := g.found
        rw [lookup_self, Option.some.injEq] at found
        rw [heldX, Option.some.injEq] at held
        subst held found
        exact denotes.move (.refl L) sub (.refl _ _)
      · rw [held_congr (bind_ne ρ same l)] at held
        exact (h.each y u v' (gone g same) held).move (.refl L) sub (.refl _ _) }

theorem Scope.bindAhead (h : Scope U L ahead σ ρ ρ') (out : x ∉ seenIn σ ++ ahead)
    (word : variableName x = true)
    (pair : used U x = true → L.objs l l' ∧ L.kind l = some (kindOf U x)) :
    Scope U L (x :: ahead) σ (ρ.bind x l) (if used U x then ρ'.bind x l' else ρ') := by
  have alike : Alike (seenIn σ ++ ahead) ρ' (if used U x then ρ'.bind x l' else ρ') := by
    split
    · exact alike_bind word out ρ' l'
    · exact .refl _ _
  have apart {y : Symbol} (mem : y ∈ seenIn σ ++ ahead) : y ≠ x := fun e => out (e ▸ mem)
  have seen {y : Symbol} {w : Node} (found : σ.lookup y = some w) : y ≠ x :=
    apart (List.mem_append_left _ (mem_seenIn found))
  have ground := h.toGround.move (.refl L) alike
  exact {
    words := fun y hy => by
      rcases List.mem_append.mp hy with hy | hy
      · exact h.words y (List.mem_append_left _ hy)
      · rcases List.mem_cons.mp hy with rfl | hy
        · exact word
        · exact h.words y (List.mem_append_right _ hy)
    values := h.values
    outer := fun {y} notSeen notAhead => by
      rw [List.mem_cons, not_or] at notAhead
      rw [bind_ne ρ notAhead.1, h.outer notSeen notAhead.2]
    builtins := ground.builtins
    coming := fun {y} mem notSeen use => by
      by_cases same : y = x
      · subst same
        rw [if_pos use]
        exact ⟨l, l', bind_self .., bind_self .., pair use⟩
      · have mem : y ∈ ahead := by simpa [same] using mem
        exact (ground.coming mem notSeen use).congr (bind_ne ρ same l)
    own := fun {y} found use => (ground.own found use).congr (bind_ne ρ (seen found) l)
    settled := fun y w g => by
      rw [held_congr (bind_ne ρ (seen g.found) l)]
      exact h.settled y w g
    each := fun y w v g held => by
      rw [held_congr (bind_ne ρ (seen g.found) l)] at held
      refine (h.each y w v g held).move (.refl L) (fun z hz => ?_) alike
      rcases List.mem_append.mp hz with hz | hz
      · exact List.mem_append_left _ hz
      · exact List.mem_append_right _ (List.mem_cons_of_mem _ hz) }

theorem Scope.meet (h : Scope U L ahead σ ρ ρ') (mem : x ∈ ahead) (out : x ∉ seenIn σ) :
    Scope U L ahead ((x, .sym x) :: σ) ρ ρ' := by
  have gone {y : Symbol} {w : Node} (g : Gone U ((x, .sym x) :: σ) y w) : Gone U σ y w := by
    have ne : y ≠ x := by
      rintro rfl
      have found := g.found
      rw [lookup_self, Option.some.injEq] at found
      exact g.other found.symm
    exact ⟨by rw [← lookup_ne ne, g.found], g.other, g.used⟩
  exact {
    words := fun y hy => by
      rcases List.mem_cons.mp hy with rfl | hy
      · exact h.words y (List.mem_append_right _ mem)
      · exact h.words y hy
    values := List.forall_mem_cons.mpr ⟨rfl, h.values⟩
    outer := fun {y} notSeen notAhead => by
      rw [seenIn_cons, List.mem_cons, not_or] at notSeen
      exact h.outer notSeen.2 notAhead
    builtins := h.builtins
    coming := fun {y} mem notSeen use => by
      rw [seenIn_cons, List.mem_cons, not_or] at notSeen
      exact h.toGround.coming mem notSeen.2 use
    own := fun {y} found use => by
      by_cases same : y = x
      · subst same
        exact h.toGround.coming mem out use
      · rw [lookup_ne same] at found
        exact h.toGround.own found use
    settled := fun y w g => h.settled y w (gone g)
    each := fun y w v g held =>
      (h.each y w v (gone g) held).move (.refl L) (fun z hz => List.mem_cons_of_mem _ hz)
        (.refl _ _) }

end scope

end LGears.OptimizerLink
