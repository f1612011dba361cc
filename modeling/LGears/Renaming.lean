import LGears.Values

/- Two states that are equal up to where their objects are. β relates the places of
   variables, pairs and foreign objects, γ those of procedures; what it means for two
   closures to correspond is the parameter K. Either heap may hold objects of its own. -/
namespace LGears.Values

theorem ValueRel.mono {β β' γ γ' : Nat → Nat → Prop} (hβ : β ≤ β') (hγ : γ ≤ γ') {v w : Value}
    (h : ValueRel β γ v w) : ValueRel β' γ' v w := by
  cases h with
  | atom h => exact .atom h
  | ref h => exact .ref (hβ _ _ h)
  | proc h => exact .proc (hγ _ _ h)

theorem forall_mono {β β' γ γ' : Nat → Nat → Prop} (hβ : β ≤ β') (hγ : γ ≤ γ') {vs ws : List Value}
    (h : List.Forall₂ (ValueRel β γ) vs ws) : List.Forall₂ (ValueRel β' γ') vs ws :=
  h.imp fun _ _ => ValueRel.mono hβ hγ

theorem EventRel.mono {β β' γ γ' : Nat → Nat → Prop} (hβ : β ≤ β') (hγ : γ ≤ γ') {e f : Event}
    (h : EventRel β γ e f) : EventRel β' γ' e f :=
  ⟨h.name, forall_mono hβ hγ h.args, h.result.mono hβ hγ⟩

theorem ValueRel.num {β γ : Nat → Nat → Prop} {v w : Value} (h : ValueRel β γ v w) : num? v = num? w := by
  cases h <;> rfl

theorem ValueRel.truthy {β γ : Nat → Nat → Prop} {v w : Value} (h : ValueRel β γ v w) :
    truthy v = truthy w := by
  cases h <;> rfl

theorem ValueRel.isProc {β γ : Nat → Nat → Prop} {v w : Value} (h : ValueRel β γ v w) :
    isProc v = isProc w := by
  cases h <;> rfl

theorem ValueRel.data {β γ : Nat → Nat → Prop} (d : Datum) :
    ValueRel β γ (.atom (.data d)) (.atom (.data d)) := .atom (by simp)

end LGears.Values

namespace LGears.Renaming
open PrimitivesInfo Values

abbrev Ren := Nat → Nat → Prop

def Ren.add (β : Ren) (m n : Nat) : Ren := fun a b => β a b ∨ (a = m ∧ b = n)

theorem Ren.le_add (β : Ren) (m n : Nat) : β ≤ β.add m n := fun _ _ h => .inl h

theorem Ren.add_self (β : Ren) (m n : Nat) : β.add m n m n := .inr ⟨rfl, rfl⟩

theorem Ren.add_biUnique {β : Ren} {m n : Nat} (uniq : Relator.BiUnique β)
    (left : ∀ b, ¬ β m b) (right : ∀ a, ¬ β a n) : Relator.BiUnique (β.add m n) := by
  constructor
  · rintro a b c (h | ⟨rfl, rfl⟩) (h' | ⟨rfl, h'⟩)
    · exact uniq.1 h h'
    · exact absurd (h' ▸ h) (right _)
    · exact absurd h' (right _)
    · rfl
  · rintro a b c (h | ⟨rfl, rfl⟩) (h' | ⟨h', rfl⟩)
    · exact uniq.2 h h'
    · exact absurd (h' ▸ h) (left _)
    · exact absurd h' (left _)
    · rfl

/-- Variables that have a value in s have one in s₁. -/
def Persists (s s₁ : State) : Prop :=
  ∀ l v, s.get l = some (.cell (some v)) → ∃ w, s₁.get l = some (.cell (some w))

theorem Persists.refl (s : State) : Persists s s := fun _ v here => ⟨v, here⟩

theorem Persists.trans {s s₁ s₂ : State} (first : Persists s s₁) (second : Persists s₁ s₂) :
    Persists s s₂ := by
  intro l v here
  obtain ⟨w, here⟩ := first l v here
  exact second l w here

/-- What it means for two closures to correspond when the left one is in a state. -/
abbrev ClosureRel :=
  State → Ren → Formals → List Node → Env → Formals → List Node → Env → Prop

/-- A closure relation that knows of more objects, in a later state, relates more closures. -/
def Widening (K : ClosureRel) : Prop :=
  ∀ (s s₁ : State) (β β' : Ren), Persists s s₁ → β ≤ β' → ∀ {args body ρ args' body' ρ'},
    K s β args body ρ args' body' ρ' → K s₁ β' args body ρ args' body' ρ'

inductive ObjRel (β γ : Ren) : Obj → Obj → Prop where
  | unset : ObjRel β γ (.cell none) (.cell none)
  | cell {v w : Value} (h : ValueRel β γ v w) : ObjRel β γ (.cell (some v)) (.cell (some w))
  | pair {a b d e : Value} (len : Option Nat) (car : ValueRel β γ a b) (cdr : ValueRel β γ d e) :
      ObjRel β γ (.pair a d len) (.pair b e len)
  | foreign (kind : Symbol) : ObjRel β γ (.foreign kind) (.foreign kind)

theorem ObjRel.mono {β β' γ γ' : Ren} (hβ : β ≤ β') (hγ : γ ≤ γ') {o p : Obj}
    (h : ObjRel β γ o p) : ObjRel β' γ' o p := by
  cases h with
  | unset => exact .unset
  | cell h => exact .cell (h.mono hβ hγ)
  | pair len car cdr => exact .pair len (car.mono hβ hγ) (cdr.mono hβ hγ)
  | foreign kind => exact .foreign kind

/-- The closures at m and n correspond. -/
def ProcRel (K : ClosureRel) (β : Ren) (s s' : State) (m n : Nat) : Prop :=
  ∃ args body ρ args' body' ρ', s.get m = some (.closure args body ρ) ∧
    s'.get n = some (.closure args' body' ρ') ∧ K s β args body ρ args' body' ρ'

structure StateRel (W : World) (K : ClosureRel) (β γ : Ren) (s s' : State) : Prop where
  objUniq : Relator.BiUnique β
  procUniq : W.eqProcs = true → Relator.BiUnique γ
  objs : ∀ {m n}, β m n → ∃ o p, s.get m = some o ∧ s'.get n = some p ∧ ObjRel β γ o p
  procs : ∀ {m n}, γ m n → ProcRel K β s s' m n
  trace : List.Forall₂ (EventRel β γ) s.trace s'.trace

/-- How a piece of a run changes the states and the renaming. Objects are added to β when
   they are made on both sides; procedures among A or new on the left are added to γ. What
   the renaming does not reach on the right is left alone, and so are the closures on the left. -/
structure Extends (A : Nat → Prop) (β γ : Ren) (s s' : State) (β₁ γ₁ : Ren) (s₁ s₁' : State) :
    Prop where
  objs : β ≤ β₁
  procs : γ ≤ γ₁
  newObjs : ∀ {m n}, β₁ m n → β m n ∨ s.top ≤ m ∧ s'.top ≤ n
  newProcs : ∀ {m n}, γ₁ m n → γ m n ∨ (A m ∨ s.top ≤ m) ∧ s'.top ≤ n
  left : s.top ≤ s₁.top
  right : s'.top ≤ s₁'.top
  frame : ∀ {l}, l < s'.top → (∀ m, ¬ β m l) → s₁'.get l = s'.get l
  closures : ∀ {l args body ρ}, s.get l = some (.closure args body ρ) →
    s₁.get l = some (.closure args body ρ)
  cells : Persists s s₁

/-- No procedure that was there before is added. -/
abbrev NoneOld : Nat → Prop := fun _ => False

theorem Extends.refl (A : Nat → Prop) (β γ : Ren) (s s' : State) :
    Extends A β γ s s' β γ s s' where
  objs := le_refl _
  procs := le_refl _
  newObjs := .inl
  newProcs := .inl
  left := le_refl _
  right := le_refl _
  frame _ _ := rfl
  closures h := h
  cells := .refl s

theorem Extends.trans {A B : Nat → Prop} {β γ β₁ γ₁ β₂ γ₂ : Ren} {s s' s₁ s₁' s₂ s₂' : State}
    (first : Extends A β γ s s' β₁ γ₁ s₁ s₁') (second : Extends B β₁ γ₁ s₁ s₁' β₂ γ₂ s₂ s₂')
    (sub : ∀ m, B m → A m ∨ s.top ≤ m) : Extends A β γ s s' β₂ γ₂ s₂ s₂' where
  objs := le_trans first.objs second.objs
  procs := le_trans first.procs second.procs
  newObjs h := by
    rcases second.newObjs h with h | ⟨hm, hn⟩
    · exact first.newObjs h
    · exact .inr ⟨le_trans first.left hm, le_trans first.right hn⟩
  newProcs h := by
    rcases second.newProcs h with h | ⟨hm | hm, hn⟩
    · exact first.newProcs h
    · exact .inr ⟨sub _ hm, le_trans first.right hn⟩
    · exact .inr ⟨.inr (le_trans first.left hm), le_trans first.right hn⟩
  left := le_trans first.left second.left
  right := le_trans first.right second.right
  frame {l} lt none := by
    have stay : ∀ m, ¬ β₁ m l := by
      intro m h
      rcases first.newObjs h with h | ⟨_, h⟩
      · exact none m h
      · omega
    rw [second.frame (lt_of_lt_of_le lt first.right) stay, first.frame lt none]
  closures h := second.closures (first.closures h)
  cells := first.cells.trans second.cells

theorem Extends.weaken {A B : Nat → Prop} {β γ β₁ γ₁ : Ren} {s s' s₁ s₁' : State}
    (h : Extends B β γ s s' β₁ γ₁ s₁ s₁') (sub : ∀ m, B m → A m ∨ s.top ≤ m) :
    Extends A β γ s s' β₁ γ₁ s₁ s₁' :=
  (Extends.refl A β γ s s').trans h sub

theorem Extends.ofNone {A : Nat → Prop} {β γ β₁ γ₁ : Ren} {s s' s₁ s₁' : State}
    (h : Extends NoneOld β γ s s' β₁ γ₁ s₁ s₁') : Extends A β γ s s' β₁ γ₁ s₁ s₁' :=
  h.weaken fun _ no => no.elim

theorem Extends.then {A : Nat → Prop} {β γ β₁ γ₁ β₂ γ₂ : Ren} {s s' s₁ s₁' s₂ s₂' : State}
    (first : Extends A β γ s s' β₁ γ₁ s₁ s₁')
    (second : Extends NoneOld β₁ γ₁ s₁ s₁' β₂ γ₂ s₂ s₂') : Extends A β γ s s' β₂ γ₂ s₂ s₂' :=
  first.trans second fun _ no => no.elim

section heap
variable (s : State) (o : Obj)

@[simp] theorem top_alloc : (s.alloc o).top = s.top + 1 := by simp [State.alloc, State.top]

@[simp] theorem get_alloc_top : (s.alloc o).get s.top = some o := by
  simp [State.alloc, State.get, State.top]

theorem get_lt {s : State} {l : Nat} {o : Obj} (h : s.get l = some o) : l < s.top :=
  (List.getElem?_eq_some_iff.mp h).1

theorem get_alloc_lt {l : Nat} (lt : l < s.top) : (s.alloc o).get l = s.get l := by
  simp only [State.alloc, State.get]
  exact List.getElem?_append_left lt

theorem get_alloc {s : State} {l : Nat} {p : Obj} (h : s.get l = some p) (o : Obj) :
    (s.alloc o).get l = some p := by
  rw [get_alloc_lt s o (get_lt h), h]

@[simp] theorem top_put (l : Nat) : (s.put l o).top = s.top := by simp [State.put, State.top]

theorem get_put_ne {l k : Nat} (ne : k ≠ l) : (s.put l o).get k = s.get k := by
  simp [State.put, State.get, Ne.symm ne]

theorem get_put_self {l : Nat} (lt : l < s.top) : (s.put l o).get l = some o := by
  simp only [State.put, State.get, State.top] at *
  simp [lt]

theorem persists_alloc : Persists s (s.alloc o) := fun _ v here => ⟨v, get_alloc here o⟩

theorem persists_put (l : Nat) (v : Value) : Persists s (s.put l (.cell (some v))) := by
  intro k w here
  by_cases same : k = l
  · subst same
    exact ⟨v, get_put_self s _ (get_lt here)⟩
  · exact ⟨w, by rw [get_put_ne s _ same, here]⟩

end heap

section rel
variable {W : World} {K : ClosureRel} {β γ : Ren} {s s' : State}

theorem StateRel.obj_lt_left (h : StateRel W K β γ s s') {m n : Nat} (hb : β m n) :
    m < s.top := by
  obtain ⟨o, p, hm, hn, _⟩ := h.objs hb
  exact get_lt hm

theorem StateRel.obj_lt_right (h : StateRel W K β γ s s') {m n : Nat} (hb : β m n) :
    n < s'.top := by
  obtain ⟨o, p, hm, hn, _⟩ := h.objs hb
  exact get_lt hn

theorem StateRel.proc_lt_left (h : StateRel W K β γ s s') {m n : Nat} (hp : γ m n) :
    m < s.top := by
  obtain ⟨_, _, _, _, _, _, hm, _⟩ := h.procs hp
  exact get_lt hm

theorem StateRel.proc_lt_right (h : StateRel W K β γ s s') {m n : Nat} (hp : γ m n) :
    n < s'.top := by
  obtain ⟨_, _, _, _, _, _, _, hn, _⟩ := h.procs hp
  exact get_lt hn

theorem ProcRel.mono (mono : Widening K) {β' : Ren} (le : β ≤ β') {t t' : State} {m n : Nat}
    (h : ProcRel K β s s' m n) (later : Persists s t)
    (left : ∀ {o}, s.get m = some o → t.get m = some o)
    (right : ∀ {o}, s'.get n = some o → t'.get n = some o) : ProcRel K β' t t' m n := by
  obtain ⟨args, body, ρ, args', body', ρ', hm, hn, hK⟩ := h
  exact ⟨args, body, ρ, args', body', ρ', left hm, right hn, mono _ _ _ _ later le hK⟩

theorem StateRel.allocLeft (mono : Widening K) (h : StateRel W K β γ s s') (o : Obj) :
    StateRel W K β γ (s.alloc o) s' where
  objUniq := h.objUniq
  procUniq := h.procUniq
  objs hb := by
    obtain ⟨p, q, hm, hn, rel⟩ := h.objs hb
    exact ⟨p, q, get_alloc hm o, hn, rel⟩
  procs hp := (h.procs hp).mono mono (le_refl _) (persists_alloc s o) (get_alloc · o) id
  trace := h.trace

theorem StateRel.allocRight (mono : Widening K) (h : StateRel W K β γ s s') (o : Obj) :
    StateRel W K β γ s (s'.alloc o) where
  objUniq := h.objUniq
  procUniq := h.procUniq
  objs hb := by
    obtain ⟨p, q, hm, hn, rel⟩ := h.objs hb
    exact ⟨p, q, hm, get_alloc hn o, rel⟩
  procs hp := (h.procs hp).mono mono (le_refl _) (.refl s) id (get_alloc · o)
  trace := h.trace

theorem extends_allocRight (β γ : Ren) (s s' : State) (o : Obj) :
    Extends NoneOld β γ s s' β γ s (s'.alloc o) where
  objs := le_refl _
  procs := le_refl _
  newObjs := .inl
  newProcs := .inl
  left := le_refl _
  right := by simp
  frame lt _ := get_alloc_lt s' o lt
  closures h := h
  cells := .refl s

theorem extends_allocLeft (β γ : Ren) (s s' : State) (o : Obj) :
    Extends NoneOld β γ s s' β γ (s.alloc o) s' where
  objs := le_refl _
  procs := le_refl _
  newObjs := .inl
  newProcs := .inl
  left := by simp
  right := le_refl _
  frame _ _ := rfl
  closures h := get_alloc h o
  cells := persists_alloc s o

theorem StateRel.allocObj (mono : Widening K) (h : StateRel W K β γ s s') {o o' : Obj}
    (rel : ObjRel β γ o o') :
    StateRel W K (β.add s.top s'.top) γ (s.alloc o) (s'.alloc o') where
  objUniq := by
    refine Ren.add_biUnique h.objUniq ?_ ?_
    · intro b hb; have := h.obj_lt_left hb; omega
    · intro a ha; have := h.obj_lt_right ha; omega
  procUniq := h.procUniq
  objs hb := by
    rcases hb with hb | ⟨rfl, rfl⟩
    · obtain ⟨p, q, hm, hn, r⟩ := h.objs hb
      exact ⟨p, q, get_alloc hm o, get_alloc hn o', r.mono (Ren.le_add _ _ _) (le_refl _)⟩
    · exact ⟨o, o', by simp, by simp, rel.mono (Ren.le_add _ _ _) (le_refl _)⟩
  procs hp := (h.procs hp).mono mono (Ren.le_add _ _ _) (persists_alloc s o) (get_alloc · o)
    (get_alloc · o')
  trace := h.trace.imp fun _ _ e => EventRel.mono (Ren.le_add _ _ _) (le_refl _) e

theorem extends_allocObj (β γ : Ren) (s s' : State) (o o' : Obj) :
    Extends NoneOld β γ s s' (β.add s.top s'.top) γ (s.alloc o) (s'.alloc o') where
  objs := Ren.le_add _ _ _
  procs := le_refl _
  newObjs h := by
    rcases h with h | ⟨rfl, rfl⟩
    · exact .inl h
    · exact .inr ⟨le_refl _, le_refl _⟩
  newProcs := .inl
  left := by simp
  right := by simp
  frame lt _ := get_alloc_lt s' o' lt
  closures h := get_alloc h o
  cells := persists_alloc s o

/- A closure that is only on the left so far gets its counterpart. -/
theorem StateRel.mapProc (mono : Widening K) (h : StateRel W K β γ s s') {n : Nat}
    {args args' : Formals} {body body' : List Node} {ρ ρ' : Env}
    (here : s.get n = some (.closure args body ρ)) (fresh : W.eqProcs = true → ∀ b, ¬ γ n b)
    (rel : K s β args body ρ args' body' ρ') :
    StateRel W K β (γ.add n s'.top) s (s'.alloc (.closure args' body' ρ')) where
  objUniq := h.objUniq
  procUniq e := by
    refine Ren.add_biUnique (h.procUniq e) (fresh e) ?_
    intro a ha; have := h.proc_lt_right ha; omega
  objs hb := by
    obtain ⟨p, q, hm, hn, r⟩ := h.objs hb
    exact ⟨p, q, hm, get_alloc hn _, r.mono (le_refl _) (Ren.le_add _ _ _)⟩
  procs hp := by
    rcases hp with hp | ⟨rfl, rfl⟩
    · exact (h.procs hp).mono mono (le_refl _) (.refl s) id (get_alloc · _)
    · exact ⟨args, body, ρ, args', body', ρ', here, by simp, rel⟩
  trace := h.trace.imp fun _ _ e => EventRel.mono (le_refl _) (Ren.le_add _ _ _) e

theorem extends_mapProc (β γ : Ren) (s s' : State) (n : Nat) (o : Obj) :
    Extends (· = n) β γ s s' β (γ.add n s'.top) s (s'.alloc o) where
  objs := le_refl _
  procs := Ren.le_add _ _ _
  newObjs := .inl
  newProcs h := by
    rcases h with h | ⟨rfl, rfl⟩
    · exact .inl h
    · exact .inr ⟨.inl rfl, le_refl _⟩
  left := le_refl _
  right := by simp
  frame lt _ := get_alloc_lt s' o lt
  closures h := h
  cells := .refl s

theorem StateRel.put (mono : Widening K) (h : StateRel W K β γ s s') {l l' : Nat}
    (hl : β l l') {v w : Value} (rel : ValueRel β γ v w)
    (cellL : ∃ u, s.get l = some (.cell u)) (cellR : ∃ u, s'.get l' = some (.cell u)) :
    StateRel W K β γ (s.put l (.cell (some v))) (s'.put l' (.cell (some w))) where
  objUniq := h.objUniq
  procUniq := h.procUniq
  objs {m n} hb := by
    by_cases same : m = l
    · subst same
      have := h.objUniq.2 hb hl
      subst this
      exact ⟨_, _, get_put_self _ _ (h.obj_lt_left hb), get_put_self _ _ (h.obj_lt_right hb),
        .cell rel⟩
    · have ne : n ≠ l' := fun e => same (h.objUniq.1 (e ▸ hb) hl)
      obtain ⟨p, q, hm, hn, r⟩ := h.objs hb
      exact ⟨p, q, by rw [get_put_ne _ _ same, hm], by rw [get_put_ne _ _ ne, hn], r⟩
  procs {m n} hp := by
    obtain ⟨u, hu⟩ := cellL
    obtain ⟨u', hu'⟩ := cellR
    refine (h.procs hp).mono mono (le_refl _) (persists_put s l v) ?_ ?_
    · intro o ho
      obtain ⟨_, _, _, _, _, _, hm, _⟩ := h.procs hp
      rw [get_put_ne, ho]
      rintro rfl
      rw [hu] at hm
      cases hm
    · intro o ho
      obtain ⟨_, _, _, _, _, _, _, hn, _⟩ := h.procs hp
      rw [get_put_ne, ho]
      rintro rfl
      rw [hu'] at hn
      cases hn
  trace := h.trace

theorem extends_put (β γ : Ren) (s s' : State) {l l' : Nat} (hl : β l l') (v w : Value)
    (cell : ∃ u, s.get l = some (.cell u)) :
    Extends NoneOld β γ s s' β γ (s.put l (.cell (some v))) (s'.put l' (.cell (some w))) where
  objs := le_refl _
  procs := le_refl _
  newObjs := .inl
  newProcs := .inl
  left := by simp
  right := by simp
  frame {k} _ none := get_put_ne _ _ fun e => none l (e ▸ hl)
  closures {k _ _ _} hk := by
    rw [get_put_ne, hk]
    rintro rfl
    obtain ⟨u, hu⟩ := cell
    rw [hu] at hk
    cases hk
  cells := persists_put s l v

theorem StateRel.record (mono : Widening K) (h : StateRel W K β γ s s') {e e' : Event} (rel : EventRel β γ e e') :
    StateRel W K β γ { s with trace := s.trace ++ [e] } { s' with trace := s'.trace ++ [e'] } where
  objUniq := h.objUniq
  procUniq := h.procUniq
  objs := h.objs
  procs hp := (h.procs hp).mono mono (le_refl _) (fun _ v here => ⟨v, here⟩) id id
  trace := List.rel_append h.trace (.cons rel .nil)

end rel

/-- The outcome of the same pure step on both sides, related in an extended renaming. -/
def Matched (W : World) (K : ClosureRel) (A : Nat → Prop) (β γ : Ren) (s s' : State)
    {T : Type} (R : Ren → Ren → T → T → Prop) :
    Option (T × State) → Option (T × State) → Prop
  | some (v, s₁), some (w, s₁') => ∃ β₁ γ₁, StateRel W K β₁ γ₁ s₁ s₁' ∧
      Extends A β γ s s' β₁ γ₁ s₁ s₁' ∧ R β₁ γ₁ v w
  | none, none => True
  | _, _ => False

section matched
variable {W : World} {K : ClosureRel} {A : Nat → Prop} {β γ : Ren} {s s' : State} {T U : Type}

theorem Matched.after {R : Ren → Ren → T → T → Prop} {o o' : Option (T × State)}
    {β₁ γ₁ : Ren} {s₁ s₁' : State} (h : Matched W K A β₁ γ₁ s₁ s₁' R o o')
    (grow : Extends A β γ s s' β₁ γ₁ s₁ s₁') : Matched W K A β γ s s' R o o' := by
  match o, o' with
  | none, none => trivial
  | none, some _ | some _, none => exact h.elim
  | some _, some _ =>
    obtain ⟨β₂, γ₂, rel₂, grow₂, r₂⟩ := h
    exact ⟨β₂, γ₂, rel₂, grow.trans grow₂ fun _ h => .inl h, r₂⟩

theorem Matched.weaken {B : Nat → Prop} {R : Ren → Ren → T → T → Prop}
    {o o' : Option (T × State)} (h : Matched W K A β γ s s' R o o')
    (sub : ∀ m, A m → B m ∨ s.top ≤ m) : Matched W K B β γ s s' R o o' := by
  match o, o' with
  | none, none => trivial
  | none, some _ | some _, none => exact h.elim
  | some _, some _ =>
    obtain ⟨β₁, γ₁, rel, grow, r⟩ := h
    exact ⟨β₁, γ₁, rel, grow.weaken sub, r⟩

theorem Matched.bindThen {B : Nat → Prop} {R : Ren → Ren → T → T → Prop}
    {R' : Ren → Ren → U → U → Prop}
    {o o' : Option (T × State)} {f f' : T × State → Option (U × State)}
    (h : Matched W K A β γ s s' R o o') (sub : ∀ m, A m → B m ∨ s.top ≤ m)
    (rest : ∀ v w s₁ s₁' β₁ γ₁, StateRel W K β₁ γ₁ s₁ s₁' → Extends A β γ s s' β₁ γ₁ s₁ s₁' →
      R β₁ γ₁ v w → Matched W K B β₁ γ₁ s₁ s₁' R' (f (v, s₁)) (f' (w, s₁'))) :
    Matched W K B β γ s s' R' (o >>= f) (o' >>= f') := by
  match o, o' with
  | none, none => trivial
  | none, some _ | some _, none => exact h.elim
  | some (v, s₁), some (w, s₁') =>
    obtain ⟨β₁, γ₁, rel, grow, r⟩ := h
    change Matched W K B β γ s s' R' (f (v, s₁)) (f' (w, s₁'))
    exact (rest v w s₁ s₁' β₁ γ₁ rel grow r).after (grow.weaken sub)

theorem Matched.bind {R : Ren → Ren → T → T → Prop} {R' : Ren → Ren → U → U → Prop}
    {o o' : Option (T × State)} {f f' : T × State → Option (U × State)}
    (h : Matched W K A β γ s s' R o o')
    (rest : ∀ v w s₁ s₁' β₁ γ₁, StateRel W K β₁ γ₁ s₁ s₁' → Extends A β γ s s' β₁ γ₁ s₁ s₁' →
      R β₁ γ₁ v w → Matched W K A β₁ γ₁ s₁ s₁' R' (f (v, s₁)) (f' (w, s₁'))) :
    Matched W K A β γ s s' R' (o >>= f) (o' >>= f') :=
  h.bindThen (fun _ h => .inl h) rest

theorem Matched.same {R : Ren → Ren → T → T → Prop} {v w : T} (rel : StateRel W K β γ s s')
    (r : R β γ v w) : Matched W K A β γ s s' R (some (v, s)) (some (w, s')) :=
  ⟨β, γ, rel, .refl _ _ _ _ _, r⟩

theorem Matched.mapSame {R : Ren → Ren → U → U → Prop} {o o' : Option T} (f f' : T → U)
    (rel : StateRel W K β γ s s') (h : Option.Rel (fun x y => R β γ (f x) (f' y)) o o') :
    Matched W K A β γ s s' R (o.map fun x => (f x, s)) (o'.map fun x => (f' x, s')) := by
  cases h with
  | none => trivial
  | some r => exact .same rel r

abbrev MatchedValue (W : World) (K : ClosureRel) (A : Nat → Prop) (β γ : Ren) (s s' : State) :=
  Matched W K A β γ s s'  fun β γ => ValueRel β γ

abbrev MatchedValues (W : World) (K : ClosureRel) (A : Nat → Prop) (β γ : Ren) (s s' : State) :=
  Matched W K A β γ s s'  fun β γ => List.Forall₂ (ValueRel β γ)

theorem StateRel.pairParts (h : StateRel W K β γ s s') {v w : Value} (rel : ValueRel β γ v w) :
    Option.Rel (fun p q => ValueRel β γ p.1 q.1 ∧ ValueRel β γ p.2 q.2)
      (pairParts s v) (pairParts s' w) := by
  cases rel with
  | @atom x hx =>
    cases x with
    | data d => cases d <;> first | exact .none | exact .some ⟨.data _, .data _⟩
    | _ => exact .none
  | ref hb =>
    obtain ⟨o, p, hm, hn, r⟩ := h.objs hb
    simp only [Values.pairParts, hm, hn]
    cases r <;> first | exact .none | exact .some ⟨by assumption, by assumption⟩
  | proc => exact .none

theorem StateRel.listLength (h : StateRel W K β γ s s') {v w : Value}
    (rel : ValueRel β γ v w) : listLength s v = listLength s' w := by
  cases rel with
  | @atom x hx => cases x <;> rfl
  | ref hb =>
    obtain ⟨o, p, hm, hn, r⟩ := h.objs hb
    simp only [Values.listLength, hm, hn]
    cases r <;> rfl
  | proc => rfl

theorem StateRel.foreignKind (h : StateRel W K β γ s s') {v w : Value}
    (rel : ValueRel β γ v w) : foreignKind s v = foreignKind s' w := by
  cases rel with
  | atom | proc => rfl
  | ref hb =>
    obtain ⟨o, p, hm, hn, r⟩ := h.objs hb
    simp only [Values.foreignKind, hm, hn]
    cases r <;> rfl

theorem rel_imp {R R' : T → U → Prop} {o : Option T} {p : Option U} (h : Option.Rel R o p)
    (imp : ∀ x y, R x y → R' x y) : Option.Rel R' o p := by
  cases h with
  | none => exact .none
  | some r => exact .some (imp _ _ r)

theorem isSome_eq {R : T → U → Prop} {o : Option T} {p : Option U} (h : Option.Rel R o p) :
    o.isSome = p.isSome := by
  cases h <;> rfl

theorem StateRel.typeTest (h : StateRel W K β γ s s') (t : Symbol) {v w : Value}
    (rel : ValueRel β γ v w) : typeTest s t v = typeTest s' t w := by
  have parts := isSome_eq (h.pairParts rel)
  have len := h.listLength rel
  have kind := h.foreignKind rel
  unfold Values.typeTest
  rw [rel.num, len, parts]
  cases rel with
  | @atom x _ =>
    cases x with
    | data d => cases d <;> rfl
    | _ => rfl
  | proc => rfl
  | ref =>
    simp only [kind]
    rfl

theorem StateRel.cons (mono : Widening K) (h : StateRel W K β γ s s')
    {v w x y : Value} (car : ValueRel β γ v w) (cdr : ValueRel β γ x y) :
    MatchedValue W K A β γ s s' (some (s.cons v x)) (some (s'.cons w y)) := by
  have obj : ObjRel β γ (.pair v x ((Values.listLength s x).map (· + 1)))
      (.pair w y ((Values.listLength s' y).map (· + 1))) := by
    rw [h.listLength cdr]
    exact .pair _ car cdr
  exact ⟨_, γ, h.allocObj mono obj, (extends_allocObj ..).ofNone, .ref (Ren.add_self _ _ _)⟩

theorem biUnique_iff {β : Ren} (uniq : Relator.BiUnique β) {a b c d : Nat} (first : β a b)
    (second : β c d) : a = c ↔ b = d :=
  ⟨fun e => uniq.2 first (e ▸ second), fun e => uniq.1 first (e ▸ second)⟩

theorem StateRel.eq_iff (h : StateRel W K β γ s s') {v w x y : Value}
    (first : ValueRel β γ v w) (second : ValueRel β γ x y)
    (procs : isProc v = true → W.eqProcs = true) : v = x ↔ w = y := by
  cases first with
  | atom => cases second <;> simp
  | ref hm =>
    cases second with
    | atom | proc => simp
    | ref hn => simpa using biUnique_iff h.objUniq hm hn
  | proc hm =>
    cases second with
    | atom | ref => simp
    | proc hn => simpa using biUnique_iff (h.procUniq (procs rfl)) hm hn

theorem StateRel.eqValue (h : StateRel W K β γ s s') {v w x y : Value}
    (first : ValueRel β γ v w) (second : ValueRel β γ x y) :
    eqValue W v x = eqValue W w y := by
  unfold Values.eqValue
  rw [first.isProc, second.isProc]
  split_ifs with bad
  · rfl
  · have same := h.eq_iff first second (by
      rw [first.isProc]
      intro isProc
      simpa [isProc] using bad)
    simp only [beq_eq_decide, same]

theorem eqValue_rel {β γ : Ren} (W : World) (v w : Value) :
    Option.Rel (ValueRel β γ) (eqValue W v w) (eqValue W v w) := by
  unfold Values.eqValue
  split
  · exact .none
  · exact .some (.data _)

theorem numeric_rel {β γ : Ren} (op : Symbol) (i j : Int) :
    Option.Rel (ValueRel β γ) (numeric op i j) (numeric op i j) := by
  unfold numeric
  split
  · exact .some (.data _)
  · cases compare op i j with
    | none => exact .none
    | some b => exact .some (.data _)

theorem StateRel.applyOp (mono : Widening K) (h : StateRel W K β γ s s')
    (op : Symbol) {vs ws : List Value} (rel : List.Forall₂ (ValueRel β γ) vs ws) :
    MatchedValue W K A β γ s s' (applyOp W op vs s) (applyOp W op ws s') := by
  rcases rel with _ | ⟨hv, _ | ⟨hx, _ | ⟨_, _⟩⟩⟩
  · trivial
  · rename_i v w
    simp only [Values.applyOp]
    have parts := h.pairParts hv
    split_ifs
    · exact Matched.mapSame _ _ h (rel_imp parts fun _ _ p => p.1)
    · exact Matched.mapSame _ _ h (rel_imp parts fun _ _ p => p.2)
    · rw [hv.truthy]
      exact .same h (.data _)
    · rw [hv.num]
      cases num? w with
      | none => trivial
      | some i => exact .same h (.data _)
    · trivial
  · rename_i v w x y
    simp only [Values.applyOp]
    split_ifs
    · exact h.cons mono hv hx
    · rw [h.eqValue hv hx]
      exact Matched.mapSame id id h (eqValue_rel W w y)
    · rw [hv.num, hx.num]
      cases num? w <;> cases num? y <;> try trivial
      exact Matched.mapSame id id h (numeric_rel op _ _)
  · trivial

theorem StateRel.finishOp (mono : Widening K) (h : StateRel W K β γ s s')
    (op : Node) (args : List Node) {vs ws : List Value}
    (rel : List.Forall₂ (ValueRel β γ) vs ws) :
    MatchedValue W K A β γ s s' (finishOp W op args vs s) (finishOp W op args ws s') := by
  unfold Values.finishOp
  split_ifs
  · cases args with
    | nil => trivial
    | cons t xs =>
      cases t with
      | sym t =>
        rcases rel with _ | ⟨hv, _ | ⟨_, _⟩⟩
        · trivial
        · rename_i v w
          simp only [h.typeTest t hv]
          cases Values.typeTest s' t w with
          | none => trivial
          | some b => exact .same h (.data _)
        · trivial
      | _ => trivial
  · cases op with
    | sym op => exact h.applyOp mono _ rel
    | _ => trivial

theorem StateRel.build (mono : Widening K) {β₁ γ₁ : Ren} {x y : Answer}
    (rel : AnswerRel β γ x y) (hβ : β ≤ β₁) (hγ : γ ≤ γ₁) (h : StateRel W K β₁ γ₁ s s')
    :
    MatchedValue W K A β₁ γ₁ s s' (some (s.build x)) (some (s'.build y)) := by
  induction rel generalizing s s' β₁ γ₁ with
  | value hv => exact .same h (hv.mono hβ hγ)
  | fresh kind =>
    exact ⟨_, γ₁, h.allocObj mono (.foreign kind), (extends_allocObj ..).ofNone,
      .ref (Ren.add_self _ _ _)⟩
  | @cons a b d e car cdr ihCar ihCdr =>
    change MatchedValue W K _ β₁ γ₁ s s'
      (some (s.build d) >>= fun p => some (p.2.build a) >>= fun q => some (q.2.cons q.1 p.1))
      (some (s'.build e) >>= fun p => some (p.2.build b) >>= fun q => some (q.2.cons q.1 p.1))
    refine (ihCdr hβ hγ h).bind fun v w s₁ s₁' β₂ γ₂ rel₁ grow₁ hd => ?_
    refine (ihCar (le_trans hβ grow₁.objs) (le_trans hγ grow₁.procs) rel₁).bind
      fun v' w' s₂ s₂' β₃ γ₃ rel₂ grow₂ ha => ?_
    exact rel₂.cons mono ha (hd.mono grow₂.objs grow₂.procs)

theorem StateRel.deref (h : StateRel W K β γ s s') : DerefRel β γ s.deref s'.deref := by
  intro m n hb
  obtain ⟨o, p, hm, hn, rel⟩ := h.objs hb
  simp only [State.deref, hm, hn]
  cases rel with
  | pair len car cdr => exact .some ⟨car, cdr, rfl⟩
  | _ => exact .none

theorem StateRel.callBuiltin (mono : Widening K) (h : StateRel W K β γ s s')
    (name : Symbol) {vs ws : List Value} (rel : List.Forall₂ (ValueRel β γ) vs ws) :
    MatchedValue W K A β γ s s' (callBuiltin W name vs s) (callBuiltin W name ws s') := by
  have answers := W.natural h.objUniq name h.trace h.deref rel
  unfold Values.callBuiltin
  revert answers
  generalize W.call s.trace s.deref name vs = o
  generalize W.call s'.trace s'.deref name ws = o'
  intro answers
  cases answers with
  | none => trivial
  | @some x y r =>
    obtain ⟨β₁, γ₁, rel₁, grow, hv⟩ := StateRel.build (A := A) mono r (le_refl _) (le_refl _) h
    simp only
    split_ifs
    · refine ⟨β₁, γ₁, rel₁.record mono ⟨rfl, forall_mono grow.objs grow.procs rel, hv⟩, ?_, hv⟩
      exact ⟨grow.objs, grow.procs, grow.newObjs, grow.newProcs, grow.left, grow.right, grow.frame,
        grow.closures, grow.cells⟩
    · exact ⟨β₁, γ₁, rel₁, grow, hv⟩

/-- The variables in S are at corresponding places in two environments. -/
def EnvRel (S : Symbol → Prop) (β : Ren) (ρ ρ' : Env) : Prop :=
  ∀ x, S x → Option.Rel β (ρ x) (ρ' x)

variable {S : Symbol → Prop} {ρ ρ' : Env}

theorem EnvRel.mono {β' : Ren} (le : β ≤ β') (env : EnvRel S β ρ ρ') : EnvRel S β' ρ ρ' :=
  fun x hx => rel_imp (env x hx) le

theorem EnvRel.bind {x : Symbol} {l l' : Nat} (env : EnvRel S β ρ ρ') (here : β l l') :
    EnvRel S β (ρ.bind x l) (ρ'.bind x l') := by
  intro y hy
  unfold Env.bind
  split
  · exact .some here
  · exact env y hy

theorem EnvRel.places (env : EnvRel S β ρ ρ') {x : Symbol} (hx : S x) :
    ρ x = none ∧ ρ' x = none ∨ ∃ l l', ρ x = some l ∧ ρ' x = some l' ∧ β l l' := by
  have := env x hx
  cases h : ρ x <;> cases h' : ρ' x <;> rw [h, h'] at this <;> cases this
  · exact .inl ⟨rfl, rfl⟩
  · exact .inr ⟨_, _, rfl, rfl, by assumption⟩

theorem StateRel.lookupVar (h : StateRel W K β γ s s') (env : EnvRel S β ρ ρ') {x : Symbol}
    (hx : S x) : Option.Rel (ValueRel β γ) (lookupVar ρ s x) (lookupVar ρ' s' x) := by
  unfold Values.lookupVar
  rcases env.places hx with ⟨hl, hr⟩ | ⟨l, l', hl, hr, hb⟩
  · simp only [hl, hr]
    split
    · exact .some (.atom (by simp))
    · exact .none
  · obtain ⟨o, p, hm, hn, rel⟩ := h.objs hb
    simp only [hl, hr, hm, hn]
    cases rel with
    | cell hv => exact .some hv
    | _ => exact .none

theorem StateRel.evalSimples {xs : List Node} (ih : ∀ x ∈ xs, ∀ {β γ : Ren} {s s' : State}, StateRel W K β γ s s' →
      EnvRel S β ρ ρ' → MatchedValue W K A β γ s s' (evalSimple W ρ x s) (evalSimple W ρ' x s'))
    (h : StateRel W K β γ s s') (env : EnvRel S β ρ ρ') :
    MatchedValues W K A β γ s s' (evalSimples W ρ xs s) (evalSimples W ρ' xs s') := by
  induction xs generalizing β γ s s' with
  | nil => exact .same h .nil
  | cons x xs next =>
    simp only [Values.evalSimples]
    refine (ih x (by simp) h env).bind fun v w s₁ s₁' β₁ γ₁ h₁ grow₁ hv => ?_
    refine (next (fun y hy => ih y (by simp [hy])) h₁ (env.mono grow₁.objs)).bind
      fun vs ws s₂ s₂' β₂ γ₂ h₂ grow₂ hvs => ?_
    exact .same h₂ (.cons (hv.mono grow₂.objs grow₂.procs) hvs)

theorem StateRel.evalSimple (mono : Widening K) {x : Node} (simple : Cps.selfEval x = true)
    (wellNamed : x.Over S) (h : StateRel W K β γ s s') (env : EnvRel S β ρ ρ') :
    MatchedValue W K A β γ s s' (evalSimple W ρ x s) (evalSimple W ρ' x s') := by
  induction x generalizing β γ s s' with
  | const d | quote d => exact .same h (.data _)
  | sym x => exact Matched.mapSame id id h (h.lookupVar env (by simpa using wellNamed))
  | app f args _ ih =>
    simp only [Cps.selfEval, Bool.and_eq_true, Cps.simpleOperation_iff] at simple
    rw [over_app] at wellNamed
    have member (x : Node) (hx : x ∈ args) {β γ : Ren} {s s' : State}
        (h : StateRel W K β γ s s') (env : EnvRel S β ρ ρ') :=
      ih x hx (simple.2 x hx) (wellNamed.2 x hx) h env
    simp only [Values.evalSimple, simple.1, if_true, evalTail_eq]
    split
    · refine (StateRel.evalSimples (fun x hx => member x (List.mem_of_mem_tail hx)) h env).bind
        fun vs ws s₁ s₁' β₁ γ₁ h₁ _ hvs => h₁.finishOp mono f args hvs
    · refine (StateRel.evalSimples member h env).bind
        fun vs ws s₁ s₁' β₁ γ₁ h₁ _ hvs => h₁.finishOp mono f args hvs
  | _ => simp [Cps.selfEval] at simple

theorem StateRel.mkList (mono : Widening K) (h : StateRel W K β γ s s') {vs ws : List Value}
    (rel : List.Forall₂ (ValueRel β γ) vs ws) :
    MatchedValue W K A β γ s s' (some (mkList s vs)) (some (mkList s' ws)) := by
  induction rel with
  | nil => exact .same h (.data _)
  | @cons v w vs ws hv _ ih =>
    change MatchedValue W K _ β γ s s'
      (some (Values.mkList s vs) >>= fun p => some (p.2.cons v p.1))
      (some (Values.mkList s' ws) >>= fun p => some (p.2.cons w p.1))
    exact ih.bind fun d e s₁ s₁' β₁ γ₁ h₁ grow hd =>
      h₁.cons mono (hv.mono grow.objs grow.procs) hd

theorem StateRel.newCell (mono : Widening K) (h : StateRel W K β γ s s') {v w : Value}
    (rel : ValueRel β γ v w) :
    StateRel W K (β.add s.top s'.top) γ (s.alloc (.cell (some v))) (s'.alloc (.cell (some w))) :=
  h.allocObj mono (.cell rel)

theorem StateRel.bindFixed (mono : Widening K) (h : StateRel W K β γ s s')
    (env : EnvRel S β ρ ρ') (xs : List Symbol) {vs ws : List Value}
    (rel : List.Forall₂ (ValueRel β γ) vs ws) :
    Matched W K A β γ s s'
      (fun β γ p q => List.Forall₂ (ValueRel β γ) p.1 q.1 ∧ EnvRel S β p.2 q.2)
      (bindFixed xs vs ρ s) (bindFixed xs ws ρ' s') := by
  induction xs generalizing β γ s s' ρ ρ' vs ws with
  | nil => exact .same h ⟨rel, env⟩
  | cons x xs ih =>
    cases rel with
    | nil => trivial
    | @cons v w _ _ hv rel =>
      have grow := (extends_allocObj β γ s s' (.cell (some v)) (.cell (some w))).ofNone (A := A)
      exact (ih (h.newCell mono hv) ((env.mono grow.objs).bind (Ren.add_self _ _ _))
        (forall_mono grow.objs grow.procs rel)).after grow

theorem StateRel.bindArgs (mono : Widening K) (h : StateRel W K β γ s s')
    (env : EnvRel S β ρ ρ') (args : Formals) {vs ws : List Value}
    (rel : List.Forall₂ (ValueRel β γ) vs ws) :
    Matched W K A β γ s s' (fun β _ => EnvRel S β) (bindArgs args vs ρ s)
      (bindArgs args ws ρ' s') := by
  unfold Values.bindArgs
  refine (h.bindFixed mono env args.fixed rel).bind fun p q s₁ s₁' β₁ γ₁ h₁ _ r => ?_
  obtain ⟨left, env₁⟩ := r
  cases args.rest with
  | none =>
    have same : p.1.isEmpty = q.1.isEmpty := by
      rw [Bool.eq_iff_iff]
      simp only [List.isEmpty_iff_length_eq_zero, left.length_eq]
    simp only [same]
    split
    · exact .same h₁ env₁
    · trivial
  | some x =>
    obtain ⟨β₂, γ₂, h₂, grow₂, hv⟩ := h₁.mkList (A := A) mono left
    exact ⟨_, γ₂, h₂.newCell mono hv, grow₂.then (extends_allocObj ..),
      (env₁.mono (le_trans grow₂.objs (Ren.le_add _ _ _))).bind (Ren.add_self _ _ _)⟩

theorem StateRel.bindNames (mono : Widening K) (h : StateRel W K β γ s s')
    (env : EnvRel S β ρ ρ') (xs : List Symbol) :
    Matched W K A β γ s s' (fun β _ => EnvRel S β) (some (bindNames xs ρ s))
      (some (bindNames xs ρ' s')) := by
  induction xs generalizing β s s' ρ ρ' with
  | nil => exact .same h env
  | cons x xs ih =>
    have grow := (extends_allocObj β γ s s' (.cell none) (.cell none)).ofNone (A := A)
    exact (ih (h.allocObj mono .unset) ((env.mono grow.objs).bind (Ren.add_self _ _ _))).after grow

theorem StateRel.assign (mono : Widening K) (h : StateRel W K β γ s s')
    (env : EnvRel S β ρ ρ') {x : Symbol} (hx : S x) {v w : Value} (rel : ValueRel β γ v w) :
    Matched W K A β γ s s' (fun _ _ _ _ => True) ((assign ρ s x v).map ((), ·))
      ((assign ρ' s' x w).map ((), ·)) := by
  unfold Values.assign
  rcases env.places hx with ⟨hl, hr⟩ | ⟨l, l', hl, hr, hb⟩
  · simp only [hl, hr]
    trivial
  · obtain ⟨o, p, hm, hn, r⟩ := h.objs hb
    simp only [hl, hr, hm, hn]
    have done (cellL : ∃ u, s.get l = some (.cell u)) (cellR : ∃ u, s'.get l' = some (.cell u)) :
        Matched W K A β γ s s' (fun _ _ (_ _ : Unit) => True)
          (some ((), s.put l (.cell (some v)))) (some ((), s'.put l' (.cell (some w)))) :=
      ⟨β, γ, h.put mono hb rel cellL cellR, (extends_put β γ s s' hb v w cellL).ofNone, trivial⟩
    cases r with
    | unset | cell => exact done ⟨_, hm⟩ ⟨_, hn⟩
    | _ => trivial

/-- The state has only got new objects. -/
inductive Grown (s : State) : State → Prop where
  | refl : Grown s s
  | alloc {s₁ : State} (h : Grown s s₁) (o : Obj) : Grown s (s₁.alloc o)

theorem Grown.trans {s s₁ s₂ : State} (first : Grown s s₁) (second : Grown s₁ s₂) :
    Grown s s₂ := by
  induction second with
  | refl => exact first
  | alloc _ o ih => exact ih.alloc o

theorem Grown.persists {s s₁ : State} (g : Grown s s₁) : Persists s s₁ := by
  induction g with
  | refl => exact .refl s
  | alloc _ o ih => exact ih.trans (persists_alloc _ o)

theorem Grown.left {s₁ : State} (mono : Widening K) (g : Grown s s₁)
    (h : StateRel W K β γ s s') :
    StateRel W K β γ s₁ s' ∧ Extends NoneOld β γ s s' β γ s₁ s' := by
  induction g with
  | refl => exact ⟨h, .refl _ _ _ _ _⟩
  | alloc _ o ih => exact ⟨ih.1.allocLeft mono o, ih.2.then (extends_allocLeft _ _ _ _ o)⟩

theorem applyOp_grown {op : Symbol} {vs : List Value} {v : Value} {s s₁ : State}
    (h : applyOp W op vs s = some (v, s₁)) : Grown s s₁ := by
  unfold Values.applyOp at h
  split at h
  · split_ifs at h
    all_goals simp only [Option.map_eq_some_iff, Option.some.injEq, Prod.mk.injEq] at h
    · obtain ⟨_, _, _, rfl⟩ := h
      exact .refl
    · obtain ⟨_, _, _, rfl⟩ := h
      exact .refl
    · exact h.2 ▸ .refl
    · obtain ⟨_, _, _, rfl⟩ := h
      exact .refl
  · split_ifs at h
    · simp only [State.cons, Option.some.injEq, Prod.mk.injEq] at h
      exact h.2 ▸ .alloc .refl _
    · simp only [Option.map_eq_some_iff, Prod.mk.injEq] at h
      obtain ⟨_, _, _, rfl⟩ := h
      exact .refl
    · split at h
      · simp only [Option.map_eq_some_iff, Prod.mk.injEq] at h
        obtain ⟨_, _, _, rfl⟩ := h
        exact .refl
      · simp at h
  · simp at h

theorem finishOp_grown {op : Node} {args : List Node} {vs : List Value} {v : Value} {s s₁ : State}
    (h : finishOp W op args vs s = some (v, s₁)) : Grown s s₁ := by
  unfold Values.finishOp at h
  split_ifs at h
  · split at h
    · simp only [Option.map_eq_some_iff, Prod.mk.injEq] at h
      obtain ⟨_, _, _, rfl⟩ := h
      exact .refl
    · simp at h
  · split at h
    · exact applyOp_grown h
    · simp at h

theorem evalSimples_grown {xs : List Node}
    (ih : ∀ x ∈ xs, ∀ {s s₁ : State} {v : Value}, Values.evalSimple W ρ x s = some (v, s₁) →
      Grown s s₁) {s s₁ : State} {vs : List Value}
    (h : Values.evalSimples W ρ xs s = some (vs, s₁)) : Grown s s₁ := by
  induction xs generalizing s vs with
  | nil =>
    simp only [Values.evalSimples, Option.some.injEq, Prod.mk.injEq] at h
    exact h.2 ▸ .refl
  | cons x xs next =>
    simp only [Values.evalSimples, Option.bind_eq_bind, Option.bind_eq_some_iff, Prod.exists,
      Option.pure_def, Option.some.injEq, Prod.mk.injEq] at h
    obtain ⟨_, _, first, _, _, second, _, rfl⟩ := h
    exact (ih x (by simp) first).trans (next (fun y hy => ih y (by simp [hy])) second)

theorem evalSimple_grown {x : Node} {s s₁ : State} {v : Value}
    (h : Values.evalSimple W ρ x s = some (v, s₁)) : Grown s s₁ := by
  induction x generalizing s s₁ v with
  | const d | quote d =>
    simp only [Values.evalSimple, Option.some.injEq, Prod.mk.injEq] at h
    exact h.2 ▸ .refl
  | sym x =>
    simp only [Values.evalSimple, Option.map_eq_some_iff, Prod.mk.injEq] at h
    obtain ⟨_, _, _, rfl⟩ := h
    exact .refl
  | lambda args body =>
    simp only [Values.evalSimple, Option.some.injEq, Prod.mk.injEq] at h
    exact h.2 ▸ .alloc .refl _
  | app f args _ ih =>
    simp only [Values.evalSimple, evalTail_eq] at h
    have rest {xs : List Node} (sub : ∀ x ∈ xs, x ∈ args)
        (h : (Values.evalSimples W ρ xs s >>= fun p => Values.finishOp W f args p.1 p.2) =
          some (v, s₁)) : Grown s s₁ := by
      simp only [Option.bind_eq_bind, Option.bind_eq_some_iff, Prod.exists] at h
      obtain ⟨_, _, first, second⟩ := h
      exact (evalSimples_grown (fun x hx _ _ _ => ih x (sub x hx)) first).trans
        (finishOp_grown second)
    split_ifs at h
    · exact rest (fun _ => List.mem_of_mem_tail) h
    · exact rest (fun _ => id) h
  | _ => simp [Values.evalSimple] at h

end matched

end LGears.Renaming
