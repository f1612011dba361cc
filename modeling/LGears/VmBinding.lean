import LGears.CodeTables
import LGears.Values

/- The variables of a function that is called: fresh cells for its parameters and its internal
   definitions, one behind the other. -/
namespace LGears.VmBinding
open CodeTables Values

/-- The names are bound to the cells one after the other. -/
def bindAll : List Symbol → List Nat → Env → Env
  | x :: xs, c :: cells, ρ => bindAll xs cells (ρ.bind x c)
  | _, _, ρ => ρ

section bindAll
variable {xs ys : List Symbol} {cells more : List Nat} {ρ : Env} {x : Symbol}

theorem bindAll_append (length : cells.length = xs.length) :
    bindAll (xs ++ ys) (cells ++ more) ρ = bindAll ys more (bindAll xs cells ρ) := by
  induction xs generalizing cells ρ with
  | nil =>
    rw [List.length_eq_zero_iff.mp length]
    rfl
  | cons x xs ih =>
    cases cells with
    | nil => cases length
    | cons c cells => exact ih (Nat.succ.inj length)

theorem bindAll_other (absent : x ∉ xs) : bindAll xs cells ρ x = ρ x := by
  induction xs generalizing cells ρ with
  | nil => rfl
  | cons y xs ih =>
    rw [List.mem_cons, not_or] at absent
    cases cells with
    | nil => rfl
    | cons c cells =>
      rw [bindAll, ih absent.2, Env.bind, if_neg absent.1]

theorem bindAll_slot {i : Nat} (slot : SlotOf xs x i) (length : cells.length = xs.length) :
    bindAll xs cells ρ x = cells[i]? := by
  induction xs generalizing cells ρ i with
  | nil => exact absurd slot.lt (Nat.not_lt_zero i)
  | cons y xs ih =>
    cases cells with
    | nil => cases length
    | cons c cells =>
      rw [bindAll]
      cases i with
      | zero =>
        have same : y = x := Option.some.inj slot.named
        have absent : x ∉ xs := by
          intro member
          obtain ⟨k, inside, at_k⟩ := List.getElem_of_mem member
          apply slot.last (k + 1) (Nat.succ_pos k)
          rw [List.getElem?_cons_succ, List.getElem?_eq_getElem inside, at_k]
        rw [bindAll_other absent, Env.bind, if_pos same.symm]
        rfl
      | succ i =>
        apply ih _ (Nat.succ.inj length)
        constructor
        · exact slot.named
        · intro k after
          exact slot.last (k + 1) (Nat.succ_lt_succ after)

end bindAll

/-- The state with cells of the values at its end. -/
def withCells (s : State) (vs : List (Option Value)) : State :=
  { s with heap := s.heap ++ vs.map .cell }

section cells
variable {s : State} {vs ws : List (Option Value)}

theorem withCells_nil : withCells s [] = s := by
  rw [withCells, List.map_nil, List.append_nil]

theorem alloc_cells (v : Option Value) :
    withCells (s.alloc (.cell v)) vs = withCells s (v :: vs) := by
  simp [withCells, State.alloc]

theorem withCells_top : (withCells s vs).top = s.top + vs.length := by
  simp [withCells, State.top]

theorem get_old {l : Nat} {o : Obj} (here : s.get l = some o) : (withCells s vs).get l = some o := by
  have inside := (List.getElem?_eq_some_iff.mp here).1
  simp only [withCells, State.get] at here ⊢
  rw [List.getElem?_append_left inside, here]

theorem get_new {i : Nat} {v : Option Value} (here : vs[i]? = some v) :
    (withCells s vs).get (s.top + i) = some (.cell v) := by
  simp only [withCells, State.get, State.top]
  rw [List.getElem?_append_right (Nat.le_add_right _ _), Nat.add_sub_cancel_left, List.getElem?_map,
    here]
  rfl

end cells

section binding
variable {ρ ρ' : Env} {s s' : State}

theorem bindNames_cells (names : List Symbol) (ρ : Env) (s : State) : bindNames names ρ s =
    (bindAll names (List.range' s.top names.length) ρ,
      withCells s (List.replicate names.length none)) := by
  induction names generalizing ρ s with
  | nil =>
    rw [bindNames, List.length_nil, List.replicate_zero, withCells_nil]
    rfl
  | cons x names ih =>
    have top : (s.alloc (.cell none)).top = s.top + 1 := by simp [State.alloc, State.top]
    rw [bindNames, ih, top, alloc_cells]
    rfl

theorem bindFixed_cells {xs : List Symbol} {vs left : List Value}
    (bound : bindFixed xs vs ρ s = some ((left, ρ'), s')) :
    xs.length ≤ vs.length ∧ left = vs.drop xs.length ∧
      ρ' = bindAll xs (List.range' s.top xs.length) ρ ∧
      s' = withCells s ((vs.take xs.length).map some) := by
  induction xs generalizing vs ρ s with
  | nil =>
    simp only [bindFixed, Option.some.injEq, Prod.mk.injEq] at bound
    obtain ⟨⟨rfl, rfl⟩, rfl⟩ := bound
    exact ⟨Nat.zero_le _, rfl, rfl, by rw [List.length_nil, List.take_zero, List.map_nil, withCells_nil]⟩
  | cons x xs ih =>
    cases vs with
    | nil => cases bound
    | cons v vs =>
      have top : (s.alloc (.cell (some v))).top = s.top + 1 := by simp [State.alloc, State.top]
      rw [bindFixed] at bound
      obtain ⟨few, left, env, cells⟩ := ih bound
      rw [top] at env
      rw [alloc_cells] at cells
      exact ⟨Nat.succ_le_succ few, left, env, cells⟩

end binding

end LGears.VmBinding
