import Mathlib.Logic.Relation
import LGears.Library.Leads
import LGears.VmFrames

/- Runs of the machine with given builtins, and when they stop for want of room. -/
namespace LGears.VmMoves
open Opcode Compiler StateExcept Vm
open Gc hiding State

/-- What the builtins of a process do when they return, and when they need more memory than is
    free. -/
structure Natives (img : Image) where
  run : Native → Int → State → Option State
  short : Native → Int → State → Prop
  just : ∀ n opArg s s', run n opArg s = some s' → JustReturns n opArg
  returned : ∀ n opArg s s', run n opArg s = some s' → Returned img n opArg s s'

section moves
variable (img : Image) (N : Natives img)

/-- One step in which no error is raised. -/
inductive Moves (s : State) : State → Prop where
  | instruction {s' : State} (here : s.control = .opcode)
      (ran : Returns (do execute img (← fetch)) s ⟨⟩ s') : Moves s s'
  | dispatch {s' : State} {fuel fp : Nat} {opArg : Int} (here : s.control = .dispatch fp opArg)
      (ran : Returns (dispatchFunc img fuel fp opArg) s none s') : Moves s s'
  | returns {s₁ s₂ : State} {fuel fp : Nat} {opArg : Int} {n : Native}
      (here : s.control = .dispatch fp opArg)
      (ran : Returns (dispatchFunc img fuel fp opArg) s (some n) s₁)
      (called : N.run n opArg s₁ = some s₂) :
      Moves s { s₂ with
        control := .dispatch (s₂.thread.opstack (s₁.thread.opStackIdx - opArg.toNat)) 1 }

theorem Moves.step {s s' : State} (moves : Moves img N s s') : Step img s s' := by
  cases moves with
  | instruction here ran => exact .instruction here ran
  | dispatch here ran => exact .dispatch here ran
  | returns here ran called =>
    exact .returns here ran (N.just _ _ _ _ called) (N.returned _ _ _ _ called)

/-- The bytes of a block with its header. -/
def blockSize (size : Nat) : Nat := alignUp size + BHDR_SIZE

/-- The function of the module that fp leads to. -/
def callee (h : Heap) (fp : Nat) : Option IFunc :=
  if isHeapPtr fp then
    match h.cells (hdrOf fp) with
    | some b => img.inter (b.words 1)
    | none => none
  else img.inter (ptr fp)

/-- How much memory the next step may need. -/
def demand (s : State) : Nat :=
  match s.control with
  | .opcode =>
    match s.func.code[s.opcode]? with
    | some ⟨.opCons, _⟩ => blockSize 24
    | some ⟨.loadClosure, k⟩ =>
      match img.functions[k]? with
      | some f => blockSize (16 + 8 * f.bindmap.length)
      | none => 0
    | _ => 0
  | .dispatch fp opArg =>
    match callee img s.heap fp with
    | some f => blockSize 24 * opArg.toNat + blockSize (24 + 8 * f.size)
    | none => 0

/-- There is no room for the next step. -/
inductive Exhausted (s : State) : Prop where
  | stack (full : img.opStackSize ≤ s.thread.opStackIdx + 1)
  | heap (short : s.heap.fresh.freeMem < demand img s)
  | native {s₁ : State} {fuel fp : Nat} {opArg : Int} {n : Native}
      (here : s.control = .dispatch fp opArg)
      (ran : Returns (dispatchFunc img fuel fp opArg) s (some n) s₁) (short : N.short n opArg s₁)

/-- A run leads to a state with P, or the machine runs out of room. -/
abbrev Goes (s : State) (P : State → Prop) : Prop := Leads.To (Moves img N) (Exhausted img N) s P

/-- So does a run that takes a step. -/
abbrev Advances (s : State) (P : State → Prop) : Prop :=
  Leads.Later (Moves img N) (Exhausted img N) s P

end moves

/- What one instruction does. -/

/-- Behind the fetch of an instruction. -/
def fetched (s : State) : State := { s with opcode := s.opcode + 1 }

/-- With a word on the stack. -/
def pushed (s : State) (w : Nat) : State :=
  { s with thread := { s.thread with
      opstack := Function.update s.thread.opstack s.thread.opStackIdx w
      opStackIdx := s.thread.opStackIdx + 1 } }

/-- Without the last n words of the stack. -/
def dropped (s : State) (n : Nat) : State :=
  { s with thread := { s.thread with opStackIdx := s.thread.opStackIdx - n } }

section instructions
variable {img : Image} {N : Natives img} {s s' : State} {instr : Instr}

theorem returns_jump (n : Nat) (s : State) :
    Returns (jump n) s ⟨⟩ { s with opcode := s.opcode + n } := Vm.returns_modify.mpr rfl

theorem returns_fetch (here : s.func.code[s.opcode]? = some instr) :
    Returns fetch s instr (fetched s) := by
  unfold fetch
  rw [returns_after (Vm.returns_get.mpr ⟨rfl, rfl⟩),
    returns_after (Vm.returns_ofOption.mpr ⟨here, rfl⟩),
    returns_after (returns_jump 1 s)]
  exact returns_pure.mpr ⟨rfl, rfl⟩

theorem returns_push {w : Nat} (room : s.thread.opStackIdx + 1 < img.opStackSize) :
    Returns (stackPush img w) s ⟨⟩ (pushed s w) := by
  have open' : ¬ s.thread.opStackIdx + 1 = img.static.opStackSize := Nat.ne_of_lt room
  rw [Returns, stackPush, ErrorHandlers.stackPush, if_neg open']
  rfl

theorem returns_pop (some : 0 < s.thread.opStackIdx) :
    Returns stackPop s (s.thread.opstack (s.thread.opStackIdx - 1)) (dropped s 1) := by
  rw [Returns, stackPop, if_neg (Nat.ne_of_gt some)]
  rfl

theorem moves_instruction (control : s.control = .opcode)
    (here : s.func.code[s.opcode]? = some instr) (ran : Returns (execute img instr) (fetched s) ⟨⟩ s') :
    Moves img N s s' := by
  apply Moves.instruction control
  rw [returns_after (returns_fetch here)]
  exact ran

/- Unless the stack is full or memory is short. -/
theorem goes_instruction {P : State → Prop} (control : s.control = .opcode)
    (here : s.func.code[s.opcode]? = some instr)
    (runs : s.thread.opStackIdx + 1 < img.opStackSize → demand img s ≤ s.heap.fresh.freeMem →
      ∃ s', Returns (execute img instr) (fetched s) ⟨⟩ s' ∧ P s') : Goes img N s P := by
  by_cases full : s.thread.opStackIdx + 1 < img.opStackSize
  · by_cases short : demand img s ≤ s.heap.fresh.freeMem
    · obtain ⟨s', ran, goal⟩ := runs full short
      exact .next (moves_instruction control here ran) (.here goal)
    · exact .stop (.heap (Nat.lt_of_not_le short))
  · exact .stop (.stack (Nat.le_of_not_lt full))

end instructions

/- No state has two next ones: how much fuel a search takes does not matter. -/

section unique
variable {img : Image} {N : Natives img} {s s' s'' : State} {fuel fuel' : Nat}

theorem envDisplay_unique {h : Heap} {env idx e e' : Nat}
    (one : Vm.envDisplay h fuel env idx = .ok e) (other : Vm.envDisplay h fuel' env idx = .ok e') :
    e = e' := by
  induction fuel generalizing fuel' env with
  | zero => cases one
  | succ fuel ih =>
    cases fuel' with
    | zero => cases other
    | succ fuel' =>
      rw [Vm.envDisplay] at one other
      split at one
      · cases one
      · rename_i b here
        simp only [here] at other
        split_ifs at one other with real found outer
        · cases one
          cases other
          rfl
        · exact ih one other

theorem bindmapInit_unique {bindmap : List Nat} {base : Nat} {x x' : PUnit}
    (one : Returns (bindmapInit fuel base bindmap) s x s')
    (other : Returns (bindmapInit fuel' base bindmap) s x' s'') : s' = s'' := by
  induction bindmap generalizing s base with
  | nil => exact (one.unique other).2
  | cons idx bindmap ih =>
    rw [bindmapInit, returns_after (Vm.returns_get.mpr ⟨rfl, rfl⟩)] at one other
    split at one
    · exact (Vm.returns_stop one).elim
    · rename_i e found
      split at other
      · exact (Vm.returns_stop other).elim
      · rename_i e' found'
        have same := envDisplay_unique found found'
        subst same
        rw [returns_bind] at one other
        obtain ⟨_, u, set, one⟩ := one
        obtain ⟨_, v, set', other⟩ := other
        have same := (set.unique set').2
        subst same
        exact ih one other

theorem initBindmap_unique {f : IFunc} {x x' : PUnit} (one : Returns (initBindmap fuel f) s x s')
    (other : Returns (initBindmap fuel' f) s x' s'') : s' = s'' := by
  unfold initBindmap at one other
  rw [returns_after (Vm.returns_get.mpr ⟨rfl, rfl⟩)] at one other
  split at one
  · rename_i first
    rw [if_pos first] at other
    simp only [returns_bind, Vm.returns_modify, Vm.returns_setThread] at one other
    obtain ⟨_, _, rfl, _, _, rfl, one⟩ := one
    obtain ⟨_, _, rfl, _, _, rfl, other⟩ := other
    exact bindmapInit_unique one other
  · rename_i set
    rw [if_neg set] at other
    exact (one.unique other).2

theorem enterInterp_unique {f : IFunc} {n : Nat} {x x' : PUnit}
    (one : Returns (enterInterp img fuel f n) s x s')
    (other : Returns (enterInterp img fuel' f n) s x' s'') : s' = s'' := by
  obtain ⟨_, k, u, v, swallowed, moved, finished⟩ := VmFrames.enterInterp_parts one
  obtain ⟨_, k', u', v', swallowed', moved', finished'⟩ := VmFrames.enterInterp_parts other
  obtain ⟨rfl, rfl⟩ := swallowed.unique swallowed'
  have same : v = v' := by
    rcases moved with ⟨heap, moved⟩ | ⟨heap, moved⟩
    · rcases moved' with ⟨_, moved'⟩ | ⟨heap', _⟩
      · exact (moved.unique moved').2
      · rw [heap] at heap'
        cases heap'
    · rcases moved' with ⟨heap', _⟩ | ⟨_, moved'⟩
      · rw [heap] at heap'
        cases heap'
      · exact (moved.unique moved').2
  subst same
  exact initBindmap_unique finished finished'

theorem callFunc_unique {a : Nat} {opArg : Int} {r r' : Option Native}
    (one : Returns (callFunc img fuel a opArg) s r s')
    (other : Returns (callFunc img fuel' a opArg) s r' s'') : r = r' ∧ s' = s'' := by
  unfold callFunc at one other
  rw [returns_bind] at one other
  obtain ⟨hdr, u, found, one⟩ := one
  obtain ⟨hdr', u', found', other⟩ := other
  obtain ⟨rfl, rfl⟩ := found.unique found'
  split at one
  · rename_i msg error
    simp only [error] at other
    exact one.unique other
  · rename_i fine
    simp only [fine] at other
    split at one
    · rename_i f inter
      simp only [inter] at other
      rw [returns_bind] at one other
      obtain ⟨_, v, set, one⟩ := one
      obtain ⟨_, v', set', other⟩ := other
      have same := (set.unique set').2
      subst same
      rw [returns_bind] at one other
      obtain ⟨_, w, entered, one⟩ := one
      obtain ⟨_, w', entered', other⟩ := other
      have same := enterInterp_unique entered entered'
      subst same
      exact one.unique other
    · rename_i inter
      simp only [inter] at other
      exact one.unique other

theorem dispatchFunc_unique {fp : Nat} {opArg : Int} {r r' : Option Native}
    (one : Returns (dispatchFunc img fuel fp opArg) s r s')
    (other : Returns (dispatchFunc img fuel' fp opArg) s r' s'') : r = r' ∧ s' = s'' := by
  unfold dispatchFunc at one other
  rw [returns_bind] at one other
  obtain ⟨found, u, ran, one⟩ := one
  obtain ⟨found', u', ran', other⟩ := other
  obtain ⟨rfl, rfl⟩ := ran.unique ran'
  cases found with
  | again fp opArg => exact one.unique other
  | error msg => exact one.unique other
  | function a => exact callFunc_unique one other

theorem moves_unique (one : Moves img N s s') (other : Moves img N s s'') : s' = s'' := by
  cases one with
  | instruction here ran =>
    cases other with
    | instruction _ ran' => exact (ran.unique ran').2
    | dispatch here' _ => cases here.symm.trans here'
    | returns here' _ _ => cases here.symm.trans here'
  | dispatch here ran =>
    cases other with
    | instruction here' _ => cases here.symm.trans here'
    | dispatch here' ran' =>
      cases here.symm.trans here'
      exact (dispatchFunc_unique ran ran').2
    | returns here' ran' _ =>
      cases here.symm.trans here'
      cases (dispatchFunc_unique ran ran').1
  | returns here ran called =>
    cases other with
    | instruction here' _ => cases here.symm.trans here'
    | dispatch here' ran' =>
      cases here.symm.trans here'
      cases (dispatchFunc_unique ran ran').1
    | returns here' ran' called' =>
      cases here.symm.trans here'
      obtain ⟨same, rfl⟩ := dispatchFunc_unique ran ran'
      cases same
      rw [called, Option.some.injEq] at called'
      rw [called']

end unique

end LGears.VmMoves
