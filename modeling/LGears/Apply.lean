import LGears.Vm

/- The builtin apply, which unpacks a list onto the operand stack. -/
namespace LGears.Apply
open Vm StateExcept
open Gc hiding State copied target

/-- The proper list at l has the elements xs. -/
inductive Items (img : Image) (h : Heap) : Nat → List Nat → Prop where
  | null : Items img h cnull []
  | pair {l : Nat} {words : Nat → Nat} {xs : List Nat} (here : isPair img h l = true)
      (found : wordsAt img h l = some words) (rest : Items img h (words 1) xs) :
      Items img h l (words 0 :: xs)

section code
variable (img : Image)

/-- The loop of apply, pair being a pair; the result is cargc. -/
def applyLoop : Nat → Nat → Int → VmM Int
  | 0, _, _ => stop .fuel
  | fuel + 1, pair, cargc => do
    let words ← ofOption (wordsAt img (← get).heap pair)
    stackPush img (words 0)
    if isPair img (← get).heap (words 1) then applyLoop fuel (words 1) (cargc + 1)
    else return cargc + 1

/-- (apply thread argv argc), argv being at start: what it leaves in the trampoline, or none for
    RC_ERROR. -/
def apply (fuel start : Nat) : VmM (Option (Nat × Int)) := do
  let s ← get
  if !ErrorHandlers.isFunc s.heap (s.thread.opstack (start + 1)) then return none
  else if !isPair img s.heap (s.thread.opstack (start + 2)) then return none
  else
    stackPush img (s.thread.opstack start)
    let cargc ← applyLoop img fuel (s.thread.opstack (start + 2)) 1
    return some ((← get).thread.opstack (start + 1), cargc)

/-- A call that dispatch_func passes to apply. -/
def callApply (fuel fp : Nat) (opArg : Int) : VmM PUnit := do
  match ← dispatchFunc img fuel fp opArg with
  | some .apply =>
    match ← apply img fuel ((← get).thread.opStackIdx - opArg.toNat) with
    | some (func, argc) => Vm.modify fun s => { s with control := .dispatch func argc }
    | none => raise img "call: apply failed"
  | _ => stop .undefined

end code

/-- A word is pushed. -/
def push (s : State) (w : Nat) : State :=
  { s with thread := { s.thread with
    opstack := Function.update s.thread.opstack s.thread.opStackIdx w
    opStackIdx := s.thread.opStackIdx + 1 } }

/-- The words are pushed one after the other. -/
def pushed (s : State) (ws : List Nat) : State := ws.foldl push s

/-- The state in which dispatch_func is reached by a call of f with the continuation k and the
    arguments xs. -/
def directCall (s : State) (f k : Nat) (xs : List Nat) : State :=
  { pushed s (k :: xs) with control := .dispatch f (xs.length + 1) }

/-- There is a word above the top of the stack. -/
def above (s : State) (w : Nat) : State :=
  { s with thread := { s.thread with
    opstack := Function.update s.thread.opstack s.thread.opStackIdx w } }

/-- The builtin apply is at fp. -/
structure IsApply (img : Image) (fp : Nat) : Prop where
  tag : fp % 8 = ErrorHandlers.tagFunc
  apart : img.inter (ptr fp) = none
  native : img.natives (ptr fp) = some .apply

/-- The operands of apply are on the top of the stack. -/
structure Operands (s : State) (k f l : Nat) : Prop where
  depth : 3 ≤ s.thread.opStackIdx
  cont : s.thread.opstack (s.thread.opStackIdx - 3) = k
  func : s.thread.opstack (s.thread.opStackIdx - 3 + 1) = f
  list : s.thread.opstack (s.thread.opStackIdx - 3 + 2) = l

/-- The registers of a call as a function that is no closure leaves them. -/
def calling (s : State) : State :=
  { s with bindmap := none, thread := { s.thread with closure := 0 } }

section push
variable {img : Image} {s : State} {w k f i : Nat} {ws xs : List Nat}

@[simp] theorem pushed_heap : (pushed s ws).heap = s.heap := by
  induction ws generalizing s with
  | nil => rfl
  | cons w ws ih => exact ih

@[simp] theorem pushed_opStackIdx :
    (pushed s ws).thread.opStackIdx = s.thread.opStackIdx + ws.length := by
  induction ws generalizing s with
  | nil => rfl
  | cons w ws ih =>
    rw [List.length_cons, Nat.add_comm ws.length, ← Nat.add_assoc]
    exact ih

theorem pushed_below (below : i < s.thread.opStackIdx) :
    (pushed s ws).thread.opstack i = s.thread.opstack i := by
  induction ws generalizing s with
  | nil => rfl
  | cons w ws ih =>
    have kept : (push s w).thread.opstack i = s.thread.opstack i :=
      Function.update_of_ne (Nat.ne_of_lt below) _ _
    exact (ih (Nat.lt_succ_of_lt below)).trans kept

theorem stackPush_returns (room : s.thread.opStackIdx + 1 < img.opStackSize) :
    Returns (stackPush img w) s ⟨⟩ (push s w) := by
  have space : ¬ s.thread.opStackIdx + 1 = img.static.opStackSize := Nat.ne_of_lt room
  rw [Returns, stackPush, ErrorHandlers.stackPush, if_neg space]
  rfl

/- FUNC_CALL, with f on the stack above the arguments, comes to a direct call; the word of f is left
   above the top. -/
theorem funcCall_directCall : Returns (execute img ⟨.funcCall, xs.length + 1⟩)
    (push (pushed s (k :: xs)) f) ⟨⟩ (above (directCall s f k xs) f) := by
  have popped :
      Returns stackPop (push (pushed s (k :: xs)) f) f (above (pushed s (k :: xs)) f) := by
    simp [Returns, stackPop, push, above]
  simp only [execute, returns_bind, returns_modify]
  exact ⟨f, _, popped, rfl⟩

theorem dispatchFunc_calling {fuel : Nat} {n : Int} {r : Option Native} {t : State}
    (procedure : ErrorHandlers.isFunc s.heap f = true)
    (function : ∀ b, s.heap.cells (hdrOf f) = some b → b.type ≠ .cont) :
    Returns (dispatchFunc img fuel f n) (calling s) r t ↔
      Returns (dispatchFunc img fuel f n) s r t := by
  have aimed : ∀ a u,
      Returns (target img f n) (calling s) a u ↔ Returns (target img f n) s a u := by
    intro a u
    unfold Vm.target
    cases pointer : isHeapPtr f with
    | true =>
      simp only [if_true, returns_bind, returns_get, returns_ofOption, existsAndEq, true_and,
        calling]
      apply exists_congr
      intro b
      apply and_congr_right
      intro here
      cases type : b.type with
      | cont => exact absurd type (function b here.1)
      | closure => simp
      | _ => simp
    | false =>
      have tag : f % 8 = ErrorHandlers.tagFunc := by
        simpa [ErrorHandlers.isFunc, pointer] using procedure
      simp [tag, calling]
  simp only [dispatchFunc, returns_bind, aimed]

end push

section apply
variable {img : Image} {s s' : State} {l f k fuel : Nat} {xs : List Nat}

theorem isPair_cnull (h : Heap) : isPair img h cnull = false := by
  rw [isPair, isType, if_neg (by decide), if_neg (by decide)]

theorem Items.uncons {h : Heap} {x : Nat} (items : Items img h l (x :: xs)) :
    ∃ words, isPair img h l = true ∧ wordsAt img h l = some words ∧ words 0 = x ∧
      Items img h (words 1) xs := by
  generalize whole : x :: xs = ys at items
  cases items with
  | null => cases whole
  | pair here found rest =>
    cases whole
    exact ⟨_, here, found, rfl, rest⟩

/- The loop goes on exactly while there are elements. -/
theorem Items.isPair_iff {h : Heap} (items : Items img h l xs) :
    isPair img h l = true ↔ xs ≠ [] := by
  cases items with
  | null => simp [isPair_cnull]
  | pair here _ _ => simp [here]

theorem applyLoop_returns {x : Nat} (items : Items img s.heap l (x :: xs))
    (room : s.thread.opStackIdx + (xs.length + 1) < img.opStackSize) (enough : xs.length < fuel)
    (cargc : Int) :
    Returns (applyLoop img fuel l cargc) s (cargc + (xs.length + 1)) (pushed s (x :: xs)) := by
  induction xs generalizing s l x fuel cargc with
  | nil =>
    obtain ⟨words, _, found, rfl, rest⟩ := items.uncons
    obtain ⟨fuel, rfl⟩ : ∃ n, fuel = n + 1 := ⟨fuel - 1, by omega⟩
    have first : Returns (stackPush img (words 0)) s ⟨⟩ (push s (words 0)) :=
      stackPush_returns (by simpa using room)
    have last : isPair img (push s (words 0)).heap (words 1) = false := by
      rw [← Bool.not_eq_true]
      intro more
      exact rest.isPair_iff.mp more rfl
    simp only [applyLoop, returns_bind, returns_get, returns_ofOption]
    refine ⟨s, s, ⟨rfl, rfl⟩, words, s, ⟨found, rfl⟩, ⟨⟩, _, first, push s (words 0), _, ⟨rfl, rfl⟩,
      ?_⟩
    rw [last]
    simp [pushed]
  | cons y xs ih =>
    obtain ⟨words, _, found, rfl, rest⟩ := items.uncons
    rw [List.length_cons] at room enough
    obtain ⟨fuel, rfl⟩ : ∃ n, fuel = n + 1 := ⟨fuel - 1, by omega⟩
    have first : Returns (stackPush img (words 0)) s ⟨⟩ (push s (words 0)) :=
      stackPush_returns (by omega)
    have more : isPair img (push s (words 0)).heap (words 1) = true :=
      rest.isPair_iff.mpr (List.cons_ne_nil _ _)
    have tail := ih (s := push s (words 0)) rest (by simp only [push]; omega)
      (Nat.lt_of_succ_lt_succ enough) (cargc + 1)
    simp only [applyLoop, returns_bind, returns_get, returns_ofOption]
    refine ⟨s, s, ⟨rfl, rfl⟩, words, s, ⟨found, rfl⟩, ⟨⟩, _, first, push s (words 0), _, ⟨rfl, rfl⟩,
      ?_⟩
    rw [if_pos more]
    have count : cargc + ((y :: xs).length + 1 : Int) = cargc + 1 + (xs.length + 1) := by
      rw [List.length_cons]
      omega
    rw [count]
    exact tail

theorem dispatchFunc_apply {fp : Nat} (builtin : IsApply img fp) :
    Returns (dispatchFunc img fuel fp 3) s (some .apply) (calling s) := by
  have pointer : isHeapPtr fp = false := by
    simp [isHeapPtr, builtin.tag, ErrorHandlers.tagFunc]
  have aimed : Returns (target img fp 3) s (.function (ptr fp)) (calling s) := by
    simp only [Vm.target, pointer, Bool.false_eq_true, if_false, builtin.tag, if_true, returns_bind,
      returns_modify, returns_pure]
    exact ⟨⟨⟩, _, rfl, trivial, rfl⟩
  have hdr : img.hdr (ptr fp) = some Native.apply.hdr := by
    simp [Image.hdr, builtin.apart, builtin.native]
  have called : Returns (callFunc img fuel (ptr fp) 3) (calling s) (some .apply) (calling s) := by
    have fits : argsError Native.apply.hdr 3 = none := by decide
    simp only [callFunc, hdr, builtin.apart, builtin.native, returns_bind, returns_ofOption,
      Option.some.injEq]
    refine ⟨_, _, ⟨rfl, rfl⟩, ?_⟩
    rw [fits]
    simp
  rw [dispatchFunc, returns_bind]
  exact ⟨_, _, aimed, called⟩

theorem raise_control {msg : String} {x : PUnit} (ran : Returns (raise img msg) s x s') :
    ∃ fp, s'.control = .dispatch fp 2 := by
  unfold Returns raise at ran
  split at ran
  · cases ran
  · cases ran
  · cases ran
  · rename_i t h handler
    change Returns _ _ _ _ at ran
    rw [returns_bind] at ran
    obtain ⟨fp, u, _, ran⟩ := ran
    rw [returns_modify] at ran
    subst ran
    exact ⟨fp, rfl⟩

theorem callApply_returns {fp : Nat} {x : PUnit} (builtin : IsApply img fp) :
    Returns (callApply img fuel fp 3) s x s' ↔
      ∃ res u, Returns (apply img fuel (s.thread.opStackIdx - 3)) (calling s) res u ∧
        match res with
        | some (func, argc) => { u with control := .dispatch func argc } = s'
        | none => Returns (raise img "call: apply failed") u x s' := by
  have dispatched : Returns (dispatchFunc img fuel fp 3) s (some .apply) (calling s) :=
    dispatchFunc_apply builtin
  have code : callApply img fuel fp 3 s =
      (do
        match ← apply img fuel (s.thread.opStackIdx - 3) with
        | some (func, argc) => Vm.modify fun s => { s with control := .dispatch func argc }
        | none => raise img "call: apply failed") (calling s) := by
    rw [Returns] at dispatched
    simp only [callApply, bind, StateT.bind, dispatched, Except.bind]
    rfl
  rw [Returns, code]
  change Returns _ _ _ _ ↔ _
  rw [returns_bind]
  apply exists_congr
  intro res
  apply exists_congr
  intro u
  apply and_congr_right
  intro _
  cases res with
  | none => rfl
  | some call => exact returns_modify

theorem Operands.callable (operands : Operands s k f l)
    (procedure : ErrorHandlers.isFunc s.heap f = true) :
    (!ErrorHandlers.isFunc (calling s).heap
      ((calling s).thread.opstack (s.thread.opStackIdx - 3 + 1))) = false := by
  have func : s.thread.opstack (s.thread.opStackIdx - 3 + 1) = f := operands.func
  simp only [calling, func, procedure, Bool.not_true]

theorem callApply_empty {fp : Nat} (builtin : IsApply img fp) (operands : Operands s k f l)
    (procedure : ErrorHandlers.isFunc s.heap f = true) (items : Items img s.heap l []) :
    ¬ Returns (callApply img fuel fp 3) s ⟨⟩ (directCall (calling s) f k []) := by
  have last : isPair img s.heap l = false := by
    rw [← Bool.not_eq_true]
    intro more
    exact items.isPair_iff.mp more rfl
  have listed : (calling s).thread.opstack (s.thread.opStackIdx - 3 + 2) = l := operands.list
  have failed :
      Returns (apply img fuel (s.thread.opStackIdx - 3)) (calling s) none (calling s) := by
    simp only [apply, returns_bind, returns_get]
    refine ⟨_, _, ⟨rfl, rfl⟩, ?_⟩
    rw [operands.callable procedure, listed]
    simp [calling, last]
  rw [callApply_returns builtin]
  intro returned
  obtain ⟨res, t, ran, raised⟩ := returned
  obtain ⟨rfl, rfl⟩ := failed.unique ran
  obtain ⟨fp', handler⟩ := raise_control raised
  have one : Control.dispatch f 1 = Control.dispatch fp' 2 := handler
  cases one

theorem callApply_pairs {fp x : Nat} (builtin : IsApply img fp) (operands : Operands s k f l)
    (procedure : ErrorHandlers.isFunc s.heap f = true) (items : Items img s.heap l (x :: xs))
    (room : s.thread.opStackIdx + (xs.length + 2) < img.opStackSize) (enough : xs.length < fuel) :
    Returns (callApply img fuel fp 3) s ⟨⟩ (directCall (calling s) f k (x :: xs)) := by
  have depth := operands.depth
  have listed : (calling s).thread.opstack (s.thread.opStackIdx - 3 + 2) = l := operands.list
  have continuation : (calling s).thread.opstack (s.thread.opStackIdx - 3) = k := operands.cont
  have first : Returns (stackPush img k) (calling s) ⟨⟩ (push (calling s) k) :=
    stackPush_returns (by simp only [calling]; omega)
  have loop : Returns (applyLoop img fuel l 1) (push (calling s) k) (1 + (xs.length + 1))
      (pushed (calling s) (k :: x :: xs)) := by
    apply applyLoop_returns (s := push (calling s) k) items
    · simp only [push, calling]
      omega
    · exact enough
  have kept : (pushed (calling s) (k :: x :: xs)).thread.opstack (s.thread.opStackIdx - 3 + 1) =
      f := by
    rw [pushed_below (by simp only [calling]; omega)]
    exact operands.func
  have more : (!isPair img (calling s).heap l) = false := by
    have pair : isPair img s.heap l = true := items.isPair_iff.mpr (List.cons_ne_nil _ _)
    simp only [calling, pair, Bool.not_true]
  have ran : Returns (apply img fuel (s.thread.opStackIdx - 3)) (calling s)
      (some (f, 1 + (xs.length + 1))) (pushed (calling s) (k :: x :: xs)) := by
    simp only [apply, returns_bind, returns_get]
    refine ⟨_, _, ⟨rfl, rfl⟩, ?_⟩
    rw [operands.callable procedure, listed, more]
    simp only [Bool.false_eq_true, if_false, returns_bind, returns_get, returns_pure]
    refine ⟨⟨⟩, _, ?_, _, _, loop, _, _, ⟨rfl, rfl⟩, ?_, rfl⟩
    · rw [continuation]
      exact first
    · rw [kept]
  rw [callApply_returns builtin]
  refine ⟨_, _, ran, ?_⟩
  simp only [directCall, List.length_cons, Nat.cast_add, Nat.cast_one, Int.add_comm 1]

/- With its operands on the stack apply calls the function with the elements of the list, if and
   only if there are any. -/
theorem apply_calls_iff {fp : Nat} (builtin : IsApply img fp) (operands : Operands s k f l)
    (procedure : ErrorHandlers.isFunc s.heap f = true) (items : Items img s.heap l xs)
    (room : s.thread.opStackIdx + (xs.length + 1) < img.opStackSize) (enough : xs.length ≤ fuel) :
    Returns (callApply img fuel fp 3) s ⟨⟩ (directCall (calling s) f k xs) ↔ xs ≠ [] := by
  cases xs with
  | nil =>
    constructor
    · intro ran
      exact absurd ran (callApply_empty builtin operands procedure items)
    · intro some
      exact absurd rfl some
  | cons x xs =>
    constructor
    · intro _
      exact List.cons_ne_nil _ _
    · intro _
      exact callApply_pairs builtin operands procedure items room enough

end apply

/-- The pairs of the list (1 2 3) in a constant area. -/
def samplePairs (a : Nat) : Option (Nat × Nat) :=
  if a = 32 then some (8, 58) else if a = 56 then some (16, 82)
  else if a = 80 then some (24, cnull) else none

/- The list, and apply as the builtin at 512. -/
def sampleImage : Image where
  functions := []
  entryPoint := 0
  consts := []
  base := 0
  natives a := if a = 512 then some .apply else none
  area a := (samplePairs a).map fun p => ⟨.pair, fun i => if i = 1 then p.2 else p.1⟩
  apart := by
    intro a b found
    obtain ⟨p, pair, rfl⟩ := Option.map_eq_some_iff.mp found
    unfold samplePairs at pair
    split_ifs at pair <;> cases pair <;> decide
  vmExit := 0
  opStackSize := 16

/- The operands: a continuation, a function, and what apply gets as its list. -/
def sampleState (l : Nat) : State where
  thread := {
    env := 0
    opstack := fun i => if i = 0 then makeFunc 128 else if i = 1 then makeFunc 256 else l
    opStackIdx := 3
    closure := 0
    libCache := cnull
    exceptionHandlers := cnull
    localRoots := []
    heapEnv := false
    objects := .stack 0 }
  heap := Gc.heapInit 0 0
  bindmap := none
  func := { argc := 0, swallow := false, heap := false, size := 0, depth := 0, code := [],
            bindings := [], bindmap := [] }
  opcode := 0
  control := .dispatch (makeFunc 512) 3

theorem sampleImage_isApply : IsApply sampleImage (makeFunc 512) := by
  constructor
  · rfl
  · rfl
  · rfl

theorem sampleImage_items : Items sampleImage (Gc.heapInit 0 0) 34 [8, 16, 24] := by
  have words : ∀ l p, samplePairs (ptr l) = some p → isHeapPtr l = false →
      wordsAt sampleImage (Gc.heapInit 0 0) l = some fun i => if i = 1 then p.2 else p.1 := by
    intro l p pair plain
    simp only [wordsAt, plain, sampleImage, pair]
    rfl
  have third : Items sampleImage (Gc.heapInit 0 0) 82 [24] :=
    .pair rfl (words 82 (24, cnull) rfl rfl) .null
  have second : Items sampleImage (Gc.heapInit 0 0) 58 [16, 24] :=
    .pair rfl (words 58 (16, 82) rfl rfl) third
  exact .pair rfl (words 34 (8, 58) rfl rfl) second

theorem sampleState_operands (l : Nat) :
    Operands (sampleState l) (makeFunc 128) (makeFunc 256) l := by
  constructor
  · exact Nat.le_refl 3
  · rfl
  · rfl
  · rfl

theorem apply_calls_iff_three :
    Returns (callApply sampleImage 3 (makeFunc 512) 3) (sampleState 34) ⟨⟩
      (directCall (calling (sampleState 34)) (makeFunc 256) (makeFunc 128) [8, 16, 24]) ↔
    [8, 16, 24] ≠ [] :=
  apply_calls_iff sampleImage_isApply (sampleState_operands 34) rfl sampleImage_items (by decide)
    (by decide)

/- apply of a function to the empty list is an error, and not a call without arguments. -/
theorem apply_empty_fails : Items sampleImage (sampleState cnull).heap cnull [] ∧
    ErrorHandlers.isFunc (sampleState cnull).heap (makeFunc 256) = true ∧
    ¬ Returns (callApply sampleImage 0 (makeFunc 512) 3) (sampleState cnull) ⟨⟩
      (directCall (calling (sampleState cnull)) (makeFunc 256) (makeFunc 128) []) := by
  constructor
  · exact .null
  · constructor
    · rfl
    · exact callApply_empty sampleImage_isApply (sampleState_operands cnull) rfl .null

end LGears.Apply
