import LGears.Primitives

/- The operand stack stays below a bound that the functions of a module determine. -/
namespace LGears.StackBound
open PrimitivesInfo Opcode Compiler StateExcept Vm VmFrames CodeFlow CodeTables Relation
open Gc hiding State copied target WellFormed

/- What an instruction does to the depth of the stack. -/

section instructions
variable {img : Image} {s s' u : State} {k l : Int} {w : Nat} {x : PUnit}

/-- The stack is k words deeper. -/
structure Shifts (k : Int) (s s' : State) : Prop where
  calm : Calm s s'
  opStackIdx : (s'.thread.opStackIdx : Int) = s.thread.opStackIdx + k

theorem Shifts.trans (first : Shifts k s u) (second : Shifts l u s') : Shifts (k + l) s s' where
  calm := first.calm.trans second.calm
  opStackIdx := by
    have one := first.opStackIdx
    have two := second.opStackIdx
    omega

theorem Shifts.pop (ran : Returns stackPop s w s') : Shifts (-1) s s' := by
  obtain ⟨some, rfl, rfl⟩ := returns_stackPop ran
  constructor
  · exact ⟨.refl _, .refl _, rfl, rfl, rfl, rfl, id⟩
  · simp only
    omega

theorem Shifts.push (ran : Returns (stackPush img w) s x s') : Shifts 1 s s' := by
  rw [returns_stackPush img ran]
  constructor
  · exact ⟨.refl _, .refl _, rfl, rfl, rfl, rfl, id⟩
  · simp only
    omega

theorem Shifts.allocates (allocates : Allocates s s') : Shifts 0 s s' := by
  constructor
  · exact allocates.calm
  · rw [allocates.opStackIdx, Int.add_zero]

theorem Shifts.setEnvObject {objects i obj : Nat} (ran : Returns (setEnvObject objects i obj) s x s') :
    Shifts 0 s s' := by
  unfold Returns Vm.setEnvObject at ran
  cases found : envObject s.heap objects i with
  | none =>
    rw [found] at ran
    cases ran
  | some old =>
    rw [found] at ran
    exact Shifts.allocates (.write ran)

theorem Shifts.setObject {i obj : Nat} (ran : Returns (setObject i obj) s x s') :
    Shifts 0 s s' := by
  unfold Vm.setObject at ran
  rw [returns_bind] at ran
  obtain ⟨_, _, here, ran⟩ := ran
  rw [returns_get] at here
  obtain ⟨rfl, rfl⟩ := here
  cases place : s.thread.objects with
  | stack base =>
    simp only [place, returns_setThread] at ran
    subst ran
    exact ⟨⟨.refl _, .refl _, rfl, rfl, rfl, rfl, id⟩, (Int.add_zero _).symm⟩
  | env objects =>
    simp only [place] at ran
    exact Shifts.setEnvObject ran

theorem pairAt_cnull (h : Heap) : ErrorHandlers.pairAt img.static h cnull = none := by
  unfold ErrorHandlers.pairAt
  rw [if_neg (by decide), if_neg (by decide)]

theorem raise_unhandled {msg : String} (none : s.thread.exceptionHandlers = cnull) :
    ¬ Returns (raise img msg) s x s' := by
  intro ran
  unfold Returns raise at ran
  have unhandled : ErrorHandlers.pushExceptionHandler img.static s.thread (cstring msg) s.heap =
      .ok (.unhandled, s.heap) := by
    unfold ErrorHandlers.pushExceptionHandler
    simp only [bind, StateT.bind, Except.bind, get, getThe, MonadStateOf.get, StateT.get, pure,
      Except.pure, none, pairAt_cnull]
    rfl
  rw [unhandled] at ran
  cases ran

theorem Shifts.field {i : Nat} {msg : String} (none : s.thread.exceptionHandlers = cnull)
    (ran : Returns (field img i msg) s x s') : Shifts 0 s s' := by
  unfold Vm.field at ran
  simp only [returns_bind, returns_get] at ran
  obtain ⟨a, u, popped, _, _, ⟨rfl, rfl⟩, ran⟩ := ran
  have pop := Shifts.pop popped
  by_cases pair : isPair img u.heap a = true
  · rw [if_pos pair] at ran
    simp only [returns_bind, returns_ofOption] at ran
    obtain ⟨words, _, ⟨_, rfl⟩, push⟩ := ran
    exact pop.trans (.push push)
  · rw [if_neg pair] at ran
    obtain ⟨_, _, rfl⟩ := returns_stackPop popped
    exact absurd ran (raise_unhandled none)

theorem Shifts.binary {op : Op} (ran : Returns (binary img op) s x s') : Shifts (-1) s s' := by
  unfold Vm.binary at ran
  simp only [returns_bind, returns_ofOption] at ran
  obtain ⟨b, _, second, a, _, first, c, _, ⟨_, rfl⟩, push⟩ := ran
  exact ((Shifts.pop second).trans (.pop first)).trans (.push push)

/-- Behind an instruction of a function, which no longer is where the thread was. -/
structure Effect (instr : Instr) (s s' : State) : Prop where
  libCache : Updated s.thread.libCache s'.thread.libCache
  exceptionHandlers : Updated s.thread.exceptionHandlers s'.thread.exceptionHandlers
  func : s'.func = s.func
  aligned : FreshAligned s.heap → FreshAligned s'.heap
  control : instr.op = .funcCall ∧ s'.thread.opStackIdx + 1 = s.thread.opStackIdx ∧
      (∃ fp, s'.control = .dispatch fp instr.arg) ∨
    s'.control = s.control ∧ s'.opcode ∈ successors instr (s.opcode - 1) ∧
      s'.thread.opStackIdx + pops instr = s.thread.opStackIdx + pushes instr

theorem Shifts.effect {instr : Instr} (shifts : Shifts k s s') (next : 0 < s.opcode)
    (plain : straight instr.op = true) (depth : k = pushes instr - pops instr) :
    Effect instr s s' where
  libCache := shifts.calm.libCache
  exceptionHandlers := shifts.calm.exceptionHandlers
  func := shifts.calm.func
  aligned := shifts.calm.aligned
  control := by
    right
    have idx := shifts.opStackIdx
    rw [(straight_next (d := 0) plain).1, shifts.calm.opcode, List.mem_singleton]
    exact ⟨shifts.calm.control, (Nat.sub_add_cancel next).symm, by omega⟩

theorem Shifts.effect_of {instr : Instr} {op : Op} (shifts : Shifts k s s') (here : instr.op = op)
    (next : 0 < s.opcode) (plain : straight op = true)
    (depth : k = pushes ⟨op, instr.arg⟩ - pops ⟨op, instr.arg⟩) : Effect instr s s' := by
  subst here
  exact shifts.effect next plain depth

theorem execute_effect {instr : Instr} (none : s.thread.exceptionHandlers = cnull)
    (next : 0 < s.opcode) (ran : Returns (execute img instr) s x s') : Effect instr s s' := by
  unfold execute at ran
  cases op : instr.op with
  | loadLocal =>
    simp only [op, returns_bind, returns_get, returns_ofOption] at ran
    obtain ⟨_, _, ⟨rfl, rfl⟩, _, _, ⟨_, rfl⟩, push⟩ := ran
    exact (Shifts.push push).effect_of op next rfl rfl
  | loadConst =>
    simp only [op, returns_bind, returns_ofOption] at ran
    obtain ⟨_, _, ⟨_, rfl⟩, push⟩ := ran
    exact (Shifts.push push).effect_of op next rfl rfl
  | loadFunc =>
    simp only [op] at ran
    exact (Shifts.push ran).effect_of op next rfl rfl
  | pushBool =>
    simp only [op] at ran
    exact (Shifts.push ran).effect_of op next rfl rfl
  | pushNull =>
    simp only [op] at ran
    exact (Shifts.push ran).effect_of op next rfl rfl
  | loadClosure =>
    simp only [op, returns_bind, returns_ofOption] at ran
    obtain ⟨_, _, ⟨_, rfl⟩, _, _, created, push⟩ := ran
    exact ((Shifts.allocates (.closureNew created)).trans (.push push)).effect_of op next rfl rfl
  | loadBind =>
    simp only [op, returns_bind, returns_get, returns_ofOption] at ran
    obtain ⟨_, _, ⟨rfl, rfl⟩, _, _, ⟨_, rfl⟩, _, _, ⟨_, rfl⟩, push⟩ := ran
    exact (Shifts.push push).effect_of op next rfl rfl
  | setLocal =>
    simp only [op, returns_bind] at ran
    obtain ⟨_, _, popped, set⟩ := ran
    exact ((Shifts.pop popped).trans (.setObject set)).effect_of op next rfl rfl
  | setBind =>
    simp only [op, returns_bind, returns_get, returns_ofOption] at ran
    obtain ⟨_, _, ⟨rfl, rfl⟩, _, _, ⟨_, rfl⟩, _, _, popped, set⟩ := ran
    exact ((Shifts.pop popped).trans (.setEnvObject set)).effect_of op next rfl rfl
  | jumpForward =>
    simp only [op, jump, returns_modify] at ran
    subst ran
    refine ⟨.refl _, .refl _, rfl, id, Or.inr ⟨rfl, ?_, ?_⟩⟩
    · simp only [successors, op, List.mem_singleton]
      omega
    · simp only [pops, pushes, op]
  | jumpIfFalse =>
    simp only [op, returns_bind] at ran
    obtain ⟨w, _, popped, ran⟩ := ran
    obtain ⟨some, _, rfl⟩ := returns_stackPop popped
    have depth : s.thread.opStackIdx - 1 + pops instr = s.thread.opStackIdx + pushes instr := by
      simp only [pops, pushes, op]
      omega
    by_cases false : w = cfalse
    · simp only [false, if_true, jump, returns_modify] at ran
      subst ran
      refine ⟨.refl _, .refl _, rfl, id, Or.inr ⟨rfl, ?_, depth⟩⟩
      simp [successors, op, Nat.sub_add_cancel next]
    · simp only [false, if_false, returns_pure] at ran
      obtain ⟨_, rfl⟩ := ran
      refine ⟨.refl _, .refl _, rfl, id, Or.inr ⟨rfl, ?_, depth⟩⟩
      simp [successors, op, Nat.sub_add_cancel next]
  | funcCall =>
    simp only [op, returns_bind, returns_modify] at ran
    obtain ⟨fp, _, popped, rfl⟩ := ran
    obtain ⟨some, _, rfl⟩ := returns_stackPop popped
    exact ⟨.refl _, .refl _, rfl, id, Or.inl ⟨op, Nat.sub_add_cancel some, fp, rfl⟩⟩
  | opNot =>
    simp only [op, returns_bind] at ran
    obtain ⟨_, _, popped, push⟩ := ran
    exact ((Shifts.pop popped).trans (.push push)).effect_of op next rfl rfl
  | opBitNot =>
    simp only [op, returns_bind] at ran
    obtain ⟨_, _, popped, push⟩ := ran
    exact ((Shifts.pop popped).trans (.push push)).effect_of op next rfl rfl
  | opCons =>
    simp only [op, returns_bind] at ran
    obtain ⟨_, _, second, _, _, first, _, _, set, _, _, consed, _, _, push, reset⟩ := ran
    have popped := (Shifts.pop second).trans (.pop first)
    have made := (Allocates.roots set).trans (.cons consed)
    have done := ((popped.trans (.allocates made)).trans (.push push)).trans
      (.allocates (.roots reset))
    exact done.effect_of op next rfl rfl
  | opCar =>
    simp only [op] at ran
    exact (Shifts.field none ran).effect_of op next rfl rfl
  | opCdr =>
    simp only [op] at ran
    exact (Shifts.field none ran).effect_of op next rfl rfl
  | opTypeTest =>
    simp only [op, returns_bind, returns_get] at ran
    obtain ⟨a, u, popped, _, _, ⟨rfl, rfl⟩, ran⟩ := ran
    cases test : typeTest img u.heap a instr.arg with
    | none => simp [test] at ran
    | some b =>
      simp only [test] at ran
      exact ((Shifts.pop popped).trans (.push ran)).effect_of op next rfl rfl
  | _ =>
    simp only [op] at ran
    exact (Shifts.binary ran).effect_of op next rfl rfl

end instructions

section steps
variable {img : Image} {s s' s₁ : State} {fp a fuel : Nat} {opArg : Int} {x : PUnit}

/-- The thread before enter_interp: dispatch_func has found the function f. -/
structure Calls (img : Image) (s : State) (opArg : Int) (f : IFunc) (s₁ : State) : Prop where
  found : ∃ fp a t, s.control = .dispatch fp opArg ∧
    Returns (target img fp opArg) s (.function a) t ∧ img.inter a = some f ∧
    s₁ = { t with opcode := 0, control := .opcode }
  args : argsError ⟨f.argc, f.swallow⟩ opArg = none

/-- Where the dispatch of a function word or of a closure leads. -/
inductive Leads (img : Image) (fp : Nat) (opArg : Int) (s : State) : Target → State → Prop where
  | closure {a env : Nat} {f : IFunc} (pointer : isHeapPtr fp = true) (inter : img.inter a = some f) :
      Leads img fp opArg s (.function a) { s with
        bindmap := none, thread := { s.thread with env := env, closure := ptr fp } }
  | func (tag : fp % 8 = ErrorHandlers.tagFunc) : Leads img fp opArg s (.function (ptr fp)) { s with
      bindmap := none, thread := { s.thread with closure := 0 } }
  | again {fp' : Nat} : Leads img fp opArg s (.again fp' (opArg - 1)) s
  | error (msg : String) : Leads img fp opArg s (.error msg) s

theorem target_leads {t : Target} (ran : Returns (target img fp opArg) s t s') :
    Leads img fp opArg s t s' := by
  unfold target at ran
  by_cases pointer : isHeapPtr fp = true
  · simp only [pointer, if_true, returns_bind, returns_get, returns_ofOption] at ran
    obtain ⟨_, _, ⟨rfl, rfl⟩, b, _, ⟨_, rfl⟩, ran⟩ := ran
    cases type : b.type with
    | closure =>
      simp only [type, returns_bind, returns_ofOption, returns_modify, returns_pure] at ran
      obtain ⟨f, _, ⟨inter, rfl⟩, _, _, rfl, rfl, rfl⟩ := ran
      exact .closure pointer inter
    | cont =>
      simp only [type, returns_pure] at ran
      obtain ⟨rfl, rfl⟩ := ran
      exact .again
    | _ => simp [type] at ran
  · simp only [pointer, Bool.false_eq_true, if_false] at ran
    by_cases tag : fp % 8 = ErrorHandlers.tagFunc
    · simp only [tag, if_true, returns_bind, returns_modify, returns_pure] at ran
      obtain ⟨_, _, rfl, rfl, rfl⟩ := ran
      exact .func tag
    · simp only [tag, if_false, returns_pure] at ran
      obtain ⟨rfl, rfl⟩ := ran
      exact .error _

/-- What comes of the dispatch of fp. -/
inductive Dispatched (img : Image) (fuel fp : Nat) (opArg : Int) (s : State) :
    Option Native → State → Prop where
  | again {fp' : Nat} :
      Dispatched img fuel fp opArg s none { s with control := .dispatch fp' (opArg - 1) }
  | enters {f : IFunc} {s₁ s' : State} (calls : Calls img s opArg f s₁)
      (ran : Returns (enterInterp img fuel f opArg.toNat) s₁ ⟨⟩ s') :
      Dispatched img fuel fp opArg s none s'
  | native {n : Native} (tag : fp % 8 = ErrorHandlers.tagFunc) (args : argsError n.hdr opArg = none) :
      Dispatched img fuel fp opArg s (some n) { s with
        bindmap := none, thread := { s.thread with closure := 0 } }

theorem returns_callFunc {n : Option Native} (unhandled : s.thread.exceptionHandlers = cnull)
    (ran : Returns (callFunc img fuel a opArg) s n s') :
    (∃ f, img.inter a = some f ∧ argsError ⟨f.argc, f.swallow⟩ opArg = none ∧ n = none ∧
      Returns (enterInterp img fuel f opArg.toNat) { s with opcode := 0, control := .opcode } ⟨⟩ s') ∨
    (∃ m, img.inter a = none ∧ argsError m.hdr opArg = none ∧ n = some m ∧ s' = s) := by
  unfold callFunc at ran
  simp only [returns_bind, returns_ofOption] at ran
  obtain ⟨hdr, _, ⟨header, rfl⟩, ran⟩ := ran
  cases args : argsError hdr opArg with
  | some msg =>
    simp only [args, returns_bind] at ran
    obtain ⟨_, _, raised, _⟩ := ran
    exact absurd raised (raise_unhandled unhandled)
  | none =>
    simp only [args] at ran
    unfold Image.hdr at header
    cases inter : img.inter a with
    | some f =>
      simp only [inter, Option.some.injEq] at header
      subst header
      simp only [inter, returns_bind, returns_modify, returns_pure] at ran
      obtain ⟨_, _, rfl, _, _, entered, rfl, rfl⟩ := ran
      exact .inl ⟨f, rfl, args, rfl, entered⟩
    | none =>
      simp only [inter, Option.map_eq_some_iff] at header
      obtain ⟨m, _, rfl⟩ := header
      simp only [inter, returns_map, returns_ofOption] at ran
      obtain ⟨m', ⟨here, rfl⟩, rfl⟩ := ran
      exact .inr ⟨m', rfl, by simp_all, rfl, rfl⟩

theorem dispatchFunc_dispatched {n : Option Native} (here : s.control = .dispatch fp opArg)
    (unhandled : s.thread.exceptionHandlers = cnull)
    (ran : Returns (dispatchFunc img fuel fp opArg) s n s') :
    Dispatched img fuel fp opArg s n s' := by
  unfold dispatchFunc at ran
  rw [returns_bind] at ran
  obtain ⟨t, u, targeted, ran⟩ := ran
  cases target_leads targeted with
  | again =>
    simp only [returns_bind, returns_modify, returns_pure] at ran
    obtain ⟨_, _, rfl, rfl, rfl⟩ := ran
    exact .again
  | error msg =>
    simp only [returns_bind] at ran
    obtain ⟨_, _, raised, _⟩ := ran
    exact absurd raised (raise_unhandled unhandled)
  | @closure a env f pointer inter =>
    rcases returns_callFunc (by exact unhandled) ran with ⟨g, found, args, rfl, entered⟩ | ⟨m, none, _⟩
    · exact .enters ⟨⟨fp, a, _, here, targeted, found, rfl⟩, args⟩ entered
    · rw [inter] at none
      cases none
  | func tag =>
    rcases returns_callFunc (by exact unhandled) ran with ⟨g, found, args, rfl, entered⟩ |
      ⟨m, _, args, rfl, rfl⟩
    · exact .enters ⟨⟨fp, _, _, here, targeted, found, rfl⟩, args⟩ entered
    · exact .native tag args

theorem argsError_none {hdr : ErrorHandlers.FuncHdr} (none : argsError hdr opArg = none) :
    if hdr.swallow then hdr.argc ≤ opArg else opArg = hdr.argc := by
  unfold argsError at none
  cases swallow : hdr.swallow with
  | true =>
    simp only [swallow, if_true] at none ⊢
    by_contra less
    rw [if_pos (Int.not_le.mp less)] at none
    cases none
  | false =>
    simp only [swallow, Bool.false_eq_true, if_false] at none ⊢
    by_contra other
    rw [if_pos other] at none
    cases none

theorem one_le_argc (n : Native) : 1 ≤ n.hdr.argc := by
  cases n <;> decide

theorem one_le_args {n : Native} (args : argsError n.hdr opArg = none) : 1 ≤ opArg := by
  have passed := argsError_none args
  have least := one_le_argc n
  split at passed <;> omega

theorem Calls.fits {f : IFunc} (calls : Calls img s opArg f s₁) : Fits f opArg.toNat := by
  have passed := argsError_none calls.args
  unfold Fits
  dsimp only at passed
  cases swallow : f.swallow with
  | true =>
    simp only [swallow, if_true] at passed ⊢
    omega
  | false =>
    simp only [swallow, Bool.false_eq_true, if_false] at passed ⊢
    omega

theorem Calls.before {f : IFunc} (calls : Calls img s opArg f s₁) : f ∈ img.functions ∧
    s₁.thread.opStackIdx = s.thread.opStackIdx ∧ s₁.thread.libCache = s.thread.libCache ∧
    s₁.thread.exceptionHandlers = s.thread.exceptionHandlers ∧ s₁.bindmap = none ∧
    s₁.control = .opcode ∧ s₁.opcode = 0 ∧ s₁.heap = s.heap := by
  obtain ⟨fp, a, t, _, targeted, inter, rfl⟩ := calls.found
  have member : f ∈ img.functions := by
    unfold Image.inter at inter
    split at inter
    · exact List.mem_of_getElem? inter
    · cases inter
  cases target_leads targeted with
  | closure pointer _ => exact ⟨member, rfl, rfl, rfl, rfl, rfl, rfl, rfl⟩
  | func tag => exact ⟨member, rfl, rfl, rfl, rfl, rfl, rfl, rfl⟩

theorem Calls.entered {f : IFunc} (calls : Calls img s opArg f s₁) (some : 1 ≤ f.argc)
    (aligned : FreshAligned s.heap) (ran : Returns (enterInterp img fuel f opArg.toNat) s₁ x s') :
    Entered img f opArg.toNat s₁ s' := by
  obtain ⟨_, _, _, _, fresh, _, _, heap⟩ := calls.before
  exact (enterInterp_entered some calls.fits fresh (by rwa [heap]) ran).1

end steps

/- The bound. -/

/-- What a function may need of the stack. -/
def stackNeed (f : IFunc) : Nat := 2 * frameSize f + f.bindmap.length + f.code.length

def largestNeed (functions : List IFunc) : Nat :=
  functions.foldr (fun f n => max (stackNeed f) n) 0

/-- Three builtins at most pass control on to one another before a function is entered. -/
def stackBound (functions : List IFunc) : Nat := largestNeed functions + 3

theorem stackNeed_le {functions : List IFunc} {f : IFunc} (member : f ∈ functions) :
    stackNeed f ≤ largestNeed functions := by
  induction functions with
  | nil => cases member
  | cons g functions ih =>
    rw [largestNeed, List.foldr_cons]
    rcases List.mem_cons.mp member with rfl | later
    · exact Nat.le_max_left _ _
    · exact (ih later).trans (Nat.le_max_right _ _)

/-- Where the dispatch of fp is in a chain of builtins that are each other's continuations. One that
    gets a continuation alone returns a constant, which is no function. -/
inductive Level (bound : Nat) (t : Thread) (fp : Nat) : Int → Prop where
  | call {opArg : Int} (depth : t.opStackIdx ≤ bound) : Level bound t fp opArg
  | first (depth : t.opStackIdx ≤ bound + 1) : Level bound t fp 1
  | second (some : 0 < t.opStackIdx) (depth : t.opStackIdx ≤ bound + 2)
      (top : t.opstack (t.opStackIdx - 1) % 8 ≠ ErrorHandlers.tagFunc) : Level bound t fp 1
  | third (depth : t.opStackIdx ≤ bound + 3) (tag : fp % 8 ≠ ErrorHandlers.tagFunc) :
      Level bound t fp 1
  | never {opArg : Int} (depth : t.opStackIdx ≤ bound + 3) (few : opArg ≤ 0) :
      Level bound t fp opArg

/-- No handler is set, and the stack is as deep as the place in the code allows. -/
structure Bounded (img : Image) (s : State) : Prop where
  libCache : s.thread.libCache = cnull
  exceptionHandlers : s.thread.exceptionHandlers = cnull
  aligned : FreshAligned s.heap
  control : match s.control with
    | .opcode => s.func ∈ img.functions ∧ s.thread.opStackIdx ≤
        2 * frameSize s.func + s.func.bindmap.length + min s.opcode s.func.code.length
    | .dispatch fp opArg => Level (largestNeed img.functions) s.thread fp opArg

section runs
variable {img : Image} {s s' : State} {bound fp fp' : Nat} {opArg : Int} {t : Thread}

theorem Level.depth (level : Level bound t fp opArg) : t.opStackIdx ≤ bound + 3 := by
  cases level <;> omega

theorem Bounded.depth (bounded : Bounded img s) :
    s.thread.opStackIdx ≤ stackBound img.functions := by
  have control := bounded.control
  cases here : s.control with
  | opcode =>
    simp only [here] at control
    have need := stackNeed_le control.1
    unfold stackNeed at need
    unfold stackBound
    omega
  | dispatch fp opArg =>
    simp only [here] at control
    exact control.depth

theorem updated_cnull {w : Nat} (updated : Updated cnull w) : w = cnull := by
  rcases updated with same | ⟨never, _⟩
  · exact same
  · cases never

theorem Level.again (level : Level bound t fp opArg) : Level bound t fp' (opArg - 1) := by
  have depth := level.depth
  cases level with
  | call depth => exact .call depth
  | never _ few => exact .never depth (by omega)
  | _ => exact .never depth (by omega)

theorem successors_lt {instr : Instr} {i j : Nat} (member : j ∈ successors instr i) : i < j := by
  unfold successors at member
  split at member <;> simp at member <;> omega

theorem pushes_le (instr : Instr) : pushes instr ≤ 1 := by
  unfold pushes
  split <;> omega

theorem Bounded.instruction (bounded : Bounded img s) (here : s.control = .opcode)
    (ran : Returns (do execute img (← fetch)) s ⟨⟩ s') : Bounded img s' := by
  obtain ⟨lib, handlers, aligned, control⟩ := bounded
  simp only [here] at control
  unfold fetch at ran
  simp only [returns_bind, returns_get, returns_ofOption, jump, returns_modify, returns_pure] at ran
  obtain ⟨_, u, ⟨_, _, ⟨rfl, rfl⟩, instr, _, ⟨code, rfl⟩, _, _, rfl, rfl, rfl⟩, ran⟩ := ran
  obtain ⟨lib', handlers', func, aligned', control'⟩ := execute_effect (by exact handlers)
    (Nat.succ_pos s.opcode) ran
  have inside : s.opcode < s.func.code.length := (List.getElem?_eq_some_iff.mp code).1
  have need := stackNeed_le control.1
  unfold stackNeed at need
  constructor
  · rw [lib] at lib'
    exact updated_cnull lib'
  · rw [handlers] at handlers'
    exact updated_cnull handlers'
  · exact aligned' aligned
  · rcases control' with ⟨_, popped, fp, there⟩ | ⟨there, next, depth⟩
    · simp only [there]
      apply Level.call
      dsimp only at popped
      omega
    · simp only [there, here, func]
      refine ⟨control.1, ?_⟩
      have later := successors_lt next
      have one := pushes_le instr
      dsimp only at depth later
      omega

theorem Bounded.called {f : IFunc} {s₁ : State} {fuel : Nat} (bounded : Bounded img s)
    (argc : ∀ f ∈ img.functions, 1 ≤ f.argc) (calls : Calls img s opArg f s₁)
    (ran : Returns (enterInterp img fuel f opArg.toNat) s₁ ⟨⟩ s') : Bounded img s' := by
  obtain ⟨member, _, lib, handlers, fresh, there, zero, heap⟩ := calls.before
  obtain ⟨entered, aligned, lib', handlers', opcode, control⟩ :=
    enterInterp_entered (argc f member) calls.fits fresh (by rw [heap]; exact bounded.aligned) ran
  constructor
  · rw [lib, bounded.libCache] at lib'
    exact updated_cnull lib'
  · rw [handlers, bounded.exceptionHandlers] at handlers'
    exact updated_cnull handlers'
  · exact aligned
  · rw [control, there]
    simp only [entered.func]
    exact ⟨member, entered.opStackIdx.trans (Nat.le_add_right _ _)⟩

theorem heapPtr_tag {w : Nat} (pointer : isHeapPtr w = true) : w % 8 ≠ ErrorHandlers.tagFunc := by
  rw [isHeapPtr, beq_iff_eq] at pointer
  rw [pointer]
  decide

theorem updated_tag {w w' : Nat} (updated : Updated w w') (tag : w % 8 ≠ ErrorHandlers.tagFunc) :
    w' % 8 ≠ ErrorHandlers.tagFunc := by
  rcases updated with rfl | ⟨_, pointer⟩
  · exact tag
  · exact heapPtr_tag pointer

theorem constant_tag {n : Native} {obj : Nat} (lib : s.thread.libCache = cnull)
    (handlers : s.thread.exceptionHandlers = cnull) (constant : Constant s n obj) :
    obj % 8 ≠ ErrorHandlers.tagFunc := by
  unfold Constant at constant
  split at constant
  · rw [constant]
    decide
  · rw [constant]
    decide
  · rw [constant]
    decide
  · rw [constant, handlers]
    decide
  · rw [constant, lib]
    decide
  · exact heapPtr_tag constant
  · exact constant.elim

theorem Bounded.returned {n : Native} {s₁ s₂ : State} (bounded : Bounded img s)
    (here : s.control = .dispatch fp opArg) (tag : fp % 8 = ErrorHandlers.tagFunc)
    (args : argsError n.hdr opArg = none)
    (before : s₁ = { s with bindmap := none, thread := { s.thread with closure := 0 } })
    (returned : Returned img n opArg s₁ s₂) : Bounded img { s₂ with
      control := .dispatch (s₂.thread.opstack (s₁.thread.opStackIdx - opArg.toNat)) 1 } := by
  obtain ⟨lib, handlers, aligned, control⟩ := bounded
  simp only [here] at control
  obtain ⟨u, obj, kept, constant, pushed⟩ := returned
  subst before
  have lib' := kept.libCache
  have handlers' := kept.exceptionHandlers
  rw [lib] at lib'
  rw [handlers] at handlers'
  have libNull := updated_cnull lib'
  have handlersNull := updated_cnull handlers'
  have idx : u.thread.opStackIdx = s.thread.opStackIdx := kept.opStackIdx
  have positive := one_le_args args
  rw [returns_stackPush img pushed]
  constructor
  · exact libNull
  · exact handlersNull
  · exact kept.aligned aligned
  · dsimp only
    cases control with
    | call depth =>
      apply Level.first
      dsimp only
      omega
    | first depth =>
      apply Level.second
      · exact Nat.succ_pos _
      · dsimp only
        omega
      · dsimp only
        rw [Nat.add_sub_cancel, Function.update_self]
        exact constant_tag libNull handlersNull (constant rfl)
    | second some depth top =>
      apply Level.third
      · dsimp only
        omega
      · rw [idx, show Int.toNat 1 = 1 from rfl, Function.update_of_ne (by omega)]
        exact updated_tag (kept.opstack _ (Nat.sub_lt some Nat.one_pos)) top
    | third depth other => exact absurd tag other
    | never depth few => omega

theorem Bounded.step (bounded : Bounded img s) (argc : ∀ f ∈ img.functions, 1 ≤ f.argc)
    (step : Step img s s') : Bounded img s' := by
  have handlers := bounded.exceptionHandlers
  cases step with
  | instruction here ran => exact bounded.instruction here ran
  | dispatch here ran =>
    have control := bounded.control
    simp only [here] at control
    cases dispatchFunc_dispatched here handlers ran with
    | again => exact ⟨bounded.libCache, handlers, bounded.aligned, control.again⟩
    | enters calls entered => exact bounded.called argc calls entered
  | returns here ran just returned =>
    cases dispatchFunc_dispatched here handlers ran with
    | native tag args => exact bounded.returned here tag args rfl returned
  | fails here ran kept raised =>
    cases dispatchFunc_dispatched here handlers ran with
    | native tag args =>
      have null := kept.exceptionHandlers
      dsimp only at null
      rw [handlers] at null
      exact absurd raised (raise_unhandled (updated_cnull null))

/-- Every instruction finds its operands. -/
def StackSafe (functions : List IFunc) : Prop := ∀ f ∈ functions, ∀ i d instr,
  Reaches f.code i d → f.code[i]? = some instr → pops instr ≤ d

/-- The depth of the operands is the one of the place in the code. -/
def Aligned (s : State) : Prop :=
  match s.control with
  | .opcode => ∃ base d, Reaches s.func.code s.opcode d ∧ s.thread.opStackIdx = base + d
  | .dispatch _ opArg => opArg ≤ s.thread.opStackIdx

theorem Aligned.instruction (aligned : Aligned s) (bounded : Bounded img s)
    (safe : StackSafe img.functions) (here : s.control = .opcode)
    (ran : Returns (do execute img (← fetch)) s ⟨⟩ s') : Aligned s' := by
  have control := bounded.control
  simp only [here] at control
  unfold Aligned at aligned
  simp only [here] at aligned
  obtain ⟨base, d, reaches, depth⟩ := aligned
  unfold fetch at ran
  simp only [returns_bind, returns_get, returns_ofOption, jump, returns_modify, returns_pure] at ran
  obtain ⟨_, u, ⟨_, _, ⟨rfl, rfl⟩, instr, _, ⟨code, rfl⟩, _, _, rfl, rfl, rfl⟩, ran⟩ := ran
  obtain ⟨_, _, func, _, control'⟩ := execute_effect (by exact bounded.exceptionHandlers)
    (Nat.succ_pos s.opcode) ran
  have enough := safe s.func control.1 _ _ _ reaches code
  unfold Aligned
  rcases control' with ⟨call, popped, fp, there⟩ | ⟨there, next, moved⟩
  · simp only [there]
    dsimp only at popped
    have operands : pops instr = instr.arg + 1 := by simp only [pops, call]
    omega
  · simp only [there, here, func]
    dsimp only at next moved
    refine ⟨base, d - pops instr + pushes instr, ?_, by omega⟩
    exact reaches.tail ⟨instr, code, next, rfl⟩

theorem Aligned.step (aligned : Aligned s) (bounded : Bounded img s)
    (safe : StackSafe img.functions) (argc : ∀ f ∈ img.functions, 1 ≤ f.argc)
    (step : Step img s s') : Aligned s' := by
  have handlers := bounded.exceptionHandlers
  cases step with
  | instruction here ran => exact aligned.instruction bounded safe here ran
  | dispatch here ran =>
    unfold Aligned at aligned
    simp only [here] at aligned
    cases dispatchFunc_dispatched here handlers ran with
    | again =>
      unfold Aligned
      dsimp only
      omega
    | enters calls ran =>
      obtain ⟨member, _, _, _, fresh, there, zero, heap⟩ := calls.before
      obtain ⟨entered, _, _, _, opcode, control⟩ := enterInterp_entered (argc _ member) calls.fits
        fresh (by rw [heap]; exact bounded.aligned) ran
      unfold Aligned
      rw [control, there]
      dsimp only
      rw [opcode, zero]
      exact ⟨_, 0, .refl, rfl⟩
  | returns here ran just returned =>
    obtain ⟨u, obj, _, _, pushed⟩ := returned
    rw [returns_stackPush img pushed]
    unfold Aligned
    dsimp only
    omega
  | fails here ran kept raised =>
    cases dispatchFunc_dispatched here handlers ran with
    | native tag args =>
      have null := kept.exceptionHandlers
      dsimp only at null
      rw [handlers] at null
      exact absurd raised (raise_unhandled (updated_cnull null))

end runs

end LGears.StackBound
