import LGears.CpsConversion
import LGears.VmPrimitives

/- A program that has been compiled runs on the machine as it runs by its meaning. -/
namespace LGears.VmProgram
open PrimitivesInfo Opcode Compiler CodeTables CodeShape CodeEmitted Values StateExcept VmValues
open VmHeap VmTests VmObjects VmMoves VmCode VmEval VmBinding VmEntry VmCalls VmForms VmRuns
open VmPrimitives Renaming CompiledMachine Machine Cps CpsConversion CpsCorrect CoreProgram
open CpsMachine hiding step
open Gc hiding State Slot copied Holds

/-- The process has loaded the module. -/
structure Process (img : Vm.Image) (st : Statics) (ilr : Ilr) : Prop where
  functions : img.functions = ilr.code
  entryPoint : img.entryPoint = ilr.entryPoint
  consts : ∀ (k : Nat) c, ilr.consts[k]? = some c →
    ∃ w, img.consts[k]? = some w ∧ ConstIs img st c w
  small : ∀ f ∈ ilr.code, blockSize (24 + 8 * f.size) ≤ FRESH_SIZE
  resolved : Resolved img st
  exit : st.builtin "__exit" = img.vmExit

/-- Where the memory of the heap is. -/
structure Memory (memory : Nat) : Prop where
  aligned : memory % 8 = 0
  positive : 0 < memory
  bounded : memory + FRESH_SIZE < 2 ^ 64

section start
variable {img : Vm.Image} {st : Statics} {N : Natives img} {W : World} {ilr : Ilr}
  {memory oldArea : Nat} {stack : Nat → Nat} {root : Node}

/-- The tables of a program that has been compiled. -/
def tables (ilr : Ilr) (root : Node) : Tables := ⟨ilr.consts, lambdasOf [] root⟩

theorem installed_process (process : Process img st ilr) (proper : properOps root = true)
    (compiled : startCompile root = .ok ilr) : Installed img st (tables ilr root) := by
  have funcs := (startCompile_functions proper compiled).1
  have snugs := startCompile_snug proper compiled
  refine ⟨process.consts, ?_, process.resolved⟩
  intro k l lambda
  have here : (lambdasOf [] root)[k]? = some l := lambda
  have inside := (List.getElem?_eq_some_iff.mp here).1
  have length := funcs.length_eq
  have below : k < ilr.code.length := by
    rw [← length]
    exact inside
  have same : l = (lambdasOf [] root)[k] := by
    rw [List.getElem?_eq_getElem inside, Option.some.injEq] at here
    exact here.symm
  subst same
  refine ⟨ilr.code[k], ?_, ?_, ?_, ?_⟩
  · rw [process.functions, List.getElem?_eq_getElem below]
  · exact (List.forall₂_iff_get.mp funcs).2 k inside below
  · exact (List.forall₂_iff_get.mp snugs).2 k inside below
  · have small := process.small _ (List.getElem_mem below)
    simp only [blockSize, alignUp, BHDR_SIZE, FRESH_SIZE] at small
    omega

theorem entry_function (process : Process img st ilr) {args : Formals} {body : List Node}
    (proper : properOps (.lambda args body) = true)
    (compiled : startCompile (.lambda args body) = .ok ilr) :
    ∃ f, img.functions[img.entryPoint]? = some f ∧ f ∈ ilr.code ∧
      FuncOf (tables ilr (.lambda args body)) ⟨[], args, body⟩ f ∧ Snug ⟨[], args, body⟩ f := by
  obtain ⟨funcs, entry⟩ := startCompile_functions proper compiled
  have snugs := startCompile_snug proper compiled
  have length := funcs.length_eq
  rw [lambdasOf, List.length_append, List.length_singleton] at length
  let k := (lambdasAll [frameOf args body] body).length
  have below : k < ilr.code.length := by omega
  have inside : k < (lambdasOf [] (.lambda args body)).length := by
    rw [lambdasOf, List.length_append, List.length_singleton]
    exact Nat.lt_succ_self _
  have last : (lambdasOf [] (.lambda args body))[k] = ⟨[], args, body⟩ := by
    simp only [lambdasOf, k]
    rw [List.getElem_append_right (Nat.le_refl _)]
    simp
  refine ⟨ilr.code[k], ?_, List.getElem_mem below, ?_, ?_⟩
  · rw [process.functions, process.entryPoint, entry,
      show ilr.code.length - 1 = k by omega, List.getElem?_eq_getElem below]
  · have func := (List.forall₂_iff_get.mp funcs).2 k inside below
    simp only [List.get_eq_getElem, last] at func
    exact func
  · have snug := (List.forall₂_iff_get.mp snugs).2 k inside below
    simp only [List.get_eq_getElem, last] at snug
    exact snug

theorem sound_init (place : Memory memory) : Sound (heapInit memory oldArea) := by
  have aligned := place.aligned
  have positive := place.positive
  have bounded := place.bounded
  constructor
  · exact aligned
  · exact positive
  · intro c b here
    cases here
  · exact bounded

/-- Nothing has a place yet. -/
def noLink : Link := ⟨fun _ => none, fun _ => none, fun _ => none⟩

theorem represents_init {T : Tables} (place : Memory memory) :
    Represents img st T noLink State.empty (heapInit memory oldArea) := by
  refine ⟨sound_init place, ?_, ?_, ?_, ?_, ?_, ?_⟩
  · intro l mem here
    cases here
  · intro l mem here
    cases here
  · intro l E i here
    cases here
  all_goals
    intro l l' p here
    cases here

/-- The state in which the machine starts. -/
def started (img : Vm.Image) (stack : Nat → Nat) (memory oldArea : Nat) (f : IFunc) : Vm.State where
  thread := {
    env := nextMem (heapInit memory oldArea)
    opstack := stack
    opStackIdx := 0
    closure := 0
    libCache := Vm.cnull
    exceptionHandlers := Vm.cnull
    localRoots := []
    heapEnv := true
    objects := .env (nextMem (heapInit memory oldArea) + 24) }
  heap := writeCell (envBlock (heapInit memory oldArea) 0 f.size f.depth)
    (nextMem (heapInit memory oldArea)) 0 (Vm.makeFunc img.vmExit)
  bindmap := none
  func := f
  opcode := 0
  control := .opcode

theorem start_eq (place : Memory memory) {f : IFunc}
    (is : img.functions[img.entryPoint]? = some f) (some : 0 < f.size)
    (room : blockSize (24 + 8 * f.size) ≤ FRESH_SIZE) :
    Vm.start img stack memory oldArea = .ok (started img stack memory oldArea f) := by
  let h := heapInit memory oldArea
  let thread : Thread := ⟨0, stack, 0, 0, Vm.cnull, Vm.cnull, [], false, .stack 0⟩
  let t₀ : Vm.State := ⟨thread, h, none, f, 0, .opcode⟩
  let t₁ : Vm.State := { t₀ with heap := envBlock h 0 f.size f.depth }
  let t₂ : Vm.State := { t₁ with thread := { thread with
      env := nextMem h, objects := .env (nextMem h + 24), heapEnv := true } }
  have made : Returns (Vm.envNew (fun _ => 0) f.size f.depth) t₀ (nextMem h) t₁ :=
    returns_envNew (t := t₀) (sound_init place) room
  have set : Returns (Vm.setThread fun t =>
      { t with env := nextMem h, objects := .env (nextMem h + 24), heapEnv := true }) t₁ ⟨⟩ t₂ :=
    Vm.returns_setThread.mpr rfl
  have real : Vm.envObject t₂.heap (nextMem h + 24) 0 = .some 0 := by
    have block : t₂.heap.cells (nextMem h - BHDR_SIZE) = .some ⟨.env, false, 0, false,
        alignUp (24 + 8 * f.size), Vm.envWords 0 f.size f.depth (nextMem h + 24)⟩ := place_new
    rw [Vm.envObject, Vm.objectsHdr, Nat.add_sub_cancel, block]
    refine if_pos ?_
    simp only [alignUp]
    omega
  have wrote : Returns (Vm.setObject 0 (Vm.makeFunc img.vmExit)) t₂ ⟨⟩
      (started img stack memory oldArea f) := by
    unfold Vm.setObject
    rw [returns_after (Vm.returns_get.mpr ⟨rfl, rfl⟩)]
    exact returns_setEnvObject real
  have ran : Returns (do
      let mem ← Vm.envNew (fun _ => 0) f.size f.depth
      Vm.setThread fun t => { t with env := mem, objects := .env (mem + 24), heapEnv := true }
      Vm.setObject 0 (Vm.makeFunc img.vmExit)) t₀ ⟨⟩ (started img stack memory oldArea f) := by
    rw [returns_after made, returns_after set]
    exact wrote
  rw [Vm.start, is]
  dsimp only
  rw [Returns] at ran
  exact congrArg (Except.map Prod.snd) ran

/-- A thread that has the halting continuation on its stack. -/
def before (img : Vm.Image) (memory oldArea : Nat) (f : IFunc) : Vm.State where
  thread := ⟨0, fun _ => Vm.makeFunc img.vmExit, 1, 0, Vm.cnull, Vm.cnull, [], true, .stack 0⟩
  heap := heapInit memory oldArea
  bindmap := none
  func := f
  opcode := 0
  control := .opcode

theorem started_heap (f : IFunc) :
    (started img stack memory oldArea f).heap = (inEnv (before img memory oldArea f) f 1).heap := by
  have words : Function.update (Vm.envWords 0 f.size f.depth (nextMem (heapInit memory oldArea) + 24))
      3 (Vm.makeFunc img.vmExit) = Vm.copied
        (Vm.envWords 0 f.size f.depth (nextMem (heapInit memory oldArea) + 24)) 3
        (fun _ => Vm.makeFunc img.vmExit) 0 1 := by
    funext i
    unfold Vm.copied Function.update
    by_cases here : i = 3
    · simp [here]
    · rw [dif_neg here, if_neg (by omega)]
  have block : (envBlock (heapInit memory oldArea) 0 f.size f.depth).cells
      (nextMem (heapInit memory oldArea) - BHDR_SIZE) = some ⟨.env, false, 0, false,
        alignUp (24 + 8 * f.size), Vm.envWords 0 f.size f.depth
          (nextMem (heapInit memory oldArea) + 24)⟩ := place_new
  simp only [started, writeCell, inEnv, before, Nat.sub_self]
  rw [block, ← words]
  simp [envBlock, placeBlock, nextMem, Block.setWord]

theorem sees_nothing {L : Link} {h : Heap} {env : Nat} {ρ : Env} {names : List Symbol} :
    Sees L h [] env ρ names := ⟨fun _ _ _ _ enclosing => enclosing.elim⟩

theorem within_nothing : Within [] Env.empty := by
  constructor
  · exact fun _ _ => rfl
  · intro frame member
    cases member

theorem starts (process : Process img st ilr) (place : Memory memory) (stack : Nat → Nat)
    (oldArea : Nat) {k : Symbol}
    {body : List Node} (proper : properOps (.lambda ⟨[k], none⟩ body) = true)
    (tamed : tame (.lambda ⟨[k], none⟩ body) = true)
    (compiled : startCompile (.lambda ⟨[k], none⟩ body) = .ok ilr) :
    ∃ t₀, Vm.start img stack memory oldArea = .ok t₀ ∧
      Matches img st (tables ilr (.lambda ⟨[k], none⟩ body))
        (initial (.lambda ⟨[k], none⟩ body) (.atom .done)) t₀ := by
  obtain ⟨f, is, member, func, snug⟩ := entry_function process proper compiled
  have room := process.small f member
  have small : f.size < 2 ^ 32 := by
    simp only [blockSize, alignUp, BHDR_SIZE, FRESH_SIZE] at room
    omega
  have size : f.size = (frameOf ⟨[k], none⟩ body).length := func.size
  have some : 0 < f.size := by
    rw [size]
    exact Nat.succ_pos _
  let T := tables ilr (.lambda ⟨[k], none⟩ body)
  let ρ₁ := Env.empty.bind k 0
  let s₁ := State.empty.alloc (.cell (.some (.atom .done)))
  have bound : bindArgs ⟨[k], none⟩ [.atom .done] Env.empty State.empty = .some (ρ₁, s₁) := rfl
  let t := before img memory oldArea f
  have rel : Represents img st T noLink State.empty t.heap := represents_init place
  have words : WordsAre img st noLink [.atom .done] t.thread.opstack
      (t.thread.opStackIdx - [Value.atom .done].length) := by
    intro i v given
    cases i with
    | zero =>
      cases given
      exact .done
    | succ i => simp at given
  obtain ⟨cells, arguments⟩ := arguments_fixed rel words (Nat.le_refl 1) rfl bound
  obtain ⟨places, L₁, _, rel₁, words₁, opened, _⟩ :=
    opened_arguments arguments rel sees_nothing within_nothing tamed
  have stored := stored_env opened rel₁ words₁ size small func.depth room true
  obtain ⟨L₂, _, rel₂, vars⟩ := stored.link
  have heap : (started img stack memory oldArea f).heap = (inEnv t f 1).heap := started_heap f
  refine ⟨started img stack memory oldArea f, start_eq place is some room, ?_⟩
  rw [initial, bound]
  apply matches_start
  refine ⟨⟨[], ⟨[k], none⟩, body⟩, f, 0, L₂, 0, snug, ⟨?_, ?_, rfl, rfl⟩,
    forms_body func snug tamed⟩
  · rw [heap]
    exact rel₂
  · have extends' : Extends (inEnv t f 1).heap (started img stack memory oldArea f).heap := by
      rw [heap]
      exact .refl _
    have low : (inEnv t f 1).thread.opStackIdx = 0 := rfl
    refine ⟨vars.later (.refl L₂) (fun _ _ => id) extends' rfl rfl ?_ (Nat.le_refl 0), rfl,
      fun _ => ⟨_, rfl⟩, ?_, ?_, Nat.le_refl 0⟩
    · intro i below
      exact absurd below (Nat.not_lt_zero i)
    · intro base bindmap objects
      cases objects
    · intro b up idx depth _ entry
      obtain ⟨x, _, _, i, enclosing⟩ := snug.bindmap depth (List.mem_of_getElem? entry)
      exact enclosing.elim

theorem goes_program {run : Config → Next Config Final} (process : Process img st ilr)
    (agrees : Agrees img st W N) (place : Memory memory) (stack : Nat → Nat) (oldArea : Nat) {k : Symbol} {body : List Node}
    (proper : properOps (.lambda ⟨[k], none⟩ body) = true)
    (tamed : tame (.lambda ⟨[k], none⟩ body) = true)
    (compiled : startCompile (.lambda ⟨[k], none⟩ body) = .ok ilr)
    (follows : ∀ c d u, Matches img st (tables ilr (.lambda ⟨[k], none⟩ body)) c u →
      run c = .next d → step W c = .next d) (ends : ∀ c r, run c = .halt r → step W c = .halt r)
    (compares : ∀ c, Reaches run (initial (.lambda ⟨[k], none⟩ body) (.atom .done)) c →
      comparesConfig W c = true) {r : Final}
    (halts : Halts run (initial (.lambda ⟨[k], none⟩ body) (.atom .done)) r) :
    ∃ t₀, Vm.start img stack memory oldArea = .ok t₀ ∧
      Goes img N t₀ (Concludes img st (tables ilr (.lambda ⟨[k], none⟩ body)) r) := by
  obtain ⟨t₀, start, same⟩ := starts process place stack oldArea proper tamed compiled
  have installed := installed_process process proper compiled
  obtain ⟨c, reaches, ending⟩ := halts
  exact ⟨t₀, start, (goes_run installed agrees follows reaches compares same).mono
    fun t same => goes_halt installed process.exit same (ends c r ending)⟩

/- The machine ends with the value of the program, unless it runs out of room. -/
theorem runs_compiled (process : Process img st ilr) (agrees : OthersAgree img st W N)
    (place : Memory memory) {k : Symbol} {body : List Node}
    (proper : properOps (.lambda ⟨[k], none⟩ body) = true)
    (tamed : tame (.lambda ⟨[k], none⟩ body) = true)
    (compiled : startCompile (.lambda ⟨[k], none⟩ body) = .ok ilr)
    (compares : ∀ c,
      Reaches (step (primitiveWorld W)) (initial (.lambda ⟨[k], none⟩ body) (.atom .done)) c →
        comparesConfig (primitiveWorld W) c = true) {r : Final}
    (halts : Halts (step (primitiveWorld W)) (initial (.lambda ⟨[k], none⟩ body) (.atom .done)) r) :
    ∃ t₀, Vm.start img stack memory oldArea = .ok t₀ ∧
      Leads.Must (Moves img (natives img N)) (Exhausted img (natives img N))
        (Concludes img st (tables ilr (.lambda ⟨[k], none⟩ body)) r) t₀ := by
  obtain ⟨t₀, start, goes⟩ := goes_program process (agrees_primitives agrees) place stack oldArea
    proper tamed compiled (fun _ _ _ _ => id) (fun _ _ => id) compares halts
  exact ⟨t₀, start, goes.must fun _ _ _ => moves_unique⟩

end start

/- A process whose builtins are those of primitives.c. -/

/-- Builtins at addresses of their own. -/
def statics : Statics := ⟨fun _ => none, fun x => 4096 + 8 * (globals.map Prod.fst).idxOf x⟩

def constWord : Const → Nat
  | .static x | .builtin x => Vm.makeFunc (statics.builtin x)
  | .datum (.num i) => numWord (wrap i)
  | .datum _ => 0

theorem no_blocks (_ : Nat) (b : Vm.ConstBlock) (here : (none : Option Vm.ConstBlock) = some b) :
    isHeapPtr (b.words 0) = false ∧ isHeapPtr (b.words 1) = false := by
  cases here

def image (ilr : Ilr) : Vm.Image where
  functions := ilr.code
  entryPoint := ilr.entryPoint
  consts := ilr.consts.map constWord
  base := 8192
  natives a := (globals[(a - 4096) / 8]?).map Prod.snd
  area _ := none
  apart := no_blocks
  vmExit := statics.builtin "__exit"
  opStackSize := 1024

/-- There are no other builtins. -/
def noNatives (img : Vm.Image) : Natives img where
  run _ _ _ := none
  short _ _ _ := False
  just _ _ _ _ ran := by cases ran
  returned _ _ _ _ ran := by cases ran

def ownNatives (ilr : Ilr) : Natives (image ilr) := natives (image ilr) (noNatives (image ilr))

def ownWorld : World := primitiveWorld basicWorld

def constOk : Const → Bool
  | .static x | .builtin x => (globals.map Prod.fst).contains x
  | .datum (.num _) => true
  | .datum _ => false

/-- Whether the process can load the module. -/
def loads (ilr : Ilr) : Bool :=
  ilr.consts.all constOk && ilr.code.all fun f => blockSize (24 + 8 * f.size) ≤ FRESH_SIZE

theorem resolved_image (ilr : Ilr) : Resolved (image ilr) statics := by
  have places : ∀ p ∈ globals, (globals.map Prod.fst).idxOf p.1 < 34 ∧
      globals[(globals.map Prod.fst).idxOf p.1]? = some p := by decide
  have few : ∀ x n, (x, n) ∈ globals → (globals.map Prod.fst).idxOf x < 34 ∧
      globals[(globals.map Prod.fst).idxOf x]? = some (x, n) := fun x n => places (x, n)
  have exit : statics.builtin "__exit" = 4104 := by decide
  constructor
  · intro v w b c s here
    cases here.block
  · intro x n known
    simp only [statics]
    omega
  · intro x n known
    have := few x n known
    simp only [statics]
    omega
  · intro x m y n known known' same
    have first := (few x m known).2
    have second := (few y n known').2
    simp only [statics] at same
    rw [show (globals.map Prod.fst).idxOf x = (globals.map Prod.fst).idxOf y by omega, second,
      Option.some.injEq, Prod.mk.injEq] at first
    exact first.1.symm
  · intro x n known
    have place := (few x n known).2
    simp only [image, statics]
    rw [Nat.add_sub_cancel_left, Nat.mul_div_cancel_left _ (by decide), place]
    rfl
  · intro x n known
    have := (few x n known).1
    refine if_neg ?_
    simp only [image, statics]
    omega
  · simp only [image, exit]
    exact ⟨rfl, if_neg fun inside => absurd (inside.1 : 8192 ≤ 4104) (by decide)⟩
  · simp only [image, exit]
  · simp only [image, exit]
    decide
  · simp only [image]

theorem process_image {ilr : Ilr} (ok : loads ilr = true) : Process (image ilr) statics ilr := by
  rw [loads, Bool.and_eq_true, List.all_eq_true, List.all_eq_true] at ok
  refine ⟨rfl, rfl, ?_, ?_, resolved_image ilr, rfl⟩
  · intro k c given
    refine ⟨constWord c, by simp [image, given], ?_⟩
    have fits := ok.1 c (List.mem_of_getElem? given)
    cases c with
    | static x | builtin x =>
      rw [constOk, List.contains_iff_mem, List.mem_map] at fits
      obtain ⟨p, known, rfl⟩ := fits
      exact ⟨⟨p.2, known⟩, rfl⟩
    | datum d =>
      cases d with
      | num i => exact .num (small_wrap i)
      | _ => cases fits
  · intro f member
    simpa using ok.2 f member

theorem agrees_image (ilr : Ilr) : OthersAgree (image ilr) statics basicWorld
    (noNatives (image ilr)) := by
  have undefined : ∀ {x vs s}, isPrimitive x = false → callBuiltin basicWorld x vs s = none := by
    intro x vs s other
    have apart : x ≠ "void" ∧ x ≠ "display" ∧ x ≠ "list" := by
      refine ⟨?_, ?_, ?_⟩ <;>
        · rintro rfl
          exact absurd other (by decide)
    simp only [callBuiltin, basicWorld, basicCall, if_neg apart.1, if_neg apart.2.1,
      if_neg apart.2.2]
  constructor
  · intro x n vs s v s' _ other _ call
    rw [undefined other] at call
    cases call
  · intro T L x n vs s v s' t _ other _ call
    rw [undefined other] at call
    cases call

/-- (lambda (k) (extend n) (set! n 3)
      ((lambda (f)
          (f (lambda (v)
              (builtin-call (lambda (u)
                  (builtin-call (lambda (w) (builtin-call (lambda (z) (k w)) display u)) length u))
                $make-list v n))
            4 5))
        (lambda (c x . r) (set! n ($+ n x)) (if ($< n 9) (c n) (c r))))) -/
def counted : Node := .lambda ⟨["k"], none⟩ [.extend ["n"], .set "n" (.const (.num 3)),
  .app (.lambda ⟨["f"], none⟩ [.app (.sym "f") [
      .lambda ⟨["v"], none⟩ [.app (.sym "builtin-call") [
        .lambda ⟨["u"], none⟩ [.app (.sym "builtin-call") [
          .lambda ⟨["w"], none⟩ [.app (.sym "builtin-call") [
            .lambda ⟨["z"], none⟩ [.app (.sym "k") [.sym "w"]], .sym "display", .sym "u"]],
          .sym "length", .sym "u"]],
        .sym "$make-list", .sym "v", .sym "n"]],
      .const (.num 4), .const (.num 5)]])
    [.lambda ⟨["c", "x"], some "r"⟩ [.set "n" (.app (.sym "$+") [.sym "n", .sym "x"]),
      .ite (.app (.sym "$<") [.sym "n", .const (.num 9)]) (.app (.sym "c") [.sym "n"])
        (.app (.sym "c") [.sym "r"])]]]

theorem ok_of_any {ε α : Type} {e : Except ε α} {p : α → Bool} (ok : e.toOption.any p = true) :
    ∃ a, e = .ok a ∧ p a = true := by
  cases e with
  | error => cases ok
  | ok a => exact ⟨a, rfl, ok⟩

/-- Whether the program ends with v. -/
def endsWith (v : Value) : Final → Bool
  | .done u _ => u == v
  | .exit _ _ => false

theorem run_counted : ∃ s, checkedRun ownWorld (step ownWorld) 24 (initial counted (.atom .done)) =
    some (.done (.atom (.data (.num 7))) s) := by
  have ok : (checkedRun ownWorld (step ownWorld) 24 (initial counted (.atom .done))).any
      (endsWith (.atom (.data (.num 7)))) = true := by decide +kernel
  obtain ⟨r, run, ends⟩ := (Option.any_eq_true _ _).mp ok
  cases r with
  | done v s =>
    rw [endsWith, beq_iff_eq] at ends
    subst ends
    exact ⟨s, run⟩
  | exit => cases ends

theorem runs_compiled_counted : ∃ ilr s t₀, startCompile counted = .ok ilr ∧
    Vm.start (image ilr) (fun _ => 0) 4096 0 = .ok t₀ ∧
    Leads.Must (Moves (image ilr) (ownNatives ilr)) (Exhausted (image ilr) (ownNatives ilr))
      (Exits (image ilr) statics (tables ilr counted) (.atom (.data (.num 7))) s) t₀ := by
  have loaded : (startCompile counted).toOption.any loads = true := by decide +kernel
  obtain ⟨ilr, compiled, ok⟩ := ok_of_any loaded
  obtain ⟨s, run⟩ := run_counted
  obtain ⟨halts, compares⟩ := checkedRun_halts run
  have place : Memory 4096 := ⟨by decide, by decide, by decide⟩
  obtain ⟨t₀, start, must⟩ : ∃ t₀, Vm.start (image ilr) (fun _ => 0) 4096 0 = .ok t₀ ∧
      Leads.Must (Moves (image ilr) (ownNatives ilr))
        (Exhausted (image ilr) (ownNatives ilr))
        (Concludes (image ilr) statics (tables ilr counted) (.done (.atom (.data (.num 7))) s)) t₀ :=
    runs_compiled (process_image ok) (agrees_image ilr) place (by decide) (by decide) compiled
      compares halts
  exact ⟨ilr, s, t₀, compiled, start, must⟩

end LGears.VmProgram
