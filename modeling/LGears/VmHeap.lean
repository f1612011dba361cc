import LGears.VmValues
import LGears.VmCode

/- The heap of a thread that has not been collected yet, and the objects of a program in it. -/
namespace LGears.VmHeap
open PrimitivesInfo Compiler CodeTables CodeShape Values StateExcept VmValues VmCode
open Gc hiding State

/- Blocks. -/

/-- A block is put at the end of the fresh space. -/
def placeBlock (h : Heap) (type : BlockType) (size : Nat) (words : Nat → Nat) : Heap :=
  { h with
    fresh := h.fresh.append (alignUp size + BHDR_SIZE)
    cells := Function.update h.cells h.fresh.pos
      (some ⟨type, false, 0, false, alignUp size, words⟩) }

/-- The payload of the next block. -/
def nextMem (h : Heap) : Nat := h.fresh.pos + BHDR_SIZE

/-- The blocks lie below the free part of the fresh space. -/
structure Sound (h : Heap) : Prop where
  aligned : h.fresh.pos % 8 = 0
  positive : 0 < h.fresh.pos
  below : ∀ c b, h.cells c = some b → c + (BHDR_SIZE + b.size) ≤ h.fresh.pos
  bounded : h.fresh.pos + h.fresh.freeMem < 2 ^ 64

/-- The blocks of h are where they were; of their first words none has changed. -/
structure Extends (h h' : Heap) : Prop where
  blocks : ∀ c b, h.cells c = some b → ∃ b', h'.cells c = some b' ∧ b'.type = b.type ∧
    b'.size = b.size ∧ ∀ i < 3, b'.words i = b.words i

section blocks
variable {h h' : Heap} {t t' : Vm.State} {type : BlockType} {size : Nat} {words : Nat → Nat}

theorem Extends.refl (h : Heap) : Extends h h :=
  ⟨fun _ b here => ⟨b, here, rfl, rfl, fun _ _ => rfl⟩⟩

theorem Extends.trans {k : Heap} (first : Extends h h') (second : Extends h' k) : Extends h k := by
  constructor
  intro c b here
  obtain ⟨b', there, type, size, words⟩ := first.blocks c b here
  obtain ⟨b'', last, type', size', words'⟩ := second.blocks c b' there
  exact ⟨b'', last, type'.trans type, size'.trans size,
    fun i small => (words' i small).trans (words i small)⟩

theorem Sound.nothing (sound : Sound h) : h.cells h.fresh.pos = none := by
  cases found : h.cells h.fresh.pos with
  | none => rfl
  | some b =>
    have := sound.below _ b found
    rw [show BHDR_SIZE = 8 from rfl] at this
    omega

theorem Sound.place (sound : Sound h) (room : alignUp size + BHDR_SIZE ≤ h.fresh.freeMem) :
    Sound (placeBlock h type size words) where
  aligned := by
    have := sound.aligned
    simp only [placeBlock, Space.append, alignUp, BHDR_SIZE]
    omega
  positive := Nat.lt_of_lt_of_le sound.positive (Nat.le_add_right _ _)
  below c b here := by
    simp only [placeBlock, Space.append] at here ⊢
    by_cases same : c = h.fresh.pos
    · rw [same, Function.update_self, Option.some.injEq] at here
      rw [same, ← here]
      simp only [BHDR_SIZE]
      omega
    · rw [Function.update_of_ne same] at here
      have := sound.below c b here
      omega
  bounded := by
    have := sound.bounded
    simp only [placeBlock, Space.append]
    omega

theorem place_old {c : Nat} {b : Block} (sound : Sound h) (here : h.cells c = some b) :
    (placeBlock h type size words).cells c = some b := by
  have other : c ≠ h.fresh.pos := by
    intro same
    rw [same, sound.nothing] at here
    cases here
  exact (Function.update_of_ne other ..).trans here

@[simp] theorem place_new : (placeBlock h type size words).cells (nextMem h - BHDR_SIZE) =
    some ⟨type, false, 0, false, alignUp size, words⟩ := by
  simp [placeBlock, nextMem]

theorem put_eq_update (sound : Sound h) (b : Block) :
    h.cells.put h.fresh.pos b = Function.update h.cells h.fresh.pos (some b) := by
  funext c
  unfold Cells.put
  by_cases same : c = h.fresh.pos
  · rw [if_pos same, same, Function.update_self]
  · rw [if_neg same, Function.update_of_ne same]
    cases found : h.cells c with
    | none => rfl
    | some d =>
      have below := sound.below c d found
      rw [Option.filter_some, if_pos]
      simp only [overlap, decide_eq_true_eq, not_and]
      intro overlaps
      omega

theorem returns_alloc (sound : Sound t.heap) (room : alignUp size + BHDR_SIZE ≤ t.heap.fresh.freeMem) :
    Returns (Vm.alloc size type) t (nextMem t.heap)
      { t with heap := placeBlock t.heap type size fun _ => 0 } := by
  have enough : enoughFresh t.heap size = true := by
    rw [enoughFresh, decide_eq_true_eq]
    exact room
  have allocated : heapAlloc t.thread size type t.heap = .ok ((t.thread, nextMem t.heap),
      placeBlock t.heap type size fun _ => 0) := by
    change Returns _ _ _ _
    unfold heapAlloc
    rw [returns_bind]
    refine ⟨t.heap, t.heap, rfl, ?_⟩
    rw [if_pos enough, returns_bind]
    refine ⟨nextMem t.heap, _, ?_, rfl⟩
    rw [Returns, spaceAlloc, put_eq_update sound]
    rfl
  rw [Returns, Vm.alloc, allocated]

theorem place_write {f : Block → Block} {words' : Nat → Nat}
    (writes : f ⟨type, false, 0, false, alignUp size, words⟩ =
      ⟨type, false, 0, false, alignUp size, words'⟩) :
    Returns (Vm.modifyBlock (nextMem h) f) { t with heap := placeBlock h type size words } ⟨⟩
      { t with heap := placeBlock h type size words' } := by
  rw [Vm.returns_modifyBlock]
  congr 1
  rw [place_new, Option.map_some, writes]
  simp [placeBlock, nextMem]

end blocks

/- Environments. -/

/-- The environment that is found for a depth. -/
inductive Displays (h : Heap) : Nat → Nat → Nat → Prop where
  | here {env depth : Nat} {b : Block} (real : env ≠ 0) (at' : h.cells (env - BHDR_SIZE) = some b)
      (same : b.words 1 / 2 ^ 32 = depth) : Displays h env depth env
  | up {env depth found : Nat} {b : Block} (real : env ≠ 0)
      (at' : h.cells (env - BHDR_SIZE) = some b) (other : b.words 1 / 2 ^ 32 ≠ depth)
      (outer : b.words 0 ≠ 0) (rest : Displays h (b.words 0) depth found) :
      Displays h env depth found

section displays
variable {h h' : Heap} {env depth found : Nat}

theorem Displays.extend (displays : Displays h env depth found) (extends' : Extends h h') :
    Displays h' env depth found := by
  induction displays with
  | here real at' same =>
    obtain ⟨b, there, _, _, words⟩ := extends'.blocks _ _ at'
    exact .here real there ((words 1 (by decide)).symm ▸ same)
  | up real at' other outer rest ih =>
    obtain ⟨b, there, _, _, words⟩ := extends'.blocks _ _ at'
    apply Displays.up real there
    · rw [words 1 (by decide)]
      exact other
    · rw [words 0 (by decide)]
      exact outer
    · rw [words 0 (by decide)]
      exact ih

theorem Displays.unique {found' : Nat} (one : Displays h env depth found)
    (other : Displays h env depth found') : found = found' := by
  induction one with
  | here real at' same =>
    cases other with
    | here => rfl
    | up _ at'' differs =>
      rw [at'] at at''
      cases at''
      exact absurd same differs
  | up real at' differs outer rest ih =>
    cases other with
    | here _ at'' same =>
      rw [at'] at at''
      cases at''
      exact absurd same differs
    | up _ at'' _ _ rest' =>
      rw [at'] at at''
      cases at''
      exact ih rest'

theorem Displays.envDisplay (displays : Displays h env depth found) :
    ∃ n, ∀ fuel, n ≤ fuel → Vm.envDisplay h fuel env depth = .ok found := by
  induction displays with
  | @here env _ b real at' same =>
    refine ⟨1, fun fuel enough => ?_⟩
    obtain ⟨fuel, rfl⟩ : ∃ k, fuel = k + 1 := ⟨fuel - 1, by omega⟩
    rw [Vm.envDisplay, at']
    simp only [real, same, if_false, if_true]
  | @up env _ _ b real at' other outer rest ih =>
    obtain ⟨n, ih⟩ := ih
    refine ⟨n + 1, fun fuel enough => ?_⟩
    obtain ⟨fuel, rfl⟩ : ∃ k, fuel = k + 1 := ⟨fuel - 1, by omega⟩
    rw [Vm.envDisplay, at']
    simp only [real, other, outer, if_false]
    exact ih fuel (by omega)

end displays

/- Objects. -/

/-- There is a block of the type with the payload at mem. -/
structure Placed (h : Heap) (mem : Nat) (type : BlockType) (b : Block) : Prop where
  block : h.cells (mem - BHDR_SIZE) = some b
  type : b.type = type
  low : BHDR_SIZE ≤ mem
  aligned : mem % 8 = 0

/-- The variables are where code finds them that looks outside its own frame. -/
structure Sees (L : Link) (h : Heap) (scope : List (List Symbol)) (env : Nat) (ρ : Env)
    (names : List Symbol) : Prop where
  placed : ∀ x ∈ names, ∀ depth idx, Enclosing scope x depth idx →
    ∃ l E, ρ x = some l ∧ Displays h env depth E ∧ L.cell l = some (E, idx)

/-- A name that is in no frame is not bound, and no reserved name is in a frame. -/
structure Within (scope : List (List Symbol)) (ρ : Env) : Prop where
  absent : ∀ x, (∀ frame ∈ scope, x ∉ frame) → ρ x = none
  hidden : ∀ frame ∈ scope, ∀ x ∈ frame, x ∉ reserved

/-- Function k of the module is the code of the closure, whose variables are found from env. -/
structure CodeFor (T : Tables) (L : Link) (h : Heap) (k env : Nat) (args : Formals)
    (body : List Node) (ρ : Env) : Prop where
  found : ∃ scope, T.lambdas[k]? = some ⟨scope, args, body⟩ ∧
    Sees L h scope env ρ (free (.lambda args body)) ∧ Within scope ρ
  tame : tame (.lambda args body) = true

/-- The type of the blocks for the objects that builtins make. -/
def foreignType (kind : Symbol) : Option BlockType :=
  match kind with
  | "struct" => some .struct
  | "string" => some .string
  | "bytevector" => some .bytevector
  | _ => none

section objects
variable (img : Vm.Image) (st : Statics) (T : Tables) (L : Link) (s : State) (h : Heap)

/-- The block at mem is the object l. -/
inductive ObjIs (l mem : Nat) : Prop where
  | pair {a d : Value} {len : Option Nat} {b : Block} (object : s.get l = some (.pair a d len))
      (placed : Placed h mem .pair b) (car : ValueIs img st L a (b.words 0))
      (cdr : ValueIs img st L d (b.words 1)) (marks : Marks (b.words 2) len)
  | foreign {kind : Symbol} {type : BlockType} {b : Block}
      (object : s.get l = some (.foreign kind)) (foreign : foreignType kind = some type)
      (placed : Placed h mem type b)

/-- The block at mem is the closure l. -/
structure ProcIs (l mem : Nat) : Prop where
  closure : ∃ args body ρ k b, s.get l = some (.closure args body ρ) ∧ Placed h mem .closure b ∧
    b.words 1 = img.moduleFunc k ∧ CodeFor T L h k (b.words 0) args body ρ

/-- Object i of the environment E is the variable l. -/
structure CellIs (l E i : Nat) : Prop where
  var : ∃ v b, s.get l = some (.cell v) ∧ Placed h E .env b ∧ b.words 2 = E + 24 ∧
    8 * (3 + i) < b.size ∧ ∀ w ∈ v, ValueIs img st L w (b.words (3 + i))

/-- Two objects are not at one place. -/
def Apart {α : Type} (f : Nat → Option α) : Prop := ∀ l l' p, f l = some p → f l' = some p → l = l'

/-- The heap of the thread holds the objects of the program. -/
structure Represents : Prop where
  sound : Sound h
  obj : ∀ l mem, L.obj l = some mem → ObjIs img st L s h l mem
  proc : ∀ l mem, L.proc l = some mem → ProcIs img T L s h l mem
  cell : ∀ l E i, L.cell l = some (E, i) → CellIs img st L s h l E i
  obj_apart : Apart L.obj
  proc_apart : Apart L.proc
  cell_apart : Apart L.cell

end objects

section growth
variable {img : Vm.Image} {st : Statics} {T : Tables} {L L' : Link} {s s' : State} {h h' : Heap}

theorem Placed.extend {mem : Nat} {type : BlockType} {b : Block} (placed : Placed h mem type b)
    (extends' : Extends h h') : ∃ b', Placed h' mem type b' ∧ b'.size = b.size ∧
      ∀ i < 3, b'.words i = b.words i := by
  obtain ⟨b', there, type', size, words⟩ := extends'.blocks _ _ placed.block
  exact ⟨b', ⟨there, type'.trans placed.type, placed.low, placed.aligned⟩, size, words⟩

theorem Sees.extend {scope : List (List Symbol)} {env : Nat} {ρ : Env} {names : List Symbol}
    (seen : Sees L h scope env ρ names) (grows : L.Grows L') (extends' : Extends h h') :
    Sees L' h' scope env ρ names where
  placed x member depth idx enclosing := by
    obtain ⟨l, E, bound, displays, linked⟩ := seen.placed x member depth idx enclosing
    exact ⟨l, E, bound, displays.extend extends', grows.cell linked⟩

theorem CodeFor.extend {k env : Nat} {args : Formals} {body : List Node} {ρ : Env}
    (code : CodeFor T L h k env args body ρ) (grows : L.Grows L') (extends' : Extends h h') :
    CodeFor T L' h' k env args body ρ := by
  obtain ⟨scope, lambda, seen, within⟩ := code.found
  exact ⟨⟨scope, lambda, seen.extend grows extends', within⟩, code.tame⟩

/-- Every block of h is in h', as it is. -/
def Includes (h h' : Heap) : Prop := ∀ c b, h.cells c = some b → h'.cells c = some b

theorem Includes.extends (includes : Includes h h') : Extends h h' :=
  ⟨fun c b here => ⟨b, includes c b here, rfl, rfl, fun _ _ => rfl⟩⟩

theorem Placed.include {mem : Nat} {type : BlockType} {b : Block} (placed : Placed h mem type b)
    (includes : Includes h h') : Placed h' mem type b :=
  ⟨includes _ _ placed.block, placed.type, placed.low, placed.aligned⟩

/-- Every object of s is in s', as it is. -/
def Remains (s s' : State) : Prop := ∀ l o, s.get l = some o → s'.get l = some o

/-- What is not a variable remains as it is. -/
def Fixed (s s' : State) : Prop :=
  ∀ l o, s.get l = some o → (∀ v, o ≠ .cell v) → s'.get l = some o

theorem Remains.fixed (remains : Remains s s') : Fixed s s' := fun l o here _ => remains l o here

theorem ObjIs.grow {l mem : Nat} (is : ObjIs img st L s h l mem) (grows : L.Grows L')
    (fixed : Fixed s s') (extends' : Extends h h') : ObjIs img st L' s' h' l mem := by
  cases is with
  | pair object placed car cdr marks =>
    obtain ⟨b, placed, _, words⟩ := placed.extend extends'
    refine .pair (fixed _ _ object (by simp)) placed ?_ ?_ ?_
    · rw [words 0 (by decide)]
      exact car.grow grows
    · rw [words 1 (by decide)]
      exact cdr.grow grows
    · rw [words 2 (by decide)]
      exact marks
  | foreign object foreign placed =>
    obtain ⟨b, placed, _, _⟩ := placed.extend extends'
    exact .foreign (fixed _ _ object (by simp)) foreign placed

theorem ProcIs.grow {l mem : Nat} (is : ProcIs img T L s h l mem) (grows : L.Grows L')
    (fixed : Fixed s s') (extends' : Extends h h') : ProcIs img T L' s' h' l mem := by
  obtain ⟨args, body, ρ, k, b, closure, placed, func, code⟩ := is.closure
  obtain ⟨b', placed, _, words⟩ := placed.extend extends'
  refine ⟨args, body, ρ, k, b', fixed _ _ closure (by simp), placed, ?_, ?_⟩
  · rw [words 1 (by decide)]
    exact func
  · rw [words 0 (by decide)]
    exact code.extend grows extends'

theorem CellIs.grow {l E i : Nat} (is : CellIs img st L s h l E i) (grows : L.Grows L')
    (remains : Remains s s') (includes : Includes h h') : CellIs img st L' s' h' l E i := by
  obtain ⟨v, b, cell, placed, objects, room, value⟩ := is.var
  exact ⟨v, b, remains _ _ cell, placed.include includes, objects, room,
    fun w given => (value w given).grow grows⟩

theorem Represents.grow (rel : Represents img st T L s h) (grows : L.Grows L')
    (remains : Remains s s') (includes : Includes h h') (sound : Sound h')
    (obj : ∀ l mem, L'.obj l = some mem → L.obj l = some mem ∨ ObjIs img st L' s' h' l mem)
    (proc : ∀ l mem, L'.proc l = some mem → L.proc l = some mem ∨ ProcIs img T L' s' h' l mem)
    (cell : ∀ l E i, L'.cell l = some (E, i) →
      L.cell l = some (E, i) ∨ CellIs img st L' s' h' l E i)
    (obj_apart : Apart L'.obj) (proc_apart : Apart L'.proc) (cell_apart : Apart L'.cell) :
    Represents img st T L' s' h' where
  sound := sound
  obj l mem linked := (obj l mem linked).elim
    (fun old => (rel.obj l mem old).grow grows remains.fixed includes.extends) id
  proc l mem linked := (proc l mem linked).elim
    (fun old => (rel.proc l mem old).grow grows remains.fixed includes.extends) id
  cell l E i linked := (cell l E i linked).elim
    (fun old => (rel.cell l E i old).grow grows remains includes) id
  obj_apart := obj_apart
  proc_apart := proc_apart
  cell_apart := cell_apart

theorem Represents.more (rel : Represents img st T L s h) (remains : Remains s s')
    (includes : Includes h h') (sound : Sound h') : Represents img st T L s' h' :=
  rel.grow (.refl L) remains includes sound (fun _ _ => .inl) (fun _ _ => .inl) (fun _ _ _ => .inl)
    rel.obj_apart rel.proc_apart rel.cell_apart

theorem Apart.update {α : Type} {f : Nat → Option α} (apart : Apart f) {l : Nat} {p : α}
    (fresh : ∀ l', f l' ≠ some p) : Apart (Function.update f l (some p)) := by
  intro m n q first second
  by_cases here : m = l
  · subst here
    rw [Function.update_self] at first
    cases first
    by_contra other
    rw [Function.update_of_ne (Ne.symm other)] at second
    exact fresh n second
  · rw [Function.update_of_ne here] at first
    by_cases there : n = l
    · subst there
      rw [Function.update_self] at second
      cases second
      exact absurd first (fresh m)
    · rw [Function.update_of_ne there] at second
      exact apart m n q first second

theorem update_grows {α : Type} {f : Nat → Option α} {l m : Nat} {p q : α} (fresh : f l = none)
    (given : f m = some q) : Function.update f l (some p) m = some q := by
  have other : m ≠ l := by
    intro same
    rw [same, fresh] at given
    cases given
  rw [Function.update_of_ne other, given]

theorem update_some {α : Type} {f : Nat → Option α} {l m : Nat} {p q : α}
    (given : Function.update f l (some p) m = some q) : f m = some q ∨ m = l ∧ q = p := by
  by_cases here : m = l
  · subst here
    rw [Function.update_self, Option.some.injEq] at given
    exact .inr ⟨rfl, given.symm⟩
  · rw [Function.update_of_ne here] at given
    exact .inl given

end growth

end LGears.VmHeap
