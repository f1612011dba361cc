import LGears.Fasl
import LGears.Compiler

/- The file of a module: the assembler's image of a compiled program, and the loader that
   parses it. -/
namespace LGears.ModuleFile
open Bytes StateExcept Opcode Compiler Tagged Fasl

/- The assembler. -/

/-- What is assembled: an ilr whose constants may be any data. -/
structure Image where
  consts : List Object
  code : List IFunc
  entryPoint : Nat

def putEach {α : Type} (put : α → Except WriteError (List UInt8)) :
    List α → Except WriteError (List UInt8)
  | [] => return []
  | x :: xs => do
    let first ← put x
    return first ++ (← putEach put xs)

/-- Fields of a packed header, each a width and a number. -/
def putPacked (fields : List (Nat × Nat)) : Except WriteError (List UInt8) :=
  putEach (fun f => putUnsigned f.1 f.2) fields

def putSigned16 (i : Int) : Except WriteError (List UInt8) :=
  if -2 ^ 15 ≤ i ∧ i < 2 ^ 15 then .ok (toLE 2 (BitVec.ofInt 16 i).toNat) else .error .range

def boolToInt (b : Bool) : Nat := if b then 1 else 0

def makeHeader (constsSize funCount entryPoint : Nat) : Except WriteError (List UInt8) :=
  putPacked [(4, constsSize), (2, funCount), (2, entryPoint)]

def makeFunHdr (envSize argc swallow opCount heapEnv depth bcount bmcount : Nat) :
    Except WriteError (List UInt8) :=
  putPacked [(2, envSize), (2, argc), (2, swallow), (2, opCount), (2, heapEnv), (2, depth),
    (2, bcount), (2, bmcount)]

def putBinding (bind : Nat × Nat) : Except WriteError (List UInt8) :=
  putPacked [(2, bind.1), (2, bind.2)]

def putInstr (cmd : Instr) : Except WriteError (List UInt8) := do
  let op ← putSigned16 (opcode cmd.op)
  return op ++ (← putSigned16 cmd.arg)

/-- (assemble-code func) -/
def assembleCode (func : IFunc) : Except WriteError (List UInt8) := do
  let bindings ← putEach putBinding func.bindings
  let bindmap ← putEach (putUnsigned 2) func.bindmap
  let code ← putEach putInstr func.code
  let hdr ← makeFunHdr func.size func.argc (boolToInt func.swallow) func.code.length
    (boolToInt func.heap) func.depth func.bindings.length func.bindmap.length
  return hdr ++ (bindings ++ (bindmap ++ code))

def writeConsts (consts : List Object) : Except WriteError (List UInt8) := do
  let count ← putUnsigned 1 consts.length
  return count ++ (← putAll consts)

def assemble (root : Image) : Except WriteError (List UInt8) := do
  let consts ← writeConsts root.consts
  let header ← makeHeader consts.length root.code.length root.entryPoint
  let functions ← putEach assembleCode root.code
  return header ++ (consts ++ functions)

/- The loader. -/

/-- A number of 16 bits in a signed short. -/
def short (n : Nat) : Int := (BitVec.ofNat 16 n).toInt

structure FuncHdr where
  envSize : Nat
  argc : Nat
  swallow : Nat
  opCount : Nat
  heapEnv : Nat
  depth : Nat
  bcount : Nat
  bmcount : Nat
  deriving DecidableEq, Repr

/-- struct func_hdr_s -/
def funcHdr (bs : List UInt8) : FuncHdr :=
  { envSize := field 2 0 bs
    argc := field 2 2 bs
    swallow := field 2 4 bs
    opCount := field 2 6 bs
    heapEnv := field 2 8 bs
    depth := field 2 10 bs
    bcount := field 2 12 bs
    bmcount := field 2 14 bs }

structure ModuleHdr where
  constsSize : Nat
  funCount : Nat
  entryPoint : Nat
  deriving DecidableEq, Repr

/-- struct module_hdr_s -/
def moduleHdr (bs : List UInt8) : ModuleHdr :=
  { constsSize := field 4 0 bs
    funCount := field 2 4 bs
    entryPoint := field 2 6 bs }

/-- A function of a loaded module, its code as pairs of operation and operand. -/
structure Func where
  swallow : Nat
  argc : Nat
  envSize : Int
  opCount : Nat
  heapEnv : Int
  depth : Nat
  bcount : Nat
  bmcount : Nat
  bindings : List (Int × Int)
  bindmap : List Nat
  opcode : List (Int × Int)
  deriving DecidableEq, Repr

structure Module where
  functions : List Func
  entryPoint : Nat
  funCount : Nat
  consts : List Obj

def loadEach (globals : Globals) (fuel : Nat) : Nat → Load (List Obj)
  | 0 => return []
  | n + 1 => do
    let first ← faslReadDatum globals fuel
    return first :: (← loadEach globals fuel n)

def loadConsts (globals : Globals) (fuel : Nat) : Load (List Obj) := do
  let ccount ← codeRead8
  loadEach globals fuel ccount

/-- Pairs of shorts, as of the bindings and the code. -/
def shortPairs (n : Nat) (bs : List UInt8) : List (Int × Int) :=
  (List.range n).map fun i => (short (field 2 (4 * i) bs), short (field 2 (4 * i + 2) bs))

/-- The bindings and the map of a function; nothing is read for one without bindings. -/
def readBindings (hdr : FuncHdr) : Load (List (Int × Int) × List Nat) :=
  if hdr.bcount ≠ 0 then do
    let bindings ← take .assertion (hdr.bcount * 4)
    let bindmap ← take .assertion (hdr.bmcount * 2)
    return (shortPairs hdr.bcount bindings,
      (List.range hdr.bmcount).map fun i => field 2 (2 * i) bindmap)
  else return ([], [])

def readFunc : Load Func := do
  let hdr := funcHdr (← take .assertion 16)
  let binds ← readBindings hdr
  let opcode ← take .assertion (hdr.opCount * 4)
  return {
    swallow := hdr.swallow % 2
    argc := hdr.argc
    envSize := short hdr.envSize
    opCount := hdr.opCount
    heapEnv := short hdr.heapEnv
    depth := hdr.depth
    bcount := hdr.bcount
    bmcount := hdr.bmcount
    bindings := binds.1
    bindmap := binds.2
    opcode := shortPairs hdr.opCount opcode }

def readFuncs : Nat → Load (List Func)
  | 0 => return []
  | n + 1 => do
    let func ← readFunc
    return func :: (← readFuncs n)

/-- (module_parse mod), whose file is the window. -/
def moduleParse (globals : Globals) : Load Module := do
  let mhdr := moduleHdr (← take .assertion 8)
  let consts ← within .assertion mhdr.constsSize
    (loadConsts globals (2 * mhdr.constsSize + 2))
  let functions ← readFuncs mhdr.funCount
  return ⟨functions, mhdr.entryPoint, mhdr.funCount, consts⟩

/- Round trip. -/

theorem putEach_ok {α : Type} {put : α → Except WriteError (List UInt8)} {good : α → Prop}
    {record : α → List UInt8} (each : ∀ x bs, put x = .ok bs ↔ good x ∧ record x = bs)
    {xs : List α} {bs : List UInt8} :
    putEach put xs = .ok bs ↔ (∀ x ∈ xs, good x) ∧ xs.flatMap record = bs := by
  induction xs generalizing bs with
  | nil => simp [putEach, except_pure_ok]
  | cons x xs ih =>
    simp only [putEach, except_bind_ok, except_pure_ok, each, ih]
    constructor
    · intro ⟨_, ⟨hx, rfl⟩, _, ⟨hxs, rfl⟩, same⟩
      exact ⟨List.forall_mem_cons.mpr ⟨hx, hxs⟩, same⟩
    · intro ⟨all, same⟩
      obtain ⟨hx, hxs⟩ := List.forall_mem_cons.mp all
      exact ⟨_, ⟨hx, rfl⟩, _, ⟨hxs, rfl⟩, same⟩

theorem putPacked_ok {fields : List (Nat × Nat)} {bs : List UInt8} :
    putPacked fields = .ok bs ↔ (∀ f ∈ fields, f.2 < 256 ^ f.1) ∧ packed fields = bs :=
  putEach_ok fun _ _ => putUnsigned_ok

theorem putSigned16_ok {i : Int} {bs : List UInt8} :
    putSigned16 i = .ok bs ↔
      (-2 ^ 15 ≤ i ∧ i < 2 ^ 15) ∧ toLE 2 (BitVec.ofInt 16 i).toNat = bs := by
  unfold putSigned16
  split <;> simp_all

theorem short_ofInt {i : Int} (range : -2 ^ 15 ≤ i ∧ i < 2 ^ 15) :
    short (BitVec.ofInt 16 i).toNat = i := by
  rw [short, BitVec.ofNat_toNat, BitVec.setWidth_eq, BitVec.toInt_ofInt, Int.bmod_def]
  omega

theorem short_of_lt {n : Nat} (bound : n < 2 ^ 15) : short n = n := by
  rw [short, BitVec.toInt_eq_toNat_bmod, BitVec.toNat_ofNat, Int.bmod_def]
  omega

theorem shortPairs_records {α : Type} {first second : α → Nat} {xs : List α}
    (bounds : ∀ x ∈ xs, first x < 256 ^ 2 ∧ second x < 256 ^ 2) :
    shortPairs xs.length (xs.flatMap fun x => packed [(2, first x), (2, second x)]) =
      xs.map fun x => (short (first x), short (second x)) := by
  apply List.ext_getElem
  · simp [shortPairs]
  intro i hi hi'
  rw [List.length_map] at hi'
  obtain ⟨one, two⟩ := bounds xs[i] (List.getElem_mem hi')
  have width : ∀ x ∈ xs, (packed [(2, first x), (2, second x)]).length = 4 :=
    fun x _ => length_packed _
  have low := field_records width 0 hi' (by decide : 0 + 2 ≤ 4)
  have high := field_records width 2 hi' (by decide : 2 + 2 ≤ 4)
  rw [Nat.add_zero] at low
  simp only [shortPairs, List.getElem_map, List.getElem_range, low, high]
  congr 2
  · exact field_packed [] _ one
  · exact field_packed [(2, first xs[i])] [] two

/-- What the loader makes of a compiled function. -/
def loaded (func : IFunc) : Func :=
  { swallow := boolToInt func.swallow
    argc := func.argc
    envSize := func.size
    opCount := func.code.length
    heapEnv := boolToInt func.heap
    depth := func.depth
    bcount := func.bindings.length
    bmcount := func.bindmap.length
    bindings := func.bindings.map fun b => ((b.1 : Int), (b.2 : Int))
    bindmap := func.bindmap
    opcode := func.code.map fun i => ((opcode i.op : Int), (i.arg : Int)) }

/-- The numbers that the loader keeps in signed shorts, and the sections that it skips in a
    function without bindings. -/
structure Loadable (func : IFunc) : Prop where
  size : func.size < 2 ^ 15
  bindings : ∀ b ∈ func.bindings, b.1 < 2 ^ 15 ∧ b.2 < 2 ^ 15
  bindmap : func.bindmap = [] ↔ func.bindings = []

theorem putBinding_ok {b : Nat × Nat} {bs : List UInt8} :
    putBinding b = .ok bs ↔
      (b.1 < 256 ^ 2 ∧ b.2 < 256 ^ 2) ∧ packed [(2, b.1), (2, b.2)] = bs := by
  simp [putBinding, putPacked_ok]

/-- The operation and the operand of an instruction as the file holds them. -/
def instrFields (cmd : Instr) : Nat × Nat :=
  ((BitVec.ofInt 16 (opcode cmd.op)).toNat, (BitVec.ofInt 16 cmd.arg).toNat)

theorem instrFields_lt (cmd : Instr) :
    (instrFields cmd).1 < 256 ^ 2 ∧ (instrFields cmd).2 < 256 ^ 2 :=
  ⟨BitVec.isLt _, BitVec.isLt _⟩

theorem opcode_lt (op : Op) : opcode op < 30 := by cases op <;> decide

theorem putInstr_ok {cmd : Instr} {bs : List UInt8} :
    putInstr cmd = .ok bs ↔
      cmd.arg < 2 ^ 15 ∧ packed [(2, (instrFields cmd).1), (2, (instrFields cmd).2)] = bs := by
  have op := opcode_lt cmd.op
  simp only [putInstr, except_bind_ok, except_pure_ok, putSigned16_ok, packed, instrFields,
    List.flatMap_cons, List.flatMap_nil, List.append_nil]
  constructor
  · intro written
    obtain ⟨_, ⟨_, rfl⟩, _, ⟨arg, rfl⟩, same⟩ := written
    exact ⟨by omega, same⟩
  · intro written
    obtain ⟨arg, same⟩ := written
    exact ⟨_, ⟨by omega, rfl⟩, _, ⟨by omega, rfl⟩, same⟩

theorem funcHdr_packed {a b c d e f g h : Nat} (bounds : ∀ x ∈ [(2, a), (2, b), (2, c), (2, d),
      (2, e), (2, f), (2, g), (2, h)], x.2 < 256 ^ x.1) :
    funcHdr (packed [(2, a), (2, b), (2, c), (2, d), (2, e), (2, f), (2, g), (2, h)]) =
      ⟨a, b, c, d, e, f, g, h⟩ := by
  simp only [List.forall_mem_cons] at bounds
  obtain ⟨ha, hb, hc, hd, he, hf, hg, hh, _⟩ := bounds
  rw [funcHdr, FuncHdr.mk.injEq]
  exact ⟨field_packed [] _ ha, field_packed [(2, a)] _ hb, field_packed [(2, a), (2, b)] _ hc,
    field_packed [(2, a), (2, b), (2, c)] _ hd, field_packed [(2, a), (2, b), (2, c), (2, d)] _ he,
    field_packed [(2, a), (2, b), (2, c), (2, d), (2, e)] _ hf,
    field_packed [(2, a), (2, b), (2, c), (2, d), (2, e), (2, f)] _ hg,
    field_packed [(2, a), (2, b), (2, c), (2, d), (2, e), (2, f), (2, g)] _ hh⟩

theorem reads_records {α : Type} {record : α → List UInt8} {k : Nat} (xs : List α)
    (width : ∀ x, (record x).length = k) :
    Reads (take LoadError.assertion (xs.length * k)) (xs.flatMap record)
      (.ok (xs.flatMap record)) := by
  have size : (xs.flatMap record).length = xs.length * k := by
    simp [List.length_flatMap, width]
  rw [← size]
  exact reads_take _ _

theorem reads_pairs {α : Type} (first second : α → Nat) (xs : List α) :
    Reads (take LoadError.assertion (xs.length * 4))
      (xs.flatMap fun x => packed [(2, first x), (2, second x)])
      (.ok (xs.flatMap fun x => packed [(2, first x), (2, second x)])) :=
  reads_records xs fun _ => length_packed _

theorem words_records {ns : List Nat} (small : ∀ n ∈ ns, n < 256 ^ 2) :
    (List.range ns.length).map (fun i => field 2 (2 * i) (ns.flatMap (toLE 2))) = ns := by
  apply List.ext_getElem
  · simp
  intro i _ hi
  have word := field_records (fun n _ => length_toLE 2 n) 0 hi (le_refl (0 + 2))
  have whole := field_packed [] [] (small ns[i] (List.getElem_mem hi))
  simp only [packed, List.nil_append, List.flatMap_cons, List.flatMap_nil, List.append_nil] at whole
  rw [Nat.add_zero] at word
  rw [List.getElem_map, List.getElem_range, word]
  exact whole

theorem reads_bindings {func : IFunc} (fits : Loadable func) {hdr : FuncHdr}
    (bcount : hdr.bcount = func.bindings.length) (bmcount : hdr.bmcount = func.bindmap.length)
    (small : ∀ m ∈ func.bindmap, m < 256 ^ 2) :
    Reads (readBindings hdr)
      (func.bindings.flatMap (fun b => packed [(2, b.1), (2, b.2)]) ++
        func.bindmap.flatMap (toLE 2))
      (.ok (func.bindings.map fun b => ((b.1 : Int), (b.2 : Int)), func.bindmap)) := by
  by_cases unbound : func.bindings = []
  · rw [readBindings, bcount, unbound, fits.bindmap.mpr unbound]
    exact reads_pure _
  have bound : hdr.bcount ≠ 0 := by
    rw [bcount]
    simpa using unbound
  rw [readBindings, if_pos bound, bcount, bmcount]
  apply reads_bind (reads_pairs Prod.fst Prod.snd _)
  apply reads_bind_last (reads_records _ (length_toLE 2))
  have binds : shortPairs func.bindings.length
      (func.bindings.flatMap fun b => packed [(2, b.1), (2, b.2)]) =
      func.bindings.map fun b => ((b.1 : Int), (b.2 : Int)) := by
    rw [shortPairs_records fun b member => by have := fits.bindings b member; omega]
    apply List.map_congr_left
    intro b member
    obtain ⟨up, idx⟩ := fits.bindings b member
    rw [short_of_lt up, short_of_lt idx]
  rw [binds, words_records small]
  exact reads_pure _

theorem reads_func {func : IFunc} {bs : List UInt8} (written : assembleCode func = .ok bs)
    (fits : Loadable func) : Reads readFunc bs (.ok (loaded func)) := by
  simp only [assembleCode, except_bind_ok, except_pure_ok, makeFunHdr, putPacked_ok,
    putEach_ok (fun _ _ => putBinding_ok), putEach_ok (fun _ _ => putUnsigned_ok),
    putEach_ok (fun _ _ => putInstr_ok)] at written
  obtain ⟨_, ⟨_, rfl⟩, _, ⟨small, rfl⟩, _, ⟨args, rfl⟩, _, ⟨bounds, rfl⟩, rfl⟩ := written
  have read := reads_take LoadError.assertion (packed [(2, func.size), (2, func.argc),
    (2, boolToInt func.swallow), (2, func.code.length), (2, boolToInt func.heap), (2, func.depth),
    (2, func.bindings.length), (2, func.bindmap.length)])
  rw [length_packed] at read
  rw [readFunc]
  apply reads_bind read
  rw [funcHdr_packed bounds, ← List.append_assoc]
  apply reads_bind (reads_bindings fits rfl rfl small)
  apply reads_bind_last (reads_pairs (fun c => (instrFields c).1) (fun c => (instrFields c).2) _)
  have opcodes : shortPairs func.code.length (func.code.flatMap fun c =>
      packed [(2, (instrFields c).1), (2, (instrFields c).2)]) =
      func.code.map fun c => ((opcode c.op : Int), (c.arg : Int)) := by
    rw [shortPairs_records fun c _ => instrFields_lt c]
    apply List.map_congr_left
    intro c member
    have op := opcode_lt c.op
    have arg := args c member
    rw [instrFields, short_ofInt (by omega), short_ofInt (by omega)]
  have swallow : boolToInt func.swallow % 2 = boolToInt func.swallow := by
    cases func.swallow <;> rfl
  have heap : short (boolToInt func.heap) = boolToInt func.heap := by
    cases func.heap <;> rfl
  rw [opcodes, swallow, heap, short_of_lt fits.size]
  exact reads_pure _

theorem reads_funcs {funcs : List IFunc} (fits : ∀ func ∈ funcs, Loadable func) :
    ∀ bs, putEach assembleCode funcs = .ok bs →
      Reads (readFuncs funcs.length) bs (.ok (funcs.map loaded)) := by
  induction funcs with
  | nil =>
    intro bs written
    obtain rfl := except_pure_ok.mp written
    exact reads_pure _
  | cons func funcs ih =>
    intro bs written
    simp only [putEach, except_bind_ok, except_pure_ok] at written
    obtain ⟨first, hfirst, rest, hrest, rfl⟩ := written
    have others := ih (fun f member => fits f (by simp [member])) rest hrest
    rw [List.length_cons, readFuncs]
    apply reads_bind (reads_func hfirst (fits func (by simp)))
    exact reads_bind_last others (reads_pure _)

theorem reads_consts (globals : Globals) (fuel : Nat) {consts : List Object} :
    ∀ bs, putAll consts = .ok bs → bs.length ≤ fuel →
      Reads (loadEach globals fuel consts.length) bs (builtAll globals consts) := by
  induction consts with
  | nil =>
    intro bs written _
    obtain rfl := except_pure_ok.mp written
    exact reads_pure _
  | cons d consts ih =>
    intro bs written enough
    simp only [putAll, except_bind_ok, except_pure_ok] at written
    obtain ⟨first, hfirst, rest, hrest, rfl⟩ := written
    rw [List.length_append] at enough
    rw [List.length_cons, loadEach, builtAll]
    apply reads_bind_result ((reads_put d).1 first hfirst fuel (by omega))
    intro _ _
    exact reads_bind_pure (ih rest hrest (by omega))

/-- The VM counts the bytes of a string. -/
def byteCount (s : String) : Nat := (stringToUtf8 s).length

/-- The module is the image: its functions, its entry point and its constants, in order. -/
structure Represents (globals : Globals) (root : Image) (mod : Module) : Prop where
  functions : mod.functions = root.code.map loaded
  funCount : mod.funCount = root.code.length
  entryPoint : mod.entryPoint = root.entryPoint
  consts : DenotesAll globals byteCount root.consts mod.consts

theorem moduleHdr_packed {a b c : Nat}
    (bounds : ∀ x ∈ [(4, a), (2, b), (2, c)], x.2 < 256 ^ x.1) :
    moduleHdr (packed [(4, a), (2, b), (2, c)]) = ⟨a, b, c⟩ := by
  simp only [List.forall_mem_cons] at bounds
  obtain ⟨ha, hb, hc, _⟩ := bounds
  rw [moduleHdr, ModuleHdr.mk.injEq]
  exact ⟨field_packed [] _ ha, field_packed [(4, a)] _ hb, field_packed [(4, a), (2, b)] _ hc⟩

/- An image that fits is parsed as it was assembled, and to the end of the file. -/
theorem moduleParse_assemble (globals : Globals) {root : Image} {bs : List UInt8}
    (written : assemble root = .ok bs) (functions : ∀ func ∈ root.code, Loadable func)
    (constants : FitsAll globals byteCount root.consts) :
    ∃ mod, moduleParse globals (.whole bs) = .ok (mod, .whole []) ∧
      Represents globals root mod := by
  simp only [assemble, writeConsts, except_bind_ok, except_pure_ok, makeHeader, putPacked_ok,
    putUnsigned_ok] at written
  obtain ⟨_, ⟨_, ⟨count, rfl⟩, consts, hconsts, rfl⟩, _, ⟨bounds, rfl⟩, funcs, hfuncs, rfl⟩ :=
    written
  obtain ⟨objs, hobjs, denotes⟩ :=
    (denotes_fields (fun _ _ _ written => denotes_built written) consts hconsts).mpr constants
  refine ⟨⟨root.code.map loaded, root.entryPoint, root.code.length, objs⟩, ?_, rfl, rfl, rfl,
    denotes⟩
  apply Reads.whole (r := .ok _)
  have header := reads_take LoadError.assertion (packed [(4,
    (toLE 1 root.consts.length ++ consts).length), (2, root.code.length), (2, root.entryPoint)])
  rw [length_packed] at header
  have pool := reads_bind (reads_number LoadError.assertion count)
    (reads_consts globals (2 * (toLE 1 root.consts.length ++ consts).length + 2) consts hconsts
      (by simp only [List.length_append]; omega))
  rw [hobjs] at pool
  rw [moduleParse]
  apply reads_bind header
  rw [moduleHdr_packed bounds]
  apply reads_bind (reads_within _ pool)
  exact reads_bind_last (reads_funcs functions funcs hfuncs) (reads_pure _)

/-- A module with a closure that reads a variable of its parent. -/
def counterImage : Image :=
  { consts := [.static "car", .pair (.num 1) (.pair (.str "a") .null)]
    code := [
      { code := [⟨.loadBind, 0⟩, ⟨.loadConst, 0⟩, ⟨.funcCall, 1⟩]
        size := 0, argc := 0, swallow := false, heap := false, depth := 1
        bindings := [(0, 1)], bindmap := [0] },
      { code := [⟨.loadConst, 1⟩, ⟨.loadClosure, 0⟩, ⟨.funcCall, 1⟩]
        size := 2, argc := 2, swallow := true, heap := true, depth := 0
        bindings := [], bindmap := [] }]
    entryPoint := 1 }

def counterGlobals : Globals := fun key =>
  if key.bytes = stringToUtf8 "car" then some 1 else none

theorem moduleParse_counterImage : ∃ bs mod, assemble counterImage = .ok bs ∧
    moduleParse counterGlobals (.whole bs) = .ok (mod, .whole []) ∧
    Represents counterGlobals counterImage mod := by
  have functions : ∀ func ∈ counterImage.code, Loadable func := by
    intro func member
    simp only [counterImage, List.mem_cons, List.not_mem_nil, or_false] at member
    obtain rfl | rfl := member <;> constructor <;> decide
  have constants : FitsAll counterGlobals byteCount counterImage.consts := by
    refine ⟨⟨⟨stringToUtf8 "car", by decide⟩, rfl, by decide⟩, ?_, trivial⟩
    simp only [Fits]
    decide
  cases written : assemble counterImage with
  | error e => cases written
  | ok bs =>
    obtain ⟨mod, parsed, same⟩ := moduleParse_assemble counterGlobals written functions constants
    exact ⟨bs, mod, rfl, parsed, same⟩

end LGears.ModuleFile
