import LGears.Values
import LGears.Vm

/- The words that stand for the values of programs, and what the instructions for primitive
   operations make of them. -/
namespace LGears.VmValues
open PrimitivesInfo Opcode Values Gc

/- Numbers. -/

/-- The fixnum of a number. -/
def numWord (i : Int) : Nat := (Tagged.makeFixnum (BitVec.ofInt 64 i)).toNat

/-- The number is kept by a fixnum. -/
def Small (i : Int) : Prop := -2 ^ 60 ≤ i ∧ i < 2 ^ 60

section numbers
open Tagged Arithmetic

theorem small_wrap (i : Int) : Small (wrap i) := by
  unfold Small wrap
  omega

theorem numWord_wrap (i : Int) : numWord (wrap i) = numWord i := by
  have same : BitVec.ofInt 61 (wrap i) = BitVec.ofInt 61 i := by
    apply BitVec.eq_of_toInt_eq
    rw [BitVec.toInt_ofInt, BitVec.toInt_ofInt, wrap, Int.bmod_def, Int.bmod_def]
    omega
  have low : ∀ n : Int, makeFixnum (BitVec.ofInt 64 n) =
      makeFixnum ((BitVec.ofInt 61 n).setWidth 64) := by
    intro n
    rw [← TwosComplement.setWidth_ofInt (by decide : 61 ≤ 64), makeFixnum_setWidth]
  rw [numWord, numWord, low, same, ← low]

theorem ofNat_numWord (i : Int) :
    BitVec.ofNat 64 (numWord i) = makeFixnum (BitVec.ofInt 64 i) := by
  rw [numWord, BitVec.ofNat_toNat, BitVec.setWidth_eq]

theorem toInt_numWord {i : Int} (small : Small i) :
    (fixnum (BitVec.ofNat 64 (numWord i))).toInt = i := by
  rw [ofNat_numWord]
  exact (fixnum_makeFixnum i).mpr small

theorem fixnum_numWord {i : Int} (small : Small i) :
    fixnum (BitVec.ofNat 64 (numWord i)) = BitVec.ofInt 64 i := by
  apply BitVec.eq_of_toInt_eq
  rw [toInt_numWord small, BitVec.toInt_ofInt, Int.bmod_def]
  unfold Small at small
  omega

theorem numWord_mod (i : Int) : numWord i % 8 = 0 := by
  have tag := getTag_makeFixnum (BitVec.ofInt 64 i)
  have low : (getTag (makeFixnum (BitVec.ofInt 64 i))).toNat = numWord i % 8 := by
    rw [getTag, BitVec.toNat_and, show (7 : Word).toNat = 2 ^ 3 - 1 from rfl,
      Nat.and_two_pow_sub_one_eq_mod]
    rfl
  rw [← low, tag]
  rfl

theorem numWord_inj {i j : Int} (small : Small i) (small' : Small j)
    (same : numWord i = numWord j) : i = j := by
  rw [← toInt_numWord small, ← toInt_numWord small', same]

theorem arithmetic_words {f : Int → Int → Int} {g : Word → Word → Word} {a b : Int}
    (small : Small a) (small' : Small b)
    (computes : g (BitVec.ofInt 64 a) (BitVec.ofInt 64 b) = BitVec.ofInt 64 (f a b)) :
    arithmeticTarget (fun x y => some (g x y)) (BitVec.ofNat 64 (numWord a))
      (BitVec.ofNat 64 (numWord b)) = some (BitVec.ofNat 64 (numWord (wrap (f a b)))) := by
  rw [arithmeticTarget, fixnum_numWord small, fixnum_numWord small', computes, numWord_wrap,
    ofNat_numWord]
  rfl

theorem ofInt_eq_zero {b : Int} (small : Small b) : BitVec.ofInt 64 b = 0 ↔ b = 0 := by
  rw [← fixnum_numWord small]
  constructor
  · intro zero
    rw [← toInt_numWord small, zero]
    rfl
  · intro zero
    subst zero
    rfl

theorem toInt_ofInt_small {a : Int} (small : Small a) : (BitVec.ofInt 64 a).toInt = a := by
  rw [← fixnum_numWord small, toInt_numWord small]

theorem division_words {f : Int → Int → Int} {g : Word → Word → Word} {a b : Int}
    (small : Small a) (small' : Small b) (nonzero : b ≠ 0)
    (computes : ∀ x y : Word, (g x y).toInt = (f x.toInt y.toInt).bmod (2 ^ 64)) :
    arithmeticTarget (fun x y => if y = 0 then none else some (g x y)) (BitVec.ofNat 64 (numWord a))
      (BitVec.ofNat 64 (numWord b)) = some (BitVec.ofNat 64 (numWord (wrap (f a b)))) := by
  have quotient : g (BitVec.ofInt 64 a) (BitVec.ofInt 64 b) = BitVec.ofInt 64 (f a b) := by
    apply BitVec.eq_of_toInt_eq
    rw [computes, toInt_ofInt_small small, toInt_ofInt_small small', BitVec.toInt_ofInt]
  rw [arithmeticTarget, fixnum_numWord small, fixnum_numWord small', quotient, numWord_wrap,
    ofNat_numWord, if_neg ((ofInt_eq_zero small').not.mpr nonzero)]
  rfl

theorem compare_words {test : Word → Word → Bool} {p : Int → Int → Bool} {a b : Int}
    (small : Small a) (small' : Small b) (tests : ∀ x y : Word, test x y = p x.toInt y.toInt) :
    compareTarget test (BitVec.ofNat 64 (numWord a)) (BitVec.ofNat 64 (numWord b)) =
      cif (p a b) := by
  rw [compareTarget, tests, toInt_numWord small, toInt_numWord small']

theorem cif_word (b : Bool) : (cif b).toNat = Vm.cif b := by
  cases b <;> rfl

/-- What an operation on two numbers leaves. -/
def ResultWord (v : Value) (w : Nat) : Prop :=
  (∃ i, v = .atom (.data (.num i)) ∧ Small i ∧ w = numWord i) ∨ ∃ b, v = bool b ∧ w = Vm.cif b

theorem numWord_lt (i : Int) : numWord i < 2 ^ 64 := (makeFixnum (BitVec.ofInt 64 i)).isLt

theorem result_num (n : Int) : ResultWord (.atom (.data (.num (wrap n))))
    (BitVec.ofNat 64 (numWord (wrap n))).toNat := by
  refine .inl ⟨wrap n, rfl, small_wrap n, ?_⟩
  rw [BitVec.toNat_ofNat, Nat.mod_eq_of_lt (numWord_lt _)]

theorem numeric_binary {op : Symbol} {o : Op} {a b : Int} {v : Value}
    (code : operatorToOpcode op = some o) (small : Small a) (small' : Small b)
    (value : numeric op a b = some v) :
    ∃ c, binary o (BitVec.ofNat 64 (numWord a)) (BitVec.ofNat 64 (numWord b)) = some c ∧
      ResultWord v c.toNat := by
  have sums : ∀ {f : Int → Int → Int} {g : Word → Word → Word},
      g (BitVec.ofInt 64 a) (BitVec.ofInt 64 b) = BitVec.ofInt 64 (f a b) →
      ∃ c, arithmeticTarget (fun x y => some (g x y)) (BitVec.ofNat 64 (numWord a))
        (BitVec.ofNat 64 (numWord b)) = some c ∧
        ResultWord (.atom (.data (.num (wrap (f a b))))) c.toNat := by
    intro f g computes
    exact ⟨_, arithmetic_words small small' computes, result_num _⟩
  have tests : ∀ {test : Word → Word → Bool} {p : Int → Int → Bool},
      (∀ x y : Word, test x y = p x.toInt y.toInt) →
      ∃ c, some (compareTarget test (BitVec.ofNat 64 (numWord a)) (BitVec.ofNat 64 (numWord b))) =
        some c ∧ ResultWord (bool (p a b)) c.toNat := by
    intro test p same
    refine ⟨_, rfl, .inr ⟨p a b, rfl, ?_⟩⟩
    rw [compare_words small small' same, cif_word]
  have quotients : ∀ {f : Int → Int → Int} {g : Word → Word → Word} {w : Value}, b ≠ 0 →
      (∀ x y : Word, (g x y).toInt = (f x.toInt y.toInt).bmod (2 ^ 64)) →
      .atom (.data (.num (wrap (f a b)))) = w →
      ∃ c, arithmeticTarget (fun x y => if y = 0 then none else some (g x y))
        (BitVec.ofNat 64 (numWord a)) (BitVec.ofNat 64 (numWord b)) = some c ∧
        ResultWord w c.toNat := by
    intro f g w nonzero computes same
    subst same
    exact ⟨_, division_words small small' nonzero computes, result_num _⟩
  unfold operatorToOpcode at code
  split at code <;> cases code <;>
    simp only [numeric, arith, Values.compare, String.reduceEq, if_false, if_true, Option.map_none,
      Option.map_some, Option.some.injEq, reduceCtorEq] at value
  · subst value
    exact sums (f := fun a b => a - b) (TwosComplement.ofInt_sub 64 a b).symm
  · subst value
    exact sums (f := fun a b => a + b) (BitVec.ofInt_add a b).symm
  · subst value
    exact sums (f := fun a b => a * b) (BitVec.ofInt_mul a b).symm
  · by_cases zero : b = 0
    · simp [zero] at value
    · simp only [zero, if_false, Option.some.injEq] at value
      exact quotients (f := Int.tdiv) zero (fun x y => BitVec.toInt_sdiv x y) value
  · by_cases zero : b = 0
    · simp [zero] at value
    · simp only [zero, if_false, Option.some.injEq] at value
      refine quotients (f := Int.tmod) zero (fun x y => ?_) value
      rw [← BitVec.toInt_srem, BitVec.toInt_bmod_cancel]
  · subst value
    exact sums (f := Int.land) (TwosComplement.ofInt_land 64 a b).symm
  · subst value
    exact sums (f := Int.lor) (TwosComplement.ofInt_lor 64 a b).symm
  · subst value
    exact sums (f := Int.xor) (TwosComplement.ofInt_xor 64 a b).symm
  · subst value
    exact tests (p := fun a b => decide (a < b)) fun x y => rfl
  · subst value
    exact tests (p := fun a b => decide (b < a)) fun x y => rfl
  · subst value
    refine tests (p := fun a b => decide (a = b)) fun x y => ?_
    simp [BitVec.toInt_inj, beq_eq_decide]

end numbers

/- Literals. -/

/-- The builtins that get a name by ns_install_global. -/
def globals : List (Symbol × Vm.Native) :=
  [("display", .display), ("__exit", .vmExit), ("call/cc", .callCc), ("apply", .apply),
    ("exception-handlers", .exceptionHandlers), ("list", .list), ("$make-list", .makeList),
    ("void", .getVoid), ("eof-object", .getEof), ("char->integer", .charToInteger),
    ("integer->char", .integerToChar), ("length", .listLength),
    ("symbol->string", .symbolToString), ("string-ref", .stringRef), ("string-set!", .stringSet),
    ("string-length", .stringLength), ("string=?", .stringEq), ("string-concat", .stringConcat),
    ("substring", .substring), ("string-copy", .stringCopy), ("string-copy!", .stringCopyTo),
    ("make-string", .makeString), ("make-struct", .makeStruct), ("alloc-struct", .allocStruct),
    ("struct-size", .structSize), ("struct-set!", .structSet), ("struct-ref", .structRef),
    ("struct-type", .structType), ("struct->list", .structToList),
    ("make-bytevector", .makeBytevector), ("bytevector?", .isBytevector),
    ("bytevector-u8-set!", .bytevector8Set), ("load-library", .loadLibrary),
    ("library-cache", .libraryCache)]

/-- What the constants of a process are: the texts of its strings and symbols, and the addresses of
    its builtins. -/
structure Statics where
  text : Nat → Option Symbol
  builtin : Symbol → Nat

/-- The word of a character that a constant can hold. -/
def charWord (c : Char) : Nat := c.toNat * 8 + 3

/-- A pointer to a block of the constant areas. -/
structure ConstAt (img : Vm.Image) (type : Vm.ConstType) (w : Nat) (b : Vm.ConstBlock) : Prop where
  tag : w % 8 = ErrorHandlers.tagConstPtr
  bounded : w < 2 ^ 64
  block : img.area (ptr w) = some b
  type : b.type = type

/-- The bits of a pair say whether it is a list, and how long. -/
structure Marks (word : Nat) (length : Option Nat) : Prop where
  list : word % 2 = 1 ↔ length.isSome
  length : ∀ n, length = some n → word / 2 % 2 ^ 31 = n % 2 ^ 31

/-- The word stands for the literal. -/
inductive DatumIs (img : Vm.Image) (st : Statics) : Datum → Nat → Prop where
  | null : DatumIs img st .null Vm.cnull
  | bool (b : Bool) : DatumIs img st (.bool b) (Vm.cif b)
  | char {c : Char} (short : c.toNat < 2 ^ 16) : DatumIs img st (.char c) (charWord c)
  | num {i : Int} (small : Small i) : DatumIs img st (.num i) (numWord i)
  | str {s : String} {w : Nat} {b : Vm.ConstBlock} (here : ConstAt img .string w b)
      (text : st.text (ptr w) = some s) : DatumIs img st (.str s) w
  | sym {s : Symbol} {w : Nat} {b : Vm.ConstBlock} (here : ConstAt img .symbol w b)
      (text : st.text (ptr w) = some s) : DatumIs img st (.sym s) w
  | pair {a d : Datum} {w : Nat} {b : Vm.ConstBlock} (here : ConstAt img .pair w b)
      (car : DatumIs img st a (b.words 0)) (cdr : DatumIs img st d (b.words 1))
      (marks : Marks (b.words 2) (datumLength (.pair a d))) : DatumIs img st (.pair a d) w
  | vec {xs : List Datum} {w : Nat} {b : Vm.ConstBlock} (here : ConstAt img .struct w b)
      (each : ∀ (i : Nat) x, xs[i]? = some x → DatumIs img st x (b.words (3 + i))) :
      DatumIs img st (.vec xs) w

/-- The builtins and the functions of the module have places of their own, and every symbol has
    one. -/
structure Resolved (img : Vm.Image) (st : Statics) : Prop where
  symbols : ∀ v w b c s, ConstAt img .symbol v b → ConstAt img .symbol w c →
    st.text (ptr v) = some s → st.text (ptr w) = some s → v = w
  aligned : ∀ x n, (x, n) ∈ globals → st.builtin x % 8 = 0
  bounded : ∀ x n, (x, n) ∈ globals → st.builtin x + 8 < 2 ^ 64
  distinct : ∀ x m y n, (x, m) ∈ globals → (y, n) ∈ globals → st.builtin x = st.builtin y → x = y
  native : ∀ x n, (x, n) ∈ globals → img.natives (st.builtin x) = some n
  apart : ∀ x n, (x, n) ∈ globals → img.inter (st.builtin x) = none
  exit : img.natives img.vmExit = some .vmExit ∧ img.inter img.vmExit = none
  exit_aligned : img.vmExit % 8 = 0
  exit_bounded : img.vmExit + 8 < 2 ^ 64
  base : img.base % 8 = 0

/- Objects of the heap. -/

/-- Where the pairs and other objects, the closures and the variables of a program are. -/
structure Link where
  obj : Nat → Option Nat
  proc : Nat → Option Nat
  cell : Nat → Option (Nat × Nat)

/-- What is placed stays there. -/
structure Link.Grows (L L' : Link) : Prop where
  obj : ∀ {l mem}, L.obj l = some mem → L'.obj l = some mem
  proc : ∀ {l mem}, L.proc l = some mem → L'.proc l = some mem
  cell : ∀ {l p}, L.cell l = some p → L'.cell l = some p

theorem Link.Grows.refl (L : Link) : L.Grows L := ⟨id, id, id⟩

theorem Link.Grows.trans {L M N : Link} (first : L.Grows M) (second : M.Grows N) : L.Grows N :=
  ⟨fun h => second.obj (first.obj h), fun h => second.proc (first.proc h),
    fun h => second.cell (first.cell h)⟩

/-- Objects are placed; the variables that have places are the same. -/
structure Link.Adds (L L' : Link) : Prop where
  grows : L.Grows L'
  cells : L'.cell = L.cell

theorem Link.Adds.refl (L : Link) : L.Adds L := ⟨.refl L, rfl⟩

theorem Link.Adds.trans {L M N : Link} (first : L.Adds M) (second : M.Adds N) : L.Adds N :=
  ⟨first.grows.trans second.grows, second.cells.trans first.cells⟩

def Link.withObj (L : Link) (l mem : Nat) : Link := { L with obj := Function.update L.obj l (some mem) }

def Link.withProc (L : Link) (l mem : Nat) : Link :=
  { L with proc := Function.update L.proc l (some mem) }

def Link.withCell (L : Link) (l E i : Nat) : Link :=
  { L with cell := Function.update L.cell l (some (E, i)) }

/-- The word stands for the value. -/
inductive ValueIs (img : Vm.Image) (st : Statics) (L : Link) : Value → Nat → Prop where
  | data {d : Datum} {w : Nat} (is : DatumIs img st d w) : ValueIs img st L (.atom (.data d)) w
  | void : ValueIs img st L (.atom .void) Vm.cvoid
  | eof : ValueIs img st L (.atom .eof) Vm.ceof
  | prim {x : Symbol} {n : Vm.Native} (known : (x, n) ∈ globals) :
    ValueIs img st L (.atom (.prim x)) (Vm.makeFunc (st.builtin x))
  | done : ValueIs img st L (.atom .done) (Vm.makeFunc img.vmExit)
  | ref {n mem : Nat} (at' : L.obj n = some mem) : ValueIs img st L (.ref n) (makeHeapPtr mem)
  | proc {n mem : Nat} (at' : L.proc n = some mem) : ValueIs img st L (.proc n) (makeHeapPtr mem)

theorem ValueIs.grow {img : Vm.Image} {st : Statics} {L L' : Link} {v : Value} {w : Nat}
    (is : ValueIs img st L v w) (grows : L.Grows L') : ValueIs img st L' v w := by
  cases is with
  | data is => exact .data is
  | void => exact .void
  | eof => exact .eof
  | prim known => exact .prim known
  | done => exact .done
  | ref at' => exact .ref (grows.obj at')
  | proc at' => exact .proc (grows.proc at')

end LGears.VmValues
