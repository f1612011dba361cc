import LGears.Arithmetic
import Mathlib.Algebra.BigOperators.Ring.List

/- The library of arithmetic operators. An operator is a transformer: applied to operands it
   expands to operations of the machine, by itself it stands for a procedure. -/
namespace LGears.CoreArithmetic
open Opcode Tagged Arithmetic

abbrev Vars := Symbol → Option Word

/- Values of expressions made of operations. -/
mutual
def valueOf (ρ : Vars) : Node → Option Word
  | .const (.num i) => some (makeFixnum (BitVec.ofInt 64 i))
  | .const (.bool b) => some (cif b)
  | .sym x => ρ x
  | .ite pred conseq alt => do
    if (← valueOf ρ pred) = cfalse then valueOf ρ alt else valueOf ρ conseq
  | .app (.sym f) args => do
    let op ← operatorToOpcode f
    match ← valuesOf ρ args with
    | [a, b] => binary op a b
    | _ => none
  | _ => none
def valuesOf (ρ : Vars) : List Node → Option (List Word)
  | [] => some []
  | x :: xs => do
    let w ← valueOf ρ x
    let ws ← valuesOf ρ xs
    pure (w :: ws)
end

abbrev Proc := Word → Word → Option Word

/-- The procedure (lambda (x y) (op x y)). -/
def opProc (op : Symbol) : Proc := fun x y =>
  valueOf (fun name => if name = "x" then some x else if name = "y" then some y else none)
    (.app (.sym op) [.sym "x", .sym "y"])

/-- The loop fold-left-1 of fold-left, which is all of it for a single list. -/
def foldLeft (proc : Proc) (res : Word) : List Word → Option Word
  | [] => some res
  | x :: lst => do foldLeft proc (← proc res x) lst

/-- (__add/mul_proc init proc) -/
def addMulProc (init : Word) (proc : Proc) (args : List Word) : Option Word :=
  foldLeft proc init args

/-- (__sub/div_proc init proc) -/
def subDivProc (init : Word) (proc : Proc) : List Word → Option Word
  | [] => none
  | first :: rest => foldLeft proc init (first :: rest)

/-- What stands for an application of the operator, unless it is a syntax error, and the
    procedure that stands for its name. -/
structure Transformer where
  direct : List Node → Option Node
  proc : List Word → Option Word

def addMulDirect (op : Symbol) (init : Int) : List Node → Node
  | [] => .const (.num init)
  | [a] => a
  | [a, b] => .app (.sym op) [a, b]
  | a :: b :: c => addMulDirect op init (.app (.sym op) [a, b] :: c)
termination_by args => args.length

def subDivDirect (op : Symbol) (init : Int) : List Node → Option Node
  | [] => none
  | [a] => some (.app (.sym op) [.const (.num init), a])
  | [a, b] => some (.app (.sym op) [a, b])
  | a :: b :: c => subDivDirect op init (.app (.sym op) [a, b] :: c)
termination_by args => args.length

def initWord (init : Int) : Word := makeFixnum (BitVec.ofInt 64 init)

def fixnumOf (i : Int) : Fixnum := ⟨initWord i, getTag_makeFixnum _⟩

@[simp] theorem fixnumOf_word (i : Int) : (fixnumOf i).word = initWord i := rfl

/-- (add/mul op init) -/
def addMul (op : Symbol) (init : Int) : Transformer :=
  ⟨fun args => some (addMulDirect op init args), addMulProc (initWord init) (opProc op)⟩

/-- (sub/div op init) -/
def subDiv (op : Symbol) (init : Int) : Transformer :=
  ⟨subDivDirect op init, subDivProc (initWord init) (opProc op)⟩

def plus := addMul "$+" 0

def times := addMul "$*" 1

def fxand := addMul "$and" (-1)

def fxior := addMul "$ior" 1

def fxxor := addMul "$xor" 1

def minus := subDiv "$-" 0

def divide := subDiv "$/" 1

/-- (and test ...) -/
def andForm : List Node → Node
  | [] => .const (.bool true)
  | [a] => a
  | a :: rest => .ite a (andForm rest) (.const (.bool false))

/-- The loop of the procedure. -/
def cmpLoop (proc : Proc) (a : Word) : List Word → Option Word
  | [] => some ctrue
  | b :: rest => do if (← proc a b) = cfalse then some cfalse else cmpLoop proc b rest

/-- (__cmp-proc proc) -/
def cmpProc (proc : Proc) : List Word → Option Word
  | [] => none
  | init :: args => cmpLoop proc init args

def cmpDirect (op : Symbol) : List Node → Option Node
  | [] => none
  | [_] => some (.const (.bool true))
  | [a, b] => some (.app (.sym op) [a, b])
  | a :: b :: c => (cmpDirect op c).map fun rest => andForm [.app (.sym op) [a, b], rest]

/-- (cmp-op op) -/
def cmpOp (op : Symbol) : Transformer := ⟨cmpDirect op, cmpProc (opProc op)⟩

def lessThan := cmpOp "$<"

def greaterThan := cmpOp "$>"

def equals := cmpOp "$="

/-- The value of an application. -/
def Transformer.applied (t : Transformer) (ρ : Vars) (operands : List Node) : Option Word :=
  (t.direct operands).bind (valueOf ρ)

/-- The operands are expressions for these fixnums. -/
def Operands (ρ : Vars) (operands : List Node) (args : List Fixnum) : Prop :=
  List.Forall₂ (fun x a => valueOf ρ x = some a.word) operands args

theorem addMulDirect_cons (op : Symbol) (init : Int) (a : Node) (operands : List Node) :
    addMulDirect op init (a :: operands) = operands.foldl (fun x y => .app (.sym op) [x, y]) a := by
  induction operands generalizing a with
  | nil => rw [addMulDirect, List.foldl_nil]
  | cons b c ih =>
    rw [List.foldl_cons, ← ih]
    cases c with
    | nil => rw [addMulDirect, addMulDirect]
    | cons => rw [addMulDirect]; simp

theorem subDivDirect_cons (op : Symbol) (init : Int) (a b : Node) (operands : List Node) :
    subDivDirect op init (a :: b :: operands) =
      some ((b :: operands).foldl (fun x y => .app (.sym op) [x, y]) a) := by
  induction operands generalizing a b with
  | nil => rw [subDivDirect, List.foldl_cons, List.foldl_nil]
  | cons c rest ih =>
    rw [subDivDirect, ih]
    · rfl
    · simp

section applied
variable {ρ : Vars} {name : Symbol} {op : Op} {operands : List Node} {args : List Fixnum}

example (s : Datum) : valueOf ρ (.app (.sym "$+") [.quote s, .sym "x"]) = none := by
  simp [valueOf, valuesOf]

theorem valueOf_app (known : operatorToOpcode name = some op) {a b : Node} {w : Word}
    (second : valueOf ρ b = some w) :
    valueOf ρ (.app (.sym name) [a, b]) = (valueOf ρ a).bind fun v => binary op v w := by
  cases first : valueOf ρ a <;> simp [valueOf, valuesOf, known, first, second]

theorem opProc_eq (known : operatorToOpcode name = some op) : opProc name = binary op := by
  funext x y
  exact valueOf_app known (by simp [valueOf])

theorem valueOf_const (i : Int) : valueOf ρ (.const (.num i)) = some (initWord i) := by
  rw [valueOf, initWord]

theorem valueOf_chain (known : operatorToOpcode name = some op)
    (values : Operands ρ operands args) (a : Node) :
    valueOf ρ (operands.foldl (fun x y => .app (.sym name) [x, y]) a) =
      (valueOf ρ a).bind fun v => foldLeft (binary op) v (args.map Fixnum.word) := by
  induction values generalizing a with
  | nil => cases value : valueOf ρ a <;> simp [foldLeft, value]
  | cons head _ ih =>
    rw [List.foldl_cons, ih, valueOf_app known head]
    cases valueOf ρ a <;> rfl

theorem applied_addMul (known : operatorToOpcode name = some op) (init : Int) {a : Fixnum}
    {rest : List Fixnum} (values : Operands ρ operands (a :: rest)) :
    (addMul name init).applied ρ operands =
      foldLeft (binary op) a.word (rest.map Fixnum.word) := by
  cases values with
  | cons head tail =>
    simp only [Transformer.applied, addMul, Option.bind_some, addMulDirect_cons]
    rw [valueOf_chain known tail, head, Option.bind_some]

theorem applied_subDiv (known : operatorToOpcode name = some op) (init : Int) {a b : Fixnum}
    {rest : List Fixnum} (values : Operands ρ operands (a :: b :: rest)) :
    (subDiv name init).applied ρ operands =
      foldLeft (binary op) a.word ((b :: rest).map Fixnum.word) := by
  cases values with
  | cons head tail =>
    have whole := valueOf_chain known tail
    cases tail with
    | cons next tail =>
      simp only [Transformer.applied, subDiv, subDivDirect_cons, Option.bind_some]
      rw [whole, head, Option.bind_some]

theorem applied_subDiv_single (known : operatorToOpcode name = some op) (init : Int) {a : Fixnum}
    (values : Operands ρ operands [a]) :
    (subDiv name init).applied ρ operands = binary op (initWord init) a.word := by
  cases values with
  | cons head tail =>
    cases tail with
    | nil =>
      simp only [Transformer.applied, subDiv, subDivDirect, Option.bind_some]
      rw [valueOf_app known head, valueOf_const, Option.bind_some]

end applied

theorem proc_addMul {name : Symbol} {op : Op} (known : operatorToOpcode name = some op) (init : Int)
    (args : List Word) :
    (addMul name init).proc args = foldLeft (binary op) (initWord init) args := by
  simp only [addMul, addMulProc, opProc_eq known]

theorem proc_subDiv {name : Symbol} {op : Op} (known : operatorToOpcode name = some op) (init : Int)
    (a : Fixnum) (rest : List Fixnum) :
    (subDiv name init).proc ((a :: rest).map Fixnum.word) =
      foldLeft (binary op) (initWord init) ((a :: rest).map Fixnum.word) := by
  simp only [subDiv, List.map_cons, subDivProc, opProc_eq known]

section folded
variable {op : Op} {f : BitVec 61 → BitVec 61 → BitVec 61}

def payloads (args : List Fixnum) : List (BitVec 61) := args.map fun a => payload a.word

theorem foldLeft_payload (computes : ∀ x y : BitVec 61, wordOp op x y = some (f x y)) (a : Fixnum)
    (args : List Fixnum) : ∃ c : Fixnum,
      foldLeft (binary op) a.word (args.map Fixnum.word) = some c.word ∧
        payload c.word = (payloads args).foldl f (payload a.word) := by
  induction args generalizing a with
  | nil => exact ⟨a, rfl, rfl⟩
  | cons b rest ih =>
    obtain ⟨c, first, folded⟩ := binary_payload (computes (payload a.word) (payload b.word))
    obtain ⟨d, later, all⟩ := ih c
    refine ⟨d, ?_, ?_⟩
    · simp only [List.map_cons, foldLeft, first]
      exact later
    · rw [all, folded]
      rfl

theorem foldLeft_eq_iff (computes : ∀ x y : BitVec 61, wordOp op x y = some (f x y)) (init : Int)
    (a : Fixnum) (rest : List Fixnum) :
    foldLeft (binary op) a.word (rest.map Fixnum.word) =
        foldLeft (binary op) (initWord init) ((a :: rest).map Fixnum.word) ↔
      (payloads rest).foldl f (payload a.word) =
        (payloads rest).foldl f (f (BitVec.ofInt 61 init) (payload a.word)) := by
  obtain ⟨c, direct, left⟩ := foldLeft_payload computes a rest
  obtain ⟨d, folded, right⟩ :=
    foldLeft_payload computes (fixnumOf init) (a :: rest)
  have start : payload (initWord init) = BitVec.ofInt 61 init := by
    rw [initWord, payload_makeFixnum, TwosComplement.setWidth_ofInt (by decide)]
  simp only [payloads, List.map_cons, List.foldl_cons, fixnumOf_word, start] at left right folded ⊢
  rw [direct, folded, ← left, ← right, Option.some_inj]
  constructor
  · intro same
    rw [same]
  · exact payload_inj

end folded

section folds
variable {w : Nat}

theorem foldl_sub (x : BitVec w) (ps : List (BitVec w)) :
    ps.foldl (fun x y => x - y) x = x - ps.sum := by
  induction ps generalizing x with
  | nil => simp
  | cons p ps ih => rw [List.foldl_cons, ih, List.sum_cons, sub_sub]

theorem getLsbD_foldl_or (x : BitVec w) (ps : List (BitVec w)) :
    (ps.foldl (fun x y => x ||| y) x).getLsbD 0 = true ↔ ∃ p ∈ x :: ps, p.getLsbD 0 = true := by
  induction ps generalizing x with
  | nil => simp
  | cons p ps ih =>
    rw [List.foldl_cons, ih]
    simp [or_assoc]

theorem foldl_or_one (p : BitVec 61) (ps : List (BitVec 61)) :
    ps.foldl (fun x y => x ||| y) p = ps.foldl (fun x y => x ||| y) (1 ||| p) ↔
      ∃ q ∈ p :: ps, q.getLsbD 0 = true := by
  have out : ps.foldl (fun x y => x ||| y) (1 ||| p) = 1 ||| ps.foldl (fun x y => x ||| y) p :=
    List.foldl_assoc
  rw [← getLsbD_foldl_or, out]
  constructor
  · intro same
    rw [same]
    simp
  · intro odd
    ext i inside
    rcases i with _ | i
    · simpa using odd
    · simp

theorem foldl_xor_one (p : BitVec 61) (ps : List (BitVec 61)) :
    ps.foldl (fun x y => x ^^^ y) p ≠ ps.foldl (fun x y => x ^^^ y) (1 ^^^ p) := by
  have out : ps.foldl (fun x y => x ^^^ y) (1 ^^^ p) = 1 ^^^ ps.foldl (fun x y => x ^^^ y) p :=
    List.foldl_assoc
  intro same
  have bit := congrArg (fun x => x.getLsbD 0) (same.trans out)
  simp at bit

theorem foldl_sub_zero (p : BitVec 61) (ps : List (BitVec 61)) :
    ps.foldl (fun x y => x - y) p = ps.foldl (fun x y => x - y) (0 - p) ↔
      p.toInt = 0 ∨ p.toInt = -2 ^ 60 := by
  rw [foldl_sub, foldl_sub, sub_left_inj]
  have low := @BitVec.le_toInt 61 p
  have high := @BitVec.toInt_lt 61 p
  rw [← BitVec.toInt_inj, zero_sub, BitVec.toInt_neg, Int.bmod_def]
  omega

end folds

theorem odd_value (a : Fixnum) : a.value % 2 = 1 ↔ (payload a.word).getLsbD 0 = true := by
  rw [Fixnum.value, value_eq, BitVec.getLsbD, Nat.testBit_zero, decide_eq_true_eq,
    BitVec.toInt_eq_toNat_cond]
  split <;> omega

theorem value_inj {a b : Fixnum} : a.word = b.word ↔ a.value = b.value := by
  constructor
  · intro same
    rw [Fixnum.value, same, Fixnum.value]
  · intro same
    rw [Fixnum.value, Fixnum.value, value_eq, value_eq] at same
    exact payload_inj (BitVec.eq_of_toInt_eq same)

section division
variable {a b : Fixnum}

theorem fixnum_eq_zero {w : Word} : fixnum w = 0 ↔ value w = 0 := by
  rw [value, ← BitVec.toInt_inj]
  rfl

theorem natAbs_bmod {n : Int} (small : n.natAbs ≤ 2 ^ 60) :
    (n.bmod (2 ^ 61)).natAbs = n.natAbs := by
  rw [Int.bmod_def]
  omega

theorem natAbs_value_le (a : Fixnum) : a.value.natAbs ≤ 2 ^ 60 := by
  have bounds := value_bounds a.word
  unfold Fixnum.value
  omega

theorem binary_div_zero (zero : b.value = 0) : binary .opDiv a.word b.word = none := by
  simp [binary, arithmeticTarget, longDiv, fixnum_eq_zero.mpr zero]

theorem binary_div (nonzero : b.value ≠ 0) : ∃ c : Fixnum,
    binary .opDiv a.word b.word = some c.word ∧
      c.value = (a.value.tdiv b.value).bmod (2 ^ 61) ∧
      c.value.natAbs = a.value.natAbs / b.value.natAbs := by
  have divisor : fixnum b.word ≠ 0 := fun zero => nonzero (fixnum_eq_zero.mp zero)
  have quotient : (makeFixnum ((fixnum a.word).sdiv (fixnum b.word)) |> value) =
      (a.value.tdiv b.value).bmod (2 ^ 61) := by
    rw [value_makeFixnum, BitVec.toInt_sdiv, Int.bmod_bmod_of_dvd (by decide)]
    rfl
  refine ⟨⟨makeFixnum _, getTag_makeFixnum _⟩, ?_, quotient, ?_⟩
  · simp only [binary, arithmeticTarget, longDiv, if_neg divisor, Option.map_some]
  · have small : (a.value.tdiv b.value).natAbs ≤ 2 ^ 60 := by
      rw [Int.natAbs_tdiv]
      exact (Nat.div_le_self _ _).trans (natAbs_value_le a)
    rw [Fixnum.value, quotient, natAbs_bmod small, Int.natAbs_tdiv]
    rfl

def magnitudes (args : List Fixnum) : Nat := (args.map fun a => a.value.natAbs).prod

theorem foldLeft_div (a : Fixnum) {args : List Fixnum} (nonzero : ∀ d ∈ args, d.value ≠ 0) :
    ∃ c : Fixnum, foldLeft (binary .opDiv) a.word (args.map Fixnum.word) = some c.word ∧
      c.value.natAbs = a.value.natAbs / magnitudes args := by
  induction args generalizing a with
  | nil => exact ⟨a, rfl, by simp [magnitudes]⟩
  | cons b rest ih =>
    obtain ⟨c, first, _, size⟩ := @binary_div a b (nonzero b (by simp))
    obtain ⟨d, later, folded⟩ := ih c fun d member => nonzero d (by simp [member])
    refine ⟨d, ?_, ?_⟩
    · simp only [List.map_cons, foldLeft, first]
      exact later
    · rw [folded, size, Nat.div_div_eq_div_mul]
      rfl

theorem div_agrees (a : Fixnum) {rest : List Fixnum} (nonzero : ∀ d ∈ rest, d.value ≠ 0) :
    foldLeft (binary .opDiv) a.word (rest.map Fixnum.word) =
        foldLeft (binary .opDiv) (initWord 1) ((a :: rest).map Fixnum.word) ↔
      a.value = 1 ∨ a.value = -1 ∨ a.value ≠ 0 ∧ a.value.natAbs < magnitudes rest := by
  have one : (fixnumOf 1).value = 1 := rfl
  obtain ⟨c, direct, size⟩ := foldLeft_div a nonzero
  by_cases zero : a.value = 0
  · have stops : binary .opDiv (initWord 1) a.word = none := @binary_div_zero (fixnumOf 1) a zero
    have none : foldLeft (binary .opDiv) (initWord 1) ((a :: rest).map Fixnum.word) = none := by
      simp only [List.map_cons, foldLeft, stops]
      rfl
    rw [direct, none]
    simp [zero]
  obtain ⟨d, first, quotient, small⟩ := @binary_div (fixnumOf 1) a zero
  rw [fixnumOf_word] at first
  rw [one] at quotient small
  have start : foldLeft (binary .opDiv) (initWord 1) ((a :: rest).map Fixnum.word) =
      foldLeft (binary .opDiv) d.word (rest.map Fixnum.word) := by
    simp only [List.map_cons, foldLeft, first]
    rfl
  rw [start]
  by_cases unit : a.value = 1 ∨ a.value = -1
  · have same : a.word = d.word := by
      rw [value_inj, quotient]
      rcases unit with one | minus
      · rw [one]
        rfl
      · rw [minus]
        rfl
    rw [same]
    rcases unit with one | minus
    · simp [one]
    · simp [minus]
  · obtain ⟨e, folded, rests⟩ := foldLeft_div d nonzero
    have vanishes : d.value.natAbs = 0 := by
      rw [small]
      exact Nat.div_eq_of_lt (by omega)
    have positive : 0 < magnitudes rest := by
      apply Nat.pos_of_ne_zero
      apply List.prod_ne_zero
      intro member
      obtain ⟨d, inside, vanishes⟩ := List.mem_map.mp member
      exact nonzero d inside (Int.natAbs_eq_zero.mp vanishes)
    have shrinks : a.value.natAbs / magnitudes rest = 0 ↔ a.value.natAbs < magnitudes rest :=
      Nat.div_eq_zero_iff_lt positive
    rw [vanishes, Nat.zero_div] at rests
    rw [direct, folded, Option.some_inj, value_inj, ← shrinks, ← size]
    omega

end division

/-- The operators that take any number of arguments. -/
inductive Operator where
  | plus
  | times
  | fxand
  | fxior
  | fxxor
  | minus
  | divide
  deriving DecidableEq, Repr

def Operator.transformer : Operator → Transformer
  | .plus => CoreArithmetic.plus
  | .times => CoreArithmetic.times
  | .fxand => CoreArithmetic.fxand
  | .fxior => CoreArithmetic.fxior
  | .fxxor => CoreArithmetic.fxxor
  | .minus => CoreArithmetic.minus
  | .divide => CoreArithmetic.divide

/-- The arguments a direct application divides by. -/
def Operator.divisors : Operator → List Int → List Int
  | .divide, [a] => [a]
  | .divide, _ :: rest => rest
  | _, _ => []

/-- The arguments from which the initial value of the procedure cannot be told. -/
def Operator.Neutral : Operator → List Int → Prop
  | .plus, _ | .times, _ | .fxand, _ => True
  | .fxior, args => ∃ a ∈ args, a % 2 = 1
  | .fxxor, _ => False
  | .minus, a :: _ :: _ => a = 0 ∨ a = -2 ^ 60
  | .divide, a :: b :: rest =>
    a = 1 ∨ a = -1 ∨ a ≠ 0 ∧ a.natAbs < ((b :: rest).map Int.natAbs).prod
  | .minus, _ | .divide, _ => True

section operators
variable {ρ : Vars} {operands : List Node} {a : Fixnum} {rest : List Fixnum} {name : Symbol}

theorem addMul_agrees (op : Op) (f : BitVec 61 → BitVec 61 → BitVec 61)
    (known : operatorToOpcode name = some op)
    (computes : ∀ x y : BitVec 61, wordOp op x y = some (f x y)) (init : Int)
    (values : Operands ρ operands (a :: rest)) :
    (addMul name init).applied ρ operands =
        (addMul name init).proc ((a :: rest).map Fixnum.word) ↔
      (payloads rest).foldl f (payload a.word) =
        (payloads rest).foldl f (f (BitVec.ofInt 61 init) (payload a.word)) := by
  rw [applied_addMul known init values, proc_addMul known, foldLeft_eq_iff computes]

theorem subDiv_single {op : Op} (known : operatorToOpcode name = some op) (init : Int)
    (values : Operands ρ operands [a]) :
    (subDiv name init).applied ρ operands = (subDiv name init).proc [a.word] := by
  have proc := proc_subDiv known init a []
  rw [List.map_singleton] at proc
  rw [applied_subDiv_single known init values, proc]
  cases result : binary op (initWord init) a.word <;> simp [foldLeft, result]

theorem minus_agrees {b : Fixnum} (values : Operands ρ operands (a :: b :: rest)) :
    minus.applied ρ operands = minus.proc ((a :: b :: rest).map Fixnum.word) ↔
      a.value = 0 ∨ a.value = -2 ^ 60 := by
  have known : operatorToOpcode "$-" = some .opSub := rfl
  unfold minus
  rw [applied_subDiv known 0 values, proc_subDiv known,
    @foldLeft_eq_iff .opSub (fun x y => x - y) (fun x y => rfl), Fixnum.value, value_eq]
  exact foldl_sub_zero _ _

theorem divide_agrees {b : Fixnum} (values : Operands ρ operands (a :: b :: rest))
    (nonzero : ∀ d ∈ b :: rest, d.value ≠ 0) :
    divide.applied ρ operands = divide.proc ((a :: b :: rest).map Fixnum.word) ↔
      a.value = 1 ∨ a.value = -1 ∨ a.value ≠ 0 ∧ a.value.natAbs < magnitudes (b :: rest) := by
  have known : operatorToOpcode "$/" = some .opDiv := rfl
  unfold divide
  rw [applied_subDiv known 1 values, proc_subDiv known]
  exact div_agrees a nonzero

/- The direct application and the procedure give the same value for exactly the neutral
   arguments: the initial values of fxior and fxxor are no identities, and a procedure of
   subtraction or division takes its first argument away from the initial value. -/
theorem applied_eq_proc_iff (operator : Operator) (args : List Fixnum) (nonempty : args ≠ [])
    (values : Operands ρ operands args)
    (nonzero : ∀ d ∈ operator.divisors (args.map Fixnum.value), d ≠ 0) :
    operator.transformer.applied ρ operands =
        operator.transformer.proc (args.map Fixnum.word) ↔
      operator.Neutral (args.map Fixnum.value) := by
  cases args with
  | nil => exact absurd rfl nonempty
  | cons a rest =>
    cases operator with
    | plus =>
      apply (addMul_agrees .opAdd (fun x y => x + y) rfl (fun _ _ => rfl) 0 values).trans
      simp [Operator.Neutral]
    | times =>
      apply (addMul_agrees .opMul (fun x y => x * y) rfl (fun _ _ => rfl) 1 values).trans
      simp [Operator.Neutral]
    | fxand =>
      apply (addMul_agrees .opBitAnd (fun x y => x &&& y) rfl (fun _ _ => rfl) (-1) values).trans
      have identity : BitVec.ofInt 61 (-1) &&& payload a.word = payload a.word :=
        BitVec.allOnes_and
      rw [identity]
      exact iff_of_true rfl trivial
    | fxior =>
      apply (addMul_agrees .opBitIor (fun x y => x ||| y) rfl (fun _ _ => rfl) 1 values).trans
      apply (foldl_or_one _ _).trans
      simp [Operator.Neutral, odd_value, payloads]
    | fxxor =>
      apply (addMul_agrees .opBitXor (fun x y => x ^^^ y) rfl (fun _ _ => rfl) 1 values).trans
      exact iff_of_false (foldl_xor_one _ _) id
    | minus =>
      cases rest with
      | nil => exact iff_of_true (subDiv_single rfl 0 values) trivial
      | cons b rest => exact minus_agrees values
    | divide =>
      cases rest with
      | nil => exact iff_of_true (subDiv_single rfl 1 values) trivial
      | cons b rest =>
        have divisors : ∀ d ∈ b :: rest, d.value ≠ 0 := fun d member =>
          nonzero d.value (List.mem_map_of_mem member)
        apply (divide_agrees values divisors).trans
        simp [Operator.Neutral, magnitudes, Function.comp_def]

end operators

theorem operands_const (ρ : Vars) (numbers : List Int) :
    Operands ρ (numbers.map fun i => .const (.num i)) (numbers.map fixnumOf) := by
  induction numbers with
  | nil => exact .nil
  | cons i numbers ih => exact .cons (valueOf_const i) ih

theorem divide_seven : divide.applied (fun _ => none) [.const (.num 7), .const (.num 2),
      .const (.num 5)] = divide.proc [initWord 7, initWord 2, initWord 5] ↔
    Operator.divide.Neutral [7, 2, 5] :=
  applied_eq_proc_iff .divide ([7, 2, 5].map fixnumOf) (by simp) (operands_const _ [7, 2, 5])
    (by decide)

/- (- 5 3) is 2 when it is expanded, and -8 when - is a procedure. -/
theorem minus_five_three :
    minus.applied (fun _ => none) [.const (.num 5), .const (.num 3)] = some (initWord 2) ∧
      minus.proc [initWord 5, initWord 3] = some (initWord (-8)) ∧
      some (initWord 2) ≠ some (initWord (-8)) := by
  refine ⟨?_, by decide, by decide⟩
  simp only [Transformer.applied, minus, subDiv, subDivDirect, Option.bind_some]
  decide

/-- The comparisons that take any number of arguments. -/
inductive Comparison where
  | lessThan
  | greaterThan
  | equals
  deriving DecidableEq, Repr

def Comparison.transformer : Comparison → Transformer
  | .lessThan => CoreArithmetic.lessThan
  | .greaterThan => CoreArithmetic.greaterThan
  | .equals => CoreArithmetic.equals

def Comparison.relation : Comparison → Int → Int → Prop
  | .lessThan => fun m n => m < n
  | .greaterThan => fun m n => m > n
  | .equals => fun m n => m = n

instance (c : Comparison) : DecidableRel c.relation := fun m n => by
  cases c <;> unfold Comparison.relation <;> infer_instance

/-- The first number is related to the second, the third to the fourth, and so on. -/
structure Links (r : Int → Int → Prop) (numbers : List Int) : Prop where
  link : ∀ i, (inside : 2 * i + 1 < numbers.length) → r numbers[2 * i] numbers[2 * i + 1]

section links
variable {r : Int → Int → Prop}

theorem links_short {numbers : List Int} (short : numbers.length < 2) : Links r numbers :=
  ⟨fun i inside => by omega⟩

theorem links_cons_cons {m n : Int} {numbers : List Int} :
    Links r (m :: n :: numbers) ↔ r m n ∧ Links r numbers := by
  constructor
  · intro links
    constructor
    · exact links.link 0 (by simp)
    · constructor
      intro i inside
      exact links.link (i + 1) (by simp; omega)
  · intro both
    constructor
    intro i inside
    cases i with
    | zero => exact both.1
    | succ i =>
      simp only [List.length_cons] at inside
      exact both.2.link i (by omega)

theorem isChain_iff_links (m : Int) (numbers : List Int) :
    List.IsChain r (m :: numbers) ↔ Links r (m :: numbers) ∧ Links r numbers := by
  induction numbers generalizing m with
  | nil => simp [links_short]
  | cons n numbers ih =>
    rw [List.isChain_cons_cons, ih, links_cons_cons, and_assoc,
      and_comm (a := Links r (n :: numbers))]

end links

section compared
variable {ρ : Vars} {name : Symbol} {op : Op} {r : Int → Int → Prop} [DecidableRel r]

/-- The instruction compares the numbers of its operands. -/
structure Compares (op : Op) (r : Int → Int → Prop) [DecidableRel r] : Prop where
  binary : ∀ a b : Fixnum, binary op a.word b.word = some (cif (decide (r a.value b.value)))

theorem valueOf_and {test rest : Node} {b c : Bool} (first : valueOf ρ test = some (cif b))
    (second : valueOf ρ rest = some (cif c)) :
    valueOf ρ (andForm [test, rest]) = some (cif (b && c)) := by
  have no : valueOf ρ (.const (.bool false)) = some (cif false) := by rw [valueOf]
  have yes : cif true ≠ cfalse := by decide
  have falsity : cif false = cfalse := rfl
  simp only [andForm, valueOf, first, Option.bind_eq_bind, Option.bind_some]
  cases b
  · rw [if_pos falsity, Bool.false_and]
  · rw [if_neg yes, second, Bool.true_and]

theorem applied_cmp (known : operatorToOpcode name = some op) (compares : Compares op r)
    {operands : List Node} {args : List Fixnum} (nonempty : args ≠ [])
    (values : Operands ρ operands args) :
    ∃ b, (cmpOp name).applied ρ operands = some (cif b) ∧
      (b = true ↔ Links r (args.map Fixnum.value)) := by
  have one : valueOf ρ (.const (.bool true)) = some (cif true) := by rw [valueOf]
  induction operands using cmpDirect.induct generalizing args with
  | case1 => cases values with
    | nil => exact absurd rfl nonempty
  | case2 x => cases values with
    | cons first none => cases none with
      | nil => exact ⟨true, one, iff_of_true rfl (links_short (by simp))⟩
  | case3 x y => cases values with
    | @cons _ v _ _ first rest => cases rest with
      | @cons _ w _ _ second none => cases none with
        | nil =>
          refine ⟨decide (r v.value w.value), ?_, ?_⟩
          · simp only [cmpOp, Transformer.applied, cmpDirect, Option.bind_some]
            rw [valueOf_app known second, first, Option.bind_some, compares.binary]
          · rw [decide_eq_true_iff, List.map_cons, List.map_cons, links_cons_cons]
            exact (and_iff_left (links_short (by simp))).symm
  | case4 x y rest more ih => cases values with
    | @cons _ v _ _ first values => cases values with
      | @cons _ w _ args second values =>
        have remains : args ≠ [] := by
          intro none
          subst none
          cases values
          exact more rfl
        obtain ⟨b, applied, links⟩ := ih remains values
        obtain ⟨expansion, expanded, value⟩ := Option.bind_eq_some_iff.mp applied
        refine ⟨decide (r v.value w.value) && b, ?_, ?_⟩
        · have direct : cmpDirect name rest = some expansion := expanded
          simp only [cmpOp, Transformer.applied, cmpDirect, direct, Option.map_some,
            Option.bind_some]
          apply valueOf_and _ value
          rw [valueOf_app known second, first, Option.bind_some, compares.binary]
        · rw [Bool.and_eq_true, decide_eq_true_iff, links, List.map_cons, List.map_cons,
            links_cons_cons]

theorem proc_cmp (known : operatorToOpcode name = some op) (compares : Compares op r)
    (a : Fixnum) (rest : List Fixnum) :
    ∃ b, (cmpOp name).proc ((a :: rest).map Fixnum.word) = some (cif b) ∧
      (b = true ↔ List.IsChain r ((a :: rest).map Fixnum.value)) := by
  simp only [cmpOp, List.map_cons, cmpProc, opProc_eq known]
  induction rest generalizing a with
  | nil => exact ⟨true, rfl, by simp⟩
  | cons b rest ih =>
    obtain ⟨c, looped, chained⟩ := ih b
    have test := compares.binary a b
    rw [List.map_cons, cmpLoop, test, List.map_cons, List.isChain_cons_cons]
    by_cases related : r a.value b.value
    · refine ⟨c, ?_, by simpa [related] using chained⟩
      simp only [related, decide_true]
      exact looped
    · refine ⟨false, ?_, by simp [related]⟩
      simp only [related, decide_false]
      rfl

end compared

theorem Comparison.compares (c : Comparison) : ∃ name op,
    c.transformer = cmpOp name ∧ operatorToOpcode name = some op ∧ Compares op c.relation := by
  cases c with
  | lessThan => exact ⟨"$<", .opLt, rfl, rfl, ⟨fun a b => binary_lt a.word b.word⟩⟩
  | greaterThan => exact ⟨"$>", .opGt, rfl, rfl, ⟨fun a b => binary_gt a.word b.word⟩⟩
  | equals => exact ⟨"$=", .opEq, rfl, rfl, ⟨fun a b => binary_eq a.word b.word⟩⟩

/- An application, and the procedure, of a comparison are true for exactly the chains, and
   agree, if and only if the pairs the application leaves out follow from those it checks. -/
theorem compared_pairwise_iff (c : Comparison) {ρ : Vars} {operands : List Node}
    {args : List Fixnum} (two : 2 ≤ args.length) (values : Operands ρ operands args) :
    ((c.transformer.applied ρ operands = some ctrue ↔
        List.IsChain c.relation (args.map Fixnum.value)) ∧
      (c.transformer.proc (args.map Fixnum.word) = some ctrue ↔
        List.IsChain c.relation (args.map Fixnum.value)) ∧
      c.transformer.applied ρ operands = c.transformer.proc (args.map Fixnum.word)) ↔
      (Links c.relation (args.map Fixnum.value) →
        Links c.relation (args.map Fixnum.value).tail) := by
  obtain ⟨name, op, transformer, known, compares⟩ := c.compares
  cases args with
  | nil => simp at two
  | cons a rest =>
    obtain ⟨b, applied, links⟩ := applied_cmp known compares (by simp) values
    obtain ⟨d, proc, chain⟩ := proc_cmp known compares a rest
    rw [transformer, applied, proc, Option.some_inj, Option.some_inj, Option.some_inj, cif_eq_true,
      cif_eq_true, ← chain]
    rw [List.map_cons, isChain_iff_links] at chain
    rw [List.map_cons] at links
    rw [List.map_cons, List.tail_cons, ← links]
    have injective : cif b = cif d ↔ (b = true ↔ d = true) := by
      cases b <;> cases d <;> decide
    rw [injective]
    rw [← links] at chain
    tauto

theorem less_chain : (lessThan.applied (fun _ => none) [.const (.num 1), .const (.num 2),
      .const (.num 3)] = some ctrue ↔ List.IsChain Comparison.lessThan.relation [1, 2, 3]) ∧
    (lessThan.proc [initWord 1, initWord 2, initWord 3] = some ctrue ↔
      List.IsChain Comparison.lessThan.relation [1, 2, 3]) ∧
    lessThan.applied (fun _ => none) [.const (.num 1), .const (.num 2), .const (.num 3)] =
      lessThan.proc [initWord 1, initWord 2, initWord 3] :=
  (compared_pairwise_iff .lessThan (by decide) (operands_const _ [1, 2, 3])).mpr fun _ =>
    ⟨fun i inside => by
      have zero : i = 0 := by
        have small : 2 * i + 1 < 2 := inside
        omega
      have less : Comparison.lessThan.relation 2 3 := by decide
      subst zero
      exact less⟩

/- (< 1 3 2) compares 1 with 3 only. -/
theorem less_one_three_two :
    lessThan.applied (fun _ => none) [.const (.num 1), .const (.num 3), .const (.num 2)] =
        some ctrue ∧
      ¬List.IsChain Comparison.lessThan.relation [1, 3, 2] ∧
      lessThan.proc [initWord 1, initWord 3, initWord 2] = some cfalse := by
  refine ⟨by decide, ?_, by decide⟩
  simp [Comparison.relation]

end LGears.CoreArithmetic
