import LGears.Syntax

/- The instructions of the virtual machine, as the code generator writes them. -/
namespace LGears.Opcode

inductive Op where
  | loadFunc
  | loadClosure
  | loadLocal
  | loadBind
  | loadConst
  | pushBool
  | pushNull
  | jumpIfFalse
  | jumpForward
  | funcCall
  | setLocal
  | setBind
  | opCons
  | opCar
  | opCdr
  | opSub
  | opAdd
  | opMul
  | opDiv
  | opMod
  | opBitAnd
  | opBitIor
  | opBitXor
  | opBitNot
  | opLt
  | opGt
  | opEq
  | opEqPtr
  | opNot
  | opTypeTest
  deriving DecidableEq, Repr

def oplist : List Op :=
  [.loadFunc, .loadClosure, .loadLocal, .loadBind, .loadConst, .pushBool, .pushNull,
    .jumpIfFalse, .jumpForward, .funcCall, .setLocal, .setBind, .opCons, .opCar, .opCdr, .opSub,
    .opAdd, .opMul, .opDiv, .opMod, .opBitAnd, .opBitIor, .opBitXor, .opBitNot, .opLt, .opGt,
    .opEq, .opEqPtr, .opNot, .opTypeTest]

/-- (opcode x), the place of x in the table. -/
def opcode (x : Op) : Nat := oplist.idxOf x

/-- An instruction and its 16-bit operand. The operands that the compiler makes are counts, indexes
    and distances forward, so none is negative. -/
structure Instr where
  op : Op
  arg : Nat
  deriving DecidableEq, Repr

def typeTests : List Symbol :=
  ["TT_FIXNUM", "TT_NULL", "TT_LIST", "TT_PAIR", "TT_PROCEDURE", "TT_BOOLEAN", "TT_CHAR",
    "TT_SYMBOL", "TT_STRUCT", "TT_STRING", "TT_BYTEVECTOR", "TT_EOF"]

/-- (type-test x), the place of x in the table. -/
def typeTest (x : Symbol) : Option Nat := typeTests.findIdx? (· == x)

def operatorToOpcode (op : Symbol) : Option Op :=
  match op with
  | "$cons" => some .opCons
  | "$car" => some .opCar
  | "$cdr" => some .opCdr
  | "$-" => some .opSub
  | "$+" => some .opAdd
  | "$*" => some .opMul
  | "$/" => some .opDiv
  | "$%" => some .opMod
  | "$and" => some .opBitAnd
  | "$ior" => some .opBitIor
  | "$xor" => some .opBitXor
  | "$not" => some .opBitNot
  | "$<" => some .opLt
  | "$>" => some .opGt
  | "$=" => some .opEq
  | "$eq?" => some .opEqPtr
  | "$!" => some .opNot
  | "$type-test" => some .opTypeTest
  | _ => none

theorem typeTest_isSome {x : Symbol} : (typeTest x).isSome ↔ x ∈ typeTests := by
  simp [typeTest, List.findIdx?_isSome]

end LGears.Opcode
