import LGears.GenName

/- Operators the code generator opens up into instructions, and the builtin
   functions with their two flags. -/
namespace LGears.PrimitivesInfo

def primitivesOperators : List Symbol :=
  ["$cons", "$car", "$cdr", "$-", "$+", "$*", "$/", "$%", "$<", "$>", "$=", "$!", "$eq?",
    "$type-test", "$and", "$ior", "$xor", "$not"]

/-- A row of the table of builtin functions: name, side-effect?, change-cont?. -/
structure Builtin where
  name : Symbol
  sideEffect : Bool
  changeCont : Bool
  deriving DecidableEq, Repr

def primitivesBuiltin : List Builtin :=
  [⟨"display", true, false⟩, ⟨"__exit", true, false⟩, ⟨"call/cc", true, true⟩,
    ⟨"apply", false, true⟩, ⟨"list", false, false⟩, ⟨"$make-list", false, false⟩,
    ⟨"length", false, false⟩, ⟨"void", false, false⟩, ⟨"eof-object", false, false⟩,
    ⟨"char->integer", false, false⟩, ⟨"integer->char", false, false⟩,
    ⟨"make-struct", false, false⟩, ⟨"alloc-struct", false, false⟩,
    ⟨"struct-size", false, false⟩, ⟨"struct-ref", false, false⟩, ⟨"struct-set!", true, false⟩,
    ⟨"struct-type", false, false⟩, ⟨"struct->list", false, false⟩,
    ⟨"symbol->string", false, false⟩, ⟨"string-ref", false, false⟩,
    ⟨"string-set!", true, false⟩, ⟨"string-length", false, false⟩, ⟨"string?", false, false⟩,
    ⟨"string=?", false, false⟩, ⟨"string-concat", false, false⟩, ⟨"substring", false, false⟩,
    ⟨"string-copy", false, false⟩, ⟨"string-copy!", true, false⟩, ⟨"make-string", false, false⟩,
    ⟨"make-bytevector", false, false⟩, ⟨"bytevector-u8-set!", true, false⟩,
    ⟨"load-library", true, true⟩, ⟨"library-cache", true, false⟩,
    ⟨"exception-handlers", true, false⟩]

/-- (assq name primitives-builtin) -/
def lookupBuiltin (name : Symbol) : Option Builtin :=
  primitivesBuiltin.find? fun b => b.name == name

def builtinNames : List Symbol := primitivesBuiltin.map Builtin.name

/-- The test `operation?` makes on the head of a list. -/
def isOperator : Node → Bool
  | .sym s => primitivesOperators.contains s
  | _ => false

/-- In ($type-test type x) only x is an operand. -/
def isTypeTest : Node → Bool
  | .sym s => s == "$type-test"
  | _ => false

/-- The head of a call of a builtin function by its name. -/
def isBuiltinCall : Node → Bool
  | .sym s => s == "builtin-call"
  | _ => false

theorem not_operator_builtin {f : Node} (builtin : isBuiltinCall f = true) :
    ¬ isOperator f = true := by
  cases f with
  | sym s =>
    rw [isBuiltinCall, beq_iff_eq] at builtin
    subst builtin
    decide
  | _ => cases builtin

/-- The names that no variable of a program has: those of the builtins and that of the form that
    calls one. -/
def reserved : List Symbol := "builtin-call" :: builtinNames

/-- The words that head a special form. -/
def keywords : List Symbol :=
  ["lambda", "if", "quote", "set!", "define", "begin", "extend", "builtin-call"]

theorem varName_not_operator (n : Nat) : GenName.varName n ∉ primitivesOperators := by
  intro mem
  have plain : ∀ s ∈ primitivesOperators, s.toList.take 5 ≠ "_var.".toList := by decide
  exact GenName.varName_ne (plain _ mem) n rfl

theorem varName_not_builtin (n : Nat) : GenName.varName n ∉ builtinNames := by
  intro mem
  have plain : ∀ s ∈ builtinNames, s.toList.take 5 ≠ "_var.".toList := by decide
  exact GenName.varName_ne (plain _ mem) n rfl

end LGears.PrimitivesInfo
