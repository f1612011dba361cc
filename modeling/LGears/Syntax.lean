import Mathlib.Data.List.Basic
import Mathlib.Tactic.Common

/- Core and CPS programs. The expander hands lists headed by a keyword to the
   later passes; every such form is a constructor here, and a list headed by
   anything else is an application. Source positions and debug texts are absent. -/
namespace LGears

abbrev Symbol := String

/-- Literal data. Numbers are exact integers; their machine width is the VM's concern. -/
inductive Datum where
  | null
  | bool (b : Bool)
  | char (c : Char)
  | num (i : Int)
  | str (s : String)
  | sym (s : Symbol)
  | pair (a d : Datum)
  | vec (xs : List Datum)
  deriving Repr, Inhabited

mutual
def Datum.beq : Datum → Datum → Bool
  | .null, .null => true
  | .bool a, .bool b => a == b
  | .char a, .char b => a == b
  | .num a, .num b => a == b
  | .str a, .str b => a == b
  | .sym a, .sym b => a == b
  | .pair a d, .pair b e => a.beq b && d.beq e
  | .vec xs, .vec ys => Datum.beqAll xs ys
  | _, _ => false
def Datum.beqAll : List Datum → List Datum → Bool
  | [], [] => true
  | x :: xs, y :: ys => x.beq y && Datum.beqAll xs ys
  | _, _ => false
end

mutual
theorem Datum.beq_iff : ∀ a b : Datum, a.beq b = true ↔ a = b
  | .pair a d, b => by
    cases b <;> simp [Datum.beq, Datum.beq_iff a, Datum.beq_iff d]
  | .vec xs, b => by
    cases b <;> simp [Datum.beq, Datum.beqAll_iff xs]
  | .null, b | .bool _, b | .char _, b | .num _, b | .str _, b | .sym _, b => by
    cases b <;> simp [Datum.beq]
theorem Datum.beqAll_iff : ∀ xs ys : List Datum, Datum.beqAll xs ys = true ↔ xs = ys
  | [], ys => by cases ys <;> simp [Datum.beqAll]
  | x :: xs, ys => by
    cases ys <;> simp [Datum.beqAll, Datum.beq_iff x, Datum.beqAll_iff xs]
end

instance : DecidableEq Datum := fun a b => decidable_of_iff _ (Datum.beq_iff a b)

/-- A parameter list: the fixed parameters and, for a dotted or symbol list, the rest one. -/
structure Formals where
  fixed : List Symbol
  rest : Option Symbol
  deriving DecidableEq, Repr

def Formals.names (args : Formals) : List Symbol := args.fixed ++ args.rest.toList

inductive Node where
  | const (d : Datum)
  | sym (s : Symbol)
  | quote (d : Datum)
  | lambda (args : Formals) (body : List Node)
  | ite (pred conseq alt : Node)
  | set (name : Symbol) (value : Node)
  | define (name : Symbol) (value : Node)
  | begin (forms : List Node)
  | extend (names : List Symbol)
  | app (func : Node) (args : List Node)
  deriving Repr, Inhabited

/- Induction with one hypothesis for every member of a node list. -/
@[elab_as_elim, induction_eliminator]
theorem Node.induct {P : Node → Prop}
    (const : ∀ d, P (.const d)) (sym : ∀ s, P (.sym s)) (quote : ∀ d, P (.quote d))
    (lambda : ∀ args body, (∀ x ∈ body, P x) → P (.lambda args body))
    (ite : ∀ p a b, P p → P a → P b → P (.ite p a b))
    (set : ∀ x v, P v → P (.set x v)) (define : ∀ x v, P v → P (.define x v))
    (begin : ∀ forms, (∀ x ∈ forms, P x) → P (.begin forms))
    (extend : ∀ names, P (.extend names))
    (app : ∀ f args, P f → (∀ x ∈ args, P x) → P (.app f args)) (n : Node) : P n := by
  let rec go : ∀ n, P n
    | .const d => const d
    | .sym s => sym s
    | .quote d => quote d
    | .lambda args body => lambda args body fun x _ => go x
    | .ite p a b => ite p a b (go p) (go a) (go b)
    | .set x v => set x v (go v)
    | .define x v => define x v (go v)
    | .begin forms => begin forms fun x _ => go x
    | .extend names => extend names
    | .app f args => app f args (go f) fun x _ => go x
  exact go n

/- Every variable and every word of a node, bound or not. -/
mutual
def Node.syms : Node → List Symbol
  | .const _ | .quote _ => []
  | .sym s => [s]
  | .lambda args body => args.names ++ Node.symsAll body
  | .ite pred conseq alt => pred.syms ++ conseq.syms ++ alt.syms
  | .set x value | .define x value => x :: value.syms
  | .begin forms => Node.symsAll forms
  | .extend names => names
  | .app f args => f.syms ++ Node.symsAll args
def Node.symsAll : List Node → List Symbol
  | [] => []
  | x :: xs => x.syms ++ Node.symsAll xs
end

example (d : Datum) : (Node.app (.sym "car") [.quote d, .sym "x"]).syms = ["car", "x"] := by
  simp [Node.syms, Node.symsAll]

theorem Node.mem_symsAll {y : Symbol} {xs : List Node} :
    y ∈ Node.symsAll xs ↔ ∃ x ∈ xs, y ∈ x.syms := by
  induction xs with
  | nil => simp [Node.symsAll]
  | cons x xs ih => simp [Node.symsAll, ih]

/-- Every symbol of the node satisfies S. -/
def Node.Over (S : Symbol → Prop) (n : Node) : Prop := ∀ y ∈ n.syms, S y

section wellNamed
variable {S : Symbol → Prop}

theorem forall_symsAll {xs : List Node} :
    (∀ y ∈ Node.symsAll xs, S y) ↔ ∀ x ∈ xs, x.Over S := by
  simp only [Node.mem_symsAll, Node.Over]
  exact ⟨fun h x hx y hy => h y ⟨x, hx, hy⟩, fun h y ⟨x, hx, hy⟩ => h x hx y hy⟩

@[simp] theorem over_const {d : Datum} : (Node.const d).Over S := by simp [Node.Over, Node.syms]

@[simp] theorem over_quote {d : Datum} : (Node.quote d).Over S := by simp [Node.Over, Node.syms]

@[simp] theorem over_sym {s : Symbol} : (Node.sym s).Over S ↔ S s := by
  simp [Node.Over, Node.syms]

@[simp] theorem over_lambda {args : Formals} {body : List Node} :
    (Node.lambda args body).Over S ↔ (∀ y ∈ args.names, S y) ∧ ∀ x ∈ body, x.Over S := by
  rw [← forall_symsAll]
  simp only [Node.Over, Node.syms, List.mem_append, or_imp, forall_and]

@[simp] theorem over_ite {p a b : Node} :
    (Node.ite p a b).Over S ↔ p.Over S ∧ a.Over S ∧ b.Over S := by
  simp only [Node.Over, Node.syms, List.mem_append, or_imp, forall_and, and_assoc]

@[simp] theorem over_set {x : Symbol} {v : Node} :
    (Node.set x v).Over S ↔ S x ∧ v.Over S := by
  simp [Node.Over, Node.syms]

@[simp] theorem over_define {x : Symbol} {v : Node} :
    (Node.define x v).Over S ↔ S x ∧ v.Over S := by
  simp [Node.Over, Node.syms]

@[simp] theorem over_begin {forms : List Node} :
    (Node.begin forms).Over S ↔ ∀ x ∈ forms, x.Over S := forall_symsAll

@[simp] theorem over_app {f : Node} {args : List Node} :
    (Node.app f args).Over S ↔ f.Over S ∧ ∀ x ∈ args, x.Over S := by
  rw [← forall_symsAll]
  simp only [Node.Over, Node.syms, List.mem_append, or_imp, forall_and]

end wellNamed

theorem sizeOf_filter_le (p : Node → Bool) (xs : List Node) :
    sizeOf (xs.filter p) ≤ sizeOf xs := by
  induction xs with
  | nil => simp
  | cons x xs ih =>
    simp only [List.filter_cons]
    split <;> simp only [List.cons.sizeOf_spec] <;> omega

end LGears
