import LGears.Library.Paths
import LGears.CodeEmitted
import LGears.CpsGrammar

/- The flow of control through a compiled function, and the depth of its operands. -/
namespace LGears.CodeFlow
open PrimitivesInfo Opcode StateExcept Compiler CodeTables CpsGrammar Paths Relation

/-- The operands an instruction takes from the stack. -/
def pops (instr : Instr) : Nat :=
  match instr.op with
  | .loadFunc | .loadClosure | .loadLocal | .loadBind | .loadConst | .pushBool | .pushNull => 0
  | .jumpForward => 0
  | .jumpIfFalse | .setLocal | .setBind => 1
  | .opCar | .opCdr | .opNot | .opBitNot | .opTypeTest => 1
  | .opCons | .opSub | .opAdd | .opMul | .opDiv | .opMod | .opBitAnd | .opBitIor | .opBitXor
  | .opLt | .opGt | .opEq | .opEqPtr => 2
  | .funcCall => instr.arg + 1

/-- The objects an instruction pushes on the stack. -/
def pushes (instr : Instr) : Nat :=
  match instr.op with
  | .jumpForward | .jumpIfFalse | .setLocal | .setBind | .funcCall => 0
  | _ => 1

/-- Where control goes from the instruction at i; a call leaves the function. -/
def successors (instr : Instr) (i : Nat) : List Nat :=
  match instr.op with
  | .jumpIfFalse => [i + 1, i + 1 + instr.arg]
  | .jumpForward => [i + 1 + instr.arg]
  | .funcCall => []
  | _ => [i + 1]

/-- A step from a position and a depth of operands to the next ones. -/
def Next (code : List Instr) (s t : Nat × Nat) : Prop :=
  ∃ instr, code[s.1]? = some instr ∧ t.1 ∈ successors instr s.1 ∧
    t.2 = s.2 - pops instr + pushes instr

/-- Control comes from the entry of the function to i with d operands on the stack. -/
def Reaches (code : List Instr) (i d : Nat) : Prop := ReflTransGen (Next code) (0, 0) (i, d)

/-- The depth in front of instruction i when the code is read from its start; behind a call
    or a jump forward another clause begins. -/
def depthAfter (d : Nat) (instr : Instr) : Nat :=
  match instr.op with
  | .funcCall | .jumpForward => 0
  | _ => d - pops instr + pushes instr

def depthAt (code : List Instr) (i : Nat) : Nat := (code.take i).foldl depthAfter 0

/- The conditionals of a node in tail position. -/
def conditionals : Node → List Node
  | .ite pred conseq alt => .ite pred conseq alt :: (conditionals conseq ++ conditionals alt)
  | _ => []

/-- A jump at i is that of a conditional, and lands on the first instruction of its second
    clause; the jump behind a first clause is not reached. -/
def Lands (T : Tables) (f : IFunc) (l : Lambda) (i : Nat) (instr : Instr) : Prop :=
  match instr.op with
  | .jumpIfFalse => ∃ pred conseq alt, .ite pred conseq alt ∈ l.body.flatMap conditionals ∧
      ∃ h j k, CodeOf T f (l.frame :: l.scope) pred h i ∧
        CodeOf T f (l.frame :: l.scope) conseq (i + 1) j ∧
        CodeOf T f (l.frame :: l.scope) alt (i + 1 + instr.arg) k
  | .jumpForward => False
  | _ => True

/-- The operand of the instruction is inside the table it refers to. -/
def Inside (ilr : Ilr) (f : IFunc) (instr : Instr) : Prop :=
  match instr.op with
  | .loadConst => instr.arg < ilr.consts.length
  | .loadFunc | .loadClosure => instr.arg < ilr.code.length
  | .loadLocal | .setLocal => instr.arg < f.size
  | .loadBind | .setBind => instr.arg < f.bindings.length
  | _ => True

/-- The function of the lambda expression l is well formed and stack safe. -/
structure WellFormed (ilr : Ilr) (ls : List Lambda) (l : Lambda) (f : IFunc) : Prop where
  func : FuncOf ⟨ilr.consts, ls⟩ l f
  inside : ∀ (i : Nat) instr, f.code[i]? = some instr → Inside ilr f instr
  ends : ∀ i d, Reaches f.code i d → i < f.code.length
  operands : ∀ i d instr, Reaches f.code i d → f.code[i]? = some instr → pops instr ≤ d
  single : ∀ i d e, Reaches f.code i d → Reaches f.code i e → d = e
  lands : ∀ i d instr, Reaches f.code i d → f.code[i]? = some instr →
    Lands ⟨ilr.consts, ls⟩ f l i instr

section flow
variable {T : Tables} {f : IFunc} {scope : List (List Symbol)} {lands : Nat → Instr → Prop}
  {i j m d e : Nat} {instr : Instr}

/-- The state is that of the scan, and the instruction finds its operands. -/
structure Fine (code : List Instr) (lands : Nat → Instr → Prop) (s : Nat × Nat) : Prop where
  depth : s.2 = depthAt code s.1
  fits : ∃ instr, code[s.1]? = some instr ∧ pops instr ≤ s.2 ∧ lands s.1 instr

theorem depthAt_succ {code : List Instr} (here : code[i]? = some instr) :
    depthAt code (i + 1) = depthAfter (depthAt code i) instr := by
  unfold depthAt
  rw [List.take_add_one, here, Option.toList_some, List.foldl_append]
  rfl

/-- From i on, with d operands, the code comes to j with e operands. -/
structure Advances (f : IFunc) (lands : Nat → Instr → Prop) (i d j e : Nat) : Prop where
  leads : Leads (Next f.code) (Fine f.code lands) (i, d) (· = (j, e))
  depth : depthAt f.code j = e

/-- From i on, with d operands, the code ends in calls before it comes to j. -/
structure Finishes (f : IFunc) (lands : Nat → Instr → Prop) (i d j : Nat) : Prop where
  leads : Leads (Next f.code) (Fine f.code lands) (i, d) fun _ => False
  depth : depthAt f.code j = 0

theorem Advances.refl (depth : depthAt f.code i = d) : Advances f lands i d i d :=
  ⟨Leads.exit rfl, depth⟩

theorem Advances.trans (first : Advances f lands i d m e) {k : Nat}
    (second : depthAt f.code m = e → Advances f lands m e j k) : Advances f lands i d j k := by
  have rest := second first.depth
  constructor
  · apply first.leads.trans
    intro s here
    rw [here]
    exact rest.leads
  · exact rest.depth

theorem Advances.finish (first : Advances f lands i d m e)
    (second : depthAt f.code m = e → Finishes f lands m e j) : Finishes f lands i d j := by
  have rest := second first.depth
  constructor
  · apply first.leads.trans
    intro s here
    rw [here]
    exact rest.leads
  · exact rest.depth

/-- An instruction that neither jumps nor calls. -/
def straight (op : Op) : Bool :=
  match op with
  | .jumpIfFalse | .jumpForward | .funcCall => false
  | _ => true

theorem straight_next (plain : straight instr.op = true) :
    successors instr i = [i + 1] ∧ depthAfter d instr = d - pops instr + pushes instr := by
  unfold successors depthAfter
  unfold straight at plain
  cases op : instr.op <;> simp [op] at plain ⊢

theorem advances_one (here : f.code[i]? = some instr) (plain : straight instr.op = true)
    (free : lands i instr) (depth : depthAt f.code i = d) (enough : pops instr ≤ d) :
    Advances f lands i d (i + 1) (d - pops instr + pushes instr) := by
  obtain ⟨next, after⟩ := straight_next (i := i) (d := d) plain
  constructor
  · apply Leads.step
    · exact ⟨depth.symm, instr, here, enough, free⟩
    · intro t step
      obtain ⟨instr', same, target, changed⟩ := step
      obtain rfl := Option.some.inj (here.symm.trans same)
      rw [next, List.mem_singleton] at target
      exact Leads.exit (Prod.ext target changed)
  · rw [depthAt_succ here, depth, after]

theorem operation_effect {g : Node} (operator : isOperator g = true)
    (found : operatorToOpcode (symName g) = some instr.op) : straight instr.op = true ∧
      pops instr = (if isTypeTest g then 1 else operandCount (symName g)) ∧ pushes instr = 1 := by
  have table : ∀ s ∈ primitivesOperators, ∀ op ∈ operatorToOpcode s, ∀ n : Nat,
      straight op = true ∧
        pops ⟨op, n⟩ = (if s == "$type-test" then 1 else operandCount s) ∧ pushes ⟨op, n⟩ = 1 := by
    intro s member op found
    simp only [primitivesOperators, List.mem_cons, List.not_mem_nil, or_false] at member
    rcases member with rfl | rfl | rfl | rfl | rfl | rfl | rfl | rfl | rfl | rfl | rfl | rfl |
      rfl | rfl | rfl | rfl | rfl | rfl <;> cases found <;> exact fun n => ⟨rfl, rfl, rfl⟩
  cases g with
  | sym s =>
    simp only [isOperator, List.contains_eq_mem, decide_eq_true_eq] at operator
    exact table s operator instr.op found instr.arg
  | _ => simp [isOperator] at operator

theorem literal_effect {d : Datum} (literal : LiteralInstr T d instr) :
    straight instr.op = true ∧ pops instr = 0 ∧ pushes instr = 1 := by
  cases d with
  | bool b =>
    rw [show instr = ⟨.pushBool, if b then 1 else 0⟩ from literal]
    exact ⟨rfl, rfl, rfl⟩
  | _ =>
    obtain ⟨_, k, rfl, _⟩ := literal
    exact ⟨rfl, rfl, rfl⟩

theorem quote_effect {d : Datum} (quoted : QuoteInstr T d instr) :
    straight instr.op = true ∧ pops instr = 0 ∧ pushes instr = 1 := by
  unfold QuoteInstr at quoted
  split at quoted
  · rw [quoted]
    exact ⟨rfl, rfl, rfl⟩
  · obtain ⟨k, rfl, _⟩ := quoted
    exact ⟨rfl, rfl, rfl⟩

theorem load_effect (slot : Slot) : straight (loadInstr slot).op = true ∧
    pops (loadInstr slot) = 0 ∧ pushes (loadInstr slot) = 1 := by
  cases slot <;> exact ⟨rfl, rfl, rfl⟩

theorem lambda_effect {l : Lambda} (lambda : LambdaInstr T l instr) :
    straight instr.op = true ∧ pops instr = 0 ∧ pushes instr = 1 := by
  obtain ⟨op, arg⟩ := instr
  obtain ⟨rfl | rfl, _⟩ := lambda <;> exact ⟨rfl, rfl, rfl⟩

theorem store_effect {slot : Slot} (store : StoreInstr slot instr) :
    straight instr.op = true ∧ pops instr = 1 ∧ pushes instr = 0 := by
  cases slot with
  | inStatic k => exact store.elim
  | inLocal k =>
    rw [show instr = ⟨.setLocal, k⟩ from store]
    exact ⟨rfl, rfl, rfl⟩
  | inBind k =>
    rw [show instr = ⟨.setBind, k⟩ from store]
    exact ⟨rfl, rfl, rfl⟩

/-- Only jumps have to land somewhere. -/
def Free (lands : Nat → Instr → Prop) : Prop :=
  ∀ i instr, instr.op ≠ .jumpIfFalse → instr.op ≠ .jumpForward → lands i instr

theorem Free.straight (free : Free lands) (plain : straight instr.op = true) : lands i instr := by
  apply free
  · intro jump
    rw [jump] at plain
    cases plain
  · intro jump
    rw [jump] at plain
    cases plain

theorem advances_push (free : Free lands) {p : Instr → Prop} (one : One f p i j)
    (effect : ∀ instr, p instr → straight instr.op = true ∧ pops instr = 0 ∧ pushes instr = 1)
    (depth : depthAt f.code i = d) : Advances f lands i d j (d + 1) := by
  obtain ⟨instr, here, right, rfl⟩ := one
  obtain ⟨plain, takes, gives⟩ := effect instr right
  have advances := advances_one here plain (free.straight plain) depth (by omega)
  rwa [takes, gives] at advances

theorem advances_all {xs : List Node} (each : ∀ x ∈ xs, ∀ i j d, CodeOf T f scope x i j →
      depthAt f.code i = d → Advances f lands i d j (d + 1))
    (code : CodeAll T f scope xs i j) (depth : depthAt f.code i = d) :
    Advances f lands i d j (d + xs.length) := by
  induction xs generalizing i d with
  | nil =>
    obtain rfl : i = j := code
    exact Advances.refl depth
  | cons x xs ih =>
    obtain ⟨m, first, rest⟩ := code
    apply (each x (by simp) i m d first depth).trans
    intro depth
    have later := ih (fun y member => each y (by simp [member])) rest depth
    rw [List.length_cons, Nat.add_comm xs.length 1, ← Nat.add_assoc]
    exact later

theorem advances_operands {typed : Bool} {xs : List Node} (each : ∀ x ∈ xs, ∀ i j d,
      CodeOf T f scope x i j → depthAt f.code i = d → Advances f lands i d j (d + 1))
    (code : OperandsOf T f scope typed xs i j) (depth : depthAt f.code i = d) :
    Advances f lands i d j (d + if typed then 1 else xs.length) := by
  match xs with
  | [] => exact code.elim
  | [x] =>
    obtain ⟨rfl, one⟩ := code
    exact each x (by simp) i j d one depth
  | [x, y] =>
    cases typed with
    | true => exact each y (by simp) i j d code depth
    | false =>
      obtain ⟨m, first, second⟩ := code
      apply (each x (by simp) i m d first depth).trans
      intro depth
      exact each y (by simp) m j (d + 1) second depth
  | _ :: _ :: _ :: _ => exact code.elim

theorem advances_operand (free : Free lands) (n : Node) (operand : Operand n) (proper : properOps n = true) :
    ∀ i j d, CodeOf T f scope n i j → depthAt f.code i = d → Advances f lands i d j (d + 1) := by
  induction n with
  | const c => exact fun i j d one => advances_push free one fun instr => literal_effect
  | quote c => exact fun i j d one => advances_push free one fun instr => quote_effect
  | sym x =>
    intro i j d one
    apply advances_push free one
    intro instr loads
    obtain ⟨slot, _, rfl⟩ := loads
    exact load_effect slot
  | lambda args body => exact fun i j d one => advances_push free one fun instr => lambda_effect
  | app g args _ ih =>
    intro i j d code depth
    obtain ⟨operator, operands⟩ := operand
    rw [operandAll_iff] at operands
    simp only [properOps, operator, Bool.not_true, Bool.false_or, Bool.and_eq_true, beq_iff_eq,
      properOpsAll_iff] at proper
    rw [CodeOf, if_pos operator] at code
    obtain ⟨m, before, instr, here, ⟨found, _⟩, rfl⟩ := code
    obtain ⟨plain, takes, gives⟩ := operation_effect operator found
    have each : ∀ x ∈ args, ∀ i j d, CodeOf T f scope x i j → depthAt f.code i = d →
        Advances f lands i d j (d + 1) := fun x member =>
      ih x member (operands x member) (proper.2 x member)
    apply (advances_operands each before depth).trans
    intro depth
    rw [proper.1.1] at depth ⊢
    have last := advances_one here plain (free.straight plain) depth (by omega)
    rwa [takes, gives, Nat.add_sub_cancel] at last
  | ite | set | define | begin | extend => exact operand.elim

/- A term ends in a call. -/

theorem finishes_funcCall (free : Free lands) {k n d : Nat} (here : f.code[k]? = some ⟨.funcCall, n⟩)
    (enough : n + 1 ≤ d) (depth : depthAt f.code k = d) : Finishes f lands k d (k + 1) := by
  constructor
  · apply Leads.step
    · exact ⟨depth.symm, _, here, enough, free k _ (by simp) (by simp)⟩
    · intro t step
      obtain ⟨instr', same, target, _⟩ := step
      obtain rfl := Option.some.inj (here.symm.trans same)
      cases target
  · rw [depthAt_succ here]
    rfl

theorem builtin_effect {name : Node} (loads : BuiltinInstr T name instr) :
    straight instr.op = true ∧ pops instr = 0 ∧ pushes instr = 1 := by
  obtain ⟨x, k, _, rfl, _⟩ := loads
  exact ⟨rfl, rfl, rfl⟩

theorem finishes_builtin (free : Free lands) {args : List Node} (each : ∀ x ∈ args, ∀ i j d,
      CodeOf T f scope x i j → depthAt f.code i = d → Advances f lands i d j (d + 1))
    (code : BuiltinOf T f scope args i j) (depth : depthAt f.code i = 0) :
    Finishes f lands i 0 j := by
  match args with
  | [] | [_] => exact code.elim
  | cont :: name :: args =>
    obtain ⟨m, n, k, first, rest, loads, instr, here, rfl, rfl⟩ := code
    apply (each cont (by simp) i m 0 first depth).finish
    intro depth
    apply (advances_all (fun x member => each x (by simp [member])) rest depth).finish
    intro depth
    apply (advances_push free loads (fun _ => builtin_effect) depth).finish
    exact finishes_funcCall free here (by omega)

theorem finishes_call (free : Free lands) {g : Node} {args : List Node} (operator : isOperator g = false)
    (func : Operand g) (operands : OperandAll args) (proper : properOps (.app g args) = true)
    (code : CodeOf T f scope (.app g args) i j) (depth : depthAt f.code i = 0) :
    Finishes f lands i 0 j := by
  simp only [properOps, Bool.and_eq_true, properOpsAll_iff] at proper
  rw [operandAll_iff] at operands
  have each : ∀ x ∈ args, ∀ i j d, CodeOf T f scope x i j → depthAt f.code i = d →
      Advances f lands i d j (d + 1) := fun x member =>
    advances_operand free x (operands x member) (proper.2 x member)
  rw [CodeOf, if_neg (by simp [operator])] at code
  split at code
  · exact finishes_builtin free each code depth
  obtain ⟨m, k, first, second, instr, here, rfl, rfl⟩ := code
  apply (advances_all each first depth).finish
  intro depth
  apply (advances_operand free g func proper.1.2 m k _ second depth).finish
  exact finishes_funcCall free here (by omega)

/-- The jumps of the conditionals land where they should. -/
def JumpsOf (T : Tables) (f : IFunc) (scope : List (List Symbol)) (lands : Nat → Instr → Prop)
    (ifs : List Node) : Prop :=
  ∀ pred conseq alt h i n j k, .ite pred conseq alt ∈ ifs → CodeOf T f scope pred h i →
    CodeOf T f scope conseq (i + 1) j → CodeOf T f scope alt (i + 1 + n) k →
    lands i ⟨.jumpIfFalse, n⟩

theorem finishes_if (free : Free lands) {p a b : Node} (pred : Operand p)
    (proper : properOps p = true)
    (conseq : ∀ i j, CodeOf T f scope a i j → depthAt f.code i = 0 → Finishes f lands i 0 j)
    (alt : ∀ i j, CodeOf T f scope b i j → depthAt f.code i = 0 → Finishes f lands i 0 j)
    (jumps : JumpsOf T f scope lands [.ite p a b]) (code : CodeOf T f scope (.ite p a b) i j)
    (depth : depthAt f.code i = 0) : Finishes f lands i 0 j := by
  obtain ⟨t, u, n, k, test, jump, yes, forward, no, target, ends⟩ := code
  apply (advances_operand free p pred proper i t 0 test depth).finish
  intro depth
  have first := conseq (t + 1) u yes (by rw [depthAt_succ jump, depth]; rfl)
  have second := alt (u + 1) j no (by rw [depthAt_succ forward]; rfl)
  constructor
  · apply Leads.step
    · refine ⟨depth.symm, _, jump, Nat.le_refl _, ?_⟩
      exact jumps p a b i t n u j (by simp) test yes (target ▸ no)
    · intro s step
      obtain ⟨instr, same, place, after⟩ := step
      obtain rfl := Option.some.inj (jump.symm.trans same)
      obtain ⟨position, operands⟩ := s
      obtain rfl : operands = 0 := after
      rcases List.mem_cons.mp place with here | there
      · obtain rfl : position = t + 1 := here
        exact first.leads
      · have there : position = t + 1 + n := List.mem_singleton.mp there
        rw [there, target]
        exact second.leads
  · exact second.depth

theorem finishes_term (free : Free lands) (t : Node) (term : Term t) (proper : properOps t = true)
    (jumps : JumpsOf T f scope lands (conditionals t)) :
    ∀ i j, CodeOf T f scope t i j → depthAt f.code i = 0 → Finishes f lands i 0 j := by
  induction t with
  | const c =>
    intro i j one
    obtain ⟨instr, _, ⟨loads, _⟩, _⟩ : One f (LiteralInstr T .null) i j := (show c = .null from term) ▸ one
    cases loads
  | app g args =>
    intro i j code depth
    exact finishes_call free term.1 term.2.1 term.2.2 proper code depth
  | ite p a b _ ha hb =>
    intro i j code depth
    obtain ⟨pred, conseq, alt⟩ := term
    simp only [properOps, Bool.and_eq_true] at proper
    apply finishes_if free pred proper.1.1 _ _ _ code depth
    · apply ha conseq proper.1.2
      exact fun p' a' b' h i n j k member => jumps p' a' b' h i n j k (by simp [conditionals, member])
    · apply hb alt proper.2
      exact fun p' a' b' h i n j k member => jumps p' a' b' h i n j k (by simp [conditionals, member])
    · intro p' a' b' h i n j k member
      apply jumps
      rw [List.mem_singleton.mp member]
      exact List.mem_cons_self
  | begin => exact fun _ _ never => never.elim
  | sym | quote | lambda | set | define | extend => exact term.elim

theorem finishes_forms (free : Free lands) {xs : List Node} (forms : Forms xs)
    (proper : ∀ x ∈ xs, properOps x = true)
    (jumps : JumpsOf T f scope lands (xs.flatMap conditionals)) (code : CodeAll T f scope xs i j)
    (depth : depthAt f.code i = 0) : Finishes f lands i 0 j := by
  induction xs generalizing i with
  | nil => exact forms.elim
  | cons x xs ih =>
    obtain ⟨m, first, rest⟩ := code
    by_cases last : xs = []
    · subst last
      obtain rfl : m = j := rest
      apply finishes_term free x (forms.1 rfl) (proper x (by simp)) _ i m first depth
      simpa using jumps
    · obtain ⟨assigns, later⟩ := forms.2 last
      cases x with
      | set y v =>
        obtain ⟨k, value, instr, here, ⟨slot, _, store⟩, rfl⟩ := first
        obtain ⟨plain, takes, gives⟩ := store_effect store
        have operand := advances_operand free v assigns (proper (.set y v) (by simp)) i k 0 value depth
        apply operand.finish
        intro depth
        have stored := advances_one here plain (free.straight plain) depth (by omega)
        rw [takes, gives] at stored
        apply stored.finish
        intro depth
        apply ih later (fun z member => proper z (by simp [member])) _ rest depth
        simpa [conditionals] using jumps
      | _ => exact assigns.elim

end flow

/- The operands of the instructions are inside the tables. -/

section inside
variable {T : Tables} {f : IFunc} {ilr : Ilr} {frame : List Symbol} {outer : List (List Symbol)}
  {i j m : Nat} {p : Instr → Prop}

/-- All instructions from i up to j have p. -/
structure Covers (f : IFunc) (p : Instr → Prop) (i j : Nat) : Prop where
  le : i ≤ j
  each : ∀ (k : Nat) instr, i ≤ k → k < j → f.code[k]? = some instr → p instr

theorem Covers.trans (first : Covers f p i m) (second : Covers f p m j) : Covers f p i j := by
  constructor
  · exact Nat.le_trans first.le second.le
  · intro k instr low high here
    by_cases before : k < m
    · exact first.each k instr low before here
    · exact second.each k instr (Nat.not_lt.mp before) high here

theorem covers_at {instr : Instr} (here : f.code[i]? = some instr) (right : p instr) :
    Covers f p i (i + 1) := by
  constructor
  · omega
  · intro k instr' low high there
    obtain rfl : k = i := by omega
    exact Option.some.inj (here.symm.trans there) ▸ right

theorem covers_one {q : Instr → Prop} (one : One f q i j) (right : ∀ instr, q instr → p instr) :
    Covers f p i j := by
  obtain ⟨instr, here, holds, rfl⟩ := one
  exact covers_at here (right instr holds)

theorem lt_of_found {α : Type} {xs : List α} {k : Nat} {a : α} (found : xs[k]? = some a) :
    k < xs.length :=
  (List.getElem?_eq_some_iff.mp found).1

/-- The tables are those of the module, and the frame is that of the function. -/
structure Tabled (T : Tables) (ilr : Ilr) (f : IFunc) (frame : List Symbol) : Prop where
  consts : T.consts = ilr.consts
  lambdas : T.lambdas.length = ilr.code.length
  size : f.size = frame.length

theorem Tabled.load (tabled : Tabled T ilr f frame) {x : Symbol} {slot : Slot}
    (located : Located T f (frame :: outer) x slot) : Inside ilr f (loadInstr slot) := by
  cases slot with
  | inLocal idx =>
    obtain ⟨frame', outer', same, slot⟩ := located
    obtain ⟨rfl, _⟩ := List.cons.inj same
    have inside := slot.lt
    rwa [← tabled.size] at inside
  | inBind b =>
    obtain ⟨_, _, _, _, _, _, _, _, found, _⟩ := located
    exact lt_of_found found
  | inStatic k =>
    have inside := lt_of_found located.2.2
    rwa [tabled.consts] at inside

theorem Tabled.store (tabled : Tabled T ilr f frame) {x : Symbol} {slot : Slot} {instr : Instr}
    (located : Located T f (frame :: outer) x slot) (store : StoreInstr slot instr) :
    Inside ilr f instr := by
  have inside := tabled.load located
  cases slot with
  | inLocal idx => exact (show instr = ⟨.setLocal, idx⟩ from store) ▸ inside
  | inBind b => exact (show instr = ⟨.setBind, b⟩ from store) ▸ inside
  | inStatic k => exact store.elim

theorem Tabled.literal (tabled : Tabled T ilr f frame) {d : Datum} {instr : Instr}
    (literal : LiteralInstr T d instr) : Inside ilr f instr := by
  cases d with
  | bool b =>
    rw [show instr = ⟨.pushBool, if b then 1 else 0⟩ from literal]
    trivial
  | _ =>
    obtain ⟨_, k, rfl, found⟩ := literal
    have inside := lt_of_found found
    rwa [tabled.consts] at inside

theorem Tabled.quoted (tabled : Tabled T ilr f frame) {d : Datum} {instr : Instr}
    (quoted : QuoteInstr T d instr) : Inside ilr f instr := by
  unfold QuoteInstr at quoted
  split at quoted
  · rw [quoted]
    trivial
  · obtain ⟨k, rfl, found⟩ := quoted
    have inside := lt_of_found found
    rwa [tabled.consts] at inside

theorem Tabled.lambda (tabled : Tabled T ilr f frame) {l : Lambda} {instr : Instr}
    (lambda : LambdaInstr T l instr) : Inside ilr f instr := by
  obtain ⟨op, k⟩ := instr
  obtain ⟨either, found⟩ := lambda
  have inside := lt_of_found found
  rw [tabled.lambdas] at inside
  rcases either with rfl | rfl
  · exact inside
  · exact inside

theorem operation_inside {op : Symbol} {args : List Node} {instr : Instr}
    (operation : OperationInstr op args instr) : Inside ilr f instr := by
  obtain ⟨c, n⟩ := instr
  have found := operation.1
  unfold operatorToOpcode at found
  split at found <;> cases found <;> trivial

theorem covers_all {xs : List Node} (each : ∀ x ∈ xs, ∀ i j,
      CodeOf T f (frame :: outer) x i j → Covers f p i j)
    (code : CodeAll T f (frame :: outer) xs i j) : Covers f p i j := by
  induction xs generalizing i with
  | nil =>
    obtain rfl : i = j := code
    exact ⟨Nat.le_refl _, by omega⟩
  | cons x xs ih =>
    obtain ⟨m, first, rest⟩ := code
    exact (each x (by simp) i m first).trans (ih (fun y member => each y (by simp [member])) rest)

theorem Tabled.builtin (tabled : Tabled T ilr f frame) {name : Node} {instr : Instr}
    (loads : BuiltinInstr T name instr) : Inside ilr f instr := by
  obtain ⟨x, k, _, rfl, found⟩ := loads
  have inside := lt_of_found found
  rwa [tabled.consts] at inside

theorem Tabled.builtinCall (tabled : Tabled T ilr f frame) {args : List Node} (each : ∀ x ∈ args,
      ∀ i j, CodeOf T f (frame :: outer) x i j → Covers f (Inside ilr f) i j)
    (code : BuiltinOf T f (frame :: outer) args i j) : Covers f (Inside ilr f) i j := by
  match args with
  | [] | [_] => exact code.elim
  | cont :: name :: args =>
    obtain ⟨m, n, k, first, rest, loads, call⟩ := code
    have others := covers_all (fun x member => each x (by simp [member])) rest
    have loaded : Covers f (Inside ilr f) n k := covers_one loads fun _ => tabled.builtin
    have called : Covers f (Inside ilr f) k j := by
      apply covers_one call
      rintro instr rfl
      trivial
    exact (each cont (by simp) i m first).trans (others.trans (loaded.trans called))

theorem covers_operands {typed : Bool} {xs : List Node} (each : ∀ x ∈ xs, ∀ i j,
      CodeOf T f (frame :: outer) x i j → Covers f p i j)
    (code : OperandsOf T f (frame :: outer) typed xs i j) : Covers f p i j := by
  match xs with
  | [] => exact code.elim
  | [x] => exact each x (by simp) i j code.2
  | [x, y] =>
    cases typed with
    | true => exact each y (by simp) i j code
    | false =>
      obtain ⟨m, first, second⟩ := code
      exact (each x (by simp) i m first).trans (each y (by simp) m j second)
  | _ :: _ :: _ :: _ => exact code.elim

theorem Tabled.covers (tabled : Tabled T ilr f frame) (n : Node) :
    ∀ i j, CodeOf T f (frame :: outer) n i j → Covers f (Inside ilr f) i j := by
  induction n with
  | const d => exact fun i j one => covers_one one fun _ => tabled.literal
  | quote d => exact fun i j one => covers_one one fun _ => tabled.quoted
  | lambda args body => exact fun i j one => covers_one one fun _ => tabled.lambda
  | sym x =>
    intro i j one
    apply covers_one one
    intro instr loads
    obtain ⟨slot, located, rfl⟩ := loads
    exact tabled.load located
  | ite p a b hp ha hb =>
    intro i j code
    obtain ⟨t, u, n, k, test, jump, yes, forward, no, _, _⟩ := code
    have jumps : Inside ilr f ⟨.jumpIfFalse, n⟩ := trivial
    have forwards : Inside ilr f ⟨.jumpForward, k⟩ := trivial
    exact (hp i t test).trans <| (covers_at jump jumps).trans <| (ha _ u yes).trans <|
      (covers_at forward forwards).trans (hb _ j no)
  | set x v hv =>
    intro i j code
    obtain ⟨m, value, one⟩ := code
    apply (hv i m value).trans
    apply covers_one one
    intro instr stores
    obtain ⟨slot, located, store⟩ := stores
    exact tabled.store located store
  | app g args hg ih =>
    intro i j code
    by_cases operator : isOperator g = true
    · rw [CodeOf, if_pos operator] at code
      obtain ⟨m, operands, one⟩ := code
      exact (covers_operands ih operands).trans (covers_one one fun _ => operation_inside)
    · rw [CodeOf, if_neg operator] at code
      split at code
      · exact tabled.builtinCall ih code
      obtain ⟨m, k, operands, func, instr, here, rfl, rfl⟩ := code
      have call : Inside ilr f ⟨.funcCall, args.length⟩ := trivial
      exact (covers_all ih operands).trans ((hg m k func).trans (covers_at here call))
  | define | begin | extend => exact fun _ _ never => never.elim

end inside

section program
variable {scope : List (List Symbol)}

theorem body_iff {body : List Node} : Body body ↔ Forms (bodyForms body) := by
  cases body with
  | nil => rfl
  | cons x xs => cases x <;> rfl

theorem mem_lambdasAll {l : Lambda} {xs : List Node} :
    l ∈ lambdasAll scope xs ↔ ∃ x ∈ xs, l ∈ lambdasOf scope x := by
  induction xs with
  | nil => simp [lambdasAll]
  | cons x xs ih => simp [lambdasAll, ih]

/-- A node of a body. -/
def Part (n : Node) : Prop := Operand n ∨ Term n ∨ Assigns n

theorem forms_part {xs : List Node} (forms : Forms xs) : ∀ x ∈ xs, Part x := by
  induction xs with
  | nil => exact forms.elim
  | cons x xs ih =>
    rw [List.forall_mem_cons]
    by_cases last : xs = []
    · subst last
      exact ⟨.inr (.inl (forms.1 rfl)), by simp⟩
    · obtain ⟨assigns, rest⟩ := forms.2 last
      exact ⟨.inr (.inr assigns), ih rest⟩

theorem lambdas_body (n : Node) (part : Part n) :
    ∀ scope, ∀ l ∈ lambdasOf scope n, Body l.body := by
  induction n with
  | const | sym | quote | begin | define | extend => exact fun _ _ none => nomatch none
  | lambda args body ih =>
    intro scope l member
    have whole : Body body := by
      rcases part with operand | never | never
      · exact operand
      · exact never.elim
      · exact never.elim
    rcases List.mem_append.mp member with inner | here
    · rw [← CodeEmitted.lambdasAll_forms, mem_lambdasAll] at inner
      obtain ⟨x, inside, member⟩ := inner
      have each := forms_part (body_iff.mp whole) x inside
      exact ih x (bodyForms_subset body inside) each _ l member
    · rw [List.mem_singleton.mp here]
      exact whole
  | ite p a b hp ha hb =>
    intro scope l member
    rcases part with never | ⟨pred, conseq, alt⟩ | never
    · exact never.elim
    · simp only [lambdasOf, List.mem_append] at member
      rcases member with (first | second) | third
      · exact hp (.inl pred) scope l first
      · exact ha (.inr (.inl conseq)) scope l second
      · exact hb (.inr (.inl alt)) scope l third
    · exact never.elim
  | set x v hv =>
    intro scope l member
    rcases part with never | never | operand
    · exact never.elim
    · exact never.elim
    · exact hv (.inl operand) scope l member
  | app g args hg ih =>
    intro scope l member
    have pieces : Part g ∧ ∀ x ∈ args, Operand x := by
      rcases part with ⟨operator, operands⟩ | ⟨_, func, operands⟩ | never
      · cases g with
        | sym s => exact ⟨.inl trivial, operandAll_iff.mp operands⟩
        | _ => simp [isOperator] at operator
      · exact ⟨.inl func, operandAll_iff.mp operands⟩
      · exact never.elim
    rcases List.mem_append.mp member with first | rest
    · exact hg pieces.1 scope l first
    · obtain ⟨x, inside, member⟩ := mem_lambdasAll.mp rest
      exact ih x inside (.inl (pieces.2 x inside)) scope l member

theorem lambdas_proper (n : Node) (proper : properOps n = true) :
    ∀ scope, ∀ l ∈ lambdasOf scope n, ∀ x ∈ l.body, properOps x = true := by
  induction n with
  | const | sym | quote | begin | define | extend => exact fun _ _ none => nomatch none
  | lambda args body ih =>
    intro scope l member
    rw [properOps, properOpsAll_iff] at proper
    rcases List.mem_append.mp member with inner | here
    · obtain ⟨x, inside, member⟩ := mem_lambdasAll.mp inner
      exact ih x inside (proper x inside) _ l member
    · rw [List.mem_singleton.mp here]
      exact proper
  | ite p a b hp ha hb =>
    intro scope l member
    simp only [properOps, Bool.and_eq_true] at proper
    simp only [lambdasOf, List.mem_append] at member
    rcases member with (first | second) | third
    · exact hp proper.1.1 scope l first
    · exact ha proper.1.2 scope l second
    · exact hb proper.2 scope l third
  | set x v hv => exact hv proper
  | app g args hg ih =>
    intro scope l member
    simp only [properOps, Bool.and_eq_true, properOpsAll_iff] at proper
    rcases List.mem_append.mp member with first | rest
    · exact hg proper.1.2 scope l first
    · obtain ⟨x, inside, member⟩ := mem_lambdasAll.mp rest
      exact ih x inside (proper.2 x inside) scope l member

theorem wellFormed_of_func {ilr : Ilr} {ls : List Lambda} {l : Lambda} {f : IFunc}
    (func : FuncOf ⟨ilr.consts, ls⟩ l f) (count : ls.length = ilr.code.length)
    (body : Body l.body) (proper : ∀ x ∈ l.body, properOps x = true) :
    WellFormed ilr ls l f := by
  have tabled : Tabled ⟨ilr.consts, ls⟩ ilr f l.frame := ⟨rfl, count, func.size⟩
  have covers := covers_all (fun x _ => tabled.covers x) func.code
  have free : Free (Lands ⟨ilr.consts, ls⟩ f l) := by
    intro i instr noIf noForward
    unfold Lands
    split
    · contradiction
    · contradiction
    · trivial
  have jumps : JumpsOf ⟨ilr.consts, ls⟩ f (l.frame :: l.scope) (Lands ⟨ilr.consts, ls⟩ f l)
      ((bodyForms l.body).flatMap conditionals) := by
    intro pred conseq alt h i n j k member test yes no
    obtain ⟨x, inside, branch⟩ := List.mem_flatMap.mp member
    refine ⟨pred, conseq, alt, ?_, h, j, k, test, yes, no⟩
    exact List.mem_flatMap.mpr ⟨x, bodyForms_subset l.body inside, branch⟩
  have finishes := finishes_forms free (body_iff.mp body)
    (fun x member => proper x (bodyForms_subset l.body member)) jumps func.code rfl
  have fine : ∀ i d, Reaches f.code i d → Fine f.code (Lands ⟨ilr.consts, ls⟩ f l) (i, d) :=
    fun i d path => finishes.leads.always path
  constructor
  · exact func
  · intro i instr here
    exact covers.each i instr (Nat.zero_le _) (lt_of_found here) here
  · intro i d path
    obtain ⟨instr, here, _⟩ := (fine i d path).fits
    exact lt_of_found here
  · intro i d instr path here
    obtain ⟨instr', there, enough, _⟩ := (fine i d path).fits
    exact Option.some.inj (there.symm.trans here) ▸ enough
  · intro i d e first second
    exact (fine i d first).depth.trans (fine i e second).depth.symm
  · intro i d instr path here
    obtain ⟨instr', there, _, lands⟩ := (fine i d path).fits
    exact Option.some.inj (there.symm.trans here) ▸ lands

/- The bytecode of a converted program is well formed: its functions are those of the lambda
   expressions, in order, and the last one is the entry point. -/
theorem startCompile_wellFormed {source root : Node} {lastName lastName' : Nat} {ilr : Ilr}
    (converted : Cps.cpsConvert source lastName = .ok (root, lastName'))
    (proper : properOps root = true) (compiled : startCompile root = .ok ilr) :
    List.Forall₂ (WellFormed ilr (lambdasOf [] root)) (lambdasOf [] root) ilr.code ∧
      ∃ args body, root = .lambda args body ∧
        (lambdasOf [] root)[ilr.entryPoint]? = some ⟨[], args, body⟩ := by
  obtain ⟨args, body, same, operand⟩ : ∃ args body, root = .lambda args body ∧ Operand root := by
    cases source with
    | lambda formals forms =>
      have ran : Returns (Cps.convertFunc formals forms) lastName root lastName' := converted
      have operand := (gives_func (fun x _ => convert_terms x) (fun _ v _ => convert_terms v)
        formals).returned _ _ _ ran
      rw [Cps.convertFunc_eq] at ran
      simp only [returns_bind, returns_pure] at ran
      obtain ⟨name, _, _, forms', _, _, same, _⟩ := ran
      exact ⟨_, _, same.symm, operand⟩
    | _ => cases converted
  obtain ⟨functions, entry⟩ := CodeEmitted.startCompile_functions proper compiled
  have count := functions.length_eq
  constructor
  · have each : ∀ l ∈ lambdasOf [] root, Body l.body ∧ ∀ x ∈ l.body, properOps x = true :=
      fun l member => ⟨lambdas_body root (.inl operand) [] l member,
        lambdas_proper root proper [] l member⟩
    have both := (List.forall₂_and_left _ _).mpr ⟨each, functions⟩
    exact both.imp fun l f all => wellFormed_of_func all.2 count all.1.1 all.1.2
  · refine ⟨args, body, same, ?_⟩
    rw [entry, ← count, same, lambdasOf]
    simp

/-- (set! x ($car r))
    (if ($type-test TT_PAIR x) (display (lambda () x)) (builtin-call display "done")) -/
def branches : List Node :=
  [.set "x" (.app (.sym "$car") [.sym "r"]),
    .ite (.app (.sym "$type-test") [.sym "TT_PAIR", .sym "x"])
      (.app (.sym "display") [.lambda ⟨[], none⟩ [.sym "x"]])
      (.app (.sym "builtin-call") [.sym "display", .const (.str "done")])]

def branchesCps : Node :=
  .lambda ⟨[GenName.varName 0, "x"], some "r"⟩
    [.set "x" (.app (.sym "$car") [.sym "r"]),
      .ite (.app (.sym "$type-test") [.sym "TT_PAIR", .sym "x"])
        (.app (.sym "display") [.sym (GenName.varName 0),
          .lambda ⟨[GenName.varName 2], none⟩ [.app (.sym (GenName.varName 2)) [.sym "x"]]])
        (.app (.sym "builtin-call")
          [.sym (GenName.varName 0), .sym "display", .const (.str "done")])]

open Cps in
theorem cpsConvert_branches :
    cpsConvert (.lambda ⟨["x"], some "r"⟩ branches) 0 = .ok (branchesCps, 4) := by
  simp [cpsConvert, convertLambda, convertFunc_eq, convertBody_eq, branches, expressionsOf,
    definesOf, isDefine, convertSeq_cons, seqLoop_cons, convert_ite, convert_set, convert_app,
    convertSet_eq, convertArgs_cons, convertArg_eq, glueArgs_cons, glueArg_eq, selfEval,
    simpleOperation, isOperator, primitivesOperators, predName, seqName, joinExpr, callExpr,
    inlinable, convertDefines_nil, extendForm, setBody, spliceBegin, spliceNode, eqObject]
  rfl

theorem startCompile_wellFormed_branches : ∃ ilr, startCompile branchesCps = .ok ilr ∧
    List.Forall₂ (WellFormed ilr (lambdasOf [] branchesCps)) (lambdasOf [] branchesCps) ilr.code := by
  refine ⟨_, rfl, ?_⟩
  exact (startCompile_wellFormed cpsConvert_branches (by decide) rfl).1

end program

end LGears.CodeFlow
