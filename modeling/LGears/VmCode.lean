import LGears.CodeShape

/- Programs that the machine runs as they are meant, and the places of their nodes in the code. -/
namespace LGears.VmCode
open PrimitivesInfo Opcode Compiler CodeTables CodeShape

/- Nodes for which the code generator has no surprises: the operator of a call starts with a
   lambda expression only if it is one, no binder has a reserved name, a function with internal
   definitions keeps its variables on the heap, and there is no `$not`, which the machine computes
   without its tag. -/
mutual
def tame : Node → Bool
  | .const _ | .sym _ | .quote _ | .extend _ => true
  | .lambda args body =>
    (frameOf args body).all (fun x => !reserved.contains x) &&
      ((extendNames body).isEmpty || (frameOf args body).any ((caughtAll body).contains ·)) &&
      tameAll body
  | .ite pred conseq alt => tame pred && tame conseq && tame alt
  | .set _ value | .define _ value => tame value
  | .begin forms => tameAll forms
  | .app f args => (!startsWithLambda f || isLambda f) && symName f != "$not" && tame f && tameAll args
def tameAll : List Node → Bool
  | [] => true
  | x :: xs => tame x && tameAll xs
end

theorem tameAll_iff {xs : List Node} : tameAll xs = true ↔ ∀ x ∈ xs, tame x = true := by
  induction xs with
  | nil => simp [tameAll]
  | cons x xs ih => simp [tameAll, ih]

theorem mem_freeAll {x : Symbol} {xs : List Node} :
    x ∈ freeAll xs ↔ ∃ n ∈ xs, x ∈ free n := by
  induction xs with
  | nil => simp [freeAll]
  | cons n xs ih => simp [freeAll, ih]

theorem mem_caughtAll {x : Symbol} {xs : List Node} :
    x ∈ caughtAll xs ↔ ∃ n ∈ xs, x ∈ caught n := by
  induction xs with
  | nil => simp [caughtAll]
  | cons n xs ih => simp [caughtAll, ih]

section lengths
variable {T : Tables} {f : IFunc} {scope : List (List Symbol)}

theorem codeAll_length {xs : List Node}
    (each : ∀ x ∈ xs, ∀ i j, CodeOf T f scope x i j → j = i + (bare x).length) {i j : Nat}
    (code : CodeAll T f scope xs i j) : j = i + (bareAll xs).length := by
  induction xs generalizing i with
  | nil => exact code.symm
  | cons x xs ih =>
    obtain ⟨m, first, rest⟩ := code
    have here := each x (by simp) i m first
    have there := ih (fun y member => each y (by simp [member])) rest
    rw [bareAll, List.length_append]
    omega

theorem operandsOf_length {typed : Bool} {xs : List Node}
    (each : ∀ x ∈ xs, ∀ i j, CodeOf T f scope x i j → j = i + (bare x).length) {i j : Nat}
    (code : OperandsOf T f scope typed xs i j) : j = i + (bareOperands typed xs).length := by
  match xs with
  | [] => exact code.elim
  | [x] => exact each x (by simp) i j code.2
  | [x, y] =>
    cases typed with
    | true => exact each y (by simp) i j code
    | false =>
      obtain ⟨m, first, second⟩ := code
      have here := each x (by simp) i m first
      have there := each y (by simp) m j second
      rw [bareOperands, List.length_append]
      simp only [Bool.false_eq_true, if_false]
      omega
  | _ :: _ :: _ :: _ => exact code.elim

theorem builtinOf_length {xs : List Node}
    (each : ∀ x ∈ xs, ∀ i j, CodeOf T f scope x i j → j = i + (bare x).length) {i j : Nat}
    (code : BuiltinOf T f scope xs i j) : j = i + (bareBuiltin xs ++ [false, false]).length := by
  match xs with
  | [] | [_] => exact code.elim
  | cont :: name :: args =>
    obtain ⟨m, n, k, first, rest, ⟨_, _, _, rfl⟩, ⟨_, _, _, rfl⟩⟩ := code
    have here := each cont (by simp) i m first
    have there := codeAll_length (fun x member => each x (by simp [member])) rest
    rw [bareBuiltin, List.length_append, List.length_append]
    simp only [List.length_cons, List.length_nil]
    omega

theorem bare_some {n : Node} (starts : startsWithLambda n = true) : bare n ≠ [] := by
  cases n with
  | begin | define | extend => simp [startsWithLambda] at starts
  | app g args =>
    rw [bare.eq_def]
    dsimp only
    split
    · simp
    · split <;> simp
  | _ => simp [bare]

theorem called_length (g : Node) : (calledBare g (bare g)).length = (bare g).length := by
  unfold calledBare
  split
  · rename_i starts
    have some := bare_some starts
    cases code : bare g with
    | nil => exact absurd code some
    | cons b bs => rfl
  · rfl

theorem passed_length (g : Node) (args : List Node) :
    (passedBare g args (bareAll args)).length = (bareAll args).length := by
  unfold passedBare
  split
  · rename_i passes
    match g, args with
    | .sym s, x :: xs =>
      rw [optimizeCont, Bool.and_eq_true] at passes
      have some : bare x ≠ [] := by
        cases x with
        | lambda => simp [bare]
        | _ => cases passes.1
      rw [bareAll]
      cases code : bare x with
      | nil => exact absurd code some
      | cons b bs => rfl
  · rfl

theorem codeOf_length (n : Node) : ∀ i j, CodeOf T f scope n i j → j = i + (bare n).length := by
  induction n with
  | const d | sym x | quote d | lambda args body =>
    intro i j code
    rw [CodeOf] at code
    obtain ⟨instr, _, _, rfl⟩ := code
    rfl
  | ite p a b hp ha hb =>
    intro i j code
    rw [CodeOf] at code
    obtain ⟨test, skip, n, m, pred, _, conseq, _, alt, _, _⟩ := code
    have first := hp i test pred
    have second := ha _ _ conseq
    have third := hb _ _ alt
    rw [bare, List.length_append, List.length_cons, List.length_append, List.length_cons]
    omega
  | set x v ih =>
    intro i j code
    rw [CodeOf] at code
    obtain ⟨m, value, instr, _, _, rfl⟩ := code
    have first := ih i m value
    rw [bare, List.length_append, List.length_singleton]
    omega
  | define x v | begin forms | extend names =>
    intro i j code
    rw [CodeOf] at code
    exact code.elim
  | app g args hg each =>
    intro i j code
    rw [CodeOf] at code
    rw [bare.eq_def]
    dsimp only
    split at code
    · rename_i operator
      obtain ⟨m, operands, instr, _, _, rfl⟩ := code
      have first := operandsOf_length each operands
      rw [if_pos operator, List.length_append, List.length_singleton]
      omega
    rename_i other
    split at code
    · rename_i builtin
      rw [if_neg other, if_pos builtin]
      exact builtinOf_length each code
    · rename_i named
      obtain ⟨m, n, operands, operator, instr, _, _, rfl⟩ := code
      have first := codeAll_length each operands
      have second := hg m n operator
      rw [if_neg other, if_neg named, List.length_append, List.length_append, passed_length, called_length,
        List.length_singleton]
      omega

end lengths

/- Places. -/

/-- The node belongs to the body of the lambda expression. -/
structure PartOf (l : Lambda) (n : Node) : Prop where
  free : ∀ x ∈ free n, x ∈ freeAll l.body
  caught : ∀ x ∈ caught n, x ∈ caughtAll l.body
  tame : tame n = true

/-- From i on the instructions of f are of the shape. -/
def ShapeAt (f : IFunc) (shape : List Bool) (i : Nat) : Prop := shape <+: (f.code.map isBare).drop i

/-- The node is from i up to j in the code of l. -/
structure Coded (T : Tables) (f : IFunc) (l : Lambda) (shape : List Bool) (n : Node) (i j : Nat) :
    Prop where
  code : CodeOf T f (l.frame :: l.scope) n i j
  shape : ShapeAt f shape i
  part : PartOf l n

/-- So are the nodes. -/
structure CodedAll (T : Tables) (f : IFunc) (l : Lambda) (shape : List Bool) (xs : List Node)
    (i j : Nat) : Prop where
  code : CodeAll T f (l.frame :: l.scope) xs i j
  shape : ShapeAt f shape i
  parts : ∀ x ∈ xs, PartOf l x

section places
variable {T : Tables} {f : IFunc} {l : Lambda} {i j : Nat}

theorem shape_append {bs cs : List Bool} (shape : ShapeAt f (bs ++ cs) i) :
    ShapeAt f bs i ∧ ShapeAt f cs (i + bs.length) := by
  unfold ShapeAt at *
  constructor
  · exact (List.prefix_append bs cs).trans shape
  · obtain ⟨rest, split⟩ := shape
    rw [← List.drop_drop, ← split, List.append_assoc, List.drop_left]
    exact List.prefix_append _ _

theorem shape_tail {b : Bool} {bs : List Bool} (shape : ShapeAt f (b :: bs) i) :
    ShapeAt f bs (i + 1) := by
  have split : ShapeAt f ([b] ++ bs) i := shape
  exact (shape_append split).2

theorem shape_here {b : Bool} {bs : List Bool} {instr : Instr} (shape : ShapeAt f (b :: bs) i)
    (here : f.code[i]? = some instr) : isBare instr = b := by
  obtain ⟨rest, split⟩ := shape
  have first : ((f.code.map isBare).drop i)[0]? = some b := by
    rw [← split]
    rfl
  rw [List.getElem?_drop, Nat.add_zero, List.getElem?_map, here] at first
  exact Option.some.inj first

theorem codedAll_cons {x : Node} {xs : List Node}
    (coded : CodedAll T f l (bareAll (x :: xs)) (x :: xs) i j) :
    ∃ m, Coded T f l (bare x) x i m ∧ CodedAll T f l (bareAll xs) xs m j := by
  obtain ⟨m, first, rest⟩ := coded.code
  have shape := shape_append (bareAll.eq_2 x xs ▸ coded.shape)
  rw [← codeOf_length x i m first] at shape
  exact ⟨m, ⟨first, shape.1, coded.parts x (by simp)⟩, rest, shape.2,
    fun y member => coded.parts y (by simp [member])⟩

theorem Coded.set {x : Symbol} {v : Node} (coded : Coded T f l (bare (.set x v)) (.set x v) i j) :
    ∃ m instr slot, Coded T f l (bare v) v i m ∧ f.code[m]? = some instr ∧ j = m + 1 ∧
      Located T f (l.frame :: l.scope) x slot ∧ StoreInstr slot instr ∧ x ∈ freeAll l.body := by
  have code := coded.code
  rw [CodeOf] at code
  obtain ⟨m, value, instr, here, ⟨slot, located, stores⟩, next⟩ := code
  have shape := shape_append (bare.eq_2 x v ▸ coded.shape)
  have tamed := coded.part.tame
  rw [tame] at tamed
  have inner : PartOf l v := by
    constructor
    · intro y member
      exact coded.part.free y (by simp [CodeShape.free, member])
    · intro y member
      exact coded.part.caught y (by simpa [CodeShape.caught] using member)
    · exact tamed
  exact ⟨m, instr, slot, ⟨value, shape.1, inner⟩, here, next, located, stores,
    coded.part.free x (by simp [CodeShape.free])⟩

theorem Coded.ite {p a b : Node} (coded : Coded T f l (bare (.ite p a b)) (.ite p a b) i j) :
    ∃ test skip n m, Coded T f l (bare p) p i test ∧ f.code[test]? = some ⟨.jumpIfFalse, n⟩ ∧
      Coded T f l (bare a) a (test + 1) skip ∧ f.code[skip]? = some ⟨.jumpForward, m⟩ ∧
      Coded T f l (bare b) b (skip + 1) j ∧ test + 1 + n = skip + 1 ∧ skip + 1 + m = j := by
  have code := coded.code
  rw [CodeOf] at code
  obtain ⟨test, skip, n, m, pred, jumps, conseq, skips, alt, toAlt, toEnd⟩ := code
  have shape := coded.shape
  rw [bare] at shape
  obtain ⟨both, third⟩ := shape_append shape
  obtain ⟨first, second⟩ := shape_append both
  rw [List.length_append, List.length_cons, ← Nat.add_assoc, ← codeOf_length p i test pred,
    ← Nat.add_assoc, Nat.add_right_comm, ← codeOf_length a _ skip conseq] at third
  rw [← codeOf_length p i test pred] at second
  have tamed := coded.part.tame
  rw [tame, Bool.and_eq_true, Bool.and_eq_true] at tamed
  have free := coded.part.free
  have caught := coded.part.caught
  simp only [CodeShape.free, CodeShape.caught, List.mem_append] at free caught
  refine ⟨test, skip, n, m, ⟨pred, first, ?_⟩, jumps, ⟨conseq, shape_tail second, ?_⟩, skips,
    ⟨alt, shape_tail third, ?_⟩, toAlt, toEnd⟩
  · exact ⟨fun x member => free x (.inl (.inl member)), fun x member => caught x (.inl (.inl member)),
      tamed.1.1⟩
  · exact ⟨fun x member => free x (.inl (.inr member)), fun x member => caught x (.inl (.inr member)),
      tamed.1.2⟩
  · exact ⟨fun x member => free x (.inr member), fun x member => caught x (.inr member), tamed.2⟩

/-- The operands of an operation that are computed. -/
def operandsOf (g : Node) (args : List Node) : List Node :=
  if isTypeTest g then args.tail else args

theorem operandsOf_subset {g : Node} {args : List Node} {x : Node} (member : x ∈ operandsOf g args) :
    x ∈ args := by
  unfold operandsOf at member
  split at member
  · exact List.mem_of_mem_tail member
  · exact member

theorem operands_all {g : Node} {args : List Node} {m : Nat}
    (code : OperandsOf T f (l.frame :: l.scope) (isTypeTest g) args i m) :
    CodeAll T f (l.frame :: l.scope) (operandsOf g args) i m ∧
      bareOperands (isTypeTest g) args = bareAll (operandsOf g args) ∧
      freeOperands (isTypeTest g) args = freeAll (operandsOf g args) ∧
      caughtOperands (isTypeTest g) args = caughtAll (operandsOf g args) := by
  match args with
  | [] => exact code.elim
  | [x] =>
    obtain ⟨typed, code⟩ := code
    simp only [operandsOf, typed, bareOperands, bareAll, freeOperands, freeAll, caughtOperands,
      caughtAll, Bool.false_eq_true, if_false, List.append_nil, and_self, and_true]
    exact ⟨m, code, rfl⟩
  | [x, y] =>
    cases typed : isTypeTest g with
    | true =>
      rw [typed] at code
      simp only [operandsOf, typed, bareOperands, bareAll, freeOperands, freeAll, caughtOperands,
        caughtAll, if_true, List.append_nil, List.nil_append, List.tail_cons, and_self, and_true]
      exact ⟨m, code, rfl⟩
    | false =>
      rw [typed] at code
      obtain ⟨k, first, second⟩ := code
      simp only [operandsOf, typed, bareOperands, bareAll, freeOperands, freeAll, caughtOperands,
        caughtAll, Bool.false_eq_true, if_false, List.append_nil, and_self, and_true]
      exact ⟨k, first, m, second, rfl⟩
  | _ :: _ :: _ :: _ => exact code.elim

theorem Coded.operation {g : Node} {args : List Node} (operator : isOperator g = true)
    (coded : Coded T f l (bare (.app g args)) (.app g args) i j) :
    ∃ m instr, CodedAll T f l (bareAll (operandsOf g args)) (operandsOf g args) i m ∧
      f.code[m]? = some instr ∧ OperationInstr (symName g) args instr ∧ j = m + 1 ∧
      symName g ≠ "$not" := by
  have code := coded.code
  rw [CodeOf, if_pos operator] at code
  obtain ⟨m, operands, instr, here, operation, next⟩ := code
  obtain ⟨all, shape, free, caught⟩ := operands_all operands
  have shaped := coded.shape
  rw [bare.eq_def] at shaped
  simp only [operator, if_true, shape] at shaped
  have tamed := coded.part.tame
  simp only [tame, Bool.and_eq_true, tameAll_iff, bne_iff_ne] at tamed
  refine ⟨m, instr, ⟨all, (shape_append shaped).1, ?_⟩, here, operation, next, tamed.1.1.2⟩
  intro x member
  constructor
  · intro y inside
    apply coded.part.free y
    rw [CodeShape.free.eq_def]
    simp only [operator, if_true, free]
    exact mem_freeAll.mpr ⟨x, member, inside⟩
  · intro y inside
    apply coded.part.caught y
    rw [CodeShape.caught.eq_def]
    simp only [operator, if_true, caught]
    exact mem_caughtAll.mpr ⟨x, member, inside⟩
  · exact tamed.2 x (operandsOf_subset member)

theorem Coded.builtin {g : Node} {args : List Node} (builtin : isBuiltinCall g = true)
    (coded : Coded T f l (bare (.app g args)) (.app g args) i j) :
    ∃ cont x rest m k, args = cont :: .sym x :: rest ∧
      CodedAll T f l (bareAll (cont :: rest)) (cont :: rest) i m ∧
      f.code[m]? = some ⟨.loadConst, k⟩ ∧ T.consts[k]? = some (.builtin x) ∧
      f.code[m + 1]? = some ⟨.funcCall, rest.length + 1⟩ := by
  have other := not_operator_builtin builtin
  have code := coded.code
  rw [CodeOf, if_neg other, if_pos builtin] at code
  have shaped := coded.shape
  rw [bare.eq_def] at shaped
  have free := coded.part.free
  rw [CodeShape.free.eq_def] at free
  have caught := coded.part.caught
  rw [CodeShape.caught.eq_def] at caught
  simp only [if_neg other, if_pos builtin] at shaped free caught
  have tamed := coded.part.tame
  simp only [tame, Bool.and_eq_true, tameAll_iff] at tamed
  obtain _ | ⟨cont, _ | ⟨name, rest⟩⟩ := args
  · exact code.elim
  · exact code.elim
  · obtain ⟨m, n, _, first, others, ⟨_, load, ⟨x, k, rfl, rfl, const⟩, rfl⟩, ⟨_, call, rfl, rfl⟩⟩ := code
    simp only [freeBuiltin, caughtBuiltin, List.mem_append] at free caught
    refine ⟨cont, x, rest, n, k, rfl, ⟨⟨m, first, others⟩, (shape_append shaped).1, ?_⟩, load, const,
      call⟩
    intro y member
    rcases List.mem_cons.mp member with rfl | later
    · exact ⟨fun z inside => free z (.inl inside), fun z inside => caught z (.inl inside),
        tamed.2 y (by simp)⟩
    · exact ⟨fun z inside => free z (.inr (mem_freeAll.mpr ⟨y, later, inside⟩)),
        fun z inside => caught z (.inr (mem_caughtAll.mpr ⟨y, later, inside⟩)),
        tamed.2 y (by simp [later])⟩

theorem Coded.call {g : Node} {args : List Node} (other : isOperator g = false)
    (named : isBuiltinCall g = false)
    (coded : Coded T f l (bare (.app g args)) (.app g args) i j) :
    ∃ m n, CodedAll T f l (passedBare g args (bareAll args)) args i m ∧
      Coded T f l (calledBare g (bare g)) g m n ∧
      f.code[n]? = some ⟨.funcCall, args.length⟩ ∧
      (startsWithLambda g = true → isLambda g = true) := by
  have code := coded.code
  have plain : ¬ isOperator g = true := by simp [other]
  have plain' : ¬ isBuiltinCall g = true := by simp [named]
  rw [CodeOf, if_neg plain, if_neg plain'] at code
  obtain ⟨m, n, operands, operator, instr, here, call, next⟩ := code
  have shaped := coded.shape
  rw [bare.eq_def] at shaped
  simp only [other, named, Bool.false_eq_true, if_false] at shaped
  obtain ⟨first, second⟩ := shape_append (shape_append shaped).1
  rw [passed_length, ← codeAll_length (fun x _ => codeOf_length x) operands] at second
  have tamed := coded.part.tame
  simp only [tame, Bool.and_eq_true, tameAll_iff, Bool.or_eq_true, Bool.not_eq_true'] at tamed
  have free := coded.part.free
  rw [CodeShape.free.eq_def] at free
  have caught := coded.part.caught
  rw [CodeShape.caught.eq_def] at caught
  simp only [other, named, Bool.false_eq_true, if_false, List.mem_append] at free caught
  refine ⟨m, n, ⟨operands, first, ?_⟩, ⟨operator, second, ?_⟩, call ▸ here, ?_⟩
  · intro x member
    constructor
    · exact fun y inside => free y (.inr (mem_freeAll.mpr ⟨x, member, inside⟩))
    · exact fun y inside => caught y (.inr (mem_caughtAll.mpr ⟨x, member, inside⟩))
    · exact tamed.2 x member
  · exact ⟨fun y inside => free y (.inl inside), fun y inside => caught y (.inl inside), tamed.1.2⟩
  · intro starts
    rcases tamed.1.1.1 with not | lambda
    · rw [starts] at not
      cases not
    · exact lambda

end places

end LGears.VmCode
