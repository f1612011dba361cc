import LGears.Primitives
import LGears.VmRuns

/- What the builtins of primitives.c mean for programs, and that they do it. -/
namespace LGears.VmPrimitives
open PrimitivesInfo Compiler CodeTables Values StateExcept VmValues VmHeap VmTests VmObjects
open VmMoves VmEval VmEntry VmRuns Primitives Renaming
open Gc hiding State Slot copied Holds

/- What they mean. -/

/-- The length of a list, as a builtin sees it. -/
def lengthOf (d : Deref) : Value → Option Nat
  | .atom (.data x) => datumLength x
  | .ref n => (d n).bind fun p => p.2.2
  | _ => none

def number (i : Int) : Value := .atom (.data (.num i))

def char? : Value → Option Char
  | .atom (.data (.char c)) => some c
  | _ => none

def listAnswer (vs : List Value) : Answer :=
  vs.foldr (fun v rest => .cons (.value v) rest) (.value (.atom (.data .null)))

/-- The code of a character goes through a signed short. -/
def charCode (c : Char) : Int := (BitVec.ofNat 16 c.toNat).toInt

/-- The character with a code, if there is one. -/
def codeChar (i : Int) : Option Char :=
  if 0 ≤ i ∧ i < 2 ^ 16 ∧ i.toNat.isValidChar then some (Char.ofNat i.toNat) else none

/-- The count of make_list is an int. -/
def listCount (i : Int) : Nat := (BitVec.ofInt 32 i).toInt.toNat

def unaryCall (d : Deref) (name : Symbol) (v : Value) : Option Answer :=
  if name = "display" then some (.value void)
  else if name = "length" then (lengthOf d v).map fun n => .value (number (n % 2 ^ 31 : Nat))
  else if name = "char->integer" then (char? v).map fun c => .value (number (charCode c))
  else if name = "integer->char" then
    ((num? v).bind codeChar).map fun c => .value (.atom (.data (.char c)))
  else none

def binaryCall (name : Symbol) (v w : Value) : Option Answer :=
  if name = "$make-list" then (num? v).map fun i => listAnswer (.replicate (listCount i) w)
  else if name = "make-string" then
    (num? v).bind fun i => (char? w).bind fun _ => if 0 ≤ i then some (.fresh "string") else none
  else none

def primitiveCall (d : Deref) (name : Symbol) (vs : List Value) : Option Answer :=
  if name = "list" then some (listAnswer vs)
  else match vs with
    | [] =>
      if name = "void" then some (.value void)
      else if name = "eof-object" then some (.value (.atom .eof))
      else none
    | [v] => unaryCall d name v
    | [v, w] => binaryCall name v w
    | _ => none

section natural
variable {β γ : Nat → Nat → Prop} {d d' : Deref} {v w : Value} {vs ws : List Value}

theorem listAnswer_rel (rel : List.Forall₂ (ValueRel β γ) vs ws) :
    AnswerRel β γ (listAnswer vs) (listAnswer ws) := by
  induction rel with
  | nil => exact .value (.atom (by simp))
  | cons first _ ih => exact .cons (.value first) ih

theorem lengthOf_rel (same : DerefRel β γ d d') (rel : ValueRel β γ v w) :
    lengthOf d v = lengthOf d' w := by
  cases rel with
  | @atom a _ => cases a <;> rfl
  | @ref m n linked =>
    have pair := same m n linked
    simp only [lengthOf]
    cases first : d m with
    | none =>
      rw [first] at pair
      cases second : d' n with
      | none => rfl
      | some q => rw [second] at pair; cases pair
    | some p =>
      rw [first] at pair
      cases second : d' n with
      | none => rw [second] at pair; cases pair
      | some q =>
        rw [second] at pair
        cases pair with
        | some pair => exact pair.2.2
  | proc => rfl

theorem num_rel (rel : ValueRel β γ v w) : num? v = num? w := by
  cases rel <;> rfl

theorem char_rel (rel : ValueRel β γ v w) : char? v = char? w := by
  cases rel <;> rfl

theorem atom_rel {α : Type} (o : Option α) (f : α → Atom) (plain : ∀ a, f a ≠ .done) :
    Option.Rel (AnswerRel β γ) (o.map fun a => .value (.atom (f a)))
      (o.map fun a => .value (.atom (f a))) := by
  cases o with
  | none => exact .none
  | some a => exact .some (.value (.atom (plain a)))

theorem unaryCall_rel (name : Symbol) (same : DerefRel β γ d d') (rel : ValueRel β γ v w) :
    Option.Rel (AnswerRel β γ) (unaryCall d name v) (unaryCall d' name w) := by
  unfold unaryCall
  rw [lengthOf_rel same rel, num_rel rel, char_rel rel]
  split_ifs
  · exact .some (.value (.atom (by simp)))
  · exact atom_rel _ _ (by simp)
  · exact atom_rel _ _ (by simp)
  · exact atom_rel _ _ (by simp)
  · exact .none

theorem binaryCall_rel (name : Symbol) {v' w' : Value} (first : ValueRel β γ v v')
    (second : ValueRel β γ w w') :
    Option.Rel (AnswerRel β γ) (binaryCall name v w) (binaryCall name v' w') := by
  unfold binaryCall
  rw [num_rel first, char_rel second]
  split_ifs
  · cases num? v' with
    | none => exact .none
    | some i =>
      refine .some (listAnswer_rel ?_)
      rw [List.forall₂_iff_get]
      exact ⟨by simp, fun j _ _ => by simpa using second⟩
  · cases num? v' with
    | none => exact .none
    | some i =>
      cases char? w' with
      | none => exact .none
      | some c =>
        by_cases natural : 0 ≤ i
        · simp only [Option.bind_some, if_pos natural]
          exact .some (.fresh _)
        · simp only [Option.bind_some, if_neg natural]
          exact .none
  · exact .none

theorem primitiveCall_rel (name : Symbol) (same : DerefRel β γ d d')
    (rel : List.Forall₂ (ValueRel β γ) vs ws) :
    Option.Rel (AnswerRel β γ) (primitiveCall d name vs) (primitiveCall d' name ws) := by
  unfold primitiveCall
  split
  · exact .some (listAnswer_rel rel)
  · cases rel with
    | nil =>
      dsimp only
      split_ifs
      · exact .some (.value (.atom (by simp)))
      · exact .some (.value (.atom (by simp)))
      · exact .none
    | cons first rest =>
      cases rest with
      | nil => exact unaryCall_rel name same first
      | cons second rest =>
        cases rest with
        | nil => exact binaryCall_rel name first second
        | cons => exact .none

end natural

/-- The builtins that are called here. -/
def primitives : List (Symbol × Vm.Native) :=
  [("list", .list), ("length", .listLength), ("$make-list", .makeList), ("display", .display),
    ("void", .getVoid), ("eof-object", .getEof), ("char->integer", .charToInteger),
    ("integer->char", .integerToChar), ("make-string", .makeString)]

def isPrimitive (name : Symbol) : Bool := (primitives.map Prod.fst).contains name

/-- The world in which these builtins do what they mean, and the others what they do in W. -/
def primitiveWorld (W : World) : World where
  call h d name vs := if isPrimitive name then primitiveCall d name vs else W.call h d name vs
  void_call _ _ := rfl
  exit_call h d vs := W.exit_call h d vs
  natural unique _ _ _ _ _ _ name events derefs rel := by
    split
    · exact primitiveCall_rel name derefs rel
    · exact W.natural unique name events derefs rel
  eqProcs := W.eqProcs

/- What they do on the machine. -/

/-- The memory that a builtin needs. -/
def memoryOf (n : Vm.Native) (argc : Nat) (t : Vm.State) : Nat :=
  let word i := t.thread.opstack (t.thread.opStackIdx - argc + i)
  match n with
  | .list => 32 * (argc - 1)
  | .makeList => 32 * listSize (word 1)
  | .makeString => blockSize (16 + (fixnumOf (word 1)).toInt.toNat + 1)
  | _ => 0

/-- The value that a builtin has returned. -/
def valueOf (called : Vm.VmM (Option Nat)) (t : Vm.State) : Option (Nat × Vm.State) :=
  match called t with
  | .ok (some obj, u) => some (obj, u)
  | _ => none

/-- RETURN_OBJ(obj) -/
def returnObj (img : Vm.Image) (obj : Nat) (t : Vm.State) : Option Vm.State :=
  match Vm.stackPush img obj t with
  | .ok (_, u) => some u
  | .error _ => none

theorem valueOf_some {called : Vm.VmM (Option Nat)} {t u : Vm.State} {obj : Nat} :
    valueOf called t = some (obj, u) ↔ Returns called t (some obj) u := by
  unfold valueOf Returns
  split
  · rename_i here
    rw [here]
    simp
  · rename_i other
    constructor
    · intro never
      cases never
    · intro here
      exact absurd here (other obj u)

theorem returnObj_some {img : Vm.Image} {t u : Vm.State} {obj : Nat} :
    returnObj img obj t = some u ↔ Returns (Vm.stackPush img obj) t ⟨⟩ u := by
  unfold returnObj Returns
  split
  · rename_i here
    rw [here]
    simp
  · rename_i here
    rw [here]
    simp

section natives
variable (img : Vm.Image) (N : Natives img)

/-- The builtins of the process are those of primitives.c and others. -/
def run (n : Vm.Native) (opArg : Int) (t : Vm.State) : Option Vm.State :=
  match call img opArg.toNat n with
  | some called =>
    if Vm.argsError n.hdr opArg = none then
      (valueOf called t).bind fun r => returnObj img r.1 r.2
    else none
  | none => N.run n opArg t

def short (n : Vm.Native) (opArg : Int) (t : Vm.State) : Prop :=
  match call img opArg.toNat n with
  | some _ => img.opStackSize ≤ t.thread.opStackIdx + 1 ∨
      t.heap.fresh.freeMem < memoryOf n opArg.toNat t
  | none => N.short n opArg t

theorem run_just (n : Vm.Native) (opArg : Int) (t u : Vm.State)
    (ran : run img N n opArg t = some u) : Vm.JustReturns n opArg := by
  unfold run at ran
  split at ran
  · rename_i called known
    exact call_just known
  · exact N.just n opArg t u ran

theorem run_returned (n : Vm.Native) (opArg : Int) (t u : Vm.State)
    (ran : run img N n opArg t = some u) : Vm.Returned img n opArg t u := by
  unfold run at ran
  split at ran
  · rename_i called known
    split at ran
    · rename_i args
      obtain ⟨r, value, pushed⟩ := Option.bind_eq_some_iff.mp ran
      have ran := valueOf_some.mp (value : valueOf called t = some (r.1, r.2))
      refine ⟨r.2, r.1, kept_allocates (call_allocates known ran), ?_, returnObj_some.mp pushed⟩
      intro one
      subst one
      exact call_constant known args ran
    · cases ran
  · exact N.returned n opArg t u ran

def natives : Natives img := ⟨run img N, short img N, run_just img N, run_returned img N⟩

end natives

section answers
variable {img : Vm.Image} {st : Statics} {T : Tables} {L : Link} {s : State} {t : Vm.State}
  {v : Value} {vs : List Value} {a : Answer}

theorem build_list (vs : List Value) (s : State) : s.build (listAnswer vs) = mkList s vs := by
  induction vs with
  | nil => rfl
  | cons v vs ih =>
    simp only [listAnswer, List.foldr_cons, State.build, mkList] at ih ⊢
    rw [ih]

/-- A builtin has computed a word for its answer. -/
structure Computes (img : Vm.Image) (st : Statics) (T : Tables) (L : Link) (s : State) (a : Answer)
    (t u : Vm.State) (obj : Nat) : Prop where
  link : ∃ L', L.Grows L' ∧ Represents img st T L' (s.build a).2 u.heap ∧
    ValueIs img st L' (s.build a).1 obj
  same : u = withRoots t u.heap u.thread.localRoots
  includes : Includes t.heap u.heap

theorem computes_value (rel : Represents img st T L s t.heap) {w : Nat} (is : ValueIs img st L v w) :
    Computes img st T L s (.value v) t t w :=
  ⟨⟨L, .refl L, rel, is⟩, rfl, fun _ _ => id⟩

theorem computes_list (rel : Represents img st T L s t.heap)
    (car : Nat → Thread → Option Nat) (words : Nat → Nat)
    (room : 32 * vs.length ≤ t.heap.fresh.freeMem)
    (values : ∀ (i : Nat) v, vs[i]? = some v → ValueIs img st L v (words i))
    (reads : ∀ i roots, car i { t.thread with localRoots := roots } = some (words i)) :
    ∃ u w, Returns (Vm.localList img car vs.length) t w u ∧
      Computes img st T L s (listAnswer vs) t u w := by
  obtain ⟨L', h', w, adds, rel', includes, _, is, ran⟩ :=
    returns_localList (T := T) (s := s) vs rel room values reads
  rw [← build_list] at rel' is
  exact ⟨_, w, ran, ⟨L', adds.grows, rel', is⟩, rfl, includes⟩

theorem makeObj_char {o : Tagged.Word} (small : o.toNat < 2 ^ 61) :
    (Tagged.makeObj o Tagged.tagChar).toNat = o.toNat * 8 + 3 := by
  have shifted : o.toNat <<< 3 = o.toNat * 8 := Nat.shiftLeft_eq o.toNat 3
  rw [Tagged.makeObj, BitVec.toNat_or, BitVec.toNat_shiftLeft, Nat.mod_eq_of_lt (by omega),
    show Tagged.tagChar.toNat = 3 from rfl, ← Nat.shiftLeft_add_eq_or_of_lt (by decide), shifted]

theorem char_charWord {c : Char} (short : c.toNat < 2 ^ 16) :
    Tagged.char (BitVec.ofNat 64 (charWord c)) = BitVec.ofNat 16 c.toNat := by
  have word : BitVec.ofNat 64 (charWord c) = Tagged.makeChar (BitVec.ofNat 16 c.toNat) := by
    apply BitVec.eq_of_toNat_eq
    rw [Tagged.makeChar, makeObj_char, BitVec.toNat_setWidth, BitVec.toNat_ofNat, BitVec.toNat_ofNat,
      charWord]
    · omega
    · rw [BitVec.toNat_setWidth, BitVec.toNat_ofNat]
      omega
  rw [word, Tagged.char_makeChar]

theorem num_value {i : Int} {w : Nat} (given : num? v = some i) (is : ValueIs img st L v w) :
    Small i ∧ w = numWord i := by
  unfold num? at given
  split at given
  · cases given
    cases is with
    | data is =>
      cases is with
      | num small => exact ⟨small, rfl⟩
  · cases given

theorem char_value {c : Char} {w : Nat} (given : char? v = some c) (is : ValueIs img st L v w) :
    c.toNat < 2 ^ 16 ∧ w = charWord c := by
  unfold char? at given
  split at given
  · cases given
    cases is with
    | data is =>
      cases is with
      | char short => exact ⟨short, rfl⟩
  · cases given

theorem number_word {i : Int} (small : Small i) : ValueIs img st L (number i) (numWord i) :=
  .data (.num small)

theorem listSize_word {i : Int} (small : Small i) : listSize (numWord i) = listCount i := by
  rw [listSize, fixnumOf, fixnum_numWord small, TwosComplement.setWidth_ofInt (by decide), listCount]

theorem lengthOf_deref (s : State) (v : Value) : lengthOf s.deref v = Values.listLength s v := by
  cases v with
  | atom a => cases a <;> rfl
  | proc n => rfl
  | ref n =>
    simp only [lengthOf, State.deref, Values.listLength]
    cases s.get n with
    | none => rfl
    | some o => cases o <;> rfl

/- One argument. -/

theorem returns_argument_at {argc i : Nat} (t : Vm.State) :
    Returns (argument argc i) t (t.thread.opstack (t.thread.opStackIdx - argc + i)) t := by
  unfold argument
  rw [returns_after (Vm.returns_get.mpr ⟨rfl, rfl⟩)]
  exact returns_pure.mpr ⟨rfl, rfl⟩

theorem charCode_small {c : Char} : Small (charCode c) := by
  have low := BitVec.le_toInt (BitVec.ofNat 16 c.toNat)
  have high := BitVec.toInt_lt (x := BitVec.ofNat 16 c.toNat)
  unfold VmValues.Small charCode
  omega

theorem answers_charToInteger {c : Char} {w : Nat} (rel : Represents img st T L s t.heap)
    (given : char? v = some c) (is : ValueIs img st L v w)
    (here : t.thread.opstack (t.thread.opStackIdx - 2 + 1) = w) :
    ∃ obj, Returns charToInteger t (some obj) t ∧
      Computes img st T L s (.value (number (charCode c))) t t obj := by
  obtain ⟨short, rfl⟩ := char_value given is
  have char : isChar (charWord c) = true := by
    rw [isChar, charWord, beq_iff_eq]
    omega
  have result : (Tagged.charToInteger (BitVec.ofNat 64 (charWord c))).toNat = numWord (charCode c) := by
    rw [Tagged.charToInteger, char_charWord short]
    rfl
  refine ⟨numWord (charCode c), ?_, computes_value rel (number_word charCode_small)⟩
  unfold charToInteger
  rw [returns_after (returns_argument_at t), here, if_pos char, result]
  exact returns_pure.mpr ⟨rfl, rfl⟩

theorem answers_integerToChar {c : Char} {w : Nat} (rel : Represents img st T L s t.heap)
    (given : (num? v).bind codeChar = some c) (is : ValueIs img st L v w)
    (here : t.thread.opstack (t.thread.opStackIdx - 2 + 1) = w) :
    ∃ obj, Returns integerToChar t (some obj) t ∧
      Computes img st T L s (.value (.atom (.data (.char c)))) t t obj := by
  obtain ⟨i, number, code⟩ := Option.bind_eq_some_iff.mp given
  obtain ⟨small, rfl⟩ := num_value number is
  unfold codeChar at code
  split at code
  · rename_i valid
    cases code
    have natural : (Char.ofNat i.toNat).toNat = i.toNat := by
      rw [Char.ofNat, dif_pos valid.2.2]
      rfl
    have short : (Char.ofNat i.toNat).toNat < 2 ^ 16 := by omega
    have fixnum : isFixnum (numWord i) = true := by
      rw [isFixnum, numWord_mod]
      rfl
    have result : (Tagged.makeObj (fixnumOf (numWord i)) Tagged.tagChar).toNat =
        charWord (Char.ofNat i.toNat) := by
      have word : (fixnumOf (numWord i)).toNat = i.toNat := by
        rw [fixnumOf, fixnum_numWord small, BitVec.toNat_ofInt]
        omega
      rw [makeObj_char (by omega), word, charWord, natural]
    refine ⟨_, ?_, computes_value rel (.data (.char short))⟩
    unfold integerToChar
    rw [returns_after (returns_argument_at t), here, if_pos fixnum, result]
    exact returns_pure.mpr ⟨rfl, rfl⟩
  · cases code

theorem fixnumWord_eq (n : Nat) : fixnumWord n = numWord n := by
  rw [fixnumWord, numWord, BitVec.ofInt_natCast]

theorem answers_length {n w : Nat} (rel : Represents img st T L s t.heap)
    (given : lengthOf s.deref v = some n) (is : ValueIs img st L v w)
    (here : t.thread.opstack (t.thread.opStackIdx - 2 + 1) = w) :
    ∃ obj, Returns (listLength img) t (some obj) t ∧
      Computes img st T L s (.value (number (n % 2 ^ 31 : Nat))) t t obj := by
  rw [lengthOf_deref] at given
  have small : Small (n % 2 ^ 31 : Nat) := by
    unfold VmValues.Small
    omega
  refine ⟨fixnumWord (n % 2 ^ 31), ?_, computes_value rel ?_⟩
  · unfold Primitives.listLength
    rw [returns_after (returns_argument_at t), returns_after (Vm.returns_get.mpr ⟨rfl, rfl⟩), here]
    by_cases null : w = Vm.cnull
    · rw [(null_word is).mp null] at given
      cases given
      rw [if_pos null]
      exact returns_pure.mpr ⟨rfl, rfl⟩
    · have list : (Values.listLength s v).isSome := by rw [given]; rfl
      have pair : (pairParts s v).isSome := by
        rcases listLength_some.mp list with never | both
        · exact absurd ((null_word is).mpr never) null
        · exact both.1
      obtain ⟨p, parts⟩ := Option.isSome_iff_exists.mp pair
      obtain ⟨words, found, _, _, marks⟩ := pair_words rel is (a := p.1) (d := p.2) parts
      rw [if_neg null, if_pos (by rw [isPair_value rel is]; exact pair),
        returns_after (Vm.returns_ofOption.mpr ⟨found, rfl⟩), if_pos (marks.list.mpr list),
        marks.length n given]
      exact returns_pure.mpr ⟨rfl, rfl⟩
  · rw [fixnumWord_eq]
    exact number_word small

/- Two arguments. -/

theorem answers_makeList {i : Int} {w x : Nat} {fill : Value} (rel : Represents img st T L s t.heap)
    (given : num? v = some i) (is : ValueIs img st L v w) (filled : ValueIs img st L fill x)
    (first : t.thread.opstack (t.thread.opStackIdx - 3 + 1) = w)
    (second : t.thread.opstack (t.thread.opStackIdx - 3 + 2) = x)
    (room : 32 * listSize w ≤ t.heap.fresh.freeMem) :
    ∃ u obj, Returns (makeList img) t (some obj) u ∧
      Computes img st T L s (listAnswer (.replicate (listCount i) fill)) t u obj := by
  obtain ⟨small, rfl⟩ := num_value given is
  rw [listSize_word small] at room
  have values : ∀ (j : Nat) u, (List.replicate (listCount i) fill)[j]? = some u →
      ValueIs img st L u x := by
    intro j u given
    rw [List.eq_of_mem_replicate (List.mem_of_getElem? given)]
    exact filled
  obtain ⟨u, obj, ran, computes⟩ := computes_list rel
    (fun _ t' => some (t'.opstack (t.thread.opStackIdx - 3 + 2))) (fun _ => x)
    (by rwa [List.length_replicate]) values (fun _ _ => by rw [second])
  rw [List.length_replicate] at ran
  have fixnum : isFixnum (numWord i) = true := by
    rw [isFixnum, numWord_mod]
    rfl
  refine ⟨u, obj, ?_, computes⟩
  unfold makeList
  rw [returns_after (Vm.returns_get.mpr ⟨rfl, rfl⟩), returns_after (returns_argument_at t), first,
    if_pos fixnum, listSize_word small, returns_after ran]
  exact returns_pure.mpr ⟨rfl, rfl⟩

theorem represents_foreign (rel : Represents img st T L s t.heap) (kind : Symbol) {type : BlockType}
    (size : Nat) (words : Nat → Nat) (foreign : foreignType kind = some type)
    (room : alignUp size + BHDR_SIZE ≤ t.heap.fresh.freeMem) :
    ∃ L', L.Grows L' ∧
      Represents img st T L' (s.alloc (.foreign kind)) (placeBlock t.heap type size words) ∧
      ValueIs img st L' (.ref s.top) (makeHeapPtr (nextMem t.heap)) := by
  have fresh := (no_place rel).1
  have grows : L.Grows (L.withObj s.top (nextMem t.heap)) := withObj_grows fresh
  refine ⟨L.withObj s.top (nextMem t.heap), grows, ?_, .ref (Function.update_self ..)⟩
  apply rel.grow grows (remains_alloc _) (includes_place rel.sound) (rel.sound.place room)
  · intro l mem given
    apply (update_some given).imp_right
    intro new
    obtain ⟨rfl, rfl⟩ := new
    exact .foreign (get_alloc_top _ _) foreign (placed_new rel.sound)
  · exact fun _ _ => .inl
  · exact fun _ _ _ => .inl
  · exact rel.obj_apart.update (nothing_linked rel).1
  · exact rel.proc_apart
  · exact rel.cell_apart

theorem answers_makeString {i : Int} {c : Char} {w x : Nat} {fill : Value}
    (rel : Represents img st T L s t.heap) (given : num? v = some i) (natural : 0 ≤ i)
    (char : char? fill = some c) (is : ValueIs img st L v w) (filled : ValueIs img st L fill x)
    (first : t.thread.opstack (t.thread.opStackIdx - 3 + 1) = w)
    (second : t.thread.opstack (t.thread.opStackIdx - 3 + 2) = x)
    (room : blockSize (16 + (fixnumOf w).toInt.toNat + 1) ≤ t.heap.fresh.freeMem) :
    ∃ u obj, Returns makeString t (some obj) u ∧ Computes img st T L s (.fresh "string") t u obj := by
  obtain ⟨small, rfl⟩ := num_value given is
  obtain ⟨short, rfl⟩ := char_value char filled
  have length : (fixnumOf (numWord i)).toInt = i := toInt_numWord small
  have both : (isFixnum (numWord i) && isChar (charWord c)) = true := by
    rw [isFixnum, numWord_mod, isChar, charWord, Bool.and_eq_true, beq_iff_eq, beq_iff_eq]
    omega
  rw [length] at room
  obtain ⟨L', grows, rel', is'⟩ := represents_foreign rel "string" (16 + i.toNat + 1)
    (filledWords (nextMem t.heap) i.toNat
      ((Tagged.char (BitVec.ofNat 64 (charWord c))).setWidth 8).toNat) rfl room
  refine ⟨{ t with heap := placeBlock t.heap .string (16 + i.toNat + 1) _ }, _, ?_,
    ⟨L', grows, rel', is'⟩, rfl, includes_place rel.sound⟩
  unfold makeString
  rw [returns_after (returns_argument_at t), first, returns_after (returns_argument_at t), second,
    if_pos both, length, if_neg (by omega), returns_after (returns_alloc rel.sound room),
    returns_after (place_write rfl)]
  exact returns_pure.mpr ⟨rfl, rfl⟩

/- Any number of arguments. -/

theorem answers_list (rel : Represents img st T L s t.heap)
    (enough : vs.length + 1 ≤ t.thread.opStackIdx)
    (values : WordsAre img st L vs t.thread.opstack (t.thread.opStackIdx - vs.length))
    (room : 32 * vs.length ≤ t.heap.fresh.freeMem) :
    ∃ u obj, Returns (list img (vs.length + 1)) t (some obj) u ∧
      Computes img st T L s (listAnswer vs) t u obj := by
  have start : t.thread.opStackIdx - (vs.length + 1) + 1 = t.thread.opStackIdx - vs.length := by
    omega
  obtain ⟨u, obj, ran, computes⟩ := computes_list rel
    (fun i t' => some (t'.opstack (t.thread.opStackIdx - vs.length + i)))
    (fun i => t.thread.opstack (t.thread.opStackIdx - vs.length + i)) room values (fun _ _ => rfl)
  refine ⟨u, obj, ?_, computes⟩
  unfold Primitives.list
  rw [returns_after (Vm.returns_get.mpr ⟨rfl, rfl⟩)]
  dsimp only
  rw [start, Nat.add_sub_cancel, Vm.list, returns_after ran]
  exact returns_pure.mpr ⟨rfl, rfl⟩

theorem unary_shape {d : Deref} {x : Symbol}
    (one : x ∈ ["display", "length", "char->integer", "integer->char"])
    (answer : primitiveCall d x vs = some a) : ∃ v, vs = [v] ∧ unaryCall d x v = some a := by
  simp only [List.mem_cons, List.not_mem_nil, or_false] at one
  rcases one with rfl | rfl | rfl | rfl <;> rcases vs with _ | ⟨v, _ | ⟨w, _ | ⟨u, us⟩⟩⟩ <;>
    simp_all [primitiveCall, binaryCall]

theorem binary_shape {d : Deref} {x : Symbol} (two : x ∈ ["$make-list", "make-string"])
    (answer : primitiveCall d x vs = some a) : ∃ v w, vs = [v, w] ∧ binaryCall x v w = some a := by
  simp only [List.mem_cons, List.not_mem_nil, or_false] at two
  rcases two with rfl | rfl <;> rcases vs with _ | ⟨v, _ | ⟨w, _ | ⟨u, us⟩⟩⟩ <;>
    simp_all [primitiveCall, unaryCall]

theorem nullary_shape {d : Deref} {x : Symbol} (none : x ∈ ["void", "eof-object"])
    (answer : primitiveCall d x vs = some a) : vs = [] := by
  simp only [List.mem_cons, List.not_mem_nil, or_false] at none
  rcases none with rfl | rfl <;> rcases vs with _ | ⟨v, _ | ⟨w, _ | ⟨u, us⟩⟩⟩ <;>
    simp_all [primitiveCall, unaryCall, binaryCall]

theorem primitive_args {d : Deref} {x : Symbol} {n : Vm.Native} (known : (x, n) ∈ primitives)
    (answer : primitiveCall d x vs = some a) :
    Vm.argsError n.hdr (vs.length + 1 : Nat) = none := by
  simp only [primitives, List.mem_cons, Prod.mk.injEq, List.not_mem_nil, or_false] at known
  rcases known with ⟨rfl, rfl⟩ | ⟨rfl, rfl⟩ | ⟨rfl, rfl⟩ | ⟨rfl, rfl⟩ | ⟨rfl, rfl⟩ | ⟨rfl, rfl⟩ |
    ⟨rfl, rfl⟩ | ⟨rfl, rfl⟩ | ⟨rfl, rfl⟩
  · simp [Vm.argsError, Vm.Native.hdr, Vm.makeNative]
  all_goals first
    | obtain ⟨v, rfl, _⟩ := unary_shape (by simp) answer; rfl
    | obtain ⟨v, w, rfl, _⟩ := binary_shape (by simp) answer; rfl
    | cases nullary_shape (by simp) answer; rfl

theorem answered {x : Symbol} {n : Vm.Native} (known : (x, n) ∈ primitives)
    (answer : primitiveCall s.deref x vs = some a) (rel : Represents img st T L s t.heap)
    (enough : vs.length + 1 ≤ t.thread.opStackIdx)
    (values : WordsAre img st L vs t.thread.opstack (t.thread.opStackIdx - vs.length))
    (room : memoryOf n (vs.length + 1) t ≤ t.heap.fresh.freeMem) :
    ∃ called u obj, call img (vs.length + 1) n = some called ∧ Returns called t (some obj) u ∧
      Computes img st T L s a t u obj := by
  have first : ∀ v, vs = [v] → ValueIs img st L v
      (t.thread.opstack (t.thread.opStackIdx - 2 + 1)) := by
    intro v same
    subst same
    rw [List.length_singleton] at enough values
    have value := values 0 v rfl
    rwa [show t.thread.opStackIdx - 1 + 0 = t.thread.opStackIdx - 2 + 1 by omega] at value
  have both : ∀ v w, vs = [v, w] →
      ValueIs img st L v (t.thread.opstack (t.thread.opStackIdx - 3 + 1)) ∧
        ValueIs img st L w (t.thread.opstack (t.thread.opStackIdx - 3 + 2)) := by
    intro v w same
    subst same
    simp only [List.length_cons, List.length_nil] at enough values
    have value := values 0 v rfl
    have value' := values 1 w rfl
    rw [show t.thread.opStackIdx - (0 + 1 + 1) + 0 = t.thread.opStackIdx - 3 + 1 by omega] at value
    rw [show t.thread.opStackIdx - (0 + 1 + 1) + 1 = t.thread.opStackIdx - 3 + 2 by omega] at value'
    exact ⟨value, value'⟩
  simp only [primitives, List.mem_cons, Prod.mk.injEq, List.not_mem_nil, or_false] at known
  rcases known with ⟨rfl, rfl⟩ | ⟨rfl, rfl⟩ | ⟨rfl, rfl⟩ | ⟨rfl, rfl⟩ | ⟨rfl, rfl⟩ | ⟨rfl, rfl⟩ |
    ⟨rfl, rfl⟩ | ⟨rfl, rfl⟩ | ⟨rfl, rfl⟩
  · cases answer
    obtain ⟨u, obj, ran, computes⟩ := answers_list rel enough values room
    exact ⟨_, u, obj, rfl, ran, computes⟩
  · obtain ⟨v, rfl, answer⟩ := unary_shape (by simp) answer
    obtain ⟨m, given, rfl⟩ := Option.map_eq_some_iff.mp answer
    obtain ⟨obj, ran, computes⟩ := answers_length rel given (first v rfl) rfl
    exact ⟨_, t, obj, rfl, ran, computes⟩
  · obtain ⟨v, w, rfl, answer⟩ := binary_shape (by simp) answer
    obtain ⟨i, given, rfl⟩ := Option.map_eq_some_iff.mp answer
    obtain ⟨is, filled⟩ := both v w rfl
    obtain ⟨u, obj, ran, computes⟩ := answers_makeList rel given is filled rfl rfl room
    exact ⟨_, u, obj, rfl, ran, computes⟩
  · obtain ⟨v, rfl, answer⟩ := unary_shape (by simp) answer
    cases answer
    exact ⟨_, t, _, rfl, returns_pure.mpr ⟨rfl, rfl⟩, computes_value rel .void⟩
  · cases nullary_shape (by simp) answer
    cases answer
    exact ⟨_, t, _, rfl, returns_pure.mpr ⟨rfl, rfl⟩, computes_value rel .void⟩
  · cases nullary_shape (by simp) answer
    cases answer
    exact ⟨_, t, _, rfl, returns_pure.mpr ⟨rfl, rfl⟩, computes_value rel .eof⟩
  · obtain ⟨v, rfl, answer⟩ := unary_shape (by simp) answer
    obtain ⟨c, given, rfl⟩ := Option.map_eq_some_iff.mp answer
    obtain ⟨obj, ran, computes⟩ := answers_charToInteger rel given (first v rfl) rfl
    exact ⟨_, t, obj, rfl, ran, computes⟩
  · obtain ⟨v, rfl, answer⟩ := unary_shape (by simp) answer
    obtain ⟨c, given, rfl⟩ := Option.map_eq_some_iff.mp answer
    obtain ⟨obj, ran, computes⟩ := answers_integerToChar rel given (first v rfl) rfl
    exact ⟨_, t, obj, rfl, ran, computes⟩
  · obtain ⟨v, w, rfl, answer⟩ := binary_shape (by simp) answer
    obtain ⟨i, given, answer⟩ := Option.bind_eq_some_iff.mp answer
    obtain ⟨c, char, answer⟩ := Option.bind_eq_some_iff.mp answer
    obtain ⟨is, filled⟩ := both v w rfl
    by_cases natural : 0 ≤ i
    · rw [if_pos natural] at answer
      cases answer
      obtain ⟨u, obj, ran, computes⟩ :=
        answers_makeString rel given natural char is filled rfl rfl room
      exact ⟨_, u, obj, rfl, ran, computes⟩
    · rw [if_neg natural] at answer
      cases answer

theorem Computes.answers {u : Vm.State} {obj : Nat} {s' : State}
    (computes : Computes img st T L s a t u obj) (heap : s'.heap = (s.build a).2.heap) :
    Answers img st T L (s.build a).1 s' t (pushed u obj) := by
  obtain ⟨L', grows, rel, is⟩ := computes.link
  have same := computes.same
  have remains : Remains (s.build a).2 s' := by
    intro l o here
    simpa only [State.get, heap] using here
  have stack : u.thread.opstack = t.thread.opstack := by rw [same]; rfl
  have idx : u.thread.opStackIdx = t.thread.opStackIdx := by rw [same]; rfl
  constructor
  · refine ⟨L', grows, rel.more remains (fun _ _ => id) rel.sound, ?_⟩
    rw [← idx, show (pushed u obj).thread.opstack u.thread.opStackIdx = obj from
      Function.update_self ..]
    exact is
  · rw [← idx]
    rfl
  · intro i below
    rw [← stack]
    exact Function.update_of_ne (Nat.ne_of_lt (by rwa [idx])) ..
  · rw [same]
    rfl
  · exact computes.includes.extends

theorem primitive_call (img : Vm.Image) {x : Symbol} {n : Vm.Native} (known : (x, n) ∈ primitives)
    (argc : Nat) : ∃ called, call img argc n = some called := by
  simp only [primitives, List.mem_cons, Prod.mk.injEq, List.not_mem_nil, or_false] at known
  rcases known with ⟨_, rfl⟩ | ⟨_, rfl⟩ | ⟨_, rfl⟩ | ⟨_, rfl⟩ | ⟨_, rfl⟩ | ⟨_, rfl⟩ | ⟨_, rfl⟩ |
    ⟨_, rfl⟩ | ⟨_, rfl⟩ <;> exact ⟨_, rfl⟩

theorem primitive_answers {N : Natives img} {x : Symbol} {n : Vm.Native} {s' : State}
    (known : (x, n) ∈ primitives)
    (answer : primitiveCall s.deref x vs = some a) (rel : Represents img st T L s t.heap)
    (enough : vs.length + 1 ≤ t.thread.opStackIdx)
    (values : WordsAre img st L vs t.thread.opstack (t.thread.opStackIdx - vs.length))
    (heap : s'.heap = (s.build a).2.heap) :
    (natives img N).short n (vs.length + 1 : Nat) t ∨ ∃ t',
      (natives img N).run n (vs.length + 1 : Nat) t = some t' ∧
        Answers img st T L (s.build a).1 s' t t' := by
  obtain ⟨called, is⟩ := primitive_call img known (vs.length + 1)
  have lacks : img.opStackSize ≤ t.thread.opStackIdx + 1 ∨
      t.heap.fresh.freeMem < memoryOf n (vs.length + 1) t →
      (natives img N).short n (vs.length + 1 : Nat) t := by
    intro lacks
    show short img N n _ t
    unfold short
    rw [Int.toNat_natCast, is]
    exact lacks
  by_cases stack : t.thread.opStackIdx + 1 < img.opStackSize
  · by_cases room : memoryOf n (vs.length + 1) t ≤ t.heap.fresh.freeMem
    · have args := primitive_args known answer
      obtain ⟨called', u, obj, is', ran, computes⟩ :=
        answered known answer rel enough values room
      have same : u.thread.opStackIdx = t.thread.opStackIdx := by
        rw [computes.same]
        rfl
      refine .inr ⟨pushed u obj, ?_, computes.answers heap⟩
      show run img N n _ t = _
      unfold run
      rw [Int.toNat_natCast, is']
      dsimp only
      rw [if_pos args, valueOf_some.mpr ran]
      exact returnObj_some.mpr (returns_push (by rwa [same]))
    · exact .inl (lacks (.inr (Nat.lt_of_not_le room)))
  · exact .inl (lacks (.inl (Nat.le_of_not_lt stack)))

end answers

/-- The other builtins do what they do in W. -/
abbrev OthersAgree (img : Vm.Image) (st : Statics) (W : World) (N : Natives img) : Prop :=
  AgreesOn (fun x => isPrimitive x = false) img st W N

section agrees
variable {img : Vm.Image} {st : Statics} {W : World} {N : Natives img}

theorem primitive_known {x : Symbol} {n : Vm.Native} (known : (x, n) ∈ globals)
    (primitive : isPrimitive x = true) : (x, n) ∈ primitives := by
  have all : ∀ p ∈ globals, isPrimitive p.1 = true → p ∈ primitives := by decide
  exact all (x, n) known primitive

theorem other_call {x : Symbol} {n : Vm.Native} (known : (x, n) ∈ globals)
    (other : isPrimitive x = false) (argc : Nat) : call img argc n = none := by
  have all : ∀ p ∈ globals, isPrimitive p.1 = false → p.2 ∉ primitives.map Prod.snd := by decide
  have apart : n ∉ primitives.map Prod.snd := all (x, n) known other
  cases n <;> first | rfl | exact absurd (by decide) apart

theorem agrees_primitives (agrees : OthersAgree img st W N) :
    Agrees img st (primitiveWorld W) (natives img N) := by
  have others : ∀ {x vs s}, isPrimitive x = false →
      callBuiltin (primitiveWorld W) x vs s = callBuiltin W x vs s := by
    intro x vs s other
    unfold callBuiltin
    simp only [primitiveWorld, other, Bool.false_eq_true, if_false]
  have answers : ∀ {x vs s v s'}, isPrimitive x = true →
      callBuiltin (primitiveWorld W) x vs s = some (v, s') → ∃ a,
        primitiveCall s.deref x vs = some a ∧ v = (s.build a).1 ∧ s'.heap = (s.build a).2.heap := by
    intro x vs s v s' primitive call
    unfold callBuiltin at call
    simp only [primitiveWorld, primitive, if_true] at call
    split at call
    · cases call
    · rename_i a answer
      simp only [Option.some.injEq, Prod.mk.injEq] at call
      obtain ⟨rfl, rfl⟩ := call
      refine ⟨a, answer, rfl, ?_⟩
      split <;> rfl
  constructor
  · intro x n vs s v s' known _ exits call
    cases primitive : isPrimitive x with
    | false =>
      rw [others primitive] at call
      exact agrees.count x n vs s v s' known primitive exits call
    | true =>
      obtain ⟨a, answer, _, _⟩ := answers primitive call
      exact primitive_args (primitive_known known primitive) answer
  · intro T L x n vs s v s' t known _ exits call' rel enough values
    cases primitive : isPrimitive x with
    | false =>
      rw [others primitive] at call'
      have nothing : call img (Int.toNat (vs.length + 1 : Nat)) n = none :=
        other_call known primitive _
      have ran := agrees.answers T L x n vs s v s' t known primitive exits call' rel enough values
      simpa only [natives, run, short, nothing] using ran
    | true =>
      obtain ⟨a, answer, rfl, heap⟩ := answers primitive call'
      exact primitive_answers (primitive_known known primitive) answer rel enough values heap

end agrees

end LGears.VmPrimitives
