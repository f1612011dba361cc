import LGears.VmHeap

/- The tests of the machine on words, and what they say about the values behind them. -/
namespace LGears.VmTests
open PrimitivesInfo Compiler CodeTables Values VmValues VmHeap
open Gc hiding State

/-- The tag of the word of a value. -/
def tagOf : Value → Nat
  | .atom (.data (.num _)) => 0
  | .atom (.data (.char _)) => 3
  | .atom (.data .null) | .atom (.data (.bool _)) | .atom .void | .atom .eof => 5
  | .atom (.data (.str _)) | .atom (.data (.sym _)) | .atom (.data (.pair _ _))
  | .atom (.data (.vec _)) => ErrorHandlers.tagConstPtr
  | .atom (.prim _) | .atom .done => ErrorHandlers.tagFunc
  | .ref _ | .proc _ => 1

/-- The type of the constant that a value is. -/
def constType : Value → Option Vm.ConstType
  | .atom (.data (.str _)) => some .string
  | .atom (.data (.sym _)) => some .symbol
  | .atom (.data (.pair _ _)) => some .pair
  | .atom (.data (.vec _)) => some .struct
  | _ => none

/-- The type of the block that a value is in the heap. -/
def blockType (s : State) : Value → Option BlockType
  | .ref n => match s.get n with
    | some (.pair _ _ _) => some .pair
    | some (.foreign kind) => foreignType kind
    | _ => none
  | .proc _ => some .closure
  | _ => none

/-- A value with one word, whatever it was made from. -/
def oneWord : Value → Bool
  | .atom (.data (.str _)) | .atom (.data (.pair _ _)) | .atom (.data (.vec _)) | .atom .done => false
  | _ => true

/-- Whether the words of the values say if they are equal: equal strings and equal compound
    literals may be at several places. -/
def comparable (v w : Value) : Bool :=
  v != .atom .done && w != .atom .done && (oneWord v || oneWord w)

section values
variable {img : Vm.Image} {st : Statics} {T : Tables} {L : Link} {s : State} {h : Heap}
  {v : Value} {w mem : Nat}

theorem heapPtr_mod (mem : Nat) : makeHeapPtr mem % 8 = 1 := by
  unfold makeHeapPtr
  omega

theorem func_mod (a : Nat) : Vm.makeFunc a % 8 = ErrorHandlers.tagFunc := by
  unfold Vm.makeFunc ErrorHandlers.tagFunc
  omega

theorem value_tag (is : ValueIs img st L v w) : w % 8 = tagOf v := by
  cases is with
  | data is =>
    cases is with
    | null => rfl
    | bool b => cases b <;> rfl
    | @char c short =>
      have low : charWord c % 8 = 3 := by
        unfold charWord
        omega
      exact low
    | num small => exact numWord_mod _
    | str here | sym here | pair here | vec here => exact here.tag
  | void => rfl
  | eof => rfl
  | prim known => exact func_mod _
  | done => exact func_mod _
  | ref at' => exact heapPtr_mod _
  | proc at' => exact heapPtr_mod _

theorem isHeapPtr_word (is : ValueIs img st L v w) : isHeapPtr w = (tagOf v == 1) := by
  rw [isHeapPtr, value_tag is]

theorem hdrOf_heapPtr (aligned : mem % 8 = 0) : hdrOf (makeHeapPtr mem) = mem - BHDR_SIZE := by
  unfold hdrOf ptr makeHeapPtr
  omega

theorem heap_block (rel : Represents img st T L s h) (is : ValueIs img st L v w)
    (pointer : tagOf v = 1) : ∃ b, h.cells (hdrOf w) = some b ∧ blockType s v = some b.type := by
  cases is with
  | data is => cases is <;> simp [tagOf, ErrorHandlers.tagConstPtr] at pointer
  | void | eof | prim | done => simp [tagOf, ErrorHandlers.tagFunc] at pointer
  | ref at' =>
    cases rel.obj _ _ at' with
    | @pair _ _ _ b object placed =>
      refine ⟨b, ?_, by simp [blockType, object, placed.type]⟩
      rw [hdrOf_heapPtr placed.aligned]
      exact placed.block
    | @foreign _ _ b object foreign placed =>
      refine ⟨b, ?_, by simp [blockType, object, foreign, placed.type]⟩
      rw [hdrOf_heapPtr placed.aligned]
      exact placed.block
  | proc at' =>
    obtain ⟨_, _, _, _, b, _, placed, _, _⟩ := (rel.proc _ _ at').closure
    refine ⟨b, ?_, by rw [blockType, placed.type]⟩
    rw [hdrOf_heapPtr placed.aligned]
    exact placed.block

theorem const_block (is : ValueIs img st L v w) (pointer : tagOf v = ErrorHandlers.tagConstPtr) :
    ∃ b, img.area (ptr w) = some b ∧ constType v = some b.type := by
  cases is with
  | data is =>
    cases is with
    | null | bool | char | num => simp [tagOf, ErrorHandlers.tagConstPtr] at pointer
    | str here | sym here | pair here | vec here =>
      exact ⟨_, here.block, by rw [constType, here.type]⟩
  | void | eof | prim | done | ref | proc =>
    simp [tagOf, ErrorHandlers.tagConstPtr, ErrorHandlers.tagFunc] at pointer

theorem constType_tag (v : Value) :
    (constType v).isSome = (tagOf v == ErrorHandlers.tagConstPtr) := by
  rcases v with ⟨_ | _ | _ | _ | _⟩ | _ | _
  · rename_i d
    cases d <;> rfl
  all_goals rfl

theorem blockType_tag (other : tagOf v ≠ 1) : blockType s v = none := by
  rcases v with _ | _ | _
  · rfl
  · exact absurd rfl other
  · exact absurd rfl other

theorem isType_value (rel : Represents img st T L s h) (is : ValueIs img st L v w)
    (type : BlockType) (const : Option Vm.ConstType) : Vm.isType img h w type const =
      (blockType s v == some type || ((constType v).isSome && constType v == const)) := by
  unfold Vm.isType
  rw [isHeapPtr_word is, value_tag is, constType_tag]
  by_cases pointer : tagOf v = 1
  · obtain ⟨b, here, same⟩ := heap_block rel is pointer
    simp [pointer, here, same, ErrorHandlers.tagConstPtr]
  · rw [blockType_tag pointer]
    by_cases area : tagOf v = ErrorHandlers.tagConstPtr
    · obtain ⟨b, here, same⟩ := const_block is area
      simp [area, here, same, ErrorHandlers.tagConstPtr]
    · simp [pointer, area]

/- Pairs. -/

theorem pairParts_blocks : (pairParts s v).isSome =
    (blockType s v == some .pair || constType v == some .pair) := by
  rcases v with ⟨_ | _ | _ | _ | _⟩ | n | _
  · rename_i d
    cases d <;> rfl
  · rfl
  · rfl
  · rfl
  · rfl
  · cases object : s.get n with
    | none => simp [pairParts, blockType, constType, object]
    | some o =>
      cases o with
      | pair a d len => simp [pairParts, blockType, constType, object]
      | foreign kind =>
        have other : foreignType kind ≠ some .pair := by
          unfold foreignType
          split <;> simp
        simp [pairParts, blockType, constType, object, other]
      | cell | closure => simp [pairParts, blockType, constType, object]
  · simp [pairParts, blockType, constType]

theorem isPair_value (rel : Represents img st T L s h) (is : ValueIs img st L v w) :
    Vm.isPair img h w = (pairParts s v).isSome := by
  rw [Vm.isPair, isType_value rel is, pairParts_blocks]
  cases constType v <;> rfl

theorem pair_words (rel : Represents img st T L s h) (is : ValueIs img st L v w) {a d : Value}
    (parts : pairParts s v = some (a, d)) : ∃ words, Vm.wordsAt img h w = some words ∧
      ValueIs img st L a (words 0) ∧ ValueIs img st L d (words 1) ∧
      Marks (words 2) (listLength s v) := by
  unfold Vm.wordsAt
  cases is with
  | data is' =>
    cases is' with
    | pair here car cdr marks =>
      cases parts
      rw [isHeapPtr_word (L := L) (.data (.pair here car cdr marks)), here.block]
      exact ⟨_, rfl, .data car, .data cdr, marks⟩
    | _ => cases parts
  | void | eof | prim | done | proc => cases parts
  | @ref n mem at' =>
    rw [isHeapPtr, heapPtr_mod]
    cases rel.obj _ _ at' with
    | pair object placed car cdr marks =>
      rw [pairParts, object] at parts
      cases parts
      rw [hdrOf_heapPtr placed.aligned, placed.block]
      refine ⟨_, rfl, car, cdr, ?_⟩
      rw [listLength, object]
      exact marks
    | foreign object =>
      rw [pairParts, object] at parts
      cases parts

/- Constants that are not pointers. -/

theorem null_word (is : ValueIs img st L v w) : w = Vm.cnull ↔ v = .atom (.data .null) := by
  constructor
  · intro same
    have tag := value_tag is
    rw [same] at tag
    cases is with
    | data is =>
      cases is with
      | null => rfl
      | bool b => cases b <;> cases same
      | _ => simp [tagOf, Vm.cnull, ErrorHandlers.tagConstPtr] at tag
    | void | eof => cases same
    | _ => simp [tagOf, Vm.cnull, ErrorHandlers.tagFunc] at tag
  · intro same
    subst same
    cases is with
    | data is =>
      cases is
      rfl

theorem bool_word (is : ValueIs img st L v w) (b : Bool) : w = Vm.cif b ↔ v = Values.bool b := by
  constructor
  · intro same
    have tag := value_tag is
    rw [same] at tag
    cases is with
    | data is =>
      cases is with
      | null => cases b <;> cases same
      | bool c => cases b <;> cases c <;> first | rfl | cases same
      | _ => cases b <;> simp [tagOf, Vm.cif, Vm.ctrue, Vm.cfalse, ErrorHandlers.tagConstPtr] at tag
    | void | eof => cases b <;> cases same
    | _ => cases b <;> simp [tagOf, Vm.cif, Vm.ctrue, Vm.cfalse, ErrorHandlers.tagFunc] at tag
  · intro same
    subst same
    cases is with
    | data is =>
      cases is
      rfl

theorem eof_word (is : ValueIs img st L v w) : w = Vm.ceof ↔ v = .atom .eof := by
  constructor
  · intro same
    have tag := value_tag is
    rw [same] at tag
    cases is with
    | data is =>
      cases is with
      | null => cases same
      | bool b => cases b <;> cases same
      | _ => simp [tagOf, Vm.ceof, ErrorHandlers.tagConstPtr] at tag
    | void => cases same
    | eof => rfl
    | _ => simp [tagOf, Vm.ceof, ErrorHandlers.tagFunc] at tag
  · intro same
    subst same
    cases is
    rfl

theorem truthy_word (is : ValueIs img st L v w) : truthy v = decide (w ≠ Vm.cfalse) := by
  have same := bool_word is false
  rw [show Vm.cif false = Vm.cfalse from rfl] at same
  simp [truthy, same, bne, beq_eq_decide]

theorem listLength_some : (listLength s v).isSome ↔
    v = .atom (.data .null) ∨ (pairParts s v).isSome ∧ (listLength s v).isSome := by
  constructor
  · intro some
    rcases v with ⟨_ | _ | _ | _ | _⟩ | n | _
    · rename_i d
      cases d with
      | null => exact .inl rfl
      | pair a d => exact .inr ⟨rfl, some⟩
      | _ => cases some
    · cases some
    · cases some
    · cases some
    · cases some
    · apply Or.inr
      cases object : s.get n with
      | none => simp [listLength, object] at some
      | some o =>
        cases o with
        | pair a d len => exact ⟨by simp [pairParts, object], some⟩
        | _ => simp [listLength, object] at some
    · cases some
  · intro either
    rcases either with null | both
    · rw [null]
      rfl
    · exact both.2

theorem isList_value (rel : Represents img st T L s h) (is : ValueIs img st L v w) :
    Vm.isList img h w = (listLength s v).isSome := by
  rw [Bool.eq_iff_iff, listLength_some, Vm.isList, isPair_value rel is, Bool.or_eq_true, beq_iff_eq,
    null_word is, or_comm]
  apply or_congr_right
  cases parts : pairParts s v with
  | none => simp
  | some p =>
    obtain ⟨words, here, _, _, marks⟩ := pair_words rel is (a := p.1) (d := p.2) parts
    simp [here, marks.list]

theorem marks_none : Marks 0 none := ⟨by simp, fun n given => by cases given⟩

theorem marks_next {word : Nat} {len : Option Nat} (marks : Marks word len) (some : len.isSome) :
    Marks (1 + 2 * ((word / 2 + 1) % 2 ^ 31)) (len.map (· + 1)) := by
  constructor
  · rw [Option.isSome_map, some, Nat.add_mul_mod_self_left]
    decide
  · intro n given
    obtain ⟨m, here, rfl⟩ := Option.map_eq_some_iff.mp given
    have before := marks.length m here
    omega

theorem pairMark_marks (rel : Represents img st T L s h) (is : ValueIs img st L v w) :
    Marks (Vm.pairMark img h w 0) ((listLength s v).map (· + 1)) := by
  unfold Vm.pairMark
  rw [isPair_value rel is]
  by_cases null : w = Vm.cnull
  · rw [if_pos null, (null_word is).mp null]
    exact ⟨by simp [listLength, datumLength], by simp [listLength, datumLength]⟩
  · have other := (null_word is).not.mp null
    rw [if_neg null]
    cases parts : pairParts s v with
    | none =>
      have none : listLength s v = none := by
        rw [← Option.not_isSome_iff_eq_none, listLength_some, parts]
        simp [other]
      rw [none]
      exact marks_none
    | some p =>
      obtain ⟨words, here, _, _, marks⟩ := pair_words rel is (a := p.1) (d := p.2) parts
      simp only [Option.isSome_some, if_true, here]
      by_cases list : words 2 % 2 = 1
      · rw [if_pos list]
        exact marks_next marks (marks.list.mp list)
      · have none : listLength s v = none := by
          rw [← Option.not_isSome_iff_eq_none, ← marks.list]
          exact list
        rw [if_neg list, none]
        exact marks_none

/- Type tests. -/

theorem tag_fixnum (v : Value) : (tagOf v == 0) = (num? v).isSome := by
  rcases v with ⟨_ | _ | _ | _ | _⟩ | _ | _
  · rename_i d
    cases d <;> rfl
  all_goals rfl

theorem foreign_struct (kind : Symbol) : foreignType kind = some .struct ↔ kind = "struct" := by
  unfold foreignType
  split <;> simp_all

theorem foreign_string (kind : Symbol) : foreignType kind = some .string ↔ kind = "string" := by
  unfold foreignType
  split <;> simp_all

theorem foreign_bytevector (kind : Symbol) :
    foreignType kind = some .bytevector ↔ kind = "bytevector" := by
  unfold foreignType
  split <;> simp_all

theorem foreign_block {type : BlockType} {name : Symbol}
    (named : ∀ kind, foreignType kind = some type ↔ kind = name) (pair : type ≠ .pair)
    (closure : type ≠ .closure) :
    (blockType s v == some type) = (foreignKind s v == some name) := by
  rw [Bool.eq_iff_iff, beq_iff_eq, beq_iff_eq]
  rcases v with _ | n | _
  · simp [blockType, foreignKind]
  · cases object : s.get n with
    | none => simp [blockType, foreignKind, object]
    | some o =>
      cases o with
      | foreign kind => simp [blockType, foreignKind, object, named]
      | _ => simp [blockType, foreignKind, object, Ne.symm pair]
  · simp [blockType, foreignKind, Ne.symm closure]

theorem isFunc_value (rel : Represents img st T L s h) (is : ValueIs img st L v w) :
    ErrorHandlers.isFunc h w = (tagOf v == ErrorHandlers.tagFunc ||
      (blockType s v == some .closure || blockType s v == some .cont)) := by
  unfold ErrorHandlers.isFunc
  rw [value_tag is, isHeapPtr_word is]
  by_cases pointer : tagOf v = 1
  · obtain ⟨b, here, same⟩ := heap_block rel is pointer
    simp [pointer, here, same, ErrorHandlers.tagFunc]
  · simp [pointer, blockType_tag pointer]

theorem typeTest_name {t : Symbol} {i : Nat} (code : Opcode.typeTest t = some i) :
    Opcode.typeTests[i]? = some t := by
  unfold Opcode.typeTest at code
  obtain ⟨inside, same, _⟩ := List.findIdx?_eq_some_iff_getElem.mp code
  rw [List.getElem?_eq_getElem inside, beq_iff_eq.mp same]

theorem tag_func : (tagOf v == ErrorHandlers.tagFunc ||
    (blockType s v == some .closure || blockType s v == some .cont)) = match v with
      | .proc _ | .atom (.prim _) | .atom .done => true
      | _ => false := by
  rcases v with ⟨_ | _ | _ | _ | _⟩ | n | _
  · rename_i d
    cases d <;> rfl
  · rfl
  · rfl
  · rfl
  · rfl
  · cases object : s.get n with
    | none => simp [blockType, object, tagOf, ErrorHandlers.tagFunc]
    | some o =>
      cases o with
      | foreign kind =>
        have other : foreignType kind ≠ some .closure ∧ foreignType kind ≠ some .cont := by
          unfold foreignType
          split <;> simp
        simp [blockType, object, tagOf, ErrorHandlers.tagFunc, other]
      | _ => simp [blockType, object, tagOf, ErrorHandlers.tagFunc]
  · rfl

theorem tag_char (v : Value) :
    (tagOf v == 3) = match v with | .atom (.data (.char _)) => true | _ => false := by
  rcases v with ⟨_ | _ | _ | _ | _⟩ | _ | _
  · rename_i d
    cases d <;> rfl
  all_goals rfl

theorem beq_word {c : Nat} {u : Value} (same : w = c ↔ v = u) : (w == c) = (v == u) := by
  rw [Bool.eq_iff_iff, beq_iff_eq, beq_iff_eq]
  exact same

theorem bool_test (v : Value) : (v == Values.bool true || v == Values.bool false) =
    match v with | .atom (.data (.bool _)) => true | _ => false := by
  rcases v with ⟨_ | _ | _ | _ | _⟩ | _ | _
  · rename_i d
    cases d with
    | bool b => cases b <;> rfl
    | _ => rfl
  all_goals rfl

theorem symbol_test (v : Value) : ((constType v).isSome && constType v == some .symbol) =
    match v with | .atom (.data (.sym _)) => true | _ => false := by
  rcases v with ⟨_ | _ | _ | _ | _⟩ | _ | _
  · rename_i d
    cases d <;> rfl
  all_goals rfl

theorem struct_test (v : Value) :
    (foreignKind s v == some "struct" || ((constType v).isSome && constType v == some .struct)) =
      match v with | .atom (.data (.vec _)) => true | v => foreignKind s v == some "struct" := by
  rcases v with ⟨_ | _ | _ | _ | _⟩ | n | _
  · rename_i d
    cases d <;> rfl
  all_goals simp [constType]

theorem string_test (v : Value) :
    (foreignKind s v == some "string" || ((constType v).isSome && constType v == some .string)) =
      match v with | .atom (.data (.str _)) => true | v => foreignKind s v == some "string" := by
  rcases v with ⟨_ | _ | _ | _ | _⟩ | n | _
  · rename_i d
    cases d <;> rfl
  all_goals simp [constType]

theorem foreign_plain (kind : Symbol) : foreignType kind ≠ some .plain := by
  unfold foreignType
  split <;> simp

theorem block_plain : (blockType s v == some .plain) = false := by
  rcases v with _ | n | _
  · rfl
  · cases object : s.get n with
    | none => simp [blockType, object]
    | some o =>
      cases o with
      | foreign kind => simp [blockType, object, foreign_plain]
      | _ => simp [blockType, object]
  · rfl

theorem typeTest_value (rel : Represents img st T L s h) (is : ValueIs img st L v w) {t : Symbol}
    {i : Nat} {b : Bool} (code : Opcode.typeTest t = some i)
    (tested : Values.typeTest s t v = some b) : Vm.typeTest img h w i = some b := by
  have named := typeTest_name code
  have inside := (List.getElem?_eq_some_iff.mp named).1
  match i, inside with
  | 0, _ =>
    cases named
    have test : (num? v).isSome = b := Option.some.inj tested
    rw [Vm.typeTest, value_tag is, tag_fixnum, test]
  | 1, _ =>
    cases named
    have test : (v == .atom (.data .null)) = b := Option.some.inj tested
    rw [Vm.typeTest, beq_word (null_word is), test]
  | 2, _ =>
    cases named
    have test : (listLength s v).isSome = b := Option.some.inj tested
    rw [Vm.typeTest, isList_value rel is, test]
  | 3, _ =>
    cases named
    have test : (pairParts s v).isSome = b := Option.some.inj tested
    rw [Vm.typeTest, isPair_value rel is, test]
  | 4, _ =>
    cases named
    rw [Vm.typeTest, isFunc_value rel is, tag_func]
    exact tested
  | 5, _ =>
    cases named
    have yes : (w == Vm.ctrue) = (v == Values.bool true) := beq_word (bool_word is true)
    have no : (w == Vm.cfalse) = (v == Values.bool false) := beq_word (bool_word is false)
    rw [Vm.typeTest, yes, no, bool_test]
    exact tested
  | 6, _ =>
    cases named
    rw [Vm.typeTest, value_tag is, tag_char]
    exact tested
  | 7, _ =>
    cases named
    rw [Vm.typeTest, isType_value rel is, block_plain, symbol_test]
    exact tested
  | 8, _ =>
    cases named
    rw [Vm.typeTest, isType_value rel is, foreign_block foreign_struct (by simp) (by simp),
      struct_test]
    exact tested
  | 9, _ =>
    cases named
    rw [Vm.typeTest, isType_value rel is, foreign_block foreign_string (by simp) (by simp),
      string_test]
    exact tested
  | 10, _ =>
    cases named
    have test : (foreignKind s v == some "bytevector") = b := Option.some.inj tested
    rw [Vm.typeTest, isType_value rel is, foreign_block foreign_bytevector (by simp) (by simp), test]
    cases constType v <;> simp
  | 11, _ =>
    cases named
    have test : (v == .atom .eof) = b := Option.some.inj tested
    rw [Vm.typeTest, beq_word (eof_word is), test]

/- Comparisons. -/

theorem heapPtr_inj {mem mem' : Nat} (aligned : mem % 8 = 0) (aligned' : mem' % 8 = 0)
    (same : makeHeapPtr mem = makeHeapPtr mem') : mem = mem' := by
  unfold makeHeapPtr at same
  omega

theorem func_inj {a b : Nat} (aligned : a % 8 = 0) (aligned' : b % 8 = 0)
    (same : Vm.makeFunc a = Vm.makeFunc b) : a = b := by
  unfold Vm.makeFunc ErrorHandlers.tagFunc at same
  omega

theorem char_inj {c d : Char} (same : charWord c = charWord d) : c = d := by
  unfold charWord at same
  apply Char.toNat_inj.mp
  omega

theorem same_word (resolved : Resolved img st) {a b : Nat} (one : oneWord v = true)
    (is : ValueIs img st L v a) (is' : ValueIs img st L v b) : a = b := by
  cases is with
  | data is =>
    cases is' with
    | data is' =>
      cases is with
      | sym here text =>
        cases is' with
        | sym here' text' => exact resolved.symbols _ _ _ _ _ here here' text text'
      | str | pair | vec => cases one
      | _ =>
        cases is'
        rfl
  | ref at' =>
    cases is' with
    | ref at'' =>
      rw [at'] at at''
      cases at''
      rfl
  | proc at' =>
    cases is' with
    | proc at'' =>
      rw [at'] at at''
      cases at''
      rfl
  | _ =>
    cases is'
    rfl

theorem same_symbol {x : Symbol} {b : Vm.ConstBlock} (here : ConstAt img .symbol w b)
    (text : st.text (ptr w) = some x) (is : ValueIs img st L v w) : v = .atom (.data (.sym x)) := by
  have area : tagOf v = ErrorHandlers.tagConstPtr := (value_tag is).symm.trans here.tag
  obtain ⟨c, there, type⟩ := const_block is area
  rw [here.block, Option.some.injEq] at there
  rw [← there, here.type] at type
  cases is with
  | data is =>
    cases is with
    | sym here' text' =>
      rw [text, Option.some.injEq] at text'
      rw [text']
    | _ => cases type
  | _ => cases type

theorem same_func (resolved : Resolved img st) {x : Symbol} {n : Vm.Native}
    (known : (x, n) ∈ globals) (is : ValueIs img st L v (Vm.makeFunc (st.builtin x)))
    (other : v ≠ .atom .done) : v = .atom (.prim x) := by
  have tag := (value_tag is).symm.trans (func_mod _)
  generalize same : Vm.makeFunc (st.builtin x) = w at is
  cases is with
  | data is => cases is <;> simp [tagOf, ErrorHandlers.tagFunc, ErrorHandlers.tagConstPtr] at tag
  | @prim y m known' =>
    have place := func_inj (resolved.aligned x n known) (resolved.aligned y m known') same
    rw [resolved.distinct x n y m known known' place]
  | done => exact absurd rfl other
  | _ => simp [tagOf, ErrorHandlers.tagFunc] at tag

theorem same_number {i : Int} (small : Small i) (is : ValueIs img st L v (numWord i)) :
    v = .atom (.data (.num i)) := by
  have tag := (value_tag is).symm.trans (numWord_mod i)
  generalize same : numWord i = w at is
  cases is with
  | data is =>
    cases is with
    | num small' => rw [numWord_inj small small' same]
    | _ => simp [tagOf, ErrorHandlers.tagConstPtr] at tag
  | _ => simp [tagOf, ErrorHandlers.tagFunc] at tag

theorem same_char {c : Char} (is : ValueIs img st L v (charWord c)) : v = .atom (.data (.char c)) := by
  have low : charWord c % 8 = 3 := by
    unfold charWord
    omega
  have tag := (value_tag is).symm.trans low
  generalize same : charWord c = w at is
  cases is with
  | data is =>
    cases is with
    | char short => rw [char_inj same]
    | _ => simp [tagOf, ErrorHandlers.tagConstPtr] at tag
  | _ => simp [tagOf, ErrorHandlers.tagFunc] at tag

theorem same_void (is : ValueIs img st L v Vm.cvoid) : v = .atom .void := by
  have tag := value_tag is
  generalize same : Vm.cvoid = w at is
  cases is with
  | data is =>
    cases is with
    | null => cases same
    | bool b => cases b <;> cases same
    | _ => simp [tagOf, Vm.cvoid, ErrorHandlers.tagConstPtr] at tag
  | void => rfl
  | eof => cases same
  | _ => simp [tagOf, Vm.cvoid, ErrorHandlers.tagFunc] at tag

theorem same_object (rel : Represents img st T L s h) {v' : Value} (is : ValueIs img st L v w)
    (is' : ValueIs img st L v' w) (pointer : tagOf v = 1) : v = v' := by
  have pointer' : tagOf v' = 1 := (value_tag is').symm.trans ((value_tag is).trans pointer)
  have places : ∀ {m m' : Nat} {b b' : Block} {t t' : BlockType}, Placed h m t b →
      Placed h m' t' b' → makeHeapPtr m = makeHeapPtr m' → m = m' ∧ t = t' := by
    intro m m' b b' t t' placed placed' same
    have same := heapPtr_inj placed.aligned placed'.aligned same
    have block := placed.block
    rw [same, placed'.block, Option.some.injEq] at block
    exact ⟨same, by rw [← placed.type, ← placed'.type, block]⟩
  have objects : ∀ {n m : Nat}, L.obj n = some m → ∃ t b, Placed h m t b ∧ t ≠ .closure := by
    intro n m at'
    cases rel.obj n m at' with
    | pair object placed => exact ⟨_, _, placed, by simp⟩
    | @foreign kind type b object foreign placed =>
      refine ⟨_, _, placed, ?_⟩
      intro closure
      rw [closure] at foreign
      unfold foreignType at foreign
      split at foreign <;> cases foreign
  have closures : ∀ {n m : Nat}, L.proc n = some m → ∃ b, Placed h m .closure b := by
    intro n m at'
    obtain ⟨_, _, _, _, b, _, placed, _, _⟩ := (rel.proc n m at').closure
    exact ⟨b, placed⟩
  generalize same : w = w' at is'
  cases is with
  | @ref n m at' =>
    obtain ⟨t, b, placed, other⟩ := objects at'
    cases is' with
    | @ref n' m' at'' =>
      obtain ⟨t', b', placed', _⟩ := objects at''
      rw [rel.obj_apart n n' m at' ((places placed placed' same).1 ▸ at'')]
    | proc at'' =>
      obtain ⟨b', placed'⟩ := closures at''
      exact absurd (places placed placed' same).2 other
    | data is' => cases is' <;> simp [tagOf, ErrorHandlers.tagConstPtr] at pointer'
    | _ => simp [tagOf, ErrorHandlers.tagFunc] at pointer'
  | @proc n m at' =>
    obtain ⟨b, placed⟩ := closures at'
    cases is' with
    | ref at'' =>
      obtain ⟨t', b', placed', other⟩ := objects at''
      exact absurd (places placed placed' same).2.symm other
    | @proc n' m' at'' =>
      obtain ⟨b', placed'⟩ := closures at''
      rw [rel.proc_apart n n' m at' ((places placed placed' same).1 ▸ at'')]
    | data is' => cases is' <;> simp [tagOf, ErrorHandlers.tagConstPtr] at pointer'
    | _ => simp [tagOf, ErrorHandlers.tagFunc] at pointer'
  | data is => cases is <;> simp [tagOf, ErrorHandlers.tagConstPtr] at pointer
  | _ => simp [tagOf, ErrorHandlers.tagFunc] at pointer

theorem same_value (rel : Represents img st T L s h) (resolved : Resolved img st) {v' : Value}
    (one : oneWord v = true) (other : v' ≠ .atom .done) (is : ValueIs img st L v w)
    (is' : ValueIs img st L v' w) : v' = v := by
  cases is with
  | data is =>
    cases is with
    | null => exact (null_word is').mp rfl
    | bool b => exact (bool_word is' b).mp rfl
    | char short => exact same_char is'
    | num small => exact same_number small is'
    | sym here text => exact same_symbol here text is'
    | _ => cases one
  | void => exact same_void is'
  | eof => exact (eof_word is').mp rfl
  | prim known => exact same_func resolved known is' other
  | done => cases one
  | ref at' => exact (same_object rel (.ref at') is' rfl).symm
  | proc at' => exact (same_object rel (.proc at') is' rfl).symm

theorem comparable_words (rel : Represents img st T L s h) (resolved : Resolved img st) {v' : Value}
    {a b : Nat} (may : comparable v v' = true) (is : ValueIs img st L v a)
    (is' : ValueIs img st L v' b) : a = b ↔ v = v' := by
  simp only [comparable, Bool.and_eq_true, bne_iff_ne, Bool.or_eq_true] at may
  obtain ⟨⟨first, second⟩, one⟩ := may
  constructor
  · intro same
    subst same
    rcases one with one | one
    · exact (same_value rel resolved one second is is').symm
    · exact same_value rel resolved one first is' is
  · intro same
    subst same
    rcases one with one | one <;> exact same_word resolved one is is'

theorem word_lt (rel : Represents img st T L s h) (resolved : Resolved img st)
    (is : ValueIs img st L v w) : w < 2 ^ 64 := by
  have pointers : ∀ {m : Nat} {t : BlockType} {b : Block}, Placed h m t b →
      makeHeapPtr m < 2 ^ 64 := by
    intro m t b placed
    have below := rel.sound.below _ _ placed.block
    have bounded := rel.sound.bounded
    have low := placed.low
    have aligned := placed.aligned
    unfold makeHeapPtr
    omega
  cases is with
  | data is =>
    cases is with
    | null => decide
    | bool b => cases b <;> decide
    | char short =>
      unfold charWord
      omega
    | num small => exact numWord_lt _
    | str here | sym here | pair here | vec here => exact here.bounded
  | void => decide
  | eof => decide
  | prim known =>
    have := resolved.bounded _ _ known
    unfold Vm.makeFunc ErrorHandlers.tagFunc
    omega
  | done =>
    have := resolved.exit_bounded
    unfold Vm.makeFunc ErrorHandlers.tagFunc
    omega
  | ref at' =>
    cases rel.obj _ _ at' with
    | pair object placed => exact pointers placed
    | foreign object foreign placed => exact pointers placed
  | proc at' =>
    obtain ⟨_, _, _, _, b, _, placed, _, _⟩ := (rel.proc _ _ at').closure
    exact pointers placed

end values

end LGears.VmTests
