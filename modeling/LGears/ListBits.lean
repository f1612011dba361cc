import LGears.Vm

/- The list bit and the length of a pair, which _cons takes from the pair behind it. -/
namespace LGears.ListBits
open Vm
open Gc hiding State Step Run

/-- pair_t; the length has 31 bits. -/
structure Pair where
  car : Nat
  cdr : Nat
  list : Bool
  length : Nat
  deriving DecidableEq, Repr

/-- The pairs in memory, by the objects that point to them. -/
abbrev Pairs := Nat → Option Pair

/-- The allocators: the heap of a thread, and the constant area of a module. -/
inductive Allocator where
  | heap
  | const
  deriving DecidableEq, Repr

/-- The id of an allocator is the tag of its pointers. -/
def Allocator.id : Allocator → Nat
  | heap => 1
  | const => ErrorHandlers.tagConstPtr

/-- A call of _cons: the new object, what its memory has held before, and the operands as they are
    after the allocation. -/
structure Call where
  al : Allocator
  obj : Nat
  prior : Pair
  car : Nat
  cdr : Nat

/-- (_cons al car cdr), what it writes to the pair. -/
def written (pairs : Pairs) (a : Call) : Pair :=
  if a.cdr = cnull then { car := a.car, cdr := a.cdr, list := true, length := 1 }
  else
    match pairs a.cdr with
    | some prev =>
      if prev.list then
        { car := a.car, cdr := a.cdr, list := true, length := (prev.length + 1) % 2 ^ 31 }
      else { a.prior with car := a.car, cdr := a.cdr }
    | none => { a.prior with car := a.car, cdr := a.cdr, list := false }

/-- (_cons al car cdr) -/
def cons (pairs : Pairs) (a : Call) : Pairs := Function.update pairs a.obj (some (written pairs a))

/-- IS_LIST(o) -/
def isList (pairs : Pairs) (o : Nat) : Bool :=
  ((pairs o).map Pair.list).getD false || o == cnull

/-- (list_length thread obj); none is RC_ERROR. -/
def listLength (pairs : Pairs) (obj : Nat) : Option Nat :=
  if obj = cnull then some 0
  else
    match pairs obj with
    | some pair => if pair.list then some pair.length else none
    | none => none

/-- The memory of a call is that of no object that a pair or the call refers to, and that of the
    heap is zero. -/
structure Fresh (pairs : Pairs) (a : Call) : Prop where
  tag : a.obj % 8 = a.al.id
  new : pairs a.obj = none
  operands : a.car ≠ a.obj ∧ a.cdr ≠ a.obj
  unused : ∀ o p, pairs o = some p → p.car ≠ a.obj ∧ p.cdr ≠ a.obj
  zero : a.al = .heap → a.prior = ⟨0, 0, false, 0⟩

def Pair.moved (move : Nat → Nat) (p : Pair) : Pair :=
  { p with car := move p.car, cdr := move p.cdr }

/-- A collection: the live pairs are moved, and pointers to blocks follow them. -/
structure Relocates (move : Nat → Nat) (live : Nat → Prop) (pairs pairs' : Pairs) : Prop where
  immediate : ∀ w, isHeapPtr w = false → move w = w
  pointer : ∀ w, isHeapPtr w = true → isHeapPtr (move w) = true
  follow : ∀ o p, live o → pairs o = some p → (pairs p.cdr).isSome → live p.cdr
  keeps : ∀ o p, live o → pairs o = some p → pairs' (move o) = some (p.moved move)
  comes : ∀ o' p', pairs' o' = some p' → ∃ o p, live o ∧ pairs o = some p ∧ move o = o'
  apart : ∀ o p q, live o → pairs o = some p → live q → (pairs q).isSome →
    move p.cdr = move q → p.cdr = q

/-- A call of _cons with c, or a collection. -/
inductive Step (c : Pairs → Call → Prop) : Pairs → Pairs → Prop where
  | cons {pairs : Pairs} {a : Call} (fresh : Fresh pairs a) (calls : c pairs a) :
      Step c pairs (cons pairs a)
  | collect {pairs pairs' : Pairs} {move : Nat → Nat} {live : Nat → Prop}
      (relocates : Relocates move live pairs pairs') : Step c pairs pairs'

/-- The pairs after calls of _cons with c and collections. -/
inductive Run (c : Pairs → Call → Prop) : Pairs → Prop where
  | init : Run c fun _ => none
  | step {pairs pairs' : Pairs} (run : Run c pairs) (step : Step c pairs pairs') : Run c pairs'

/-- Following cdr from o comes to null after n pairs. -/
inductive Chain (pairs : Pairs) : Nat → Nat → Prop where
  | null : Chain pairs cnull 0
  | pair {o n : Nat} {p : Pair} (here : pairs o = some p) (rest : Chain pairs p.cdr n) :
      Chain pairs o (n + 1)

/-- The list bits and the lengths are those of the chains. -/
structure Agrees (pairs : Pairs) : Prop where
  bit : ∀ o p, pairs o = some p → (p.list = true ↔ ∃ n, Chain pairs o n)
  length : ∀ o p n, pairs o = some p → Chain pairs o n → n < 2 ^ 31 → p.length = n
  isList : ∀ o, isList pairs o = true ↔ ∃ n, Chain pairs o n
  listLength : ∀ o n, Chain pairs o n → n < 2 ^ 31 → listLength pairs o = some n
  listFails : ∀ o, (¬ ∃ n, Chain pairs o n) → ListBits.listLength pairs o = none

/-- The memory does not say of a pair before a pair that is no list that it is one. -/
def Cleared (pairs : Pairs) (a : Call) : Prop :=
  ∀ prev, pairs a.cdr = some prev → prev.list = false → a.prior.list = false

/- What holds between the steps. -/

/-- The bit and the length of a pair are those of the chain behind it. -/
structure Right (pairs : Pairs) : Prop where
  null : pairs cnull = none
  bit : ∀ o p, pairs o = some p → (p.list = true ↔ ∃ n, Chain pairs p.cdr n)
  length : ∀ o p n, pairs o = some p → Chain pairs p.cdr n → p.length = (n + 1) % 2 ^ 31

section right
variable {pairs pairs' : Pairs} {a : Call} {o n : Nat} {p : Pair}

theorem Right.chain_null (right : Right pairs) : Chain pairs cnull n ↔ n = 0 := by
  constructor
  · intro chain
    generalize here : cnull = o at chain
    cases chain with
    | null => rfl
    | pair found rest =>
      subst here
      rw [right.null] at found
      cases found
  · intro zero
    subst zero
    exact .null

theorem Right.chain_pair (right : Right pairs) (here : pairs o = some p) :
    Chain pairs o n ↔ ∃ m, n = m + 1 ∧ Chain pairs p.cdr m := by
  constructor
  · intro chain
    cases chain with
    | null =>
      rw [right.null] at here
      cases here
    | pair found rest =>
      rw [here] at found
      cases found
      exact ⟨_, rfl, rest⟩
  · intro ⟨m, same, rest⟩
    subst same
    exact .pair here rest

theorem chain_other (none : pairs o = none) : Chain pairs o n ↔ o = cnull ∧ n = 0 := by
  constructor
  · intro chain
    cases chain with
    | null => exact ⟨rfl, rfl⟩
    | pair found rest =>
      rw [none] at found
      cases found
  · intro ⟨null, zero⟩
    subst null zero
    exact .null

theorem Right.agrees (right : Right pairs) : Agrees pairs := by
  have bit : ∀ o p, pairs o = some p → (p.list = true ↔ ∃ n, Chain pairs o n) := by
    intro o p here
    rw [right.bit o p here]
    constructor
    · intro ⟨n, chain⟩
      exact ⟨n + 1, .pair here chain⟩
    · intro ⟨n, chain⟩
      obtain ⟨m, _, rest⟩ := (right.chain_pair here).mp chain
      exact ⟨m, rest⟩
  have length : ∀ o p n, pairs o = some p → Chain pairs o n → n < 2 ^ 31 → p.length = n := by
    intro o p n here chain small
    obtain ⟨m, rfl, rest⟩ := (right.chain_pair here).mp chain
    rw [right.length o p m here rest, Nat.mod_eq_of_lt small]
  constructor
  · exact bit
  · exact length
  · intro o
    unfold ListBits.isList
    cases here : pairs o with
    | none => simp [chain_other here]
    | some p =>
      have other : o ≠ cnull := by
        intro null
        rw [null, right.null] at here
        cases here
      simp [other, bit o p here]
  · intro o n chain small
    unfold ListBits.listLength
    cases chain with
    | null => rfl
    | pair here rest =>
      rename_i n p
      have other : o ≠ cnull := by
        intro null
        rw [null, right.null] at here
        cases here
      have listed : p.list = true := (right.bit o p here).mpr ⟨n, rest⟩
      simp [other, here, listed, length o p (n + 1) here (.pair here rest) small]
  · intro o never
    unfold ListBits.listLength
    have other : o ≠ cnull := by
      intro null
      subst null
      exact never ⟨0, .null⟩
    rw [if_neg other]
    cases here : pairs o with
    | none => rfl
    | some p =>
      have unlisted : ¬ p.list = true := fun listed => never ((bit o p here).mp listed)
      simp [unlisted]

end right

section cons
variable {pairs : Pairs} {a : Call} {o n : Nat} {p : Pair}

theorem cons_obj : cons pairs a a.obj = some (written pairs a) := Function.update_self _ _ _

theorem cons_other (other : o ≠ a.obj) : cons pairs a o = pairs o := Function.update_of_ne other _ _

theorem written_cdr : (written pairs a).cdr = a.cdr := by
  unfold written
  split
  · rfl
  · split
    · split <;> rfl
    · rfl

theorem Fresh.not_null (fresh : Fresh pairs a) : cnull ≠ a.obj := by
  intro same
  have tag := fresh.tag
  rw [← same] at tag
  cases al : a.al with
  | heap =>
    rw [al] at tag
    cases tag
  | const =>
    rw [al] at tag
    cases tag

theorem Fresh.chain (fresh : Fresh pairs a) (other : o ≠ a.obj) :
    Chain (cons pairs a) o n ↔ Chain pairs o n := by
  constructor
  · intro chain
    induction chain with
    | null => exact .null
    | pair here rest ih =>
      rw [cons_other other] at here
      exact .pair here (ih (fresh.unused _ _ here).2)
  · intro chain
    induction chain with
    | null => exact .null
    | pair here rest ih =>
      apply Chain.pair
      · rw [cons_other other]
        exact here
      · exact ih (fresh.unused _ _ here).2

theorem Right.written_bit (right : Right pairs) (a : Call) :
    ((written pairs a).list = true ↔ ∃ n, Chain pairs a.cdr n) ↔ Cleared pairs a := by
  unfold written Cleared
  by_cases null : a.cdr = cnull
  · simp only [null, if_true, right.null, true_iff, reduceCtorEq, false_implies, implies_true,
      iff_true]
    exact ⟨0, .null⟩
  · rw [if_neg null]
    cases here : pairs a.cdr with
    | none => simp [chain_other here, null]
    | some prev =>
      have bit := right.bit _ prev here
      cases listed : prev.list with
      | true =>
        obtain ⟨n, rest⟩ := bit.mp listed
        have chain : ∃ n, Chain pairs a.cdr n := ⟨n + 1, .pair here rest⟩
        simp [listed, chain]
      | false =>
        have never : ¬ ∃ n, Chain pairs a.cdr n := by
          intro ⟨n, chain⟩
          obtain ⟨m, _, rest⟩ := (right.chain_pair here).mp chain
          rw [bit.mpr ⟨m, rest⟩] at listed
          cases listed
        simp [listed, never]

theorem Right.written_length (right : Right pairs) (chain : Chain pairs a.cdr n) :
    (written pairs a).length = (n + 1) % 2 ^ 31 := by
  unfold written
  by_cases null : a.cdr = cnull
  · rw [null, right.chain_null] at chain
    subst chain
    rw [if_pos null]
    rfl
  · rw [if_neg null]
    cases here : pairs a.cdr with
    | none => exact absurd ((chain_other here).mp chain).1 null
    | some prev =>
      obtain ⟨m, same, rest⟩ := (right.chain_pair here).mp chain
      have listed : prev.list = true := (right.bit _ prev here).mpr ⟨m, rest⟩
      simp only [listed, if_true]
      rw [right.length _ prev m here rest, ← same, Nat.mod_add_mod]

/- _cons keeps the bits right exactly when the memory is cleared where it relies on it. -/
theorem Right.cons_iff (right : Right pairs) (fresh : Fresh pairs a) :
    Right (cons pairs a) ↔ Cleared pairs a := by
  have behind : ∀ n, Chain (cons pairs a) (written pairs a).cdr n ↔ Chain pairs a.cdr n := by
    intro n
    rw [written_cdr, fresh.chain fresh.operands.2]
  constructor
  · intro after
    have bit := after.bit _ _ cons_obj
    simp only [behind] at bit
    exact (right.written_bit a).mp bit
  · intro cleared
    constructor
    · rw [cons_other fresh.not_null, right.null]
    · intro o p here
      by_cases new : o = a.obj
      · subst new
        rw [cons_obj, Option.some.injEq] at here
        subst here
        simp only [behind]
        exact (right.written_bit a).mpr cleared
      · rw [cons_other new] at here
        simp only [fresh.chain (fresh.unused o p here).2]
        exact right.bit o p here
    · intro o p n here chain
      by_cases new : o = a.obj
      · subst new
        rw [cons_obj, Option.some.injEq] at here
        subst here
        exact right.written_length ((behind n).mp chain)
      · rw [cons_other new] at here
        exact right.length o p n here ((fresh.chain (fresh.unused o p here).2).mp chain)

end cons

section collect
variable {pairs pairs' : Pairs} {move : Nat → Nat} {live : Nat → Prop} {o n : Nat} {p : Pair}

theorem Relocates.null_iff (relocates : Relocates move live pairs pairs') (w : Nat) :
    move w = cnull ↔ w = cnull := by
  constructor
  · intro same
    cases pointer : isHeapPtr w with
    | true =>
      have moved := relocates.pointer w pointer
      rw [same] at moved
      cases moved
    | false => rw [← same, relocates.immediate w pointer]
  · intro null
    rw [null]
    exact relocates.immediate cnull rfl

theorem Relocates.chain (relocates : Relocates move live pairs pairs') (chain : Chain pairs o n)
    (lives : (pairs o).isSome → live o) : Chain pairs' (move o) n := by
  induction chain with
  | null =>
    rw [(relocates.null_iff cnull).mpr rfl]
    exact .null
  | pair here rest ih =>
    have here' := relocates.keeps _ _ (lives (by rw [here]; rfl)) here
    apply Chain.pair here'
    exact ih (relocates.follow _ _ (lives (by rw [here]; rfl)) here)

theorem Relocates.chain_back (relocates : Relocates move live pairs pairs') {w : Nat}
    (chain : Chain pairs' w n) (lives : live o) (here : pairs o = some p) (same : move p.cdr = w) :
    Chain pairs p.cdr n := by
  induction chain generalizing o p with
  | null =>
    rw [(relocates.null_iff p.cdr).mp same]
    exact .null
  | pair here' rest ih =>
    obtain ⟨q, r, lives', there, place⟩ := relocates.comes _ _ here'
    have equal : p.cdr = q :=
      relocates.apart o p q lives here lives' (by rw [there]; rfl) (same.trans place.symm)
    have moved := relocates.keeps q r lives' there
    rw [place, here', Option.some.injEq] at moved
    subst moved
    rw [← equal] at there lives'
    exact .pair there (ih lives' there rfl)

theorem Right.collect (right : Right pairs) (relocates : Relocates move live pairs pairs') :
    Right pairs' := by
  have source : ∀ o' p', pairs' o' = some p' → ∃ o p, live o ∧ pairs o = some p ∧
      p' = p.moved move ∧ ∀ n, Chain pairs' p'.cdr n ↔ Chain pairs p.cdr n := by
    intro o' p' here'
    obtain ⟨o, p, lives, here, place⟩ := relocates.comes o' p' here'
    have moved := relocates.keeps o p lives here
    rw [place, here', Option.some.injEq] at moved
    subst moved
    refine ⟨o, p, lives, here, rfl, ?_⟩
    intro n
    constructor
    · intro chain
      exact relocates.chain_back chain lives here rfl
    · intro chain
      exact relocates.chain chain (relocates.follow o p lives here)
  constructor
  · cases null : pairs' cnull with
    | none => rfl
    | some p' =>
      obtain ⟨o, p, _, here, place⟩ := relocates.comes cnull p' null
      rw [(relocates.null_iff o).mp place, right.null] at here
      cases here
  · intro o' p' here'
    obtain ⟨o, p, _, here, moved, same⟩ := source o' p' here'
    simp only [same]
    rw [moved]
    exact right.bit o p here
  · intro o' p' n here' chain
    obtain ⟨o, p, _, here, moved, same⟩ := source o' p' here'
    rw [moved]
    exact right.length o p n here ((same n).mp chain)

end collect

theorem Right.init : Right fun _ => none := by
  constructor
  · rfl
  · intro o p never
    cases never
  · intro o p n never
    cases never

theorem Run.right {pairs : Pairs} (run : Run Cleared pairs) : Right pairs := by
  induction run with
  | init => exact Right.init
  | step run step ih =>
    cases step with
    | cons fresh cleared => exact (ih.cons_iff fresh).mpr cleared
    | collect relocates => exact ih.collect relocates

theorem Fresh.cleared {pairs : Pairs} {a : Call} (fresh : Fresh pairs a) (heap : a.al = .heap) :
    Cleared pairs a := by
  intro prev _ _
  rw [fresh.zero heap]

theorem Agrees.cleared {pairs : Pairs} {a : Call} (right : Right pairs) (fresh : Fresh pairs a)
    (agrees : Agrees (cons pairs a)) : Cleared pairs a := by
  rw [← right.written_bit a, agrees.bit _ _ cons_obj]
  constructor
  · intro ⟨n, chain⟩
    generalize here : a.obj = o at chain
    cases chain with
    | null => exact absurd here.symm fresh.not_null
    | pair found rest =>
      subst here
      rw [cons_obj, Option.some.injEq] at found
      subst found
      rw [written_cdr, fresh.chain fresh.operands.2] at rest
      exact ⟨_, rest⟩
  · intro ⟨n, chain⟩
    refine ⟨n + 1, .pair cons_obj ?_⟩
    rw [written_cdr, fresh.chain fresh.operands.2]
    exact chain

/- After calls with cleared memory and collections list? and length answer as if they walked along
   the chain, and a call leaves it so if and only if its memory is cleared. -/
theorem list_and_length_agree {pairs : Pairs} (run : Run Cleared pairs) : Agrees pairs ∧
    ∀ a, Fresh pairs a → (Agrees (cons pairs a) ↔ Cleared pairs a) := by
  have right := run.right
  constructor
  · exact right.agrees
  · intro a fresh
    constructor
    · intro agrees
      exact agrees.cleared right fresh
    · intro cleared
      exact ((right.cons_iff fresh).mpr cleared).agrees

theorem Fresh.first {a : Call} (tag : a.obj % 8 = a.al.id)
    (operands : a.car ≠ a.obj ∧ a.cdr ≠ a.obj)
    (zero : a.al = .heap → a.prior = ⟨0, 0, false, 0⟩) : Fresh (fun _ => none) a where
  tag := tag
  new := rfl
  operands := operands
  unused o p never := by cases never
  zero := zero

theorem Fresh.second {a b : Call} (tag : b.obj % 8 = b.al.id)
    (operands : b.car ≠ b.obj ∧ b.cdr ≠ b.obj)
    (apart : b.obj ≠ a.obj ∧ a.car ≠ b.obj ∧ a.cdr ≠ b.obj)
    (zero : b.al = .heap → b.prior = ⟨0, 0, false, 0⟩) : Fresh (cons (fun _ => none) a) b where
  tag := tag
  new := cons_other apart.1
  operands := operands
  unused o p here := by
    by_cases new : o = a.obj
    · subst new
      rw [cons_obj, Option.some.injEq] at here
      subst here
      have car : (written (fun _ => none) a).car = a.car := by
        unfold written
        split <;> rfl
      rw [car, written_cdr]
      exact apart.2
    · rw [cons_other new] at here
      cases here
  zero := zero

/-- (2) and (1 2) on the heap -/
def lastPair : Call := ⟨.heap, 9, ⟨0, 0, false, 0⟩, 16, cnull⟩
def firstPair : Call := ⟨.heap, 41, ⟨0, 0, false, 0⟩, 8, 9⟩

theorem list_and_length_agree_two :
    listLength (cons (cons (fun _ => none) lastPair) firstPair) 41 = some 2 ∧
      Agrees (cons (cons (fun _ => none) lastPair) firstPair) := by
  have one : Fresh (fun _ => none) lastPair := .first rfl (by decide) fun _ => rfl
  have two : Fresh (cons (fun _ => none) lastPair) firstPair :=
    .second rfl (by decide) (by decide) fun _ => rfl
  have run : Run Cleared (cons (cons (fun _ => none) lastPair) firstPair) :=
    .step (.step .init (.cons one (one.cleared rfl))) (.cons two (two.cleared rfl))
  exact ⟨rfl, (list_and_length_agree run).1⟩

/-- (2 . 3) and (1 2 . 3) in a constant area, whose memory is not zero -/
def dottedPair : Call := ⟨.const, 10, ⟨0, 0, true, 7⟩, 16, 24⟩
def beforeDotted : Call := ⟨.const, 42, ⟨0, 0, true, 7⟩, 8, 10⟩

/- list? takes (1 2 . 3) for a list, and length gives what was in the memory. -/
theorem improper_constant_is_list :
    Run (fun _ _ => True) (cons (cons (fun _ => none) dottedPair) beforeDotted) ∧
      isList (cons (cons (fun _ => none) dottedPair) beforeDotted) 42 = true ∧
      listLength (cons (cons (fun _ => none) dottedPair) beforeDotted) 42 = some 7 ∧
      ¬ ∃ n, Chain (cons (cons (fun _ => none) dottedPair) beforeDotted) 42 n := by
  have one : Fresh (fun _ => none) dottedPair := by
    apply Fresh.first
    · rfl
    · decide
    · intro never
      cases never
  have two : Fresh (cons (fun _ => none) dottedPair) beforeDotted := by
    apply Fresh.second
    · rfl
    · decide
    · decide
    · intro never
      cases never
  refine ⟨.step (.step .init (.cons one trivial)) (.cons two trivial), rfl, rfl, ?_⟩
  intro ⟨n, chain⟩
  cases chain with
  | pair first rest =>
    cases first
    cases rest with
    | pair second rest =>
      cases second
      cases rest with
      | pair third _ => cases third

/- The pairs of a thread. -/

/-- A pair in memory by its words. -/
def pairOf (words : Nat → Nat) : Pair :=
  ⟨words 0, words 1, words 2 % 2 == 1, words 2 / 2 % 2 ^ 31⟩

/-- The pairs that the virtual machine sees. -/
def pairsIn (img : Image) (h : Heap) : Pairs := fun o =>
  if isPair img h o then (wordsAt img h o).map pairOf else none

theorem isPair_words {img : Image} {h : Heap} {o : Nat} (pair : isPair img h o = true) :
    ∃ words, wordsAt img h o = some words := by
  unfold isPair isType at pair
  unfold wordsAt
  cases pointer : isHeapPtr o with
  | true =>
    rw [pointer, if_pos rfl] at pair
    cases found : h.cells (hdrOf o) with
    | none =>
      rw [found] at pair
      cases pair
    | some b => exact ⟨b.words, rfl⟩
  | false =>
    rw [pointer, if_neg Bool.false_ne_true] at pair
    cases found : img.area (ptr o) with
    | none =>
      rw [found] at pair
      simp at pair
    | some b => exact ⟨b.words, rfl⟩

theorem pairWords_written (img : Image) (h : Heap) (al : Allocator) (obj car cdr : Nat)
    (words : Nat → Nat) : pairOf (pairWords car cdr (pairMark img h cdr (words 2)) words) =
      written (pairsIn img h) ⟨al, obj, pairOf words, car, cdr⟩ := by
  unfold written pairMark
  by_cases null : cdr = cnull
  · simp [null, pairOf, pairWords]
  · simp only [null, if_false, pairsIn]
    cases pair : isPair img h cdr with
    | false => simp [pairOf, pairWords]
    | true =>
      obtain ⟨ws, found⟩ := isPair_words pair
      by_cases listed : ws 2 % 2 = 1
      · simp [found, listed, pairOf, pairWords]
        omega
      · simp [found, listed, pairOf, pairWords]

theorem isList_pairsIn (img : Image) (h : Heap) (o : Nat) :
    isList (pairsIn img h) o = Vm.isList img h o := by
  unfold isList Vm.isList pairsIn
  cases pair : isPair img h o with
  | false => rfl
  | true =>
    obtain ⟨ws, found⟩ := isPair_words pair
    simp [found, pairOf]

section minor
variable {img : Image} {t t' : Thread} {h h' : Heap} {o : Nat}

/-- The objects that a thread can reach; constants are always there. -/
def Live (t : Thread) (h : Heap) (o : Nat) : Prop := isHeapPtr o = true → Reach t h (hdrOf o)

open Classical in
/-- The pairs that a thread can reach. -/
noncomputable def livePairs (img : Image) (t : Thread) (h : Heap) : Pairs := fun o =>
  if Live t h o then pairsIn img h o else none

theorem moveWord_pointer {place : Nat → Nat} {w : Nat} (pointer : isHeapPtr w = true) :
    moveWord place false w = makeHeapPtr (place (hdrOf w) + BHDR_SIZE) := by
  simp [moveWord, Gc.target, pointer, redirect]

theorem isHeapPtr_makeHeapPtr (a : Nat) : isHeapPtr (makeHeapPtr a) = true := by
  simp only [isHeapPtr, makeHeapPtr, beq_iff_eq]
  omega

theorem livePairs_some {p : Pair} : livePairs img t h o = some p ↔
    Live t h o ∧ pairsIn img h o = some p := by
  unfold livePairs
  by_cases live : Live t h o <;> simp [live]

theorem pairsIn_heap {p : Pair} (pointer : isHeapPtr o = true) : pairsIn img h o = some p ↔
    ∃ b, h.cells (hdrOf o) = some b ∧ b.type = .pair ∧ pairOf b.words = p := by
  unfold pairsIn isPair isType wordsAt
  rw [if_pos pointer, if_pos pointer]
  cases h.cells (hdrOf o) with
  | none => simp
  | some b => by_cases type : b.type = .pair <;> simp [type]

theorem pairsIn_const {p : Pair} (const : isHeapPtr o = false) (here : pairsIn img h o = some p) :
    pairsIn img h' o = some p ∧ isHeapPtr p.car = false ∧ isHeapPtr p.cdr = false := by
  unfold pairsIn isPair isType wordsAt at here ⊢
  rw [const, if_neg Bool.false_ne_true, if_neg Bool.false_ne_true] at here ⊢
  refine ⟨here, ?_⟩
  cases found : img.area (ptr o) with
  | none => simp [found] at here
  | some b =>
    have apart := img.apart _ _ found
    by_cases type : b.type = .pair
    · by_cases tag : o % 8 = ErrorHandlers.tagConstPtr
      · simp only [found, Option.map_some, type, beq_self_eq_true, tag, if_true,
          Option.some.injEq] at here
        subst here
        exact apart
      · simp [tag] at here
    · simp [found, type] at here

theorem SameContent.pair {place : Nat → Nat} {c : Nat} {b b' : Block}
    (same : SameContent place c b b') (type : b.type = .pair) :
    pairOf b'.words = (pairOf b.words).moved (moveWord place false) := by
  have slots : slots b = [⟨0, false⟩, ⟨1, false⟩] := by rw [Gc.slots, type]
  have inner : innerPointer b = none := by rw [innerPointer, type]
  have car := same.slot ⟨0, false⟩ (by rw [slots]; decide)
  have cdr := same.slot ⟨1, false⟩ (by rw [slots]; decide)
  have mark := same.other 2 (by rw [slots]; decide) (by simp [inner])
  simp only at car cdr
  simp only [pairOf, Pair.moved, car, cdr, mark]

theorem Live.behind {p : Pair} (live : Live t h o) (here : pairsIn img h o = some p) :
    Live t h p.cdr := by
  intro pointer
  cases heap : isHeapPtr o with
  | true =>
    obtain ⟨b, at_o, type, rfl⟩ := (pairsIn_heap heap).mp here
    have slots : slots b = [⟨0, false⟩, ⟨1, false⟩] := by rw [Gc.slots, type]
    apply Rooted.Reached.edge (live heap)
    exact ⟨b, at_o, ⟨1, false⟩, by rw [slots]; decide, target_object.mpr ⟨pointer, rfl⟩⟩
  | false =>
    have const : pairsIn img h o = some p ∧ _ := pairsIn_const heap here
    rw [const.2.2] at pointer
    cases pointer

/-- The graph of the thread has been moved, from and to aligned addresses. -/
structure Moving (t : Thread) (h : Heap) (t' : Thread) (h' : Heap) (place : Nat → Nat) : Prop
    extends Isomorphic t h t' h' place where
  before : ∀ a, Reach t h a → a % 8 = 0 ∧ 0 < a
  after : ∀ c, Reach t' h' c → c % 8 = 0 ∧ 0 < c

theorem heapGc_moving (wf : WellFormed t h) (minor : h.fullGc = false)
    (result : heapGc t h = .ok (t', h')) : ∃ place, Moving t h t' h' place := by
  have collected := (wf.ends_minor minor).returned result
  obtain ⟨place, isomorphic, held, _⟩ := collected.isomorphic wf minor
  have layout := (ends_heapGc wf.quiet t).returned result |>.quiet.layout
  refine ⟨place, isomorphic, ?_, fun c reach => layout.aligned (held c reach)⟩
  intro a reach
  apply wf.quiet.layout.aligned
  exact (wf.aimed.block a reach.orOld).elim (fun young => .inl young) fun old => .inr (.inr old)

section moving
variable {place : Nat → Nat}

theorem moveWord_heap (pointer : isHeapPtr o = true) :
    isHeapPtr (moveWord place false o) = true := by
  rw [moveWord_pointer pointer]
  exact isHeapPtr_makeHeapPtr _

theorem Live.of_other (other : isHeapPtr o = false) : Live t h o := by
  intro pointer
  rw [other] at pointer
  cases pointer

theorem Moving.reached (moving : Moving t h t' h' place) {a : Nat} (reach : Reach t h a) :
    Reach t' h' (place a) := (moving.reach (place a)).mpr ⟨a, reach, rfl⟩

theorem Moving.hdr (moving : Moving t h t' h' place) (pointer : isHeapPtr o = true)
    (live : Live t h o) : hdrOf (moveWord place false o) = place (hdrOf o) := by
  rw [moveWord_pointer pointer]
  exact (hdrOf_makeHeapPtr (moving.after _ (moving.reached (live pointer))).1).2

theorem Moving.live (moving : Moving t h t' h' place) (live : Live t h o) :
    Live t' h' (moveWord place false o) := by
  cases pointer : isHeapPtr o with
  | true =>
    intro _
    rw [moving.hdr pointer live]
    exact moving.reached (live pointer)
  | false =>
    rw [ErrorHandlers.moveWord_other pointer]
    exact Live.of_other pointer

/-- A live pointer is given by the header it points behind. -/
theorem Moving.word (moving : Moving t h t' h' place) (pointer : isHeapPtr o = true)
    (live : Live t h o) : makeHeapPtr (hdrOf o + BHDR_SIZE) = o := by
  have aligned := moving.before _ (live pointer)
  exact redirect_target (target_object.mpr ⟨pointer, rfl⟩) aligned.2 aligned.1

theorem Moving.keeps (moving : Moving t h t' h' place) {p : Pair} (live : Live t h o)
    (here : pairsIn img h o = some p) :
    pairsIn img h' (moveWord place false o) = some (p.moved (moveWord place false)) := by
  cases pointer : isHeapPtr o with
  | true =>
    obtain ⟨b, at_o, type, rfl⟩ := (pairsIn_heap pointer).mp here
    obtain ⟨d, b', at_d, at_place, same⟩ := moving.block _ (live pointer)
    rw [at_o, Option.some.injEq] at at_d
    subst at_d
    apply (pairsIn_heap (moveWord_heap pointer)).mpr
    rw [moving.hdr pointer live]
    exact ⟨b', at_place, same.type.trans type, SameContent.pair same type⟩
  | false =>
    have const : pairsIn img h' o = some p ∧ _ := pairsIn_const pointer here
    obtain ⟨pair', car, cdr⟩ := const
    rw [ErrorHandlers.moveWord_other pointer, pair', Option.some.injEq, Pair.moved,
      ErrorHandlers.moveWord_other car, ErrorHandlers.moveWord_other cdr]

theorem Moving.comes (moving : Moving t h t' h' place) {o' : Nat} {p' : Pair}
    (live' : Live t' h' o') (pair' : pairsIn img h' o' = some p') :
    ∃ o p, Live t h o ∧ pairsIn img h o = some p ∧ moveWord place false o = o' := by
  cases pointer : isHeapPtr o' with
  | true =>
    obtain ⟨a, reach, place_eq⟩ := (moving.reach _).mp (live' pointer)
    have source := hdrOf_makeHeapPtr (moving.before a reach).1
    have live : Live t h (makeHeapPtr (a + BHDR_SIZE)) := by
      intro _
      rw [source.2]
      exact reach
    obtain ⟨b, b', at_a, at_place, same⟩ := moving.block a reach
    obtain ⟨d, at_o', type, _⟩ := (pairsIn_heap pointer).mp pair'
    rw [place_eq, at_o', Option.some.injEq] at at_place
    subst at_place
    refine ⟨makeHeapPtr (a + BHDR_SIZE), pairOf b.words, live, ?_, ?_⟩
    · refine (pairsIn_heap source.1).mpr ⟨b, ?_, same.type.symm.trans type, rfl⟩
      rw [source.2]
      exact at_a
    · rw [moveWord_pointer source.1, source.2, place_eq]
      have aligned := moving.after _ (live' pointer)
      exact redirect_target (target_object.mpr ⟨pointer, rfl⟩) aligned.2 aligned.1
  | false =>
    exact ⟨o', p', Live.of_other pointer, (pairsIn_const pointer pair').1,
      ErrorHandlers.moveWord_other pointer⟩

theorem Moving.apart (moving : Moving t h t' h' place) {v w : Nat} (live_v : Live t h v)
    (live_w : Live t h w) (same : moveWord place false v = moveWord place false w) : v = w := by
  have kinds := congrArg isHeapPtr same
  cases left : isHeapPtr v with
  | true =>
    cases right : isHeapPtr w with
    | true =>
      have places := congrArg hdrOf same
      rw [moving.hdr left live_v, moving.hdr right live_w] at places
      have blocks := moving.injective _ _ (live_v left) (live_w right) places
      rw [← moving.word left live_v, blocks, moving.word right live_w]
    | false =>
      rw [moveWord_heap left, ErrorHandlers.moveWord_other right, right] at kinds
      cases kinds
  | false =>
    cases right : isHeapPtr w with
    | true =>
      rw [moveWord_heap right, ErrorHandlers.moveWord_other left, left] at kinds
      cases kinds
    | false =>
      rw [ErrorHandlers.moveWord_other left, ErrorHandlers.moveWord_other right] at same
      exact same

theorem Moving.relocates (moving : Moving t h t' h' place) :
    Relocates (moveWord place false) (Live t h) (livePairs img t h) (livePairs img t' h') where
  immediate _ other := ErrorHandlers.moveWord_other other
  pointer _ := moveWord_heap
  follow _ _ live here _ := live.behind (livePairs_some.mp here).2
  keeps _ _ live here :=
    livePairs_some.mpr ⟨moving.live live, moving.keeps live (livePairs_some.mp here).2⟩
  comes _ _ here' := by
    obtain ⟨live', pair'⟩ := livePairs_some.mp here'
    obtain ⟨o, p, live, pair, same⟩ := moving.comes live' pair'
    exact ⟨o, p, live, livePairs_some.mpr ⟨live, pair⟩, same⟩
  apart _ _ _ live here live_q _ := moving.apart (live.behind (livePairs_some.mp here).2) live_q

end moving

theorem heapGc_relocates (wf : WellFormed t h) (minor : h.fullGc = false)
    (result : heapGc t h = .ok (t', h')) :
    ∃ move, Relocates move (Live t h) (livePairs img t h) (livePairs img t' h') := by
  obtain ⟨place, moving⟩ := heapGc_moving wf minor result
  exact ⟨moveWord place false, moving.relocates⟩

end minor

end LGears.ListBits
