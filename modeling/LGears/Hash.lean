import Mathlib.Data.BitVec
import Mathlib.Data.List.Pairwise
import Mathlib.Tactic.Common

/- The hash table of hash.c, and the symbols that make_symbol interns with it. -/
namespace LGears.Hash

def HASH_TABLE_MIN_SIZE : Nat := 11
def HASH_TABLE_MAX_SIZE : Nat := 13845163

/-- CLAMP(x, low, high) -/
def clamp (x low high : Nat) : Nat := if high < x then high else if x < low then low else x

def primes : List Nat :=
  [11, 19, 37, 73, 109, 163, 251, 367, 557, 823, 1237, 1861, 2777, 4177, 6247, 9371, 14057, 21089,
    31627, 47431, 71143, 106721, 160073, 240101, 360163, 540217, 810343, 1215497, 1823231, 2734867,
    4102283, 6153409, 9230113, 13845163]

/-- (spaced_primes_closest num) -/
def spacedPrimesClosest (num : Nat) : Nat :=
  match primes.find? fun prime => num < prime with
  | some prime => prime
  | none => primes.getLastD 0

/-- The value of an int, which wraps around. -/
def int (n : Int) : Int := n.bmod (2 ^ 32)

structure HashNode (K V : Type) where
  key : K
  val : V
  keyHash : Nat

/-- A table; each bucket is the chain of its nodes. The size is always one of primes. -/
structure HashTable (K V : Type) where
  size : Nat
  /-- An int, so that it wraps around. -/
  nnodes : Int
  nodes : List (List (HashNode K V))
  hash : K → Nat
  /-- NULL stands for the equality of pointers. -/
  equal : Option (K → K → Bool)

section table
variable {K V : Type} [DecidableEq K]

/-- (hash_table_init tbl hash equal) -/
def hashTableInit (hash : K → Nat) (equal : Option (K → K → Bool)) : HashTable K V where
  size := HASH_TABLE_MIN_SIZE
  nnodes := 0
  nodes := List.replicate HASH_TABLE_MIN_SIZE []
  hash := hash
  equal := equal

/-- A node is linked in front of the chain of its bucket. -/
def relink (newSize : Nat) (newNodes : List (List (HashNode K V))) (node : HashNode K V) :
    List (List (HashNode K V)) :=
  newNodes.modify (node.keyHash % newSize) fun chain => node :: chain

/-- (hash_table_resize tbl); nnodes is passed on as an unsigned. -/
def hashTableResize (tbl : HashTable K V) : HashTable K V :=
  let num := (tbl.nnodes % 2 ^ 32).toNat
  let newSize := clamp (spacedPrimesClosest num) HASH_TABLE_MIN_SIZE HASH_TABLE_MAX_SIZE
  { tbl with
    nodes := tbl.nodes.foldl (fun newNodes chain => chain.foldl (relink newSize) newNodes)
      (List.replicate newSize [])
    size := newSize }

/-- (hash_table_maybe_resize tbl) -/
def hashTableMaybeResize (tbl : HashTable K V) : HashTable K V :=
  let nnodes := tbl.nnodes
  let size := tbl.size
  if size ≥ int (3 * nnodes) ∧ size > HASH_TABLE_MIN_SIZE ∨
      3 * size ≤ nnodes ∧ size < HASH_TABLE_MAX_SIZE then hashTableResize tbl
  else tbl

/-- The test of the loops in hash_table_lookup_node. -/
def isAt (tbl : HashTable K V) (key : K) (node : HashNode K V) : Bool :=
  match tbl.equal with
  | some equal => node.keyHash == tbl.hash key && equal node.key key
  | none => node.key == key

/-- (hash_table_lookup_node tbl key hash_return): the bucket of the key, and the first node in it that
    is one of the key. -/
def hashTableLookupNode (tbl : HashTable K V) (key : K) : Nat × Option (HashNode K V) :=
  let bucket := tbl.hash key % tbl.size
  (bucket, (tbl.nodes.getD bucket []).find? (isAt tbl key))

/-- (hash_table_lookup tbl key); NULL is none. -/
def hashTableLookup (tbl : HashTable K V) (key : K) : Option V :=
  (hashTableLookupNode tbl key).2.map HashNode.val

/-- The first node that is one of the key gets the value. -/
def setVal (tbl : HashTable K V) (key : K) (val : V) : List (HashNode K V) → List (HashNode K V)
  | [] => []
  | node :: chain =>
    if isAt tbl key node then { node with val := val } :: chain else node :: setVal tbl key val chain

/-- (hash_table_insert tbl key val) -/
def hashTableInsert (tbl : HashTable K V) (key : K) (val : V) : HashTable K V :=
  match hashTableLookupNode tbl key with
  | (bucket, some _) => { tbl with nodes := tbl.nodes.modify bucket (setVal tbl key val) }
  | (bucket, none) => hashTableMaybeResize { tbl with
      nodes := tbl.nodes.modify bucket fun chain => chain ++ [⟨key, val, tbl.hash key⟩]
      nnodes := int (tbl.nnodes + 1) }

/-- The equality of the table is one that its hash function respects. -/
structure Compatible (hash : K → Nat) (equal : K → K → Bool) : Prop where
  equivalence : Equivalence fun a b => equal a b = true
  hash : ∀ a b, equal a b = true → hash a = hash b

/-- The equality that a table uses. -/
def same (equal : Option (K → K → Bool)) (a b : K) : Bool :=
  match equal with
  | some equal => equal a b
  | none => a == b

/-- All nodes of the table. -/
def HashTable.all (tbl : HashTable K V) : List (HashNode K V) := tbl.nodes.flatten

structure WellFormed (tbl : HashTable K V) : Prop where
  buckets : tbl.nodes.length = tbl.size
  range : 0 < tbl.size ∧ tbl.size ≤ HASH_TABLE_MAX_SIZE
  /-- Each node is in the bucket of its hash. -/
  placed : ∀ (i : Nat) chain, tbl.nodes[i]? = some chain → ∀ node ∈ chain,
    node.keyHash = tbl.hash node.key ∧ node.keyHash % tbl.size = i
  distinct : tbl.all.Pairwise fun a b => same tbl.equal a.key b.key = false
  count : tbl.nnodes = int tbl.all.length
  fits : tbl.all.length < 2 ^ 31 → tbl.nnodes = tbl.all.length
  load : tbl.nnodes < 3 * tbl.size ∨ tbl.size = HASH_TABLE_MAX_SIZE

/-- The value of the last insert with a key equal to k. -/
def lastInserted (equal : Option (K → K → Bool)) (calls : List (K × V)) (k : K) : Option V :=
  (calls.reverse.find? fun call => same equal call.1 k).map Prod.snd

/-- The table after inserts in their order. -/
def insertAll (tbl : HashTable K V) (calls : List (K × V)) : HashTable K V :=
  calls.foldl (fun tbl call => hashTableInsert tbl call.1 call.2) tbl

end table

/- Interning. -/

/-- string_hash; the characters are signed. -/
def stringHash (str : List (BitVec 8)) : Nat :=
  (str.foldl (fun (h : BitVec 32) c => (h <<< 5) - h + c.signExtend 32) 0).toNat

/-- MAKE_CONST_PTR(a) -/
def makeConstPtr (a : Nat) : Nat := a - a % 8 + 2

/-- sym_table, and the count of symbols that have been allocated. -/
structure Symbols where
  symTable : HashTable (List (BitVec 8)) Nat
  allocated : Nat

/-- (make_symbol str) for the text of str; the payload of the nth block that alloc_global_const returns
    is at alloc n. -/
def makeSymbol (alloc : Nat → Nat) (str : List (BitVec 8)) (st : Symbols) : Nat × Symbols :=
  match hashTableLookup st.symTable str with
  | some res => (makeConstPtr res, st)
  | none =>
    let res := alloc st.allocated
    (makeConstPtr res, ⟨hashTableInsert st.symTable str res, st.allocated + 1⟩)

/-- The results of make_symbol for texts in their order. -/
def makeSymbols (alloc : Nat → Nat) : List (List (BitVec 8)) → Symbols → List Nat
  | [], _ => []
  | str :: strs, st =>
    (makeSymbol alloc str st).1 :: makeSymbols alloc strs (makeSymbol alloc str st).2

/-- The table of strings_init. -/
def initialSymbols : Symbols := ⟨hashTableInit stringHash (some fun a b => a == b), 0⟩

section lists
variable {α : Type} {l : List (List α)} {i : Nat} {chain : List α} {a : α}

theorem flatten_modify (f : List α → List α) (here : l[i]? = some chain) :
    ∃ before after, l.flatten = before ++ chain ++ after ∧
      (l.modify i f).flatten = before ++ f chain ++ after := by
  induction l generalizing i with
  | nil => simp at here
  | cons first l ih =>
    cases i with
    | zero =>
      obtain rfl := Option.some.inj here
      exact ⟨[], l.flatten, rfl, rfl⟩
    | succ i =>
      obtain ⟨before, after, old, new⟩ := ih here
      refine ⟨first ++ before, after, ?_, ?_⟩
      · rw [List.flatten_cons, old]
        simp
      · rw [List.modify_succ_cons, List.flatten_cons, new]
        simp

theorem perm_modify_cons (here : l[i]? = some chain) :
    (l.modify i fun chain => a :: chain).flatten.Perm (a :: l.flatten) := by
  obtain ⟨before, after, old, new⟩ := flatten_modify (fun chain => a :: chain) here
  rw [old, new, List.append_assoc, List.append_assoc]
  exact List.perm_middle

theorem perm_modify_append (here : l[i]? = some chain) :
    (l.modify i fun chain => chain ++ [a]).flatten.Perm (a :: l.flatten) := by
  obtain ⟨before, after, old, new⟩ := flatten_modify (fun chain => chain ++ [a]) here
  have between : before ++ (chain ++ [a]) ++ after = (before ++ chain) ++ a :: after := by simp
  rw [old, new, between]
  exact List.perm_middle

end lists

section relinking
variable {K V : Type} {tbl : HashTable K V} {node : HashNode K V}

theorem mem_all : node ∈ tbl.all ↔ ∃ (i : Nat) (chain : _),
    tbl.nodes[i]? = some chain ∧ node ∈ chain := by
  rw [HashTable.all, List.mem_flatten]
  constructor
  · rintro ⟨chain, member, inside⟩
    obtain ⟨i, here⟩ := List.mem_iff_getElem?.mp member
    exact ⟨i, chain, here, inside⟩
  · rintro ⟨i, chain, here, inside⟩
    exact ⟨chain, List.mem_of_getElem? here, inside⟩

/- Resizing. -/

/-- Each node is in the bucket of its hash, of size buckets. -/
def Placed (size : Nat) (nodes : List (List (HashNode K V))) : Prop :=
  ∀ (i : Nat) chain, nodes[i]? = some chain → ∀ node ∈ chain, node.keyHash % size = i

theorem relink_placed {size : Nat} {nodes : List (List (HashNode K V))} (placed : Placed size nodes)
    (node : HashNode K V) : Placed size (relink size nodes node) := by
  intro i chain here other member
  unfold relink at here
  rw [List.getElem?_modify] at here
  by_cases bucket : node.keyHash % size = i
  · obtain ⟨old, there, rfl⟩ := Option.map_eq_some_iff.mp here
    rw [if_pos bucket] at member
    rcases List.mem_cons.mp member with rfl | before
    · exact bucket
    · exact placed i old there other before
  · obtain ⟨old, there, rfl⟩ := Option.map_eq_some_iff.mp here
    rw [if_neg bucket] at member
    exact placed i old there other member

theorem relink_perm {size : Nat} {nodes : List (List (HashNode K V))} (buckets : nodes.length = size)
    (positive : 0 < size) (node : HashNode K V) :
    (relink size nodes node).flatten.Perm (node :: nodes.flatten) := by
  have inside : node.keyHash % size < nodes.length := by
    rw [buckets]
    exact Nat.mod_lt _ positive
  exact perm_modify_cons (List.getElem?_eq_getElem inside)

theorem foldl_relink {size : Nat} (positive : 0 < size) (chain : List (HashNode K V))
    {nodes : List (List (HashNode K V))} (buckets : nodes.length = size)
    (placed : Placed size nodes) : (chain.foldl (relink size) nodes).length = size ∧
      Placed size (chain.foldl (relink size) nodes) ∧
      (chain.foldl (relink size) nodes).flatten.Perm (chain ++ nodes.flatten) := by
  induction chain generalizing nodes with
  | nil => exact ⟨buckets, placed, .refl _⟩
  | cons node chain ih =>
    have length : (relink size nodes node).length = size := by
      rw [relink, List.length_modify, buckets]
    obtain ⟨buckets', placed', perm⟩ := ih length (relink_placed placed node)
    refine ⟨buckets', placed', perm.trans ?_⟩
    exact ((relink_perm buckets positive node).append_left chain).trans List.perm_middle

theorem foldl_relink_all {size : Nat} (positive : 0 < size) (old : List (List (HashNode K V)))
    {nodes : List (List (HashNode K V))} (buckets : nodes.length = size)
    (placed : Placed size nodes) :
    let new := old.foldl (fun newNodes chain => chain.foldl (relink size) newNodes) nodes
    new.length = size ∧ Placed size new ∧ new.flatten.Perm (old.flatten ++ nodes.flatten) := by
  induction old generalizing nodes with
  | nil => exact ⟨buckets, placed, .refl _⟩
  | cons chain old ih =>
    obtain ⟨length, placed', first⟩ := foldl_relink positive chain buckets placed
    obtain ⟨length', placed'', rest⟩ := ih length placed'
    refine ⟨length', placed'', rest.trans ?_⟩
    rw [List.flatten_cons]
    refine (first.append_left _).trans ?_
    rw [← List.append_assoc]
    exact List.perm_append_comm.append_right _

theorem placed_replicate (size : Nat) :
    Placed size (List.replicate size ([] : List (HashNode K V))) := by
  intro i chain here node member
  rw [List.getElem?_replicate] at here
  split at here
  · cases here
    cases member
  · cases here

end relinking

section nodes
variable {K V : Type} [DecidableEq K] {tbl : HashTable K V} {key k : K} {val v : V}
  {node : HashNode K V}

theorem Compatible.same {hash : K → Nat} {equal : Option (K → K → Bool)}
    (compatible : ∀ e, equal = some e → Compatible hash e) : Compatible hash (same equal) := by
  cases equal with
  | some e => exact compatible e rfl
  | none =>
    constructor
    · constructor
      · intro a
        exact beq_self_eq_true a
      · intro a b
        unfold Hash.same
        simp only [beq_iff_eq]
        exact Eq.symm
      · intro a b c
        unfold Hash.same
        simp only [beq_iff_eq]
        exact Eq.trans
    · intro a b equal
      unfold Hash.same at equal
      rw [beq_iff_eq.mp equal]

/-- Everything but the load of a table. -/
structure Core (tbl : HashTable K V) : Prop where
  buckets : tbl.nodes.length = tbl.size
  positive : 0 < tbl.size
  placed : ∀ (i : Nat) chain, tbl.nodes[i]? = some chain → ∀ node ∈ chain,
    node.keyHash = tbl.hash node.key ∧ node.keyHash % tbl.size = i
  distinct : tbl.all.Pairwise fun a b => same tbl.equal a.key b.key = false
  count : tbl.nnodes = int tbl.all.length
  most : tbl.size ≤ HASH_TABLE_MAX_SIZE
  compatible : Compatible tbl.hash (same tbl.equal)

theorem Core.bucket (core : Core tbl) (n : Nat) : ∃ chain, tbl.nodes[n % tbl.size]? = some chain := by
  have inside : n % tbl.size < tbl.nodes.length := by
    rw [core.buckets]
    exact Nat.mod_lt _ core.positive
  exact ⟨_, List.getElem?_eq_getElem inside⟩

theorem Core.isAt_eq (core : Core tbl) (hashed : node.keyHash = tbl.hash node.key) :
    isAt tbl key node = same tbl.equal node.key key := by
  have compatible := core.compatible.hash
  unfold isAt
  cases equal : tbl.equal with
  | none => rfl
  | some e =>
    unfold same at compatible ⊢
    rw [equal] at compatible
    dsimp only at compatible ⊢
    cases equals : e node.key key with
    | false => rw [Bool.and_false]
    | true => rw [hashed, compatible _ _ equals, beq_self_eq_true, Bool.and_true]

/- The search finds a node of the key, wherever in the table it is. -/
theorem Core.lookupNode (core : Core tbl) (key : K) :
    match (hashTableLookupNode tbl key).2 with
    | some node => node ∈ tbl.all ∧ same tbl.equal node.key key = true
    | none => ∀ node ∈ tbl.all, same tbl.equal node.key key = false := by
  obtain ⟨chain, here⟩ := core.bucket (tbl.hash key)
  have placed := core.placed _ chain here
  have chain_eq : tbl.nodes.getD (tbl.hash key % tbl.size) [] = chain := by
    rw [List.getD_eq_getElem?_getD, here, Option.getD_some]
  unfold hashTableLookupNode
  dsimp only
  rw [chain_eq]
  cases found : chain.find? (isAt tbl key) with
  | some node =>
    have member := List.mem_of_find?_eq_some found
    have at_key := List.find?_some found
    rw [core.isAt_eq (placed node member).1] at at_key
    exact ⟨mem_all.mpr ⟨_, chain, here, member⟩, at_key⟩
  | none =>
    intro node member
    obtain ⟨i, other, there, inside⟩ := mem_all.mp member
    obtain ⟨hashed, bucket⟩ := core.placed i other there node inside
    by_contra equal
    rw [Bool.not_eq_false] at equal
    rw [hashed, core.compatible.hash _ _ equal] at bucket
    rw [← bucket, here] at there
    obtain rfl := Option.some.inj there
    have absent := List.find?_eq_none.mp found node inside
    rw [core.isAt_eq hashed] at absent
    exact absent equal

theorem Core.apart_symm (core : Core tbl) {a b : K} (apart : same tbl.equal a b = false) :
    same tbl.equal b a = false := by
  by_contra equal
  rw [Bool.not_eq_false] at equal
  rw [core.compatible.equivalence.symm equal] at apart
  cases apart

theorem Core.unique (core : Core tbl) {other : HashNode K V} (member : node ∈ tbl.all)
    (member' : other ∈ tbl.all) (equal : same tbl.equal node.key key = true)
    (equal' : same tbl.equal other.key key = true) : node = other := by
  by_contra different
  have symm : Std.Symm fun a b : HashNode K V => same tbl.equal a.key b.key = false :=
    ⟨fun _ _ => core.apart_symm⟩
  have apart := core.distinct.forall member member' different
  rw [core.compatible.equivalence.trans equal (core.compatible.equivalence.symm equal')] at apart
  cases apart

/- What the table holds under a key. -/
theorem Core.lookup_iff (core : Core tbl) : hashTableLookup tbl k = some v ↔
    ∃ node ∈ tbl.all, same tbl.equal node.key k = true ∧ node.val = v := by
  have search := core.lookupNode k
  unfold hashTableLookup
  cases found : (hashTableLookupNode tbl k).2 with
  | some node =>
    rw [found] at search
    rw [Option.map_some, Option.some.injEq]
    constructor
    · intro value
      exact ⟨node, search.1, search.2, value⟩
    · rintro ⟨other, member, equal, value⟩
      rw [core.unique search.1 member search.2 equal]
      exact value
  | none =>
    rw [found] at search
    constructor
    · intro never
      cases never
    · rintro ⟨other, member, equal, _⟩
      rw [search other member] at equal
      cases equal

theorem Core.of_perm {tbl' : HashTable K V} (core : Core tbl) (hash : tbl'.hash = tbl.hash)
    (equal : tbl'.equal = tbl.equal) (count : tbl'.nnodes = tbl.nnodes) (perm : tbl'.all.Perm tbl.all)
    (buckets : tbl'.nodes.length = tbl'.size) (positive : 0 < tbl'.size)
    (most : tbl'.size ≤ HASH_TABLE_MAX_SIZE) (placed : ∀ (i : Nat) chain, tbl'.nodes[i]? = some chain → ∀ node ∈ chain,
      node.keyHash % tbl'.size = i) : Core tbl' where
  buckets := buckets
  positive := positive
  placed := by
    intro i chain here node member
    refine ⟨?_, placed i chain here node member⟩
    have old := perm.subset (mem_all.mpr ⟨i, chain, here, member⟩)
    obtain ⟨j, other, there, inside⟩ := mem_all.mp old
    rw [hash]
    exact (core.placed j other there node inside).1
  distinct := by
    rw [equal, perm.pairwise_iff core.apart_symm]
    exact core.distinct
  count := by rw [count, core.count, perm.length_eq]
  most := most
  compatible := by
    rw [hash, equal]
    exact core.compatible

/- The sizes of a table. -/

theorem int_lt (n : Int) : int n < 2 ^ 31 := Int.bmod_lt (by decide)

theorem int_small {n : Nat} (small : n < 2 ^ 31) : int n = n :=
  Int.bmod_eq_of_le (by omega) (by omega)

theorem int_succ (n : Nat) : int (int n + 1) = int (n + 1 : Nat) := by
  rw [int, int, Int.bmod_add_bmod, int, Nat.cast_succ]

theorem closest_size (num : Nat) :
    let size := clamp (spacedPrimesClosest num) HASH_TABLE_MIN_SIZE HASH_TABLE_MAX_SIZE
    0 < size ∧ size ≤ HASH_TABLE_MAX_SIZE ∧ (num < size ∨ size = HASH_TABLE_MAX_SIZE) := by
  have range : ∀ prime ∈ primes, clamp prime HASH_TABLE_MIN_SIZE HASH_TABLE_MAX_SIZE = prime ∧
      0 < prime ∧ prime ≤ HASH_TABLE_MAX_SIZE := by decide
  unfold spacedPrimesClosest
  cases found : primes.find? fun prime => num < prime with
  | some prime =>
    obtain ⟨inside, positive, most⟩ := range prime (List.mem_of_find?_eq_some found)
    dsimp only
    rw [inside]
    exact ⟨positive, most, .inl (by simpa using List.find?_some found)⟩
  | none => exact ⟨by decide, by decide, .inr (by decide)⟩

/-- The table is not too full. -/
def Loaded (tbl : HashTable K V) : Prop :=
  tbl.nnodes < 3 * tbl.size ∨ tbl.size = HASH_TABLE_MAX_SIZE

theorem Core.wellFormed (core : Core tbl) (load : Loaded tbl) : WellFormed tbl :=
  ⟨core.buckets, ⟨core.positive, core.most⟩, core.placed, core.distinct, core.count,
    fun few => by rw [core.count, int_small few], load⟩

theorem Core.resize (core : Core tbl) : Core (hashTableResize tbl) ∧ Loaded (hashTableResize tbl) ∧
    (hashTableResize tbl).all.Perm tbl.all := by
  obtain ⟨positive, most, load⟩ := closest_size (tbl.nnodes % 2 ^ 32).toNat
  obtain ⟨length, placed, perm⟩ := foldl_relink_all positive tbl.nodes List.length_replicate
    (placed_replicate _)
  rw [List.flatten_replicate_nil, List.append_nil] at perm
  refine ⟨core.of_perm rfl rfl rfl perm length positive most placed, ?_, perm⟩
  rcases load with more | full
  · left
    have larger : (tbl.nnodes % 2 ^ 32).toNat < (hashTableResize tbl).size := more
    have below : tbl.nnodes < 2 ^ 31 := by
      rw [core.count]
      exact int_lt _
    have same : (hashTableResize tbl).nnodes = tbl.nnodes := rfl
    omega
  · exact .inr full

theorem Core.maybeResize (core : Core tbl) : Core (hashTableMaybeResize tbl) ∧
    Loaded (hashTableMaybeResize tbl) ∧ (hashTableMaybeResize tbl).all.Perm tbl.all ∧
    (hashTableMaybeResize tbl).equal = tbl.equal := by
  have most := core.most
  unfold hashTableMaybeResize
  dsimp only
  split
  · obtain ⟨core', load, perm⟩ := core.resize
    exact ⟨core', load, perm, rfl⟩
  · refine ⟨core, ?_, .refl _, rfl⟩
    unfold Loaded
    omega

/- Inserting. -/

/-- The table with a node behind the chain of its bucket. -/
def appended (tbl : HashTable K V) (key : K) (val : V) : HashTable K V :=
  { tbl with
    nodes := tbl.nodes.modify (tbl.hash key % tbl.size) fun chain => chain ++ [⟨key, val, tbl.hash key⟩]
    nnodes := int (tbl.nnodes + 1) }

theorem Core.appended (core : Core tbl) (val : V)
    (absent : ∀ node ∈ tbl.all, same tbl.equal node.key key = false) :
    Core (appended tbl key val) ∧
      (appended tbl key val).all.Perm (⟨key, val, tbl.hash key⟩ :: tbl.all) := by
  obtain ⟨chain, here⟩ := core.bucket (tbl.hash key)
  have perm : (Hash.appended tbl key val).all.Perm (⟨key, val, tbl.hash key⟩ :: tbl.all) :=
    perm_modify_append here
  refine ⟨?_, perm⟩
  constructor
  · rw [Hash.appended, List.length_modify]
    exact core.buckets
  · exact core.positive
  · intro i other there node member
    rw [Hash.appended, List.getElem?_modify] at there
    obtain ⟨old, at_i, rfl⟩ := Option.map_eq_some_iff.mp there
    by_cases bucket : tbl.hash key % tbl.size = i
    · rw [if_pos bucket] at member
      rcases List.mem_append.mp member with before | new
      · exact core.placed i old at_i node before
      · obtain rfl := List.mem_singleton.mp new
        exact ⟨rfl, bucket⟩
    · rw [if_neg bucket] at member
      exact core.placed i old at_i node member
  · apply (perm.pairwise_iff core.apart_symm).mpr
    rw [List.pairwise_cons]
    constructor
    · intro node member
      exact core.apart_symm (absent node member)
    · exact core.distinct
  · rw [perm.length_eq, List.length_cons, ← int_succ, ← core.count]
    rfl
  · exact core.most
  · exact core.compatible

theorem setVal_split {chain : List (HashNode K V)} (found : chain.find? (isAt tbl key) = some node)
    (val : V) : ∃ before after, chain = before ++ node :: after ∧
      setVal tbl key val chain = before ++ { node with val := val } :: after := by
  induction chain with
  | nil => cases found
  | cons first chain ih =>
    rw [List.find?_cons] at found
    cases here : isAt tbl key first with
    | true =>
      rw [here] at found
      cases found
      exact ⟨[], chain, rfl, by rw [setVal, if_pos here]; rfl⟩
    | false =>
      rw [here] at found
      obtain ⟨before, after, split, set⟩ := ih found
      refine ⟨first :: before, after, by rw [split]; rfl, ?_⟩
      rw [setVal, if_neg (by rw [here]; exact Bool.false_ne_true), set]
      rfl

/-- The table with a new value of the node that the search finds. -/
def renewed (tbl : HashTable K V) (key : K) (val : V) : HashTable K V :=
  { tbl with nodes := tbl.nodes.modify (tbl.hash key % tbl.size) (setVal tbl key val) }

theorem Core.renewed (core : Core tbl) (val : V)
    (found : (hashTableLookupNode tbl key).2 = some node) : Core (renewed tbl key val) ∧
      ∃ rest, tbl.all.Perm (node :: rest) ∧
        (renewed tbl key val).all.Perm ({ node with val := val } :: rest) := by
  obtain ⟨chain, here⟩ := core.bucket (tbl.hash key)
  unfold hashTableLookupNode at found
  dsimp only at found
  rw [List.getD_eq_getElem?_getD, here, Option.getD_some] at found
  obtain ⟨pre, post, split, set⟩ := setVal_split found val
  obtain ⟨before, after, old, new⟩ := flatten_modify (setVal tbl key val) here
  have perm : tbl.all.Perm (node :: (before ++ pre ++ (post ++ after))) := by
    rw [HashTable.all, old, split]
    have between : before ++ (pre ++ node :: post) ++ after =
        before ++ pre ++ node :: (post ++ after) := by simp
    rw [between]
    exact List.perm_middle
  have perm' : (Hash.renewed tbl key val).all.Perm
      ({ node with val := val } :: (before ++ pre ++ (post ++ after))) := by
    rw [HashTable.all, Hash.renewed, new, set]
    have between : before ++ (pre ++ { node with val := val } :: post) ++ after =
        before ++ pre ++ { node with val := val } :: (post ++ after) := by simp
    rw [between]
    exact List.perm_middle
  refine ⟨?_, _, perm, perm'⟩
  constructor
  · rw [Hash.renewed, List.length_modify]
    exact core.buckets
  · exact core.positive
  · intro i other there n member
    rw [Hash.renewed, List.getElem?_modify] at there
    obtain ⟨was, at_i, rfl⟩ := Option.map_eq_some_iff.mp there
    by_cases bucket : tbl.hash key % tbl.size = i
    · rw [if_pos bucket] at member
      rw [bucket, at_i] at here
      obtain rfl := Option.some.inj here
      have placed := core.placed i was at_i
      rw [set] at member
      rw [split] at placed
      rcases List.mem_append.mp member with first | second
      · exact placed n (List.mem_append_left _ first)
      · rcases List.mem_cons.mp second with rfl | last
        · exact placed node (List.mem_append_right _ List.mem_cons_self)
        · exact placed n (List.mem_append_right _ (List.mem_cons_of_mem _ last))
    · rw [if_neg bucket] at member
      exact core.placed i was at_i n member
  · have distinct := (perm.pairwise_iff core.apart_symm).mp core.distinct
    apply (perm'.pairwise_iff core.apart_symm).mpr
    rw [List.pairwise_cons] at distinct ⊢
    exact distinct
  · have length := core.count
    rw [perm.length_eq, List.length_cons] at length
    rw [perm'.length_eq, List.length_cons]
    exact length
  · exact core.most
  · exact core.compatible

theorem lookup_put {tbl' : HashTable K V} {rest : List (HashNode K V)} (core : Core tbl)
    (core' : Core tbl') (equal : tbl'.equal = tbl.equal) (perm : tbl'.all.Perm (node :: rest))
    (keyed : same tbl.equal node.key key = true) (kept : ∀ n ∈ rest, n ∈ tbl.all)
    (others : ∀ n ∈ tbl.all, n ∈ rest ∨ same tbl.equal n.key key = true) (k : K) :
    hashTableLookup tbl' k =
      if same tbl.equal key k then some node.val else hashTableLookup tbl k := by
  by_cases at_k : same tbl.equal key k = true
  · rw [if_pos at_k, core'.lookup_iff, equal]
    exact ⟨node, perm.mem_iff.mpr List.mem_cons_self,
      core.compatible.equivalence.trans keyed at_k, rfl⟩
  · rw [if_neg at_k]
    have elsewhere : ∀ n : HashNode K V, same tbl.equal n.key key = true →
        ¬ same tbl.equal n.key k = true := by
      intro n at_key at_k'
      exact at_k (core.compatible.equivalence.trans (core.compatible.equivalence.symm at_key) at_k')
    apply Option.ext
    intro v
    rw [core'.lookup_iff, core.lookup_iff, equal]
    constructor
    · rintro ⟨n, member, at_k', value⟩
      rcases List.mem_cons.mp (perm.mem_iff.mp member) with rfl | before
      · exact absurd at_k' (elsewhere _ keyed)
      · exact ⟨n, kept n before, at_k', value⟩
    · rintro ⟨n, member, at_k', value⟩
      rcases others n member with before | at_key
      · exact ⟨n, perm.mem_iff.mpr (List.mem_cons_of_mem _ before), at_k', value⟩
      · exact absurd at_k' (elsewhere n at_key)

theorem Core.insert (core : Core tbl) (load : Loaded tbl) (key : K) (val : V) :
    Core (hashTableInsert tbl key val) ∧ Loaded (hashTableInsert tbl key val) ∧
      (hashTableInsert tbl key val).equal = tbl.equal ∧
      ∀ k, hashTableLookup (hashTableInsert tbl key val) k =
        if same tbl.equal key k then some val else hashTableLookup tbl k := by
  have search := core.lookupNode key
  cases found : (hashTableLookupNode tbl key).2 with
  | some node =>
    rw [found] at search
    have result : hashTableInsert tbl key val = Hash.renewed tbl key val := by
      unfold hashTableInsert
      rw [show hashTableLookupNode tbl key = (tbl.hash key % tbl.size, some node) from
        Prod.ext rfl found]
      rfl
    obtain ⟨core', rest, perm, perm'⟩ := core.renewed val found
    rw [result]
    refine ⟨core', load, rfl, ?_⟩
    apply lookup_put core core' rfl perm' search.2
    · intro n member
      exact perm.mem_iff.mpr (List.mem_cons_of_mem _ member)
    · intro n member
      rcases List.mem_cons.mp (perm.mem_iff.mp member) with rfl | before
      · exact .inr search.2
      · exact .inl before
  | none =>
    rw [found] at search
    have result : hashTableInsert tbl key val = hashTableMaybeResize (Hash.appended tbl key val) := by
      unfold hashTableInsert
      rw [show hashTableLookupNode tbl key = (tbl.hash key % tbl.size, none) from Prod.ext rfl found]
      rfl
    obtain ⟨core₁, perm₁⟩ := core.appended val search
    obtain ⟨core', load', perm', equal⟩ := core₁.maybeResize
    rw [result]
    refine ⟨core', load', equal, ?_⟩
    apply lookup_put core core' equal (perm'.trans perm₁) (core.compatible.equivalence.refl key)
    · intro n member
      exact member
    · intro n member
      exact .inl member

/- The history of a table. -/

theorem core_init {hash : K → Nat} {equal : Option (K → K → Bool)}
    (compatible : Compatible hash (same equal)) :
    Core (hashTableInit hash equal : HashTable K V) ∧
      Loaded (hashTableInit hash equal : HashTable K V) ∧
      ∀ k, hashTableLookup (hashTableInit hash equal : HashTable K V) k = none := by
  have none : (hashTableInit hash equal : HashTable K V).all = [] := by
    rw [HashTable.all, hashTableInit, List.flatten_replicate_nil]
  have core : Core (hashTableInit hash equal : HashTable K V) := by
    constructor
    · exact List.length_replicate
    · exact Nat.succ_pos 10
    · intro i chain here node member
      rw [hashTableInit, List.getElem?_replicate] at here
      split at here
      · cases here
        cases member
      · cases here
    · rw [none]
      exact List.Pairwise.nil
    · rw [none, List.length_nil, int_small (by decide)]
      rfl
    · exact (by decide : HASH_TABLE_MIN_SIZE ≤ HASH_TABLE_MAX_SIZE)
    · exact compatible
  refine ⟨core, .inl (by decide : (0 : Int) < 3 * (HASH_TABLE_MIN_SIZE : Nat)), ?_⟩
  intro k
  rw [Option.eq_none_iff_forall_ne_some]
  intro v found
  obtain ⟨node, member, _⟩ := core.lookup_iff.mp found
  rw [none] at member
  cases member

theorem lastInserted_append (equal : Option (K → K → Bool)) (calls : List (K × V)) (key : K) (val : V)
    (k : K) : lastInserted equal (calls ++ [(key, val)]) k =
      if same equal key k then some val else lastInserted equal calls k := by
  unfold lastInserted
  rw [List.reverse_append, List.reverse_singleton, List.singleton_append, List.find?_cons]
  cases same equal key k <;> rfl

theorem insertAll_core {hash : K → Nat} {equal : Option (K → K → Bool)}
    (compatible : Compatible hash (same equal)) (calls : List (K × V)) :
    Core (insertAll (hashTableInit hash equal) calls) ∧
      Loaded (insertAll (hashTableInit hash equal) calls) ∧
      (insertAll (hashTableInit hash equal) calls).equal = equal ∧
      ∀ k, hashTableLookup (insertAll (hashTableInit hash equal) calls) k =
        lastInserted equal calls k := by
  induction calls using List.reverseRecOn with
  | nil =>
    obtain ⟨core, load, none⟩ := core_init (V := V) compatible
    exact ⟨core, load, rfl, none⟩
  | append_singleton calls call ih =>
    obtain ⟨core, load, equals, values⟩ := ih
    obtain ⟨core', load', equals', values'⟩ := core.insert load call.1 call.2
    have last : insertAll (hashTableInit hash equal) (calls ++ [call]) =
        hashTableInsert (insertAll (hashTableInit hash equal) calls) call.1 call.2 := by
      rw [insertAll, List.foldl_append]
      rfl
    rw [last]
    refine ⟨core', load', equals'.trans equals, ?_⟩
    intro k
    rw [values', equals, values]
    exact (lastInserted_append equal calls call.1 call.2 k).symm

theorem length_insertAll (hash : K → Nat) {calls : List (K × V)}
    (distinct : (calls.map Prod.fst).Nodup) :
    (insertAll (hashTableInit hash none) calls).all.length = calls.length := by
  have compatible : Compatible hash (same (none : Option (K → K → Bool))) :=
    .same fun _ never => by cases never
  obtain ⟨core, _, equals, values⟩ := insertAll_core (V := V) compatible calls
  have found : ∀ k, (∃ v, lastInserted none calls k = some v) ↔ k ∈ calls.map Prod.fst := by
    intro k
    rw [← Option.isSome_iff_exists, lastInserted, Option.isSome_map, List.find?_isSome]
    simp [same]
  have keys : ((insertAll (hashTableInit hash none) calls).all.map HashNode.key).Nodup := by
    rw [List.Nodup, List.pairwise_map]
    apply core.distinct.imp
    intro a b apart
    rw [equals] at apart
    exact beq_eq_false_iff_ne.mp apart
  have perm := (List.perm_ext_iff_of_nodup keys distinct).mpr fun k => by
    rw [← found]
    simp only [← values, core.lookup_iff, equals, same, beq_iff_eq, List.mem_map]
    constructor
    · rintro ⟨node, member, at_k⟩
      exact ⟨node.val, node, member, at_k, rfl⟩
    · rintro ⟨_, node, member, at_k, _⟩
      exact ⟨node, member, at_k⟩
  have lengths := perm.length_eq
  rwa [List.length_map, List.length_map] at lengths

end nodes

section symbols
variable {alloc : Nat → Nat} {st : Symbols} {str : List (BitVec 8)}

/-- The blocks that alloc_global_const returns are aligned and apart. -/
structure Allocator (alloc : Nat → Nat) : Prop where
  aligned : ∀ n, alloc n % 8 = 0
  apart : ∀ m n, alloc m = alloc n → m = n

/-- The symbols of texts are the blocks that have been allocated for them. -/
structure Interned (alloc : Nat → Nat) (st : Symbols) : Prop where
  core : Core st.symTable
  load : Loaded st.symTable
  equal : st.symTable.equal = some fun a b => a == b
  blocks : ∀ str res, hashTableLookup st.symTable str = some res →
    ∃ n, n < st.allocated ∧ res = alloc n
  names : ∀ str str' res, hashTableLookup st.symTable str = some res →
    hashTableLookup st.symTable str' = some res → str = str'

theorem compatible_text : Compatible stringHash (same (some fun a b : List (BitVec 8) => a == b)) := by
  constructor
  · constructor
    · intro a
      exact beq_self_eq_true a
    · intro a b equal
      exact beq_iff_eq.mpr (beq_iff_eq.mp equal).symm
    · intro a b c first second
      exact beq_iff_eq.mpr ((beq_iff_eq.mp first).trans (beq_iff_eq.mp second))
  · intro a b equal
    rw [beq_iff_eq.mp equal]

theorem interned_initial : Interned alloc initialSymbols := by
  obtain ⟨core, load, none⟩ := core_init (V := Nat) compatible_text
  constructor
  · exact core
  · exact load
  · rfl
  · intro str res found
    rw [initialSymbols, none] at found
    cases found
  · intro str str' res found
    rw [initialSymbols, none] at found
    cases found

theorem Interned.makeSymbol (interned : Interned alloc st) (allocator : Allocator alloc)
    (str : List (BitVec 8)) :
    Interned alloc (makeSymbol alloc str st).2 ∧
      (∃ res, hashTableLookup (makeSymbol alloc str st).2.symTable str = some res ∧
        (makeSymbol alloc str st).1 = makeConstPtr res) ∧
      ∀ str' res, hashTableLookup st.symTable str' = some res →
        hashTableLookup (makeSymbol alloc str st).2.symTable str' = some res := by
  unfold Hash.makeSymbol
  cases found : hashTableLookup st.symTable str with
  | some res => exact ⟨interned, ⟨res, found, rfl⟩, fun _ _ => id⟩
  | none =>
    obtain ⟨core, load, equal, values⟩ := interned.core.insert interned.load str (alloc st.allocated)
    dsimp only
    have at_str : ∀ str', same st.symTable.equal str str' = true ↔ str = str' := by
      intro str'
      rw [interned.equal]
      exact beq_iff_eq
    have fresh : ∀ str' res, hashTableLookup st.symTable str' = some res → res ≠ alloc st.allocated := by
      intro str' res old same
      obtain ⟨n, less, here⟩ := interned.blocks str' res old
      have equal := allocator.apart n st.allocated (here.symm.trans same)
      omega
    refine ⟨⟨core, load, equal.trans interned.equal, ?_, ?_⟩, ?_, ?_⟩
    · intro str' res there
      rw [values] at there
      split at there
      · cases there
        exact ⟨st.allocated, Nat.lt_succ_self _, rfl⟩
      · obtain ⟨n, less, here⟩ := interned.blocks str' res there
        exact ⟨n, Nat.lt_succ_of_lt less, here⟩
    · intro first second res there there'
      rw [values] at there there'
      split at there
      · rename_i one
        split at there'
        · rename_i two
          exact ((at_str first).mp one).symm.trans ((at_str second).mp two)
        · cases there
          exact absurd rfl (fresh _ _ there')
      · split at there'
        · cases there'
          exact absurd rfl (fresh _ _ there)
        · exact interned.names first second res there there'
    · exact ⟨_, by rw [values, if_pos ((at_str str).mpr rfl)], rfl⟩
    · intro str' res there
      rw [values, if_neg]
      · exact there
      · intro equal
        rw [← (at_str str').mp equal, found] at there
        cases there

theorem Interned.later (interned : Interned alloc st) (allocator : Allocator alloc)
    (strs : List (List (BitVec 8))) : ∃ st', Interned alloc st' ∧
      (∀ str res, hashTableLookup st.symTable str = some res →
        hashTableLookup st'.symTable str = some res) ∧
      ∀ (i : Nat) str obj, strs[i]? = some str → (makeSymbols alloc strs st)[i]? = some obj →
        ∃ res, hashTableLookup st'.symTable str = some res ∧ obj = makeConstPtr res := by
  induction strs generalizing st with
  | nil => exact ⟨st, interned, fun _ _ => id, fun i str obj never => by simp at never⟩
  | cons first strs ih =>
    obtain ⟨interned', ⟨res, here, obj_eq⟩, kept⟩ := interned.makeSymbol allocator first
    obtain ⟨st', all, kept', each⟩ := ih interned'
    refine ⟨st', all, fun str res old => kept' str res (kept str res old), ?_⟩
    intro i str obj at_i obj_i
    cases i with
    | zero =>
      rw [List.getElem?_cons_zero, Option.some.injEq] at at_i
      rw [makeSymbols, List.getElem?_cons_zero, Option.some.injEq] at obj_i
      subst at_i
      exact ⟨res, kept' _ res here, obj_i.symm.trans obj_eq⟩
    | succ i => exact each i str obj at_i obj_i

end symbols

/- With 2 ^ 31 nodes nnodes is negative. -/
theorem nnodes_overflows :
    let calls := (List.range (2 ^ 31)).map fun k => (k, true)
    let tbl : HashTable Nat Bool := insertAll (hashTableInit id none) calls
    tbl.all.length = 2 ^ 31 ∧ tbl.nnodes = -2 ^ 31 := by
  intro calls tbl
  have distinct : (calls.map Prod.fst).Nodup := by
    rw [List.map_map]
    exact (List.nodup_range).map fun a b same => same
  have length : tbl.all.length = 2 ^ 31 := by
    rw [length_insertAll id distinct, List.length_map, List.length_range]
  have compatible : Compatible id (same (none : Option (Nat → Nat → Bool))) :=
    .same fun _ never => by cases never
  obtain ⟨core, _⟩ := insertAll_core (V := Bool) compatible calls
  refine ⟨length, ?_⟩
  rw [core.count, length]
  decide

/- For every history the table is the finite map of its inserts, and symbols are the same exactly when
   their texts are. -/
theorem finite_map : (∀ (K V : Type) [DecidableEq K] (hash : K → Nat) (equal : Option (K → K → Bool))
      (calls : List (K × V)), (∀ e, equal = some e → Compatible hash e) →
      WellFormed (insertAll (hashTableInit hash equal) calls) ∧
      ∀ k, hashTableLookup (insertAll (hashTableInit hash equal) calls) k =
        lastInserted equal calls k) ∧
    ∀ (alloc : Nat → Nat) (strs : List (List (BitVec 8))), Allocator alloc →
      ∀ (i j : Nat) (str str' : List (BitVec 8)) (obj obj' : Nat),
        strs[i]? = some str → strs[j]? = some str' →
        (makeSymbols alloc strs initialSymbols)[i]? = some obj →
        (makeSymbols alloc strs initialSymbols)[j]? = some obj' → (obj = obj' ↔ str = str') := by
  constructor
  · intro K V _ hash equal calls compatible
    obtain ⟨core, load, _, values⟩ := insertAll_core (Compatible.same compatible) calls
    exact ⟨core.wellFormed load, values⟩
  · intro alloc strs allocator i j str str' obj obj' at_i at_j obj_i obj_j
    obtain ⟨st, interned, _, each⟩ := interned_initial.later allocator strs
    obtain ⟨res, here, rfl⟩ := each i str obj at_i obj_i
    obtain ⟨res', there, rfl⟩ := each j str' obj' at_j obj_j
    obtain ⟨m, _, block⟩ := interned.blocks str res here
    obtain ⟨n, _, block'⟩ := interned.blocks str' res' there
    have aligned := allocator.aligned m
    have aligned' := allocator.aligned n
    rw [← block] at aligned
    rw [← block'] at aligned'
    unfold makeConstPtr
    rw [aligned, aligned']
    constructor
    · intro equal
      obtain rfl : res = res' := by omega
      exact interned.names str str' res here there
    · intro equal
      rw [equal, there] at here
      rw [Option.some.inj here]

theorem finite_map_sample :
    hashTableLookup (insertAll (hashTableInit id none) [(1, true), (12, true), (1, false)]) 1 =
      some false ∧
    ((makeSymbols (fun n => 8 * n) [[97], [98], [97]] initialSymbols)[0]? = some 2 ∧
      (makeSymbols (fun n => 8 * n) [[97], [98], [97]] initialSymbols)[2]? = some 2 ∧
      ((2 : Nat) = 2 ↔ ([97] : List (BitVec 8)) = [97])) := by
  constructor
  · exact (finite_map.1 Nat Bool id none _ (fun _ never => by cases never)).2 1
  · have allocator : Allocator fun n => 8 * n := ⟨fun n => by omega, fun m n equal => by omega⟩
    exact ⟨by decide, by decide,
      finite_map.2 _ [[97], [98], [97]] allocator 0 2 _ _ _ _ rfl rfl (by decide) (by decide)⟩

end LGears.Hash
