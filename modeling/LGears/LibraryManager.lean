import LGears.Library.Returns
import LGears.Library.Tries
import LGears.Syntax

/- The libraries of library-manager.scm: a tree of nodes that are changed in place. -/
namespace LGears.LibraryManager
open StateExcept Tries

/-- A record lnode; #f is none, and the childs are the addresses of nodes by their names. -/
structure LNode (Lib : Type) where
  lib : Option Lib
  childs : List (Symbol × Nat)

inductive Failure where
  /-- (car '()) -/
  | car
  /-- (error 'library-install! "wtf?") -/
  | wtf
  | undefined
  deriving DecidableEq, Repr

/-- The nodes that have been made, at their addresses. -/
abbrev Nodes (Lib : Type) := List (LNode Lib)

abbrev ManagerM (Lib : Type) := StateT (Nodes Lib) (Except Failure)

section manager
variable {Lib : Type}

def fail {α : Type} (e : Failure) : ManagerM Lib α := fun _ => .error e

def readNode (node : Nat) : ManagerM Lib (LNode Lib) := fun st =>
  match st[node]? with
  | some n => .ok (n, st)
  | none => .error .undefined

def lnodeLib (node : Nat) : ManagerM Lib (Option Lib) := do return (← readNode node).lib

def lnodeChilds (node : Nat) : ManagerM Lib (List (Symbol × Nat)) := do
  return (← readNode node).childs

def lnodeLibSet (node : Nat) (lib : Option Lib) : ManagerM Lib PUnit := do
  let n ← readNode node
  modify fun st => st.set node { n with lib := lib }

def lnodeChildsSet (node : Nat) (childs : List (Symbol × Nat)) : ManagerM Lib PUnit := do
  let n ← readNode node
  modify fun st => st.set node { n with childs := childs }

def makeLnode (lib : Option Lib) (childs : List (Symbol × Nat)) : ManagerM Lib Nat := fun st =>
  .ok (st.length, st ++ [⟨lib, childs⟩])

/-- The nodes when (library-manager-root) has returned; the root is at 0. -/
def libraryManagerRoot : Nodes Lib := [⟨none, []⟩]

def lnodeNew (name : Symbol) (lib : Option Lib) (childs : List (Symbol × Nat)) :
    ManagerM Lib (Symbol × Nat) := do
  return (name, ← makeLnode lib childs)

/-- (library-search node name) -/
def librarySearch (node : Nat) : List Symbol → ManagerM Lib (Option Nat)
  | [] => fail .car
  | x :: name => do
    match (← lnodeChilds node).lookup x with
    | some res => if (x :: name).length = 1 then return some res else librarySearch res name
    | none => return none

/-- (find-library root name) -/
def findLibrary (root : Nat) (name : List Symbol) : ManagerM Lib (Option Lib) := do
  match ← librarySearch root name with
  | some res => lnodeLib res
  | none => return none

/-- The loop of create-path. -/
def createNode (lib : Lib) : List Symbol → ManagerM Lib (Symbol × Nat)
  | [] => fail .car
  | x :: name => do
    if (x :: name).length = 1 then lnodeNew x (some lib) []
    else lnodeNew x none [← createNode lib name]

/-- (create-path name lib) -/
def createPath (name : List Symbol) (lib : Lib) : ManagerM Lib (List (Symbol × Nat)) := do
  return [← createNode lib name]

/-- The loop of library-install!, where no child has the name x. -/
def installChild (lib : Lib) (node : Nat) (x : Symbol) (name : List Symbol) : ManagerM Lib PUnit := do
  if (x :: name).length = 1 then
    lnodeChildsSet node ((← lnodeNew x (some lib) []) :: (← lnodeChilds node))
  else if (← lnodeChilds node).isEmpty then
    lnodeChildsSet node (← createPath (x :: name) lib)
  else fail .wtf

/-- The loop of library-install!. -/
def installLoop (lib : Lib) (node : Nat) : List Symbol → ManagerM Lib PUnit
  | [] => fail .car
  | x :: name => do
    match (← lnodeChilds node).lookup x with
    | some res => installLoop lib res name
    | none => installChild lib node x name

/-- (library-install! root name lib) -/
def libraryInstall (root : Nat) (name : List Symbol) (lib : Lib) : ManagerM Lib PUnit := do
  match ← librarySearch root name with
  | some res => lnodeLibSet res (some lib)
  | none => installLoop lib root name

/-- Installs in their order. -/
def installAll (root : Nat) : List (List Symbol × Lib) → ManagerM Lib PUnit
  | [] => return
  | (name, lib) :: calls => do
    libraryInstall root name lib
    installAll root calls

/-- The library that was last installed under the name. -/
def lastInstalled (calls : List (List Symbol × Lib)) (name : List Symbol) : Option Lib :=
  calls.reverse.lookup name

/-- Installing n after the names: where an installed name goes on behind a part of n, one goes on with
    the next symbol of n, unless that is its last. -/
def Admits (names : List (List Symbol)) (n : List Symbol) : Prop :=
  ∀ p x r, n = p ++ x :: r → r ≠ [] → (∃ m ∈ names, p <+: m ∧ m ≠ p) →
    ∃ m ∈ names, p ++ [x] <+: m

/- The operations on nodes. -/

def childsOf (st : Nodes Lib) (node : Nat) : List (Symbol × Nat) := (st[node]?.map LNode.childs).getD []

variable {st st' : Nodes Lib} {node a : Nat} {name : List Symbol} {lib : Lib} {n : LNode Lib}

@[simp] theorem returns_fail {α : Type} {e : Failure} {r : α} :
    ¬ Returns (fail e : ManagerM Lib α) st r st' := by
  simp [Returns, fail]

@[simp] theorem returns_readNode {r : LNode Lib} :
    Returns (readNode node) st r st' ↔ st[node]? = some r ∧ st = st' := by
  unfold Returns readNode
  cases st[node]? <;> simp

@[simp] theorem returns_lnodeChilds {r : List (Symbol × Nat)} : Returns (lnodeChilds node) st r st' ↔
    (∃ n, st[node]? = some n ∧ n.childs = r) ∧ st = st' := by
  simp only [lnodeChilds, returns_bind, returns_readNode, returns_pure]
  constructor
  · rintro ⟨n, _, ⟨here, rfl⟩, rfl, rfl⟩
    exact ⟨⟨n, here, rfl⟩, rfl⟩
  · rintro ⟨⟨n, here, rfl⟩, rfl⟩
    exact ⟨n, st, ⟨here, rfl⟩, rfl, rfl⟩

theorem lnodeChilds_returns (here : st[node]? = some n) :
    Returns (lnodeChilds node) st n.childs st := by
  rw [returns_lnodeChilds]
  exact ⟨⟨n, here, rfl⟩, rfl⟩

theorem returns_lnodeLibSet (here : st[node]? = some n) (lib : Option Lib) :
    Returns (lnodeLibSet node lib) st ⟨⟩ (st.set node { n with lib := lib }) := by
  unfold lnodeLibSet
  rw [returns_bind]
  exact ⟨n, st, by simp [here], rfl⟩

theorem returns_lnodeChildsSet (here : st[node]? = some n) (childs : List (Symbol × Nat)) :
    Returns (lnodeChildsSet node childs) st ⟨⟩ (st.set node { n with childs := childs }) := by
  unfold lnodeChildsSet
  rw [returns_bind]
  exact ⟨n, st, by simp [here], rfl⟩

theorem childsOf_eq (here : st[node]? = some n) : childsOf st node = n.childs := by
  rw [childsOf, here, Option.map_some, Option.getD_some]

theorem librarySearch_returns (inside : ∀ p b, walk (childsOf st) a p = some b → b < st.length)
    (some : name ≠ []) :
    Returns (librarySearch a name) st (walk (childsOf st) a name) st := by
  induction name generalizing a with
  | nil => exact absurd rfl some
  | cons x name ih =>
    obtain ⟨n, here⟩ : ∃ n, st[a]? = Option.some n :=
      ⟨_, List.getElem?_eq_getElem (inside [] a rfl)⟩
    rw [librarySearch, returns_bind]
    refine ⟨n.childs, st, lnodeChilds_returns here, ?_⟩
    rw [walk_cons, childsOf_eq here]
    cases found : n.childs.lookup x with
    | none => exact returns_pure.mpr ⟨rfl, rfl⟩
    | some res =>
      have inside' : ∀ p b, walk (childsOf st) res p = Option.some b → b < st.length := by
        intro p b there
        apply inside (x :: p) b
        rw [walk_cons, childsOf_eq here, found]
        exact there
      dsimp only
      rw [Option.bind_some]
      cases name with
      | nil => exact returns_pure.mpr ⟨rfl, rfl⟩
      | cons y name => exact ih inside' (List.cons_ne_nil y name)

/-- A node of a new path, with the rest of the path behind it. -/
def link (lib : Lib) (base : Nat) : List Symbol → LNode Lib
  | [] => ⟨some lib, []⟩
  | y :: name => ⟨none, [(y, base + name.length)]⟩

/-- The nodes of a path that is new, the last one first. -/
def chain (lib : Lib) (base : Nat) : List Symbol → Nodes Lib
  | [] => [link lib base []]
  | y :: name => chain lib base name ++ [link lib base (y :: name)]

theorem length_chain (lib : Lib) (base : Nat) (name : List Symbol) :
    (chain lib base name).length = name.length + 1 := by
  induction name with
  | nil => rfl
  | cons y name ih => simp [chain, ih]

theorem createNode_returns (x : Symbol) (name : List Symbol) :
    Returns (createNode lib (x :: name)) st (x, st.length + name.length)
      (st ++ chain lib st.length name) := by
  induction name generalizing x with
  | nil => rfl
  | cons y name ih =>
    rw [createNode, if_neg (by simp), returns_bind]
    refine ⟨_, _, ih y, ?_⟩
    rw [lnodeNew, returns_bind]
    refine ⟨_, _, rfl, returns_pure.mpr ⟨?_, ?_⟩⟩
    · rw [List.length_append, length_chain, List.length_cons]
    · rw [chain, List.append_assoc]
      rfl

theorem chain_at {base : Nat} {s : List Symbol} (suffix : s <:+ name) :
    (chain lib base name)[s.length]? = some (link lib base s) := by
  induction name with
  | nil =>
    rw [List.suffix_nil.mp suffix]
    rfl
  | cons y name ih =>
    rcases List.suffix_cons_iff.mp suffix with rfl | shorter
    · rw [chain, List.length_cons, ← length_chain lib base]
      simp
    · rw [chain, List.getElem?_append_left, ih shorter]
      rw [length_chain]
      exact Nat.lt_succ_of_le shorter.length_le

/-- The path name has been made: its nodes, from the end, are from base on. -/
def Chained (st : Nodes Lib) (base : Nat) (lib : Lib) (name : List Symbol) : Prop :=
  ∀ s, s <:+ name → st[base + s.length]? = some (link lib base s)

theorem Chained.walk {base : Nat} (chained : Chained st base lib name) (q s : List Symbol)
    (suffix : s <:+ name) : walk (childsOf st) (base + s.length) q =
      if q <+: s then some (base + (s.length - q.length)) else none := by
  induction q generalizing s with
  | nil => simp
  | cons y q ih =>
    have here := chained s suffix
    cases s with
    | nil =>
      rw [walk_cons, childsOf_eq here, link]
      simp
    | cons z s =>
      have shorter : s <:+ name := (List.suffix_cons z s).trans suffix
      rw [walk_cons, childsOf_eq here, link, List.lookup_cons]
      by_cases same : y = z
      · subst same
        simp only [beq_self_eq_true, Option.bind_some]
        rw [ih s shorter]
        simp [Nat.succ_sub_succ]
      · have other : (y == z) = false := beq_eq_false_iff_ne.mpr same
        simp [other, same]

/-- The node n at a, where the path p ends, gets the path r by the name x. -/
def attached (st : Nodes Lib) (lib : Lib) (a : Nat) (n : LNode Lib) (x : Symbol)
    (r : List Symbol) : Nodes Lib :=
  (st ++ chain lib st.length r).set a { n with childs := (x, st.length + r.length) :: n.childs }

theorem installLoop_step {x : Symbol} (here : st[node]? = some n) (lib : Lib) (name : List Symbol) :
    Returns (installLoop lib node (x :: name)) st ⟨⟩ st' ↔ match n.childs.lookup x with
      | some res => Returns (installLoop lib res name) st ⟨⟩ st'
      | none => Returns (installChild lib node x name) st ⟨⟩ st' := by
  rw [installLoop, returns_after (lnodeChilds_returns here)]
  cases n.childs.lookup x with
  | none => exact Iff.rfl
  | some res => exact Iff.rfl

theorem installChild_ends {x : Symbol} {r : List Symbol} (here : st[node]? = some n) :
    if r = [] ∨ n.childs = [] then
      Returns (installChild lib node x r) st ⟨⟩ (attached st lib node n x r)
    else ∀ st', ¬ Returns (installChild lib node x r) st ⟨⟩ st' := by
  have inside : node < st.length := (List.getElem?_eq_some_iff.mp here).1
  have kept : ∀ new, (st ++ new)[node]? = some n := by
    intro new
    rw [List.getElem?_append_left inside, here]
  unfold installChild
  cases r with
  | nil =>
    have one : [x].length = 1 := rfl
    rw [if_pos (.inl rfl), if_pos one, returns_bind]
    refine ⟨(x, st.length), st ++ chain lib st.length [], rfl, ?_⟩
    rw [returns_bind]
    exact ⟨_, _, lnodeChilds_returns (kept _), returns_lnodeChildsSet (kept _) _⟩
  | cons y r =>
    have more : ¬ (x :: y :: r).length = 1 := by simp
    rw [if_neg more]
    by_cases leaf : n.childs = []
    · rw [if_pos (.inr leaf), returns_bind]
      refine ⟨_, _, lnodeChilds_returns here, ?_⟩
      rw [leaf, List.isEmpty_nil, if_pos rfl, returns_bind]
      refine ⟨[(x, st.length + (y :: r).length)], st ++ chain lib st.length (y :: r), ?_, ?_⟩
      · rw [createPath, returns_bind]
        exact ⟨_, _, createNode_returns x (y :: r), rfl⟩
      · rw [attached, leaf]
        exact returns_lnodeChildsSet (kept _) _
    · rw [if_neg (by simp [leaf])]
      intro st' ran
      rw [returns_after (lnodeChilds_returns here), if_neg (by simp [leaf])] at ran
      exact returns_fail ran

theorem installLoop_ends (lib : Lib) (inside : ∀ p b, walk (childsOf st) a p = some b → b < st.length)
    (absent : walk (childsOf st) a name = none) : ∃ p x r b n, name = p ++ x :: r ∧
      walk (childsOf st) a p = some b ∧ st[b]? = some n ∧ n.childs.lookup x = none ∧
      if r = [] ∨ n.childs = [] then
        Returns (installLoop lib a name) st ⟨⟩ (attached st lib b n x r)
      else ∀ st', ¬ Returns (installLoop lib a name) st ⟨⟩ st' := by
  induction name generalizing a with
  | nil => cases absent
  | cons x name ih =>
    obtain ⟨n, here⟩ : ∃ n, st[a]? = some n := ⟨_, List.getElem?_eq_getElem (inside [] a rfl)⟩
    rw [walk_cons, childsOf_eq here] at absent
    cases found : n.childs.lookup x with
    | some res =>
      rw [found, Option.bind_some] at absent
      have inside' : ∀ p b, walk (childsOf st) res p = some b → b < st.length := by
        intro p b there
        apply inside (x :: p) b
        rw [walk_cons, childsOf_eq here, found]
        exact there
      obtain ⟨p, y, r, b, m, rfl, path, at_b, last, ends⟩ := ih inside' absent
      refine ⟨x :: p, y, r, b, m, rfl, ?_, at_b, last, ?_⟩
      · rw [walk_cons, childsOf_eq here, found]
        exact path
      · simp only [installLoop_step here, found]
        exact ends
    | none =>
      refine ⟨[], x, name, a, n, rfl, rfl, here, found, ?_⟩
      simp only [installLoop_step here, found]
      exact installChild_ends here

/- What the nodes hold. -/

variable {calls : List (List Symbol × Lib)} {p q r : List Symbol} {x : Symbol}

/-- The nodes are a tree with a node for each part of an installed name, and each has the library that
    was last installed under its name. -/
structure Holds (calls : List (List Symbol × Lib)) (st : Nodes Lib) : Prop where
  tree : Tree (childsOf st) 0 st.length
  nodes : ∀ p, (walk (childsOf st) 0 p).isSome ↔ p = [] ∨ ∃ m ∈ calls.map Prod.fst, p <+: m
  libs : ∀ p a, p ≠ [] → walk (childsOf st) 0 p = some a →
    ∃ n, st[a]? = some n ∧ n.lib = lastInstalled calls p

theorem lastInstalled_append (name : List Symbol) (lib : Lib) (q : List Symbol) :
    lastInstalled (calls ++ [(name, lib)]) q = if q = name then some lib else lastInstalled calls q := by
  unfold lastInstalled
  rw [List.reverse_append, List.reverse_singleton, List.singleton_append, List.lookup_cons]
  by_cases same : q = name
  · rw [if_pos same, beq_iff_eq.mpr same]
  · rw [if_neg same, beq_eq_false_iff_ne.mpr same]

theorem lastInstalled_none (fresh : ∀ m ∈ calls.map Prod.fst, q ≠ m) :
    lastInstalled calls q = none := by
  unfold lastInstalled
  rw [List.lookup_eq_none_iff]
  intro call member
  rw [bne_iff_ne]
  exact fresh call.1 (List.mem_map_of_mem (List.mem_reverse.mp member))

theorem holds_root : Holds ([] : List (List Symbol × Lib)) libraryManagerRoot := by
  have leaf : ∀ node, childsOf (libraryManagerRoot : Nodes Lib) node = [] := by
    intro node
    cases node <;> rfl
  have only : ∀ p, walk (childsOf (libraryManagerRoot : Nodes Lib)) 0 p =
      if p = [] then some 0 else none := by
    intro p
    cases p with
    | nil => rfl
    | cons x p =>
      rw [walk_cons, leaf, if_neg (List.cons_ne_nil x p)]
      rfl
  constructor
  · constructor
    · intro p a there
      rw [only] at there
      split at there
      · cases there
        exact Nat.one_pos
      · cases there
    · intro p q a first second
      rw [only] at first second
      by_cases empty : p = []
      · by_cases empty' : q = []
        · rw [empty, empty']
        · rw [if_neg empty'] at second
          cases second
      · rw [if_neg empty] at first
        cases first
  · intro p
    rw [only]
    by_cases empty : p = [] <;> simp [empty]
  · intro p a some there
    rw [only, if_neg some] at there
    cases there

theorem Holds.fresh (holds : Holds calls st) (absent : walk (childsOf st) 0 q = none) :
    lastInstalled calls q = none := by
  apply lastInstalled_none
  intro m member same
  have there := (holds.nodes q).mpr (.inr ⟨m, member, same ▸ List.prefix_refl q⟩)
  rw [absent] at there
  cases there

theorem Holds.set (holds : Holds calls st) (here : walk (childsOf st) 0 name = some a)
    (node : st[a]? = some n) :
    Holds (calls ++ [(name, lib)]) (st.set a { n with lib := some lib }) := by
  have inside := holds.tree.inside name a here
  have same : childsOf (st.set a { n with lib := some lib }) = childsOf st := by
    funext b
    unfold childsOf
    by_cases at_a : a = b
    · subst at_a
      rw [List.getElem?_set_self inside, node]
      rfl
    · rw [List.getElem?_set_ne at_a]
  constructor
  · rw [same, List.length_set]
    exact holds.tree
  · intro p
    rw [same, holds.nodes, List.map_append, List.map_singleton]
    constructor
    · rintro (empty | ⟨m, member, before⟩)
      · exact .inl empty
      · exact .inr ⟨m, List.mem_append_left _ member, before⟩
    · rintro (empty | ⟨m, member, before⟩)
      · exact .inl empty
      · rcases List.mem_append.mp member with old | new
        · exact .inr ⟨m, old, before⟩
        · obtain rfl := List.mem_singleton.mp new
          apply (holds.nodes p).mp
          apply walk_prefix before
          rw [here]
          rfl
  · intro p b notEmpty there
    rw [same] at there
    rw [lastInstalled_append]
    by_cases renewed : p = name
    · subst renewed
      obtain rfl := Option.some.inj (here.symm.trans there)
      exact ⟨_, List.getElem?_set_self inside, by rw [if_pos rfl]⟩
    · have other : a ≠ b := by
        intro equal
        subst equal
        exact renewed (holds.tree.unique p name a there here)
      rw [List.getElem?_set_ne other, if_neg renewed]
      exact holds.libs p b notEmpty there

/- The new nodes of a name that was not in the tree. -/

theorem attached_old {b : Nat} (lib : Lib) (x : Symbol) (r : List Symbol) (inside : b < st.length)
    (other : b ≠ a) : (attached st lib a n x r)[b]? = st[b]? := by
  unfold attached
  rw [List.getElem?_set_ne other.symm, List.getElem?_append_left inside]

theorem attached_self (lib : Lib) (x : Symbol) (r : List Symbol) (inside : a < st.length) :
    (attached st lib a n x r)[a]? =
      some { n with childs := (x, st.length + r.length) :: n.childs } := by
  unfold attached
  rw [List.getElem?_set_self]
  rw [List.length_append]
  exact Nat.lt_add_right _ inside

theorem attached_chained (lib : Lib) (x : Symbol) (r : List Symbol) (inside : a < st.length) :
    Chained (attached st lib a n x r) st.length lib r := by
  intro s suffix
  unfold attached
  have other : a ≠ st.length + s.length := by omega
  rw [List.getElem?_set_ne other, List.getElem?_append_right (Nat.le_add_right _ _),
    Nat.add_sub_cancel_left, chain_at suffix]

theorem length_attached (st : Nodes Lib) (a : Nat) (n : LNode Lib) (lib : Lib) (x : Symbol)
    (r : List Symbol) :
    (attached st lib a n x r).length = st.length + (r.length + 1) := by
  unfold attached
  rw [List.length_set, List.length_append, length_chain]

theorem Holds.graft (holds : Holds calls st) (lib : Lib) (r : List Symbol)
    (here : walk (childsOf st) 0 p = some a) (node : st[a]? = some n)
    (absent : n.childs.lookup x = none) :
    Graft (childsOf st) (childsOf (attached st lib a n x r)) 0 st.length p a x
      (st.length + r.length) where
  tree := holds.tree
  here := here
  absent := by rw [childsOf_eq node, absent]
  attached := by
    rw [childsOf_eq (attached_self lib x r (holds.tree.inside p a here)), childsOf_eq node]
  same := by
    intro b inside other
    unfold childsOf
    rw [attached_old lib x r inside other]

theorem Holds.walk_behind (holds : Holds calls st) (lib : Lib) (r : List Symbol)
    (here : walk (childsOf st) 0 p = some a) (node : st[a]? = some n)
    (absent : n.childs.lookup x = none) (s : List Symbol) :
    walk (childsOf (attached st lib a n x r)) 0 (p ++ x :: s) =
      if s <+: r then some (st.length + (r.length - s.length)) else none := by
  have inside := holds.tree.inside p a here
  rw [(holds.graft lib r here node absent).behind,
    (attached_chained lib x r inside).walk s r (List.suffix_refl r)]

/- Nothing was behind the new edge. -/
theorem walk_absent (here : walk (childsOf st) 0 p = some a) (node : st[a]? = some n)
    (absent : n.childs.lookup x = none) (s : List Symbol) :
    walk (childsOf st) 0 (p ++ x :: s) = none := by
  rw [walk_append, here, Option.bind_some, walk_cons, childsOf_eq node, absent]
  rfl

theorem Holds.attached_tree (holds : Holds calls st) (lib : Lib) (r : List Symbol)
    (here : walk (childsOf st) 0 p = some a) (node : st[a]? = some n)
    (absent : n.childs.lookup x = none) :
    Tree (childsOf (attached st lib a n x r)) 0 (attached st lib a n x r).length := by
  have chained := attached_chained (n := n) lib x r (holds.tree.inside p a here)
  have length := length_attached st a n lib x r
  apply (holds.graft lib r here node absent).tree'
  · rw [length]
    exact Nat.le_add_right _ _
  · intro q b there
    rw [chained.walk q r (List.suffix_refl r)] at there
    split at there
    · cases there
      rw [length]
      omega
    · cases there
  · intro q s b first second
    rw [chained.walk q r (List.suffix_refl r)] at first
    rw [chained.walk s r (List.suffix_refl r)] at second
    split at first
    · rename_i ofQ
      split at second
      · rename_i ofS
        have lengthQ := ofQ.length_le
        have lengthS := ofS.length_le
        have equal := Option.some.inj (first.trans second.symm)
        exact (List.prefix_of_prefix_length_le ofQ ofS (by omega)).eq_of_length (by omega)
      · cases second
    · cases first

/- A part of the new name that is not behind the new edge is a part of p. -/
theorem prefix_beside (other : ¬ p ++ [x] <+: q) (prefixed : q <+: p ++ x :: r) : q <+: p := by
  rcases List.prefix_or_prefix_of_prefix prefixed (List.prefix_append p (x :: r)) with
    shorter | ⟨s, rfl⟩
  · exact shorter
  · cases s with
    | nil => simp
    | cons y s =>
      have first := (List.prefix_append_right_inj p).mp prefixed
      rw [List.cons_prefix_cons] at first
      obtain ⟨rfl, _⟩ := first
      exact absurd ⟨s, by simp⟩ other

theorem Holds.attached_nodes (holds : Holds calls st) (lib : Lib) (r : List Symbol)
    (here : walk (childsOf st) 0 p = some a) (node : st[a]? = some n)
    (absent : n.childs.lookup x = none) (q : List Symbol) :
    (walk (childsOf (attached st lib a n x r)) 0 q).isSome ↔
      q = [] ∨ ∃ m ∈ (calls ++ [(p ++ x :: r, lib)]).map Prod.fst, q <+: m := by
  rw [List.map_append, List.map_singleton]
  rcases graft_cases p x q with other | ⟨s, rfl⟩
  · rw [(holds.graft lib r here node absent).beside other, holds.nodes]
    constructor
    · rintro (empty | ⟨m, member, prefixed⟩)
      · exact .inl empty
      · exact .inr ⟨m, List.mem_append_left _ member, prefixed⟩
    · rintro (empty | ⟨m, member, prefixed⟩)
      · exact .inl empty
      · rcases List.mem_append.mp member with old | new
        · exact .inr ⟨m, old, prefixed⟩
        · obtain rfl := List.mem_singleton.mp new
          apply (holds.nodes q).mp
          apply walk_prefix (prefix_beside other prefixed)
          rw [here]
          rfl
  · rw [holds.walk_behind lib r here node absent]
    constructor
    · intro there
      right
      refine ⟨p ++ x :: r, List.mem_append_right _ (List.mem_singleton_self _), ?_⟩
      by_cases shorter : s <+: r
      · rw [List.prefix_append_right_inj, List.cons_prefix_cons]
        exact ⟨rfl, shorter⟩
      · rw [if_neg shorter] at there
        cases there
    · rintro (empty | ⟨m, member, prefixed⟩)
      · simp at empty
      · rcases List.mem_append.mp member with old | new
        · have there := (holds.nodes (p ++ x :: s)).mpr (.inr ⟨m, old, prefixed⟩)
          rw [walk_absent here node absent] at there
          cases there
        · obtain rfl := List.mem_singleton.mp new
          rw [List.prefix_append_right_inj, List.cons_prefix_cons] at prefixed
          rw [if_pos prefixed.2]
          rfl

theorem Holds.attached_libs (holds : Holds calls st) (lib : Lib) (r : List Symbol)
    (here : walk (childsOf st) 0 p = some a) (node : st[a]? = some n)
    (absent : n.childs.lookup x = none) {q : List Symbol} {b : Nat} (some : q ≠ [])
    (there : walk (childsOf (attached st lib a n x r)) 0 q = Option.some b) :
    ∃ m, (attached st lib a n x r)[b]? = Option.some m ∧
      m.lib = lastInstalled (calls ++ [(p ++ x :: r, lib)]) q := by
  have inside := holds.tree.inside p a here
  rw [lastInstalled_append]
  rcases graft_cases p x q with other | ⟨s, rfl⟩
  · rw [(holds.graft lib r here node absent).beside other] at there
    have notNew : q ≠ p ++ x :: r := by
      intro same
      subst same
      exact other ⟨r, by simp⟩
    obtain ⟨m, at_b, lib_b⟩ := holds.libs q b some there
    rw [if_neg notNew]
    by_cases same : b = a
    · subst same
      obtain rfl := Option.some.inj (node.symm.trans at_b)
      exact ⟨_, attached_self lib x r inside, lib_b⟩
    · exact ⟨m, by rw [attached_old lib x r (holds.tree.inside q b there) same, at_b], lib_b⟩
  · rw [holds.walk_behind lib r here node absent] at there
    split at there
    · rename_i shorter
      cases there
      obtain ⟨t, rfl⟩ := shorter
      have at_t := attached_chained (n := n) lib x (s ++ t) inside t (List.suffix_append s t)
      rw [List.length_append, Nat.add_sub_cancel_left]
      refine ⟨_, at_t, ?_⟩
      rw [holds.fresh (walk_absent here node absent s)]
      cases t with
      | nil => simp [link]
      | cons y t => simp [link]
    · cases there

theorem Holds.attach (holds : Holds calls st) (lib : Lib) (r : List Symbol)
    (here : walk (childsOf st) 0 p = some a) (node : st[a]? = some n)
    (absent : n.childs.lookup x = none) :
    Holds (calls ++ [(p ++ x :: r, lib)]) (attached st lib a n x r) where
  tree := holds.attached_tree lib r here node absent
  nodes := holds.attached_nodes lib r here node absent
  libs _ _ some there := holds.attached_libs lib r here node absent some there

/- An install succeeds exactly when the names before it admit its name. -/

theorem Holds.edge (holds : Holds calls st) (here : walk (childsOf st) 0 p = some a)
    (node : st[a]? = some n) : n.childs ≠ [] ↔
      ∃ m ∈ calls.map Prod.fst, p <+: m ∧ m ≠ p := by
  constructor
  · intro some
    obtain ⟨⟨z, c⟩, childs, same⟩ := List.exists_cons_of_ne_nil some
    have there : (walk (childsOf st) 0 (p ++ [z])).isSome := by
      rw [walk_append, here, Option.bind_some, walk_single, childsOf_eq node, same,
        List.lookup_cons_self]
      rfl
    rcases (holds.nodes _).mp there with empty | ⟨m, member, prefixed⟩
    · simp at empty
    · refine ⟨m, member, (List.prefix_append p [z]).trans prefixed, ?_⟩
      intro same
      subst same
      have length := prefixed.length_le
      rw [List.length_append, List.length_singleton] at length
      omega
  · rintro ⟨m, member, ⟨s, rfl⟩, other⟩ leaf
    cases s with
    | nil => simp at other
    | cons z s =>
      have there := (holds.nodes (p ++ [z])).mpr (.inr ⟨_, member, ⟨s, by simp⟩⟩)
      rw [walk_append, here, Option.bind_some, walk_single, childsOf_eq node, leaf] at there
      cases there

theorem Holds.admits_found (holds : Holds calls st) (some : name ≠ [])
    (there : (walk (childsOf st) 0 name).isSome) : Admits (calls.map Prod.fst) name := by
  intro p x r split _ _
  rcases (holds.nodes name).mp there with empty | ⟨m, member, prefixed⟩
  · exact absurd empty some
  · refine ⟨m, member, List.IsPrefix.trans ⟨r, ?_⟩ prefixed⟩
    rw [split]
    simp

theorem Holds.admits_absent (holds : Holds calls st) (here : walk (childsOf st) 0 p = some a)
    (node : st[a]? = some n) (absent : n.childs.lookup x = none) :
    Admits (calls.map Prod.fst) (p ++ x :: r) ↔ r = [] ∨ n.childs = [] := by
  have nothing : ¬ ∃ m ∈ calls.map Prod.fst, p ++ [x] <+: m := by
    intro some
    have there := (holds.nodes (p ++ [x])).mpr (.inr some)
    rw [walk_append, here, Option.bind_some, walk_single, childsOf_eq node, absent] at there
    cases there
  constructor
  · intro admits
    by_contra neither
    rw [not_or] at neither
    exact nothing (admits p x r rfl neither.1 ((holds.edge here node).mp neither.2))
  · intro either q y s split more extends'
    have first : p <+: p ++ x :: r := List.prefix_append p _
    have second : q <+: p ++ x :: r := split ▸ List.prefix_append q _
    rcases List.prefix_or_prefix_of_prefix second first with shorter | longer
    · obtain ⟨t, rfl⟩ := shorter
      cases t with
      | nil =>
        rw [List.append_nil] at split here
        obtain ⟨rfl, rfl⟩ := List.cons.inj (List.append_cancel_left split)
        have leaf := either.resolve_left more
        exact absurd leaf ((holds.edge here node).mpr extends')
      | cons z t =>
        rw [List.append_assoc] at split
        obtain ⟨rfl, _⟩ := List.cons.inj (List.append_cancel_left split)
        have part : q ++ [z] <+: q ++ z :: t := ⟨t, by simp⟩
        have there := walk_prefix part (by rw [here]; rfl)
        exact ((holds.nodes _).mp there).resolve_left (by simp)
    · obtain ⟨t, rfl⟩ := longer
      cases t with
      | nil =>
        rw [List.append_nil] at split extends'
        obtain ⟨rfl, rfl⟩ := List.cons.inj (List.append_cancel_left split)
        have leaf := either.resolve_left more
        exact absurd leaf ((holds.edge here node).mpr extends')
      | cons z t =>
        rw [List.append_assoc] at split
        obtain ⟨rfl, _⟩ := List.cons.inj (List.append_cancel_left split)
        obtain ⟨m, member, prefixed, _⟩ := extends'
        have part : p ++ [x] <+: p ++ x :: t := ⟨t, by simp⟩
        exact absurd ⟨m, member, part.trans prefixed⟩ nothing

theorem Holds.inside (holds : Holds calls st) (p : List Symbol) (a : Nat)
    (there : walk (childsOf st) 0 p = some a) : a < st.length := holds.tree.inside p a there

theorem Holds.install_step (holds : Holds calls st) (notEmpty : name ≠ []) (lib : Lib) :
    Returns (libraryInstall 0 name lib) st ⟨⟩ st' ↔ match walk (childsOf st) 0 name with
      | some res => Returns (lnodeLibSet res (some lib)) st ⟨⟩ st'
      | none => Returns (installLoop lib 0 name) st ⟨⟩ st' := by
  have search := librarySearch_returns holds.inside notEmpty
  rw [libraryInstall, returns_after search]
  cases walk (childsOf st) 0 name with
  | none => exact Iff.rfl
  | some res => exact Iff.rfl

theorem Holds.install (holds : Holds calls st) (some : name ≠ []) (lib : Lib) :
    (Admits (calls.map Prod.fst) name →
      ∃ st', Returns (libraryInstall 0 name lib) st ⟨⟩ st' ∧ Holds (calls ++ [(name, lib)]) st') ∧
    (¬ Admits (calls.map Prod.fst) name → ∀ st', ¬ Returns (libraryInstall 0 name lib) st ⟨⟩ st') := by
  simp only [holds.install_step some]
  cases found : walk (childsOf st) 0 name with
  | some a =>
    have node := List.getElem?_eq_getElem (holds.inside name a found)
    constructor
    · intro _
      exact ⟨_, returns_lnodeLibSet node _, holds.set found node⟩
    · intro refused
      exact absurd (holds.admits_found some (by rw [found]; rfl)) refused
  | none =>
    obtain ⟨p, x, r, a, n, rfl, here, node, absent, ends⟩ :=
      installLoop_ends lib holds.inside found
    rw [holds.admits_absent here node absent]
    constructor
    · intro admitted
      rw [if_pos admitted] at ends
      exact ⟨_, ends, holds.attach lib r here node absent⟩
    · intro refused
      rw [if_neg refused] at ends
      exact ends

theorem Holds.find (holds : Holds calls st) (some : name ≠ []) :
    Returns (findLibrary 0 name) st (lastInstalled calls name) st := by
  have search := librarySearch_returns holds.inside some
  rw [findLibrary, returns_bind]
  refine ⟨_, st, search, ?_⟩
  cases found : walk (childsOf st) 0 name with
  | some a =>
    obtain ⟨n, node, lib⟩ := holds.libs name a some found
    simp only [lnodeLib, returns_bind, returns_readNode, returns_pure]
    exact ⟨n, st, ⟨node, rfl⟩, lib, rfl⟩
  | none => exact returns_pure.mpr ⟨(holds.fresh found).symm, rfl⟩

/-- Each name is admitted by the names before it. -/
def AllAdmitted (names : List (List Symbol)) : Prop :=
  ∀ before name after, names = before ++ name :: after → Admits before name

theorem Holds.installs (holds : Holds calls st) {later : List (List Symbol × Lib)}
    (names : ∀ call ∈ later, call.1 ≠ [])
    (admitted : ∀ before name after, later.map Prod.fst = before ++ name :: after →
      Admits (calls.map Prod.fst ++ before) name) :
    ∃ st', Returns (installAll 0 later) st ⟨⟩ st' ∧ Holds (calls ++ later) st' := by
  induction later generalizing calls st with
  | nil =>
    rw [List.append_nil]
    exact ⟨st, returns_pure.mpr ⟨rfl, rfl⟩, holds⟩
  | cons call later ih =>
    obtain ⟨name, lib⟩ := call
    have first := admitted [] name (later.map Prod.fst) rfl
    rw [List.append_nil] at first
    obtain ⟨u, ran, holds'⟩ := (holds.install (names _ List.mem_cons_self) lib).1 first
    obtain ⟨st', rest, all⟩ := ih holds' (fun call member => names call (List.mem_cons_of_mem _ member))
      (by
        intro before n after split
        rw [List.map_append, List.append_assoc]
        apply admitted (name :: before) n after
        rw [List.map_cons, split, List.cons_append])
    refine ⟨st', ?_, ?_⟩
    · rw [installAll, returns_bind]
      exact ⟨_, u, ran, rest⟩
    · rw [List.append_assoc] at all
      exact all

theorem Holds.admitted (holds : Holds calls st) {later : List (List Symbol × Lib)}
    (names : ∀ call ∈ later, call.1 ≠ []) (ran : Returns (installAll 0 later) st ⟨⟩ st')
    (before : List (List Symbol)) (name : List Symbol) (after : List (List Symbol))
    (split : later.map Prod.fst = before ++ name :: after) :
    Admits (calls.map Prod.fst ++ before) name := by
  induction later generalizing calls st before with
  | nil => simp at split
  | cons call later ih =>
    obtain ⟨first, lib⟩ := call
    rw [installAll, returns_bind] at ran
    obtain ⟨_, u, ran, rest⟩ := ran
    have installs := holds.install (names _ List.mem_cons_self) lib
    have admits : Admits (calls.map Prod.fst) first := by
      by_contra refused
      exact installs.2 refused u ran
    obtain ⟨u', ran', holds'⟩ := installs.1 admits
    obtain ⟨_, rfl⟩ := ran.unique ran'
    cases before with
    | nil =>
      obtain ⟨rfl, _⟩ := List.cons.inj split
      rw [List.append_nil]
      exact admits
    | cons m before =>
      obtain ⟨rfl, behind⟩ := List.cons.inj split
      have later' := ih holds' (fun call member => names call (List.mem_cons_of_mem _ member)) rest
        before behind
      rw [List.map_append, List.append_assoc] at later'
      exact later'

/- The installs make the finite map of the names exactly when each name is admitted by those before
   it. -/
theorem finite_map_iff (calls : List (List Symbol × Lib)) (names : ∀ call ∈ calls, call.1 ≠ []) :
    (∃ st, Returns (installAll 0 calls) libraryManagerRoot ⟨⟩ st ∧ ∀ name, name ≠ [] →
      Returns (findLibrary 0 name) st (lastInstalled calls name) st) ↔
    AllAdmitted (calls.map Prod.fst) := by
  constructor
  · rintro ⟨st, ran, _⟩ before name after split
    exact holds_root.admitted names ran before name after split
  · intro admitted
    obtain ⟨st, ran, holds⟩ := holds_root.installs names admitted
    exact ⟨st, ran, fun name some => Holds.find holds some⟩

end manager

theorem finite_map_rnrs : ∃ st,
    Returns (installAll 0 [(["rnrs", "base"], 1), (["rnrs", "lists"], 2)]) libraryManagerRoot ⟨⟩ st ∧
    ∀ name, name ≠ [] → Returns (findLibrary 0 name) st
      (lastInstalled [(["rnrs", "base"], 1), (["rnrs", "lists"], 2)] name) st := by
  rw [finite_map_iff _ (by simp)]
  intro before name after split p x r parts more
  rcases before with _ | ⟨first, _ | ⟨second, before⟩⟩
  · rintro ⟨m, never, _⟩
    cases never
  · simp only [List.map_cons, List.map_nil, List.cons_append, List.nil_append, List.cons.injEq] at split
    obtain ⟨rfl, rfl, _⟩ := split
    rcases p with _ | ⟨y, _ | ⟨z, p⟩⟩
    · obtain ⟨rfl, _⟩ := List.cons.inj parts
      intro _
      exact ⟨_, List.mem_singleton_self _, ["base"], rfl⟩
    · obtain ⟨_, rest⟩ := List.cons.inj parts
      exact absurd (List.cons.inj rest).2.symm more
    · simp at parts
  · simp at split

/- (compiler syntax) cannot be installed after (rnrs base). -/
theorem second_library_refused : ¬ ∃ st : Nodes Nat,
    Returns (installAll 0 [(["rnrs", "base"], 1), (["compiler", "syntax"], 2)]) libraryManagerRoot
      ⟨⟩ st := by
  rintro ⟨st, ran⟩
  cases ran

end LGears.LibraryManager
