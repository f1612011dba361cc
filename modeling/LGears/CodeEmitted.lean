import Mathlib.Data.List.Induction
import LGears.CodeTables

/- What compiling a node does: it adds the functions of its lambda expressions to the code
   store, and its instructions stand for the node in the final tables. -/
namespace LGears.CodeEmitted
open PrimitivesInfo Opcode StateExcept Compiler CodeTables

/- Frames and the hash tables of environments. -/

/-- The environment has the variables of the frame, in their slots. -/
structure EnvOf (env : FuncEnv) (frame : List Symbol) (outer : List (List Symbol)) : Prop where
  tbl : env.tbl = frame.zipIdx.reverse
  size : env.size = frame.length
  depth : env.depth = outer.length
  bindings : ∀ b ∈ env.bindings, Binds env.bindmap.reverse outer b

/-- The environments of the chain have the variables of the frames. -/
def Chain : List FuncEnv → List (List Symbol) → Prop
  | [], [] => True
  | env :: envs, frame :: scope => EnvOf env frame scope ∧ Chain envs scope
  | _, _ => False

section frames
variable {env : FuncEnv} {frame : List Symbol} {x : Symbol} {idx : Nat}

theorem slotOf_last : SlotOf (frame ++ [x]) x idx ↔ idx = frame.length := by
  constructor
  · intro slot
    have inside := slot.lt
    rw [List.length_append, List.length_singleton] at inside
    by_contra other
    exact slot.last frame.length (by omega) (by simp)
  · intro here
    subst here
    constructor
    · simp
    · intro k after at_k
      have below := (List.getElem?_eq_some_iff.mp at_k).1
      rw [List.length_append, List.length_singleton] at below
      omega

theorem slotOf_other {y : Symbol} (other : x ≠ y) :
    SlotOf (frame ++ [y]) x idx ↔ SlotOf frame x idx := by
  have same : ∀ k : Nat, (frame ++ [y])[k]? = some x ↔ frame[k]? = some x := by
    intro k
    rw [List.getElem?_append]
    split
    · rfl
    · rename_i beyond
      rw [List.getElem?_singleton, List.getElem?_eq_none (Nat.not_lt.mp beyond)]
      split
      · simpa using Ne.symm other
      · simp
  constructor
  · intro slot
    constructor
    · exact (same idx).mp slot.named
    · intro k after at_k
      exact slot.last k after ((same k).mpr at_k)
  · intro slot
    constructor
    · exact (same idx).mpr slot.named
    · intro k after at_k
      exact slot.last k after ((same k).mp at_k)

theorem lookup_frame : (frame.zipIdx.reverse).lookup x = some idx ↔ SlotOf frame x idx := by
  induction frame using List.reverseRecOn with
  | nil =>
    constructor
    · intro none
      simp at none
    · intro slot
      exact absurd slot.lt (by simp)
  | append_singleton frame y ih =>
    rw [List.zipIdx_append, List.reverse_append]
    simp only [List.zipIdx_singleton, List.reverse_singleton, List.singleton_append, Nat.zero_add,
      List.lookup_cons]
    by_cases same : x = y
    · subst same
      rw [slotOf_last]
      simp [eq_comm]
    · rw [slotOf_other same, beq_false_of_ne same]
      exact ih

theorem lookup_absent : (frame.zipIdx.reverse).lookup x = none ↔ x ∉ frame := by
  rw [List.lookup_eq_none_iff]
  constructor
  · intro absent member
    obtain ⟨i, inside, at_i⟩ := List.getElem_of_mem member
    have entry : (x, i) ∈ frame.zipIdx.reverse := by
      rw [List.mem_reverse, List.mem_zipIdx_iff_getElem?, List.getElem?_eq_some_iff]
      exact ⟨inside, at_i⟩
    simpa using absent (x, i) entry
  · intro absent p member
    rw [List.mem_reverse] at member
    have named := List.fst_mem_of_mem_zipIdx member
    rw [bne_iff_ne]
    intro same
    exact absurd (same ▸ named) absent

theorem setFuncArgs_eq (xs : List Symbol) (i : Nat) (tbl : List (Symbol × Nat)) :
    setFuncArgs xs i tbl = (xs.zipIdx i).reverse ++ tbl := by
  induction xs generalizing i tbl with
  | nil => rfl
  | cons x xs ih =>
    rw [setFuncArgs, ih, List.zipIdx_cons, List.reverse_cons, List.append_assoc]
    rfl

theorem makeEnv_of {envs : List FuncEnv} {scope : List (List Symbol)} (chain : Chain envs scope)
    (args : Formals) : EnvOf (makeEnv envs args) args.names scope := by
  have deep : (makeEnv envs args).depth = scope.length := by
    cases envs with
    | nil =>
      cases scope with
      | nil => rfl
      | cons frame scope => exact chain.elim
    | cons env envs =>
      cases scope with
      | nil => exact chain.elim
      | cons frame scope =>
        rw [List.length_cons, ← chain.1.depth]
        rfl
  obtain ⟨fixed, rest⟩ := args
  cases rest with
  | none =>
    constructor
    · simp [makeEnv, setFuncArgs_eq, Formals.names]
    · simp [makeEnv, Formals.names]
    · exact deep
    · simp [makeEnv]
  | some r =>
    constructor
    · simp [makeEnv, setFuncArgs_eq, Formals.names, List.zipIdx_append]
    · simp [makeEnv, Formals.names]
    · exact deep
    · simp [makeEnv]

theorem EnvOf.define {outer : List (List Symbol)} (of : EnvOf env frame outer)
    (names : List Symbol) : EnvOf (names.foldl envDefine env) (frame ++ names) outer := by
  induction names generalizing env frame with
  | nil =>
    rw [List.append_nil]
    exact of
  | cons x names ih =>
    have next : EnvOf (envDefine env x) (frame ++ [x]) outer := by
      constructor
      · simp [envDefine, of.tbl, of.size, List.zipIdx_append]
      · simp [envDefine, of.size]
      · exact of.depth
      · exact of.bindings
    have rest := ih next
    rwa [List.append_assoc, List.singleton_append] at rest

end frames

section tables
variable {α : Type} [DecidableEq α]

theorem intern_at (key : α) (table : List α) :
    (intern key table).2.reverse[(intern key table).1]? = some key := by
  unfold intern
  cases found : table.dropWhile (· ≠ key) with
  | nil => simp
  | cons x rest =>
    have here : x = key := by
      have stop := List.head?_dropWhile_not (fun x => decide (x ≠ key)) table
      rw [found] at stop
      simpa using stop
    have split := List.takeWhile_append_dropWhile (p := fun x => decide (x ≠ key)) (l := table)
    rw [found] at split
    rw [← split, here]
    simp

theorem mem_intern {key b : α} {table : List α} (member : b ∈ (intern key table).2) :
    b = key ∨ b ∈ table := by
  unfold intern at member
  split at member
  · exact List.mem_cons.mp member
  · exact .inr member

end tables

/- States of the code generator and the final tables. -/

/-- The state stands where the enclosing functions have the frames of scope. -/
structure Stands (scope : List (List Symbol)) (s : CompState) : Prop where
  chain : Chain s.envs scope
  numbered : ∃ consts : List Const, s.consts = consts.zipIdx.reverse

/-- The tables of the state are beginnings of the final ones; f is the function that is
    being compiled. -/
structure Final (T : Tables) (f : IFunc) (s : CompState) : Prop where
  consts : ∀ c i, (c, i) ∈ s.consts → T.consts[i]? = some c
  tables : ∀ env ∈ s.envs.head?,
    env.bindings.reverse <+: f.bindings ∧ env.bindmap.reverse <+: f.bindmap

/-- The lambda expressions are those from number k on. -/
def Listed (T : Tables) (k : Nat) (ls : List Lambda) : Prop := ls <+: T.lambdas.drop k

/-- The functions of the lambda expressions have been added. -/
structure Added (scope : List (List Symbol)) (s : CompState) (ls : List Lambda) (s' : CompState) :
    Prop where
  stands : Stands scope s'
  grows : Grows s s'
  funcs : ∃ new, s'.codeStore = new.reverse ++ s.codeStore ∧ new.length = ls.length ∧
    ∀ T f, Final T f s' → Listed T s.codeStore.length ls → List.Forall₂ (FuncOf T) ls new

/-- The computation adds the functions of the lambda expressions, and its result is right
    for the final tables. -/
def Emits {α : Type} (scope : List (List Symbol)) (ls : List Lambda) (c : CompM α)
    (Q : Tables → IFunc → α → Prop) : Prop :=
  ∀ s a s', Stands scope s → Returns c s a s' → Added scope s ls s' ∧
    ∀ T f, Final T f s' → Listed T s.codeStore.length ls → Q T f a

section emits
variable {α β : Type} {scope : List (List Symbol)} {s s' t : CompState} {ls ms : List Lambda}
  {T : Tables} {f : IFunc}

theorem Final.before (final : Final T f s') (grows : Grows s s') : Final T f s := by
  constructor
  · intro c i member
    exact final.consts c i (grows.consts.subset member)
  · intro env first
    obtain ⟨rest, same⟩ : ∃ rest, s.envs = env :: rest := by
      cases envs : s.envs with
      | nil => simp [envs] at first
      | cons e rest =>
        simp only [envs, List.head?_cons, Option.mem_some_iff] at first
        exact ⟨rest, by rw [first]⟩
    have envs := grows.envs
    rw [same] at envs
    obtain ⟨env', rest', grown, _, after⟩ := List.forall₂_cons_left_iff.mp envs
    have found := final.tables env' (by simp [after])
    constructor
    · exact (List.reverse_prefix.mpr grown.bindings).trans found.1
    · exact (List.reverse_prefix.mpr grown.bindmap).trans found.2

theorem listed_append {k : Nat} :
    Listed T k (ls ++ ms) ↔ Listed T k ls ∧ Listed T (k + ls.length) ms := by
  unfold Listed
  rw [← List.drop_drop]
  constructor
  · intro both
    obtain ⟨rest, split⟩ := both
    rw [← split, List.append_assoc, List.drop_left]
    exact ⟨List.prefix_append _ _, List.prefix_append _ _⟩
  · intro both
    obtain ⟨⟨rest, split⟩, later⟩ := both
    rw [← split, List.drop_left] at later
    rw [← split]
    exact (List.prefix_append_right_inj ls).mpr later

theorem Added.refl (stands : Stands scope s) : Added scope s [] s :=
  ⟨stands, Grows.refl s, [], rfl, rfl, fun _ _ _ _ => .nil⟩

theorem Added.count (added : Added scope s ls s') :
    s'.codeStore.length = s.codeStore.length + ls.length := by
  obtain ⟨new, same, length, _⟩ := added.funcs
  rw [same, List.length_append, List.length_reverse, length, Nat.add_comm]

theorem Added.trans (first : Added scope s ls t) (second : Added scope t ms s') :
    Added scope s (ls ++ ms) s' := by
  have count := first.count
  obtain ⟨new, same, length, right⟩ := first.funcs
  obtain ⟨new', same', length', right'⟩ := second.funcs
  constructor
  · exact second.stands
  · exact first.grows.trans second.grows
  · apply Exists.intro (new ++ new')
    constructor
    · rw [same', same, List.reverse_append, List.append_assoc]
    constructor
    · rw [List.length_append, List.length_append, length, length']
    · intro T f final listed
      rw [listed_append] at listed
      apply List.rel_append
      · exact right T f (final.before second.grows) listed.1
      · exact right' T f final (count ▸ listed.2)

theorem Emits.pure {a : α} {Q : Tables → IFunc → α → Prop} (right : ∀ T f, Q T f a) :
    Emits scope [] (pure a) Q := by
  intro s b s' stands ran
  rw [returns_pure] at ran
  obtain ⟨rfl, rfl⟩ := ran
  exact ⟨.refl stands, fun T f _ _ => right T f⟩

theorem Emits.fail {e : CompileError} {Q : Tables → IFunc → α → Prop} :
    Emits scope ls (fail e : CompM α) Q :=
  fun _ _ _ _ ran => absurd ran returns_fail

theorem Emits.bind {c : CompM α} {k : α → CompM β} {Q : Tables → IFunc → α → Prop}
    {R : Tables → IFunc → β → Prop} (first : Emits scope ls c Q)
    (second : ∀ a, Emits scope ms (k a) fun T f b => Q T f a → R T f b) :
    Emits scope (ls ++ ms) (c >>= k) R := by
  intro s b s' stands ran
  rw [returns_bind] at ran
  obtain ⟨a, t, ran, rest⟩ := ran
  obtain ⟨added, right⟩ := first s a t stands ran
  obtain ⟨added', right'⟩ := second a t b s' added.stands rest
  refine ⟨added.trans added', ?_⟩
  intro T f final listed
  rw [listed_append] at listed
  apply right' T f final (added.count ▸ listed.2)
  exact right T f (final.before added'.grows) listed.1

theorem Emits.first {c : CompM α} {k : α → CompM β} {Q : Tables → IFunc → α → Prop}
    {R : Tables → IFunc → β → Prop} (first : Emits scope [] c Q)
    (second : ∀ a, Emits scope ls (k a) fun T f b => Q T f a → R T f b) :
    Emits scope ls (c >>= k) R :=
  Emits.bind first second

theorem Emits.last {c : CompM α} {k : α → CompM β} {Q : Tables → IFunc → α → Prop}
    {R : Tables → IFunc → β → Prop} (first : Emits scope ls c Q)
    (second : ∀ a, Emits scope [] (k a) fun T f b => Q T f a → R T f b) :
    Emits scope ls (c >>= k) R := by
  have both := Emits.bind first second
  rwa [List.append_nil] at both

theorem Emits.mono {c : CompM α} {Q R : Tables → IFunc → α → Prop} (emits : Emits scope ls c Q)
    (imp : ∀ T f a, Q T f a → R T f a) : Emits scope ls c R := by
  intro s a s' stands ran
  obtain ⟨added, right⟩ := emits s a s' stands ran
  exact ⟨added, fun T f final listed => imp T f a (right T f final listed)⟩

theorem Emits.never {c : CompM α} {Q : Tables → IFunc → α → Prop}
    (none : ∀ s a s', ¬ Returns c s a s') : Emits scope ls c Q :=
  fun s a s' _ ran => absurd ran (none s a s')

theorem Emits.also {c : CompM α} {P : α → Prop} {Q : Tables → IFunc → α → Prop}
    (emits : Emits scope ls c Q) (extra : ∀ s a s', Returns c s a s' → P a) :
    Emits scope ls c fun T f a => P a ∧ Q T f a := by
  intro s a s' stands ran
  obtain ⟨added, right⟩ := emits s a s' stands ran
  exact ⟨added, fun T f final listed => ⟨extra s a s' ran, right T f final listed⟩⟩

theorem Emits.map {c : CompM α} {g : α → β} {Q : Tables → IFunc → α → Prop}
    {R : Tables → IFunc → β → Prop} (emits : Emits scope ls c Q)
    (imp : ∀ T f a, Q T f a → R T f (g a)) : Emits scope ls (g <$> c) R := by
  intro s b s' stands ran
  rw [returns_map] at ran
  obtain ⟨a, ran, rfl⟩ := ran
  obtain ⟨added, right⟩ := emits s a s' stands ran
  exact ⟨added, fun T f final listed => imp T f a (right T f final listed)⟩

theorem mem_of_lookup {c : Const} {i : Nat} {table : List (Const × Nat)}
    (found : table.lookup c = some i) : (c, i) ∈ table := by
  obtain ⟨before, after, same, _⟩ := List.lookup_eq_some_iff.mp found
  rw [same]
  simp

theorem Emits.makeConst (c : Const) :
    Emits scope [] (makeConst c) fun T _ i => T.consts[i]? = some c := by
  intro s i s' stands ran
  have grows := Growing.makeConst c s i s' ran
  obtain ⟨consts, same⟩ := stands.numbered
  simp only [Returns, Compiler.makeConst] at ran
  cases found : s.consts.lookup c with
  | some j =>
    rw [found] at ran
    cases ran
    refine ⟨.refl stands, ?_⟩
    intro T f final _
    exact final.consts c _ (mem_of_lookup found)
  | none =>
    rw [found] at ran
    cases ran
    constructor
    · constructor
      · refine ⟨stands.chain, consts ++ [c], ?_⟩
        simp [same, List.zipIdx_append]
      · exact grows
      · exact ⟨[], rfl, rfl, fun _ _ _ _ => .nil⟩
    · intro T f final _
      exact final.consts c _ (by simp)

end emits

section lookup
variable {scope outer : List (List Symbol)} {frame : List Symbol} {env : FuncEnv}
  {envs envs' : List FuncEnv} {x : Symbol} {depth idx : Nat}

theorem EnvOf.find (of : EnvOf env frame outer) : envRef env x = some idx ↔ SlotOf frame x idx := by
  rw [envRef, of.tbl]
  exact lookup_frame

theorem EnvOf.absent (of : EnvOf env frame outer) : envRef env x = none ↔ x ∉ frame := by
  rw [envRef, of.tbl]
  exact lookup_absent

theorem lookupParent_chain (chain : Chain envs scope)
    (found : lookupParent envs x = some (depth, idx, envs')) :
    Chain envs' scope ∧ Enclosing scope x depth idx := by
  induction envs generalizing scope envs' with
  | nil => simp [lookupParent] at found
  | cons env envs ih =>
    cases scope with
    | nil => exact chain.elim
    | cons frame outer =>
      obtain ⟨of, chain⟩ := chain
      rw [lookupParent] at found
      cases here : envRef env x with
      | some i =>
        rw [here] at found
        cases found
        constructor
        · exact ⟨⟨of.tbl, of.size, of.depth, of.bindings⟩, chain⟩
        · exact .inl ⟨of.find.mp here, of.depth⟩
      | none =>
        rw [here] at found
        simp only [Option.map_eq_some_iff, Prod.exists, Prod.mk.injEq] at found
        obtain ⟨_, _, rest, found, rfl, rfl, rfl⟩ := found
        obtain ⟨chain', enclosing⟩ := ih chain found
        exact ⟨⟨of, chain'⟩, .inr ⟨of.absent.mp here, enclosing⟩⟩

theorem lookupParent_none (chain : Chain envs scope) (none : lookupParent envs x = none) :
    ∀ frame ∈ scope, x ∉ frame := by
  induction envs generalizing scope with
  | nil =>
    cases scope with
    | nil => simp
    | cons frame outer => exact chain.elim
  | cons env envs ih =>
    cases scope with
    | nil => exact chain.elim
    | cons frame outer =>
      obtain ⟨of, chain⟩ := chain
      rw [lookupParent] at none
      cases here : envRef env x with
      | some i => simp [here] at none
      | none =>
        simp only [here, Option.map_eq_none_iff] at none
        rw [List.forall_mem_cons]
        exact ⟨of.absent.mp here, ih chain none⟩

theorem enclosing_frame (enclosing : Enclosing scope x depth idx) :
    ∃ frame, scope.reverse[depth]? = some frame ∧ idx < frame.length := by
  induction scope with
  | nil => exact enclosing.elim
  | cons frame outer ih =>
    rw [List.reverse_cons]
    rcases enclosing with ⟨slot, here⟩ | ⟨_, further⟩
    · rw [here]
      exact ⟨frame, by simp, slot.lt⟩
    · obtain ⟨frame', at_depth, inside⟩ := ih further
      have below := (List.getElem?_eq_some_iff.mp at_depth).1
      exact ⟨frame', by rw [List.getElem?_append_left below, at_depth], inside⟩

theorem getElem_of_prefix {α : Type} {xs ys : List α} {i : Nat} {a : α} (pre : xs <+: ys)
    (found : xs[i]? = some a) : ys[i]? = some a := by
  obtain ⟨rest, same⟩ := pre
  have inside := (List.getElem?_eq_some_iff.mp found).1
  rw [← same, List.getElem?_append_left inside, found]

theorem EnvOf.bind (of : EnvOf env frame outer) (enclosing : Enclosing outer x depth idx) :
    EnvOf (envBind env depth idx).2 frame outer := by
  have grown : env.bindmap.reverse <+: (envBind env depth idx).2.bindmap.reverse :=
    List.reverse_prefix.mpr (envBind_grows env depth idx).bindmap
  constructor
  · exact of.tbl
  · exact of.size
  · exact of.depth
  · intro b member
    rcases mem_intern member with here | before
    · obtain ⟨frame', at_depth, inside⟩ := enclosing_frame enclosing
      rw [here]
      exact ⟨depth, frame', intern_at depth env.bindmap, at_depth, inside⟩
    · obtain ⟨depth', frame', at_up, at_depth, inside⟩ := of.bindings b before
      exact ⟨depth', frame', getElem_of_prefix grown at_up, at_depth, inside⟩

theorem Emits.lookupStatic (absent : ∀ frame ∈ scope, x ∉ frame) :
    Emits scope [] (lookupStatic x) fun T f slot => Located T f scope x slot := by
  unfold Compiler.lookupStatic
  split
  · rename_i builtin
    rw [List.contains_iff_mem] at builtin
    apply Emits.map (Emits.makeConst _)
    intro T f i found
    exact ⟨absent, builtin, found⟩
  · exact Emits.fail

theorem Emits.envLookup (x : Symbol) :
    Emits scope [] (envLookup x) fun T f slot => Located T f scope x slot := by
  intro s slot s' stands ran
  have grows := Growing.envLookup x s slot s' ran
  obtain ⟨envs, code, consts⟩ := s
  have chain := stands.chain
  cases envs with
  | nil =>
    cases scope with
    | nil => exact Emits.lookupStatic (by simp) _ _ _ stands ran
    | cons frame outer => exact chain.elim
  | cons env envs =>
    cases scope with
    | nil => exact chain.elim
    | cons frame outer =>
      obtain ⟨of, chain⟩ := chain
      cases here : envRef env x with
      | some idx =>
        simp only [Returns, Compiler.envLookup, here] at ran
        cases ran
        refine ⟨.refl stands, ?_⟩
        intro T f _ _
        exact ⟨frame, outer, rfl, of.find.mp here⟩
      | none =>
        have absent := of.absent.mp here
        cases found : lookupParent envs x with
        | some place =>
          obtain ⟨depth, idx, envs'⟩ := place
          obtain ⟨chain', enclosing⟩ := lookupParent_chain chain found
          simp only [Returns, Compiler.envLookup, here, found] at ran
          cases ran
          constructor
          · constructor
            · exact ⟨⟨of.bind enclosing, chain'⟩, stands.numbered⟩
            · exact grows
            · exact ⟨[], rfl, rfl, fun _ _ _ _ => .nil⟩
          · intro T f final _
            obtain ⟨bindings, bindmap⟩ := final.tables _ rfl
            refine ⟨frame, outer, depth, idx, (intern depth env.bindmap).1, rfl, absent,
              enclosing, ?_, ?_⟩
            · exact getElem_of_prefix bindings (intern_at _ env.bindings)
            · exact getElem_of_prefix bindmap (intern_at depth env.bindmap)
        | none =>
          have nowhere : ∀ frame' ∈ frame :: outer, x ∉ frame' := by
            rw [List.forall_mem_cons]
            exact ⟨absent, lookupParent_none chain found⟩
          simp only [Returns, Compiler.envLookup, here, found] at ran
          exact Emits.lookupStatic nowhere _ _ _ stands ran

end lookup

/- Code that is placed in a function, where a closure may be loaded as a bare function. -/

/-- The instruction, or that for the same function without an environment. -/
def Similar (instr placed : Instr) : Prop :=
  placed = instr ∨ (instr.op = .loadClosure ∧ placed = ⟨.loadFunc, instr.arg⟩)

/-- The code stands in full from i on. -/
def Loaded (full : List Instr) : List Instr → Nat → Prop
  | [], _ => True
  | instr :: code, i => (∃ placed, full[i]? = some placed ∧ Similar instr placed) ∧
      Loaded full code (i + 1)

/-- Wherever the code is placed in f, it is right from its start to its end. -/
def Codes (f : IFunc) (P : Nat → Nat → Prop) (code : List Instr) : Prop :=
  ∀ i, Loaded f.code code i → P i (i + code.length)

section placed
variable {full code code' : List Instr} {i : Nat} {f : IFunc}

theorem Similar.trans {a b c : Instr} (first : Similar a b) (second : Similar b c) :
    Similar a c := by
  rcases first with rfl | ⟨closure, rfl⟩
  · exact second
  · rcases second with rfl | ⟨none, _⟩
    · exact .inr ⟨closure, rfl⟩
    · cases none

theorem loaded_append : Loaded full (code ++ code') i ↔
    Loaded full code i ∧ Loaded full code' (i + code.length) := by
  induction code generalizing i with
  | nil => simp [Loaded]
  | cons instr code ih =>
    rw [List.cons_append, Loaded, ih, Loaded, List.length_cons, and_assoc,
      show i + 1 + code.length = i + (code.length + 1) by omega]

theorem Loaded.similar (similar : List.Forall₂ Similar code code') (loaded : Loaded full code' i) :
    Loaded full code i := by
  induction similar generalizing i with
  | nil => trivial
  | cons same _ ih =>
    obtain ⟨⟨placed, here, alike⟩, rest⟩ := loaded
    exact ⟨⟨placed, here, same.trans alike⟩, ih rest⟩

theorem loaded_refl : Loaded code code 0 := by
  have each : ∀ before after : List Instr,
      Loaded (before ++ after) after before.length := by
    intro before after
    induction after generalizing before with
    | nil => trivial
    | cons instr after ih =>
      constructor
      · exact ⟨instr, by simp, .inl rfl⟩
      · have rest := ih (before ++ [instr])
        rwa [List.append_assoc, List.singleton_append, List.length_append,
          List.length_singleton] at rest
  exact each [] code

theorem Loaded.same {instr : Instr} (plain : instr.op ≠ .loadClosure)
    (loaded : Loaded full (instr :: code) i) : full[i]? = some instr := by
  obtain ⟨⟨placed, here, rfl | ⟨closure, _⟩⟩, _⟩ := loaded
  · exact here
  · exact absurd closure plain

theorem codes_one {P : Instr → Prop} {instr : Instr} (plain : instr.op ≠ .loadClosure)
    (right : P instr) : Codes f (One f P) [instr] :=
  fun _ loaded => ⟨instr, loaded.same plain, right, rfl⟩

theorem codes_append {P Q R : Nat → Nat → Prop} (first : Codes f P code)
    (second : Codes f Q code') (both : ∀ i m j, P i m → Q m j → R i j) :
    Codes f R (code ++ code') := by
  intro i loaded
  rw [loaded_append] at loaded
  rw [List.length_append, ← Nat.add_assoc]
  exact both i _ _ (first i loaded.1) (second _ loaded.2)

end placed

section cases
variable {scope : List (List Symbol)}

/-- The code of the nodes is right wherever it is placed in f. -/
abbrev NodesCode (scope : List (List Symbol)) (xs : List Node) (T : Tables) (f : IFunc)
    (code : List Instr) : Prop :=
  Codes f (CodeAll T f scope xs) code

/-- The code of the node is right wherever it is placed in f. -/
abbrev NodeCode (scope : List (List Symbol)) (n : Node) (T : Tables) (f : IFunc)
    (code : List Instr) : Prop :=
  Codes f (CodeOf T f scope n) code

/-- The node is compiled to code that stands for it. -/
def Compiles (n : Node) : Prop :=
  ∀ scope, Emits scope (lambdasOf scope n) (compile n) (NodeCode scope n)

theorem Emits.compileConst (d : Datum) :
    Emits scope [] (compileConst d) (NodeCode scope (.const d)) := by
  have loads : ∀ d, loadable d = true → (∀ b, d ≠ .bool b) →
      Emits scope [] (do return [⟨.loadConst, ← Compiler.makeConst (.datum d)⟩])
        (NodeCode scope (.const d)) := by
    intro d plain other
    apply Emits.first (Emits.makeConst _)
    intro k
    apply Emits.pure
    intro T f found i loaded
    apply codes_one (by simp) _ i loaded
    cases d with
    | bool b => exact absurd rfl (other b)
    | _ => exact ⟨plain, k, rfl, found⟩
  cases d with
  | bool b =>
    apply Emits.pure
    intro T f
    exact codes_one (by simp) rfl
  | char c => exact loads _ rfl (by simp)
  | num i => exact loads _ rfl (by simp)
  | str s => exact loads _ rfl (by simp)
  | null | sym | pair | vec => exact Emits.fail

theorem Emits.compileQuote (d : Datum) :
    Emits scope [] (compileQuote d) (NodeCode scope (.quote d)) := by
  unfold Compiler.compileQuote
  split
  · rename_i empty
    apply Emits.pure
    intro T f
    apply codes_one (by simp)
    rw [QuoteInstr, if_pos empty]
  · rename_i other
    apply Emits.first (Emits.makeConst _)
    intro k
    apply Emits.pure
    intro T f found
    apply codes_one (by simp)
    rw [QuoteInstr, if_neg other]
    exact ⟨k, rfl, found⟩

theorem Emits.compileSym (x : Symbol) :
    Emits scope [] (compileSym x) (NodeCode scope (.sym x)) := by
  apply Emits.first (Emits.envLookup x)
  intro slot
  cases slot with
  | inLocal idx =>
    apply Emits.pure
    intro T f located
    exact codes_one (by simp) ⟨_, located, rfl⟩
  | inBind idx =>
    apply Emits.pure
    intro T f located
    exact codes_one (by simp) ⟨_, located, rfl⟩
  | inStatic idx =>
    apply Emits.pure
    intro T f located
    exact codes_one (by simp) ⟨_, located, rfl⟩

theorem Emits.compileAll {xs : List Node} (each : ∀ x ∈ xs, Compiles x) :
    Emits scope (lambdasAll scope xs) (compileAll xs) (NodesCode scope xs) := by
  induction xs with
  | nil =>
    apply Emits.pure
    intro T f i _
    rfl
  | cons x xs ih =>
    apply Emits.bind (each x (by simp) scope)
    intro code
    apply Emits.last (ih fun y member => each y (by simp [member]))
    intro rest
    apply Emits.pure
    intro T f right first
    exact codes_append first right fun i m j one others => ⟨m, one, others⟩

theorem codes_if {P Q R S : Nat → Nat → Prop} {f : IFunc} {pred conseq alt : List Instr}
    (test : Codes f P pred) (yes : Codes f Q conseq) (no : Codes f R alt)
    (all : ∀ i t u j n m, P i t → f.code[t]? = some ⟨.jumpIfFalse, n⟩ → Q (t + 1) u →
      f.code[u]? = some ⟨.jumpForward, m⟩ → R (u + 1) j → t + 1 + n = u + 1 → u + 1 + m = j →
      S i j) : Codes f S (ifCode pred conseq alt) := by
  intro i loaded
  unfold ifCode at loaded ⊢
  rw [loaded_append, loaded_append] at loaded
  obtain ⟨⟨first, jump, second⟩, forward, third⟩ := loaded
  have jumps := Loaded.same (by simp) (And.intro jump second)
  have forwards := Loaded.same (by simp) (And.intro forward third)
  simp only [List.length_append, List.length_cons] at forwards third ⊢
  rw [show i + (pred.length + (conseq.length + 1)) = i + pred.length + 1 + conseq.length by omega]
    at forwards third
  rw [show i + (pred.length + (conseq.length + 1) + (alt.length + 1)) =
    i + pred.length + 1 + conseq.length + 1 + alt.length by omega]
  exact all _ _ _ _ _ _ (test i first) jumps (yes _ second) forwards (no _ third) (by omega) rfl

theorem Emits.ite {p a b : Node} (pred : Compiles p) (conseq : Compiles a) (alt : Compiles b) :
    Compiles (.ite p a b) := by
  intro scope
  unfold compile lambdasOf
  rw [List.append_assoc]
  apply Emits.bind (pred scope)
  intro code₁
  apply Emits.bind (conseq scope)
  intro code₂
  apply Emits.last (alt scope)
  intro code₃
  apply Emits.pure
  intro T f third second first
  refine codes_if first second third ?_
  intro i t u j n m test jump yes forward no lands ends
  exact ⟨t, u, n, m, test, jump, yes, forward, no, lands, ends⟩

theorem Emits.set {x : Symbol} {v : Node} (value : Compiles v) : Compiles (.set x v) := by
  intro scope
  unfold compile lambdasOf
  apply Emits.first (Emits.envLookup x)
  intro slot
  apply Emits.last (value scope)
  intro code
  have store : ∀ instr, instr.op ≠ .loadClosure → StoreInstr slot instr →
      Emits scope [] (Pure.pure (code ++ [instr])) fun T f all =>
        NodeCode scope v T f code → Located T f scope x slot →
          NodeCode scope (.set x v) T f all := by
    intro instr plain stores
    apply Emits.pure
    intro T f right located
    have last : Codes f (One f fun instr => ∃ slot, Located T f scope x slot ∧
        StoreInstr slot instr) [instr] := codes_one plain ⟨slot, located, stores⟩
    exact codes_append right last fun i m j first one => ⟨m, first, one⟩
  cases slot with
  | inLocal idx => exact store _ (by simp) rfl
  | inBind idx => exact store _ (by simp) rfl
  | inStatic idx => exact Emits.fail

theorem opcode_plain {op : Symbol} {c : Op} (found : operatorToOpcode op = some c) :
    c ≠ .loadClosure := by
  unfold operatorToOpcode at found
  split at found <;> simp at found <;> simp [← found]

theorem Emits.operationInstr (op : Symbol) (args : List Node) :
    Emits scope [] (operationInstr op args) fun _ _ instr =>
      OperationInstr op args instr ∧ instr.op ≠ .loadClosure := by
  unfold Compiler.operationInstr
  split
  · rename_i type rest found
    cases number : typeTest type with
    | none => exact Emits.fail
    | some i =>
      apply Emits.pure
      intro T f
      exact ⟨⟨found, type, rest, rfl, number⟩, by simp⟩
  · exact Emits.fail
  · rename_i code plain found _
    apply Emits.pure
    intro T f
    exact ⟨⟨found, by rw [if_neg plain]⟩, opcode_plain found⟩
  · exact Emits.fail

theorem Emits.operands {typed : Bool} {args : List Node} (each : ∀ x ∈ args, Compiles x)
    (few : args.length ≤ 2) (named : typed = true → ∃ type rest, args = .sym type :: rest) :
    Emits scope (lambdasAll scope args) (compileOperands typed args) fun T f code =>
      Codes f (OperandsOf T f scope typed args) code := by
  match args with
  | [] => exact Emits.fail
  | [x] =>
    cases typed with
    | true => exact Emits.fail
    | false =>
      unfold compileOperands lambdasAll lambdasAll
      rw [List.append_nil]
      apply Emits.mono (each x (by simp) scope)
      intro T f code right i loaded
      exact ⟨rfl, right i loaded⟩
  | [x, y] =>
    unfold compileOperands lambdasAll lambdasAll lambdasAll
    rw [List.append_nil]
    cases typed with
    | true =>
      obtain ⟨type, rest, same⟩ := named rfl
      obtain rfl := (List.cons.inj same).1
      apply Emits.first (Emits.pure fun _ _ => rfl) (Q := fun _ _ first => first = [])
      intro first
      apply Emits.last (each y (by simp) scope)
      intro second
      apply Emits.pure
      intro T f right empty
      rw [empty]
      exact right
    | false =>
      apply Emits.bind (each x (by simp) scope)
      intro first
      apply Emits.last (each y (by simp) scope)
      intro second
      apply Emits.pure
      intro T f right before
      exact codes_append before right fun i m j one two => ⟨m, one, two⟩
  | x :: y :: z :: rest => simp at few

theorem operandCount_le (op : Symbol) : operandCount op ≤ 2 := by
  unfold operandCount
  split <;> simp

theorem Emits.operation {g : Node} {args : List Node} (operator : isOperator g = true)
    (each : ∀ x ∈ args, Compiles x) (proper : args.length = operandCount (symName g)) :
    Compiles (.app g args) := by
  intro scope
  have none : lambdasOf scope g = [] := by
    cases g with
    | sym s => rfl
    | _ => simp [isOperator] at operator
  unfold compile lambdasOf
  rw [if_pos operator, none, List.nil_append]
  have emits : (isTypeTest g = true → ∃ type rest, args = .sym type :: rest) →
      Emits scope (lambdasAll scope args) (do
        let operands ← compileOperands (isTypeTest g) args
        let instr ← Compiler.operationInstr (symName g) args
        return operands ++ [instr]) (NodeCode scope (.app g args)) := by
    intro named
    apply Emits.last (Emits.operands each (proper ▸ operandCount_le _) named)
    intro operands
    apply Emits.first (Emits.operationInstr _ _)
    intro instr
    apply Emits.pure
    intro T f right before
    have last : Codes f (One f (OperationInstr (symName g) args)) [instr] :=
      codes_one right.2 right.1
    refine codes_append before last ?_
    intro i m j first one
    rw [CodeOf, if_pos operator]
    exact ⟨m, first, one⟩
  by_cases named : isTypeTest g = true → ∃ type rest, args = .sym type :: rest
  · exact emits named
  · rw [Classical.not_imp] at named
    obtain ⟨typed, other⟩ := named
    apply Emits.never
    intro s code s' ran
    simp only [returns_bind] at ran
    obtain ⟨_, _, _, instr, t, ran, _⟩ := ran
    have accepted := (Accepts.operationInstr operator args _).mp ⟨instr, t, ran⟩
    obtain ⟨type, rest, same, _⟩ := accepted typed
    exact other ⟨type, rest, same⟩

theorem similar_refl (code : List Instr) : List.Forall₂ Similar code code :=
  List.forall₂_same.mpr fun _ _ => .inl rfl

theorem similar_rewrite {code : List Instr} (closure : lambdaCall code = true) :
    List.Forall₂ Similar code (rewriteFunc code) := by
  cases code with
  | nil => exact .nil
  | cons instr code =>
    have closure : instr.op = .loadClosure := by simpa [lambdaCall] using closure
    exact .cons (.inr ⟨closure, rfl⟩) (similar_refl code)

theorem similar_call {g : Node} {operands : List Node} {fcode args : List Instr}
    (closure : optimizeCont g operands = true → lambdaCall args = true) :
    List.Forall₂ Similar (args ++ fcode ++ [⟨.funcCall, operands.length⟩])
      (callCode g operands fcode args) := by
  unfold callCode
  apply List.rel_append _ (similar_refl _)
  apply List.rel_append
  · split
    · rename_i optimized
      exact similar_rewrite (closure optimized)
    · exact similar_refl _
  · split
    · rename_i called
      exact similar_rewrite called
    · exact similar_refl _

theorem compileAll_closure {g : Node} {args : List Node} {s s' : CompState} {code : List Instr}
    (ran : Returns (Compiler.compileAll args) s code s') (optimized : optimizeCont g args = true) :
    lambdaCall code = true := by
  cases args with
  | nil => cases g <;> simp [optimizeCont] at optimized
  | cons x xs =>
    have lam : isLambda x = true := by
      cases g with
      | sym y =>
        simp only [optimizeCont, Bool.and_eq_true] at optimized
        exact optimized.1
      | _ => simp [optimizeCont] at optimized
    cases x with
    | lambda formals body =>
      rw [Compiler.compileAll] at ran
      simp only [returns_bind, returns_pure] at ran
      obtain ⟨first, t, ran, rest, _, _, rfl, _⟩ := ran
      obtain ⟨_, _, _, _, _, _, rfl, _⟩ := returns_lambda.mp ran
      rfl
    | _ => simp [isLambda] at lam

theorem Emits.makeBuiltin (name : Node) :
    Emits scope (lambdasOf scope name) (makeBuiltin name) fun T _ k =>
      BuiltinInstr T name ⟨.loadConst, k⟩ := by
  cases name with
  | sym x =>
    apply Emits.mono (Emits.makeConst _)
    intro T f k found
    exact ⟨x, k, rfl, rfl, found⟩
  | _ => exact Emits.fail

theorem Emits.builtin {args : List Node} (each : ∀ x ∈ args, Compiles x) :
    Emits scope (lambdasAll scope args) (compileBuiltin args) fun T f code =>
      Codes f (BuiltinOf T f scope args) code := by
  match args with
  | [] | [_] => exact Emits.fail
  | cont :: name :: args =>
    unfold compileBuiltin lambdasAll lambdasAll
    apply Emits.bind (each cont (by simp) scope)
    intro first
    apply Emits.bind (Emits.makeBuiltin name)
    intro k
    apply Emits.last (Emits.compileAll fun x member => each x (by simp [member]))
    intro rest
    apply Emits.pure
    intro T f operands load cont'
    have pushed := codes_append cont' operands fun i m j one others =>
      (⟨m, one, others⟩ : ∃ m, CodeOf T f scope cont i m ∧ CodeAll T f scope args m j)
    have called := codes_append (codes_one (by simp) load)
      (codes_one (P := (· = ⟨.funcCall, args.length + 1⟩)) (by simp) rfl) fun i m j one two =>
        (⟨m, one, two⟩ : ∃ m, One f (BuiltinInstr T name) i m ∧
          One f (· = ⟨.funcCall, args.length + 1⟩) m j)
    refine codes_append pushed called ?_
    rintro i n j ⟨m, one, others⟩ ⟨k, loaded, call⟩
    exact ⟨m, n, k, one, others, loaded, call⟩

theorem Emits.builtinCall {g : Node} {args : List Node} (builtin : isBuiltinCall g = true)
    (each : ∀ x ∈ args, Compiles x) : Compiles (.app g args) := by
  intro scope
  have other : ¬ isOperator g = true := not_operator_builtin builtin
  have none : lambdasOf scope g = [] := by
    cases g with
    | sym s => rfl
    | _ => simp [isBuiltinCall] at builtin
  unfold compile lambdasOf
  rw [if_neg other, if_pos builtin, none, List.nil_append]
  apply Emits.mono (Emits.builtin each)
  intro T f code right i loaded
  rw [CodeOf, if_neg other, if_pos builtin]
  exact right i loaded

theorem Emits.call {g : Node} {args : List Node} (other : ¬ isOperator g = true)
    (named : ¬ isBuiltinCall g = true) (func : Compiles g) (each : ∀ x ∈ args, Compiles x) :
    Compiles (.app g args) := by
  intro scope
  unfold compile lambdasOf
  rw [if_neg other, if_neg named]
  apply Emits.bind (func scope)
  intro fcode
  apply Emits.last ((Emits.compileAll each).also fun s code s' => compileAll_closure (g := g))
  intro code
  split
  · exact Emits.fail
  apply Emits.pure
  intro T f both right
  obtain ⟨closure, operands⟩ := both
  have calls : Codes f (One f (· = ⟨.funcCall, args.length⟩)) [⟨.funcCall, args.length⟩] :=
    codes_one (by simp) rfl
  have all : NodeCode scope (.app g args) T f (code ++ fcode ++ [⟨.funcCall, args.length⟩]) := by
    refine codes_append (codes_append operands right fun i m j first second =>
      (⟨m, first, second⟩ : ∃ m, CodeAll T f scope args i m ∧ CodeOf T f scope g m j)) calls ?_
    intro i m j both one
    obtain ⟨k, first, second⟩ := both
    rw [CodeOf, if_neg other, if_neg named]
    exact ⟨k, m, first, second, one⟩
  intro i loaded
  have similar : List.Forall₂ Similar (code ++ fcode ++ [⟨.funcCall, args.length⟩])
      (callCode g args fcode code) := similar_call closure
  rw [← similar.length_eq]
  exact all i (loaded.similar similar)

theorem lambdasAll_forms (body : List Node) :
    lambdasAll scope (bodyForms body) = lambdasAll scope body := by
  unfold bodyForms
  split
  · rw [lambdasAll, lambdasOf, List.nil_append]
  · rfl

theorem foldl_envDefine (names : List Symbol) (env : FuncEnv) :
    (names.foldl envDefine env).argc = env.argc ∧
      (names.foldl envDefine env).swallow = env.swallow := by
  induction names generalizing env with
  | nil => exact ⟨rfl, rfl⟩
  | cons x names ih => exact ih (envDefine env x)

theorem Emits.lambda {args : Formals} {body : List Node} (each : ∀ x ∈ body, Compiles x) :
    Compiles (.lambda args body) := by
  intro scope s code s' stands ran
  have grows := compile_growing _ s code s' ran
  rw [returns_lambda] at ran
  obtain ⟨compiled, env, envs, t, ran, same, rfl, rfl⟩ := ran
  have forms : body ≠ [] := by
    intro empty
    rw [empty] at ran
    simp [compileBody] at ran
  rw [returns_body forms] at ran
  have first := (makeEnv_of stands.chain args).define (extendNames body)
  have inner : Emits (frameOf args body :: scope) (lambdasAll (frameOf args body :: scope) body)
      (Compiler.compileAll (bodyForms body))
      (NodesCode (frameOf args body :: scope) (bodyForms body)) := by
    rw [← lambdasAll_forms]
    exact Emits.compileAll fun x member => each x (bodyForms_subset body member)
  have entered : Stands (frameOf args body :: scope)
      { s with envs := (extendNames body).foldl envDefine (makeEnv s.envs args) :: s.envs } :=
    ⟨⟨first, stands.chain⟩, stands.numbered⟩
  obtain ⟨added, right⟩ := inner _ _ _ entered ran
  have chain := added.stands.chain
  rw [same] at chain
  obtain ⟨of, chain⟩ := chain
  have kept := added.grows.envs
  rw [same] at kept
  have kept := (List.forall₂_cons.mp kept).1
  have fields := foldl_envDefine (extendNames body) (makeEnv s.envs args)
  obtain ⟨new, store, length, funcs⟩ := added.funcs
  have count := added.count
  -- The tables of the new function are those of its environment.
  have tables : ∀ T f, Final T f { t with
      envs := envs
      codeStore := makeFunc compiled env :: t.codeStore } → Final T (makeFunc compiled env) t := by
    intro T f final
    constructor
    · exact final.consts
    · intro e here
      rw [same, List.head?_cons, Option.mem_some_iff] at here
      rw [← here]
      exact ⟨List.prefix_rfl, List.prefix_rfl⟩
  constructor
  · constructor
    · exact ⟨chain, added.stands.numbered⟩
    · exact grows
    · apply Exists.intro (new ++ [makeFunc compiled env])
      constructor
      · rw [store, List.reverse_append]
        rfl
      constructor
      · rw [lambdasOf, List.length_append, List.length_append, length]
        rfl
      · intro T f final listed
        rw [lambdasOf, listed_append] at listed
        have final := tables T f final
        apply List.rel_append
        · exact funcs T _ final listed.1
        · refine .cons ?_ .nil
          constructor
          · exact of.size
          · exact kept.argc.trans fields.1
          · exact kept.swallow.trans fields.2
          · exact of.depth
          · intro b member
            exact of.bindings b (List.mem_reverse.mp member)
          · have placed := right T _ final listed.1 0 loaded_refl
            rwa [Nat.zero_add] at placed
  · intro T f final listed i loaded
    rw [lambdasOf, listed_append] at listed
    obtain ⟨rest, here⟩ := listed.2
    obtain ⟨⟨placed, at_i, alike⟩, _⟩ := loaded
    refine ⟨placed, at_i, ?_, rfl⟩
    have found : T.lambdas[t.codeStore.length]? = some ⟨scope, args, body⟩ := by
      have first : (T.lambdas.drop (s.codeStore.length +
          (lambdasAll (frameOf args body :: scope) body).length))[0]? = some ⟨scope, args, body⟩ := by
        rw [← here]
        rfl
      rw [List.getElem?_drop] at first
      rwa [count]
    rcases alike with rfl | ⟨_, rfl⟩
    · exact ⟨.inl rfl, found⟩
    · exact ⟨.inr rfl, found⟩

theorem compile_emits (n : Node) (proper : properOps n = true) : Compiles n := by
  induction n with
  | const d => exact fun _ => Emits.compileConst d
  | sym x => exact fun _ => Emits.compileSym x
  | quote d => exact fun _ => Emits.compileQuote d
  | lambda args body ih =>
    rw [properOps, properOpsAll_iff] at proper
    exact Emits.lambda fun x member => ih x member (proper x member)
  | ite p a b hp ha hb =>
    simp only [properOps, Bool.and_eq_true] at proper
    exact Emits.ite (hp proper.1.1) (ha proper.1.2) (hb proper.2)
  | set x v hv => exact Emits.set (hv proper)
  | define | begin | extend => exact fun _ => Emits.fail
  | app g args hg ih =>
    simp only [properOps, Bool.and_eq_true, properOpsAll_iff, Bool.or_eq_true, Bool.not_eq_true',
      beq_iff_eq] at proper
    obtain ⟨⟨count, func⟩, operands⟩ := proper
    have each : ∀ x ∈ args, Compiles x := fun x member => ih x member (operands x member)
    by_cases operator : isOperator g = true
    · exact Emits.operation operator each (count.resolve_left (by simp [operator]))
    by_cases builtin : isBuiltinCall g = true
    · exact Emits.builtinCall builtin each
    · exact Emits.call operator builtin (hg func) each

theorem startCompile_functions {root : Node} {ilr : Ilr} (proper : properOps root = true)
    (compiled : startCompile root = .ok ilr) :
    List.Forall₂ (FuncOf ⟨ilr.consts, lambdasOf [] root⟩) (lambdasOf [] root) ilr.code ∧
      ilr.entryPoint = ilr.code.length - 1 := by
  unfold startCompile at compiled
  cases result : compile root ⟨[], [], []⟩ with
  | error e => simp [result] at compiled
  | ok r =>
    obtain ⟨code, s⟩ := r
    rw [result] at compiled
    cases compiled
    have empty : Stands [] ⟨[], [], []⟩ := ⟨trivial, [], rfl⟩
    obtain ⟨added, _⟩ := compile_emits root proper [] _ _ _ empty result
    obtain ⟨new, store, length, funcs⟩ := added.funcs
    obtain ⟨consts, same⟩ := added.stands.numbered
    have envs : s.envs = [] := by
      have chain := added.stands.chain
      cases envs : s.envs with
      | nil => rfl
      | cons env envs' =>
        rw [envs] at chain
        exact chain.elim
    have table : s.consts.reverse.map (·.1) = consts := by
      rw [same, List.reverse_reverse]
      exact List.zipIdx_map_fst 0 consts
    rw [List.append_nil] at store
    constructor
    · simp only [store, List.reverse_reverse, table]
      apply funcs _ (makeFunc [] (makeEnv [] ⟨[], none⟩))
      · constructor
        · intro c i member
          rw [same, List.mem_reverse, List.mem_zipIdx_iff_getElem?] at member
          exact member
        · intro env first
          rw [envs] at first
          cases first
      · exact List.prefix_rfl
    · simp

end cases

end LGears.CodeEmitted
