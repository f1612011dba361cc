import LGears.VmBinding
import LGears.VmEval

/- How the machine enters a function: where the parameters, the internal definitions and the
   variables of the enclosing functions are when its code begins. -/
namespace LGears.VmEntry
open PrimitivesInfo Opcode Compiler CodeTables CodeShape CodeEmitted Values StateExcept VmValues
open VmHeap VmTests VmObjects VmMoves VmCode VmEval VmBinding Renaming
open Gc hiding State Slot copied Holds

/-- The cells have been made since s, with the values. -/
structure Fresh (s s' : State) (cells : List Nat) (ws : List (Option Value)) : Prop where
  length : cells.length = ws.length
  objects : ∀ (i c : Nat), cells[i]? = some c → ∃ w, ws[i]? = some w ∧ s'.get c = some (.cell w)
  new : ∀ c ∈ cells, s.top ≤ c ∧ c < s'.top
  nodup : cells.Nodup

section fresh
variable {s s₁ s₂ : State} {cells cells' : List Nat} {ws ws' : List (Option Value)}

theorem fresh_cells (s : State) (ws : List (Option Value)) :
    Fresh s (withCells s ws) (List.range' s.top ws.length) ws := by
  constructor
  · exact List.length_range'
  · intro i c here
    have inside := (List.getElem?_eq_some_iff.mp here).1
    rw [List.length_range'] at inside
    rw [List.getElem?_range' inside, Nat.one_mul, Option.some.injEq] at here
    subst here
    exact ⟨ws[i], List.getElem?_eq_getElem inside, get_new (List.getElem?_eq_getElem inside)⟩
  · intro c member
    rw [List.mem_range'_1] at member
    rw [withCells_top]
    exact member
  · exact List.nodup_range'

theorem Fresh.append (first : Fresh s s₁ cells ws) (second : Fresh s₁ s₂ cells' ws')
    (remains : Remains s₁ s₂) (grows : s.top ≤ s₁.top) (grows' : s₁.top ≤ s₂.top) :
    Fresh s s₂ (cells ++ cells') (ws ++ ws') := by
  constructor
  · rw [List.length_append, List.length_append, first.length, second.length]
  · intro i c here
    by_cases inside : i < cells.length
    · rw [List.getElem?_append_left inside] at here
      obtain ⟨w, value, object⟩ := first.objects i c here
      rw [List.getElem?_append_left (first.length ▸ inside)]
      exact ⟨w, value, remains _ _ object⟩
    · rw [List.getElem?_append_right (Nat.le_of_not_lt inside)] at here
      rw [List.getElem?_append_right (first.length ▸ Nat.le_of_not_lt inside), ← first.length]
      exact second.objects _ c here
  · intro c member
    rcases List.mem_append.mp member with left | right
    · have := first.new c left
      omega
    · have := second.new c right
      omega
  · rw [List.nodup_append]
    refine ⟨first.nodup, second.nodup, ?_⟩
    intro c left d right same
    have := first.new c left
    have := second.new d right
    omega

theorem Fresh.later (fresh : Fresh s s₁ cells ws) (remains : Remains s₁ s₂)
    (grows : s₁.top ≤ s₂.top) : Fresh s s₂ cells ws where
  length := fresh.length
  objects i c here := by
    obtain ⟨w, value, object⟩ := fresh.objects i c here
    exact ⟨w, value, remains _ _ object⟩
  new c member := by
    have := fresh.new c member
    omega
  nodup := fresh.nodup

end fresh

theorem remains_cells {s : State} {ws : List (Option Value)} : Remains s (withCells s ws) :=
  fun _ _ here => get_old here

/-- The words are the values, from the start on. -/
def WordsAre (img : Vm.Image) (st : Statics) (L : Link) (vs : List Value) (words : Nat → Nat)
    (start : Nat) : Prop :=
  ∀ (i : Nat) v, vs[i]? = some v → ValueIs img st L v (words (start + i))

/-- The registers that a call sets before the arguments are moved. -/
structure Prepared (t t' : Vm.State) : Prop where
  control : t'.control = t.control
  opcode : t'.opcode = t.opcode
  func : t'.func = t.func
  bindmap : t'.bindmap = t.bindmap
  env : t'.thread.env = t.thread.env

section arguments
variable {img : Vm.Image} {st : Statics} {T : Tables} {L : Link} {s s₁ : State} {t : Vm.State}
  {ρ ρ₁ : Env} {args : Formals} {vs : List Value}

/-- The arguments of a call are on the stack as the parameters of the function, and in cells. -/
structure Arguments (img : Vm.Image) (st : Statics) (T : Tables) (L : Link) (s s₁ : State)
    (ρ ρ₁ : Env) (args : Formals) (vs : List Value) (t t' : Vm.State) (cells : List Nat)
    (ws : List Value) : Prop where
  link : ∃ L', L.Adds L' ∧ Represents img st T L' s₁ t'.heap ∧
    WordsAre img st L' ws t'.thread.opstack (t'.thread.opStackIdx - ws.length)
  env : ρ₁ = bindAll args.names cells ρ
  fresh : Fresh s s₁ cells (ws.map some)
  grows : s.top ≤ s₁.top
  length : ws.length = args.names.length
  enough : ws.length ≤ t'.thread.opStackIdx
  includes : Includes t.heap t'.heap
  free : t.heap.fresh.freeMem ≤ t'.heap.fresh.freeMem + 32 * vs.length
  prepared : Prepared t t'

theorem represents_cells (rel : Represents img st T L s t.heap) (ws : List (Option Value)) :
    Represents img st T L (withCells s ws) t.heap :=
  rel.more remains_cells (fun _ _ => id) rel.sound

theorem arguments_fixed (rel : Represents img st T L s t.heap)
    (words : WordsAre img st L vs t.thread.opstack (t.thread.opStackIdx - vs.length))
    (enough : vs.length ≤ t.thread.opStackIdx) (rest : args.rest = none)
    (bound : bindArgs args vs ρ s = some (ρ₁, s₁)) :
    ∃ cells, Arguments img st T L s s₁ ρ ρ₁ args vs t t cells vs := by
  unfold bindArgs at bound
  simp only [rest, Option.bind_eq_bind, Option.bind_eq_some_iff, Prod.exists] at bound
  obtain ⟨left, ρ₂, s₂, fixed, same⟩ := bound
  split_ifs at same with empty
  cases same
  obtain ⟨few, rfl, rfl, rfl⟩ := bindFixed_cells fixed
  have all : vs.length = args.fixed.length := by
    rw [List.isEmpty_iff, List.drop_eq_nil_iff] at empty
    omega
  have names : args.names = args.fixed := by simp [Formals.names, rest]
  have taken : vs.take args.fixed.length = vs := by rw [← all, List.take_length]
  rw [taken] at *
  have fresh := fresh_cells s (vs.map some)
  rw [List.length_map, all] at fresh
  refine ⟨_, ⟨L, .refl L, represents_cells rel _, words⟩, ?_, fresh, ?_, ?_, enough,
    fun _ _ => id, Nat.le_add_right _ _, rfl, rfl, rfl, rfl, rfl⟩
  · rw [names]
  · rw [withCells_top]
    exact Nat.le_add_right _ _
  · rw [names, all]

theorem mkList_grown (s : State) (vs : List Value) : Grown s (mkList s vs).2 := by
  induction vs with
  | nil => exact .refl
  | cons v vs ih => exact ih.alloc _

theorem grown_top {s s' : State} (grown : Grown s s') : s.top ≤ s'.top := by
  induction grown with
  | refl => exact Nat.le_refl _
  | alloc _ o ih =>
    simp only [State.alloc, State.top, List.length_append] at ih ⊢
    omega

theorem arguments_list {L' : Link} {t' : Vm.State} {r : Symbol} {v : Value} {s₂ : State}
    (few : args.fixed.length ≤ vs.length) (rest : args.rest = some r)
    (listed : mkList (withCells s ((vs.take args.fixed.length).map some))
      (vs.drop args.fixed.length) = (v, s₂))
    (adds : L.Adds L') (rel : Represents img st T L' s₂ t'.heap)
    (words : WordsAre img st L' (vs.take args.fixed.length ++ [v]) t'.thread.opstack
      (t'.thread.opStackIdx - (args.fixed.length + 1)))
    (enough : args.fixed.length + 1 ≤ t'.thread.opStackIdx) (includes : Includes t.heap t'.heap)
    (free : t.heap.fresh.freeMem ≤ t'.heap.fresh.freeMem + 32 * vs.length)
    (prepared : Prepared t t') :
    ∃ cells, Arguments img st T L s (s₂.alloc (.cell (some v))) ρ
      ((bindAll args.fixed (List.range' s.top args.fixed.length) ρ).bind r s₂.top) args vs t t' cells
      (vs.take args.fixed.length ++ [v]) := by
  have grown : Grown (withCells s ((vs.take args.fixed.length).map some)) s₂ := by
    have conses := mkList_grown (withCells s ((vs.take args.fixed.length).map some))
      (vs.drop args.fixed.length)
    rwa [listed] at conses
  have taken : ((vs.take args.fixed.length).map some).length = args.fixed.length := by
    rw [List.length_map, List.length_take, Nat.min_eq_left few]
  have names : args.names = args.fixed ++ [r] := by simp [Formals.names, rest]
  have fixed := (fresh_cells s ((vs.take args.fixed.length).map some)).later
    (grown_remains grown) (grown_top grown)
  have top := grown_top grown
  rw [withCells_top, taken] at top
  rw [taken] at fixed
  have last : s₂.alloc (.cell (some v)) = withCells s₂ [some v] := by
    rw [← withCells_nil (s := s₂.alloc _), alloc_cells]
  have fresh := fixed.append (fresh_cells s₂ [some v]) remains_cells (by omega) (by
    rw [withCells_top]
    omega)
  have length : (vs.take args.fixed.length ++ [v]).length = args.fixed.length + 1 := by
    rw [List.length_append, List.length_take, Nat.min_eq_left few, List.length_singleton]
  refine ⟨List.range' s.top args.fixed.length ++ List.range' s₂.top 1, ⟨L', adds, ?_, ?_⟩, ?_, ?_,
    ?_, ?_, ?_, includes, free, prepared⟩
  · exact rel.more (remains_alloc _) (fun _ _ => id) rel.sound
  · rw [length]
    exact words
  · rw [names, bindAll_append List.length_range']
    rfl
  · rw [last, List.map_append]
    exact fresh
  · rw [last, withCells_top]
    omega
  · rw [names, length, List.length_append, List.length_singleton]
  · rw [length]
    exact enough

theorem words_list {L' : Link} {words words' : Nat → Nat} {idx n w : Nat} {v : Value}
    (are : WordsAre img st L vs words (idx - vs.length)) (grows : L.Grows L') (few : n ≤ vs.length)
    (enough : vs.length ≤ idx) (below : ∀ i < idx - (vs.length - n), words' i = words i)
    (top : words' (idx - (vs.length - n)) = w) (is : ValueIs img st L' v w) :
    WordsAre img st L' (vs.take n ++ [v]) words' (idx - (vs.length - n) + 1 - (n + 1)) := by
  have length : (vs.take n).length = n := by rw [List.length_take, Nat.min_eq_left few]
  intro i u given
  by_cases inside : i < n
  · have short : i < (vs.take n).length := by omega
    rw [List.getElem?_append_left short, List.getElem?_take_of_lt inside] at given
    rw [below _ (by omega), show idx - (vs.length - n) + 1 - (n + 1) + i = idx - vs.length + i by omega]
    exact (are i u given).grow grows
  · rw [List.getElem?_append_right (by omega), length, List.getElem?_singleton] at given
    split_ifs at given with last
    cases given
    rw [show idx - (vs.length - n) + 1 - (n + 1) + i = idx - (vs.length - n) by omega, top]
    exact is

theorem returns_rest {f : IFunc} {n : Nat} {s₀ : State} (argc : f.argc = n)
    (swallow : f.swallow = true) (rel : Represents img st T L s₀ t.heap)
    (words : WordsAre img st L vs t.thread.opstack (t.thread.opStackIdx - vs.length))
    (few : n ≤ vs.length) (enough : vs.length ≤ t.thread.opStackIdx)
    (room : t.thread.opStackIdx + 1 < img.opStackSize)
    (memory : 32 * vs.length ≤ t.heap.fresh.freeMem) :
    ∃ L' t', L.Adds L' ∧ Represents img st T L' (mkList s₀ (vs.drop n)).2 t'.heap ∧
      WordsAre img st L' (vs.take n ++ [(mkList s₀ (vs.drop n)).1]) t'.thread.opstack
        (t'.thread.opStackIdx - (n + 1)) ∧ n + 1 ≤ t'.thread.opStackIdx ∧
      Includes t.heap t'.heap ∧
      t.heap.fresh.freeMem ≤ t'.heap.fresh.freeMem + 32 * vs.length ∧ Prepared t t' ∧
      Returns (Vm.swallowRest img f vs.length) t (n + 1) t' := by
  have left : (vs.drop n).length = vs.length - n := List.length_drop
  by_cases none : vs.length - n = 0
  · have empty : vs.drop n = [] := List.eq_nil_of_length_eq_zero (left.trans none)
    rw [empty, mkList]
    have push : Returns (Vm.stackPush img Vm.cnull) t ⟨⟩ (pushed t Vm.cnull) := returns_push room
    refine ⟨L, pushed t Vm.cnull, .refl L, rel, ?_, ?_, fun _ _ => id, Nat.le_add_right _ _,
      ⟨rfl, rfl, rfl, rfl, rfl⟩, ?_⟩
    · have same : t.thread.opStackIdx - (vs.length - n) = t.thread.opStackIdx := by omega
      have are : WordsAre img st L (vs.take n ++ [.atom (.data .null)])
          (pushed t Vm.cnull).thread.opstack
          (t.thread.opStackIdx - (vs.length - n) + 1 - (n + 1)) := by
        apply words_list words (.refl L) few enough _ _ (.data .null)
        · exact fun i below => Function.update_of_ne (by omega) ..
        · rw [same]
          exact Function.update_self ..
      rwa [same] at are
    · simp only [pushed]
      omega
    · simp only [Vm.swallowRest, swallow, argc, none, if_true, ne_eq, not_true_eq_false, if_false]
      rw [returns_after push, returns_pure]
      exact ⟨by omega, rfl⟩
  · let u : Vm.State := { t with
      thread := { t.thread with opStackIdx := t.thread.opStackIdx - (vs.length - n) } }
    have listed : WordsAre img st L (vs.drop n) u.thread.opstack u.thread.opStackIdx := by
      intro i v given
      rw [List.getElem?_drop] at given
      have inside := (List.getElem?_eq_some_iff.mp given).1
      have value := words (n + i) v given
      rwa [show t.thread.opStackIdx - vs.length + (n + i) =
        t.thread.opStackIdx - (vs.length - n) + i by omega] at value
    obtain ⟨L', h', w, adds, rel', includes, free, is, ran⟩ :=
      returns_list (t := u) (vs.drop n) rel (by
        rw [left]
        exact Nat.le_trans (by omega) memory) listed
    have push : Returns (Vm.stackPush img w) (withRoots u h' []) ⟨⟩ (pushed (withRoots u h' []) w) := by
      apply returns_push
      simp only [withRoots, u]
      omega
    refine ⟨L', pushed (withRoots u h' []) w, adds, rel', ?_, ?_, includes, ?_,
      ⟨rfl, rfl, rfl, rfl, rfl⟩, ?_⟩
    · apply words_list words adds.grows few enough _ _ is
      · exact fun i below => Function.update_of_ne (Nat.ne_of_lt below) ..
      · exact Function.update_self ..
    · simp only [pushed, withRoots, u]
      omega
    · have rest : h'.fresh.freeMem = t.heap.fresh.freeMem - 32 * (vs.drop n).length := free
      rw [left] at rest
      simp only [pushed, withRoots]
      omega
    · have set : Returns (Vm.setThread fun v =>
          { v with opStackIdx := t.thread.opStackIdx - (vs.length - n) }) t ⟨⟩ u :=
        Vm.returns_setThread.mpr rfl
      simp only [Vm.swallowRest, swallow, argc, none, if_true, ne_eq, not_false_eq_true]
      rw [left] at ran
      rw [returns_after (Vm.returns_get.mpr ⟨rfl, rfl⟩), returns_after set, returns_after ran,
        returns_after push, returns_pure]
      exact ⟨by omega, rfl⟩

theorem returns_swallow {f : IFunc} (argc : f.argc = args.fixed.length)
    (swallow : f.swallow = args.rest.isSome) (rel : Represents img st T L s t.heap)
    (words : WordsAre img st L vs t.thread.opstack (t.thread.opStackIdx - vs.length))
    (enough : vs.length ≤ t.thread.opStackIdx)
    (room : t.thread.opStackIdx + 1 < img.opStackSize)
    (memory : 32 * vs.length ≤ t.heap.fresh.freeMem)
    (bound : bindArgs args vs ρ s = some (ρ₁, s₁)) :
    ∃ t' cells ws, Arguments img st T L s s₁ ρ ρ₁ args vs t t' cells ws ∧
      Returns (Vm.swallowRest img f vs.length) t ws.length t' := by
  cases rest : args.rest with
  | none =>
    obtain ⟨cells, arguments⟩ := arguments_fixed rel words enough rest bound
    refine ⟨t, cells, vs, arguments, ?_⟩
    rw [rest] at swallow
    simp only [Vm.swallowRest, swallow, Option.isSome_none, Bool.false_eq_true, if_false]
    exact returns_pure.mpr ⟨rfl, rfl⟩
  | some r =>
    unfold bindArgs at bound
    simp only [rest, Option.bind_eq_bind, Option.bind_eq_some_iff, Prod.exists] at bound
    obtain ⟨left, ρ₂, s₂, fixed, same⟩ := bound
    cases same
    obtain ⟨few, rfl, rfl, rfl⟩ := bindFixed_cells fixed
    rw [rest] at swallow
    obtain ⟨L', t', adds, rel', words', enough', includes, free, prepared, ran⟩ :=
      returns_rest argc swallow (represents_cells rel ((vs.take args.fixed.length).map some)) words few
        enough room memory
    obtain ⟨cells, arguments⟩ := arguments_list few rest rfl adds rel' words' enough' includes free
      prepared
    refine ⟨t', cells, _, arguments, ?_⟩
    rwa [List.length_append, List.length_take, Nat.min_eq_left few, List.length_singleton]

end arguments

/- Where the variables are put. -/

/-- The variables of the frame are the cells, which have been made for them. -/
structure Opened (T : Tables) (L : Link) (h : Heap) (scope : List (List Symbol)) (env : Nat)
    (ρ ρ₂ : Env) (args : Formals) (body : List Node) (s s₂ : State) (cells : List Nat)
    (ws : List Value) : Prop where
  sees : Sees L h scope env ρ (free (.lambda args body))
  within : Within scope ρ
  tame : tame (.lambda args body) = true
  env : ρ₂ = bindAll (frameOf args body) cells ρ
  length : cells.length = (frameOf args body).length
  few : ws.length ≤ cells.length
  objects : ∀ (i c : Nat), cells[i]? = some c →
    ∃ w, s₂.get c = some (.cell w) ∧ ∀ v ∈ w, ws[i]? = some v
  unlinked : ∀ c ∈ cells, L.cell c = none
  nodup : cells.Nodup

section opened
variable {img : Vm.Image} {st : Statics} {T : Tables} {L : Link} {h : Heap}
  {scope : List (List Symbol)} {env : Nat} {ρ ρ₂ : Env} {args : Formals} {body : List Node}
  {s s₂ : State} {cells : List Nat} {ws : List Value} {t : Vm.State}

theorem Opened.slot (opened : Opened T L h scope env ρ ρ₂ args body s s₂ cells ws) {x : Symbol}
    {i : Nat} (slot : SlotOf (frameOf args body) x i) :
    ∃ c, cells[i]? = some c ∧ ρ₂ x = some c := by
  have inside := slot.lt
  rw [← opened.length] at inside
  refine ⟨cells[i], List.getElem?_eq_getElem inside, ?_⟩
  rw [opened.env, bindAll_slot slot opened.length, List.getElem?_eq_getElem inside]

theorem Opened.outside (opened : Opened T L h scope env ρ ρ₂ args body s s₂ cells ws) {x : Symbol}
    (absent : x ∉ frameOf args body) : ρ₂ x = ρ x := by
  rw [opened.env, bindAll_other absent]

theorem Opened.seen (opened : Opened T L h scope env ρ ρ₂ args body s s₂ cells ws) {L' : Link}
    {h' : Heap} {env' : Nat} (grows : L.Grows L')
    (displays : ∀ depth E, depth < scope.length → Displays h env depth E →
      Displays h' env' depth E) : Sees L' h' scope env' ρ₂ (free (.lambda args body)) := by
  constructor
  intro x member depth idx enclosing
  obtain ⟨c, E, bound, found, linked⟩ := opened.sees.placed x member depth idx enclosing
  have absent : x ∉ frameOf args body := by
    rw [free, List.mem_filter] at member
    simpa using member.2
  refine ⟨c, E, ?_, displays depth E (enclosing_lt enclosing) found, grows.cell linked⟩
  rw [opened.outside absent, bound]

theorem Opened.inner (opened : Opened T L h scope env ρ ρ₂ args body s s₂ cells ws) :
    Within (frameOf args body :: scope) ρ₂ := by
  constructor
  · intro x absent
    rw [opened.outside (absent _ (by simp))]
    exact opened.within.absent x fun frame member => absent frame (by simp [member])
  · intro frame member
    rcases List.mem_cons.mp member with same | outer
    · subst same
      have tamed := opened.tame
      rw [VmCode.tame, Bool.and_eq_true, Bool.and_eq_true, List.all_eq_true] at tamed
      intro x inside
      simpa using tamed.1.1 x inside
    · exact opened.within.hidden frame outer

theorem link_cells {E : Nat} {b : Block} (rel : Represents img st T L s h)
    (placed : Placed h E .env b) (objects : b.words 2 = E + 24)
    (free : ∀ l i, L.cell l ≠ some (E, i)) (nodup : cells.Nodup)
    (unlinked : ∀ c ∈ cells, L.cell c = none)
    (values : ∀ (i c : Nat), cells[i]? = some c → 8 * (3 + i) < b.size ∧
      ∃ w, s.get c = some (.cell w) ∧ ∀ v ∈ w, ValueIs img st L v (b.words (3 + i))) :
    ∃ L', L.Grows L' ∧ Represents img st T L' s h ∧
      (∀ (i c : Nat), cells[i]? = some c → L'.cell c = some (E, i)) ∧
      ∀ c, c ∉ cells → L'.cell c = L.cell c := by
  induction cells using List.reverseRecOn with
  | nil => exact ⟨L, .refl L, rel, by simp, fun _ _ => rfl⟩
  | append_singleton cells c ih =>
    rw [List.nodup_append] at nodup
    have other : c ∉ cells := fun member => nodup.2.2 c member c (by simp) rfl
    obtain ⟨L', grows, rel', placedCells, others⟩ := ih nodup.1
      (fun d member => unlinked d (by simp [member])) (by
        intro i d given
        apply values i d
        rw [List.getElem?_append_left (List.getElem?_eq_some_iff.mp given).1, given])
    have fresh : L'.cell c = none := by rw [others c other, unlinked c (by simp)]
    have empty : ∀ l, L'.cell l ≠ some (E, cells.length) := by
      intro l linked
      by_cases member : l ∈ cells
      · obtain ⟨i, inside, at_i⟩ := List.getElem_of_mem member
        have place := placedCells i l (by rw [List.getElem?_eq_getElem inside, at_i])
        rw [linked, Option.some.injEq, Prod.mk.injEq] at place
        omega
      · exact free l _ ((others l member).symm.trans linked)
    obtain ⟨room, w, object, value⟩ := values cells.length c (by simp)
    have rel'' := represents_cell rel' fresh empty object placed objects room
      fun v given => (value v given).grow grows
    refine ⟨_, grows.trans (withCell_grows fresh), rel'', ?_, ?_⟩
    · intro i d given
      by_cases inside : i < cells.length
      · rw [List.getElem?_append_left inside] at given
        exact update_grows fresh (placedCells i d given)
      · rw [List.getElem?_append_right (Nat.le_of_not_lt inside), List.getElem?_singleton] at given
        split_ifs at given with last
        cases given
        rw [show i = cells.length by omega]
        exact Function.update_self ..
    · intro d absent
      rw [List.mem_append, not_or, List.mem_singleton] at absent
      exact (Function.update_of_ne absent.2 ..).trans (others d absent.1)

/-- The variables of a function that is entered are where its code looks for them. -/
structure Stored (img : Vm.Image) (st : Statics) (T : Tables) (L : Link) (l : Lambda) (heap : Bool)
    (ρ : Env) (s : State) (t t' : Vm.State) : Prop where
  link : ∃ L', L.Grows L' ∧ Represents img st T L' s t'.heap ∧
    Variables img st l ρ t'.thread.opStackIdx L' s t'
  onHeap : heap = true → ∃ o, t'.thread.objects = .env o
  displays : ∀ depth E, depth < l.scope.length → Displays t.heap t.thread.env depth E →
    Displays t'.heap t'.thread.env depth E
  control : t'.control = t.control
  opcode : t'.opcode = t.opcode
  func : t'.func = t.func
  bindmap : t'.bindmap = t.bindmap
  idx : t'.thread.opStackIdx ≤ t.thread.opStackIdx

/-- The thread behind storeEnv, with the arguments in a new environment. -/
def inEnv (t : Vm.State) (f : IFunc) (n : Nat) : Vm.State :=
  { t with
    heap := placeBlock t.heap .env (24 + 8 * f.size)
      (Vm.copied (Vm.envWords t.thread.env f.size f.depth (nextMem t.heap + 24)) 3 t.thread.opstack
        (t.thread.opStackIdx - n) n)
    thread := { t.thread with
      env := nextMem t.heap
      objects := .env (nextMem t.heap + 24)
      opStackIdx := if n = 0 then t.thread.opStackIdx else 0 } }

theorem copied_none (words source : Nat → Nat) (base start : Nat) :
    Vm.copied words base source start 0 = words := by
  funext i
  exact if_neg (by omega)

theorem returns_storeEnv {f : IFunc} {n : Nat} (sound : Sound t.heap) (few : n ≤ f.size)
    (room : alignUp (24 + 8 * f.size) + BHDR_SIZE ≤ t.heap.fresh.freeMem) :
    Returns (Vm.storeEnv f n) t ⟨⟩ (inEnv t f n) := by
  let u : Vm.State := { t with
    heap := envBlock t.heap t.thread.env f.size f.depth
    thread := { t.thread with env := nextMem t.heap, objects := .env (nextMem t.heap + 24) } }
  have set : Returns (Vm.setThread fun v =>
      { v with env := nextMem t.heap, objects := .env (nextMem t.heap + 24) })
      { t with heap := envBlock t.heap t.thread.env f.size f.depth } ⟨⟩ u :=
    Vm.returns_setThread.mpr rfl
  unfold Vm.storeEnv
  rw [returns_after (Vm.returns_get.mpr ⟨rfl, rfl⟩), returns_after (returns_envNew sound room),
    returns_after set]
  by_cases none : n = 0
  · subst none
    simp only [ne_eq, not_true_eq_false, if_false, returns_pure, true_and]
    rw [inEnv, copied_none]
    rfl
  · simp only [ne_eq, none, not_false_eq_true, if_true, Nat.not_lt.mpr few, if_false]
    have wrote : Returns (Vm.modifyBlock (nextMem t.heap) fun b => { b with
        words := Vm.copied b.words 3 u.thread.opstack (t.thread.opStackIdx - n) n }) u ⟨⟩
        { u with heap := (inEnv t f n).heap } := place_write (t := u) (h := t.heap) rfl
    rw [returns_after (Vm.returns_get.mpr ⟨rfl, rfl⟩), returns_after wrote, Vm.returns_setThread]
    simp only [inEnv, none, if_false]
    rfl

theorem env_block {f : IFunc} {n : Nat} (sound : Sound t.heap) :
    ∃ b, Placed (inEnv t f n).heap (nextMem t.heap) .env b ∧ b.words 0 = t.thread.env ∧
      b.words 1 = f.size + f.depth * 2 ^ 32 ∧ b.words 2 = nextMem t.heap + 24 ∧
      (∀ i < n, b.words (3 + i) = t.thread.opstack (t.thread.opStackIdx - n + i)) ∧
      ∀ i < f.size, 8 * (3 + i) < b.size := by
  have low : ∀ i < 3, Vm.copied (Vm.envWords t.thread.env f.size f.depth (nextMem t.heap + 24)) 3
      t.thread.opstack (t.thread.opStackIdx - n) n i =
      Vm.envWords t.thread.env f.size f.depth (nextMem t.heap + 24) i := by
    intro i below
    exact if_neg (by omega)
  refine ⟨_, placed_new sound, low 0 (by decide), low 1 (by decide), low 2 (by decide), ?_, ?_⟩
  · intro i below
    simp only [Vm.copied, show 3 ≤ 3 + i ∧ 3 + i < 3 + n by omega, if_true, and_self,
      Nat.add_sub_cancel_left]
  · intro i below
    simp only [alignUp]
    omega

theorem stored_env {f : IFunc}
    (opened : Opened T L t.heap scope t.thread.env ρ ρ₂ args body s s₂ cells ws)
    (rel : Represents img st T L s₂ t.heap)
    (words : WordsAre img st L ws t.thread.opstack (t.thread.opStackIdx - ws.length))
    (size : f.size = (frameOf args body).length) (small : f.size < 2 ^ 32)
    (depth : f.depth = scope.length)
    (room : alignUp (24 + 8 * f.size) + BHDR_SIZE ≤ t.heap.fresh.freeMem) (heap : Bool) :
    Stored img st T L ⟨scope, args, body⟩ heap ρ₂ s₂ t (inEnv t f ws.length) := by
  obtain ⟨b, placed, first, second, third, filled, inside⟩ := env_block (t := t) (f := f) (n := ws.length)
    rel.sound
  have includes : Includes t.heap (inEnv t f ws.length).heap := includes_place rel.sound
  have real : nextMem t.heap ≠ 0 := by
    unfold nextMem BHDR_SIZE
    omega
  have own : b.words 1 / 2 ^ 32 = scope.length := by omega
  obtain ⟨L', grows, rel', placedCells, others⟩ := link_cells
    (represents_place rel room) placed third (nothing_linked rel).2.2 opened.nodup
    opened.unlinked (by
      intro i c given
      have below := (List.getElem?_eq_some_iff.mp given).1
      rw [opened.length, ← size] at below
      obtain ⟨w, object, value⟩ := opened.objects i c given
      refine ⟨inside i below, w, object, ?_⟩
      intro v member
      have short := (List.getElem?_eq_some_iff.mp (value v member)).1
      rw [filled i short]
      exact words i v (value v member))
  have displays : ∀ d E, d < scope.length → Displays t.heap t.thread.env d E →
      Displays (inEnv t f ws.length).heap (nextMem t.heap) d E := by
    intro d E below found
    have outer : t.thread.env ≠ 0 := by
      cases found with
      | here real => exact real
      | up real => exact real
    apply Displays.up real placed.block
    · omega
    · rwa [first]
    · rw [first]
      exact found.extend includes.extends
  refine ⟨⟨L', grows, rel', ?_⟩, fun _ => ⟨_, rfl⟩, displays, rfl, rfl, rfl, rfl, ?_⟩
  · constructor
    · intro x i slot
      obtain ⟨c, given, bound⟩ := opened.slot slot
      exact ⟨c, bound, placedCells i c given⟩
    · intro o objects
      cases objects
      exact ⟨rfl, .here real placed.block own⟩
    · intro base objects
      cases objects
    · intro base objects
      cases objects
    · exact opened.seen grows displays
    · exact opened.inner
  · simp only [inEnv]
    split <;> omega

/-- The thread behind storeStack. -/
def onStack (t : Vm.State) (n : Nat) : Vm.State :=
  { t with
    thread := if n * 2 < t.thread.opStackIdx then { t.thread with
        opstack := Vm.copied t.thread.opstack 0 t.thread.opstack (t.thread.opStackIdx - n) n
        objects := .stack 0
        opStackIdx := n }
      else { t.thread with objects := .stack (t.thread.opStackIdx - n) } }

theorem returns_storeStack {n : Nat} : Returns (Vm.storeStack n) t ⟨⟩ (onStack t n) :=
  Vm.returns_setThread.mpr rfl

theorem stack_objects {n : Nat} (enough : n ≤ t.thread.opStackIdx) :
    ∃ base, (onStack t n).thread.objects = .stack base ∧
      (onStack t n).thread.opStackIdx = base + n ∧ base + n ≤ t.thread.opStackIdx ∧
      (∀ i < n, (onStack t n).thread.opstack (base + i) =
        t.thread.opstack (t.thread.opStackIdx - n + i)) ∧
      (onStack t n).thread.env = t.thread.env := by
  unfold onStack
  split_ifs with few
  · refine ⟨0, rfl, (Nat.zero_add n).symm, by omega, ?_, rfl⟩
    intro i below
    simp only [Vm.copied, Nat.zero_add, Nat.zero_le, below, and_self, if_true, Nat.sub_zero]
  · refine ⟨t.thread.opStackIdx - n, rfl, ?_, by omega, fun _ _ => rfl, rfl⟩
    dsimp only
    omega

theorem stored_stack (opened : Opened T L t.heap scope t.thread.env ρ ρ₂ args body s s₂ cells ws)
    (rel : Represents img st T L s₂ t.heap)
    (words : WordsAre img st L ws t.thread.opstack (t.thread.opStackIdx - ws.length))
    (enough : ws.length ≤ t.thread.opStackIdx) (full : ws.length = cells.length) :
    Stored img st T L ⟨scope, args, body⟩ false ρ₂ s₂ t (onStack t ws.length) := by
  obtain ⟨base, objects, top, below, moved, env⟩ := stack_objects enough
  have length := opened.length
  have displays : ∀ d E, d < scope.length → Displays t.heap t.thread.env d E →
      Displays t.heap (onStack t ws.length).thread.env d E := by
    intro d E _ found
    rwa [env]
  refine ⟨⟨L, .refl L, rel, ?_⟩, nofun, displays, rfl, rfl, rfl, rfl, by omega⟩
  constructor
  · intro x i slot
    obtain ⟨c, given, bound⟩ := opened.slot slot
    have inside := (List.getElem?_eq_some_iff.mp given).1
    obtain ⟨w, object, value⟩ := opened.objects i c given
    refine ⟨c, bound, ?_⟩
    simp only [Holds, objects]
    refine ⟨opened.unlinked c (List.mem_of_getElem? given), by omega, w, object, ?_⟩
    intro v member
    rw [moved i (by omega)]
    exact words i v (value v member)
  · intro o here
    rw [objects] at here
    cases here
  · intro base' here
    rw [objects] at here
    cases here
    simp only [Lambda.frame]
    omega
  · intro base' _ x y i j c first second left right
    obtain ⟨c₁, given₁, bound₁⟩ := opened.slot first
    obtain ⟨c₂, given₂, bound₂⟩ := opened.slot second
    rw [left, Option.some.injEq] at bound₁
    rw [right, Option.some.injEq] at bound₂
    subst bound₁ bound₂
    exact (List.getElem?_inj (List.getElem?_eq_some_iff.mp given₁).1 opened.nodup).mp
      (given₁.trans given₂.symm)
  · exact opened.seen (.refl L) displays
  · exact opened.inner

theorem opened_arguments {t' : Vm.State} {vs : List Value} {ρ₁ : Env} {s₁ : State}
    (arguments : Arguments img st T L s s₁ ρ ρ₁ args vs t t' cells ws)
    (rel : Represents img st T L s t.heap)
    (sees : Sees L t.heap scope t.thread.env ρ (free (.lambda args body)))
    (within : Within scope ρ) (tamed : tame (.lambda args body) = true) :
    ∃ cells' L', L.Adds L' ∧
      Represents img st T L' (bindNames (extendNames body) ρ₁ s₁).2 t'.heap ∧
      WordsAre img st L' ws t'.thread.opstack (t'.thread.opStackIdx - ws.length) ∧
      Opened T L' t'.heap scope t'.thread.env ρ (bindNames (extendNames body) ρ₁ s₁).1 args body s
        (bindNames (extendNames body) ρ₁ s₁).2 cells' ws ∧
      (extendNames body = [] → ws.length = cells'.length) := by
  obtain ⟨L', adds, rel', words⟩ := arguments.link
  have length := arguments.fresh.length
  rw [List.length_map, arguments.length] at length
  have fresh := arguments.fresh.append
    (fresh_cells s₁ (List.replicate (extendNames body).length none)) remains_cells arguments.grows
    (by
      rw [withCells_top]
      exact Nat.le_add_right _ _)
  rw [bindNames_cells]
  rw [List.length_replicate] at fresh
  refine ⟨cells ++ List.range' s₁.top (extendNames body).length, L', adds,
    rel'.more remains_cells (fun _ _ => id) rel'.sound, words, ?_, ?_⟩
  · constructor
    · rw [arguments.prepared.env]
      exact sees.extend adds.grows arguments.includes.extends
    · exact within
    · exact tamed
    · rw [frameOf, bindAll_append length, ← arguments.env]
    · rw [frameOf, List.length_append, List.length_append, List.length_range', length]
    · rw [List.length_append, length, arguments.length]
      exact Nat.le_add_right _ _
    · intro i c given
      obtain ⟨w, value, object⟩ := fresh.objects i c given
      refine ⟨w, object, ?_⟩
      intro v member
      cases member
      by_cases inside : i < ws.length
      · rw [List.getElem?_append_left (by rwa [List.length_map]), List.getElem?_map] at value
        obtain ⟨u, here, same⟩ := Option.map_eq_some_iff.mp value
        cases same
        exact here
      · rw [List.getElem?_append_right (by
          rw [List.length_map]
          exact Nat.le_of_not_lt inside)] at value
        have none := List.eq_of_mem_replicate (List.mem_of_getElem? value)
        cases none
    · intro c member
      rw [adds.cells]
      by_contra linked
      obtain ⟨⟨E, i⟩, place⟩ := Option.ne_none_iff_exists'.mp linked
      obtain ⟨_, _, object, _⟩ := (rel.cell c E i place).var
      have old := (List.getElem?_eq_some_iff.mp object).1
      have new := (fresh.new c member).1
      simp only [State.top] at new
      omega
    · exact fresh.nodup
  · intro none
    rw [none, List.length_nil, List.range'_zero, List.append_nil, arguments.length, length]

theorem no_extends {l : Lambda} {f : IFunc} (snug : Snug l f)
    (tamed : VmCode.tame (.lambda l.args l.body) = true) (heap : f.heap = false) :
    extendNames l.body = [] := by
  rw [VmCode.tame, Bool.and_eq_true, Bool.and_eq_true, Bool.or_eq_true] at tamed
  rcases tamed.1.2 with none | some
  · exact List.isEmpty_iff.mp none
  · obtain ⟨x, member, caught⟩ := List.any_eq_true.mp some
    rw [snug.heap x (by simpa using caught) member] at heap
    cases heap

/- The environments of the captured variables. -/

/-- The thread with other words on its stack. -/
def withStack (t : Vm.State) (words : Nat → Nat) : Vm.State :=
  { t with thread := { t.thread with opstack := words } }

theorem returns_bindmapInit (t : Vm.State) {bindmap : List Nat} (base : Nat)
    (displayed : ∀ depth ∈ bindmap, ∃ E, Displays t.heap t.thread.env depth E) :
    ∃ words n, (∀ fuel, n ≤ fuel →
        Returns (Vm.bindmapInit fuel base bindmap) t ⟨⟩ (withStack t words)) ∧
      (∀ (i : Nat) depth, bindmap[i]? = some depth →
        ∃ E, words (base + i) = makeHeapPtr E ∧ Displays t.heap t.thread.env depth E) ∧
      ∀ i < base, words i = t.thread.opstack i := by
  induction bindmap generalizing t base with
  | nil => exact ⟨_, 0, fun _ _ => returns_pure.mpr ⟨rfl, rfl⟩, by simp, fun _ _ => rfl⟩
  | cons depth bindmap ih =>
    obtain ⟨E, displays⟩ := displayed depth (by simp)
    obtain ⟨n, found⟩ := displays.envDisplay
    let u := withStack t (Function.update t.thread.opstack base (makeHeapPtr E))
    obtain ⟨words, m, ran, entries, below⟩ := ih u (base + 1)
      fun d member => displayed d (by simp [member])
    refine ⟨words, max n m, ?_, ?_, ?_⟩
    · intro fuel enough
      have set : Returns (Vm.setThread fun v =>
          { v with opstack := Function.update v.opstack base (makeHeapPtr E) }) t ⟨⟩ u :=
        Vm.returns_setThread.mpr rfl
      rw [Vm.bindmapInit, returns_after (Vm.returns_get.mpr ⟨rfl, rfl⟩), found fuel (by omega)]
      dsimp only
      rw [returns_after set]
      exact ran fuel (by omega)
    · intro i d given
      cases i with
      | zero =>
        cases given
        refine ⟨E, ?_, displays⟩
        rw [below _ (by omega)]
        exact Function.update_self ..
      | succ i =>
        have entry := entries i d given
        rwa [show base + 1 + i = base + (i + 1) by omega] at entry
    · intro i under
      rw [below i (by omega)]
      exact Function.update_of_ne (by omega) ..

theorem returns_initBindmap {l : Lambda} {f : IFunc}
    (vars : Variables img st l ρ t.thread.opStackIdx L s t)
    (displayed : ∀ depth ∈ f.bindmap, ∃ E, Displays t.heap t.thread.env depth E)
    (func : t.func = f) (onHeap : f.heap = true → ∃ o, t.thread.objects = .env o)
    (unset : t.bindmap = none) :
    ∃ t' n, (∀ fuel, n ≤ fuel → Returns (Vm.initBindmap fuel f) t ⟨⟩ t') ∧
      Frame img st l f ρ t'.thread.opStackIdx L s t' ∧ t'.heap = t.heap ∧
      t'.opcode = t.opcode ∧ t'.control = t.control := by
  by_cases none : f.bindings.length = 0
  · refine ⟨t, 0, ?_, ⟨vars, func, onHeap, ?_, ?_, Nat.le_refl _⟩, rfl, rfl, rfl⟩
    · intro fuel _
      have ran : Returns (Vm.initBindmap fuel f) t ⟨⟩ t := by
        unfold Vm.initBindmap
        simp only [none, ne_eq, not_true_eq_false, false_and, if_false]
        rw [returns_after (Vm.returns_get.mpr ⟨rfl, rfl⟩)]
        exact returns_pure.mpr ⟨rfl, rfl⟩
      exact ran
    · intro base bindmap _ set
      rw [unset] at set
      cases set
    · intro b up idx depth binding
      rw [List.length_eq_zero_iff.mp none] at binding
      simp at binding
  · let base := t.thread.opStackIdx
    let u₁ : Vm.State := { t with bindmap := some base }
    let u₂ : Vm.State := { u₁ with
      thread := { t.thread with opStackIdx := base + f.bindmap.length } }
    obtain ⟨words, n, ran, entries, below⟩ :=
      returns_bindmapInit u₂ base displayed
    have vars' : Variables img st l ρ (base + f.bindmap.length) L s (withStack u₂ words) :=
      vars.later (.refl L) (fun _ _ => id) (.refl _) rfl rfl below (Nat.le_add_right _ _)
    refine ⟨withStack u₂ words, n, ?_, ⟨vars', func, onHeap, ?_, ?_, Nat.le_refl _⟩, rfl, rfl, rfl⟩
    · intro fuel enough
      have set : Returns (Vm.modify fun s => { s with bindmap := some base }) t ⟨⟩ u₁ :=
        Vm.returns_modify.mpr rfl
      have moved : Returns (Vm.setThread fun v =>
          { v with opStackIdx := base + f.bindmap.length }) u₁ ⟨⟩ u₂ := Vm.returns_setThread.mpr rfl
      unfold Vm.initBindmap
      rw [returns_after (Vm.returns_get.mpr ⟨rfl, rfl⟩), if_pos ⟨none, unset⟩, returns_after set,
        returns_after moved]
      exact ran fuel enough
    · intro start bindmap objects register
      cases register
      exact vars.inside start objects
    · intro b up idx depth _ entry
      obtain ⟨E, word, displays⟩ := entries up depth entry
      have inside := (List.getElem?_eq_some_iff.mp entry).1
      refine ⟨base, E, rfl, ?_, word, displays⟩
      exact Nat.add_lt_add_left inside base

theorem returns_store {f : IFunc} {cells' : List Nat} {k : Nat}
    (opened : Opened T L t.heap scope t.thread.env ρ ρ₂ args body s s₂ cells' ws)
    (rel : Represents img st T L s₂ t.heap)
    (words : WordsAre img st L ws t.thread.opstack (t.thread.opStackIdx - ws.length))
    (enough : ws.length ≤ t.thread.opStackIdx) (func : FuncOf T ⟨scope, args, body⟩ f)
    (snug : Snug ⟨scope, args, body⟩ f) (small : f.size < 2 ^ 32)
    (full : extendNames body = [] → ws.length = cells'.length)
    (memory : blockSize (24 + 8 * f.size) ≤ t.heap.fresh.freeMem) (arg : ws.length = k) :
    ∃ t', Stored img st T L ⟨scope, args, body⟩ f.heap ρ₂ s₂ t t' ∧
      Returns (if f.heap = true then Vm.storeEnv f k else Vm.storeStack k) t ⟨⟩ t' := by
  subst arg
  cases heap : f.heap with
  | true =>
    have size : f.size = (frameOf args body).length := func.size
    refine ⟨inEnv t f ws.length, stored_env opened rel words size small func.depth memory true, ?_⟩
    apply returns_storeEnv rel.sound _ memory
    rw [size, ← opened.length]
    exact opened.few
  | false =>
    refine ⟨onStack t ws.length, ?_, returns_storeStack⟩
    exact stored_stack opened rel words enough (full (no_extends snug opened.tame heap))

theorem returns_enterInterp (installed : Installed img st T) {f : IFunc} {k : Nat}
    {vs : List Value} {ρ₁ : Env} {s₁ : State}
    (code : CodeFor T L t.heap k t.thread.env args body ρ) (is : img.functions[k]? = some f)
    (rel : Represents img st T L s t.heap)
    (words : WordsAre img st L vs t.thread.opstack (t.thread.opStackIdx - vs.length))
    (enough : vs.length ≤ t.thread.opStackIdx) (room : t.thread.opStackIdx + 1 < img.opStackSize)
    (memory : blockSize 24 * vs.length + blockSize (24 + 8 * f.size) ≤ t.heap.fresh.freeMem)
    (bound : bindArgs args vs ρ s = some (ρ₁, s₁)) (unset : t.bindmap = none) :
    ∃ scope t' n L', FuncOf T ⟨scope, args, body⟩ f ∧ Snug ⟨scope, args, body⟩ f ∧
      (∀ fuel, n ≤ fuel → Returns (Vm.enterInterp img fuel f vs.length) t ⟨⟩ t') ∧
      Represents img st T L' (bindNames (extendNames body) ρ₁ s₁).2 t'.heap ∧
      Frame img st ⟨scope, args, body⟩ f (bindNames (extendNames body) ρ₁ s₁).1
        t'.thread.opStackIdx L' (bindNames (extendNames body) ρ₁ s₁).2 t' ∧
      t'.opcode = t.opcode ∧ t'.control = t.control := by
  obtain ⟨scope, lambda, sees, within⟩ := code.found
  obtain ⟨f', is', func, snug, small⟩ := installed.functions k _ lambda
  rw [is, Option.some.injEq] at is'
  subst is'
  have lists : 32 * vs.length + blockSize (24 + 8 * f.size) ≤ t.heap.fresh.freeMem := memory
  let t₁ : Vm.State := { t with func := f }
  obtain ⟨t₂, cells', ws, arguments, swallowed⟩ := returns_swallow (t := t₁) func.argc func.swallow rel
    words enough room (by
      exact Nat.le_trans (Nat.le_add_right _ _) lists) bound
  obtain ⟨places, L₁, adds, rel₁, words₁, opened, full⟩ :=
    opened_arguments arguments rel sees within code.tame
  have left : t.heap.fresh.freeMem ≤ t₂.heap.fresh.freeMem + 32 * vs.length := arguments.free
  obtain ⟨t₃, stored, ran⟩ := returns_store opened rel₁ words₁ arguments.enough func snug small full
    (by omega) rfl
  obtain ⟨L₂, grows, rel₂, vars⟩ := stored.link
  let t₄ : Vm.State := { t₃ with thread := { t₃.thread with heapEnv := f.heap } }
  have vars' : Variables img st ⟨scope, args, body⟩ (bindNames (extendNames body) ρ₁ s₁).1
      t₄.thread.opStackIdx L₂ (bindNames (extendNames body) ρ₁ s₁).2 t₄ :=
    vars.later (.refl L₂) (fun _ _ => id) (.refl _) rfl rfl (fun _ _ => rfl) (Nat.le_refl _)
  obtain ⟨t₅, n, init, frame, heap, opcode, control⟩ := returns_initBindmap (f := f) vars'
    (by
      intro depth member
      obtain ⟨x, inside, absent, idx, enclosing⟩ := snug.bindmap depth member
      have outer : x ∈ free (.lambda args body) := by
        rw [free, List.mem_filter]
        exact ⟨inside, by simpa [Lambda.frame] using absent⟩
      obtain ⟨_, E, _, displays, _⟩ := opened.sees.placed x outer depth idx enclosing
      exact ⟨E, stored.displays depth E (enclosing_lt enclosing) displays⟩)
    (by
      rw [show t₄.func = t₃.func from rfl, stored.func, arguments.prepared.func])
    stored.onHeap
    (by
      rw [show t₄.bindmap = t₃.bindmap from rfl, stored.bindmap, arguments.prepared.bindmap]
      exact unset)
  refine ⟨scope, t₅, n, L₂, func, snug, ?_, ?_, frame, ?_, ?_⟩
  · intro fuel few
    have set : Returns (Vm.modify fun s => { s with func := f }) t ⟨⟩ t₁ := Vm.returns_modify.mpr rfl
    have heaped : Returns (Vm.setThread fun v => { v with heapEnv := f.heap }) t₃ ⟨⟩ t₄ :=
      Vm.returns_setThread.mpr rfl
    have rest : Returns (do
        Vm.setThread fun v => { v with heapEnv := f.heap }
        Vm.initBindmap fuel f) t₃ ⟨⟩ t₅ := by
      rw [returns_after heaped]
      exact init fuel few
    unfold Vm.enterInterp
    rw [returns_after (Vm.returns_get.mpr ⟨rfl, rfl⟩), if_neg (Nat.not_lt.mpr enough)]
    rw [returns_after set, returns_after swallowed]
    split at ran
    · rename_i onHeap
      dsimp only
      rw [if_pos onHeap, returns_after ran]
      exact rest
    · rename_i onStack
      dsimp only
      rw [if_neg onStack, returns_after ran]
      exact rest
  · rw [heap]
    exact rel₂
  · rw [opcode, show t₄.opcode = t₃.opcode from rfl, stored.opcode, arguments.prepared.opcode]
  · rw [control, show t₄.control = t₃.control from rfl, stored.control, arguments.prepared.control]

end opened

end LGears.VmEntry
