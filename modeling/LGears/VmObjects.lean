import LGears.Renaming
import LGears.VmTests

/- What the machine does to its heap when a program makes an object or assigns a variable. -/
namespace LGears.VmObjects
open Compiler CodeTables Values StateExcept VmValues VmHeap VmTests Renaming
open Gc hiding State

section links
variable {L : Link} {l : Nat}

theorem withObj_grows {mem : Nat} (fresh : L.obj l = none) : L.Grows (L.withObj l mem) :=
  ⟨fun given => update_grows fresh given, id, id⟩

theorem withProc_grows {mem : Nat} (fresh : L.proc l = none) : L.Grows (L.withProc l mem) :=
  ⟨id, fun given => update_grows fresh given, id⟩

theorem withCell_grows {E i : Nat} (fresh : L.cell l = none) : L.Grows (L.withCell l E i) :=
  ⟨id, id, fun given => update_grows fresh given⟩

end links

section objects
variable {img : Vm.Image} {st : Statics} {T : Tables} {L : Link} {s : State} {h : Heap}
  {v : Value} {w : Nat}

theorem remains_alloc (o : Obj) : Remains s (s.alloc o) := fun _ _ here => get_alloc here o

theorem includes_trans {h' k : Heap} (first : Includes h h') (second : Includes h' k) :
    Includes h k := fun c b here => second c b (first c b here)

theorem includes_place {type : BlockType} {size : Nat} {words : Nat → Nat} (sound : Sound h) :
    Includes h (placeBlock h type size words) := fun _ _ here => place_old sound here

theorem placed_new {type : BlockType} {size : Nat} {words : Nat → Nat} (sound : Sound h) :
    Placed (placeBlock h type size words) (nextMem h) type
      ⟨type, false, 0, false, alignUp size, words⟩ := by
  constructor
  · exact place_new
  · rfl
  · exact Nat.le_add_left _ _
  · have := sound.aligned
    unfold nextMem BHDR_SIZE
    omega

theorem nothing_new (sound : Sound h) {mem : Nat} {type : BlockType} {b : Block}
    (placed : Placed h mem type b) : mem ≠ nextMem h := by
  intro same
  have block := placed.block
  rw [same, nextMem, Nat.add_sub_cancel, sound.nothing] at block
  cases block

theorem nothing_linked (rel : Represents img st T L s h) :
    (∀ l, L.obj l ≠ some (nextMem h)) ∧ (∀ l, L.proc l ≠ some (nextMem h)) ∧
      ∀ l i, L.cell l ≠ some (nextMem h, i) := by
  refine ⟨?_, ?_, ?_⟩
  · intro l at'
    cases rel.obj _ _ at' with
    | pair object placed => exact nothing_new rel.sound placed rfl
    | foreign object foreign placed => exact nothing_new rel.sound placed rfl
  · intro l at'
    obtain ⟨_, _, _, _, _, _, placed, _, _⟩ := (rel.proc _ _ at').closure
    exact nothing_new rel.sound placed rfl
  · intro l i at'
    obtain ⟨_, _, _, placed, _⟩ := (rel.cell _ _ _ at').var
    exact nothing_new rel.sound placed rfl

theorem no_place (rel : Represents img st T L s h) :
    L.obj s.top = none ∧ L.proc s.top = none ∧ L.cell s.top = none := by
  have none : ∀ o, s.get s.top ≠ some o := fun o here => absurd (get_lt here) (Nat.lt_irrefl _)
  refine ⟨?_, ?_, ?_⟩
  · cases at' : L.obj s.top with
    | none => rfl
    | some mem =>
      cases rel.obj _ _ at' with
      | pair object => exact absurd object (none _)
      | foreign object => exact absurd object (none _)
  · cases at' : L.proc s.top with
    | none => rfl
    | some mem =>
      obtain ⟨_, _, _, _, _, object, _⟩ := (rel.proc _ _ at').closure
      exact absurd object (none _)
  · cases at' : L.cell s.top with
    | none => rfl
    | some p =>
      obtain ⟨_, _, object, _⟩ := (rel.cell _ p.1 p.2 at').var
      exact absurd object (none _)

theorem represents_place (rel : Represents img st T L s h) {type : BlockType} {size : Nat}
    {words : Nat → Nat} (room : alignUp size + BHDR_SIZE ≤ h.fresh.freeMem) :
    Represents img st T L s (placeBlock h type size words) :=
  rel.more (fun _ _ => id) (includes_place rel.sound) (rel.sound.place room)

/- Pairs. -/

/-- The block of a pair that is consed. -/
def consBlock (img : Vm.Image) (h : Heap) (a d : Nat) : Heap :=
  placeBlock h .pair 24 (Vm.pairWords a d
    (Vm.pairMark img (placeBlock h .pair 24 fun _ => 0) d 0) fun _ => 0)

theorem represents_cons (rel : Represents img st T L s h) (room : 32 ≤ h.fresh.freeMem)
    {a d : Value} {x y : Nat} (car : ValueIs img st L a x) (cdr : ValueIs img st L d y) :
    ∃ L', L.Adds L' ∧ Represents img st T L' (s.cons a d).2 (consBlock img h x y) ∧
      ValueIs img st L' (s.cons a d).1 (makeHeapPtr (nextMem h)) := by
  have fresh := (no_place rel).1
  have grows : L.Grows (L.withObj s.top (nextMem h)) := withObj_grows fresh
  refine ⟨L.withObj s.top (nextMem h), ⟨grows, rfl⟩, ?_, .ref (Function.update_self ..)⟩
  have enough : alignUp 24 + BHDR_SIZE ≤ h.fresh.freeMem := room
  have zeros : Represents img st T L s (placeBlock h .pair 24 fun _ => 0) :=
    represents_place rel enough
  apply rel.grow grows (remains_alloc _) (includes_place rel.sound) (rel.sound.place enough)
  · intro l mem given
    apply (update_some given).imp_right
    intro new
    obtain ⟨rfl, rfl⟩ := new
    apply ObjIs.pair (get_alloc_top _ _) (placed_new rel.sound) (car.grow grows) (cdr.grow grows)
    exact pairMark_marks zeros cdr
  · exact fun _ _ => .inl
  · exact fun _ _ _ => .inl
  · exact rel.obj_apart.update (nothing_linked rel).1
  · exact rel.proc_apart
  · exact rel.cell_apart

theorem returns_cons {t : Vm.State} (sound : Sound t.heap) (room : 32 ≤ t.heap.fresh.freeMem)
    {car cdr : Thread → Option Nat} {x y : Nat} (first : car t.thread = some x)
    (second : cdr t.thread = some y) :
    Returns (Vm.cons img car cdr) t (makeHeapPtr (nextMem t.heap))
      { t with heap := consBlock img t.heap x y } := by
  have enough : alignUp 24 + BHDR_SIZE ≤ t.heap.fresh.freeMem := room
  unfold Vm.cons
  rw [returns_after (returns_alloc sound enough), returns_after (Vm.returns_get.mpr ⟨rfl, rfl⟩),
    returns_after (Vm.returns_ofOption.mpr ⟨first, rfl⟩),
    returns_after (Vm.returns_ofOption.mpr ⟨second, rfl⟩)]
  rw [returns_after (place_write rfl)]
  exact returns_pure.mpr ⟨rfl, rfl⟩

/- Closures. -/

/-- The block of a closure. -/
def closureBlock (img : Vm.Image) (h : Heap) (env k n : Nat) : Heap :=
  placeBlock h .closure (16 + 8 * n) (Vm.closureWords env (img.moduleFunc k) fun _ => 0)

theorem represents_closure (rel : Represents img st T L s h) {n k env : Nat} {args : Formals}
    {body : List Node} {ρ : Env} (room : alignUp (16 + 8 * n) + BHDR_SIZE ≤ h.fresh.freeMem)
    (code : CodeFor T L h k env args body ρ) :
    ∃ L', L.Adds L' ∧
      Represents img st T L' (s.alloc (.closure args body ρ)) (closureBlock img h env k n) ∧
      ValueIs img st L' (.proc s.top) (makeHeapPtr (nextMem h)) := by
  have fresh := (no_place rel).2.1
  have grows : L.Grows (L.withProc s.top (nextMem h)) := withProc_grows fresh
  refine ⟨L.withProc s.top (nextMem h), ⟨grows, rfl⟩, ?_, .proc (Function.update_self ..)⟩
  apply rel.grow grows (remains_alloc _) (includes_place rel.sound) (rel.sound.place room)
  · exact fun _ _ => .inl
  · intro l mem given
    apply (update_some given).imp_right
    intro new
    obtain ⟨rfl, rfl⟩ := new
    exact ⟨args, body, ρ, k, _, get_alloc_top _ _, placed_new rel.sound, rfl,
      code.extend grows (includes_place rel.sound).extends⟩
  · exact fun _ _ _ => .inl
  · exact rel.obj_apart
  · exact rel.proc_apart.update (nothing_linked rel).2.1
  · exact rel.cell_apart

theorem returns_closureNew {t : Vm.State} {k : Nat} {f : IFunc} (sound : Sound t.heap)
    (room : alignUp (16 + 8 * f.bindmap.length) + BHDR_SIZE ≤ t.heap.fresh.freeMem) :
    Returns (Vm.closureNew img k f) t (makeHeapPtr (nextMem t.heap))
      { t with heap := closureBlock img t.heap t.thread.env k f.bindmap.length } := by
  unfold Vm.closureNew
  rw [returns_after (returns_alloc sound room), returns_after (Vm.returns_get.mpr ⟨rfl, rfl⟩),
    returns_after (place_write rfl)]
  exact returns_pure.mpr ⟨rfl, rfl⟩

/- Environments and variables. -/

/-- The block of an environment. -/
def envBlock (h : Heap) (prev size depth : Nat) : Heap :=
  placeBlock h .env (24 + 8 * size) (Vm.envWords prev size depth (nextMem h + 24))

theorem returns_envNew {t : Vm.State} {prev : Thread → Nat} {size depth : Nat}
    (sound : Sound t.heap) (room : alignUp (24 + 8 * size) + BHDR_SIZE ≤ t.heap.fresh.freeMem) :
    Returns (Vm.envNew prev size depth) t (nextMem t.heap)
      { t with heap := envBlock t.heap (prev t.thread) size depth } := by
  unfold Vm.envNew
  rw [returns_after (returns_alloc sound room), returns_after (Vm.returns_get.mpr ⟨rfl, rfl⟩),
    returns_after (place_write rfl)]
  exact returns_pure.mpr ⟨rfl, rfl⟩

theorem represents_cell (rel : Represents img st T L s h) {l E i : Nat} {v : Option Value}
    {b : Block} (fresh : L.cell l = none) (free : ∀ l', L.cell l' ≠ some (E, i))
    (object : s.get l = some (.cell v)) (placed : Placed h E .env b) (objects : b.words 2 = E + 24)
    (room : 8 * (3 + i) < b.size) (value : ∀ w ∈ v, ValueIs img st L w (b.words (3 + i))) :
    Represents img st T (L.withCell l E i) s h := by
  have grows : L.Grows (L.withCell l E i) := withCell_grows fresh
  apply rel.grow grows (fun _ _ => id) (fun _ _ => id) rel.sound
  · exact fun _ _ => .inl
  · exact fun _ _ => .inl
  · intro l' E' i' given
    apply (update_some given).imp_right
    intro new
    obtain ⟨rfl, same⟩ := new
    cases same
    exact ⟨v, b, object, placed, objects, room, fun w here => (value w here).grow grows⟩
  · exact rel.obj_apart
  · exact rel.proc_apart
  · exact rel.cell_apart.update free

theorem represents_put (rel : Represents img st T L s h) {l : Nat} {v : Option Value}
    (object : s.get l = some (.cell v)) (fresh : L.cell l = none) (w : Value) :
    Represents img st T L (s.put l (.cell (some w))) h := by
  have fixed : Fixed s (s.put l (.cell (some w))) := by
    intro l' o here other
    have ne : l' ≠ l := by
      intro same
      rw [same, object, Option.some.injEq] at here
      exact other v here.symm
    rw [get_put_ne _ _ ne, here]
  refine ⟨rel.sound, ?_, ?_, ?_, rel.obj_apart, rel.proc_apart, rel.cell_apart⟩
  · intro l' mem given
    exact (rel.obj l' mem given).grow (.refl L) fixed (.refl h)
  · intro l' mem given
    exact (rel.proc l' mem given).grow (.refl L) fixed (.refl h)
  · intro l' E i given
    have ne : l' ≠ l := by
      intro same
      rw [same, fresh] at given
      cases given
    obtain ⟨v', b, cell, rest⟩ := (rel.cell l' E i given).var
    exact ⟨v', b, (get_put_ne _ _ ne).trans cell, rest⟩

theorem setWord_self (b : Block) (i w : Nat) : (b.setWord i w).words i = w :=
  Function.update_self ..

theorem setWord_ne (b : Block) {i j : Nat} (w : Nat) (ne : j ≠ i) :
    (b.setWord i w).words j = b.words j := Function.update_of_ne ne ..

/-- The heap after object i of the environment E has been set. -/
def writeCell (h : Heap) (E i w : Nat) : Heap :=
  { h with
    cells := Function.update h.cells (E - BHDR_SIZE)
      ((h.cells (E - BHDR_SIZE)).map fun b => b.setWord (3 + i) w) }

theorem extends_write (h : Heap) (E i w : Nat) : Extends h (writeCell h E i w) := by
  constructor
  intro c b here
  by_cases same : c = E - BHDR_SIZE
  · subst same
    refine ⟨b.setWord (3 + i) w, by simp [writeCell, here], rfl, rfl, ?_⟩
    intro j small
    exact setWord_ne b w (by omega)
  · refine ⟨b, ?_, rfl, rfl, fun _ _ => rfl⟩
    rw [writeCell]
    exact (Function.update_of_ne same ..).trans here

theorem sound_write {E i w : Nat} (sound : Sound h) : Sound (writeCell h E i w) := by
  refine ⟨sound.aligned, sound.positive, ?_, sound.bounded⟩
  intro c b here
  by_cases same : c = E - BHDR_SIZE
  · subst same
    simp only [writeCell, Function.update_self, Option.map_eq_some_iff] at here
    obtain ⟨b', here, rfl⟩ := here
    exact sound.below _ b' here
  · rw [writeCell] at here
    exact sound.below c b ((Function.update_of_ne same ..).symm.trans here)

theorem represents_write (rel : Represents img st T L s h) {l E i : Nat}
    (linked : L.cell l = some (E, i)) (is : ValueIs img st L v w) :
    Represents img st T L (s.put l (.cell (some v))) (writeCell h E i w) := by
  obtain ⟨old, b, object, placed, objects, room, _⟩ := (rel.cell l E i linked).var
  have fixed : Fixed s (s.put l (.cell (some v))) := by
    intro l' o here other
    have ne : l' ≠ l := by
      intro same
      rw [same, object, Option.some.injEq] at here
      exact other old here.symm
    rw [get_put_ne _ _ ne, here]
  refine ⟨sound_write rel.sound, ?_, ?_, ?_, rel.obj_apart, rel.proc_apart, rel.cell_apart⟩
  · intro l' mem given
    exact (rel.obj l' mem given).grow (.refl L) fixed (extends_write h E i w)
  · intro l' mem given
    exact (rel.proc l' mem given).grow (.refl L) fixed (extends_write h E i w)
  · intro l' E' i' given
    obtain ⟨v', b', cell, placed', objects', room', value⟩ := (rel.cell l' E' i' given).var
    by_cases same : E' = E
    · subst same
      have block : b' = b := by
        have both := placed'.block
        rw [placed.block] at both
        exact (Option.some.inj both).symm
      subst block
      have objects' : (b'.setWord (3 + i) w).words 2 = E' + 24 := by
        rw [setWord_ne _ _ (by omega), objects]
      have written : Placed (writeCell h E' i w) E' .env (b'.setWord (3 + i) w) :=
        ⟨by simp [writeCell, placed.block], placed.type, placed.low, placed.aligned⟩
      by_cases here : l' = l
      · subst here
        rw [linked] at given
        cases given
        refine ⟨some v, _, get_put_self _ _ (get_lt object), written, objects', room, ?_⟩
        intro u new
        cases new
        rw [setWord_self]
        exact is
      · have index : i' ≠ i := by
          intro same
          subst same
          exact here (rel.cell_apart l' l _ given linked)
        refine ⟨v', _, (get_put_ne _ _ here).trans cell, written, objects', room', ?_⟩
        intro u given'
        rw [setWord_ne _ _ (by omega)]
        exact value u given'
    · have ne : l' ≠ l := by
        intro here
        subst here
        rw [linked] at given
        cases given
        exact same rfl
      have far : E' - BHDR_SIZE ≠ E - BHDR_SIZE := by
        have low := placed.low
        have low' := placed'.low
        omega
      refine ⟨v', b', (get_put_ne _ _ ne).trans cell, ⟨?_, placed'.type, placed'.low,
        placed'.aligned⟩, objects', room', value⟩
      exact (Function.update_of_ne far ..).trans placed'.block

/- Lists. -/

/-- The values are consed to d, the last one first. -/
def consAll : List Value → Value → State → Value × State
  | [], d, s => (d, s)
  | v :: vs, d, s => (consAll vs d s).2.cons v (consAll vs d s).1

theorem mkList_eq (vs : List Value) (s : State) :
    mkList s vs = consAll vs (.atom (.data .null)) s := by
  induction vs with
  | nil => rfl
  | cons v vs ih => rw [mkList, ih, consAll]

theorem consAll_append (vs : List Value) (v d : Value) (s : State) :
    consAll (vs ++ [v]) d s = consAll vs (s.cons v d).1 (s.cons v d).2 := by
  induction vs with
  | nil => rfl
  | cons u us ih => rw [List.cons_append, consAll, consAll, ih]

theorem consBlock_free (a d : Nat) :
    (consBlock img h a d).fresh.freeMem = h.fresh.freeMem - 32 := rfl

/-- The thread with another heap and other local roots. -/
def withRoots (t : Vm.State) (h : Heap) (roots : List Nat) : Vm.State :=
  { t with heap := h, thread := { t.thread with localRoots := roots } }

theorem returns_roots (t : Vm.State) (roots : List Nat) :
    Returns (Vm.setThread fun t => { t with localRoots := roots }) t ⟨⟩ (withRoots t t.heap roots) :=
  Vm.returns_setThread.mpr rfl

theorem returns_consLoop {car : Nat → Thread → Option Nat} {words : Nat → Nat} (vs : List Value)
    {L : Link} {s : State} {t : Vm.State} {d : Value} {w : Nat} (rel : Represents img st T L s t.heap)
    (room : 32 * vs.length ≤ t.heap.fresh.freeMem)
    (values : ∀ (i : Nat) v, vs[i]? = some v → ValueIs img st L v (words i))
    (reads : ∀ i roots, car i { t.thread with localRoots := roots } = some (words i))
    (rest : ValueIs img st L d w) (root : t.thread.localRoots = [w]) :
    ∃ L' h' w', L.Adds L' ∧ Represents img st T L' (consAll vs d s).2 h' ∧ Includes t.heap h' ∧
      h'.fresh.freeMem = t.heap.fresh.freeMem - 32 * vs.length ∧
      ValueIs img st L' (consAll vs d s).1 w' ∧
      Returns (Vm.consLoop img car vs.length) t ⟨⟩ (withRoots t h' [w']) := by
  induction vs using List.reverseRecOn generalizing L s t d w with
  | nil =>
    refine ⟨L, t.heap, w, ⟨.refl L, rfl⟩, rel, fun _ _ => id, rfl, rest, ?_⟩
    rw [List.length_nil, Vm.consLoop, returns_pure]
    exact ⟨rfl, by rw [withRoots, ← root]⟩
  | append_singleton vs v ih =>
    rw [List.length_append, List.length_singleton] at room ⊢
    rw [consAll_append]
    have value := values vs.length v (by simp)
    obtain ⟨L₁, adds, rel₁, is⟩ := represents_cons rel (by omega) value rest
    have first : Vm.localRoot 0 t.thread = some w := by simp [Vm.localRoot, root]
    have consed : Returns (Vm.cons img (car vs.length) (Vm.localRoot 0)) t
        (makeHeapPtr (nextMem t.heap))
        { t with heap := consBlock img t.heap (words vs.length) w } :=
      returns_cons rel.sound (by omega) (reads vs.length t.thread.localRoots) first
    let next := withRoots t (consBlock img t.heap (words vs.length) w)
      [makeHeapPtr (nextMem t.heap)]
    have free : next.heap.fresh.freeMem = t.heap.fresh.freeMem - 32 := consBlock_free ..
    have others : ∀ (i : Nat) u, vs[i]? = some u → ValueIs img st L₁ u (words i) := by
      intro i u given
      apply (values i u _).grow adds.grows
      rw [List.getElem?_append_left (List.getElem?_eq_some_iff.mp given).1, given]
    obtain ⟨L₂, h', w', adds', rel₂, includes, free', is', ran⟩ :=
      ih (t := next) rel₁ (by omega) others reads is rfl
    refine ⟨L₂, h', w', adds.trans adds', rel₂,
      includes_trans (includes_place rel.sound) includes, by omega, is', ?_⟩
    rw [Vm.consLoop, returns_after consed, returns_after (returns_roots _ _)]
    exact ran

theorem returns_localList {car : Nat → Thread → Option Nat} {words : Nat → Nat} (vs : List Value)
    {t : Vm.State} (rel : Represents img st T L s t.heap)
    (room : 32 * vs.length ≤ t.heap.fresh.freeMem)
    (values : ∀ (i : Nat) v, vs[i]? = some v → ValueIs img st L v (words i))
    (reads : ∀ i roots, car i { t.thread with localRoots := roots } = some (words i)) :
    ∃ L' h' w, L.Adds L' ∧ Represents img st T L' (mkList s vs).2 h' ∧ Includes t.heap h' ∧
      h'.fresh.freeMem = t.heap.fresh.freeMem - 32 * vs.length ∧
      ValueIs img st L' (mkList s vs).1 w ∧
      Returns (Vm.localList img car vs.length) t w (withRoots t h' []) := by
  rw [mkList_eq]
  obtain ⟨L', h', w, adds, rel', includes, free, is, ran⟩ := returns_consLoop (L := L) (s := s)
    (t := withRoots t t.heap [Vm.cnull]) vs rel room values reads (.data .null) rfl
  refine ⟨L', h', w, adds, rel', includes, free, is, ?_⟩
  have root : Vm.localRoot 0 (withRoots (withRoots t t.heap [Vm.cnull]) h' [w]).thread = some w := rfl
  unfold Vm.localList
  rw [returns_after (returns_roots _ _), returns_after ran,
    returns_after (Vm.returns_get.mpr ⟨rfl, rfl⟩),
    returns_after (Vm.returns_ofOption.mpr ⟨root, rfl⟩), returns_after (returns_roots _ _)]
  exact returns_pure.mpr ⟨rfl, rfl⟩

theorem returns_list {start : Nat} (vs : List Value) {t : Vm.State}
    (rel : Represents img st T L s t.heap) (room : 32 * vs.length ≤ t.heap.fresh.freeMem)
    (values : ∀ (i : Nat) v, vs[i]? = some v → ValueIs img st L v (t.thread.opstack (start + i))) :
    ∃ L' h' w, L.Adds L' ∧ Represents img st T L' (mkList s vs).2 h' ∧ Includes t.heap h' ∧
      h'.fresh.freeMem = t.heap.fresh.freeMem - 32 * vs.length ∧
      ValueIs img st L' (mkList s vs).1 w ∧
      Returns (Vm.list img start vs.length) t w (withRoots t h' []) :=
  returns_localList vs rel room values fun _ _ => rfl

end objects

end LGears.VmObjects
