import LGears.VmCode
import LGears.VmMoves
import LGears.VmObjects

/- The instructions of nodes that need no control leave the values of the nodes on the stack. -/
namespace LGears.VmEval
open PrimitivesInfo Opcode Compiler CodeTables CodeShape CodeEmitted Values StateExcept VmValues
open VmHeap VmTests VmObjects VmMoves VmCode Renaming
open Gc hiding State Slot

/-- The word of an entry of the constant area. -/
def ConstIs (img : Vm.Image) (st : Statics) : Const → Nat → Prop
  | .datum d, w => DatumIs img st (loadDatum d) w
  | .static x, w | .builtin x, w => (∃ n, (x, n) ∈ globals) ∧ w = Vm.makeFunc (st.builtin x)

/-- The process holds the module. -/
structure Installed (img : Vm.Image) (st : Statics) (T : Tables) : Prop where
  consts : ∀ (k : Nat) c, T.consts[k]? = some c → ∃ w, img.consts[k]? = some w ∧ ConstIs img st c w
  functions : ∀ (k : Nat) l, T.lambdas[k]? = some l →
    ∃ f, img.functions[k]? = some f ∧ FuncOf T l f ∧ Snug l f ∧ f.size < 2 ^ 32
  resolved : Resolved img st

/- Whether the operands of every `$eq?` can be compared by their words. -/
mutual
def comparesWords (W : World) (ρ : Env) : Node → State → Bool
  | .app op args, s =>
    (if isTypeTest op then comparesTail W ρ args s else comparesAll W ρ args s) &&
      (symName op != "$eq?" || match evalSimples W ρ args s with
        | some ([v, w], _) => comparable v w
        | _ => true)
  | _, _ => true
def comparesAll (W : World) (ρ : Env) : List Node → State → Bool
  | [], _ => true
  | x :: xs, s => comparesWords W ρ x s && match evalSimple W ρ x s with
    | some (_, s) => comparesAll W ρ xs s
    | none => true
def comparesTail (W : World) (ρ : Env) : List Node → State → Bool
  | [], _ => true
  | _ :: xs, s => comparesAll W ρ xs s
end

section frames
variable (img : Vm.Image) (st : Statics) (l : Lambda) (f : IFunc) (ρ : Env) (bottom : Nat)
  (L : Link) (s : State) (t : Vm.State)

/-- Slot idx of the frame is the variable c. -/
def Holds (c idx : Nat) : Prop :=
  match t.thread.objects with
  | .env _ => L.cell c = some (t.thread.env, idx)
  | .stack base => L.cell c = none ∧ base + idx < bottom ∧ ∃ v, s.get c = some (.cell v) ∧
      ∀ w ∈ v, ValueIs img st L w (t.thread.opstack (base + idx))

/-- The variables of ρ are where the code of l looks for them. -/
structure Variables : Prop where
  own : ∀ x idx, SlotOf l.frame x idx → ∃ c, ρ x = some c ∧ Holds img st bottom L s t c idx
  objects : ∀ o, t.thread.objects = .env o → o = t.thread.env + 24 ∧
    Displays t.heap t.thread.env l.scope.length t.thread.env
  inside : ∀ base, t.thread.objects = .stack base → base + l.frame.length ≤ bottom
  distinct : ∀ base, t.thread.objects = .stack base → ∀ x y i j c, SlotOf l.frame x i →
    SlotOf l.frame y j → ρ x = some c → ρ y = some c → i = j
  outer : Sees L t.heap l.scope t.thread.env ρ (free (.lambda l.args l.body))
  within : Within (l.frame :: l.scope) ρ

/-- The thread runs the function of l with the variables of ρ. -/
structure Frame : Prop extends Variables img st l ρ bottom L s t where
  func : t.func = f
  onHeap : f.heap = true → ∃ o, t.thread.objects = .env o
  above : ∀ base bindmap, t.thread.objects = .stack base → t.bindmap = some bindmap →
    base + l.frame.length ≤ bindmap
  display : ∀ (b up idx : Nat) depth, f.bindings[b]? = some (up, idx) → f.bindmap[up]? = some depth →
    ∃ bindmap E, t.bindmap = some bindmap ∧ bindmap + up < bottom ∧
      t.thread.opstack (bindmap + up) = makeHeapPtr E ∧ Displays t.heap t.thread.env depth E
  low : bottom ≤ t.thread.opStackIdx

end frames

/-- The registers for variables are the same. -/
structure SameFrame (t t' : Vm.State) : Prop where
  func : t'.func = t.func
  objects : t'.thread.objects = t.thread.objects
  env : t'.thread.env = t.thread.env
  bindmap : t'.bindmap = t.bindmap

section frames
variable {img : Vm.Image} {st : Statics} {l : Lambda} {f : IFunc} {ρ : Env} {bottom : Nat}
  {L L' : Link} {s s' : State} {t t' : Vm.State}

theorem SameFrame.refl (t : Vm.State) : SameFrame t t := ⟨rfl, rfl, rfl, rfl⟩

theorem SameFrame.trans {u : Vm.State} (first : SameFrame t t') (second : SameFrame t' u) :
    SameFrame t u :=
  ⟨second.func.trans first.func, second.objects.trans first.objects, second.env.trans first.env,
    second.bindmap.trans first.bindmap⟩

theorem Variables.later {top : Nat} (vars : Variables img st l ρ bottom L s t) (adds : L.Adds L')
    (remains : Remains s s') (extends' : Extends t.heap t'.heap)
    (objects : t'.thread.objects = t.thread.objects) (env : t'.thread.env = t.thread.env)
    (stack : ∀ i < bottom, t'.thread.opstack i = t.thread.opstack i) (grows : bottom ≤ top) :
    Variables img st l ρ top L' s' t' where
  own x idx slot := by
    obtain ⟨c, bound, holds⟩ := vars.own x idx slot
    refine ⟨c, bound, ?_⟩
    unfold Holds at holds ⊢
    rw [objects, env, adds.cells]
    split
    · rename_i here
      rw [here] at holds
      exact holds
    · rename_i base here
      rw [here] at holds
      obtain ⟨unlinked, inside, v, object, value⟩ := holds
      refine ⟨unlinked, Nat.lt_of_lt_of_le inside grows, v, remains _ _ object, ?_⟩
      intro w given
      rw [stack _ inside]
      exact (value w given).grow adds.grows
  objects o here := by
    rw [objects] at here
    rw [env]
    have known := vars.objects o here
    exact ⟨known.1, known.2.extend extends'⟩
  inside base here := Nat.le_trans (vars.inside base (objects ▸ here)) grows
  distinct base here := vars.distinct base (objects ▸ here)
  outer := by
    rw [env]
    exact vars.outer.extend adds.grows extends'
  within := vars.within

theorem Frame.later (frame : Frame img st l f ρ bottom L s t) (adds : L.Adds L')
    (remains : Remains s s') (extends' : Extends t.heap t'.heap) (same : SameFrame t t')
    (stack : ∀ i < bottom, t'.thread.opstack i = t.thread.opstack i)
    (low : bottom ≤ t'.thread.opStackIdx) : Frame img st l f ρ bottom L' s' t' where
  toVariables := frame.toVariables.later adds remains extends' same.objects same.env stack (Nat.le_refl _)
  func := same.func.trans frame.func
  onHeap heap := by
    rw [same.objects]
    exact frame.onHeap heap
  above base bindmap here there := frame.above base bindmap (same.objects ▸ here)
    (same.bindmap ▸ there)
  display b up idx depth binding up' := by
    obtain ⟨bindmap, E, register, inside, word, displays⟩ := frame.display b up idx depth binding up'
    rw [same.bindmap, same.env]
    exact ⟨bindmap, E, register, inside, (stack _ inside).trans word, displays.extend extends'⟩
  low := low

end frames

section positions
variable (img : Vm.Image) (st : Statics) (T : Tables) (l : Lambda) (f : IFunc) (ρ : Env)
  (bottom : Nat)

/-- The thread is at instruction i of the function. -/
structure Here (L : Link) (s : State) (t : Vm.State) (i : Nat) : Prop where
  rel : Represents img st T L s t.heap
  frame : Frame img st l f ρ bottom L s t
  opcode : t.opcode = i
  control : t.control = .opcode

/-- From t the thread has come to instruction j, and the values are on the stack. -/
structure Results (vs : List Value) (L : Link) (s' : State) (t t' : Vm.State) (j : Nat) : Prop where
  link : ∃ L', L.Adds L' ∧ Here img st T l f ρ bottom L' s' t' j ∧ ∀ (i : Nat) v, vs[i]? = some v →
    ValueIs img st L' v (t'.thread.opstack (t.thread.opStackIdx + i))
  idx : t'.thread.opStackIdx = t.thread.opStackIdx + vs.length
  stack : ∀ i < t.thread.opStackIdx, t'.thread.opstack i = t.thread.opstack i
  same : SameFrame t t'
  grows : Extends t.heap t'.heap

end positions

section positions
variable {img : Vm.Image} {st : Statics} {T : Tables} {N : Natives img} {l : Lambda} {f : IFunc}
  {ρ : Env} {bottom : Nat} {L L' : Link} {s s' : State} {t t' : Vm.State} {i j : Nat} {v : Value}

theorem Here.one (here : Here img st T l f ρ bottom L s t i) (same : SameFrame t t')
    (adds : L.Adds L') (remains : Remains s s') (rel : Represents img st T L' s' t'.heap)
    (grows : Extends t.heap t'.heap) (control : t'.control = .opcode)
    (opcode : t'.opcode = j) (idx : t'.thread.opStackIdx = t.thread.opStackIdx + 1)
    (stack : ∀ i < t.thread.opStackIdx, t'.thread.opstack i = t.thread.opstack i)
    (is : ValueIs img st L' v (t'.thread.opstack t.thread.opStackIdx)) :
    Results img st T l f ρ bottom [v] L s' t t' j := by
  have low := here.frame.low
  have frame : Frame img st l f ρ bottom L' s' t' :=
    here.frame.later adds remains grows same (fun i inside => stack i (by omega)) (by omega)
  refine ⟨⟨L', adds, ⟨rel, frame, opcode, control⟩, ?_⟩, idx, stack, same, grows⟩
  intro k u given
  cases k with
  | zero =>
    cases given
    exact is
  | succ k => simp at given

theorem Results.append {us vs : List Value} {s₁ s₂ : State} {t₁ t₂ : Vm.State} {L₁ : Link}
    (first : Results img st T l f ρ bottom us L s₁ t t₁ i) (adds₁ : L.Adds L₁)
    (values₁ : ∀ (k : Nat) v, us[k]? = some v →
      ValueIs img st L₁ v (t₁.thread.opstack (t.thread.opStackIdx + k)))
    (later : Results img st T l f ρ bottom vs L₁ s₂ t₁ t₂ j) :
    Results img st T l f ρ bottom (us ++ vs) L s₂ t t₂ j := by
  obtain ⟨L₂, adds₂, here₂, values₂⟩ := later.link
  have idx₁ := first.idx
  have idx₂ := later.idx
  refine ⟨⟨L₂, adds₁.trans adds₂, here₂, ?_⟩, ?_, ?_, first.same.trans later.same,
    first.grows.trans later.grows⟩
  · intro k v given
    by_cases inside : k < us.length
    · rw [List.getElem?_append_left inside] at given
      rw [later.stack _ (by omega)]
      exact (values₁ k v given).grow adds₂.grows
    · rw [List.getElem?_append_right (by omega)] at given
      have value := values₂ _ v given
      rwa [idx₁, show t.thread.opStackIdx + us.length + (k - us.length) =
        t.thread.opStackIdx + k by omega] at value
  · rw [idx₂, idx₁, List.length_append]
    omega
  · intro k below
    rw [later.stack k (by omega), first.stack k below]

theorem Here.none (here : Here img st T l f ρ bottom L s t i) :
    Results img st T l f ρ bottom [] L s t t i := by
  refine ⟨⟨L, .refl L, here, ?_⟩, rfl, fun _ _ => rfl, .refl t, .refl _⟩
  intro k v given
  simp at given

theorem Here.push (here : Here img st T l f ρ bottom L s t i) {instr : Instr} {w : Nat}
    (code : f.code[i]? = some instr) (is : ValueIs img st L v w)
    (ran : ∀ u, Returns (Vm.stackPush img w) (fetched t) ⟨⟩ u →
      Returns (Vm.execute img instr) (fetched t) ⟨⟩ u) :
    Goes img N t fun t' => Results img st T l f ρ bottom [v] L s t t' (i + 1) := by
  have next : t.func.code[t.opcode]? = some instr := by
    rw [here.frame.func, here.opcode]
    exact code
  apply goes_instruction here.control next
  intro room _
  refine ⟨_, ran _ (returns_push room), ?_⟩
  have same : SameFrame t (pushed (fetched t) w) := ⟨rfl, rfl, rfl, rfl⟩
  apply here.one same (.refl L) (fun _ _ => id) here.rel (.refl _) here.control
  · rw [pushed, fetched, here.opcode]
  · rfl
  · intro k below
    exact Function.update_of_ne (Nat.ne_of_lt below) ..
  · simp only [pushed, fetched, Function.update_self]
    exact is

/- Variables. -/

theorem cell_object (rel : Represents img st T L s t.heap) {c E idx : Nat} {v : Value}
    (linked : L.cell c = some (E, idx)) (object : s.get c = some (.cell (some v))) :
    ∃ w, Vm.envObject t.heap (E + 24) idx = some w ∧ ValueIs img st L v w := by
  obtain ⟨v', b, object', placed, _, room, value⟩ := (rel.cell c E idx linked).var
  rw [object, Option.some.injEq, Obj.cell.injEq] at object'
  refine ⟨b.words (3 + idx), ?_, value v (by rw [← object']; rfl)⟩
  rw [Vm.envObject, Vm.objectsHdr, Nat.add_sub_cancel, placed.block]
  exact if_pos room

theorem Holds.object (rel : Represents img st T L s t.heap)
    (env : ∀ o, t.thread.objects = .env o → o = t.thread.env + 24) {c idx : Nat} {v : Value}
    (holds : Holds img st bottom L s t c idx) (object : s.get c = some (.cell (some v))) :
    ∃ w, Vm.object t idx = some w ∧ ValueIs img st L v w := by
  unfold Holds at holds
  unfold Vm.object
  cases here : t.thread.objects with
  | env o =>
    simp only [here] at holds
    rw [env o here]
    exact cell_object rel holds object
  | stack base =>
    simp only [here] at holds
    obtain ⟨_, _, v', object', value⟩ := holds
    rw [object, Option.some.injEq, Obj.cell.injEq] at object'
    exact ⟨_, rfl, value v (by rw [← object']; rfl)⟩

theorem Frame.binding (frame : Frame img st l f ρ bottom L s t)
    (rel : Represents img st T L s t.heap) {b up idx depth c E : Nat}
    (binding : f.bindings[b]? = some (up, idx)) (entry : f.bindmap[up]? = some depth)
    (displays : Displays t.heap t.thread.env depth E) (linked : L.cell c = some (E, idx)) :
    Vm.binding img t b = some (E + 24, idx) := by
  obtain ⟨bindmap, E', register, _, word, displays'⟩ := frame.display b up idx depth binding entry
  have same := displays'.unique displays
  subst same
  obtain ⟨_, block, _, placed, objects, _, _⟩ := (rel.cell c E' idx linked).var
  have pointer : isHeapPtr (makeHeapPtr E') = true := by
    rw [isHeapPtr, heapPtr_mod]
    rfl
  have words : Vm.wordsAt img t.heap (makeHeapPtr E') = some block.words := by
    rw [Vm.wordsAt, pointer, hdrOf_heapPtr placed.aligned, placed.block]
    rfl
  simp only [Vm.binding, frame.func, binding, register, word, words, Option.bind_eq_bind,
    Option.bind_some, objects, Option.pure_def]

/- Nodes with one instruction. -/

theorem Here.const (here : Here img st T l f ρ bottom L s t i) (installed : Installed img st T)
    {k : Nat} {c : Const} (code : f.code[i]? = some ⟨.loadConst, k⟩) (entry : T.consts[k]? = some c)
    (is : ∀ w, ConstIs img st c w → ValueIs img st L v w) :
    Goes img N t fun t' => Results img st T l f ρ bottom [v] L s t t' (i + 1) := by
  obtain ⟨w, word, constant⟩ := installed.consts k c entry
  apply here.push code (is w constant)
  intro u pushed
  simp only [Vm.execute, Vm.returns_ofOption, returns_bind]
  exact ⟨w, _, ⟨word, rfl⟩, pushed⟩

theorem Here.literal (here : Here img st T l f ρ bottom L s t i) (installed : Installed img st T)
    {d : Datum} {instr : Instr} (code : f.code[i]? = some instr) (is : LiteralInstr T d instr) :
    Goes img N t fun t' => Results img st T l f ρ bottom [Values.literal d] L s t t' (i + 1) := by
  have loaded : ∀ {d : Datum}, (∃ k, instr = ⟨.loadConst, k⟩ ∧ T.consts[k]? = some (.datum d)) →
      Goes img N t fun t' => Results img st T l f ρ bottom [Values.literal d] L s t t' (i + 1) := by
    intro d found
    obtain ⟨k, rfl, entry⟩ := found
    exact here.const installed code entry fun w constant => .data constant
  cases d with
  | bool b =>
    have known : instr = ⟨.pushBool, if b then 1 else 0⟩ := is
    subst known
    apply here.push code (.data (.bool b))
    intro u pushed
    rw [Vm.execute]
    cases b <;> exact pushed
  | _ => exact loaded is.2

theorem Here.quote (here : Here img st T l f ρ bottom L s t i) (installed : Installed img st T)
    {d : Datum} {instr : Instr} (code : f.code[i]? = some instr) (is : QuoteInstr T d instr) :
    Goes img N t fun t' => Results img st T l f ρ bottom [Values.literal d] L s t t' (i + 1) := by
  unfold QuoteInstr at is
  split at is
  · rename_i null
    subst null
    subst is
    exact here.push code (.data .null) fun u pushed => pushed
  · obtain ⟨k, rfl, entry⟩ := is
    exact here.const installed code entry fun w constant => .data constant

theorem Here.variable (here : Here img st T l f ρ bottom L s t i) (installed : Installed img st T)
    {x : Symbol} {slot : Slot} (code : f.code[i]? = some (loadInstr slot))
    (located : Located T f (l.frame :: l.scope) x slot) (inside : x ∈ freeAll l.body)
    (found : lookupVar ρ s x = some v) :
    Goes img N t fun t' => Results img st T l f ρ bottom [v] L s t t' (i + 1) := by
  have bound : ∀ {c : Nat}, ρ x = some c → s.get c = some (.cell (some v)) := by
    intro c at'
    rw [lookupVar, at'] at found
    dsimp only at found
    split at found
    · rename_i u object
      rw [object, found]
    · cases found
  cases slot with
  | inLocal idx =>
    obtain ⟨frame, outer, scope, slot⟩ := located
    cases scope
    obtain ⟨c, at', holds⟩ := here.frame.own x idx slot
    obtain ⟨w, object, is⟩ := holds.object here.rel (fun o same => (here.frame.objects o same).1)
      (bound at')
    apply here.push code is
    intro u pushed
    simp only [Vm.execute, loadInstr, returns_bind, Vm.returns_get, Vm.returns_ofOption]
    exact ⟨_, _, ⟨rfl, rfl⟩, w, _, ⟨object, rfl⟩, pushed⟩
  | inBind b =>
    obtain ⟨frame, outer, depth, idx, up, scope, absent, enclosing, binding, entry⟩ := located
    cases scope
    have outside : x ∈ free (.lambda l.args l.body) := by
      rw [free, List.mem_filter]
      exact ⟨inside, by simpa [Lambda.frame] using absent⟩
    obtain ⟨c, E, at', displays, linked⟩ := here.frame.outer.placed x outside depth idx enclosing
    have leads := here.frame.binding here.rel binding entry displays linked
    obtain ⟨w, object, is⟩ := cell_object here.rel linked (bound at')
    apply here.push code is
    intro u pushed
    simp only [Vm.execute, loadInstr, returns_bind, Vm.returns_get, Vm.returns_ofOption]
    exact ⟨_, _, ⟨rfl, rfl⟩, (E + 24, idx), _, ⟨leads, rfl⟩, w, _, ⟨object, rfl⟩, pushed⟩
  | inStatic k =>
    obtain ⟨absent, known, entry⟩ := located
    rw [lookupVar, here.frame.within.absent x absent] at found
    simp only [known, if_true, Option.some.injEq] at found
    subst found
    apply here.const installed code entry
    intro w constant
    obtain ⟨⟨n, known⟩, rfl⟩ := constant
    exact .prim known

theorem Frame.code (frame : Frame img st l f ρ bottom L s t) (snug : Snug l f) {args : Formals}
    {body : List Node} (part : PartOf l (.lambda args body)) {k : Nat}
    (lambda : T.lambdas[k]? = some ⟨l.frame :: l.scope, args, body⟩) :
    CodeFor T L t.heap k t.thread.env args body ρ := by
  refine ⟨⟨l.frame :: l.scope, lambda, ⟨?_⟩, frame.within⟩, part.tame⟩
  intro x member depth idx enclosing
  have inside := part.free x member
  have inner : x ∈ caughtAll l.body := part.caught x (by rw [caught, ← free]; exact member)
  rcases enclosing with ⟨slot, same⟩ | ⟨absent, further⟩
  · subst same
    obtain ⟨o, objects⟩ := frame.onHeap (snug.heap x inner (List.mem_of_getElem? slot.named))
    obtain ⟨c, bound, holds⟩ := frame.own x idx slot
    simp only [Holds, objects] at holds
    exact ⟨c, t.thread.env, bound, (frame.objects o objects).2, holds⟩
  · have outside : x ∈ free (.lambda l.args l.body) := by
      rw [free, List.mem_filter]
      exact ⟨inside, by simpa [Lambda.frame] using absent⟩
    exact frame.outer.placed x outside depth idx further

theorem Here.lambda (here : Here img st T l f ρ bottom L s t i) (installed : Installed img st T)
    (snug : Snug l f) {args : Formals} {body : List Node}
    (coded : Coded T f l [false] (.lambda args body) i j) :
    Goes img N t fun t' => Results img st T l f ρ bottom [.proc s.top] L
      (s.alloc (.closure args body ρ)) t t' j := by
  have code := coded.code
  rw [CodeOf] at code
  obtain ⟨instr, at', ⟨op, lambda⟩, next⟩ := code
  subst next
  have plain := shape_here coded.shape at'
  obtain ⟨o, k⟩ := instr
  have closure : o = .loadClosure := by
    rcases op with op | op
    · exact op
    · rw [isBare, op] at plain
      cases plain
  subst closure
  obtain ⟨f', function, _⟩ := installed.functions k _ lambda
  have fetches : t.func.code[t.opcode]? = some ⟨.loadClosure, k⟩ := by
    rw [here.frame.func, here.opcode]
    exact at'
  apply goes_instruction here.control fetches
  intro room memory
  have enough : alignUp (16 + 8 * f'.bindmap.length) + BHDR_SIZE ≤ t.heap.fresh.freeMem := by
    simpa only [demand, here.control, fetches, function, blockSize] using memory
  obtain ⟨L', adds, rel, is⟩ := represents_closure here.rel enough
    (here.frame.code snug coded.part lambda)
  let u := { fetched t with heap := closureBlock img t.heap t.thread.env k f'.bindmap.length }
  have ran : Returns (Vm.closureNew img k f') (fetched t) (makeHeapPtr (nextMem t.heap)) u :=
    returns_closureNew here.rel.sound enough
  have pushes : Returns (Vm.stackPush img (makeHeapPtr (nextMem t.heap))) u ⟨⟩
      (pushed u (makeHeapPtr (nextMem t.heap))) := returns_push room
  refine ⟨pushed u (makeHeapPtr (nextMem t.heap)), ?_, ?_⟩
  · simp only [Vm.execute, returns_bind, Vm.returns_ofOption]
    exact ⟨f', _, ⟨function, rfl⟩, _, _, ran, pushes⟩
  · have same : SameFrame t (pushed u (makeHeapPtr (nextMem t.heap))) := ⟨rfl, rfl, rfl, rfl⟩
    apply here.one same adds (remains_alloc _) rel (includes_place here.rel.sound).extends here.control
    · exact congrArg (· + 1) here.opcode
    · rfl
    · intro k below
      exact Function.update_of_ne (Nat.ne_of_lt below) ..
    · simp only [pushed, u, fetched, Function.update_self]
      exact is

/- Operations. -/

/-- The thread behind an instruction that replaces the last n words of the stack by one. -/
def answered (t : Vm.State) (n w : Nat) (h : Heap) (roots : List Nat) : Vm.State :=
  withRoots (pushed (dropped (fetched t) n) w) h roots

theorem Results.operate {vs : List Value} {s₁ : State} {t₁ : Vm.State} {instr : Instr}
    (results : Results img st T l f ρ bottom vs L s₁ t t₁ j)
    (here : Here img st T l f ρ bottom L s t i) (before : Remains s s₁)
    (code : f.code[j]? = some instr)
    (effect : ∀ L₁, Represents img st T L₁ s₁ t₁.heap →
      (∀ (k : Nat) u, vs[k]? = some u →
        ValueIs img st L₁ u (t₁.thread.opstack (t.thread.opStackIdx + k))) →
      t₁.thread.opStackIdx + 1 < img.opStackSize → demand img t₁ ≤ t₁.heap.fresh.freeMem →
      ∃ L₂ h w roots, L₁.Adds L₂ ∧ Represents img st T L₂ s' h ∧ Extends t₁.heap h ∧
        ValueIs img st L₂ v w ∧ Remains s₁ s' ∧
        Returns (Vm.execute img instr) (fetched t₁) ⟨⟩ (answered t₁ vs.length w h roots)) :
    Goes img N t₁ fun t' => Results img st T l f ρ bottom [v] L s' t t' (j + 1) := by
  obtain ⟨L₁, adds, there, values⟩ := results.link
  have fetches : t₁.func.code[t₁.opcode]? = some instr := by
    rw [there.frame.func, there.opcode]
    exact code
  apply goes_instruction there.control fetches
  intro room memory
  obtain ⟨L₂, h, w, roots, adds', rel, extends', is, after, ran⟩ :=
    effect L₁ there.rel values room memory
  have idx := results.idx
  refine ⟨_, ran, ?_⟩
  have same : SameFrame t (answered t₁ vs.length w h roots) :=
    results.same.trans ⟨rfl, rfl, rfl, rfl⟩
  have top : t₁.thread.opStackIdx - vs.length = t.thread.opStackIdx := by omega
  apply here.one same (adds.trans adds') (fun c o object => after c o (before c o object)) rel
    (results.grows.trans extends') there.control
  · exact congrArg (· + 1) there.opcode
  · simp only [answered, withRoots, pushed, dropped, fetched]
    omega
  · intro k below
    simp only [answered, withRoots, pushed, dropped, fetched, top]
    rw [Function.update_of_ne (by omega)]
    exact results.stack k below
  · simp only [answered, withRoots, pushed, dropped, fetched, top, Function.update_self]
    exact is

theorem dropped_dropped (t : Vm.State) (m n : Nat) : dropped (dropped t m) n = dropped t (m + n) := by
  simp only [dropped, Nat.sub_sub]

end positions

section operations
variable {img : Vm.Image} {st : Statics} {T : Tables} {L : Link} {W : World} {s s' : State}
  {t : Vm.State} {v : Value} {instr : Instr} {args : List Node}

theorem returns_field {t u t' : Vm.State} {a : Nat} {words : Nat → Nat} (i : Nat) (msg : String)
    (popped : Returns Vm.stackPop t a u) (pair : Vm.isPair img u.heap a = true)
    (here : Vm.wordsAt img u.heap a = some words) (push : Returns (Vm.stackPush img (words i)) u ⟨⟩ t') :
    Returns (Vm.field img i msg) t ⟨⟩ t' := by
  unfold Vm.field
  rw [returns_after popped, returns_after (Vm.returns_get.mpr ⟨rfl, rfl⟩), if_pos pair,
    returns_after (Vm.returns_ofOption.mpr ⟨here, rfl⟩)]
  exact push

theorem unary_effect (rel : Represents img st T L s t.heap) {op : Symbol} {u : Value} {a : Nat}
    (opcode : OperationInstr op args instr) (computes : applyOp W op [u] s = some (v, s'))
    (tame : op ≠ "$not") (is : ValueIs img st L u a) (top : 0 < t.thread.opStackIdx)
    (word : t.thread.opstack (t.thread.opStackIdx - 1) = a)
    (room : t.thread.opStackIdx + 1 < img.opStackSize) :
    ∃ w, ValueIs img st L v w ∧ s' = s ∧
      Returns (Vm.execute img instr) (fetched t) ⟨⟩ (pushed (dropped (fetched t) 1) w) := by
  have popped : Returns Vm.stackPop (fetched t) a (dropped (fetched t) 1) := by
    have pops := returns_pop (s := fetched t) top
    rwa [show (fetched t).thread.opstack ((fetched t).thread.opStackIdx - 1) = a from word] at pops
  have push : ∀ w, Returns (Vm.stackPush img w) (dropped (fetched t) 1) ⟨⟩
      (pushed (dropped (fetched t) 1) w) := by
    intro w
    apply returns_push
    simp only [dropped, fetched]
    omega
  have pairs : ∀ {p : Value × Value}, pairParts s u = some p →
      Vm.isPair img (dropped (fetched t) 1).heap a = true := by
    intro p parts
    rw [show (dropped (fetched t) 1).heap = t.heap from rfl, isPair_value rel is, parts]
    rfl
  obtain ⟨o, k⟩ := instr
  have code : operatorToOpcode op = some o := opcode.1
  unfold applyOp at computes
  simp only at computes
  split_ifs at computes with car cdr not
  · subst car
    cases code
    obtain ⟨p, parts, same⟩ := Option.map_eq_some_iff.mp computes
    cases same
    obtain ⟨words, here, first, _, _⟩ := pair_words rel is (a := p.1) (d := p.2) parts
    exact ⟨words 0, first, rfl, returns_field 0 _ popped (pairs parts) here (push _)⟩
  · subst cdr
    cases code
    obtain ⟨p, parts, same⟩ := Option.map_eq_some_iff.mp computes
    cases same
    obtain ⟨words, here, _, second, _⟩ := pair_words rel is (a := p.1) (d := p.2) parts
    exact ⟨words 1, second, rfl, returns_field 1 _ popped (pairs parts) here (push _)⟩
  · subst not
    cases code
    cases computes
    refine ⟨Vm.cif (a = Vm.cfalse), ?_, rfl, ?_⟩
    · rw [truthy_word is, show (!decide (a ≠ Vm.cfalse)) = decide (a = Vm.cfalse) by simp]
      exact .data (.bool _)
    · simp only [Vm.execute]
      rw [returns_after popped]
      exact push _

theorem test_effect (rel : Represents img st T L s t.heap) {type : Symbol} {u : Value}
    {a : Nat} {b : Bool} (op : instr.op = .opTypeTest)
    (code : Opcode.typeTest type = some instr.arg) (tested : Values.typeTest s type u = some b)
    (is : ValueIs img st L u a) (top : 0 < t.thread.opStackIdx)
    (word : t.thread.opstack (t.thread.opStackIdx - 1) = a)
    (room : t.thread.opStackIdx + 1 < img.opStackSize) :
    Returns (Vm.execute img instr) (fetched t) ⟨⟩ (pushed (dropped (fetched t) 1) (Vm.cif b)) := by
  have popped : Returns Vm.stackPop (fetched t) a (dropped (fetched t) 1) := by
    have pops := returns_pop (s := fetched t) top
    rwa [show (fetched t).thread.opstack ((fetched t).thread.opStackIdx - 1) = a from word] at pops
  have push : Returns (Vm.stackPush img (Vm.cif b)) (dropped (fetched t) 1) ⟨⟩
      (pushed (dropped (fetched t) 1) (Vm.cif b)) := by
    apply returns_push
    simp only [dropped, fetched]
    omega
  have test : Vm.typeTest img (dropped (fetched t) 1).heap a instr.arg = some b :=
    typeTest_value rel is code tested
  simp only [Vm.execute, op]
  rw [returns_after popped, returns_after (Vm.returns_get.mpr ⟨rfl, rfl⟩), test]
  exact push

theorem word_eq {a b : Nat} (small : a < 2 ^ 64) (small' : b < 2 ^ 64) :
    (BitVec.ofNat 64 a == BitVec.ofNat 64 b) = decide (a = b) := by
  rw [beq_eq_decide, decide_eq_decide, ← BitVec.toNat_inj, BitVec.toNat_ofNat, BitVec.toNat_ofNat,
    Nat.mod_eq_of_lt small, Nat.mod_eq_of_lt small']

theorem num_word {i : Int} {a : Nat} (is : ValueIs img st L v a) (num : num? v = some i) :
    Small i ∧ a = numWord i := by
  cases is with
  | data is =>
    cases is with
    | num small =>
      cases num
      exact ⟨small, rfl⟩
    | _ => cases num
  | _ => cases num

/- What the instruction of an operation with two operands makes of their words. -/
theorem binary_word (rel : Represents img st T L s t.heap) (resolved : Resolved img st) {op : Symbol}
    {o : Op} {u w : Value} {a b : Nat} (opcode : operatorToOpcode op = some o)
    (computes : applyOp W op [u, w] s = some (v, s')) (cons : op ≠ "$cons")
    (compares : op = "$eq?" → comparable u w = true) (first : ValueIs img st L u a)
    (second : ValueIs img st L w b) :
    ∃ c, Arithmetic.binary o (BitVec.ofNat 64 a) (BitVec.ofNat 64 b) = some c ∧
      ValueIs img st L v c.toNat ∧ s' = s := by
  unfold applyOp at computes
  simp only [cons, if_false] at computes
  split_ifs at computes with eq
  · subst eq
    cases opcode
    obtain ⟨r, equal, same⟩ := Option.map_eq_some_iff.mp computes
    cases same
    unfold eqValue at equal
    split_ifs at equal
    cases equal
    have words := comparable_words rel resolved (compares rfl) first second
    refine ⟨_, rfl, ?_, rfl⟩
    rw [word_eq (word_lt rel resolved first) (word_lt rel resolved second), cif_word, beq_eq_decide,
      decide_eq_decide.mpr words]
    exact .data (.bool _)
  · split at computes
    · rename_i i j left right
      obtain ⟨r, value, same⟩ := Option.map_eq_some_iff.mp computes
      cases same
      obtain ⟨small, rfl⟩ := num_word first left
      obtain ⟨small', rfl⟩ := num_word second right
      obtain ⟨c, binary, result⟩ := numeric_binary opcode small small' value
      refine ⟨c, binary, ?_, rfl⟩
      rcases result with ⟨k, rfl, smallk, same⟩ | ⟨k, rfl, same⟩
      · rw [same]
        exact .data (.num smallk)
      · rw [same]
        exact .data (.bool k)
    · cases computes

theorem execute_binary {o : Op} {k : Nat} {x y c : BitVec 64}
    (binary : Arithmetic.binary o x y = some c) : Vm.execute img ⟨o, k⟩ = Vm.binary img o := by
  cases o <;> first | rfl | cases binary

theorem returns_pops {t : Vm.State} (two : 1 < t.thread.opStackIdx) :
    Returns Vm.stackPop t (t.thread.opstack (t.thread.opStackIdx - 1)) (dropped t 1) ∧
      Returns Vm.stackPop (dropped t 1) (t.thread.opstack (t.thread.opStackIdx - 2)) (dropped t 2) := by
  constructor
  · exact returns_pop (by omega)
  · have second := returns_pop (s := dropped t 1) (by
      simp only [dropped]
      omega)
    rwa [dropped_dropped] at second

theorem binary_effect (rel : Represents img st T L s t.heap) (resolved : Resolved img st)
    {op : Symbol} {u w : Value} (opcode : OperationInstr op args instr)
    (computes : applyOp W op [u, w] s = some (v, s'))
    (compares : op = "$eq?" → comparable u w = true) (two : 1 < t.thread.opStackIdx)
    (first : ValueIs img st L u (t.thread.opstack (t.thread.opStackIdx - 2)))
    (second : ValueIs img st L w (t.thread.opstack (t.thread.opStackIdx - 1)))
    (room : t.thread.opStackIdx + 1 < img.opStackSize)
    (memory : instr.op = .opCons → 32 ≤ t.heap.fresh.freeMem) :
    ∃ L' h x roots, L.Adds L' ∧ Represents img st T L' s' h ∧ Extends t.heap h ∧
      ValueIs img st L' v x ∧ Remains s s' ∧
      Returns (Vm.execute img instr) (fetched t) ⟨⟩ (answered t 2 x h roots) := by
  obtain ⟨o, k⟩ := instr
  have code : operatorToOpcode op = some o := opcode.1
  have pops : Returns Vm.stackPop (fetched t) (t.thread.opstack (t.thread.opStackIdx - 1))
      (dropped (fetched t) 1) ∧ Returns Vm.stackPop (dropped (fetched t) 1)
      (t.thread.opstack (t.thread.opStackIdx - 2)) (dropped (fetched t) 2) :=
    returns_pops (t := fetched t) two
  by_cases cons : op = "$cons"
  · subst cons
    cases code
    have pair : s.cons u w = (v, s') := Option.some.inj computes
    obtain ⟨L', adds, rel', is⟩ := represents_cons rel (memory rfl) first second
    rw [pair] at rel' is
    let a := t.thread.opstack (t.thread.opStackIdx - 2)
    let b := t.thread.opstack (t.thread.opStackIdx - 1)
    let u₁ := withRoots (dropped (fetched t) 2) t.heap [a, b]
    let u₂ := { u₁ with heap := consBlock img t.heap a b }
    have consed : Returns (Vm.cons img (Vm.localRoot 0) (Vm.localRoot 1)) u₁
        (makeHeapPtr (nextMem t.heap)) u₂ :=
      returns_cons (t := u₁) rel.sound (memory rfl) rfl rfl
    have push : Returns (Vm.stackPush img (makeHeapPtr (nextMem t.heap))) u₂ ⟨⟩
        (pushed u₂ (makeHeapPtr (nextMem t.heap))) := by
      apply returns_push
      simp only [u₂, u₁, withRoots, dropped, fetched]
      omega
    refine ⟨L', _, _, [], adds, rel', (includes_place rel.sound).extends, is, ?_, ?_⟩
    · have remains : Remains s (s.cons u w).2 := remains_alloc _
      rwa [pair] at remains
    · have rest : Returns (do
          Vm.stackPush img (← Vm.cons img (Vm.localRoot 0) (Vm.localRoot 1))
          Vm.setThread fun t => { t with localRoots := [] }) u₁ ⟨⟩
          (withRoots (pushed u₂ (makeHeapPtr (nextMem t.heap))) u₂.heap []) := by
        rw [returns_after consed, returns_after push]
        exact returns_roots _ _
      simp only [Vm.execute]
      rw [returns_after pops.1, returns_after pops.2, returns_after (returns_roots _ _)]
      exact rest
  · obtain ⟨c, binary, is, same⟩ :=
      binary_word rel resolved code computes cons compares first second
    subst same
    refine ⟨L, t.heap, c.toNat, t.thread.localRoots, .refl L, rel, .refl _, is, fun _ _ => id, ?_⟩
    have push : Returns (Vm.stackPush img c.toNat) (dropped (fetched t) 2) ⟨⟩
        (pushed (dropped (fetched t) 2) c.toNat) := by
      apply returns_push
      simp only [dropped, fetched]
      omega
    rw [execute_binary binary, Vm.binary, returns_after pops.1, returns_after pops.2,
      returns_after (Vm.returns_ofOption.mpr ⟨binary, rfl⟩)]
    exact push

end operations

section nodes
variable {img : Vm.Image} {st : Statics} {T : Tables} {N : Natives img} {W : World} {l : Lambda}
  {f : IFunc} {ρ : Env} {bottom : Nat} {L : Link} {s s' : State} {t : Vm.State} {i j : Nat}

theorem getElem_stack {vs : List Value} {t₁ : Vm.State} {s₁ : State}
    (results : Results img st T l f ρ bottom vs L s₁ t t₁ j) {L₁ : Link}
    (values : ∀ (k : Nat) u, vs[k]? = some u →
      ValueIs img st L₁ u (t₁.thread.opstack (t.thread.opStackIdx + k))) {k : Nat} {u : Value}
    (given : vs[k]? = some u) :
    ValueIs img st L₁ u (t₁.thread.opstack (t₁.thread.opStackIdx - (vs.length - k))) := by
  have inside := (List.getElem?_eq_some_iff.mp given).1
  have idx := results.idx
  have here := values k u given
  rwa [show t.thread.opStackIdx + k = t₁.thread.opStackIdx - (vs.length - k) by omega] at here

theorem Results.finish {vs : List Value} {s₁ : State} {t₁ : Vm.State} {g : Node} {args : List Node}
    {instr : Instr} {v : Value} (results : Results img st T l f ρ bottom vs L s₁ t t₁ j)
    (here : Here img st T l f ρ bottom L s t i) (before : Remains s s₁)
    (installed : Installed img st T) (code : f.code[j]? = some instr)
    (operation : OperationInstr (symName g) args instr) (tame : symName g ≠ "$not")
    (finished : finishOp W g args vs s₁ = some (v, s'))
    (compares : symName g = "$eq?" → ∀ u w, vs = [u, w] → comparable u w = true) :
    Goes img N t₁ fun t' => Results img st T l f ρ bottom [v] L s' t t' (j + 1) := by
  have idx := results.idx
  have fetches : t₁.control = .opcode ∧ t₁.func.code[t₁.opcode]? = some instr := by
    obtain ⟨_, _, there, _⟩ := results.link
    rw [there.frame.func, there.opcode]
    exact ⟨there.control, code⟩
  apply results.operate here before code
  intro L₁ rel values room memory
  have value : ∀ {k : Nat} {u : Value}, vs[k]? = some u →
      ValueIs img st L₁ u (t₁.thread.opstack (t₁.thread.opStackIdx - (vs.length - k))) :=
    getElem_stack results values
  unfold finishOp at finished
  split at finished
  · rename_i typed
    split at finished
    · rename_i type rest u
      obtain ⟨b, tested, same⟩ := Option.map_eq_some_iff.mp finished
      cases same
      have name : symName g = "$type-test" := by
        cases g <;> simp_all [isTypeTest, symName]
      have op : instr.op = .opTypeTest := by
        have known := operation.1
        rw [name] at known
        exact (Option.some.inj known).symm
      obtain ⟨type', rest', same, number⟩ := (if_pos op).mp operation.2
      cases same
      refine ⟨L₁, t₁.heap, Vm.cif b, t₁.thread.localRoots, .refl L₁, rel, .refl _, .data (.bool b),
        fun _ _ => id, ?_⟩
      exact test_effect rel op number tested (value (k := 0) rfl) (by simp at idx; omega) rfl room
    · cases finished
  · split at finished
    · rename_i op
      rcases vs with _ | ⟨u, _ | ⟨w, _ | ⟨x, rest⟩⟩⟩
      · cases finished
      · obtain ⟨w, is, same, ran⟩ := unary_effect rel operation finished tame (value (k := 0) rfl)
          (by simp at idx; omega) rfl room
        subst same
        exact ⟨L₁, t₁.heap, w, t₁.thread.localRoots, .refl L₁, rel, .refl _, is, fun _ _ => id, ran⟩
      · apply binary_effect rel installed.resolved operation finished
          (fun eq => compares eq u w rfl) (by simp at idx; omega) (value (k := 0) rfl)
          (value (k := 1) rfl) room
        intro cons
        obtain ⟨o, k⟩ := instr
        dsimp only at cons
        subst cons
        simpa [demand, fetches, blockSize, alignUp, BHDR_SIZE] using memory
      · cases finished
    · cases finished

theorem grown_remains (grown : Grown s s') : Remains s s' := by
  induction grown with
  | refl => exact fun _ _ => id
  | alloc _ o ih => exact fun c p here => get_alloc (ih c p here) o

/-- Wherever the node is, its code leaves its value. -/
def Evaluates (img : Vm.Image) (st : Statics) (T : Tables) (N : Natives img) (W : World) (l : Lambda)
    (f : IFunc) (ρ : Env) (bottom : Nat) (n : Node) : Prop :=
  ∀ L s s' t i j v, Here img st T l f ρ bottom L s t i → Coded T f l (bare n) n i j →
    evalSimple W ρ n s = some (v, s') → comparesWords W ρ n s = true →
    Goes img N t fun t' => Results img st T l f ρ bottom [v] L s' t t' j

theorem evaluates_all {xs : List Node}
    (each : ∀ x ∈ xs, Evaluates img st T N W l f ρ bottom x) {vs : List Value}
    (here : Here img st T l f ρ bottom L s t i) (coded : CodedAll T f l (bareAll xs) xs i j)
    (value : evalSimples W ρ xs s = some (vs, s')) (compares : comparesAll W ρ xs s = true) :
    Goes img N t fun t' => Results img st T l f ρ bottom vs L s' t t' j := by
  induction xs generalizing L s t i vs with
  | nil =>
    simp only [evalSimples, Option.some.injEq, Prod.mk.injEq] at value
    obtain ⟨rfl, rfl⟩ := value
    have same : i = j := coded.code
    subst same
    exact .here here.none
  | cons x xs ih =>
    simp only [evalSimples, Option.bind_eq_bind, Option.bind_eq_some_iff, Prod.exists,
      Option.pure_def, Option.some.injEq, Prod.mk.injEq] at value
    obtain ⟨u, s₁, first, us, s₂, rest, rfl, rfl⟩ := value
    simp only [comparesAll, Bool.and_eq_true, first] at compares
    obtain ⟨m, here', others⟩ := codedAll_cons coded
    apply (each x (by simp) L s s₁ t i m u here here' first compares.1).bind
    intro t₁ results
    obtain ⟨L₁, adds, there, values⟩ := results.link
    apply (ih (fun y member => each y (by simp [member])) there others rest compares.2).mono
    intro t₂ results'
    exact results.append adds values results'

theorem operation_value {g : Node} {args : List Node} {v : Value} (operator : isOperator g = true)
    (value : evalSimple W ρ (.app g args) s = some (v, s'))
    (compares : comparesWords W ρ (.app g args) s = true) :
    ∃ vs s₁, evalSimples W ρ (operandsOf g args) s = some (vs, s₁) ∧
      finishOp W g args vs s₁ = some (v, s') ∧ comparesAll W ρ (operandsOf g args) s = true ∧
      (symName g = "$eq?" → ∀ u w, vs = [u, w] → comparable u w = true) := by
  rw [evalSimple, if_pos operator] at value
  rw [comparesWords, Bool.and_eq_true] at compares
  obtain ⟨all, eq⟩ := compares
  cases typed : isTypeTest g with
  | true =>
    simp only [typed, if_true, evalTail_eq, Option.bind_eq_bind, Option.bind_eq_some_iff,
      Prod.exists] at value all
    obtain ⟨vs, s₁, operands, finished⟩ := value
    rw [operandsOf, if_pos typed]
    refine ⟨vs, s₁, operands, finished, ?_, ?_⟩
    · cases args with
      | nil => rfl
      | cons x xs => exact all
    · intro name
      cases g <;> simp_all [isTypeTest, symName]
  | false =>
    simp only [typed, Bool.false_eq_true, if_false, Option.bind_eq_bind, Option.bind_eq_some_iff,
      Prod.exists] at value all
    obtain ⟨vs, s₁, operands, finished⟩ := value
    have plain : ¬ isTypeTest g = true := by simp [typed]
    rw [operandsOf, if_neg plain]
    refine ⟨vs, s₁, operands, finished, all, ?_⟩
    intro name u w same
    subst same
    simpa [name, operands] using eq

theorem evaluates (installed : Installed img st T) (snug : Snug l f) (n : Node) :
    Evaluates img st T N W l f ρ bottom n := by
  induction n with
  | const d =>
    intro L s s' t i j v here coded value _
    simp only [evalSimple, Option.some.injEq, Prod.mk.injEq] at value
    obtain ⟨rfl, rfl⟩ := value
    have code := coded.code
    rw [CodeOf] at code
    obtain ⟨instr, at', is, rfl⟩ := code
    exact here.literal installed at' is
  | quote d =>
    intro L s s' t i j v here coded value _
    simp only [evalSimple, Option.some.injEq, Prod.mk.injEq] at value
    obtain ⟨rfl, rfl⟩ := value
    have code := coded.code
    rw [CodeOf] at code
    obtain ⟨instr, at', is, rfl⟩ := code
    exact here.quote installed at' is
  | sym x =>
    intro L s s' t i j v here coded value _
    simp only [evalSimple, Option.map_eq_some_iff, Prod.mk.injEq] at value
    obtain ⟨u, found, rfl, rfl⟩ := value
    have code := coded.code
    rw [CodeOf] at code
    obtain ⟨instr, at', ⟨slot, located, rfl⟩, rfl⟩ := code
    exact here.variable installed at' located (coded.part.free x (by simp [free])) found
  | lambda args body =>
    intro L s s' t i j v here coded value _
    simp only [evalSimple, Option.some.injEq, Prod.mk.injEq] at value
    obtain ⟨rfl, rfl⟩ := value
    exact here.lambda installed snug coded
  | app g args _ each =>
    intro L s s' t i j v here coded value compares
    by_cases operator : isOperator g = true
    · obtain ⟨vs, s₁, operands, finished, all, eq⟩ := operation_value operator value compares
      obtain ⟨m, instr, inner, at', operation, next, tame⟩ := coded.operation operator
      subst next
      have before : Remains s s₁ :=
        grown_remains (evalSimples_grown (fun x _ _ _ _ => evalSimple_grown) operands)
      apply (evaluates_all (fun x member => each x (operandsOf_subset member)) here inner operands
        all).bind
      intro t₁ results
      exact results.finish here before installed at' operation tame finished eq
    · rw [evalSimple, if_neg operator] at value
      cases value
  | ite | set | define | begin | extend =>
    intro L s s' t i j v here coded value _
    simp [evalSimple] at value

end nodes

end LGears.VmEval
