import LGears.VmCalls

/- The forms of a body: branches, assignments and calls. -/
namespace LGears.VmForms
open PrimitivesInfo Opcode Compiler CodeTables CodeShape CodeEmitted Values StateExcept VmValues
open VmHeap VmTests VmObjects VmMoves VmCode VmEval VmBinding VmEntry VmCalls Renaming
open Gc hiding State Slot copied Holds

section forms
variable {img : Vm.Image} {st : Statics} {T : Tables} {N : Natives img} {W : World} {l : Lambda}
  {f : IFunc} {ρ : Env} {bottom : Nat} {L : Link} {s s' : State} {t t' : Vm.State} {i j : Nat}
  {xs : List Node} {v : Value}

theorem here_moved (here : Here img st T l f ρ bottom L s t i) (same : SameFrame t t')
    (heap : t'.heap = t.heap) (stack : ∀ k < bottom, t'.thread.opstack k = t.thread.opstack k)
    (low : bottom ≤ t'.thread.opStackIdx) (opcode : t'.opcode = j) (control : t'.control = .opcode) :
    Here img st T l f ρ bottom L s t' j := by
  have grows : Extends t.heap t'.heap := by
    rw [heap]
    exact .refl _
  refine ⟨?_, here.frame.later (.refl L) (fun _ _ => id) grows same stack low, opcode, control⟩
  rw [heap]
  exact here.rel

theorem results_pop {t₁ : Vm.State} (results : Results img st T l f ρ bottom [v] L s' t t₁ j) :
    ∃ L₁, L.Adds L₁ ∧ Here img st T l f ρ bottom L₁ s' t₁ j ∧
      ValueIs img st L₁ v (t₁.thread.opstack (t₁.thread.opStackIdx - 1)) ∧
      Returns Vm.stackPop (fetched t₁) (t₁.thread.opstack (t₁.thread.opStackIdx - 1))
        (dropped (fetched t₁) 1) ∧ (bottom ≤ t.thread.opStackIdx →
          Here img st T l f ρ bottom L₁ s' (dropped (fetched t₁) 1) (j + 1)) := by
  obtain ⟨L₁, adds, there, values⟩ := results.link
  have idx : t₁.thread.opStackIdx = t.thread.opStackIdx + 1 := results.idx
  have top := values 0 v rfl
  refine ⟨L₁, adds, there, ?_, ?_, ?_⟩
  · rw [idx, Nat.add_sub_cancel]
    exact top
  · apply returns_pop
    simp only [fetched]
    omega
  · intro low
    have same : SameFrame t₁ (dropped (fetched t₁) 1) := ⟨rfl, rfl, rfl, rfl⟩
    apply here_moved there same rfl (fun _ _ => rfl)
    · simp only [dropped, fetched]
      omega
    · exact congrArg (· + 1) there.opcode
    · exact there.control

theorem results_moved : ¬ Results img st T l f ρ bottom [v] L s' t t j := by
  intro results
  have idx : t.thread.opStackIdx = t.thread.opStackIdx + 1 := results.idx
  omega

theorem goes_branch (here : Here img st T l f ρ bottom L s t i) (installed : Installed img st T)
    (snug : Snug l f) {p a b : Node} (coded : Coded T f l (bare (.ite p a b)) (.ite p a b) i j)
    (rest : Forms T f l xs j) (value : evalSimple W ρ p s = some (v, s'))
    (compares : comparesWords W ρ p s = true) :
    Advances img N t (Running img st T ((if truthy v then a else b) :: xs) ρ s') := by
  obtain ⟨test, skip, n, m, pred, jumps, conseq, skips, alt, toAlt, toEnd⟩ := coded.ite
  apply ((evaluates installed snug p L s s' t i test v here pred value compares).later
    results_moved).bind
  intro t₁ results
  obtain ⟨L₁, adds, there, is, popped, after⟩ := results_pop results
  have next : t₁.func.code[t₁.opcode]? = some ⟨.jumpIfFalse, n⟩ := by
    rw [there.frame.func, there.opcode]
    exact jumps
  have here₁ := after here.frame.low
  have word := truthy_word is
  apply goes_instruction there.control next
  intro _ _
  cases true' : truthy v with
  | true =>
    have other : ¬ t₁.thread.opstack (t₁.thread.opStackIdx - 1) = Vm.cfalse := by
      rw [true'] at word
      simpa using word.symm
    have runs : Running img st T (a :: xs) ρ s' (dropped (fetched t₁) 1) :=
      ⟨l, f, bottom, L₁, test + 1, snug, here₁, .cons conseq (.jump skips (toEnd ▸ rest))⟩
    refine ⟨dropped (fetched t₁) 1, ?_, runs⟩
    simp only [Vm.execute]
    rw [returns_after popped, if_neg other, returns_pure]
    exact ⟨rfl, rfl⟩
  | false =>
    have same : t₁.thread.opstack (t₁.thread.opStackIdx - 1) = Vm.cfalse := by
      rw [true'] at word
      simpa using word.symm
    let u : Vm.State := { dropped (fetched t₁) 1 with opcode := t₁.opcode + 1 + n }
    have jumped : Returns (Vm.jump n) (dropped (fetched t₁) 1) ⟨⟩ u := returns_jump n _
    have frame : SameFrame (dropped (fetched t₁) 1) u := ⟨rfl, rfl, rfl, rfl⟩
    have here₂ : Here img st T l f ρ bottom L₁ s' u (skip + 1) := by
      apply here_moved here₁ frame rfl (fun _ _ => rfl) here₁.frame.low _ here₁.control
      rw [← toAlt, ← there.opcode]
    have runs : Running img st T (b :: xs) ρ s' u :=
      ⟨l, f, bottom, L₁, skip + 1, snug, here₂, .cons alt rest⟩
    refine ⟨u, ?_, runs⟩
    simp only [Vm.execute]
    rw [returns_after popped, if_pos same]
    exact jumped

/- Assignments. -/

theorem here_written (here : Here img st T l f ρ bottom L s t i) {c E idx w : Nat}
    (linked : L.cell c = some (E, idx)) (is : ValueIs img st L v w) :
    Here img st T l f ρ bottom L (s.put c (.cell (some v)))
      { t with heap := writeCell t.heap E idx w } i := by
  have frame := here.frame
  have grows := extends_write t.heap E idx w
  refine ⟨represents_write here.rel linked is, ⟨⟨?_, ?_, frame.inside, frame.distinct, ?_,
    frame.within⟩, frame.func, frame.onHeap, frame.above, ?_, frame.low⟩, here.opcode, here.control⟩
  · intro x k slot
    obtain ⟨d, bound, holds⟩ := frame.own x k slot
    refine ⟨d, bound, ?_⟩
    cases objects : t.thread.objects with
    | env o =>
      simp only [Holds, objects] at holds ⊢
      exact holds
    | stack base =>
      simp only [Holds, objects] at holds ⊢
      obtain ⟨unlinked, inside, u, object', value⟩ := holds
      have other : d ≠ c := by
        intro same
        rw [same, linked] at unlinked
        cases unlinked
      exact ⟨unlinked, inside, u, (get_put_ne _ _ other).trans object', value⟩
  · intro o objects
    have known := frame.objects o objects
    exact ⟨known.1, known.2.extend grows⟩
  · exact frame.outer.extend (.refl L) grows
  · intro b up k depth binding entry
    obtain ⟨bindmap, E', register, inside, word, displays⟩ := frame.display b up k depth binding entry
    exact ⟨bindmap, E', register, inside, word, displays.extend grows⟩

theorem here_stored (here : Here img st T l f ρ bottom L s t i) {base c idx w : Nat} {x : Symbol}
    (objects : t.thread.objects = .stack base) (slot : SlotOf l.frame x idx)
    (bound : ρ x = some c) (is : ValueIs img st L v w) :
    Here img st T l f ρ bottom L (s.put c (.cell (some v)))
      (withStack t (Function.update t.thread.opstack (base + idx) w)) i := by
  have frame := here.frame
  obtain ⟨c', bound', holds⟩ := frame.own x idx slot
  rw [bound, Option.some.injEq] at bound'
  subst bound'
  simp only [Holds, objects] at holds
  obtain ⟨unlinked, inside, old, object, _⟩ := holds
  refine ⟨represents_put here.rel object unlinked v, ⟨⟨?_, frame.objects, frame.inside,
    frame.distinct, frame.outer, frame.within⟩, frame.func, frame.onHeap, frame.above, ?_, frame.low⟩,
    here.opcode, here.control⟩
  · intro y k slot'
    obtain ⟨d, bound', holds⟩ := frame.own y k slot'
    refine ⟨d, bound', ?_⟩
    simp only [Holds, objects, withStack] at holds ⊢
    obtain ⟨unlinked', inside', u, object', value⟩ := holds
    refine ⟨unlinked', inside', ?_⟩
    by_cases same : d = c
    · subst same
      have index := frame.distinct base objects y x k idx d slot' slot bound' bound
      subst index
      refine ⟨some v, get_put_self _ _ (get_lt object), ?_⟩
      intro u' new
      cases new
      rw [Function.update_self]
      exact is
    · have index : k ≠ idx := by
        intro index
        have named := slot'.named
        rw [index, slot.named, Option.some.injEq] at named
        rw [← named, bound, Option.some.injEq] at bound'
        exact same bound'.symm
      refine ⟨u, (get_put_ne _ _ same).trans object', ?_⟩
      intro u' given
      rw [Function.update_of_ne (by omega)]
      exact value u' given
  · intro b up k depth binding entry
    obtain ⟨bindmap, E', register, inside', word, displays⟩ :=
      frame.display b up k depth binding entry
    have above := frame.above base bindmap objects register
    have low := slot.lt
    refine ⟨bindmap, E', register, inside', ?_, displays⟩
    exact (Function.update_of_ne (by omega) ..).trans word

theorem returns_setEnvObject {E idx w o : Nat} (real : Vm.envObject t.heap (E + 24) idx = some o) :
    Returns (Vm.setEnvObject (E + 24) idx w) t ⟨⟩ { t with heap := writeCell t.heap E idx w } := by
  rw [Returns, Vm.setEnvObject, real]
  exact Vm.returns_modifyBlock.mpr (by rw [Nat.add_sub_cancel]; rfl)

theorem goes_store {t₁ : Vm.State} {instr : Instr} {x : Symbol} {slot : Compiler.Slot}
    (there : Here img st T l f ρ bottom L s t₁ j)
    (here : Here img st T l f ρ bottom L s (dropped (fetched t₁) 1) (j + 1))
    (code : f.code[j]? = some instr) (located : Located T f (l.frame :: l.scope) x slot)
    (stores : StoreInstr slot instr) (inside : x ∈ freeAll l.body) {w : Nat}
    (popped : Returns Vm.stackPop (fetched t₁) w (dropped (fetched t₁) 1))
    (is : ValueIs img st L v w) (put : assign ρ s x v = some s') :
    Goes img N t₁ fun t' => Here img st T l f ρ bottom L s' t' (j + 1) := by
  have next : t₁.func.code[t₁.opcode]? = some instr := by
    rw [there.frame.func, there.opcode]
    exact code
  unfold assign at put
  split at put
  · rename_i c bound
    split at put
    · rename_i old object
      cases put
      apply goes_instruction there.control next
      intro _ _
      cases slot with
      | inLocal idx =>
        have same : instr = ⟨.setLocal, idx⟩ := stores
        subst same
        obtain ⟨frame, outer, scope, slot⟩ := located
        cases scope
        obtain ⟨c', bound', holds⟩ := here.frame.own x idx slot
        rw [bound, Option.some.injEq] at bound'
        subst bound'
        cases objects : (dropped (fetched t₁) 1).thread.objects with
        | env o =>
          have known := (here.frame.objects o objects).1
          simp only [Holds, objects] at holds
          obtain ⟨_, b, _, placed, _, room, _⟩ := (here.rel.cell c _ idx holds).var
          refine ⟨_, ?_, here_written here holds is⟩
          have real : Vm.envObject (dropped (fetched t₁) 1).heap
              ((dropped (fetched t₁) 1).thread.env + 24) idx = some (b.words (3 + idx)) := by
            rw [Vm.envObject, Vm.objectsHdr, Nat.add_sub_cancel, placed.block]
            exact if_pos room
          simp only [Vm.execute, Vm.setObject]
          rw [returns_after popped, returns_after (Vm.returns_get.mpr ⟨rfl, rfl⟩), objects, known]
          exact returns_setEnvObject real
        | stack base =>
          refine ⟨_, ?_, here_stored here objects slot bound is⟩
          simp only [Vm.execute, Vm.setObject]
          rw [returns_after popped, returns_after (Vm.returns_get.mpr ⟨rfl, rfl⟩), objects]
          exact Vm.returns_setThread.mpr rfl
      | inBind b =>
        have same : instr = ⟨.setBind, b⟩ := stores
        subst same
        obtain ⟨frame, outer, depth, idx, up, scope, absent, enclosing, binding, entry⟩ := located
        cases scope
        have outside : x ∈ free (.lambda l.args l.body) := by
          rw [free, List.mem_filter]
          exact ⟨inside, by simpa [Lambda.frame] using absent⟩
        obtain ⟨c', E, at', displays, linked⟩ := here.frame.outer.placed x outside depth idx enclosing
        rw [bound, Option.some.injEq] at at'
        subst at'
        obtain ⟨_, block, _, placed, _, room, _⟩ := (here.rel.cell c E idx linked).var
        have leads : Vm.binding img (fetched t₁) b = some (E + 24, idx) :=
          here.frame.binding here.rel binding entry displays linked
        have real : Vm.envObject (dropped (fetched t₁) 1).heap (E + 24) idx =
            some (block.words (3 + idx)) := by
          rw [Vm.envObject, Vm.objectsHdr, Nat.add_sub_cancel, placed.block]
          exact if_pos room
        refine ⟨_, ?_, here_written here linked is⟩
        simp only [Vm.execute]
        rw [returns_after (Vm.returns_get.mpr ⟨rfl, rfl⟩),
          returns_after (Vm.returns_ofOption.mpr ⟨leads, rfl⟩)]
        dsimp only
        rw [returns_after popped]
        exact returns_setEnvObject real
      | inStatic k => exact stores.elim
    · cases put
  · cases put

theorem goes_set (here : Here img st T l f ρ bottom L s t i) (installed : Installed img st T)
    (snug : Snug l f) {x : Symbol} {value : Node} {s₁ : State}
    (coded : Coded T f l (bare (.set x value)) (.set x value) i j) (rest : Forms T f l xs j)
    (evaluated : evalSimple W ρ value s = some (v, s₁)) (put : assign ρ s₁ x v = some s')
    (compares : comparesWords W ρ value s = true) :
    Advances img N t (Running img st T xs ρ s') := by
  obtain ⟨m, instr, slot, inner, code, next, located, stores, inside⟩ := coded.set
  subst next
  apply ((evaluates installed snug value L s s₁ t i m v here inner evaluated compares).later
    results_moved).bind
  intro t₁ results
  obtain ⟨L₁, adds, there, is, popped, after⟩ := results_pop results
  apply (goes_store there (after here.frame.low) code located stores inside popped is put).mono
  intro t₂ here₂
  exact ⟨l, f, bottom, L₁, m + 1, snug, here₂, rest⟩

/- Calls. -/

theorem bareIs_later {L' : Link} {w : Nat} (is : BareIs img T L s t v w) (grows : L.Grows L')
    (remains : Remains s s') (extends' : Extends t.heap t'.heap)
    (env : t'.thread.env = t.thread.env) : BareIs img T L' s' t' v w := by
  obtain ⟨n, args, body, ρ', k, same, word, closure, code⟩ := is.code
  rw [← env] at code
  exact ⟨n, args, body, ρ', k, same, word, remains _ _ closure, code.extend grows extends'⟩

/-- A function without an environment has been left on the stack. -/
structure Loaded (img : Vm.Image) (st : Statics) (T : Tables) (l : Lambda) (f : IFunc) (ρ : Env)
    (bottom : Nat) (v : Value) (L : Link) (s' : State) (t t' : Vm.State) (j : Nat) : Prop where
  here : Here img st T l f ρ bottom L s' t' j
  bare : BareIs img T L s' t' v (t'.thread.opstack t.thread.opStackIdx)
  idx : t'.thread.opStackIdx = t.thread.opStackIdx + 1
  stack : ∀ k < t.thread.opStackIdx, t'.thread.opstack k = t.thread.opstack k
  heap : t'.heap = t.heap
  env : t'.thread.env = t.thread.env

theorem goes_bare (here : Here img st T l f ρ bottom L s t i) (snug : Snug l f) {args : Formals}
    {body : List Node} (coded : Coded T f l [true] (.lambda args body) i j) :
    Goes img N t fun t' => Loaded img st T l f ρ bottom (.proc s.top) L
      (s.alloc (.closure args body ρ)) t t' j := by
  have code := coded.code
  rw [CodeOf] at code
  obtain ⟨instr, at', ⟨op, lambda⟩, next⟩ := code
  subst next
  have plain := shape_here coded.shape at'
  obtain ⟨o, k⟩ := instr
  have loads : o = .loadFunc := by
    rcases op with op | op
    · rw [isBare, op] at plain
      cases plain
    · exact op
  subst loads
  have fetches : t.func.code[t.opcode]? = some ⟨.loadFunc, k⟩ := by
    rw [here.frame.func, here.opcode]
    exact at'
  apply goes_instruction here.control fetches
  intro room _
  let u := pushed (fetched t) (Vm.makeFunc (img.moduleFunc k))
  have ran : Returns (Vm.stackPush img (Vm.makeFunc (img.moduleFunc k))) (fetched t) ⟨⟩ u :=
    returns_push room
  have same : SameFrame t u := ⟨rfl, rfl, rfl, rfl⟩
  have remains : Remains s (s.alloc (.closure args body ρ)) := remains_alloc _
  have low := here.frame.low
  have stack : ∀ i < t.thread.opStackIdx, u.thread.opstack i = t.thread.opstack i :=
    fun i below => Function.update_of_ne (Nat.ne_of_lt below) ..
  have frame : Frame img st l f ρ bottom L (s.alloc (.closure args body ρ)) u :=
    here.frame.later (.refl L) remains (.refl _) same (fun i inside => stack i (by omega))
      (Nat.le_succ_of_le low)
  refine ⟨u, ran, ⟨here.rel.more remains (fun _ _ => id) here.rel.sound, frame,
    congrArg (· + 1) here.opcode, here.control⟩, ?_, rfl, stack, rfl, rfl⟩
  refine ⟨s.top, args, body, ρ, k, rfl, Function.update_self .., ?_, ?_⟩
  · simp [State.get, State.alloc, State.top]
  · exact here.frame.code snug coded.part lambda

/-- The thread behind FUNC_CALL. -/
def calls (t : Vm.State) (n : Nat) : Vm.State :=
  { dropped (fetched t) 1 with
    control := .dispatch (t.thread.opstack (t.thread.opStackIdx - 1)) n }

theorem goes_call (there : Here img st T l f ρ bottom L s t j) {n : Nat}
    (code : f.code[j]? = some ⟨.funcCall, n⟩) (some : 0 < t.thread.opStackIdx) :
    Goes img N t fun t' => t' = calls t n := by
  have next : t.func.code[t.opcode]? = .some ⟨.funcCall, n⟩ := by
    rw [there.frame.func, there.opcode]
    exact code
  apply goes_instruction there.control next
  intro _ _
  refine ⟨calls t n, ?_, rfl⟩
  have popped : Returns Vm.stackPop (fetched t) (t.thread.opstack (t.thread.opStackIdx - 1))
      (dropped (fetched t) 1) := returns_pop some
  have set : Returns (Vm.modify fun s => { s with
      control := .dispatch (t.thread.opstack (t.thread.opStackIdx - 1)) n }) (dropped (fetched t) 1) ⟨⟩
      (calls t n) := Vm.returns_modify.mpr rfl
  simp only [Vm.execute]
  rw [returns_after popped]
  exact set

/-- The arguments of a call have been left on the stack. -/
structure Passed (img : Vm.Image) (st : Statics) (T : Tables) (l : Lambda) (f : IFunc) (ρ : Env)
    (bottom : Nat) (fv : Value) (vs : List Value) (L : Link) (s' : State) (t t' : Vm.State) (j : Nat) :
    Prop where
  link : ∃ L', L.Adds L' ∧ Here img st T l f ρ bottom L' s' t' j ∧ ∀ (k : Nat) v, vs[k]? = some v →
    ArgumentIs img st T L' s' t' fv k v (t'.thread.opstack (t.thread.opStackIdx + k))
  idx : t'.thread.opStackIdx = t.thread.opStackIdx + vs.length

theorem contSafe_builtin {x : Symbol} (safe : contSafe x = true) : x ∈ builtinNames := by
  unfold contSafe lookupBuiltin at safe
  split at safe
  · rename_i b found
    have name := List.find?_some found
    rw [beq_iff_eq] at name
    exact List.mem_map.mpr ⟨b, List.mem_of_find?_eq_some found, name⟩
  · cases safe

theorem lookup_builtin (here : Here img st T l f ρ bottom L s t i) {x : Symbol}
    (known : x ∈ builtinNames) (s' : State) : lookupVar ρ s' x = some (.atom (.prim x)) := by
  have absent : ρ x = none := here.frame.within.absent x
    fun frame member inside => here.frame.within.hidden frame member x inside
      (List.mem_cons_of_mem _ known)
  rw [lookupVar, absent]
  exact if_pos known

theorem simples_remain {ns : List Node} {vs : List Value}
    (value : evalSimples W ρ ns s = some (vs, s')) : Remains s s' :=
  grown_remains (evalSimples_grown (fun _ _ _ _ _ => evalSimple_grown) value)

theorem optimizeCont_shape {g : Node} {args : List Node} (passes : optimizeCont g args = true) :
    ∃ x params body rest, g = .sym x ∧ args = .lambda params body :: rest ∧ contSafe x = true := by
  unfold optimizeCont at passes
  split at passes
  · rename_i x a rest
    rw [Bool.and_eq_true] at passes
    cases a with
    | lambda params body => exact ⟨x, params, body, rest, rfl, rfl, passes.2⟩
    | _ => cases passes.1
  · cases passes

theorem goes_args (here : Here img st T l f ρ bottom L s t i) (installed : Installed img st T)
    (snug : Snug l f) {g : Node} {args : List Node} {fv : Value} {vs : List Value} {s₁ s₂ : State}
    (coded : CodedAll T f l (passedBare g args (bareAll args)) args i j)
    (operands : evalSimples W ρ args s = some (vs, s₁))
    (operator : evalSimple W ρ g s₁ = some (fv, s₂)) (compares : comparesAll W ρ args s = true) :
    Goes img N t fun t' => Passed img st T l f ρ bottom fv vs L s₁ t t' j := by
  by_cases passes : optimizeCont g args = true
  · rw [passedBare, if_pos passes] at coded
    obtain ⟨x, params, body, rest, rfl, rfl, safe⟩ := optimizeCont_shape passes
    simp only [evalSimple, lookup_builtin here (contSafe_builtin safe), Option.map_some,
      Option.some.injEq, Prod.mk.injEq] at operator
    simp only [evalSimples, evalSimple, Option.bind_eq_bind, Option.bind_some,
      Option.bind_eq_some_iff, Prod.exists, Option.pure_def, Option.some.injEq,
      Prod.mk.injEq] at operands
    obtain ⟨us, s₃, others, rfl, rfl⟩ := operands
    simp only [comparesAll, comparesWords, Bool.true_and, evalSimple] at compares
    have shape : ShapeAt f ([true] ++ bareAll rest) i := coded.shape
    obtain ⟨m, first, code⟩ := coded.code
    have next : m = i + 1 := codeOf_length _ i m first
    subst next
    obtain ⟨here', there'⟩ := shape_append shape
    apply (goes_bare here snug ⟨first, here', coded.parts _ (by simp)⟩).bind
    intro t₁ loaded
    apply (evaluates_all (fun n _ => evaluates installed snug n) loaded.here
      ⟨code, there', fun y member => coded.parts y (by simp [member])⟩ others compares).mono
    intro t₂ results
    obtain ⟨L₂, adds, there, values⟩ := results.link
    have start := loaded.idx
    refine ⟨⟨L₂, adds, there, ?_⟩, ?_⟩
    · intro k v given
      cases k with
      | zero =>
        cases given
        have same : t₂.thread.opstack t.thread.opStackIdx =
            t₁.thread.opstack t.thread.opStackIdx := results.stack _ (by omega)
        refine .bare operator.1.symm rfl ?_
        rw [Nat.add_zero, same]
        exact bareIs_later loaded.bare adds.grows (simples_remain others) results.grows
          results.same.env
      | succ k =>
        have value := values k v given
        rw [start, Nat.add_assoc, Nat.add_comm 1 k] at value
        exact .value value
    · rw [results.idx, start, List.length_cons]
      omega
  · rw [passedBare, if_neg passes] at coded
    apply (evaluates_all (fun n _ => evaluates installed snug n) here coded operands compares).mono
    intro t₁ results
    obtain ⟨L₁, adds, there, values⟩ := results.link
    exact ⟨⟨L₁, adds, there, fun k v given => .value (values k v given)⟩, results.idx⟩

/-- The operator of a call has been left on the stack. -/
structure Operator (img : Vm.Image) (st : Statics) (T : Tables) (l : Lambda) (f : IFunc) (ρ : Env)
    (bottom : Nat) (v : Value) (L : Link) (s' : State) (t t' : Vm.State) (j : Nat) : Prop where
  link : ∃ L', L.Grows L' ∧ Here img st T l f ρ bottom L' s' t' j ∧
    Denotes img st T L' s' t' v (t'.thread.opstack t.thread.opStackIdx)
  idx : t'.thread.opStackIdx = t.thread.opStackIdx + 1
  stack : ∀ k < t.thread.opStackIdx, t'.thread.opstack k = t.thread.opstack k
  env : t'.thread.env = t.thread.env
  extends' : Extends t.heap t'.heap

theorem goes_operator (here : Here img st T l f ρ bottom L s t i) (installed : Installed img st T)
    (snug : Snug l f) {g : Node} {fv : Value} (coded : Coded T f l (calledBare g (bare g)) g i j)
    (lambda : startsWithLambda g = true → isLambda g = true)
    (operator : evalSimple W ρ g s = some (fv, s')) (compares : comparesWords W ρ g s = true) :
    Goes img N t fun t' => Operator img st T l f ρ bottom fv L s' t t' j := by
  by_cases starts : startsWithLambda g = true
  · rw [calledBare, if_pos starts] at coded
    have shape := lambda starts
    cases g with
    | lambda params body =>
      simp only [evalSimple, Option.some.injEq, Prod.mk.injEq] at operator
      obtain ⟨rfl, rfl⟩ := operator
      apply (goes_bare here snug coded).mono
      intro t₁ loaded
      refine ⟨⟨L, .refl L, loaded.here, .bare loaded.bare⟩, loaded.idx, loaded.stack, loaded.env, ?_⟩
      rw [loaded.heap]
      exact .refl _
    | _ => cases shape
  · rw [calledBare, if_neg starts] at coded
    apply (evaluates installed snug g L s s' t i j fv here coded operator compares).mono
    intro t₁ results
    obtain ⟨L₁, adds, there, values⟩ := results.link
    exact ⟨⟨L₁, adds.grows, there, .value (values 0 fv rfl)⟩, results.idx, results.stack,
      results.same.env, results.grows⟩

theorem argumentIs_later {L' : Link} {fv : Value} {k w : Nat}
    (is : ArgumentIs img st T L s t fv k v w) (grows : L.Grows L') (remains : Remains s s')
    (extends' : Extends t.heap t'.heap) (env : t'.thread.env = t.thread.env) :
    ArgumentIs img st T L' s' t' fv k v w := by
  cases is with
  | value is => exact .value (is.grow grows)
  | bare builtin first is => exact .bare builtin first (bareIs_later is grows remains extends' env)

theorem simples_length {ns : List Node} {vs : List Value}
    (value : evalSimples W ρ ns s = some (vs, s')) : vs.length = ns.length := by
  induction ns generalizing vs s with
  | nil =>
    cases value
    rfl
  | cons n ns ih =>
    simp only [evalSimples, Option.bind_eq_bind, Option.bind_eq_some_iff, Prod.exists,
      Option.pure_def, Option.some.injEq, Prod.mk.injEq] at value
    obtain ⟨u, s₁, _, us, s₂, rest, rfl, rfl⟩ := value
    rw [List.length_cons, List.length_cons, ih rest]

theorem goes_callee {L₁ : Link} {t₁ t₂ : Vm.State} {fv : Value} {vs : List Value} {s₁ s₂ : State}
    (idx : t₁.thread.opStackIdx = t.thread.opStackIdx + vs.length)
    (values : ∀ (k : Nat) v, vs[k]? = some v →
      ArgumentIs img st T L₁ s₁ t₁ fv k v (t₁.thread.opstack (t.thread.opStackIdx + k)))
    (result : Operator img st T l f ρ bottom fv L₁ s₂ t₁ t₂ j) (remains : Remains s₁ s₂)
    (call : f.code[j]? = some ⟨.funcCall, vs.length⟩) : Goes img N t₂ (Calling img st T fv vs s₂) := by
  obtain ⟨L₂, grows, there', callee⟩ := result.link
  have idx' := result.idx
  apply (goes_call there' call (by omega)).mono
  intro t₃ same
  subst same
  have top : t₂.thread.opStackIdx - 1 = t₁.thread.opStackIdx := by omega
  rw [← top] at callee
  refine ⟨t₂.thread.opstack (t₂.thread.opStackIdx - 1), L₂, rfl, there'.rel, ?_, ?_, ?_⟩
  · cases callee with
    | value is => exact .value is
    | bare is => exact .bare (bareIs_later is (.refl L₂) (fun _ _ => id) (.refl _) rfl)
  · simp only [calls, dropped, fetched]
    omega
  · intro k v given
    have inside := (List.getElem?_eq_some_iff.mp given).1
    have word : (calls t₂ vs.length).thread.opstack
        ((calls t₂ vs.length).thread.opStackIdx - vs.length + k) =
        t₁.thread.opstack (t.thread.opStackIdx + k) := by
      simp only [calls, dropped, fetched, top, idx]
      rw [show t.thread.opStackIdx + vs.length - vs.length + k = t.thread.opStackIdx + k by omega]
      exact result.stack _ (by omega)
    rw [word]
    exact argumentIs_later (values k v given) grows remains result.extends' result.env

theorem not_calling (here : Here img st T l f ρ bottom L s t i) {fv : Value} {vs : List Value}
    {s₂ : State} : ¬ Calling img st T fv vs s₂ t := by
  intro calling
  obtain ⟨fp, L', control, _⟩ := calling.call
  rw [here.control] at control
  cases control

theorem goes_builtin (here : Here img st T l f ρ bottom L s t i) (installed : Installed img st T)
    (snug : Snug l f) {g cont : Node} {x : Symbol} {args : List Node} {vs : List Value} {s₁ : State}
    (builtin : isBuiltinCall g = true)
    (coded : Coded T f l (bare (.app g (cont :: .sym x :: args))) (.app g (cont :: .sym x :: args)) i j)
    (operands : evalSimples W ρ (cont :: args) s = some (vs, s₁))
    (compares : comparesAll W ρ (cont :: args) s = true) :
    Advances img N t (Calling img st T (.atom (.prim x)) vs s₁) := by
  refine Leads.To.later ?_ (not_calling here)
  obtain ⟨cont', x', args', m, k, same, all, load, const, call⟩ := coded.builtin builtin
  simp only [List.cons.injEq, Node.sym.injEq] at same
  obtain ⟨rfl, rfl, rfl⟩ := same
  apply (evaluates_all (fun n _ => evaluates installed snug n) here all operands compares).bind
  intro t₁ results
  obtain ⟨L₁, adds, there, values⟩ := results.link
  apply (there.const installed load const fun w constant => by
    obtain ⟨⟨n, known⟩, rfl⟩ := constant
    exact .prim known).bind
  intro t₂ loaded
  obtain ⟨L₂, adds', there', value⟩ := loaded.link
  have result : Operator img st T l f ρ bottom (.atom (.prim x)) L₁ s₁ t₁ t₂ (m + 1) :=
    ⟨⟨L₂, adds'.grows, there', .value (value 0 _ rfl)⟩, loaded.idx, loaded.stack, loaded.same.env,
      loaded.grows⟩
  apply goes_callee results.idx (fun k v given => .value (values k v given)) result fun _ _ => id
  rw [simples_length operands]
  exact call

theorem goes_app (here : Here img st T l f ρ bottom L s t i) (installed : Installed img st T)
    (snug : Snug l f) {g : Node} {args : List Node} {fv : Value} {vs : List Value} {s₁ s₂ : State}
    (other : isOperator g = false) (named : isBuiltinCall g = false)
    (coded : Coded T f l (bare (.app g args)) (.app g args) i j)
    (operands : evalSimples W ρ args s = some (vs, s₁))
    (operator : evalSimple W ρ g s₁ = some (fv, s₂)) (compares : comparesAll W ρ args s = true)
    (compares' : comparesWords W ρ g s₁ = true) :
    Advances img N t (Calling img st T fv vs s₂) := by
  refine Leads.To.later ?_ (not_calling here)
  obtain ⟨m, n, first, second, call, lambda⟩ := coded.call other named
  apply (goes_args here installed snug first operands operator compares).bind
  intro t₁ passed
  obtain ⟨L₁, adds, there, values⟩ := passed.link
  apply (goes_operator there installed snug second lambda operator compares').bind
  intro t₂ result
  apply goes_callee passed.idx values result (grown_remains (evalSimple_grown operator))
  rw [simples_length operands]
  exact call

end forms

end LGears.VmForms
