import LGears.CpsMachine
import LGears.VmEntry

/- A call of a closure enters its function. -/
namespace LGears.VmCalls
open PrimitivesInfo Opcode Compiler CodeTables CodeShape CodeEmitted Values StateExcept VmValues
open VmHeap VmTests VmObjects VmMoves VmCode VmEval VmBinding VmEntry Renaming
open Gc hiding State Slot copied Holds

/- Functions of the module and words for them. -/
section functions
variable {img : Vm.Image} {st : Statics} {T : Tables} {L : Link} {s : State} {t : Vm.State}

theorem inter_moduleFunc (k : Nat) : img.inter (img.moduleFunc k) = img.functions[k]? := by
  unfold Vm.Image.inter Vm.Image.moduleFunc
  rw [Nat.add_sub_cancel_left, Nat.mul_mod_left, Nat.mul_div_cancel _ (by decide)]
  exact if_pos ⟨Nat.le_add_right _ _, rfl⟩

theorem moduleFunc_aligned (resolved : Resolved img st) (k : Nat) : img.moduleFunc k % 8 = 0 := by
  have base := resolved.base
  unfold Vm.Image.moduleFunc Vm.FUNC_SIZE
  omega

theorem ptr_makeFunc {a : Nat} (aligned : a % 8 = 0) : ptr (Vm.makeFunc a) = a := by
  unfold ptr Vm.makeFunc ErrorHandlers.tagFunc
  omega

theorem makeFunc_heap (a : Nat) : isHeapPtr (Vm.makeFunc a) = false := by
  rw [isHeapPtr, func_mod]
  rfl

theorem makeHeapPtr_heap (mem : Nat) : isHeapPtr (makeHeapPtr mem) = true := by
  rw [isHeapPtr, heapPtr_mod]
  rfl

theorem no_argsError {f : IFunc} {args : Formals} {vs : List Value} {ρ ρ₁ : Env} {s₁ : State}
    (argc : f.argc = args.fixed.length) (swallow : f.swallow = args.rest.isSome)
    (bound : bindArgs args vs ρ s = some (ρ₁, s₁)) :
    Vm.argsError ⟨f.argc, f.swallow⟩ vs.length = none := by
  unfold bindArgs at bound
  simp only [Option.bind_eq_bind, Option.bind_eq_some_iff, Prod.exists] at bound
  obtain ⟨left, ρ₂, s₂, fixed, same⟩ := bound
  obtain ⟨few, rfl, rfl, rfl⟩ := bindFixed_cells fixed
  unfold Vm.argsError
  cases rest : args.rest with
  | none =>
    rw [rest] at same swallow
    dsimp only at same
    split_ifs at same with empty
    rw [List.isEmpty_iff, List.drop_eq_nil_iff] at empty
    have all : (vs.length : Int) = f.argc := by omega
    simp only [swallow, Option.isSome_none, Bool.false_eq_true, if_false, all, ne_eq,
      not_true_eq_false]
  | some r =>
    rw [rest] at swallow
    have enough : ¬ (vs.length : Int) < f.argc := by omega
    simp only [swallow, Option.isSome_some, if_true, enough, if_false]

end functions

section calls
variable (img : Vm.Image) (st : Statics) (T : Tables) (L : Link) (s : State) (t : Vm.State)

/-- The word is the function of a closure that finds its variables in the current environment. -/
structure BareIs (v : Value) (w : Nat) : Prop where
  code : ∃ n args body ρ k, v = .proc n ∧ w = Vm.makeFunc (img.moduleFunc k) ∧
    s.get n = some (.closure args body ρ) ∧ CodeFor T L t.heap k t.thread.env args body ρ

/-- The word stands for the value, which may be a function without an environment. -/
inductive Denotes (v : Value) (w : Nat) : Prop where
  | value (is : ValueIs img st L v w)
  | bare (is : BareIs img T L s t v w)

/-- The word is argument i of a call of the function: a builtin may get its continuation without an
    environment. -/
inductive ArgumentIs (fv : Value) (i : Nat) (v : Value) (w : Nat) : Prop where
  | value (is : ValueIs img st L v w)
  | bare {x : Symbol} (builtin : fv = .atom (.prim x)) (first : i = 0) (is : BareIs img T L s t v w)

end calls

/-- The thread is about to call the function with the arguments. -/
structure Calling (img : Vm.Image) (st : Statics) (T : Tables) (fv : Value) (vs : List Value)
    (s : State) (t : Vm.State) : Prop where
  call : ∃ fp L, t.control = .dispatch fp vs.length ∧ Represents img st T L s t.heap ∧
    Denotes img st T L s t fv fp ∧ vs.length ≤ t.thread.opStackIdx ∧ ∀ (i : Nat) v, vs[i]? = some v →
      ArgumentIs img st T L s t fv i v (t.thread.opstack (t.thread.opStackIdx - vs.length + i))

/-- The code at i is that of the forms; behind a branch it goes on after the other one. -/
inductive Forms (T : Tables) (f : IFunc) (l : Lambda) : List Node → Nat → Prop where
  | nil {i : Nat} : Forms T f l [] i
  | cons {x : Node} {xs : List Node} {i j : Nat} (coded : Coded T f l (bare x) x i j)
      (rest : Forms T f l xs j) : Forms T f l (x :: xs) i
  | jump {xs : List Node} {i n : Nat} (code : f.code[i]? = some ⟨.jumpForward, n⟩)
      (rest : Forms T f l xs (i + 1 + n)) : Forms T f l xs i

/-- The thread runs the forms with the variables of ρ. -/
structure Running (img : Vm.Image) (st : Statics) (T : Tables) (forms : List Node) (ρ : Env)
    (s : State) (t : Vm.State) : Prop where
  place : ∃ l f bottom L i, Snug l f ∧ Here img st T l f ρ bottom L s t i ∧ Forms T f l forms i

section entry
variable {img : Vm.Image} {st : Statics} {T : Tables} {N : Natives img} {L : Link} {s : State}
  {t : Vm.State} {f : IFunc} {l : Lambda}

theorem forms_coded {xs : List Node} {i j : Nat} (coded : CodedAll T f l (bareAll xs) xs i j) :
    Forms T f l xs i := by
  induction xs generalizing i with
  | nil => exact .nil
  | cons x xs ih =>
    obtain ⟨m, first, rest⟩ := codedAll_cons coded
    exact .cons first (ih rest)

theorem forms_body (func : FuncOf T l f) (snug : Snug l f)
    (tamed : VmCode.tame (.lambda l.args l.body) = true) : Forms T f l (bodyForms l.body) 0 := by
  rw [VmCode.tame, Bool.and_eq_true, tameAll_iff] at tamed
  apply forms_coded (j := f.code.length)
  refine ⟨func.code, ?_, ?_⟩
  · rw [ShapeAt, List.drop_zero, snug.code]
  · intro x member
    have inside := bodyForms_subset _ member
    constructor
    · intro y free
      exact mem_freeAll.mpr ⟨x, inside, free⟩
    · intro y caught
      exact mem_caughtAll.mpr ⟨x, inside, caught⟩
    · exact tamed.2 x inside

/-- The registers behind the switch on the tag of a function of the module. -/
def targeted (t : Vm.State) (env closure : Nat) : Vm.State :=
  { t with bindmap := none, thread := { t.thread with env := env, closure := closure } }

theorem returns_target (installed : Installed img st T) (rel : Represents img st T L s t.heap)
    {n fp : Nat} {args : Formals} {body : List Node} {ρ : Env}
    (callee : Denotes img st T L s t (.proc n) fp) (closure : s.get n = some (.closure args body ρ)) :
    ∃ k f env c, img.functions[k]? = some f ∧ CodeFor T L t.heap k env args body ρ ∧
      VmMoves.callee img t.heap fp = some f ∧ ∀ opArg, Returns (Vm.target img fp opArg) t
        (.function (img.moduleFunc k)) (targeted t env c) := by
  cases callee with
  | value is =>
    cases is with
    | @proc _ mem at' =>
      obtain ⟨args', body', ρ', k, b, closure', placed, func, code⟩ := (rel.proc n mem at').closure
      rw [closure, Option.some.injEq, Obj.closure.injEq] at closure'
      obtain ⟨rfl, rfl, rfl⟩ := closure'
      obtain ⟨scope, lambda, _⟩ := code.found
      obtain ⟨f, is, _⟩ := installed.functions k _ lambda
      have inter : img.inter (b.words 1) = some f := by rw [func, inter_moduleFunc, is]
      have here : t.heap.cells (hdrOf (makeHeapPtr mem)) = some b := by
        rw [hdrOf_heapPtr placed.aligned, placed.block]
      refine ⟨k, f, b.words 0, ptr (makeHeapPtr mem), is, code, ?_, ?_⟩
      · rw [VmMoves.callee, if_pos (makeHeapPtr_heap mem), here]
        exact inter
      · intro opArg
        have set : Returns (Vm.modify fun s => { s with
            bindmap := none
            thread := { s.thread with env := b.words 0, closure := ptr (makeHeapPtr mem) } }) t ⟨⟩
            (targeted t (b.words 0) (ptr (makeHeapPtr mem))) := Vm.returns_modify.mpr rfl
        unfold Vm.target
        rw [if_pos (makeHeapPtr_heap mem), returns_after (Vm.returns_get.mpr ⟨rfl, rfl⟩),
          returns_after (Vm.returns_ofOption.mpr ⟨here, rfl⟩), placed.type]
        dsimp only
        rw [returns_after (Vm.returns_ofOption.mpr ⟨inter, rfl⟩), returns_after set, returns_pure, func]
        exact ⟨rfl, rfl⟩
  | bare is =>
    obtain ⟨n', args', body', ρ', k, same, rfl, closure', code⟩ := is.code
    cases same
    rw [closure, Option.some.injEq, Obj.closure.injEq] at closure'
    obtain ⟨rfl, rfl, rfl⟩ := closure'
    obtain ⟨scope, lambda, _⟩ := code.found
    obtain ⟨f, is, _⟩ := installed.functions k _ lambda
    have plain : ¬ isHeapPtr (Vm.makeFunc (img.moduleFunc k)) = true := by
      rw [makeFunc_heap]
      exact Bool.false_ne_true
    have func := ptr_makeFunc (moduleFunc_aligned installed.resolved k)
    refine ⟨k, f, t.thread.env, 0, is, code, ?_, ?_⟩
    · rw [VmMoves.callee, if_neg plain, func, inter_moduleFunc, is]
    · intro opArg
      have set : Returns (Vm.modify fun s => { s with
          bindmap := none
          thread := { s.thread with closure := 0 } }) t ⟨⟩ (targeted t t.thread.env 0) :=
        Vm.returns_modify.mpr rfl
      unfold Vm.target
      rw [if_neg plain, if_pos (func_mod _), returns_after set, returns_pure, func]
      exact ⟨rfl, rfl⟩

theorem enters (installed : Installed img st T) {n : Nat} {args : Formals} {body : List Node}
    {ρ ρ₁ : Env} {vs : List Value} {s₁ : State} (calling : Calling img st T (.proc n) vs s t)
    (closure : s.get n = some (.closure args body ρ))
    (bound : bindArgs args vs ρ s = some (ρ₁, s₁)) :
    Advances img N t (Running img st T (bodyForms body) (bindNames (extendNames body) ρ₁ s₁).1
      (bindNames (extendNames body) ρ₁ s₁).2) := by
  obtain ⟨fp, L, control, rel, callee, enough, words⟩ := calling.call
  obtain ⟨k, f, env, c, is, code, leads, target⟩ := returns_target installed rel callee closure
  by_cases full : t.thread.opStackIdx + 1 < img.opStackSize
  · by_cases memory : demand img t ≤ t.heap.fresh.freeMem
    · rw [demand, control] at memory
      simp only [leads, Int.toNat_natCast] at memory
      let t₁ : Vm.State := { targeted t env c with opcode := 0, control := .opcode }
      have values : WordsAre img st L vs t₁.thread.opstack (t₁.thread.opStackIdx - vs.length) := by
        intro i v given
        cases words i v given with
        | value is => exact is
        | bare builtin => cases builtin
      obtain ⟨scope, t₂, m, L', func, snug, ran, rel', frame, opcode, control'⟩ :=
        returns_enterInterp (t := t₁) installed code is rel values enough full memory bound rfl
      have called : Returns (Vm.callFunc img m (img.moduleFunc k) vs.length) (targeted t env c) none
          t₂ := by
        have inter : img.inter (img.moduleFunc k) = some f := by rw [inter_moduleFunc, is]
        have hdr : img.hdr (img.moduleFunc k) = some ⟨f.argc, f.swallow⟩ := by
          rw [Vm.Image.hdr, inter]
        have set : Returns (Vm.modify fun s => { s with opcode := 0, control := .opcode })
            (targeted t env c) ⟨⟩ t₁ := Vm.returns_modify.mpr rfl
        unfold Vm.callFunc
        rw [returns_after (Vm.returns_ofOption.mpr ⟨hdr, rfl⟩),
          no_argsError func.argc func.swallow bound]
        dsimp only
        rw [inter]
        dsimp only
        rw [Int.toNat_natCast, returns_after set, returns_after (ran m (Nat.le_refl m)), returns_pure]
        exact ⟨rfl, rfl⟩
      have moves : Moves img N t t₂ := by
        refine Moves.dispatch control (?_ : Returns (Vm.dispatchFunc img m _ _) _ _ _)
        unfold Vm.dispatchFunc
        rw [returns_after (target _)]
        exact called
      apply Leads.Later.next moves
      apply Leads.To.here
      refine ⟨⟨scope, args, body⟩, f, _, L', 0, snug, ⟨rel', frame, opcode, control'⟩, ?_⟩
      exact forms_body func snug code.tame
    · exact .stop (.heap (Nat.lt_of_not_le memory))
  · exact .stop (.stack (Nat.le_of_not_lt full))

end entry

end LGears.VmCalls
