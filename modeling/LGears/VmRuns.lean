import LGears.CompiledMachine
import LGears.VmForms

/- Runs of the machine follow the runs of the program that has been compiled. -/
namespace LGears.VmRuns
open PrimitivesInfo Opcode Compiler CodeTables CodeShape CodeEmitted Values StateExcept VmValues
open VmHeap VmTests VmObjects VmMoves VmCode VmEval VmBinding VmEntry VmCalls VmForms Renaming
open CompiledMachine Machine Cps
open CpsMachine hiding step
open Gc hiding State Slot copied Holds

/- Builtins. -/

/-- A builtin has left its value on the stack. -/
structure Answers (img : Vm.Image) (st : Statics) (T : Tables) (L : Link) (v : Value) (s' : State)
    (t t' : Vm.State) : Prop where
  link : ∃ L', L.Grows L' ∧ Represents img st T L' s' t'.heap ∧
    ValueIs img st L' v (t'.thread.opstack t.thread.opStackIdx)
  idx : t'.thread.opStackIdx = t.thread.opStackIdx + 1
  stack : ∀ i < t.thread.opStackIdx, t'.thread.opstack i = t.thread.opstack i
  env : t'.thread.env = t.thread.env
  extends' : Extends t.heap t'.heap

/-- The builtins of the process with these names do what those of the world do, as long as they need
    no collection. -/
structure AgreesOn (names : Symbol → Prop) (img : Vm.Image) (st : Statics) (W : World)
    (N : Natives img) : Prop where
  count : ∀ x n vs s v s', (x, n) ∈ globals → names x → x ≠ "__exit" →
    callBuiltin W x vs s = some (v, s') → Vm.argsError n.hdr (vs.length + 1 : Nat) = none
  answers : ∀ T L x n vs s v s' t, (x, n) ∈ globals → names x → x ≠ "__exit" →
    callBuiltin W x vs s = some (v, s') → Represents img st T L s t.heap →
    vs.length + 1 ≤ t.thread.opStackIdx →
    WordsAre img st L vs t.thread.opstack (t.thread.opStackIdx - vs.length) →
    N.short n (vs.length + 1 : Nat) t ∨ ∃ t',
      N.run n (vs.length + 1 : Nat) t = some t' ∧ Answers img st T L v s' t t'

/-- All builtins do. -/
abbrev Agrees (img : Vm.Image) (st : Statics) (W : World) (N : Natives img) : Prop :=
  AgreesOn (fun _ => True) img st W N

section builtins
variable {img : Vm.Image} {st : Statics} {T : Tables} {N : Natives img} {W : World} {L : Link}
  {s s' : State} {t : Vm.State}

theorem build_remains (s : State) (a : Answer) : Remains s (s.build a).2 := by
  induction a generalizing s with
  | value v => exact fun _ _ => id
  | fresh kind => exact remains_alloc _
  | cons a d iha ihd =>
    intro l o here
    simp only [State.build, State.cons]
    exact remains_alloc _ _ _ (iha _ _ _ (ihd s l o here))

theorem callBuiltin_remains {x : Symbol} {vs : List Value} {v : Value}
    (call : callBuiltin W x vs s = some (v, s')) : Remains s s' := by
  unfold callBuiltin at call
  split at call
  · cases call
  · rename_i answer _
    have remains := build_remains s answer
    simp only [Option.some.injEq, Prod.mk.injEq] at call
    obtain ⟨rfl, rfl⟩ := call
    split
    · exact remains
    · exact remains

theorem returns_native {a : Nat} {n : Vm.Native} {opArg : Int} (aligned : a % 8 = 0)
    (apart : img.inter a = none) (native : img.natives a = some n)
    (count : Vm.argsError n.hdr opArg = none) (fuel : Nat) :
    Returns (Vm.dispatchFunc img fuel (Vm.makeFunc a) opArg) t (some n)
      (targeted t t.thread.env 0) := by
  have plain : ¬ isHeapPtr (Vm.makeFunc a) = true := by
    rw [makeFunc_heap]
    exact Bool.false_ne_true
  have func := ptr_makeFunc aligned
  have hdr : img.hdr a = some n.hdr := by
    rw [Vm.Image.hdr, apart, native]
    rfl
  have set : Returns (Vm.modify fun s => { s with
      bindmap := none
      thread := { s.thread with closure := 0 } }) t ⟨⟩ (targeted t t.thread.env 0) :=
    Vm.returns_modify.mpr rfl
  have target : Returns (Vm.target img (Vm.makeFunc a) opArg) t (.function a)
      (targeted t t.thread.env 0) := by
    unfold Vm.target
    rw [if_neg plain, if_pos (func_mod _), returns_after set, returns_pure, func]
    exact ⟨rfl, rfl⟩
  have called : Returns (Vm.callFunc img fuel a opArg) (targeted t t.thread.env 0) (some n)
      (targeted t t.thread.env 0) := by
    unfold Vm.callFunc
    rw [returns_after (Vm.returns_ofOption.mpr ⟨hdr, rfl⟩), count]
    dsimp only
    rw [apart, native]
    exact rfl
  unfold Vm.dispatchFunc
  rw [returns_after target]
  exact called

theorem answers (resolved : Resolved img st) (agrees : Agrees img st W N) {x : Symbol} {κ v : Value}
    {vs : List Value} (calling : Calling img st T (.atom (.prim x)) (κ :: vs) s t)
    (other : x ≠ "__exit") (call : callBuiltin W x vs s = some (v, s')) :
    Advances img N t (Calling img st T κ [v] s') := by
  obtain ⟨fp, L, control, rel, denotes, enough, words⟩ := calling.call
  rw [List.length_cons] at enough control words
  cases denotes with
  | bare is =>
    obtain ⟨_, _, _, _, _, same, _⟩ := is.code
    cases same
  | value is =>
    cases is with
    | @prim _ n known =>
      have values : WordsAre img st L vs t.thread.opstack (t.thread.opStackIdx - vs.length) := by
        intro i u given
        have word := words (i + 1) u given
        rw [show t.thread.opStackIdx - (vs.length + 1) + (i + 1) =
          t.thread.opStackIdx - vs.length + i by omega] at word
        cases word with
        | value is => exact is
        | bare _ first => cases first
      have count := agrees.count x n vs s v s' known trivial other call
      have ran : ∀ fuel, Returns (Vm.dispatchFunc img fuel (Vm.makeFunc (st.builtin x))
          (vs.length + 1 : Nat)) t (some n) (targeted t t.thread.env 0) :=
        returns_native (resolved.aligned x n known) (resolved.apart x n known)
          (resolved.native x n known) count
      rcases agrees.answers T L x n vs s v s' (targeted t t.thread.env 0) known trivial other call rel
        enough values with short | ⟨t', called, answered⟩
      · exact .stop (.native control (ran 0) short)
      · obtain ⟨L', grows, rel', is⟩ := answered.link
        have idx : t'.thread.opStackIdx = t.thread.opStackIdx + 1 := answered.idx
        apply Leads.Later.next (.returns control (ran 0) called)
        apply Leads.To.here
        refine ⟨_, L', rfl, rel', ?_, ?_, ?_⟩
        · have same : t'.thread.opstack (t.thread.opStackIdx - (vs.length + 1)) =
              t.thread.opstack (t.thread.opStackIdx - (vs.length + 1) + 0) :=
            answered.stack _ (by simp only [targeted]; omega)
          simp only [targeted, Int.toNat_natCast, same]
          cases words 0 κ rfl with
          | value is => exact .value (is.grow grows)
          | bare _ _ is =>
            have later := bareIs_later is grows (callBuiltin_remains call) answered.extends' answered.env
            exact .bare ⟨later.code⟩
        · simp only [List.length_singleton]
          omega
        · intro i u given
          cases i with
          | zero =>
            cases given
            simp only [List.length_singleton, idx, Nat.add_sub_cancel]
            exact .value is
          | succ i => simp at given

end builtins

/- Steps. -/

/-- What a call by name computes. -/
def namedOperands : List Node → List Node
  | cont :: _ :: args => cont :: args
  | _ => []

/-- Whether every `$eq?` of the next form can be decided by words. -/
def comparesConfig (W : World) : Config → Bool
  | .code (.set _ value :: _) ρ s => comparesWords W ρ value s
  | .code (.ite pred _ _ :: _) ρ s => comparesWords W ρ pred s
  | .code (.app func args :: _) ρ s =>
    if isBuiltinCall func then comparesAll W ρ (namedOperands args) s
    else comparesAll W ρ args s && match evalSimples W ρ args s with
      | some (_, s) => comparesWords W ρ func s
      | none => true
  | _ => true

/-- The thread is where the program is. -/
def Matches (img : Vm.Image) (st : Statics) (T : Tables) : Config → Vm.State → Prop
  | .code body ρ s, t => Running img st T (bodyForms body) (bindNames (extendNames body) ρ s).1
      (bindNames (extendNames body) ρ s).2 t
  | .call fv vs s, t => Calling img st T fv vs s t

/-- The thread is about to end with the value. -/
structure Exits (img : Vm.Image) (st : Statics) (T : Tables) (v : Value) (s : State) (t : Vm.State) :
    Prop where
  control : ∃ fp, t.control = .dispatch fp 1 ∧
    ∀ fuel, ∃ u, Returns (Vm.dispatchFunc img fuel fp 1) t (some .vmExit) u
  value : ∃ L, Represents img st T L s t.heap ∧ 0 < t.thread.opStackIdx ∧
    Denotes img st T L s t v (t.thread.opstack (t.thread.opStackIdx - 1))

def Concludes (img : Vm.Image) (st : Statics) (T : Tables) : Final → Vm.State → Prop
  | .done v s, t => Exits img st T v s t
  | .exit v s, t => Exits img st T v s t

section steps
variable {img : Vm.Image} {st : Statics} {T : Tables} {N : Natives img} {W : World} {l : Lambda}
  {f : IFunc} {ρ : Env} {s s' : State} {t : Vm.State} {x : Node} {xs : List Node}

/-- Forms that are not spliced and bind nothing. -/
def plainForm : Node → Bool
  | .begin _ | .extend _ => false
  | _ => true

theorem coded_plain {shape : List Bool} {i j : Nat} (coded : Coded T f l shape x i j) :
    plainForm x = true := by
  have code := coded.code
  cases x with
  | begin | extend =>
    rw [CodeOf] at code
    exact code.elim
  | _ => rfl

theorem forms_plain {i : Nat} (forms : Forms T f l xs i) : xs.all plainForm = true := by
  induction forms with
  | nil => rfl
  | cons coded rest ih => rw [List.all_cons, coded_plain coded, ih, Bool.and_self]
  | jump code rest ih => exact ih

theorem splice_plain (plain : xs.all plainForm = true) : spliceBegin xs = xs := by
  induction xs with
  | nil => rfl
  | cons x xs ih =>
    rw [List.all_cons, Bool.and_eq_true] at plain
    cases x with
    | begin => cases plain.1
    | _ => rw [spliceBegin, spliceNode, ih plain.2]; simp

theorem body_plain (plain : xs.all plainForm = true) : bodyForms xs = xs ∧ extendNames xs = [] := by
  cases xs with
  | nil => exact ⟨rfl, rfl⟩
  | cons x xs =>
    rw [List.all_cons, Bool.and_eq_true] at plain
    cases x with
    | extend => cases plain.1
    | _ => exact ⟨rfl, rfl⟩

theorem matches_start {body : List Node} (runs : Running img st T (bodyForms body)
    (bindNames (extendNames body) ρ s).1 (bindNames (extendNames body) ρ s).2 t) :
    Matches img st T (start body ρ s) t := by
  obtain ⟨l, f, bottom, L, i, snug, here, forms⟩ := runs.place
  have plain := forms_plain forms
  have same : spliceBegin body = body := by
    cases body with
    | nil => rfl
    | cons x xs =>
      cases x with
      | extend names =>
        have rest : spliceBegin xs = xs := splice_plain plain
        rw [spliceBegin, rest, spliceNode]
        simp
      | _ => exact splice_plain plain
  rw [start, same]
  exact runs

theorem matches_forms (runs : Running img st T xs ρ s t) : Matches img st T (start xs ρ s) t := by
  obtain ⟨l, f, bottom, L, i, snug, here, forms⟩ := runs.place
  have plain := body_plain (forms_plain forms)
  apply matches_start
  rw [plain.1, plain.2]
  exact runs

theorem goes_first {L : Link} {bottom i : Nat} (forms : Forms T f l (x :: xs) i)
    (here : Here img st T l f ρ bottom L s t i) : Goes img N t fun t' =>
      ∃ i j, Here img st T l f ρ bottom L s t' i ∧ Coded T f l (bare x) x i j ∧ Forms T f l xs j := by
  generalize same : x :: xs = ys at forms
  induction forms generalizing t with
  | nil => cases same
  | @cons y ys i j coded rest =>
    cases same
    exact .here ⟨i, j, here, coded, rest⟩
  | @jump ys i n code rest ih =>
    have next : t.func.code[t.opcode]? = some ⟨.jumpForward, n⟩ := by
      rw [here.frame.func, here.opcode]
      exact code
    have jumped : Goes img N t fun t' => Here img st T l f ρ bottom L s t' (i + 1 + n) := by
      apply goes_instruction here.control next
      intro _ _
      have ran : Returns (Vm.execute img ⟨.jumpForward, n⟩) (fetched t) ⟨⟩
          { fetched t with opcode := (fetched t).opcode + n } := returns_jump n _
      have frame : SameFrame t { fetched t with opcode := (fetched t).opcode + n } :=
        ⟨rfl, rfl, rfl, rfl⟩
      refine ⟨_, ran, here_moved here frame rfl (fun _ _ => rfl) here.frame.low ?_ here.control⟩
      rw [fetched, here.opcode]
    apply jumped.bind
    intro t₁ there
    exact ih there same

theorem goes_form {d : Config} (installed : Installed img st T) (plain : plainForm x = true)
    (runs : Running img st T (x :: xs) ρ s t)
    (compares : comparesConfig W (.code (x :: xs) ρ s) = true)
    (steps : step W (.code (x :: xs) ρ s) = .next d) : Advances img N t (Matches img st T d) := by
  obtain ⟨l, f, bottom, L, k, snug, here, forms⟩ := runs.place
  apply (goes_first forms here).andLater
  intro t₁ found
  obtain ⟨i, j, here₁, coded, rest⟩ := found
  cases x with
  | extend => cases plain
  | begin | const | sym | quote | lambda | define => cases steps
  | set y value =>
    simp only [step, stepCode] at steps
    split at steps
    · rename_i v s₁ evaluated
      split at steps
      · rename_i s₂ put
        cases steps
        apply (goes_set here₁ installed snug coded rest evaluated put compares).mono
        intro t₂ runs
        exact matches_forms runs
      · cases steps
    · cases steps
  | ite p a b =>
    simp only [step, stepCode] at steps
    split at steps
    · rename_i v s₁ evaluated
      cases steps
      apply (goes_branch here₁ installed snug coded rest evaluated compares).mono
      intro t₂ runs
      exact matches_forms runs
    · cases steps
  | app g args =>
    cases builtin : isBuiltinCall g with
    | true =>
      simp only [step, builtin, if_true, stepBuiltin] at steps
      split at steps
      · split at steps
        · rename_i operands
          cases steps
          simp only [comparesConfig, builtin, if_true, namedOperands] at compares
          exact goes_builtin here₁ installed snug builtin coded operands compares
        · cases steps
      · cases steps
    | false =>
      simp only [step, builtin, Bool.false_eq_true, if_false, stepCode] at steps
      split at steps
      · cases steps
      · rename_i other
        rw [Bool.not_eq_true] at other
        split at steps
        · rename_i vs s₁ operands
          split at steps
          · rename_i fv s₂ operator
            cases steps
            simp only [comparesConfig, builtin, Bool.false_eq_true, if_false, operands,
              Bool.and_eq_true] at compares
            exact goes_app here₁ installed snug other builtin coded operands operator compares.1
              compares.2
          · cases steps
        · cases steps

/-- Whether the next step is one of the machine: internal definitions are made at entry. -/
def active : Config → Bool
  | .code (.extend _ :: _) _ _ => false
  | _ => true

theorem active_step {c d : Config} (installed : Installed img st T) (agrees : Agrees img st W N)
    (same : Matches img st T c t) (compares : comparesConfig W c = true) (acts : active c = true)
    (steps : step W c = .next d) : Advances img N t (Matches img st T d) := by
  cases c with
  | code body ρ s =>
    cases body with
    | nil => cases steps
    | cons x xs =>
      cases x with
      | extend => cases acts
      | begin => cases steps
      | _ => exact goes_form installed rfl same compares steps
  | call fv vs s =>
    simp only [step, stepCall] at steps
    split at steps
    · rename_i n
      split at steps
      · rename_i args body ρ closure
        split at steps
        · rename_i ρ₁ s₁ bound
          cases steps
          apply (enters installed same closure bound).mono
          intro t' runs
          exact matches_start runs
        · cases steps
      · cases steps
    · split at steps <;> cases steps
    · rename_i name
      split at steps
      · split at steps <;> cases steps
      · rename_i other
        split at steps
        · rename_i κ us
          split at steps
          · rename_i v s₁ call
            cases steps
            exact answers installed.resolved agrees same other call
          · cases steps
        · cases steps
    · cases steps

theorem extend_step {c d : Config} (same : Matches img st T c t) (idle : active c = false)
    (steps : step W c = .next d) : Matches img st T d t ∧ active d = true := by
  cases c with
  | call fv vs s => cases idle
  | code body ρ s =>
    cases body with
    | nil => cases idle
    | cons x xs =>
      cases x with
      | extend names =>
        cases steps
        refine ⟨matches_forms same, ?_⟩
        obtain ⟨l, f, bottom, L, i, snug, here, forms⟩ := same.place
        have plain : xs.all plainForm = true := forms_plain forms
        rw [start, splice_plain plain]
        cases xs with
        | nil => rfl
        | cons y ys =>
          cases y with
          | extend => cases plain
          | _ => rfl
      | _ => cases idle

theorem goes_step {c d : Config} (installed : Installed img st T) (agrees : Agrees img st W N)
    (same : Matches img st T c t) (compares : comparesConfig W c = true)
    (steps : step W c = .next d) : Goes img N t (Matches img st T d) := by
  cases acts : active c with
  | true => exact (active_step installed agrees same compares acts steps).to
  | false => exact .here (extend_step same acts steps).1

theorem goes_run {run : Config → Next Config Final} {c d : Config} (installed : Installed img st T)
    (agrees : Agrees img st W N)
    (follows : ∀ c d u, Matches img st T c u → run c = .next d → step W c = .next d)
    (reaches : Reaches run c d) (compares : ∀ e, Reaches run c e → comparesConfig W e = true)
    (same : Matches img st T c t) : Goes img N t (Matches img st T d) := by
  have one : ∀ c d, Goes img N t (Matches img st T c) → comparesConfig W c = true →
      run c = .next d → Goes img N t (Matches img st T d) := by
    intro c d goes compares steps
    apply goes.bind
    intro u same
    exact goes_step installed agrees same compares (follows c d u same steps)
  exact reaches.keeps one compares (.here same)

/- What the halting continuation gets. -/
theorem exits (resolved : Resolved img st) {fv v : Value} (calling : Calling img st T fv [v] s t)
    (halts : ∀ L w, Denotes img st T L s t fv w → w = Vm.makeFunc img.vmExit) :
    Exits img st T v s t := by
  obtain ⟨fp, L, control, rel, denotes, enough, words⟩ := calling.call
  have same := halts L fp denotes
  subst same
  constructor
  · have ran : ∀ fuel, Returns (Vm.dispatchFunc img fuel (Vm.makeFunc img.vmExit) 1) t
        (some .vmExit) (targeted t t.thread.env 0) :=
      returns_native resolved.exit_aligned resolved.exit.2 resolved.exit.1 rfl
    exact ⟨_, control, fun fuel => ⟨_, ran fuel⟩⟩
  · refine ⟨L, rel, enough, ?_⟩
    cases words 0 v rfl with
    | value is => exact .value is
    | bare _ _ is => exact .bare is

theorem goes_halt {c : Config} {r : Final} (installed : Installed img st T)
    (exit : st.builtin "__exit" = img.vmExit) (same : Matches img st T c t)
    (halts : step W c = .halt r) : Concludes img st T r t := by
  cases c with
  | code body ρ s => exact absurd halts step_code
  | call fv vs s =>
    simp only [step, stepCall] at halts
    split at halts
    · split at halts
      · split at halts <;> cases halts
      · cases halts
    · split at halts
      · cases halts
        apply exits installed.resolved same
        intro L w denotes
        cases denotes with
        | value is =>
          cases is
          rfl
        | bare is =>
          obtain ⟨_, _, _, _, _, same, _⟩ := is.code
          cases same
      · cases halts
    · split at halts
      · rename_i name
        split at halts
        · cases halts
          apply exits installed.resolved same
          intro L w denotes
          cases denotes with
          | value is =>
            cases is
            rw [name, exit]
          | bare is =>
            obtain ⟨_, _, _, _, _, same, _⟩ := is.code
            cases same
        · cases halts
      · split at halts
        · split at halts <;> cases halts
        · cases halts
    · cases halts

/-- The end of a run of at most n steps in which every `$eq?` can be decided by words. -/
def checkedRun (W : World) (run : Config → Next Config Final) : Nat → Config → Option Final
  | 0, _ => none
  | n + 1, c =>
    if comparesConfig W c then
      match run c with
      | .next d => checkedRun W run n d
      | .halt r => some r
      | .stuck => none
    else none

theorem checkedRun_halts {run : Config → Next Config Final} {n : Nat} {c : Config} {r : Final}
    (checked : checkedRun W run n c = some r) :
    Halts run c r ∧ ∀ e, Reaches run c e → comparesConfig W e = true := by
  induction n generalizing c with
  | zero => cases checked
  | succ n ih =>
    rw [checkedRun] at checked
    split at checked
    · rename_i compares
      cases next : run c with
      | next d =>
        simp only [next] at checked
        obtain ⟨halts, others⟩ := ih checked
        refine ⟨halts.after (.one next), ?_⟩
        intro e reaches
        obtain ⟨m, reaches⟩ := reaches
        cases reaches with
        | zero => exact compares
        | succ first rest =>
          rw [next] at first
          cases first
          exact others e ⟨_, rest⟩
      | halt r' =>
        simp only [next, Option.some.injEq] at checked
        subst checked
        refine ⟨.here next, ?_⟩
        intro e reaches
        obtain ⟨m, reaches⟩ := reaches
        cases reaches with
        | zero => exact compares
        | succ first rest =>
          rw [next] at first
          cases first
      | stuck => simp [next] at checked
    · cases checked

end steps

end LGears.VmRuns
