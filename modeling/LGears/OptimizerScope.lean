import LGears.OptimizerRefines
import Mathlib.Data.List.Forall2
import Mathlib.Data.List.Nodup

/- Which programs the source optimizer keeps closed. It goes wrong where a use of a variable is
   met before the variable is in scope: the use is not counted, and nothing is put in its place
   when the binder of the variable goes. -/
namespace LGears.OptimizerScope
open CoreProgram Cps Inlining OptimizerRefines Resolution SourceOptimizer

/-- The names that a body defines. -/
def defined (body : List Node) : List Symbol := (definesOf body).map defineName

/- The variables that are not bound within the node: a lambda binds its parameters and what
   its body defines. -/
mutual
def free : Node → List Symbol
  | .const _ | .quote _ | .extend _ => []
  | .sym x => [x]
  | .lambda args body => (freeAll body).filter fun x => x ∉ args.names ++ defined body
  | .ite pred conseq alt => free pred ++ free conseq ++ free alt
  | .set x value => x :: free value
  | .define _ value => free value
  | .begin forms => freeAll forms
  | .app f args => free f ++ freeAll args
def freeAll : List Node → List Symbol
  | [] => []
  | x :: xs => free x ++ freeAll xs
end

/-- What is left, for the variables in scope, of the uses out of scope in their arguments. -/
abbrev Lost := List (Symbol × List Symbol)

def noLoss (names : List Symbol) : Lost := names.map fun x => (x, [])

def lostBy (U : List Use) (seen : List Symbol) (a : Arg (List Symbol)) : Symbol × List Symbol :=
  (a.name, if a.inlined U seen then a.after else [])

/- The uses out of scope in the code that is not dropped. -/
mutual
def left (U : List Use) (L : Lost) : Node → List Symbol
  | .const _ | .quote _ | .extend _ => []
  | .sym x => (L.lookup x).getD [x]
  | .lambda args body => leftBody U (noLoss args.names ++ L) body
  | .ite pred conseq alt => left U L pred ++ left U L conseq ++ left U L alt
  | .set x value => if x ∈ seenIn L then left U L value else x :: free value
  | .define x value => left U ((x, []) :: L) value
  | .begin forms => (leftEach U L forms).flatten
  | .app (.lambda args body) vals =>
    let ls := leftEach U L vals
    let as := zipArgs args.fixed vals ls
    if inlinesCall U (seenIn L) args vals then
      leftBody U (as.map (lostBy U (seenIn L)) ++ L) body ++
        ((keptArgs U (seenIn L) as).map Arg.after).flatten
    else leftBody U (noLoss args.names ++ L) body ++ ls.flatten
  | .app f args => left U L f ++ (leftEach U L args).flatten
def leftEach (U : List Use) (L : Lost) : List Node → List (List Symbol)
  | [] => []
  | x :: xs => left U L x :: leftEach U L xs
def leftBody (U : List Use) (L : Lost) : List Node → List Symbol
  | [] => []
  | .define x value :: next =>
    (if used U x then left U ((x, []) :: L) value else []) ++ leftBody U ((x, []) :: L) next
  | x :: next =>
    (if !next.isEmpty && effectFree (seenIn L) x then [] else left U L x) ++ leftBody U L next
end

def inlinedNames (U : List Use) (seen : List Symbol) (args : Formals) (vals : List Node) :
    List Symbol :=
  if inlinesCall U seen args vals then
    ((zipArgs args.fixed vals vals).filter (Arg.inlined U seen)).map Arg.name
  else []

/- The binders that go: defined names without uses in scope, and inlined parameters. -/
mutual
def dropped (U : List Use) (seen : List Symbol) : Node → List Symbol
  | .const _ | .quote _ | .sym _ | .extend _ => []
  | .lambda args body => droppedBody U (args.names ++ seen) body
  | .ite pred conseq alt => dropped U seen pred ++ dropped U seen conseq ++ dropped U seen alt
  | .set x value => if x ∈ seen then dropped U seen value else []
  | .define x value => dropped U (x :: seen) value
  | .begin forms => droppedAll U seen forms
  | .app (.lambda args body) vals =>
    inlinedNames U seen args vals ++ droppedBody U (args.names ++ seen) body ++
      droppedAll U seen vals
  | .app f args => dropped U seen f ++ droppedAll U seen args
def droppedAll (U : List Use) (seen : List Symbol) : List Node → List Symbol
  | [] => []
  | x :: xs => dropped U seen x ++ droppedAll U seen xs
def droppedBody (U : List Use) (seen : List Symbol) : List Node → List Symbol
  | [] => []
  | .define x value :: next =>
    (if used U x then [] else [x]) ++ dropped U (x :: seen) value ++ droppedBody U (x :: seen) next
  | x :: next => dropped U seen x ++ droppedBody U seen next
end

/-- No use out of scope that is left names a binder that goes, unless the name is also free. -/
def Keeps (p : Node) : Prop :=
  ∀ y ∈ left (uses [] p) [] p, y ∈ dropped (uses [] p) [] p → y ∈ free p

/-- Every variable of the result is bound in it or was free in the program. -/
def StaysClosed (p out : Node) : Prop := ∀ y ∈ free out, y ∈ free p

section scope
variable {U : List Use} {seen : List Symbol}

@[simp] theorem seenIn_nil {β : Type} : seenIn ([] : List (Symbol × β)) = [] := rfl

@[simp] theorem seenIn_cons {β : Type} (x : Symbol) (w : β) (σ : List (Symbol × β)) :
    seenIn ((x, w) :: σ) = x :: seenIn σ := rfl

@[simp] theorem seenIn_append {β : Type} (σ τ : List (Symbol × β)) :
    seenIn (σ ++ τ) = seenIn σ ++ seenIn τ := List.map_append

@[simp] theorem seenIn_own (names : List Symbol) : seenIn (own names) = names := own_names names

@[simp] theorem seenIn_values (as : List (Arg Node)) :
    seenIn (as.map (Arg.value U seen)) = as.map Arg.name := by
  simp [seenIn, Function.comp_def, Arg.value]

theorem droppedBody_expr {x : Node} {next : List Node} (plain : ∀ y v, x ≠ .define y v) :
    droppedBody U seen (x :: next) = dropped U seen x ++ droppedBody U seen next := by
  rw [droppedBody]
  rintro y v rfl
  exact plain y v rfl

theorem dropped_app {f : Node} {args : List Node} (plain : ∀ xs body, f ≠ .lambda xs body) :
    dropped U seen (.app f args) = dropped U seen f ++ droppedAll U seen args := by
  rw [dropped]
  rintro xs body rfl
  exact plain xs body rfl

theorem leftBody_expr {L : Lost} {x : Node} {next : List Node} (plain : ∀ y v, x ≠ .define y v) :
    leftBody U L (x :: next) =
      (if (!next.isEmpty && effectFree (seenIn L) x) = true then [] else left U L x) ++
        leftBody U L next := by
  rw [leftBody]
  rintro y v rfl
  exact plain y v rfl

theorem left_app {L : Lost} {f : Node} {args : List Node} (plain : ∀ xs body, f ≠ .lambda xs body) :
    left U L (.app f args) = left U L f ++ (leftEach U L args).flatten := by
  rw [left]
  rintro xs body rfl
  exact plain xs body rfl

theorem mem_inlinedNames {args : Formals} {vals : List Node} {y : Symbol}
    (mem : y ∈ inlinedNames U seen args vals) : y ∈ args.names := by
  have inZip (names : List Symbol) (ws : List Node) :
      ∀ a ∈ zipArgs names ws ws, a.name ∈ names := by
    induction names generalizing ws with
    | nil => simp [zipArgs]
    | cons x names ih =>
      cases ws with
      | nil => simp [zipArgs]
      | cons w ws =>
        intro a mem
        rw [zipArgs, List.mem_cons] at mem
        rcases mem with rfl | mem
        · simp
        · simp [ih ws a mem]
  rw [inlinedNames] at mem
  split at mem
  · obtain ⟨a, ha, rfl⟩ := List.mem_map.mp mem
    have := inZip args.fixed vals a (List.mem_filter.mp ha).1
    simp [Formals.names, this]
  · simp at mem

/-- What is dropped are binders. -/
def DropsBinders (U : List Use) (n : Node) : Prop :=
  ∀ seen, ∀ y ∈ dropped U seen n, y ∈ binders n

theorem droppedAll_binders {xs : List Node} (each : ∀ x ∈ xs, DropsBinders U x)
    (seen : List Symbol) : ∀ y ∈ droppedAll U seen xs, y ∈ bindersAll xs := by
  induction xs with
  | nil => simp [droppedAll]
  | cons x xs ih =>
    intro y mem
    rw [droppedAll, List.mem_append] at mem
    rw [bindersAll, List.mem_append]
    exact mem.imp (each x (by simp) seen y) (ih (fun z hz => each z (by simp [hz])) y)

theorem droppedBody_binders {xs : List Node} (each : ∀ x ∈ xs, DropsBinders U x)
    (seen : List Symbol) : ∀ y ∈ droppedBody U seen xs, y ∈ bindersAll xs := by
  induction xs generalizing seen with
  | nil => simp [droppedBody]
  | cons x xs ih =>
    intro y mem
    have ih' := fun seen => ih (fun z hz => each z (by simp [hz])) seen y
    rw [bindersAll, List.mem_append]
    rcases item_cases x with ⟨z, v, rfl⟩ | ⟨_, plain⟩
    · rw [droppedBody, List.mem_append, List.mem_append] at mem
      rcases mem with (mem | mem) | mem
      · left
        split at mem
        · simp at mem
        · rw [List.mem_singleton.mp mem]
          simp [binders]
      · exact .inl (each (.define z v) (by simp) seen y (by rwa [dropped]))
      · exact .inr (ih' _ mem)
    · rw [droppedBody_expr plain, List.mem_append] at mem
      exact mem.imp (each x (by simp) seen y) (ih' seen)

theorem dropped_binders (n : Node) : DropsBinders U n := by
  induction n using inductCall with
  | const | sym | quote | extend => simp [DropsBinders, dropped]
  | lambda args xs ih =>
    intro seen y mem
    rw [dropped] at mem
    rw [binders, List.mem_append]
    exact .inr (droppedBody_binders ih _ y mem)
  | ite p c t hp hc ht =>
    intro seen y mem
    rw [dropped, List.mem_append, List.mem_append] at mem
    rw [binders, List.mem_append, List.mem_append]
    exact mem.imp (Or.imp (hp seen y) (hc seen y)) (ht seen y)
  | set x v ih =>
    intro seen y mem
    rw [dropped] at mem
    split at mem
    · exact ih seen y mem
    · simp at mem
  | define x v ih =>
    intro seen y mem
    rw [dropped] at mem
    rw [binders, List.mem_cons]
    exact .inr (ih _ y mem)
  | begin xs ih => exact droppedAll_binders ih
  | call args xs vals ih ihVals =>
    intro seen y mem
    rw [dropped, List.mem_append, List.mem_append] at mem
    rw [binders, binders, List.mem_append, List.mem_append]
    rcases mem with (mem | mem) | mem
    · exact .inl (.inl (mem_inlinedNames mem))
    · exact .inl (.inr (droppedBody_binders ih _ y mem))
    · exact .inr (droppedAll_binders ihVals _ y mem)
  | app f args plain hf ih =>
    intro seen y mem
    rw [dropped_app plain, List.mem_append] at mem
    rw [binders, List.mem_append]
    exact mem.imp (hf seen y) (droppedAll_binders ih seen y)

end scope

/- A name is allowed in the result when it is bound in `around` and stays, or is free in the
   program; every other name in it is a use out of scope whose binder goes. -/
section closed
variable {U : List Use} {D F : List Symbol}

def Allowed (D F around : List Symbol) (y : Symbol) : Prop := y ∈ around ∧ y ∉ D ∨ y ∈ F

/-- The names of a part of the result, against the uses out of scope that are left in it. -/
structure Agrees (D F around names lost : List Symbol) : Prop where
  up : ∀ y ∈ names, Allowed D F around y ∨ y ∈ lost ∧ y ∈ D
  down : ∀ y ∈ lost, y ∈ D → y ∈ names

theorem Agrees.nil {around : List Symbol} : Agrees D F around [] [] := ⟨by simp, by simp⟩

theorem Agrees.append {around a b l m : List Symbol} (first : Agrees D F around a l)
    (second : Agrees D F around b m) : Agrees D F around (a ++ b) (l ++ m) where
  up y mem := by
    rw [List.mem_append]
    rcases List.mem_append.mp mem with mem | mem
    · exact (first.up y mem).imp_right fun h => ⟨.inl h.1, h.2⟩
    · exact (second.up y mem).imp_right fun h => ⟨.inr h.1, h.2⟩
  down y mem gone := by
    rw [List.mem_append]
    exact (List.mem_append.mp mem).imp (first.down y · gone) (second.down y · gone)

theorem Agrees.widen {around wider a l : List Symbol} (agrees : Agrees D F around a l)
    (sub : ∀ y ∈ around, y ∈ wider) : Agrees D F wider a l where
  up y mem := (agrees.up y mem).imp_left (Or.imp_left fun h => ⟨sub y h.1, h.2⟩)
  down := agrees.down

theorem Agrees.raw {around names : List Symbol} (bound : ∀ y ∈ names, y ∈ around ∨ y ∈ F) :
    Agrees D F around names names where
  up y mem := by
    by_cases gone : y ∈ D
    · exact .inr ⟨mem, gone⟩
    · exact .inl ((bound y mem).imp_left fun h => ⟨h, gone⟩)
  down y mem _ := mem

theorem Agrees.bind {around bound kept a l : List Symbol}
    (agrees : Agrees D F (bound ++ around) a l) (stay : ∀ y ∈ kept, y ∉ D)
    (rest : ∀ y ∈ bound, y ∉ D → y ∈ kept) :
    Agrees D F around (a.filter fun y => y ∉ kept) l where
  up y mem := by
    obtain ⟨inner, out⟩ := List.mem_filter.mp mem
    have unkept : y ∉ kept := by simpa using out
    refine (agrees.up y inner).imp_left (Or.imp_left fun h => ?_)
    rcases List.mem_append.mp h.1 with here | outside
    · exact absurd (rest y here h.2) unkept
    · exact ⟨outside, h.2⟩
  down y mem gone := by
    have unkept : y ∉ kept := fun here => stay y here gone
    exact List.mem_filter.mpr ⟨agrees.down y mem gone, by simpa using unkept⟩

/-- What a variable in scope becomes, with the uses out of scope that are left in that. -/
structure Carries (U : List Use) (D F around : List Symbol) (p : Symbol × Node)
    (q : Symbol × List Symbol) : Prop where
  name : p.1 = q.1
  agrees : used U p.1 = true → Agrees D F around (free p.2) q.2
  plain : isDefine p.2 = false
  stays : assigned U p.1 = true → p.2 = .sym p.1 ∧ q.2 = []

abbrev Carried (U : List Use) (D F around : List Symbol) (σ : Subst) (L : Lost) : Prop :=
  List.Forall₂ (Carries U D F around) σ L

theorem Carried.seen {around : List Symbol} {σ : Subst} {L : Lost}
    (carried : Carried U D F around σ L) : seenIn σ = seenIn L := by
  induction carried with
  | nil => rfl
  | @cons p q σ L first _ ih =>
    rw [seenIn, List.map_cons, first.name, seenIn, List.map_cons]
    exact congrArg _ ih

theorem Carried.widen {around wider : List Symbol} {σ : Subst} {L : Lost}
    (carried : Carried U D F around σ L) (sub : ∀ y ∈ around, y ∈ wider) :
    Carried U D F wider σ L :=
  carried.imp fun _ _ h => { h with agrees := fun met => (h.agrees met).widen sub }

theorem Carried.lookup {around : List Symbol} {σ : Subst} {L : Lost}
    (carried : Carried U D F around σ L) (x : Symbol) :
    (x ∉ seenIn σ ∧ σ.lookup x = none ∧ L.lookup x = none) ∨
      ∃ w l, x ∈ seenIn σ ∧ σ.lookup x = some w ∧ L.lookup x = some l ∧
        Carries U D F around (x, w) (x, l) := by
  induction carried with
  | nil => exact .inl ⟨by simp, rfl, rfl⟩
  | @cons p q σ L first _ ih =>
    rw [List.lookup_cons, List.lookup_cons, ← first.name]
    by_cases same : x = p.1
    · subst same
      refine .inr ⟨p.2, q.2, by simp [seenIn], by simp, by simp, rfl, first.agrees, first.plain,
        first.stays⟩
    · simp only [beq_eq_false_iff_ne.mpr same]
      rcases ih with ⟨out, none, none'⟩ | ⟨w, l, here, some, some', h⟩
      · refine .inl ⟨?_, none, none'⟩
        rw [seenIn, List.map_cons, List.mem_cons, not_or]
        exact ⟨same, out⟩
      · refine .inr ⟨w, l, ?_, some, some', h⟩
        rw [seenIn, List.map_cons, List.mem_cons]
        exact .inr here

theorem Carried.own {around : List Symbol} {σ : Subst} {L : Lost}
    (carried : Carried U D F around σ L) (names : List Symbol)
    (bound : ∀ y ∈ names, used U y = true → y ∈ around ∧ y ∉ D) :
    Carried U D F around (own names ++ σ) (noLoss names ++ L) := by
  induction names with
  | nil => exact carried
  | cons y names ih =>
    refine .cons ⟨rfl, fun met => ⟨?_, by simp⟩, rfl, fun _ => ⟨rfl, rfl⟩⟩
      (ih fun z hz => bound z (by simp [hz]))
    intro z mem
    rw [free, List.mem_singleton] at mem
    exact .inl (.inl (mem ▸ bound y (by simp) met))

/-- A part of the program: its free names, the binders in it that go, and all its binders. -/
structure Part (D F around : List Symbol) (free gone binders : List Symbol) : Prop where
  scope : ∀ y ∈ free, y ∈ around ∨ y ∈ F
  nodup : binders.Nodup
  drops : ∀ y ∈ gone, y ∈ D
  only : ∀ y ∈ binders, y ∈ D → y ∈ gone

theorem Part.split {around f f' g g' b b' : List Symbol}
    (part : Part D F around (f ++ f') (g ++ g') (b ++ b')) (sub : ∀ y ∈ g, y ∈ b)
    (sub' : ∀ y ∈ g', y ∈ b') : Part D F around f g b ∧ Part D F around f' g' b' := by
  have apart := (List.nodup_append.mp part.nodup)
  refine ⟨⟨fun y mem => part.scope y (by simp [mem]), apart.1,
    fun y mem => part.drops y (by simp [mem]), fun y mem gone => ?_⟩, ⟨fun y mem => part.scope y (by simp [mem]), apart.2.1,
    fun y mem => part.drops y (by simp [mem]), fun y mem gone => ?_⟩⟩
  · rcases List.mem_append.mp (part.only y (by simp [mem]) gone) with here | there
    · exact here
    · exact absurd rfl (apart.2.2 y mem y (sub' y there))
  · rcases List.mem_append.mp (part.only y (by simp [mem]) gone) with here | there
    · exact absurd rfl (apart.2.2 y (sub y here) y mem)
    · exact there

theorem Part.behind {around f g g' b b' : List Symbol}
    (part : Part D F around f (g ++ g') (b ++ b')) (sub : ∀ y ∈ g, y ∈ b)
    (sub' : ∀ y ∈ g', y ∈ b') : Part D F around [] g b ∧ Part D F around f g' b' := by
  have whole : Part D F around ([] ++ f) (g ++ g') (b ++ b') := part
  exact whole.split sub sub'

theorem Part.front {around f g b : List Symbol} (names : List Symbol)
    (part : Part D F around f g (names ++ b))
    (sub : ∀ y ∈ g, y ∈ b) : (∀ y ∈ names, y ∉ D) ∧ Part D F around f g b := by
  have apart := (List.nodup_append.mp part.nodup)
  refine ⟨fun y mem gone => ?_, part.scope, apart.2.1, part.drops,
    fun y mem => part.only y (by simp [mem])⟩
  exact apart.2.2 y mem y (sub y (part.only y (by simp [mem]) gone)) rfl

/-- Every optimization of the node leaves the names it should. -/
def Closes (U : List Use) (D F : List Symbol) (n : Node) : Prop :=
  ∀ σ L around, placed n = true → Carried U D F around σ L →
    (∀ u ∈ uses (seenIn σ) n, u ∈ U) →
    Part D F around (free n) (dropped U (seenIn σ) n) (binders n) →
    Agrees D F around (free (opt U σ n)) (left U L n)

theorem used_of_mem {u : Use} (mem : u ∈ U) : used U u.name = true := by
  rw [used, List.any_eq_true]
  exact ⟨u, mem, by simp⟩

theorem closes_sym (x : Symbol) : Closes U D F (.sym x) := by
  intro σ L around _ carried sub part
  rw [opt, left]
  rcases carried.lookup x with ⟨out, none, none'⟩ | ⟨w, l, here, some, some', h⟩
  · rw [none, none']
    exact .raw part.scope
  · rw [some, some']
    rw [uses, if_pos here, List.forall_mem_singleton] at sub
    exact h.agrees (used_of_mem sub)

theorem closesAll {xs : List Node} (each : ∀ x ∈ xs, Closes U D F x) (place : placedAll xs = true)
    {σ : Subst} {L : Lost} {around : List Symbol} (carried : Carried U D F around σ L)
    (sub : ∀ u ∈ usesAll (seenIn σ) xs, u ∈ U)
    (part : Part D F around (freeAll xs) (droppedAll U (seenIn σ) xs) (bindersAll xs)) :
    List.Forall₂ (Agrees D F around) ((optAll U σ xs).map free) (leftEach U L xs) := by
  induction xs with
  | nil =>
    rw [optAll, leftEach]
    exact .nil
  | cons x xs ih =>
    simp only [placedAll, Bool.and_eq_true] at place
    rw [usesAll, placed_enter place.1, List.forall_mem_append] at sub
    rw [freeAll, droppedAll, bindersAll] at part
    obtain ⟨first, rest⟩ := part.split (dropped_binders x _)
      (droppedAll_binders (fun y _ => dropped_binders y) _)
    rw [optAll, leftEach]
    exact .cons (each x (by simp) σ L around place.1 carried sub.1 first)
      (ih (fun y hy => each y (by simp [hy])) place.2 sub.2 rest)

theorem agrees_flatten {around : List Symbol} {xs : List Node} {ls : List (List Symbol)}
    (each : List.Forall₂ (Agrees D F around) (xs.map free) ls) :
    Agrees D F around (freeAll xs) ls.flatten := by
  induction xs generalizing ls with
  | nil =>
    cases each
    exact .nil
  | cons x xs ih =>
    obtain _ | ⟨first, rest⟩ := each
    exact first.append (ih rest)

theorem opt_notDefine {n : Node} (place : placed n = true) {σ : Subst}
    (values : ∀ p ∈ σ, isDefine p.2 = false) : isDefine (opt U σ n) = false := by
  cases n with
  | sym x =>
    rw [opt]
    cases found : σ.lookup x with
    | none => rfl
    | some w => exact values _ (mem_of_lookup found)
  | set x v =>
    rw [opt]
    split <;> rfl
  | app f args =>
    by_cases plain : ∀ xs body, f ≠ .lambda xs body
    · rw [opt_app plain]
      rfl
    · simp only [not_forall, not_not] at plain
      obtain ⟨xs, body, rfl⟩ := plain
      rw [opt]
      split
      · dsimp only
        split <;> rfl
      · rfl
  | define x v => simp [placed] at place
  | extend names => simp [placed] at place
  | const | quote | lambda | ite | begin => rw [opt]; rfl

/- A definition stays exactly when its variable is used in scope. -/
theorem defined_optBody {xs : List Node} (place : placedBody xs = true) {σ : Subst}
    (values : ∀ p ∈ σ, isDefine p.2 = false) :
    defined (optBody U σ xs) = (defined xs).filter (used U) := by
  induction xs generalizing σ with
  | nil =>
    rw [optBody]
    rfl
  | cons x xs ih =>
    rw [placedBody_cons, Bool.and_eq_true] at place
    rcases item_cases x with ⟨y, v, rfl⟩ | ⟨plain, _⟩
    · have values' : ∀ p ∈ (y, Node.sym y) :: σ, isDefine p.2 = false :=
        List.forall_mem_cons.mpr ⟨rfl, values⟩
      have here (w : Node) (ys : List Node) : defined (.define y w :: ys) = y :: defined ys := rfl
      rw [optBody_define, here, List.filter_cons]
      split
      · rw [here, ih place.2 values']
      · exact ih place.2 values'
    · rw [plain] at place
      have skip (w : Node) (ys : List Node) (h : isDefine w = false) :
          defined (w :: ys) = defined ys := by
        simp [defined, definesOf, h]
      rw [optBody_expr place.1, skip x xs (placed_notDefine place.1)]
      split
      · exact ih place.2 values
      · rw [skip _ _ (opt_notDefine place.1 values), ih place.2 values]

theorem Carried.values {around : List Symbol} {σ : Subst} {L : Lost}
    (carried : Carried U D F around σ L) : ∀ p ∈ σ, isDefine p.2 = false := by
  induction carried with
  | nil => simp
  | cons first _ ih => exact List.forall_mem_cons.mpr ⟨first.plain, ih⟩

theorem closesBody {xs : List Node} (each : ∀ x ∈ xs, Closes U D F (itemValue x))
    (place : placedBody xs = true) {σ : Subst} {L : Lost} {around : List Symbol}
    (carried : Carried U D F around σ L) (sub : ∀ u ∈ usesAll (seenIn σ) xs, u ∈ U)
    (part : Part D F around (freeAll xs) (droppedBody U (seenIn σ) xs) (bindersAll xs))
    (inside : ∀ y ∈ defined xs, y ∈ around) :
    Agrees D F around (freeAll (optBody U σ xs)) (leftBody U L xs) := by
  induction xs generalizing σ L with
  | nil =>
    rw [optBody, leftBody]
    exact .nil
  | cons x xs ih =>
    rw [placedBody_cons, Bool.and_eq_true] at place
    rw [usesAll, List.forall_mem_append] at sub
    have here := each x (by simp)
    have ih' := fun {σ L} => @ih (fun y hy => each y (by simp [hy])) place.2 σ L
    have rests (seen : List Symbol) : ∀ y ∈ droppedBody U seen xs, y ∈ bindersAll xs :=
      droppedBody_binders (fun y _ => dropped_binders y) seen
    rcases item_cases x with ⟨y, v, rfl⟩ | ⟨plain, other⟩
    · have named : y ∈ around ∧ ∀ z ∈ defined xs, z ∈ around := by
        have same : defined (.define y v :: xs) = y :: defined xs := rfl
        rw [same] at inside
        exact List.forall_mem_cons.mp inside
      rw [freeAll, free, droppedBody, bindersAll, binders] at part
      obtain ⟨first, rest⟩ := part.split (by
        intro z mem
        rcases List.mem_append.mp mem with mem | mem
        · split at mem
          · simp at mem
          · simp [List.mem_singleton.mp mem]
        · simp [dropped_binders v _ z mem]) (rests _)
      rw [optBody_define, leftBody]
      split
      · rename_i met
        rw [if_pos met, List.nil_append] at first
        obtain ⟨stays, first⟩ := first.front [y] (dropped_binders v _)
        have carried' : Carried U D F around ((y, .sym y) :: σ) ((y, []) :: L) :=
          carried.own [y] (by simpa using fun _ => ⟨named.1, stays y (by simp)⟩)
        exact (here _ _ around place.1 carried' sub.1 first).append
          (ih' carried' sub.2 rest named.2)
      · rename_i unmet
        have carried' : Carried U D F around ((y, .sym y) :: σ) ((y, []) :: L) :=
          carried.own [y] (by simp [unmet])
        exact ih' carried' sub.2 rest named.2
    · rw [plain] at place here
      have named : ∀ z ∈ defined xs, z ∈ around := by
        have same : defined (x :: xs) = defined xs := by
          simp [defined, definesOf, placed_notDefine place.1]
        rwa [same] at inside
      rw [placed_enter place.1] at sub
      rw [freeAll, droppedBody_expr other, bindersAll] at part
      obtain ⟨first, rest⟩ := part.split (dropped_binders x _) (rests _)
      rw [optBody_expr place.1, leftBody_expr other, ← carried.seen]
      split
      · exact ih' carried sub.2 rest named
      · exact (here σ L around place.1 carried sub.1 first).append (ih' carried sub.2 rest named)

/- A definition goes exactly when its variable is not used in scope. -/
theorem defined_gone {xs : List Node} (place : placedBody xs = true) {seen around f : List Symbol}
    (part : Part D F around f (droppedBody U seen xs) (bindersAll xs)) :
    ∀ y ∈ defined xs, y ∈ D ↔ used U y = false := by
  induction xs generalizing seen f with
  | nil => simp [defined, definesOf]
  | cons x xs ih =>
    rw [placedBody_cons, Bool.and_eq_true] at place
    have rests (seen : List Symbol) : ∀ y ∈ droppedBody U seen xs, y ∈ bindersAll xs :=
      droppedBody_binders (fun y _ => dropped_binders y) seen
    rcases item_cases x with ⟨y, v, rfl⟩ | ⟨plain, other⟩
    · rw [droppedBody, bindersAll, binders] at part
      have split := part.behind (by
        intro z mem
        rcases List.mem_append.mp mem with mem | mem
        · split at mem
          · simp at mem
          · simp [List.mem_singleton.mp mem]
        · simp [dropped_binders v _ z mem]) (rests _)
      have same : defined (.define y v :: xs) = y :: defined xs := rfl
      rw [same, List.forall_mem_cons]
      refine ⟨⟨fun gone => ?_, fun unmet => part.drops y (by simp [unmet])⟩, ih place.2 split.2⟩
      by_contra met
      rw [Bool.not_eq_false] at met
      have first := split.1
      rw [if_pos met, List.nil_append] at first
      exact (first.front [y] (dropped_binders v _)).1 y (by simp) gone
    · rw [plain] at place
      have same : defined (x :: xs) = defined xs := by
        simp [defined, definesOf, placed_notDefine place.1]
      rw [droppedBody_expr other, bindersAll] at part
      rw [same]
      exact ih place.2 (part.behind (dropped_binders x _) (rests _)).2

theorem closes_lambda {args : Formals} {body : List Node}
    (each : ∀ x ∈ body, Closes U D F (itemValue x)) : Closes U D F (.lambda args body) := by
  intro σ L around place carried sub part
  rw [placed] at place
  rw [uses] at sub
  rw [free, dropped, binders] at part
  have drops : ∀ y ∈ droppedBody U (args.names ++ seenIn σ) body, y ∈ bindersAll body :=
    droppedBody_binders (fun y _ => dropped_binders y) _
  obtain ⟨stay, inner⟩ := part.front args.names drops
  have gone := defined_gone place inner
  have carried' : Carried U D F (args.names ++ defined body ++ around) (own args.names ++ σ)
      (noLoss args.names ++ L) := by
    refine (carried.widen (by simp +contextual)).own args.names fun y mem _ =>
      ⟨by simp [mem], stay y mem⟩
  have seen : seenIn (own args.names ++ σ) = args.names ++ seenIn σ := by simp
  rw [opt, left, free, defined_optBody place carried'.values]
  refine (closesBody each place carried' ?_ ?_ ?_).bind ?_ ?_
  · rwa [seen]
  · rw [seen]
    refine { inner with scope := fun y mem => ?_ }
    by_cases bound : y ∈ args.names ++ defined body
    · exact .inl (by simp only [List.mem_append] at bound ⊢; exact .inl bound)
    · have := part.scope y (List.mem_filter.mpr ⟨mem, by simpa using bound⟩)
      exact this.imp_left fun h => by simp [h]
  · simp +contextual
  · intro y mem
    rcases List.mem_append.mp mem with mem | mem
    · exact stay y mem
    · obtain ⟨mem, met⟩ := List.mem_filter.mp mem
      simp [gone y mem, met]
  · intro y mem stays
    rw [List.mem_append] at mem ⊢
    refine mem.imp_right fun mem => List.mem_filter.mpr ⟨mem, ?_⟩
    rwa [gone y mem, Bool.not_eq_false] at stays

/-- The same parameter with the same argument. -/
def SameArg {β γ : Type} (a : Arg β) (b : Arg γ) : Prop := a.name = b.name ∧ a.before = b.before

theorem zipArgs_same {β γ : Type} {names : List Symbol} {vals : List Node} {ws : List β}
    {zs : List γ} (hw : ws.length = vals.length) (hz : zs.length = vals.length) :
    List.Forall₂ SameArg (zipArgs names vals ws) (zipArgs names vals zs) := by
  induction names generalizing vals ws zs with
  | nil => exact .nil
  | cons x names ih =>
    cases vals with
    | nil => exact .nil
    | cons v vals =>
      cases ws with
      | nil => simp at hw
      | cons w ws =>
        cases zs with
        | nil => simp at hz
        | cons z zs => exact .cons ⟨rfl, rfl⟩ (ih (by simpa using hw) (by simpa using hz))

theorem keptArgs_same {β γ : Type} {seen : List Symbol} {as : List (Arg β)} {bs : List (Arg γ)}
    (same : List.Forall₂ SameArg as bs) :
    (keptArgs U seen as).map Arg.name = (keptArgs U seen bs).map Arg.name := by
  induction same with
  | nil => rfl
  | @cons a b as bs first _ ih =>
    have inlined : a.inlined U seen = b.inlined U seen := by
      rw [Arg.inlined, Arg.inlined, first.1, first.2]
    simp only [keptArgs, List.filter_cons, inlined] at ih ⊢
    split
    · rw [List.map_cons, List.map_cons, ih, first.1]
    · exact ih

theorem kept_or_gone {β : Type} {seen : List Symbol} {as : List (Arg β)}
    (nodup : (as.map Arg.name).Nodup) {y : Symbol} (mem : y ∈ as.map Arg.name) :
    y ∈ (keptArgs U seen as).map Arg.name ↔ y ∉ (as.filter (Arg.inlined U seen)).map Arg.name := by
  constructor
  · intro kept gone
    obtain ⟨b, hb, rfl⟩ := List.mem_map.mp kept
    obtain ⟨c, hc, same⟩ := List.mem_map.mp gone
    obtain ⟨hb, stays⟩ := List.mem_filter.mp hb
    obtain ⟨hc, goes⟩ := List.mem_filter.mp hc
    obtain rfl := List.inj_on_of_nodup_map nodup hc hb same
    simp [goes] at stays
  · intro stays
    obtain ⟨a, ha, rfl⟩ := List.mem_map.mp mem
    refine List.mem_map.mpr ⟨a, List.mem_filter.mpr ⟨ha, ?_⟩, rfl⟩
    rw [Bool.not_eq_true', ← Bool.not_eq_true]
    exact fun goes => stays (List.mem_map.mpr ⟨a, List.mem_filter.mpr ⟨ha, goes⟩, rfl⟩)

/-- A parameter with its optimized argument, against what is left in that. -/
structure ArgAgrees (D F around : List Symbol) (a : Arg Node) (b : Arg (List Symbol)) : Prop where
  same : SameArg a b
  agrees : Agrees D F around (free a.after) b.after
  plain : isDefine a.after = false

theorem zipArgs_agrees {around : List Symbol} {names : List Symbol} {vals outs : List Node}
    {ls : List (List Symbol)} (each : List.Forall₂ (Agrees D F around) (outs.map free) ls)
    (plain : ∀ w ∈ outs, isDefine w = false) :
    List.Forall₂ (ArgAgrees D F around) (zipArgs names vals outs) (zipArgs names vals ls) := by
  induction names generalizing vals outs ls with
  | nil => exact .nil
  | cons x names ih =>
    cases vals with
    | nil => exact .nil
    | cons v vals =>
      cases outs with
      | nil =>
        cases each
        exact .nil
      | cons w outs =>
        obtain _ | ⟨first, rest⟩ := each
        exact .cons ⟨⟨rfl, rfl⟩, first, plain w (by simp)⟩
          (ih rest fun z hz => plain z (by simp [hz]))

theorem keptArgs_agrees {around seen : List Symbol} {as : List (Arg Node)}
    {bs : List (Arg (List Symbol))} (each : List.Forall₂ (ArgAgrees D F around) as bs) :
    List.Forall₂ (Agrees D F around) (((keptArgs U seen as).map Arg.after).map free)
      ((keptArgs U seen bs).map Arg.after) := by
  induction each with
  | nil => exact .nil
  | @cons a b as bs first _ ih =>
    have inlined : a.inlined U seen = b.inlined U seen := by
      rw [Arg.inlined, Arg.inlined, first.same.1, first.same.2]
    simp only [keptArgs, List.filter_cons, inlined] at ih ⊢
    split
    · exact .cons first.agrees ih
    · exact ih

theorem Carried.args {around wider seen : List Symbol} {as : List (Arg Node)}
    {bs : List (Arg (List Symbol))} {σ : Subst} {L : Lost}
    (carried : Carried U D F wider σ L) (each : List.Forall₂ (ArgAgrees D F around) as bs)
    (sub : ∀ y ∈ around, y ∈ wider)
    (bound : ∀ y ∈ (keptArgs U seen as).map Arg.name, y ∈ wider ∧ y ∉ D) :
    Carried U D F wider (as.map (Arg.value U seen) ++ σ) (bs.map (lostBy U seen) ++ L) := by
  induction each with
  | nil => exact carried
  | @cons a b as bs first _ ih =>
    have inlined : a.inlined U seen = b.inlined U seen := by
      rw [Arg.inlined, Arg.inlined, first.same.1, first.same.2]
    have rest := ih fun y mem => bound y (by
      rw [keptArgs, List.filter_cons]
      split
      · exact List.mem_cons_of_mem _ mem
      · exact mem)
    refine .cons ?_ rest
    by_cases goes : a.inlined U seen = true
    · have goes' := inlined.symm.trans goes
      refine ⟨first.same.1, fun _ => ?_, ?_, ?_⟩
      · simpa [Arg.value, lostBy, goes, goes'] using first.agrees.widen sub
      · simpa [Arg.value, goes] using first.plain
      · intro assigns
        have assigns : assigned U a.name = true := assigns
        simp [Arg.inlined, inlines, assigns] at goes
    · have stays := bound a.name (by simp [keptArgs, goes])
      have goes' : ¬ b.inlined U seen = true := inlined ▸ goes
      refine ⟨first.same.1, fun _ => ⟨?_, ?_⟩, ?_, ?_⟩
      · intro z mem
        simp only [Arg.value, goes, Bool.false_eq_true, if_false, free, List.mem_singleton] at mem
        exact .inl (.inl (mem ▸ stays))
      · simp [lostBy, goes']
      · simp [Arg.value, goes, isDefine]
      · simp [Arg.value, lostBy, goes, goes']

theorem mem_optAll {σ : Subst} {xs : List Node} {w : Node} (mem : w ∈ optAll U σ xs) :
    ∃ x ∈ xs, w = opt U σ x := by
  induction xs with
  | nil => simp [optAll] at mem
  | cons x xs ih =>
    rw [optAll, List.mem_cons] at mem
    rcases mem with rfl | mem
    · exact ⟨x, by simp, rfl⟩
    · obtain ⟨y, hy, same⟩ := ih mem
      exact ⟨y, by simp [hy], same⟩

theorem inlinesCall_names {seen : List Symbol} {args : Formals} {vals : List Node}
    (inlines : inlinesCall U seen args vals = true) :
    args.names = args.fixed ∧ args.fixed.length ≤ vals.length := by
  simp only [inlinesCall, Bool.and_eq_true, Option.isNone_iff_eq_none, decide_eq_true_eq] at inlines
  obtain ⟨⟨plain, le⟩, _⟩ := inlines
  exact ⟨by simp [Formals.names, plain], le⟩

/-- The parameters that stay are those that are not lost. -/
theorem mem_kept_iff {around seen : List Symbol} {args : Formals} {vals ws : List Node}
    (inlines : inlinesCall U seen args vals = true) (same : ws.length = vals.length)
    (names : Part D F around [] (inlinedNames U seen args vals) args.names) {y : Symbol}
    (mem : y ∈ args.names) :
    y ∈ (keptArgs U seen (zipArgs args.fixed vals ws)).map Arg.name ↔ y ∉ D := by
  obtain ⟨fixed, le⟩ := inlinesCall_names inlines
  have gone : inlinedNames U seen args vals =
      ((zipArgs args.fixed vals vals).filter (Arg.inlined U seen)).map Arg.name := by
    rw [inlinedNames, if_pos inlines]
  have valNames : (zipArgs args.fixed vals vals).map Arg.name = args.names := by
    rw [fixed]
    exact zipArgs_names rfl le
  have nodup : ((zipArgs args.fixed vals vals).map Arg.name).Nodup := by
    rw [valNames]
    exact names.nodup
  rw [keptArgs_same (zipArgs_same same rfl), kept_or_gone nodup (by rwa [valNames]), ← gone]
  exact ⟨fun stays lost => stays (names.only y mem lost),
    fun stays lost => stays (names.drops y lost)⟩

theorem defined_none {body : List Node} (none : body.any isDefine = false) : defined body = [] := by
  have no : definesOf body = [] := by
    rw [definesOf, List.filter_eq_nil_iff]
    intro x mem
    have := List.any_eq_false.mp none x mem
    exact this
  rw [defined, no]
  rfl

theorem closes_inlined {args : Formals} {body vals : List Node}
    (each : ∀ x ∈ body, Closes U D F (itemValue x)) (eachVal : ∀ v ∈ vals, Closes U D F v)
    (placeBody : placedBody body = true) (placeVals : placedAll vals = true) {σ : Subst} {L : Lost}
    {around : List Symbol} (carried : Carried U D F around σ L)
    (sub : ∀ u ∈ usesAll (args.names ++ seenIn σ) body, u ∈ U)
    (subVals : ∀ u ∈ usesAll (seenIn σ) vals, u ∈ U)
    (inlines : inlinesCall U (seenIn σ) args vals = true)
    (part : Part D F around (free (.lambda args body) ++ freeAll vals)
      (inlinedNames U (seenIn σ) args vals ++ droppedBody U (args.names ++ seenIn σ) body ++
        droppedAll U (seenIn σ) vals) (args.names ++ bindersAll body ++ bindersAll vals)) :
    Agrees D F around (free (opt U σ (.app (.lambda args body) vals)))
      (left U L (.app (.lambda args body) vals)) := by
  have drops : ∀ y ∈ droppedBody U (args.names ++ seenIn σ) body, y ∈ bindersAll body :=
    droppedBody_binders (fun y _ => dropped_binders y) _
  have dropsVals : ∀ y ∈ droppedAll U (seenIn σ) vals, y ∈ bindersAll vals :=
    droppedAll_binders (fun y _ => dropped_binders y) _
  obtain ⟨callee, operands⟩ := part.split (by
    intro y mem
    rw [List.mem_append] at mem ⊢
    exact mem.imp mem_inlinedNames (drops y)) dropsVals
  obtain ⟨names, inner⟩ := callee.behind (fun y => mem_inlinedNames) drops
  have gone := defined_gone placeBody inner
  obtain ⟨fixed, le⟩ := inlinesCall_names inlines
  set as := zipArgs args.fixed vals (optAll U σ vals) with as_def
  set bs := zipArgs args.fixed vals (leftEach U L vals) with bs_def
  have agreed := closesAll eachVal placeVals carried subVals operands
  have pairs : List.Forall₂ (ArgAgrees D F around) as bs := zipArgs_agrees agreed (by
    intro w mem
    obtain ⟨x, hx, rfl⟩ := mem_optAll mem
    exact opt_notDefine (placedAll_iff.mp placeVals x hx) carried.values)
  have asNames : as.map Arg.name = args.names := by
    rw [fixed]
    exact zipArgs_names (length_optAll vals) le
  have keptNamed : ∀ y ∈ (keptArgs U (seenIn σ) as).map Arg.name, y ∈ args.names := by
    intro y mem
    obtain ⟨a, ha, rfl⟩ := List.mem_map.mp mem
    rw [← asNames]
    exact List.mem_map.mpr ⟨a, (List.mem_filter.mp ha).1, rfl⟩
  have kept : ∀ y ∈ args.names, y ∈ (keptArgs U (seenIn σ) as).map Arg.name ↔ y ∉ D :=
    fun y mem => mem_kept_iff inlines (length_optAll vals) names mem
  have carried' : Carried U D F (args.names ++ defined body ++ around)
      (as.map (Arg.value U (seenIn σ)) ++ σ) (bs.map (lostBy U (seenIn σ)) ++ L) := by
    refine (carried.widen (by simp +contextual)).args pairs (by simp +contextual) ?_
    intro y mem
    exact ⟨by simp [keptNamed y mem], (kept y (keptNamed y mem)).mp mem⟩
  have seen : seenIn (as.map (Arg.value U (seenIn σ)) ++ σ) = args.names ++ seenIn σ := by
    simp [asNames]
  have inside := closesBody each placeBody carried' (by rwa [seen]) (by
    rw [seen]
    refine { inner with scope := fun y mem => ?_ }
    by_cases bound : y ∈ args.names ++ defined body
    · exact .inl (by simp only [List.mem_append] at bound ⊢; exact .inl bound)
    · have out : y ∈ free (.lambda args body) := by
        rw [free]
        exact List.mem_filter.mpr ⟨mem, by simpa using bound⟩
      exact (part.scope y (by simp [out])).imp_left fun h => by simp [h]) (by simp +contextual)
  have defines := defined_optBody (U := U) placeBody carried'.values
  have stay : ∀ y ∈ (keptArgs U (seenIn σ) as).map Arg.name ++
      defined (optBody U (as.map (Arg.value U (seenIn σ)) ++ σ) body), y ∉ D := by
    intro y mem
    rw [defines] at mem
    rcases List.mem_append.mp mem with mem | mem
    · exact (kept y (keptNamed y mem)).mp mem
    · obtain ⟨mem, met⟩ := List.mem_filter.mp mem
      simp [gone y mem, met]
  have bound := inside.bind stay (by
    intro y mem stays
    rw [defines]
    rw [List.mem_append] at mem ⊢
    refine mem.imp (fun mem => (kept y mem).mpr stays) fun mem => List.mem_filter.mpr ⟨mem, ?_⟩
    rwa [gone y mem, Bool.not_eq_false] at stays)
  have rest : List.Forall₂ (Agrees D F around)
      (((keptArgs U (seenIn σ) as).map Arg.after).map free)
      ((keptArgs U (seenIn σ) bs).map Arg.after) := keptArgs_agrees pairs
  rw [opt, left, ← carried.seen, if_pos inlines, if_pos inlines]
  dsimp only
  rw [← as_def, ← bs_def]
  split
  · rename_i empty
    simp only [Bool.and_eq_true, List.isEmpty_iff, Bool.not_eq_true'] at empty
    have noArgs : keptArgs U (seenIn σ) bs = [] := by
      have := rest.length_eq
      simpa [empty.1] using this.symm
    rw [free, noArgs]
    rw [defines, empty.1, defined_none empty.2] at bound
    simpa using bound
  · have names (xs : List Symbol) : Formals.names ⟨xs, none⟩ = xs := by simp [Formals.names]
    rw [free, free, names]
    exact bound.append (agrees_flatten rest)

theorem dropsAll_binders (xs : List Node) (seen : List Symbol) :
    ∀ y ∈ droppedAll U seen xs, y ∈ bindersAll xs :=
  droppedAll_binders (fun y _ => dropped_binders y) seen

theorem closes_set {x : Symbol} {v : Node} (place : placed v = true) (ih : Closes U D F v) :
    Closes U D F (.set x v) := by
  intro σ L around _ carried sub part
  change ∀ u ∈ uses (seenIn σ) (.set x v), u ∈ U at sub
  change Part D F around (x :: free v) (dropped U (seenIn σ) (.set x v)) (binders v) at part
  rw [opt, left, ← carried.seen]
  by_cases here : x ∈ seenIn σ
  · rw [uses, if_pos here, List.forall_mem_cons] at sub
    rw [dropped, if_pos here] at part
    rw [if_pos here, if_pos here, free]
    have met : used U x = true := used_of_mem sub.1
    have assigns : assigned U x = true := by
      rw [assigned, List.any_eq_true]
      exact ⟨_, sub.1, by simp⟩
    have whole : Part D F around ([x] ++ free v) ([] ++ dropped U (seenIn σ) v)
        ([] ++ binders v) := part
    obtain ⟨_, rest⟩ := whole.split (by simp) (dropped_binders v _)
    have value := ih σ L around place carried sub.2 rest
    rcases carried.lookup x with ⟨out, _⟩ | ⟨w, l, _, _, _, h⟩
    · exact absurd here out
    · have target := h.agrees met
      have stays := h.stays assigns
      simp only at stays target
      rw [stays.1, stays.2] at target
      exact target.append value
  · rw [if_neg here, if_neg here]
    exact .raw part.scope

theorem closes_ite {p c t : Node} (place : placed (.ite p c t) = true) (hp : Closes U D F p)
    (hc : Closes U D F c) (ht : Closes U D F t) : Closes U D F (.ite p c t) := by
  intro σ L around _ carried sub part
  simp only [placed, Bool.and_eq_true] at place
  change ∀ u ∈ uses (seenIn σ) (.ite p c t), u ∈ U at sub
  change Part D F around (free p ++ free c ++ free t) (dropped U (seenIn σ) p ++
    dropped U (seenIn σ) c ++ dropped U (seenIn σ) t)
    (binders p ++ binders c ++ binders t) at part
  rw [uses, List.forall_mem_append, List.forall_mem_append] at sub
  rw [opt, left, free]
  obtain ⟨firsts, third⟩ := part.split (by
    intro y mem
    rw [List.mem_append] at mem ⊢
    exact mem.imp (dropped_binders p _ y) (dropped_binders c _ y)) (dropped_binders t _)
  obtain ⟨first, second⟩ := firsts.split (dropped_binders p _) (dropped_binders c _)
  exact ((hp σ L around place.1.1 carried sub.1.1 first).append
    (hc σ L around place.1.2 carried sub.1.2 second)).append
    (ht σ L around place.2 carried sub.2 third)

theorem closes_begin {forms : List Node} (place : placedAll forms = true)
    (each : ∀ x ∈ forms, Closes U D F x) : Closes U D F (.begin forms) := by
  intro σ L around _ carried sub part
  rw [opt, left, free]
  exact agrees_flatten (closesAll each place carried sub part)

theorem closes_lambdaCall {args : Formals} {body vals : List Node} (place : placedBody body = true)
    (placeVals : placedAll vals = true) (each : ∀ x ∈ body, Closes U D F (itemValue x))
    (eachVal : ∀ v ∈ vals, Closes U D F v) : Closes U D F (.app (.lambda args body) vals) := by
  intro σ L around _ carried sub part
  change ∀ u ∈ uses (seenIn σ) (.app (.lambda args body) vals), u ∈ U at sub
  change Part D F around (free (.lambda args body) ++ freeAll vals)
    (inlinedNames U (seenIn σ) args vals ++ droppedBody U (args.names ++ seenIn σ) body ++
      droppedAll U (seenIn σ) vals) (args.names ++ bindersAll body ++ bindersAll vals) at part
  rw [uses, List.forall_mem_append, uses] at sub
  by_cases inlines : inlinesCall U (seenIn σ) args vals = true
  · exact closes_inlined each eachVal place placeVals carried sub.1 sub.2 inlines part
  · rw [inlinedNames, if_neg inlines, List.nil_append] at part
    obtain ⟨callee, operands⟩ := part.split (by
      intro y mem
      rw [List.mem_append]
      exact .inr (droppedBody_binders (fun y _ => dropped_binders y) _ y mem))
      (dropsAll_binders vals _)
    have function := closes_lambda each σ L around place carried sub.1 callee
    rw [opt, left] at function
    rw [opt, left, ← carried.seen, if_neg inlines, if_neg inlines, free]
    exact function.append (agrees_flatten (closesAll eachVal placeVals carried sub.2 operands))

theorem closes_app {f : Node} {args : List Node} (plain : ∀ xs body, f ≠ .lambda xs body)
    (place : placed f = true) (placeArgs : placedAll args = true) (hf : Closes U D F f)
    (each : ∀ x ∈ args, Closes U D F x) : Closes U D F (.app f args) := by
  intro σ L around _ carried sub part
  change ∀ u ∈ uses (seenIn σ) (.app f args), u ∈ U at sub
  change Part D F around (free f ++ freeAll args) (dropped U (seenIn σ) (.app f args))
    (binders f ++ bindersAll args) at part
  rw [uses, List.forall_mem_append] at sub
  rw [dropped_app plain] at part
  obtain ⟨first, second⟩ := part.split (dropped_binders f _) (dropsAll_binders args _)
  rw [opt_app plain, left_app plain, free]
  exact (hf σ L around place carried sub.1 first).append
    (agrees_flatten (closesAll each placeArgs carried sub.2 second))

theorem closes (n : Node) : placed (itemValue n) = true → Closes U D F (itemValue n) := by
  have inside {n : Node} (ih : placed (itemValue n) = true → Closes U D F (itemValue n))
      (place : placed n = true) : Closes U D F n := by
    have := ih (by rwa [placed_itemValue place])
    rwa [placed_itemValue place] at this
  induction n using inductCall with
  | const d =>
    intro _ σ L around _ _ _ _
    exact .nil
  | quote d =>
    intro _ σ L around _ _ _ _
    exact .nil
  | extend names => simp [itemValue, placed]
  | define x v ih => exact inside ih
  | sym x => exact fun _ => closes_sym x
  | lambda args body ih =>
    intro place
    change placedBody body = true at place
    exact closes_lambda fun x hx => ih x hx (placedBody_iff.mp place x hx)
  | set x v ih => exact fun place => closes_set place (inside ih place)
  | ite p c t hp hc ht =>
    intro place
    have parts := place
    simp only [itemValue, placed, Bool.and_eq_true] at parts
    exact closes_ite place (inside hp parts.1.1) (inside hc parts.1.2) (inside ht parts.2)
  | begin forms ih =>
    intro place
    exact closes_begin place fun x hx => inside (ih x hx) (placedAll_iff.mp place x hx)
  | call args body vals ih ihVals =>
    intro place
    simp only [itemValue, placed, Bool.and_eq_true] at place
    exact closes_lambdaCall place.1 place.2 (fun x hx => ih x hx (placedBody_iff.mp place.1 x hx))
      fun v hv => inside (ihVals v hv) (placedAll_iff.mp place.2 v hv)
  | app f args plain hf ih =>
    intro place
    simp only [itemValue, placed, Bool.and_eq_true] at place
    exact closes_app plain place.1 place.2 (inside hf place.1) fun x hx =>
      inside (ih x hx) (placedAll_iff.mp place.2 x hx)

end closed

/- The result is closed exactly when no use out of scope that is left has lost its binder. -/
theorem staysClosed_iff {p out : Node} (place : placed p = true) (distinct : (binders p).Nodup)
    (result : optimizeSource p = .ok out) : StaysClosed p out ↔ Keeps p := by
  have same := optimizeSource_eq place distinct result
  have part : Part (dropped (uses [] p) [] p) (free p) [] (free p) (dropped (uses [] p) [] p)
      (binders p) := ⟨fun y => .inr, distinct, fun y => id, fun y mem gone => gone⟩
  have agrees := closes (U := uses [] p) (D := dropped (uses [] p) [] p) (F := free p) p
    (by rwa [placed_itemValue place])
  rw [placed_itemValue place] at agrees
  have agrees := agrees [] [] [] place .nil (fun u => id) part
  rw [same]
  constructor
  · intro closed y mem gone
    exact closed y (agrees.down y mem gone)
  · intro keeps y mem
    rcases agrees.up y mem with (⟨none, _⟩ | free) | lost
    · simp at none
    · exact free
    · exact keeps y lost.1 lost.2

/-- (lambda (a) (define g 1) (define f (lambda () a)) ((lambda (x y) (x y)) f 2)), where g goes
    and both parameters of the call are inlined. -/
def inlining : Node :=
  .lambda ⟨["a"], none⟩ [.define "g" (.const (.num 1)),
    .define "f" (.lambda ⟨[], none⟩ [.sym "a"]),
    .app (.lambda ⟨["x", "y"], none⟩ [.app (.sym "x") [.sym "y"]]) [.sym "f", .const (.num 2)]]

theorem staysClosed_inlining :
    ∃ out, optimizeSource inlining = .ok out ∧ StaysClosed inlining out :=
  ⟨_, rfl, (staysClosed_iff (by decide) (by decide) rfl).mpr (by unfold Keeps; decide)⟩

/-- (lambda () (define f (lambda () g)) (define g 1) (f)) -/
def laterDefine : Node :=
  .lambda ⟨[], none⟩ [.define "f" (.lambda ⟨[], none⟩ [.sym "g"]),
    .define "g" (.const (.num 1)), .app (.sym "f") []]

/- The use of g is met before its definition, which goes. -/
theorem use_dangles : ¬ ∀ p out, isCore p = true → (binders p).Nodup →
    optimizeSource p = .ok out → StaysClosed p out := by
  intro claim
  have closed := claim laterDefine _ (by decide) (by decide) rfl
  have dangles : "g" ∉ free laterDefine := by decide
  exact dangles (closed "g" (by decide))

end LGears.OptimizerScope
