import LGears.CpsConversion
import LGears.Opcode
import LGears.OptimizerScope

/- Where a node stands in a program that the source optimizer keeps the effects of: what is
   bound around it, which of it the optimizer has met, and that it drops nothing with an effect. -/
namespace LGears.OptimizerPlaces
open PrimitivesInfo Cps CoreProgram Inlining OptimizerScope Resolution

/-- A name that is no word of the language. -/
def variableName (x : Symbol) : Bool := plainName x && !Opcode.typeTests.contains x

/- Evaluation of the node makes objects at most: it calls nothing but operations and builtins
   that the optimizer takes for free of effects, on operands of this kind. -/
mutual
def quiet (around : List Symbol) : Node → Bool
  | .const _ | .quote _ | .sym _ | .lambda _ _ => true
  | .ite pred conseq alt => quiet around pred && quiet around conseq && quiet around alt
  | .begin forms => quietAll around forms
  | .app (.sym f) args =>
    f ∉ around && SourceOptimizer.effectFreeHead (.raw (.sym f)) && quietAll around args
  | .app _ _ | .set _ _ | .define _ _ | .extend _ => false
def quietAll (around : List Symbol) : List Node → Bool
  | [] => true
  | x :: xs => quiet around x && quietAll around xs
end

/- What is dropped is quiet, and a variable whose definition is still ahead is not assigned to,
   and not used when its definition is dropped. -/
mutual
def dropsQuiet (U : List Use) (seen ahead : List Symbol) : Node → Bool
  | .const _ | .quote _ | .extend _ => true
  | .sym x => x ∈ seen || x ∉ ahead || used U x
  | .lambda args body => dropsQuietBody U (args.names ++ seen) (defined body ++ ahead) body
  | .ite pred conseq alt =>
    dropsQuiet U seen ahead pred && dropsQuiet U seen ahead conseq && dropsQuiet U seen ahead alt
  | .set x value => if x ∈ seen then dropsQuiet U seen ahead value else x ∉ ahead
  | .define x value => dropsQuiet U (x :: seen) ahead value
  | .begin forms => dropsQuietAll U seen ahead forms
  | .app f args => dropsQuiet U seen ahead f && dropsQuietAll U seen ahead args
def dropsQuietAll (U : List Use) (seen ahead : List Symbol) : List Node → Bool
  | [] => true
  | x :: xs => dropsQuiet U seen ahead x && dropsQuietAll U seen ahead xs
def dropsQuietBody (U : List Use) (seen ahead : List Symbol) : List Node → Bool
  | [] => true
  | .define x value :: next =>
    (if used U x then dropsQuiet U (x :: seen) ahead value else quiet (seen ++ ahead) value) &&
      dropsQuietBody U (x :: seen) ahead next
  | x :: next =>
    (if !next.isEmpty && effectFree seen x then quiet (seen ++ ahead) x
      else dropsQuiet U seen ahead x) && dropsQuietBody U seen ahead next
end

/-- A node at a place where `seen` and `ahead` are bound, the former met by the optimizer. -/
structure Fits (U : List Use) (seen ahead : List Symbol) (n : Node) : Prop where
  core : isCore n = true
  nodup : (binders n).Nodup
  fresh : ∀ y ∈ binders n, y ∉ seen ∧ y ∉ ahead
  words : ∀ y ∈ binders n, variableName y = true
  counted : ∀ u ∈ uses seen n, u ∈ U
  drops : dropsQuiet U seen ahead n = true

section fits
variable {U : List Use} {seen ahead : List Symbol}

theorem isCoreBody_define {y : Symbol} {v : Node} {xs : List Node} :
    isCoreBody (.define y v :: xs) = (isCore v && isCoreBody xs) := by
  rw [isCoreBody]
  rfl

theorem isCoreBody_expr {x : Node} {xs : List Node} (plain : isDefine x = false) :
    isCoreBody (x :: xs) = (isCore x && isCoreAll xs) := by
  rw [isCoreBody, if_neg (by simp [plain])]

theorem fits_members {xs : List Node} (core : isCoreAll xs = true) (nodup : (bindersAll xs).Nodup)
    (fresh : ∀ y ∈ bindersAll xs, y ∉ seen ∧ y ∉ ahead)
    (words : ∀ y ∈ bindersAll xs, variableName y = true)
    (counted : ∀ u ∈ usesAll seen xs, u ∈ U) (drops : dropsQuietAll U seen ahead xs = true) :
    ∀ x ∈ xs, Fits U seen ahead x := by
  induction xs with
  | nil => simp
  | cons x xs ih =>
    simp only [isCoreAll, Bool.and_eq_true] at core
    rw [bindersAll, List.nodup_append] at nodup
    rw [bindersAll] at fresh words
    simp only [dropsQuietAll, Bool.and_eq_true] at drops
    rw [usesAll, placed_enter (isCore_placed core.1)] at counted
    intro z hz
    rcases List.mem_cons.mp hz with rfl | hz
    · exact ⟨core.1, nodup.1, fun y hy => fresh y (List.mem_append_left _ hy),
        fun y hy => words y (List.mem_append_left _ hy),
        fun u hu => counted u (List.mem_append_left _ hu), drops.1⟩
    · exact ih core.2 nodup.2.1 (fun y hy => fresh y (List.mem_append_right _ hy))
        (fun y hy => words y (List.mem_append_right _ hy))
        (fun u hu => counted u (List.mem_append_right _ hu)) drops.2 z hz

theorem Fits.ite {p a b : Node} (h : Fits U seen ahead (.ite p a b)) :
    Fits U seen ahead p ∧ Fits U seen ahead a ∧ Fits U seen ahead b := by
  obtain ⟨core, nodup, fresh, words, counted, drops⟩ := h
  simp only [isCore, Bool.and_eq_true] at core
  rw [binders, List.nodup_append, List.nodup_append] at nodup
  rw [binders] at fresh words
  rw [uses] at counted
  simp only [dropsQuiet, Bool.and_eq_true] at drops
  have first {y : Symbol} (hy : y ∈ binders p) : y ∈ binders p ++ binders a ++ binders b := by
    simp [hy]
  have second {y : Symbol} (hy : y ∈ binders a) : y ∈ binders p ++ binders a ++ binders b := by
    simp [hy]
  have third {y : Symbol} (hy : y ∈ binders b) : y ∈ binders p ++ binders a ++ binders b := by
    simp [hy]
  exact ⟨⟨core.1.1, nodup.1.1, fun y hy => fresh y (first hy), fun y hy => words y (first hy),
      fun u hu => counted u (by simp [hu]), drops.1.1⟩,
    ⟨core.1.2, nodup.1.2.1, fun y hy => fresh y (second hy), fun y hy => words y (second hy),
      fun u hu => counted u (by simp [hu]), drops.1.2⟩,
    ⟨core.2, nodup.2.1, fun y hy => fresh y (third hy), fun y hy => words y (third hy),
      fun u hu => counted u (by simp [hu]), drops.2⟩⟩

theorem Fits.begin {forms : List Node} (h : Fits U seen ahead (.begin forms)) :
    ∀ x ∈ forms, Fits U seen ahead x := by
  obtain ⟨core, nodup, fresh, words, counted, drops⟩ := h
  simp only [isCore, Bool.and_eq_true] at core
  rw [binders] at nodup fresh words
  rw [uses] at counted
  rw [dropsQuiet] at drops
  exact fits_members core.2 nodup fresh words counted drops

theorem Fits.app {f : Node} {args : List Node} (h : Fits U seen ahead (.app f args)) :
    Fits U seen ahead f ∧ ∀ x ∈ args, Fits U seen ahead x := by
  obtain ⟨core, nodup, fresh, words, counted, drops⟩ := h
  simp only [isCore, Bool.and_eq_true] at core
  rw [binders, List.nodup_append] at nodup
  rw [binders] at fresh words
  rw [uses] at counted
  simp only [dropsQuiet, Bool.and_eq_true] at drops
  exact ⟨⟨core.1.2, nodup.1, fun y hy => fresh y (List.mem_append_left _ hy),
      fun y hy => words y (List.mem_append_left _ hy),
      fun u hu => counted u (List.mem_append_left _ hu), drops.1⟩,
    fits_members core.2 nodup.2.1 (fun y hy => fresh y (List.mem_append_right _ hy))
      (fun y hy => words y (List.mem_append_right _ hy))
      (fun u hu => counted u (List.mem_append_right _ hu)) drops.2⟩

theorem Fits.set {x : Symbol} {v : Node} (h : Fits U seen ahead (.set x v)) (mem : x ∈ seen) :
    Fits U seen ahead v ∧ assigned U x = true := by
  obtain ⟨core, nodup, fresh, words, counted, drops⟩ := h
  rw [isCore] at core
  rw [binders] at nodup fresh words
  rw [uses, if_pos mem] at counted
  rw [dropsQuiet, if_pos mem] at drops
  refine ⟨⟨core, nodup, fresh, words, fun u hu => counted u (List.mem_cons_of_mem _ hu), drops⟩, ?_⟩
  exact List.any_eq_true.mpr ⟨⟨x, true⟩, counted _ (by simp), by simp⟩

theorem Fits.sym {x : Symbol} (h : Fits U seen ahead (.sym x)) (mem : x ∈ seen ∨ x ∈ ahead) :
    used U x = true := by
  by_cases met : x ∈ seen
  · exact used_of_mem (h.counted ⟨x, false⟩ (by rw [uses, if_pos met]; simp))
  · have drops := h.drops
    have coming := mem.resolve_left met
    simpa [dropsQuiet, met, coming] using drops

/-- The items of a body that are still to run, where `ahead` has their definitions. -/
structure FitsItems (U : List Use) (seen ahead : List Symbol) (xs : List Node) : Prop where
  core : isCoreBody xs = true
  nodup : (bindersAll xs).Nodup
  fresh : ∀ y ∈ bindersAll xs, y ∉ seen ∧ (y ∈ ahead → y ∈ defined xs)
  defs : ∀ y ∈ defined xs, y ∈ ahead
  words : ∀ y ∈ bindersAll xs, variableName y = true
  counted : ∀ u ∈ usesAll seen xs, u ∈ U
  drops : dropsQuietBody U seen ahead xs = true

theorem defined_cons (y : Symbol) (v : Node) (xs : List Node) :
    defined (.define y v :: xs) = y :: defined xs := rfl

theorem defined_skip {x : Node} (plain : isDefine x = false) (xs : List Node) :
    defined (x :: xs) = defined xs := by
  simp [defined, definesOf, plain]

theorem defined_sublist (xs : List Node) : (defined xs).Sublist (bindersAll xs) := by
  induction xs with
  | nil => exact .refl _
  | cons x xs ih =>
    rw [bindersAll]
    rcases item_cases x with ⟨y, v, rfl⟩ | ⟨_, plain⟩
    · rw [defined_cons, binders, List.cons_append]
      exact (ih.trans (List.sublist_append_right _ _)).cons_cons y
    · rw [defined_skip (by cases x <;> first | rfl | exact absurd rfl (plain _ _))]
      exact ih.trans (List.sublist_append_right _ _)

theorem Fits.items {args : Formals} {body : List Node} (h : Fits U seen ahead (.lambda args body)) :
    FitsItems U (args.names ++ seen) (defined body ++ ahead) body := by
  obtain ⟨core, nodup, fresh, words, counted, drops⟩ := h
  rw [isCore] at core
  rw [binders, List.nodup_append] at nodup
  rw [binders] at fresh words
  rw [uses] at counted
  rw [dropsQuiet] at drops
  refine ⟨core, nodup.2.1, fun y hy => ?_, fun y hy => List.mem_append_left _ hy,
    fun y hy => words y (List.mem_append_right _ hy), counted, drops⟩
  have out := fresh y (List.mem_append_right _ hy)
  rw [List.mem_append, not_or]
  refine ⟨⟨fun param => nodup.2.2 y param y hy rfl, out.1⟩, fun mem => ?_⟩
  exact (List.mem_append.mp mem).resolve_right out.2

theorem FitsItems.value {y : Symbol} {v : Node} {xs : List Node}
    (h : FitsItems U seen ahead (.define y v :: xs)) (use : used U y = true) :
    Fits U (y :: seen) ahead v := by
  obtain ⟨core, nodup, fresh, defs, words, counted, drops⟩ := h
  rw [isCoreBody_define, Bool.and_eq_true] at core
  rw [bindersAll, binders, List.cons_append, List.nodup_cons, List.nodup_append] at nodup
  rw [bindersAll, binders] at fresh words
  rw [usesAll, uses] at counted
  simp only [dropsQuietBody, use, if_true, Bool.and_eq_true] at drops
  have inside {z : Symbol} (hz : z ∈ binders v) : z ∈ y :: binders v ++ bindersAll xs := by
    simp [hz]
  have apart {z : Symbol} (hz : z ∈ binders v) : z ≠ y := fun e => nodup.1 (by simp [← e, hz])
  refine ⟨core.1, nodup.2.1, fun z hz => ⟨?_, fun mem => ?_⟩, fun z hz => words z (inside hz),
    fun u hu => counted u (List.mem_append_left _ hu), drops.1⟩
  · rw [List.mem_cons, not_or]
    exact ⟨apart hz, (fresh z (inside hz)).1⟩
  · have later := (fresh z (inside hz)).2 mem
    rw [defined_cons, List.mem_cons] at later
    have later := later.resolve_left (apart hz)
    exact nodup.2.2.2 z hz z ((defined_sublist xs).subset later) rfl

theorem FitsItems.afterDefine {y : Symbol} {v : Node} {xs : List Node}
    (h : FitsItems U seen ahead (.define y v :: xs)) : FitsItems U (y :: seen) ahead xs := by
  obtain ⟨core, nodup, fresh, defs, words, counted, drops⟩ := h
  rw [isCoreBody_define, Bool.and_eq_true] at core
  rw [bindersAll, binders, List.cons_append, List.nodup_cons, List.nodup_append] at nodup
  rw [bindersAll, binders] at fresh words
  rw [usesAll, uses] at counted
  simp only [dropsQuietBody, Bool.and_eq_true] at drops
  have inside {z : Symbol} (hz : z ∈ bindersAll xs) : z ∈ y :: binders v ++ bindersAll xs := by
    simp [hz]
  have apart {z : Symbol} (hz : z ∈ bindersAll xs) : z ≠ y := fun e => nodup.1 (by simp [← e, hz])
  refine ⟨core.2, nodup.2.2.1, fun z hz => ⟨?_, fun mem => ?_⟩,
    fun z hz => defs z (List.mem_cons_of_mem _ hz), fun z hz => words z (inside hz),
    fun u hu => counted u (List.mem_append_right _ hu), drops.2⟩
  · rw [List.mem_cons, not_or]
    exact ⟨apart hz, (fresh z (inside hz)).1⟩
  · have later := (fresh z (inside hz)).2 mem
    rw [defined_cons, List.mem_cons] at later
    exact later.resolve_left (apart hz)

theorem FitsItems.notLast {y : Symbol} {v : Node} {xs : List Node}
    (h : FitsItems U seen ahead (.define y v :: xs)) : xs ≠ [] := by
  rintro rfl
  simpa [isCoreBody] using h.afterDefine.core

theorem FitsItems.apart {y : Symbol} {v : Node} {xs : List Node}
    (h : FitsItems U seen ahead (.define y v :: xs)) : ∀ z ∈ defined xs, z ≠ y := by
  rintro z later rfl
  have nodup := h.nodup
  rw [bindersAll, binders, List.cons_append, List.nodup_cons] at nodup
  exact nodup.1 (List.mem_append_right _ ((defined_sublist xs).subset later))

theorem dropsQuietBody_expr {x : Node} {next : List Node} (plain : isDefine x = false) :
    dropsQuietBody U seen ahead (x :: next) =
      ((if !next.isEmpty && effectFree seen x then quiet (seen ++ ahead) x
        else dropsQuiet U seen ahead x) && dropsQuietBody U seen ahead next) := by
  cases x <;> first | rfl | simp [isDefine] at plain

theorem FitsItems.afterExpr {x : Node} {xs : List Node} (h : FitsItems U seen ahead (x :: xs))
    (plain : isDefine x = false) (more : xs ≠ []) : FitsItems U seen ahead xs := by
  obtain ⟨core, nodup, fresh, defs, words, counted, drops⟩ := h
  rw [isCoreBody_expr plain, Bool.and_eq_true] at core
  rw [bindersAll, List.nodup_append] at nodup
  rw [bindersAll] at fresh words
  rw [usesAll, placed_enter (isCore_placed core.1)] at counted
  rw [dropsQuietBody_expr plain, Bool.and_eq_true] at drops
  rw [defined_skip plain] at fresh defs
  have core' : isCoreBody xs = true := by
    cases xs with
    | nil => exact absurd rfl more
    | cons z zs =>
      have all := isCoreAll_iff.mp core.2
      have first := all z (by simp)
      rw [isCoreBody_expr (isCore_notDefine first), Bool.and_eq_true]
      exact ⟨first, isCoreAll_iff.mpr fun y hy => all y (by simp [hy])⟩
  exact ⟨core', nodup.2.1, fun z hz => fresh z (List.mem_append_right _ hz), defs,
    fun z hz => words z (List.mem_append_right _ hz),
    fun u hu => counted u (List.mem_append_right _ hu), drops.2⟩

theorem FitsItems.expr {x : Node} {xs : List Node} (h : FitsItems U seen ahead (x :: xs))
    (plain : isDefine x = false) (stays : (!xs.isEmpty && effectFree seen x) = false) :
    Fits U seen ahead x := by
  obtain ⟨core, nodup, fresh, defs, words, counted, drops⟩ := h
  rw [isCoreBody_expr plain, Bool.and_eq_true] at core
  rw [bindersAll, List.nodup_append] at nodup
  rw [bindersAll] at fresh words
  rw [usesAll] at counted
  rw [dropsQuietBody_expr plain, stays, Bool.and_eq_true] at drops
  rw [defined_skip plain] at fresh
  refine ⟨core.1, nodup.1, fun z hz => ?_, fun z hz => words z (List.mem_append_left _ hz),
    fun u hu => counted u (List.mem_append_left _ hu), drops.1⟩
  have out := fresh z (List.mem_append_left _ hz)
  exact ⟨out.1, fun mem =>
    nodup.2.2 z hz z ((defined_sublist xs).subset (out.2 mem)) rfl⟩

end fits

end LGears.OptimizerPlaces
