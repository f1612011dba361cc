import LGears.Cps

/- Core programs in the shape the expander gives them: definitions stand at the head of a
   body and no sequence is empty. -/
namespace LGears.CoreProgram
open PrimitivesInfo Cps

/-- A type test names its type by a symbol. -/
def typeTestOk (f : Node) (args : List Node) : Bool :=
  !isTypeTest f || match args with
    | .sym _ :: _ => true
    | _ => false

mutual
def isCore : Node → Bool
  | .const _ | .quote _ | .sym _ => true
  | .lambda _ body => isCoreBody body
  | .ite pred conseq alt => isCore pred && isCore conseq && isCore alt
  | .set _ value => isCore value
  | .begin forms => !forms.isEmpty && isCoreAll forms
  | .app f args => typeTestOk f args && isCore f && isCoreAll args
  | .define _ _ | .extend _ => false
def isCoreAll : List Node → Bool
  | [] => true
  | x :: xs => isCore x && isCoreAll xs
def isCoreBody : List Node → Bool
  | [] => false
  | x :: xs =>
    if isDefine x then isCoreDefine x && isCoreBody xs else isCore x && isCoreAll xs
def isCoreDefine : Node → Bool
  | .define _ value => isCore value
  | _ => false
end

theorem isCoreAll_iff {xs : List Node} : isCoreAll xs = true ↔ ∀ x ∈ xs, isCore x = true := by
  induction xs with
  | nil => simp [isCoreAll]
  | cons x xs ih => simp [isCoreAll, ih]

theorem isCore_notDefine {x : Node} (h : isCore x = true) : isDefine x = false := by
  cases x <;> first | rfl | simp [isCore] at h

/-- The parts of a body: its definitions, then at least one expression. -/
structure CoreParts (body : List Node) : Prop where
  split : body = definesOf body ++ expressionsOf body
  some : expressionsOf body ≠ []
  exprs : ∀ x ∈ expressionsOf body, isCore x = true
  defines : ∀ x ∈ definesOf body, ∃ y v, x = .define y v ∧ isCore v = true

theorem isCoreBody_parts {body : List Node} (h : isCoreBody body = true) : CoreParts body := by
  induction body with
  | nil => simp [isCoreBody] at h
  | cons x xs ih =>
    rw [isCoreBody] at h
    split at h
    · rename_i isDef
      simp only [Bool.and_eq_true] at h
      have rest := ih h.2
      have defs : definesOf (x :: xs) = x :: definesOf xs := by simp [definesOf, isDef]
      have exprs : expressionsOf (x :: xs) = expressionsOf xs := by simp [expressionsOf, isDef]
      refine ⟨?_, exprs ▸ rest.some, exprs ▸ rest.exprs, ?_⟩
      · rw [defs, exprs, List.cons_append, ← rest.split]
      · rw [defs]
        intro y hy
        rcases List.mem_cons.mp hy with rfl | hy
        · cases y with
          | define y v => exact ⟨y, v, rfl, by simpa [isCoreDefine] using h.1⟩
          | _ => simp [isDefine] at isDef
        · exact rest.defines y hy
    · rename_i isDef
      simp only [Bool.and_eq_true, isCoreAll_iff] at h
      have core : ∀ y ∈ x :: xs, isCore y = true := by
        intro y hy
        rcases List.mem_cons.mp hy with rfl | hy
        · exact h.1
        · exact h.2 y hy
      have defs : definesOf (x :: xs) = [] := by
        rw [definesOf, List.filter_eq_nil_iff]
        intro y hy
        simp [isCore_notDefine (core y hy)]
      have exprs : expressionsOf (x :: xs) = x :: xs := by
        rw [expressionsOf, List.filter_eq_self]
        intro y hy
        simp [isCore_notDefine (core y hy)]
      exact ⟨by rw [defs, exprs]; rfl, by simp [exprs], exprs.symm ▸ core, by simp [defs]⟩

/- The parameters and defined names of a program, in the order of the text. -/
mutual
def binders : Node → List Symbol
  | .const _ | .quote _ | .sym _ | .extend _ => []
  | .lambda args body => args.names ++ bindersAll body
  | .ite pred conseq alt => binders pred ++ binders conseq ++ binders alt
  | .set _ value => binders value
  | .define y value => y :: binders value
  | .begin forms => bindersAll forms
  | .app f args => binders f ++ bindersAll args
def bindersAll : List Node → List Symbol
  | [] => []
  | x :: xs => binders x ++ bindersAll xs
end

/-- A name that is no word of the language. -/
def plainName (x : Symbol) : Bool :=
  !(builtinNames.contains x || primitivesOperators.contains x || keywords.contains x)

theorem mem_bindersAll {y : Symbol} {xs : List Node} :
    y ∈ bindersAll xs ↔ ∃ x ∈ xs, y ∈ binders x := by
  induction xs with
  | nil => simp [bindersAll]
  | cons x xs ih => simp [bindersAll, ih]

end LGears.CoreProgram
