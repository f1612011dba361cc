import Mathlib.Data.List.Basic

/- The code of libraries and programs: the forms that expand-library and expand-top make around a
   body, what optimize-source leaves of them, and the order that cps-convert gives them. -/
namespace LGears.LibraryCode

/-- A variable: that of a library, which its import defines, or one of a definition. -/
inductive Var (α σ : Type) where
  | library (name : α)
  | defined (x : σ)
  deriving DecidableEq

/-- A form of a body after its expansion, with the variables that are free in it. -/
inductive Item (α σ : Type) where
  /-- (define x expr) -/
  | define (x : Var α σ) (free : List (Var α σ))
  /-- An expression. An inert one is dropped before the last form: it is side-effects-free? for
      optimize-body, or self-eval? for convert-seq. -/
  | expr (inert : Bool) (free : List (Var α σ))

/-- A library: its imports, the names that it exports and defines, and its body. The macros that it
    exports leave nothing in the code. -/
structure Library (α σ : Type) where
  imports : List α
  defines : List σ
  body : List (Item α σ)

structure Program (α σ : Type) where
  imports : List α
  body : List (Item α σ)

/-- The forms of the code that is made. -/
inductive Form (α σ : Type) where
  /-- (define name (load-library 'name)) -/
  | load (name : α)
  /-- (define x (name 'x)) -/
  | bind (x : σ) (name : α)
  /-- A form of the body of a library, or of a program. -/
  | body (owner : Option α) (k : Nat) (item : Item α σ)
  /-- ((void)) -/
  | void
  /-- (define exports (list (cons 'x x) ...)) -/
  | exports (defines : List σ)
  /-- (let ((res (lambda (imp) (__assqd? imp exports))))
        (library-cache (cons (cons 'name res) (library-cache)))
        res) -/
  | register (name : α)

section compile
variable {α σ : Type}

/-- (make-exporter name defines) -/
def makeExporter (name : α) (defines : List σ) : List (Form α σ) :=
  match defines with
  | [] => [.void]
  | _ => [.exports defines, .register name]

/-- (make-include name defines) -/
def makeInclude (name : α) (defines : List σ) : List (Form α σ) :=
  .load name :: defines.map fun x => .bind x name

/-- The forms for the imports, as resolve-imports gives them. -/
def includes (libs : α → Library α σ) (imports : List α) : List (Form α σ) :=
  imports.flatMap fun name => makeInclude name (libs name).defines

def bodyForms (owner : Option α) (body : List (Item α σ)) : List (Form α σ) :=
  body.zipIdx.map fun (item, k) => .body owner k item

/-- The variable that a definition binds. -/
def Form.binds : Form α σ → Option (Var α σ)
  | .load name => some (.library name)
  | .bind x _ => some (.defined x)
  | .body _ _ (.define x _) => some x
  | .body _ _ (.expr _ _) => none
  | .void => none
  | .exports _ => none
  | .register _ => none

def Form.free : Form α σ → List (Var α σ)
  | .load _ => []
  | .bind _ name => [.library name]
  | .body _ _ (.define _ free) => free
  | .body _ _ (.expr _ free) => free
  | .void => []
  | .exports defines => defines.map .defined
  | .register _ => []

def Form.inert : Form α σ → Bool
  | .load _ => false
  | .bind _ _ => false
  | .body _ _ (.define _ _) => false
  | .body _ _ (.expr inert _) => inert
  | .void => false
  | .exports _ => false
  | .register _ => false

/-- (defination? form) -/
def Form.isDefine : Form α σ → Bool
  | .load _ => true
  | .bind _ _ => true
  | .body _ _ (.define _ _) => true
  | .body _ _ (.expr _ _) => false
  | .void => false
  | .exports _ => true
  | .register _ => false

section optimize
variable [DecidableEq α] [DecidableEq σ]

/-- Whether analyze resolves a reference in the forms after a definition of x to it: up to the next
    definition of x, whose value already refers to that one. -/
def referenced (x : Var α σ) : List (Form α σ) → Bool
  | [] => false
  | form :: next =>
    if form.binds = some x then false else decide (x ∈ form.free) || referenced x next

/-- What optimize-body asks of a form: the binding of a definition has a ref-count above 0, and an
    expression that is not the last form has effects. -/
def Form.stays (form : Form α σ) (next : List (Form α σ)) : Bool :=
  match form.binds with
  | some x => decide (x ∈ form.free) || referenced x next
  | none => !form.inert || next.isEmpty

/-- (optimize-body body) -/
def optimizeBody : List (Form α σ) → List (Form α σ)
  | [] => []
  | form :: next =>
    if form.stays next then form :: optimizeBody next else optimizeBody next

/-- The body of the inner lambda of (expand-library x). -/
def expandLibrary (libs : α → Library α σ) (name : α) : List (Form α σ) :=
  optimizeBody (includes libs (libs name).imports ++ (bodyForms (some name) (libs name).body ++
    makeExporter name (libs name).defines))

/-- The body of the lambda of (expand-top x). -/
def expandTop (libs : α → Library α σ) (x : Program α σ) : List (Form α σ) :=
  optimizeBody (includes libs x.imports ++ bodyForms none x.body)

end optimize

/-- The order of (convert-body body name): the definitions, then the expressions. -/
def convertBody (body : List (Form α σ)) : List (Form α σ) :=
  body.filter Form.isDefine ++ body.filter fun form => !form.isDefine

def libraryCode [DecidableEq α] [DecidableEq σ] (libs : α → Library α σ) (name : α) :
    List (Form α σ) :=
  convertBody (expandLibrary libs name)

def programCode [DecidableEq α] [DecidableEq σ] (libs : α → Library α σ) (x : Program α σ) :
    List (Form α σ) :=
  convertBody (expandTop libs x)

end compile
section kept
variable {α σ : Type} [DecidableEq α] [DecidableEq σ] {libs : α → Library α σ}

/-- The forms of a body that stay when other forms follow it. -/
def keep (after : List (Form α σ)) : List (Form α σ) → List (Form α σ)
  | [] => []
  | form :: next =>
    if form.stays (next ++ after) then form :: keep after next else keep after next

theorem optimizeBody_append (forms after : List (Form α σ)) :
    optimizeBody (forms ++ after) = keep after forms ++ optimizeBody after := by
  induction forms with
  | nil => rfl
  | cons form forms ih =>
    rw [List.cons_append, optimizeBody, keep, ih]
    split <;> rfl

theorem keep_append (forms next after : List (Form α σ)) :
    keep after (forms ++ next) = keep (next ++ after) forms ++ keep after next := by
  induction forms with
  | nil => rfl
  | cons form forms ih =>
    rw [List.cons_append, keep, keep, ih, List.append_assoc]
    split <;> rfl

theorem keep_sublist (after forms : List (Form α σ)) : (keep after forms).Sublist forms := by
  induction forms with
  | nil => exact .slnil
  | cons form forms ih =>
    rw [keep]
    split
    · exact ih.cons_cons form
    · exact ih.cons form

theorem optimizeBody_makeExporter (name : α) (defines : List σ) :
    optimizeBody (makeExporter name defines) = makeExporter name defines := by
  cases defines <;> rfl

/- Of an include either nothing stays, or its load and some of its bindings: each of the bindings
   refers to the library. -/
theorem keep_makeInclude (after : List (Form α σ)) (name : α) (defines : List σ) :
    keep after (makeInclude name defines) = [] ∨ ∃ xs, (xs ≠ [] → defines ≠ []) ∧
      keep after (makeInclude name defines) = makeInclude name xs := by
  obtain ⟨xs, inside, binds⟩ :=
    List.sublist_map_iff.mp (keep_sublist after (defines.map fun x => Form.bind x name))
  have parts : keep after (makeInclude name defines) = makeInclude name xs ∨
      defines = [] ∧ keep after (makeInclude name defines) = [] := by
    rw [makeInclude, makeInclude, keep, binds]
    split
    · exact .inl rfl
    · rename_i dropped
      cases defines with
      | nil =>
        rw [List.sublist_nil.mp inside]
        exact .inr ⟨rfl, rfl⟩
      | cons x defines =>
        exact absurd (by simp [Form.stays, Form.binds, referenced, Form.free]) dropped
  rcases parts with some | ⟨_, none⟩
  · refine .inr ⟨xs, ?_, some⟩
    rintro more rfl
    exact more (List.sublist_nil.mp inside)
  · exact .inl none

def Form.loads : Form α σ → Option α
  | .load name => some name
  | .bind _ _ => none
  | .body _ _ _ => none
  | .void => none
  | .exports _ => none
  | .register _ => none

def Form.index : Form α σ → Option Nat
  | .load _ => none
  | .bind _ _ => none
  | .body _ k _ => some k
  | .void => none
  | .exports _ => none
  | .register _ => none

/-- The libraries that forms load. -/
def loadNames (forms : List (Form α σ)) : List α := forms.filterMap Form.loads

/-- Which forms of a body are among forms. -/
def bodyIndices (forms : List (Form α σ)) : List Nat := forms.filterMap Form.index

/-- The libraries that the code of a library loads. -/
def loadsOf (libs : α → Library α σ) (name : α) : List α := loadNames (libraryCode libs name)

/-- Which forms of its body are in the code of a library. -/
def bodyOf (libs : α → Library α σ) (name : α) : List Nat := bodyIndices (libraryCode libs name)

/-- The library m imports the library n. -/
def Imports (libs : α → Library α σ) (m n : α) : Prop := n ∈ (libs m).imports

omit [DecidableEq α] [DecidableEq σ] in
theorem loadNames_makeInclude (name : α) (defines : List σ) :
    loadNames (makeInclude name defines) = [name] := by
  have load : Form.loads (.load name : Form α σ) = some name := rfl
  have binds : defines.filterMap (Form.loads ∘ fun x => Form.bind x name) = [] := by
    simp [Function.comp_def, Form.loads]
  rw [makeInclude, loadNames, List.filterMap_cons_some load, List.filterMap_map, binds]

omit [DecidableEq α] [DecidableEq σ] in
theorem loadNames_includes (imports : List α) : loadNames (includes libs imports) = imports := by
  induction imports with
  | nil => rfl
  | cons name imports ih =>
    rw [includes, List.flatMap_cons, loadNames, List.filterMap_append, ← loadNames,
      loadNames_makeInclude]
    exact congrArg (name :: ·) ih

/-- The forms of a body of this owner, and no others. -/
def OnlyBody (owner : Option α) (forms : List (Form α σ)) : Prop :=
  ∀ form ∈ forms, ∃ k item, form = .body owner k item

omit [DecidableEq α] [DecidableEq σ] in
theorem onlyBody_bodyForms (owner : Option α) (body : List (Item α σ)) :
    OnlyBody owner (bodyForms owner body) := by
  intro form member
  obtain ⟨⟨item, k⟩, _, rfl⟩ := List.mem_map.mp member
  exact ⟨k, item, rfl⟩

/- The code that is run: the includes that stay, and after them the definitions of the body, the
   exports, the expressions of the body and the last form. -/

omit [DecidableEq α] [DecidableEq σ] in
theorem convertBody_append {forms : List (Form α σ)} (defines : ∀ form ∈ forms, form.isDefine = true)
    (body : List (Form α σ)) : convertBody (forms ++ body) = forms ++ convertBody body := by
  have all : forms.filter Form.isDefine = forms := List.filter_eq_self.mpr defines
  have none : forms.filter (fun form => !form.isDefine) = [] := by
    rw [List.filter_eq_nil_iff]
    intro form member
    simp [defines form member]
  rw [convertBody, convertBody, List.filter_append, List.filter_append, all, none, List.nil_append,
    List.append_assoc]

omit [DecidableEq α] [DecidableEq σ] in
theorem of_mem_includes {imports : List α} {form : Form α σ}
    (member : form ∈ includes libs imports) : form.isDefine = true ∧ form.index = none := by
  obtain ⟨name, _, inside⟩ := List.mem_flatMap.mp member
  rcases List.mem_cons.mp inside with rfl | binds
  · exact ⟨rfl, rfl⟩
  · obtain ⟨x, _, rfl⟩ := List.mem_map.mp binds
    exact ⟨rfl, rfl⟩

omit [DecidableEq α] [DecidableEq σ] in
theorem OnlyBody.sublist {owner : Option α} {forms body : List (Form α σ)}
    (only : OnlyBody owner body) (inside : forms.Sublist body) : OnlyBody owner forms :=
  fun form member => only form (inside.subset member)

/-- What follows the imports in the library. -/
def afterImports (libs : α → Library α σ) (name : α) : List (Form α σ) :=
  bodyForms (some name) (libs name).body ++ makeExporter name (libs name).defines

theorem libraryCode_eq (libs : α → Library α σ) (name : α) : ∃ defs exprs,
    OnlyBody (some name) defs ∧ OnlyBody (some name) exprs ∧ libraryCode libs name =
      keep (afterImports libs name) (includes libs (libs name).imports) ++
        (defs ++ ((makeExporter name (libs name).defines).filter Form.isDefine ++
          (exprs ++ (makeExporter name (libs name).defines).filter fun form => !form.isDefine))) := by
  have only : OnlyBody (some name) (keep (makeExporter name (libs name).defines)
      (bodyForms (some name) (libs name).body)) :=
    (onlyBody_bodyForms _ _).sublist (keep_sublist _ _)
  have defines : ∀ form ∈ keep (afterImports libs name) (includes libs (libs name).imports),
      form.isDefine = true :=
    fun form member => (of_mem_includes ((keep_sublist _ _).subset member)).1
  refine ⟨(keep _ _).filter Form.isDefine, (keep _ _).filter fun form => !form.isDefine,
    only.sublist List.filter_sublist, only.sublist List.filter_sublist, ?_⟩
  rw [libraryCode, expandLibrary, optimizeBody_append, ← afterImports, convertBody_append defines,
    afterImports,
    optimizeBody_append, optimizeBody_makeExporter, convertBody, List.filter_append,
    List.filter_append, List.append_assoc]

theorem optimizeBody_eq_keep (forms : List (Form α σ)) : optimizeBody forms = keep [] forms := by
  have parts := optimizeBody_append forms []
  rwa [List.append_nil, optimizeBody, List.append_nil] at parts

theorem programCode_eq (libs : α → Library α σ) (x : Program α σ) : ∃ body,
    OnlyBody none body ∧ programCode libs x =
      keep (bodyForms none x.body) (includes libs x.imports) ++ body := by
  have only : OnlyBody none (keep [] (bodyForms none x.body) : List (Form α σ)) :=
    (onlyBody_bodyForms _ _).sublist (keep_sublist _ _)
  refine ⟨convertBody (keep [] (bodyForms none x.body)), ?_, ?_⟩
  · intro form member
    rcases List.mem_append.mp member with define | expression
    · exact only form (List.filter_sublist.subset define)
    · exact only form (List.filter_sublist.subset expression)
  · have defines : ∀ form ∈ keep (bodyForms none x.body) (includes libs x.imports),
        form.isDefine = true :=
      fun form member => (of_mem_includes ((keep_sublist _ _).subset member)).1
    rw [programCode, expandTop, optimizeBody_append, convertBody_append defines,
      optimizeBody_eq_keep]

omit [DecidableEq α] [DecidableEq σ] in
theorem loadNames_body {owner : Option α} {body : List (Form α σ)} (only : OnlyBody owner body) :
    loadNames body = [] := by
  apply List.filterMap_eq_nil_iff.mpr
  intro form member
  obtain ⟨k, item, rfl⟩ := only form member
  rfl

omit [DecidableEq α] [DecidableEq σ] in
theorem loadNames_append (forms next : List (Form α σ)) :
    loadNames (forms ++ next) = loadNames forms ++ loadNames next := List.filterMap_append

omit [DecidableEq α] [DecidableEq σ] in
theorem bodyIndices_append (forms next : List (Form α σ)) :
    bodyIndices (forms ++ next) = bodyIndices forms ++ bodyIndices next := List.filterMap_append

omit [DecidableEq α] [DecidableEq σ] in
theorem makeExporter_loads (name : α) (defines : List σ) (p : Form α σ → Bool) :
    loadNames ((makeExporter name defines).filter p) = [] ∧
      bodyIndices ((makeExporter name defines).filter p) = [] := by
  constructor
  all_goals
    apply List.filterMap_eq_nil_iff.mpr
    intro form member
    have inside := List.filter_sublist.subset member
    cases defines with
    | nil =>
      rw [List.mem_singleton.mp inside]
      rfl
    | cons x defines =>
      rcases List.mem_cons.mp inside with rfl | last
      · rfl
      · rw [List.mem_singleton.mp last]
        rfl

theorem loadNames_keep (after : List (Form α σ)) (imports : List α) :
    (loadNames (keep after (includes libs imports))).Sublist imports := by
  have part : (loadNames (keep after (includes libs imports))).Sublist
      (loadNames (includes libs imports)) := (keep_sublist after _).filterMap _
  rwa [loadNames_includes] at part

theorem loadsOf_eq (libs : α → Library α σ) (name : α) : loadsOf libs name =
    loadNames (keep (afterImports libs name) (includes libs (libs name).imports)) := by
  obtain ⟨defs, exprs, only, only', code⟩ := libraryCode_eq libs name
  have none := fun p => (makeExporter_loads name (libs name).defines p).1
  rw [loadsOf, code, loadNames_append, loadNames_append, loadNames_append, loadNames_append,
    loadNames_body only, loadNames_body only', none, none]
  exact List.append_nil _

theorem imports_of_loadsOf (libs : α → Library α σ) (name : α) :
    ∀ n ∈ loadsOf libs name, Imports libs name n := by
  intro n member
  rw [loadsOf_eq] at member
  exact (loadNames_keep _ _).subset member

omit [DecidableEq α] [DecidableEq σ] in
theorem bodyIndices_bodyForms (owner : Option α) (body : List (Item α σ)) :
    bodyIndices (bodyForms owner body) = List.range body.length := by
  have each : (Form.index ∘ fun (item, k) => (.body owner k item : Form α σ)) =
      fun p => some p.2 := rfl
  rw [bodyIndices, bodyForms, List.filterMap_map, each, List.filterMap_eq_map',
    List.zipIdx_map_snd, List.range_eq_range']

omit [DecidableEq α] [DecidableEq σ] in
theorem bodyIndices_includes {forms : List (Form α σ)} {imports : List α}
    (inside : forms.Sublist (includes libs imports)) : bodyIndices forms = [] :=
  List.filterMap_eq_nil_iff.mpr fun _ member => (of_mem_includes (inside.subset member)).2

theorem nodup_bodyOf (libs : α → Library α σ) (name : α) : (bodyOf libs name).Nodup := by
  have order : (libraryCode libs name).Perm (expandLibrary libs name) := List.filter_append_perm _ _
  have whole : bodyIndices (includes libs (libs name).imports ++
      (bodyForms (some name) (libs name).body ++ makeExporter name (libs name).defines)) =
        List.range (libs name).body.length := by
    have none := (makeExporter_loads name (libs name).defines fun _ => true).2
    rw [List.filter_true] at none
    rw [bodyIndices_append, bodyIndices_append, bodyIndices_includes (List.Sublist.refl _), none,
      bodyIndices_bodyForms, List.append_nil, List.nil_append]
  have part : (bodyIndices (expandLibrary libs name)).Sublist
      (List.range (libs name).body.length) := by
    rw [← whole, expandLibrary, optimizeBody_eq_keep]
    exact (keep_sublist _ _).filterMap _
  have same : (bodyOf libs name).Perm (bodyIndices (expandLibrary libs name)) := order.filterMap _
  exact same.nodup_iff.mpr (part.nodup List.nodup_range)

theorem programCode_loads (libs : α → Library α σ) (x : Program α σ) :
    loadNames (programCode libs x) =
      loadNames (keep (bodyForms none x.body) (includes libs x.imports)) := by
  obtain ⟨body, only, code⟩ := programCode_eq libs x
  rw [code, loadNames_append, loadNames_body only, List.append_nil]

theorem bodyOf_eq {name : α} {forms defs middle exprs last : List (Form α σ)} {imports : List α}
    (code : libraryCode libs name = forms ++ (defs ++ (middle ++ (exprs ++ last))))
    (includes_ : forms.Sublist (includes libs imports)) (none : bodyIndices middle = [])
    (none' : bodyIndices last = []) : bodyOf libs name = bodyIndices defs ++ bodyIndices exprs := by
  rw [bodyOf, code, bodyIndices_append, bodyIndices_append, bodyIndices_append, bodyIndices_append,
    bodyIndices_includes includes_, none, none']
  simp
end kept

end LGears.LibraryCode
