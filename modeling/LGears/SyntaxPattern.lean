import LGears.SyntaxCore

/- Pattern matching on syntax objects: syntax-pattern.scm. -/
namespace LGears.SyntaxPattern
open SyntaxCore

/-- Whether the cdr of a pattern makes it an ellipsis-pair?. -/
def isEllipsis : Raw → Bool
  | .pair (.sym s) _ => s = "..."
  | _ => false

/-- (pair? pat) -/
def isRawPair : Raw → Bool
  | .pair _ _ => true
  | _ => false

/-- How a match ends without a result: through its continuation return, with #f, or in an error. -/
inductive Exit where
  | returnFalse
  | error
  deriving DecidableEq, Repr

abbrev Match := Except Exit

/-- A part of a value, where it is an error that there is none. -/
def part (x : Option Stx) : Match Stx :=
  match x with
  | some a => .ok a
  | none => .error .error

/-- (initial-merge pat xpr) -/
def initialMerge : Raw → Stx → Match Stx
  | .pair a d, xpr => do
    let first ← initialMerge a (← part (car xpr))
    let rest ← initialMerge d (← part (cdr xpr))
    return .pair first rest
  | .lit .null, _ => return .null
  | _, xpr => return .pair xpr .null

/-- (pattern-merge pat xpr1 xpr2) -/
def patternMerge : Raw → Stx → Stx → Match Stx
  | .pair a d, xpr1, xpr2 =>
    if isNull xpr2 then initialMerge (.pair a d) xpr1
    else do
      let first ← patternMerge a (← part (car xpr1)) (← part (car xpr2))
      let rest ← patternMerge d (← part (cdr xpr1)) (← part (cdr xpr2))
      return .pair first rest
  | pat, xpr1, xpr2 => if isNull xpr2 then initialMerge pat xpr1 else return .pair xpr1 xpr2

/-- (match-ellipsis xpr pat), where matchOne is the match of one element with pat. -/
def matchEllipsis (matchOne : Stx → Match Stx) (pat : Raw) (xpr : Stx) : Match Stx :=
  if isSyntaxNull xpr then return .null
  else
    match syntaxCar xpr, _here : syntaxCdr xpr with
    | some a, some d => do
      let first ← matchOne a
      let rest ← matchEllipsis matchOne pat d
      patternMerge pat first rest
    | _, _ => .error .returnFalse
termination_by xpr.size
decreasing_by exact size_syntaxCdr _here

/-- (match xpr pat) -/
def matchPat (reserved : List Symbol) : Raw → Stx → Match Stx
  | .pair a d, xpr =>
    if isEllipsis d then do
      let elm ← matchEllipsis (fun x => matchPat reserved a x) a xpr
      if isRawPair a then return elm else return .pair elm .null
    else if isSyntaxPair xpr then do
      let first ← matchPat reserved a (← part (syntaxCar xpr))
      let rest ← matchPat reserved d (← part (syntaxCdr xpr))
      return .pair first rest
    else .error .returnFalse
  | .lit .null, xpr => if isSyntaxNull xpr then return .null else .error .returnFalse
  | .sym s, xpr =>
    if s = "_" then return .null
    else if s ∈ reserved then
      if isIdentifier xpr ∧ syntaxObjectExpr xpr = some (.sym s) then return xpr
      else .error .returnFalse
    else return xpr
  | .lit l, xpr => do
    let expr ← part (syntaxObjectExpr xpr)
    if expr = .lit l then return .null else .error .returnFalse

/-- (pattern-match reserved xpr pat); none is #f. -/
def patternMatch (reserved : List Symbol) (xpr : Stx) (pat : Raw) : Except Unit (Option Stx) :=
  match matchPat reserved pat xpr with
  | .ok r => .ok (some r)
  | .error .returnFalse => .ok none
  | .error .error => .error ()

/- What a pattern stands for. -/

/-- The elements of a proper list. -/
def elements (x : Stx) : Option (List Stx) :=
  if isSyntaxNull x then some []
  else
    match syntaxCar x, _here : syntaxCdr x with
    | some a, some d => (elements d).map (a :: ·)
    | _, _ => none
termination_by x.size
decreasing_by exact size_syntaxCdr _here

/-- The syntax object is one of those that the pattern describes. -/
def Matches (reserved : List Symbol) : Raw → Stx → Prop
  | .pair a d, x =>
    if isEllipsis d then ∃ xs, elements x = some xs ∧ ∀ y ∈ xs, Matches reserved a y
    else ∃ y z, syntaxCar x = some y ∧ syntaxCdr x = some z ∧ Matches reserved a y ∧
      Matches reserved d z
  | .lit .null, x => isSyntaxNull x = true
  | .sym s, x => s ≠ "_" → s ∈ reserved → isIdentifier x = true ∧ syntaxObjectExpr x = some (.sym s)
  | .lit l, x => syntaxObjectExpr x = some (.lit l)

/-- A pattern without ellipses. -/
def plain : Raw → Bool
  | .pair a d => plain a && plain d
  | .sym s => s ≠ "..."
  | .lit _ => true

/-- A pattern without nested ellipses, in which an ellipsis is the last element of its list. -/
def wellFormed : Raw → Bool
  | .pair a d =>
    if isEllipsis d then plain a && d == .pair (.sym "...") (.lit .null)
    else wellFormed a && wellFormed d
  | .sym s => s ≠ "..."
  | .lit _ => true

/-- The value with the elements xs. -/
def list : List Stx → Stx
  | [] => .null
  | x :: xs => .pair x (list xs)

/-- The parts of a result for a pair. -/
def carOf (m : Stx) : Stx := (car m).getD .null
def cdrOf (m : Stx) : Stx := (cdr m).getD .null

/-- The results of a pattern for several syntax objects, as one value in which every leaf of the
    pattern has the list of its results. -/
def transpose : Raw → List Stx → Stx
  | .pair _ _, [] => .null
  | .pair a d, ms => .pair (transpose a (ms.map carOf)) (transpose d (ms.map cdrOf))
  | .lit .null, _ => .null
  | _, ms => list ms

/-- What a match of the pattern results in. -/
def result : Raw → Stx → Stx
  | .pair a d, x =>
    if isEllipsis d then
      let elm := transpose a (((elements x).getD []).map fun y => result a y)
      if isRawPair a then elm else .pair elm .null
    else .pair (result a ((syntaxCar x).getD .null)) (result d ((syntaxCdr x).getD .null))
  | .lit _, _ => .null
  | .sym s, x => if s = "_" then .null else x

section elements
variable {x a d : Stx} {matchOne : Stx → Match Stx} {pat : Raw}

theorem syntaxCar_other (other : isSyntaxPair x = false) : syntaxCar x = none := by
  unfold isSyntaxPair at other
  split at other
  · cases other
  · cases other
  · rename_i notPair notObject
    unfold syntaxCar
    split
    · exact absurd rfl (notPair _ _)
    · exact absurd rfl (notObject _ _ _)
    · rfl

theorem syntax_cases (x : Stx) : isSyntaxNull x = true ∨
    (isSyntaxNull x = false ∧ ∃ a d, syntaxCar x = some a ∧ syntaxCdr x = some d) ∨
    (isSyntaxNull x = false ∧ syntaxCar x = none) := by
  cases null : isSyntaxNull x with
  | true => exact .inl rfl
  | false =>
    cases pair : isSyntaxPair x with
    | true => exact .inr (.inl ⟨rfl, syntaxPair_parts pair⟩)
    | false => exact .inr (.inr ⟨rfl, syntaxCar_other pair⟩)

theorem elements_null (null : isSyntaxNull x = true) : elements x = some [] := by
  rw [elements, if_pos null]

theorem elements_pair (some : isSyntaxNull x = false) (first : syntaxCar x = .some a)
    (rest : syntaxCdr x = .some d) : elements x = (elements d).map (a :: ·) := by
  rw [elements, some, if_neg Bool.false_ne_true]
  split
  · rename_i first' rest'
    rw [first] at first'
    rw [rest] at rest'
    cases first'
    cases rest'
    rfl
  · rename_i never
    exact absurd rest (never a d first)

theorem elements_other (some : isSyntaxNull x = false) (none : syntaxCar x = .none) :
    elements x = .none := by
  rw [elements, some, if_neg Bool.false_ne_true]
  split
  · rename_i first _
    rw [none] at first
    cases first
  · rfl

theorem matchEllipsis_null (null : isSyntaxNull x = true) :
    matchEllipsis matchOne pat x = .ok .null := by
  rw [matchEllipsis, if_pos null]
  rfl

theorem matchEllipsis_pair (some : isSyntaxNull x = false) (first : syntaxCar x = .some a)
    (rest : syntaxCdr x = .some d) : matchEllipsis matchOne pat x = (do
      let first ← matchOne a
      let rest ← matchEllipsis matchOne pat d
      patternMerge pat first rest) := by
  rw [matchEllipsis, some, if_neg Bool.false_ne_true]
  split
  · rename_i first' rest'
    rw [first] at first'
    rw [rest] at rest'
    cases first'
    cases rest'
    rfl
  · rename_i never
    exact absurd rest (never a d first)

theorem matchEllipsis_other (some : isSyntaxNull x = false) (none : syntaxCar x = .none) :
    matchEllipsis matchOne pat x = .error .returnFalse := by
  rw [matchEllipsis, some, if_neg Bool.false_ne_true]
  split
  · rename_i first _
    rw [none] at first
    cases first
  · rfl

end elements

/- Merging the results of one element with those of the rest. -/

/-- A result for a pattern without ellipses. -/
def Fits : Raw → Stx → Prop
  | .pair a d, m => ∃ x y, m = .pair x y ∧ Fits a x ∧ Fits d y
  | _, _ => True

section merge
variable {p : Raw} {m : Stx} {ms : List Stx}

theorem initialMerge_transpose (fits : Fits p m) : initialMerge p m = .ok (transpose p [m]) := by
  induction p generalizing m with
  | lit l => cases l <;> rfl
  | sym s => rfl
  | pair a d ihA ihD =>
    obtain ⟨x, y, rfl, fitsA, fitsD⟩ := fits
    simp only [initialMerge, car, cdr, part, bind, Except.bind, ihA fitsA, ihD fitsD, transpose,
      List.map_cons, List.map_nil]
    rfl

theorem patternMerge_transpose (fits : Fits p m) (all : ∀ m ∈ ms, Fits p m) :
    patternMerge p m (transpose p ms) = .ok (transpose p (m :: ms)) := by
  induction p generalizing m ms with
  | lit l =>
    cases ms with
    | nil => cases l <;> rfl
    | cons m' ms => cases l <;> rfl
  | sym s =>
    cases ms with
    | nil => rfl
    | cons m' ms => rfl
  | pair a d ihA ihD =>
    cases ms with
    | nil => exact initialMerge_transpose fits
    | cons m' ms =>
      obtain ⟨x, y, rfl, fitsA, fitsD⟩ := fits
      have left : patternMerge a x (transpose a ((m' :: ms).map carOf)) =
          .ok (transpose a (x :: (m' :: ms).map carOf)) := ihA fitsA (by
        intro n member
        obtain ⟨m, inside, rfl⟩ := List.mem_map.mp member
        obtain ⟨u, v, rfl, first, _⟩ := all m inside
        exact first)
      have right : patternMerge d y (transpose d ((m' :: ms).map cdrOf)) =
          .ok (transpose d (y :: (m' :: ms).map cdrOf)) := ihD fitsD (by
        intro n member
        obtain ⟨m, inside, rfl⟩ := List.mem_map.mp member
        obtain ⟨u, v, rfl, _, second⟩ := all m inside
        exact second)
      have there : transpose (.pair a d) (m' :: ms) = .pair (transpose a ((m' :: ms).map carOf))
          (transpose d ((m' :: ms).map cdrOf)) := rfl
      have whole : transpose (.pair a d) (.pair x y :: m' :: ms) =
          .pair (transpose a (x :: (m' :: ms).map carOf))
            (transpose d (y :: (m' :: ms).map cdrOf)) := rfl
      rw [there, whole, patternMerge]
      simp only [isNull, Bool.false_eq_true, if_false, car, cdr, part, bind, Except.bind, left,
        right]
      rfl

end merge

section matching
variable {reserved : List Symbol} {p : Raw} {x : Stx} {xs : List Stx}

theorem object_elements (object : isSyntaxObject x = true) (here : elements x = some xs) :
    ∀ y ∈ xs, isSyntaxObject y = true := by
  induction xs generalizing x with
  | nil =>
    intro y never
    cases never
  | cons y ys ih =>
    rcases syntax_cases x with null | ⟨some, a, d, first, rest⟩ | ⟨some, none⟩
    · rw [elements_null null] at here
      cases here
    · rw [elements_pair some first rest, Option.map_eq_some_iff] at here
      obtain ⟨zs, there, same⟩ := here
      cases same
      intro z member
      rcases List.mem_cons.mp member with rfl | later
      · exact object_syntaxCar object first
      · exact ih (object_syntaxCdr object rest) there z later
    · rw [elements_other some none] at here
      cases here

/-- What the match of one element comes to. -/
structure Decides (matchOne : Stx → Match Stx) (p : Raw) (M : Stx → Prop) (f : Stx → Stx)
    (y : Stx) : Prop where
  found : M y → matchOne y = .ok (f y) ∧ Fits p (f y)
  missed : ¬ M y → matchOne y = .error .returnFalse

theorem matchEllipsis_decides {matchOne : Stx → Match Stx} {M : Stx → Prop} {f : Stx → Stx}
    (decides : ∀ y, isSyntaxObject y = true → Decides matchOne p M f y)
    (object : isSyntaxObject x = true) :
    (∀ xs, elements x = some xs → (∀ y ∈ xs, M y) →
      matchEllipsis matchOne p x = .ok (transpose p (xs.map f))) ∧
      ((¬ ∃ xs, elements x = some xs ∧ ∀ y ∈ xs, M y) →
        matchEllipsis matchOne p x = .error .returnFalse) := by
  induction length : x.size using Nat.strongRecOn generalizing x with
  | ind n ih =>
    rcases syntax_cases x with null | ⟨some, a, d, first, rest⟩ | ⟨some, none⟩
    · rw [elements_null null, matchEllipsis_null null]
      constructor
      · intro xs same _
        cases same
        cases p with
        | lit l => cases l <;> rfl
        | _ => rfl
      · intro never
        exact absurd ⟨[], rfl, fun y member => by cases member⟩ never
    · have object_a := object_syntaxCar object first
      have object_d := object_syntaxCdr object rest
      have ih := ih d.size (length ▸ size_syntaxCdr rest) object_d rfl
      have one := decides a object_a
      rw [elements_pair some first rest, matchEllipsis_pair some first rest]
      constructor
      · intro xs same all
        obtain ⟨ys, there, rfl⟩ := Option.map_eq_some_iff.mp same
        have here := one.found (all a List.mem_cons_self)
        have tail := ih.1 ys there fun y member => all y (List.mem_cons_of_mem a member)
        rw [here.1, tail]
        apply patternMerge_transpose here.2
        intro m member
        obtain ⟨y, inside, rfl⟩ := List.mem_map.mp member
        exact ((decides y (object_elements object_d there y inside)).found
          (all y (List.mem_cons_of_mem a inside))).2
      · intro never
        by_cases head : M a
        · have later : ¬ ∃ ys, elements d = .some ys ∧ ∀ y ∈ ys, M y := by
            intro ⟨ys, there, all⟩
            apply never
            refine ⟨a :: ys, by rw [there]; rfl, ?_⟩
            intro y member
            rcases List.mem_cons.mp member with rfl | inside
            · exact head
            · exact all y inside
          rw [(one.found head).1, ih.2 later]
          rfl
        · rw [one.missed head]
          rfl
    · rw [elements_other some none, matchEllipsis_other some none]
      constructor
      · intro xs never
        cases never
      · intro _
        rfl

theorem plain_pair {a d : Raw} (simple : plain (.pair a d) = true) :
    plain a = true ∧ plain d = true ∧ isEllipsis d = false := by
  rw [plain, Bool.and_eq_true] at simple
  refine ⟨simple.1, simple.2, ?_⟩
  unfold isEllipsis
  split
  · rename_i s rest
    have first : plain (.sym s) = true := by
      rw [plain, Bool.and_eq_true] at simple
      exact simple.2.1
    simpa [plain] using first
  · rfl

theorem plain_wellFormed (simple : plain p = true) : wellFormed p = true := by
  induction p with
  | lit l => rfl
  | sym s => exact simple
  | pair a d ihA ihD =>
    obtain ⟨left, right, single⟩ := plain_pair simple
    rw [wellFormed, single, if_neg Bool.false_ne_true, ihA left, ihD right]
    rfl

theorem result_fits (simple : plain p = true) (x : Stx) : Fits p (result p x) := by
  induction p generalizing x with
  | lit l => trivial
  | sym s => trivial
  | pair a d ihA ihD =>
    obtain ⟨left, right, single⟩ := plain_pair simple
    rw [result, single, if_neg Bool.false_ne_true]
    exact ⟨_, _, rfl, ihA left _, ihD right _⟩

theorem matchPat_decides (reserved : List Symbol) (wf : wellFormed p = true)
    (object : isSyntaxObject x = true) :
    (Matches reserved p x → matchPat reserved p x = .ok (result p x)) ∧
      (¬ Matches reserved p x → matchPat reserved p x = .error .returnFalse) := by
  induction p generalizing x with
  | lit l =>
    obtain ⟨expr, there⟩ : ∃ expr, syntaxObjectExpr x = some expr := by
      cases x with
      | object expr wrap => exact ⟨expr, rfl⟩
      | _ => cases object
    cases l with
    | null =>
      rw [Matches, matchPat]
      cases null : isSyntaxNull x <;> simp [result]
      rfl
    | _ =>
      simp only [Matches, matchPat, there, part, bind, Except.bind, Option.some.injEq]
      constructor
      · intro equal
        rw [if_pos equal]
        rfl
      · intro other
        rw [if_neg other]
  | sym s =>
    rw [Matches, matchPat, result]
    by_cases wild : s = "_"
    · simp [wild]
      rfl
    · by_cases literal : s ∈ reserved
      · simp only [wild, literal, if_true, if_false, ne_eq, not_false_eq_true, true_implies]
        constructor
        · intro same
          rw [if_pos same]
          rfl
        · intro other
          rw [if_neg other]
      · simp [wild, literal]
        rfl
  | pair a d ihA ihD =>
    cases more : isEllipsis d with
    | true =>
      rw [wellFormed, more, if_pos rfl, Bool.and_eq_true] at wf
      have simple := wf.1
      have decides : ∀ y, isSyntaxObject y = true →
          Decides (fun x => matchPat reserved a x) a (Matches reserved a) (result a) y := by
        intro y object_y
        have one := ihA (plain_wellFormed simple) object_y
        constructor
        · intro matches_y
          exact ⟨one.1 matches_y, result_fits simple y⟩
        · exact one.2
      have whole := matchEllipsis_decides decides object
      rw [Matches, matchPat, more, if_pos rfl, if_pos rfl]
      constructor
      · intro ⟨xs, here, all⟩
        rw [whole.1 xs here all, result, more, if_pos rfl, here]
        simp only [bind, Except.bind, Option.getD_some]
        split <;> rfl
      · intro never
        rw [whole.2 never]
        rfl
    | false =>
      rw [wellFormed, more, if_neg Bool.false_ne_true, Bool.and_eq_true] at wf
      rw [Matches, matchPat, more, if_neg Bool.false_ne_true, if_neg Bool.false_ne_true]
      cases pair : isSyntaxPair x with
      | true =>
        obtain ⟨y, z, first, rest⟩ := syntaxPair_parts pair
        have left := ihA wf.1 (object_syntaxCar object first)
        have right := ihD wf.2 (object_syntaxCdr object rest)
        rw [if_pos rfl, first, rest]
        simp only [part, bind, Except.bind, Option.some.injEq, existsAndEq, true_and]
        constructor
        · intro ⟨matches_y, matches_z⟩
          rw [left.1 matches_y, right.1 matches_z, result, more, if_neg Bool.false_ne_true,
            first, rest]
          rfl
        · intro never
          by_cases head : Matches reserved a y
          · have tail : ¬ Matches reserved d z := fun matches_z => never ⟨head, matches_z⟩
            rw [left.1 head, right.2 tail]
          · rw [left.2 head]
      | false =>
        rw [if_neg Bool.false_ne_true, syntaxCar_other pair]
        constructor
        · intro ⟨y, z, never, _⟩
          cases never
        · intro _
          rfl

theorem result_true (object : isSyntaxObject x = true) : result p x ≠ .lit (.bool false) := by
  intro same
  cases p with
  | lit l => cases same
  | sym s =>
    rw [result] at same
    split at same
    · cases same
    · subst same
      cases object
  | pair a d =>
    rw [result] at same
    split at same
    · cases a with
      | pair u v =>
        simp only [isRawPair, if_true] at same
        generalize ((elements x).getD []).map (fun y => result (.pair u v) y) = ms at same
        cases ms <;> cases same
      | _ => cases same
    · cases same

/- pattern-match gives the transposed result exactly for the syntax objects that the pattern
   describes, and #f for all others. -/
theorem patternMatch_iff (wf : wellFormed p = true) (object : isSyntaxObject x = true) :
    ((∃ r, patternMatch reserved x p = .ok (some r)) ↔ Matches reserved p x) ∧
      (∀ r, patternMatch reserved x p = .ok (some r) → r = result p x ∧ r ≠ .lit (.bool false)) ∧
      (patternMatch reserved x p = .ok none ↔ ¬ Matches reserved p x) := by
  have decides := matchPat_decides reserved wf object
  have true_result := result_true (p := p) object
  unfold patternMatch
  by_cases found : Matches reserved p x
  · rw [decides.1 found]
    simp [found, true_result]
  · rw [decides.2 found]
    simp [found]

end matching

/-- ((a b) ...) and ((1 2) (3 4)) -/
def samplePattern : Raw :=
  .pair (.pair (.sym "a") (.pair (.sym "b") (.lit .null))) (.pair (.sym "...") (.lit .null))

def sampleRow (m n : Int) : Stx := .pair (.lit (.num m)) (.pair (.lit (.num n)) .null)

def sampleSyntax : Stx :=
  .object (.pair (sampleRow 1 2) (.pair (sampleRow 3 4) .null)) [.mark 0]

theorem sampleSyntax_elements : elements sampleSyntax =
    some [.object (sampleRow 1 2) [.mark 0], .object (sampleRow 3 4) [.mark 0]] := by
  have none : elements (.object .null [.mark 0]) = some [] := elements_null rfl
  have one : elements (.object (.pair (sampleRow 3 4) .null) [.mark 0]) =
      some [.object (sampleRow 3 4) [.mark 0]] := by
    rw [elements_pair rfl rfl rfl, show elements (extendWrap [.mark 0] .null) = some [] from none]
    rfl
  rw [sampleSyntax, elements_pair rfl rfl rfl,
    show elements (extendWrap [.mark 0] (.pair (sampleRow 3 4) .null)) = _ from one]
  rfl

theorem sampleSyntax_matches : Matches [] samplePattern sampleSyntax := by
  rw [samplePattern, Matches, if_pos (by decide)]
  refine ⟨_, sampleSyntax_elements, ?_⟩
  intro y member
  simp only [List.mem_cons, List.not_mem_nil, or_false] at member
  obtain rfl | rfl := member <;>
    simp [Matches, isEllipsis, syntaxCar, syntaxCdr, extendWrap, isSyntaxNull, sampleRow]

theorem patternMatch_iff_sample : ∃ r, patternMatch [] sampleSyntax samplePattern = .ok (some r) ∧
    r = result samplePattern sampleSyntax := by
  obtain ⟨r, found⟩ := (patternMatch_iff (by decide) rfl).1.mpr sampleSyntax_matches
  have value := (patternMatch_iff (by decide) rfl).2.1 r found
  exact ⟨r, found, value.1⟩

end LGears.SyntaxPattern
