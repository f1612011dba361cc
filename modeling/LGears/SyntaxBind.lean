import Mathlib.Data.List.Nodup
import LGears.SyntaxPattern

/- Binding the variables of a pattern, and the substitution of a template: pattern-bind-named and
   gen-syntax. -/
namespace LGears.SyntaxBind
open SyntaxCore SyntaxPattern

/-- The variables of a match: an association list of pattern variables. -/
abbrev Vars := List (Raw × Stx)

mutual
/-- (bind-null-ellipsis pat vars) -/
def bindNullEllipsis : Raw → Vars → Match Vars
  | .pair (.pair x rest) _, vars => bindNullAll (.pair x rest) vars
  | pat, vars => return (pat, .pair .null .null) :: vars

/-- The fold-left of bind-null-ellipsis; it is an error for an improper list. -/
def bindNullAll : Raw → Vars → Match Vars
  | .lit .null, vars => return vars
  | .pair x rest, vars => do
    let vars ← bindNullEllipsis x vars
    bindNullAll rest vars
  | _, _ => .error .error
end

/-- (pattern-bind-named reserved xpr pat vars), with bind-ellipsis-named in its first branch. -/
def patternBindNamed (reserved : List Symbol) : Stx → Raw → Vars → Match Vars
  | xpr, .pair a d, vars =>
    if isEllipsis d then
      if isNull xpr then bindNullEllipsis (.pair a d) vars
      else
        match a with
        | .pair u v => do
          let vars ← patternBindNamed reserved (← part (cdr xpr)) v vars
          patternBindNamed reserved (← part (car xpr)) u vars
        | a => do return (a, ← part (car xpr)) :: vars
    else do
      let vars ← patternBindNamed reserved (← part (cdr xpr)) d vars
      patternBindNamed reserved (← part (car xpr)) a vars
  | xpr, .sym s, vars =>
    if s = "_" then return vars
    else if s ∈ reserved then return vars
    else return (.sym s, xpr) :: vars
  | _, .lit _, vars => return vars

example (x : Stx) (vars : Vars) : patternBindNamed ["=>"] x (.sym "=>") vars = .ok vars := by
  rw [patternBindNamed]
  rfl

/-- (length x) of a list of the expander. -/
def length : Stx → Option Nat
  | .lit .null => some 0
  | .pair _ d => (length d).map (· + 1)
  | _ => none

/-- (assq stx vars), for the value of the pair it finds. -/
def assq (s : Symbol) (vars : Vars) : Option Stx :=
  (vars.find? fun entry => entry.1 = .sym s).map Prod.snd

/-- A template as a value. -/
def ofRaw : Raw → Stx
  | .lit l => .lit l
  | .sym s => .sym s
  | .pair a d => .pair (ofRaw a) (ofRaw d)

/-- What the tail (v ...) of a template becomes, where v has the value res. -/
def tailOf (res : Stx) : Match Stx := do
  let n ← match length res with
    | some n => .ok n
    | none => .error .error
  if n = 1 ∧ car res = some .null then return .null else return res

/-- (gen-syntax vars stx) -/
def genSyntax (vars : Vars) : Raw → Match Stx
  | .pair a d =>
    if isEllipsis d then
      match a with
      | .sym s =>
        match assq s vars with
        | some res => tailOf res
        | none => return ofRaw (.pair a d)
      | a => return ofRaw (.pair a d)
    else do
      let first ← genSyntax vars a
      let rest ← genSyntax vars d
      return .pair first rest
  | .sym s =>
    match assq s vars with
    | some res => return res
    | none => return .sym s
  | .lit l => return .lit l

/- What a variable is bound to. -/

/-- The variables of a pattern. -/
def varsOf (reserved : List Symbol) : Raw → List Symbol
  | .pair a d => if isEllipsis d then varsOf reserved a else varsOf reserved a ++ varsOf reserved d
  | .sym s => if s = "_" ∨ s ∈ reserved then [] else [s]
  | .lit _ => []

example (s : Symbol) : varsOf [s] (.pair (.sym s) (.pair (.sym "_") (.lit .null))) = [] := by
  simp [varsOf, isEllipsis]

/-- The parts of syntax that matches a pair. -/
def firstOf (x : Stx) : Stx := (syntaxCar x).getD .null
def restOf (x : Stx) : Stx := (syntaxCdr x).getD .null

/-- The match of the variable v of a pattern without ellipses. -/
def leaf (reserved : List Symbol) : Raw → Stx → Symbol → Stx
  | .pair a d, x, v =>
    if v ∈ varsOf reserved a then leaf reserved a (firstOf x) v else leaf reserved d (restOf x) v
  | _, x, _ => x

/-- The match of a plain variable, or the matches of a variable under an ellipsis in their order. -/
inductive Binding where
  | one (x : Stx)
  | many (xs : List Stx)

/-- The variables of a pattern with their matches. -/
def bindings (reserved : List Symbol) : Raw → Stx → List (Symbol × Binding)
  | .pair a d, x =>
    if isEllipsis d then
      (varsOf reserved a).map fun v =>
        (v, .many (((elements x).getD []).map fun y => leaf reserved a y v))
    else bindings reserved a (firstOf x) ++ bindings reserved d (restOf x)
  | .sym s, x => if s = "_" ∨ s ∈ reserved then [] else [(s, .one x)]
  | .lit _, _ => []

/-- The value of an entry for a binding; no matches are () or (()). -/
def Encodes : Binding → Stx → Prop
  | .one x, e => e = x
  | .many [], e => e = .null ∨ e = .pair .null .null
  | .many (x :: xs), e => e = list (x :: xs)

/-- A template with the tail (v ...) for variables v under an ellipsis only, and all of these in
    such tails. -/
def WellUsed (bs : List (Symbol × Binding)) : Raw → Prop
  | .pair a d =>
    if isEllipsis d then
      d = .pair (.sym "...") (.lit .null) ∧ ∃ v xs, a = .sym v ∧ (v, .many xs) ∈ bs
    else WellUsed bs a ∧ WellUsed bs d
  | .sym s => ∀ xs, (s, .many xs) ∉ bs
  | .lit _ => True

/-- Every variable of the template is replaced in out: v by its match, and (v ...) by the matches
    of v. What becomes of other symbols is left open. -/
def Replaced (bs : List (Symbol × Binding)) : Raw → Stx → Prop
  | .pair a d, out =>
    if isEllipsis d then ∀ v xs, a = .sym v → (v, .many xs) ∈ bs → out = list xs
    else ∃ first rest, out = .pair first rest ∧ Replaced bs a first ∧ Replaced bs d rest
  | .sym s, out => ∀ x, (s, .one x) ∈ bs → out = x
  | .lit l, out => out = .lit l

/-- Every variable has exactly one new entry, with its matches, and templates are substituted. -/
def Binds (reserved : List Symbol) (pat : Raw) (x res : Stx) (vars : Vars) : Prop :=
  ∃ new, patternBindNamed reserved res pat vars = .ok (new ++ vars) ∧
    (∀ v b, (v, b) ∈ bindings reserved pat x →
      ∃ e, new.filter (fun entry => entry.1 = .sym v) = [(.sym v, e)] ∧ Encodes b e) ∧
    ∀ t, WellUsed (bindings reserved pat x) t →
      ∃ out, genSyntax (new ++ vars) t = .ok out ∧ Replaced (bindings reserved pat x) t out

mutual
/-- bind-null-ellipsis finds all variables of an element: it takes a pair for an ellipsis pattern,
    of which it looks at the elements of the car only. -/
def nullBound (reserved : List Symbol) : Raw → Bool
  | .pair (.pair x rest) d => nullBoundAll reserved (.pair x rest) && varsOf reserved d == []
  | .pair a d => varsOf reserved a == [] && varsOf reserved d == []
  | _ => true

/-- The list is proper, and all variables of its elements are found. -/
def nullBoundAll (reserved : List Symbol) : Raw → Bool
  | .lit .null => true
  | .pair x rest => nullBound reserved x && nullBoundAll reserved rest
  | _ => false
end

example (s : Symbol) : nullBound [] (.pair (.pair (.sym s) (.sym s)) (.lit .null)) = false := by
  simp [nullBound, nullBoundAll]

/-- The patterns of pairs under an ellipsis that matches nothing have their variables found. -/
def Covered (reserved : List Symbol) : Raw → Stx → Prop
  | .pair a d, x =>
    if isEllipsis d then
      isRawPair a = true → elements x = some [] → nullBoundAll reserved a = true
    else Covered reserved a (firstOf x) ∧ Covered reserved d (restOf x)
  | _, _ => True

/- Which variables have entries. -/

/-- The variables among the keys of entries. -/
def found (reserved : List Symbol) (new : Vars) : List Symbol :=
  new.filterMap fun entry =>
    match entry.1 with
    | .sym v => if v = "_" ∨ v ∈ reserved then none else some v
    | _ => none

/-- The entries are for variables of the list vs, and for all of these if complete holds only. -/
structure Finds (reserved vs : List Symbol) (new : Vars) (complete : Prop) : Prop where
  no_more : ∀ v, (found reserved new).count v ≤ vs.count v
  all : complete → ∀ v, (found reserved new).count v = vs.count v
  missing : ¬ complete → ∃ v, (found reserved new).count v < vs.count v

/-- Entries are added to vars, or it is an error that the condition complete excludes. -/
def Outcome (reserved vs : List Symbol) (complete : Prop) (good : Raw × Stx → Prop) (vars : Vars)
    (r : Match Vars) : Prop :=
  (r = .error .error ∧ ¬ complete) ∨
    ∃ new, r = .ok (new ++ vars) ∧ Finds reserved vs new complete ∧ ∀ entry ∈ new, good entry

section outcome
variable {reserved vs us : List Symbol} {new older : Vars} {complete before : Prop}

theorem found_append (new older : Vars) :
    found reserved (new ++ older) = found reserved new ++ found reserved older :=
  List.filterMap_append

/- Entries for the variables in the list, which are exactly their keys. -/
theorem Finds.exact (same : ∀ v, (found reserved new).count v = vs.count v) (here : complete) :
    Finds reserved vs new complete := by
  constructor
  · intro v
    exact Nat.le_of_eq (same v)
  · intro _
    exact same
  · intro never
    exact absurd here never

theorem Finds.append (one : Finds reserved vs new complete)
    (other : Finds reserved us older before) :
    Finds reserved (vs ++ us) (new ++ older) (complete ∧ before) := by
  have split : ∀ v, (found reserved (new ++ older)).count v =
      (found reserved new).count v + (found reserved older).count v := by
    intro v
    rw [found_append, List.count_append]
  constructor
  · intro v
    have first := one.no_more v
    have second := other.no_more v
    rw [split, List.count_append]
    omega
  · intro both v
    rw [split, List.count_append, one.all both.1, other.all both.2]
  · intro never
    by_cases here : complete
    · obtain ⟨v, less⟩ := other.missing fun there => never ⟨here, there⟩
      have first := one.no_more v
      refine ⟨v, ?_⟩
      rw [split, List.count_append]
      omega
    · obtain ⟨v, less⟩ := one.missing here
      have second := other.no_more v
      refine ⟨v, ?_⟩
      rw [split, List.count_append]
      omega

theorem Outcome.andThen {good : Raw × Stx → Prop} {vars : Vars} {r : Match Vars}
    {f : Vars → Match Vars} (first : Outcome reserved us before good vars r)
    (second : ∀ vars, Outcome reserved vs complete good vars (f vars)) :
    Outcome reserved (vs ++ us) (complete ∧ before) good vars (r >>= f) := by
  rcases first with ⟨fails, never⟩ | ⟨older, same, finds_older, good_older⟩
  · left
    rw [fails]
    exact ⟨rfl, fun both => never both.2⟩
  · rw [same]
    rcases second (older ++ vars) with ⟨fails, never⟩ | ⟨new, equal, finds_new, good_new⟩
    · left
      exact ⟨fails, fun both => never both.1⟩
    · right
      refine ⟨new ++ older, ?_, finds_new.append finds_older, ?_⟩
      · rw [List.append_assoc]
        exact equal
      · intro entry member
        rcases List.mem_append.mp member with inside | inside
        · exact good_new entry inside
        · exact good_older entry inside

theorem Finds.none (nothing : found reserved new = []) : Finds reserved us new (us = []) := by
  constructor
  · intro v
    rw [nothing]
    exact Nat.zero_le _
  · intro empty v
    rw [nothing, empty]
  · intro some
    obtain ⟨v, member⟩ := List.exists_mem_of_ne_nil us some
    refine ⟨v, ?_⟩
    rw [nothing]
    exact List.count_pos_iff.mpr member

theorem Finds.congr (finds : Finds reserved vs new complete) (perm : vs.Perm us)
    (same : complete ↔ before) : Finds reserved us new before := by
  constructor
  · intro v
    rw [← perm.count_eq v]
    exact finds.no_more v
  · intro here v
    rw [← perm.count_eq v]
    exact finds.all (same.mpr here) v
  · intro never
    obtain ⟨v, less⟩ := finds.missing fun here => never (same.mp here)
    rw [perm.count_eq v] at less
    exact ⟨v, less⟩

variable {good other : Raw × Stx → Prop} {vars : Vars} {r : Match Vars}

theorem Outcome.congr (perm : vs.Perm us) (same : complete ↔ before)
    (one : Outcome reserved vs complete good vars r) : Outcome reserved us before good vars r := by
  rcases one with ⟨fails, never⟩ | ⟨new, equal, finds, all⟩
  · exact .inl ⟨fails, fun here => never (same.mpr here)⟩
  · exact .inr ⟨new, equal, finds.congr perm same, all⟩

theorem Finds.key {entry : Raw × Stx} {v : Symbol} (finds : Finds reserved vs new complete)
    (member : entry ∈ new) (key : entry.1 = .sym v) (variable_ : ¬ (v = "_" ∨ v ∈ reserved)) :
    v ∈ vs := by
  have inside : v ∈ found reserved new := by
    rw [found, List.mem_filterMap]
    refine ⟨entry, member, ?_⟩
    rw [key]
    exact if_neg variable_
  have some := List.count_pos_iff.mpr inside
  have bound := finds.no_more v
  exact List.count_pos_iff.mp (by omega)

theorem Outcome.weaken (one : Outcome reserved vs complete good vars r)
    (weaker : ∀ entry, good entry →
      (∀ v, entry.1 = .sym v → ¬ (v = "_" ∨ v ∈ reserved) → v ∈ vs) → other entry) :
    Outcome reserved vs complete other vars r := by
  rcases one with fails | ⟨new, equal, finds, all⟩
  · exact .inl fails
  · right
    refine ⟨new, equal, finds, ?_⟩
    intro entry member
    exact weaker entry (all entry member) fun v key => finds.key member key

theorem Outcome.passOver (one : Outcome reserved vs complete good vars r) :
    Outcome reserved (vs ++ us) (complete ∧ us = []) good vars r := by
  rcases one with ⟨fails, never⟩ | ⟨new, equal, finds, all⟩
  · exact .inl ⟨fails, fun both => never both.1⟩
  · right
    refine ⟨new, equal, ?_, all⟩
    have nothing : Finds reserved us [] (us = []) := Finds.none rfl
    have whole := finds.append nothing
    rw [List.append_nil] at whole
    exact whole

theorem Outcome.entry {key : Raw} {value : Stx} (finds : Finds reserved vs [(key, value)] complete)
    (here : good (key, value)) :
    Outcome reserved vs complete good vars (.ok ((key, value) :: vars)) := by
  right
  refine ⟨[(key, value)], rfl, finds, ?_⟩
  intro entry member
  rw [List.mem_singleton] at member
  rw [member]
  exact here

end outcome

section nothing
variable {reserved : List Symbol} {p : Raw}

theorem leaf_finds (single : isRawPair p = false) (value : Stx) :
    Finds reserved (varsOf reserved p) [(p, value)] True := by
  apply Finds.exact _ trivial
  intro v
  cases p with
  | lit l => rfl
  | sym s =>
    simp only [found, varsOf, List.filterMap_cons, List.filterMap_nil]
    by_cases other : s = "_" ∨ s ∈ reserved
    · rw [if_pos other, if_pos other]
    · rw [if_neg other, if_neg other]
  | pair a d => cases single

theorem bindNull_outcome (simple : plain p = true) :
    (∀ vars, Outcome reserved (varsOf reserved p) (nullBound reserved p = true)
      (fun entry => entry.2 = .pair .null .null) vars (bindNullEllipsis p vars)) ∧
    (∀ vars, Outcome reserved (varsOf reserved p) (nullBoundAll reserved p = true)
      (fun entry => entry.2 = .pair .null .null) vars (bindNullAll p vars)) := by
  induction p with
  | lit l =>
    constructor
    · intro vars
      apply Outcome.entry
      · exact (leaf_finds rfl _).congr (List.Perm.refl _) ⟨fun _ => rfl, fun _ => trivial⟩
      · rfl
    · intro vars
      cases l with
      | null =>
        right
        refine ⟨[], rfl, Finds.exact (fun v => rfl) rfl, ?_⟩
        intro entry never
        cases never
      | _ => exact .inl ⟨rfl, fun never => by cases never⟩
  | sym s =>
    constructor
    · intro vars
      apply Outcome.entry
      · exact (leaf_finds rfl _).congr (List.Perm.refl _) ⟨fun _ => rfl, fun _ => trivial⟩
      · rfl
    · intro vars
      exact .inl ⟨rfl, fun never => by cases never⟩
  | pair a d ihA ihD =>
    obtain ⟨simple_a, simple_d, single⟩ := plain_pair simple
    have ihA := ihA simple_a
    have ihD := ihD simple_d
    have both : varsOf reserved (.pair a d) = varsOf reserved a ++ varsOf reserved d := by
      rw [varsOf, single, if_neg Bool.false_ne_true]
    rw [both]
    constructor
    · intro vars
      cases a with
      | pair x rest =>
        apply (ihA.2 vars).passOver.congr (List.Perm.refl _)
        rw [nullBound, Bool.and_eq_true, beq_iff_eq]
      | _ =>
        apply Outcome.entry
        · apply (Finds.none rfl).congr (List.Perm.refl _)
          simp [nullBound]
        · rfl
    · intro vars
      apply ((ihA.1 vars).andThen ihD.2).congr List.perm_append_comm
      rw [nullBoundAll, Bool.and_eq_true]
      exact and_comm

end nothing

section several
variable {reserved : List Symbol} {p a d : Raw} {ys : List Stx} {v : Symbol}

theorem mem_varsOf (member : v ∈ varsOf reserved p) : ¬ (v = "_" ∨ v ∈ reserved) := by
  induction p with
  | lit l => cases member
  | sym s =>
    rw [varsOf] at member
    split at member
    · cases member
    · rename_i not
      rw [List.mem_singleton] at member
      rw [member]
      exact not
  | pair a d ihA ihD =>
    rw [varsOf] at member
    split at member
    · exact ihA member
    · rcases List.mem_append.mp member with left | right
      · exact ihA left
      · exact ihD right

theorem varsOf_pair (single : isEllipsis d = false) :
    varsOf reserved (.pair a d) = varsOf reserved a ++ varsOf reserved d := by
  rw [varsOf, single, if_neg Bool.false_ne_true]

theorem result_pair (single : isEllipsis d = false) (x : Stx) :
    result (.pair a d) x = .pair (result a (firstOf x)) (result d (restOf x)) := by
  rw [result, single, if_neg Bool.false_ne_true]
  rfl

theorem transpose_results (single : isEllipsis d = false) (some : ys ≠ []) :
    transpose (.pair a d) (ys.map (result (.pair a d))) =
      .pair (transpose a ((ys.map firstOf).map (result a)))
        (transpose d ((ys.map restOf).map (result d))) := by
  have first : (ys.map (result (.pair a d))).map carOf = (ys.map firstOf).map (result a) := by
    rw [List.map_map, List.map_map]
    apply List.map_congr_left
    intro y _
    rw [Function.comp, result_pair single]
    rfl
  have rest : (ys.map (result (.pair a d))).map cdrOf = (ys.map restOf).map (result d) := by
    rw [List.map_map, List.map_map]
    apply List.map_congr_left
    intro y _
    rw [Function.comp, result_pair single]
    rfl
  rw [← first, ← rest]
  cases ys with
  | nil => exact absurd rfl some
  | cons y ys => rfl

theorem patternBindNamed_pair (single : isEllipsis d = false) (x y : Stx) (vars : Vars) :
    patternBindNamed reserved (.pair x y) (.pair a d) vars = (do
      let vars ← patternBindNamed reserved y d vars
      patternBindNamed reserved x a vars) := by
  cases a <;> rw [patternBindNamed, single, if_neg Bool.false_ne_true] <;> first | rfl | nofun

theorem several_outcome (simple : plain p = true) (distinct : (varsOf reserved p).Nodup)
    (some : ys ≠ []) (vars : Vars) :
    Outcome reserved (varsOf reserved p) True
      (fun entry => ∃ v ∈ varsOf reserved p,
        entry = (.sym v, list (ys.map fun y => leaf reserved p y v)))
      vars (patternBindNamed reserved (transpose p (ys.map (result p))) p vars) := by
  induction p generalizing ys vars with
  | lit l =>
    right
    refine ⟨[], ?_, Finds.exact (fun v => rfl) trivial, ?_⟩
    · cases l <;> rfl
    · intro entry never
      cases never
  | sym s =>
    have same : ys.map (result (.sym s)) = if s = "_" then ys.map fun _ => .null else ys := by
      by_cases wild : s = "_"
      · rw [if_pos wild]
        apply List.map_congr_left
        intro y _
        rw [result, if_pos wild]
      · rw [if_neg wild]
        calc ys.map (result (.sym s)) = ys.map id := by
              apply List.map_congr_left
              intro y _
              rw [result, if_neg wild]
              rfl
          _ = ys := List.map_id ys
    by_cases other : s = "_" ∨ s ∈ reserved
    · have none : varsOf reserved (.sym s) = [] := if_pos other
      right
      refine ⟨[], ?_, ?_, ?_⟩
      · rcases other with wild | literal
        · rw [patternBindNamed, if_pos wild]
          rfl
        · rw [patternBindNamed, if_pos literal, ite_self]
          rfl
      · rw [none]
        exact Finds.exact (fun v => rfl) trivial
      · intro entry never
        cases never
    · obtain ⟨tame, free⟩ := not_or.mp other
      have one : varsOf reserved (.sym s) = [s] := if_neg other
      rw [same, if_neg tame, patternBindNamed, if_neg tame, if_neg free]
      apply Outcome.entry
      · exact leaf_finds rfl _
      · refine ⟨s, ?_, ?_⟩
        · rw [one]
          exact List.mem_singleton.mpr rfl
        · have whole : (ys.map fun y => leaf reserved (.sym s) y s) = ys := List.map_id ys
          rw [whole]
          cases ys <;> rfl
  | pair a d ihA ihD =>
    obtain ⟨simple_a, simple_d, single⟩ := plain_pair simple
    rw [varsOf_pair single] at distinct ⊢
    obtain ⟨distinct_a, distinct_d, apart⟩ := List.nodup_append.mp distinct
    have some_first : ys.map firstOf ≠ [] := fun none => some (List.map_eq_nil_iff.mp none)
    have some_rest : ys.map restOf ≠ [] := fun none => some (List.map_eq_nil_iff.mp none)
    rw [transpose_results single some, patternBindNamed_pair single]
    apply Outcome.congr (List.Perm.refl _) and_self_iff
    apply Outcome.andThen
    · apply (ihD simple_d distinct_d some_rest vars).weaken
      intro entry binds _
      obtain ⟨v, member, same⟩ := binds
      refine ⟨v, List.mem_append_right _ member, ?_⟩
      have skip : v ∉ varsOf reserved a := fun inside => apart v inside v member rfl
      rw [same, List.map_map]
      have leaves : (ys.map fun y => leaf reserved (.pair a d) y v) =
          ys.map ((fun y => leaf reserved d y v) ∘ restOf) := by
        apply List.map_congr_left
        intro y _
        rw [leaf, if_neg skip]
        rfl
      rw [leaves]
    · intro vars
      apply (ihA simple_a distinct_a some_first vars).weaken
      intro entry binds _
      obtain ⟨v, member, same⟩ := binds
      refine ⟨v, List.mem_append_left _ member, ?_⟩
      rw [same, List.map_map]
      have leaves : (ys.map fun y => leaf reserved (.pair a d) y v) =
          ys.map ((fun y => leaf reserved a y v) ∘ firstOf) := by
        apply List.map_congr_left
        intro y _
        rw [leaf, if_pos member]
        rfl
      rw [leaves]

end several

section whole
variable {reserved : List Symbol} {p a d : Raw} {x : Stx} {xs : List Stx} {v : Symbol}

/-- The entry has the matches of its variable. -/
def Bound (reserved : List Symbol) (p : Raw) (x : Stx) (entry : Raw × Stx) : Prop :=
  ∀ v, entry.1 = .sym v → v ∈ varsOf reserved p →
    ∃ b, (v, b) ∈ bindings reserved p x ∧ Encodes b entry.2

theorem encodes_list (xs : List Stx) : Encodes (.many xs) (list xs) := by
  cases xs with
  | nil => exact .inl rfl
  | cons x xs => rfl

theorem bindings_more (more : isEllipsis d = true) (here : elements x = some xs) :
    bindings reserved (.pair a d) x =
      (varsOf reserved a).map fun v => (v, .many (xs.map fun y => leaf reserved a y v)) := by
  rw [bindings, if_pos more, here]
  rfl

theorem varsOf_more (more : isEllipsis d = true) :
    varsOf reserved (.pair a d) = varsOf reserved a := by
  rw [varsOf, if_pos more]

theorem atom_outcome (more : isEllipsis d = true) (atom : isRawPair a = false)
    (here : elements x = some xs) (vars : Vars) :
    Outcome reserved (varsOf reserved a) True (Bound reserved (.pair a d) x) vars
      (patternBindNamed reserved (result (.pair a d) x) (.pair a d) vars) := by
  have value : result (.pair a d) x = .pair (transpose a (xs.map (result a))) .null := by
    rw [result, if_pos more, here, atom]
    rfl
  have binds : patternBindNamed reserved (result (.pair a d) x) (.pair a d) vars =
      .ok ((a, transpose a (xs.map (result a))) :: vars) := by
    rw [value]
    cases a with
    | pair u w => cases atom
    | _ =>
      rw [patternBindNamed, if_pos more]
      · rfl
      · intro u v same
        cases same
  rw [binds]
  apply Outcome.entry (leaf_finds atom _)
  intro v key member
  rw [varsOf_more more] at member
  change a = .sym v at key
  have proper := mem_varsOf member
  subst key
  refine ⟨.many xs, ?_, ?_⟩
  · rw [bindings_more more here]
    apply List.mem_map.mpr
    refine ⟨v, member, ?_⟩
    rw [show xs.map (fun y => leaf reserved (.sym v) y v) = xs from List.map_id xs]
  · have same : xs.map (result (.sym v)) = xs := by
      calc xs.map (result (.sym v)) = xs.map id := by
            apply List.map_congr_left
            intro y _
            rw [result, if_neg fun wild => proper (.inl wild)]
            rfl
        _ = xs := List.map_id xs
    rw [same]
    have flat : transpose (.sym v) xs = list xs := by cases xs <;> rfl
    change Encodes (.many xs) (transpose (.sym v) xs)
    rw [flat]
    exact encodes_list xs

theorem nested_outcome (more : isEllipsis d = true) (nested : isRawPair a = true)
    (simple : plain a = true) (distinct : (varsOf reserved a).Nodup)
    (here : elements x = some xs) (vars : Vars) :
    Outcome reserved (varsOf reserved a) (xs = [] → nullBoundAll reserved a = true)
      (Bound reserved (.pair a d) x) vars
      (patternBindNamed reserved (result (.pair a d) x) (.pair a d) vars) := by
  have value : result (.pair a d) x = transpose a (xs.map (result a)) := by
    rw [result, if_pos more, here, nested]
    rfl
  have names : ∀ {v : Symbol} {xs : List Stx}, v ∈ varsOf reserved a →
      elements x = some xs → (v, .many (xs.map fun y => leaf reserved a y v)) ∈
        bindings reserved (.pair a d) x := by
    intro v xs member here
    rw [bindings_more more here]
    exact List.mem_map.mpr ⟨v, member, rfl⟩
  cases a with
  | pair u w =>
    cases xs with
    | nil =>
      have binds : patternBindNamed reserved (result (.pair (.pair u w) d) x) (.pair (.pair u w) d)
          vars = bindNullAll (.pair u w) vars := by
        rw [value, patternBindNamed, if_pos more]
        rfl
      rw [binds]
      apply ((bindNull_outcome simple).2 vars).weaken _ |>.congr (List.Perm.refl _)
      · simp
      · intro entry empty _ v _ member
        rw [varsOf_more more] at member
        refine ⟨_, names member here, ?_⟩
        exact .inr empty
    | cons y ys =>
      obtain ⟨_, _, single⟩ := plain_pair simple
      have binds : patternBindNamed reserved (result (.pair (.pair u w) d) x) (.pair (.pair u w) d)
          vars = patternBindNamed reserved (transpose (.pair u w)
            ((y :: ys).map (result (.pair u w)))) (.pair u w) vars := by
        rw [value, transpose_results single (by simp), patternBindNamed_pair single,
          patternBindNamed, if_pos more]
        rfl
      rw [binds]
      apply ((several_outcome simple distinct (by simp) vars).weaken _).congr (List.Perm.refl _)
      · simp
      · intro entry binds _ v' key _
        obtain ⟨v, member, same⟩ := binds
        rw [same] at key
        cases key
        refine ⟨_, names member here, ?_⟩
        rw [same]
        rfl
  | _ => cases nested

theorem bind_outcome (wf : wellFormed p = true) (distinct : (varsOf reserved p).Nodup)
    (here : Matches reserved p x) (vars : Vars) :
    Outcome reserved (varsOf reserved p) (Covered reserved p x) (Bound reserved p x) vars
      (patternBindNamed reserved (result p x) p vars) := by
  induction p generalizing x vars with
  | lit l =>
    right
    refine ⟨[], rfl, Finds.exact (fun v => rfl) trivial, ?_⟩
    intro entry never
    cases never
  | sym s =>
    by_cases other : s = "_" ∨ s ∈ reserved
    · have none : varsOf reserved (.sym s) = [] := if_pos other
      right
      refine ⟨[], ?_, ?_, ?_⟩
      · rcases other with wild | literal
        · rw [patternBindNamed, if_pos wild]
          rfl
        · rw [patternBindNamed, if_pos literal, ite_self]
          rfl
      · rw [none]
        exact Finds.exact (fun v => rfl) trivial
      · intro entry never
        cases never
    · obtain ⟨tame, free⟩ := not_or.mp other
      rw [result, if_neg tame, patternBindNamed, if_neg tame, if_neg free]
      apply Outcome.entry (leaf_finds rfl _)
      intro v key _
      cases key
      refine ⟨.one x, ?_, rfl⟩
      rw [bindings, if_neg other]
      exact List.mem_singleton.mpr rfl
  | pair a d ihA ihD =>
    cases more : isEllipsis d with
    | true =>
      rw [wellFormed, more, if_pos rfl, Bool.and_eq_true] at wf
      rw [Matches, more, if_pos rfl] at here
      obtain ⟨xs, items, _⟩ := here
      rw [Covered, if_pos more, items, varsOf_more more]
      rw [varsOf_more more] at distinct
      cases nested : isRawPair a with
      | true =>
        apply (nested_outcome more nested wf.1 distinct items vars).congr (List.Perm.refl _)
        simp
      | false =>
        apply (atom_outcome more nested items vars).congr (List.Perm.refl _)
        simp
    | false =>
      rw [wellFormed, more, if_neg Bool.false_ne_true, Bool.and_eq_true] at wf
      rw [Matches, more, if_neg Bool.false_ne_true] at here
      obtain ⟨y, z, first, rest, matches_y, matches_z⟩ := here
      rw [varsOf_pair more] at distinct
      obtain ⟨distinct_a, distinct_d, _⟩ := List.nodup_append.mp distinct
      have at_first : firstOf x = y := by rw [firstOf, first]; rfl
      have at_rest : restOf x = z := by rw [restOf, rest]; rfl
      have parts : bindings reserved (.pair a d) x =
          bindings reserved a y ++ bindings reserved d z := by
        rw [bindings, more, if_neg Bool.false_ne_true, at_first, at_rest]
      rw [result_pair more, patternBindNamed_pair more, Covered, more,
        if_neg Bool.false_ne_true, varsOf_pair more, at_first, at_rest]
      have proper : ∀ v, v ∈ varsOf reserved a ++ varsOf reserved d →
          ¬ (v = "_" ∨ v ∈ reserved) := by
        intro v member
        rw [← varsOf_pair more] at member
        exact mem_varsOf member
      apply Outcome.andThen
      · apply (ihD wf.2 distinct_d matches_z vars).weaken
        intro entry bound key v same member
        rw [varsOf_pair more] at member
        obtain ⟨b, inside, encodes⟩ := bound v same (key v same (proper v member))
        refine ⟨b, ?_, encodes⟩
        rw [parts]
        exact List.mem_append_right _ inside
      · intro vars
        apply (ihA wf.1 distinct_a matches_y vars).weaken
        intro entry bound key v same member
        rw [varsOf_pair more] at member
        obtain ⟨b, inside, encodes⟩ := bound v same (key v same (proper v member))
        refine ⟨b, ?_, encodes⟩
        rw [parts]
        exact List.mem_append_left _ inside

end whole

section templates
variable {reserved : List Symbol} {p : Raw} {x e : Stx} {xs : List Stx} {v : Symbol}
  {bs : List (Symbol × Binding)} {new vars : Vars} {t : Raw}

theorem length_list (xs : List Stx) : length (list xs) = some xs.length := by
  induction xs with
  | nil => rfl
  | cons x xs ih =>
    rw [list, length, ih]
    rfl

/- Matches are syntax objects, so that only the entry of no matches is decoded as such. -/
theorem tailOf_encodes (encodes : Encodes (.many xs) e)
    (objects : ∀ z ∈ xs, isSyntaxObject z = true) : tailOf e = .ok (list xs) := by
  cases xs with
  | nil =>
    rcases encodes with rfl | rfl <;> rfl
  | cons z zs =>
    have same : e = list (z :: zs) := encodes
    have no_null : z ≠ .null := by
      intro null
      have object := objects z List.mem_cons_self
      rw [null] at object
      cases object
    have other : ¬ ((z :: zs).length = 1 ∧ car (list (z :: zs)) = some .null) := by
      intro both
      exact no_null (Option.some.inj both.2)
    rw [same, tailOf, length_list]
    simp only [bind, Except.bind]
    rw [if_neg other]
    rfl

theorem assq_new (only : new.filter (fun entry => entry.1 = .sym v) = [(.sym v, e)]) :
    assq v (new ++ vars) = some e := by
  have first : new.find? (fun entry => entry.1 = .sym v) = some (.sym v, e) := by
    rw [← List.head?_filter, only]
    rfl
  rw [assq, List.find?_append, first]
  rfl

theorem genSyntax_pair {a d : Raw} (single : isEllipsis d = false) :
    genSyntax vars (.pair a d) = (do
      let first ← genSyntax vars a
      let rest ← genSyntax vars d
      return .pair first rest) := by
  cases a <;> rw [genSyntax, single, if_neg Bool.false_ne_true] <;> first | rfl | nofun

theorem genSyntax_replaces
    (entries : ∀ v b, (v, b) ∈ bs →
      ∃ e, new.filter (fun entry => entry.1 = .sym v) = [(.sym v, e)] ∧ Encodes b e)
    (objects : ∀ v xs, (v, .many xs) ∈ bs → ∀ z ∈ xs, isSyntaxObject z = true)
    (used : WellUsed bs t) : ∃ out, genSyntax (new ++ vars) t = .ok out ∧ Replaced bs t out := by
  have found : ∀ v b, (v, b) ∈ bs → ∃ e, assq v (new ++ vars) = some e ∧ Encodes b e := by
    intro v b member
    obtain ⟨e, only, encodes⟩ := entries v b member
    exact ⟨e, assq_new only, encodes⟩
  induction t with
  | lit l => exact ⟨.lit l, rfl, rfl⟩
  | sym s =>
    cases there : assq s (new ++ vars) with
    | none =>
      refine ⟨.sym s, ?_, ?_⟩
      · rw [genSyntax, there]
        rfl
      · intro x member
        obtain ⟨e, here, _⟩ := found s (.one x) member
        rw [there] at here
        cases here
    | some res =>
      refine ⟨res, ?_, ?_⟩
      · rw [genSyntax, there]
        rfl
      · intro x member
        obtain ⟨e, here, encodes⟩ := found s (.one x) member
        rw [there] at here
        cases here
        exact encodes
  | pair a d ihA ihD =>
    rw [WellUsed] at used
    cases more : isEllipsis d with
    | true =>
      rw [more, if_pos rfl] at used
      obtain ⟨_, v, xs, rfl, member⟩ := used
      obtain ⟨e, here, encodes⟩ := found v (.many xs) member
      refine ⟨list xs, ?_, ?_⟩
      · rw [genSyntax, if_pos more, here]
        exact tailOf_encodes encodes (objects v xs member)
      · rw [Replaced, if_pos more]
        intro v' xs' same member'
        cases same
        obtain ⟨e', here', encodes'⟩ := found v (.many xs') member'
        rw [here] at here'
        cases here'
        have one := tailOf_encodes encodes (objects v xs member)
        have other := tailOf_encodes encodes' (objects v xs' member')
        rw [one] at other
        exact Except.ok.inj other
    | false =>
      rw [more, if_neg Bool.false_ne_true] at used
      obtain ⟨first, runs_a, replaced_a⟩ := ihA used.1
      obtain ⟨rest, runs_d, replaced_d⟩ := ihD used.2
      refine ⟨.pair first rest, ?_, ?_⟩
      · rw [genSyntax_pair more, runs_a, runs_d]
        rfl
      · rw [Replaced, more, if_neg Bool.false_ne_true]
        exact ⟨first, rest, rfl, replaced_a, replaced_d⟩

theorem leaf_object (simple : plain p = true) (here : Matches reserved p x)
    (object : isSyntaxObject x = true) (v : Symbol) :
    v ∈ varsOf reserved p → isSyntaxObject (leaf reserved p x v) = true := by
  induction p generalizing x with
  | lit l => exact fun _ => object
  | sym s => exact fun _ => object
  | pair a d ihA ihD =>
    intro member
    obtain ⟨simple_a, simple_d, single⟩ := plain_pair simple
    rw [Matches, single, if_neg Bool.false_ne_true] at here
    obtain ⟨y, z, first, rest, matches_y, matches_z⟩ := here
    rw [varsOf_pair single] at member
    rw [leaf, firstOf, first, restOf, rest]
    split
    · rename_i inside
      exact ihA simple_a matches_y (object_syntaxCar object first) inside
    · rename_i outside
      exact ihD simple_d matches_z (object_syntaxCdr object rest)
        ((List.mem_append.mp member).resolve_left outside)

theorem bindings_objects (wf : wellFormed p = true) (here : Matches reserved p x)
    (object : isSyntaxObject x = true) (member : (v, .many xs) ∈ bindings reserved p x) :
    ∀ z ∈ xs, isSyntaxObject z = true := by
  induction p generalizing x with
  | lit l => cases member
  | sym s =>
    rw [bindings] at member
    split at member
    · cases member
    · cases List.mem_singleton.mp member
  | pair a d ihA ihD =>
    cases more : isEllipsis d with
    | true =>
      rw [wellFormed, more, if_pos rfl, Bool.and_eq_true] at wf
      rw [Matches, more, if_pos rfl] at here
      obtain ⟨ys, items, all⟩ := here
      rw [bindings_more more items] at member
      obtain ⟨v', inside, same⟩ := List.mem_map.mp member
      cases same
      intro z among
      obtain ⟨y, element, rfl⟩ := List.mem_map.mp among
      exact leaf_object wf.1 (all y element) (object_elements object items y element) v inside
    | false =>
      rw [wellFormed, more, if_neg Bool.false_ne_true, Bool.and_eq_true] at wf
      rw [Matches, more, if_neg Bool.false_ne_true] at here
      obtain ⟨y, z, first, rest, matches_y, matches_z⟩ := here
      rw [bindings, more, if_neg Bool.false_ne_true, firstOf, first, restOf, rest] at member
      rcases List.mem_append.mp member with left | right
      · exact ihA wf.1 matches_y (object_syntaxCar object first) left
      · exact ihD wf.2 matches_z (object_syntaxCdr object rest) right

end templates

section result
variable {reserved : List Symbol} {p : Raw} {x r : Stx} {v : Symbol} {new vars : Vars}

theorem bindings_keys (p : Raw) (x : Stx) :
    (bindings reserved p x).map Prod.fst = varsOf reserved p := by
  induction p generalizing x with
  | lit l => rfl
  | sym s =>
    rw [bindings, varsOf]
    split <;> rfl
  | pair a d ihA ihD =>
    rw [bindings, varsOf]
    split
    · rw [List.map_map]
      exact List.map_id _
    · rw [List.map_append, ihA, ihD]

theorem count_found (proper : ¬ (v = "_" ∨ v ∈ reserved)) (new : Vars) :
    (new.filter fun entry => entry.1 = .sym v).length = (found reserved new).count v := by
  induction new with
  | nil => rfl
  | cons entry new ih =>
    rcases entry with ⟨key, value⟩
    rw [List.filter_cons, found, List.filterMap_cons]
    cases key with
    | sym s =>
      by_cases same : s = v
      · subst same
        simp only [decide_true, if_true, List.length_cons, if_neg proper, List.count_cons_self, ih]
        rfl
      · have apart : ¬ (Raw.sym s = .sym v) := fun equal => same (Raw.sym.inj equal)
        rw [decide_eq_false apart, if_neg Bool.false_ne_true, ih]
        by_cases other : s = "_" ∨ s ∈ reserved
        · simp only [if_pos other]
          rfl
        · simp only [if_neg other]
          rw [List.count_cons_of_ne same]
          rfl
    | _ =>
      simp only [reduceCtorEq, decide_false, Bool.false_eq_true, if_false, ih]
      rfl

theorem patternMatch_result (wf : wellFormed p = true) (object : isSyntaxObject x = true)
    (matched : patternMatch reserved x p = .ok (some r)) :
    Matches reserved p x ∧ r = result p x := by
  have decides := matchPat_decides reserved wf object
  unfold patternMatch at matched
  by_cases here : Matches reserved p x
  · rw [decides.1 here] at matched
    cases matched
    exact ⟨here, rfl⟩
  · rw [decides.2 here] at matched
    cases matched

/- Every variable has its entry and is substituted, if and only if bind-null-ellipsis is not given a
   pattern of pairs that it cannot take apart. -/
theorem variables_bound_iff (wf : wellFormed p = true) (distinct : (varsOf reserved p).Nodup)
    (object : isSyntaxObject x = true) (matched : patternMatch reserved x p = .ok (some r)) :
    Binds reserved p x r vars ↔ Covered reserved p x := by
  obtain ⟨here, rfl⟩ := patternMatch_result wf object matched
  have outcome := bind_outcome wf distinct here vars
  have keys : (bindings reserved p x).map Prod.fst = varsOf reserved p := bindings_keys p x
  constructor
  · intro ⟨new, runs, entries, _⟩
    by_contra open_
    rcases outcome with ⟨fails, _⟩ | ⟨new', runs', finds, _⟩
    · rw [fails] at runs
      cases runs
    · rw [runs] at runs'
      have same := List.append_cancel_right (Except.ok.inj runs')
      subst same
      obtain ⟨v, less⟩ := finds.missing open_
      have member : v ∈ varsOf reserved p := List.count_pos_iff.mp (by omega)
      have single := List.count_eq_one_of_mem distinct member
      have count := count_found (mem_varsOf member) new
      rw [← keys] at member
      obtain ⟨⟨key, b⟩, inside, same⟩ := List.mem_map.mp member
      change key = v at same
      subst same
      obtain ⟨e, only, _⟩ := entries key b inside
      rw [only] at count
      simp only [List.length_singleton] at count
      omega
  · intro covered
    rcases outcome with ⟨_, never⟩ | ⟨new, runs, finds, bound⟩
    · exact absurd covered never
    · have entries : ∀ v b, (v, b) ∈ bindings reserved p x →
          ∃ e, new.filter (fun entry => entry.1 = .sym v) = [(.sym v, e)] ∧ Encodes b e := by
        intro v b inside
        have member : v ∈ varsOf reserved p := by
          rw [← keys]
          exact List.mem_map.mpr ⟨(v, b), inside, rfl⟩
        have count := count_found (mem_varsOf member) new
        rw [finds.all covered v, List.count_eq_one_of_mem distinct member] at count
        obtain ⟨⟨key, e⟩, only⟩ := List.length_eq_one_iff.mp count
        have there : (key, e) ∈ new.filter (fun entry => entry.1 = .sym v) := by
          rw [only]
          exact List.mem_singleton.mpr rfl
        rw [List.mem_filter, decide_eq_true_iff] at there
        obtain ⟨member_new, same⟩ := there
        change key = .sym v at same
        subst same
        obtain ⟨b', inside', encodes⟩ := bound _ member_new v rfl member
        have nodup : ((bindings reserved p x).map Prod.fst).Nodup := keys ▸ distinct
        have equal : b' = b :=
          congrArg Prod.snd (List.inj_on_of_nodup_map nodup inside' inside rfl)
        exact ⟨e, only, equal ▸ encodes⟩
      refine ⟨new, runs, entries, ?_⟩
      intro t used
      exact genSyntax_replaces entries
        (fun v xs member => bindings_objects wf here object member) used

end result

theorem sampleSyntax_covered : Covered [] samplePattern sampleSyntax := by
  rw [samplePattern, Covered, if_pos (by decide)]
  intro _ none
  rw [sampleSyntax_elements] at none
  cases none

theorem variables_bound_sample :
    Binds [] samplePattern sampleSyntax (result samplePattern sampleSyntax) [] := by
  have matched : patternMatch [] sampleSyntax samplePattern =
      .ok (some (result samplePattern sampleSyntax)) := by
    rw [patternMatch, (matchPat_decides [] (by decide) rfl).1 sampleSyntax_matches]
  exact (variables_bound_iff (by decide) (by decide) rfl matched).mpr sampleSyntax_covered

/-- ((a (b c)) ...) -/
def nestedPattern : Raw :=
  .pair (.pair (.sym "a")
      (.pair (.pair (.sym "b") (.pair (.sym "c") (.lit .null))) (.lit .null)))
    (.pair (.sym "...") (.lit .null))

/- With no matches b has no entry, and the tail (b ...) of a template stays as it is. -/
theorem nested_variables_unbound :
    patternMatch [] (.object .null []) nestedPattern = .ok (some .null) ∧
      ¬ Binds [] nestedPattern (.object .null []) .null [] ∧
      ∃ new, patternBindNamed [] .null nestedPattern [] = .ok new ∧
        (new.filter fun entry => entry.1 = .sym "b") = [] ∧
        genSyntax new (.pair (.sym "b") (.pair (.sym "...") (.lit .null))) =
          .ok (.pair (.sym "b") (.pair (.sym "...") .null)) := by
  have empty : elements (.object .null []) = some [] := elements_null rfl
  have here : Matches [] nestedPattern (.object .null []) := by
    rw [nestedPattern, Matches, if_pos (by decide)]
    exact ⟨[], empty, fun y never => by cases never⟩
  have value : result nestedPattern (.object .null []) = .null := by
    rw [nestedPattern, result, if_pos (by decide), empty]
    rfl
  have matched : patternMatch [] (.object .null []) nestedPattern = .ok (some .null) := by
    rw [patternMatch, (matchPat_decides [] (by decide) rfl).1 here, value]
  refine ⟨matched, ?_, _, rfl, by decide, rfl⟩
  intro binds
  obtain ⟨new, runs, entries, _⟩ := binds
  have same : new = [(.pair (.sym "b") (.pair (.sym "c") (.lit .null)), .pair .null .null),
      (.sym "a", .pair .null .null)] := by
    rw [List.append_nil] at runs
    exact (Except.ok.inj runs).symm
  have inside : ("b", Binding.many []) ∈ bindings [] nestedPattern (.object .null []) := by
    rw [nestedPattern, bindings, if_pos (by decide), empty]
    simp [varsOf, isEllipsis]
  obtain ⟨e, only, _⟩ := entries "b" _ inside
  rw [same] at only
  cases only

end LGears.SyntaxBind
