import Mathlib.Algebra.BigOperators.Group.Finset.Basic
import Mathlib.Algebra.Order.BigOperators.Group.Finset
import Mathlib.Logic.Relation
import LGears.Library.Returns
import LGears.LibraryCode

/- How often the body of a library is run by load_library and library_cache of the virtual machine. -/
namespace LGears.LibraryLoads
open StateExcept LibraryCode

/-- A closure of (lambda (imp) (__assqd? imp exports)): the frame that it was made in, which has
    exports, and an id that no other closure has. -/
structure Exporter (σ : Type) where
  frame : Nat
  id : Nat
  exports : List σ

inductive Value (σ : Type) where
  | void
  | exporter (e : Exporter σ)

/-- What the calls of a value depend on. -/
def Value.scope {σ : Type} : Value σ → Option (Nat × List σ)
  | .void => none
  | .exporter e => some (e.frame, e.exports)

inductive Event (α σ : Type) where
  /-- load-library is called. -/
  | load (name : α)
  /-- The inner lambda of the library is called. -/
  | enter (name : α)
  /-- A form of the body of a library or a program is evaluated. -/
  | body (owner : Option α) (k : Nat)
  /-- The call of load-library returns. -/
  | returned (name : α) (value : Value σ)

inductive Fault where
  | notProcedure
  | fuel

/-- The register of a thread, the modules that have been read, and what has happened. -/
structure State (α σ : Type) where
  libCache : List (α × Exporter σ)
  libraries : List α
  closures : Nat
  events : List (Event α σ)

abbrev Run (α σ : Type) := StateT (State α σ) (Except Fault)

section run
variable {α σ : Type} [DecidableEq α]

def note (e : Event α σ) : Run α σ Unit := modify fun s => { s with events := s.events ++ [e] }

/-- (__assqd? x lst) -/
def assqd (x : α) : List (α × Exporter σ) → Option (Exporter σ)
  | [] => none
  | (y, e) :: cur => if y = x then some e else assqd x cur

/-- The value of the last form; the environment has the libraries that have been loaded. -/
def runForms (load : α → Run α σ (Value σ)) :
    List (α × Value σ) → List σ → Value σ → List (Form α σ) → Run α σ (Value σ)
  | _, _, v, [] => pure v
  | env, exports, _, .load name :: forms => do
    let v ← load name
    runForms load ((name, v) :: env) exports .void forms
  | env, exports, _, .bind _ name :: forms =>
    match env.lookup name with
    | some (.exporter _) => runForms load env exports .void forms
    | _ => fun _ => .error .notProcedure
  | env, exports, _, .body owner k _ :: forms => do
    note (.body owner k)
    runForms load env exports .void forms
  | env, exports, _, .void :: forms => runForms load env exports .void forms
  | env, _, _, .exports defines :: forms => runForms load env defines .void forms
  | env, exports, _, .register name :: forms => do
    -- the optimizer has put the lambda in both places of res: one closure goes into the cache and
    -- the other one is the value
    let n := (← get).closures
    modify fun s => { s with closures := n + 2, libCache := (name, ⟨n, n, exports⟩) :: s.libCache }
    runForms load env exports (.exporter ⟨n, n + 1, exports⟩) forms

variable [DecidableEq σ]

/-- (load-library 'name), with the entry point of the library. -/
def loadLibrary (libs : α → Library α σ) : Nat → α → Run α σ (Value σ)
  | 0, _ => fun _ => .error .fuel
  | fuel + 1, name => do
    note (.load name)
    if name ∉ (← get).libraries then
      modify fun s => { s with libraries := name :: s.libraries }
    let v ← match assqd name (← get).libCache with
      | some cached => pure (.exporter cached)
      | none => do
        note (.enter name)
        runForms (loadLibrary libs fuel) [] [] .void (libraryCode libs name)
    note (.returned name v)
    return v

/-- Programs of one thread, one after the other. -/
def runPrograms (libs : α → Library α σ) (fuel : Nat) : List (Program α σ) → Run α σ Unit
  | [] => pure ()
  | x :: programs => do
    let _ ← runForms (loadLibrary libs fuel) [] [] .void (programCode libs x)
    runPrograms libs fuel programs

def State.init : State α σ := ⟨[], [], 0, []⟩

end run

section counts
variable {α σ : Type} [DecidableEq α]

def isLoad (n : α) : Event α σ → Bool
  | .load m => m = n
  | _ => false

def isEnter (n : α) : Event α σ → Bool
  | .enter m => m = n
  | _ => false

def isBody (n : α) (k : Nat) : Event α σ → Bool
  | .body m i => m = some n ∧ i = k
  | _ => false

def returnedBy (n : α) : Event α σ → Option (Value σ)
  | .returned m v => if m = n then some v else none
  | _ => none

/-- The calls of load-library for n among the events. -/
def loads (n : α) (ev : List (Event α σ)) : Nat := ev.countP (isLoad n)

def enters (n : α) (ev : List (Event α σ)) : Nat := ev.countP (isEnter n)

def bodies (n : α) (k : Nat) (ev : List (Event α σ)) : Nat := ev.countP (isBody n k)

/-- What these calls return. -/
def returns (n : α) (ev : List (Event α σ)) : List (Value σ) := ev.filterMap (returnedBy n)

@[simp] theorem loads_append (n : α) (ev ev' : List (Event α σ)) :
    loads n (ev ++ ev') = loads n ev + loads n ev' := List.countP_append

@[simp] theorem enters_append (n : α) (ev ev' : List (Event α σ)) :
    enters n (ev ++ ev') = enters n ev + enters n ev' := List.countP_append

@[simp] theorem bodies_append (n : α) (k : Nat) (ev ev' : List (Event α σ)) :
    bodies n k (ev ++ ev') = bodies n k ev + bodies n k ev' := List.countP_append

@[simp] theorem returns_append (n : α) (ev ev' : List (Event α σ)) :
    returns n (ev ++ ev') = returns n ev ++ returns n ev' := List.filterMap_append

/-- Each form of a body is evaluated at most once; the loads of a library return procedures of one
    frame, and those after the first one return the same object. -/
def RunsOnce (ev : List (Event α σ)) : Prop :=
  (∀ n k, bodies n k ev ≤ 1) ∧ ∀ n,
    (∀ v ∈ returns n ev, ∀ v' ∈ returns n ev, v.scope = v'.scope) ∧
      ∀ v ∈ (returns n ev).tail, ∀ v' ∈ (returns n ev).tail, v = v'

/- The events of a load that runs the body. -/

/-- The events of the forms of a body. -/
def bodyEvents (name : α) (ks : List Nat) : List (Event α σ) := ks.map (.body (some name))

def around (name : α) (ev : List (Event α σ)) (ks : List Nat) (v : Value σ) : List (Event α σ) :=
  [.load name, .enter name] ++ ev ++ bodyEvents name ks ++ [.returned name v]

variable (n name : α) (k : Nat) (ev : List (Event α σ)) (ks : List Nat) (v : Value σ)

theorem loads_bodyEvents : loads n (bodyEvents name ks : List (Event α σ)) = 0 := by
  simp [loads, bodyEvents, List.countP_map, Function.comp_def, isLoad]

theorem enters_bodyEvents : enters n (bodyEvents name ks : List (Event α σ)) = 0 := by
  simp [enters, bodyEvents, List.countP_map, Function.comp_def, isEnter]

theorem returns_bodyEvents : returns n (bodyEvents name ks : List (Event α σ)) = [] := by
  simp [returns, bodyEvents, List.filterMap_map, Function.comp_def, returnedBy]

theorem bodies_bodyEvents : bodies n k (bodyEvents name ks : List (Event α σ)) =
    if name = n then ks.count k else 0 := by
  rw [bodies, bodyEvents, List.countP_map]
  split
  · rename_i same
    apply List.countP_congr
    intro i _
    simp [isBody, same]
  · rename_i other
    simp [Function.comp_def, isBody, other]

/-- The events of a load that finds the library in the cache. -/
def found (name : α) (v : Value σ) : List (Event α σ) := [.load name] ++ [.returned name v]

theorem loads_found : loads n (found name v) = if name = n then 1 else 0 := by
  by_cases same : name = n <;> simp [found, loads, isLoad, same]

theorem enters_found : enters n (found name v) = 0 := by
  simp [found, enters, isEnter]

theorem bodies_found : bodies n k (found name v) = 0 := by
  simp [found, bodies, isBody]

theorem returns_found : returns n (found name v) = if name = n then [v] else [] := by
  rw [found, returns_append]
  by_cases same : name = n <;> simp [returns, returnedBy, same]

theorem loads_around : loads n (around name ev ks v) =
    (if name = n then 1 else 0) + loads n ev := by
  rw [around, loads_append, loads_append, loads_append, loads_bodyEvents]
  by_cases same : name = n <;> simp [loads, isLoad, same]

theorem enters_around : enters n (around name ev ks v) =
    (if name = n then 1 else 0) + enters n ev := by
  rw [around, enters_append, enters_append, enters_append, enters_bodyEvents]
  by_cases same : name = n <;> simp [enters, isEnter, same]

theorem bodies_around : bodies n k (around name ev ks v) =
    bodies n k ev + if name = n then ks.count k else 0 := by
  rw [around, bodies_append, bodies_append, bodies_append, bodies_bodyEvents]
  by_cases same : name = n <;> simp [bodies, isBody, same]

theorem returns_around : returns n (around name ev ks v) =
    returns n ev ++ if name = n then [v] else [] := by
  rw [around, returns_append, returns_append, returns_append, returns_bodyEvents]
  by_cases same : name = n <;> simp [returns, returnedBy, same]

end counts

section ran
variable {α σ : Type} [DecidableEq α] [DecidableEq σ]

/-- How often load-library is called for n, along paths of that many imports: by the programs, and by
    each run of the body of an importer, which is one run when the importer has exports. -/
def calls (libs : α → Library α σ) (names : Finset α) (order : List α) : Nat → α → Nat
  | 0, n => order.count n
  | fuel + 1, n => order.count n + ∑ m ∈ names,
      (if (libs m).defines = [] then calls libs names order fuel m
        else min 1 (calls libs names order fuel m)) * (loadsOf libs m).count n
/-- The events of the loads in this order. -/
structure Counted (libs : α → Library α σ) (names : Finset α) (order : List α)
    (ev : List (Event α σ)) : Prop where
  loads : ∀ n, loads n ev = order.count n + ∑ m ∈ names, enters m ev * (loadsOf libs m).count n
  bodies : ∀ n k, bodies n k ev = enters n ev * (bodyOf libs n).count k
  void : ∀ n, (libs n).defines = [] → enters n ev = LibraryLoads.loads n ev
  answered : ∀ n, (returns n ev).length = LibraryLoads.loads n ev
  below : ∀ n, 0 < LibraryLoads.loads n ev → ∃ m ∈ order, Relation.ReflTransGen (Imports libs) m n

/-- What is returned when the library is in the cache. -/
def cachedReturns (n : α) (s : State α σ) (ev : List (Event α σ)) : List (Value σ) :=
  if assqd n s.libCache = none then (returns n ev).tail else returns n ev

/-- The cache before and after the events of loads. -/
structure Cached (libs : α → Library α σ) (s s' : State α σ) (ev : List (Event α σ)) : Prop where
  events : s'.events = s.events ++ ev
  once : ∀ n, (libs n).defines ≠ [] → enters n ev =
    if assqd n s.libCache = none then min 1 (loads n ev) else 0
  kept : ∀ n e, assqd n s.libCache = some e → assqd n s'.libCache = some e
  cached : ∀ n, (libs n).defines ≠ [] → 0 < loads n ev → assqd n s'.libCache ≠ none
  fresh : ∀ n, assqd n s'.libCache ≠ none → assqd n s.libCache ≠ none ∨ 0 < loads n ev
  silent : ∀ n, (libs n).defines = [] → ∀ v ∈ returns n ev, v = .void
  scope : ∀ n e, (libs n).defines ≠ [] → assqd n s'.libCache = some e →
    ∀ v ∈ returns n ev, v.scope = (Value.exporter e).scope
  returned : ∀ n e, (libs n).defines ≠ [] → assqd n s'.libCache = some e →
    ∀ v ∈ cachedReturns n s ev, v = .exporter e

/-- What the loads in this order do. -/
structure Ran (libs : α → Library α σ) (names : Finset α) (order : List α) (s s' : State α σ)
    (ev : List (Event α σ)) : Prop where
  counted : Counted libs names order ev
  cache : Cached libs s s' ev

/-- No library without exports is in the cache. -/
def Clean (libs : α → Library α σ) (s : State α σ) : Prop :=
  ∀ n, (libs n).defines = [] → assqd n s.libCache = none

variable {libs : α → Library α σ} {names : Finset α} {order order' : List α} {s t u : State α σ}
  {ev ev' : List (Event α σ)}

omit [DecidableEq σ] in
theorem mem_of_cachedReturns {n : α} {v : Value σ} (member : v ∈ cachedReturns n s ev) :
    v ∈ returns n ev := by
  unfold cachedReturns at member
  split at member
  · exact List.mem_of_mem_tail member
  · exact member

theorem Ran.quiet (ks : List Nat) (cache : t.libCache = s.libCache)
    (events : t.events = s.events ++ ks.map (.body none)) :
    Ran libs names [] s t (ks.map (.body none)) := by
  have loads_eq : ∀ n, loads n (ks.map (.body none) : List (Event α σ)) = 0 := by
    intro n
    simp [loads, List.countP_map, Function.comp_def, isLoad]
  have enters_eq : ∀ n, enters n (ks.map (.body none) : List (Event α σ)) = 0 := by
    intro n
    simp [enters, List.countP_map, Function.comp_def, isEnter]
  have returns_eq : ∀ n, returns n (ks.map (.body none) : List (Event α σ)) = [] := by
    intro n
    simp [returns, List.filterMap_map, Function.comp_def, returnedBy]
  constructor
  · constructor
    · intro n
      simp [loads_eq, enters_eq]
    · intro n k
      rw [enters_eq, Nat.zero_mul]
      simp [bodies, List.countP_map, Function.comp_def, isBody]
    · intro n _
      rw [enters_eq, loads_eq]
    · intro n
      rw [returns_eq, loads_eq]
      rfl
    · intro n positive
      rw [loads_eq] at positive
      exact absurd positive (Nat.lt_irrefl 0)
  · constructor
    · exact events
    · intro n _
      rw [enters_eq, loads_eq]
      split <;> rfl
    · exact fun n e here => cache ▸ here
    · intro n _ positive
      rw [loads_eq] at positive
      exact absurd positive (Nat.lt_irrefl 0)
    · exact fun n here => .inl (cache ▸ here)
    · intro n _ v member
      rw [returns_eq] at member
      cases member
    · intro n e _ _ v member
      rw [returns_eq] at member
      cases member
    · intro n e _ _ v member
      have inside := mem_of_cachedReturns member
      rw [returns_eq] at inside
      cases inside

theorem Counted.append (first : Counted libs names order ev)
    (second : Counted libs names order' ev') :
    Counted libs names (order ++ order') (ev ++ ev') where
  loads n := by
    rw [loads_append, first.loads, second.loads, List.count_append]
    have sum : ∑ m ∈ names, enters m (ev ++ ev') * (loadsOf libs m).count n =
        (∑ m ∈ names, enters m ev * (loadsOf libs m).count n) +
          ∑ m ∈ names, enters m ev' * (loadsOf libs m).count n := by
      rw [← Finset.sum_add_distrib]
      apply Finset.sum_congr rfl
      intro m _
      rw [enters_append, Nat.add_mul]
    omega
  bodies n k := by
    rw [bodies_append, enters_append, first.bodies, second.bodies, Nat.add_mul]
  void n none := by
    rw [enters_append, loads_append, first.void n none, second.void n none]
  answered n := by
    rw [returns_append, loads_append, List.length_append, first.answered, second.answered]
  below n positive := by
    rw [loads_append] at positive
    by_cases before : 0 < LibraryLoads.loads n ev
    · obtain ⟨m, member, path⟩ := first.below n before
      exact ⟨m, List.mem_append_left _ member, path⟩
    · obtain ⟨m, member, path⟩ := second.below n (by omega)
      exact ⟨m, List.mem_append_right _ member, path⟩

/- A library that has been loaded is in the cache, one that has not been is not. -/

omit [DecidableEq σ] in
theorem Cached.stays (first : Cached libs s t ev) {n : α} (known : assqd n s.libCache ≠ none) :
    assqd n t.libCache ≠ none := by
  obtain ⟨e, here⟩ := Option.ne_none_iff_exists'.mp known
  rw [first.kept n e here]
  simp

omit [DecidableEq σ] in
theorem Cached.unknown (first : Cached libs s t ev) {n : α} (known : assqd n s.libCache = none)
    (never : loads n ev = 0) : assqd n t.libCache = none := by
  by_contra here
  rcases first.fresh n here with old | new
  · exact old known
  · omega

omit [DecidableEq σ] in
theorem Cached.cachedReturns_append (first : Cached libs s t ev) {n : α}
    (answered : (returns n ev).length = loads n ev) (some : (libs n).defines ≠ []) :
    cachedReturns n s (ev ++ ev') = cachedReturns n s ev ++ cachedReturns n t ev' := by
  unfold cachedReturns
  rw [returns_append]
  by_cases known : assqd n s.libCache = none
  · rw [if_pos known, if_pos known]
    by_cases never : loads n ev = 0
    · have none : returns n ev = [] := List.length_eq_zero_iff.mp (answered.trans never)
      rw [if_pos (first.unknown known never), none]
      rfl
    · have more : returns n ev ≠ [] := by
        intro none
        rw [none] at answered
        exact never answered.symm
      rw [if_neg (first.cached n some (Nat.pos_of_ne_zero never)), List.tail_append_of_ne_nil more]
  · rw [if_neg known, if_neg known, if_neg (first.stays known)]

omit [DecidableEq σ] in
theorem Cached.append (first : Cached libs s t ev) (second : Cached libs t u ev')
    (answered : ∀ n, (returns n ev).length = loads n ev) : Cached libs s u (ev ++ ev') where
  events := by rw [second.events, first.events, List.append_assoc]
  once n some := by
    rw [enters_append, loads_append, first.once n some, second.once n some]
    by_cases known : assqd n s.libCache = none
    · rw [if_pos known, if_pos known]
      by_cases never : loads n ev = 0
      · rw [if_pos (first.unknown known never)]
        omega
      · rw [if_neg (first.cached n some (Nat.pos_of_ne_zero never))]
        omega
    · rw [if_neg known, if_neg (first.stays known), if_neg known]
  kept n e here := second.kept n e (first.kept n e here)
  cached n some positive := by
    rw [loads_append] at positive
    by_cases later : 0 < loads n ev'
    · exact second.cached n some later
    · exact second.stays (first.cached n some (by omega))
  fresh n here := by
    rw [loads_append]
    rcases second.fresh n here with old | new
    · rcases first.fresh n old with older | new
      · exact .inl older
      · exact .inr (by omega)
    · exact .inr (by omega)
  silent n none v member := by
    rcases List.mem_append.mp (returns_append n ev ev' ▸ member) with before | after
    · exact first.silent n none v before
    · exact second.silent n none v after
  scope n e some here v member := by
    rcases List.mem_append.mp (returns_append n ev ev' ▸ member) with before | after
    · have positive : 0 < loads n ev := answered n ▸ List.length_pos_of_mem before
      obtain ⟨e', here'⟩ := Option.ne_none_iff_exists'.mp (first.cached n some positive)
      rw [second.kept n e' here', Option.some_inj] at here
      exact here ▸ first.scope n e' some here' v before
    · exact second.scope n e some here v after
  returned n e some here v member := by
    rw [first.cachedReturns_append (answered n) some, List.mem_append] at member
    rcases member with before | after
    · have positive : 0 < loads n ev :=
        answered n ▸ List.length_pos_of_mem (mem_of_cachedReturns before)
      obtain ⟨e', here'⟩ := Option.ne_none_iff_exists'.mp (first.cached n some positive)
      rw [second.kept n e' here', Option.some_inj] at here
      exact here ▸ first.returned n e' some here' v before
    · exact second.returned n e some here v after

theorem Ran.append (first : Ran libs names order s t ev) (second : Ran libs names order' t u ev') :
    Ran libs names (order ++ order') s u (ev ++ ev') :=
  ⟨first.counted.append second.counted, first.cache.append second.cache first.counted.answered⟩

/- A library in the cache. -/

theorem Counted.found {name : α} (v : Value σ) (some : (libs name).defines ≠ []) :
    Counted libs names [name] (found name v) where
  loads n := by simp [loads_found, enters_found, List.count_singleton]
  bodies n k := by rw [bodies_found, enters_found, Nat.zero_mul]
  void n none := by
    rw [enters_found, loads_found, if_neg]
    rintro rfl
    exact some none
  answered n := by
    rw [returns_found, loads_found]
    split <;> rfl
  below n positive := by
    rw [loads_found] at positive
    split at positive
    · rename_i same
      exact ⟨name, List.mem_singleton_self name, same ▸ .refl⟩
    · omega

omit [DecidableEq σ] in
theorem Cached.found {name : α} {e : Exporter σ} (some : (libs name).defines ≠ [])
    (known : assqd name s.libCache = Option.some e) (cache : t.libCache = s.libCache)
    (events : t.events = s.events ++ found name (.exporter e)) :
    Cached libs s t (LibraryLoads.found name (.exporter e)) := by
  have value : ∀ n v, v ∈ returns n (LibraryLoads.found name (.exporter e)) →
      name = n ∧ v = .exporter e := by
    intro n v member
    rw [returns_found] at member
    split at member
    · exact ⟨‹_›, List.mem_singleton.mp member⟩
    · cases member
  have cached : ∀ n e' v, assqd n t.libCache = Option.some e' →
      v ∈ returns n (LibraryLoads.found name (.exporter e)) → v = .exporter e' := by
    intro n e' v here member
    obtain ⟨rfl, rfl⟩ := value n v member
    rw [cache, known, Option.some_inj] at here
    rw [here]
  constructor
  · exact events
  · intro n _
    rw [enters_found, loads_found]
    by_cases same : name = n
    · rw [← same, known]
      rfl
    · rw [if_neg same]
      split <;> rfl
  · exact fun n e' here => cache ▸ here
  · intro n _ positive
    rw [loads_found] at positive
    split at positive
    · rename_i same
      rw [cache, ← same, known]
      simp
    · omega
  · exact fun n here => .inl (cache ▸ here)
  · intro n none v member
    obtain ⟨rfl, _⟩ := value n v member
    exact absurd none some
  · intro n e' _ here v member
    rw [cached n e' v here member]
  · intro n e' _ here v member
    exact cached n e' v here (mem_of_cachedReturns member)

/-- No library is among what it imports. -/
def Acyclic (libs : α → Library α σ) : Prop := ∀ n, ¬ Relation.TransGen (Imports libs) n n

/- A library that is not in the cache: what its code loads is loaded, its body is evaluated, and it is
   put into the cache if it has exports. -/

theorem Counted.around {name : α} (member : name ∈ names)
    (inner : Counted libs names (loadsOf libs name) ev) (imported : ∀ n ∈ loadsOf libs name,
      Imports libs name n) (v : Value σ) :
    Counted libs names [name] (around name ev (bodyOf libs name) v) where
  loads n := by
    have one : ∑ m ∈ names, (if name = m then 1 else 0) * (loadsOf libs m).count n =
        (loadsOf libs name).count n := by
      rw [Finset.sum_eq_single_of_mem name member]
      · rw [if_pos rfl, Nat.one_mul]
      · intro m _ other
        rw [if_neg (Ne.symm other), Nat.zero_mul]
    have sum : ∑ m ∈ names, enters m (LibraryLoads.around name ev (bodyOf libs name) v) *
        (loadsOf libs m).count n = (loadsOf libs name).count n +
          ∑ m ∈ names, enters m ev * (loadsOf libs m).count n := by
      rw [← one, ← Finset.sum_add_distrib]
      apply Finset.sum_congr rfl
      intro m _
      rw [enters_around, Nat.add_mul]
    rw [loads_around, inner.loads, sum, List.count_singleton]
    simp
  bodies n k := by
    rw [bodies_around, enters_around, inner.bodies, Nat.add_mul]
    split
    · rename_i same
      rw [same]
      omega
    · omega
  void n none := by
    rw [enters_around, loads_around, inner.void n none]
  answered n := by
    rw [returns_around, loads_around, List.length_append, inner.answered]
    split
    · exact Nat.add_comm _ _
    · simp
  below n positive := by
    rw [loads_around] at positive
    refine ⟨name, List.mem_singleton_self name, ?_⟩
    by_cases same : name = n
    · exact same ▸ .refl
    · rw [if_neg same, Nat.zero_add] at positive
      obtain ⟨m, loaded, path⟩ := inner.below n positive
      exact Relation.ReflTransGen.head (imported m loaded) path

omit [DecidableEq σ] in
theorem Cached.around {name : α} {v : Value σ} {s' : State α σ} {ks : List Nat}
    (unknown : assqd name s.libCache = none) (inner : Cached libs s t ev)
    (apart : loads name ev = 0) (answered : (returns name ev).length = loads name ev)
    (before : s.libCache = u.libCache) (events : s'.events = u.events ++ around name ev ks v)
    (exporter : if (libs name).defines = [] then v = .void ∧ s'.libCache = t.libCache
      else ∃ e, v.scope = (Value.exporter e).scope ∧ s'.libCache = (name, e) :: t.libCache) :
    Cached libs u s' (LibraryLoads.around name ev ks v) := by
  have own : returns name ev = [] := List.length_eq_zero_iff.mp (answered.trans apart)
  have other_cache : ∀ n, name ≠ n → assqd n s'.libCache = assqd n t.libCache := by
    intro n other
    split at exporter
    · rw [exporter.2]
    · obtain ⟨e, _, cache⟩ := exporter
      rw [cache, assqd, if_neg other]
  have own_cache : (libs name).defines ≠ [] →
      ∃ e, v.scope = (Value.exporter e).scope ∧ assqd name s'.libCache = some e := by
    intro some
    rw [if_neg some] at exporter
    obtain ⟨e, scope, cache⟩ := exporter
    exact ⟨e, scope, by rw [cache, assqd, if_pos rfl]⟩
  constructor
  · exact events
  · intro n some
    rw [enters_around, loads_around, inner.once n some, before]
    by_cases same : name = n
    · subst same
      rw [before] at unknown
      rw [apart, unknown]
      simp
    · rw [if_neg same, Nat.zero_add, Nat.zero_add]
  · intro n e here
    rw [← before] at here
    by_cases same : name = n
    · subst same
      rw [unknown] at here
      cases here
    · rw [other_cache n same]
      exact inner.kept n e here
  · intro n some positive
    by_cases same : name = n
    · subst same
      obtain ⟨e, _, here⟩ := own_cache some
      rw [here]
      simp
    · rw [loads_around, if_neg same, Nat.zero_add] at positive
      rw [other_cache n same]
      exact inner.cached n some positive
  · intro n here
    rw [loads_around]
    by_cases same : name = n
    · rw [if_pos same]
      exact .inr (by omega)
    · rw [other_cache n same] at here
      rw [← before, if_neg same, Nat.zero_add]
      exact inner.fresh n here
  · intro n none w member
    rw [returns_around] at member
    by_cases same : name = n
    · subst same
      rw [own, if_pos rfl, List.nil_append, List.mem_singleton] at member
      rw [if_pos none] at exporter
      exact member.trans exporter.1
    · rw [if_neg same, List.append_nil] at member
      exact inner.silent n none w member
  · intro n e some here w member
    rw [returns_around] at member
    by_cases same : name = n
    · subst same
      rw [own, if_pos rfl, List.nil_append, List.mem_singleton] at member
      obtain ⟨e', scope, here'⟩ := own_cache some
      rw [here', Option.some_inj] at here
      rw [member, scope, here]
    · rw [if_neg same, List.append_nil] at member
      exact inner.scope n e some (other_cache n same ▸ here) w member
  · intro n e some here w member
    unfold cachedReturns at member
    rw [returns_around, ← before] at member
    by_cases same : name = n
    · subst same
      rw [own, if_pos unknown, if_pos rfl] at member
      cases member
    · rw [if_neg same, List.append_nil] at member
      exact inner.returned n e some (other_cache n same ▸ here) w member

end ran

section runs
variable {α σ : Type} [DecidableEq α] [DecidableEq σ] {libs : α → Library α σ} {names : Finset α}
  {load : α → Run α σ (Value σ)} {s s' t : State α σ} {ev : List (Event α σ)}

/-- The load returns, an exporter if the library has exports. -/
def Loaded (libs : α → Library α σ) (names : Finset α) (load : α → Run α σ (Value σ)) (n : α) :
    Prop :=
  ∀ s, Clean libs s → ∃ v s' ev, Returns (load n) s v s' ∧ Ran libs names [n] s s' ev ∧
    Clean libs s' ∧ ((libs n).defines ≠ [] → ∃ e, v = .exporter e)

omit [DecidableEq α] [DecidableEq σ] in
theorem returns_note {e : Event α σ} {γ : Type} {f : Unit → Run α σ γ} {c : γ} :
    Returns (note e >>= f) s c s' ↔ Returns (f ()) { s with events := s.events ++ [e] } c s' :=
  Iff.rfl

omit [DecidableEq σ] in
theorem runForms_binds {name : α} {env : List (α × Value σ)} {exports : List σ}
    {forms : List (Form α σ)} (xs : List σ)
    (exporter : xs ≠ [] → ∃ e, env.lookup name = some (.exporter e)) :
    runForms load env exports .void (xs.map (fun x => .bind x name) ++ forms) =
      runForms load env exports .void forms := by
  induction xs with
  | nil => rfl
  | cons x xs ih =>
    obtain ⟨e, found⟩ := exporter (List.cons_ne_nil x xs)
    rw [List.map_cons, List.cons_append, runForms, found]
    exact ih fun _ => ⟨e, found⟩

theorem includes_ran {imports : List α} (each : ∀ n ∈ imports, Loaded libs names load n)
    (env : List (α × Value σ)) (exports : List σ) (after forms : List (Form α σ))
    (clean : Clean libs s) : ∃ env' t ev,
      Ran libs names (loadNames (keep after (includes libs imports))) s t ev ∧ Clean libs t ∧
      ∀ v s', Returns (runForms load env' exports .void forms) t v s' →
        Returns (runForms load env exports .void (keep after (includes libs imports) ++ forms))
          s v s' := by
  induction imports generalizing s env with
  | nil => exact ⟨env, s, [], .quiet [] rfl (List.append_nil _).symm, clean, fun _ _ => id⟩
  | cons n imports ih =>
    have later := fun m member => each m (List.mem_cons_of_mem n member)
    rw [includes, List.flatMap_cons, ← includes, keep_append]
    rcases keep_makeInclude (includes libs imports ++ after) n (libs n).defines with
      none | ⟨xs, some, kept⟩
    · rw [none]
      exact ih later env clean
    · rw [kept]
      obtain ⟨v, u, first, loaded, ran, clean_u, exporter⟩ := each n List.mem_cons_self s clean
      obtain ⟨env', t, rest, ran', clean_t, continues⟩ := ih later ((n, v) :: env) clean_u
      have bound : xs ≠ [] → ∃ e, ((n, v) :: env).lookup n = Option.some (.exporter e) := by
        intro more
        obtain ⟨e, rfl⟩ := exporter (some more)
        exact ⟨e, by simp⟩
      refine ⟨env', t, first ++ rest, ?_, clean_t, ?_⟩
      · rw [loadNames, List.filterMap_append, ← loadNames, loadNames_makeInclude]
        exact ran.append ran'
      · intro w s' returned
        rw [makeInclude, List.append_assoc, List.cons_append, runForms, returns_after loaded,
          runForms_binds xs bound]
        exact continues w s' returned

omit [DecidableEq σ] in
theorem runForms_body {owner : Option α} {env : List (α × Value σ)} {exports : List σ}
    {v : Value σ} {forms body : List (Form α σ)} (only : OnlyBody owner body)
    (returned : Returns (runForms load env exports .void forms)
      { s with events := s.events ++ (bodyIndices body).map (.body owner) } v s') :
    Returns (runForms load env exports .void (body ++ forms)) s v s' := by
  induction body generalizing s with
  | nil => simpa [bodyIndices] using returned
  | cons form body ih =>
    obtain ⟨k, item, rfl⟩ := only form List.mem_cons_self
    rw [List.cons_append, runForms, returns_note]
    apply ih fun form member => only form (List.mem_cons_of_mem _ member)
    simpa [bodyIndices, Form.index] using returned

/- The call of the entry point, whichever modules have been read. -/
variable (libs) in
theorem loadLibrary_enters (fuel : Nat) (name : α) (s : State α σ) :
    ∃ libraries, ∀ v s', Returns (do
        let v ← match assqd name s.libCache with
          | some cached => pure (.exporter cached)
          | none => do
            note (.enter name)
            runForms (loadLibrary libs fuel) [] [] .void (libraryCode libs name)
        note (.returned name v)
        return v) { s with libraries := libraries, events := s.events ++ [.load name] } v s' →
      Returns (loadLibrary libs (fuel + 1) name) s v s' := by
  by_cases known : name ∈ s.libraries
  · refine ⟨s.libraries, ?_⟩
    intro v s' returned
    rw [loadLibrary, returns_note, returns_bind]
    refine ⟨{ s with events := s.events ++ [.load name] }, _, rfl, ?_⟩
    rw [if_neg (by simpa using known)]
    exact returned
  · refine ⟨name :: s.libraries, ?_⟩
    intro v s' returned
    rw [loadLibrary, returns_note, returns_bind]
    refine ⟨{ s with events := s.events ++ [.load name] }, _, rfl, ?_⟩
    rw [if_pos (by simpa using known)]
    exact returned

/-- The state after the code of a library that has been loaded up to the state t. -/
def registered (libs : α → Library α σ) (name : α) (t : State α σ) : Value σ × State α σ :=
  match (libs name).defines with
  | [] => (.void, t)
  | x :: xs => (.exporter ⟨t.closures, t.closures + 1, x :: xs⟩, { t with
      closures := t.closures + 2
      libCache := (name, ⟨t.closures, t.closures, x :: xs⟩) :: t.libCache })

theorem libraryCode_ran {fuel : Nat} {name : α}
    (inner : ∀ n ∈ (libs name).imports, Loaded libs names (loadLibrary libs fuel) n)
    (clean : Clean libs s) : ∃ t ev, Ran libs names (loadsOf libs name) s t ev ∧ Clean libs t ∧
      Returns (runForms (loadLibrary libs fuel) [] [] .void (libraryCode libs name)) s
        (registered libs name t).1 { (registered libs name t).2 with
          events := t.events ++ bodyEvents name (bodyOf libs name) } := by
  obtain ⟨defs, exprs, only, only', code⟩ := libraryCode_eq libs name
  obtain ⟨env, t, ev, ran, clean_t, continues⟩ := includes_ran inner [] [] (afterImports libs name)
    (defs ++ ((makeExporter name (libs name).defines).filter Form.isDefine ++
      (exprs ++ (makeExporter name (libs name).defines).filter fun form => !form.isDefine))) clean
  have none := fun p => (makeExporter_loads name (libs name).defines p).2
  refine ⟨t, ev, loadsOf_eq libs name ▸ ran, clean_t, ?_⟩
  rw [bodyOf_eq code (keep_sublist _ _) (none _) (none _), code]
  apply continues
  apply runForms_body only
  unfold registered bodyEvents
  cases (libs name).defines with
  | nil =>
    apply runForms_body only'
    simp only [List.append_assoc, ← List.map_append]
    rfl
  | cons x xs =>
    apply runForms_body only'
    simp only [List.append_assoc, ← List.map_append]
    rfl

omit [DecidableEq α] [DecidableEq σ] in
variable (libs) in
theorem registered_exporter (name : α) (t : State α σ) : if (libs name).defines = []
    then (registered libs name t).1 = .void ∧ (registered libs name t).2.libCache = t.libCache
    else ∃ e, (registered libs name t).1.scope = (Value.exporter e).scope ∧
      (registered libs name t).2.libCache = (name, e) :: t.libCache := by
  unfold registered
  cases (libs name).defines with
  | nil => exact ⟨rfl, rfl⟩
  | cons x xs => exact ⟨⟨t.closures, t.closures, x :: xs⟩, rfl, rfl⟩

omit [DecidableEq α] [DecidableEq σ] in
theorem registered_value {name : α} (some : (libs name).defines ≠ []) :
    ∃ e, (registered libs name t).1 = .exporter e := by
  unfold registered
  cases defines : (libs name).defines with
  | nil => exact absurd defines some
  | cons x xs => exact ⟨_, rfl⟩

omit [DecidableEq σ] in
theorem registered_clean (name : α) (clean : Clean libs t) :
    Clean libs (registered libs name t).2 := by
  intro n none
  have cache := registered_exporter libs name t
  split at cache
  · rw [cache.2]
    exact clean n none
  · rename_i some
    obtain ⟨e, _, here⟩ := cache
    rw [here, assqd, if_neg]
    · exact clean n none
    · rintro rfl
      exact some none

theorem loadLibrary_loaded {fuel : Nat} {name : α} (acyclic : Acyclic libs) (member : name ∈ names)
    (inner : ∀ n ∈ (libs name).imports, Loaded libs names (loadLibrary libs fuel) n) :
    Loaded libs names (loadLibrary libs (fuel + 1)) name := by
  intro s clean
  obtain ⟨libraries, enters_⟩ := loadLibrary_enters libs fuel name s
  cases known : assqd name s.libCache with
  | some e =>
    rw [known] at enters_
    have some : (libs name).defines ≠ [] := by
      intro none
      rw [clean name none] at known
      cases known
    exact ⟨.exporter e, _, _, enters_ (.exporter e) _ rfl,
      ⟨.found (.exporter e) some, .found some known rfl (by simp [found])⟩, clean, fun _ => ⟨e, rfl⟩⟩
  | none =>
    rw [known] at enters_
    obtain ⟨t, ev, ran, clean_t, returned⟩ := libraryCode_ran
      (s := { s with libraries := libraries, events := s.events ++ [.load name, .enter name] })
      inner clean
    -- the library is not loaded by its imports
    have apart : loads name ev = 0 := by
      by_contra positive
      obtain ⟨m, loaded, path⟩ := ran.counted.below name (Nat.pos_of_ne_zero positive)
      exact acyclic name (Relation.TransGen.head' (imports_of_loadsOf libs name m loaded) path)
    refine ⟨(registered libs name t).1, { (registered libs name t).2 with
        events := t.events ++ bodyEvents name (bodyOf libs name) ++
          [.returned name (registered libs name t).1] },
      around name ev (bodyOf libs name) (registered libs name t).1, enters_ _ _ ?_,
      ⟨.around member ran.counted (imports_of_loadsOf libs name) _,
        .around (by exact known) ran.cache apart (ran.counted.answered name) rfl ?_
          (registered_exporter libs name t)⟩, registered_clean name clean_t, registered_value⟩
    · dsimp only
      rw [returns_note, List.append_assoc, List.singleton_append]
      exact returns_bind.mpr ⟨_, _, returned, rfl⟩
    · rw [ran.cache.events, around]
      simp

/- Acyclic imports. -/

open Classical in
/-- The number of libraries below n. -/
noncomputable def rank (libs : α → Library α σ) (names : Finset α) (n : α) : Nat :=
  (names.filter fun m => Relation.TransGen (Imports libs) n m).card

omit [DecidableEq α] [DecidableEq σ] in
theorem rank_lt (acyclic : Acyclic libs) {m n : α} (known : n ∈ names) (imported : Imports libs m n) :
    rank libs names n < rank libs names m := by
  classical
  apply Finset.card_lt_card
  rw [Finset.ssubset_iff_of_subset]
  · refine ⟨n, ?_, ?_⟩
    · exact Finset.mem_filter.mpr ⟨known, .single imported⟩
    · intro member
      exact acyclic n (Finset.mem_filter.mp member).2
  · intro k member
    obtain ⟨known', path⟩ := Finset.mem_filter.mp member
    exact Finset.mem_filter.mpr ⟨known', .head imported path⟩

omit [DecidableEq α] [DecidableEq σ] in
theorem rank_lt_card (acyclic : Acyclic libs) {n : α} (known : n ∈ names) :
    rank libs names n < names.card := by
  classical
  apply Finset.card_lt_card
  rw [Finset.ssubset_iff_of_subset (Finset.filter_subset _ _)]
  exact ⟨n, known, fun member => acyclic n (Finset.mem_filter.mp member).2⟩

/-- The imports of the libraries are among them. -/
def Closed (libs : α → Library α σ) (names : Finset α) : Prop :=
  ∀ m ∈ names, ∀ n ∈ (libs m).imports, n ∈ names

omit [DecidableEq α] [DecidableEq σ] in
theorem Closed.path (closed : Closed libs names) {m n : α} (known : m ∈ names)
    (path : Relation.ReflTransGen (Imports libs) m n) : n ∈ names := by
  induction path with
  | refl => exact known
  | tail _ imported ih => exact closed _ ih _ imported

theorem all_loaded (acyclic : Acyclic libs) (closed : Closed libs names) {fuel : Nat} {n : α}
    (known : n ∈ names) (enough : rank libs names n < fuel) :
    Loaded libs names (loadLibrary libs fuel) n := by
  induction fuel generalizing n with
  | zero => exact absurd enough (Nat.not_lt_zero _)
  | succ fuel ih =>
    apply loadLibrary_loaded acyclic known
    intro m imported
    have below := rank_lt acyclic (closed n known m imported) imported
    exact ih (closed n known m imported) (by omega)

theorem runPrograms_ran (acyclic : Acyclic libs) (closed : Closed libs names) {fuel : Nat}
    (enough : names.card ≤ fuel) {programs : List (Program α σ)}
    (known : ∀ x ∈ programs, ∀ n ∈ x.imports, n ∈ names) (clean : Clean libs s) :
    ∃ s' ev, Returns (runPrograms libs fuel programs) s () s' ∧
      Ran libs names (programs.flatMap fun x => loadNames (programCode libs x)) s s' ev := by
  induction programs generalizing s with
  | nil => exact ⟨s, [], rfl, .quiet [] rfl (List.append_nil _).symm⟩
  | cons x programs ih =>
    have each : ∀ n ∈ x.imports, Loaded libs names (loadLibrary libs fuel) n := by
      intro n member
      have here := known x List.mem_cons_self n member
      exact all_loaded acyclic closed here ((rank_lt_card acyclic here).trans_le enough)
    obtain ⟨body, only, code⟩ := programCode_eq libs x
    obtain ⟨env, t, ev, ran, clean_t, continues⟩ :=
      includes_ran each [] [] (bodyForms none x.body) body clean
    rw [← programCode_loads] at ran
    have quiet : Ran libs names [] t { t with
        events := t.events ++ (bodyIndices body).map (.body none) }
        ((bodyIndices body).map (.body none)) := .quiet (bodyIndices body) rfl rfl
    obtain ⟨s', ev', returned, ran'⟩ := ih (fun y member => known y (List.mem_cons_of_mem x member))
      (s := { t with events := t.events ++ (bodyIndices body).map (.body none) }) clean_t
    have whole := (ran.append quiet).append ran'
    rw [List.append_nil] at whole
    rw [List.flatMap_cons]
    refine ⟨s', _, ?_, whole⟩
    have program : Returns (runForms (loadLibrary libs fuel) env [] .void (body ++ [])) t .void
        { t with events := t.events ++ (bodyIndices body).map (.body none) } :=
      runForms_body only rfl
    rw [List.append_nil] at program
    have run := continues _ _ program
    rw [← code] at run
    rw [runPrograms, returns_after run]
    exact returned

theorem loads_eq_calls (acyclic : Acyclic libs) {order : List α}
    (ran : Ran libs names order State.init s' ev) {fuel : Nat} {n : α} (known : n ∈ names)
    (enough : names.card ≤ rank libs names n + 1 + fuel) :
    loads n ev = calls libs names order fuel n := by
  have entered : ∀ m, enters m ev =
      if (libs m).defines = [] then loads m ev else min 1 (loads m ev) := by
    intro m
    split
    · rename_i none
      exact ran.counted.void m none
    · rename_i some
      rw [ran.cache.once m some]
      exact if_pos rfl
  have zero : ∀ {m k : Nat}, ¬ k ≠ 0 → m * k = 0 := by
    intro m k none
    rw [not_not.mp none, Nat.mul_zero]
  induction fuel generalizing n with
  | zero =>
    rw [ran.counted.loads, calls, Finset.sum_eq_zero, Nat.add_zero]
    intro m member
    apply zero
    intro some
    have loaded := List.count_pos_iff.mp (Nat.pos_of_ne_zero some)
    have above := rank_lt acyclic known (imports_of_loadsOf libs m n loaded)
    have limit := rank_lt_card acyclic member
    omega
  | succ fuel ih =>
    rw [ran.counted.loads, calls]
    congr 1
    apply Finset.sum_congr rfl
    intro m member
    by_cases some : (loadsOf libs m).count n ≠ 0
    · have loaded := List.count_pos_iff.mp (Nat.pos_of_ne_zero some)
      have above := rank_lt acyclic known (imports_of_loadsOf libs m n loaded)
      rw [entered, ih member (by omega)]
    · rw [zero some, zero some]

theorem order_known {programs : List (Program α σ)}
    (known : ∀ x ∈ programs, ∀ n ∈ x.imports, n ∈ names) :
    ∀ n ∈ programs.flatMap fun x => loadNames (programCode libs x), n ∈ names := by
  intro n loaded
  obtain ⟨x, program, inside⟩ := List.mem_flatMap.mp loaded
  rw [programCode_loads] at inside
  exact known x program n ((loadNames_keep _ _).subset inside)

theorem Ran.absent (closed : Closed libs names) {order : List α} (known : ∀ n ∈ order, n ∈ names)
    (ran : Ran libs names order s s' ev) {n : α} (unknown : n ∉ names) : loads n ev = 0 := by
  by_contra positive
  obtain ⟨m, loaded, path⟩ := ran.counted.below n (Nat.pos_of_ne_zero positive)
  exact unknown (closed.path (known m loaded) path)

theorem Ran.same {order : List α} (ran : Ran libs names order State.init s' ev) (n : α) :
    (∀ v ∈ returns n ev, ∀ v' ∈ returns n ev, v.scope = v'.scope) ∧
      ∀ v ∈ (returns n ev).tail, ∀ v' ∈ (returns n ev).tail, v = v' := by
  by_cases none : (libs n).defines = []
  · have void := ran.cache.silent n none
    constructor
    · intro v member v' member'
      rw [void v member, void v' member']
    · intro v member v' member'
      rw [void v (List.mem_of_mem_tail member), void v' (List.mem_of_mem_tail member')]
  · have cached : ∀ v ∈ returns n ev, ∃ e, assqd n s'.libCache = some e := by
      intro v member
      have positive : 0 < loads n ev := ran.counted.answered n ▸ List.length_pos_of_mem member
      exact Option.ne_none_iff_exists'.mp (ran.cache.cached n none positive)
    constructor
    · intro v member v' member'
      obtain ⟨e, here⟩ := cached v member
      rw [ran.cache.scope n e none here v member, ran.cache.scope n e none here v' member']
    · intro v member v' member'
      obtain ⟨e, here⟩ := cached v (List.mem_of_mem_tail member)
      rw [ran.cache.returned n e none here v member, ran.cache.returned n e none here v' member']

/- The bodies run at most once, and the loads of a library return the same, exactly when no library
   that has a body but no exports is loaded twice. -/
theorem runsOnce_iff (acyclic : Acyclic libs) (closed : Closed libs names)
    {programs : List (Program α σ)} (known : ∀ x ∈ programs, ∀ n ∈ x.imports, n ∈ names)
    {fuel : Nat} (enough : names.card ≤ fuel) :
    ∃ s, Returns (runPrograms libs fuel programs) State.init () s ∧
      (RunsOnce s.events ↔ ∀ n ∈ names, (libs n).defines = [] → bodyOf libs n ≠ [] →
        calls libs names (programs.flatMap fun x => loadNames (programCode libs x))
          names.card n ≤ 1) := by
  obtain ⟨s, ev, returned, ran⟩ :=
    runPrograms_ran acyclic closed enough known (fun _ _ => rfl : Clean libs State.init)
  refine ⟨s, returned, ?_⟩
  have events : s.events = ev := ran.cache.events
  have count : ∀ n ∈ names, loads n ev =
      calls libs names (programs.flatMap fun x => loadNames (programCode libs x)) names.card n :=
    fun n member => loads_eq_calls acyclic ran member (by omega)
  rw [events]
  constructor
  · rintro ⟨once, _⟩ n member none some
    obtain ⟨k, inside⟩ := List.exists_mem_of_ne_nil _ some
    have first := once n k
    rw [ran.counted.bodies, List.count_eq_one_of_mem (nodup_bodyOf libs n) inside, Nat.mul_one,
      ran.counted.void n none, count n member] at first
    exact first
  · intro few
    refine ⟨?_, fun n => ran.same n⟩
    intro n k
    rw [ran.counted.bodies]
    by_cases inside : k ∈ bodyOf libs n
    · rw [List.count_eq_one_of_mem (nodup_bodyOf libs n) inside, Nat.mul_one]
      by_cases none : (libs n).defines = []
      · rw [ran.counted.void n none]
        by_cases member : n ∈ names
        · rw [count n member]
          exact few n member none (List.ne_nil_of_mem inside)
        · rw [ran.absent closed (order_known known) member]
          exact Nat.zero_le 1
      · rw [ran.cache.once n none]
        split <;> omega
    · rw [List.count_eq_zero.mpr inside, Nat.mul_zero]
      exact Nat.zero_le 1

end runs

section samples

/-- The library 0 displays something. The libraries 1 and 2 import it, and have a procedure that
    returns a variable with the name of 0, which they define after the procedure. -/
def diamond (exports : List Nat) (n : Nat) : Library Nat Nat :=
  if n = 0 then ⟨[], exports, exports.map (fun x => .define (.defined x) []) ++ [.expr false []]⟩
  else ⟨[0], [n], [.define (.defined n) [.library 0], .define (.library 0) []]⟩

theorem imports_diamond {exports : List Nat} {m n : Nat} (imported : Imports (diamond exports) m n) :
    m ≠ 0 ∧ n = 0 := by
  unfold Imports diamond at imported
  split at imported
  · cases imported
  · exact ⟨‹_›, List.mem_singleton.mp imported⟩

theorem acyclic_diamond (exports : List Nat) : Acyclic (diamond exports) := by
  intro n cycle
  obtain ⟨m, first, _⟩ := Relation.TransGen.head'_iff.mp cycle
  obtain ⟨m', _, last⟩ := Relation.TransGen.tail'_iff.mp cycle
  exact (imports_diamond first).1 (imports_diamond last).2

theorem closed_diamond (exports : List Nat) : Closed (diamond exports) {0, 1, 2} := by
  intro m _ n imported
  rw [(imports_diamond imported).2]
  decide

/- With an export the library 0 is run once. -/
theorem runsOnce_diamond : ∃ s, Returns (runPrograms (diamond [7]) 3
      [⟨[1, 2], [.expr false []]⟩, ⟨[0], [.expr false [.defined 7]]⟩]) State.init () s ∧
    RunsOnce s.events := by
  have known : ∀ x ∈ [(⟨[1, 2], [.expr false []]⟩ : Program Nat Nat),
      ⟨[0], [.expr false [.defined 7]]⟩], ∀ n ∈ x.imports, n ∈ ({0, 1, 2} : Finset Nat) := by
    simp
  obtain ⟨s, returned, once⟩ := runsOnce_iff (acyclic_diamond [7]) (closed_diamond [7]) known
    (show ({0, 1, 2} : Finset Nat).card ≤ 3 by decide)
  exact ⟨s, returned, once.mpr (by decide)⟩

/- Without one its body is run by each of its importers. -/
theorem diamond_runs_twice : Acyclic (diamond []) ∧ ∃ s,
    Returns (runPrograms (diamond []) 3 [⟨[1, 2], [.expr false []]⟩]) State.init () s ∧
      bodies 0 0 s.events = 2 ∧ ¬ RunsOnce s.events := by
  refine ⟨acyclic_diamond [], _, rfl, by decide, ?_⟩
  intro once
  exact absurd (once.1 0 0) (by decide)

end samples

end LGears.LibraryLoads
