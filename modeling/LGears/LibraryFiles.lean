import Mathlib.Algebra.Ring.Int.Defs
import Mathlib.Data.List.Basic
import Mathlib.Tactic.Common

/- Where the object file of a library is: library-manager.scm and load-library of the compiler on one
   side, load_library of the virtual machine on the other. -/
namespace LGears.LibraryFiles

/-- A text by its bytes: a symbol, a path, or a part of one. -/
abbrev Text := List UInt8

/-- A name is a list of symbols. -/
abbrev Name := List Text

def slash : UInt8 := 47
def dot : UInt8 := 46

/-- "scm", "ss" and "sls" -/
def scm : Text := [115, 99, 109]
def ss : Text := [115, 115]
def sls : Text := [115, 108, 115]

/-- ".o" -/
def dotO : Text := [dot, 111]

def libraryPath : List Text := [[dot], [dot, dot]]
def libraryExtensions : List Text := [scm, ss, sls]

/-- (libname->string name sep) -/
def libnameToString (name : Name) (sep : Text) : Text :=
  match name with
  | [] => []
  | first :: rest => rest.foldl (fun prev cur => prev ++ sep ++ cur) first

/-- (libname->path name) -/
def libnameToPath (name : Name) : Text := libnameToString name [slash]

/-- (libname->symbol name) -/
def libnameToSymbol (name : Name) : Text := libnameToString name [dot]

/-- The file that (try-file lp path ext) looks for. -/
def tryFile (lp path ext : Text) : Text := lp ++ [slash] ++ path ++ [dot] ++ ext

/-- (find-library-file name), with the answers of file-exists?; without a file it fails. -/
def findLibraryFile (fileExists : Text → Bool) (name : Name) : Option Text :=
  (libraryPath.flatMap fun lp => libraryExtensions.map (tryFile lp (libnameToPath name))).find?
    fileExists

/-- The file to which load-library assembles the library of the file path. -/
def assembled (cachePath path : Text) : Text := cachePath ++ [slash] ++ path ++ dotO

/-- What snprintf leaves of a text in a buffer of n bytes. -/
def snprintf (n : Nat) (text : Text) : Text := text.take (n - 1)

/-- The path of load_library before it is written to the buffer. -/
def vmText (cachePath libname : Text) : Text :=
  cachePath ++ [slash] ++ libname ++ [dot] ++ scm ++ dotO

/-- The path that (load_library thread argv argc) opens. -/
def vmPath (cachePath libname : Text) : Text := snprintf 256 (vmText cachePath libname)

/-- The components of a path. -/
def split : Text → List Text
  | [] => [[]]
  | c :: path =>
    if c = slash then [] :: split path
    else
      match split path with
      | [] => [[c]]
      | first :: rest => (c :: first) :: rest

/-- The components but those that are '.'. -/
def components (path : Text) : List Text := (split path).filter (· ≠ [dot])

/- Components. -/

theorem split_ne_nil (path : Text) : split path ≠ [] := by
  cases path with
  | nil => exact List.cons_ne_nil _ _
  | cons c path =>
    rw [split]
    split
    · exact List.cons_ne_nil _ _
    · split <;> exact List.cons_ne_nil _ _

theorem split_slash (a b : Text) : split (a ++ slash :: b) = split a ++ split b := by
  induction a with
  | nil => simp [split]
  | cons c a ih =>
    rw [List.cons_append, split, split]
    by_cases sep : c = slash
    · rw [if_pos sep, if_pos sep, ih]
      rfl
    · rw [if_neg sep, if_neg sep, ih]
      cases found : split a with
      | nil => exact absurd found (split_ne_nil a)
      | cons first rest => rfl

theorem components_slash (a b : Text) :
    components (a ++ slash :: b) = components a ++ components b := by
  rw [components, split_slash, List.filter_append]
  rfl

/-- The bytes of a path less twice its slashes. -/
def weight (path : Text) : Int := path.length - 2 * (path.filter (· = slash)).length

theorem weight_append (a b : Text) : weight (a ++ b) = weight a + weight b := by
  simp only [weight, List.length_append, List.filter_append]
  omega

def total (parts : List Text) : Int := (parts.map fun part => (part.length : Int) - 1).sum

theorem total_split (path : Text) : total (split path) = weight path - 1 := by
  induction path with
  | nil => rfl
  | cons c path ih =>
    rw [split]
    by_cases sep : c = slash
    · rw [if_pos sep]
      simp only [total, List.map_cons, List.sum_cons, List.length_nil, weight, List.length_cons,
        List.filter_cons_of_pos, sep, decide_true] at ih ⊢
      omega
    · rw [if_neg sep]
      cases found : split path with
      | nil => exact absurd found (split_ne_nil path)
      | cons first rest =>
        rw [found] at ih
        simp only [total, List.map_cons, List.sum_cons, weight, List.length_cons, sep,
          decide_false, Bool.false_eq_true, not_false_eq_true, List.filter_cons_of_neg] at ih ⊢
        omega

theorem total_filter (parts : List Text) : total (parts.filter (· ≠ [dot])) = total parts := by
  induction parts with
  | nil => rfl
  | cons part parts ih =>
    by_cases here : part = [dot]
    · simp only [here, ne_eq, not_true_eq_false, decide_false, Bool.false_eq_true,
        not_false_eq_true, List.filter_cons_of_neg, total, List.map_cons, List.sum_cons,
        List.length_singleton] at ih ⊢
      omega
    · simp only [ne_eq, here, not_false_eq_true, decide_true, List.filter_cons_of_pos, total,
        List.map_cons, List.sum_cons] at ih ⊢
      rw [ih]

theorem total_components (path : Text) : total (components path) = weight path - 1 := by
  rw [components, total_filter, total_split]

/- The last component. -/

theorem split_last (a : Text) {w : Text} (plain : slash ∉ w) :
    ∃ before last, split (a ++ w) = before ++ [last ++ w] := by
  induction a with
  | nil =>
    refine ⟨[], [], ?_⟩
    induction w with
    | nil => rfl
    | cons c w ih =>
      rw [List.mem_cons, not_or] at plain
      rw [List.nil_append, split, if_neg (Ne.symm plain.1)]
      rw [show split w = [w] from ih plain.2]
      rfl
  | cons c a ih =>
    obtain ⟨before, last, here⟩ := ih
    rw [List.cons_append, split]
    by_cases sep : c = slash
    · rw [if_pos sep, here]
      exact ⟨[] :: before, last, rfl⟩
    · rw [if_neg sep, here]
      cases before with
      | nil => exact ⟨[], c :: last, rfl⟩
      | cons first before => exact ⟨(c :: first) :: before, last, rfl⟩

theorem components_last (a : Text) {w : Text} (plain : slash ∉ w) (long : 1 < w.length) :
    ∃ before last, components (a ++ w) = before ++ [last ++ w] := by
  obtain ⟨before, last, here⟩ := split_last a plain
  refine ⟨before.filter (· ≠ [dot]), last, ?_⟩
  have kept : last ++ w ≠ [dot] := by
    intro same
    have length := congrArg List.length same
    rw [List.length_append, List.length_singleton] at length
    omega
  rw [components, here, List.filter_append]
  simp [kept]

theorem components_end {a b v w : Text} (plain : slash ∉ v) (plain' : slash ∉ w)
    (long : 1 < v.length) (equal : v.length = w.length) (same : components (a ++ v) = components (b ++ w)) : v = w := by
  obtain ⟨before, last, here⟩ := components_last a plain long
  obtain ⟨before', last', here'⟩ := components_last b plain' (equal ▸ long)
  rw [here, here'] at same
  have ends := (List.append_inj' same rfl).2
  rw [List.cons.injEq] at ends
  exact (List.append_inj' ends.1 equal).2

/- The weight of a name. -/

theorem weight_foldl (sep first : Text) (rest : List Text) :
    weight (rest.foldl (fun prev cur => prev ++ sep ++ cur) first) =
      weight first + (rest.map weight).sum + rest.length * weight sep := by
  induction rest generalizing first with
  | nil => simp
  | cons cur rest ih =>
    rw [List.foldl_cons, ih, weight_append, weight_append, List.map_cons, List.sum_cons,
      List.length_cons, Int.natCast_succ, Int.add_mul, Int.one_mul]
    omega

theorem weight_name (first : Text) (rest : List Text) :
    weight (libnameToPath (first :: rest)) =
      weight (libnameToSymbol (first :: rest)) - 2 * rest.length := by
  have separators : weight [slash] = -1 ∧ weight [dot] = 1 := by decide
  rw [libnameToPath, libnameToSymbol, libnameToString, libnameToString, weight_foldl, weight_foldl,
    separators.1, separators.2]
  omega

/- The two files. -/

theorem findLibraryFile_candidate {fileExists : Text → Bool} {name : Name} {path : Text}
    (found : findLibraryFile fileExists name = some path) :
    ∃ lp ∈ libraryPath, ∃ ext ∈ libraryExtensions, path = tryFile lp (libnameToPath name) ext := by
  have candidate := List.mem_of_find?_eq_some found
  rw [List.mem_flatMap] at candidate
  obtain ⟨lp, root, candidate⟩ := candidate
  rw [List.mem_map] at candidate
  obtain ⟨ext, extension, here⟩ := candidate
  exact ⟨lp, root, ext, extension, here.symm⟩

theorem findLibraryFile_first {fileExists : Text → Bool} (name : Name)
    (here : fileExists (tryFile [dot] (libnameToPath name) scm) = true) :
    findLibraryFile fileExists name = some (tryFile [dot] (libnameToPath name) scm) := by
  simp [findLibraryFile, libraryPath, libraryExtensions, here]

theorem vmPath_fits {cachePath libname : Text} (fits : (vmText cachePath libname).length < 256) :
    vmPath cachePath libname = vmText cachePath libname := by
  apply List.take_of_length_le
  omega

theorem vmText_injective {cachePath libname libname' : Text}
    (same : vmText cachePath libname = vmText cachePath libname') : libname = libname' := by
  simpa [vmText] using same

/- A path with the weight of the other has one symbol, and its file does not end in 'scm' only if
   that is no source at all. -/
theorem components_agree {cachePath lp ext first : Text} {rest : Name} (root : lp ∈ libraryPath)
    (extension : ext ∈ libraryExtensions)
    (same : components (assembled cachePath (tryFile lp (libnameToPath (first :: rest)) ext)) =
      components (vmText cachePath (libnameToSymbol (first :: rest)))) :
    rest = [] ∧ lp = [dot] ∧ ext = scm := by
  have weights : weight (assembled cachePath (tryFile lp (libnameToPath (first :: rest)) ext)) =
      weight (vmText cachePath (libnameToSymbol (first :: rest))) := by
    have totals := congrArg total same
    rw [total_components, total_components] at totals
    omega
  simp only [assembled, tryFile, vmText, weight_append, weight_name] at weights
  have separators : weight [slash] = -1 ∧ weight [dot] = 1 ∧ weight scm = 3 := by decide
  have roots : weight [dot, dot] = 2 ∧ weight ss = 2 ∧ weight sls = 3 := by decide
  -- the ends of the two files differ where the source is no .scm file
  have ends : ext ≠ ss ∧ ext ≠ sls := by
    constructor
    · intro other
      subst other
      have clash := components_end (v := [115, dot, 111]) (w := [109, dot, 111])
        (a := cachePath ++ [slash] ++ (lp ++ [slash] ++ libnameToPath (first :: rest) ++ [dot, 115]))
        (b := cachePath ++ [slash] ++ libnameToSymbol (first :: rest) ++ [dot, 115, 99])
        (by decide) (by decide) (by decide) rfl
        (by simpa [assembled, tryFile, vmText, ss, scm, dotO] using same)
      exact absurd clash (by decide)
    · intro other
      subst other
      have clash := components_end (v := [115, dot, 111]) (w := [109, dot, 111])
        (a := cachePath ++ [slash] ++
          (lp ++ [slash] ++ libnameToPath (first :: rest) ++ [dot, 115, 108]))
        (b := cachePath ++ [slash] ++ libnameToSymbol (first :: rest) ++ [dot, 115, 99])
        (by decide) (by decide) (by decide) rfl
        (by simpa [assembled, tryFile, vmText, sls, scm, dotO] using same)
      exact absurd clash (by decide)
  have last : ext = scm := by
    simp only [libraryExtensions, List.mem_cons, List.not_mem_nil, or_false] at extension
    rcases extension with here | here | here
    · exact here
    · exact absurd here ends.1
    · exact absurd here ends.2
  subst last
  simp only [libraryPath, List.mem_cons, List.not_mem_nil, or_false] at root
  rcases root with here | here
  · subst here
    constructor
    · apply List.eq_nil_of_length_eq_zero
      omega
    · exact ⟨rfl, rfl⟩
  · subst here
    omega

theorem components_single (cachePath s : Text) :
    components (assembled cachePath (tryFile [dot] s scm)) = components (vmText cachePath s) := by
  have here : assembled cachePath (tryFile [dot] s scm) =
      cachePath ++ slash :: ([dot] ++ slash :: (s ++ [dot] ++ scm ++ dotO)) := by
    simp [assembled, tryFile]
  have there : vmText cachePath s = cachePath ++ slash :: (s ++ [dot] ++ scm ++ dotO) := by
    simp [vmText]
  rw [here, there, components_slash, components_slash, components_slash]
  rfl

/- Names with one symbol. -/

theorem dot_mem_foldl {prev : Text} (rest : List Text) (here : dot ∈ prev) :
    dot ∈ rest.foldl (fun prev cur => prev ++ [dot] ++ cur) prev := by
  induction rest generalizing prev with
  | nil => exact here
  | cons cur rest ih =>
    apply ih
    exact List.mem_append_left _ (List.mem_append_left _ here)

theorem dot_mem_symbol (first second : Text) (rest : Name) :
    dot ∈ libnameToSymbol (first :: second :: rest) := by
  apply dot_mem_foldl rest
  exact List.mem_append_left _ (List.mem_append_right _ (List.mem_singleton_self dot))

theorem symbol_unique_iff {name : Name} (some : name ≠ []) :
    (∀ other : Name, other ≠ [] → libnameToSymbol other = libnameToSymbol name → other = name) ↔
      ∃ s, name = [s] ∧ dot ∉ s := by
  constructor
  · intro unique
    have single := unique [libnameToSymbol name] (List.cons_ne_nil _ _) rfl
    refine ⟨libnameToSymbol name, single.symm, ?_⟩
    intro dotted
    obtain ⟨a, b, parts⟩ := List.append_of_mem dotted
    have joined : libnameToSymbol [a, b] = a ++ dot :: b := List.append_assoc a [dot] b
    have double := unique [a, b] (List.cons_ne_nil _ _) (joined.trans parts.symm)
    rw [← single] at double
    simp at double
  · intro ⟨s, single, plain⟩ other nonempty same
    subst single
    rcases other with _ | ⟨first, _ | ⟨second, rest⟩⟩
    · exact absurd rfl nonempty
    · rw [show first = s from same]
    · have dotted := dot_mem_symbol first second rest
      rw [same] at dotted
      exact absurd dotted plain

/- The compiler and the virtual machine name the same file, and no other library has it, if and only if
   the name is one symbol without a dot and its source is a .scm file in the current directory. -/
theorem paths_agree_iff (fileExists : Text → Bool) (cachePath : Text) (name : Name) (path : Text)
    (nonempty : name ≠ []) (found : findLibraryFile fileExists name = some path)
    (fits : (vmText cachePath (libnameToSymbol name)).length < 256) :
    (components (assembled cachePath path) =
        components (vmPath cachePath (libnameToSymbol name)) ∧
      ∀ other : Name, other ≠ [] → other ≠ name →
        (vmText cachePath (libnameToSymbol other)).length < 256 →
          vmPath cachePath (libnameToSymbol other) ≠ vmPath cachePath (libnameToSymbol name)) ↔
      ∃ s, name = [s] ∧ dot ∉ s ∧ fileExists (tryFile [dot] s scm) = true := by
  rw [vmPath_fits fits]
  constructor
  · intro ⟨agree, alone⟩
    have unique : ∀ other : Name, other ≠ [] → libnameToSymbol other = libnameToSymbol name →
        other = name := by
      intro other some same
      by_contra different
      rw [← same] at fits alone
      exact alone other some different fits (vmPath_fits fits)
    obtain ⟨s, single, plain⟩ := (symbol_unique_iff nonempty).mp unique
    subst single
    refine ⟨s, rfl, plain, ?_⟩
    obtain ⟨lp, root, ext, extension, here⟩ := findLibraryFile_candidate found
    subst here
    obtain ⟨_, current, source⟩ := components_agree root extension agree
    subst current source
    exact List.find?_some found
  · intro ⟨s, single, plain, source⟩
    subst single
    have first := findLibraryFile_first [s] source
    rw [found, Option.some.injEq] at first
    subst first
    constructor
    · exact components_single cachePath s
    · intro other some different fits' same
      apply different
      apply (symbol_unique_iff nonempty).mpr ⟨s, rfl, plain⟩ other some
      rw [vmPath_fits fits'] at same
      exact vmText_injective same

/- The library (a) from './a.scm' with the cache 'c'. -/
theorem paths_agree_iff_single :
    let fileExists (path : Text) : Bool := path == tryFile [dot] [97] scm
    (components (assembled [99] (tryFile [dot] [97] scm)) =
        components (vmPath [99] (libnameToSymbol [[97]])) ∧
      ∀ other : Name, other ≠ [] → other ≠ [[97]] →
        (vmText [99] (libnameToSymbol other)).length < 256 →
          vmPath [99] (libnameToSymbol other) ≠ vmPath [99] (libnameToSymbol [[97]])) ↔
      ∃ s, [[97]] = [s] ∧ dot ∉ s ∧ fileExists (tryFile [dot] s scm) = true :=
  paths_agree_iff (fun path => path == tryFile [dot] [97] scm) [99] [[97]] _ (by decide) (by decide)
    (by decide)

/- (compiler syntax-core) from './compiler/syntax-core.scm': the virtual machine looks for
   'c/compiler.syntax-core.scm.o' and the compiler writes 'c/./compiler/syntax-core.scm.o'. -/
theorem nested_library_misplaced :
    let name : Name := [[99, 111, 109, 112, 105, 108, 101, 114],
      [115, 121, 110, 116, 97, 120, 45, 99, 111, 114, 101]]
    let path : Text := tryFile [dot] (libnameToPath name) scm
    findLibraryFile (fun file => file == path) name = some path ∧
      (vmText [99] (libnameToSymbol name)).length < 256 ∧
      components (assembled [99] path) ≠ components (vmPath [99] (libnameToSymbol name)) := by
  decide

end LGears.LibraryFiles
