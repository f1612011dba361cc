import LGears.StringShape

/- What the primitives on strings leave of the names of symbols and of the texts of modules. -/
namespace LGears.SymbolNames
open Tagged hiding Obj
open Arithmetic Overwrite Strings StringShape

/-- Each symbol has a name of its own, under which the table finds it. -/
structure Names (m : Memory) : Prop where
  named : ∀ bytes ∈ m.symbols, ∃ name : CString, bytes = name.bytes ++ [0]
  listed : ∀ p ∈ m.symTable, ∃ name : CString,
    p.1 = stringHash name.bytes ∧ m.symbols[p.2]? = some (name.bytes ++ [0])
  complete : ∀ (k : Nat) (name : CString), m.symbols[k]? = some (name.bytes ++ [0]) →
    (stringHash name.bytes, k) ∈ m.symTable
  distinct : ∀ (j k : Nat) (name : CString), m.symbols[j]? = some (name.bytes ++ [0]) →
    m.symbols[k]? = some (name.bytes ++ [0]) → j = k

/-- The strings write only to their own texts. -/
structure Sound (m : Memory) : Prop where
  sized : ∀ o s, m.string o = some s → 1 ≤ s.size ∧ s.size < 2 ^ 31
  flag : ∀ n s, m.string (.heapString n) = some s → s.allocated = true → s.str = .block n
  own : ∀ n k s, m.string (.heapString n) = some s → s.str = .block k →
    k = n ∧ s.size - 1 ≤ (m.text s.str).length
  consts : ∀ n s, m.string (.constString n) = some s → ∃ k, s.str = .literal k
  names : Names m

/-- The arguments of an action that writes only to texts of strings on the heap. -/
def Careful (m : Memory) (gc : Collection) : Action → Prop
  | .makeString len _ => ∀ w, len.asFixnum = some w → 0 ≤ value w ∧ value w < 2 ^ 32 - 32
  | .stringConcat a b => gc.movesObj a = false ∧ gc.movesObj b = false ∧
      ∀ s t, m.string a = some s → m.string b = some t → s.size + t.size < 2 ^ 32 - 30
  | .stringCopyTo _ pos src =>
      ∀ w s, pos.asFixnum = some w → m.string src = some s → intOf w + s.size < 2 ^ 31
  | .stringSet str pos _ => ∀ n s w, str = .heapString n → m.string str = some s →
      pos.asFixnum = some w → 0 ≤ intOf w → intOf w < s.size - 1 → s.str = .block n
  | .stringEq a b => ∀ s, m.string a = some s ∨ m.string b = some s → 0 ∈ m.text s.str
  | .symbolToString sym => ∀ n, sym = .symbol n → (m.text (.symbol n)).length < 2 ^ 31
  | .readString bytes => 0 ∈ bytes ∧ (cText bytes).length + 1 < 2 ^ 31
  | .substring .. | .stringCopy _ | .allocate | .stringRef .. | .stringLength _
  | .makeSymbol _ => True

/-- No name of a symbol and no text of a module has changed. -/
structure Kept (m m' : Memory) : Prop where
  symbols : m.symbols <+: m'.symbols
  literals : m.literals <+: m'.literals

theorem Kept.refl (m : Memory) : Kept m m := ⟨List.prefix_rfl, List.prefix_rfl⟩

theorem Kept.trans {m m' m'' : Memory} (first : Kept m m') (second : Kept m' m'') : Kept m m'' :=
  ⟨first.symbols.trans second.symbols, first.literals.trans second.literals⟩

theorem Kept.symbol {m m' : Memory} (kept : Kept m m') {k : Nat} {bytes : List UInt8}
    (known : m.symbols[k]? = some bytes) : m'.symbols[k]? = some bytes := by
  obtain ⟨rest, same⟩ := kept.symbols
  have inside := (List.getElem?_eq_some_iff.mp known).1
  rw [← same, List.getElem?_append_left inside]
  exact known

section names
variable {m : Memory}

theorem name_inj {a b : CString} (same : a.bytes ++ [(0 : UInt8)] = b.bytes ++ [0]) : a = b := by
  have bytes := List.append_cancel_right same
  cases a
  cases b
  cases bytes
  rfl

theorem Names.lookup (names : Names m) (s : CString) (n : Nat) :
    m.lookupSymbol s = some n ↔ m.symbols[n]? = some (s.bytes ++ [0]) := by
  have found : ∀ p ∈ m.symTable, cText (m.text (.symbol p.2)) = s.bytes →
      m.symbols[p.2]? = some (s.bytes ++ [0]) := by
    intro p member same
    obtain ⟨name, -, known⟩ := names.listed p member
    rw [Memory.text, known, Option.getD_some, cText_name] at same
    rw [known, same]
  constructor
  · intro result
    obtain ⟨p, hit, rfl⟩ := Option.map_eq_some_iff.mp result
    have holds := List.find?_some hit
    simp only [decide_eq_true_eq] at holds
    exact found p (List.mem_of_find?_eq_some hit) holds.2
  · intro known
    have member := names.complete n s known
    have text : cText (m.text (.symbol n)) = s.bytes := by
      rw [Memory.text, known, Option.getD_some, cText_name]
    unfold Memory.lookupSymbol
    generalize hit : m.symTable.find? _ = found
    cases found with
    | none =>
      have no := List.find?_eq_none.mp hit _ member
      simp [text] at no
    | some p =>
      have holds := List.find?_some hit
      simp only [decide_eq_true_eq] at holds
      have same := names.distinct p.2 n s (found p (List.mem_of_find?_eq_some hit) holds.2) known
      rw [Option.map_some, same]

theorem makeSymbol_names (names : Names m) (s : CString) :
    (makeSymbol m s).2.symbols[(makeSymbol m s).1]? = some (s.bytes ++ [0]) ∧
      Kept m (makeSymbol m s).2 ∧ Names (makeSymbol m s).2 := by
  unfold makeSymbol
  cases hit : m.lookupSymbol s with
  | some n => exact ⟨(names.lookup s n).mp hit, .refl m, names⟩
  | none =>
    have fresh : ∀ n : Nat, m.symbols[n]? ≠ some (s.bytes ++ [0]) := by
      intro n known
      rw [(names.lookup s n).mpr known] at hit
      cases hit
    have entry : ∀ (k : Nat) (name : CString),
        (m.symbols ++ [s.bytes ++ [0]])[k]? = some (name.bytes ++ [0]) →
          m.symbols[k]? = some (name.bytes ++ [0]) ∨ k = m.symbols.length ∧ name = s := by
      intro k name known
      by_cases old : k < m.symbols.length
      · rw [List.getElem?_append_left old] at known
        exact .inl known
      · rw [List.getElem?_append_right (Nat.not_lt.mp old)] at known
        have inside := (List.getElem?_eq_some_iff.mp known).1
        rw [List.length_singleton] at inside
        have zero : k - m.symbols.length = 0 := by omega
        rw [zero, List.getElem?_cons_zero, Option.some_inj] at known
        exact .inr ⟨by omega, (name_inj known).symm⟩
    refine ⟨by simp, ⟨List.prefix_append .., List.prefix_rfl⟩, ?_⟩
    constructor
    · intro bytes member
      rcases List.mem_append.mp member with old | new
      · exact names.named bytes old
      · exact ⟨s, List.mem_singleton.mp new⟩
    · intro p member
      rcases List.mem_cons.mp member with rfl | old
      · exact ⟨s, rfl, by simp⟩
      · obtain ⟨name, hash, known⟩ := names.listed p old
        refine ⟨name, hash, ?_⟩
        rw [List.getElem?_append_left (List.getElem?_eq_some_iff.mp known).1]
        exact known
    · intro k name known
      rcases entry k name known with old | ⟨rfl, rfl⟩
      · exact List.mem_cons_of_mem _ (names.complete k name old)
      · exact List.mem_cons_self
    · intro j k name first second
      rcases entry j name first with old | ⟨rfl, rfl⟩
      · rcases entry k name second with old' | ⟨rfl, rfl⟩
        · exact names.distinct j k name old old'
        · exact absurd old (fresh j)
      · rcases entry k name second with old' | ⟨rfl, -⟩
        · exact absurd old' (fresh k)
        · rfl

end names

section steps
variable {m : Memory} {gc : Collection}

theorem Names.congr {m' : Memory} (names : Names m) (symbols : m'.symbols = m.symbols)
    (table : m'.symTable = m.symTable) : Names m' := by
  constructor
  · rw [symbols]
    exact names.named
  · rw [symbols, table]
    exact names.listed
  · rw [symbols, table]
    exact names.complete
  · rw [symbols]
    exact names.distinct

/-- The string after a collection. -/
def moved (gc : Collection) (o : Obj) (s : StringT) : StringT :=
  match o with
  | .heapString n => if gc.moves n then stringVisit n s else s
  | _ => s

theorem string_collect (o : Obj) :
    (m.collect gc).string o = (m.string o).map (moved gc o) := by
  cases o with
  | heapString n =>
    simp only [Memory.string, Memory.collect, List.getElem?_mapIdx, Option.map_map]
    cases m.heap[n]? <;> rfl
  | constString n =>
    cases entry : m.consts[n]? <;> simp [Memory.string, Memory.collect, entry, moved]
  | _ => rfl

theorem text_collect (r : Region) : (m.collect gc).text r = m.text r := by
  cases r with
  | block n =>
    simp only [Memory.text, Memory.collect, List.getElem?_mapIdx]
    cases m.heap[n]? <;> rfl
  | _ => rfl

theorem length_collect : (m.collect gc).heap.length = m.heap.length := by
  simp [Memory.collect]

theorem stringVisit_fields (n : Nat) (s : StringT) :
    (stringVisit n s).size = s.size ∧ (stringVisit n s).allocated = s.allocated := by
  unfold stringVisit
  split
  · exact ⟨rfl, rfl⟩
  · split <;> exact ⟨rfl, rfl⟩

theorem moved_fields (o : Obj) (s : StringT) :
    (moved gc o s).size = s.size ∧ (moved gc o s).allocated = s.allocated := by
  unfold moved
  split
  · split
    · exact stringVisit_fields _ s
    · exact ⟨rfl, rfl⟩
  · exact ⟨rfl, rfl⟩

theorem stringVisit_str {n k : Nat} {s : StringT} (placed : s.str = .block k → k = n)
    (block : (stringVisit n s).str = .block k) :
    k = n ∧ (s.allocated = true ∨ s.str = .block n) := by
  unfold stringVisit at block
  split at block
  · rename_i allocated
    cases block
    exact ⟨rfl, .inl allocated⟩
  · split at block
    · cases block
    · rename_i other
      have here := placed block
      subst here
      exact absurd block other

theorem sound_collect (sound : Sound m) : Sound (m.collect gc) := by
  constructor
  · intro o s string
    rw [string_collect] at string
    obtain ⟨t, old, rfl⟩ := Option.map_eq_some_iff.mp string
    rw [(moved_fields o t).1]
    exact sound.sized o t old
  · intro n s string allocated
    rw [string_collect] at string
    obtain ⟨t, old, rfl⟩ := Option.map_eq_some_iff.mp string
    rw [(moved_fields _ t).2] at allocated
    unfold moved
    dsimp only
    split
    · unfold stringVisit
      rw [if_pos allocated]
    · exact sound.flag n t old allocated
  · intro n k s string block
    rw [string_collect] at string
    obtain ⟨t, old, rfl⟩ := Option.map_eq_some_iff.mp string
    rw [text_collect, (moved_fields _ t).1]
    have own := fun (mine : t.str = .block n) => (sound.own n n t old mine).2
    unfold moved at block ⊢
    dsimp only at block ⊢
    split at block
    · rename_i moves
      rw [if_pos moves]
      obtain ⟨rfl, reason⟩ := stringVisit_str (fun at_k => (sound.own n k t old at_k).1) block
      have mine : t.str = .block k := by
        rcases reason with allocated | mine
        · exact sound.flag k t old allocated
        · exact mine
      rw [block]
      rw [mine] at own
      exact ⟨rfl, own rfl⟩
    · rename_i stays
      rw [if_neg stays]
      exact sound.own n k t old block
  · exact sound.consts
  · exact sound.names.congr rfl rfl

theorem kept_collect : Kept m (m.collect gc) := ⟨List.prefix_rfl, List.prefix_rfl⟩

/-- What a new string must have. -/
structure Made (m : Memory) (s : StringT) (room : Nat) : Prop where
  positive : 1 ≤ s.size
  small : s.size < 2 ^ 31
  flag : s.allocated = true → s.str = .block m.heap.length
  own : ∀ k, s.str = .block k → k = m.heap.length ∧ s.size - 1 ≤ room

theorem sound_added (sound : Sound m) {s : StringT} {room : Nat} {bytes : List UInt8}
    (fits : bytes.length ≤ room) (made : Made m s room) : Sound (m.added s room bytes) := by
  constructor
  · intro o t string
    cases o with
    | heapString n =>
      rw [string_added] at string
      split at string
      · cases string
        exact ⟨made.positive, made.small⟩
      · exact sound.sized _ t string
    | constString n => exact sound.sized (.constString n) t string
    | _ => cases string
  · intro n t string allocated
    rw [string_added] at string
    split at string
    · rename_i here
      cases string
      rw [here]
      exact made.flag allocated
    · exact sound.flag n t string allocated
  · intro n k t string block
    rw [string_added] at string
    split at string
    · rename_i here
      cases string
      obtain ⟨rfl, inside⟩ := made.own k block
      rw [text_added, if_pos block, length_filled fits]
      exact ⟨here.symm, inside⟩
    · rename_i old
      obtain ⟨rfl, inside⟩ := sound.own n k t string block
      rw [text_added, if_neg (by simpa [block] using old)]
      exact ⟨rfl, inside⟩
  · exact sound.consts
  · exact sound.names.congr rfl rfl

theorem newString_sound (sound : Sound m) {total size : Int} {str : Nat → Region}
    {allocated : Bool} {text : Memory → Option (List UInt8)} (low : 16 ≤ total)
    (high : total < 2 ^ 32 - 15)
    (filled : ∀ room, total < 2 ^ 31 → room = alignUp (total - 16).toNat → ∃ bytes,
      text (m.collect gc) = some bytes ∧ bytes.length ≤ room ∧
        Made m ⟨str m.heap.length, size, allocated⟩ room) :
    (m.newString total str size allocated text gc).Keeps fun m' => Sound m' ∧ Kept m m' := by
  apply newString_keeps (heapAlloc_large low high)
  intro room alloc
  obtain ⟨limit, roomy⟩ := heapAlloc_block low high alloc
  obtain ⟨bytes, copied, fits, made⟩ := filled room limit roomy
  rw [length_collect]
  refine ⟨bytes, copied, fits, ?_, List.prefix_rfl, List.prefix_rfl⟩
  apply sound_added (sound_collect sound) fits
  constructor
  · exact made.positive
  · exact made.small
  · rw [length_collect]
    exact made.flag
  · rw [length_collect]
    exact made.own

theorem write_sound (sound : Sound m) {n : Nat} {s : StringT} {pos : Int} {bytes : List UInt8}
    (string : m.string (.heapString n) = some s) (own : s.str = .block n) (low : 0 ≤ pos)
    (high : pos + bytes.length ≤ s.size - 1) :
    (m.write s.str pos bytes).Keeps fun m' => Sound m' ∧ Kept m m' := by
  have inside := (sound.own n n s string own).2
  have fits : pos.toNat + bytes.length ≤ (m.text s.str).length := by omega
  have written : (m.setText s.str (overwrite (m.text s.str) pos.toNat bytes)).text s.str =
      overwrite (m.text s.str) pos.toNat bytes := by
    rw [own]
    exact text_setText_block string _
  have length := (congrArg List.length written).trans (length_overwrite fits)
  have symbols := symbols_setText_block (m := m) n (overwrite (m.text s.str) pos.toNat bytes)
  rw [← own] at symbols
  have writable : ∀ k, s.str ≠ .literal k := by simp [own]
  have literals := literals_setText (m := m) s.str writable
    (overwrite (m.text s.str) pos.toNat bytes)
  rw [write_inside writable low fits]
  refine ⟨?_, by rw [symbols], by rw [literals]⟩
  constructor
  · intro o t same
    rw [string_setText] at same
    exact sound.sized o t same
  · intro k t same
    rw [string_setText] at same
    exact sound.flag k t same
  · intro k j t same block
    rw [string_setText] at same
    obtain ⟨rfl, inside'⟩ := sound.own k j t same block
    by_cases here : t.str = s.str
    · rw [here, length, ← here]
      exact ⟨rfl, inside'⟩
    · rw [text_setText_ne here]
      exact ⟨rfl, inside'⟩
  · intro k t same
    rw [string_setText] at same
    exact sound.consts k t same
  · apply sound.names.congr symbols
    rw [own]
    unfold Memory.setText
    dsimp only
    split <;> rfl

theorem sound_grown (sound : Sound m) (symbols literals : List (List UInt8))
    (consts : List StringT) (table : List (BitVec 32 × Nat))
    (names : Names (grown m symbols literals consts table))
    (read : ∀ s ∈ consts, 1 ≤ s.size ∧ s.size < 2 ^ 31 ∧ ∃ k, s.str = .literal k) :
    Sound (grown m symbols literals consts table) := by
  constructor
  · intro o t string
    cases o with
    | heapString n => exact sound.sized (.heapString n) t string
    | constString n =>
      rcases string_grown string with old | new
      · exact sound.sized (.constString n) t old
      · exact ⟨(read t new).1, (read t new).2.1⟩
    | _ => cases string
  · exact sound.flag
  · intro n k t string block
    obtain ⟨here, inside⟩ := sound.own n k t string block
    rw [block] at inside ⊢
    exact ⟨here, inside⟩
  · intro n t string
    rcases string_grown string with old | new
    · exact sound.consts n t old
    · exact (read t new).2.2
  · exact names

theorem made_block {size : Int} {allocated : Bool} {room : Nat} (positive : 1 ≤ size)
    (small : size < 2 ^ 31) (inside : size - 1 ≤ room) :
    Made m ⟨.block m.heap.length, size, allocated⟩ room := by
  refine ⟨positive, small, fun _ => rfl, ?_⟩
  intro k same
  cases same
  exact ⟨rfl, inside⟩

theorem makeString_sound (sound : Sound m) {len fill : Obj}
    (careful : Careful m gc (.makeString len fill)) :
    (makeString m len fill gc).Keeps fun m' => Sound m' ∧ Kept m m' := by
  unfold makeString
  split
  · rename_i w c number character
    have low := (careful w number).1
    have high := (careful w number).2
    have count := toNat_fixnum low
    refine newString_sound sound ?_ ?_ ?_
    · omega
    · omega
    intro room limit enough
    have same : (((fixnum w).toNat : Int) + 1).bmod (2 ^ 32) = (fixnum w).toNat + 1 :=
      Int.bmod_eq_of_le (by omega) (by omega)
    have roomy : (fixnum w).toNat + 1 ≤ room := by
      have fits := le_alignUp (16 + ((fixnum w).toNat : Int) + 1 - 16).toNat
      omega
    rw [same]
    refine ⟨_, rfl, by simpa using roomy, ?_⟩
    apply made_block <;> omega
  · trivial

theorem stringConcat_sound (sound : Sound m) {oa ob : Obj}
    (careful : Careful m gc (.stringConcat oa ob)) :
    (stringConcat m oa ob gc).Keeps fun m' => Sound m' ∧ Kept m m' := by
  obtain ⟨left, right, bound⟩ := careful
  unfold stringConcat
  split
  · rename_i a b first second
    have sum := bound a b first second
    have sizeA := sound.sized oa a first
    have sizeB := sound.sized ob b second
    refine newString_sound sound ?_ ?_ ?_
    · omega
    · omega
    intro room limit enough
    have same : (a.size + b.size - 1).bmod (2 ^ 32) = a.size + b.size - 1 :=
      Int.bmod_eq_of_le (by omega) (by omega)
    have roomy : (a.size + b.size - 1).toNat ≤ room := by
      have fits := le_alignUp (a.size + b.size - 1 + 16 - 16).toNat
      omega
    have copied : ¬(gc.movesObj oa = true ∨ gc.movesObj ob = true ∨ a.size < 1 ∨ b.size < 0) := by
      rintro (moved | moved | short | short)
      · simp [left] at moved
      · simp [right] at moved
      · omega
      · omega
    rw [same]
    refine ⟨_, if_neg copied, ?_, ?_⟩
    · rw [List.length_append, length_bytes, length_bytes]
      omega
    · apply made_block <;> omega
  · trivial

theorem stringCopyTo_sound (sound : Sound m) {dest pos src : Obj}
    (careful : Careful m gc (.stringCopyTo dest pos src)) :
    (stringCopyTo m dest pos src).Keeps fun m' => Sound m' ∧ Kept m m' := by
  unfold stringCopyTo
  split
  · rename_i n dst s w source number target
    have bound := careful w s number source
    have positive := (sound.sized src s source).1
    split
    · rename_i allocated
      have own := sound.flag n dst target allocated
      dsimp only
      split
      · rename_i range
        rw [intAdd_of_small (by omega) bound] at range
        rw [if_neg (by omega)]
        refine write_sound sound target own range.1 ?_
        rw [length_bytes]
        omega
      · trivial
    · trivial
  · trivial

theorem stringCopy_sound (sound : Sound m) (src : Obj) :
    (stringCopy m src gc).Keeps fun m' => Sound m' ∧ Kept m m' := by
  unfold stringCopy
  split
  · rename_i s string
    have size := sound.sized src s string
    have string' : (m.collect gc).string src = some (moved gc src s) :=
      (string_collect src).trans (congrArg _ string)
    refine newString_sound sound ?_ ?_ ?_
    · omega
    · omega
    intro room limit enough
    have roomy : s.size.toNat ≤ room := by
      have fits := le_alignUp (s.size + 16 - 16).toNat
      omega
    refine ⟨_, by rw [string', Option.map_some], ?_, ?_⟩
    · rw [length_bytes, (moved_fields src s).1]
      exact roomy
    · apply made_block <;> omega
  · trivial

theorem substring_sound (sound : Sound m) (str start stop : Obj) :
    (substring m str start stop gc).Keeps fun m' => Sound m' ∧ Kept m m' := by
  unfold substring
  split
  · rename_i s v w string first last
    have size := sound.sized str s string
    have string' : (m.collect gc).string str = some (moved gc str s) :=
      (string_collect str).trans (congrArg _ string)
    dsimp only
    split
    · rename_i range
      refine newString_sound sound ?_ ?_ ?_
      · omega
      · omega
      intro room limit enough
      have roomy : (intOf w - intOf v).toNat ≤ room := by
        have fits := le_alignUp (intOf w - intOf v + 16 - 16).toNat
        omega
      refine ⟨_, by rw [string', Option.map_some], ?_, ?_⟩
      · rw [length_bytes]
        exact roomy
      · apply made_block <;> omega
    · trivial
  · trivial

theorem symbolToString_sound (sound : Sound m) {sym : Obj}
    (careful : Careful m gc (.symbolToString sym)) :
    (symbolToString m sym gc).Keeps fun m' => Sound m' ∧ Kept m m' := by
  unfold symbolToString
  split
  · rename_i n
    split
    · rename_i bytes known
      have small := careful n rfl
      obtain ⟨name, rfl⟩ := sound.names.named bytes (List.mem_of_getElem? known)
      have text : m.text (.symbol n) = name.bytes ++ [0] := by
        rw [Memory.text, known, Option.getD_some]
      rw [text, List.length_append, List.length_singleton] at small
      have same : ((cText (name.bytes ++ [0])).length + 1 : Int).bmod (2 ^ 32) =
          name.bytes.length + 1 := by
        rw [cText_name, Int.bmod_eq_of_le] <;> omega
      rw [same]
      refine newString_sound sound ?_ ?_ ?_
      · omega
      · omega
      intro room limit enough
      refine ⟨[], rfl, Nat.zero_le room, ?_, ?_, ?_, ?_⟩
      · simp only
        omega
      · simp only
        omega
      · intro flag
        cases flag
      · intro k block
        cases block
    · trivial
  · trivial

theorem stringSet_sound (sound : Sound m) {str pos val : Obj}
    (careful : Careful m gc (.stringSet str pos val)) :
    (stringSet m str pos val).Keeps fun m' => Sound m' ∧ Kept m m' := by
  unfold stringSet
  split
  · rename_i s w c string number character
    dsimp only
    split
    · rename_i range
      cases str with
      | heapString n =>
        have own := careful n s w rfl string number range.1 range.2
        refine write_sound sound string own range.1 ?_
        rw [List.length_singleton]
        omega
      | constString n =>
        obtain ⟨k, literal⟩ := sound.consts n s string
        rw [literal]
        trivial
      | _ => cases string
    · trivial
  · trivial

theorem readString_sound (sound : Sound m) {bytes : List UInt8}
    (careful : Careful m gc (.readString bytes)) :
    (readString m bytes).Keeps fun m' => Sound m' ∧ Kept m m' := by
  obtain ⟨zero, small⟩ := careful
  unfold readString
  rw [if_pos zero]
  have same : ((cText bytes).length + 1 : Int).bmod (2 ^ 32) = (cText bytes).length + 1 := by
    rw [Int.bmod_eq_of_le] <;> omega
  rw [same]
  have kept := sound_grown sound [] [bytes]
    [⟨.literal m.literals.length, (cText bytes).length + 1, false⟩] m.symTable
    (sound.names.congr (by simp [grown]) rfl) (by
      intro s member
      rw [List.mem_singleton] at member
      subst member
      refine ⟨?_, ?_, _, rfl⟩ <;> simp only <;> omega)
  simp only [grown, List.append_nil] at kept
  exact ⟨kept, List.prefix_rfl, List.prefix_append ..⟩

theorem makeSymbol_sound (sound : Sound m) (name : CString) :
    Sound (makeSymbol m name).2 ∧ Kept m (makeSymbol m name).2 := by
  obtain ⟨-, kept, names⟩ := makeSymbol_names sound.names name
  refine ⟨?_, kept⟩
  unfold makeSymbol at names ⊢
  split at names
  · exact sound
  · have grows := sound_grown sound [name.bytes ++ [0]] [] []
      ((stringHash name.bytes, m.symbols.length) :: m.symTable)
      (names.congr rfl rfl) (by simp)
    simpa [grown] using grows

theorem act_sound (sound : Sound m) {a : Action} (careful : Careful m gc a) :
    (act m gc a).Keeps fun m' => Sound m' ∧ Kept m m' := by
  cases a with
  | makeString len fill => exact makeString_sound sound careful
  | stringConcat a b => exact stringConcat_sound sound careful
  | stringCopyTo dest pos src => exact stringCopyTo_sound sound careful
  | stringCopy src => exact stringCopy_sound sound src
  | symbolToString sym => exact symbolToString_sound sound careful
  | stringSet str pos val => exact stringSet_sound sound careful
  | substring str start stop => exact substring_sound sound str start stop
  | makeSymbol name => exact makeSymbol_sound sound name
  | readString bytes => exact readString_sound sound careful
  | allocate => exact ⟨sound_collect sound, kept_collect⟩
  | stringRef str pos =>
    change (stringRef m str pos).Keeps _
    unfold stringRef
    split
    · dsimp only
      split
      · exact ⟨sound, .refl m⟩
      · trivial
    · trivial
  | stringLength str =>
    change (stringLength m str).Keeps _
    unfold stringLength
    split
    · exact ⟨sound, .refl m⟩
    · trivial
  | stringEq a b =>
    change (stringEq m a b).Keeps _
    unfold stringEq
    split
    · rename_i s t first second
      have left : CString.at (m.text s.str) = some (.truncate (m.text s.str)) :=
        if_pos (careful s (.inl first))
      have right : CString.at (m.text t.str) = some (.truncate (m.text t.str)) :=
        if_pos (careful t (.inr second))
      rw [left, right]
      exact ⟨sound, .refl m⟩
    · trivial

theorem sound_empty (outside : Region → Int → UInt8) : Sound (Memory.empty outside) := by
  constructor
  · intro o s string
    cases o <;> simp [Memory.string, Memory.empty] at string
  · intro n s string
    simp [Memory.string, Memory.empty] at string
  · intro n k s string
    simp [Memory.string, Memory.empty] at string
  · intro n s string
    simp [Memory.string, Memory.empty] at string
  · constructor <;> simp [Memory.empty]

theorem run_sound {m' : Memory} (sound : Sound m)
    (run : Relation.ReflTransGen (Step Careful) m m') : Sound m' ∧ Kept m m' := by
  refine run_keeps (P := fun m' => Sound m' ∧ Kept m m') ?_ run ⟨sound, .refl m⟩
  intro m₁ gc a earlier careful
  refine (act_sound earlier.1 careful).mono ?_
  intro m₂ later
  exact ⟨later.1, earlier.2.trans later.2⟩

/- Symbols that are made at any two points of a run are the same when their names are. -/
theorem careful_run_keeps_names {outside : Region → Int → UInt8}
    (run : Relation.ReflTransGen (Step Careful) (Memory.empty outside) m) :
    (∀ gc a, Careful m gc a → (act m gc a).Keeps (Kept m)) ∧
      ∀ s s' m', Relation.ReflTransGen (Step Careful) (makeSymbol m s).2 m' →
        Kept (makeSymbol m s).2 m' ∧ ((makeSymbol m s).1 = (makeSymbol m' s').1 ↔ s = s') := by
  have sound := (run_sound (sound_empty outside) run).1
  constructor
  · intro gc a careful
    exact (act_sound sound careful).mono fun _ both => both.2
  · intro s s' m' later
    obtain ⟨known, -, -⟩ := makeSymbol_names sound.names s
    obtain ⟨sound', kept'⟩ := run_sound (makeSymbol_sound sound s).1 later
    obtain ⟨known', kept'', names⟩ := makeSymbol_names sound'.names s'
    have still_there := kept''.symbol (kept'.symbol known)
    refine ⟨kept', ?_, ?_⟩
    · intro same
      rw [same, known', Option.some_inj] at still_there
      exact (name_inj still_there).symm
    · rintro rfl
      exact names.distinct _ _ s still_there known'

end steps

def abc : CString := ⟨[97, 98, 99], by decide⟩

/-- The memory with one symbol and the strings that have its text. -/
def named (text : List UInt8) (strings : Nat) : Memory :=
  { clear with
    symbols := [text]
    symTable := [(stringHash abc.bytes, 0)]
    heap := List.replicate strings (⟨.symbol 0, 4, false⟩, []) }

theorem makeSymbol_abc : makeSymbol clear abc = (0, named [97, 98, 99, 0] 0) := rfl

theorem symbolToString_abc : symbolToString (named [97, 98, 99, 0] 0) (.symbol 0) still =
    .ok (.heapString 0) (named [97, 98, 99, 0] 1) := by
  have alloc : heapAlloc 16 = .block 0 := by decide
  have size : ((cText [97, 98, 99, 0]).length + 1 : Int).bmod (2 ^ 32) = 4 := by decide
  have known : (named [97, 98, 99, 0] 0).symbols[0]? = some [97, 98, 99, 0] := rfl
  unfold symbolToString
  dsimp only
  rw [known]
  dsimp only
  rw [size]
  unfold Memory.newString
  rw [alloc]
  rfl

theorem stringSet_abc :
    (stringSet (named [97, 98, 99, 0] 1) (.heapString 0) (fixnumObj 0) (.word (charWord 120))).after
      (named [97, 98, 99, 0] 1) = some (named [120, 98, 99, 0] 1) := by
  have number : (fixnumObj 0).asFixnum = some 0#64 := by decide
  have pos : intOf 0#64 = 0 := by decide
  have character : (Obj.word (charWord 120)).asChar = some (charWord 120) := by decide
  have byte : charByte (charWord 120) = 120 := by decide
  have string : (named [97, 98, 99, 0] 1).string (.heapString 0) = some ⟨.symbol 0, 4, false⟩ := rfl
  unfold stringSet
  rw [string, number, character]
  dsimp only
  rw [pos, byte, if_pos (by decide)]
  rfl

/- (string-set! (symbol->string 'abc) 0 #\x) renames the symbol. -/
theorem symbol_renamed : ∃ m,
    Relation.ReflTransGen (Step fun _ _ _ => True) (makeSymbol clear abc).2 m ∧
      ¬Kept (makeSymbol clear abc).2 m ∧ (makeSymbol clear abc).1 ≠ (makeSymbol m abc).1 := by
  rw [makeSymbol_abc]
  have first : Step (fun _ _ _ => True) (named [97, 98, 99, 0] 0) (named [97, 98, 99, 0] 1) :=
    ⟨still, .symbolToString (.symbol 0), trivial, congrArg (Outcome.after _) symbolToString_abc⟩
  have second : Step (fun _ _ _ => True) (named [97, 98, 99, 0] 1) (named [120, 98, 99, 0] 1) :=
    ⟨still, .stringSet (.heapString 0) (fixnumObj 0) (.word (charWord 120)), trivial, stringSet_abc⟩
  refine ⟨_, .tail (.tail .refl first) second, ?_, ?_⟩
  · intro kept
    have name : some [120, 98, 99, 0] = some [(97 : UInt8), 98, 99, 0] := kept.symbol (k := 0) rfl
    exact absurd name (by decide)
  · decide

/- Between the two uses of the name (string-set! s 0 #\x) is done on a copy of its string. -/
theorem careful_run_keeps_abc : ∃ m m' : Memory,
    (act (named [97, 98, 99, 0] 1) still (.stringCopy (.heapString 0))) = .ok (.heapString 1) m ∧
      (act m still (.stringSet (.heapString 1) (fixnumObj 0) (.word (charWord 120)))).after m =
        some m' ∧
      m'.text (.block 1) = [120, 98, 99, 0, 0, 0, 0, 0] ∧ Kept (named [97, 98, 99, 0] 0) m' ∧
      (makeSymbol m' abc).1 = 0 := by
  have careful : Careful (named [97, 98, 99, 0] 0) still (.symbolToString (.symbol 0)) := by
    rintro n same
    cases same
    decide
  have first : Step Careful (named [97, 98, 99, 0] 0) (named [97, 98, 99, 0] 1) :=
    ⟨still, _, careful, congrArg (Outcome.after _) symbolToString_abc⟩
  obtain ⟨m, copy, text, string⟩ : ∃ m, act (named [97, 98, 99, 0] 1) still
      (.stringCopy (.heapString 0)) = .ok (.heapString 1) m ∧
      m.text (.block 1) = [97, 98, 99, 0, 0, 0, 0, 0] ∧
      m.string (.heapString 1) = some ⟨.block 1, 4, true⟩ := ⟨_, rfl, by decide, rfl⟩
  have second : Step Careful (named [97, 98, 99, 0] 1) m :=
    ⟨still, .stringCopy (.heapString 0), trivial, congrArg (Outcome.after _) copy⟩
  have owned : Careful m still
      (.stringSet (.heapString 1) (fixnumObj 0) (.word (charWord 120))) := by
    intro n s w same at_n _ _ _
    cases same
    cases string.symm.trans at_n
    rfl
  obtain ⟨m', set, text'⟩ : ∃ m', (act m still
      (.stringSet (.heapString 1) (fixnumObj 0) (.word (charWord 120)))).after m = some m' ∧
      m'.text (.block 1) = [120, 98, 99, 0, 0, 0, 0, 0] := by
    cases copy
    exact ⟨_, rfl, by decide⟩
  have run : Relation.ReflTransGen (Step Careful) (makeSymbol clear abc).2 m' :=
    .tail (.tail (.single first) second) ⟨still, _, owned, set⟩
  obtain ⟨kept, same⟩ := (careful_run_keeps_names .refl).2 abc abc _ run
  exact ⟨m, m', copy, set, text', kept, (same.mpr rfl).symm⟩

end LGears.SymbolNames
