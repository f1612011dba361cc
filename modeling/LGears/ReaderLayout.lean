import LGears.ReaderStops

/- Data as they are written: tokens with layout between them. The layout that the reader passes
   over between two tokens depends on where the tokens stand. -/
namespace LGears.ReaderLayout
open StateExcept Reader PutDatum ReadBack ReaderStops

/-- What may stand between two tokens: a whitespace character, a line comment with its newline,
    or a block comment, which has no mark of its end inside. -/
inductive Layout where
  | space (c : Char) (white : charWhitespace c = true)
  | line (text : List Char) (inside : newline ∉ text)
  | block (text : List Char) (first : First text)

def Layout.text : Layout → List Char
  | .space c _ => [c]
  | .line text _ => ';' :: text ++ [newline]
  | .block text _ => '#' :: '|' :: text ++ ['|', '#']

def Layout.isBlock : Layout → Bool
  | .block .. => true
  | _ => false

/-- The end of a block comment stands behind an even number of bars. -/
def Layout.Seen : Layout → Prop
  | .block text _ => bars text % 2 = 0
  | _ => True

abbrev Gap := List Layout

def gapText (gap : Gap) : List Char := gap.flatMap Layout.text

def Plain (gap : Gap) : Prop := ∀ l ∈ gap, l.isBlock = false

/-- The text of a datum without layout: datum-from-port reads the datum wherever the text stands,
    or, when it is not free, in front of a delimiter. -/
structure Atom (number : StringToNumber) where
  text : List Char
  datum : Datum
  free : Bool
  opens : ∃ c w, text = c :: w ∧ Opens c w
  reads : ∀ rest, free = true ∨ Delimited rest → ∀ (p : Port) (fuel : Nat), p.rest = text ++ rest →
    2 * p.rest.length + 1 ≤ fuel →
    Ends (datumFromPort number fuel) p (fun d t => d = datum ∧ t.rest = rest) fun _ => False

/- A datum, and the rest of a list behind its opening parenthesis: the end of the list, a dot with
   the tail, or an element. Each gap stands in front of the token that follows it. -/
mutual
inductive Form (number : StringToNumber) where
  | atom (a : Atom number)
  | quoted (mark : Mark) (gap : Gap) (form : Form number)
  | list (items : Items number)
  | vector (items : Items number)
inductive Items (number : StringToNumber) where
  | close (gap : Gap)
  | tail (before behind : Gap) (form : Form number) (after : Gap)
  | item (gap : Gap) (form : Form number) (rest : Items number)
end

section forms
variable {number : StringToNumber}

mutual
def Form.text : Form number → List Char
  | .atom a => a.text
  | .quoted mark gap form => mark.text ++ (gapText gap ++ form.text)
  | .list items => '(' :: items.text
  | .vector items => '#' :: '(' :: items.text
def Items.text : Items number → List Char
  | .close gap => gapText gap ++ [')']
  | .tail before behind form after =>
    gapText before ++ '.' :: (gapText behind ++ (form.text ++ (gapText after ++ [')'])))
  | .item gap form rest => gapText gap ++ (form.text ++ rest.text)
end

/- The datum is that of the tokens. -/
mutual
def Form.datum : Form number → Datum
  | .atom a => a.datum
  | .quoted mark _ form => .quoted mark.name form.datum
  | .list items => items.datum
  | .vector items => .vector items.elements
def Items.datum : Items number → Datum
  | .close _ => .null
  | .tail _ _ form _ => form.datum
  | .item _ form rest => .pair form.datum rest.datum
def Items.elements : Items number → List Datum
  | .item _ form rest => form.datum :: rest.elements
  | _ => []
end

def Form.free : Form number → Bool
  | .atom a => a.free
  | .quoted _ _ form => form.free
  | .list _ | .vector _ => true

def Items.proper : Items number → Bool
  | .close _ => true
  | .tail .. => false
  | .item _ _ rest => rest.proper

/- The tokens are told apart: one that is not free stands in front of a delimiter, a dot in front
   of another character than a dot, and a vector has no tail. -/
mutual
def Form.Apart : Form number → Prop
  | .atom _ => True
  | .quoted _ _ form => form.Apart
  | .list items => items.Apart
  | .vector items => items.proper = true ∧ items.Apart
def Items.Apart : Items number → Prop
  | .close _ => True
  | .tail _ behind form _ => (gapText behind ++ form.text).head? ≠ some '.' ∧ form.Apart
  | .item _ form rest => (form.free = true ∨ Delimited rest.text) ∧ form.Apart ∧ rest.Apart
end

/- The end of every block comment is seen. -/
mutual
def Form.Seen : Form number → Prop
  | .atom _ => True
  | .quoted _ gap form => (∀ l ∈ gap, l.Seen) ∧ form.Seen
  | .list items => items.Seen
  | .vector items => items.Seen
def Items.Seen : Items number → Prop
  | .close gap => ∀ l ∈ gap, l.Seen
  | .tail before behind form after => (∀ l ∈ before, l.Seen) ∧ (∀ l ∈ behind, l.Seen) ∧
    form.Seen ∧ ∀ l ∈ after, l.Seen
  | .item gap form rest => (∀ l ∈ gap, l.Seen) ∧ form.Seen ∧ rest.Seen
end

/- There is no block comment in front of a closing parenthesis or a dot, and no layout at all
   behind a tail. -/
mutual
def Form.Placed : Form number → Prop
  | .atom _ => True
  | .quoted _ _ form => form.Placed
  | .list items => items.Placed
  | .vector items => items.Placed
def Items.Placed : Items number → Prop
  | .close gap => Plain gap
  | .tail before _ form after => Plain before ∧ form.Placed ∧ after = []
  | .item _ form rest => form.Placed ∧ rest.Placed
end

theorem Items.elements_datum : (items : Items number) → items.proper = true →
    items.datum.elements = some items.elements
  | .close _, _ => rfl
  | .tail .., never => absurd never Bool.false_ne_true
  | .item _ form rest, proper => by
    have others := rest.elements_datum proper
    rw [Items.datum, Datum.elements, others]
    rfl

end forms

section gaps
variable {number : StringToNumber} {α : Type} {Q : Datum → Port → Prop} {E : Stop → Prop}
  {p : Port} {gap : Gap} {rest : List Char}

theorem afterLine_line {text : List Char} (inside : newline ∉ text) :
    afterLine (text ++ newline :: rest) = rest := by
  induction text with
  | nil => simp [afterLine]
  | cons c text ih =>
    rw [List.mem_cons, not_or] at inside
    have same : afterLine (c :: (text ++ newline :: rest)) = afterLine (text ++ newline :: rest) := by
      have other : c ≠ newline := fun same => inside.1 same.symm
      simp [afterLine, other]
    rw [List.cons_append, same]
    exact ih inside.2

theorem skipComment_line {text : List Char} (inside : newline ∉ text) {n : Nat}
    (start : p.rest = text ++ newline :: rest) (enough : p.rest.length < n) :
    Ends (skipComment n) p (fun _ t => t.rest = rest) fun _ => False := by
  apply (skipComment_ends enough).post
  intro _ t left
  rw [left, start, afterLine_line inside]

theorem skipBlockComment_block {text : List Char} (first : First text) (seen : bars text % 2 = 0)
    {n : Nat} (start : p.rest = text ++ '|' :: '#' :: rest) (enough : p.rest.length < n) :
    Ends (skipBlockComment n) p (fun _ t => t.rest = rest) fun _ => False := by
  have closed := (afterBlock_first (v := rest) first).mpr seen
  rw [← start] at closed
  apply Ends.mono (skipBlockComment_ends enough)
  · intro _ t left
    rw [closed] at left
    exact (Option.some.inj left).symm
  · rintro _ ⟨_, never⟩
    rw [closed] at never
    cases never

theorem dispatch_comment {n : Nat} :
    dispatch number (n + 1) (some ';') = skipComment n >>= fun _ => datumFromPort number n := rfl

theorem dispatch_block {n : Nat} {w : List Char} (text : p.rest = '|' :: w) :
    Ends (dispatch number (n + 2) (some '#')) p Q E ↔
      Ends (skipBlockComment n >>= fun _ => datumFromPort number n) (p.next '|' w) Q E := by
  rw [dispatch_sharp, readSharped, ends_bind, ends_pread text]
  exact Iff.rfl

theorem datum_gap (seen : ∀ l ∈ gap, l.Seen) {p : Port} {fuel : Nat}
    (text : p.rest = gapText gap ++ rest) (enough : 2 * p.rest.length + 1 ≤ fuel)
    (next : ∀ p' fuel', p'.rest = rest → 2 * p'.rest.length + 1 ≤ fuel' →
      Ends (datumFromPort number fuel') p' Q E) : Ends (datumFromPort number fuel) p Q E := by
  induction gap generalizing p fuel with
  | nil => exact next p fuel text enough
  | cons l gap ih =>
    have others : ∀ l' ∈ gap, l'.Seen := fun l' member => seen l' (List.mem_cons_of_mem l member)
    have here := seen l List.mem_cons_self
    rw [gapText, List.flatMap_cons, List.append_assoc, ← gapText] at text
    obtain ⟨fuel, rfl⟩ : ∃ k, fuel = k + 1 := ⟨fuel - 1, by omega⟩
    cases l with
    | space c white =>
      have text : p.rest = c :: (gapText gap ++ rest) := text
      rw [text, List.length_cons] at enough
      rw [ends_datumFromPort number text, dispatch, if_pos white]
      exact ih others next_rest (by rw [next_rest]; omega)
    | line t inside =>
      have text : p.rest = ';' :: (t ++ newline :: (gapText gap ++ rest)) := by
        simpa [Layout.text] using text
      rw [text, List.length_cons] at enough
      rw [ends_datumFromPort number text, dispatch_comment, ends_bind]
      apply Ends.mono (skipComment_line inside next_rest (by rw [next_rest]; omega))
      · intro _ t' left
        apply ih others left
        rw [left]
        simp only [List.length_append, List.length_cons] at enough ⊢
        omega
      · intro _ never
        exact never.elim
    | block t first =>
      have text : p.rest = '#' :: '|' :: (t ++ '|' :: '#' :: (gapText gap ++ rest)) := by
        simpa [Layout.text] using text
      rw [text, List.length_cons, List.length_cons] at enough
      obtain ⟨fuel, rfl⟩ : ∃ k, fuel = k + 1 := ⟨fuel - 1, by omega⟩
      rw [ends_datumFromPort number text, dispatch_block next_rest, ends_bind]
      apply Ends.mono (skipBlockComment_block first here next_rest (by rw [next_rest]; omega))
      · intro _ t' left
        apply ih others left
        rw [left]
        simp only [List.length_append, List.length_cons] at enough ⊢
        omega
      · intro _ never
        exact never.elim

theorem list_gap (plain : Plain gap) {p : Port} {fuel : Nat}
    (text : p.rest = gapText gap ++ rest) (enough : 2 * p.rest.length + 2 ≤ fuel)
    (next : ∀ p' fuel', p'.rest = rest → 2 * p'.rest.length + 2 ≤ fuel' →
      Ends (readList number fuel') p' Q E) : Ends (readList number fuel) p Q E := by
  induction gap generalizing p fuel with
  | nil => exact next p fuel text enough
  | cons l gap ih =>
    have others : Plain gap := fun l' member => plain l' (List.mem_cons_of_mem l member)
    have here := plain l List.mem_cons_self
    rw [gapText, List.flatMap_cons, List.append_assoc, ← gapText] at text
    obtain ⟨fuel, rfl⟩ : ∃ k, fuel = k + 1 := ⟨fuel - 1, by omega⟩
    cases l with
    | space c white =>
      have text : p.rest = c :: (gapText gap ++ rest) := text
      rw [text, List.length_cons] at enough
      have notClose : c ≠ ')' := by
        rintro rfl
        exact absurd white (by decide)
      rw [readList, ends_bind, ends_pread text]
      dsimp only
      rw [if_neg notClose, if_pos white]
      exact ih others next_rest (by rw [next_rest]; omega)
    | line t inside =>
      have text : p.rest = ';' :: (t ++ newline :: (gapText gap ++ rest)) := by
        simpa [Layout.text] using text
      rw [text, List.length_cons] at enough
      rw [readList, ends_bind, ends_pread text]
      dsimp only
      rw [if_neg (by decide), if_neg (by decide), if_pos rfl, ends_bind]
      apply Ends.mono (skipComment_line inside next_rest (by rw [next_rest]; omega))
      · intro _ t' left
        apply ih others left
        rw [left]
        simp only [List.length_append, List.length_cons] at enough ⊢
        omega
      · intro _ never
        exact never.elim
    | block t first => cases here

theorem ends_element {c : Char} {w : List Char} (opens : Opens c w) (text : p.rest = c :: w)
    {n : Nat} : Ends (readList number (n + 1)) p Q E ↔
      Ends (datumFromPort number n) p
        (fun a t => Ends (readList number n) t (fun d => Q (.pair a d)) E) E := by
  have notDot : ¬ (c = '.' ∧ w.head? ≠ some '.') := by
    rintro ⟨dot, other⟩
    obtain ⟨v, rfl⟩ := opens.dots dot
    exact other rfl
  rw [ends_datumFromPort number text, readList, ends_bind, ends_pread text]
  dsimp only
  rw [if_neg opens.notClose, if_neg (by rw [opens.visible]; exact Bool.false_ne_true),
    if_neg opens.notComment, ends_bind, ends_ppeek, next_rest, if_neg notDot]
  simp only [ends_bind, ends_pure]

theorem ends_dot {w : List Char} (text : p.rest = '.' :: w) (other : w.head? ≠ some '.') {n : Nat} :
    Ends (readList number (n + 1)) p Q E ↔
      Ends (datumFromPort number n) (p.next '.' w) (fun d t => Ends (do
        if (← pread) = some ')' then pure d else lexicalError "unexpected data after dot" []) t Q E)
        E := by
  rw [readList, ends_bind, ends_pread text]
  dsimp only
  rw [if_neg (by decide), if_neg (by decide), if_neg (by decide), ends_bind, ends_ppeek, next_rest,
    if_pos ⟨rfl, other⟩, datumFromPort]
  simp only [ends_bind]

theorem gap_split (block : ¬ Plain gap) : ∃ before text, ∃ first : First text, ∃ after,
    gap = before ++ .block text first :: after ∧ Plain before := by
  induction gap with
  | nil => exact absurd (fun _ never => nomatch never) block
  | cons l gap ih =>
    by_cases here : l.isBlock = true
    · cases l with
      | block text first => exact ⟨[], text, first, gap, rfl, fun _ never => nomatch never⟩
      | space c white => cases here
      | line text inside => cases here
    · rw [Bool.not_eq_true] at here
      have later : ¬ Plain gap := by
        intro plain
        apply block
        intro l' member
        rcases List.mem_cons.mp member with rfl | member
        · exact here
        · exact plain l' member
      obtain ⟨before, text, first, after, rfl, plain⟩ := ih later
      refine ⟨l :: before, text, first, after, rfl, ?_⟩
      intro l' member
      rcases List.mem_cons.mp member with rfl | member
      · exact here
      · exact plain l' member

theorem behind_block (seen : ∀ l ∈ gap, l.Seen) (block : ¬ Plain gap) {R : Datum → Port → Prop}
    {fuel : Nat} (text : p.rest = gapText gap ++ rest) (enough : 2 * p.rest.length + 2 ≤ fuel)
    (next : ∀ p' fuel', p'.rest = rest → 2 * p'.rest.length + 1 ≤ fuel' →
      Ends (datumFromPort number fuel') p' R E)
    (others : ∀ a t fuel', R a t → 2 * rest.length + 1 ≤ fuel' →
      Ends (readList number fuel') t (fun d => Q (.pair a d)) E) :
    Ends (readList number fuel) p Q E := by
  obtain ⟨before, comment, first, after, rfl, plain⟩ := gap_split block
  have behind : ∀ l ∈ Layout.block comment first :: after, l.Seen :=
    fun l member => seen l (List.mem_append_right before member)
  rw [gapText, List.flatMap_append, List.append_assoc, ← gapText, ← gapText] at text
  apply list_gap plain text enough
  intro p' fuel' left enough'
  obtain ⟨fuel', rfl⟩ : ∃ k, fuel' = k + 1 := ⟨fuel' - 1, by omega⟩
  have hash : ∃ w, p'.rest = '#' :: w := ⟨_, left⟩
  obtain ⟨w, begins⟩ := hash
  have size : rest.length ≤ p'.rest.length := by
    rw [left, List.length_append]
    exact Nat.le_add_left _ _
  rw [ends_element (.of_opening w rfl) begins]
  apply Ends.post (datum_gap behind left (by omega) next)
  intro a t good
  exact others a t fuel' good (by omega)

theorem ends_item (seen : ∀ l ∈ gap, l.Seen) {R : Datum → Port → Prop} {fuel : Nat}
    {c : Char} {w : List Char} (opens : Opens c w)
    (text : p.rest = gapText gap ++ c :: w) (enough : 2 * p.rest.length + 2 ≤ fuel)
    (next : ∀ p' fuel', p'.rest = c :: w → 2 * p'.rest.length + 1 ≤ fuel' →
      Ends (datumFromPort number fuel') p' R E)
    (others : ∀ a t fuel', R a t → 2 * (c :: w).length + 1 ≤ fuel' →
      Ends (readList number fuel') t (fun d => Q (.pair a d)) E) :
    Ends (readList number fuel) p Q E := by
  by_cases plain : Plain gap
  · apply list_gap plain text enough
    intro p' fuel' left enough'
    obtain ⟨fuel', rfl⟩ : ∃ k, fuel' = k + 1 := ⟨fuel' - 1, by omega⟩
    rw [ends_element opens left]
    apply Ends.post (next p' fuel' left (by omega))
    intro a t good
    exact others a t fuel' good (by rw [left] at enough'; omega)
  · exact behind_block seen plain text enough next others

end gaps

/- What is read. -/

/-- The computation reads the datum up to rest, exactly when it is good; else it signals an
    error. -/
def Outcome (good : Prop) (d : Datum) (rest : List Char) (c : ReadM Datum) (p : Port) : Prop :=
  Ends c p (fun r t => good ∧ r = d ∧ t.rest = rest) fun e => ¬ good ∧ Signals e

section reading
variable {number : StringToNumber} {p : Port} {gap : Gap} {rest : List Char} {fuel : Nat}

theorem Form.opens : (form : Form number) → ∃ c w, form.text = c :: w ∧ Opens c w
  | .atom a => a.opens
  | .quoted mark gap form => by
    cases mark <;> exact ⟨_, _, rfl, .of_opening _ rfl⟩
  | .list items => ⟨_, _, rfl, .of_opening _ rfl⟩
  | .vector items => ⟨_, _, rfl, .of_opening _ rfl⟩

theorem opens_append {c : Char} {w : List Char} (opens : Opens c w) (more : List Char) :
    Opens c (w ++ more) := by
  refine ⟨opens.visible, opens.notClose, opens.notComment, opens.notAt, ?_⟩
  intro dot
  obtain ⟨v, rfl⟩ := opens.dots dot
  exact ⟨v ++ more, rfl⟩

theorem Items.text_ne_nil (items : Items number) : items.text ≠ [] := by
  cases items with
  | close gap => simp [Items.text]
  | tail before behind form after => simp [Items.text]
  | item gap form others =>
    obtain ⟨c, w, head, _⟩ := form.opens
    simp [Items.text, head]

theorem delimited_append {text : List Char} (some : text ≠ []) (delimited : Delimited text) :
    Delimited (text ++ rest) := by
  rwa [Delimited, List.head?_append_of_ne_nil _ some]

theorem gap_head (l : Layout) (gap : Gap) (rest : List Char) :
    ∃ c w, gapText (l :: gap) ++ rest = c :: w ∧ delimeter (some c) = true ∧ c ≠ '@' := by
  cases l with
  | space c white =>
    refine ⟨c, gapText gap ++ rest, rfl, ?_, ?_⟩
    · rw [delimeter, white]
      rfl
    · rintro rfl
      exact absurd white (by decide)
  | line text inside => exact ⟨';', _, rfl, by decide, by decide⟩
  | block text first => exact ⟨'#', _, rfl, by decide, by decide⟩

theorem gap_delimited (gap : Gap) (rest : List Char) : Delimited (gapText gap ++ ')' :: rest) := by
  cases gap with
  | nil => rfl
  | cons l gap =>
    obtain ⟨c, w, same, delimited, _⟩ := gap_head l gap (')' :: rest)
    rw [Delimited, same]
    exact delimited

theorem close_error (text : p.rest = ')' :: rest) (enough : 2 * p.rest.length + 1 ≤ fuel) :
    Ends (datumFromPort number fuel) p (fun _ _ => False) Signals := by
  obtain ⟨fuel, rfl⟩ : ∃ k, fuel = k + 1 := ⟨fuel - 1, by omega⟩
  rw [ends_datumFromPort number text]
  trivial

theorem dot_error (text : p.rest = '.' :: rest) (other : rest.head? ≠ some '.')
    (enough : 2 * p.rest.length + 1 ≤ fuel) :
    Ends (datumFromPort number fuel) p (fun _ _ => False) Signals := by
  obtain ⟨fuel, rfl⟩ : ∃ k, fuel = k + 1 := ⟨fuel - 1, by omega⟩
  have notDots : peculiarAt '.' rest = false := by
    simpa [peculiarAt] using other
  rw [ends_datumFromPort number text, dispatch, if_neg (by decide), if_neg (by decide), ends_bind,
    ends_peculiar, next_rest, notDots]
  trivial

theorem reads_close (seen : ∀ l ∈ gap, l.Seen) (text : p.rest = gapText gap ++ ')' :: rest)
    (enough : 2 * p.rest.length + 2 ≤ fuel) :
    Outcome (Plain gap) .null rest (readList number fuel) p := by
  by_cases plain : Plain gap
  · apply list_gap plain text enough
    intro p' fuel' left enough'
    obtain ⟨fuel', rfl⟩ : ∃ k, fuel' = k + 1 := ⟨fuel' - 1, by omega⟩
    rw [ends_readList_close number left]
    exact ⟨plain, rfl, next_rest⟩
  · apply behind_block (R := fun _ _ => False) seen plain text enough
    · intro p' fuel' left enough'
      exact (close_error left enough').mono (fun _ _ never => never) fun _ error => ⟨plain, error⟩
    · intro _ _ _ never
      exact never.elim

/- The text of a datum, wherever it stands, and the text of the rest of a list. -/
def ReadsForm (form : Form number) : Prop :=
  ∀ rest, form.free = true ∨ Delimited rest → ∀ (p : Port) (fuel : Nat), p.rest = form.text ++ rest →
    2 * p.rest.length + 1 ≤ fuel →
    Outcome form.Placed form.datum rest (datumFromPort number fuel) p

def ReadsItems (items : Items number) : Prop :=
  ∀ rest (p : Port) (fuel : Nat), p.rest = items.text ++ rest → 2 * p.rest.length + 2 ≤ fuel →
    Outcome items.Placed items.datum rest (readList number fuel) p

theorem Outcome.of_iff {good good' : Prop} {d d' : Datum} {c : ReadM Datum} {f : Datum → Datum}
    (same : good ↔ good') (outcome : Outcome good d rest c p) (datum : f d = d') :
    Ends c p (fun r t => good' ∧ f r = d' ∧ t.rest = rest) fun e => ¬ good' ∧ Signals e := by
  apply Ends.mono outcome
  · rintro r t ⟨fine, rfl, left⟩
    exact ⟨same.mp fine, datum, left⟩
  · intro e ⟨bad, error⟩
    exact ⟨fun fine => bad (same.mpr fine), error⟩

theorem quoted_reads {mark : Mark} {form : Form number} (seen : ∀ l ∈ gap, l.Seen)
    (inner : ReadsForm form) : ReadsForm (.quoted mark gap form) := by
  intro rest free p fuel text enough
  rw [Form.text, List.append_assoc, List.append_assoc] at text
  obtain ⟨c, w, head, notAt⟩ : ∃ c w, gapText gap ++ (form.text ++ rest) = c :: w ∧ c ≠ '@' := by
    cases gap with
    | nil =>
      obtain ⟨c, w, same, opens⟩ := form.opens
      exact ⟨c, w ++ rest, by rw [same]; rfl, opens.notAt⟩
    | cons l gap =>
      obtain ⟨c, w, same, _, notAt⟩ := gap_head l gap (form.text ++ rest)
      exact ⟨c, w, same, notAt⟩
  have size : (gapText gap ++ (form.text ++ rest)).length + 1 ≤ p.rest.length := by
    have mark_length : 1 ≤ mark.text.length := by cases mark <;> decide
    simp only [text, List.length_append]
    omega
  rw [head] at text
  obtain ⟨fuel, rfl⟩ : ∃ k, fuel = k + 2 := ⟨fuel - 2, by omega⟩
  obtain ⟨p', left, reads⟩ := ends_mark number mark (n := fuel) notAt text
  rw [Outcome, reads]
  rw [← head] at left
  apply datum_gap seen left (by rw [left]; omega)
  intro p'' fuel' left' enough'
  apply Outcome.of_iff Iff.rfl (inner rest free p'' fuel' left' enough')
  rfl

theorem list_reads {items : Items number} (inner : ReadsItems items) :
    ReadsForm (.list items) := by
  intro rest _ p fuel text enough
  obtain ⟨fuel, rfl⟩ : ∃ k, fuel = k + 1 := ⟨fuel - 1, by omega⟩
  have text : p.rest = '(' :: (items.text ++ rest) := text
  rw [text, List.length_cons] at enough
  rw [Outcome, ends_datumFromPort number text, dispatch_open]
  exact inner rest _ fuel next_rest (by rw [next_rest]; omega)

theorem vector_reads {items : Items number} (proper : items.proper = true)
    (inner : ReadsItems items) : ReadsForm (.vector items) := by
  intro rest _ p fuel text enough
  have text : p.rest = '#' :: '(' :: (items.text ++ rest) := text
  rw [text, List.length_cons, List.length_cons] at enough
  obtain ⟨fuel, rfl⟩ : ∃ k, fuel = k + 2 := ⟨fuel - 2, by omega⟩
  rw [Outcome, ends_datumFromPort number text, dispatch_sharp, ends_sharped_open number next_rest,
    ends_bind]
  apply Ends.mono (inner rest _ fuel next_rest (by rw [next_rest]; omega))
  · rintro d t ⟨placed, rfl, left⟩
    rw [listToVector, items.elements_datum proper]
    exact ⟨placed, rfl, left⟩
  · intro e failed
    exact failed

theorem item_reads {form : Form number} {others : Items number} (seen : ∀ l ∈ gap, l.Seen)
    (apart : form.free = true ∨ Delimited others.text) (first : ReadsForm form)
    (later : ReadsItems others) : ReadsItems (.item gap form others) := by
  intro rest p fuel text enough
  obtain ⟨c, w, head, opens⟩ := form.opens
  have text : p.rest = gapText gap ++ c :: (w ++ (others.text ++ rest)) := by
    rw [text, Items.text, head]
    simp
  have free : form.free = true ∨ Delimited (others.text ++ rest) :=
    apart.imp id fun delimited => delimited_append others.text_ne_nil delimited
  apply ends_item (R := fun a t => form.Placed ∧ a = form.datum ∧ t.rest = others.text ++ rest)
    seen (opens_append opens _) text enough
  · intro p' fuel' left enough'
    have begins : p'.rest = form.text ++ (others.text ++ rest) := by
      rw [left, head]
      rfl
    apply Ends.mono (first _ free p' fuel' begins enough')
    · intro a t good
      exact good
    · intro e ⟨bad, error⟩
      exact ⟨fun placed => bad placed.1, error⟩
  · rintro a t fuel' ⟨placed, rfl, left⟩ enough'
    have size : 2 * t.rest.length + 2 ≤ fuel' := by
      rw [left]
      simp only [List.length_cons, List.length_append] at enough' ⊢
      omega
    apply Outcome.of_iff _ (later rest t fuel' left size) rfl
    exact ⟨fun good => ⟨placed, good⟩, And.right⟩

theorem after_tail {d : Datum} {after : Gap} (text : p.rest = gapText after ++ ')' :: rest) :
    Outcome (after = []) d rest (do
      if (← pread) = some ')' then pure d else lexicalError "unexpected data after dot" []) p := by
  rw [Outcome, ends_bind]
  cases after with
  | nil =>
    have text : p.rest = ')' :: rest := text
    rw [ends_pread text, if_pos rfl, ends_pure, next_rest]
    exact ⟨rfl, rfl, rfl⟩
  | cons l after =>
    have other : ∃ c w, p.rest = c :: w ∧ c ≠ ')' := by
      rw [text]
      cases l with
      | space c white =>
        refine ⟨c, _, rfl, ?_⟩
        rintro rfl
        exact absurd white (by decide)
      | line text inside => exact ⟨';', _, rfl, by decide⟩
      | block text first => exact ⟨'#', _, rfl, by decide⟩
    obtain ⟨c, w, begins, other⟩ := other
    rw [ends_pread begins, if_neg (by simpa using other)]
    exact ⟨by simp, trivial⟩

theorem tail_reads {before behind after : Gap} {form : Form number}
    (seenBefore : ∀ l ∈ before, l.Seen) (seenBehind : ∀ l ∈ behind, l.Seen)
    (apart : (gapText behind ++ form.text).head? ≠ some '.') (inner : ReadsForm form) :
    ReadsItems (.tail before behind form after) := by
  intro rest p fuel text enough
  obtain ⟨c, w, head, _⟩ := form.opens
  have text : p.rest = gapText before ++ '.' ::
      (gapText behind ++ (form.text ++ (gapText after ++ ')' :: rest))) := by
    rw [text, Items.text]
    simp
  have other : (gapText behind ++ (form.text ++ (gapText after ++ ')' :: rest))).head? ≠
      some '.' := by
    rw [← List.append_assoc, List.head?_append_of_ne_nil _ (by simp [head])]
    exact apart
  by_cases plain : Plain before
  · apply list_gap plain text enough
    intro p' fuel' left enough'
    obtain ⟨fuel', rfl⟩ : ∃ k, fuel' = k + 1 := ⟨fuel' - 1, by omega⟩
    rw [left, List.length_cons] at enough'
    rw [ends_dot left other]
    apply datum_gap seenBehind next_rest (by rw [next_rest]; omega)
    intro p'' fuel'' left' enough''
    have outcome := inner _ (.inr (gap_delimited after rest)) p'' fuel'' left' enough''
    apply Ends.mono outcome
    · rintro d t ⟨placed, rfl, left''⟩
      apply Outcome.of_iff _ (after_tail left'') rfl
      exact ⟨fun good => ⟨plain, placed, good⟩, fun good => good.2.2⟩
    · intro e ⟨bad, error⟩
      exact ⟨fun placed => bad placed.2.1, error⟩
  · apply behind_block (R := fun _ _ => False) seenBefore plain text enough
    · intro p' fuel' left enough'
      apply Ends.mono (dot_error left other enough')
      · intro _ _ never
        exact never
      · intro e error
        exact ⟨fun placed => plain placed.1, error⟩
    · intro _ _ _ never
      exact never.elim

mutual
theorem Form.reads : (form : Form number) → form.Apart → form.Seen → ReadsForm form
  | .atom a, _, _ => by
    intro rest free p fuel text enough
    apply Ends.mono (a.reads rest free p fuel text enough)
    · intro d t good
      exact ⟨trivial, good⟩
    · intro _ never
      exact never.elim
  | .quoted _ _ form, apart, seen => quoted_reads seen.1 (form.reads apart seen.2)
  | .list items, apart, seen => list_reads (items.reads apart seen)
  | .vector items, apart, seen => vector_reads apart.1 (items.reads apart.2 seen)
theorem Items.reads : (items : Items number) → items.Apart → items.Seen → ReadsItems items
  | .close gap, _, seen => by
    intro rest p fuel text enough
    apply reads_close seen _ enough
    rw [text, Items.text, List.append_assoc]
    rfl
  | .tail _ _ form _, apart, seen =>
    tail_reads seen.1 seen.2.1 apart.1 (form.reads apart.2 seen.2.2.1)
  | .item _ form others, apart, seen =>
    item_reads seen.1 apart.1 (form.reads apart.2.1 seen.2.1) (others.reads apart.2.2 seen.2.2)
end

end reading

section law
variable {number : StringToNumber}

/- The same tokens with single spaces between elements and around a dot. -/
mutual
def Form.bare : Form number → Form number
  | .atom a => .atom a
  | .quoted mark _ form => .quoted mark [] form.bare
  | .list items => .list items.bare
  | .vector items => .vector items.bare
def Items.bare : Items number → Items number
  | .close _ => .close []
  | .tail _ _ form _ => .tail [.space ' ' (by decide)] [.space ' ' (by decide)] form.bare []
  | .item _ form rest => .item [.space ' ' (by decide)] form.bare rest.bare
end

mutual
theorem Form.bare_datum : (form : Form number) → form.bare.datum = form.datum
  | .atom _ => rfl
  | .quoted mark _ form => congrArg (Datum.quoted mark.name) form.bare_datum
  | .list items => items.bare_datum
  | .vector items => congrArg Datum.vector items.bare_elements
theorem Items.bare_datum : (items : Items number) → items.bare.datum = items.datum
  | .close _ => rfl
  | .tail _ _ form _ => form.bare_datum
  | .item _ form rest => congrArg₂ Datum.pair form.bare_datum rest.bare_datum
theorem Items.bare_elements : (items : Items number) → items.bare.elements = items.elements
  | .close _ => rfl
  | .tail .. => rfl
  | .item _ form rest => congrArg₂ List.cons form.bare_datum rest.bare_elements
end

theorem Form.bare_free : (form : Form number) → form.bare.free = form.free
  | .atom _ => rfl
  | .quoted _ _ form => form.bare_free
  | .list _ => rfl
  | .vector _ => rfl

theorem Items.bare_proper : (items : Items number) → items.bare.proper = items.proper
  | .close _ => rfl
  | .tail .. => rfl
  | .item _ _ rest => rest.bare_proper

theorem Items.bare_delimited (items : Items number) : Delimited items.bare.text := by
  cases items <;> rfl

mutual
theorem Form.bare_apart : (form : Form number) → form.Apart → form.bare.Apart
  | .atom _, _ => trivial
  | .quoted _ _ form, apart => form.bare_apart apart
  | .list items, apart => items.bare_apart apart
  | .vector items, apart => ⟨items.bare_proper.trans apart.1, items.bare_apart apart.2⟩
theorem Items.bare_apart : (items : Items number) → items.Apart → items.bare.Apart
  | .close _, _ => trivial
  | .tail _ _ form _, apart => ⟨by simp [gapText, Layout.text], form.bare_apart apart.2⟩
  | .item _ form rest, apart =>
    ⟨.inr rest.bare_delimited, form.bare_apart apart.2.1, rest.bare_apart apart.2.2⟩
end

theorem seen_space : ∀ l ∈ [Layout.space ' ' (by decide)], l.Seen := by simp [Layout.Seen]

theorem plain_space : Plain [Layout.space ' ' (by decide)] := by simp [Plain, Layout.isBlock]

mutual
theorem Form.bare_seen : (form : Form number) → form.bare.Seen
  | .atom _ => trivial
  | .quoted _ _ form => ⟨by simp, form.bare_seen⟩
  | .list items => items.bare_seen
  | .vector items => items.bare_seen
theorem Items.bare_seen : (items : Items number) → items.bare.Seen
  | .close _ => by simp [Items.bare, Items.Seen]
  | .tail _ _ form _ => ⟨seen_space, seen_space, form.bare_seen, by simp⟩
  | .item _ form rest => ⟨seen_space, form.bare_seen, rest.bare_seen⟩
end

mutual
theorem Form.bare_placed : (form : Form number) → form.bare.Placed
  | .atom _ => trivial
  | .quoted _ _ form => form.bare_placed
  | .list items => items.bare_placed
  | .vector items => items.bare_placed
theorem Items.bare_placed : (items : Items number) → items.bare.Placed
  | .close _ => by simp [Items.bare, Items.Placed, Plain]
  | .tail _ _ form _ => ⟨plain_space, form.bare_placed, rfl⟩
  | .item _ form rest => ⟨form.bare_placed, rest.bare_placed⟩
end

/-- The text is read as the datum in front of rest. -/
def ReadAs (number : StringToNumber) (text rest : List Char) (d : Datum) : Prop :=
  ∃ n, ∀ fuel, n ≤ fuel → ∀ p : Port, p.rest = text ++ rest →
    Ends (datumFromPort number fuel) p (fun r t => r = d ∧ t.rest = rest) fun _ => False

/-- A datum as it is written, with any layout between its tokens. -/
structure Written (number : StringToNumber) where
  form : Form number
  apart : form.Apart

/-- The layout is ignored: the text is read as the text with single spaces is. -/
def Ignored (w : Written number) : Prop :=
  ∀ rest, w.form.free = true ∨ Delimited rest → ∃ d,
    ReadAs number w.form.bare.text rest d ∧ ReadAs number w.form.text rest d

/-- Where text that follows is delimited, the text is read as the datum or it is not read. -/
theorem readAs_of_placed {form : Form number} (apart : form.Apart) (seen : form.Seen)
    (placed : form.Placed) {rest : List Char} (free : form.free = true ∨ Delimited rest) :
    ReadAs number form.text rest form.datum := by
  refine ⟨2 * (form.text ++ rest).length + 1, ?_⟩
  intro fuel enough p text
  apply Ends.mono (form.reads apart seen rest free p fuel text (by rw [text]; exact enough))
  · intro r t good
    exact good.2
  · intro e bad
    exact bad.1 placed

theorem placed_of_readAs {form : Form number} (apart : form.Apart) (seen : form.Seen)
    {rest : List Char} {d : Datum} (free : form.free = true ∨ Delimited rest)
    (read : ReadAs number form.text rest d) : form.Placed := by
  obtain ⟨n, reads⟩ := read
  have enough : 2 * (form.text ++ rest).length + 1 ≤ max n (2 * (form.text ++ rest).length + 1) :=
    Nat.le_max_right _ _
  have both := (form.reads apart seen rest free ⟨form.text ++ rest, 1, 0⟩ _ rfl enough).and
    (reads _ (Nat.le_max_left _ _) ⟨form.text ++ rest, 1, 0⟩ rfl)
  rw [Ends] at both
  split at both
  · exact both.1.1
  · exact both.2.elim

/-- A datum whose text is written by put-datum and read back stands for itself. -/
def Atom.written {d : Datum} {text : List Char} (plain : ReadBack.Plain number d)
    (good : readable d = true) (put : putDatum d = .ok text) : Atom number where
  text := text
  datum := d
  free := false
  opens := text_opens number plain put
  reads := by
    intro rest free p fuel begins enough
    have delimited : Delimited rest := free.resolve_left Bool.false_ne_true
    have size : text.length ≤ p.rest.length := by
      rw [begins, List.length_append]
      exact Nat.le_add_right _ _
    apply Ends.mono (datum_back d plain fuel p put delimited begins)
    · intro r t back
      exact back.1 good
    · intro e short
      have := short good
      omega

theorem numberLoop_reads {w rest : List Char} (digits : ∀ c ∈ w, digit c = true)
    (delimited : Delimited rest) (n : Nat) {p : Port} (text : p.rest = w ++ rest) :
    Ends (numberLoop digit n) p (fun r t => r = w ∧ t.rest = rest) fun _ => n ≤ w.length := by
  induction w generalizing n p with
  | nil =>
    cases n with
    | zero => exact Nat.zero_le _
    | succ n =>
      rw [List.nil_append] at text
      simp only [numberLoop, ends_bind, ends_ppeek, text]
      cases rest with
      | nil => exact ⟨rfl, text⟩
      | cons c rest =>
        rw [List.head?_cons]
        rw [Delimited, List.head?_cons] at delimited
        dsimp only
        rw [if_pos delimited]
        exact ⟨rfl, text⟩
  | cons c w ih =>
    cases n with
    | zero => exact Nat.zero_le _
    | succ n =>
      have isDigit := digits c List.mem_cons_self
      rw [List.cons_append] at text
      simp only [numberLoop, ends_bind, ends_ppeek, text, List.head?_cons]
      rw [if_neg (by rw [not_delimeter (digit_identifier isDigit)]; exact Bool.false_ne_true),
        if_pos isDigit, ends_bind, ends_pread text, ends_bind]
      have later := ih (fun x member => digits x (List.mem_cons_of_mem c member)) n
        (p := p.next c (w ++ rest)) next_rest
      apply later.mono
      · intro r t read
        exact ⟨by rw [read.1], read.2⟩
      · intro e short
        exact Nat.succ_le_succ short

/-- A numeral: digits, behind a sign or not. -/
structure Numeral where
  first : Char
  digits : List Char
  starts : digit first = true ∨ (first = '+' ∨ first = '-') ∧ digits ≠ []
  allDigits : ∀ c ∈ digits, digit c = true

section numerals
variable {Q : Datum → Port → Prop} {E : Stop → Prop} {p : Port} {n : Nat} {rest : List Char}

theorem ends_dispatch_digit {c : Char} (isDigit : digit c = true) : Ends (dispatch number (n + 1) (some c)) p Q E ↔
      Ends (readNumberImpl number n (some c) 10) p Q E := by
  have plain := of_ascii (P := fun c => !digit c || (!charWhitespace c &&
    !(letter c || initialChar c))) (by decide) (digit_identifier isDigit)
  simp only [isDigit, Bool.not_true, Bool.false_or, Bool.and_eq_true, Bool.not_eq_true'] at plain
  obtain ⟨visible, notWord⟩ := plain
  have other : ∀ x, digit x = false → c ≠ x := by
    rintro x notDigit rfl
    rw [isDigit] at notDigit
    cases notDigit
  have notPeculiar : peculiar c = pure false := by
    rw [peculiar, if_neg, if_neg (other '.' rfl)]
    rintro (plus | minus)
    · exact other '+' rfl plus
    · exact other '-' rfl minus
  have start : numberStart c = true := by rw [numberStart, isDigit, Bool.true_or]
  rw [dispatch, if_neg (by rw [visible]; exact Bool.false_ne_true),
    if_neg (by rw [notWord]; exact Bool.false_ne_true), notPeculiar, pure_bind,
    if_neg Bool.false_ne_true, if_pos start]

theorem ends_dispatch_signed {c d : Char} (sign : c = '+' ∨ c = '-') (isDigit : digit d = true)
    (text : p.rest = d :: rest) : Ends (dispatch number (n + 1) (some c)) p Q E ↔
      Ends (readNumberImpl number n (some c) 10) p Q E := by
  have goes : delimeter p.rest.head? = false := by
    rw [text]
    exact not_delimeter (digit_identifier isDigit)
  have peek : peculiar c = delimeter <$> ppeek := by
    rw [peculiar, if_pos sign]
  have start : numberStart c = true := by
    rcases sign with rfl | rfl <;> rfl
  have visible : charWhitespace c = false ∧ (letter c || initialChar c) = false := by
    rcases sign with rfl | rfl <;> decide
  rw [dispatch, if_neg (by rw [visible.1]; exact Bool.false_ne_true),
    if_neg (by rw [visible.2]; exact Bool.false_ne_true), ends_bind, peek, ends_map, ends_ppeek,
    goes, if_neg Bool.false_ne_true, if_pos start]

theorem Numeral.opens (m : Numeral) : Opens m.first m.digits := by
  apply Opens.of_opening
  rcases m.starts with isDigit | ⟨sign, _⟩
  · have checked := of_ascii (P := fun c => !digit c || opening c) (by decide)
      (digit_identifier isDigit)
    rwa [isDigit] at checked
  · rcases sign with plus | minus
    · rw [plus]
      rfl
    · rw [minus]
      rfl

theorem Numeral.dispatches (m : Numeral) (text : p.rest = m.digits ++ rest) :
    Ends (dispatch number (n + 1) (some m.first)) p Q E ↔
      Ends (readNumberImpl number n (some m.first) 10) p Q E := by
  rcases m.starts with isDigit | ⟨sign, more⟩
  · exact ends_dispatch_digit isDigit
  · obtain ⟨d, w, digits⟩ := List.exists_cons_of_ne_nil more
    rw [digits, List.cons_append] at text
    exact ends_dispatch_signed sign (m.allDigits d (digits ▸ List.mem_cons_self)) text

end numerals

/-- What string->number makes of a numeral. -/
def Numeral.datum (number : StringToNumber) (m : Numeral) : Datum :=
  match number (m.first :: m.digits) 10 with
  | some n => .number n
  | none => .bool false

theorem Numeral.reads (m : Numeral) (rest : List Char) (free : false = true ∨ Delimited rest)
    (p : Port) (fuel : Nat) (begins : p.rest = m.first :: m.digits ++ rest)
    (enough : 2 * p.rest.length + 1 ≤ fuel) : Ends (datumFromPort number fuel) p
      (fun d t => d = m.datum number ∧ t.rest = rest) fun _ => False := by
  have delimited : Delimited rest := free.resolve_left Bool.false_ne_true
  rw [List.cons_append] at begins
  have size : p.rest.length = m.digits.length + 1 + rest.length := by
    rw [begins, List.length_cons, List.length_append]
    omega
  cases fuel with
  | zero => omega
  | succ n =>
    rw [ends_datumFromPort number begins, m.dispatches next_rest, readNumberImpl, if_neg (by decide),
      ends_bind]
    apply (numberLoop_reads m.allDigits delimited n next_rest).mono
    · rintro r t ⟨rfl, left⟩
      dsimp only
      rw [Numeral.datum]
      cases number (m.first :: m.digits) 10 with
      | none => exact ⟨rfl, left⟩
      | some value => exact ⟨rfl, left⟩
    · intro e short
      omega

/-- A numeral stands for its number. -/
def Atom.numeral (m : Numeral) : Atom number where
  text := m.first :: m.digits
  datum := m.datum number
  free := false
  opens := ⟨m.first, m.digits, rfl, m.opens⟩
  reads := m.reads

/- Where the end of every block comment is seen, the layout is ignored exactly when it stands
   where the reader passes over it. -/
theorem ignored_iff (w : Written number) :
    (w.form.Seen ∧ Ignored w) ↔ (w.form.Seen ∧ w.form.Placed) := by
  apply and_congr_right
  intro seen
  constructor
  · intro ignored
    have free : w.form.free = true ∨ Delimited [] := .inr rfl
    obtain ⟨d, _, read⟩ := ignored [] free
    exact placed_of_readAs w.apart seen free read
  · intro placed rest free
    refine ⟨w.form.datum, ?_, readAs_of_placed w.apart seen placed free⟩
    rw [← w.form.bare_datum]
    apply readAs_of_placed (w.form.bare_apart w.apart) w.form.bare_seen w.form.bare_placed
    rwa [w.form.bare_free]

def nil : Form number := .list (.close [])

/-- A quotation of the empty list, with a block comment behind the mark. -/
def commented (text : List Char) (first : First text) : Written number :=
  ⟨.quoted .quote [.block text first] nil, trivial⟩

theorem missed_not_ignored {text : List Char} (first : First text) (missed : bars text % 2 = 1) :
    ¬ Ignored (commented text first : Written number) := by
  intro ignored
  obtain ⟨d, _, n, reads⟩ := ignored [] (.inr rfl)
  have begins : apostrophe :: '#' :: '|' :: (text ++ '|' :: '#' :: ['(', ')']) =
      (commented text first : Written number).form.text ++ [] := by
    simp [commented, nil, Form.text, Items.text, Mark.text, gapText, Layout.text]
  have unclosed : afterBlock false (text ++ '|' :: '#' :: ['(', ')']) = none := by
    rw [afterBlock_append first (by simp), oddAfter_bars, missed]
    rfl
  have enough : n ≤ max n (text.length + 10) + 2 + 2 := by omega
  have read := reads _ enough ⟨_, 1, 0⟩ begins
  obtain ⟨p', left, same⟩ := ends_mark number .quote (n := max n (text.length + 10) + 2)
    (Q := fun r t => r = d ∧ t.rest = []) (E := fun _ => False) (p := ⟨_, 1, 0⟩)
    (by decide : '#' ≠ '@') rfl
  have inner := same.mp read
  rw [ends_datumFromPort number left, dispatch_block next_rest, ends_bind] at inner
  have short : (text ++ ['|', '#', '(', ')']).length < max n (text.length + 10) := by
    simp only [List.length_append, List.length_cons, List.length_nil]
    omega
  have skipped : Ends (skipBlockComment (max n (text.length + 10)))
      ((p'.next '#' ('|' :: (text ++ ['|', '#', '(', ')']))).next '|' (text ++ ['|', '#', '(', ')']))
      (fun _ _ => False) fun _ => True := by
    apply Ends.mono (skipBlockComment_ends (by rw [next_rest]; exact short))
    · intro _ t closed
      rw [next_rest, unclosed] at closed
      cases closed
    · intro _ _
      trivial
  have never := skipped.and inner
  rw [Ends] at never
  split at never
  · exact never.1
  · exact never.2

/-- (() . () ), with a space behind the tail. -/
def spacedTail : Written number :=
  ⟨.list (.item [] nil (.tail [] [] nil [.space ' ' (by decide)])), by
    simp [Form.Apart, Items.Apart, nil, Form.free, Form.text, Items.text, gapText]⟩

/-- (#||#), with a block comment in front of the parenthesis. -/
def commentedClose : Written number :=
  ⟨.list (.close [.block [] (first_of_no_sharp (by decide))]), trivial⟩

theorem layout_not_ignored : ¬ ∃ number : StringToNumber,
    Ignored (spacedTail : Written number) ∨ Ignored (commentedClose : Written number) ∨
      Ignored (commented ['|'] (first_of_no_sharp (by decide)) : Written number) := by
  intro ⟨number, good⟩
  rcases good with ignored | ignored | ignored
  · obtain ⟨d, _, read⟩ := ignored [] (.inl rfl)
    have seen : (spacedTail : Written number).form.Seen := by
      simp [spacedTail, nil, Form.Seen, Items.Seen, Layout.Seen]
    obtain ⟨_, _, _, never⟩ := placed_of_readAs spacedTail.apart seen (.inl rfl) read
    cases never
  · obtain ⟨d, _, read⟩ := ignored [] (.inl rfl)
    have seen : (commentedClose : Written number).form.Seen := by
      simp [commentedClose, Form.Seen, Items.Seen, Layout.Seen, bars]
    have plain := placed_of_readAs commentedClose.apart seen (.inl rfl) read
    cases plain _ List.mem_cons_self
  · exact missed_not_ignored _ rfl ignored

end law

end LGears.ReaderLayout
