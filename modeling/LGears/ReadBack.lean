import LGears.PutDatum

/- What the reader makes of a text that put-datum has written. -/
namespace LGears.ReadBack
open StateExcept Reader PutDatum

section steps
variable {α : Type} {p : Port} {Q : α → Port → Prop} {E : Stop → Prop}

@[simp] theorem next_rest {c : Char} {rest : List Char} : (p.next c rest).rest = rest := by
  rw [Port.next]
  by_cases line : c = newline <;> simp [line]

theorem ends_pread {Q : Option Char → Port → Prop} {c : Char} {rest : List Char}
    (text : p.rest = c :: rest) : Ends pread p Q E ↔ Q (some c) (p.next c rest) := by
  rw [Ends, pread, text]

@[simp] theorem ends_ppeek {Q : Option Char → Port → Prop} :
    Ends ppeek p Q E ↔ Q p.rest.head? p := Iff.rfl

@[simp] theorem ends_diverges : Ends (diverges : ReadM α) p Q E ↔ E .diverges := Iff.rfl

@[simp] theorem ends_lexicalError {msg : String} {args : List (Option Char)} :
    Ends (lexicalError msg args : ReadM α) p Q E ↔ E (.lexicalError msg args p.line p.pos) :=
  Iff.rfl

theorem ends_true {c : ReadM α} : Ends c p (fun _ _ => True) fun _ => True := by
  unfold Ends
  split <;> trivial

end steps

/-- What the reader leaves of a text is at its end, or begins with a delimiter. -/
def Delimited (rest : List Char) : Prop := delimeter rest.head? = true

theorem inRange_iff {x y c : Char} :
    inRange x y c = true ↔ x.toNat ≤ c.toNat ∧ c.toNat ≤ y.toNat := by
  rw [inRange, Bool.and_eq_true, decide_eq_true_iff, decide_eq_true_iff]
  exact Iff.rfl

theorem identifierChar_ascii {c : Char} (char : identifierChar c = true) : c.toNat < 128 := by
  simp only [identifierChar, letter, digit, initialChar, Bool.or_eq_true, inRange_iff,
    List.contains_eq_mem, decide_eq_true_iff, List.mem_cons, List.not_mem_nil, or_false] at char
  rcases char with (((lower | upper) | number) | initial) | special
  · exact Nat.lt_of_le_of_lt lower.2 (by decide)
  · exact Nat.lt_of_le_of_lt upper.2 (by decide)
  · exact Nat.lt_of_le_of_lt number.2 (by decide)
  · rcases initial with rfl | rfl | rfl | rfl | rfl | rfl | rfl | rfl | rfl | rfl | rfl | rfl |
      rfl | rfl <;> decide
  · rcases special with rfl | rfl | rfl | rfl <;> decide

theorem of_ascii {P : Char → Bool} (checked : ∀ n < 128, P (Char.ofNat n) = true) {c : Char}
    (char : identifierChar c = true) : P c = true := by
  have holds := checked c.toNat (identifierChar_ascii char)
  rwa [Char.ofNat_toNat] at holds

theorem not_delimeter {c : Char} (char : identifierChar c = true) :
    delimeter (some c) = false := by
  have checked := of_ascii (P := fun c => !identifierChar c || !delimeter (some c)) (by decide) char
  simpa [char] using checked

theorem identifierChar_of_start {c : Char} (start : (letter c || initialChar c) = true) :
    identifierChar c = true := by
  rw [identifierChar]
  rcases Bool.or_eq_true_iff.1 start with h | h <;> simp [h]

theorem symolLoop_reads {w rest : List Char} (chars : ∀ c ∈ w, identifierChar c = true)
    (delimited : Delimited rest) (n : Nat) {p : Port} (text : p.rest = w ++ rest) :
    Ends (symolLoop n) p (fun r t => r = w ∧ t.rest = rest) fun _ => n ≤ w.length := by
  induction w generalizing n p with
  | nil =>
    cases n with
    | zero => exact Nat.zero_le _
    | succ n =>
      rw [List.nil_append] at text
      simp only [symolLoop, ends_bind, ends_ppeek, text]
      cases rest with
      | nil => exact ⟨rfl, text⟩
      | cons c rest =>
        simp only [List.head?_cons]
        rw [Delimited, List.head?_cons] at delimited
        rw [if_pos delimited]
        exact ⟨rfl, text⟩
  | cons c w ih =>
    cases n with
    | zero => exact Nat.zero_le _
    | succ n =>
      have char := chars c List.mem_cons_self
      rw [List.cons_append] at text
      simp only [symolLoop, ends_bind, ends_ppeek, text, List.head?_cons]
      rw [if_neg (by rw [not_delimeter char]; exact Bool.false_ne_true), if_pos char, ends_bind,
        ends_pread text, ends_bind]
      have later := ih (fun x member => chars x (List.mem_cons_of_mem c member)) n
        (p := p.next c (w ++ rest)) next_rest
      apply later.mono
      · intro r t read
        exact ⟨by rw [read.1], read.2⟩
      · intro e short
        exact Nat.succ_le_succ short

/- Inside a string the characters stand for themselves up to the quote or to an escape. -/
def Ordinary (c : Char) : Prop := c ≠ dquote ∧ c ≠ backslash

theorem stringLoop_reads {s rest : List Char} (ordinary : ∀ c ∈ s, Ordinary c) (n : Nat) {p : Port}
    (text : p.rest = s ++ dquote :: rest) :
    Ends (stringLoop n) p (fun r t => r = s ∧ t.rest = rest) fun _ => n ≤ s.length := by
  induction s generalizing n p with
  | nil =>
    cases n with
    | zero => exact Nat.zero_le _
    | succ n =>
      simp only [stringLoop, ends_bind]
      rw [ends_pread text]
      simp
  | cons c s ih =>
    cases n with
    | zero => exact Nat.zero_le _
    | succ n =>
      have char := ordinary c List.mem_cons_self
      simp only [stringLoop, ends_bind]
      rw [ends_pread text]
      simp only
      rw [if_neg char.1, if_neg char.2, ends_bind]
      have later := ih (fun x member => ordinary x (List.mem_cons_of_mem c member)) n
        (p := p.next c (s ++ dquote :: rest)) next_rest
      apply later.mono
      · intro r t read
        exact ⟨by rw [read.1], read.2⟩
      · intro e short
        exact Nat.succ_le_succ short

theorem parseEscape_returns {chr : Option Char} {y : Char} {p t : Port}
    (escaped : Returns (parseEscape chr) p y t) :
    t = p ∧ (y = backslash → chr = some backslash) ∧ (chr = some dquote → y = dquote) := by
  unfold parseEscape at escaped
  split at escaped
  any_goals
    rw [returns_pure] at escaped
    obtain ⟨rfl, rfl⟩ := escaped
    exact ⟨rfl, fun same => absurd same (by decide), fun same => absurd same (by decide)⟩
  rw [Returns] at escaped
  by_cases quote : chr = some dquote
  · rw [if_pos quote] at escaped
    cases escaped
    exact ⟨rfl, fun same => absurd same (by decide), fun _ => rfl⟩
  · rw [if_neg quote] at escaped
    by_cases escape : chr = some backslash
    · rw [if_pos escape] at escaped
      cases escaped
      exact ⟨rfl, fun _ => escape, fun same => absurd same quote⟩
    · rw [if_neg escape] at escaped
      cases escaped

theorem returns_pread {a : Option Char} {c : Char} {rest : List Char} {p t : Port}
    (text : p.rest = c :: rest) : Returns pread p a t ↔ some c = a ∧ p.next c rest = t := by
  rw [Returns, pread, text]
  simp

theorem stringLoop_turn {c : Char} {s r rest : List Char} {n : Nat} {p t : Port}
    (text : p.rest = c :: (s ++ dquote :: rest)) (returned : Returns (stringLoop (n + 1)) p r t) :
    (c = dquote ∧ r = []) ∨
    (Ordinary c ∧ ∃ q later, r = c :: later ∧ q.rest = s ++ dquote :: rest ∧
      Returns (stringLoop n) q later t) ∨
    (c = backslash ∧ s = [] ∧ ∃ later, r = dquote :: later) ∨
    (c = backslash ∧ ∃ x s' y q later, s = x :: s' ∧ r = y :: later ∧
      (y = backslash → x = backslash) ∧ q.rest = s' ++ dquote :: rest ∧
      Returns (stringLoop n) q later t) := by
  rw [stringLoop, returns_bind] at returned
  obtain ⟨read, q, first, returned⟩ := returned
  obtain ⟨rfl, rfl⟩ := (returns_pread text).1 first
  simp only at returned
  by_cases isQuote : c = dquote
  · rw [if_pos isQuote, returns_pure] at returned
    exact Or.inl ⟨isQuote, returned.1.symm⟩
  · rw [if_neg isQuote] at returned
    by_cases isEscape : c = backslash
    · rw [if_pos isEscape] at returned
      simp only [returns_bind, returns_pure] at returned
      obtain ⟨chr, q, second, y, q', escaped, later, q'', returned, rfl, rfl⟩ := returned
      obtain ⟨rfl, same, quote⟩ := parseEscape_returns escaped
      cases s with
      | nil =>
        obtain ⟨rfl, rfl⟩ := (returns_pread next_rest).1 second
        exact Or.inr (Or.inr (Or.inl ⟨isEscape, rfl, later, by rw [quote rfl]⟩))
      | cons x s =>
        obtain ⟨rfl, rfl⟩ := (returns_pread next_rest).1 second
        exact Or.inr (Or.inr (Or.inr ⟨isEscape, x, s, y, _, later, rfl, rfl,
          fun is => Option.some.inj (same is), next_rest, returned⟩))
    · rw [if_neg isEscape] at returned
      simp only [returns_bind, returns_pure] at returned
      obtain ⟨later, q, returned, rfl, rfl⟩ := returned
      exact Or.inr (Or.inl ⟨⟨isQuote, isEscape⟩, _, later, rfl, next_rest, returned⟩)

/- A result cannot be longer than the string by backslashes: every backslash of a result takes two
   characters of the text. -/
theorem stringLoop_backslashes {rest : List Char} (n : Nat) {s r : List Char} {p t : Port} (k : Nat)
    (text : p.rest = s ++ dquote :: rest) (returned : Returns (stringLoop n) p r t) :
    r ≠ List.replicate (k + 1) backslash ++ s := by
  induction n generalizing s r p k with
  | zero => cases returned
  | succ n ih =>
    rw [List.replicate_succ, List.cons_append]
    cases s with
    | nil =>
      rw [stringLoop, returns_bind] at returned
      obtain ⟨read, q, first, returned⟩ := returned
      obtain ⟨rfl, rfl⟩ := (returns_pread text).1 first
      simp only [↓reduceIte, returns_pure] at returned
      rw [← returned.1]
      exact (List.cons_ne_nil _ _).symm
    | cons c s =>
      rcases stringLoop_turn text returned with ⟨_, rfl⟩ | ⟨ordinary, q, later, rfl, _⟩ |
        ⟨_, _, later, rfl⟩ | ⟨isEscape, x, s', y, q, later, rfl, rfl, same, text', returned'⟩
      · exact (List.cons_ne_nil _ _).symm
      · intro eq
        exact ordinary.2 (List.cons.inj eq).1
      · intro eq
        exact absurd (List.cons.inj eq).1 (by decide)
      · intro eq
        obtain ⟨isBackslash, eq⟩ := List.cons.inj eq
        apply ih (k + 1) text' returned'
        rw [eq, isEscape, same isBackslash, List.replicate_succ', List.replicate_succ',
          List.append_assoc, List.append_assoc]
        rfl

theorem stringLoop_differs {s rest : List Char} (special : ∃ c ∈ s, ¬ Ordinary c) (n : Nat)
    {r : List Char} {p t : Port} (text : p.rest = s ++ dquote :: rest)
    (returned : Returns (stringLoop n) p r t) : r ≠ s := by
  induction s generalizing n r p with
  | nil =>
    obtain ⟨c, member, _⟩ := special
    cases member
  | cons c s ih =>
    cases n with
    | zero => cases returned
    | succ n =>
      rcases stringLoop_turn text returned with ⟨_, rfl⟩ |
        ⟨ordinary, q, later, rfl, text', later'⟩ | ⟨isEscape, _, later, rfl⟩ | ⟨isEscape, x, s', y, q, later, rfl, rfl, same, text', later'⟩
      · exact (List.cons_ne_nil _ _).symm
      · intro eq
        obtain ⟨d, member, bad⟩ := special
        apply ih _ n text' later' (List.cons.inj eq).2
        rcases List.mem_cons.1 member with rfl | member
        · exact absurd ordinary bad
        · exact ⟨d, member, bad⟩
      · intro eq
        exact absurd ((List.cons.inj eq).1.trans isEscape) (by decide)
      · intro eq
        obtain ⟨first, eq⟩ := List.cons.inj eq
        apply stringLoop_backslashes n 0 text' later'
        rw [eq, same (first.trans isEscape)]
        rfl

/- A symbol as read-symol and read-peculiar make it. -/
def ReaderSymbol (s : String) : Prop :=
  s = "+" ∨ s = "-" ∨ s = "..." ∨ ∃ c w, s.toList = c :: w ∧ (letter c || initialChar c) = true ∧
    ∀ x ∈ w, identifierChar x = true

variable (number : StringToNumber)

section dispatch
variable {n : Nat} {p : Port} {Q : Datum → Port → Prop} {E : Stop → Prop}

theorem ends_datumFromPort {c : Char} {rest : List Char} (text : p.rest = c :: rest) :
    Ends (datumFromPort number n) p Q E ↔
      Ends (dispatch number n (some c)) (p.next c rest) Q E := by
  rw [datumFromPort, ends_bind, ends_pread text]

theorem ends_readList_close {rest : List Char} (text : p.rest = ')' :: rest) :
    Ends (readList number (n + 1)) p Q E ↔ Q .null (p.next ')' rest) := by
  rw [readList, ends_bind, ends_pread text]
  exact Iff.rfl

theorem ends_readList_space {rest : List Char} (text : p.rest = ' ' :: rest) :
    Ends (readList number (n + 1)) p Q E ↔ Ends (readList number n) (p.next ' ' rest) Q E := by
  rw [readList, ends_bind, ends_pread text]
  exact Iff.rfl

theorem ends_sharped_open {rest : List Char} (text : p.rest = '(' :: rest) :
    Ends (readSharped number (n + 1)) p Q E ↔
      Ends (readList number n >>= listToVector) (p.next '(' rest) Q E := by
  rw [readSharped, ends_bind, ends_pread text]
  exact Iff.rfl

theorem dispatch_open : dispatch number (n + 1) (some '(') = readList number n := rfl

theorem dispatch_sharp : dispatch number (n + 1) (some '#') = readSharped number n := rfl

theorem dispatch_string : dispatch number (n + 1) (some dquote) = readString n := rfl

theorem dispatch_quote {c : Char} (char : quote c = true) :
    dispatch number (n + 1) (some c) = readQuote number n c := by
  simp only [quote, List.contains_eq_mem, decide_eq_true_iff, List.mem_cons, List.not_mem_nil,
    or_false] at char
  rcases char with rfl | rfl | rfl <;> rfl

theorem dispatch_symol {c : Char} (char : (letter c || initialChar c) = true) :
    dispatch number (n + 1) (some c) = readSymol n c := by
  have visible : charWhitespace c = false := by
    have checked := not_delimeter (c := c)
      (identifierChar_of_start char)
    rw [delimeter, Bool.or_eq_false_iff] at checked
    exact checked.1
  rw [dispatch, if_neg (by rw [visible]; exact Bool.false_ne_true), if_pos char]

theorem ends_dispatch_sign {c : Char} (sign : c = '+' ∨ c = '-') (delimited : Delimited p.rest) :
    Ends (dispatch number (n + 1) (some c)) p Q E ↔ Q (.symbol (String.ofList [c])) p := by
  rw [Delimited] at delimited
  rcases sign with rfl | rfl
  · have peek : peculiar '+' = delimeter <$> ppeek := rfl
    rw [dispatch, if_neg (by decide), if_neg (by decide), ends_bind, peek, ends_map, ends_ppeek,
      if_pos delimited]
    exact Iff.rfl
  · have peek : peculiar '-' = delimeter <$> ppeek := rfl
    rw [dispatch, if_neg (by decide), if_neg (by decide), ends_bind, peek, ends_map, ends_ppeek,
      if_pos delimited]
    exact Iff.rfl

theorem ends_dispatch_dots {rest : List Char} (text : p.rest = '.' :: '.' :: rest) :
    Ends (dispatch number (n + 1) (some '.')) p Q E ↔
      Q (.symbol "...") ((p.next '.' ('.' :: rest)).next '.' rest) := by
  have peek : peculiar '.' = (fun next => decide (next = some '.')) <$> ppeek := rfl
  have dots : readPeculiar '.' = (do
      if (← pread) = some '.' then
        if (← pread) = some '.' then pure (.symbol "...") else lexicalError "misplaced dot" []
      else lexicalError "misplaced dot" []) := rfl
  have peeked : decide (('.' :: '.' :: rest).head? = some '.') = true := decide_eq_true rfl
  rw [dispatch, if_neg (by decide), if_neg (by decide), ends_bind, peek, ends_map, ends_ppeek, text,
    if_pos peeked, dots, ends_bind, ends_pread text, if_pos rfl, ends_bind,
    ends_pread next_rest, if_pos rfl, ends_pure]

theorem ends_character {c : Char} {w : List Char} (text : p.rest = '#' :: backslash :: c :: w) :
    Ends (datumFromPort number (n + 2)) p Q E ↔ Ends (readCharacter (some c))
      (((p.next '#' (backslash :: c :: w)).next backslash (c :: w)).next c w) Q E := by
  rw [ends_datumFromPort number text, dispatch_sharp, readSharped, ends_bind, ends_pread next_rest]
  dsimp only
  rw [if_neg (by decide), if_neg (by decide), if_pos rfl, ends_bind, ends_pread next_rest]

end dispatch

/-- What the text of a datum begins with: neither the end of a list nor a place where the reader
    goes on to another character. -/
structure Opens (c : Char) (w : List Char) : Prop where
  visible : charWhitespace c = false
  notClose : c ≠ ')'
  notComment : c ≠ ';'
  notAt : c ≠ '@'
  dots : c = '.' → ∃ v, w = '.' :: v

def opening (c : Char) : Bool := !charWhitespace c && !([')', ';', '@', '.'].contains c)

theorem Opens.of_opening {c : Char} (w : List Char) (checked : opening c = true) : Opens c w := by
  simp only [opening, Bool.and_eq_true, Bool.not_eq_true', List.contains_eq_mem,
    decide_eq_false_iff_not,
    List.mem_cons, List.not_mem_nil, or_false, not_or] at checked
  obtain ⟨visible, notClose, notComment, notAt, notDot⟩ := checked
  exact ⟨visible, notClose, notComment, notAt, fun dot => absurd dot notDot⟩

theorem symbol_opens {s : String} (symbol : ReaderSymbol s) :
    ∃ c w, s.toList = c :: w ∧ Opens c w := by
  rcases symbol with rfl | rfl | rfl | ⟨c, w, text, first, _⟩
  · exact ⟨'+', [], by decide, .of_opening _ rfl⟩
  · exact ⟨'-', [], by decide, .of_opening _ rfl⟩
  · exact ⟨'.', ['.', '.'], by decide,
      ⟨by decide, by decide, by decide, by decide, fun _ => ⟨['.'], rfl⟩⟩⟩
  · have checked := of_ascii (P := fun c => !(letter c || initialChar c) || opening c) (by decide)
      (identifierChar_of_start first)
    rw [first] at checked
    exact ⟨c, w, text, .of_opening w checked⟩

/-- A computation of the reader whose results, when they are symbols, are reader's symbols. -/
def Symbols (c : ReadM Datum) : Prop :=
  ∀ p, Ends c p (fun r _ => ∀ s, r = .symbol s → ReaderSymbol s) fun _ => True

section symbols

theorem Symbols.bind {α : Type} {c : ReadM α} {f : α → ReadM Datum} (last : ∀ a, Symbols (f a)) :
    Symbols (c >>= f) := fun _ => ends_last fun a t => last a t

theorem Symbols.ite {P : Prop} [Decidable P] {c d : ReadM Datum} (yes : P → Symbols c)
    (no : ¬ P → Symbols d) : Symbols (if P then c else d) := by
  by_cases h : P
  · rw [if_pos h]
    exact yes h
  · rw [if_neg h]
    exact no h

theorem Symbols.pure {d : Datum} (other : ∀ s, d = .symbol s → ReaderSymbol s) :
    Symbols (Pure.pure d) := fun _ => other

theorem Symbols.stop {stop : Port → Stop} : Symbols fun p => .error (stop p) := fun _ => trivial

theorem symolLoop_identifier (n : Nat) (p : Port) :
    Ends (symolLoop n) p (fun r _ => ∀ x ∈ r, identifierChar x = true) fun _ => True := by
  induction n generalizing p with
  | zero => trivial
  | succ n ih =>
    rw [symolLoop, ends_bind, ends_ppeek]
    cases p.rest.head? with
    | none =>
      intro x member
      cases member
    | some c =>
      simp only [ends_ite]
      constructor
      · intro _ x member
        cases member
      · intro _
        constructor
        · intro char
          apply ends_last
          intro _ t
          rw [ends_bind]
          apply (ih t).post
          intro r _ inner x member
          rcases List.mem_cons.1 member with rfl | member
          · exact char
          · exact inner x member
        · intro _
          trivial

theorem Symbols.readSymol {c : Char} (start : (letter c || initialChar c) = true) (n : Nat) :
    Symbols (readSymol n c) := by
  intro p
  rw [Reader.readSymol, ends_bind]
  apply (symolLoop_identifier n p).post
  intro w _ chars s eq
  cases eq
  exact Or.inr (Or.inr (Or.inr ⟨c, w, String.toList_ofList, start, chars⟩))

theorem Symbols.readPeculiar (c : Char) : Symbols (readPeculiar c) := by
  have plus : Symbols (Pure.pure (.symbol "+")) := .pure fun s eq => by
    cases eq
    exact Or.inl rfl
  have minus : Symbols (Pure.pure (.symbol "-")) := .pure fun s eq => by
    cases eq
    exact Or.inr (Or.inl rfl)
  have dots : Symbols (Pure.pure (.symbol "...")) := .pure fun s eq => by
    cases eq
    exact Or.inr (Or.inr (Or.inl rfl))
  unfold Reader.readPeculiar
  refine .ite (fun _ => plus) fun _ => .ite (fun _ => minus) fun _ => .ite (fun _ => ?_)
    fun _ => .stop
  refine .bind fun _ => .ite (fun _ => ?_) fun _ => .stop
  exact .bind fun _ => .ite (fun _ => dots) fun _ => .stop

theorem Symbols.readNumberImpl (n : Nat) (start : Option Char) (radix : Nat) :
    Symbols (readNumberImpl number n start radix) := by
  apply Symbols.bind
  intro chars
  cases start with
  | none => exact .stop
  | some c =>
    simp only
    split
    · exact .pure fun s eq => by cases eq
    · exact .pure fun s eq => by cases eq

theorem symbols_read (n : Nat) :
    (∀ pc, Symbols (dispatch number n pc)) ∧ Symbols (readList number n) ∧
    Symbols (readSharped number n) ∧ ∀ c, Symbols (readQuote number n c) := by
  induction n with
  | zero => exact ⟨fun pc => .stop, .stop, .stop, fun c => .stop⟩
  | succ n ih =>
    obtain ⟨dispatches, lists, sharped, quotes⟩ := ih
    have quoted (name : String) (d : Datum) : Symbols (Pure.pure (.quoted name d)) :=
      .pure fun s eq => by cases eq
    refine ⟨?_, ?_, ?_, ?_⟩
    · intro pc
      cases pc with
      | none => exact .pure fun s eq => by cases eq
      | some c =>
        rw [dispatch]
        refine .ite (fun _ => .bind dispatches) fun _ => .ite (fun start => .readSymol start n)
          fun _ => .bind fun _ => .ite (fun _ => .readPeculiar c) fun _ =>
          .ite (fun _ => .readNumberImpl number n _ _) fun _ => .ite (fun _ => ?_) fun _ =>
          .ite (fun _ => sharped) fun _ => .ite (fun _ => quotes c) fun _ =>
          .ite (fun _ => lists) fun _ =>
          .ite (fun _ => .bind fun _ => .bind dispatches) fun _ =>
          .ite (fun _ => .stop) fun _ => .stop
        exact .bind fun _ => .pure fun s eq => by cases eq
    · rw [readList]
      apply Symbols.bind
      intro read
      cases read with
      | none => exact .stop
      | some c =>
        refine .ite (fun _ => .pure fun s eq => by cases eq) fun _ => .ite (fun _ => lists)
          fun _ => .ite (fun _ => .bind fun _ => lists) fun _ => .bind fun _ => .ite (fun _ => ?_)
          fun _ => .bind fun _ => .bind fun _ => .pure fun s eq => by cases eq
        apply Symbols.bind
        intro next p
        rw [ends_bind]
        apply (dispatches next p).post
        intro res t symbols
        rw [ends_bind]
        apply ends_true.post
        intro close t _
        rw [ends_ite]
        exact ⟨fun _ => symbols, fun _ => trivial⟩
    · rw [readSharped]
      apply Symbols.bind
      intro read
      cases read with
      | none => exact .stop
      | some c =>
        refine .ite (fun _ => .pure fun s eq => by cases eq) fun _ =>
          .ite (fun _ => .pure fun s eq => by cases eq) fun _ =>
          .ite (fun _ => .bind fun chr => .bind fun _ => .ite (fun _ => ?_) fun _ => .stop) fun _ =>
          .ite (fun _ => .bind fun _ => .readNumberImpl number n _ _) fun _ =>
          .ite (fun _ => .bind fun _ => .readNumberImpl number n _ _) fun _ =>
          .ite (fun _ => .bind fun _ => .readNumberImpl number n _ _) fun _ =>
          .ite (fun _ => .bind fun _ => .readNumberImpl number n _ _) fun _ =>
          .ite (fun _ => .bind fun _ => .bind fun _ => .bind fun _ => quoted _ _) fun _ =>
          .ite (fun _ => .bind fun d => ?_) fun _ =>
          .ite (fun _ => .bind fun _ => .bind dispatches) fun _ => .stop
        · cases chr with
          | none => exact .pure fun s eq => by cases eq
          | some c => exact .pure fun s eq => by cases eq
        · rw [listToVector]
          cases d.elements with
          | none => exact .stop
          | some xs => exact .pure fun s eq => by cases eq
    · intro c
      rw [readQuote]
      exact .bind fun _ => .bind fun _ => .bind fun _ => quoted _ _

end symbols

/-- The reader produces the symbol, from some text. -/
def Produced (s : String) : Prop :=
  ∃ fuel text t, Returns (datumFromPort number fuel) (makePortProxy text) (.symbol s) t

theorem readerSymbol_of_produced {s : String} (produced : Produced number s) : ReaderSymbol s := by
  obtain ⟨fuel, text, t, returned⟩ := produced
  have symbols : Symbols (datumFromPort number fuel) := .bind (symbols_read number fuel).1
  exact (symbols (makePortProxy text)).returned returned s rfl

/-- The data of programs: no end of file object, no number but a fixnum, and no symbol that only
    string->symbol makes. -/
inductive Plain : Datum → Prop
  | null : Plain .null
  | bool (b : Bool) : Plain (.bool b)
  | char (c : Char) : Plain (.char c)
  | string (s : String) : Plain (.string s)
  | fixnum (n : Int) : Plain (.number (.fixnum n))
  | symbol {s : String} (produced : Produced number s) : Plain (.symbol s)
  | pair {a d : Datum} (first : Plain a) (second : Plain d) : Plain (.pair a d)
  | vector {xs : List Datum} (members : ∀ x ∈ xs, Plain x) : Plain (.vector xs)

mutual
/-- The data that the reader gets back. There is no number in them, no empty vector, no string with
    a quote or a backslash, no character that is written by its name or is more than a byte, no
    improper list, and a keyword of quote? at the head of a list has one datum behind it and is not
    unsyntax-splicing. -/
def readable : Datum → Bool
  | .string s => s.toList.all fun c => c ≠ dquote && c ≠ backslash
  | .char c => (charTable.lookup c).isNone && byteChar c = c
  | .pair a d =>
    match quoteText a, d with
    | some text, .pair x .null => text ≠ ['#', ',', '@'] && readable x
    | some _, _ => false
    | none, d => readable a && readableRest d
  | .vector [] => false
  | .vector (x :: xs) => readable x && readableElements xs
  | .null | .symbol _ | .bool _ => true
  | .eof | .number _ => false
def readableRest : Datum → Bool
  | .pair a d => readable a && readableRest d
  | .null => true
  | _ => false
def readableElements : List Datum → Bool
  | [] => true
  | x :: xs => readable x && readableElements xs
end

/-- put-datum writes the datum, and whatever delimiter and text stands behind it, the reader returns
    it. -/
def RoundTrips (d : Datum) : Prop :=
  ∃ text, putDatum d = .ok text ∧ ∀ rest, Delimited rest →
    ∃ fuel t, Returns (datumFromPort number fuel) (makePortProxy (text ++ rest)) d t

/-- What the reader returns for the text of d: if it is good d, and rest is left, and otherwise
    something else. -/
def Back (good : Bool) (d : Datum) (rest : List Char) (r : Datum) (t : Port) : Prop :=
  (good = true → r = d ∧ t.rest = rest) ∧ (good = false → r ≠ d)

theorem Back.good {d : Datum} {rest : List Char} {r : Datum} {t : Port}
    (read : r = d ∧ t.rest = rest) :
    Back true d rest r t := ⟨fun _ => read, fun bad => absurd bad (by decide)⟩

theorem Back.bad {d : Datum} {rest : List Char} {r : Datum} {t : Port} (differs : r ≠ d) :
    Back false d rest r t := ⟨fun good => absurd good (by decide), fun _ => differs⟩

theorem back_of_returns {c : ReadM Datum} {p : Port} {d : Datum} {rest : List Char} {P : Prop}
    (differs : ∀ r t, Returns c p r t → r ≠ d) :
    Ends c p (Back false d rest) fun _ => false = true → P := by
  unfold Ends
  cases h : c p with
  | error e => exact fun good => absurd good (by decide)
  | ok result => exact .bad (differs _ _ h)

section leaves
variable {n : Nat} {p : Port} {rest : List Char}

theorem symbol_back {s : String} (symbol : ReaderSymbol s) (delimited : Delimited rest)
    (text : p.rest = s.toList ++ rest) :
    Ends (datumFromPort number n) p (Back true (.symbol s) rest) fun _ =>
      n ≤ 2 * s.toList.length := by
  cases n with
  | zero =>
    rw [datumFromPort, ends_bind]
    apply ends_true.mono
    · intro a t _
      exact Nat.zero_le _
    · intro e _
      exact Nat.zero_le _
  | succ n =>
  rcases symbol with rfl | rfl | rfl | ⟨c, w, chars, start, identifier⟩
  · have text : p.rest = '+' :: rest := text
    rw [ends_datumFromPort number text, ends_dispatch_sign number (Or.inl rfl)
      (by rw [next_rest]; exact delimited)]
    exact .good ⟨rfl, next_rest⟩
  · have text : p.rest = '-' :: rest := text
    rw [ends_datumFromPort number text, ends_dispatch_sign number (Or.inr rfl)
      (by rw [next_rest]; exact delimited)]
    exact .good ⟨rfl, next_rest⟩
  · have text : p.rest = '.' :: '.' :: '.' :: rest := text
    rw [ends_datumFromPort number text, ends_dispatch_dots number next_rest]
    exact .good ⟨rfl, next_rest⟩
  · rw [chars, List.cons_append] at text
    rw [ends_datumFromPort number text, dispatch_symol number start, readSymol, ends_bind]
    apply (symolLoop_reads identifier delimited n next_rest).mono
    · intro r t read
      apply Back.good
      rw [read.1, ← chars, String.ofList_toList]
      exact ⟨rfl, read.2⟩
    · intro e short
      rw [chars, List.length_cons]
      omega

theorem string_back {s : String} (text : p.rest = dquote :: s.toList ++ [dquote] ++ rest) :
    Ends (datumFromPort number (n + 1)) p (Back (readable (.string s)) (.string s) rest) fun _ =>
      readable (.string s) = true → n ≤ s.toList.length := by
  rw [List.append_assoc, List.cons_append, List.singleton_append] at text
  rw [ends_datumFromPort number text, dispatch_string, readString]
  cases good : readable (.string s) with
  | true =>
    rw [readable, List.all_eq_true] at good
    rw [ends_bind]
    have ordinary (c : Char) (member : c ∈ s.toList) : Ordinary c := by
      simpa [Ordinary] using good c member
    apply (stringLoop_reads ordinary n next_rest).mono
    · intro r t read
      apply Back.good
      rw [read.1, String.ofList_toList]
      exact ⟨rfl, read.2⟩
    · intro e short _
      exact short
  | false =>
    rw [readable, List.all_eq_false] at good
    obtain ⟨c, member, special⟩ := good
    apply back_of_returns
    intro r t returned
    simp only [returns_bind, returns_pure] at returned
    obtain ⟨w, q, loop, rfl, rfl⟩ := returned
    have bad : ∃ c ∈ s.toList, ¬ Ordinary c := ⟨c, member, by simpa [Ordinary] using special⟩
    intro same
    apply stringLoop_differs bad n next_rest loop
    rw [← String.toList_ofList (l := w), Datum.string.inj same]

theorem charTable_named : ∀ entry ∈ charTable, ∃ x y w,
    entry.2 = '#' :: backslash :: x :: y :: w ∧ delimeter (some y) = false := by
  intro entry member
  simp only [charTable, List.mem_cons, List.not_mem_nil, or_false] at member
  rcases member with rfl | rfl | rfl | rfl | rfl | rfl | rfl | rfl | rfl | rfl | rfl | rfl
  all_goals exact ⟨_, _, _, rfl, rfl⟩

/- A character is read back unless its name is written, where the second letter is no delimiter, or
   another character has its byte. -/
theorem char_back {c : Char} (delimited : Delimited rest) (text : p.rest = putChar c ++ rest) :
    Ends (datumFromPort number (n + 2)) p (Back (readable (.char c)) (.char c) rest) fun _ =>
      readable (.char c) = true → False := by
  rw [readable]
  cases named : charTable.lookup c with
  | none =>
    rw [putChar, named] at text
    have text : p.rest = '#' :: backslash :: byteChar c :: rest := text
    rw [ends_character number text, readCharacter, ends_bind, ends_ppeek, next_rest]
    rw [Delimited] at delimited
    rw [if_pos delimited]
    by_cases byte : byteChar c = c
    · rw [byte, decide_eq_true rfl]
      exact .good ⟨rfl, next_rest⟩
    · rw [decide_eq_false byte]
      exact .bad fun same => byte (Datum.char.inj same)
  | some name =>
    rw [putChar, named] at text
    obtain ⟨before, behind, table, _⟩ := List.lookup_eq_some_iff.1 named
    obtain ⟨x, y, w, written, notDelimiter⟩ :=
      charTable_named (c, name) (by rw [table]; exact List.mem_append_right _ List.mem_cons_self)
    rw [show name = '#' :: backslash :: x :: y :: w from written] at text
    rw [ends_character number text, readCharacter, ends_bind, ends_ppeek, next_rest,
      List.append_eq, List.cons_append, List.head?_cons,
      if_neg (by rw [notDelimiter]; exact Bool.false_ne_true)]
    exact fun good => absurd good Bool.false_ne_true

end leaves

section quotes
variable {n : Nat} {p : Port} {E : Stop → Prop} {c : Char} {w : List Char}

theorem ends_quoteType_comma {Q : String → Port → Prop} (notAt : c ≠ '@') (text : p.rest = c :: w) :
    Ends (quoteType ',') p Q E ↔ Q "unquote" p := by
  rw [quoteType, if_neg (by decide), if_neg (by decide), ends_bind, ends_ppeek, text,
    List.head?_cons, if_neg (fun same => notAt (Option.some.inj same)), ends_pure]

theorem ends_quoteType_at {Q : String → Port → Prop} (text : p.rest = '@' :: w) :
    Ends (quoteType ',') p Q E ↔ Q "unquote-splicing" (p.next '@' w) := by
  rw [quoteType, if_neg (by decide), if_neg (by decide), ends_bind, ends_ppeek, text,
    List.head?_cons, if_pos rfl, ends_bind, ends_pread text, ends_pure]

theorem ends_syntaxType_comma {Q : String → Port → Prop} (notAt : c ≠ '@')
    (text : p.rest = c :: w) : Ends (syntaxType ',') p Q E ↔ Q "unsyntax" p := by
  rw [syntaxType, if_neg (by decide), if_neg (by decide), ends_bind, ends_ppeek, text,
    List.head?_cons, if_neg (fun same => notAt (Option.some.inj same)), ends_pure]

theorem ends_syntaxType_at {Q : String → Port → Prop} (text : p.rest = '@' :: w) :
    Ends (syntaxType ',') p Q E ↔ Q "usyntax-splicing" (p.next '@' w) := by
  rw [syntaxType, if_neg (by decide), if_neg (by decide), ends_bind, ends_ppeek, text,
    List.head?_cons, if_pos rfl, ends_bind, ends_pread text, ends_pure]

variable {Q : Datum → Port → Prop}

theorem ends_quote (char : quote c = true) (text : p.rest = c :: w) :
    Ends (datumFromPort number (n + 2)) p Q E ↔ Ends (quoteType c) (p.next c w)
      (fun name t => Ends (datumFromPort number n) t (fun r => Q (.quoted name r)) E) E := by
  rw [ends_datumFromPort number text, dispatch_quote number char, readQuote, ends_bind]
  simp only [datumFromPort, ends_bind, ends_pure]

theorem ends_sharped_quote (char : quote c = true) (text : p.rest = '#' :: c :: w) :
    Ends (datumFromPort number (n + 2)) p Q E ↔ Ends (syntaxType c) ((p.next '#' (c :: w)).next c w)
      (fun name t => Ends (datumFromPort number n) t (fun r => Q (.quoted name r)) E) E := by
  have arm : Ends (readSharped number (n + 1)) (p.next '#' (c :: w)) Q E ↔
      Ends (do
        let name ← syntaxType c
        let d ← dispatch number n (← pread)
        pure (.quoted name d)) ((p.next '#' (c :: w)).next c w) Q E := by
    rw [readSharped, ends_bind, ends_pread next_rest]
    simp only [quote, List.contains_eq_mem, decide_eq_true_iff, List.mem_cons, List.not_mem_nil,
      or_false] at char
    rcases char with rfl | rfl | rfl <;> exact Iff.rfl
  rw [ends_datumFromPort number text, dispatch_sharp, arm, ends_bind]
  simp only [datumFromPort, ends_bind, ends_pure]

end quotes

/-- The marks in front of a datum that stand for a list of a keyword and the datum. -/
inductive Mark where
  | quote
  | quasiquote
  | unquote
  | splicing
  | sharpQuote
  | sharpQuasiquote
  | sharpUnquote
  | sharpSplicing
  deriving DecidableEq, Repr

def Mark.text : Mark → List Char
  | .quote => [apostrophe]
  | .quasiquote => [backquote]
  | .unquote => [',']
  | .splicing => [',', '@']
  | .sharpQuote => ['#', apostrophe]
  | .sharpQuasiquote => ['#', backquote]
  | .sharpUnquote => ['#', ',']
  | .sharpSplicing => ['#', ',', '@']

/-- The keyword of quote-type or syntax-type. -/
def Mark.name : Mark → String
  | .quote => "quote"
  | .quasiquote => "quasiquote"
  | .unquote => "unquote"
  | .splicing => "unquote-splicing"
  | .sharpQuote => "syntax"
  | .sharpQuasiquote => "quasisyntax"
  | .sharpUnquote => "unsyntax"
  | .sharpSplicing => "usyntax-splicing"

theorem ends_mark (mark : Mark) {c : Char} {w : List Char} {n : Nat} {p : Port}
    {Q : Datum → Port → Prop} {E : Stop → Prop} (notAt : c ≠ '@')
    (text : p.rest = mark.text ++ c :: w) :
    ∃ p' : Port, p'.rest = c :: w ∧ (Ends (datumFromPort number (n + 2)) p Q E ↔
      Ends (datumFromPort number n) p' (fun r => Q (.quoted mark.name r)) E) := by
  cases mark with
  | quote => exact ⟨_, next_rest, ends_quote number rfl text⟩
  | quasiquote => exact ⟨_, next_rest, ends_quote number rfl text⟩
  | unquote =>
    refine ⟨p.next ',' (c :: w), next_rest, ?_⟩
    rw [ends_quote number rfl text]
    exact ends_quoteType_comma notAt next_rest
  | splicing =>
    refine ⟨(p.next ',' ('@' :: c :: w)).next '@' (c :: w), next_rest, ?_⟩
    rw [ends_quote number rfl text]
    exact ends_quoteType_at next_rest
  | sharpQuote => exact ⟨_, next_rest, ends_sharped_quote number rfl text⟩
  | sharpQuasiquote => exact ⟨_, next_rest, ends_sharped_quote number rfl text⟩
  | sharpUnquote =>
    refine ⟨(p.next '#' (',' :: c :: w)).next ',' (c :: w), next_rest, ?_⟩
    rw [ends_sharped_quote number rfl text]
    exact ends_syntaxType_comma notAt next_rest
  | sharpSplicing =>
    refine ⟨((p.next '#' (',' :: '@' :: c :: w)).next ',' ('@' :: c :: w)).next '@' (c :: w),
      next_rest, ?_⟩
    rw [ends_sharped_quote number rfl text]
    exact ends_syntaxType_at next_rest

theorem quoteText_mark {kw : Datum} {q : List Char} (abbreviates : quoteText kw = some q) :
    ∃ mark : Mark, q = mark.text ∧
      (q ≠ ['#', ',', '@'] → kw = .symbol mark.name) ∧
      (q = ['#', ',', '@'] → kw ≠ .symbol mark.name) := by
  unfold quoteText at abbreviates
  split at abbreviates
  all_goals cases abbreviates
  · exact ⟨.quote, rfl, fun _ => rfl, fun same => absurd same (by decide)⟩
  · exact ⟨.quasiquote, rfl, fun _ => rfl, fun same => absurd same (by decide)⟩
  · exact ⟨.unquote, rfl, fun _ => rfl, fun same => absurd same (by decide)⟩
  · exact ⟨.splicing, rfl, fun _ => rfl, fun same => absurd same (by decide)⟩
  · exact ⟨.sharpQuote, rfl, fun _ => rfl, fun same => absurd same (by decide)⟩
  · exact ⟨.sharpQuasiquote, rfl, fun _ => rfl, fun same => absurd same (by decide)⟩
  · exact ⟨.sharpUnquote, rfl, fun _ => rfl, fun same => absurd same (by decide)⟩
  · refine ⟨.sharpSplicing, rfl, fun other => absurd rfl other, ?_⟩
    intro _ same
    exact absurd (Datum.symbol.inj same) (by decide)

theorem ends_quoted {kw : Datum} {q : List Char} (abbreviates : quoteText kw = some q) :
    ∃ name, (q ≠ ['#', ',', '@'] → kw = .symbol name) ∧ (q = ['#', ',', '@'] → kw ≠ .symbol name) ∧
      ∀ {c : Char} {w : List Char} {n : Nat} {p : Port} {Q : Datum → Port → Prop} {E : Stop → Prop},
        c ≠ '@' → p.rest = q ++ c :: w →
        ∃ p' : Port, p'.rest = c :: w ∧ (Ends (datumFromPort number (n + 2)) p Q E ↔
          Ends (datumFromPort number n) p' (fun r => Q (.quoted name r)) E) := by
  obtain ⟨mark, rfl, keyword, misspelt⟩ := quoteText_mark abbreviates
  exact ⟨mark.name, keyword, misspelt, ends_mark number mark⟩

theorem putChar_opens (c : Char) : ∃ w, putChar c = '#' :: w := by
  rw [putChar]
  cases named : charTable.lookup c with
  | none => exact ⟨_, rfl⟩
  | some name =>
    obtain ⟨before, behind, table, _⟩ := List.lookup_eq_some_iff.1 named
    obtain ⟨x, y, w, written, _⟩ :=
      charTable_named (c, name) (by rw [table]; exact List.mem_append_right _ List.mem_cons_self)
    exact ⟨_, written⟩

theorem quoteText_opens {kw : Datum} {q : List Char} (abbreviates : quoteText kw = some q) :
    ∃ c w, q = c :: w ∧ opening c = true ∧ (quote c = true ∨ c = '#') := by
  unfold quoteText at abbreviates
  split at abbreviates
  all_goals cases abbreviates
  all_goals exact ⟨_, _, rfl, rfl, by decide⟩

theorem putDatum_pair {a d : Datum} {text : List Char} (put : putDatum (.pair a d) = .ok text) :
    (∃ q x d' tx, quoteText a = some q ∧ d = .pair x d' ∧ putDatum x = .ok tx ∧ text = q ++ tx) ∨
    (quoteText a = none ∧ ∃ ta tr, putDatum a = .ok ta ∧ putRest d = .ok tr ∧
      text = '(' :: (ta ++ (tr ++ [')']))) := by
  unfold putDatum at put
  split at put
  · rename_i q x d' abbreviates
    obtain ⟨tx, inner, eq⟩ := except_bind_ok.1 put
    exact Or.inl ⟨q, x, d', tx, abbreviates, rfl, inner, (except_pure_ok.1 eq).symm⟩
  · cases put
  · rename_i plain
    obtain ⟨ta, first, put⟩ := except_bind_ok.1 put
    obtain ⟨tr, others, eq⟩ := except_bind_ok.1 put
    refine Or.inr ⟨plain, ta, tr, first, others, ?_⟩
    rw [← except_pure_ok.1 eq, List.cons_append, List.cons_append, List.append_assoc]

theorem putDatum_vector {x : Datum} {xs : List Datum} {text : List Char}
    (put : putDatum (.vector (x :: xs)) = .ok text) :
    ∃ ta tr, putDatum x = .ok ta ∧ putElements xs = .ok tr ∧
      text = '#' :: '(' :: (ta ++ (tr ++ [')'])) := by
  rw [putDatum] at put
  obtain ⟨ta, first, put⟩ := except_bind_ok.1 put
  obtain ⟨tr, others, eq⟩ := except_bind_ok.1 put
  refine ⟨ta, tr, first, others, ?_⟩
  rw [← except_pure_ok.1 eq, List.cons_append, List.cons_append, List.cons_append,
    List.cons_append, List.append_assoc]

theorem putRest_pair {a d : Datum} {text : List Char} (put : putRest (.pair a d) = .ok text) :
    ∃ ta tr, putDatum a = .ok ta ∧ putRest d = .ok tr ∧ text = ' ' :: (ta ++ tr) := by
  rw [putRest] at put
  obtain ⟨ta, first, put⟩ := except_bind_ok.1 put
  obtain ⟨tr, others, eq⟩ := except_bind_ok.1 put
  exact ⟨ta, tr, first, others, by rw [← except_pure_ok.1 eq, List.cons_append]⟩

theorem text_opens {d : Datum} {text : List Char} (plain : Plain number d)
    (put : putDatum d = .ok text) : ∃ c w, text = c :: w ∧ Opens c w := by
  cases plain with
  | null =>
    cases put
    exact ⟨_, _, rfl, .of_opening _ rfl⟩
  | bool b =>
    cases put
    exact ⟨_, _, rfl, .of_opening _ rfl⟩
  | char c =>
    cases put
    obtain ⟨w, written⟩ := putChar_opens c
    exact ⟨_, w, written, .of_opening _ rfl⟩
  | string s =>
    cases put
    exact ⟨_, _, rfl, .of_opening _ rfl⟩
  | fixnum n => cases put
  | symbol produced =>
    cases put
    exact symbol_opens (readerSymbol_of_produced number produced)
  | pair first second =>
    rcases putDatum_pair put with ⟨q, x, d', tx, abbreviates, _, _, rfl⟩ | ⟨_, ta, tr, _, _, rfl⟩
    · obtain ⟨c, w, rfl, checked, _⟩ := quoteText_opens abbreviates
      exact ⟨c, w ++ tx, rfl, .of_opening _ checked⟩
    · exact ⟨_, _, rfl, .of_opening _ rfl⟩
  | @vector xs members =>
    cases xs with
    | nil => cases put
    | cons x xs =>
      obtain ⟨ta, tr, _, _, rfl⟩ := putDatum_vector put
      exact ⟨_, _, rfl, .of_opening _ rfl⟩

theorem rest_delimited {d : Datum} {text rest : List Char} (put : putRest d = .ok text) :
    Delimited (text ++ ')' :: rest) := by
  cases d with
  | null =>
    cases put
    rfl
  | pair a d =>
    obtain ⟨ta, tr, _, _, rfl⟩ := putRest_pair put
    rfl
  | _ => cases put

section elements
variable {n : Nat} {p : Port} {rest : List Char}

theorem cons_back {a d : Datum} {ta tr : List Char} {goodA goodD : Bool} {c : Char} {w : List Char}
    (opens : ta = c :: w ∧ Opens c w)
    (first : ∀ p : Port, p.rest = ta ++ (tr ++ ')' :: rest) →
      Ends (datumFromPort number n) p (Back goodA a (tr ++ ')' :: rest)) fun _ =>
        goodA = true → n ≤ 2 * ta.length)
    (others : ∀ p : Port, p.rest = tr ++ ')' :: rest →
      Ends (readList number n) p (Back goodD d rest) fun _ =>
        goodD = true → n ≤ 2 * tr.length + 2)
    (text : p.rest = ta ++ (tr ++ ')' :: rest)) :
    Ends (readList number (n + 1)) p (Back (goodA && goodD) (.pair a d) rest) fun _ =>
      (goodA && goodD) = true → n ≤ 2 * ta.length + 2 * tr.length + 2 := by
  obtain ⟨rfl, opens⟩ := opens
  have second (r : Datum) (t : Port) (read : Back goodA a (tr ++ ')' :: rest) r t) :
      Ends (do
        let d ← readList number n
        pure (.pair r d)) t (Back (goodA && goodD) (.pair a d) rest) fun _ =>
          (goodA && goodD) = true → n ≤ 2 * (c :: w).length + 2 * tr.length + 2 := by
    cases goodA with
    | false =>
      apply back_of_returns
      intro r' t' returned
      simp only [returns_bind, returns_pure] at returned
      obtain ⟨d', t'', _, rfl, rfl⟩ := returned
      intro same
      exact read.2 rfl (Datum.pair.inj same).1
    | true =>
      obtain ⟨rfl, left⟩ := read.1 rfl
      rw [ends_bind, Bool.true_and]
      apply (others t left).mono
      · intro d' t' later
        rw [ends_pure]
        constructor
        · intro good
          rw [(later.1 good).1]
          exact ⟨rfl, (later.1 good).2⟩
        · intro bad same
          exact later.2 bad (Datum.pair.inj same).2
      · intro e short good
        have := short good
        omega
  have start := first p text
  rw [ends_datumFromPort number text] at start
  have loop : Ends (do
      let a ← dispatch number n (some c)
      let d ← readList number n
      pure (.pair a d)) (p.next c (w ++ (tr ++ ')' :: rest)))
      (Back (goodA && goodD) (.pair a d) rest) fun _ =>
        (goodA && goodD) = true → n ≤ 2 * (c :: w).length + 2 * tr.length + 2 := by
    rw [ends_bind]
    apply start.mono second
    intro e short good
    have := short (Bool.and_eq_true_iff.1 good).1
    omega
  rw [readList, ends_bind, ends_pread text]
  dsimp only
  rw [if_neg opens.notClose, if_neg (by rw [opens.visible]; exact Bool.false_ne_true),
    if_neg opens.notComment, ends_bind, ends_ppeek, if_neg]
  · exact loop
  · rw [next_rest]
    rintro ⟨dot, notDot⟩
    obtain ⟨v, rfl⟩ := opens.dots dot
    exact notDot rfl

end elements

/-- What is to be shown of a datum, by induction on what put-datum does with it. -/
def DatumBack (d : Datum) : Prop :=
  Plain number d → ∀ {text rest : List Char} (n : Nat) (p : Port), putDatum d = .ok text →
    Delimited rest → p.rest = text ++ rest →
    Ends (datumFromPort number n) p (Back (readable d) d rest) fun _ =>
      readable d = true → n ≤ 2 * text.length

/-- The same of what is behind the first element of a list. -/
def RestBack (d : Datum) : Prop :=
  Plain number d → ∀ {text rest : List Char} (n : Nat) (p : Port), putRest d = .ok text →
    p.rest = text ++ ')' :: rest →
    Ends (readList number n) p (Back (readableRest d) d rest) fun _ =>
      readableRest d = true → n ≤ 2 * text.length + 2

def ElementsBack (xs : List Datum) : Prop :=
  (∀ x ∈ xs, Plain number x) → ∀ {text rest : List Char} (n : Nat) (p : Port),
    putElements xs = .ok text → p.rest = text ++ ')' :: rest →
    Ends (readList number n) p (Back (readableElements xs) (listOf xs) rest) fun _ =>
      readableElements xs = true → n ≤ 2 * text.length + 2

section cases
variable {number}

theorem nothing_read {c : ReadM Datum} {p : Port} {d : Datum} {good : Bool} {rest : List Char}
    {n m : Nat} (stops : c p = .error .diverges) (few : n ≤ m) :
    Ends c p (Back good d rest) fun _ => good = true → n ≤ m := by
  rw [Ends, stops]
  exact fun _ => few

theorem datum_no_step (p : Port) : datumFromPort number 0 p = .error .diverges := by
  rw [datumFromPort]
  simp only [bind, StateT.bind]
  cases h : pread p with
  | error e =>
    rw [pread] at h
    split at h <;> cases h
  | ok r => rfl

theorem elements_back {a d : Datum} {ta tr rest : List Char} {goodD : Bool} (n : Nat) {p : Port}
    (plain : Plain number a) (put : putDatum a = .ok ta) (first : DatumBack number a)
    (delimited : Delimited (tr ++ ')' :: rest))
    (others : ∀ n (p : Port), p.rest = tr ++ ')' :: rest →
      Ends (readList number n) p (Back goodD d rest) fun _ => goodD = true → n ≤ 2 * tr.length + 2)
    (text : p.rest = ta ++ (tr ++ ')' :: rest)) :
    Ends (readList number n) p (Back (readable a && goodD) (.pair a d) rest) fun _ =>
      (readable a && goodD) = true → n ≤ 2 * ta.length + 2 * tr.length + 3 := by
  cases n with
  | zero => exact nothing_read rfl (Nat.zero_le _)
  | succ n =>
    obtain ⟨c, w, begins⟩ := text_opens number plain put
    apply (cons_back number begins (fun p => first plain n p put delimited) (others n) text).mono
    · intro r t read
      exact read
    · intro e short good
      exact Nat.succ_le_succ (short good)

theorem behind_back {a d : Datum} {ta tr rest : List Char} {goodD : Bool} (n : Nat) {p : Port}
    (plain : Plain number a) (put : putDatum a = .ok ta) (first : DatumBack number a)
    (delimited : Delimited (tr ++ ')' :: rest))
    (others : ∀ n (p : Port), p.rest = tr ++ ')' :: rest →
      Ends (readList number n) p (Back goodD d rest) fun _ => goodD = true → n ≤ 2 * tr.length + 2)
    (text : p.rest = ' ' :: (ta ++ tr) ++ ')' :: rest) :
    Ends (readList number n) p (Back (readable a && goodD) (.pair a d) rest) fun _ =>
      (readable a && goodD) = true → n ≤ 2 * (' ' :: (ta ++ tr)).length + 2 := by
  rw [List.cons_append, List.append_assoc] at text
  cases n with
  | zero => exact nothing_read rfl (Nat.zero_le _)
  | succ n =>
    rw [ends_readList_space number text]
    apply (elements_back n plain put first delimited others next_rest).mono
    · intro r t read
      exact read
    · intro e short good
      have := short good
      simp only [List.length_cons, List.length_append]
      omega

theorem rest_pair_back {a d : Datum} (first : DatumBack number a) (others : RestBack number d) :
    RestBack number (.pair a d) := by
  intro plain text rest n p put begins
  obtain ⟨ta, tr, putA, putD, rfl⟩ := putRest_pair put
  cases plain with
  | pair plainA plainD =>
    rw [readableRest]
    exact behind_back n plainA putA first (rest_delimited putD)
      (fun n p => others plainD n p putD) begins

theorem rest_null_back : RestBack number .null := by
  intro plain text rest n p put begins
  cases put
  cases n with
  | zero => exact nothing_read rfl (Nat.zero_le _)
  | succ n =>
    rw [ends_readList_close number begins, readableRest]
    exact .good ⟨rfl, next_rest⟩

theorem elements_nil_back : ElementsBack number [] := by
  intro plain text rest n p put begins
  cases put
  exact rest_null_back .null n p rfl begins

theorem elements_cons_back {x : Datum} {xs : List Datum} (first : DatumBack number x)
    (others : ElementsBack number xs) : ElementsBack number (x :: xs) := by
  intro plain text rest n p put begins
  rw [putElements_eq, listOf, List.foldr_cons] at put
  obtain ⟨ta, tr, putA, putD, rfl⟩ := putRest_pair put
  have plainD (y : Datum) (member : y ∈ xs) : Plain number y :=
    plain y (List.mem_cons_of_mem x member)
  have delimited : Delimited (tr ++ ')' :: rest) := rest_delimited putD
  rw [← listOf, ← putElements_eq] at putD
  rw [readableElements]
  exact behind_back n (plain x List.mem_cons_self) putA first delimited
    (fun n p => others plainD n p putD) begins

theorem readable_pair {a d : Datum} (proper : quoteText a = none) :
    readable (.pair a d) = (readable a && readableRest d) := by
  conv_lhs => unfold readable
  rw [proper]

theorem pair_back {a d : Datum} (proper : quoteText a = none) (first : DatumBack number a)
    (others : RestBack number d) : DatumBack number (.pair a d) := by
  intro plain text rest n p put delimited begins
  rcases putDatum_pair put with ⟨q, x, d', tx, abbreviates, _⟩ | ⟨_, ta, tr, putA, putD, rfl⟩
  · rw [proper] at abbreviates
    cases abbreviates
  cases plain with
  | pair plainA plainD =>
    rw [List.cons_append, List.append_assoc, List.append_assoc, List.singleton_append] at begins
    rw [readable_pair proper]
    cases n with
    | zero => exact nothing_read (datum_no_step p) (Nat.zero_le _)
    | succ n =>
      rw [ends_datumFromPort number begins, dispatch_open]
      apply (elements_back n plainA putA first (rest_delimited putD)
        (fun n p => others plainD n p putD) next_rest).mono
      · intro r t read
        exact read
      · intro e short good
        have := short good
        simp only [List.length_cons, List.length_append, List.length_nil]
        omega

theorem vector_of_list {xs : List Datum} {good : Bool} {rest : List Char} {d : Datum} {t : Port}
    {P : Prop} (read : Back good (listOf xs) rest d t) :
    Ends (listToVector d) t (Back good (.vector xs) rest) fun _ => good = true → P := by
  rw [listToVector]
  cases elements : d.elements with
  | none =>
    intro isGood
    rw [(read.1 isGood).1, elements_listOf] at elements
    cases elements
  | some ys =>
    constructor
    · intro isGood
      rw [(read.1 isGood).1, elements_listOf] at elements
      cases elements
      exact ⟨rfl, (read.1 isGood).2⟩
    · intro bad eq
      rw [elements_eq elements, Datum.vector.inj eq] at read
      exact read.2 bad rfl

theorem vector_back {x : Datum} {xs : List Datum} (first : DatumBack number x)
    (others : ElementsBack number xs) : DatumBack number (.vector (x :: xs)) := by
  intro plain text rest n p put delimited begins
  obtain ⟨ta, tr, putA, putD, rfl⟩ := putDatum_vector put
  cases plain with
  | vector members =>
    have plainD (y : Datum) (member : y ∈ xs) : Plain number y :=
      members y (List.mem_cons_of_mem x member)
    have putL := putD
    rw [putElements_eq] at putL
    rw [List.cons_append, List.cons_append, List.append_assoc, List.append_assoc,
      List.singleton_append] at begins
    rw [readable]
    rcases n with _ | _ | n
    · exact nothing_read (datum_no_step p) (Nat.zero_le _)
    · rw [ends_datumFromPort number begins, dispatch_sharp]
      exact nothing_read rfl (by simp only [List.length_cons]; omega)
    · rw [ends_datumFromPort number begins, dispatch_sharp, ends_sharped_open number next_rest,
        ends_bind]
      apply (elements_back n (members x List.mem_cons_self) putA first (rest_delimited putL)
        (fun n p => others plainD n p putD) next_rest).mono
      · intro r t read
        rw [show Datum.pair x (listOf xs) = listOf (x :: xs) from rfl] at read
        exact vector_of_list read
      · intro e short good
        have := short good
        simp only [List.length_cons, List.length_append, List.length_nil]
        omega

theorem readable_quoted {kw x d : Datum} {q : List Char} (abbreviates : quoteText kw = some q) :
    readable (.pair kw (.pair x d)) = true ↔
      d = .null ∧ q ≠ ['#', ',', '@'] ∧ readable x = true := by
  conv_lhs => unfold readable
  rw [abbreviates]
  cases d <;> simp

theorem quoted_back {kw x d : Datum} {q : List Char} (abbreviates : quoteText kw = some q)
    (inner : DatumBack number x) : DatumBack number (.pair kw (.pair x d)) := by
  intro plain text rest n p put delimited begins
  rcases putDatum_pair put with ⟨q', x', d', tx, abbreviates', eq, putX, rfl⟩ | ⟨plainly, _⟩
  · obtain ⟨rfl, rfl⟩ := Datum.pair.inj eq
    rw [abbreviates] at abbreviates'
    cases abbreviates'
    cases plain with
    | pair plainK plainR =>
    cases plainR with
    | pair plainX plainD =>
    obtain ⟨c, w, rfl, opens⟩ := text_opens number plainX putX
    obtain ⟨c', w', written, _, char⟩ := quoteText_opens abbreviates
    rw [List.append_assoc] at begins
    rcases n with _ | _ | n
    · exact nothing_read (datum_no_step p) (Nat.zero_le _)
    · rw [written, List.cons_append] at begins
      rw [ends_datumFromPort number begins]
      have few : 0 + 1 ≤ 2 * (q ++ c :: w).length := by
        rw [List.length_append, List.length_cons]
        omega
      rcases char with char | rfl
      · rw [dispatch_quote number char]
        exact nothing_read rfl few
      · rw [dispatch_sharp]
        exact nothing_read rfl few
    · obtain ⟨name, same, other, reads⟩ := ends_quoted number abbreviates
      obtain ⟨p', left, ends⟩ := reads opens.notAt begins
      rw [ends]
      apply (inner plainX n p' putX delimited left).mono
      · intro r t read
        constructor
        · intro good
          obtain ⟨rfl, spelt, good⟩ := (readable_quoted abbreviates).1 good
          rw [same spelt, (read.1 good).1]
          exact ⟨rfl, (read.1 good).2⟩
        · intro bad eq
          obtain ⟨eqK, eqR⟩ := Datum.pair.inj eq
          obtain ⟨eqX, eqD⟩ := Datum.pair.inj eqR
          apply Bool.false_ne_true
          rw [← bad, readable_quoted abbreviates]
          refine ⟨eqD.symm, fun misspelt => other misspelt eqK.symm, ?_⟩
          cases good : readable x with
          | true => rfl
          | false => exact absurd eqX (read.2 good)
      · intro e short good
        have := short ((readable_quoted abbreviates).1 good).2.2
        rw [written, List.length_append, List.length_cons]
        omega
  · rw [abbreviates] at plainly
    cases plainly

theorem null_back : DatumBack number .null := by
  intro plain text rest n p put delimited begins
  cases put
  have begins : p.rest = '(' :: ')' :: rest := begins
  rcases n with _ | _ | n
  · exact nothing_read (datum_no_step p) (Nat.zero_le _)
  · rw [ends_datumFromPort number begins, dispatch_open]
    exact nothing_read rfl (by decide)
  · rw [ends_datumFromPort number begins, dispatch_open, ends_readList_close number next_rest]
    exact .good ⟨rfl, next_rest⟩

theorem bool_back (b : Bool) : DatumBack number (.bool b) := by
  intro plain text rest n p put delimited begins
  cases put
  have begins : p.rest = '#' :: (if b then 't' else 'f') :: rest := begins
  rcases n with _ | _ | n
  · exact nothing_read (datum_no_step p) (Nat.zero_le _)
  · rw [ends_datumFromPort number begins, dispatch_sharp]
    exact nothing_read rfl (by simp)
  · rw [ends_datumFromPort number begins, dispatch_sharp, readSharped, ends_bind,
      ends_pread next_rest]
    cases b <;> exact .good ⟨rfl, next_rest⟩

theorem datum_string_back (s : String) : DatumBack number (.string s) := by
  intro plain text rest n p put delimited begins
  cases put
  cases n with
  | zero => exact nothing_read (datum_no_step p) (Nat.zero_le _)
  | succ n =>
    apply (string_back number begins).mono
    · intro r t read
      exact read
    · intro e short good
      have := short good
      simp only [List.length_append, List.length_cons, List.length_nil]
      omega

theorem datum_char_back (c : Char) : DatumBack number (.char c) := by
  intro plain text rest n p put delimited begins
  cases put
  rcases n with _ | _ | n
  · exact nothing_read (datum_no_step p) (Nat.zero_le _)
  · obtain ⟨w, written⟩ := putChar_opens c
    rw [written] at begins ⊢
    rw [ends_datumFromPort number begins, dispatch_sharp]
    exact nothing_read rfl (by rw [List.length_cons]; omega)
  · apply (char_back number delimited begins).mono
    · intro r t read
      exact read
    · intro e never good
      exact absurd good never

theorem datum_symbol_back (s : String) : DatumBack number (.symbol s) := by
  intro plain text rest n p put delimited begins
  cases put
  cases plain with
  | symbol produced =>
    apply (symbol_back number (readerSymbol_of_produced number produced) delimited begins).mono
    · intro r t read
      exact read
    · intro e short _
      exact short

/- Induction on what put-datum does. -/
theorem datum_back (d : Datum) : DatumBack number d := by
  refine (putDatum.mutual_induct (DatumBack number) (ElementsBack number) (RestBack number)
    datum_string_back datum_char_back ?quoted ?failing ?pair ?empty ?vector null_back
    datum_symbol_back bool_back ?eof ?number ?restPair rest_null_back ?improper elements_nil_back
    ?elements).1 d
  case quoted =>
    intro kw q x d abbreviates inner
    exact quoted_back abbreviates inner
  case failing =>
    intro a d q abbreviates notPair plain text rest n p put
    rcases putDatum_pair put with ⟨_, x, d', _, _, rfl, _⟩ | ⟨plainly, _⟩
    · exact absurd rfl (notPair x d')
    · rw [abbreviates] at plainly
      cases plainly
  case pair =>
    intro a d proper first others
    exact pair_back proper first others
  case empty =>
    intro plain text rest n p put
    cases put
  case vector =>
    intro x xs first others
    exact vector_back first others
  case eof =>
    intro plain
    cases plain
  case number =>
    intro m plain text rest n p put
    cases put
  case restPair =>
    intro a d first others
    exact rest_pair_back first others
  case improper =>
    intro d notPair notNull plain text rest n p put
    rw [putRest] at put
    · cases put
    · exact notPair
    · exact notNull
  case elements =>
    intro x xs first others
    exact elements_cons_back first others

end cases

theorem put_of_readable (d : Datum) : readable d = true → ∃ text, putDatum d = .ok text := by
  refine (putDatum.mutual_induct (fun d => readable d = true → ∃ text, putDatum d = .ok text)
    (fun xs => readableElements xs = true → ∃ text, putElements xs = .ok text)
    (fun d => readableRest d = true → ∃ text, putRest d = .ok text)
    (fun s _ => ⟨_, rfl⟩) (fun c _ => ⟨_, rfl⟩) ?quoted ?failing ?pair ?empty ?vector
    (fun _ => ⟨_, rfl⟩) (fun s _ => ⟨_, rfl⟩) (fun b _ => ⟨_, rfl⟩) ?eof ?number ?restPair
    (fun _ => ⟨_, rfl⟩) ?improper (fun _ => ⟨_, rfl⟩) ?elements).1 d
  case quoted =>
    intro kw q x d abbreviates inner good
    obtain ⟨tx, put⟩ := inner ((readable_quoted abbreviates).1 good).2.2
    unfold putDatum
    rw [abbreviates]
    dsimp only
    rw [put]
    exact ⟨_, rfl⟩
  case failing =>
    intro a d q abbreviates notPair good
    unfold readable at good
    rw [abbreviates] at good
    cases d with
    | pair x d => exact absurd rfl (notPair x d)
    | _ => cases good
  case pair =>
    intro a d proper first others good
    rw [readable_pair proper, Bool.and_eq_true] at good
    obtain ⟨ta, putA⟩ := first good.1
    obtain ⟨tr, putD⟩ := others good.2
    unfold putDatum
    rw [proper]
    dsimp only
    rw [putA, putD]
    exact ⟨_, rfl⟩
  case empty =>
    intro good
    cases good
  case vector =>
    intro x xs first others good
    rw [readable, Bool.and_eq_true] at good
    obtain ⟨ta, putA⟩ := first good.1
    obtain ⟨tr, putD⟩ := others good.2
    rw [putDatum, putA, putD]
    exact ⟨_, rfl⟩
  case eof =>
    intro good
    cases good
  case number =>
    intro m good
    cases good
  case restPair =>
    intro a d first others good
    rw [readableRest, Bool.and_eq_true] at good
    obtain ⟨ta, putA⟩ := first good.1
    obtain ⟨tr, putD⟩ := others good.2
    rw [putRest, putA, putD]
    exact ⟨_, rfl⟩
  case improper =>
    intro d notPair notNull good
    rw [readableRest] at good
    · cases good
    · exact notPair
    · exact notNull
  case elements =>
    intro x xs first others good
    rw [readableElements, Bool.and_eq_true] at good
    obtain ⟨ta, putA⟩ := first good.1
    obtain ⟨tr, putD⟩ := others good.2
    rw [putElements, putA, putD]
    exact ⟨_, rfl⟩

/- The reader gets back what put-datum has written exactly for the readable data. -/
theorem round_trips_iff {d : Datum} (plain : Plain number d) :
    RoundTrips number d ↔ readable d = true := by
  constructor
  · rintro ⟨text, put, reads⟩
    obtain ⟨fuel, t, returned⟩ := reads [] rfl
    have back := datum_back d plain fuel (makePortProxy (text ++ [])) put
      (show Delimited [] from rfl) rfl
    cases good : readable d with
    | true => rfl
    | false =>
      rw [good] at back
      exact absurd rfl ((back.returned returned).2 rfl)
  · intro good
    obtain ⟨text, put⟩ := put_of_readable d good
    refine ⟨text, put, fun rest delimited => ⟨2 * text.length + 1, ?_⟩⟩
    have back := datum_back d plain (2 * text.length + 1) (makePortProxy (text ++ rest)) put
      delimited rfl
    cases result : datumFromPort number (2 * text.length + 1) (makePortProxy (text ++ rest)) with
    | error e =>
      have few := back.failed result good
      omega
    | ok r =>
      obtain ⟨r, t⟩ := r
      have read := (back.returned result).1 good
      exact ⟨t, by rw [Returns, result, read.1]⟩

/-- (quote (a #(#\x "s") () #t)) -/
def quotedSample : Datum := .quoted "quote" (listOf
  [.symbol "a", .vector [.char 'x', .string "s"], .null, .bool true])

theorem produced_sample (s : String) (c : Char) (w : List Char) (fuel : Nat) (t : Port)
    (read : datumFromPort (fun _ _ => none) fuel (makePortProxy (c :: w)) = .ok (.symbol s, t)) :
    Plain (fun _ _ => none) (.symbol s) := .symbol ⟨fuel, c :: w, t, read⟩

theorem round_trips_sample : readable quotedSample = true ∧
    RoundTrips (fun _ _ => none) quotedSample := by
  have quote : Plain (fun _ _ => none) (.symbol "quote") :=
    produced_sample "quote" 'q' ['u', 'o', 't', 'e'] 6 ⟨[], 1, 5⟩ rfl
  have a : Plain (fun _ _ => none) (.symbol "a") := produced_sample "a" 'a' [] 3 ⟨[], 1, 1⟩ rfl
  have vector : Plain (fun _ _ => none) (.vector [.char 'x', .string "s"]) := by
    constructor
    intro x member
    rcases List.mem_cons.1 member with rfl | member
    · exact .char 'x'
    · rw [List.mem_singleton.1 member]
      exact .string "s"
  have plain : Plain (fun _ _ => none) quotedSample :=
    .pair quote (.pair (.pair a (.pair vector (.pair .null (.pair (.bool true) .null)))) .null)
  have good : readable quotedSample = true := rfl
  exact ⟨good, (round_trips_iff (fun _ _ => none) plain).2 good⟩

/- put-datum has no case for a fixnum. -/
theorem fixnum_not_written :
    ¬ ∀ (number : StringToNumber) (d : Datum), Plain number d → RoundTrips number d := by
  intro all
  obtain ⟨text, put, _⟩ := all (fun _ _ => none) (.number (.fixnum 1)) (.fixnum 1)
  cases put

end LGears.ReadBack
