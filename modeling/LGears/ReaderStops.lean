import LGears.ReadBack
import LGears.Library.Machine

/- When the reader stops. The text alone decides where the reader goes next, so its calls are
   followed by a machine that keeps no data; what it keeps of a datum is whether it is a list. -/
namespace LGears.ReaderStops
open StateExcept Reader ReadBack Machine

/-- A datum is read, the rest of a list is read, or a datum has been read. -/
inductive Control where
  | datum
  | list
  | value (isList : Bool)
  deriving DecidableEq, Repr

/-- Where a datum belongs: it is an element of a list, the tail behind a dot, behind a quotation
    mark, or the list of a vector. -/
inductive Frame where
  | element
  | tail
  | quoted
  | vector
  deriving DecidableEq, Repr

structure Place where
  control : Control
  text : List Char
  frames : List Frame
  deriving DecidableEq, Repr

/-- The end of a read: a datum, an error of the reader, an error of a procedure of the host that
    the reader calls, or a block comment without an end. -/
inductive Verdict where
  | returned
  | error
  | hostError
  | openComment
  deriving DecidableEq, Repr

/-- The text behind a line comment. -/
def afterLine (text : List Char) : List Char := (text.dropWhile (· ≠ newline)).drop 1

/-- The text behind a block comment: behind the first # that ends an odd run of bars. -/
def afterBlock (odd : Bool) : List Char → Option (List Char)
  | [] => none
  | c :: rest =>
    if c = '|' then afterBlock (!odd) rest
    else if odd && c = '#' then some rest
    else afterBlock false rest

/-- The text behind the good characters, which must end at a delimiter. -/
def afterWord (good : Char → Bool) (text : List Char) : Option (List Char) :=
  let rest := text.dropWhile good
  if delimeter rest.head? then some rest else none

def escapes : List Char := ['a', 'b', 't', 'n', 'v', 'f', 'r', dquote, backslash]

/-- The text behind a string, whose next character may be escaped. -/
def afterString (escaped : Bool) : List Char → Option (List Char)
  | [] => none
  | c :: rest =>
    if escaped then
      if escapes.contains c then afterString false rest else none
    else if c = dquote then some rest
    else afterString (c = backslash) rest

/-- A datum that is no list, up to the text that is left. -/
def atom (left : Option (List Char)) (fs : List Frame) : Next Place Verdict :=
  match left with
  | some rest => .next ⟨.value false, rest, fs⟩
  | none => .halt .error

/-- The text behind a quotation mark; an at sign behind a comma belongs to it. -/
def afterMark (c : Char) (text : List Char) : List Char :=
  if c = ',' ∧ text.head? = some '@' then text.drop 1 else text

/-- The first character of the number may be any. -/
def radix (good : Char → Bool) (text : List Char) (fs : List Frame) : Next Place Verdict :=
  match text with
  | [] => .halt .hostError
  | _ :: rest => atom (afterWord good rest) fs

def sharped (text : List Char) (fs : List Frame) : Next Place Verdict :=
  match text with
  | [] => .halt .error
  | c :: rest =>
    if c = 't' ∨ c = 'T' then .next ⟨.value false, rest, fs⟩
    else if c = 'f' ∨ c = 'F' then .next ⟨.value false, rest, fs⟩
    else if c = backslash then
      atom (if delimeter (rest.drop 1).head? then some (rest.drop 1) else none) fs
    else if c = 'b' ∨ c = 'B' then radix digit rest fs
    else if c = 'o' ∨ c = 'O' then radix digit rest fs
    else if c = 'd' ∨ c = 'D' then radix digit rest fs
    else if c = 'x' ∨ c = 'X' then radix hexDigit rest fs
    else if quote c then .next ⟨.datum, afterMark c rest, .quoted :: fs⟩
    else if c = '(' then .next ⟨.list, rest, .vector :: fs⟩
    else if c = '|' then
      match afterBlock false rest with
      | some rest => .next ⟨.datum, rest, fs⟩
      | none => .halt .openComment
    else .halt .error

def peculiarAt (c : Char) (rest : List Char) : Bool :=
  if c = '+' ∨ c = '-' then delimeter rest.head?
  else if c = '.' then rest.head? = some '.'
  else false

/-- The text behind a peculiar identifier; the second of three dots is known. -/
def afterPeculiar (c : Char) (rest : List Char) : Option (List Char) :=
  if c = '.' then
    if (rest.drop 1).head? = some '.' then some (rest.drop 2) else none
  else some rest

/-- A datum that begins with c. -/
def datumAt (c : Char) (rest : List Char) (fs : List Frame) : Next Place Verdict :=
  if charWhitespace c then .next ⟨.datum, rest, fs⟩
  else if letter c || initialChar c then atom (afterWord identifierChar rest) fs
  else if peculiarAt c rest then atom (afterPeculiar c rest) fs
  else if numberStart c then atom (afterWord digit rest) fs
  else if c = dquote then atom (afterString false rest) fs
  else if c = '#' then sharped rest fs
  else if quote c then .next ⟨.datum, afterMark c rest, .quoted :: fs⟩
  else if c = '(' then .next ⟨.list, rest, fs⟩
  else if c = ';' then .next ⟨.datum, afterLine rest, fs⟩
  else .halt .error

/-- The rest of a list that goes on with c. -/
def listAt (c : Char) (rest : List Char) (fs : List Frame) : Next Place Verdict :=
  if c = ')' then .next ⟨.value true, rest, fs⟩
  else if charWhitespace c then .next ⟨.list, rest, fs⟩
  else if c = ';' then .next ⟨.list, afterLine rest, fs⟩
  else if c = '.' ∧ rest.head? ≠ some '.' then .next ⟨.datum, rest, .tail :: fs⟩
  else .next ⟨.datum, c :: rest, .element :: fs⟩

/-- What becomes of a datum that has been read. -/
def hand (isList : Bool) (text : List Char) : List Frame → Next Place Verdict
  | [] => .halt .returned
  | .element :: fs => .next ⟨.list, text, fs⟩
  | .tail :: fs =>
    match text with
    | ')' :: rest => .next ⟨.value isList, rest, fs⟩
    | _ => .halt .error
  | .quoted :: fs => .next ⟨.value true, text, fs⟩
  | .vector :: fs => if isList then .next ⟨.value false, text, fs⟩ else .halt .hostError

def step : Place → Next Place Verdict
  | ⟨.datum, [], fs⟩ => .next ⟨.value false, [], fs⟩
  | ⟨.datum, c :: rest, fs⟩ => datumAt c rest fs
  | ⟨.list, [], _⟩ => .halt .error
  | ⟨.list, c :: rest, fs⟩ => listAt c rest fs
  | ⟨.value isList, text, fs⟩ => hand isList text fs

def verdict : Stop → Verdict
  | .diverges => .openComment
  | .lexicalError .. | .parseEscape _ => .error
  | .listToString | .listToVector _ => .hostError

def isList (d : Datum) : Bool := d.elements.isSome

section loops
variable {p : Port}

theorem ends_pread_end {Q : Option Char → Port → Prop} {E : Stop → Prop} (text : p.rest = []) :
    Ends pread p Q E ↔ Q none ⟨[], p.line, p.pos + 1⟩ := by
  rw [Ends, pread, text]

theorem skipComment_ends {n : Nat} (enough : p.rest.length < n) :
    Ends (skipComment n) p (fun _ t => t.rest = afterLine p.rest) fun _ => False := by
  induction n generalizing p with
  | zero => omega
  | succ n ih =>
    rw [skipComment, ends_bind]
    cases text : p.rest with
    | nil =>
      rw [ends_pread_end text]
      rfl
    | cons c rest =>
      rw [ends_pread text]
      by_cases line : c = newline
      · rw [if_pos (by simp [line])]
        simp [line, afterLine]
      · rw [if_neg (by simp [line])]
        have later := ih (p := p.next c rest) (by rw [next_rest]; simp [text] at enough; omega)
        rw [next_rest] at later
        apply later.post
        intro _ t left
        rw [left]
        simp [afterLine, line]

theorem skipBlockComment_end (n : Nat) (text : p.rest = []) :
    skipBlockComment n p = .error .diverges := by
  induction n generalizing p with
  | zero => rfl
  | succ n ih =>
    have read : pread p = .ok (none, ⟨[], p.line, p.pos + 1⟩) := by rw [pread, text]
    rw [skipBlockComment]
    show (pread p).bind _ = _
    rw [read]
    exact ih rfl

theorem skipBlockComment_ends {n : Nat} (enough : p.rest.length < n) :
    Ends (skipBlockComment n) p (fun _ t => afterBlock false p.rest = some t.rest)
      fun e => e = .diverges ∧ afterBlock false p.rest = none := by
  induction n using Nat.strongRecOn generalizing p with
  | ind n ih =>
    obtain ⟨n, rfl⟩ : ∃ k, n = k + 1 := ⟨n - 1, by omega⟩
    cases text : p.rest with
    | nil =>
      rw [Ends, skipBlockComment_end _ text]
      exact ⟨rfl, rfl⟩
    | cons c rest =>
      rw [text, List.length_cons] at enough
      rw [skipBlockComment, ends_bind, ends_pread text]
      by_cases bar : c = '|'
      · rw [if_pos (by rw [bar]), ends_bind, afterBlock, if_pos bar]
        cases behind : rest with
        | nil =>
          rw [ends_pread_end next_rest]
          show Ends (skipBlockComment n) _ _ _
          rw [Ends, skipBlockComment_end _ rfl]
          exact ⟨rfl, rfl⟩
        | cons x more =>
          have text' : (p.next c (x :: more)).rest = x :: more := next_rest
          rw [ends_pread text']
          by_cases closes : x = '#'
          · rw [if_pos (by rw [closes]), ends_pure, next_rest, closes]
            rfl
          · rw [if_neg (by simpa using closes)]
            have same : afterBlock (!false) (x :: more) = afterBlock false more := by
              rw [afterBlock]
              split
              · rfl
              · simp [closes]
            rw [same]
            rw [behind, List.length_cons] at enough
            have later := ih n (by omega) (p := (p.next c (x :: more)).next x more)
              (by rw [next_rest]; omega)
            rwa [next_rest] at later
      · rw [if_neg (by simpa using bar), afterBlock, if_neg bar, Bool.false_and,
          if_neg Bool.false_ne_true]
        have later := ih n (by omega) (p := p.next c rest) (by rw [next_rest]; omega)
        rwa [next_rest] at later

theorem afterWord_cons {good : Char → Bool} {c : Char} {rest : List Char} (char : good c = true) :
    afterWord good (c :: rest) = afterWord good rest := by
  simp [afterWord, char]

theorem afterWord_stop (good : Char → Bool) {text : List Char}
    (stop : ∀ c, text.head? = some c → good c = false) :
    afterWord good text = if delimeter text.head? then some text else none := by
  cases text with
  | nil => rfl
  | cons c rest =>
    have same : (c :: rest).dropWhile good = c :: rest := by simp [stop c rfl]
    rw [afterWord, same]

theorem word_ends {good : Char → Bool} {loop : Nat → ReadM (List Char)} {msg : String}
    (turn : ∀ n, loop (n + 1) = do
      match ← ppeek with
      | none => pure []
      | some pc =>
        if delimeter (some pc) then pure []
        else if good pc then do
          let _ ← pread
          return pc :: (← loop n)
        else lexicalError msg [some pc])
    (identifier : ∀ c, good c = true → identifierChar c = true) {n : Nat}
    (enough : p.rest.length < n) :
    Ends (loop n) p (fun _ t => afterWord good p.rest = some t.rest)
      fun e => verdict e = .error ∧ afterWord good p.rest = none := by
  induction n generalizing p with
  | zero => omega
  | succ n ih =>
    rw [turn, ends_bind, ends_ppeek]
    cases text : p.rest with
    | nil => exact congrArg some text.symm
    | cons c rest =>
      rw [text, List.length_cons] at enough
      dsimp only [List.head?_cons]
      by_cases char : good c = true
      · rw [if_neg (by simp [not_delimeter (identifier c char)]), if_pos char, ends_bind,
          ends_pread text, ends_bind, afterWord_cons char]
        have later := ih (p := p.next c rest) (by rw [next_rest]; omega)
        rw [next_rest] at later
        exact later.mono (fun _ _ left => left) fun _ failed => failed
      · have stops : afterWord good (c :: rest) = _ := afterWord_stop good (by simpa using char)
        rw [stops, List.head?_cons]
        by_cases delimited : delimeter (some c) = true
        · rw [if_pos delimited, if_pos delimited]
          exact congrArg some text.symm
        · rw [if_neg delimited, if_neg delimited, if_neg char]
          exact ⟨rfl, rfl⟩

theorem parseEscape_ends (chr : Option Char) :
    Ends (parseEscape chr) p (fun _ t => t = p ∧ ∃ x, chr = some x ∧ escapes.contains x = true)
      fun e => verdict e = .error ∧ ∀ x, chr = some x → escapes.contains x = false := by
  unfold parseEscape
  split
  case h_8 a b t n v f r =>
    by_cases quotes : chr = some dquote
    · rw [Ends, if_pos quotes]
      exact ⟨rfl, _, quotes, by decide⟩
    by_cases slash : chr = some backslash
    · rw [Ends, if_neg quotes, if_pos slash]
      exact ⟨rfl, _, slash, by decide⟩
    rw [Ends, if_neg quotes, if_neg slash]
    refine ⟨rfl, ?_⟩
    rintro x rfl
    simp only [Option.some.injEq] at a b t n v f r quotes slash
    simp only [escapes, List.contains_cons, List.contains_nil, Bool.or_false, Bool.or_eq_false_iff,
      beq_eq_false_iff_ne]
    exact ⟨a, b, t, n, v, f, r, quotes, slash⟩
  all_goals exact ⟨rfl, _, rfl, by decide⟩

theorem stringLoop_ends {n : Nat} (enough : p.rest.length < n) :
    Ends (stringLoop n) p (fun _ t => afterString false p.rest = some t.rest)
      fun e => verdict e = .error ∧ afterString false p.rest = none := by
  induction n generalizing p with
  | zero => omega
  | succ n ih =>
    rw [stringLoop, ends_bind]
    cases text : p.rest with
    | nil =>
      rw [ends_pread_end text]
      exact ⟨rfl, rfl⟩
    | cons c rest =>
      rw [text, List.length_cons] at enough
      rw [ends_pread text, afterString, if_neg Bool.false_ne_true]
      dsimp only
      by_cases closes : c = dquote
      · rw [if_pos closes, if_pos closes, ends_pure, next_rest]
      rw [if_neg closes, if_neg closes]
      by_cases escape : c = backslash
      · rw [if_pos escape, ends_bind, decide_eq_true escape]
        cases behind : rest with
        | nil =>
          rw [ends_pread_end next_rest, ends_bind]
          apply (parseEscape_ends none).mono
          · rintro _ _ ⟨_, x, is, _⟩
            cases is
          · intro e failed
            exact ⟨failed.1, rfl⟩
        | cons x more =>
          have text' : (p.next c (x :: more)).rest = x :: more := next_rest
          rw [ends_pread text', ends_bind, afterString, if_pos rfl]
          apply (parseEscape_ends (some x)).mono
          · rintro y t ⟨same, z, is, valid⟩
            cases is
            rw [ends_bind, same, if_pos valid]
            rw [behind, List.length_cons] at enough
            have later := ih (p := (p.next c (x :: more)).next x more) (by rw [next_rest]; omega)
            rw [next_rest] at later
            exact later.mono (fun _ _ left => left) fun _ failed => failed
          · intro e failed
            have invalid := failed.2 x rfl
            rw [invalid, if_neg Bool.false_ne_true]
            exact ⟨failed.1, rfl⟩
      · rw [if_neg escape, ends_bind, decide_eq_false escape]
        have later := ih (p := p.next c rest) (by rw [next_rest]; omega)
        rw [next_rest] at later
        exact later.mono (fun _ _ left => left) fun _ failed => failed

end loops

/- The calls of the reader. -/

/-- What the computation reads of the text at the place is what the machine goes over: it comes
    to a datum of the same shape in front of the same text, or to the same end. -/
def Follows (place : Place) (text : List Char) (fs : List Frame) (c : ReadM Datum) (p : Port) :
    Prop :=
  Ends c p
    (fun d t => t.rest <:+ text ∧ Reaches step place ⟨.value (isList d), t.rest, fs⟩)
    fun e => Halts step place (verdict e)

section calls
variable {number : StringToNumber} {p : Port} {place mid : Place} {text rest : List Char}
  {fs : List Frame} {c : ReadM Datum} {char : Char}

theorem Follows.after (reach : Reaches step place mid) (inside : rest <:+ text)
    (follows : Follows mid rest fs c p) : Follows place text fs c p := by
  apply Ends.mono follows
  · intro d t left
    exact ⟨left.1.trans inside, reach.trans left.2⟩
  · intro e halts
    exact halts.after reach

theorem Follows.bind {f : Frame} {k : Datum → ReadM Datum} (first : Follows mid text (f :: fs) c p)
    (next : ∀ d t, t.rest <:+ text →
      Follows ⟨.value (isList d), t.rest, f :: fs⟩ t.rest fs (k d) t) :
    Follows mid text fs (c >>= k) p := by
  rw [Follows, ends_bind]
  apply Ends.mono first
  · intro d t left
    exact Follows.after left.2 left.1 (next d t left.1)
  · intro e halts
    exact halts

theorem isList_quoted (name : String) (d : Datum) : isList (.quoted name d) = true := rfl

theorem follows_pure {d : Datum} (reach : Reaches step place ⟨.value (isList d), p.rest, fs⟩) :
    Follows place p.rest fs (pure d) p := ⟨List.suffix_rfl, reach⟩

theorem suffix_word {good : Char → Bool} (left : afterWord good text = some rest) :
    rest <:+ text := by
  rw [afterWord] at left
  split at left
  · rw [← Option.some.inj left]
    exact List.dropWhile_suffix _
  · cases left

theorem suffix_string {escaped : Bool} (left : afterString escaped text = some rest) :
    rest <:+ text := by
  induction text generalizing escaped with
  | nil => cases left
  | cons c text ih =>
    apply List.IsSuffix.trans _ (List.suffix_cons c text)
    rw [afterString] at left
    split at left
    · split at left
      · exact ih left
      · cases left
    · split at left
      · cases left
        exact List.suffix_rfl
      · exact ih left

theorem suffix_block {odd : Bool} (left : afterBlock odd text = some rest) : rest <:+ text := by
  induction text generalizing odd with
  | nil => cases left
  | cons c text ih =>
    apply List.IsSuffix.trans _ (List.suffix_cons c text)
    rw [afterBlock] at left
    split at left
    · exact ih left
    · split at left
      · cases left
        exact List.suffix_rfl
      · exact ih left

theorem less_block {odd : Bool} (left : afterBlock odd text = some rest) :
    rest.length < text.length := by
  cases text with
  | nil => cases left
  | cons c text =>
    apply Nat.lt_succ_of_le
    rw [afterBlock] at left
    split at left
    · exact (suffix_block left).length_le
    · split at left
      · cases left
        exact Nat.le_refl _
      · exact (suffix_block left).length_le

theorem suffix_line : afterLine text <:+ text :=
  (List.drop_suffix 1 _).trans (List.dropWhile_suffix _)

theorem suffix_mark : afterMark char text <:+ text := by
  rw [afterMark]
  split
  · exact List.drop_suffix 1 _
  · exact List.suffix_rfl

theorem follows_atom {α : Type} {loop : ReadM α} {k : α → ReadM Datum} {left : Option (List Char)}
    (goes : step place = atom left fs)
    (ends : Ends loop p (fun _ t => left = some t.rest) fun e => verdict e = .error ∧ left = none)
    (inside : ∀ rest, left = some rest → rest <:+ text)
    (plain : ∀ a t, Ends (k a) t (fun d t' => t' = t ∧ isList d = false) fun _ => False) :
    Follows place text fs (loop >>= k) p := by
  rw [Follows, ends_bind]
  apply Ends.mono ends
  · intro a t good
    rw [good] at goes
    apply Ends.mono (plain a t)
    · rintro d _ ⟨rfl, alone⟩
      rw [alone]
      exact ⟨inside _ good, .one goes⟩
    · intro _ never
      exact never.elim
  · intro e ⟨failed, bad⟩
    rw [bad] at goes
    rw [failed]
    exact Halts.here goes

theorem digit_identifier {c : Char} (isDigit : digit c = true) : identifierChar c = true := by
  simp [identifierChar, isDigit]

theorem hexDigit_identifier {c : Char} (isDigit : hexDigit c = true) :
    identifierChar c = true := by
  simp only [hexDigit, Bool.or_eq_true, inRange_iff] at isDigit
  simp only [identifierChar, letter, Bool.or_eq_true, inRange_iff]
  rcases isDigit with (isDigit | lower) | upper
  · exact .inl (.inl (.inr isDigit))
  · exact .inl (.inl (.inl (.inl ⟨lower.1, Nat.le_trans lower.2 (by decide)⟩)))
  · exact .inl (.inl (.inl (.inr ⟨upper.1, Nat.le_trans upper.2 (by decide)⟩)))

theorem follows_number (good : Char → Bool) {radix fuel : Nat}
    (pred : (if radix = 16 then hexDigit else digit) = good)
    (identifier : ∀ c, good c = true → identifierChar c = true)
    (goes : step place = atom (afterWord good p.rest) fs) (inside : p.rest <:+ text)
    (enough : p.rest.length < fuel) :
    Follows place text fs (readNumberImpl number fuel (some char) radix) p := by
  rw [readNumberImpl, pred]
  apply follows_atom goes (word_ends (fun _ => rfl) identifier enough)
  · intro rest left
    exact (suffix_word left).trans inside
  · intro chars t
    dsimp only
    split <;> exact ⟨rfl, rfl⟩

theorem follows_radix (good : Char → Bool) {base fuel : Nat}
    (pred : (if base = 16 then hexDigit else digit) = good)
    (identifier : ∀ c, good c = true → identifierChar c = true)
    (goes : step place = radix good p.rest fs) (enough : p.rest.length < fuel) :
    Follows place p.rest fs (pread >>= fun start => readNumberImpl number fuel start base) p := by
  rw [Follows, ends_bind]
  cases text : p.rest with
  | nil =>
    rw [text, radix] at goes
    rw [ends_pread_end text, readNumberImpl, ends_bind]
    have short : ([] : List Char).length < fuel := by rw [text] at enough; exact enough
    rw [pred]
    apply Ends.mono (word_ends (p := ⟨[], p.line, p.pos + 1⟩) (fun _ => rfl) identifier short)
    · intro _ _ _
      exact Halts.here goes
    · intro e ⟨_, never⟩
      cases never
  | cons c rest =>
    rw [text] at goes enough
    rw [ends_pread text]
    have more : (p.next c rest).rest = rest := next_rest
    apply follows_number good pred identifier
    · rw [more]
      exact goes
    · rw [more]
      exact List.suffix_cons c rest
    · rw [more]
      exact Nat.lt_of_succ_lt enough

theorem ends_peculiar {Q : Bool → Port → Prop} {E : Stop → Prop} (c : Char) :
    Ends (peculiar c) p Q E ↔ Q (peculiarAt c p.rest) p := by
  rw [peculiar, peculiarAt]
  by_cases sign : c = '+' ∨ c = '-'
  · rw [if_pos sign, if_pos sign, ends_map, ends_ppeek]
  rw [if_neg sign, if_neg sign]
  by_cases dot : c = '.'
  · rw [if_pos dot, if_pos dot, ends_map, ends_ppeek]
  · rw [if_neg dot, if_neg dot, ends_pure]

theorem follows_peculiar (is : peculiarAt char p.rest = true)
    (goes : step place = atom (afterPeculiar char p.rest) fs) (inside : p.rest <:+ text) :
    Follows place text fs (readPeculiar char) p := by
  rw [peculiarAt] at is
  rw [readPeculiar]
  by_cases sign : char = '+' ∨ char = '-'
  · have notDot : char ≠ '.' := by rcases sign with rfl | rfl <;> decide
    rw [afterPeculiar, if_neg notDot] at goes
    rcases sign with rfl | rfl
    · exact ⟨inside, .one goes⟩
    · exact ⟨inside, .one goes⟩
  rw [if_neg sign] at is
  split at is
  case isFalse => cases is
  case isTrue dot =>
    obtain ⟨first, behind⟩ : ∃ rest, p.rest = '.' :: rest := by
      cases rest : p.rest with
      | nil =>
        rw [rest] at is
        cases is
      | cons c more =>
        rw [rest] at is
        exact ⟨more, by rw [Option.some.inj (of_decide_eq_true is)]⟩
    rw [behind] at goes inside
    rw [if_neg (fun h => sign (.inl h)), if_neg (fun h => sign (.inr h)), if_pos dot, Follows,
      ends_bind, ends_pread behind, if_pos rfl, ends_bind]
    rw [afterPeculiar, if_pos dot] at goes
    cases first with
    | nil =>
      rw [ends_pread_end next_rest]
      exact Halts.here goes
    | cons c more =>
      have text' : (p.next '.' (c :: more)).rest = c :: more := next_rest
      rw [ends_pread text']
      by_cases third : some c = some '.'
      · rw [List.drop_succ_cons, List.drop_zero, List.head?_cons, if_pos third] at goes
        rw [if_pos third, ends_pure, next_rest]
        exact ⟨(List.suffix_cons _ _).trans ((List.suffix_cons _ _).trans inside), .one goes⟩
      · rw [List.drop_succ_cons, List.drop_zero, List.head?_cons, if_neg third] at goes
        rw [if_neg third]
        exact Halts.here goes

/- The reader on the texts of at most n characters, with fuel for them. -/
structure FollowsUpTo (number : StringToNumber) (n : Nat) : Prop where
  datum : ∀ {fuel c p fs}, p.rest.length < n → 2 * p.rest.length + 3 ≤ fuel →
    Follows ⟨.datum, c :: p.rest, fs⟩ p.rest fs (dispatch number fuel (some c)) p
  next : ∀ {fuel p fs}, p.rest.length ≤ n → 2 * p.rest.length + 1 ≤ fuel →
    Follows ⟨.datum, p.rest, fs⟩ p.rest fs (pread >>= dispatch number fuel) p
  list : ∀ {fuel p fs}, p.rest.length ≤ n → 2 * p.rest.length + 2 ≤ fuel →
    Follows ⟨.list, p.rest, fs⟩ p.rest fs (readList number fuel) p

theorem mark_ends {ends : ReadM String} {c : Char} (one two : String) (notFirst : c = ',' →
      ends = do
        if (← ppeek) = some '@' then do
          let _ ← pread
          pure two
        else pure one)
    (first : c ≠ ',' → ∃ name, ends = pure name) :
    Ends ends p (fun _ t => t.rest = afterMark c p.rest) fun _ => False := by
  rw [afterMark]
  by_cases comma : c = ','
  · rw [notFirst comma, ends_bind, ends_ppeek]
    by_cases at_ : p.rest.head? = some '@'
    · rw [if_pos at_, if_pos ⟨comma, at_⟩, ends_bind]
      cases text : p.rest with
      | nil =>
        rw [text] at at_
        cases at_
      | cons x rest =>
        rw [ends_pread text, ends_pure, next_rest]
        rfl
    · rw [if_neg at_, if_neg fun h => at_ h.2]
      rfl
  · obtain ⟨name, same⟩ := first comma
    rw [same, if_neg fun h => comma h.1]
    rfl

theorem quote_cases {c : Char} (isQuote : quote c = true) :
    c = apostrophe ∨ c = backquote ∨ c = ',' := by
  simpa [quote] using isQuote

theorem quoteType_ends {c : Char} (isQuote : quote c = true) :
    Ends (quoteType c) p (fun _ t => t.rest = afterMark c p.rest) fun _ => False := by
  apply mark_ends "unquote" "unquote-splicing"
  · rintro rfl
    rfl
  · intro other
    rcases quote_cases isQuote with rfl | rfl | rfl
    · exact ⟨_, rfl⟩
    · exact ⟨_, rfl⟩
    · exact absurd rfl other

theorem syntaxType_ends {c : Char} (isQuote : quote c = true) :
    Ends (syntaxType c) p (fun _ t => t.rest = afterMark c p.rest) fun _ => False := by
  apply mark_ends "unsyntax" "usyntax-splicing"
  · rintro rfl
    rfl
  · intro other
    rcases quote_cases isQuote with rfl | rfl | rfl
    · exact ⟨_, rfl⟩
    · exact ⟨_, rfl⟩
    · exact absurd rfl other

theorem follows_mark {n fuel : Nat} (below : ∀ m < n, FollowsUpTo number m)
    {ends : ReadM String} (mark : Ends ends p (fun _ t => t.rest = afterMark char p.rest)
      fun _ => False)
    (short : p.rest.length < n) (enough : 2 * p.rest.length + 1 ≤ fuel)
    (goes : step place = .next ⟨.datum, afterMark char p.rest, .quoted :: fs⟩) :
    Follows place p.rest fs (do
      let name ← ends
      let d ← dispatch number fuel (← pread)
      pure (.quoted name d)) p := by
  rw [Follows, ends_bind]
  apply Ends.mono mark
  · intro name t same
    have inside : t.rest <:+ p.rest := by
      rw [same]
      exact suffix_mark
    have less := inside.length_le
    rw [← same] at goes
    apply Follows.after (.one goes) inside
    rw [← bind_assoc]
    apply Follows.bind ((below t.rest.length (by omega)).next (Nat.le_refl _) (by omega))
    intro d t' _
    apply follows_pure
    rw [isList_quoted]
    exact .one rfl
  · intro _ never
    exact never.elim

theorem follows_character (goes : step place =
      atom (if delimeter (p.rest.drop 1).head? then some (p.rest.drop 1) else none) fs) :
    Follows place p.rest fs (pread >>= readCharacter) p := by
  have read : ∀ (chr : Option Char) (t : Port), t.rest = p.rest.drop 1 →
      Follows place p.rest fs (readCharacter chr) t := by
    intro chr t left
    rw [← left] at goes
    rw [readCharacter.eq_def, Follows, ends_bind, ends_ppeek]
    by_cases delimited : delimeter t.rest.head? = true
    · rw [if_pos delimited] at goes
      rw [if_pos delimited]
      refine ⟨?_, ?_⟩
      · rw [left]
        exact List.drop_suffix 1 _
      · cases chr <;> exact .one goes
    · rw [if_neg delimited] at goes
      rw [if_neg delimited]
      exact Halts.here goes
  rw [Follows, ends_bind]
  cases text : p.rest with
  | nil =>
    rw [ends_pread_end text, ← text]
    apply read
    rw [text]
    rfl
  | cons c rest =>
    rw [ends_pread text, ← text]
    apply read
    rw [text]
    exact next_rest

theorem follows_vector (d : Datum) :
    Follows ⟨.value (isList d), p.rest, .vector :: fs⟩ p.rest fs (listToVector d) p := by
  rw [listToVector]
  cases elements : d.elements with
  | none =>
    apply Halts.here
    rw [isList, elements]
    rfl
  | some xs =>
    refine ⟨List.suffix_rfl, .one ?_⟩
    rw [isList, elements]
    rfl

theorem follows_sharped {n fuel : Nat} (below : ∀ m < n, FollowsUpTo number m)
    (short : p.rest.length < n) (enough : 2 * p.rest.length + 2 ≤ fuel)
    (goes : step place = sharped p.rest fs) :
    Follows place p.rest fs (readSharped number fuel) p := by
  obtain ⟨fuel, rfl⟩ : ∃ k, fuel = k + 1 := ⟨fuel - 1, by omega⟩
  rw [readSharped, Follows, ends_bind]
  cases text : p.rest with
  | nil =>
    rw [text] at goes
    rw [ends_pread_end text]
    exact Halts.here goes
  | cons c rest =>
    rw [text, List.length_cons] at short enough
    rw [text, sharped] at goes
    rw [ends_pread text]
    dsimp only
    generalize next : p.next c rest = t
    have left : t.rest = rest := by rw [← next, next_rest]
    clear next text
    subst left
    have inside : t.rest <:+ c :: t.rest := List.suffix_cons c t.rest
    show Follows place (c :: t.rest) fs _ t
    by_cases isTrue : c = 't' ∨ c = 'T'
    · rw [if_pos isTrue] at goes ⊢
      exact ⟨inside, .one goes⟩
    rw [if_neg isTrue] at goes ⊢
    by_cases isFalse : c = 'f' ∨ c = 'F'
    · rw [if_pos isFalse] at goes ⊢
      exact ⟨inside, .one goes⟩
    rw [if_neg isFalse] at goes ⊢
    by_cases isChar : c = backslash
    · rw [if_pos isChar] at goes ⊢
      exact (follows_character goes).after (.refl _) inside
    rw [if_neg isChar] at goes ⊢
    by_cases binary : c = 'b' ∨ c = 'B'
    · rw [if_pos binary] at goes ⊢
      exact (follows_radix digit rfl (fun _ => digit_identifier) goes (by omega)).after
        (.refl _) inside
    rw [if_neg binary] at goes ⊢
    by_cases octal : c = 'o' ∨ c = 'O'
    · rw [if_pos octal] at goes ⊢
      exact (follows_radix digit rfl (fun _ => digit_identifier) goes (by omega)).after
        (.refl _) inside
    rw [if_neg octal] at goes ⊢
    by_cases decimal : c = 'd' ∨ c = 'D'
    · rw [if_pos decimal] at goes ⊢
      exact (follows_radix digit rfl (fun _ => digit_identifier) goes (by omega)).after
        (.refl _) inside
    rw [if_neg decimal] at goes ⊢
    by_cases hex : c = 'x' ∨ c = 'X'
    · rw [if_pos hex] at goes ⊢
      exact (follows_radix hexDigit rfl (fun _ => hexDigit_identifier) goes (by omega)).after
        (.refl _) inside
    rw [if_neg hex] at goes ⊢
    by_cases mark : quote c = true
    · rw [if_pos mark] at goes ⊢
      apply Follows.after (.refl _) inside
      exact follows_mark below (syntaxType_ends mark) (by omega) (by omega) goes
    rw [if_neg mark] at goes ⊢
    by_cases vector : c = '('
    · rw [if_pos vector] at goes ⊢
      apply Follows.after (.one goes) inside
      apply Follows.bind ((below t.rest.length (by omega)).list (Nat.le_refl _) (by omega))
      intro d t' _
      exact follows_vector d
    rw [if_neg vector] at goes ⊢
    by_cases comment : c = '|'
    · rw [if_pos comment] at goes ⊢
      apply Follows.after (.refl _) inside
      rw [Follows, ends_bind]
      apply Ends.mono (skipBlockComment_ends (by omega))
      · intro _ t' closed
        rw [closed] at goes
        have less := (suffix_block closed).length_le
        apply Follows.after (.one goes) (suffix_block closed)
        exact (below t'.rest.length (by omega)).next (Nat.le_refl _) (by omega)
      · rintro _ ⟨rfl, unclosed⟩
        rw [unclosed] at goes
        exact Halts.here goes
    rw [if_neg comment] at goes ⊢
    exact Halts.here goes

theorem Follows.skip {skip : ReadM Unit} {control : Control} {left : List Char}
    (ends : Ends skip p (fun _ t => t.rest = left) fun _ => False)
    (goes : step place = .next ⟨control, left, fs⟩) (inside : left <:+ text)
    (next : ∀ t, t.rest = left → Follows ⟨control, t.rest, fs⟩ t.rest fs c t) :
    Follows place text fs (skip >>= fun _ => c) p := by
  rw [Follows, ends_bind]
  apply Ends.mono ends
  · intro _ t same
    rw [← same] at goes inside
    exact (next t same).after (.one goes) inside
  · intro _ never
    exact never.elim

theorem follows_tail (d : Datum) :
    Follows ⟨.value (isList d), p.rest, .tail :: fs⟩ p.rest fs (do
      if (← pread) = some ')' then pure d else lexicalError "unexpected data after dot" []) p := by
  rw [Follows, ends_bind]
  cases text : p.rest with
  | nil =>
    rw [ends_pread_end text, if_neg (by simp)]
    exact Halts.here rfl
  | cons c rest =>
    rw [ends_pread text]
    by_cases close : c = ')'
    · subst close
      rw [if_pos rfl, ends_pure, next_rest]
      exact ⟨List.suffix_cons _ rest, .one rfl⟩
    · rw [if_neg (by simpa using close)]
      apply Halts.here
      rw [step, hand]
      · rfl
      · intro more same
        exact close (List.cons.inj same).1

theorem Follows.pair {a : Datum} (rest : Follows place text fs c p) :
    Follows place text fs (c >>= fun d => pure (.pair a d)) p := by
  rw [Follows, ends_bind]
  apply Ends.mono rest
  · intro d t ⟨inside, reach⟩
    have same : isList (.pair a d) = isList d := by
      rw [isList, Datum.elements, Option.isSome_map]
      rfl
    rw [ends_pure, same]
    exact ⟨inside, reach⟩
  · intro e halts
    exact halts

theorem follows_datum {n fuel : Nat} (below : ∀ m < n, FollowsUpTo number m)
    (short : p.rest.length < n) (enough : 2 * p.rest.length + 3 ≤ fuel) :
    Follows ⟨.datum, char :: p.rest, fs⟩ p.rest fs (dispatch number fuel (some char)) p := by
  obtain ⟨fuel, rfl⟩ : ∃ k, fuel = k + 1 := ⟨fuel - 1, by omega⟩
  have goes : step ⟨.datum, char :: p.rest, fs⟩ = datumAt char p.rest fs := rfl
  have smaller := below p.rest.length short
  rw [datumAt] at goes
  rw [dispatch]
  by_cases space : charWhitespace char = true
  · rw [if_pos space] at goes ⊢
    exact (smaller.next (Nat.le_refl _) (by omega)).after (.one goes) List.suffix_rfl
  rw [if_neg space] at goes ⊢
  by_cases symbol : (letter char || initialChar char) = true
  · rw [if_pos symbol] at goes ⊢
    rw [readSymol]
    apply follows_atom goes (word_ends (fun _ => rfl) (fun _ => id) (by omega))
    · intro rest left
      exact suffix_word left
    · intro chars t
      exact ⟨rfl, rfl⟩
  rw [if_neg symbol] at goes ⊢
  rw [Follows, ends_bind, ends_peculiar]
  by_cases odd : peculiarAt char p.rest = true
  · rw [if_pos odd] at goes ⊢
    exact follows_peculiar odd goes List.suffix_rfl
  rw [if_neg odd] at goes ⊢
  by_cases isNumber : numberStart char = true
  · rw [if_pos isNumber] at goes ⊢
    exact follows_number digit rfl (fun _ => digit_identifier) goes List.suffix_rfl (by omega)
  rw [if_neg isNumber] at goes ⊢
  by_cases string : char = dquote
  · rw [if_pos string] at goes ⊢
    rw [readString]
    apply follows_atom goes (stringLoop_ends (by omega))
    · intro rest left
      exact suffix_string left
    · intro chars t
      exact ⟨rfl, rfl⟩
  rw [if_neg string] at goes ⊢
  by_cases sharp : char = '#'
  · rw [if_pos sharp] at goes ⊢
    exact follows_sharped below short (by omega) goes
  rw [if_neg sharp] at goes ⊢
  by_cases mark : quote char = true
  · rw [if_pos mark] at goes ⊢
    obtain ⟨fuel, rfl⟩ : ∃ k, fuel = k + 1 := ⟨fuel - 1, by omega⟩
    rw [readQuote]
    exact follows_mark below (quoteType_ends mark) short (by omega) goes
  rw [if_neg mark] at goes ⊢
  by_cases list : char = '('
  · rw [if_pos list] at goes ⊢
    exact (smaller.list (Nat.le_refl _) (by omega)).after (.one goes) List.suffix_rfl
  rw [if_neg list] at goes ⊢
  by_cases comment : char = ';'
  · rw [if_pos comment] at goes ⊢
    apply Follows.skip (skipComment_ends (by omega)) goes suffix_line
    intro t left
    have less : t.rest.length ≤ p.rest.length := by
      rw [left]
      exact suffix_line.length_le
    exact (below t.rest.length (by omega)).next (Nat.le_refl _) (by omega)
  rw [if_neg comment] at goes ⊢
  by_cases close : char = ')'
  · rw [if_pos close]
    exact Halts.here goes
  · rw [if_neg close]
    exact Halts.here goes

theorem follows_next {n fuel : Nat} (below : ∀ m < n, FollowsUpTo number m)
    (short : p.rest.length ≤ n) (enough : 2 * p.rest.length + 1 ≤ fuel) :
    Follows ⟨.datum, p.rest, fs⟩ p.rest fs (pread >>= dispatch number fuel) p := by
  rw [Follows, ends_bind]
  cases text : p.rest with
  | nil =>
    obtain ⟨fuel, rfl⟩ : ∃ k, fuel = k + 1 := ⟨fuel - 1, by omega⟩
    rw [ends_pread_end text]
    exact ⟨List.suffix_rfl, .one rfl⟩
  | cons c rest =>
    rw [text, List.length_cons] at short enough
    rw [ends_pread text]
    generalize next : p.next c rest = t
    have left : t.rest = rest := by rw [← next, next_rest]
    subst left
    exact (follows_datum below short (by omega)).after (.refl _) (List.suffix_cons c t.rest)

theorem follows_list {n fuel : Nat} (below : ∀ m < n, FollowsUpTo number m)
    (short : p.rest.length ≤ n) (enough : 2 * p.rest.length + 2 ≤ fuel) :
    Follows ⟨.list, p.rest, fs⟩ p.rest fs (readList number fuel) p := by
  obtain ⟨fuel, rfl⟩ : ∃ k, fuel = k + 1 := ⟨fuel - 1, by omega⟩
  rw [readList, Follows, ends_bind]
  cases text : p.rest with
  | nil =>
    rw [ends_pread_end text]
    exact Halts.here rfl
  | cons c rest =>
    rw [text, List.length_cons] at short enough
    rw [ends_pread text]
    generalize next : p.next c rest = t
    have left : t.rest = rest := by rw [← next, next_rest]
    clear next text
    subst left
    have inside : t.rest <:+ c :: t.rest := List.suffix_cons c t.rest
    have goes : step ⟨.list, c :: t.rest, fs⟩ = listAt c t.rest fs := rfl
    have smaller := below t.rest.length (by omega)
    show Follows _ _ fs _ t
    rw [listAt] at goes
    dsimp only
    by_cases close : c = ')'
    · rw [if_pos close] at goes ⊢
      exact ⟨inside, .one goes⟩
    rw [if_neg close] at goes ⊢
    by_cases space : charWhitespace c = true
    · rw [if_pos space] at goes ⊢
      exact (smaller.list (Nat.le_refl _) (by omega)).after (.one goes) inside
    rw [if_neg space] at goes ⊢
    by_cases comment : c = ';'
    · rw [if_pos comment] at goes ⊢
      apply Follows.after (.refl _) inside
      apply Follows.skip (skipComment_ends (by omega)) goes suffix_line
      intro t' left
      have less : t'.rest.length ≤ t.rest.length := by
        rw [left]
        exact suffix_line.length_le
      exact (below t'.rest.length (by omega)).list (Nat.le_refl _) (by omega)
    rw [if_neg comment] at goes ⊢
    rw [Follows, ends_bind, ends_ppeek]
    by_cases dot : c = '.' ∧ t.rest.head? ≠ some '.'
    · rw [if_pos dot] at goes ⊢
      apply Follows.after (.one goes) inside
      rw [← bind_assoc]
      apply (smaller.next (Nat.le_refl _) (by omega)).bind
      intro d t' _
      exact follows_tail d
    · rw [if_neg dot] at goes ⊢
      apply Follows.after (.one goes) inside
      apply (follows_datum below (by omega) (by omega)).bind
      intro d t' left
      have less := left.length_le
      apply Follows.after (.one rfl) List.suffix_rfl
      apply ((below t'.rest.length (by omega)).list (Nat.le_refl _) (by omega)).pair

theorem follows_upTo (n : Nat) : FollowsUpTo number n := by
  induction n using Nat.strongRecOn with
  | ind n below =>
    constructor
    · exact follows_datum below
    · exact follows_next below
    · exact follows_list below

end calls

/- The end of a read. -/

def start (text : List Char) : Place := ⟨.datum, text, []⟩

/-- The reader signals an error of its own. -/
def Signals : Stop → Prop
  | .lexicalError .. | .parseEscape _ => True
  | .diverges | .listToString | .listToVector _ => False

/-- With enough fuel the reader returns a datum or the end of file object and leaves an end of
    the text, or it signals an error. -/
def Terminates (number : StringToNumber) (text : List Char) : Prop :=
  ∃ n, ∀ fuel, n ≤ fuel →
    Ends (datumFromPort number fuel) (makePortProxy text) (fun _ t => t.rest <:+ text) Signals

/-- The reader comes to no block comment without an end, no number prefix at the end of the text
    and no vector with a tail that is no list. -/
def Complete (text : List Char) : Prop :=
  ¬ Halts step (start text) .openComment ∧ ¬ Halts step (start text) .hostError

/-- The bar and the # that end a block comment, after u, are the first ones. -/
def First (u : List Char) : Prop := ¬ ['|', '#'] <:+: u ++ ['|']

/-- A block comment with the given text behind its beginning ends at its first mark. -/
def EndsAtFirst (body : List Char) : Prop :=
  ∀ u v, body = u ++ '|' :: '#' :: v → First u → ∃ n, ∀ fuel, n ≤ fuel → ∀ p : Port, p.rest = body →
    Ends (skipBlockComment fuel) p (fun _ t => t.rest = v) fun _ => False

/-- The bars at the end of a text. -/
def bars (u : List Char) : Nat := (u.reverse.takeWhile (· = '|')).length

/-- The first mark does not stand behind an odd number of bars. -/
def OddRun (body : List Char) : Prop :=
  ∀ u v, body = u ++ '|' :: '#' :: v → First u → bars u % 2 = 0

theorem verdict_signals {e : Stop} (signals : Signals e) : verdict e = .error := by
  cases e with
  | lexicalError => rfl
  | parseEscape => rfl
  | diverges => exact signals.elim
  | listToString => exact signals.elim
  | listToVector => exact signals.elim

theorem signals_of_verdict {e : Stop} (noComment : verdict e ≠ .openComment)
    (noHost : verdict e ≠ .hostError) : Signals e := by
  cases e with
  | lexicalError => trivial
  | parseEscape => trivial
  | diverges => exact noComment rfl
  | listToString => exact noHost rfl
  | listToVector => exact noHost rfl

theorem follows_text {number : StringToNumber} {text : List Char} {fuel : Nat}
    (enough : 2 * text.length + 1 ≤ fuel) :
    Follows (start text) text [] (datumFromPort number fuel) (makePortProxy text) :=
  (follows_upTo text.length).next (p := makePortProxy text) (Nat.le_refl _) enough

theorem returned_of_value {place : Place} {isList : Bool} {rest : List Char}
    (reach : Reaches step place ⟨.value isList, rest, []⟩) : Halts step place .returned :=
  Halts.after (.here rfl) reach

theorem terminates_of_complete {number : StringToNumber} {text : List Char}
    (complete : Complete text) : Terminates number text := by
  refine ⟨2 * text.length + 1, ?_⟩
  intro fuel enough
  apply Ends.mono (follows_text enough)
  · intro d t ⟨inside, _⟩
    exact inside
  · intro e halts
    apply signals_of_verdict
    · intro openComment
      exact complete.1 (openComment ▸ halts)
    · intro hostError
      exact complete.2 (hostError ▸ halts)

theorem complete_of_terminates {number : StringToNumber} {text : List Char}
    (terminates : Terminates number text) : Complete text := by
  obtain ⟨n, ends⟩ := terminates
  have follows : Follows (start text) text [] (datumFromPort number (max n (2 * text.length + 1)))
      (makePortProxy text) := follows_text (Nat.le_max_right n _)
  have both := Ends.and follows (ends _ (Nat.le_max_left n _))
  have halts : Halts step (start text) .returned ∨ Halts step (start text) .error := by
    rw [Ends] at both
    split at both
    · exact .inl (returned_of_value both.1.2)
    · rw [verdict_signals both.2] at both
      exact .inr both.1
  constructor
  · intro openComment
    rcases halts with returned | error
    · cases returned.unique openComment
    · cases error.unique openComment
  · intro hostError
    rcases halts with returned | error
    · cases returned.unique hostError
    · cases error.unique hostError

theorem first_of_no_sharp {u : List Char} (no : '#' ∉ u) : First u := by
  intro mark
  have member : '#' ∈ u ++ ['|'] := mark.subset (by simp)
  simp [no] at member

/- Whether an odd run of bars ends before the next character. -/
def oddAfter (odd : Bool) (u : List Char) : Bool :=
  u.foldl (fun odd c => if c = '|' then !odd else false) odd

theorem afterBlock_append {odd : Bool} {u w : List Char} (first : First u)
    (inside : odd = true → u.head? ≠ some '#') :
    afterBlock odd (u ++ w) = afterBlock (oddAfter odd u) w := by
  induction u generalizing odd with
  | nil => rfl
  | cons c u ih =>
    have later : First u := fun mark => first (mark.trans (List.suffix_cons c _).isInfix)
    rw [List.cons_append, afterBlock, oddAfter, List.foldl_cons]
    by_cases bar : c = '|'
    · rw [if_pos bar, if_pos bar]
      apply ih later
      intro _ hash
      cases u with
      | nil => cases hash
      | cons x u =>
        rw [List.head?_cons, Option.some.injEq] at hash
        apply first
        rw [bar, hash]
        exact ⟨[], u ++ ['|'], rfl⟩
    · have goesOn : ¬ (odd && decide (c = '#')) = true := by
        rw [Bool.and_eq_true, decide_eq_true_iff]
        rintro ⟨isOdd, rfl⟩
        exact inside isOdd rfl
      rw [if_neg bar, if_neg bar, if_neg goesOn]
      exact ih later (by simp)

theorem oddAfter_reverse (r : List Char) :
    oddAfter false r.reverse = decide ((r.takeWhile (· = '|')).length % 2 = 1) := by
  induction r with
  | nil => rfl
  | cons c r ih =>
    rw [oddAfter, List.reverse_cons, List.foldl_append, List.foldl_cons, List.foldl_nil, ← oddAfter,
      ih]
    by_cases bar : c = '|'
    · rw [if_pos bar, List.takeWhile_cons_of_pos (by simpa using bar), List.length_cons]
      rcases Nat.mod_two_eq_zero_or_one (r.takeWhile (· = '|')).length with even | odd
      · simp [even, Nat.add_mod]
      · simp [odd, Nat.add_mod]
    · rw [if_neg bar, List.takeWhile_cons_of_neg (by simpa using bar)]
      rfl

theorem oddAfter_bars (u : List Char) : oddAfter false u = decide (bars u % 2 = 1) := by
  have reversed := oddAfter_reverse u.reverse
  rwa [List.reverse_reverse] at reversed

theorem afterBlock_first {u v : List Char} (first : First u) :
    afterBlock false (u ++ '|' :: '#' :: v) = some v ↔ bars u % 2 = 0 := by
  rw [afterBlock_append first (by simp), oddAfter_bars]
  rcases Nat.mod_two_eq_zero_or_one (bars u) with even | odd
  · simp [even, afterBlock]
  · have goesOn : afterBlock true ('|' :: '#' :: v) = afterBlock false v := by
      simp [afterBlock]
    rw [odd, decide_eq_true rfl, goesOn]
    constructor
    · intro closed
      exact absurd (less_block closed) (Nat.lt_irrefl _)
    · intro zero
      cases zero

theorem endsAtFirst_iff (body : List Char) : EndsAtFirst body ↔ OddRun body := by
  constructor
  · intro ends u v split first
    obtain ⟨n, reads⟩ := ends u v split first
    have enough : body.length < max n (body.length + 1) := Nat.le_max_right n _
    have both := (skipBlockComment_ends (p := ⟨body, 0, 0⟩) enough).and
      (reads _ (Nat.le_max_left n _) ⟨body, 0, 0⟩ rfl)
    rw [Ends] at both
    split at both
    · rw [both.2, split] at both
      exact (afterBlock_first first).mp both.1
    · exact both.2.elim
  · intro odd u v split first
    refine ⟨body.length + 1, ?_⟩
    intro fuel enough p text
    have closed := (afterBlock_first (v := v) first).mpr (odd u v split first)
    rw [← split, ← text] at closed
    apply Ends.mono (skipBlockComment_ends (by rw [text]; exact enough))
    · intro _ t left
      rw [closed] at left
      exact (Option.some.inj left).symm
    · rintro _ ⟨_, never⟩
      rw [closed] at never
      cases never

/- A read comes to an end exactly when nothing that the reader comes to is cut off, and a comment
   ends where it should exactly when its bars are odd. -/
theorem terminates_iff (number : StringToNumber) (text body : List Char) :
    (Terminates number text ↔ Complete text) ∧ (EndsAtFirst body ↔ OddRun body) :=
  ⟨⟨complete_of_terminates, terminates_of_complete⟩, endsAtFirst_iff body⟩

/- A comment that is not ended, one that ends in two bars, and a number without digits. -/
theorem not_terminates : ¬ ∃ number : StringToNumber, Terminates number ['#', '|'] ∨
    Terminates number ['#', 'x'] ∨ EndsAtFirst ['|', '|', '#'] := by
  intro ⟨number, good⟩
  rcases good with terminates | terminates | ends
  · exact (complete_of_terminates terminates).1 (.here rfl)
  · exact (complete_of_terminates terminates).2 (.here rfl)
  · have odd := (endsAtFirst_iff _).mp ends ['|'] [] rfl (first_of_no_sharp (by decide))
    cases odd

end LGears.ReaderStops
