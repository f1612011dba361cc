import LGears.Library.Returns

/- The reader of reader.scm. It runs on the Scheme system that hosts the compiler, so its data have
   numbers and the end of file object of the host, and string->number is the host's. -/
namespace LGears.Reader
open StateExcept

/-- A number of the host: an exact integer, or any other number by its text. -/
inductive Number where
  | fixnum (n : Int)
  | other (text : List Char)
  deriving DecidableEq, Repr

inductive Datum where
  | null
  | eof
  | bool (b : Bool)
  | char (c : Char)
  | string (s : String)
  | number (n : Number)
  | symbol (s : String)
  | pair (a d : Datum)
  | vector (xs : List Datum)
  deriving Repr, Inhabited

/-- The text that is left of a port, and the line and pos of its port-proxy. -/
structure Port where
  rest : List Char
  line : Nat
  pos : Nat
  deriving DecidableEq, Repr

/-- make-port-proxy -/
def makePortProxy (text : List Char) : Port := ⟨text, 1, 0⟩

/-- How a read ends that returns no datum; a missing character is the end of file object. -/
inductive Stop where
  /-- skip-block-comment goes on reading at the end of the file. -/
  | diverges
  | lexicalError (msg : String) (args : List (Option Char)) (line pos : Nat)
  | parseEscape (chr : Option Char)
  /-- list->string of the end of file object. -/
  | listToString
  /-- list->vector of an improper list. -/
  | listToVector (d : Datum)

abbrev ReadM := StateT Port (Except Stop)

def diverges {α : Type} : ReadM α := fun _ => .error .diverges

def lexicalError {α : Type} (msg : String) (args : List (Option Char)) : ReadM α :=
  fun p => .error (.lexicalError msg args p.line p.pos)

/-- The characters that Scheme source writes as names or that quote themselves badly. -/
abbrev dquote : Char := Char.ofNat 34
abbrev apostrophe : Char := Char.ofNat 39
abbrev backslash : Char := Char.ofNat 92
abbrev backquote : Char := Char.ofNat 96
abbrev newline : Char := Char.ofNat 10

/-- What reading c leaves of a port whose other characters are rest. -/
def Port.next (p : Port) (c : Char) (rest : List Char) : Port :=
  if c = newline then ⟨rest, p.line + 1, 0⟩ else ⟨rest, p.line, p.pos + 1⟩

def pread : ReadM (Option Char) := fun p =>
  match p.rest with
  | [] => .ok (none, ⟨[], p.line, p.pos + 1⟩)
  | c :: rest => .ok (some c, p.next c rest)

def ppeek : ReadM (Option Char) := fun p => .ok (p.rest.head?, p)

/-- char-whitespace?: the characters with the property White_Space. -/
def charWhitespace (c : Char) : Bool :=
  (9 ≤ c.toNat && c.toNat ≤ 13) || (0x2000 ≤ c.toNat && c.toNat ≤ 0x200A) ||
  [0x20, 0x85, 0xA0, 0x1680, 0x2028, 0x2029, 0x202F, 0x205F, 0x3000].contains c.toNat

def delimeter : Option Char → Bool
  | none => true
  | some x => charWhitespace x || ['(', ')', '[', ']', dquote, '#', ';'].contains x

def inRange (x y c : Char) : Bool := x ≤ c && c ≤ y

def digit (x : Char) : Bool := inRange '0' '9' x

def numberStart (x : Char) : Bool := digit x || ['+', '-'].contains x

def hexDigit (x : Char) : Bool := digit x || inRange 'a' 'f' x || inRange 'A' 'F' x

def letter (x : Char) : Bool := inRange 'a' 'z' x || inRange 'A' 'Z' x

def quote (x : Char) : Bool := [apostrophe, backquote, ','].contains x

def initialChar (x : Char) : Bool :=
  ['!', '$', '%', '&', '*', '/', ':', '<', '=', '>', '?', '^', '_', '~'].contains x

def identifierChar (x : Char) : Bool :=
  letter x || digit x || initialChar x || ['+', '-', '.', '@'].contains x

def parseEscape : Option Char → ReadM Char
  | some 'a' => pure (Char.ofNat 7)
  | some 'b' => pure (Char.ofNat 8)
  | some 't' => pure (Char.ofNat 9)
  | some 'n' => pure newline
  | some 'v' => pure (Char.ofNat 11)
  | some 'f' => pure (Char.ofNat 12)
  | some 'r' => pure (Char.ofNat 13)
  | chr => fun p =>
    if chr = some dquote then .ok (dquote, p)
    else if chr = some backslash then .ok (backslash, p)
    else .error (.parseEscape chr)

/-- The loop of read-symol. -/
def symolLoop : Nat → ReadM (List Char)
  | 0 => diverges
  | n + 1 => do
    match ← ppeek with
    | none => pure []
    | some pc =>
      if delimeter (some pc) then pure []
      else if identifierChar pc then do
        let _ ← pread
        return pc :: (← symolLoop n)
      else lexicalError "invalid character '~a' for identifier" [some pc]

def readSymol (fuel : Nat) (start : Char) : ReadM Datum := do
  return .symbol (String.ofList (start :: (← symolLoop fuel)))

def peculiar (pc : Char) : ReadM Bool :=
  if pc = '+' ∨ pc = '-' then delimeter <$> ppeek
  else if pc = '.' then (fun next => decide (next = some '.')) <$> ppeek
  else pure false

def readPeculiar (pc : Char) : ReadM Datum :=
  if pc = '+' then pure (.symbol "+")
  else if pc = '-' then pure (.symbol "-")
  else if pc = '.' then do
    -- the and of the source stops at a first character that is no dot
    if (← pread) = some '.' then
      if (← pread) = some '.' then pure (.symbol "...") else lexicalError "misplaced dot" []
    else lexicalError "misplaced dot" []
  else lexicalError "wtf?" []

/-- The loop of read-string. -/
def stringLoop : Nat → ReadM (List Char)
  | 0 => diverges
  | n + 1 => do
    match ← pread with
    | none => lexicalError "unexpected eof while reading string" []
    | some char =>
      if char = dquote then pure []
      else if char = backslash then do
        let escaped ← parseEscape (← pread)
        return escaped :: (← stringLoop n)
      else return char :: (← stringLoop n)

def readString (fuel : Nat) : ReadM Datum := do
  return .string (String.ofList (← stringLoop fuel))

def skipComment : Nat → ReadM Unit
  | 0 => diverges
  | n + 1 => do
    let c ← pread
    if c = none ∨ c = some newline then pure () else skipComment n

def skipBlockComment : Nat → ReadM Unit
  | 0 => diverges
  | n + 1 => do
    if (← pread) = some '|' then
      if (← pread) = some '#' then pure () else skipBlockComment n
    else skipBlockComment n

/-- The loop of read-number-impl. -/
def numberLoop (pred : Char → Bool) : Nat → ReadM (List Char)
  | 0 => diverges
  | n + 1 => do
    match ← ppeek with
    | none => pure []
    | some pc =>
      if delimeter (some pc) then pure []
      else if pred pc then do
        let _ ← pread
        return pc :: (← numberLoop pred n)
      else lexicalError "invalid characted '~a' for number" [some pc]

/-- string->number of the host on a text and a radix; #f for no number. -/
abbrev StringToNumber := List Char → Nat → Option Number

def readNumberImpl (stringToNumber : StringToNumber) (fuel : Nat) (start : Option Char)
    (radix : Nat) : ReadM Datum := do
  let chars ← numberLoop (if radix = 16 then hexDigit else digit) fuel
  match start with
  | none => fun _ => .error .listToString
  | some start =>
    match stringToNumber (start :: chars) radix with
    | some n => pure (.number n)
    | none => pure (.bool false)

/-- syntax-type; the caller has read a character with quote. -/
def syntaxType (c : Char) : ReadM String :=
  if c = apostrophe then pure "syntax"
  else if c = backquote then pure "quasisyntax"
  else do
    if (← ppeek) = some '@' then do
      let _ ← pread
      pure "usyntax-splicing"
    else pure "unsyntax"

/-- quote-type; the caller has read a character with quote. -/
def quoteType (c : Char) : ReadM String :=
  if c = apostrophe then pure "quote"
  else if c = backquote then pure "quasiquote"
  else do
    if (← ppeek) = some '@' then do
      let _ ← pread
      pure "unquote-splicing"
    else pure "unquote"

def readCharacter (chr : Option Char) : ReadM Datum := do
  if delimeter (← ppeek) then
    pure (match chr with
      | none => .eof
      | some c => .char c)
  else lexicalError "expected delimeter" []

/-- (list (string->symbol name) d) -/
def Datum.quoted (name : String) (d : Datum) : Datum := .pair (.symbol name) (.pair d .null)

/-- The elements of a proper list. -/
def Datum.elements : Datum → Option (List Datum)
  | .null => some []
  | .pair a d => d.elements.map (a :: ·)
  | _ => none

def listToVector (d : Datum) : ReadM Datum :=
  match d.elements with
  | some xs => pure (.vector xs)
  | none => fun _ => .error (.listToVector d)

mutual
def readSharped (stringToNumber : StringToNumber) : Nat → ReadM Datum
  | 0 => diverges
  | n + 1 => do
    match ← pread with
    | none => lexicalError "invalid lexical syntax #~a" [none]
    | some c =>
      if c = 't' ∨ c = 'T' then pure (.bool true)
      else if c = 'f' ∨ c = 'F' then pure (.bool false)
      else if c = backslash then do readCharacter (← pread)
      else if c = 'b' ∨ c = 'B' then do readNumberImpl stringToNumber n (← pread) 2
      else if c = 'o' ∨ c = 'O' then do readNumberImpl stringToNumber n (← pread) 8
      else if c = 'd' ∨ c = 'D' then do readNumberImpl stringToNumber n (← pread) 10
      else if c = 'x' ∨ c = 'X' then do readNumberImpl stringToNumber n (← pread) 16
      else if quote c then do
        let name ← syntaxType c
        let d ← dispatch stringToNumber n (← pread)
        pure (.quoted name d)
      else if c = '(' then do listToVector (← readList stringToNumber n)
      else if c = '|' then do
        skipBlockComment n
        dispatch stringToNumber n (← pread)
      else lexicalError "invalid lexical syntax #~a" [some c]
def readList (stringToNumber : StringToNumber) : Nat → ReadM Datum
  | 0 => diverges
  | n + 1 => do
    match ← pread with
    | none => lexicalError "unexpected eof while reading list" []
    | some pc =>
      if pc = ')' then pure .null
      else if charWhitespace pc then readList stringToNumber n
      else if pc = ';' then do
        skipComment n
        readList stringToNumber n
      else if pc = '.' ∧ (← ppeek) ≠ some '.' then do
        let res ← dispatch stringToNumber n (← pread)
        if (← pread) = some ')' then pure res
        else lexicalError "unexpected data after dot" []
      else do
        let a ← dispatch stringToNumber n (some pc)
        let d ← readList stringToNumber n
        pure (.pair a d)
def readQuote (stringToNumber : StringToNumber) : Nat → Char → ReadM Datum
  | 0, _ => diverges
  | n + 1, pc => do
    let name ← quoteType pc
    let d ← dispatch stringToNumber n (← pread)
    pure (.quoted name d)
def dispatch (stringToNumber : StringToNumber) : Nat → Option Char → ReadM Datum
  | 0, _ => diverges
  | _ + 1, none => pure .eof
  | n + 1, some pc => do
    if charWhitespace pc then dispatch stringToNumber n (← pread)
    else if letter pc || initialChar pc then readSymol n pc
    else if ← peculiar pc then readPeculiar pc
    else if numberStart pc then readNumberImpl stringToNumber n (some pc) 10
    else if pc = dquote then readString n
    else if pc = '#' then readSharped stringToNumber n
    else if quote pc then readQuote stringToNumber n pc
    else if pc = '(' then readList stringToNumber n
    else if pc = ';' then do
      skipComment n
      dispatch stringToNumber n (← pread)
    else if pc = ')' then lexicalError "unexpecter closing parenthesis" []
    else lexicalError "invalid lexical ~a" [some pc]
end

def datumFromPort (stringToNumber : StringToNumber) (fuel : Nat) : ReadM Datum := do
  dispatch stringToNumber fuel (← pread)

example (number : StringToNumber) : datumFromPort number 40
      (makePortProxy ['(', 'a', ' ', '.', ' ', apostrophe, 'b', ')', ' ']) =
    .ok (.pair (.symbol "a") (.quoted "quote" (.symbol "b")), ⟨[' '], 1, 8⟩) := rfl

end LGears.Reader
