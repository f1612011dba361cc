import LGears.Reader

/- put-datum of core.ports, as the text that it writes. -/
namespace LGears.PutDatum
open StateExcept Reader

/-- How put-datum fails. -/
inductive PutError where
  /-- car and cdr of an object that is no pair. -/
  | notPair
  /-- dispatch has one parameter; the tail of an improper list is passed on with the port. -/
  | wrongArguments
  /-- (error 'put-datum "unknown datum" datum) -/
  | unknownDatum (datum : Datum)

def charTable : List (Char × List Char) :=
  [(' ', ['#', backslash, 's', 'p', 'a', 'c', 'e']),
   (Char.ofNat 0, ['#', backslash, 'n', 'u', 'l']),
   (Char.ofNat 7, ['#', backslash, 'a', 'l', 'a', 'r', 'm']),
   (Char.ofNat 8, ['#', backslash, 'b', 'a', 'c', 'k', 's', 'p', 'a', 'c', 'e']),
   (Char.ofNat 9, ['#', backslash, 't', 'a', 'b']),
   (newline, ['#', backslash, 'l', 'i', 'n', 'e', 'f', 'e', 'e', 'd']),
   (Char.ofNat 11, ['#', backslash, 'v', 't', 'a', 'b']),
   (Char.ofNat 12, ['#', backslash, 'p', 'a', 'g', 'e']),
   (Char.ofNat 13, ['#', backslash, 'r', 'e', 't', 'u', 'r', 'n']),
   (Char.ofNat 27, ['#', backslash, 'e', 's', 'c']),
   (' ', ['#', backslash, 's', 'p', 'a', 'c', 'e']),
   (Char.ofNat 127, ['#', backslash, 'd', 'e', 'l', 'e', 't', 'e'])]

/-- What put-quote writes in front of (cadr obj), when the car of obj is one of the symbols of
    quote?. -/
def quoteText : Datum → Option (List Char)
  | .symbol "quote" => some [apostrophe]
  | .symbol "quasiquote" => some [backquote]
  | .symbol "unquote" => some [',']
  | .symbol "unquote-splicing" => some [',', '@']
  | .symbol "syntax" => some ['#', apostrophe]
  | .symbol "quasisyntax" => some ['#', backquote]
  | .symbol "unsyntax" => some ['#', ',']
  | .symbol "unsyntax-splicing" => some ['#', ',', '@']
  | _ => none

/-- The character that is read where put-char writes (string c). string-set! stores the low byte of
    the code and string-ref returns it as a signed char: the codes from -128 to -1, which no Char
    has, stand at the end of the type. -/
def byteChar (c : Char) : Char :=
  let byte := c.toNat % 256
  if byte < 128 then Char.ofNat byte else Char.ofNat (0x10FF00 + byte)

def putChar (c : Char) : List Char :=
  match charTable.lookup c with
  | some text => text
  | none => ['#', backslash, byteChar c]

mutual
/-- dispatch of put-datum. The characters of a string or a symbol are bytes already. -/
def putDatum : Datum → Except PutError (List Char)
  | .string s => pure (dquote :: s.toList ++ [dquote])
  | .char c => pure (putChar c)
  | .pair a d =>
    match quoteText a, d with
    | some text, .pair x _ => do return text ++ (← putDatum x)
    | some _, _ => throw .notPair
    | none, d => do return '(' :: (← putDatum a) ++ (← putRest d) ++ [')']
  -- put-pair of the elements as a list; the list of an empty vector has no car
  | .vector [] => throw .notPair
  | .vector (x :: xs) => do return '#' :: '(' :: (← putDatum x) ++ (← putElements xs) ++ [')']
  | .null => pure ['(', ')']
  | .symbol s => pure s.toList
  | .bool b => pure ['#', if b then 't' else 'f']
  | .eof => throw (.unknownDatum .eof)
  | .number n => throw (.unknownDatum (.number n))
/-- The loop of put-pair behind an element, (cdr pair) being the parameter. -/
def putRest : Datum → Except PutError (List Char)
  | .pair a d => do return ' ' :: (← putDatum a) ++ (← putRest d)
  | .null => pure []
  | _ => throw .wrongArguments
/-- The same for the elements of a vector. -/
def putElements : List Datum → Except PutError (List Char)
  | [] => pure []
  | x :: xs => do return ' ' :: (← putDatum x) ++ (← putElements xs)
end

/-- The list of the elements: vector->list, and what the reader makes of them. -/
def listOf (xs : List Datum) : Datum := xs.foldr .pair .null

theorem putElements_eq (xs : List Datum) : putElements xs = putRest (listOf xs) := by
  induction xs with
  | nil => rfl
  | cons x xs ih => rw [listOf, List.foldr_cons, putElements, putRest, ih, listOf]

theorem elements_listOf (xs : List Datum) : (listOf xs).elements = some xs := by
  induction xs with
  | nil => rfl
  | cons x xs ih =>
    rw [listOf] at ih
    rw [listOf, List.foldr_cons, Datum.elements, ih]
    rfl

theorem elements_eq : ∀ {d : Datum} {xs : List Datum}, d.elements = some xs → d = listOf xs
  | .null, xs, elements => by
    cases elements
    rfl
  | .pair a d, xs, elements => by
    rw [Datum.elements, Option.map_eq_some_iff] at elements
    obtain ⟨ys, inner, rfl⟩ := elements
    rw [elements_eq inner, listOf, listOf, List.foldr_cons]
  | .eof, xs, elements | .bool _, xs, elements | .char _, xs, elements | .string _, xs, elements
  | .number _, xs, elements | .symbol _, xs, elements | .vector _, xs, elements => by
    cases elements

end LGears.PutDatum
