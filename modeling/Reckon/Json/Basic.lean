/-
JSON values, and reading them.

Reading is strict: one value, blanks around it and nothing else, no leading zeros, no
trailing commas, no comments.  A numeral is kept as a number only if it is written as a
plain whole number; otherwise its text is kept.  A string may name halves of characters
beyond the sixteen-bit range; if the halves do not pair up, the string is well formed but
has no text.
-/
import Reckon.Text.Numeral

namespace Reckon

/-- A JSON value.  Members of an object stand in the order in which they were written. -/
inductive Json where
  | null
  | bool (b : Bool)
  | natural (n : Nat)
  | real (text : String)
  | string (text : Option String)
  | array (items : List Json)
  | object (members : List (Option String × Json))

namespace Json

/-- A character that may stand around values. -/
def isBlank (c : Char) : Bool :=
  c = ' ' || c = '\t' || c = '\n' || c = '\r'

/-- The text after its leading blanks. -/
def skipBlanks (cs : List Char) : List Char :=
  cs.dropWhile isBlank

/-! ## Strings -/

/-- A character of a string, or half of one. -/
inductive Piece where
  | char (c : Char)
  | half (unit : Nat)

/-- The value of a hexadecimal digit. -/
def hexValue? (c : Char) : Option Nat :=
  if '0' ≤ c && c ≤ '9' then some (c.toNat - 48)
  else if 'a' ≤ c && c ≤ 'f' then some (c.toNat - 87)
  else if 'A' ≤ c && c ≤ 'F' then some (c.toNat - 55)
  else none

/-- The piece with a given sixteen-bit number. -/
def pieceOfUnit (unit : Nat) : Piece :=
  if 0xD800 ≤ unit && unit < 0xE000 then .half unit else .char (Char.ofNat unit)

/-- The piece written by four hexadecimal digits. -/
def hexPiece? (a b c d : Char) : Option Piece := do
  return pieceOfUnit
    (4096 * (← hexValue? a) + 256 * (← hexValue? b) + 16 * (← hexValue? c) + (← hexValue? d))

/-- The character written by a backslash and a given character. -/
def shortEscape? (c : Char) : Option Char :=
  match c with
  | '"' => some '"'
  | '\\' => some '\\'
  | '/' => some '/'
  | 'b' => some '\x08'
  | 'f' => some '\x0c'
  | 'n' => some '\n'
  | 'r' => some '\r'
  | 't' => some '\t'
  | _ => none

/-- Reads a string after its opening quote. -/
def pieces : List Char → Option (List Piece × List Char)
  | [] => none
  | '"' :: rest => some ([], rest)
  | '\\' :: 'u' :: a :: b :: c :: d :: rest => do
    let piece ← hexPiece? a b c d
    let (following, rest) ← pieces rest
    return (piece :: following, rest)
  | '\\' :: e :: rest => do
    let c ← shortEscape? e
    let (following, rest) ← pieces rest
    return (.char c :: following, rest)
  | c :: rest => do
    if c = '\\' ∨ c.toNat < 32 then none
    else
      let (following, rest) ← pieces rest
      return (.char c :: following, rest)

/-- Joins the halves of characters. -/
def joinHalves : List Piece → Option (List Char)
  | [] => some []
  | .char c :: rest => (c :: ·) <$> joinHalves rest
  | .half high :: .half low :: rest =>
    if high < 0xDC00 ∧ 0xDC00 ≤ low then
      (Char.ofNat (0x10000 + (high - 0xD800) * 1024 + (low - 0xDC00)) :: ·) <$> joinHalves rest
    else none
  | .half _ :: _ => none

/-- Reads a string after its opening quote, with its text if it has one. -/
def stringTail (cs : List Char) : Option (Option String × List Char) := do
  let (found, rest) ← pieces cs
  return ((joinHalves found).map String.ofList, rest)

/-! ## Numbers -/

/-- Splits off the digits at the head of a text. -/
def digitRun (cs : List Char) : List Char × List Char :=
  (cs.takeWhile Text.isDigit, cs.dropWhile Text.isDigit)

/-- Splits off the digits at the head of a text, of which there must be one. -/
def digitRun? (cs : List Char) : Option (List Char × List Char) :=
  let (digits, rest) := digitRun cs
  if digits.isEmpty then none else some (digits, rest)

/-- Reads the whole part of a number: a zero, or digits that do not start with one. -/
def wholePart? : List Char → Option (List Char × List Char)
  | '0' :: rest => some (['0'], rest)
  | cs => digitRun? cs

/-- Reads the fraction of a number, if there is one. -/
def fractionPart? : List Char → Option (List Char × List Char)
  | '.' :: rest => (digitRun? rest).map fun (digits, rest) => ('.' :: digits, rest)
  | cs => some ([], cs)

/-- Splits off the sign of an exponent. -/
def signPart : List Char → List Char × List Char
  | '+' :: rest => (['+'], rest)
  | '-' :: rest => (['-'], rest)
  | rest => ([], rest)

/-- Reads the exponent of a number, if there is one. -/
def exponentPart? : List Char → Option (List Char × List Char)
  | c :: rest =>
    if c = 'e' ∨ c = 'E' then
      let (sign, rest) := signPart rest
      (digitRun? rest).map fun (digits, rest) => (c :: (sign ++ digits), rest)
    else some ([], c :: rest)
  | [] => some ([], [])

/-- Reads a number without its sign. -/
def unsigned? (cs : List Char) : Option (Json × List Char) := do
  let (whole, rest) ← wholePart? cs
  let (fraction, rest) ← fractionPart? rest
  let (exponent, rest) ← exponentPart? rest
  match fraction ++ exponent with
  | [] => return (natural (Text.digitsValue whole), rest)
  | tail => return (real (String.ofList (whole ++ tail)), rest)

/-- The text of an unsigned number with a minus sign before it. -/
def negated : Json → Json
  | natural n => real ("-" ++ toString n)
  | real text => real ("-" ++ text)
  | other => other

/-- Reads a number. -/
def number? : List Char → Option (Json × List Char)
  | '-' :: rest => (unsigned? rest).map fun (found, rest) => (negated found, rest)
  | cs => unsigned? cs

/-! ## Values -/

mutual

/-- Reads a value; `fuel` bounds the depth of the reading. -/
def value (fuel : Nat) (cs : List Char) : Option (Json × List Char) :=
  match fuel with
  | 0 => none
  | fuel + 1 =>
    match skipBlanks cs with
    | 'n' :: 'u' :: 'l' :: 'l' :: rest => some (null, rest)
    | 't' :: 'r' :: 'u' :: 'e' :: rest => some (bool true, rest)
    | 'f' :: 'a' :: 'l' :: 's' :: 'e' :: rest => some (bool false, rest)
    | '"' :: rest => (stringTail rest).map fun (text, rest) => (string text, rest)
    | '[' :: rest =>
      match skipBlanks rest with
      | ']' :: rest => some (array [], rest)
      | rest => (items fuel rest).map fun (found, rest) => (array found, rest)
    | '{' :: rest =>
      match skipBlanks rest with
      | '}' :: rest => some (object [], rest)
      | rest => (members fuel rest).map fun (found, rest) => (object found, rest)
    | rest => number? rest

/-- Reads the items of an array up to its closing bracket. -/
def items (fuel : Nat) (cs : List Char) : Option (List Json × List Char) :=
  match fuel with
  | 0 => none
  | fuel + 1 => do
    let (first, rest) ← value fuel cs
    match skipBlanks rest with
    | ']' :: rest => return ([first], rest)
    | ',' :: rest =>
      let (following, rest) ← items fuel rest
      return (first :: following, rest)
    | _ => none

/-- Reads the members of an object up to its closing brace. -/
def members (fuel : Nat) (cs : List Char) : Option (List (Option String × Json) × List Char) :=
  match fuel with
  | 0 => none
  | fuel + 1 =>
    match skipBlanks cs with
    | '"' :: rest => do
      let (key, rest) ← stringTail rest
      match skipBlanks rest with
      | ':' :: rest =>
        let (first, rest) ← value fuel rest
        match skipBlanks rest with
        | '}' :: rest => return ([(key, first)], rest)
        | ',' :: rest =>
          let (following, rest) ← members fuel rest
          return ((key, first) :: following, rest)
        | _ => none
      | _ => none
    | _ => none

end

/-- Reads a text that holds one value.  Each character is worth two levels of depth at most,
so the fuel never runs out first. -/
def read? (s : String) : Option Json := do
  let cs := s.toList
  let (found, rest) ← value (2 * cs.length + 2) cs
  if (skipBlanks rest).isEmpty then some found else none

end Json

end Reckon
