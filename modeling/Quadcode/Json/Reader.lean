import Quadcode.Json.Basic

/-!
# Reading JSON

`Json.read? text` is the value that `text` holds, or `none` when `text` is not exactly one JSON
value between blanks. Escapes are read as UTF-16 units and joined afterwards, so that a lone
surrogate does not stop the reader.
-/

namespace Quadcode.Json.Reader

def isBlank (c : Char) : Bool := c == ' ' || c == '\n' || c == '\t' || c == '\r'

def skipBlanks : List Char → List Char
  | c :: rest => if isBlank c then skipBlanks rest else c :: rest
  | [] => []

def digit? (c : Char) : Option Nat :=
  if '0' ≤ c ∧ c ≤ '9' then some (c.toNat - '0'.toNat) else none

def hexDigit? (c : Char) : Option Nat :=
  if '0' ≤ c ∧ c ≤ '9' then some (c.toNat - '0'.toNat)
  else if 'a' ≤ c ∧ c ≤ 'f' then some (c.toNat - 'a'.toNat + 10)
  else if 'A' ≤ c ∧ c ≤ 'F' then some (c.toNat - 'A'.toNat + 10)
  else none

/-- The digits at the front, collected in reverse, and what follows them. -/
def takeDigits : List Nat → List Char → List Nat × List Char
  | acc, c :: rest =>
    match digit? c with
    | some d => takeDigits (d :: acc) rest
    | none => (acc.reverse, c :: rest)
  | acc, [] => (acc.reverse, [])

/-- What follows the whole part of a number: a point with digits, an exponent with digits. -/
def fraction? : List Char → Option (Bool × List Nat × List Char)
  | '.' :: rest =>
    match takeDigits [] rest with
    | ([], _) => none
    | (ds, rest) => some (true, ds, rest)
  | rest => some (false, [], rest)

def exponent? : List Char → Option (Option (Bool × List Nat) × List Char)
  | c :: rest =>
    if c == 'e' || c == 'E' then
      let (down, rest) := match rest with
        | '+' :: r => (false, r)
        | '-' :: r => (true, r)
        | r => (false, r)
      match takeDigits [] rest with
      | ([], _) => none
      | (ds, rest) => some (some (down, ds), rest)
    else some (none, c :: rest)
  | [] => some (none, [])

/-- A number; a leading zero stands alone. -/
def number? (cs : List Char) : Option (Number × List Char) :=
  let (negative, cs) := match cs with
    | '-' :: r => (true, r)
    | r => (false, r)
  match takeDigits [] cs with
  | ([], _) => none
  | (0 :: _ :: _, _) => none
  | (whole, rest) => do
    let (pointed, fraction, rest) ← fraction? rest
    let (exponent, rest) ← exponent? rest
    pure (⟨negative, whole, fraction, pointed, exponent⟩, rest)

/-- A piece of a text: a character, or one UTF-16 unit of an escape. -/
inductive Piece where
  | char (c : Char)
  | unit (u : Nat)

/-- Four hexadecimal digits. -/
def unit? : List Char → Option (Nat × List Char)
  | a :: b :: c :: d :: rest => do
    let a ← hexDigit? a
    let b ← hexDigit? b
    let c ← hexDigit? c
    let d ← hexDigit? d
    pure (((a * 16 + b) * 16 + c) * 16 + d, rest)
  | _ => none

/-- The pieces of a text up to its closing quote, in reverse. -/
def pieces? : (fuel : Nat) → List Piece → List Char → Option (List Piece × List Char)
  | 0, _, _ => none
  | _ + 1, acc, '"' :: rest => some (acc, rest)
  | fuel + 1, acc, '\\' :: c :: rest =>
    match c with
    | '"' => pieces? fuel (.char '"' :: acc) rest
    | '\\' => pieces? fuel (.char '\\' :: acc) rest
    | '/' => pieces? fuel (.char '/' :: acc) rest
    | 'b' => pieces? fuel (.char '\x08' :: acc) rest
    | 'f' => pieces? fuel (.char '\x0c' :: acc) rest
    | 'n' => pieces? fuel (.char '\n' :: acc) rest
    | 'r' => pieces? fuel (.char '\r' :: acc) rest
    | 't' => pieces? fuel (.char '\t' :: acc) rest
    | 'u' =>
      match unit? rest with
      | some (u, rest) => pieces? fuel (.unit u :: acc) rest
      | none => none
    | _ => none
  | fuel + 1, acc, c :: rest =>
    if c.toNat < 0x20 then none else pieces? fuel (.char c :: acc) rest
  | _ + 1, _, [] => none

def isHighSurrogate (u : Nat) : Bool := 0xD800 ≤ u && u < 0xDC00
def isLowSurrogate (u : Nat) : Bool := 0xDC00 ≤ u && u < 0xE000

/-- Joins the units of surrogate pairs; a unit of half a pair has no character. -/
def join? : List Char → List Piece → Option (List Char)
  | acc, [] => some acc.reverse
  | acc, .char c :: rest => join? (c :: acc) rest
  | acc, .unit u :: rest =>
    if isHighSurrogate u then
      match rest with
      | .unit v :: rest =>
        if isLowSurrogate v then
          join? (Char.ofNat (0x10000 + (u - 0xD800) * 0x400 + (v - 0xDC00)) :: acc) rest
        else none
      | _ => none
    else if isLowSurrogate u then none
    else join? (Char.ofNat u :: acc) rest

/-- A text after its opening quote. -/
def text? (cs : List Char) : Option (Option String × List Char) :=
  (pieces? (cs.length + 1) [] cs).map fun (ps, rest) =>
    ((join? [] ps.reverse).map String.ofList, rest)

/-- Whether the input starts with a word, and what follows it. -/
def word? : List Char → List Char → Option (List Char)
  | [], cs => some cs
  | w :: ws, c :: cs => if w = c then word? ws cs else none
  | _ :: _, [] => none

mutual

/-- A value, blanks before it skipped. Every nested call has consumed a character. -/
def value? : (fuel : Nat) → List Char → Option (Json × List Char)
  | 0, _ => none
  | fuel + 1, cs =>
    match skipBlanks cs with
    | '"' :: rest => (text? rest).map fun (s, rest) => (.str s, rest)
    | '[' :: rest =>
      match skipBlanks rest with
      | ']' :: rest => some (.arr [], rest)
      | rest => items? fuel [] rest
    | '\x7b' :: rest =>
      match skipBlanks rest with
      | '\x7d' :: rest => some (.obj [], rest)
      | rest => fields? fuel [] rest
    | 'n' :: rest => (word? ['u', 'l', 'l'] rest).map (.null, ·)
    | 't' :: rest => (word? ['r', 'u', 'e'] rest).map (.bool true, ·)
    | 'f' :: rest => (word? ['a', 'l', 's', 'e'] rest).map (.bool false, ·)
    | rest => (number? rest).map fun (n, rest) => (.num n, rest)

/-- The items of a list after its bracket, the ones already read in reverse. -/
def items? : (fuel : Nat) → List Json → List Char → Option (Json × List Char)
  | 0, _, _ => none
  | fuel + 1, acc, cs =>
    match value? fuel cs with
    | none => none
    | some (item, rest) =>
      match skipBlanks rest with
      | ',' :: rest => items? fuel (item :: acc) rest
      | ']' :: rest => some (.arr (item :: acc).reverse, rest)
      | _ => none

/-- The fields of an object after its brace, the ones already read in reverse. -/
def fields? : (fuel : Nat) → List (Option String × Json) → List Char → Option (Json × List Char)
  | 0, _, _ => none
  | fuel + 1, acc, cs =>
    match skipBlanks cs with
    | '"' :: rest =>
      match text? rest with
      | none => none
      | some (name, rest) =>
        match skipBlanks rest with
        | ':' :: rest =>
          match value? fuel rest with
          | none => none
          | some (item, rest) =>
            match skipBlanks rest with
            | ',' :: rest => fields? fuel ((name, item) :: acc) rest
            | '\x7d' :: rest => some (.obj ((name, item) :: acc).reverse, rest)
            | _ => none
        | _ => none
    | _ => none

end

end Quadcode.Json.Reader

namespace Quadcode.Json

/-- The one value a text holds. -/
def read? (text : String) : Option Json :=
  let cs := text.toList
  match Reader.value? (cs.length + 1) cs with
  | some (value, rest) => if (Reader.skipBlanks rest).isEmpty then some value else none
  | none => none

end Quadcode.Json
