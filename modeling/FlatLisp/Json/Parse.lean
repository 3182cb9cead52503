/-
Module: FlatLisp.Json.Parse
Purpose: Reading JSON text.
Main exports: Json.parse?
-/
import FlatLisp.Json.Basic

namespace FlatLisp.Json

/-- What a part of the grammar makes of a text: a result and the rest of the text. -/
abbrev Step (α : Type) := List Char → Option (α × List Char)

def isBlank (c : Char) : Bool := c == ' ' || c == '\t' || c == '\n' || c == '\r'

def skipBlanks (text : List Char) : List Char := text.dropWhile isBlank

/-- The double quote, which strings begin and end with. -/
def quoteMark : Char := Char.ofNat 0x22

/-- The backslash, which escapes begin with. -/
def escapeMark : Char := Char.ofNat 0x5c

/-! ### Numbers -/

/-- At least one digit. -/
def digits? : Step (List Char) := fun text =>
  match text.takeWhile Char.isDigit with
  | [] => none
  | found => some (found, text.dropWhile Char.isDigit)

/-- The digits before a fraction: no zero comes before another digit. -/
def whole? : Step (List Char)
  | '0' :: rest =>
      match rest with
      | c :: _ => if c.isDigit then none else some (['0'], rest)
      | [] => some (['0'], rest)
  | text => digits? text

/-- A fraction, which may be left out, and whether it was there. -/
def fraction? : Step Bool
  | '.' :: text => (digits? text).map fun (_, rest) => (true, rest)
  | text => some (false, text)

/-- An exponent, which may be left out, and whether it was there. -/
def exponent? : Step Bool
  | c :: text =>
      if c == 'e' || c == 'E' then
        let unsigned :=
          match text with
          | '+' :: more => more
          | '-' :: more => more
          | _ => text
        (digits? unsigned).map fun (_, rest) => (true, rest)
      else some (false, c :: text)
  | [] => some (false, [])

/-- A fraction and an exponent, and whether one of them was there. -/
def decimals? : Step Bool := fun text => do
  let (fraction, text) ← fraction? text
  let (exponent, text) ← exponent? text
  return (fraction || exponent, text)

/-- The number that decimal digits spell. -/
def valueOf (digits : List Char) : Nat :=
  digits.foldl (fun n c => n * 10 + (c.toNat - '0'.toNat)) 0

def number? : Step Json
  | '-' :: text => do
      let (_, text) ← whole? text
      let (_, text) ← decimals? text
      return (.number, text)
  | text => do
      let (digits, text) ← whole? text
      let (decimal, text) ← decimals? text
      return (if decimal then .number else .natural (valueOf digits), text)

/-! ### Strings -/

/-- The value of a hexadecimal digit. -/
def hexDigit? (c : Char) : Option Nat :=
  if c.isDigit then some (c.toNat - '0'.toNat)
  else if 'a' ≤ c ∧ c ≤ 'f' then some (c.toNat - 'a'.toNat + 10)
  else if 'A' ≤ c ∧ c ≤ 'F' then some (c.toNat - 'A'.toNat + 10)
  else none

/-- The character that one letter after a backslash stands for. -/
def escape? (c : Char) : Option Char :=
  if c == quoteMark || c == escapeMark || c == '/' then some c
  else if c == 'b' then some (Char.ofNat 0x08)
  else if c == 'f' then some (Char.ofNat 0x0c)
  else if c == 'n' then some '\n'
  else if c == 'r' then some '\r'
  else if c == 't' then some '\t'
  else none

/-- The rest of a string, after its first quote. Control characters have to be escaped. -/
def string? : Step (List Piece)
  | [] => none
  | c :: rest =>
      if c == quoteMark then some ([], rest)
      else if c == escapeMark then
        match rest with
        | 'u' :: a :: b :: d :: e :: rest => do
            let n := (((← hexDigit? a) * 16 + (← hexDigit? b)) * 16 + (← hexDigit? d)) * 16
              + (← hexDigit? e)
            let (pieces, rest) ← string? rest
            return (.unit n :: pieces, rest)
        | letter :: rest => do
            let c ← escape? letter
            let (pieces, rest) ← string? rest
            return (.char c :: pieces, rest)
        | [] => none
      else if c.toNat < 0x20 then none
      else do
        let (pieces, rest) ← string? rest
        return (.char c :: pieces, rest)

/-! ### Values -/

/-- Take a word from the front of a text. -/
def word? (word : String) (value : Json) : Step Json := fun text =>
  if word.toList.isPrefixOf text then some (value, text.drop word.length) else none

mutual

/-- A value, after blanks. Every level of nesting and every item takes one unit of fuel, so the
length of the text is enough. -/
def value? : (fuel : Nat) → Step Json
  | 0, _ => none
  | fuel + 1, text =>
      match skipBlanks text with
      | [] => none
      | c :: rest =>
          if c == '\x7b' then
            match skipBlanks rest with
            | '\x7d' :: rest => some (.object [], rest)
            | text => do
                let (members, rest) ← members? fuel text
                return (.object members, rest)
          else if c == '[' then
            match skipBlanks rest with
            | ']' :: rest => some (.array [], rest)
            | text => do
                let (items, rest) ← items? fuel text
                return (.array items, rest)
          else if c == quoteMark then do
            let (pieces, rest) ← string? rest
            return (.string pieces, rest)
          else if c == 't' then word? "true" (.bool true) (c :: rest)
          else if c == 'f' then word? "false" (.bool false) (c :: rest)
          else if c == 'n' then word? "null" .null (c :: rest)
          else number? (c :: rest)

/-- The items of an array, up to its closing bracket. -/
def items? : (fuel : Nat) → Step (List Json)
  | 0, _ => none
  | fuel + 1, text => do
      let (item, text) ← value? fuel text
      match skipBlanks text with
      | ',' :: rest => do
          let (items, rest) ← items? fuel rest
          return (item :: items, rest)
      | ']' :: rest => some ([item], rest)
      | _ => none

/-- The members of an object, up to its closing brace. -/
def members? : (fuel : Nat) → Step (List (List Piece × Json))
  | 0, _ => none
  | fuel + 1, text =>
      match skipBlanks text with
      | [] => none
      | c :: rest =>
          if c == quoteMark then do
            let (key, rest) ← string? rest
            match skipBlanks rest with
            | ':' :: rest =>
                let (value, rest) ← value? fuel rest
                match skipBlanks rest with
                | ',' :: rest => do
                    let (members, rest) ← members? fuel rest
                    return ((key, value) :: members, rest)
                | '\x7d' :: rest => some ([(key, value)], rest)
                | _ => none
            | _ => none
          else none

end

/-- The value that a whole text spells. -/
def parse? (text : String) : Option Json := do
  let chars := text.toList
  let (value, rest) ← value? (chars.length + 1) chars
  if (skipBlanks rest).isEmpty then some value else none

end FlatLisp.Json
