/-
Module: FlatLisp.Json.Basic
Purpose: JSON values, as far as settings need to tell them apart.
Main exports: Json, Json.Piece, Json.textOf?, Json.fields?, Json.natural?, Json.boolean?
-/

namespace FlatLisp

/-- A part of a string as it is written: a character, or a code unit escaped by number. -/
inductive Json.Piece where
  | char (c : Char)
  | unit (n : Nat)
deriving DecidableEq, Repr, Inhabited

/-- A JSON value. -/
inductive Json where
  | null
  | bool (value : Bool)
  /-- A number written with digits only. -/
  | natural (value : Nat)
  /-- Any other number. -/
  | number
  | string (pieces : List Json.Piece)
  | array (items : List Json)
  | object (members : List (List Json.Piece × Json))
deriving Repr, Inhabited

namespace Json

/-- The characters of a string. Escaped surrogates have to come in pairs. -/
def charsOf? : List Piece → Option (List Char)
  | [] => some []
  | .char c :: rest => (charsOf? rest).map (c :: ·)
  | .unit high :: .unit low :: rest =>
      if 0xd800 ≤ high ∧ high ≤ 0xdbff then
        if 0xdc00 ≤ low ∧ low ≤ 0xdfff then
          (charsOf? rest).map
            (Char.ofNat (0x10000 + (high - 0xd800) * 0x400 + (low - 0xdc00)) :: ·)
        else none
      else if 0xdc00 ≤ high ∧ high ≤ 0xdfff then none
      else (charsOf? (.unit low :: rest)).map (Char.ofNat high :: ·)
  | .unit n :: rest =>
      if 0xd800 ≤ n ∧ n ≤ 0xdfff then none else (charsOf? rest).map (Char.ofNat n :: ·)

/-- The text of a string. -/
def textOf? (pieces : List Piece) : Option String := (charsOf? pieces).map String.ofList

/-- The values of the named fields, in the order of the names, of a record that is written as an
object or as an array. Fields may be left out. In an object other members are passed over, and no
field may come twice; an array may not be longer than the names. -/
def fields? (names : List String) : Json → Option (List (Option Json))
  | .object members => do
      let members ← members.mapM fun (key, value) => return (← textOf? key, value)
      names.mapM fun name =>
        match members.filter (·.1 == name) with
        | [] => some none
        | [(_, value)] => some (some value)
        | _ => none
  | .array items =>
      if items.length ≤ names.length then
        some ((List.range names.length).map (items[·]?))
      else none
  | _ => none

/-- A number from zero to `limit`. -/
def natural? (limit : Nat) : Json → Option Nat
  | .natural n => if n ≤ limit then some n else none
  | _ => none

def boolean? : Json → Option Bool
  | .bool b => some b
  | _ => none

end Json

end FlatLisp
