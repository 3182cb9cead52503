/-
Module: FlatLisp.Cell.Header
Purpose: Cell headers and their bytes.
Main exports: Header, Header.encode, Header.decode, Header.lengthFor, Header.footprint
-/
import FlatLisp.Bytes
import FlatLisp.Cell.Sigil

namespace FlatLisp

/-- The header of a cell. A symbol's characters, or a list's children, follow it; where the cell
is `linked`, the address of them in outside memory follows instead. -/
inductive Header where
  | symbol (length : Nat) (sigil : Sigil) (quoted linked : Bool) (hash : UInt8)
  | integer (value : Int)
  | list (count : Nat) (sigil : Sigil) (linked : Bool)
deriving DecidableEq, Repr, Inhabited

namespace Header

/-- The most characters of a symbol. -/
def maxSymbol : Nat := 63

/-- The most children of a list. -/
def maxCount : Nat := 511

/-- The largest magnitude of an integer. -/
def maxMagnitude : Nat := 536870911

/-- The length of a symbol's header. -/
def symbolLength : Nat := 3

/-- The length of an integer, all of which is header. -/
def integerLength : Nat := 4

/-- The length of a list's header. -/
def listLength : Nat := 2

/-- The length of the address that follows a linked header. -/
def addressLength : Nat := 2

/-- The two low bits of the first byte, which tell the kinds of cell apart. -/
def tag : Header → Nat
  | .symbol .. => 1
  | .integer .. => 2
  | .list .. => 3

def length : Header → Nat
  | .symbol .. => symbolLength
  | .integer .. => integerLength
  | .list .. => listLength

/-- The length of the header that begins with the byte `first`, if any does. -/
def lengthFor (first : UInt8) : Option Nat :=
  match first.toNat % 4 with
  | 1 => some symbolLength
  | 2 => some integerLength
  | 3 => some listLength
  | _ => none

/-- The cell's characters or children are in outside memory. -/
def isLinked : Header → Bool
  | .symbol _ _ _ linked _ => linked
  | .integer _ => false
  | .list _ _ linked => linked

/-- The decoration of a cell; integers have none. -/
def sigil : Header → Sigil
  | .symbol _ s _ _ _ => s
  | .integer _ => .bare
  | .list _ s _ => s

/-- The bytes that belong to the cell alone, the children of a list left out. -/
def footprint : Header → Nat
  | .symbol n _ _ linked _ => symbolLength + if linked then addressLength else n
  | .integer _ => integerLength
  | .list _ _ linked => listLength + if linked then addressLength else 0

/-- The bytes of a header. Lengths and counts that are too large lose their high bits, and
integers that are too large become the largest. -/
def encode : Header → List UInt8
  | .symbol n s quoted linked hash =>
      Word.bytes (1 + 4 * (n % 64) + 256 * s.code + 4096 * linked.toNat + 8192 * quoted.toNat)
        ++ [hash]
  | .integer value =>
      let magnitude := min value.natAbs maxMagnitude
      Word.bytes (2 + 4 * (decide (value < 0)).toNat + 8 * (magnitude / 65536))
        ++ Word.bytes (magnitude % 65536)
  | .list count s linked =>
      Word.bytes (3 + 4 * s.code + 64 * linked.toNat + 128 * (count % 512))

/-- The header that begins `bytes`, if they hold a whole one. -/
def decode : List UInt8 → Option Header
  | b0 :: b1 :: rest =>
      let word := Word.value b0 b1
      match word % 4, rest with
      | 1, hash :: _ =>
          (Sigil.ofCode? (word / 256 % 16)).map fun s =>
            .symbol (word / 4 % 64) s (word / 8192 % 2 = 1) (word / 4096 % 2 = 1) hash
      | 2, b2 :: b3 :: _ =>
          let magnitude : Int := (word / 8 * 65536 + Word.value b2 b3 : Nat)
          some (.integer (if word / 4 % 2 = 1 then -magnitude else magnitude))
      | 3, _ =>
          (Sigil.ofCode? (word / 4 % 16)).map fun s => .list (word / 128) s (word / 64 % 2 = 1)
      | _, _ => none
  | _ => none

@[simp] theorem length_encode (h : Header) : h.encode.length = h.length := by
  cases h <;> rfl

end Header

end FlatLisp
