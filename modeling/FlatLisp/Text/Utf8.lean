/-
Module: FlatLisp.Text.Utf8
Purpose: Text as UTF-8 bytes, and bytes as text: strictly, or with a replacement character for
  every ill-formed part.
Main exports: Utf8.encode, Utf8.decode?, Utf8.decodeLossy
-/

namespace FlatLisp.Text.Utf8

/-- The bytes of a character. -/
def encodeChar (c : Char) : List UInt8 :=
  let n := c.toNat
  let last (k : Nat) : UInt8 := UInt8.ofNat (128 + n / k % 64)
  if n < 128 then [UInt8.ofNat n]
  else if n < 2048 then [UInt8.ofNat (192 + n / 64), last 1]
  else if n < 65536 then [UInt8.ofNat (224 + n / 4096), last 64, last 1]
  else [UInt8.ofNat (240 + n / 262144), last 4096, last 64, last 1]

/-- The bytes of a text. -/
def encode (text : String) : List UInt8 := text.toList.flatMap encodeChar

/-- The number of continuation bytes after a lead byte, and the range in which the first of them
must be so that the character has no shorter form and is in Unicode's range. -/
def lead? (b : UInt8) : Option (Nat × UInt8 × UInt8) :=
  if 0xc2 ≤ b && b ≤ 0xdf then some (1, 0x80, 0xbf)
  else if b == 0xe0 then some (2, 0xa0, 0xbf)
  else if b == 0xed then some (2, 0x80, 0x9f)
  else if 0xe1 ≤ b && b ≤ 0xef then some (2, 0x80, 0xbf)
  else if b == 0xf0 then some (3, 0x90, 0xbf)
  else if 0xf1 ≤ b && b ≤ 0xf3 then some (3, 0x80, 0xbf)
  else if b == 0xf4 then some (3, 0x80, 0x8f)
  else none

/-- Read `count` continuation bytes, the first between `low` and `high`, onto the number `n` that
the bytes before them spell. Where one is missing, what was read so far is ill-formed. -/
def continuation : (count : Nat) → (low high : UInt8) → (n : Nat) → List UInt8 →
    Option Char × List UInt8
  | 0, _, _, n, rest => (some (Char.ofNat n), rest)
  | count + 1, low, high, n, b :: rest =>
      if low ≤ b && b ≤ high then
        continuation count 0x80 0xbf (n * 64 + b.toNat % 64) rest
      else (none, b :: rest)
  | _ + 1, _, _, _, [] => (none, [])

theorem length_continuation_le (count : Nat) (low high : UInt8) (n : Nat) (bytes : List UInt8) :
    (continuation count low high n bytes).2.length ≤ bytes.length := by
  induction count generalizing low high n bytes with
  | zero => simp [continuation]
  | succ count ih =>
      match bytes with
      | [] => simp [continuation]
      | b :: rest =>
          rw [continuation]
          split
          · exact Nat.le_succ_of_le (ih _ _ _ rest)
          · exact Nat.le_refl _

/-- The lead byte's own bits of a character that `count` bytes continue. -/
def leadBits (count : Nat) (b : UInt8) : Nat := b.toNat % (1 <<< (6 - count))

/-- The characters that bytes spell; `none` for each longest ill-formed part that could begin a
character. -/
def decode : List UInt8 → List (Option Char)
  | [] => []
  | b :: rest =>
      if b < 0x80 then some (Char.ofNat b.toNat) :: decode rest
      else
        match lead? b with
        | some (count, low, high) =>
            let read := continuation count low high (leadBits count b) rest
            read.1 :: decode read.2
        | none => none :: decode rest
termination_by bytes => bytes.length
decreasing_by
  · simp
  · exact Nat.lt_succ_of_le (length_continuation_le ..)
  · simp

/-- The text of well-formed bytes. -/
def decode? (bytes : List UInt8) : Option String :=
  ((decode bytes).mapM id).map String.ofList

/-- The text of any bytes, with U+FFFD for each ill-formed part. -/
def decodeLossy (bytes : List UInt8) : String :=
  String.ofList ((decode bytes).map (·.getD (Char.ofNat 0xfffd)))

end FlatLisp.Text.Utf8
