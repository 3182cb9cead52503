/-
Module: FlatLisp.Text.Hex
Purpose: Numbers in base sixteen, as positions and bytes are shown in messages.
Main exports: Hex.address, Hex.byte
-/

namespace FlatLisp.Text.Hex

/-- `0x` and the lower-case digits of `n`, at least `digits` of them. -/
def padded (digits n : Nat) : String :=
  let text := Nat.toDigits 16 n
  String.ofList ('0' :: 'x' :: (List.replicate (digits - text.length) '0' ++ text))

/-- A position, in at least four digits. -/
def address (n : Nat) : String := padded 4 n

/-- A byte, in two digits. -/
def byte (b : UInt8) : String := padded 2 b.toNat

end FlatLisp.Text.Hex
