/-
Module: FlatLisp.Printing.Options
Purpose: How values are written.
Main exports: PrintOptions, PrintOptions.compact, Decimal.digits
-/
import FlatLisp.Text.Ascii

namespace FlatLisp

/-- How values are written. -/
structure PrintOptions where
  /-- Spaces for each level of nesting, where a list is wrapped. -/
  indent : Nat := 2
  /-- A list with more children than this has each of them on a line of its own; zero for never. -/
  wrapAfter : Nat := 0
  /-- Write a plus before integers that are not negative. -/
  explicitSign : Bool := true
deriving DecidableEq, Repr, Inhabited

/-- A single line, and no sign that is not needed. -/
def PrintOptions.compact : PrintOptions := { explicitSign := false }

/-- Whether a list of `count` children is wrapped. -/
def PrintOptions.wraps (o : PrintOptions) (count : Nat) : Bool :=
  o.wrapAfter != 0 && o.wrapAfter < count

/-- The decimal digits of a number, without leading zeros. -/
def Decimal.digits (n : Nat) : List UInt8 :=
  if n < 10 then [Text.Ascii.digit n] else digits (n / 10) ++ [Text.Ascii.digit (n % 10)]

end FlatLisp
