/-
Module: FlatLisp.Text.Ascii
Purpose: The bytes that have a meaning of their own in written values.
Main exports: Ascii.isBlank, Ascii.isDigit and a name for each such byte
-/

namespace FlatLisp.Text.Ascii

def tab : UInt8 := 0x09
def newline : UInt8 := 0x0a
def carriageReturn : UInt8 := 0x0d
def space : UInt8 := 0x20
def doubleQuote : UInt8 := 0x22
def sharp : UInt8 := 0x23
def ampersand : UInt8 := 0x26
def quote : UInt8 := 0x27
def openParen : UInt8 := 0x28
def closeParen : UInt8 := 0x29
def plus : UInt8 := 0x2b
def comma : UInt8 := 0x2c
def minus : UInt8 := 0x2d
def zero : UInt8 := 0x30
def nine : UInt8 := 0x39
def semicolon : UInt8 := 0x3b
def atSign : UInt8 := 0x40
def backslash : UInt8 := 0x5c
def backquote : UInt8 := 0x60

/-- Space, tab, line feed or carriage return. -/
def isBlank (c : UInt8) : Bool :=
  c == space || c == tab || c == newline || c == carriageReturn

def isDigit (c : UInt8) : Bool := zero ≤ c && c ≤ nine

/-- The value of a digit. -/
def digitValue (c : UInt8) : Nat := c.toNat - zero.toNat

/-- The digit of a value below ten. -/
def digit (n : Nat) : UInt8 := UInt8.ofNat (zero.toNat + n)

end FlatLisp.Text.Ascii
