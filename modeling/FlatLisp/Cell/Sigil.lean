/-
Module: FlatLisp.Cell.Sigil
Purpose: The decoration of a symbol or list: the characters written before it.
Main exports: Sigil, Sigil.code, Sigil.ofCode?, Sigil.ofByte?, Sigil.combine, Sigil.text
-/
import FlatLisp.Text.Ascii

namespace FlatLisp

/-- The decorations, in the order of their codes. `plus` and `minus` stand before lists only; a
sign before a symbol belongs to its text. -/
inductive Sigil where
  | bare
  | quote
  | quasiquote
  | unquote
  | unquoteSplicing
  | sharp
  | sharpQuote
  | atSign
  | ampersand
  | plus
  | minus
deriving DecidableEq, Repr, Inhabited

namespace Sigil

open Text

/-- The number by which a header names a sigil. -/
def code : Sigil → Nat
  | .bare => 0
  | .quote => 1
  | .quasiquote => 2
  | .unquote => 3
  | .unquoteSplicing => 4
  | .sharp => 5
  | .sharpQuote => 6
  | .atSign => 7
  | .ampersand => 8
  | .plus => 9
  | .minus => 10

def ofCode? : Nat → Option Sigil
  | 0 => some .bare
  | 1 => some .quote
  | 2 => some .quasiquote
  | 3 => some .unquote
  | 4 => some .unquoteSplicing
  | 5 => some .sharp
  | 6 => some .sharpQuote
  | 7 => some .atSign
  | 8 => some .ampersand
  | 9 => some .plus
  | 10 => some .minus
  | _ => none

@[simp] theorem ofCode?_code (s : Sigil) : ofCode? s.code = some s := by
  cases s <;> rfl

theorem code_lt (s : Sigil) : s.code < 11 := by
  cases s <;> decide

/-- The sigil that one character begins. -/
def ofByte? (c : UInt8) : Option Sigil :=
  if c = Ascii.quote then some .quote
  else if c = Ascii.backquote then some .quasiquote
  else if c = Ascii.comma then some .unquote
  else if c = Ascii.sharp then some .sharp
  else if c = Ascii.atSign then some .atSign
  else if c = Ascii.ampersand then some .ampersand
  else none

/-- The sigil after one more character. Two sigils have two characters. -/
def combine : Sigil → UInt8 → Option Sigil
  | .bare, c => ofByte? c
  | .unquote, c => if c = Ascii.atSign then some .unquoteSplicing else none
  | .sharp, c => if c = Ascii.quote then some .sharpQuote else none
  | _, _ => none

/-- The characters of a sigil. -/
def text : Sigil → List UInt8
  | .bare => []
  | .quote => [Ascii.quote]
  | .quasiquote => [Ascii.backquote]
  | .unquote => [Ascii.comma]
  | .unquoteSplicing => [Ascii.comma, Ascii.atSign]
  | .sharp => [Ascii.sharp]
  | .sharpQuote => [Ascii.sharp, Ascii.quote]
  | .atSign => [Ascii.atSign]
  | .ampersand => [Ascii.ampersand]
  | .plus => [Ascii.plus]
  | .minus => [Ascii.minus]

/-- A sigil that is only allowed inside a quasiquote. -/
def isUnquote : Sigil → Bool
  | .unquote | .unquoteSplicing => true
  | _ => false

instance : Ord Sigil := ⟨fun s t => compare s.code t.code⟩

end Sigil

end FlatLisp
