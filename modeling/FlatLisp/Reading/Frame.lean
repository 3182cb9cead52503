/-
Module: FlatLisp.Reading.Frame
Purpose: The frames of an unfinished value. Each open list, and the symbol or integer in progress,
  has one in the arena's backward region, linked to the frames around and inside it.
Main exports: Reading.Frame, Reading.Frame.load, Reading.Frame.store, Reading.Frame.view,
  OpenContext
-/
import FlatLisp.Cell.Access

namespace FlatLisp

/-- What a frame stands for. -/
inductive Reading.Frame.Kind where
  | list
  | symbol
  | integer
deriving DecidableEq, Repr, Inhabited

/-- One unfinished value. -/
structure Reading.Frame where
  kind : Reading.Frame.Kind
  /-- The code of a list's sigil, or what is known of a symbol or integer so far. -/
  flags : UInt8
  /-- Where the value's header is. -/
  cell : Nat
  /-- The record of the mark under the frame. -/
  mark : Nat
  /-- The frame around this one; zero for none. -/
  parent : Nat
  /-- The frame inside this one; zero for none. -/
  child : Nat
deriving DecidableEq, Repr, Inhabited

/-- An unfinished value as it is shown to others. -/
inductive OpenContext where
  | list (sigil : Sigil)
  | symbol (quoted escaped : Bool)
  | integer (negative digits : Bool)
deriving DecidableEq, Repr, Inhabited

namespace Reading.Frame

/-- The size of a frame. -/
def length : Nat := 10

/-- The symbol is written between double quotes. -/
def quotedFlag : UInt8 := 1

/-- The next character of the symbol is taken as it is. -/
def escapedFlag : UInt8 := 2

/-- The last sign of the integer was a minus. -/
def negativeFlag : UInt8 := 1

/-- The integer has a digit. -/
def digitsFlag : UInt8 := 2

/-- A flag is set. -/
def has (f : Frame) (flag : UInt8) : Bool := f.flags &&& flag != 0

/-- The frame with a flag set or cleared. -/
def withFlag (f : Frame) (flag : UInt8) (on : Bool) : Frame :=
  { f with flags := if on then f.flags ||| flag else f.flags &&& ~~~flag }

/-- The sigil of an open list. -/
def sigil (f : Frame) : Sigil := (Sigil.ofCode? f.flags.toNat).getD .bare

def Kind.code : Kind → UInt8
  | .list => 1
  | .symbol => 2
  | .integer => 3

def Kind.ofCode? (code : UInt8) : Option Kind :=
  if code = 1 then some .list
  else if code = 2 then some .symbol
  else if code = 3 then some .integer
  else none

/-- The bytes of a frame. -/
def encode (f : Frame) : List UInt8 :=
  f.kind.code :: f.flags ::
    (Word.bytes f.cell ++ Word.bytes f.mark ++ Word.bytes f.parent ++ Word.bytes f.child)

def decode : List UInt8 → Option Frame
  | [kind, flags, c0, c1, m0, m1, p0, p1, k0, k1] =>
      (Kind.ofCode? kind).map fun kind =>
        { kind, flags
          cell := Word.value c0 c1
          mark := Word.value m0 m1
          parent := Word.value p0 p1
          child := Word.value k0 k1 }
  | _ => none

@[simp] theorem length_encode (f : Frame) : f.encode.length = length := by
  simp [encode, length]

/-- The frame at an offset. -/
def load (a : Arena) (offset : Nat) : Except Fault Frame := do
  match decode (← (a.bytes offset length).mapError .arena) with
  | some f => return f
  | none => .error (.corruptContext offset)

/-- Write a frame at an offset. -/
def store (offset : Nat) (f : Frame) : CellM Unit :=
  Arena.write offset f.encode

def view (f : Frame) : OpenContext :=
  match f.kind with
  | .list => .list f.sigil
  | .symbol => .symbol (f.has quotedFlag) (f.has escapedFlag)
  | .integer => .integer (f.has negativeFlag) (f.has digitsFlag)

end Reading.Frame

end FlatLisp
