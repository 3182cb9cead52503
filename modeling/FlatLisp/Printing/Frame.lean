/-
Module: FlatLisp.Printing.Frame
Purpose: The frames of a print in progress, one for each value that is being written, in the
  arena's backward region; and what a frame has to write next.
Main exports: Printing.Stage, Printing.Frame, Printing.Frame.load, Printing.Frame.store,
  Printing.Move, Printing.Frame.move
-/
import FlatLisp.Cell.Access
import FlatLisp.Printing.Options

namespace FlatLisp.Printing

open Text

/-- What part of a value is written next. -/
inductive Stage where
  | sigil
  | opening
  | body
  /-- The character that a backslash was written for. -/
  | escaped
  | separator
  | closing
deriving DecidableEq, Repr, Inhabited

namespace Stage

def code : Stage → UInt8
  | .sigil => 0
  | .opening => 1
  | .body => 2
  | .escaped => 3
  | .separator => 4
  | .closing => 5

def ofCode? (code : UInt8) : Option Stage :=
  if code = 0 then some .sigil
  else if code = 1 then some .opening
  else if code = 2 then some .body
  else if code = 3 then some .escaped
  else if code = 4 then some .separator
  else if code = 5 then some .closing
  else none

@[simp] theorem ofCode?_code (s : Stage) : ofCode? s.code = some s := by
  cases s <;> rfl

end Stage

/-- One value that is being written. -/
structure Frame where
  place : Place
  /-- The next child of a list, or the place after its children. -/
  next : Place
  stage : Stage
  /-- How many characters or children of the stage have been written. -/
  counter : Nat
  /-- The record of the mark under the frame. -/
  mark : Nat
  /-- The frame of the list around the value; zero for none. -/
  below : Nat
deriving DecidableEq, Repr, Inhabited

namespace Frame

/-- The size of a frame. -/
def length : Nat := 13

/-- The bytes of a frame. -/
def encode (f : Frame) : List UInt8 :=
  Place.encode (some f.place) ++ Place.encode (some f.next) ++ f.stage.code ::
    (Word.bytes f.counter ++ Word.bytes f.mark ++ Word.bytes f.below)

def decode : List UInt8 → Option Frame
  | [s0, p0, p1, s1, n0, n1, stage, c0, c1, m0, m1, b0, b1] => do
      return {
        place := ← (← Place.decode s0 p0 p1)
        next := ← (← Place.decode s1 n0 n1)
        stage := ← Stage.ofCode? stage
        counter := Word.value c0 c1
        mark := Word.value m0 m1
        below := Word.value b0 b1 }
  | _ => none

@[simp] theorem length_encode (f : Frame) : f.encode.length = length := by
  simp [encode, length]

/-- The frame at an offset. -/
def load (a : Arena) (offset : Nat) : Except Fault Frame := do
  match decode (← (a.bytes offset length).mapError .arena) with
  | some f => return f
  | none => .error (.corruptContext offset)

/-- Write a frame at an offset. -/
def store (offset : Nat) (f : Frame) : CellM Unit :=
  Arena.write offset f.encode

end Frame

/-! ### Moves -/

/-- What to do for a value next. -/
inductive Move where
  /-- Write a byte; the frame is `next` once it has been accepted. -/
  | emit (c : UInt8) (next : Frame)
  /-- Nothing to write. -/
  | pass (next : Frame)
  /-- Start a new line. -/
  | wrap (next : Frame)
  /-- Write the child at a place. -/
  | descend (child : Place)
  /-- Write the closing byte, if there is one; the value is complete. -/
  | finish (closer : Option UInt8)
deriving DecidableEq, Repr, Inhabited

/-- The byte that opens a value, after its sigil. -/
def opener (o : PrintOptions) : Header → Option UInt8
  | .symbol _ _ quoted _ _ => if quoted then some Ascii.doubleQuote else none
  | .integer value =>
      if value < 0 then some Ascii.minus else if o.explicitSign then some Ascii.plus else none
  | .list .. => some Ascii.openParen

/-- The byte that closes a value. -/
def closer : Header → Option UInt8
  | .symbol _ _ quoted _ _ => if quoted then some Ascii.doubleQuote else none
  | .integer _ => none
  | .list .. => some Ascii.closeParen

/-- A byte that has a backslash before it between double quotes. -/
def needsEscape (c : UInt8) : Bool := c == Ascii.doubleQuote || c == Ascii.backslash

namespace Frame

/-- The next character of a symbol. -/
def symbolChar (a : Arena) (ext : External) (f : Frame) (h : Header) : Except Fault UInt8 := do
  let chars ← Cell.body a ext f.place h
  Cell.fetchByte a ext (← Cell.step chars f.counter)

/-- What to do next for the value of the frame at `top`, whose header is `h`. -/
def move (o : PrintOptions) (a : Arena) (ext : External) (top : Nat) (f : Frame) (h : Header) :
    Except Fault Move := do
  match f.stage with
  | .sigil =>
      match h.sigil.text[f.counter]? with
      | some c => return .emit c { f with counter := f.counter + 1 }
      | none => return .pass { f with stage := .opening, counter := 0 }
  | .opening =>
      match opener o h with
      | some c => return .emit c { f with stage := .body }
      | none => return .pass { f with stage := .body }
  | .body =>
      match h with
      | .symbol length _ quoted _ _ =>
          if length ≤ f.counter then
            return .pass { f with stage := .closing }
          else
            let c ← symbolChar a ext f h
            if quoted && needsEscape c then
              return .emit Ascii.backslash { f with stage := .escaped }
            else
              return .emit c { f with counter := f.counter + 1 }
      | .integer value =>
          match (Decimal.digits value.natAbs)[f.counter]? with
          | some c => return .emit c { f with counter := f.counter + 1 }
          | none => return .pass { f with stage := .closing }
      | .list count .. =>
          if count ≤ f.counter then
            return .pass { f with stage := .closing }
          else
            return .descend f.next
  | .escaped =>
      let c ← symbolChar a ext f h
      return .emit c { f with stage := .body, counter := f.counter + 1 }
  | .separator =>
      match h with
      | .list count .. =>
          if o.wraps count then return .wrap { f with stage := .body }
          else return .emit Ascii.space { f with stage := .body }
      | _ => .error (.corruptContext top)
  | .closing => return .finish (closer h)

/-- The place after the complete value of a frame. -/
def stop (f : Frame) (h : Header) : Except Fault Place :=
  match h with
  | .list _ _ false => .ok f.next
  | _ => Cell.step f.place h.footprint

end Frame

end FlatLisp.Printing
