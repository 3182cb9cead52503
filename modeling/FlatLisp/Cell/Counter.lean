/-
Module: FlatLisp.Cell.Counter
Purpose: The counters of the open lists of a traversal. Each is a frame in the arena's backward
  region under a mark of its own, so a traversal needs no other memory.
Main exports: Counter, Counter.push, Counter.update, Counter.pop, Cell.maxNesting
-/
import FlatLisp.Cell.Access

namespace FlatLisp

/-- How many lists with children may be open at once in a traversal. -/
def Cell.maxNesting : Nat := 32

/-- The counter of one open list, or of two lists that are traversed side by side. -/
structure Counter where
  /-- Children left to visit, the current one included. -/
  left : Nat
  right : Nat
  mark : Mark
  /-- The frame of the list around this one; zero for none. -/
  below : Nat
  /-- Where to go on after a list whose children are elsewhere. -/
  resumeLeft : Option Place
  resumeRight : Option Place
  /-- Where the frame is. -/
  offset : Nat
deriving DecidableEq, Repr, Inhabited

namespace Counter

/-- The size of a frame. -/
def frameLength : Nat := 14

/-- The bytes of a frame. -/
def encode (c : Counter) : List UInt8 :=
  Word.bytes c.left ++ Word.bytes c.right ++ Word.bytes c.mark.record ++ Word.bytes c.below ++
    Place.encode c.resumeLeft ++ Place.encode c.resumeRight

@[simp] theorem length_encode (c : Counter) : c.encode.length = frameLength := by
  simp [encode, frameLength]

/-- Write the frame of a counter where it is. -/
def update (c : Counter) : CellM Unit :=
  Arena.write c.offset c.encode

/-- Open a list. -/
def push (below left right : Nat) (resumeLeft resumeRight : Option Place) : CellM Counter := do
  let mark ← Arena.mark .backward
  let span ← Arena.alloc .backward frameLength
  let c : Counter := { left, right, mark, below, resumeLeft, resumeRight, offset := span.offset }
  c.update
  return c

/-- Close a list and give its frame back. -/
def pop (c : Counter) : CellM Unit :=
  Arena.rewind c.mark

end Counter

end FlatLisp
