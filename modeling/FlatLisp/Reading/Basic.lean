/-
Module: FlatLisp.Reading.Basic
Purpose: Readers, which may stop in the middle of a value, and the state that a read works on.
Main exports: Reader, Reader.ofDepth, Reader.position, Reader.isIdle, Reader.pendingSigil, Reader.focus,
  Reader.openContext, Reader.openContexts, Reading, ReadM
-/
import FlatLisp.Arena.Reservation
import FlatLisp.Cell.Counter
import FlatLisp.Reading.Frame
import FlatLisp.Reading.Rejection
import FlatLisp.Source

namespace FlatLisp

/-- A reader. What it knows of the value in progress is in frames in the arena; here is only where
they start. -/
structure Reader where
  /-- The outermost frame; zero between values. -/
  root : Nat := 0
  /-- The lock that is held while a symbol is in progress. -/
  lock : Option Lock := none
  inComment : Bool := false
  /-- Bytes given back, the next one first. -/
  pushback : List UInt8 := []
  /-- How many bytes have been consumed, as far as 32 bits can tell. -/
  count : UInt32 := 0
  /-- The deepest nesting of lists that is accepted. -/
  maxDepth : Nat
deriving DecidableEq, Repr, Inhabited

/-- The innermost unfinished value and what is around it. -/
structure Focus where
  /-- The innermost frame and its offset. -/
  leaf : Option (Nat × Reading.Frame)
  /-- Quasiquotes less unquotes among the open lists. -/
  level : Int
  /-- The number of open lists. -/
  depth : Nat
deriving DecidableEq, Repr, Inhabited

namespace Reader

open Reading (Frame)

/-- The nesting that is accepted where nothing else is said. -/
def defaultDepth : Nat := 16

/-- How many bytes may be given back at once. -/
def pushbackCapacity : Nat := 4

/-- How many frames may be linked. -/
def maxFrames : Nat := 256

/-- A fresh reader. Nesting is capped at what a traversal can follow, so whatever is read can also
be walked and printed. -/
def ofDepth (maxDepth : Nat) : Reader := { maxDepth := min maxDepth Cell.maxNesting }

/-- How many bytes have been consumed. Every 2 ^ 32 bytes the count begins anew. -/
def position (r : Reader) : Nat := r.count.toNat

/-- No value is in progress. -/
def isIdle (r : Reader) : Bool := r.root == 0 && r.lock.isNone

/-- A sigil was read and waits for its value. -/
def pendingSigil (r : Reader) : Bool :=
  match r.pushback.getLast? with
  | some c => (Sigil.ofByte? c).isSome
  | none => false

/-- Forget the value in progress. The arena has to be taken back by other means. -/
def reset (r : Reader) : Reader :=
  { r with root := 0, lock := none, inComment := false, pushback := [] }

/-- How a list's sigil changes the number of quasiquotes around its children. -/
def levelStep : Sigil → Int
  | .quasiquote => 1
  | .unquote | .unquoteSplicing => -1
  | _ => 0

/-- Follow the frames from `offset` inwards. -/
def focusFrom (a : Arena) : (fuel : Nat) → (offset : Nat) → Focus → Except Fault Focus
  | 0, offset, _ => .error (.corruptContext offset)
  | fuel + 1, offset, found =>
      if offset = 0 then .ok found
      else do
        let f ← Frame.load a offset
        let found := { found with leaf := some (offset, f) }
        match f.kind with
        | .list =>
            focusFrom a fuel f.child
              { found with level := found.level + levelStep f.sigil, depth := found.depth + 1 }
        | _ => return found

/-- The innermost unfinished value. -/
def focus (r : Reader) (a : Arena) : Except Fault Focus :=
  focusFrom a maxFrames r.root { leaf := none, level := 0, depth := 0 }

/-- The frame `outward` links around a frame. -/
def frameAround (a : Arena) : (outward : Nat) → Frame → Except Fault (Option Frame)
  | 0, f => .ok (some f)
  | outward + 1, f =>
      if f.parent = 0 then .ok none
      else do frameAround a outward (← Frame.load a f.parent)

/-- The unfinished value `outward` levels around the innermost one. -/
def openContext (r : Reader) (a : Arena) (outward : Nat) : Except Fault (Option OpenContext) := do
  match (← r.focus a).leaf with
  | none => return none
  | some (_, f) => return (← frameAround a outward f).map (·.view)

end Reader

/-- What a read works on. -/
structure Reading where
  reader : Reader
  source : Source
  arena : Arena

/-- A part of a read. -/
abbrev ReadM := EStateM ReadError Reading

instance : MonadLift CellM ReadM where
  monadLift job := fun ⟨r, source, a⟩ =>
    match job a with
    | .ok x a => .ok x ⟨r, source, a⟩
    | .error e a => .error (.fault e) ⟨r, source, a⟩

namespace Reading

/-- The bytes ahead, those given back first. -/
def ahead (s : Reading) : Source := s.reader.pushback.map some ++ s.source

/-- Change the reader. -/
def modifyReader (change : Reader → Reader) : ReadM Unit := fun ⟨r, source, a⟩ =>
  .ok () ⟨change r, source, a⟩

/-- Take `taken` bytes from those ahead and give `back` back. -/
def consume (taken : Nat) (back : List UInt8) : ReadM Unit := fun ⟨r, source, a⟩ =>
  let pushback := back ++ r.pushback.drop taken
  if pushback.length ≤ Reader.pushbackCapacity then
    .ok ()
      ⟨{ r with pushback, count := r.count + .ofNat taken - .ofNat back.length },
        source.drop (taken - r.pushback.length), a⟩
  else
    .error (.fault .ungetOverflow) ⟨r, source, a⟩

/-- Take the `taken` bytes that have arrived, and the stall after them, and keep `kept` of them to
be read again. -/
def starve (taken : Nat) (kept : List UInt8) : ReadM Unit := do
  consume taken kept
  modify fun ⟨r, source, a⟩ => ⟨r, source.drop 1, a⟩

/-- Refuse the input at the byte consumed last. -/
def reject {α : Type} (cause : Rejection.Cause) (found : Option UInt8) : ReadM α := fun s =>
  .error (.rejected ⟨cause, s.reader.position - 1, found⟩) s

end Reading

end FlatLisp
