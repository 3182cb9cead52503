/-
Module: FlatLisp.Arena.Basic
Purpose: One buffer of fixed size shared by two stacks, a forward one that grows up from the
  start and a backward one that grows down from the end.
Main exports: Direction, Span, Arena, Arena.create, ArenaM, Arena.bytes, Arena.write, Arena.alloc
-/
import FlatLisp.Arena.Error
import FlatLisp.Bytes

namespace FlatLisp

/-- The way in which a cursor grows. -/
inductive Direction where
  | forward
  | backward
deriving DecidableEq, Repr, Inhabited

/-- The other direction. -/
def Direction.opposite : Direction → Direction
  | .forward => .backward
  | .backward => .forward

theorem Direction.opposite_opposite (d : Direction) : d.opposite.opposite = d := by
  cases d <;> rfl

/-- A contiguous allocation. -/
structure Span where
  offset : Nat
  length : Nat
deriving DecidableEq, Repr, Inhabited

/-- The offset just past a span. -/
def Span.stop (s : Span) : Nat := s.offset + s.length

/-- The forward cursor while one holder has it to itself. -/
structure Hold where
  id : Nat
  /-- Where the open reservation begins. -/
  start : Nat
  /-- The length of the open reservation. -/
  reserved : Option Nat
deriving DecidableEq, Repr, Inhabited

/-- The arena. Its two live regions are `[headerLength, forward)` and `[backward, capacity)`. -/
structure Arena where
  memory : Bytes
  /-- The first free byte above the forward region. -/
  forward : Nat
  /-- The first used byte of the backward region. -/
  backward : Nat
  /-- The most recent mark record on the forward cursor; zero for none. -/
  forwardMark : Nat
  /-- The most recent mark record on the backward cursor; zero for none. -/
  backwardMark : Nat
  /-- The pushed default directions, the current one first. -/
  directions : List Direction
  hold : Option Hold
  /-- The identity of the next lock. -/
  nextLock : Nat
deriving DecidableEq, Inhabited

/-- A request to the arena. A refused one may still be asked what it left behind. -/
abbrev ArenaM := EStateM ArenaError Arena

/-- Do `job` and answer how it ended; what it did stays done. -/
def attempt {ε σ α : Type} (job : EStateM ε σ α) : EStateM ε σ (Except ε α) := fun s =>
  match job s with
  | .ok x s => .ok (.ok x) s
  | .error e s => .ok (.error e) s

namespace Arena

/-- The bytes at the start of the buffer that hold its capacity. Offset zero is therefore in no
live region, and stands for "none" wherever an offset is stored. -/
def headerLength : Nat := 2

/-- A fresh arena of `size` bytes, both regions empty. -/
def create (size : Nat) : Except ArenaError Arena :=
  if minCapacity ≤ size ∧ size ≤ maxCapacity then
    .ok {
      memory := (Bytes.zeros size).write 0 (Word.bytes size)
      forward := headerLength
      backward := size
      forwardMark := 0
      backwardMark := 0
      directions := []
      hold := none
      nextLock := 1 }
  else
    .error (.invalidSize size)

def capacity (a : Arena) : Nat := a.memory.size

/-- The bytes between the two regions. The forward cursor is not above the backward one, unless somebody
has written over the record of a mark: what is said here of such an arena has no meaning. -/
def free (a : Arena) : Nat := a.backward - a.forward

def isLocked (a : Arena) : Bool := a.hold.isSome

/-- The current default direction; forward when none was pushed. -/
def direction (a : Arena) : Direction := a.directions.headD .forward

/-- The cursor of a direction. -/
def cursor (a : Arena) : Direction → Nat
  | .forward => a.forward
  | .backward => a.backward

/-- The same arena with the cursor of `d` elsewhere. -/
def withCursor (a : Arena) (d : Direction) (offset : Nat) : Arena :=
  match d with
  | .forward => { a with forward := offset }
  | .backward => { a with backward := offset }

/-- Zero the bytes between the two regions. -/
def zeroFree (a : Arena) : Arena :=
  { a with memory := a.memory.write a.forward (List.replicate a.free 0) }

/-- Consult the arena without changing it. -/
def consult {α : Type} (look : Arena → Except ArenaError α) : ArenaM α := fun a =>
  match look a with
  | .ok x => .ok x a
  | .error e => .error e a

/-! ### Live bytes -/

/-- All `count` bytes at `offset` lie in one live region. -/
def Live (a : Arena) (offset count : Nat) : Prop :=
  (headerLength ≤ offset ∧ offset + count ≤ a.forward) ∨
    (a.backward ≤ offset ∧ offset + count ≤ a.capacity)

instance (a : Arena) (offset count : Nat) : Decidable (a.Live offset count) :=
  inferInstanceAs (Decidable (_ ∨ _))

/-- The live bytes at `offset`. -/
def bytes (a : Arena) (offset count : Nat) : Except ArenaError (List UInt8) :=
  if a.Live offset count then .ok (a.memory.slice offset count)
  else .error (.dangling offset count)

def readByte (a : Arena) (offset : Nat) : Except ArenaError UInt8 :=
  if a.Live offset 1 then .ok (a.memory.get offset) else .error (.dangling offset 1)

def readWord (a : Arena) (offset : Nat) : Except ArenaError Nat :=
  if a.Live offset 2 then .ok (Word.value (a.memory.get offset) (a.memory.get (offset + 1)))
  else .error (.dangling offset 2)

/-- Replace live bytes. -/
def write (offset : Nat) (new : List UInt8) : ArenaM Unit := fun a =>
  if a.Live offset new.length then .ok () { a with memory := a.memory.write offset new }
  else .error (.dangling offset new.length) a

def writeByte (offset : Nat) (b : UInt8) : ArenaM Unit := write offset [b]

def writeWord (offset n : Nat) : ArenaM Unit := write offset (Word.bytes n)

/-! ### Allocation -/

/-- Move the cursor of `d` by `count` bytes, whoever holds it. -/
def advance (d : Direction) (count : Nat) : ArenaM Span := fun a =>
  if count ≤ a.free then
    match d with
    | .forward => .ok ⟨a.forward, count⟩ { a with forward := a.forward + count }
    | .backward => .ok ⟨a.backward - count, count⟩ { a with backward := a.backward - count }
  else
    .error (.outOfMemory count a.free) a

/-- Refuse a request on a cursor that a lock is held on. Only the forward cursor can be locked. -/
def demandUnlocked : Direction → ArenaM Unit
  | .forward => fun a => if a.isLocked then .error .locked a else .ok () a
  | .backward => fun a => .ok () a

/-- Allocate `count` bytes in a direction. -/
def alloc (d : Direction) (count : Nat) : ArenaM Span := do
  demandUnlocked d
  advance d count

/-- Allocate in the current default direction. -/
def allocDefault (count : Nat) : ArenaM Span := do
  alloc (← get).direction count

/-! ### Default directions -/

/-- How many default directions may be pushed. -/
def maxDirections : Nat := 7

def pushDirection (d : Direction) : ArenaM Unit := fun a =>
  if a.directions.length < maxDirections then .ok () { a with directions := d :: a.directions }
  else .error .directionOverflow a

/-- Take back the direction pushed last. -/
def popDirection : ArenaM Direction := fun a =>
  match a.directions with
  | d :: rest => .ok d { a with directions := rest }
  | [] => .error .directionUnderflow a

end Arena

end FlatLisp
