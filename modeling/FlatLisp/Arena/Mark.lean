/-
Module: FlatLisp.Arena.Mark
Purpose: Marks. A mark remembers its cursor in a record inside the region it belongs to; the
  records of one cursor form a chain, and only the most recent one can be rewound.
Main exports: Mark, Arena.mark, Arena.rewind, Arena.dropMark, Arena.unwind, Arena.borrow,
  Arena.trail
-/
import FlatLisp.Arena.Basic

namespace FlatLisp

/-- A token for one outstanding mark. -/
structure Mark where
  direction : Direction
  /-- Where the mark's record is. -/
  record : Nat
deriving DecidableEq, Repr, Inhabited

namespace Arena

/-- The size of a mark record: the saved cursor, then the record of the mark before. -/
def markLength : Nat := 4

/-- The most recent mark record on the cursor of a direction; zero for none. -/
def lastMark (a : Arena) : Direction → Nat
  | .forward => a.forwardMark
  | .backward => a.backwardMark

/-- The same arena with another most recent mark record on the cursor of `d`. -/
def withLastMark (a : Arena) (d : Direction) (record : Nat) : Arena :=
  match d with
  | .forward => { a with forwardMark := record }
  | .backward => { a with backwardMark := record }

/-- What a mark record holds: the saved cursor and the record before it. -/
def readRecord (a : Arena) (record : Nat) : Except ArenaError (Nat × Nat) :=
  if a.Live record markLength then
    .ok (Word.value (a.memory.get record) (a.memory.get (record + 1)),
      Word.value (a.memory.get (record + 2)) (a.memory.get (record + 3)))
  else
    .error (.dangling record markLength)

/-- Write the record of a new mark and put it at the head of its chain. -/
def pushRecord (a : Arena) (d : Direction) (record saved : Nat) : Arena :=
  let before := a.lastMark d
  { a with memory := a.memory.write record (Word.bytes saved ++ Word.bytes before) }.withLastMark
    d record

/-- Take a mark on the cursor of a direction. -/
def mark (d : Direction) : ArenaM Mark := do
  let saved := (← get).cursor d
  let span ← alloc d markLength
  modify (·.pushRecord d span.offset saved)
  return ⟨d, span.offset⟩

/-- Take a mark on the cursor of the current default direction. -/
def markDefault : ArenaM Mark := do
  mark (← get).direction

/-- What the record of `m` holds, if `m` is the most recent mark of its cursor. -/
def latest (a : Arena) (m : Mark) : Except ArenaError (Nat × Nat) :=
  if a.lastMark m.direction = 0 then .error .rewindTooFar
  else if a.lastMark m.direction ≠ m.record then .error .markMismatch
  else a.readRecord m.record

/-- Release all that was allocated on the mark's cursor since the mark. -/
def rewind (m : Mark) : ArenaM Unit := do
  demandUnlocked m.direction
  let (saved, before) ← consult (·.latest m)
  modify fun a => (a.withCursor m.direction saved).withLastMark m.direction before

/-- Forget the most recent mark and keep its cursor where it is. -/
def dropMark (m : Mark) : ArenaM Unit := do
  let (_, before) ← consult (·.latest m)
  modify (·.withLastMark m.direction before)

/-! ### Chains -/

/-- The records met from `record` on, following each to the one before it. A chain that ends
properly ends with zero. Records have distinct offsets, so `fuel` above the capacity is enough. -/
def trailFrom (a : Arena) : (fuel record : Nat) → List Nat
  | 0, _ => []
  | fuel + 1, record =>
      record ::
        if record = 0 then []
        else
          match a.readRecord record with
          | .ok (_, before) => a.trailFrom fuel before
          | .error _ => []

/-- The chain of a direction's mark records, the most recent first and zero last. -/
def trail (a : Arena) (d : Direction) : List Nat :=
  a.trailFrom (a.capacity + 1) (a.lastMark d)

/-- How many marks are outstanding on the cursor of a direction. -/
def markCount (a : Arena) (d : Direction) : Nat :=
  ((a.trail d).filter (· != 0)).length

/-- Rewind a backward mark after discarding those taken since, which whoever failed in between
has left behind. -/
def unwind (record : Nat) : ArenaM Unit := do
  if record ∈ (← get).trail .backward then
    modify (·.withLastMark .backward record)
    rewind ⟨.backward, record⟩
  else
    throw .markMismatch

/-- Run `body` between a backward mark and its unwinding, and answer what `body` answered. -/
def borrow {ε σ α : Type} [MonadLiftT ArenaM (EStateM ε σ)] (body : EStateM ε σ α) :
    EStateM ε σ α := do
  let m ← (mark .backward : ArenaM Mark)
  let answer ← attempt body
  (unwind m.record : ArenaM Unit)
  match answer with
  | .ok x => return x
  | .error e => throw e

end Arena

end FlatLisp
