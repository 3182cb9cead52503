/-
Module: FlatLisp.Arena.Error
Purpose: Why a request to the arena is refused.
Main exports: ArenaError, ArenaError.message, Arena.minCapacity, Arena.maxCapacity
-/
import FlatLisp.Text.Hex

namespace FlatLisp

/-- The smallest arena, in bytes. -/
def Arena.minCapacity : Nat := 64

/-- The largest arena: every offset fits in two bytes. -/
def Arena.maxCapacity : Nat := 65535

/-- The causes for which the arena refuses a request. -/
inductive ArenaError where
  | outOfMemory (requested free : Nat)
  /-- A rewind on a cursor that has no outstanding mark. -/
  | rewindTooFar
  /-- The mark handed in is not the most recent one of its cursor. -/
  | markMismatch
  | directionOverflow
  | directionUnderflow
  | locked
  /-- The lock handed in is not the one that is held. -/
  | lockNotHeld
  | reservationOpen
  | noReservation
  | claimTooLarge (claimed reserved : Nat)
  /-- The bytes asked for are not all in one of the two live regions. -/
  | dangling (offset count : Nat)
  | invalidSize (size : Nat)
  /-- The arena went back past the checkpoint, or dropped its marks. -/
  | staleCheckpoint
deriving DecidableEq, Repr, Inhabited

/-- The wording of each cause. -/
def ArenaError.message : ArenaError → String
  | .outOfMemory requested free => s!"out of memory: {requested} bytes requested, {free} free"
  | .rewindTooFar => "rewind with no outstanding mark"
  | .markMismatch => "mark is not the most recent on its cursor"
  | .directionOverflow => "direction stack overflow"
  | .directionUnderflow => "direction stack underflow"
  | .locked => "forward cursor is locked"
  | .lockNotHeld => "lock is not the one held"
  | .reservationOpen => "reservation still open"
  | .noReservation => "no reservation to claim from"
  | .claimTooLarge claimed reserved =>
      s!"claim of {claimed} bytes exceeds reservation of {reserved}"
  | .dangling offset count =>
      s!"{count} bytes at {Text.Hex.address offset} are outside the live regions"
  | .invalidSize size =>
      s!"arena size {size} outside {Arena.minCapacity}..={Arena.maxCapacity}"
  | .staleCheckpoint => "checkpoint is no longer reachable"

end FlatLisp
