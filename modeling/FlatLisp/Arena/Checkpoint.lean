/-
Module: FlatLisp.Arena.Checkpoint
Purpose: Snapshots of both cursors, to which an arena can be rolled back while it has not been
  below them, and the figures of an arena.
Main exports: Checkpoint, Arena.checkpoint, Arena.restore, Arena.Stats, Arena.stats
-/
import FlatLisp.Arena.Mark

namespace FlatLisp

/-- The cursors, the mark chains and the default directions at one moment. -/
structure Checkpoint where
  forward : Nat
  backward : Nat
  forwardMark : Nat
  backwardMark : Nat
  directions : List Direction
deriving DecidableEq, Repr, Inhabited

namespace Arena

def checkpoint (a : Arena) : Checkpoint where
  forward := a.forward
  backward := a.backward
  forwardMark := a.forwardMark
  backwardMark := a.backwardMark
  directions := a.directions

/-- Both cursors are at or past the checkpoint's, and its most recent marks are still on their
chains. -/
def Reaches (a : Arena) (c : Checkpoint) : Prop :=
  c.forward ≤ a.forward ∧ a.backward ≤ c.backward ∧
    c.forwardMark ∈ a.trail .forward ∧ c.backwardMark ∈ a.trail .backward

instance (a : Arena) (c : Checkpoint) : Decidable (a.Reaches c) :=
  inferInstanceAs (Decidable (_ ∧ _))

/-- Roll back to a checkpoint and drop any lock. -/
def restore (c : Checkpoint) : ArenaM Unit := fun a =>
  if a.Reaches c then
    .ok () { a with
      forward := c.forward
      backward := c.backward
      forwardMark := c.forwardMark
      backwardMark := c.backwardMark
      directions := c.directions
      hold := none }
  else
    .error .staleCheckpoint a

/-- The figures of an arena. -/
structure Stats where
  capacity : Nat
  forwardUsed : Nat
  backwardUsed : Nat
  free : Nat
  forwardMarks : Nat
  backwardMarks : Nat
  locked : Bool
deriving DecidableEq, Repr, Inhabited

def stats (a : Arena) : Stats where
  capacity := a.capacity
  forwardUsed := a.forward - headerLength
  backwardUsed := a.capacity - a.backward
  free := a.free
  forwardMarks := a.markCount .forward
  backwardMarks := a.markCount .backward
  locked := a.isLocked

end Arena

end FlatLisp
