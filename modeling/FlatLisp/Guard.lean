/-
Module: FlatLisp.Guard
Purpose: The boundary around reads at top level: whenever one fails, arena and reader go back to
  where they were before the value began.
Main exports: Guard, Guard.establish, Guard.read, Guard.release, Guard.keep
-/
import FlatLisp.Arena.Checkpoint
import FlatLisp.Reading.Turn

namespace FlatLisp

/-- The result of a guarded read. -/
inductive Outcome where
  | value (place : Place)
  | pending
  /-- The input is no value. -/
  | rejected (why : Rejection)
  /-- Memory ran out, or something is damaged. -/
  | aborted (why : Fault)
deriving DecidableEq, Repr, Inhabited

/-- A point to go back to, and how often that was needed. -/
structure Guard where
  checkpoint : Checkpoint
  rejected : Nat := 0
  aborted : Nat := 0
deriving DecidableEq, Repr, Inhabited

namespace Guard

/-- A guard for the arena as it is now, which has to be between values. -/
def establish (a : Arena) : Guard := { checkpoint := a.checkpoint }

/-- Go back to where the arena and the reader were, for an error. -/
def recover (g : Guard) (why : ReadError) : Reading → Outcome × Guard × Reading :=
  fun ⟨r, source, a⟩ =>
    match Arena.restore g.checkpoint a with
    | .error stale a =>
        (.aborted (.arena stale), { g with aborted := g.aborted + 1 }, ⟨r.reset, source, a⟩)
    | .ok () a =>
        match why with
        | .rejected why =>
            (.rejected why, { g with rejected := g.rejected + 1 }, ⟨r.reset, source, a⟩)
        | .fault why => (.aborted why, { g with aborted := g.aborted + 1 }, ⟨r.reset, source, a⟩)

/-- Continue reading under the guard. -/
def read (g : Guard) (s : Reading) : Outcome × Guard × Reading :=
  match Reading.read s with
  | .ok (.done place) s => (.value place, g, s)
  | .ok .pending s => (.pending, g, s)
  | .error why s => g.recover why s

/-- Drop all that was allocated since the point to go back to. -/
def release (g : Guard) : ArenaM Unit := Arena.restore g.checkpoint

/-- Keep all that was allocated so far, and go back to here from now on. -/
def keep (g : Guard) (a : Arena) : Guard := { g with checkpoint := a.checkpoint }

end Guard

end FlatLisp
