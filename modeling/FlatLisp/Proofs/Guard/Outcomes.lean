/-
Module: FlatLisp.Proofs.Guard.Outcomes
Purpose: The outcomes of guarded reads do not depend on how many bytes were consumed before, apart from
  the positions at which bad input is reported.
Main exports: Guard.Action, Guard.outcomes, Outcome.unplaced, Guard.Abreast, Guard.outcomes_eq
-/
import FlatLisp.Guard
import FlatLisp.Proofs.Reading.Positions

namespace FlatLisp

/-- The outcome without the place where bad input was found. -/
def Outcome.unplaced : Outcome → Outcome
  | .rejected why => .rejected { why with position := 0 }
  | outcome => outcome

namespace Guard

open Reading

/-- What can be asked of a guard. -/
inductive Action where
  | read
  | release
  | keep
deriving DecidableEq, Repr

/-- The outcomes of the reads among some actions. -/
def outcomes : List Action → Guard → Reading → List Outcome
  | [], _, _ => []
  | .read :: rest, g, s => (g.read s).1 :: outcomes rest (g.read s).2.1 (g.read s).2.2
  | .release :: rest, g, s => outcomes rest g ⟨s.reader, s.source, after (g.release s.arena)⟩
  | .keep :: rest, g, s => outcomes rest (g.keep s.arena) s

/-- The same checkpoint is guarded, and the reads differ only in how many bytes have been
consumed. -/
structure Abreast (g : Guard) (s : Reading) (g' : Guard) (s' : Reading) : Prop where
  checkpoint : g'.checkpoint = g.checkpoint
  reading : ∃ n, s' = s.withPosition n

section Abreast

variable {g g' : Guard} {s s' : Reading}

theorem abreast_recover (hcheckpoint : g'.checkpoint = g.checkpoint) {e e' : ReadError}
    (he : e'.unplaced = e.unplaced) (s : Reading) (n : UInt32) :
    (g'.recover e' (s.withPosition n)).1.unplaced = (g.recover e s).1.unplaced ∧
      Abreast (g.recover e s).2.1 (g.recover e s).2.2 (g'.recover e' (s.withPosition n)).2.1
        (g'.recover e' (s.withPosition n)).2.2 := by
  obtain ⟨r, source, a⟩ := s
  rw [withPosition, recover, recover, hcheckpoint]
  dsimp only
  cases Arena.restore g.checkpoint a with
  | error stale a' => exact ⟨rfl, rfl, n, rfl⟩
  | ok _ a' =>
      cases e with
      | rejected why =>
          cases e' with
          | rejected why' =>
              injection he with hwhy
              exact ⟨congrArg Outcome.rejected hwhy, rfl, n, rfl⟩
          | fault why' => cases he
      | fault why =>
          cases e' with
          | rejected why' => cases he
          | fault why' =>
              injection he with hwhy
              exact ⟨congrArg (fun why => (Outcome.aborted why).unplaced) hwhy, rfl, n, rfl⟩

theorem abreast_read (h : Abreast g s g' s') :
    (g'.read s').1.unplaced = (g.read s).1.unplaced ∧
      Abreast (g.read s).2.1 (g.read s).2.2 (g'.read s').2.1 (g'.read s').2.2 := by
  obtain ⟨hcheckpoint, n, rfl⟩ := h
  have hparallel := blind_read s n
  rw [Guard.read, Guard.read]
  generalize Reading.read s = result at hparallel
  generalize Reading.read (s.withPosition n) = result' at hparallel
  cases hparallel with
  | ok status t k => cases status <;> exact ⟨rfl, hcheckpoint, k, rfl⟩
  | error he t k => exact abreast_recover hcheckpoint he t k

/-- Reads that differ in how many bytes have been consumed have the same outcomes from then on. -/
theorem outcomes_eq (h : Abreast g s g' s') (actions : List Action) :
    (outcomes actions g' s').map Outcome.unplaced = (outcomes actions g s).map Outcome.unplaced := by
  induction actions generalizing g s g' s' with
  | nil => rfl
  | cons action rest ih =>
      cases action with
      | read =>
          obtain ⟨houtcome, hnext⟩ := abreast_read h
          rw [outcomes, outcomes, List.map_cons, List.map_cons, houtcome, ih hnext]
      | release =>
          obtain ⟨hcheckpoint, n, rfl⟩ := h
          have hrelease : g'.release = g.release := by rw [release, release, hcheckpoint]
          rw [outcomes, outcomes, hrelease]
          exact ih ⟨hcheckpoint, n, rfl⟩
      | keep =>
          obtain ⟨hcheckpoint, n, rfl⟩ := h
          exact ih ⟨rfl, n, rfl⟩

end Abreast

end Guard

end FlatLisp
