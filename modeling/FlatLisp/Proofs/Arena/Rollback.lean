/-
Module: FlatLisp.Proofs.Arena.Rollback
Purpose: When an arena can be rolled back to what it was at a checkpoint, and what it is then. All
  that was live must be there still, and the most recent marks of then must be on their chains.
Main exports: Arena.Covers, Arena.Covers.restore_ok, Arena.Covers.alike, Arena.Continues,
  Arena.Alike.trail_eq
-/
import FlatLisp.Arena.Checkpoint
import FlatLisp.Proofs.Arena.Preserves

namespace FlatLisp

namespace Arena

variable {a b c : Arena} {d : Direction} {record saved before fuel : Nat}

/-! ### Chains of records -/

theorem mem_trail_lastMark (a : Arena) (d : Direction) : a.lastMark d ∈ a.trail d := by
  rw [trail, trailFrom]
  exact List.mem_cons_self

/-- What is met from the record before is met from the record. -/
theorem mem_trailFrom_succ {offset : Nat} (hzero : record ≠ 0)
    (hrecord : a.readRecord record = .ok (saved, before)) (h : offset ∈ a.trailFrom fuel before) :
    offset ∈ a.trailFrom (fuel + 1) record := by
  rw [trailFrom, if_neg hzero, hrecord]
  exact List.mem_cons_of_mem _ h

namespace Alike

theorem readRecord_eq (h : Alike b a) (record : Nat) : a.readRecord record = b.readRecord record := by
  rw [readRecord, readRecord]
  by_cases hlive : b.Live record markLength
  · have hsame : ∀ i < markLength, a.memory.get (record + i) = b.memory.get (record + i) := by
      intro i hi
      rcases hlive with ⟨-, hhigh⟩ | ⟨hlow, hhigh⟩
      · exact h.below _ (Nat.zero_le _) (Nat.lt_of_lt_of_le (Nat.add_lt_add_left hi record) hhigh)
      · exact h.above _ (Nat.le_trans hlow (Nat.le_add_right ..))
          (Nat.lt_of_lt_of_le (Nat.add_lt_add_left hi record) hhigh)
    have hfirst := hsame 0 (by decide)
    have hsecond := hsame 1 (by decide)
    have hthird := hsame 2 (by decide)
    have hfourth := hsame 3 (by decide)
    rw [Nat.add_zero] at hfirst
    rw [if_pos (h.live_iff.2 hlive), if_pos hlive, hfirst, hsecond, hthird, hfourth]
  · rw [if_neg (mt h.live_iff.1 hlive), if_neg hlive]

theorem trailFrom_eq (h : Alike b a) (fuel record : Nat) :
    a.trailFrom fuel record = b.trailFrom fuel record := by
  induction fuel generalizing record with
  | zero => rfl
  | succ fuel ih =>
      rw [trailFrom, trailFrom, h.readRecord_eq]
      cases b.readRecord record with
      | ok found =>
          dsimp only
          rw [ih]
      | error e => rfl

/-- The same chains of marks are seen. -/
theorem trail_eq (h : Alike b a) (d : Direction) : a.trail d = b.trail d := by
  have hcapacity : a.capacity = b.capacity := h.size
  have hlast : a.lastMark d = b.lastMark d := by
    cases d with
    | forward => exact h.forwardMark
    | backward => exact h.backwardMark
  rw [trail, trail, hcapacity, hlast, h.trailFrom_eq]

end Alike

/-! ### Rolling back -/

/-- All of `b` is still in `a`, which can be rolled back to it. -/
structure Covers (b a : Arena) : Prop extends Preserves b a where
  forwardMark : a.forwardMark = b.forwardMark
  backwardMark : b.backwardMark ∈ a.trail .backward

/-- All of `b` is still in `a`, and no other marks are outstanding. -/
structure Continues (b a : Arena) : Prop extends Preserves b a where
  forwardMark : a.forwardMark = b.forwardMark
  backwardMark : a.backwardMark = b.backwardMark

namespace Continues

theorem refl (a : Arena) : Continues a a where
  toPreserves := .refl a
  forwardMark := rfl
  backwardMark := rfl

theorem trans (h₁ : Continues c b) (h₂ : Continues b a) : Continues c a where
  toPreserves := h₁.toPreserves.trans h₂.toPreserves
  forwardMark := h₂.forwardMark.trans h₁.forwardMark
  backwardMark := h₂.backwardMark.trans h₁.backwardMark

theorem trans_covers (h₁ : Continues c b) (h₂ : Covers b a) : Covers c a where
  toPreserves := h₁.toPreserves.trans h₂.toPreserves
  forwardMark := h₂.forwardMark.trans h₁.forwardMark
  backwardMark := h₁.backwardMark ▸ h₂.backwardMark

theorem covers (h : Continues b a) : Covers b a where
  toPreserves := h.toPreserves
  forwardMark := h.forwardMark
  backwardMark := h.backwardMark ▸ mem_trail_lastMark a .backward

end Continues

theorem Alike.continues (h : Alike b a) : Continues b a where
  toPreserves := h.preserves
  forwardMark := h.forwardMark
  backwardMark := h.backwardMark

/-- The arena rolled back to a checkpoint. -/
def restored (c : Checkpoint) (a : Arena) : Arena :=
  { a with
    forward := c.forward
    backward := c.backward
    forwardMark := c.forwardMark
    backwardMark := c.backwardMark
    directions := c.directions
    hold := none }

namespace Covers

/-- The checkpoint can still be reached. -/
theorem restore_ok (h : Covers b a) : restore b.checkpoint a = .ok () (a.restored b.checkpoint) := by
  have hforward : b.forwardMark ∈ a.trail .forward :=
    h.forwardMark ▸ mem_trail_lastMark a .forward
  have hreaches : a.Reaches b.checkpoint := ⟨h.forward, h.backward, hforward, h.backwardMark⟩
  rw [restore, if_pos hreaches]
  rfl

/-- After rolling back nothing can be told from what it was. -/
theorem alike (h : Covers b a) : Alike b (a.restored b.checkpoint) where
  size := h.size
  below := h.below
  above := h.above
  forward := rfl
  backward := rfl
  forwardMark := rfl
  backwardMark := rfl

end Covers

end Arena

end FlatLisp
