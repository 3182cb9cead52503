/-
Module: FlatLisp.Proofs.Arena.Preserves
Purpose: What it means that nothing live is lost, and that two arenas cannot be told apart by their
  live bytes, cursors and marks. Between the cursors anything may differ.
Main exports: Arena.Preserves, Arena.Preserves.live, Arena.Preserves.bytes_ok, Arena.Alike
-/
import FlatLisp.Proofs.Arena.Operations

namespace FlatLisp

namespace Arena

/-- All that is live in `b` is live in `a`, with the same bytes. -/
structure Preserves (b a : Arena) : Prop where
  size : a.memory.size = b.memory.size
  below : b.memory.SameOn a.memory 0 b.forward
  above : b.memory.SameOn a.memory b.backward b.memory.size
  forward : b.forward ≤ a.forward
  backward : a.backward ≤ b.backward

namespace Preserves

variable {a b c : Arena} {offset count : Nat}

theorem refl (a : Arena) : Preserves a a where
  size := rfl
  below := .refl _ _ _
  above := .refl _ _ _
  forward := Nat.le_refl _
  backward := Nat.le_refl _

theorem trans (h₁ : Preserves c b) (h₂ : Preserves b a) : Preserves c a where
  size := h₂.size.trans h₁.size
  below := h₁.below.trans (h₂.below.mono (Nat.le_refl _) h₁.forward)
  above := h₁.above.trans (h₂.above.mono h₁.backward (Nat.le_of_eq h₁.size.symm))
  forward := Nat.le_trans h₁.forward h₂.forward
  backward := Nat.le_trans h₂.backward h₁.backward

/-- What was live is live still. -/
theorem live (h : Preserves b a) (hlive : b.Live offset count) : a.Live offset count := by
  rcases hlive with ⟨hlow, hhigh⟩ | ⟨hlow, hhigh⟩
  · exact .inl ⟨hlow, Nat.le_trans hhigh h.forward⟩
  · exact .inr ⟨Nat.le_trans h.backward hlow, Nat.le_trans hhigh (Nat.le_of_eq h.size.symm)⟩

/-- Live bytes that are held are held still. -/
theorem holds (h : Preserves b a) {bytes : List UInt8} (hlive : b.Live offset bytes.length)
    (hheld : b.memory.Holds offset bytes) : a.memory.Holds offset bytes := by
  rcases hlive with ⟨-, hhigh⟩ | ⟨hlow, hhigh⟩
  · exact hheld.of_sameOn h.size h.below (Nat.zero_le _) hhigh
  · exact hheld.of_sameOn h.size h.above hlow hhigh

/-- The bytes that were live are what they were. -/
theorem bytes_ok (hb : b.Bounded) (h : Preserves b a) {bytes : List UInt8}
    (hbytes : b.bytes offset count = .ok bytes) : a.bytes offset count = .ok bytes := by
  rw [Arena.bytes] at hbytes
  split at hbytes
  · rename_i hlive
    injection hbytes with hbytes
    have hsize : offset + count ≤ b.memory.size := by
      have hcursors := hb.cursors
      have hbackward := hb.backward
      rw [capacity] at hbackward
      rcases hlive with ⟨-, hhigh⟩ | ⟨-, hhigh⟩
      · omega
      · exact hhigh
    have hheld := Bytes.holds_slice hsize
    have hlength := Bytes.length_slice hsize
    rw [hbytes] at hheld hlength
    rw [← hlength] at hlive ⊢
    exact Arena.bytes_ok (h.live hlive) (h.holds hlive hheld)
  · contradiction

end Preserves

/-- The two arenas have the same live bytes, cursors and marks. -/
structure Alike (b a : Arena) : Prop where
  size : a.memory.size = b.memory.size
  below : b.memory.SameOn a.memory 0 b.forward
  above : b.memory.SameOn a.memory b.backward b.memory.size
  forward : a.forward = b.forward
  backward : a.backward = b.backward
  forwardMark : a.forwardMark = b.forwardMark
  backwardMark : a.backwardMark = b.backwardMark

namespace Alike

variable {a b c : Arena}

theorem refl (a : Arena) : Alike a a where
  size := rfl
  below := .refl _ _ _
  above := .refl _ _ _
  forward := rfl
  backward := rfl
  forwardMark := rfl
  backwardMark := rfl

theorem preserves (h : Alike b a) : Preserves b a where
  size := h.size
  below := h.below
  above := h.above
  forward := Nat.le_of_eq h.forward.symm
  backward := Nat.le_of_eq h.backward

theorem symm (h : Alike b a) : Alike a b where
  size := h.size.symm
  below := fun i hlow hhigh => (h.below i hlow (h.forward ▸ hhigh)).symm
  above := fun i hlow hhigh => (h.above i (h.backward ▸ hlow) (h.size ▸ hhigh)).symm
  forward := h.forward.symm
  backward := h.backward.symm
  forwardMark := h.forwardMark.symm
  backwardMark := h.backwardMark.symm

theorem trans (h₁ : Alike c b) (h₂ : Alike b a) : Alike c a where
  size := h₂.size.trans h₁.size
  below := h₁.below.trans (h₁.forward ▸ h₂.below)
  above := h₁.above.trans (h₂.above.mono (Nat.le_of_eq h₁.backward) (Nat.le_of_eq h₁.size.symm))
  forward := h₂.forward.trans h₁.forward
  backward := h₂.backward.trans h₁.backward
  forwardMark := h₂.forwardMark.trans h₁.forwardMark
  backwardMark := h₂.backwardMark.trans h₁.backwardMark

theorem live_iff (h : Alike b a) {offset count : Nat} : a.Live offset count ↔ b.Live offset count := by
  have hcapacity : a.capacity = b.capacity := h.size
  rw [Live, Live, h.forward, h.backward, hcapacity]

/-- The same bytes are seen. -/
theorem bytes_eq (h : Alike b a) (offset count : Nat) : a.bytes offset count = b.bytes offset count := by
  rw [Arena.bytes, Arena.bytes]
  by_cases hlive : b.Live offset count
  · rw [if_pos (h.live_iff.2 hlive), if_pos hlive]
    congr 1
    apply Bytes.SameOn.slice_eq h.size
    rcases hlive with ⟨-, hhigh⟩ | ⟨hlow, hhigh⟩
    · exact h.below.mono (Nat.zero_le _) hhigh
    · exact h.above.mono hlow hhigh
  · rw [if_neg (mt h.live_iff.1 hlive), if_neg hlive]

theorem bounded (h : Alike b a) (hb : b.Bounded) : a.Bounded := by
  have hsize : a.capacity = b.capacity := h.size
  constructor
  · exact h.forward ▸ hb.header
  · rw [h.forward, h.backward]
    exact hb.cursors
  · rw [h.backward, hsize]
    exact hb.backward
  · rw [hsize]
    exact hb.capacity
  · exact h.backwardMark ▸ hb.backwardMark

end Alike

end Arena

end FlatLisp
