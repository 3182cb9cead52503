/-
Module: FlatLisp.Proofs.Arena.Untouched
Purpose: What it means that an arena has been given back as it was: nothing that can be asked of it
  tells the difference, but for what is in the free bytes between the cursors.
Main exports: Arena.Untouched, Arena.Piled.untouched, Arena.piled_of_mark
-/
import FlatLisp.Proofs.Arena.Pile
import FlatLisp.Proofs.Arena.Rollback

namespace FlatLisp

namespace Arena

/-- The arena `a` has the live bytes, cursors, marks, default directions and lock of `b`. -/
structure Untouched (b a : Arena) : Prop extends Alike b a where
  directions : a.directions = b.directions
  hold : a.hold = b.hold
  nextLock : a.nextLock = b.nextLock

section Untouched

variable {a b c : Arena} {entries : List (List UInt8)}

namespace Untouched

theorem refl (a : Arena) : Untouched a a where
  toAlike := .refl a
  directions := rfl
  hold := rfl
  nextLock := rfl

theorem symm (h : Untouched b a) : Untouched a b where
  toAlike := h.toAlike.symm
  directions := h.directions.symm
  hold := h.hold.symm
  nextLock := h.nextLock.symm

theorem trans (h₁ : Untouched c b) (h₂ : Untouched b a) : Untouched c a where
  toAlike := h₁.toAlike.trans h₂.toAlike
  directions := h₂.directions.trans h₁.directions
  hold := h₂.hold.trans h₁.hold
  nextLock := h₂.nextLock.trans h₁.nextLock

end Untouched

/-- Once everything is given back that was piled up the base is untouched. -/
theorem Piled.untouched (h : Piled b [] a) : Untouched b a where
  toAlike := h.alike
  directions := by rw [h.eq]
  hold := by rw [h.eq]
  nextLock := by rw [h.eq]

/-- The entries are as well in an arena that is untouched, on a base that is. -/
theorem Piled.of_untouched {a' b' : Arena} (h : Piled b entries a) (huntouched : Untouched a a')
    (halike : Alike b b') (h' : Piled b' entries a') : Untouched b b' where
  toAlike := halike
  directions := by
    have hsame := huntouched.directions
    rw [h.eq, h'.eq] at hsame
    exact hsame
  hold := by
    have hsame := huntouched.hold
    rw [h.eq, h'.eq] at hsame
    exact hsame
  nextLock := by
    have hsame := huntouched.nextLock
    rw [h.eq, h'.eq] at hsame
    exact hsame

/-- A mark that is taken is the first of a pile. -/
theorem piled_of_mark {m : Mark} (hb : b.Bounded) (h : mark .backward b = .ok m a) :
    Piled b [[]] a := by
  have hfree : markLength ≤ b.free := by
    rcases Nat.lt_or_ge b.free markLength with hfull | hfree
    · rw [mark_backward_full hfull] at h
      contradiction
    · exact hfree
  rw [mark_backward_ok hfree] at h
  injection h with _ ha
  exact ha ▸ (Piled.refl hb.cursors).mark_ok hb hfree

end Untouched

end Arena

end FlatLisp
