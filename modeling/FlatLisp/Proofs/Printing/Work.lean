/-
Module: FlatLisp.Proofs.Printing.Work
Purpose: How many rounds the open frames of a print are still good for, whatever cells they are frames
  of. Every move leaves fewer, and no print starts with as many as are allowed.
Main exports: Printing.Frame.work, Printing.Frame.waiting, Printing.Frame.Becomes,
  Printing.Frame.move_lowers, Printing.cost, Printing.cost_lt_roundLimit
-/
import FlatLisp.Proofs.Printing.Frame

namespace FlatLisp

namespace Printing

/-! ### Rounds that are left -/

section Cost

variable (o : PrintOptions)

/-- The rounds for a line end and the spaces that follow it. -/
def lineCost : Nat := o.indent * (Cell.maxNesting + 1) + 2

/-- The rounds for a value with at most `levels` levels of lists in it, and for what comes before it
in the list around it. -/
def childCost : (levels : Nat) → Nat
  | 0 => 2
  | levels + 1 => 512 * childCost levels + 60 + lineCost o

/-- The rounds for what is left of the value of the innermost frame. A list, or a symbol, has at most
511 parts, each of which costs as much as a child at most. -/
def Frame.work (levels : Nat) (f : Frame) : Nat :=
  match f.stage with
  | .sigil => 512 * childCost o levels + 40 + (10 - f.counter)
  | .opening => 512 * childCost o levels + 30
  | .body => (512 - f.counter) * childCost o levels + 20
  | .escaped => (512 - f.counter) * childCost o levels + 19
  | .separator => (512 - f.counter) * childCost o levels + 21 + lineCost o
  | .closing => 1

/-- The rounds for what is left of a list after the child that is being written. -/
def Frame.waiting (levels : Nat) (f : Frame) : Nat :=
  (511 - f.counter) * childCost o levels + 22 + lineCost o

/-- The rounds for what is left of all the lists around a frame. -/
def waitingWork : List Frame → Nat
  | [] => 0
  | f :: around => f.waiting o (Cell.maxNesting - around.length) + waitingWork around

/-- No more rounds than these are left. -/
def cost (job : Job) (f : Frame) (around : List Frame) : Nat :=
  job.newline.toNat + job.spaces + f.work o (Cell.maxNesting - around.length) +
    waitingWork o around

theorem two_le_childCost (levels : Nat) : 2 ≤ childCost o levels := by
  cases levels with
  | zero => exact Nat.le_refl _
  | succ levels =>
      rw [childCost]
      omega

theorem childCost_le (levels : Nat) :
    childCost o levels ≤ (o.indent + 1) * 2 ^ (10 * levels + 1) := by
  induction levels with
  | zero =>
      rw [childCost]
      omega
  | succ levels ih =>
      have hline : 60 + lineCost o ≤ (o.indent + 1) * 62 := by
        simp only [lineCost, Cell.maxNesting]
        omega
      have hpow : (62 : Nat) ≤ 512 * 2 ^ (10 * levels + 1) := by
        have := Nat.one_le_two_pow (n := 10 * levels + 1)
        omega
      calc childCost o (levels + 1)
          = 512 * childCost o levels + (60 + lineCost o) := by rw [childCost, Nat.add_assoc]
        _ ≤ 512 * ((o.indent + 1) * 2 ^ (10 * levels + 1)) + (o.indent + 1) * 62 :=
          Nat.add_le_add (Nat.mul_le_mul_left _ ih) hline
        _ ≤ 512 * ((o.indent + 1) * 2 ^ (10 * levels + 1)) +
            (o.indent + 1) * (512 * 2 ^ (10 * levels + 1)) :=
          Nat.add_le_add_left (Nat.mul_le_mul_left _ hpow) _
        _ = (o.indent + 1) * 2 ^ (10 * (levels + 1) + 1) := by
          rw [show 10 * (levels + 1) + 1 = 10 + (10 * levels + 1) by omega, Nat.pow_add 2 10,
            Nat.mul_left_comm, ← Nat.mul_add]
          congr 1
          omega

end Cost

/-! ### What a move does to a frame -/

section Moves

variable {o : PrintOptions} {a : Arena} {ext : External} {f next around : Frame} {h : Header}
  {levels : Nat}

/-- A frame as it can come to be: a character to escape is one of the characters of a symbol. -/
structure Frame.Sound (f : Frame) : Prop where
  fits : f.Fits
  escaped : f.stage = .escaped → f.counter ≤ Header.maxCount

/-- Only how far the value has been written is different. -/
def Frame.Becomes (f next : Frame) : Prop :=
  ∃ stage counter, next = { f with stage, counter } ∧ counter < 65536 ∧
    (stage = .escaped → counter ≤ Header.maxCount)

theorem Frame.Becomes.sound (h : f.Becomes next) (hf : f.Sound) : next.Sound := by
  obtain ⟨stage, counter, rfl, hcounter, hescaped⟩ := h
  exact ⟨⟨hf.fits.place, hf.fits.next, hcounter, hf.fits.mark, hf.fits.below⟩, hescaped⟩

/-- What can be said of a move without looking at the cell: fewer rounds are left after it; a child
is not the last that a list can have; and only complete values are closed. -/
def Move.Lowers (o : PrintOptions) (levels : Nat) (f : Frame) : Move → Prop
  | .emit _ next | .pass next => f.Becomes next ∧ next.work o levels < f.work o levels
  | .wrap next => f.Becomes next ∧ next.work o levels + lineCost o ≤ f.work o levels
  | .descend child => child = f.next ∧ f.stage = .body ∧ f.counter < Header.maxCount
  | .finish _ => f.stage = .closing

/-- One part fewer is left. -/
theorem parts_succ (o : PrintOptions) (levels : Nat) {counter : Nat}
    (hcounter : counter ≤ Header.maxCount) :
    (512 - counter) * childCost o levels =
      (511 - counter) * childCost o levels + childCost o levels := by
  simp only [Header.maxCount] at hcounter
  rw [show 512 - counter = 511 - counter + 1 by omega, Nat.succ_mul]

/-- A character of the value is written, which may have been escaped. -/
theorem emit_lowers {c : UInt8} (hcounter : f.counter ≤ Header.maxCount)
    (hwork : (512 - f.counter) * childCost o levels + 19 ≤ f.work o levels) :
    (Move.emit c { f with stage := .body, counter := f.counter + 1 }).Lowers o levels f := by
  have htwo := two_le_childCost o levels
  have hparts := parts_succ o levels hcounter
  simp only [Header.maxCount] at hcounter
  refine ⟨⟨.body, f.counter + 1, rfl, by omega, by simp⟩, ?_⟩
  rw [hparts] at hwork
  rw [Frame.work]
  dsimp only
  rw [show 512 - (f.counter + 1) = 511 - f.counter by omega]
  omega

/-- Nothing is left of the value. -/
theorem closing_lowers (hf : f.Sound) (hstage : f.stage = .body) :
    (Move.pass { f with stage := .closing }).Lowers o levels f := by
  refine ⟨⟨.closing, f.counter, rfl, hf.fits.counter, by simp⟩, ?_⟩
  simp only [Frame.work, hstage]
  omega

theorem sigil_move_lowers {top : Nat} {m : Move} (hstage : f.stage = .sigil)
    (hmove : f.move o a ext top h = .ok m) : m.Lowers o levels f := by
  simp only [Frame.move, hstage] at hmove
  split at hmove
  · rename_i c hc
    injection hmove with hmove
    subst hmove
    obtain ⟨hlt, -⟩ := List.getElem?_eq_some_iff.1 hc
    have hshort := length_sigil_text h.sigil
    refine ⟨⟨.sigil, f.counter + 1, rfl, by omega, by simp⟩, ?_⟩
    simp only [Frame.work, hstage]
    omega
  · injection hmove with hmove
    subst hmove
    refine ⟨⟨.opening, 0, rfl, by omega, by simp⟩, ?_⟩
    simp only [Frame.work, hstage]
    omega

/-- How long a value can be depends on what it is: a symbol, an integer or a list. -/
theorem body_move_lowers {top : Nat} {m : Move} (hh : h.Fits) (hf : f.Sound)
    (hstage : f.stage = .body) (hmove : f.move o a ext top h = .ok m) : m.Lowers o levels f := by
  have hwork : (512 - f.counter) * childCost o levels + 19 ≤ f.work o levels := by
    simp only [Frame.work, hstage]
    omega
  simp only [Frame.move, hstage] at hmove
  cases h with
  | symbol length sigil quoted linked hash =>
      simp only [Header.Fits, Header.maxSymbol] at hh
      dsimp only at hmove
      split at hmove
      · injection hmove with hmove
        exact hmove ▸ closing_lowers hf hstage
      · have hcounter : f.counter ≤ Header.maxCount := by
          simp only [Header.maxCount]
          omega
        cases hchar : f.symbolChar a ext (.symbol length sigil quoted linked hash) with
        | error e =>
            rw [hchar] at hmove
            contradiction
        | ok c =>
            rw [hchar] at hmove
            simp only [bind, Except.bind] at hmove
            split at hmove
            · injection hmove with hmove
              subst hmove
              refine ⟨⟨.escaped, f.counter, rfl, hf.fits.counter, fun _ => hcounter⟩, ?_⟩
              simp only [Frame.work, hstage]
              omega
            · injection hmove with hmove
              exact hmove ▸ emit_lowers hcounter hwork
  | integer value =>
      dsimp only at hmove
      split at hmove
      · rename_i c hc
        injection hmove with hmove
        obtain ⟨hlt, -⟩ := List.getElem?_eq_some_iff.1 hc
        simp only [Header.Fits, Header.maxMagnitude] at hh
        have hshort : (Decimal.digits value.natAbs).length ≤ 9 :=
          length_digits_le (show value.natAbs < 10 ^ (8 + 1) by omega)
        refine hmove ▸ emit_lowers ?_ hwork
        simp only [Header.maxCount]
        omega
      · injection hmove with hmove
        exact hmove ▸ closing_lowers hf hstage
  | list count sigil linked =>
      simp only [Header.Fits] at hh
      dsimp only at hmove
      split at hmove
      · injection hmove with hmove
        exact hmove ▸ closing_lowers hf hstage
      · injection hmove with hmove
        subst hmove
        exact ⟨rfl, hstage, by omega⟩

/-- Every move leaves fewer rounds. -/
theorem Frame.move_lowers {top : Nat} {m : Move} (hh : h.Fits) (hf : f.Sound)
    (hmove : f.move o a ext top h = .ok m) : m.Lowers o levels f := by
  have hsame := hf.fits.counter
  cases hstage : f.stage with
  | sigil => exact sigil_move_lowers hstage hmove
  | opening =>
      have hle : (512 - f.counter) * childCost o levels ≤ 512 * childCost o levels :=
        Nat.mul_le_mul_right _ (Nat.sub_le ..)
      simp only [Frame.move, hstage] at hmove
      split at hmove
      all_goals
        injection hmove with hmove
        subst hmove
        refine ⟨⟨.body, f.counter, rfl, hsame, by simp⟩, ?_⟩
        simp only [Frame.work, hstage]
        omega
  | body => exact body_move_lowers hh hf hstage hmove
  | escaped =>
      simp only [Frame.move, hstage] at hmove
      cases hchar : f.symbolChar a ext h with
      | error e =>
          rw [hchar] at hmove
          contradiction
      | ok c =>
          rw [hchar] at hmove
          injection hmove with hmove
          refine hmove ▸ emit_lowers (hf.escaped hstage) ?_
          simp only [Frame.work, hstage]
          omega
  | separator =>
      have hbody : f.Becomes { f with stage := .body } := ⟨.body, f.counter, rfl, hsame, by simp⟩
      simp only [Frame.move, hstage] at hmove
      cases h with
      | symbol | integer => contradiction
      | list count sigil linked =>
          dsimp only at hmove
          split at hmove
          all_goals
            injection hmove with hmove
            subst hmove
            refine ⟨hbody, ?_⟩
            simp only [Frame.work, hstage]
            omega
  | closing =>
      simp only [Frame.move, hstage] at hmove
      injection hmove with hmove
      subst hmove
      exact hstage

/-- Fewer rounds are left for a child and for what comes after it than were for both. -/
theorem descend_lowers {child : Frame} (hstage : f.stage = .body)
    (hcounter : f.counter < Header.maxCount) (hsigil : child.stage = .sigil) :
    child.work o levels + f.waiting o (levels + 1) < f.work o (levels + 1) := by
  have hparts := parts_succ o (levels + 1) (Nat.le_of_lt hcounter)
  have hchild : childCost o (levels + 1) = 512 * childCost o levels + 60 + lineCost o := rfl
  simp only [Frame.work, Frame.waiting, hstage, hsigil]
  omega

/-- Fewer rounds are left once a child is counted than while it is being written. -/
theorem counted_lowers (count : Nat) (stop : Place) :
    (around.counted count stop).work o levels < around.waiting o levels := by
  by_cases hlast : around.counter + 1 < count
  · simp only [Frame.work, Frame.counted, Frame.waiting, if_pos hlast]
    rw [show 512 - (around.counter + 1) = 511 - around.counter by omega]
    omega
  · simp only [Frame.work, Frame.counted, Frame.waiting, if_neg hlast]
    omega

/-- More rounds are done than any print starts with. -/
theorem cost_lt_roundLimit {job : Job} (hnewline : job.newline = false) (hspaces : job.spaces = 0)
    (hstage : f.stage = .sigil) : cost o job f [] < roundLimit o := by
  have htop := childCost_le o (Cell.maxNesting + 1)
  have hless : (o.indent + 1) * 2 ^ (10 * (Cell.maxNesting + 1) + 1) < roundLimit o := by
    unfold roundLimit
    generalize hn : 400 = n
    rw [Nat.shiftLeft_eq]
    exact Nat.mul_lt_mul_of_pos_left
      (Nat.pow_lt_pow_right (by decide) (by rw [Cell.maxNesting]; omega)) (Nat.succ_pos _)
  have hchild : childCost o (Cell.maxNesting + 1) =
    512 * childCost o Cell.maxNesting + 60 + lineCost o := rfl
  simp only [cost, hnewline, hspaces, Frame.work, hstage, waitingWork, Bool.toNat_false,
    List.length_nil, Nat.sub_zero]
  omega

end Moves

end Printing

end FlatLisp
