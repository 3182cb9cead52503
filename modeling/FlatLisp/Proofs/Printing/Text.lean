/-
Module: FlatLisp.Proofs.Printing.Text
Purpose: How a tree is written, by recursion on the tree, and how many rounds that can take at most.
Main exports: Printing.escape, Printing.separator, Tree.text, Tree.weight, Tree.weight_le
-/
import Mathlib.Algebra.Order.Ring.Nat
import FlatLisp.Printing.Basic
import FlatLisp.Proofs.Cell.Tree

namespace FlatLisp

open Text

namespace Printing

/-- The characters of a quoted symbol, with a backslash before each that needs one. -/
def escape (chars : List UInt8) : List UInt8 :=
  chars.flatMap fun c => if needsEscape c then [Ascii.backslash, c] else [c]

/-- What is written between two children of a list of `count` that is at `depth`. -/
def separator (o : PrintOptions) (count depth : Nat) : List UInt8 :=
  if o.wraps count then Ascii.newline :: List.replicate (o.indent * (depth + 1)) Ascii.space
  else [Ascii.space]

/-- What is written before the digits of an integer. -/
def sign (o : PrintOptions) (value : Int) : List UInt8 :=
  if value < 0 then [Ascii.minus] else if o.explicitSign then [Ascii.plus] else []

end Printing

namespace Tree

open Printing

mutual

/-- A tree as it is written at `depth`, the number of lists around it. -/
def text (o : PrintOptions) : (depth : Nat) → Tree → List UInt8
  | _, .symbol sigil quoted chars =>
      sigil.text ++
        if quoted then Ascii.doubleQuote :: (escape chars ++ [Ascii.doubleQuote]) else chars
  | _, .integer value => sign o value ++ Decimal.digits value.natAbs
  | depth, .list sigil children =>
      sigil.text ++ Ascii.openParen ::
        (textAll o (depth + 1) (separator o children.length depth) children ++ [Ascii.closeParen])

/-- Trees as they are written at `depth`, with `sep` between each two. -/
def textAll (o : PrintOptions) : (depth : Nat) → (sep : List UInt8) → List Tree → List UInt8
  | _, _, [] => []
  | depth, sep, t :: rest =>
      t.text o depth ++ if rest = [] then [] else sep ++ textAll o depth sep rest

end

/-! ### Rounds -/

mutual

/-- The number of rounds in which a tree is written, without its last one, is at most this many
times `indent + 1`. -/
def weight : Tree → Nat
  | .symbol .. => 200
  | .integer _ => 200
  | .list _ children => 200 + weightAll children

/-- As `weight`, with what comes before and after each child. -/
def weightAll : List Tree → Nat
  | [] => 0
  | t :: rest => t.weight + 40 + weightAll rest

end

theorem weightAll_le {bound : Nat} {ts : List Tree} (h : ∀ t ∈ ts, t.weight ≤ bound) :
    weightAll ts ≤ ts.length * (bound + 40) := by
  induction ts with
  | nil => exact Nat.zero_le _
  | cons t rest ih =>
      have ht := h t (List.mem_cons_self ..)
      have hrest := ih fun u hu => h u (List.mem_cons_of_mem _ hu)
      rw [weightAll, List.length_cons, Nat.succ_mul]
      omega

/-- A tree whose lists nest to a certain depth only has a weight below this. -/
theorem weight_le {t : Tree} (hfits : t.Fits) : t.weight ≤ 2 ^ (15 + 9 * t.nesting) := by
  have hleaf : 200 ≤ 2 ^ 15 := by decide
  induction t using Tree.induct with
  | symbol | integer =>
      exact Nat.le_trans hleaf (Nat.pow_le_pow_right Nat.two_pos (Nat.le_add_right ..))
  | list sigil children ih =>
      obtain ⟨hcount, hall⟩ := hfits
      rw [weight, nesting]
      by_cases hempty : children = []
      · rw [hempty, weightAll, if_pos rfl]
        decide
      · have hbound : ∀ t ∈ children, t.weight ≤ 2 ^ (15 + 9 * nestingAll children) := by
          intro t ht
          refine Nat.le_trans (ih t ht (fitAll_iff.1 hall t ht)) ?_
          have := nesting_le_nestingAll ht
          exact Nat.pow_le_pow_right Nat.two_pos (by omega)
        have hpow : 2 ^ 15 ≤ 2 ^ (15 + 9 * nestingAll children) :=
          Nat.pow_le_pow_right Nat.two_pos (Nat.le_add_right ..)
        have hall := weightAll_le hbound
        rw [if_neg hempty, show 15 + 9 * (nestingAll children + 1) =
          15 + 9 * nestingAll children + 9 by omega, Nat.pow_add 2 (15 + _) 9]
        generalize 2 ^ (15 + 9 * nestingAll children) = bound at hpow hall ⊢
        have hmul : children.length * (bound + 40) ≤ 511 * (bound + 40) :=
          Nat.mul_le_mul_right _ hcount
        omega

theorem weight_lt {t : Tree} (hfits : t.Fits) {n : Nat} (hn : 15 + 9 * t.nesting < n) :
    t.weight < 2 ^ n :=
  Nat.lt_of_le_of_lt (weight_le hfits) (Nat.pow_lt_pow_right (Nat.lt_succ_self _) hn)

/-- No print takes more rounds than it is given. -/
theorem weight_lt_roundLimit {t : Tree} (hfits : t.Fits) (hnesting : t.nesting ≤ Cell.maxNesting)
    (o : PrintOptions) : (o.indent + 1) * t.weight < roundLimit o := by
  rw [Cell.maxNesting] at hnesting
  unfold roundLimit
  generalize hn : 400 = n
  rw [Nat.shiftLeft_eq]
  exact Nat.mul_lt_mul_of_pos_left (weight_lt hfits (by omega)) (Nat.succ_pos _)

end Tree

end FlatLisp
