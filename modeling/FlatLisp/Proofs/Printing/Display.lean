/-
Module: FlatLisp.Proofs.Printing.Display
Purpose: The written form of a value, told without a printer: by recursion on the tree, out of lists of
  bytes that are joined. A printer with memory enough for its frames writes exactly that, wherever the
  parts of the value are.
Main exports: Tree.display, Tree.text_eq_display, Cell.Depicts.fits, Printing.print_displays
-/
import FlatLisp.Proofs.Arena.Untouched
import FlatLisp.Proofs.Printing.Resumption
import FlatLisp.Proofs.Printing.Run

namespace FlatLisp

open Text

namespace Printing

/-- Characters between double quotes. A backslash is before each double quote and each backslash. -/
def displayQuoted (chars : List UInt8) : List UInt8 :=
  [Ascii.doubleQuote] ++
    chars.flatMap (fun c =>
      if c = Ascii.doubleQuote ∨ c = Ascii.backslash then [Ascii.backslash, c] else [c]) ++
    [Ascii.doubleQuote]

/-- The shortest decimal digits of an integer after its sign. -/
def displayInteger (explicitSign : Bool) (value : Int) : List UInt8 :=
  (if value < 0 then [Ascii.minus] else if explicitSign then [Ascii.plus] else []) ++
    (Nat.toDigits 10 value.natAbs).map fun c => UInt8.ofNat c.toNat

/-- What is between two of the children of a list that has `depth` lists around it. -/
def gap (o : PrintOptions) (count depth : Nat) : List UInt8 :=
  if 0 < o.wrapAfter ∧ o.wrapAfter < count then
    [Ascii.newline] ++ List.replicate (o.indent * (depth + 1)) Ascii.space
  else [Ascii.space]

end Printing

namespace Tree

open Printing

/-- The written form of a tree that has `depth` lists around it. -/
def display (o : PrintOptions) (depth : Nat) : Tree → List UInt8
  | .symbol sigil quoted chars => sigil.text ++ if quoted then displayQuoted chars else chars
  | .integer value => displayInteger o.explicitSign value
  | .list sigil children =>
      sigil.text ++ [Ascii.openParen] ++
        (gap o children.length depth).intercalate (children.map (display o (depth + 1))) ++
        [Ascii.closeParen]

end Tree

/-! ### The two recursions -/

namespace Printing

theorem digits_eq_toDigits (n : Nat) :
    Decimal.digits n = (Nat.toDigits 10 n).map fun c => UInt8.ofNat c.toNat := by
  have hdigit : ∀ d < 10, [Ascii.digit d] = [d.digitChar].map fun c => UInt8.ofNat c.toNat := by
    decide
  induction n using Nat.strongRecOn with
  | _ n ih =>
    rw [Decimal.digits]
    split
    · rw [Nat.toDigits_of_lt_base ‹_›]
      exact hdigit n ‹_›
    · have hle : 10 ≤ n := Nat.le_of_not_lt ‹_›
      rw [Nat.toDigits_of_base_le (by decide) hle, List.map_append,
        ih (n / 10) (Nat.div_lt_self (by omega) (by decide)), hdigit _ (Nat.mod_lt n (by decide))]

theorem displayInteger_eq (o : PrintOptions) (value : Int) :
    sign o value ++ Decimal.digits value.natAbs = displayInteger o.explicitSign value := by
  rw [displayInteger, sign, digits_eq_toDigits]

theorem displayQuoted_eq (chars : List UInt8) :
    Ascii.doubleQuote :: (escape chars ++ [Ascii.doubleQuote]) = displayQuoted chars := by
  have hescape : escape chars = chars.flatMap fun c =>
      if c = Ascii.doubleQuote ∨ c = Ascii.backslash then [Ascii.backslash, c] else [c] := by
    rw [escape]
    congr 1
    funext c
    simp only [needsEscape, Bool.or_eq_true, beq_iff_eq]
  rw [hescape, displayQuoted, List.singleton_append, List.cons_append]

theorem separator_eq_gap (o : PrintOptions) (count depth : Nat) :
    separator o count depth = gap o count depth := by
  rw [separator, gap, PrintOptions.wraps]
  simp only [Bool.and_eq_true, bne_iff_ne, decide_eq_true_eq, Nat.pos_iff_ne_zero,
    List.singleton_append]

end Printing

namespace Tree

open Printing

/-- What is written after a child is either the gap before the next child or nothing. -/
theorem textAll_eq_intercalate (o : PrintOptions) (depth : Nat) (sep : List UInt8)
    (ts : List Tree) :
    textAll o depth sep ts = sep.intercalate (ts.map fun t => t.text o depth) := by
  induction ts with
  | nil => rfl
  | cons t rest ih =>
      rw [textAll]
      cases rest with
      | nil => rw [if_pos rfl, List.append_nil, List.map_singleton, List.intercalate_singleton]
      | cons u rest =>
          rw [if_neg (List.cons_ne_nil u rest), ih]
          simp only [List.map_cons, List.intercalate_cons_cons, List.append_assoc]

/-- What a printer writes for a tree is its written form. -/
theorem text_eq_display (t : Tree) (o : PrintOptions) (depth : Nat) :
    t.text o depth = t.display o depth := by
  induction t using Tree.induct generalizing depth with
  | symbol sigil quoted chars => rw [text, display, displayQuoted_eq]
  | integer value => rw [text, display, displayInteger_eq]
  | list sigil children ih =>
      have hmap : children.map (fun t => t.text o (depth + 1)) =
          children.map (display o (depth + 1)) :=
        List.map_congr_left fun t ht => ih t ht (depth + 1)
      rw [text, display, textAll_eq_intercalate, separator_eq_gap, hmap]
      simp only [List.append_assoc, List.cons_append, List.nil_append]

end Tree

/-! ### Prints -/

/-- The headers of what is depicted keep its numbers within their fields. -/
theorem Cell.Depicts.fits {a : Arena} {ext : External} {t : Tree} {p q : Place}
    (h : Depicts a ext t p q) : t.Fits := by
  induction t using Tree.induct generalizing p q with
  | symbol sigil quoted chars =>
      obtain ⟨linked, hash, place, hload, -, -, -⟩ := h
      exact fits_of_load hload
  | integer value => exact fits_of_load h.1
  | list sigil children ih =>
      obtain ⟨linked, first, last, next, hload, -, hchildren, -, -⟩ := h
      have hall : ∀ {ts : List Tree} {p : Place}, (∀ t ∈ ts, ∀ {p q : Place},
          Depicts a ext t p q → t.Fits) → DepictsAll a ext ts p last → Tree.FitAll ts := by
        intro ts
        induction ts with
        | nil => exact fun _ _ => trivial
        | cons t rest ihrest =>
            intro p hts hdepicts
            obtain ⟨middle, ht, hrest⟩ := hdepicts
            exact ⟨hts t (.head _) ht, ihrest (fun u hu => hts u (.tail _ hu)) hrest⟩
      exact ⟨fits_of_load hload, hall (fun t ht {_ _} => ih t ht) hchildren⟩

namespace Printing

open Cell (Depicts)

section Print

variable {σ : Type} [Sink σ] {seen : σ → List UInt8} {b : Arena} {ext : External} {t : Tree}
  {place stop : Place} {p : Printer}

/-- Whatever is depicted is written in its written form, where there is memory for a mark and for one
frame with its mark for each level and the value in the innermost. The printer is idle again and the
arena as it was. -/
theorem print_displays (hk : Keeps σ seen) (hall : ¬ Refuses σ) (hb : b.Bounded)
    (hdepicts : Depicts b ext t place stop) (hnesting : t.nesting ≤ Cell.maxNesting)
    (hfree : 4 + 17 * (t.nesting + 1) ≤ b.free) (hidle : p.isBusy = false) (k : σ) :
    ∃ k' a', print ext place ⟨p, b, k⟩ = .ok .done ⟨p, a', k'⟩ ∧
      seen k' = seen k ++ t.display p.options 0 ∧ b.Untouched a' := by
  rcases print_ok hk hall hb hdepicts hdepicts.fits hnesting hidle k with
    ⟨k', a', hprint, hseen, hpiled⟩ | ⟨e, k', a', -, -, -, hshort⟩
  · rw [Tree.text_eq_display] at hseen
    exact ⟨k', a', hprint, hseen, hpiled.untouched⟩
  · rw [Arena.free] at hfree
    omega

/-- The printed list is `(+7)`; its only child is at an address. -/
theorem print_displays_linked : ∃ a, Arena.create 64 = .ok a ∧
    Depicts a linkedList (.list .bare [.integer 7]) ⟨.store, 5⟩ ⟨.store, 9⟩ ∧
    (Tree.list .bare [.integer 7]).display {} 0 = [40, 43, 55, 41] ∧
    ∃ (k' : Transcript) (a' : Arena),
      print linkedList ⟨.store, 5⟩ ⟨{ options := {} }, a, ({} : Transcript)⟩ =
        .ok .done ⟨{ options := {} }, a', k'⟩ ∧
      k'.bytes = ({} : Transcript).bytes ++ (Tree.list .bare [.integer 7]).display {} 0 ∧
      a.Untouched a' := by
  obtain ⟨a, ha, hfree⟩ : ∃ a, Arena.create 64 = .ok a ∧
      4 + 17 * ((Tree.list .bare [.integer 7]).nesting + 1) ≤ a.free := ⟨_, rfl, by decide⟩
  have hdepicts : Depicts a linkedList (.list .bare [.integer 7]) ⟨.store, 5⟩ ⟨.store, 9⟩ :=
    ⟨true, ⟨.store, 1⟩, ⟨.store, 5⟩, ⟨.store, 9⟩, rfl, rfl, ⟨⟨.store, 5⟩, ⟨rfl, rfl⟩, rfl⟩, rfl, rfl⟩
  have hdisplay : (Tree.list .bare [.integer 7]).display {} 0 = [40, 43, 55, 41] := by
    simp only [Tree.display, displayInteger, List.map_cons, List.map_nil,
      List.intercalate_singleton]
    decide
  exact ⟨a, ha, hdepicts, hdisplay, print_displays keeps_transcript not_refuses_transcript
    (Arena.bounded_create ha) hdepicts (by decide) hfree rfl {}⟩

end Print

end Printing

end FlatLisp
