/-
Module: FlatLisp.Proofs.Reading.Validity
Purpose: What is unfinished stays within all bounds: no list has more children, no symbol more
  characters and no integer a larger magnitude than a header can hold, and no more lists are open
  than the reader allows.
Main exports: OpenList.Fits, Leaf.Fits, Parse.Valid, Parse.sound_turn, Parse.sound_turns
-/
import FlatLisp.Proofs.Reading.Parse
import FlatLisp.Proofs.Reading.Scan

namespace FlatLisp

namespace OpenList

/-- Every number of the list is within the width of its field. -/
def Fits (o : OpenList) : Prop := o.children.length ≤ Header.maxCount ∧ Tree.FitAll o.children

theorem Fits.tree {o : OpenList} (h : o.Fits) : o.tree.Fits := h

/-- A list that is not full has room for one more child. -/
theorem Fits.adopt {o : OpenList} {t : Tree} (h : o.Fits) (ht : t.Fits)
    (hroom : o.children.length < Header.maxCount) : (o.adopt t).Fits := by
  refine ⟨?_, ?_⟩
  · rw [OpenList.adopt, List.length_append, List.length_singleton]
    exact hroom
  · rw [Tree.fitAll_iff]
    intro y hy
    rcases List.mem_append.1 hy with hy | hy
    · exact Tree.fitAll_iff.1 h.2 y hy
    · rw [List.mem_singleton.1 hy]
      exact ht

theorem Fits.header {o : OpenList} (h : o.Fits) : o.header.Fits := h.1

end OpenList

namespace Leaf

/-- Every number of the leaf is within the width of its field, nothing is escaped but between quotes,
and without digits there is no magnitude. -/
def Fits : Leaf → Prop
  | .symbol _ quoted escaped chars =>
      chars.length ≤ Header.maxSymbol ∧ (quoted = false → escaped = false)
  | .integer _ digits magnitude =>
      magnitude ≤ Header.maxMagnitude ∧ (digits = false → magnitude = 0)

@[simp] theorem natAbs_signed (negative : Bool) (magnitude : Nat) :
    (signed negative magnitude).natAbs = magnitude := by
  cases negative <;> simp [signed]

theorem Fits.header {l : Leaf} (h : l.Fits) : l.header.Fits := by
  cases l with
  | symbol sigil quoted escaped chars => exact h.1
  | integer negative digits magnitude =>
      simpa [Leaf.header, Header.Fits] using h.1

end Leaf

namespace Parse

open Reading

/-- What is in progress is within all bounds. -/
structure Valid (l : Limits) (p : Parse) : Prop where
  lists : ∀ o ∈ p.lists, o.Fits
  leaf : ∀ leaf ∈ p.leaf, leaf.Fits
  depth : p.lists.length ≤ l.maxDepth

theorem valid_of_idle {l : Limits} {p : Parse} (hlists : p.lists = []) (hleaf : p.leaf = none) :
    p.Valid l where
  lists := by
    rw [hlists]
    exact List.forall_mem_nil _
  leaf := by
    rw [hleaf]
    simp
  depth := by
    rw [hlists]
    exact Nat.zero_le _

/-- What is in progress after a turn is within all bounds, and so is the value it completes. -/
def Outcome.Sound (l : Limits) : Outcome → Prop
  | .again p | .starved _ p => p.Valid l
  | .done t p => t.Fits ∧ p.Valid l
  | .failed _ => True

theorem Valid.of_same {l : Limits} {p q : Parse} (h : p.Valid l) (hlists : q.lists = p.lists)
    (hleaf : q.leaf = p.leaf) : q.Valid l :=
  ⟨hlists ▸ h.lists, hleaf ▸ h.leaf, hlists ▸ h.depth⟩

theorem Valid.with_leaf {l : Limits} {p q : Parse} {leaf : Option Leaf} (h : p.Valid l)
    (hlists : q.lists = p.lists) (hq : q.leaf = leaf) (hleaf : ∀ x ∈ leaf, x.Fits) : q.Valid l :=
  ⟨hlists ▸ h.lists, hq ▸ hleaf, hlists ▸ h.depth⟩

theorem Valid.without_leaf {l : Limits} {p q : Parse} (h : p.Valid l)
    (hlists : q.lists = p.lists) (hq : q.leaf = none) : q.Valid l :=
  h.with_leaf hlists hq nofun

theorem sound_complete {l : Limits} {p : Parse} {t : Tree} (h : p.Valid l) (ht : t.Fits) :
    (p.complete t).Sound l := by
  unfold complete
  cases hlists : p.lists with
  | nil => exact ⟨ht, h.of_same hlists.symm rfl⟩
  | cons o outer =>
      dsimp only
      split
      · trivial
      · rename_i hroom
        have ho := h.lists o (by simp [hlists])
        have hdepth := h.depth
        rw [hlists] at hdepth
        refine ⟨?_, h.leaf, hdepth⟩
        intro x hx
        rcases List.mem_cons.1 hx with rfl | hx
        · exact ho.adopt ht (Nat.lt_of_le_of_ne ho.1 hroom)
        · exact h.lists x (by simp [hlists, hx])

theorem sound_begin {l : Limits} {p next : Parse} {length : Nat} (h : next.Valid l) :
    (p.begin l length next).Sound l := by
  unfold begin
  split
  · trivial
  · exact h

theorem sound_accept {l : Limits} {p : Parse} (h : p.Valid l) (token : Token) :
    (p.accept l token).Sound l := by
  cases token with
  | comment => exact h.of_same rfl rfl
  | close =>
      unfold accept
      cases hlists : p.lists with
      | nil => trivial
      | cons o outer =>
          refine sound_complete ⟨?_, h.leaf, ?_⟩ (h.lists o (by simp [hlists]))
          · intro x hx
            exact h.lists x (by simp [hlists, show x ∈ outer from hx])
          · have := h.depth
            simp only [hlists, List.length_cons] at this
            exact Nat.le_of_succ_le this
  | list sigil =>
      unfold accept
      dsimp only
      split
      · trivial
      · rename_i hdepth
        refine sound_begin ⟨?_, h.leaf, Nat.lt_of_not_le hdepth⟩
        intro x hx
        rcases List.mem_cons.1 hx with rfl | hx
        · exact ⟨Nat.zero_le _, trivial⟩
        · exact h.lists x hx
  | symbol sigil quoted =>
      refine sound_begin (h.with_leaf rfl rfl ?_)
      intro x hx
      cases hx
      exact ⟨Nat.zero_le _, fun _ => rfl⟩
  | integer =>
      refine sound_begin (h.with_leaf rfl rfl ?_)
      intro x hx
      cases hx
      exact ⟨Nat.zero_le _, fun _ => rfl⟩

theorem sound_symbolTurn {l : Limits} {p : Parse} {sigil : Sigil} {quoted escaped : Bool}
    {chars : List UInt8} (h : p.Valid l)
    (hleaf : (Leaf.symbol sigil quoted escaped chars).Fits) :
    (p.symbolTurn l sigil quoted escaped chars).Sound l := by
  unfold symbolTurn afterSymbol
  obtain ⟨hchars, hescaped⟩ := hleaf
  generalize hroom : l.reserved p.frames p.text - chars.length = room
  have hlength := scanSymbol_length_le quoted escaped room p.ahead hchars
  rw [← List.length_append] at hlength
  dsimp only
  split
  · refine h.with_leaf rfl rfl ?_
    intro x hx
    cases hx
    exact ⟨hlength, fun hq => scanSymbol_escaped _ _ _ hq (hescaped hq)⟩
  · trivial
  · trivial
  · exact sound_complete (h.without_leaf rfl rfl) hlength

theorem sound_integerTurn {l : Limits} {p : Parse} {negative digits : Bool} {magnitude : Nat}
    (h : p.Valid l) (hleaf : (Leaf.integer negative digits magnitude).Fits) :
    (p.integerTurn negative digits magnitude).Sound l := by
  unfold integerTurn afterInteger
  have hfits := scanInteger_fits negative 0 p.ahead hleaf.1 hleaf.2
  split
  · refine h.with_leaf rfl rfl ?_
    intro x hx
    cases hx
    exact hfits
  · trivial
  · refine sound_complete (h.without_leaf rfl rfl) ?_
    rw [Tree.Fits, Leaf.natAbs_signed]
    exact hfits.1

/-- One turn keeps all bounds. -/
theorem sound_turn {l : Limits} {p : Parse} (h : p.Valid l) : (p.turn l).Sound l := by
  unfold turn
  split
  · unfold commentTurn afterComment
    split
    · exact h.of_same rfl rfl
    · exact h.of_same rfl rfl
  · split
    · unfold tokenTurn afterLead
      split
      · exact h.of_same rfl rfl
      · trivial
      · refine sound_accept ?_ _
        exact h.of_same rfl rfl
    · rename_i hleaf
      exact sound_symbolTurn h (h.leaf _ hleaf)
    · rename_i hleaf
      exact sound_integerTurn h (h.leaf _ hleaf)

/-- A whole read keeps all bounds. -/
theorem sound_turns {l : Limits} {p : Parse} (h : p.Valid l) (fuel : Nat) :
    (turns l fuel p).Sound l := by
  induction fuel generalizing p with
  | zero => exact h
  | succ fuel ih =>
      have hturn := sound_turn h
      unfold turns
      split
      · rename_i q hq
        rw [hq] at hturn
        exact ih hturn
      · exact hturn

end Parse

end FlatLisp
