/-
Module: FlatLisp.Proofs.Reading.View
Purpose: What a suspended reader shows of itself. The frames in the arena show the unfinished values
  as they are, the innermost first, and the cursors tell how much they take.
Main exports: Parse.openContexts, Reading.Tracks.openContext, Reading.Tracks.isIdle
-/
import FlatLisp.Proofs.Reading.Simulation

namespace FlatLisp

/-- An unfinished symbol or integer as it is shown. -/
def Leaf.view : Leaf → OpenContext
  | .symbol _ quoted escaped _ => .symbol quoted escaped
  | .integer negative digits _ => .integer negative digits

/-- The unfinished values as they are shown, the innermost first. -/
def Parse.openContexts (p : Parse) : List OpenContext :=
  (p.leaf.map Leaf.view).toList ++ p.lists.map fun o => .list o.sigil

/-- No value is in progress. -/
def Parse.isIdle (p : Parse) : Bool := p.lists.isEmpty && p.leaf.isNone

namespace Layout

open Reading (Frame)
open Limits (frameCost)

variable {b a : Arena} {bytes : List UInt8} {ctxs outer : List Context} {c : Context}
  {top child : Nat}

/-- What a frame shows; its links do not matter. -/
def Context.view (c : Context) : OpenContext :=
  Frame.view { kind := c.kind, flags := c.flags, cell := 0, mark := 0, parent := 0, child := 0 }

/-- Any frame is loaded from where it is. -/
theorem Laid.load_around (hb : b.Bounded) (h : Laid b bytes top ctxs a)
    (hframes : FramesAt b a.memory child (c :: outer)) (hlength : outer.length < ctxs.length)
    (hcell : c.cell < 65536) (hchild : child < 65536) :
    Frame.load a (slot b (outer.length + 1)) = .ok (frameOf b c outer.length child) := by
  have hroom := h.room
  have hcost : frameCost * (outer.length + 1) ≤ frameCost * ctxs.length :=
    Nat.mul_le_mul_left _ hlength
  have hslot := slot_add outer.length (b := b) (by omega)
  refine Frame.load_ok (fits_frameOf hb hcell hchild _) ?_ hframes.head
  refine h.live_frames hb ?_ ?_
  · simp only [slot]
    omega
  · simp only [slot, frameCost_eq, Frame.length] at hslot ⊢
    omega

/-- Following the links outwards leads to one frame after another. -/
theorem frameAround_view (hb : b.Bounded) (h : Laid b bytes top ctxs a)
    (hframes : FramesAt b a.memory child (c :: outer)) (hlength : outer.length < ctxs.length)
    (hcells : ∀ x ∈ outer, x.cell < 65536) (outward : Nat) :
    (Reader.frameAround a outward (frameOf b c outer.length child)).map (·.map Frame.view) =
      .ok ((c :: outer).map Context.view)[outward]? := by
  induction outer generalizing c child outward with
  | nil => cases outward <;> rfl
  | cons d outer ih =>
      cases outward with
      | zero => rfl
      | succ outward =>
          have hslot := h.slot_pos hb
          have hcost : frameCost * (outer.length + 1) ≤ frameCost * ctxs.length :=
            Nat.mul_le_mul_left _ (Nat.le_of_lt hlength)
          have hne : slot b (outer.length + 1) ≠ 0 := by
            simp only [slot] at hslot ⊢
            omega
          have hlink : slot b (outer.length + 1 + 1) < 65536 := by
            have hcapacity := hb.capacity
            have hbackward := hb.backward
            simp only [Arena.maxCapacity, slot] at hcapacity ⊢
            omega
          have hload := h.load_around hb hframes.2 (Nat.lt_of_succ_lt hlength)
            (hcells d (List.mem_cons_self ..)) hlink
          rw [List.length_cons, Reader.frameAround, parent_frameOf_succ, if_neg hne, hload]
          exact ih hframes.2 (Nat.lt_of_succ_lt hlength)
            (fun x hx => hcells x (List.mem_cons_of_mem _ hx)) outward

theorem view_listContext (start : Nat) (o : OpenList) (outer : List OpenList) :
    (listContext start o outer).view = .list o.sigil := by
  change OpenContext.list (frameOf default (listContext start o outer) 0 0).sigil = _
  rw [sigil_frameOf]

theorem view_listContexts (start : Nat) (lists : List OpenList) :
    (listContexts start lists).map Context.view = lists.map fun o => .list o.sigil := by
  induction lists with
  | nil => rfl
  | cons o outer ih => rw [listContexts, List.map_cons, view_listContext, ih, List.map_cons]

theorem view_leafContext (start : Nat) (lists : List OpenList) (leaf : Leaf) :
    (leafContext start lists leaf).view = leaf.view := by
  cases leaf with
  | symbol sigil quoted escaped chars =>
      change OpenContext.symbol (symbolFlags quoted escaped &&& Frame.quotedFlag != 0)
        (symbolFlags quoted escaped &&& Frame.escapedFlag != 0) = .symbol quoted escaped
      cases quoted <;> cases escaped <;> decide
  | integer negative digits magnitude =>
      change OpenContext.integer (integerFlags negative digits &&& Frame.negativeFlag != 0)
        (integerFlags negative digits &&& Frame.digitsFlag != 0) = .integer negative digits
      cases negative <;> cases digits <;> decide

theorem view_contexts (p : Parse) : (contexts p).map Context.view = p.openContexts := by
  unfold contexts Parse.openContexts
  cases p.leaf with
  | none => exact view_listContexts p.start p.lists
  | some leaf =>
      rw [List.map_cons, view_leafContext, view_listContexts]
      rfl

theorem cell_le_of_mem (start : Nat) (lists : List OpenList) :
    ∀ c ∈ listContexts start lists, c.cell ≤ start + (OpenList.encodeAll lists).length := by
  induction lists with
  | nil => simp [listContexts]
  | cons o outer ih =>
      intro c hc
      rw [OpenList.encodeAll, List.length_append]
      rcases List.mem_cons.1 hc with rfl | hc
      · simp only [listContext]
        omega
      · have := ih c hc
        omega

end Layout

namespace Reading

open Layout
open Limits (frameCost)

variable {l : Limits} {b : Arena} {p : Parse} {s : Reading}

theorem Tracks.backward (h : Tracks l b p s) :
    s.arena.backward = b.backward - frameCost * p.frames := by
  rw [h.laid.backward, length_contexts]
  rfl

theorem Tracks.isIdle (hb : b.Bounded) (h : Tracks l b p s) : s.reader.isIdle = p.isIdle := by
  have hheld := h.held
  have hroot := h.root
  have hslot := h.laid.slot_pos hb
  unfold Held at hheld
  unfold contexts at hroot hslot
  rw [Reader.isIdle, hroot, Parse.isIdle]
  have hentry : ∀ c outer, 0 < slot b (List.length (c :: outer)) →
      (entry b 0 (c :: outer) == 0) = false := by
    intro c outer hpos
    simp only [entry, slot, List.length_cons] at hpos ⊢
    simp only [beq_eq_false_iff_ne]
    simp only [frameCost_eq] at hpos ⊢
    omega
  cases hleaf : p.leaf with
  | none =>
      rw [hleaf] at hheld hslot
      rw [hheld.2]
      cases hlists : p.lists with
      | nil => rfl
      | cons o outer =>
          rw [hlists] at hslot
          dsimp only [listContexts] at hslot ⊢
          rw [hentry _ _ hslot]
          rfl
  | some leaf =>
      rw [hleaf] at hslot
      dsimp only at hslot ⊢
      rw [hentry _ _ hslot]
      simp

/-- The unfinished values are shown as they are. -/
theorem Tracks.openContext (hl : LimitsOf l b) (hvalid : p.Valid l) (h : Tracks l b p s)
    (outward : Nat) :
    s.reader.openContext s.arena outward = .ok p.openContexts[outward]? := by
  have hlaid := h.laid
  have hroot := h.root
  have hbytes := hlaid.forward_lt hl.bounded
  have hdepth : p.lists.length < Reader.maxFrames := by
    have hmax := hl.depth
    have hopen := hvalid.depth
    simp only [Cell.maxNesting, Reader.maxFrames] at hmax ⊢
    omega
  rw [Parse.encode, List.length_append, ← h.start] at hbytes
  have hcells : ∀ c ∈ listContexts p.start p.lists, c.cell < 65536 := by
    intro c hc
    have := cell_le_of_mem p.start p.lists c hc
    omega
  have hviews := view_contexts p
  unfold contexts at hlaid hroot hviews
  rw [Reader.openContext]
  cases hleaf : p.leaf with
  | none =>
      rw [hleaf] at hlaid hroot hviews
      rw [focus_lists hl.bounded hlaid (by omega) hdepth hroot, ← hviews]
      cases hlists : p.lists with
      | nil => simp [leafOf, listContexts, bind, Except.bind, pure, Except.pure]
      | cons o outer =>
          rw [hlists] at hlaid hcells
          have hview := frameAround_view hl.bounded hlaid hlaid.frames
            (by rw [listContexts, List.length_cons]; exact Nat.lt_succ_self _)
            (fun x hx => hcells x (List.mem_cons_of_mem _ hx)) outward
          exact hview
  | some leaf =>
      rw [hleaf] at hlaid hroot hviews
      have hkind : (leafContext p.start p.lists leaf).kind ≠ .list := by
        cases leaf <;> exact Frame.Kind.noConfusion
      have hcell : (leafContext p.start p.lists leaf).cell < 65536 := by
        cases leaf <;> (simp only [leafContext]; omega)
      rw [focus_leaf hl.bounded hlaid hkind hcell (by omega) hdepth hroot, ← hviews]
      have hview := frameAround_view hl.bounded hlaid hlaid.frames
        (by rw [List.length_cons]; exact Nat.lt_succ_self _) hcells outward
      rw [length_listContexts] at hview
      exact hview

end Reading

end FlatLisp
