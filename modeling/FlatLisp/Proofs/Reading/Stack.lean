/-
Module: FlatLisp.Proofs.Reading.Stack
Purpose: The frames of a reader as a stack. Following the links from the outermost frame finds the
  innermost one, a new frame goes on top, and completing a value takes the top frame away and counts
  the value in the list around it.
Main exports: Layout.contexts, Layout.focusFrom_lists, Layout.pushFrame_ok, Layout.complete_ok
-/
import FlatLisp.Proofs.Reading.Layout
import FlatLisp.Proofs.Reading.Validity

namespace FlatLisp

/-! ### Requests inside a read -/

section Lift

variable {α : Type} {r : Reader} {source : Source} {a a' : Arena} {y : α}

theorem lift_arena_ok {x : ArenaM α} (h : x a = .ok y a') :
    (liftM x : ReadM α) ⟨r, source, a⟩ = .ok y ⟨r, source, a'⟩ := by
  simp only [liftM, monadLift, MonadLift.monadLift, h]

theorem lift_arena_error {x : ArenaM α} {e : ArenaError} (h : x a = .error e a') :
    (liftM x : ReadM α) ⟨r, source, a⟩ = .error (.fault (.arena e)) ⟨r, source, a'⟩ := by
  simp only [liftM, monadLift, MonadLift.monadLift, h]

theorem lift_cell_ok {x : CellM α} (h : x a = .ok y a') :
    (liftM x : ReadM α) ⟨r, source, a⟩ = .ok y ⟨r, source, a'⟩ := by
  simp only [liftM, monadLift, MonadLift.monadLift, h]

theorem look_ok {f : Arena → Except Fault α} (h : f a = .ok y) :
    Reading.look f ⟨r, source, a⟩ = .ok y ⟨r, source, a⟩ := by
  rw [Reading.look]
  refine lift_cell_ok ?_
  rw [Cell.consult, h]

theorem setHeader_ok {offset : Nat} {h : Header} (hlive : a.Live offset h.length) :
    Reading.setHeader offset h ⟨r, source, a⟩ =
      .ok () ⟨r, source, { a with memory := a.memory.write offset h.encode }⟩ := by
  rw [← h.length_encode] at hlive
  exact lift_arena_ok (Arena.write_ok hlive)

theorem storeFrame_ok {offset : Nat} {f : Reading.Frame}
    (hlive : a.Live offset Reading.Frame.length) :
    (liftM (Reading.Frame.store offset f) : ReadM Unit) ⟨r, source, a⟩ =
      .ok () ⟨r, source, { a with memory := a.memory.write offset f.encode }⟩ := by
  rw [← f.length_encode] at hlive
  refine lift_cell_ok ?_
  rw [Reading.Frame.store]
  simp only [liftM, monadLift, MonadLift.monadLift, Arena.write_ok hlive]

end Lift

namespace Layout

open Reading (Frame)
open Limits (frameCost)

/-! ### The frames of what is in progress -/

/-- The frame of an open list with the lists `outer` around it. -/
def listContext (start : Nat) (o : OpenList) (outer : List OpenList) : Context where
  kind := .list
  flags := UInt8.ofNat o.sigil.code
  cell := start + (OpenList.encodeAll outer).length

def listContexts (start : Nat) : List OpenList → List Context
  | [] => []
  | o :: outer => listContext start o outer :: listContexts start outer

/-- The flags of a symbol in progress. -/
def symbolFlags (quoted escaped : Bool) : UInt8 :=
  (if quoted then Frame.quotedFlag else 0) ||| (if escaped then Frame.escapedFlag else 0)

/-- The flags of an integer in progress. -/
def integerFlags (negative digits : Bool) : UInt8 :=
  (if negative then Frame.negativeFlag else 0) ||| (if digits then Frame.digitsFlag else 0)

/-- The frame of a leaf with the lists `lists` around it. -/
def leafContext (start : Nat) (lists : List OpenList) : Leaf → Context
  | .symbol _ quoted escaped _ =>
      ⟨.symbol, symbolFlags quoted escaped, start + (OpenList.encodeAll lists).length⟩
  | .integer negative digits _ =>
      ⟨.integer, integerFlags negative digits, start + (OpenList.encodeAll lists).length⟩

/-- The frames of a read in progress, the innermost first. -/
def contexts (p : Parse) : List Context :=
  match p.leaf with
  | none => listContexts p.start p.lists
  | some l => leafContext p.start p.lists l :: listContexts p.start p.lists

@[simp] theorem length_listContexts (start : Nat) (lists : List OpenList) :
    (listContexts start lists).length = lists.length := by
  induction lists with
  | nil => rfl
  | cons o outer ih => simp [listContexts, ih]

theorem length_contexts (p : Parse) : (contexts p).length = p.frames := by
  unfold contexts Parse.frames
  cases p.leaf <;> simp

variable {b a : Arena} {bytes : List UInt8} {child : Nat} {c : Context} {ctxs : List Context}
  {start : Nat} {lists outer : List OpenList} {o : OpenList}

theorem sigil_frameOf (b : Arena) (start : Nat) (o : OpenList) (outer : List OpenList)
    (n child : Nat) : (frameOf b (listContext start o outer) n child).sigil = o.sigil := by
  have hcode : (UInt8.ofNat o.sigil.code).toNat = o.sigil.code := by
    have := o.sigil.code_lt
    rw [UInt8.toNat_ofNat']
    omega
  simp [frameOf, listContext, Frame.sigil, hcode]

/-- The innermost open list as a focus shows it. -/
def leafOf (b : Arena) (child : Nat) : List Context → Option (Nat × Frame)
  | [] => none
  | c :: outer => some (slot b (outer.length + 1), frameOf b c outer.length child)

/-- Following the links through the open lists leads to what the innermost is linked to. -/
theorem focusFrom_lists (hb : b.Bounded)
    {top : Nat} (h : Laid b bytes top ctxs a) (hchild : child < 65536)
    (hframes : FramesAt b a.memory child (listContexts start lists))
    (hlength : lists.length ≤ ctxs.length)
    (hcells : start + (OpenList.encodeAll lists).length < 65536) (fuel : Nat) :
    Reader.focusFrom a (lists.length + fuel) (entry b child (listContexts start lists))
        ⟨none, 0, 0⟩ =
      Reader.focusFrom a fuel child
        ⟨leafOf b child (listContexts start lists), Parse.levelOf lists, lists.length⟩ := by
  induction lists generalizing child fuel with
  | nil => rw [List.length_nil, Nat.zero_add]; rfl
  | cons o outer ih =>
      have hroom := h.room
      have hslot := h.slot_pos hb
      have hn := length_listContexts start outer
      obtain ⟨hhead, houter⟩ := hframes
      rw [List.length_cons] at hlength
      rw [hn] at hhead houter
      have hchild' : slot b (outer.length + 1) < 65536 := by
        have hcapacity := hb.capacity
        have hbackward := hb.backward
        simp only [Arena.maxCapacity, slot] at hcapacity ⊢
        omega
      have hcells' : start + (OpenList.encodeAll outer).length < 65536 := by
        simp only [OpenList.encodeAll, List.length_append] at hcells
        omega
      have hload : Frame.load a (slot b (outer.length + 1)) =
          .ok (frameOf b (listContext start o outer) outer.length child) := by
        refine Frame.load_ok (fits_frameOf hb hcells' hchild _) ?_ hhead.left
        refine h.live_frames hb ?_ ?_ <;>
          simp only [slot, frameCost_eq, Frame.length] at hslot hroom ⊢ <;> omega
      have hne : slot b (outer.length + 1) ≠ 0 := by
        simp only [slot, frameCost_eq] at hslot ⊢
        omega
      rw [listContexts, entry_cons, hn, List.length_cons, Nat.add_assoc, Nat.add_comm 1 fuel,
        ih hchild' houter (by omega) hcells', Reader.focusFrom, if_neg hne]
      simp only [hload, bind, Except.bind, sigil_frameOf, leafOf, hn, Parse.levelOf]
      rfl

/-- Between the children of a list, or between values, the innermost list is in focus. -/
theorem focus_lists (hb : b.Bounded) (h : Laid b bytes 0 (listContexts start lists) a)
    (hcells : start + (OpenList.encodeAll lists).length < 65536)
    (hdepth : lists.length < Reader.maxFrames) {r : Reader}
    (hroot : r.root = entry b 0 (listContexts start lists)) :
    r.focus a = .ok ⟨leafOf b 0 (listContexts start lists), Parse.levelOf lists, lists.length⟩ := by
  obtain ⟨fuel, hfuel⟩ : ∃ fuel, Reader.maxFrames = lists.length + (fuel + 1) :=
    ⟨Reader.maxFrames - lists.length - 1, by omega⟩
  rw [Reader.focus, hroot, hfuel, focusFrom_lists hb h (Nat.zero_lt_succ _) h.frames
    (Nat.le_of_eq (length_listContexts ..).symm) hcells, Reader.focusFrom, if_pos rfl]

/-- Inside a symbol or an integer, its frame is in focus. -/
theorem focus_leaf (hb : b.Bounded) (h : Laid b bytes 0 (c :: listContexts start lists) a)
    (hkind : c.kind ≠ .list) (hcell : c.cell < 65536)
    (hcells : start + (OpenList.encodeAll lists).length < 65536)
    (hdepth : lists.length < Reader.maxFrames) {r : Reader}
    (hroot : r.root = entry b 0 (c :: listContexts start lists)) :
    r.focus a = .ok
      ⟨some (slot b (lists.length + 1), frameOf b c lists.length 0), Parse.levelOf lists,
        lists.length⟩ := by
  obtain ⟨fuel, hfuel⟩ : ∃ fuel, Reader.maxFrames = lists.length + (fuel + 1) :=
    ⟨Reader.maxFrames - lists.length - 1, by omega⟩
  have hn := length_listContexts start lists
  have hslot := h.slot_pos hb
  have hload := h.load_frame hb hcell (Nat.zero_lt_succ _)
  have hchild : slot b (lists.length + 1) < 65536 := by
    have hcapacity := hb.capacity
    have hbackward := hb.backward
    simp only [Arena.maxCapacity, slot] at hcapacity ⊢
    omega
  have houter := h.frames.2
  rw [List.length_cons, hn] at hslot
  rw [hn] at hload houter
  rw [Reader.focus, hroot, hfuel, entry_cons, hn,
    focusFrom_lists hb h hchild houter (by rw [List.length_cons, hn]; omega) hcells,
    Reader.focusFrom, if_neg (by omega)]
  simp only [hload, bind, Except.bind]
  cases hc : c.kind with
  | list => exact (hkind hc).elim
  | symbol => simp only [frameOf, hc]; rfl
  | integer => simp only [frameOf, hc]; rfl

/-! ### Pushing -/

/-- The link of a new frame to the frames that are there. -/
def parentOf (b : Arena) (n : Nat) : Nat := if n = 0 then 0 else slot b n

/-- A frame as it is handed to `pushFrame`, which fills the mark in. -/
def newFrame (b : Arena) (c : Context) (n : Nat) : Frame where
  kind := c.kind
  flags := c.flags
  cell := c.cell
  mark := 0
  parent := parentOf b n
  child := 0

/-- The memory after a new frame has been put below the others. -/
def pushed (b : Arena) (m : Bytes) (c : Context) (n : Nat) : Bytes :=
  (m.write (slot b n - Arena.markLength) (recordOf b n)).write (slot b (n + 1))
    (frameOf b c n 0).encode

section Pushed

variable {m : Bytes} {n : Nat}

theorem size_pushed : (pushed b m c n).size = m.size := by
  rw [pushed, Bytes.size_write, Bytes.size_write]

theorem sameOn_pushed (hroom : frameCost * (n + 1) ≤ b.backward) {low high : Nat}
    (h : high ≤ slot b (n + 1) ∨ slot b n ≤ low) : m.SameOn (pushed b m c n) low high := by
  have hslot := slot_add n hroom
  simp only [frameCost_eq] at hslot
  refine (Bytes.sameOn_write ?_).trans (Bytes.sameOn_write ?_)
  · rw [length_recordOf]
    simp only [Arena.markLength]
    omega
  · rw [Frame.length_encode]
    simp only [Frame.length]
    omega

theorem holds_pushed (hroom : frameCost * (n + 1) ≤ b.backward) (hsize : slot b n ≤ m.size) :
    (pushed b m c n).Holds (slot b (n + 1)) ((frameOf b c n 0).encode ++ recordOf b n) := by
  have hslot := slot_add n hroom
  simp only [frameCost_eq] at hslot
  have hmark : slot b n - Arena.markLength = slot b (n + 1) + (frameOf b c n 0).encode.length := by
    rw [Frame.length_encode]
    simp only [Arena.markLength, Frame.length]
    omega
  rw [Bytes.holds_append]
  refine ⟨Bytes.holds_write ?_, ?_⟩
  · rw [Frame.length_encode, Bytes.size_write]
    simp only [Frame.length]
    omega
  · rw [pushed, hmark]
    refine (Bytes.holds_write ?_).write_of_disjoint (.inr (Nat.le_refl _))
    rw [length_recordOf, ← hmark]
    simp only [Arena.markLength]
    omega

end Pushed

/-- The arena after `pushFrame`, up to the links. -/
def withFrame (b a : Arena) (m : Bytes) (n : Nat) : Arena :=
  { a with memory := m, backward := slot b (n + 1), backwardMark := markOf b (n + 1) }

section Room

variable (h : Laid b bytes 0 ctxs a) (hfree : frameCost ≤ a.free)

include h hfree

/-- The free bytes are enough for another frame below the others. -/
theorem room_push : frameCost * (ctxs.length + 1) ≤ b.backward := by
  have hbackward := h.backward
  have hroom := h.room
  simp only [Arena.free, slot, frameCost_eq] at hfree hbackward hroom ⊢
  omega

theorem forward_le_push : a.forward ≤ slot b (ctxs.length + 1) := by
  have hbackward := h.backward
  have hslot := slot_add ctxs.length (room_push h hfree)
  simp only [Arena.free, hbackward, frameCost_eq] at hfree hslot
  omega

/-- With the frames in memory, all is as it should be. -/
theorem laid_withFrame {m : Bytes} (hsize : m.size = a.memory.size)
    (hbelow : a.memory.SameOn m 0 (slot b (ctxs.length + 1)))
    (habove : a.memory.SameOn m b.backward a.memory.size)
    (hframes : FramesAt b m 0 (c :: ctxs)) :
    Laid b bytes 0 (c :: ctxs) (withFrame b a m ctxs.length) := by
  have hforward := h.forward
  have hle := forward_le_push h hfree
  exact { h with
    size := hsize.trans h.size
    below := h.below.trans (hbelow.mono (Nat.le_refl _) (by omega))
    above := h.above.trans (by rw [← h.size]; exact habove)
    cells := h.cells.of_sameOn hsize hbelow (Nat.zero_le _) (by omega)
    frames := hframes
    cursors := hle
    backward := rfl
    backwardMark := rfl
    room := room_push h hfree }

/-- The first steps of `pushFrame`: the mark, the room and the frame itself. -/
theorem pushFrame_stored (hb : b.Bounded) (r : Reader) (source : Source) :
    Reading.pushFrame (newFrame b c ctxs.length) ⟨r, source, a⟩ =
      (if parentOf b ctxs.length = 0 then
        Reading.modifyReader ({ · with root := slot b (ctxs.length + 1) })
      else do
        let around ← Reading.look (Frame.load · (parentOf b ctxs.length))
        Frame.store (parentOf b ctxs.length)
          { around with child := slot b (ctxs.length + 1) } : ReadM Unit)
        ⟨r, source, withFrame b a (pushed b a.memory c ctxs.length) ctxs.length⟩ := by
  have hbackward := h.backward
  have hslot := slot_add ctxs.length (room_push h hfree)
  have hle := forward_le_push h hfree
  have hsize := h.size
  have htop := hb.backward
  simp only [frameCost_eq] at hslot
  have hmark : Arena.mark .backward a = .ok ⟨.backward, markOf b (ctxs.length + 1)⟩ a.marked := by
    rw [markOf, ← hbackward]
    refine Arena.mark_backward_ok ?_
    simp only [Arena.free, Arena.markLength, hbackward]
    omega
  have hoffset : a.marked.backward - Frame.length = slot b (ctxs.length + 1) := by
    simp only [Arena.marked, hbackward, Arena.markLength, Frame.length]
    omega
  have hroom : Frame.length ≤ a.marked.free := by
    simp only [Arena.free, Arena.marked, Arena.markLength, Frame.length, hbackward]
    omega
  have hlive : Arena.Live { a.marked with backward := slot b (ctxs.length + 1) }
      (slot b (ctxs.length + 1)) Frame.length := by
    have htotal : slot b ctxs.length ≤ b.backward := Nat.sub_le ..
    refine Arena.live_of_above (Nat.le_refl _) ?_
    simp only [Arena.capacity, Arena.marked, Bytes.size_write, Frame.length] at hsize htop ⊢
    omega
  rw [Reading.pushFrame, bind_ok (lift_arena_ok hmark),
    bind_ok (lift_arena_ok (Arena.alloc_backward_ok hroom)), hoffset,
    bind_ok (storeFrame_ok hlive)]
  simp only [newFrame, withFrame, pushed, Arena.marked, hbackward, h.backwardMark, recordOf, frameOf,
    parentOf, markOf]
  rfl

end Room

/-- A new frame goes on top of those that are there. -/
theorem pushFrame_ok (hb : b.Bounded) (h : Laid b bytes 0 ctxs a) (hfree : frameCost ≤ a.free)
    (hcells : ∀ c' ∈ ctxs, c'.cell < 65536) {r : Reader} (hroot : r.root = entry b 0 ctxs)
    (source : Source) :
    ∃ m, Reading.pushFrame (newFrame b c ctxs.length) ⟨r, source, a⟩ =
        .ok () ⟨{ r with root := entry b 0 (c :: ctxs) }, source, withFrame b a m ctxs.length⟩ ∧
      Laid b bytes 0 (c :: ctxs) (withFrame b a m ctxs.length) := by
  have hroom := room_push h hfree
  have hslot := slot_add ctxs.length hroom
  have hsize := size_pushed (b := b) (m := a.memory) (c := c) (n := ctxs.length)
  have hstack : slot b ctxs.length ≤ a.memory.size := by
    have hsize : a.memory.size = b.capacity := h.size
    have htop := hb.backward
    simp only [slot]
    omega
  have hhead := holds_pushed (c := c) hroom hstack
  have hbelow : a.memory.SameOn (pushed b a.memory c ctxs.length) 0 _ :=
    sameOn_pushed hroom (.inl (Nat.le_refl _))
  have habove : a.memory.SameOn (pushed b a.memory c ctxs.length) (slot b ctxs.length)
      a.memory.size :=
    sameOn_pushed hroom (.inr (Nat.le_refl _))
  have hframes : FramesAt b (pushed b a.memory c ctxs.length) 0 ctxs :=
    h.frames.of_sameOn hsize
      (sameOn_pushed hroom (.inr (Nat.le_refl _))) h.room
  have hslots : slot b ctxs.length ≤ b.backward := Nat.sub_le ..
  cases ctxs with
  | nil =>
      refine ⟨_, pushFrame_stored h hfree hb r source, ?_⟩
      exact laid_withFrame h hfree hsize hbelow (habove.mono hslots (Nat.le_refl _)) ⟨hhead, trivial⟩
  | cons c' outer =>
      have hne : parentOf b (c' :: outer).length ≠ 0 := by
        have := h.slot_pos hb
        rw [parentOf, if_neg (by simp)]
        omega
      have hparent : parentOf b (c' :: outer).length = slot b (outer.length + 1) := by
        rw [parentOf, if_neg (by simp), List.length_cons]
      have houter := slot_add outer.length (by simpa using h.room)
      have hcell := hcells c' (List.mem_cons_self ..)
      have htop := hb.backward
      have htotal : slot b outer.length ≤ b.backward := Nat.sub_le ..
      have hcapacity : a.memory.size = b.capacity := h.size
      simp only [List.length_cons, frameCost_eq] at hslot houter hroom hslots
      generalize hpushed : pushed b a.memory c (c' :: outer).length = m at *
      have hlive : (withFrame b a m (c' :: outer).length).Live (slot b (outer.length + 1))
          Frame.length := by
        refine Arena.live_of_above ?_ ?_
        · simp only [withFrame, List.length_cons]
          omega
        · simp only [withFrame, Arena.capacity, Frame.length] at hsize hcapacity htop ⊢
          omega
      have hload : Frame.load (withFrame b a m (c' :: outer).length) (slot b (outer.length + 1)) =
          .ok (frameOf b c' outer.length 0) :=
        Frame.load_ok (fits_frameOf hb hcell (Nat.zero_lt_succ _) _) hlive hframes.head
      have hsame : ∀ low high, high ≤ slot b (outer.length + 1) ∨ slot b outer.length ≤ low →
          m.SameOn (m.write (slot b (outer.length + 1))
            (frameOf b c' outer.length (slot b (outer.length + 2))).encode) low high := by
        intro low high hd
        refine Bytes.sameOn_write ?_
        rw [Frame.length_encode]
        simp only [Frame.length]
        omega
      refine ⟨m.write (slot b (outer.length + 1))
        (frameOf b c' outer.length (slot b (outer.length + 2))).encode, ?_, ?_⟩
      · rw [pushFrame_stored h hfree hb r source, if_neg hne, hparent, hpushed,
          bind_ok (look_ok hload)]
        refine (storeFrame_ok hlive).trans ?_
        have hsameRoot : entry b 0 (c :: c' :: outer) = r.root := hroot.symm
        rw [hsameRoot]
        rfl
      · refine laid_withFrame h hfree ((Bytes.size_write ..).trans hsize)
          (hbelow.trans (hsame _ _ (.inl ?_)))
          ((habove.mono hslots (Nat.le_refl _)).trans (hsame _ _ (.inr htotal))) ⟨?_, ?_⟩
        · rw [List.length_cons]
          omega
        · refine hhead.of_sameOn (Bytes.size_write ..) (hsame 0 _ (.inl (Nat.le_refl _)))
            (Nat.zero_le _) ?_
          rw [List.length_append, Frame.length_encode, length_recordOf, List.length_cons]
          simp only [Frame.length, Arena.markLength]
          omega
        · exact hframes.reframe h.room c' _

/-- There is no room for the mark under a new frame. -/
theorem pushFrame_full_mark (hfree : a.free < Arena.markLength) (f : Frame) (r : Reader)
    (source : Source) :
    Reading.pushFrame f ⟨r, source, a⟩ =
      .error (Limits.outOfMemory Arena.markLength a.free) ⟨r, source, a⟩ := by
  rw [Reading.pushFrame, bind_error (lift_arena_error (Arena.mark_backward_full hfree))]
  rfl

/-- There is room for the mark but not for the frame itself. -/
theorem pushFrame_full_frame (hmark : Arena.markLength ≤ a.free)
    (hfree : a.free - Arena.markLength < Frame.length) (f : Frame) (r : Reader) (source : Source) :
    Reading.pushFrame f ⟨r, source, a⟩ =
      .error (Limits.outOfMemory Frame.length (a.free - Arena.markLength))
        ⟨r, source, a.marked⟩ := by
  have hleft : a.marked.free = a.free - Arena.markLength := by
    simp only [Arena.free, Arena.marked]
    omega
  rw [← hleft] at hfree ⊢
  rw [Reading.pushFrame, bind_ok (lift_arena_ok (Arena.mark_backward_ok hmark)),
    bind_error (lift_arena_error (Arena.alloc_backward_full hfree))]
  rfl

/-! ### Beginning a value -/

/-- The first steps of `begin`: the room for the header, and the header itself. -/
theorem begin_stored (hb : b.Bounded) (h : Laid b bytes 0 ctxs a)
    (hforward : a.forward = b.forward + bytes.length) (hhold : a.hold = none) (header : Header)
    (hheader : header.length ≤ a.free) (r : Reader) (source : Source) (kind : Frame.Kind)
    (flags : UInt8) :
    ∃ a', Reading.begin kind flags (parentOf b ctxs.length) header ⟨r, source, a⟩ =
        Reading.pushFrame (newFrame b ⟨kind, flags, b.forward + bytes.length⟩ ctxs.length)
          ⟨r, source, a'⟩ ∧
      Laid b (bytes ++ header.encode) 0 ctxs a' ∧
      a'.forward = b.forward + (bytes ++ header.encode).length ∧ a'.hold = none ∧
      a'.free = a.free - header.length := by
  have halloc := Arena.alloc_forward_ok hhold hheader
  have hcursors := h.cursors
  generalize ha₁ : { a with forward := a.forward + header.length } = a₁ at halloc
  have hforward₁ : a₁.forward = b.forward + bytes.length + header.length := by
    rw [← ha₁, hforward]
  have hlaid₁ : Laid b bytes 0 ctxs a₁ := by
    rw [← ha₁]
    refine h.with_forward (by omega) ?_ a.hold a.nextLock
    simp only [Arena.free] at hheader
    omega
  have hlive : a₁.Live a.forward header.length :=
    Laid.live_cells hb (by omega) (by omega)
  have hlaid₂ := hlaid₁.extend hb header.encode (by rw [header.length_encode]; omega)
  rw [← hforward] at hlaid₂
  refine ⟨{ a₁ with memory := a₁.memory.write a.forward header.encode }, ?_, hlaid₂, ?_, ?_, ?_⟩
  · rw [Reading.begin, bind_ok (lift_arena_ok halloc), bind_ok (setHeader_ok hlive), hforward]
    rfl
  · rw [List.length_append, header.length_encode, ← Nat.add_assoc]
    exact hforward₁
  · rw [← ha₁]
    exact hhold
  · rw [← ha₁]
    simp only [Arena.free]
    omega

/-- A value is begun where there is room for it, and the first thing that has no room is what is
reported where there is none. -/
theorem begin_ok (hb : b.Bounded) (h : Laid b bytes 0 ctxs a)
    (hforward : a.forward = b.forward + bytes.length) (hhold : a.hold = none)
    (hcells : ∀ c' ∈ ctxs, c'.cell < 65536) {r : Reader} (hroot : r.root = entry b 0 ctxs)
    {l : Limits} (hl : l.stop = some b.backward) (source : Source) (kind : Frame.Kind)
    (flags : UInt8) (header : Header) :
    match l.shortage ctxs.length (b.forward + bytes.length) header.length with
    | some why => ∃ s, Reading.begin kind flags (parentOf b ctxs.length) header ⟨r, source, a⟩ =
        .error why s ∧ b.Covers s.arena
    | none => ∃ a', Reading.begin kind flags (parentOf b ctxs.length) header ⟨r, source, a⟩ =
        .ok () ⟨{ r with root := entry b 0 (⟨kind, flags, b.forward + bytes.length⟩ :: ctxs) },
          source, a'⟩ ∧
        Laid b (bytes ++ header.encode) 0 (⟨kind, flags, b.forward + bytes.length⟩ :: ctxs) a' ∧
        a'.forward = b.forward + (bytes ++ header.encode).length ∧ a'.hold = none := by
  have hfree : a.free = Limits.free b.backward ctxs.length (b.forward + bytes.length) := by
    rw [Arena.free, h.backward, hforward]
    rfl
  simp only [Limits.shortage, hl, ← hfree]
  by_cases hheader : a.free < header.length
  · rw [if_pos hheader]
    refine ⟨⟨r, source, a⟩, ?_, h.covers hb⟩
    rw [Reading.begin, bind_error (lift_arena_error (Arena.alloc_forward_full hhold hheader))]
    rfl
  rw [if_neg hheader]
  obtain ⟨a₂, hbegin, hlaid₂, hforward₂, hhold₂, hfree₂⟩ :=
    begin_stored hb h hforward hhold header (Nat.le_of_not_lt hheader) r source kind flags
  rw [hbegin, ← hfree₂]
  by_cases hmark : a₂.free < Arena.markLength
  · rw [if_pos hmark]
    exact ⟨_, pushFrame_full_mark hmark _ r source, hlaid₂.covers hb⟩
  rw [if_neg hmark]
  by_cases hframe : a₂.free - Arena.markLength < Frame.length
  · rw [if_pos hframe]
    exact ⟨_, pushFrame_full_frame (Nat.le_of_not_lt hmark) hframe _ r source,
      hlaid₂.covers_marked hb (Nat.le_of_not_lt hmark)⟩
  rw [if_neg hframe]
  have hroom : frameCost ≤ a₂.free := by
    simp only [frameCost]
    omega
  obtain ⟨m, hpush, hlaid₃⟩ := pushFrame_ok (c := ⟨kind, flags, b.forward + bytes.length⟩) hb hlaid₂
    hroom hcells hroot source
  exact ⟨_, hpush, hlaid₃, hforward₂, hhold₂⟩

/-! ### Completing a value -/

variable {t : Tree}

/-- A value with no list around it is done. -/
theorem complete_top (hb : b.Bounded) (h : Laid b bytes 0 [c] a) (offset : Nat) (r : Reader)
    (source : Source) :
    Reading.complete offset (frameOf b c 0 0) ⟨r, source, a⟩ =
        .ok (.done ⟨.arena, c.cell⟩) ⟨{ r with root := 0 }, source, popped b a 0⟩ ∧
      Laid b bytes (slot b 1) [] (popped b a 0) := by
  obtain ⟨hrewind, hlaid⟩ := h.pop hb
  refine ⟨?_, hlaid⟩
  rw [List.length_nil] at hrewind
  rw [Reading.complete, mark_frameOf, bind_ok (lift_arena_ok hrewind),
    if_pos (parent_frameOf_zero ..)]
  rfl

/-- The bytes of a list with one more value after its children. -/
theorem encodeAll_cons_append (o : OpenList) (outer : List OpenList) (more : List UInt8) :
    OpenList.encodeAll (o :: outer) ++ more =
      OpenList.encodeAll outer ++ (o.header.encode ++ (Tree.encodeAll o.children ++ more)) := by
  simp [OpenList.encodeAll, OpenList.encode, List.append_assoc]

/-- A value with a list around it: its frame is taken away, and the list's frame is linked to
nothing. -/
theorem complete_around (hb : b.Bounded)
    (h : Laid b (OpenList.encodeAll (o :: outer) ++ t.encode) 0
      (c :: listContexts b.forward (o :: outer)) a) (r : Reader) (source : Source) :
    ∃ a', Reading.complete (slot b (outer.length + 2)) (frameOf b c (outer.length + 1) 0)
        ⟨r, source, a⟩ =
      (do
        match ← Reading.header (b.forward + (OpenList.encodeAll outer).length) with
        | .list count sigil _ =>
            if count = Header.maxCount then
              Reading.reject .listTooLong none
            else
              Reading.setHeader (b.forward + (OpenList.encodeAll outer).length)
                (.list (count + 1) sigil false)
              return .again
        | _ => throw (.fault (.corruptContext (slot b (outer.length + 1)))) : ReadM Reading.Turn)
        ⟨r, source, a'⟩ ∧
      Laid b (OpenList.encodeAll (o :: outer) ++ t.encode) 0 (listContexts b.forward (o :: outer))
        a' ∧ a'.forward = a.forward ∧ a'.hold = a.hold := by
  have hn := length_listContexts b.forward outer
  obtain ⟨hrewind, hlaid⟩ := h.pop hb
  have hlt := hlaid.forward_lt hb
  have hcell : (listContext b.forward o outer).cell < 65536 := by
    simp only [encodeAll_cons_append, List.length_append] at hlt
    simp only [listContext]
    omega
  have hchild : slot b (outer.length + 2) < 65536 := by
    have hcapacity := hb.capacity
    have hbackward := hb.backward
    simp only [Arena.maxCapacity, slot] at hcapacity ⊢
    omega
  have hpos := hlaid.slot_pos hb
  rw [listContexts, List.length_cons, hn] at hlaid hpos
  have hload := hlaid.load_frame hb hcell hchild
  have hrelink := hlaid.reframe (listContext b.forward o outer) 0
  have hlive : (popped b a (outer.length + 1)).Live (slot b (outer.length + 1)) Frame.length := by
    have hslot := slot_add outer.length (by simpa [hn] using hlaid.room)
    have hle : slot b outer.length ≤ b.backward := Nat.sub_le ..
    refine hlaid.live_frames hb (Nat.le_of_eq (by rw [List.length_cons, hn])) ?_
    simp only [frameCost_eq, Frame.length] at hslot ⊢
    omega
  rw [hn] at hload hrelink
  refine ⟨_, ?_, hrelink, rfl, rfl⟩
  rw [listContexts, List.length_cons, hn] at hrewind
  rw [Reading.complete, mark_frameOf, bind_ok (lift_arena_ok hrewind), parent_frameOf_succ,
    if_neg (by omega), bind_ok (look_ok hload), child_frameOf, if_neg (by simp),
    bind_ok (storeFrame_ok hlive)]
  rfl

theorem encodeAll_adopt (o : OpenList) (outer : List OpenList) (t : Tree) :
    OpenList.encodeAll (o.adopt t :: outer) =
      OpenList.encodeAll outer ++
        ((o.adopt t).header.encode ++ (Tree.encodeAll o.children ++ t.encode)) := by
  simp [OpenList.encodeAll, OpenList.encode, OpenList.adopt, Tree.encodeAll_append]

theorem length_encodeAll_adopt (o : OpenList) (outer : List OpenList) (t : Tree) :
    (OpenList.encodeAll (o.adopt t :: outer)).length =
      (OpenList.encodeAll (o :: outer) ++ t.encode).length := by
  rw [encodeAll_adopt, encodeAll_cons_append]
  simp [OpenList.header, Header.length]

/-- A value is counted in the list around it. -/
theorem complete_again (hb : b.Bounded)
    (h : Laid b (OpenList.encodeAll (o :: outer) ++ t.encode) 0
      (c :: listContexts b.forward (o :: outer)) a)
    (ho : o.Fits) (hroom : o.children.length ≠ Header.maxCount) (r : Reader) (source : Source) :
    ∃ a', Reading.complete (slot b (outer.length + 2)) (frameOf b c (outer.length + 1) 0)
        ⟨r, source, a⟩ = .ok .again ⟨r, source, a'⟩ ∧
      Laid b (OpenList.encodeAll (o.adopt t :: outer)) 0
        (listContexts b.forward (o.adopt t :: outer)) a' ∧
      a'.forward = a.forward ∧ a'.hold = a.hold := by
  obtain ⟨a₁, hcomplete, hlaid, hforward, hhold⟩ := complete_around hb h r source
  rw [encodeAll_cons_append] at hlaid
  have hheader := hlaid.load_header hb .unmapped ho.header
  have hlive : a₁.Live (b.forward + (OpenList.encodeAll outer).length) Header.listLength := by
    have := hlaid.forward
    simp only [List.length_append, Header.length_encode, OpenList.header, Header.length] at this
    exact Laid.live_cells hb (by omega) (by omega)
  have hreplace := hlaid.replace (o.adopt t).header.encode rfl
  rw [← encodeAll_adopt] at hreplace
  refine ⟨_, ?_, hreplace, hforward, hhold⟩
  rw [hcomplete, Reading.header, bind_ok (look_ok hheader)]
  simp only [OpenList.header]
  rw [if_neg hroom, bind_ok (setHeader_ok hlive)]
  simp only [OpenList.adopt, List.length_append, List.length_singleton]
  rfl

/-- A list that is full takes no more values. -/
theorem complete_tooLong (hb : b.Bounded)
    (h : Laid b (OpenList.encodeAll (o :: outer) ++ t.encode) 0
      (c :: listContexts b.forward (o :: outer)) a)
    (ho : o.Fits) (hfull : o.children.length = Header.maxCount) (r : Reader) (source : Source) :
    ∃ s, Reading.complete (slot b (outer.length + 2)) (frameOf b c (outer.length + 1) 0)
        ⟨r, source, a⟩ = .error (.rejected ⟨.listTooLong, r.position - 1, none⟩) s ∧
      b.Covers s.arena := by
  obtain ⟨a₁, hcomplete, hlaid, -, -⟩ := complete_around hb h r source
  rw [encodeAll_cons_append] at hlaid
  have hheader := hlaid.load_header hb .unmapped ho.header
  refine ⟨⟨r, source, a₁⟩, ?_, hlaid.covers hb⟩
  rw [hcomplete, Reading.header, bind_ok (look_ok hheader)]
  simp only [OpenList.header]
  rw [if_pos hfull]
  rfl

end Layout

end FlatLisp
