/-
Module: FlatLisp.Proofs.Reading.Layout
Purpose: Where an unfinished value is in the arena. Its cells follow the forward cursor that it began
  at; its frames, each under a mark of its own, precede the backward cursor that it began at. The
  arena as it was then is the base, and everything outside of these two stretches is the base's.
Main exports: Reading.Frame.decode_encode, Layout.Context, Layout.FramesAt, Layout.Laid,
  Layout.focusFrom_lists
-/
import FlatLisp.Proofs.Arena.Rollback
import FlatLisp.Proofs.Reading.Parse

namespace FlatLisp

/-! ### Frames and their bytes -/

namespace Reading.Frame

/-- Every offset of a frame fits in two bytes. -/
structure Fits (f : Frame) : Prop where
  cell : f.cell < 65536
  mark : f.mark < 65536
  parent : f.parent < 65536
  child : f.child < 65536

@[simp] theorem Kind.ofCode?_code (k : Kind) : Kind.ofCode? k.code = some k := by
  cases k <;> rfl

theorem decode_encode {f : Frame} (h : f.Fits) : decode f.encode = some f := by
  have hcell := Word.value_bytes h.cell
  have hmark := Word.value_bytes h.mark
  have hparent := Word.value_bytes h.parent
  have hchild := Word.value_bytes h.child
  simp only [encode, Word.bytes, List.cons_append, List.nil_append, decode, hcell, hmark, hparent,
    hchild, Kind.ofCode?_code, Option.map_some]

/-- A frame that is held in the arena is loaded from it. -/
theorem load_ok {a : Arena} {offset : Nat} {f : Frame} (hfits : f.Fits)
    (hlive : a.Live offset length) (hheld : a.memory.Holds offset f.encode) :
    load a offset = .ok f := by
  have hlength : f.encode.length = length := f.length_encode
  rw [← hlength] at hlive
  have hbytes := Arena.bytes_ok hlive hheld
  rw [hlength] at hbytes
  simp only [load, hbytes, mapError_ok, bind, Except.bind, decode_encode hfits, pure,
    Except.pure]

end Reading.Frame

namespace Layout

open Reading (Frame)
open Limits (frameCost)

/-- What the frame of an unfinished value tells, apart from its place among the other frames. -/
structure Context where
  kind : Frame.Kind
  flags : UInt8
  /-- Where the value's header is. -/
  cell : Nat
deriving Inhabited

section Base

variable (b : Arena)

/-- The backward cursor with `n` frames. The last of them is there. -/
def slot (n : Nat) : Nat := b.backward - frameCost * n

/-- The most recent backward mark with `n` frames. -/
def markOf : Nat → Nat
  | 0 => b.backwardMark
  | n + 1 => slot b n - Arena.markLength

/-- The frame with `n` frames around it. -/
def frameOf (c : Context) (n child : Nat) : Frame where
  kind := c.kind
  flags := c.flags
  cell := c.cell
  mark := markOf b (n + 1)
  parent := if n = 0 then 0 else slot b n
  child := child

/-- The record of the mark that is taken after `n` frames. -/
def recordOf (n : Nat) : List UInt8 := Word.bytes (slot b n) ++ Word.bytes (markOf b n)

/-- The frames of unfinished values, the innermost first, are in memory; `child` is what the
innermost is linked to. -/
def FramesAt (m : Bytes) : (child : Nat) → List Context → Prop
  | _, [] => True
  | child, c :: outer =>
      m.Holds (slot b (outer.length + 1))
          ((frameOf b c outer.length child).encode ++ recordOf b outer.length) ∧
        FramesAt m (slot b (outer.length + 1)) outer

/-- The arena without the frames that came after `n` of them. -/
def popped (a : Arena) (n : Nat) : Arena :=
  { a with backward := slot b n, backwardMark := markOf b n }

/-- The frame at which to start following links. -/
def entry (child : Nat) : List Context → Nat
  | [] => child
  | _ :: _ => slot b 1

theorem entry_cons (child : Nat) (c : Context) (outer : List Context) :
    entry b child (c :: outer) = entry b (slot b (outer.length + 1)) outer := by
  cases outer <;> rfl

/-- The arena `a` has `bytes` and the frames `ctxs` on top of the base and is otherwise the same.
Above the bytes there may be more that is allocated. -/
structure Laid (bytes : List UInt8) (child : Nat) (ctxs : List Context) (a : Arena) : Prop where
  size : a.memory.size = b.memory.size
  below : b.memory.SameOn a.memory 0 b.forward
  above : b.memory.SameOn a.memory b.backward b.memory.size
  cells : a.memory.Holds b.forward bytes
  frames : FramesAt b a.memory child ctxs
  forward : b.forward + bytes.length ≤ a.forward
  cursors : a.forward ≤ a.backward
  backward : a.backward = slot b ctxs.length
  backwardMark : a.backwardMark = markOf b ctxs.length
  forwardMark : a.forwardMark = b.forwardMark
  directions : a.directions = b.directions
  room : frameCost * ctxs.length ≤ b.backward

end Base

theorem frameCost_eq : frameCost = 14 := rfl

section FrameOf

variable (b : Arena) (c : Context) (n child : Nat)

@[simp] theorem kind_frameOf : (frameOf b c n child).kind = c.kind := rfl

@[simp] theorem cell_frameOf : (frameOf b c n child).cell = c.cell := rfl

@[simp] theorem mark_frameOf : (frameOf b c n child).mark = markOf b (n + 1) := rfl

@[simp] theorem child_frameOf : (frameOf b c n child).child = child := rfl

@[simp] theorem parent_frameOf_zero : (frameOf b c 0 child).parent = 0 := rfl

@[simp] theorem parent_frameOf_succ : (frameOf b c (n + 1) child).parent = slot b (n + 1) := rfl

end FrameOf

variable {b : Arena} {m m' : Bytes} {child : Nat} {c : Context} {outer ctxs : List Context}

theorem slot_add (n : Nat) (h : frameCost * (n + 1) ≤ b.backward) :
    slot b (n + 1) + frameCost = slot b n := by
  simp only [slot, frameCost_eq] at h ⊢
  omega

theorem length_recordOf (n : Nat) : (recordOf b n).length = Arena.markLength := by
  simp [recordOf, Arena.markLength]

/-- Frames stay where nothing of them is changed. -/
theorem FramesAt.of_sameOn (hsize : m'.size = m.size)
    (hsame : m.SameOn m' (slot b ctxs.length) b.backward)
    (hroom : frameCost * ctxs.length ≤ b.backward) (h : FramesAt b m child ctxs) :
    FramesAt b m' child ctxs := by
  induction ctxs generalizing child with
  | nil => trivial
  | cons c outer ih =>
      rw [List.length_cons] at hsame hroom
      obtain ⟨hhead, houter⟩ := h
      have hslot := slot_add outer.length hroom
      refine ⟨hhead.of_sameOn hsize hsame (Nat.le_refl _) ?_, ?_⟩
      · rw [List.length_append, Frame.length_encode, length_recordOf]
        simp only [slot, frameCost_eq, Frame.length, Arena.markLength] at hroom ⊢
        omega
      · refine ih (hsame.mono (by omega) (Nat.le_refl _)) ?_ houter
        simp only [frameCost_eq] at hroom ⊢
        omega

/-- The innermost frame can be changed in place. -/
theorem FramesAt.reframe (hroom : frameCost * (outer.length + 1) ≤ b.backward)
    (h : FramesAt b m child (c :: outer)) (c' : Context) (child' : Nat) :
    FramesAt b (m.write (slot b (outer.length + 1)) (frameOf b c' outer.length child').encode)
      child' (c' :: outer) := by
  obtain ⟨hhead, houter⟩ := h
  have hslot := slot_add outer.length hroom
  have hfit := hhead.left.le_size
  have hrecord := hhead.right
  rw [Frame.length_encode] at hfit hrecord
  refine ⟨?_, ?_⟩
  · rw [Bytes.holds_append]
    refine ⟨Bytes.holds_write (by rw [Frame.length_encode]; exact hfit), ?_⟩
    rw [Frame.length_encode]
    exact hrecord.write_of_disjoint (.inr (Nat.le_of_eq (by rw [Frame.length_encode])))
  · refine houter.of_sameOn (Bytes.size_write ..) (Bytes.sameOn_write (.inr ?_)) ?_
    · rw [Frame.length_encode]
      simp only [Frame.length, frameCost_eq] at hslot ⊢
      omega
    · simp only [frameCost_eq] at hroom ⊢
      omega

theorem FramesAt.head (h : FramesAt b m child (c :: outer)) :
    m.Holds (slot b (outer.length + 1)) (frameOf b c outer.length child).encode :=
  h.1.left

theorem FramesAt.record (h : FramesAt b m child (c :: outer)) :
    m.Holds (slot b (outer.length + 1) + Frame.length) (recordOf b outer.length) := by
  have hrecord := h.1.right
  rwa [Frame.length_encode] at hrecord

/-- The offsets in a frame are within the arena. -/
theorem fits_frameOf (hb : b.Bounded) (hcell : c.cell < 65536) (hchild : child < 65536) (n : Nat) :
    (frameOf b c n child).Fits := by
  have hcapacity := hb.capacity
  have hbackward := hb.backward
  simp only [Arena.maxCapacity] at hcapacity
  refine ⟨hcell, ?_, ?_, hchild⟩
  · simp only [frameOf, markOf, slot]
    omega
  · simp only [frameOf, slot]
    split <;> omega

theorem markOf_lt (hb : b.Bounded) (n : Nat) : markOf b n < 65536 := by
  have hcapacity := hb.capacity
  have hbackward := hb.backward
  simp only [Arena.maxCapacity] at hcapacity
  cases n with
  | zero => exact hb.backwardMark
  | succ n =>
      simp only [markOf, slot]
      omega

/-- The marks under the frames lead to the most recent mark of the base. -/
theorem FramesAt.mem_trailFrom (hb : b.Bounded) {a : Arena} (hsize : a.memory.size = b.memory.size)
    (hbackward : a.backward ≤ slot b ctxs.length) (hroom : frameCost * ctxs.length ≤ b.backward)
    (h : FramesAt b a.memory child ctxs) {fuel : Nat} (hfuel : ctxs.length < fuel) :
    b.backwardMark ∈ a.trailFrom fuel (markOf b ctxs.length) := by
  induction ctxs generalizing child fuel with
  | nil =>
      obtain ⟨fuel, rfl⟩ := Nat.exists_eq_succ_of_ne_zero (Nat.ne_of_gt hfuel)
      rw [Arena.trailFrom]
      exact List.mem_cons_self
  | cons c outer ih =>
      obtain ⟨fuel, rfl⟩ := Nat.exists_eq_succ_of_ne_zero (Nat.ne_of_gt (Nat.zero_lt_of_lt hfuel))
      rw [List.length_cons] at hbackward hroom hfuel ⊢
      have hslot := slot_add outer.length hroom
      have hslots : slot b outer.length ≤ b.backward := Nat.sub_le ..
      have hcapacity := hb.capacity
      have htop := hb.backward
      have hmark : markOf b (outer.length + 1) = slot b (outer.length + 1) + Frame.length := by
        simp only [frameCost_eq, markOf, Arena.markLength, Frame.length] at hslot ⊢
        omega
      simp only [frameCost_eq, Frame.length, Arena.maxCapacity] at hslot hroom hcapacity hmark
      have hlive : a.Live (markOf b (outer.length + 1)) Arena.markLength := by
        have hsame : a.capacity = b.capacity := hsize
        refine Arena.live_of_above ?_ ?_
        · omega
        · simp only [Arena.markLength]
          omega
      have hheld := h.record
      rw [show slot b (outer.length + 1) + Frame.length = markOf b (outer.length + 1) from
        hmark.symm] at hheld
      refine Arena.mem_trailFrom_succ ?_
        (Arena.readRecord_ok hlive hheld (by omega) (markOf_lt hb _)) ?_
      · omega
      · refine ih (by omega) ?_ h.2 (by omega)
        simp only [frameCost_eq]
        omega

/-! ### Reading and changing what is laid out -/

namespace Laid

variable {bytes : List UInt8} {a : Arena}

/-- With no frames there is no link. -/
theorem with_child (h : Laid b bytes child [] a) (child' : Nat) : Laid b bytes child' [] a :=
  { h with frames := trivial }

theorem forward_lt (hb : b.Bounded) (h : Laid b bytes child ctxs a) :
    b.forward + bytes.length < 65536 := by
  have hcapacity := hb.capacity
  have hbackward := hb.backward
  have hforward := h.forward
  have hcursors := h.cursors
  have hslot := h.backward
  simp only [Arena.maxCapacity] at hcapacity
  simp only [slot] at hslot
  omega

theorem slot_pos (hb : b.Bounded) (h : Laid b bytes child ctxs a) :
    0 < slot b ctxs.length := by
  have hheader := hb.header
  have hforward := h.forward
  have hcursors := h.cursors
  rw [h.backward] at hcursors
  simp only [Arena.headerLength] at hheader
  omega

theorem live_cells (hb : b.Bounded) {offset count : Nat}
    (hlow : b.forward ≤ offset) (hhigh : offset + count ≤ a.forward) : a.Live offset count := by
  have hheader := hb.header
  exact Arena.live_of_below (Nat.le_trans hheader hlow) hhigh

theorem live_frames (hb : b.Bounded) (h : Laid b bytes child ctxs a) {offset count : Nat}
    (hlow : slot b ctxs.length ≤ offset) (hhigh : offset + count ≤ b.backward) :
    a.Live offset count := by
  have hsize : a.capacity = b.capacity := h.size
  refine Arena.live_of_above (by rw [h.backward]; exact hlow) ?_
  rw [hsize]
  exact Nat.le_trans hhigh hb.backward

/-- The forward cursor may be anywhere above the bytes, and whoever may hold it. -/
theorem with_forward (h : Laid b bytes child ctxs a) {forward : Nat}
    (hlow : b.forward + bytes.length ≤ forward) (hhigh : forward ≤ a.backward) (hold : Option Hold)
    (nextLock : Nat) : Laid b bytes child ctxs { a with forward, hold, nextLock } :=
  { h with forward := hlow, cursors := hhigh }

/-- A write between the base's forward cursor and the present one leaves the frames alone. -/
theorem with_cells (h : Laid b bytes child ctxs a) {offset : Nat} {new bytes' : List UInt8}
    (hlow : b.forward ≤ offset) (hhigh : offset + new.length ≤ a.forward)
    (hcells : (a.memory.write offset new).Holds b.forward bytes')
    (hforward : b.forward + bytes'.length ≤ a.forward) :
    Laid b bytes' child ctxs { a with memory := a.memory.write offset new } := by
  have hcursors := h.cursors
  have hslot := h.backward
  refine { h with
    size := (Bytes.size_write ..).trans h.size
    below := h.below.trans (Bytes.sameOn_write (.inl hlow))
    above := h.above.trans (Bytes.sameOn_write (.inr ?_))
    cells := hcells
    frames := h.frames.of_sameOn (Bytes.size_write ..) (Bytes.sameOn_write (.inr ?_)) h.room
    forward := hforward }
  · simp only [slot] at hslot
    omega
  · omega

/-- More bytes are written after those that are there. -/
theorem extend (hb : b.Bounded) (h : Laid b bytes child ctxs a) (new : List UInt8)
    (hfit : b.forward + bytes.length + new.length ≤ a.forward) :
    Laid b (bytes ++ new) child ctxs
      { a with memory := a.memory.write (b.forward + bytes.length) new } := by
  have hcells := h.cells
  have hcursors := h.cursors
  have hslot := h.backward
  have hsize : a.memory.size = b.capacity := h.size
  have hbackward := hb.backward
  refine h.with_cells (Nat.le_add_right ..) hfit ?_ ?_
  · rw [Bytes.holds_append]
    refine ⟨hcells.write_of_disjoint (.inl (Nat.le_refl _)), Bytes.holds_write ?_⟩
    simp only [slot] at hslot
    omega
  · rw [List.length_append]
    omega

/-- Bytes that are there are replaced by as many others. -/
theorem replace {before old after : List UInt8} (new : List UInt8)
    (h : Laid b (before ++ (old ++ after)) child ctxs a) (hlength : new.length = old.length) :
    Laid b (before ++ (new ++ after)) child ctxs
      { a with memory := a.memory.write (b.forward + before.length) new } := by
  have hforward := h.forward
  have hbefore := h.cells.left
  have hrest := h.cells.right
  have hold := hrest.left.le_size
  have hafter := hrest.right
  simp only [List.length_append] at hforward
  refine h.with_cells (Nat.le_add_right ..) (by omega) ?_ ?_
  · rw [Bytes.holds_append, Bytes.holds_append]
    refine ⟨hbefore.write_of_disjoint (.inl (Nat.le_refl _)), Bytes.holds_write ?_, ?_⟩
    · rw [hlength]
      exact hold
    · rw [hlength]
      exact hafter.write_of_disjoint (.inr (by omega))
  · simp only [List.length_append]
    omega

/-- A header among the bytes is loaded from where it is. -/
theorem load_header (hb : b.Bounded) {before after : List UInt8} {header : Header} (ext : External)
    (h : Laid b (before ++ (header.encode ++ after)) child ctxs a) (hfits : header.Fits) :
    Cell.load a ext ⟨.arena, b.forward + before.length⟩ = .ok header := by
  have hforward := h.forward
  simp only [List.length_append, Header.length_encode] at hforward
  exact Cell.load_ok hfits (live_cells hb (by omega) (by omega)) h.cells.right

/-- The innermost frame is loaded from where it is. -/
theorem load_frame (hb : b.Bounded) (h : Laid b bytes child (c :: outer) a)
    (hcell : c.cell < 65536) (hchild : child < 65536) :
    Frame.load a (slot b (outer.length + 1)) = .ok (frameOf b c outer.length child) := by
  have hslot := slot_add outer.length h.room
  refine Frame.load_ok (fits_frameOf hb hcell hchild _) ?_ h.frames.head
  refine h.live_frames hb (Nat.le_refl _) ?_
  simp only [slot, frameCost_eq, Frame.length] at hslot ⊢
  omega

/-- The innermost frame is changed in place. -/
theorem reframe (h : Laid b bytes child (c :: outer) a) (c' : Context) (child' : Nat) :
    Laid b bytes child' (c' :: outer)
      { a with
        memory := a.memory.write (slot b (outer.length + 1))
          (frameOf b c' outer.length child').encode } := by
  have hslot := slot_add outer.length h.room
  have hbackward := h.backward
  have hforward := h.forward
  have hcursors := h.cursors
  rw [List.length_cons] at hbackward
  refine { h with
    size := (Bytes.size_write ..).trans h.size
    below := h.below.trans (Bytes.sameOn_write (.inl ?_))
    above := h.above.trans (Bytes.sameOn_write (.inr ?_))
    cells := h.cells.write_of_disjoint (.inl ?_)
    frames := h.frames.reframe h.room c' child' }
  · omega
  · rw [Frame.length_encode]
    simp only [slot, frameCost_eq, Frame.length] at hslot ⊢
    omega
  · omega

/-- The innermost frame is taken away. The frame around it is still linked to it. -/
theorem pop (hb : b.Bounded) (h : Laid b bytes child (c :: outer) a) :
    Arena.rewind ⟨.backward, markOf b (outer.length + 1)⟩ a =
        .ok () (popped b a outer.length) ∧
      Laid b bytes (slot b (outer.length + 1)) outer (popped b a outer.length) := by
  have hslot := slot_add outer.length h.room
  have hroom := h.room
  have hheader := hb.header
  have hcapacity := hb.capacity
  have hbackward := hb.backward
  have hcursors := h.cursors
  have hforward := h.forward
  have hlast := h.backward
  have hrecord := h.frames.record
  rw [List.length_cons] at hlast hroom
  simp only [Arena.headerLength, Arena.maxCapacity, frameCost_eq] at hheader hcapacity hslot hroom
  have hmark : markOf b (outer.length + 1) = slot b (outer.length + 1) + Frame.length := by
    simp only [markOf, Arena.markLength, Frame.length]
    omega
  have hsaved : slot b outer.length ≤ b.backward := Nat.sub_le ..
  have hbefore : markOf b outer.length < 65536 := by
    cases outer with
    | nil => exact hb.backwardMark
    | cons c' outer =>
        have : slot b outer.length ≤ b.backward := Nat.sub_le ..
        simp only [List.length_cons, markOf]
        omega
  refine ⟨?_, ?_⟩
  · refine Arena.rewind_backward_ok h.backwardMark ?_ ?_ ?_ (by omega) hbefore
    · omega
    · refine h.live_frames hb ?_ ?_
      · rw [List.length_cons]
        omega
      · simp only [Frame.length, Arena.markLength] at hmark ⊢
        omega
    · rw [hmark]
      exact hrecord
  · exact { h with
      frames := h.frames.2
      cursors := by dsimp only [popped]; omega
      backward := rfl
      backwardMark := rfl
      room := by simp only [frameCost_eq]; omega }

/-! ### Rolling back -/

/-- All of the base is still there. -/
theorem preserves (h : Laid b bytes child ctxs a) : b.Preserves a where
  size := h.size
  below := h.below
  above := h.above
  forward := Nat.le_trans (Nat.le_add_right ..) h.forward
  backward := by
    rw [h.backward]
    exact Nat.sub_le ..

/-- The cursors are where an arena can have them. -/
theorem bounded (hb : b.Bounded) (h : Laid b bytes child ctxs a) : a.Bounded where
  header := Nat.le_trans hb.header (Nat.le_trans (Nat.le_add_right ..) h.forward)
  cursors := h.cursors
  backward := by
    have hsize : a.capacity = b.capacity := h.size
    rw [h.backward, hsize]
    exact Nat.le_trans (Nat.sub_le ..) hb.backward
  capacity := by
    have hsize : a.capacity = b.capacity := h.size
    rw [hsize]
    exact hb.capacity
  backwardMark := by
    rw [h.backwardMark]
    exact markOf_lt hb _

/-- Without frames only the cells are new. -/
theorem continues (h : Laid b bytes child [] a) : b.Continues a where
  toPreserves := h.preserves
  forwardMark := h.forwardMark
  backwardMark := h.backwardMark

/-- The base can be gone back to, however many frames there are. -/
theorem covers (hb : b.Bounded) (h : Laid b bytes child ctxs a) : b.Covers a where
  toPreserves := h.preserves
  forwardMark := h.forwardMark
  backwardMark := by
    have hroom := h.room
    have hbackward := hb.backward
    have hsize : a.capacity = b.capacity := h.size
    simp only [frameCost_eq] at hroom
    rw [Arena.trail, show a.lastMark .backward = markOf b ctxs.length from h.backwardMark]
    exact h.frames.mem_trailFrom hb h.size (Nat.le_of_eq h.backward) h.room (by omega)

/-- The base can be gone back to from a mark that has no frame yet. -/
theorem covers_marked (hb : b.Bounded) (h : Laid b bytes child ctxs a)
    (hmark : Arena.markLength ≤ a.free) : b.Covers a.marked := by
  have hroom := h.room
  have hheader := hb.header
  have hforward := h.forward
  have hcapacity := hb.capacity
  have hbackward := hb.backward
  have hslot := h.backward
  have hslots : slot b ctxs.length ≤ b.backward := Nat.sub_le ..
  have hsize : a.memory.size = b.capacity := h.size
  have hmarked : a.marked.memory.size = a.memory.size := Bytes.size_write ..
  have hlower : a.marked.backward = a.backward - Arena.markLength := rfl
  simp only [frameCost_eq, Arena.headerLength, Arena.maxCapacity] at hroom hheader hcapacity
  simp only [Arena.free, Arena.markLength] at hlower hmark
  have hsame : ∀ low high, high ≤ a.backward - 4 ∨ a.backward ≤ low →
      a.memory.SameOn a.marked.memory low high := by
    intro low high hd
    refine Bytes.sameOn_write ?_
    simp only [List.length_append, Word.length_bytes, Arena.markLength]
    omega
  have hpreserves : a.Preserves a.marked :=
    ⟨hmarked, hsame _ _ (.inl (by omega)), hsame _ _ (.inr (Nat.le_refl _)), Nat.le_refl _,
      by omega⟩
  have hframes : FramesAt b a.marked.memory child ctxs :=
    h.frames.of_sameOn hmarked (hsame _ _ (.inr (by omega))) h.room
  have hlive : a.marked.Live (a.backward - Arena.markLength) Arena.markLength := by
    refine Arena.live_of_above (Nat.le_refl _) ?_
    rw [Arena.capacity, hmarked]
    simp only [Arena.markLength]
    omega
  have hheld : a.marked.memory.Holds (a.backward - Arena.markLength)
      (Word.bytes a.backward ++ Word.bytes a.backwardMark) := by
    refine Bytes.holds_write ?_
    simp only [List.length_append, Word.length_bytes, Arena.markLength]
    omega
  refine ⟨h.preserves.trans hpreserves, h.forwardMark, ?_⟩
  rw [Arena.trail]
  refine Arena.mem_trailFrom_succ ?_ (Arena.readRecord_ok hlive hheld (by omega)
    (h.backwardMark ▸ markOf_lt hb _)) ?_
  · change a.backward - Arena.markLength ≠ 0
    simp only [Arena.markLength]
    omega
  · rw [h.backwardMark]
    refine hframes.mem_trailFrom hb (hmarked.trans h.size) (by omega) h.room ?_
    rw [Arena.capacity, hmarked]
    omega

end Laid

end Layout

end FlatLisp
