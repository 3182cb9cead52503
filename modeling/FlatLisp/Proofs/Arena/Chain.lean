/-
Module: FlatLisp.Proofs.Arena.Chain
Purpose: The outstanding marks of each cursor as a stack, and the chain of records in the arena that
  stands for it. A record lies in the region of its cursor, below what is set aside, and says where
  the cursor was before its mark and which record comes before.
Main exports: Outstanding, Stacks, Arena.Chained, Arena.Disciplined, Arena.Disciplined.latest_eq,
  Arena.Disciplined.trail_eq, Arena.Disciplined.markCount_eq
-/
import FlatLisp.Arena.Reservation
import FlatLisp.Proofs.Arena.Operations

namespace FlatLisp

/-- A mark that has been taken and not given back. -/
structure Outstanding where
  record : Nat
  /-- The cursor just before the mark was taken. -/
  saved : Nat
deriving DecidableEq, Repr, Inhabited

/-- The outstanding marks of both cursors, the most recent first. -/
structure Stacks where
  forward : List Outstanding := []
  backward : List Outstanding := []
deriving DecidableEq, Repr, Inhabited

namespace Stacks

/-- The marks of one cursor. -/
def of (S : Stacks) : Direction → List Outstanding
  | .forward => S.forward
  | .backward => S.backward

/-- The same stacks with other marks on the cursor of `d`. -/
def withMarks (S : Stacks) (d : Direction) (marks : List Outstanding) : Stacks :=
  match d with
  | .forward => { S with forward := marks }
  | .backward => { S with backward := marks }

@[simp] theorem of_withMarks (S : Stacks) (d : Direction) (marks : List Outstanding) :
    (S.withMarks d marks).of d = marks := by
  cases d <;> rfl

@[simp] theorem of_withMarks_opposite (S : Stacks) (d : Direction) (marks : List Outstanding) :
    (S.withMarks d marks).of d.opposite = S.of d.opposite := by
  cases d <;> rfl

end Stacks

namespace Arena

/-! ### Chains -/

/-- The record that a chain begins with; zero for none. -/
def headRecord : List Outstanding → Nat
  | [] => 0
  | e :: _ => e.record

/-- The record at `offset` is in the region of a cursor that stands at `bound`. -/
def InRegion (size : Nat) : Direction → (bound offset : Nat) → Prop
  | .forward, bound, offset => headerLength ≤ offset ∧ offset + markLength ≤ bound
  | .backward, bound, offset => bound ≤ offset ∧ offset + markLength ≤ size

/-- The cursor before the mark whose record is at `offset`. -/
def cursorBefore : Direction → (offset : Nat) → Nat
  | .forward, offset => offset
  | .backward, offset => offset + markLength

/-- The cursor has grown from `x` to `y`, if at all. -/
def Grown : Direction → (x y : Nat) → Prop
  | .forward, x, y => x ≤ y
  | .backward, x, y => y ≤ x

/-- The records of the marks, the most recent first, are below `bound` one behind the other. -/
def Chained (m : Bytes) (d : Direction) : (bound : Nat) → List Outstanding → Prop
  | _, [] => True
  | bound, e :: rest =>
      InRegion m.size d bound e.record ∧ e.saved = cursorBefore d e.record ∧
        m.Holds e.record (Word.bytes e.saved ++ Word.bytes (headRecord rest)) ∧
        Chained m d e.saved rest

section Chained

variable {m m' : Bytes} {d : Direction} {size bound bound' offset : Nat} {e : Outstanding}
  {marks rest : List Outstanding}

theorem InRegion.grown (h : InRegion size d bound offset) (hgrown : Grown d bound bound') :
    InRegion size d bound' offset := by
  cases d with
  | forward => exact ⟨h.1, Nat.le_trans h.2 hgrown⟩
  | backward => exact ⟨Nat.le_trans hgrown h.1, h.2⟩

theorem InRegion.cursorBefore_grown (h : InRegion size d bound offset) :
    Grown d (cursorBefore d offset) bound := by
  cases d with
  | forward => exact Nat.le_trans (Nat.le_add_right ..) h.2
  | backward =>
      have hle := h.1
      simp only [cursorBefore, Grown]
      omega

theorem Grown.refl (d : Direction) (x : Nat) : Grown d x x := by
  cases d <;> exact Nat.le_refl x

theorem Grown.trans {x y z : Nat} (h₁ : Grown d x y) (h₂ : Grown d y z) : Grown d x z := by
  cases d with
  | forward => exact Nat.le_trans h₁ h₂
  | backward => exact Nat.le_trans h₂ h₁

namespace Chained

theorem grown (h : Chained m d bound marks) (hgrown : Grown d bound bound') :
    Chained m d bound' marks := by
  cases marks with
  | nil => trivial
  | cons e rest =>
      obtain ⟨hregion, hrest⟩ := h
      exact ⟨hregion.grown hgrown, hrest⟩

theorem saved_grown (h : Chained m d bound (e :: rest)) : Grown d e.saved bound := by
  obtain ⟨hregion, hsaved, -⟩ := h
  rw [hsaved]
  exact hregion.cursorBefore_grown

theorem tail (h : Chained m d bound (e :: rest)) : Chained m d e.saved rest := h.2.2.2

/-- The older marks make a chain as well. -/
theorem of_append {newer : List Outstanding} (h : Chained m d bound (newer ++ marks)) :
    Chained m d bound marks := by
  induction newer generalizing bound with
  | nil => exact h
  | cons e newer ih => exact (ih h.tail).grown h.saved_grown

/-- All records are in the region. -/
theorem inRegion (h : Chained m d bound marks) (he : e ∈ marks) :
    InRegion m.size d bound e.record := by
  induction marks generalizing bound with
  | nil => contradiction
  | cons first rest ih =>
      rcases List.mem_cons.1 he with rfl | he
      · exact h.1
      · exact (ih h.tail he).grown h.saved_grown

/-- Only the bytes of the records matter. -/
theorem of_sameOn (hsize : m'.size = m.size)
    (hsame : ∀ e ∈ marks, m.SameOn m' e.record (e.record + markLength))
    (h : Chained m d bound marks) : Chained m' d bound marks := by
  induction marks generalizing bound with
  | nil => trivial
  | cons e rest ih =>
      obtain ⟨hregion, hsaved, hheld, hrest⟩ := h
      refine ⟨by rwa [hsize], hsaved, ?_, ih (fun e he => hsame e (.tail _ he)) hrest⟩
      exact hheld.of_sameOn hsize (hsame e (.head _)) (Nat.le_refl _) (Nat.le_refl _)

/-- A write that spares the records leaves the chain. -/
theorem write {start : Nat} {bytes : List UInt8} (h : Chained m d bound marks)
    (hspares : ∀ e ∈ marks, e.record + markLength ≤ start ∨ start + bytes.length ≤ e.record) :
    Chained (m.write start bytes) d bound marks :=
  h.of_sameOn (Bytes.size_write ..) fun e he => Bytes.sameOn_write (hspares e he)

/-- The records of a chain have offsets of their own. -/
theorem nodup (h : Chained m d bound marks) : (marks.map (·.record)).Nodup := by
  induction marks generalizing bound with
  | nil => exact List.nodup_nil
  | cons e rest ih =>
      rw [List.map_cons, List.nodup_cons]
      refine ⟨fun hmem => ?_, ih h.tail⟩
      obtain ⟨e', he', hsame⟩ := List.mem_map.1 hmem
      have hregion := h.tail.inRegion he'
      rw [h.2.1, hsame] at hregion
      cases d with
      | forward =>
          have hle := hregion.2
          simp only [cursorBefore, markLength] at hle
          omega
      | backward =>
          have hle := hregion.1
          simp only [cursorBefore, markLength] at hle
          omega

/-- There is a record's room for each mark. -/
theorem length_le (h : Chained m d bound marks) (hbound : bound ≤ m.size) :
    marks.length ≤ m.size := by
  have hroom : match d with
      | .forward => marks.length ≤ bound
      | .backward => bound + marks.length ≤ m.size := by
    induction marks generalizing bound with
    | nil => cases d <;> first | exact Nat.zero_le _ | exact hbound
    | cons e rest ih =>
        have hregion := h.1
        have hsaved := h.2.1
        cases d with
        | forward =>
            have hle := hregion.2
            simp only [cursorBefore, markLength] at hsaved hle
            have hrest : rest.length ≤ e.saved := ih h.tail (by omega)
            rw [List.length_cons]
            dsimp only
            omega
        | backward =>
            have hlow := hregion.1
            have hhigh := hregion.2
            simp only [cursorBefore, markLength] at hsaved hhigh
            have hrest : e.saved + rest.length ≤ m.size := ih h.tail (by omega)
            rw [List.length_cons]
            dsimp only
            omega
  cases d with
  | forward => exact Nat.le_trans hroom hbound
  | backward => exact Nat.le_trans (Nat.le_add_left ..) hroom

end Chained

end Chained

/-! ### Arenas with their marks -/

/-- A cursor without what is set aside above it. -/
def settled (a : Arena) : Direction → Nat
  | .forward =>
      match a.hold with
      | some { start, reserved := some _, .. } => start
      | _ => a.forward
  | .backward => a.backward

/-- The marks of the stacks, and no others, are outstanding in the arena. -/
structure Disciplined (a : Arena) (S : Stacks) : Prop where
  header : headerLength ≤ a.settled .forward
  settled : a.settled .forward ≤ a.forward
  cursors : a.forward ≤ a.backward
  backward : a.backward ≤ a.capacity
  capacity : a.capacity ≤ maxCapacity
  reserved : ∀ h n, a.hold = some h → h.reserved = some n → a.forward = h.start + n
  chained : ∀ d, Chained a.memory d (a.settled d) (S.of d)
  last : ∀ d, a.lastMark d = headRecord (S.of d)

section Disciplined

variable {a : Arena} {S : Stacks} {d : Direction} {e : Outstanding} {marks rest : List Outstanding}

/-- A fresh arena has no marks. -/
theorem disciplined_create {size : Nat} (h : create size = .ok a) : Disciplined a {} := by
  have hb := bounded_create h
  have hfresh : a.hold = none ∧ a.forwardMark = 0 ∧ a.backwardMark = 0 := by
    rw [create] at h
    split at h
    · injection h with h
      subst h
      exact ⟨rfl, rfl, rfl⟩
    · contradiction
  obtain ⟨hhold, hforward, hbackward⟩ := hfresh
  have hsettled : a.settled .forward = a.forward := by rw [Arena.settled, hhold]
  constructor
  · rw [hsettled]
    exact hb.header
  · exact Nat.le_of_eq hsettled
  · exact hb.cursors
  · exact hb.backward
  · exact hb.capacity
  · intro h n hsome
    rw [hhold] at hsome
    contradiction
  · intro d
    cases d <;> trivial
  · intro d
    cases d with
    | forward => exact hforward
    | backward => exact hbackward

namespace Disciplined

theorem size_lt (h : Disciplined a S) : a.memory.size < 65536 :=
  Nat.lt_succ_of_le h.capacity

theorem settled_le (h : Disciplined a S) (d : Direction) : a.settled d ≤ a.memory.size := by
  have hsettled := h.settled
  have hcursors := h.cursors
  have hbackward := h.backward
  rw [Arena.capacity] at hbackward
  cases d with
  | forward => omega
  | backward => exact hbackward

theorem live (h : Disciplined a S) {offset : Nat}
    (hregion : InRegion a.memory.size d (a.settled d) offset) : a.Live offset markLength := by
  cases d with
  | forward => exact live_of_below hregion.1 (Nat.le_trans hregion.2 h.settled)
  | backward => exact live_of_above hregion.1 hregion.2

theorem record_pos (h : Disciplined a S) {offset : Nat}
    (hregion : InRegion a.memory.size d (a.settled d) offset) : offset ≠ 0 := by
  have hheader := h.header
  have hsettled := h.settled
  have hcursors := h.cursors
  simp only [headerLength] at hheader
  cases d with
  | forward =>
      have hlow := hregion.1
      simp only [headerLength] at hlow
      omega
  | backward =>
      have hlow := hregion.1
      simp only [Arena.settled] at hlow
      omega

theorem record_lt (h : Disciplined a S) {offset : Nat}
    (hregion : InRegion a.memory.size d (a.settled d) offset) :
    offset < 65536 ∧ cursorBefore d offset < 65536 := by
  have hsize := h.size_lt
  have hle := h.settled_le d
  cases d with
  | forward =>
      have hhigh := hregion.2
      simp only [cursorBefore]
      omega
  | backward =>
      have hhigh := hregion.2
      simp only [cursorBefore]
      omega

theorem headRecord_lt (h : Disciplined a S) {bound : Nat} (hgrown : Grown d bound (a.settled d))
    (hchained : Chained a.memory d bound marks) : headRecord marks < 65536 := by
  cases marks with
  | nil => exact Nat.zero_lt_succ _
  | cons e rest => exact (h.record_lt (hchained.grown hgrown).1).1

/-- The cursors are where an arena can have them. -/
theorem bounded (h : Disciplined a S) : a.Bounded where
  header := Nat.le_trans h.header h.settled
  cursors := h.cursors
  backward := h.backward
  capacity := h.capacity
  backwardMark := by
    rw [show a.backwardMark = headRecord (S.of .backward) from h.last .backward]
    exact h.headRecord_lt (.refl _ _) (h.chained .backward)

/-- The record of an outstanding mark says where its cursor was and what comes before. -/
theorem readRecord_ok (h : Disciplined a S) {bound : Nat} (hgrown : Grown d bound (a.settled d))
    (hchained : Chained a.memory d bound (e :: rest)) :
    e.record ≠ 0 ∧ a.readRecord e.record = .ok (e.saved, headRecord rest) := by
  have hregion := (hchained.grown hgrown).1
  obtain ⟨-, hsaved, hheld, hrest⟩ := hchained
  have hsaved_lt : e.saved < 65536 := hsaved ▸ (h.record_lt hregion).2
  have hhead_lt := h.headRecord_lt (hsaved ▸ hregion.cursorBefore_grown) hrest
  exact ⟨h.record_pos hregion, Arena.readRecord_ok (h.live hregion) hheld hsaved_lt hhead_lt⟩

/-- Following the chain meets the outstanding marks, the most recent first. -/
theorem trailFrom_eq (h : Disciplined a S) {bound : Nat} (hgrown : Grown d bound (a.settled d))
    (hchained : Chained a.memory d bound marks) {fuel : Nat} (hfuel : marks.length < fuel) :
    a.trailFrom fuel (headRecord marks) = marks.map (·.record) ++ [0] := by
  induction marks generalizing bound fuel with
  | nil =>
      obtain ⟨fuel, rfl⟩ := Nat.exists_eq_succ_of_ne_zero (Nat.ne_of_gt hfuel)
      rw [trailFrom, headRecord, if_pos rfl]
      rfl
  | cons e rest ih =>
      obtain ⟨fuel, rfl⟩ := Nat.exists_eq_succ_of_ne_zero (Nat.ne_of_gt (Nat.zero_lt_of_lt hfuel))
      obtain ⟨hpos, hrecord⟩ := h.readRecord_ok hgrown hchained
      rw [trailFrom, headRecord, if_neg hpos, hrecord]
      dsimp only
      rw [ih (hchained.saved_grown.trans hgrown) hchained.tail (Nat.lt_of_succ_lt_succ hfuel)]
      rfl

theorem trail_eq (h : Disciplined a S) (d : Direction) :
    a.trail d = (S.of d).map (·.record) ++ [0] := by
  rw [trail, h.last]
  exact h.trailFrom_eq (.refl _ _) (h.chained d)
    (Nat.lt_succ_of_le ((h.chained d).length_le (h.settled_le d)))

/-- As many marks are outstanding as the stack is deep. -/
theorem markCount_eq (h : Disciplined a S) (d : Direction) : a.markCount d = (S.of d).length := by
  have hpos : ∀ record ∈ (S.of d).map (·.record), (record != 0) = true := by
    intro record hrecord
    obtain ⟨e, he, rfl⟩ := List.mem_map.1 hrecord
    exact bne_iff_ne.2 (h.record_pos ((h.chained d).inRegion he))
  rw [markCount, h.trail_eq, List.filter_append, List.filter_eq_self.2 hpos, List.length_append,
    List.length_map]
  rfl

/-- Only the most recent mark is found at the head of its chain. -/
theorem latest_eq (h : Disciplined a S) (m : Mark) :
    a.latest m = match S.of m.direction with
      | [] => .error .rewindTooFar
      | e :: rest =>
          if e.record = m.record then .ok (e.saved, headRecord rest) else .error .markMismatch := by
  have hchained := h.chained m.direction
  rw [latest, h.last]
  cases hmarks : S.of m.direction with
  | nil => exact if_pos rfl
  | cons e rest =>
      rw [hmarks] at hchained
      obtain ⟨hpos, hrecord⟩ := h.readRecord_ok (.refl _ _) hchained
      rw [headRecord, if_neg hpos]
      dsimp only
      by_cases hsame : e.record = m.record
      · rw [if_neg (not_not_intro hsame), if_pos hsame, ← hsame, hrecord]
      · rw [if_pos hsame, if_neg hsame]

end Disciplined

end Disciplined

end Arena

end FlatLisp
