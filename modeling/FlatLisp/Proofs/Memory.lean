/-
Module: FlatLisp.Proofs.Memory
Purpose: What a buffer holds where. A list of bytes is held at an offset; writing elsewhere keeps
  it, and writing it establishes it.
Main exports: Bytes.Holds, Bytes.holds_append, Bytes.holds_write, Bytes.Holds.write_of_disjoint,
  Bytes.Holds.slice_eq
-/
import FlatLisp.Bytes

namespace FlatLisp

namespace Bytes

/-- The bytes `bytes` are in the buffer from offset `start` on. -/
def Holds (m : Bytes) (start : Nat) (bytes : List UInt8) : Prop :=
  start + bytes.length ≤ m.size ∧ ∀ i (h : i < bytes.length), m.get (start + i) = bytes[i]

/-- Both buffers have the same bytes from `low` up to `high`. -/
def SameOn (m m' : Bytes) (low high : Nat) : Prop :=
  ∀ i, low ≤ i → i < high → m'.get i = m.get i

theorem get_eq_getElem {m : Bytes} {i : Nat} (h : i < m.toList.length) :
    m.get i = m.toList[i] := by
  rw [length_toList] at h
  have hi : i < m.data.size := h
  simp [get, toList, Array.getD, hi]

/-! ### Writing -/

theorem SameOn.refl (m : Bytes) (low high : Nat) : m.SameOn m low high :=
  fun _ _ _ => rfl

theorem SameOn.trans {m₁ m₂ m₃ : Bytes} {low high : Nat} (h₁ : m₁.SameOn m₂ low high)
    (h₂ : m₂.SameOn m₃ low high) : m₁.SameOn m₃ low high := by
  intro i hlow hhigh
  rw [h₂ i hlow hhigh, h₁ i hlow hhigh]

theorem SameOn.symm {m m' : Bytes} {low high : Nat} (h : m.SameOn m' low high) :
    m'.SameOn m low high :=
  fun i hlow hhigh => (h i hlow hhigh).symm

theorem SameOn.mono {m m' : Bytes} {low high low' high' : Nat} (h : m.SameOn m' low high)
    (hlow : low ≤ low') (hhigh : high' ≤ high) : m.SameOn m' low' high' := by
  intro i hi hi'
  exact h i (by omega) (by omega)

/-- Two ranges that meet make one. -/
theorem SameOn.append {m m' : Bytes} {low middle high : Nat} (h₁ : m.SameOn m' low middle)
    (h₂ : m.SameOn m' middle high) : m.SameOn m' low high := by
  intro i hlow hhigh
  rcases Nat.lt_or_ge i middle with hlt | hge
  · exact h₁ i hlow hlt
  · exact h₂ i hge hhigh

/-- Bytes that agree are sliced out alike. -/
theorem SameOn.slice_eq {m m' : Bytes} {start count : Nat} (hsize : m'.size = m.size)
    (h : m.SameOn m' start (start + count)) : m'.slice start count = m.slice start count := by
  rw [slice_eq_take_drop, slice_eq_take_drop]
  apply List.ext_getElem
  · rw [List.length_take, List.length_take, List.length_drop, List.length_drop, length_toList,
      length_toList, hsize]
  · intro i hi hi'
    rw [List.length_take, List.length_drop] at hi hi'
    rw [List.getElem_take, List.getElem_take, List.getElem_drop, List.getElem_drop,
      ← get_eq_getElem, ← get_eq_getElem]
    exact h (start + i) (by omega) (by omega)

/-- A write changes nothing outside of what it covers. -/
theorem sameOn_write {m : Bytes} {start low high : Nat} {bytes : List UInt8}
    (h : high ≤ start ∨ start + bytes.length ≤ low) : m.SameOn (m.write start bytes) low high := by
  intro i hlow hhigh
  rcases h with h | h
  · exact get_write_of_lt (by omega)
  · exact get_write_of_ge (by omega)

theorem get_write_self {m : Bytes} {start : Nat} {bytes : List UInt8}
    (h : start + bytes.length ≤ m.size) (i : Nat) (hi : i < bytes.length) :
    (m.write start bytes).get (start + i) = bytes[i] := by
  induction bytes generalizing m start i with
  | nil => simp at hi
  | cons b rest ih =>
      rw [List.length_cons] at h
      cases i with
      | zero =>
          rw [Nat.add_zero, write, get_write_of_lt (by omega), get_set]
          simp [show start < m.size by omega]
      | succ i =>
          have hrest := @ih (m.set start b) (start + 1) (by rw [size_set]; omega) i
            (by simpa using hi)
          rw [write, show start + (i + 1) = start + 1 + i by omega, hrest]
          rfl

/-- Bytes that are written one after the other may be written at once. -/
theorem write_append (m : Bytes) (start : Nat) (xs ys : List UInt8) :
    m.write start (xs ++ ys) = (m.write start xs).write (start + xs.length) ys := by
  induction xs generalizing m start with
  | nil => rfl
  | cons b rest ih =>
      rw [List.cons_append, write, write, ih, List.length_cons, Nat.add_assoc, Nat.add_comm 1]

/-! ### Holding -/

theorem holds_nil {m : Bytes} {start : Nat} : m.Holds start [] ↔ start ≤ m.size := by
  simp [Holds]

theorem Holds.le_size {m : Bytes} {start : Nat} {bytes : List UInt8} (h : m.Holds start bytes) :
    start + bytes.length ≤ m.size := h.1

theorem holds_append {m : Bytes} {start : Nat} {xs ys : List UInt8} :
    m.Holds start (xs ++ ys) ↔ m.Holds start xs ∧ m.Holds (start + xs.length) ys := by
  constructor
  · rintro ⟨hsize, hget⟩
    rw [List.length_append] at hsize
    refine ⟨⟨by omega, ?_⟩, ⟨by omega, ?_⟩⟩
    · intro i hi
      rw [hget i (by rw [List.length_append]; omega), List.getElem_append_left hi]
    · intro i hi
      rw [Nat.add_assoc, hget (xs.length + i) (by rw [List.length_append]; omega),
        List.getElem_append_right (by omega)]
      simp
  · rintro ⟨⟨_, hxs⟩, ⟨hsize, hys⟩⟩
    refine ⟨by rw [List.length_append]; omega, ?_⟩
    intro i hi
    rw [List.length_append] at hi
    by_cases hlt : i < xs.length
    · rw [hxs i hlt, List.getElem_append_left hlt]
    · have hrest := hys (i - xs.length) (by omega)
      rw [show start + xs.length + (i - xs.length) = start + i by omega] at hrest
      rw [hrest, List.getElem_append_right (by omega)]

theorem Holds.left {m : Bytes} {start : Nat} {xs ys : List UInt8} (h : m.Holds start (xs ++ ys)) :
    m.Holds start xs := (holds_append.1 h).1

theorem Holds.right {m : Bytes} {start : Nat} {xs ys : List UInt8} (h : m.Holds start (xs ++ ys)) :
    m.Holds (start + xs.length) ys := (holds_append.1 h).2

/-- Only the bytes of the range matter. -/
theorem Holds.of_sameOn {m m' : Bytes} {start low high : Nat} {bytes : List UInt8}
    (h : m.Holds start bytes) (hsize : m'.size = m.size) (hsame : m.SameOn m' low high)
    (hlow : low ≤ start) (hhigh : start + bytes.length ≤ high) : m'.Holds start bytes := by
  refine ⟨by rw [hsize]; exact h.1, ?_⟩
  intro i hi
  rw [hsame (start + i) (by omega) (by omega), h.2 i hi]

/-- Buffers that hold the same bytes agree on them. -/
theorem Holds.sameOn {m m' : Bytes} {start : Nat} {bytes : List UInt8} (h : m.Holds start bytes)
    (h' : m'.Holds start bytes) : m.SameOn m' start (start + bytes.length) := by
  intro i hlow hhigh
  obtain ⟨k, rfl⟩ := Nat.exists_eq_add_of_le hlow
  rw [h'.2 k (by omega), h.2 k (by omega)]

theorem holds_write {m : Bytes} {start : Nat} {bytes : List UInt8}
    (h : start + bytes.length ≤ m.size) : (m.write start bytes).Holds start bytes :=
  ⟨by rw [size_write]; exact h, get_write_self h⟩

theorem Holds.write_of_disjoint {m : Bytes} {start at' : Nat} {bytes new : List UInt8}
    (h : m.Holds start bytes) (hd : start + bytes.length ≤ at' ∨ at' + new.length ≤ start) :
    (m.write at' new).Holds start bytes :=
  h.of_sameOn (size_write ..) (sameOn_write hd) (Nat.le_refl _) (Nat.le_refl _)

/-- What is held is what a slice shows. -/
theorem Holds.slice_eq {m : Bytes} {start : Nat} {bytes : List UInt8} (h : m.Holds start bytes) :
    m.slice start bytes.length = bytes := by
  obtain ⟨hsize, hget⟩ := h
  rw [slice_eq_take_drop]
  apply List.ext_getElem
  · simp only [List.length_take, List.length_drop, length_toList]
    omega
  · intro i _ hi
    rw [List.getElem_take, List.getElem_drop, ← hget i hi, get_eq_getElem (by rw [length_toList]; omega)]

theorem length_slice {m : Bytes} {start count : Nat} (h : start + count ≤ m.size) :
    (m.slice start count).length = count := by
  rw [slice_eq_take_drop, List.length_take, List.length_drop, length_toList]
  omega

theorem holds_slice {m : Bytes} {start count : Nat} (h : start + count ≤ m.size) :
    m.Holds start (m.slice start count) := by
  have hlength := length_slice h
  refine ⟨by rw [hlength]; exact h, ?_⟩
  intro i hi
  rw [hlength] at hi
  simp only [slice_eq_take_drop, List.getElem_take, List.getElem_drop]
  exact get_eq_getElem (by rw [length_toList]; omega)

/-- A number that is held as two bytes can be read back. -/
theorem Holds.word {m : Bytes} {start n : Nat} (h : m.Holds start (Word.bytes n))
    (hn : n < 65536) : Word.value (m.get start) (m.get (start + 1)) = n := by
  have hlow := h.2 0 (by simp)
  have hhigh := h.2 1 (by simp)
  rw [Nat.add_zero] at hlow
  rw [hlow, hhigh]
  exact Word.value_bytes hn

/-- Two bytes are the number that they spell. -/
theorem holds_value {m : Bytes} {start : Nat} (h : start + 2 ≤ m.size) :
    m.Holds start (Word.bytes (Word.value (m.get start) (m.get (start + 1)))) := by
  have hlow := (m.get start).toNat_lt
  have hhigh := (m.get (start + 1)).toNat_lt
  refine ⟨h, fun i hi => ?_⟩
  rw [Word.length_bytes] at hi
  obtain rfl | rfl : i = 0 ∨ i = 1 := by omega
  all_goals
    apply UInt8.toNat_inj.1
    simp only [Word.bytes, Word.value, Nat.add_zero, List.getElem_cons_zero,
      List.getElem_cons_succ, UInt8.toNat_ofNat']
    omega

end Bytes

end FlatLisp
