/-
Module: FlatLisp.Bytes
Purpose: Flat byte buffers, and the two-byte numbers kept in them.
Main exports: Bytes, Bytes.get, Bytes.slice, Bytes.write, Word.value, Word.bytes
-/

namespace FlatLisp

/-- A buffer of bytes addressed from zero. -/
structure Bytes where
  data : Array UInt8
deriving DecidableEq, Inhabited

namespace Bytes

/-- A buffer of `n` zero bytes. -/
def zeros (n : Nat) : Bytes := ⟨Array.replicate n 0⟩

def ofList (bytes : List UInt8) : Bytes := ⟨bytes.toArray⟩

def toList (m : Bytes) : List UInt8 := m.data.toList

def size (m : Bytes) : Nat := m.data.size

/-- The byte at offset `i`; zero past the end. -/
def get (m : Bytes) (i : Nat) : UInt8 := m.data.getD i 0

/-- Replace the byte at offset `i`; nothing happens past the end. -/
def set (m : Bytes) (i : Nat) (b : UInt8) : Bytes := ⟨m.data.setIfInBounds i b⟩

/-- The `count` bytes from offset `start` on, fewer where the buffer ends. -/
def slice (m : Bytes) (start count : Nat) : List UInt8 :=
  (m.data.extract start (start + count)).toList

/-- Put `bytes` into the buffer from offset `start` on. -/
def write (m : Bytes) (start : Nat) : List UInt8 → Bytes
  | [] => m
  | b :: rest => (m.set start b).write (start + 1) rest

@[simp] theorem toList_ofList (bytes : List UInt8) : (ofList bytes).toList = bytes := by
  simp [ofList, toList]

@[simp] theorem length_toList (m : Bytes) : m.toList.length = m.size := by
  simp [toList, size]

theorem slice_eq_take_drop (m : Bytes) (start count : Nat) :
    m.slice start count = (m.toList.drop start).take count := by
  simp [slice, toList, Array.toList_extract]

/-- A range that can be sliced out of a buffer shows its parts. -/
theorem slice_append {m : Bytes} {start : Nat} {xs ys : List UInt8}
    (h : m.slice start (xs ++ ys).length = xs ++ ys) :
    m.slice start xs.length = xs ∧ m.slice (start + xs.length) ys.length = ys := by
  rw [slice_eq_take_drop, List.length_append] at h
  rw [slice_eq_take_drop, slice_eq_take_drop, ← List.drop_drop]
  generalize m.toList.drop start = bytes at h
  constructor
  · have htake := congrArg (List.take xs.length) h
    rwa [List.take_take, Nat.min_eq_left (Nat.le_add_right ..), List.take_left] at htake
  · have hdrop := congrArg (List.drop xs.length) h
    rwa [List.drop_take, List.drop_left, Nat.add_sub_cancel_left] at hdrop

@[simp] theorem size_zeros (n : Nat) : (zeros n).size = n := by
  simp [zeros, size]

@[simp] theorem size_set (m : Bytes) (i : Nat) (b : UInt8) : (m.set i b).size = m.size := by
  simp [set, size]

@[simp] theorem size_write (m : Bytes) (start : Nat) (bytes : List UInt8) :
    (m.write start bytes).size = m.size := by
  induction bytes generalizing m start with
  | nil => rfl
  | cons b rest ih => simp [write, ih]

theorem get_set (m : Bytes) (i j : Nat) (b : UInt8) :
    (m.set i b).get j = if i = j ∧ j < m.size then b else m.get j := by
  simp only [get, set, size, Array.getD_eq_getD_getElem?, Array.getElem?_setIfInBounds]
  by_cases hij : i = j
  · subst hij
    by_cases hi : i < m.data.size <;> simp [hi]
  · simp [hij]

/-- Writing changes the bytes it covers and no other. -/
theorem get_write_of_lt {m : Bytes} {start j : Nat} {bytes : List UInt8} (h : j < start) :
    (m.write start bytes).get j = m.get j := by
  induction bytes generalizing m start with
  | nil => rfl
  | cons b rest ih =>
      rw [write, ih (by omega), get_set]
      simp [show start ≠ j by omega]

theorem get_write_of_ge {m : Bytes} {start j : Nat} {bytes : List UInt8}
    (h : start + bytes.length ≤ j) : (m.write start bytes).get j = m.get j := by
  induction bytes generalizing m start with
  | nil => rfl
  | cons b rest ih =>
      rw [List.length_cons] at h
      rw [write, ih (by omega), get_set]
      simp [show start ≠ j by omega]

end Bytes

namespace Word

/-- The number that two bytes spell, the low byte first. -/
def value (low high : UInt8) : Nat := low.toNat + 256 * high.toNat

/-- The two bytes of a number below 65536, the low byte first. -/
def bytes (n : Nat) : List UInt8 := [UInt8.ofNat n, UInt8.ofNat (n / 256)]

@[simp] theorem length_bytes (n : Nat) : (bytes n).length = 2 := rfl

theorem value_bytes {n : Nat} (h : n < 65536) :
    value (UInt8.ofNat n) (UInt8.ofNat (n / 256)) = n := by
  simp only [value, UInt8.toNat_ofNat']
  omega

theorem value_lt (low high : UInt8) : value low high < 65536 := by
  have := low.toNat_lt
  have := high.toNat_lt
  simp only [value]
  omega

end Word

end FlatLisp
