/-
Module: FlatLisp.External
Purpose: Memory outside the arena, as far as it can be read.
Main exports: External, External.read, External.unmapped, External.ofImage
-/
import FlatLisp.Bytes
import FlatLisp.Store.Error

namespace FlatLisp

/-- Memory that can be read, and nothing else. What is mapped in it, and where, is its own affair. -/
structure External where
  /-- The bytes at an address, or why they cannot be had. -/
  read : (address count : Nat) → Except StoreError (List UInt8)
  /-- As many bytes are answered as were asked for. -/
  length_read : ∀ {address count : Nat} {bytes : List UInt8}, read address count = .ok bytes →
    bytes.length = count
  /-- What can be read as a whole can be read in parts. -/
  read_append : ∀ {address : Nat} {xs ys : List UInt8},
    read address (xs ++ ys).length = .ok (xs ++ ys) →
      read address xs.length = .ok xs ∧ read (address + xs.length) ys.length = .ok ys

namespace External

/-- No outside memory: every address is unmapped, even for reading nothing. -/
def unmapped : External where
  read address _ := .error (.unmapped address)
  length_read h := nomatch h
  read_append h := nomatch h

instance : Inhabited External := ⟨unmapped⟩

/-! ### Images -/

/-- All `count` bytes at `address` are in an image whose addresses start at `first`. -/
def Mapped (image : Bytes) (first address count : Nat) : Prop :=
  first ≤ address ∧ address + count ≤ image.size

instance (image : Bytes) (first address count : Nat) : Decidable (Mapped image first address count) :=
  inferInstanceAs (Decidable (_ ∧ _))

/-- The bytes of an image whose addresses start at `first`. -/
def readImage (image : Bytes) (first address count : Nat) : Except StoreError (List UInt8) :=
  if Mapped image first address count then .ok (image.slice address count)
  else .error (.unmapped address)

section Image

variable {image : Bytes} {first address count : Nat} {bytes xs ys : List UInt8}

theorem readImage_iff : readImage image first address count = .ok bytes ↔
    Mapped image first address count ∧ image.slice address count = bytes := by
  rw [readImage]
  split <;> simp_all

theorem length_readImage (h : readImage image first address count = .ok bytes) :
    bytes.length = count := by
  obtain ⟨⟨-, hsize⟩, rfl⟩ := readImage_iff.1 h
  rw [Bytes.slice_eq_take_drop, List.length_take, List.length_drop, Bytes.length_toList]
  omega

theorem readImage_append
    (h : readImage image first address (xs ++ ys).length = .ok (xs ++ ys)) :
    readImage image first address xs.length = .ok xs ∧
      readImage image first (address + xs.length) ys.length = .ok ys := by
  obtain ⟨⟨hlow, hhigh⟩, hslice⟩ := readImage_iff.1 h
  obtain ⟨hleft, hright⟩ := Bytes.slice_append hslice
  rw [List.length_append] at hhigh
  exact ⟨readImage_iff.2 ⟨⟨hlow, by omega⟩, hleft⟩,
    readImage_iff.2 ⟨⟨Nat.le_add_right_of_le hlow, by omega⟩, hright⟩⟩

end Image

/-- An image as memory to be read, whose addresses start at `first`. -/
def ofImage (image : Bytes) (first : Nat) : External where
  read := readImage image first
  length_read := length_readImage
  read_append := readImage_append

end External

end FlatLisp
