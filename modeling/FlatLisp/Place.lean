/-
Module: FlatLisp.Place
Purpose: Where a cell is: in the arena, or in the memory outside of it.
Main exports: Space, Place, Place.step, Place.show, Place.encode, Place.decode
-/
import FlatLisp.Bytes
import FlatLisp.Text.Hex

namespace FlatLisp

/-- The two address spaces. -/
inductive Space where
  | arena
  | store
deriving DecidableEq, Repr, Inhabited

/-- The position of a cell. -/
structure Place where
  space : Space
  offset : Nat
deriving DecidableEq, Repr, Inhabited

namespace Place

/-- The largest offset of either space. -/
def maxOffset : Nat := 65535

/-- The place `count` bytes further on, if the space has one. -/
def step (p : Place) (count : Nat) : Option Place :=
  if p.offset + count ≤ maxOffset then some { p with offset := p.offset + count } else none

/-- A place as it is written in messages. -/
def «show» (p : Place) : String :=
  match p.space with
  | .arena => "arena@" ++ Text.Hex.address p.offset
  | .store => "store@" ++ Text.Hex.address p.offset

/-- A place, or none, in three bytes: the space (zero for none), then the offset. -/
def encode : Option Place → List UInt8
  | none => [0, 0, 0]
  | some ⟨.arena, offset⟩ => 1 :: Word.bytes offset
  | some ⟨.store, offset⟩ => 2 :: Word.bytes offset

/-- Read `encode` back; `none` when the first byte is no space. -/
def decode (space low high : UInt8) : Option (Option Place) :=
  if space = 0 then some none
  else if space = 1 then some (some ⟨.arena, Word.value low high⟩)
  else if space = 2 then some (some ⟨.store, Word.value low high⟩)
  else none

@[simp] theorem length_encode (p : Option Place) : (encode p).length = 3 := by
  match p with
  | none => rfl
  | some ⟨.arena, _⟩ => rfl
  | some ⟨.store, _⟩ => rfl

end Place

end FlatLisp
