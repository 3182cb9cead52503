/-
Module: FlatLisp.Store.Error
Purpose: Why the block store refuses a request.
Main exports: StoreError, StoreError.message, Store.minSize, Store.maxSize
-/
import FlatLisp.Text.Hex

namespace FlatLisp

/-- The smallest image, in bytes. -/
def Store.minSize : Nat := 16

/-- The largest image, in bytes. -/
def Store.maxSize : Nat := 32768

/-- The causes for which the store refuses a request. -/
inductive StoreError where
  | outOfSpace (requested largest : Nat)
  | badAddress (address : Nat)
  /-- The bytes asked for are not all in the image. -/
  | unmapped (address : Nat)
  | tooLarge (size : Nat)
  | invalidSize (size : Nat)
  | unformatted
deriving DecidableEq, Repr, Inhabited

/-- The wording of each cause. -/
def StoreError.message : StoreError → String
  | .outOfSpace requested largest =>
      s!"out of space: {requested} bytes requested, largest free block holds {largest}"
  | .badAddress address => s!"no allocated block at {Text.Hex.address address}"
  | .unmapped address => s!"address {Text.Hex.address address} is not mapped"
  | .tooLarge size => s!"{size} bytes do not fit in any block"
  | .invalidSize size => s!"store size {size} outside {Store.minSize}..={Store.maxSize}"
  | .unformatted => "image has no valid header"

end FlatLisp
