/-
Module: FlatLisp.Store.Block
Purpose: The layout of a block store: after a magic word, blocks one behind the other, each with its
  size and whether it is free in two bytes before its data.
Main exports: Block, Store, Store.blocks, Store.freeSpace, Store.create, Store.ofImage,
  Store.external
-/
import FlatLisp.External
import FlatLisp.Text.Utf8

namespace FlatLisp

/-- A block of a store. -/
structure Block where
  address : Nat
  /-- The room for data. -/
  capacity : Nat
  free : Bool
deriving DecidableEq, Repr, Inhabited

/-- A store. All it knows is in its image. -/
structure Store where
  image : Bytes
deriving DecidableEq, Inhabited

namespace Block

/-- The size of the header before a block's data. -/
def headerLength : Nat := 2

/-- The address of the data. -/
def data (b : Block) : Nat := b.address + headerLength

/-- The bytes of the block, its header included. -/
def size (b : Block) : Nat := b.capacity + headerLength

/-- The address just past the block. -/
def stop (b : Block) : Nat := b.address + b.size

/-- The bit of a block's header that says it is free. -/
def freeBit : Nat := 32768

/-- The bytes of a block's header. -/
def encodeHeader (size : Nat) (free : Bool) : List UInt8 :=
  Word.bytes (size % freeBit + if free then freeBit else 0)

end Block

namespace Store

/-- The bytes that an image begins with. -/
def magic : List UInt8 := Text.Utf8.encode "slimlisp"

/-- The address of the first block. -/
def firstBlock : Nat := 8

/-- The blocks from `address` on, as far as their sizes make sense. A block has two bytes at least,
so `fuel` of the image's size is enough. -/
def blocksFrom (image : Bytes) : (fuel address : Nat) → List Block
  | 0, _ => []
  | fuel + 1, address =>
      if image.size < address + Block.headerLength then []
      else
        let word := Word.value (image.get address) (image.get (address + 1))
        let size := word % Block.freeBit
        if size < Block.headerLength ∨ image.size < address + size then []
        else
          ⟨address, size - Block.headerLength, Block.freeBit ≤ word⟩ ::
            blocksFrom image fuel (address + size)

/-- The blocks in the order of their addresses. -/
def blocks (s : Store) : List Block := blocksFrom s.image s.image.size firstBlock

/-- The room for data in all free blocks together. -/
def freeSpace (s : Store) : Nat :=
  (s.blocks.filter (·.free)).foldr (fun block total => block.capacity + total) 0

/-- The allocated block at an address. -/
def find (s : Store) (address : Nat) : Except StoreError Block :=
  match s.blocks.find? fun b => b.address == address && !b.free with
  | some b => .ok b
  | none => .error (.badAddress address)

/-- The image as memory that cells can be read from. -/
def external (s : Store) : External := .ofImage s.image firstBlock

/-- The store with another header at an address. -/
def withHeader (s : Store) (address size : Nat) (free : Bool) : Store :=
  ⟨s.image.write address (Block.encodeHeader size free)⟩

/-- The store with everything in one free block. -/
def format (s : Store) : Store :=
  withHeader ⟨(Bytes.zeros s.image.size).write 0 magic⟩ firstBlock (s.image.size - firstBlock) true

/-- A store of `size` bytes, made even, in one free block. -/
def create (size : Nat) : Except StoreError Store :=
  if minSize ≤ size ∧ size ≤ maxSize then .ok (format ⟨Bytes.zeros (size / 2 * 2)⟩)
  else .error (.invalidSize size)

/-- The store with a given image, whose blocks may be in any state. -/
def ofImage (image : List UInt8) : Except StoreError Store :=
  if minSize ≤ image.length ∧ image.length ≤ maxSize then
    if image.take magic.length = magic then .ok ⟨.ofList image⟩ else .error .unformatted
  else
    .error (.invalidSize image.length)

end Store

end FlatLisp
