/-
Module: FlatLisp.Store.Basic
Purpose: Saving, loading and freeing blocks. Data goes into the smallest free block that holds it;
  a freed block is joined with its free neighbours.
Main exports: StoreM, Store.save, Store.load, Store.free
-/
import FlatLisp.Store.Block

namespace FlatLisp

/-- A request to the store. -/
abbrev StoreM := EStateM StoreError Store

namespace Store

/-- The smallest remainder that is made a block of its own. -/
def minSplit : Nat := 4

/-- The first of the smallest blocks. -/
def smallest : List Block → Option Block
  | [] => none
  | b :: rest =>
      match smallest rest with
      | none => some b
      | some c => if b.size ≤ c.size then some b else some c

/-- The size of the block that `count` bytes need: an even number, and the header. -/
def sizeFor (count : Nat) : Nat := count + count % 2 + Block.headerLength

/-- The room in the largest free block. -/
def largestFree (s : Store) : Nat := ((s.blocks.filter (·.free)).map (·.capacity)).foldl max 0

/-- Allocate the first `need` bytes of a free block, or all of it where too little is left over. -/
def carve (s : Store) (b : Block) (need : Nat) : Store :=
  if minSplit ≤ b.size - need then
    (s.withHeader b.address need false).withHeader (b.address + need) (b.size - need) true
  else
    s.withHeader b.address b.size false

/-- Copy bytes into a new block, and answer its address. -/
def save (bytes : List UInt8) : StoreM Nat := fun s =>
  let need := sizeFor bytes.length
  if Block.freeBit ≤ need then .error (.tooLarge bytes.length) s
  else
    match smallest (s.blocks.filter fun b => b.free && need ≤ b.size) with
    | none => .error (.outOfSpace bytes.length s.largestFree) s
    | some b => .ok b.address ⟨(s.carve b need).image.write b.data bytes⟩

/-- The room of an allocated block, and at most `count` bytes of its data. -/
def load (s : Store) (address count : Nat) : Except StoreError (Nat × List UInt8) := do
  let b ← s.find address
  return (b.capacity, s.image.slice b.data (min count b.capacity))

/-- The block before an address, if it is free. -/
def freeBefore (s : Store) (address : Nat) : Option Block :=
  ((s.blocks.takeWhile fun b => b.address != address).getLast?).filter (·.free)

/-- The block at an address, if it is free. -/
def freeAt (s : Store) (address : Nat) : Option Block :=
  (s.blocks.find? fun b => b.address == address).filter (·.free)

/-- Give an allocated block back. -/
def free (address : Nat) : StoreM Unit := fun s =>
  match s.find address with
  | .error e => .error e s
  | .ok b =>
      let before := s.freeBefore b.address
      let after := s.freeAt b.stop
      let start := (before.map (·.address)).getD b.address
      let size := (before.map (·.size)).getD 0 + b.size + (after.map (·.size)).getD 0
      .ok () (s.withHeader start size true)

end Store

end FlatLisp
