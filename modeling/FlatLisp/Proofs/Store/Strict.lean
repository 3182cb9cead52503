/-
Module: FlatLisp.Proofs.Store.Strict
Purpose: Every request to a store once more, with sixteen-bit arithmetic that stops where a number is
  too large or below zero, with an image that stops where it is indexed outside of its bounds, and with
  a scan that stops when it has met more blocks than there can be. None of them ever stops, whatever
  the image, and they do what the requests do.
Main exports: Store.Strict.blocks, Store.Strict.save, Store.Strict.load, Store.Strict.free,
  Store.Strict.Unstopped, Store.Strict.unstopped
-/
import FlatLisp.Proofs.Arena.Strict
import FlatLisp.Proofs.Store.Coalesced

namespace FlatLisp

namespace Store.Strict

open Arena.Strict (add sub add_eq sub_eq)
open Block (headerLength freeBit encodeHeader)

/-- What a request answers, and the store it leaves. -/
abbrev Answer (α : Type) := EStateM.Result StoreError Store α

/-! ### What can stop -/

/-- A place in the image as an address; none where it does not fit in two bytes. -/
def narrow (place : Nat) : Option Nat := if place < 65536 then some place else none

/-- The bytes from `start` up to `stop` are addressed; none where the image does not have them. -/
def index (image : Bytes) (start stop : Nat) : Option Unit :=
  if start ≤ stop ∧ stop ≤ image.size then some () else none

/-- Put bytes into the image. -/
def put (image : Bytes) (start : Nat) (bytes : List UInt8) : Option Bytes := do
  index image start (start + bytes.length)
  return image.write start bytes

/-- Put a header into the image. -/
def header (image : Bytes) (address size : Nat) (free : Bool) : Option Bytes :=
  put image address (encodeHeader size free)

/-- The bytes of a block, its header included. -/
def size (b : Block) : Option Nat := add b.capacity headerLength

/-- The address of a block's data. -/
def data (b : Block) : Option Nat := add b.address headerLength

/-- The blocks met from `address` on; none where there are more of them than `fuel`. -/
def blocksFrom (image : Bytes) : (fuel address : Nat) → Option (List Block)
  | 0, _ => none
  | fuel + 1, address =>
      if image.size < address + headerLength then some []
      else do
        index image address (address + headerLength)
        let word := Word.value (image.get address) (image.get (address + 1))
        let size := word % freeBit
        if size < headerLength ∨ image.size < address + size then return []
        else
          let start ← narrow address
          let capacity ← sub size headerLength
          let rest ← blocksFrom image fuel (address + size)
          return ⟨start, capacity, freeBit ≤ word⟩ :: rest

/-! ### Requests -/

/-- There are no more blocks than bytes. -/
def blocks (s : Store) : Option (List Block) := blocksFrom s.image s.image.size firstBlock

def freeSpace (s : Store) : Option Nat := do
  let blocks ← blocks s
  return (blocks.filter (·.free)).foldr (fun block total => block.capacity + total) 0

def find (s : Store) (address : Nat) : Option (Except StoreError Block) := do
  let blocks ← blocks s
  match blocks.find? fun b => b.address == address && !b.free with
  | some b => return .ok b
  | none => return .error (.badAddress address)

/-- Put the headers that allocate the first `need` bytes of a free block into the image. -/
def carve (image : Bytes) (b : Block) (need : Nat) : Option Bytes := do
  let whole ← size b
  let remainder ← sub whole need
  if minSplit ≤ remainder then
    let image ← header image b.address need false
    let next ← add b.address need
    header image next remainder true
  else
    header image b.address whole false

/-- The sizes of all blocks are looked at, to choose one of them. -/
def save (bytes : List UInt8) (s : Store) : Option (Answer Nat) := do
  let padded := bytes.length + bytes.length % 2
  if freeBit ≤ padded + headerLength then return .error (.tooLarge bytes.length) s
  else
    let need ← add padded headerLength
    let blocks ← blocks s
    let _ ← blocks.mapM size
    match smallest (blocks.filter fun b => b.free && need ≤ b.size) with
    | none => return .error (.outOfSpace bytes.length s.largestFree) s
    | some b =>
        let image ← carve s.image b need
        let image ← put image (← data b) bytes
        return .ok b.address ⟨image⟩

def load (s : Store) (address count : Nat) : Option (Except StoreError (Nat × List UInt8)) := do
  match ← find s address with
  | .error e => return .error e
  | .ok b =>
      let start ← data b
      index s.image start (start + min count b.capacity)
      return .ok (b.capacity, s.image.slice start (min count b.capacity))

/-- The size of a block with a neighbour, if there is one, joined to it. -/
def join (own : Nat) : Option Block → Option Nat
  | none => some own
  | some b => do add own (← size b)

def free (address : Nat) (s : Store) : Option (Answer Unit) := do
  match ← find s address with
  | .error e => return .error e s
  | .ok b =>
      let own ← size b
      let stop ← add b.address own
      let _ ← blocks s
      let before := s.freeBefore b.address
      let joined ← join own before
      let joined ← join joined (s.freeAt stop)
      let image ← header s.image ((before.map (·.address)).getD b.address) joined true
      return .ok () ⟨image⟩

def read (s : Store) (address count : Nat) : Option (Except StoreError (List UInt8)) := do
  if External.Mapped s.image firstBlock address count then index s.image address (address + count)
  return s.external.read address count

/-! ### Nothing stops -/

/-- A step that does not stop hands its result on. -/
theorem proceed {α β : Type} {x : Option α} {f : α → Option β} {y : α} {z : Option β}
    (hx : x = some y) (h : f y = z) : (x >>= f) = z := by
  rw [hx]
  exact h

section Equal

variable {image : Bytes} {s : Store} {b : Block} {bs : List Block} {start stop fuel low address : Nat}

theorem index_eq (hle : start ≤ stop) (hsize : stop ≤ image.size) :
    index image start stop = some () :=
  if_pos ⟨hle, hsize⟩

theorem put_eq {bytes : List UInt8} (h : start + bytes.length ≤ image.size) :
    put image start bytes = some (image.write start bytes) :=
  proceed (index_eq (Nat.le_add_right ..) h) rfl

theorem header_eq {address size : Nat} {free : Bool} (h : address + headerLength ≤ image.size) :
    header image address size free = some (image.write address (encodeHeader size free)) :=
  put_eq h

/-- A block has two bytes at least, so the scan is at the end before its fuel is used up. -/
theorem blocksFrom_eq (hmax : image.size ≤ maxSize) (hsome : 0 < fuel)
    (hfuel : image.size ≤ low + fuel) :
    blocksFrom image fuel low = some (Store.blocksFrom image fuel low) := by
  induction fuel generalizing low with
  | zero => contradiction
  | succ fuel ih =>
      rw [blocksFrom, Store.blocksFrom]
      split
      · rfl
      · rename_i hheader
        apply proceed (index_eq (Nat.le_add_right ..) (Nat.le_of_not_lt hheader))
        dsimp only
        split
        · rfl
        · rename_i hsize
          rw [headerLength] at hheader hsize
          have hnarrow : narrow low = some low := by
            rw [maxSize] at hmax
            exact if_pos (by omega)
          apply proceed hnarrow
          apply proceed (sub_eq (Nat.le_of_not_lt fun hlt => hsize (.inl hlt)))
          apply proceed (ih (by omega) (by omega))
          rfl

section Sound

variable (hs : s.Sound)

include hs

theorem blocks_eq : blocks s = some s.blocks := by
  have hmin := hs.min
  rw [minSize] at hmin
  exact blocksFrom_eq hs.max (by omega) (Nat.le_add_left ..)

/-- Where a block ends can be said in two bytes. -/
theorem stop_lt (hb : b ∈ s.blocks) : b.stop < 65536 := by
  have hstop := (stands_of_mem hb).2.stop
  have hmax := hs.max
  rw [maxSize] at hmax
  omega

theorem size_eq (hb : b ∈ s.blocks) : size b = some b.size := by
  have hstop := stop_lt hs hb
  rw [Block.stop, Block.size] at hstop
  exact add_eq (by omega)

theorem data_eq (hb : b ∈ s.blocks) : data b = some b.data := by
  have hstop := stop_lt hs hb
  rw [Block.stop, Block.size] at hstop
  exact add_eq (by omega)

theorem sizes_eq (h : ∀ b ∈ bs, b ∈ s.blocks) : bs.mapM size = some (bs.map (·.size)) := by
  induction bs with
  | nil => rfl
  | cons b rest ih =>
      have hrest := ih fun c hc => h c (.tail _ hc)
      rw [List.mapM_cons]
      apply proceed (size_eq hs (h b (.head _)))
      apply proceed hrest
      rfl

theorem freeSpace_eq : freeSpace s = some s.freeSpace :=
  proceed (blocks_eq hs) rfl

theorem find_eq (address : Nat) : find s address = some (s.find address) := by
  apply proceed (blocks_eq hs)
  rw [Store.find]
  cases s.blocks.find? fun b => b.address == address && !b.free <;> rfl

theorem carve_eq (hb : b ∈ s.blocks) {need : Nat} (hmin : headerLength ≤ need)
    (hneed : need ≤ b.size) : carve s.image b need = some (s.carve b need).image := by
  have hlt := stop_lt hs hb
  have hstop := (stands_of_mem hb).2.stop
  rw [Block.stop] at hlt hstop
  rw [Store.carve]
  apply proceed (size_eq hs hb)
  apply proceed (sub_eq hneed)
  split
  · rename_i hsplit
    rw [minSplit] at hsplit
    rw [headerLength] at hmin
    apply proceed (header_eq (by rw [headerLength]; omega))
    apply proceed (add_eq (by omega))
    exact header_eq (by rw [Bytes.size_write, headerLength]; omega)
  · exact header_eq (by omega)

theorem save_eq (bytes : List UInt8) : save bytes s = some (Store.save bytes s) := by
  rw [save, Store.save, ← sizeFor]
  split
  · rfl
  · rename_i hlarge
    have hneed : add (bytes.length + bytes.length % 2) headerLength = some (sizeFor bytes.length) := by
      rw [sizeFor, freeBit] at hlarge
      exact add_eq (by omega)
    apply proceed hneed
    apply proceed (blocks_eq hs)
    apply proceed (sizes_eq hs fun _ hb => hb)
    cases hsmallest : smallest (s.blocks.filter fun b => b.free && sizeFor bytes.length ≤ b.size) with
    | none => rfl
    | some b =>
        have hfound := mem_of_smallest hsmallest
        rw [List.mem_filter, Bool.and_eq_true, decide_eq_true_iff] at hfound
        obtain ⟨hb, -, hfits⟩ := hfound
        have hroom : b.data + bytes.length ≤ s.image.size := by
          have hstop := (stands_of_mem hb).2.stop
          rw [Block.stop] at hstop
          rw [sizeFor] at hfits
          rw [Block.data]
          omega
        apply proceed (carve_eq hs hb (Nat.le_add_left ..) hfits)
        apply proceed (data_eq hs hb)
        apply proceed (put_eq (by rwa [size_carve]))
        rfl

theorem load_eq (address count : Nat) : load s address count = some (s.load address count) := by
  rw [Store.load]
  apply proceed (find_eq hs address)
  cases hfind : s.find address with
  | error e => rfl
  | ok b =>
      have hb := (find_eq_ok hfind).1
      have hend : b.data + min count b.capacity ≤ s.image.size := by
        have hstop := (stands_of_mem hb).2.stop
        rw [Block.stop, Block.size] at hstop
        rw [Block.data]
        omega
      apply proceed (data_eq hs hb)
      apply proceed (index_eq (Nat.le_add_right ..) hend)
      rfl

/-- What is joined has its bytes side by side in the image. -/
theorem join_eq {own : Nat} {found : Option Block} (hfound : ∀ b ∈ found, b ∈ s.blocks)
    (hlt : own + (found.map (·.size)).getD 0 < 65536) :
    join own found = some (own + (found.map (·.size)).getD 0) := by
  cases found with
  | none => rfl
  | some b =>
      apply proceed (size_eq hs (hfound b rfl))
      exact add_eq hlt

/-- The neighbours that are joined to a block are blocks themselves, and are all in the image. -/
theorem joined_le (hfind : s.find address = .ok b) :
    (∀ c ∈ s.freeBefore b.address, c ∈ s.blocks) ∧ (∀ c ∈ s.freeAt b.stop, c ∈ s.blocks) ∧
      ((s.freeBefore b.address).map (·.address)).getD b.address ≤ b.address ∧
      b.size + ((s.freeBefore b.address).map (·.size)).getD 0 +
        ((s.freeAt b.stop).map (·.size)).getD 0 ≤ s.image.size := by
  obtain ⟨hb, haddress, -⟩ := find_eq_ok hfind
  rcases free_cases hs.max address with
    ⟨herror, -⟩ | ⟨c, old, s', low, high, hc, haddress', -, rfl, htiles, -, hrecut⟩
  · rw [Store.free, hfind] at herror
    contradiction
  · obtain rfl : c = b := eq_of_address hc hb (haddress'.trans haddress.symm)
    obtain ⟨pre, post, hblocks, -⟩ := hrecut.blocks
    have hmem : ∀ d ∈ (s.freeBefore c.address).toList ++ c :: (s.freeAt c.stop).toList,
        d ∈ s.blocks := by
      intro d hd
      rw [hblocks]
      exact List.mem_append_right _ (List.mem_append_left _ hd)
    have hhigh := htiles.le_size (Nat.le_trans (htiles.mem (by simp)).1
      (Nat.le_trans (Nat.le_add_right ..) (stands_of_mem hc).2.stop))
    -- The neighbours and the block tile what is recut, so together they are as long as it is.
    have htotal := htiles.stop_eq
    obtain ⟨middle, hleft, ⟨rfl, -, hright⟩⟩ := tiles_append.1 htiles
    obtain ⟨hstart, hlength⟩ := ends_of_toList hleft
    obtain ⟨-, hlength'⟩ := ends_of_toList hright
    have hstop : c.stop = c.address + c.size := rfl
    refine ⟨fun d hd => hmem d ?_, fun d hd => hmem d ?_, ?_, by omega⟩
    · exact List.mem_append_left _ (Option.mem_toList.2 hd)
    · exact List.mem_append_right _ (.tail _ (Option.mem_toList.2 hd))
    · rw [hstart]
      exact hleft.le

theorem free_eq (address : Nat) : free address s = some (Store.free address s) := by
  rw [Store.free]
  apply proceed (find_eq hs address)
  cases hfind : s.find address with
  | error e => rfl
  | ok b =>
      have hb := (find_eq_ok hfind).1
      have hstop := (stands_of_mem hb).2.stop
      have hmax := hs.max
      obtain ⟨hbefore, hafter, hstart, hsum⟩ := joined_le hs hfind
      rw [maxSize] at hmax
      rw [Block.stop, Block.size] at hstop
      have hown : add b.address b.size = some b.stop := add_eq (stop_lt hs hb)
      apply proceed (size_eq hs hb)
      apply proceed hown
      apply proceed (blocks_eq hs)
      apply proceed (join_eq hs hbefore (by omega))
      apply proceed (join_eq hs hafter (by omega))
      apply proceed (header_eq (by omega))
      rw [Nat.add_comm b.size]
      rfl

omit hs in
theorem read_eq (address count : Nat) :
    read s address count = some (s.external.read address count) := by
  rw [read]
  split
  · rename_i hmapped
    apply proceed (index_eq (Nat.le_add_right ..) hmapped.2)
    rfl
  · rfl

end Sound

end Equal

end Store.Strict

end FlatLisp
