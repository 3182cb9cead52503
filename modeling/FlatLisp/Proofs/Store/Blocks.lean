/-
Module: FlatLisp.Proofs.Store.Blocks
Purpose: The blocks of an image as a tiling: each header is where the block before it ends, up to an
  address where no block begins. Whatever the image, a request that is granted puts other blocks in
  the place of neighbouring ones and touches nothing else; one that is refused changes nothing.
Main exports: Store.Stands, Store.Tiles, Store.exists_tiles, Store.blocks_eq, Store.Recut,
  Store.save_cases, Store.free_cases
-/
import FlatLisp.Proofs.Memory
import FlatLisp.Store.Basic

namespace FlatLisp

namespace Store

open Block (headerLength freeBit encodeHeader)

variable {image image' : Bytes} {low middle high start stop : Nat} {b : Block}
  {bs cs pre old new post : List Block} {s s' : Store}

/-! ### Headers -/

/-- The block with `size` bytes at `address`. -/
def sized (address size : Nat) (free : Bool) : Block := ⟨address, size - headerLength, free⟩

section Sized

variable {address size : Nat} {free : Bool}

@[simp] theorem address_sized : (sized address size free).address = address := rfl

@[simp] theorem free_sized : (sized address size free).free = free := rfl

theorem size_sized (h : headerLength ≤ size) : (sized address size free).size = size :=
  Nat.sub_add_cancel h

theorem stop_sized (h : headerLength ≤ size) : (sized address size free).stop = address + size :=
  congrArg (address + ·) (size_sized h)

end Sized

/-- The header of `b` is in the image, which goes on to the end of `b` at least. -/
structure Stands (image : Bytes) (b : Block) : Prop where
  header : image.Holds b.address (encodeHeader b.size b.free)
  size : b.size < freeBit
  stop : b.stop ≤ image.size

/-- No block begins at `address`. -/
def Ends (image : Bytes) (address : Nat) : Prop :=
  ¬ ∃ b, b.address = address ∧ Stands image b

/-- The two bytes of a header as a number. -/
theorem Stands.word (h : Stands image b) :
    Word.value (image.get b.address) (image.get (b.address + 1)) =
      b.size + if b.free then freeBit else 0 := by
  have hheader := h.header
  have hsize := h.size
  rw [encodeHeader, Nat.mod_eq_of_lt hsize] at hheader
  refine hheader.word ?_
  rw [freeBit] at hsize ⊢
  split <;> omega

/-- Any two bytes are a header, if the size in them makes sense. -/
theorem stands_of_word {address word : Nat} (hfits : address + headerLength ≤ image.size)
    (hword : Word.value (image.get address) (image.get (address + 1)) = word)
    (hmin : headerLength ≤ word % freeBit) (hmax : address + word % freeBit ≤ image.size) :
    Stands image (sized address (word % freeBit) (freeBit ≤ word)) := by
  have hheld := Bytes.holds_value hfits
  have hlt := Word.value_lt (image.get address) (image.get (address + 1))
  rw [hword] at hheld hlt
  have hsize : word % freeBit < freeBit := Nat.mod_lt _ (by decide)
  have hsplit : (word % freeBit + if freeBit ≤ word then freeBit else 0) = word := by
    rw [freeBit] at *
    split <;> omega
  refine ⟨?_, ?_, ?_⟩
  · simp only [address_sized, free_sized, size_sized hmin, encodeHeader, Nat.mod_mod,
      decide_eq_true_eq, hsplit]
    exact hheld
  · rwa [size_sized hmin]
  · rwa [stop_sized hmin]

/-- Only the bytes of its header make a block. -/
theorem Stands.of_sameOn (h : Stands image b) (hsize : image'.size = image.size)
    (hsame : image.SameOn image' b.address (b.address + headerLength)) : Stands image' b where
  header := h.header.of_sameOn hsize hsame (Nat.le_refl _) (Nat.le_refl _)
  size := h.size
  stop := hsize ▸ h.stop

theorem Ends.of_sameOn {address : Nat} (h : Ends image address) (hsize : image'.size = image.size)
    (hsame : image.SameOn image' address image.size) : Ends image' address := by
  rintro ⟨b, rfl, hstands⟩
  refine h ⟨b, rfl, hstands.of_sameOn hsize.symm (hsame.symm.mono (Nat.le_refl _) ?_)⟩
  have hstop := hstands.stop
  rw [Block.stop, Block.size, hsize] at hstop
  omega

/-- Writing a header makes a block. -/
theorem stands_write {address size : Nat} {free : Bool} (hmin : headerLength ≤ size)
    (hmax : size < freeBit) (hstop : address + size ≤ image.size) :
    Stands (image.write address (encodeHeader size free)) (sized address size free) := by
  refine ⟨?_, ?_, ?_⟩
  · rw [size_sized hmin]
    exact Bytes.holds_write (Nat.le_trans (Nat.add_le_add_left hmin _) hstop)
  · rwa [size_sized hmin]
  · rwa [stop_sized hmin, Bytes.size_write]

/-! ### Tilings -/

/-- The blocks lie one behind the other from `low` to `high`. -/
def Tiles (image : Bytes) : (low : Nat) → List Block → (high : Nat) → Prop
  | low, [], high => low = high
  | low, b :: rest, high => b.address = low ∧ Stands image b ∧ Tiles image b.stop rest high

theorem tiles_append :
    Tiles image low (bs ++ cs) high ↔
      ∃ middle, Tiles image low bs middle ∧ Tiles image middle cs high := by
  induction bs generalizing low with
  | nil =>
      constructor
      · exact fun h => ⟨low, rfl, h⟩
      · rintro ⟨_, rfl, h⟩
        exact h
  | cons b rest ih =>
      rw [List.cons_append]
      constructor
      · rintro ⟨haddress, hstands, h⟩
        obtain ⟨middle, hrest, h⟩ := ih.1 h
        exact ⟨middle, ⟨haddress, hstands, hrest⟩, h⟩
      · rintro ⟨middle, ⟨haddress, hstands, hrest⟩, h⟩
        exact ⟨haddress, hstands, ih.2 ⟨middle, hrest, h⟩⟩

theorem Tiles.le (h : Tiles image low bs high) : low ≤ high := by
  induction bs generalizing low with
  | nil => exact Nat.le_of_eq h
  | cons b rest ih =>
      obtain ⟨rfl, -, hrest⟩ := h
      exact Nat.le_trans (Nat.le_add_right ..) (ih hrest)

/-- Each block of a tiling is between its ends. -/
theorem Tiles.mem (h : Tiles image low bs high) (hb : b ∈ bs) :
    low ≤ b.address ∧ b.stop ≤ high ∧ Stands image b := by
  induction bs generalizing low with
  | nil => contradiction
  | cons c rest ih =>
      obtain ⟨rfl, hstands, hrest⟩ := h
      rcases List.mem_cons.1 hb with rfl | hb
      · exact ⟨Nat.le_refl _, hrest.le, hstands⟩
      · obtain ⟨hlow, hhigh, hstands⟩ := ih hrest hb
        exact ⟨Nat.le_trans (Nat.le_add_right ..) hlow, hhigh, hstands⟩

theorem Tiles.le_size (h : Tiles image low bs high) (hlow : low ≤ image.size) :
    high ≤ image.size := by
  induction bs generalizing low with
  | nil => exact h ▸ hlow
  | cons b rest ih => exact ih h.2.2 h.2.1.stop

theorem Tiles.of_sameOn (h : Tiles image low bs high) (hsize : image'.size = image.size)
    (hsame : image.SameOn image' low high) : Tiles image' low bs high := by
  induction bs generalizing low with
  | nil => exact h
  | cons b rest ih =>
      obtain ⟨rfl, hstands, hrest⟩ := h
      have hhigh := hrest.le
      rw [Block.stop, Block.size] at hhigh
      refine ⟨rfl, hstands.of_sameOn hsize (hsame.mono (Nat.le_refl _) (by omega)), ?_⟩
      exact ih hrest (hsame.mono (Nat.le_add_right ..) (Nat.le_refl _))

/-- The data of a block may be anything. -/
theorem Tiles.write_data {bytes : List UInt8} (h : Tiles image low bs high) (hb : b ∈ bs)
    (hroom : bytes.length ≤ b.capacity) : Tiles (image.write b.data bytes) low bs high := by
  have hend : b.data + bytes.length ≤ b.stop := by
    rw [Block.data, Block.stop, Block.size]
    omega
  induction bs generalizing low with
  | nil => contradiction
  | cons c rest ih =>
      obtain ⟨rfl, hstands, hrest⟩ := h
      rcases List.mem_cons.1 hb with rfl | hb
      · refine ⟨rfl, hstands.of_sameOn (Bytes.size_write ..) ?_, ?_⟩
        · exact Bytes.sameOn_write (.inl (Nat.le_refl _))
        · exact hrest.of_sameOn (Bytes.size_write ..) (Bytes.sameOn_write (.inr hend))
      · have hbefore : c.address + headerLength ≤ b.data := by
          have hlow := (hrest.mem hb).1
          rw [Block.stop, Block.size] at hlow
          rw [Block.data]
          omega
        exact ⟨rfl, hstands.of_sameOn (Bytes.size_write ..) (Bytes.sameOn_write (.inl hbefore)),
          ih hrest hb⟩

/-! ### The scan -/

theorem blocksFrom_cons (h : Stands image b) (fuel : Nat) :
    blocksFrom image (fuel + 1) b.address = b :: blocksFrom image fuel b.stop := by
  have hword := h.word
  have hsize := h.size
  have hstop := h.stop
  obtain ⟨address, capacity, free⟩ := b
  simp only [Block.stop, Block.size] at hword hsize hstop ⊢
  have hmod : (capacity + headerLength + if free = true then freeBit else 0) % freeBit =
      capacity + headerLength := by
    rw [freeBit] at hsize ⊢
    split <;> omega
  have hfree : decide (freeBit ≤ capacity + headerLength + if free = true then freeBit else 0) =
      free := by
    rw [freeBit] at hsize ⊢
    cases free with
    | true => exact decide_eq_true (Nat.le_add_left ..)
    | false => exact decide_eq_false (by simpa using hsize)
  rw [blocksFrom, hword, if_neg (by omega)]
  dsimp only
  rw [hmod, if_neg (by omega), Nat.add_sub_cancel, hfree]

theorem blocksFrom_nil (h : Ends image low) (fuel : Nat) : blocksFrom image fuel low = [] := by
  cases fuel with
  | zero => rfl
  | succ fuel =>
      rw [blocksFrom]
      split
      · rfl
      · dsimp only
        split
        · rfl
        · exact (h ⟨_, rfl, stands_of_word (by omega) rfl (by omega) (by omega)⟩).elim

/-- The blocks that a scan finds tile the image up to where no block begins. -/
theorem exists_tiles_from {fuel : Nat} (hfuel : image.size ≤ low + fuel) :
    ∃ high, Tiles image low (blocksFrom image fuel low) high ∧ Ends image high := by
  induction fuel generalizing low with
  | zero =>
      refine ⟨low, rfl, ?_⟩
      rintro ⟨b, rfl, hstands⟩
      have hstop := hstands.stop
      rw [Block.stop, Block.size, headerLength] at hstop
      omega
  | succ fuel ih =>
      by_cases h : ∃ b, b.address = low ∧ Stands image b
      · obtain ⟨b, rfl, hstands⟩ := h
        have hless : image.size ≤ b.stop + fuel := by
          rw [Block.stop, Block.size, headerLength]
          omega
        obtain ⟨high, htiles, hends⟩ := ih hless
        rw [blocksFrom_cons hstands]
        exact ⟨high, ⟨rfl, hstands, htiles⟩, hends⟩
      · rw [blocksFrom_nil h]
        exact ⟨low, rfl, h⟩

/-- There is no other way to tile it. -/
theorem blocksFrom_eq {fuel : Nat} (h : Tiles image low bs high) (hends : Ends image high)
    (hfuel : image.size ≤ low + fuel) : blocksFrom image fuel low = bs := by
  induction bs generalizing low fuel with
  | nil =>
      obtain rfl : low = high := h
      exact blocksFrom_nil hends fuel
  | cons b rest ih =>
      obtain ⟨rfl, hstands, hrest⟩ := h
      have hstop := hstands.stop
      rw [Block.stop, Block.size, headerLength] at hstop
      -- A block has two bytes at least, so the fuel lasts as long as the image.
      obtain ⟨fuel, rfl⟩ : ∃ n, fuel = n + 1 := ⟨fuel - 1, by omega⟩
      rw [blocksFrom_cons hstands, ih hrest]
      rw [Block.stop, Block.size, headerLength]
      omega

theorem exists_tiles (s : Store) :
    ∃ high, Tiles s.image firstBlock s.blocks high ∧ Ends s.image high :=
  exists_tiles_from (Nat.le_add_left ..)

theorem blocks_eq (h : Tiles s.image firstBlock bs high) (hends : Ends s.image high) :
    s.blocks = bs :=
  blocksFrom_eq h hends (Nat.le_add_left ..)

theorem stands_of_mem (h : b ∈ s.blocks) : firstBlock ≤ b.address ∧ Stands s.image b := by
  obtain ⟨high, htiles, -⟩ := s.exists_tiles
  obtain ⟨hlow, -, hstands⟩ := htiles.mem h
  exact ⟨hlow, hstands⟩

/-! ### Other blocks in the place of some -/

/-- The store `s'` has the blocks `new` from `start` to `stop`, where `s` has `old`. In all else the
two are the same. -/
structure Recut (s s' : Store) (start stop : Nat) (old new : List Block) : Prop where
  size : s'.image.size = s.image.size
  first : firstBlock ≤ start
  below : s.image.SameOn s'.image 0 start
  above : s.image.SameOn s'.image stop s.image.size
  blocks : ∃ pre post, s.blocks = pre ++ (old ++ post) ∧ s'.blocks = pre ++ (new ++ post) ∧
    (∀ b ∈ pre, b.stop ≤ start) ∧ ∀ b ∈ post, stop ≤ b.address

/-- Blocks that are found one behind the other tile a part of the image. -/
theorem tiles_split (h : s.blocks = pre ++ (old ++ post)) :
    ∃ start stop high, Tiles s.image firstBlock pre start ∧ Tiles s.image start old stop ∧
      Tiles s.image stop post high ∧ Ends s.image high := by
  obtain ⟨high, htiles, hends⟩ := s.exists_tiles
  rw [h] at htiles
  obtain ⟨start, hpre, hrest⟩ := tiles_append.1 htiles
  obtain ⟨stop, hold, hpost⟩ := tiles_append.1 hrest
  exact ⟨start, stop, high, hpre, hold, hpost, hends⟩

theorem recut_of_tiles (hblocks : s.blocks = pre ++ (old ++ post))
    (hpre : Tiles s.image firstBlock pre start) (hpost : Tiles s.image stop post high)
    (hends : Ends s.image high) (hnew : Tiles s'.image start new stop)
    (hsize : s'.image.size = s.image.size) (hbelow : s.image.SameOn s'.image 0 start)
    (habove : s.image.SameOn s'.image stop s.image.size) (hstop : stop ≤ s.image.size) :
    Recut s s' start stop old new where
  size := hsize
  first := hpre.le
  below := hbelow
  above := habove
  blocks := by
    have hpre' := hpre.of_sameOn hsize (hbelow.mono (Nat.zero_le _) (Nat.le_refl _))
    have hpost' := hpost.of_sameOn hsize
      (habove.mono (Nat.le_refl _) (hpost.le_size hstop))
    have hends' := hends.of_sameOn hsize (habove.mono hpost.le (Nat.le_refl _))
    refine ⟨pre, post, hblocks, ?_, fun b hb => (hpre.mem hb).2.1, fun b hb => (hpost.mem hb).1⟩
    exact blocks_eq (tiles_append.2 ⟨start, hpre', tiles_append.2 ⟨stop, hnew, hpost'⟩⟩) hends'

/-- What is outside of the change has the same bytes. -/
theorem Recut.sameOn (h : Recut s s' start stop old new) (hlow : high ≤ start ∨ stop ≤ low)
    (hhigh : high ≤ s.image.size) : s.image.SameOn s'.image low high := by
  rcases hlow with hbefore | hafter
  · exact h.below.mono (Nat.zero_le _) hbefore
  · exact h.above.mono hafter hhigh

/-- The other blocks stay, with all their bytes. -/
theorem Recut.mem (h : Recut s s' start stop old new) (hb : b ∈ s.blocks) (hold : b ∉ old) :
    b ∈ s'.blocks ∧ s.image.SameOn s'.image b.address b.stop := by
  have hstop := (stands_of_mem hb).2.stop
  obtain ⟨pre, post, hblocks, hblocks', hpre, hpost⟩ := h.blocks
  rw [hblocks, List.mem_append, List.mem_append] at hb
  rw [hblocks', List.mem_append, List.mem_append]
  rcases hb with hb | hb | hb
  · exact ⟨.inl hb, h.sameOn (.inl (hpre b hb)) hstop⟩
  · exact (hold hb).elim
  · exact ⟨.inr (.inr hb), h.sameOn (.inr (hpost b hb)) hstop⟩

/-! ### Saving -/

theorem mem_of_smallest (h : smallest bs = some b) : b ∈ bs := by
  induction bs with
  | nil => contradiction
  | cons c rest ih =>
      rw [smallest] at h
      split at h
      · injection h with h
        exact h ▸ List.mem_cons_self ..
      · rename_i d hd
        split at h
        · injection h with h
          exact h ▸ List.mem_cons_self ..
        · injection h with h
          exact List.mem_cons_of_mem _ (ih (hd.trans (congrArg some h)))

theorem eq_nil_of_smallest (h : smallest bs = none) : bs = [] := by
  cases bs with
  | nil => rfl
  | cons c rest =>
      rw [smallest] at h
      repeat' split at h
      all_goals contradiction

/-- The blocks that a free block becomes when `need` bytes of it are taken. -/
def cut (b : Block) (need : Nat) : List Block :=
  if minSplit ≤ b.size - need then
    [sized b.address need false, sized (b.address + need) (b.size - need) true]
  else [sized b.address b.size false]

/-- The block that is taken is the first, and has room for what was asked for. -/
theorem mem_cut {count : Nat} (h : sizeFor count ≤ b.size) :
    ∃ taken ∈ cut b (sizeFor count),
      taken.address = b.address ∧ taken.free = false ∧ count ≤ taken.capacity := by
  rw [cut]
  split
  · refine ⟨_, List.mem_cons_self .., rfl, rfl, ?_⟩
    rw [sized, sizeFor, Nat.add_sub_cancel]
    exact Nat.le_add_right ..
  · refine ⟨_, List.mem_cons_self .., rfl, rfl, Nat.le_sub_of_add_le (Nat.le_trans ?_ h)⟩
    exact Nat.add_le_add_right (Nat.le_add_right ..) _

/-- Carving puts the blocks there. -/
theorem tiles_carve {need : Nat} (hb : Stands s.image b) (hmin : headerLength ≤ need)
    (hneed : need ≤ b.size) : Tiles (s.carve b need).image b.address (cut b need) b.stop := by
  have hsize := hb.size
  have hstop := hb.stop
  rw [Block.stop] at hstop ⊢
  rw [carve, cut]
  split
  · rename_i hsplit
    have hrest : headerLength ≤ b.size - need := Nat.le_trans (by decide) hsplit
    have htaken : Stands (s.withHeader b.address need false).image (sized b.address need false) :=
      stands_write hmin (Nat.lt_of_le_of_lt hneed hsize) (by omega)
    refine ⟨rfl, htaken.of_sameOn (Bytes.size_write ..) (Bytes.sameOn_write (.inl ?_)), ?_, ?_, ?_⟩
    · exact Nat.add_le_add_left hmin _
    · rw [stop_sized hmin, address_sized]
    · refine stands_write hrest (Nat.lt_of_le_of_lt (Nat.sub_le ..) hsize) ?_
      rw [withHeader, Bytes.size_write]
      omega
    · rw [Tiles, stop_sized hrest]
      omega
  · have hwhole : headerLength ≤ b.size := Nat.le_trans hmin hneed
    exact ⟨rfl, stands_write hwhole hsize hstop, stop_sized hwhole⟩

/-- What carving does is inside of the block. -/
theorem sameOn_carve {need : Nat} (hmin : headerLength ≤ need) (hneed : need ≤ b.size)
    (hlow : high ≤ b.address ∨ b.stop ≤ low) :
    s.image.SameOn (s.carve b need).image low high := by
  rw [Block.stop] at hlow
  have hlength : ∀ size free, (encodeHeader size free).length = headerLength := fun _ _ => rfl
  rw [carve]
  split
  · rename_i hsplit
    rw [minSplit] at hsplit
    refine (Bytes.sameOn_write ?_).trans (Bytes.sameOn_write ?_)
    · rw [hlength]
      omega
    · rw [hlength, headerLength]
      omega
  · refine Bytes.sameOn_write ?_
    rw [hlength]
    omega

theorem size_carve (s : Store) (b : Block) (need : Nat) :
    (s.carve b need).image.size = s.image.size := by
  rw [carve]
  split <;> simp only [withHeader, Bytes.size_write]

/-- Saving is refused and changes nothing, or takes the first bytes of a free block and puts the data
there. -/
theorem save_cases (s : Store) (bytes : List UInt8) :
    (∃ e, save bytes s = .error e s) ∨
      ∃ b s', b ∈ s.blocks ∧ b.free = true ∧ sizeFor bytes.length ≤ b.size ∧
        save bytes s = .ok b.address s' ∧
        Recut s s' b.address b.stop [b] (cut b (sizeFor bytes.length)) ∧
        s'.image.Holds b.data bytes := by
  rw [save]
  split
  · exact .inl ⟨_, rfl⟩
  · split
    · exact .inl ⟨_, rfl⟩
    · rename_i b hsmallest
      have hfound := mem_of_smallest hsmallest
      rw [List.mem_filter, Bool.and_eq_true, decide_eq_true_iff] at hfound
      obtain ⟨hb, hfree, hneed⟩ := hfound
      have hstands := (stands_of_mem hb).2
      have hmin : headerLength ≤ sizeFor bytes.length := Nat.le_add_left ..
      have hroom : b.data + bytes.length ≤ b.address + sizeFor bytes.length := by
        rw [Block.data, sizeFor]
        omega
      have hend : b.address + sizeFor bytes.length ≤ b.stop := Nat.add_le_add_left hneed _
      have hsize := s.size_carve b (sizeFor bytes.length)
      refine .inr ⟨b, _, hb, hfree, hneed, rfl, ?_, ?_⟩
      · obtain ⟨pre, post, hblocks⟩ := List.mem_iff_append.1 hb
        have hblocks : s.blocks = pre ++ ([b] ++ post) := hblocks
        obtain ⟨start, stop, high, hpre, hold, hpost, hends⟩ := tiles_split hblocks
        obtain ⟨rfl, -, rfl⟩ : b.address = start ∧ _ ∧ b.stop = stop := hold
        have hcut := tiles_carve hstands hmin hneed
        -- The data are written after the headers, but stay clear of both.
        refine recut_of_tiles hblocks hpre hpost hends ?_ ?_ ?_ ?_ hstands.stop
        · obtain ⟨taken, htaken, haddress, -, hcapacity⟩ := mem_cut hneed
          have hdata : taken.data = b.data := congrArg (· + headerLength) haddress
          exact hdata ▸ hcut.write_data htaken hcapacity
        · rw [Bytes.size_write, hsize]
        · exact (sameOn_carve hmin hneed (.inl (Nat.le_refl _))).trans
            (Bytes.sameOn_write (.inl (Nat.le_add_right ..)))
        · exact (sameOn_carve hmin hneed (.inr (Nat.le_refl _))).trans
            (Bytes.sameOn_write (.inr (Nat.le_trans hroom hend)))
      · refine Bytes.holds_write ?_
        rw [hsize]
        exact Nat.le_trans (Nat.le_trans hroom hend) hstands.stop

/-- A save that is refused changes nothing. -/
theorem eq_of_save_error {bytes : List UInt8} {e : StoreError} (h : save bytes s = .error e s') :
    s' = s := by
  rcases s.save_cases bytes with ⟨_, herror⟩ | ⟨_, _, -, -, -, hok, -⟩
  · cases herror.symm.trans h
    rfl
  · cases hok.symm.trans h

/-! ### Freeing -/

theorem find_eq_error {address : Nat} {e : StoreError} (h : s.find address = .error e) :
    e = .badAddress address ∧ ∀ b ∈ s.blocks, b.address = address → b.free = true := by
  rw [find] at h
  split at h
  · contradiction
  · rename_i hnone
    injection h with h
    refine ⟨h.symm, fun b hb haddress => ?_⟩
    simpa [haddress] using List.find?_eq_none.1 hnone b hb

theorem find_eq_ok {address : Nat} (h : s.find address = .ok b) :
    b ∈ s.blocks ∧ b.address = address ∧ b.free = false := by
  rw [find] at h
  split at h
  · rename_i hsome
    injection h with h
    subst h
    have hfound := List.find?_some hsome
    rw [Bool.and_eq_true, beq_iff_eq, Bool.not_eq_true'] at hfound
    exact ⟨List.mem_of_find?_eq_some hsome, hfound⟩
  · contradiction

/-- The block that is looked for before another is the one found before it. -/
theorem freeBefore_eq (hblocks : s.blocks = pre ++ (b :: post)) :
    s.freeBefore b.address = pre.getLast?.filter (·.free) := by
  have hsplit : s.blocks = pre ++ ([b] ++ post) := hblocks
  obtain ⟨start, stop, high, hpre, ⟨haddress, -⟩, -, -⟩ := tiles_split hsplit
  have hother : ∀ c ∈ pre, (c.address != b.address) = true := by
    intro c hc
    have hstop := (hpre.mem hc).2.1
    rw [Block.stop, Block.size, headerLength] at hstop
    rw [bne_iff_ne]
    omega
  rw [freeBefore, hblocks, List.takeWhile_append_of_pos hother,
    List.takeWhile_cons_of_neg (by simp), List.append_nil]

/-- The block that is looked for behind another is the one found behind it. -/
theorem freeAt_eq (hblocks : s.blocks = pre ++ (b :: post)) :
    s.freeAt b.stop = post.head?.filter (·.free) := by
  have hsplit : s.blocks = pre ++ ([b] ++ post) := hblocks
  obtain ⟨start, stop, high, hpre, ⟨haddress, -, hstop⟩, hpost, -⟩ := tiles_split hsplit
  have hself : b.address < b.stop := by
    rw [Block.stop, Block.size, headerLength]
    omega
  have hother : pre.find? (fun c => c.address == b.stop) = none := by
    refine List.find?_eq_none.2 fun c hc => ?_
    have hend := (hpre.mem hc).2.1
    rw [Block.stop, Block.size, headerLength] at hend
    rw [beq_iff_eq]
    omega
  rw [freeAt, hblocks, List.find?_append, hother, Option.none_or,
    List.find?_cons_of_neg (by rw [beq_iff_eq]; omega)]
  cases post with
  | nil => rfl
  | cons c rest =>
      have hnext : c.address = b.stop := hpost.1.trans (Eq.symm hstop)
      rw [List.find?_cons_of_pos (by rw [beq_iff_eq]; exact hnext)]
      rfl

/-- Where a block, if there is one, begins and ends. -/
theorem ends_of_toList {found : Option Block} (h : Tiles image low found.toList high) :
    (found.map (·.address)).getD high = low ∧ high = low + (found.map (·.size)).getD 0 := by
  cases found with
  | none => exact ⟨h.symm, h.symm⟩
  | some c =>
      obtain ⟨rfl, -, hstop⟩ := h
      exact ⟨rfl, hstop.symm⟩

theorem exists_append_getLast (bs : List Block) (p : Block → Bool) :
    ∃ rest, bs = rest ++ (bs.getLast?.filter p).toList := by
  rcases List.eq_nil_or_concat bs with rfl | ⟨rest, b, rfl⟩
  · exact ⟨[], rfl⟩
  · rw [List.concat_eq_append, List.getLast?_concat, Option.filter_some]
    split
    · exact ⟨rest, rfl⟩
    · exact ⟨rest ++ [b], (List.append_nil _).symm⟩

theorem exists_head_append (bs : List Block) (p : Block → Bool) :
    ∃ rest, bs = (bs.head?.filter p).toList ++ rest := by
  cases bs with
  | nil => exact ⟨[], rfl⟩
  | cons b rest =>
      rw [List.head?_cons, Option.filter_some]
      split
      · exact ⟨rest, rfl⟩
      · exact ⟨b :: rest, rfl⟩

/-- One header makes one block of neighbouring ones. -/
theorem recut_withHeader (hsize : s.image.size ≤ maxSize) (hblocks : s.blocks = pre ++ (old ++ post))
    (hsome : b ∈ old) : ∃ start stop, Tiles s.image start old stop ∧
      ∀ free, Recut s (s.withHeader start (stop - start) free) start stop old
        [sized start (stop - start) free] := by
  obtain ⟨start, stop, high, hpre, hold, hpost, hends⟩ := tiles_split hblocks
  obtain ⟨hlow, hhigh, hstands⟩ := hold.mem hsome
  have hfirst := hpre.le
  have hstop := hold.le_size (Nat.le_trans hlow (Nat.le_trans (Nat.le_add_right ..) hstands.stop))
  rw [Block.stop, Block.size] at hhigh
  have hmin : headerLength ≤ stop - start := by omega
  have hmax : stop - start < freeBit := by
    rw [firstBlock] at hfirst
    rw [maxSize] at hsize
    rw [freeBit]
    omega
  refine ⟨start, stop, hold, fun free => ?_⟩
  refine recut_of_tiles hblocks hpre hpost hends ⟨rfl, stands_write hmin hmax ?_, ?_⟩
    (Bytes.size_write ..) (Bytes.sameOn_write (.inl (Nat.le_refl _)))
    (Bytes.sameOn_write (.inr ?_)) hstop
  · omega
  · rw [Tiles, stop_sized hmin]
    omega
  · show start + headerLength ≤ stop
    omega

theorem free_of_mem_freeBefore {address : Nat} (h : b ∈ s.freeBefore address) : b.free = true :=
  (Option.filter_eq_some_iff.1 h).2

theorem free_of_mem_freeAt {address : Nat} (h : b ∈ s.freeAt address) : b.free = true :=
  (Option.filter_eq_some_iff.1 h).2

/-- Freeing is refused and changes nothing where no block is allocated, or makes one free block of an
allocated one and of its free neighbours. -/
theorem free_cases (hsize : s.image.size ≤ maxSize) (address : Nat) :
    (free address s = .error (.badAddress address) s ∧
        ∀ b ∈ s.blocks, b.address = address → b.free = true) ∨
      ∃ (b : Block) (old : List Block) (s' : Store) (start stop : Nat),
        b ∈ s.blocks ∧ b.address = address ∧ b.free = false ∧
        old = (s.freeBefore b.address).toList ++ b :: (s.freeAt b.stop).toList ∧
        Tiles s.image start old stop ∧ free address s = .ok () s' ∧
        Recut s s' start stop old [sized start (stop - start) true] := by
  cases hfind : s.find address with
  | error e =>
      obtain ⟨rfl, hnone⟩ := find_eq_error hfind
      exact .inl ⟨by rw [free, hfind], hnone⟩
  | ok b =>
      obtain ⟨hb, haddress, hallocated⟩ := find_eq_ok hfind
      obtain ⟨pre, post, hblocks⟩ := List.mem_iff_append.1 hb
      have hbefore := freeBefore_eq hblocks
      have hafter := freeAt_eq hblocks
      -- The free neighbours, where there are any, are cut off from what is before and behind.
      obtain ⟨pre', hpre⟩ := exists_append_getLast pre (·.free)
      obtain ⟨post', hpost⟩ := exists_head_append post (·.free)
      rw [← hbefore] at hpre
      rw [← hafter] at hpost
      have hsplit : s.blocks = pre' ++
          ((s.freeBefore b.address).toList ++ b :: (s.freeAt b.stop).toList ++ post') := by
        rw [hblocks, hpre, hpost]
        simp only [List.append_assoc, List.cons_append]
      obtain ⟨start, stop, htiles, hrecut⟩ :=
        recut_withHeader hsize hsplit (List.mem_append_right _ (List.mem_cons_self ..))
      obtain ⟨middle, hleft, rfl, -, hright⟩ := tiles_append.1 htiles
      obtain ⟨hstart, hlength⟩ := ends_of_toList hleft
      obtain ⟨-, hlength'⟩ := ends_of_toList hright
      have hwhole : ((s.freeBefore b.address).map (·.size)).getD 0 + b.size +
          ((s.freeAt b.stop).map (·.size)).getD 0 = stop - start := by
        have hstop : b.stop = b.address + b.size := rfl
        omega
      refine .inr ⟨b, _, s.withHeader start (stop - start) true, start, stop, hb, haddress,
        hallocated, rfl, htiles, ?_, hrecut true⟩
      rw [free, hfind]
      dsimp only
      rw [hwhole, hstart]

end Store

end FlatLisp
