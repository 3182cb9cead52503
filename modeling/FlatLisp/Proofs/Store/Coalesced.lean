/-
Module: FlatLisp.Proofs.Store.Coalesced
Purpose: Stores whose blocks fill the image to its end, all of even size and no two free ones beside
  each other. Saving, freeing and formatting keep them so. In such a store a free block reaches as far
  as it can, so data are saved wherever there is room, and freeing everything leaves one block.
Main exports: Store.Coalesced, Store.Coalesced.after_save, Store.Coalesced.after_free,
  Store.coalesced_format, Store.Vacancy, Store.Coalesced.save_iff, Store.Coalesced.free_all
-/
import Mathlib.Data.List.Chain
import FlatLisp.Proofs.Store.Traffic

namespace FlatLisp

namespace Store

open Block (headerLength freeBit)

variable {image : Bytes} {low high start stop i : Nat} {b c : Block} {bs old new pre post : List Block}
  {s s' : Store} {address : Nat} {bytes : List UInt8}

/-! ### Sizes -/

/-- The bytes of some blocks together, their headers included. -/
def total : List Block → Nat
  | [] => 0
  | b :: rest => b.size + total rest

@[simp] theorem total_nil : total [] = 0 := rfl

@[simp] theorem total_cons (b : Block) (bs : List Block) : total (b :: bs) = b.size + total bs := rfl

@[simp] theorem total_append (bs cs : List Block) : total (bs ++ cs) = total bs + total cs := by
  induction bs with
  | nil => rw [List.nil_append, total_nil, Nat.zero_add]
  | cons b rest ih => rw [List.cons_append, total_cons, total_cons, ih, Nat.add_assoc]

theorem total_even (h : ∀ b ∈ bs, b.size % 2 = 0) : total bs % 2 = 0 := by
  induction bs with
  | nil => rfl
  | cons b rest ih =>
      have hb := h b (.head _)
      have hrest := ih fun c hc => h c (.tail _ hc)
      rw [total_cons]
      omega

theorem Tiles.stop_eq (h : Tiles image low bs high) : high = low + total bs := by
  induction bs generalizing low with
  | nil => exact Eq.symm h
  | cons b rest ih =>
      obtain ⟨rfl, -, hrest⟩ := h
      rw [ih hrest, total_cons, Block.stop, Nat.add_assoc]

/-- No block begins at the end of an image. -/
theorem ends_size (image : Bytes) : Ends image image.size := by
  rintro ⟨b, haddress, hstands⟩
  have hstop := hstands.stop
  rw [Block.stop, Block.size, headerLength, haddress] at hstop
  omega

/-- Blocks that are as large together as the image is behind its magic word fill it. -/
theorem filled_of_total (h : firstBlock + total s.blocks = s.image.size) :
    Tiles s.image firstBlock s.blocks s.image.size := by
  obtain ⟨high, htiles, -⟩ := s.exists_tiles
  rwa [htiles.stop_eq, h] at htiles

/-- As many bytes are asked for as make an even number. -/
theorem sizeFor_even (count : Nat) : sizeFor count % 2 = 0 := by
  rw [sizeFor, headerLength]
  omega

/-! ### Places -/

/-- The byte at `i` belongs to the block. -/
def Covers (b : Block) (i : Nat) : Prop := b.address ≤ i ∧ i < b.stop

theorem covers_address (b : Block) : Covers b b.address := by
  rw [Covers, Block.stop, Block.size, headerLength]
  omega

theorem covers_last (b : Block) : Covers b (b.stop - 1) := by
  rw [Covers, Block.stop, Block.size, headerLength]
  omega

/-- Each byte of a tiled part belongs to a block. -/
theorem Tiles.exists_covers (h : Tiles image low bs high) (hlow : low ≤ i) (hhigh : i < high) :
    ∃ b ∈ bs, Covers b i := by
  induction bs generalizing low with
  | nil =>
      obtain rfl : low = high := h
      omega
  | cons b rest ih =>
      obtain ⟨rfl, -, hrest⟩ := h
      rcases Nat.lt_or_ge i b.stop with hlt | hge
      · exact ⟨b, .head _, hlow, hlt⟩
      · obtain ⟨c, hc, hcovers⟩ := ih hrest hge
        exact ⟨c, .tail _ hc, hcovers⟩

/-- No byte belongs to two blocks. -/
theorem Tiles.eq_of_covers (h : Tiles image low bs high) (hb : b ∈ bs) (hc : c ∈ bs)
    (hbyte : Covers b i) (hbyte' : Covers c i) : b = c := by
  induction bs generalizing low with
  | nil => contradiction
  | cons d rest ih =>
      obtain ⟨rfl, -, hrest⟩ := h
      have hafter : ∀ e ∈ rest, Covers e i → ¬ Covers d i := by
        intro e he hcovers hcovers'
        exact absurd (Nat.le_trans (hrest.mem he).1 hcovers.1) (Nat.not_le_of_lt hcovers'.2)
      rcases List.mem_cons.1 hb with hself | hb <;> rcases List.mem_cons.1 hc with hself' | hc
      · exact hself.trans hself'.symm
      · exact absurd (hself ▸ hbyte) (hafter c hc hbyte')
      · exact absurd (hself' ▸ hbyte') (hafter b hb hbyte)
      · exact ih hrest hb hc

theorem eq_of_covers (hb : b ∈ s.blocks) (hc : c ∈ s.blocks) (hbyte : Covers b i)
    (hbyte' : Covers c i) : b = c := by
  obtain ⟨high, htiles, -⟩ := s.exists_tiles
  exact htiles.eq_of_covers hb hc hbyte hbyte'

/-- An address identifies its block. -/
theorem eq_of_address (hb : b ∈ s.blocks) (hc : c ∈ s.blocks) (h : b.address = c.address) : b = c :=
  eq_of_covers hb hc (covers_address b) (h ▸ covers_address c)

/-! ### Allocated blocks -/

/-- The addresses of the allocated ones among some blocks. -/
def allocated (bs : List Block) : List Nat := (bs.filter (!·.free)).map (·.address)

@[simp] theorem allocated_append (bs cs : List Block) :
    allocated (bs ++ cs) = allocated bs ++ allocated cs := by
  simp [allocated]

theorem mem_allocated : address ∈ allocated bs ↔ ∃ b ∈ bs, b.address = address ∧ b.free = false := by
  simp only [allocated, List.mem_map, List.mem_filter, Bool.not_eq_true']
  constructor
  · rintro ⟨b, ⟨hb, hallocated⟩, haddress⟩
    exact ⟨b, hb, haddress, hallocated⟩
  · rintro ⟨b, hb, haddress, hallocated⟩
    exact ⟨b, ⟨hb, hallocated⟩, haddress⟩

theorem Tiles.nodup (h : Tiles image low bs high) : (bs.map (·.address)).Nodup := by
  induction bs generalizing low with
  | nil => exact .nil
  | cons b rest ih =>
      obtain ⟨rfl, -, hrest⟩ := h
      refine List.nodup_cons.2 ⟨fun hmem => ?_, ih hrest⟩
      obtain ⟨c, hc, haddress⟩ := List.mem_map.1 hmem
      have hbehind := (hrest.mem hc).1
      rw [haddress] at hbehind
      exact absurd (covers_address b).2 (Nat.not_lt_of_le hbehind)

theorem nodup_allocated (s : Store) : (allocated s.blocks).Nodup := by
  obtain ⟨high, htiles, -⟩ := s.exists_tiles
  exact htiles.nodup.sublist (List.filter_sublist.map _)

theorem allocated_of_free (h : ∀ b ∈ bs, b.free = true) : allocated bs = [] := by
  rw [allocated, List.map_eq_nil_iff, List.filter_eq_nil_iff]
  intro b hb
  simp [h b hb]

/-- Other blocks in the place of some bring their addresses with them. -/
theorem Recut.allocated (h : Recut s s' start stop old new) :
    ∃ xs, (allocated s.blocks).Perm (allocated old ++ xs) ∧
      (allocated s'.blocks).Perm (allocated new ++ xs) := by
  obtain ⟨pre, post, hblocks, hblocks', -⟩ := h.blocks
  refine ⟨Store.allocated pre ++ Store.allocated post, ?_, ?_⟩
  · rw [hblocks, allocated_append, allocated_append]
    exact List.perm_append_comm_assoc ..
  · rw [hblocks', allocated_append, allocated_append]
    exact List.perm_append_comm_assoc ..

theorem allocated_cut (b : Block) (need : Nat) : allocated (cut b need) = [b.address] := by
  rw [cut]
  split <;> rfl

/-- A block that is saved is one more allocated block. -/
theorem allocated_of_save (h : save bytes s = .ok address s') :
    (allocated s'.blocks).Perm (address :: allocated s.blocks) := by
  rcases s.save_cases bytes with ⟨e, herror⟩ | ⟨b, s'', -, hfree, -, hok, hrecut, -⟩
  · cases herror.symm.trans h
  · cases hok.symm.trans h
    obtain ⟨xs, hold, hnew⟩ := hrecut.allocated
    rw [allocated_cut] at hnew
    rw [allocated_of_free (List.forall_mem_singleton.2 hfree)] at hold
    exact hnew.trans (hold.symm.cons b.address)

/-- Only allocated blocks can be freed. -/
theorem free_error (hs : s.image.size ≤ maxSize) (h : address ∉ allocated s.blocks) :
    free address s = .error (.badAddress address) s := by
  rcases free_cases hs address with ⟨herror, -⟩ | ⟨b, _, _, _, _, hb, haddress, hallocated, -⟩
  · exact herror
  · exact absurd (mem_allocated.2 ⟨b, hb, haddress, hallocated⟩) h

/-- An allocated block can be freed, and is the only one that is allocated no more. -/
theorem free_ok (hs : s.image.size ≤ maxSize) (h : address ∈ allocated s.blocks) :
    ∃ s', free address s = .ok () s' ∧
      (allocated s.blocks).Perm (address :: allocated s'.blocks) := by
  rcases free_cases hs address with
    ⟨-, hnone⟩ | ⟨b, old, s', start, stop, -, rfl, hallocated, hold, -, hok, hrecut⟩
  · obtain ⟨b, hb, haddress, hallocated⟩ := mem_allocated.1 h
    rw [hnone b hb haddress] at hallocated
    contradiction
  · obtain ⟨xs, hbefore, hafter⟩ := hrecut.allocated
    have hfreed : allocated [sized start (stop - start) true] = [] := rfl
    have hjoined : allocated old = [b.address] := by
      have hleft : allocated (s.freeBefore b.address).toList = [] :=
        allocated_of_free fun c hc => free_of_mem_freeBefore (Option.mem_toList.1 hc)
      have hright : allocated (s.freeAt b.stop).toList = [] :=
        allocated_of_free fun c hc => free_of_mem_freeAt (Option.mem_toList.1 hc)
      have hself : allocated [b] = [b.address] := by simp [allocated, hallocated]
      rw [hold, allocated_append, hleft, ← List.singleton_append, allocated_append, hself, hright]
      rfl
    rw [hfreed] at hafter
    rw [hjoined] at hbefore
    exact ⟨s', hok, hbefore.trans (hafter.symm.cons b.address)⟩

theorem free_iff (hs : s.image.size ≤ maxSize) :
    (∃ s', free address s = .ok () s') ↔ address ∈ allocated s.blocks := by
  constructor
  · rintro ⟨s', hok⟩
    by_contra hnot
    cases (free_error hs hnot).symm.trans hok
  · intro h
    obtain ⟨s', hok, -⟩ := free_ok hs h
    exact ⟨s', hok⟩

/-! ### Neighbours -/

/-- Two blocks are not both free. -/
def Apart (b c : Block) : Prop := ¬ (b.free = true ∧ c.free = true)

theorem apart_of_left (h : b.free = false) : Apart b c := fun hboth =>
  absurd hboth.1 (Bool.eq_false_iff.1 h)

theorem apart_of_right (h : c.free = false) : Apart b c := fun hboth =>
  absurd hboth.2 (Bool.eq_false_iff.1 h)

theorem Apart.left (h : Apart b c) (hc : c.free = true) : b.free = false :=
  Bool.eq_false_iff.2 fun hb => h ⟨hb, hc⟩

theorem Apart.right (h : Apart b c) (hb : b.free = true) : c.free = false :=
  Bool.eq_false_iff.2 fun hc => h ⟨hb, hc⟩

/-- The blocks fill the image to its end, their sizes are even, and no two free ones are
neighbours. -/
structure Coalesced (s : Store) : Prop where
  filled : Tiles s.image firstBlock s.blocks s.image.size
  even : ∀ b ∈ s.blocks, b.size % 2 = 0
  apart : s.blocks.IsChain Apart

theorem Coalesced.size_eq (h : Coalesced s) : s.image.size = firstBlock + total s.blocks :=
  h.filled.stop_eq

theorem Coalesced.size_even (h : Coalesced s) : s.image.size % 2 = 0 := by
  have hsize := h.size_eq
  have htotal := total_even h.even
  rw [firstBlock] at hsize
  omega

/-- Other blocks may take the place of some if their neighbours get along with them. -/
theorem isChain_replace (h : (pre ++ (old ++ post)).IsChain Apart) (hnew : new.IsChain Apart)
    (hleft : ∀ b ∈ pre.getLast?, ∀ c ∈ (new ++ post).head?, Apart b c)
    (hright : ∀ b ∈ new.getLast?, ∀ c ∈ post.head?, Apart b c) :
    (pre ++ (new ++ post)).IsChain Apart := by
  have hpre := h.left_of_append
  have hpost := h.right_of_append.right_of_append
  exact List.isChain_append.2 ⟨hpre, List.isChain_append.2 ⟨hnew, hpost, hright⟩, hleft⟩

/-- Blocks that are as large together as those they replace leave the image filled. -/
theorem Coalesced.recut (h : Coalesced s) (hrecut : Recut s s' start stop old new)
    (htotal : total new = total old) (heven : ∀ b ∈ new, b.size % 2 = 0)
    (hapart : ∀ pre post, s.blocks = pre ++ (old ++ post) →
      (pre ++ (new ++ post)).IsChain Apart) : Coalesced s' := by
  obtain ⟨pre, post, hblocks, hblocks', -⟩ := hrecut.blocks
  have hsize := h.size_eq
  rw [hblocks, total_append, total_append] at hsize
  refine ⟨filled_of_total ?_, fun b hb => ?_, hblocks' ▸ hapart pre post hblocks⟩
  · rw [hblocks', total_append, total_append, htotal, hrecut.size, hsize]
  · rw [hblocks', List.mem_append, List.mem_append] at hb
    rcases hb with hb | hb | hb
    · exact h.even b (by rw [hblocks, List.mem_append]; exact .inl hb)
    · exact heven b hb
    · exact h.even b (by rw [hblocks, List.mem_append, List.mem_append]; exact .inr (.inr hb))

/-! ### Saving -/

theorem total_cut {need : Nat} (hmin : headerLength ≤ need) (hneed : need ≤ b.size) :
    total (cut b need) = b.size := by
  rw [cut]
  split
  · rename_i hsplit
    have hrest : headerLength ≤ b.size - need := Nat.le_trans (by decide) hsplit
    rw [total_cons, total_cons, total_nil, size_sized hmin, size_sized hrest]
    omega
  · rw [total_cons, total_nil, size_sized (Nat.le_trans hmin hneed), Nat.add_zero]

theorem cut_even {need : Nat} (hmin : headerLength ≤ need) (hneed : need ≤ b.size)
    (heven : need % 2 = 0) (hb : b.size % 2 = 0) : ∀ c ∈ cut b need, c.size % 2 = 0 := by
  intro c hc
  rw [cut] at hc
  split at hc
  · rename_i hsplit
    have hrest : headerLength ≤ b.size - need := Nat.le_trans (by decide) hsplit
    simp only [List.mem_cons, List.not_mem_nil, or_false] at hc
    rcases hc with rfl | rfl
    · rwa [size_sized hmin]
    · rw [size_sized hrest]
      omega
  · rw [List.mem_singleton.1 hc, size_sized (Nat.le_trans hmin hneed), hb]

/-- What is cut off a free block gets along with what was before and behind that block. -/
theorem isChain_cut {need : Nat} (hfree : b.free = true)
    (h : (pre ++ ([b] ++ post)).IsChain Apart) : (pre ++ (cut b need ++ post)).IsChain Apart := by
  have hpost : ∀ c ∈ post.head?, c.free = false := fun c hc =>
    ((List.isChain_append.1 h.right_of_append).2.2 b rfl c hc).right hfree
  rw [cut]
  split
  · refine isChain_replace h (.cons_cons (apart_of_left rfl) (.singleton _)) ?_ ?_
    · rintro c - d hd
      cases hd
      exact apart_of_right rfl
    · intro c _ d hd
      exact apart_of_right (hpost d hd)
  · refine isChain_replace h (.singleton _) ?_ ?_
    · rintro c - d hd
      cases hd
      exact apart_of_right rfl
    · intro c _ d hd
      exact apart_of_right (hpost d hd)

theorem Coalesced.after_save (h : Coalesced s) (bytes : List UInt8) :
    Coalesced (after (s.save bytes)) := by
  rcases s.save_cases bytes with ⟨e, herror⟩ | ⟨b, s', hb, hfree, hneed, hok, hrecut, -⟩
  · rwa [herror]
  · rw [hok]
    have hmin : headerLength ≤ sizeFor bytes.length := Nat.le_add_left ..
    refine h.recut hrecut ?_ ?_ fun pre post hblocks => ?_
    · rw [total_cut hmin hneed, total_cons, total_nil, Nat.add_zero]
    · exact cut_even hmin hneed (sizeFor_even _) (h.even b hb)
    · exact isChain_cut hfree (hblocks ▸ h.apart)

/-! ### Freeing -/

/-- What is before a block is not free, once the free block before it is set apart. -/
theorem allocated_left {before : Option Block} (hfree : ∀ c ∈ before, c.free = true)
    (hbefore : before = (pre ++ before.toList).getLast?.filter (·.free))
    (h : (pre ++ before.toList).IsChain Apart) : ∀ c ∈ pre.getLast?, c.free = false := by
  intro c hc
  cases before with
  | none =>
      rw [Option.toList_none, List.append_nil, Option.mem_def.1 hc, Option.filter_some] at hbefore
      by_contra hnot
      rw [if_pos (by simpa using hnot)] at hbefore
      contradiction
  | some d =>
      exact ((List.isChain_append.1 h).2.2 c hc d rfl).left (hfree d rfl)

/-- What is behind a block is not free, once the free block behind it is set apart. -/
theorem allocated_right {behind : Option Block} (hfree : ∀ c ∈ behind, c.free = true)
    (hbehind : behind = (behind.toList ++ post).head?.filter (·.free))
    (h : (behind.toList ++ post).IsChain Apart) : ∀ c ∈ post.head?, c.free = false := by
  intro c hc
  cases behind with
  | none =>
      rw [Option.toList_none, List.nil_append, Option.mem_def.1 hc, Option.filter_some] at hbehind
      by_contra hnot
      rw [if_pos (by simpa using hnot)] at hbehind
      contradiction
  | some d =>
      exact ((List.isChain_append.1 h).2.2 d rfl c hc).right (hfree d rfl)

theorem Coalesced.after_free (h : Coalesced s) (hs : s.image.size ≤ maxSize) (address : Nat) :
    Coalesced (after (free address s)) := by
  rcases free_cases hs address with
    ⟨herror, -⟩ | ⟨b, old, s', start, stop, -, -, -, hold, htiles, hok, hrecut⟩
  · rwa [herror]
  · rw [hok]
    have hlength : stop - start = total old := by
      have hstop := htiles.stop_eq
      omega
    have hmin : headerLength ≤ total old := by
      rw [hold, total_append, total_cons, Block.size]
      omega
    have hsize : (sized start (stop - start) true).size = total old := by
      rw [hlength, size_sized hmin]
    refine h.recut hrecut ?_ ?_ fun pre post hblocks => ?_
    · rw [total_cons, total_nil, hsize, Nat.add_zero]
    · rw [List.forall_mem_singleton, hsize]
      obtain ⟨pre, post, hblocks, -⟩ := hrecut.blocks
      refine total_even fun c hc => h.even c ?_
      rw [hblocks]
      exact List.mem_append_right _ (List.mem_append_left _ hc)
    · have hchain := h.apart
      rw [hblocks] at hchain
      have hsplit : s.blocks = (pre ++ (s.freeBefore b.address).toList) ++
          b :: ((s.freeAt b.stop).toList ++ post) := by
        rw [hblocks, hold]
        simp only [List.append_assoc, List.cons_append]
      have happart := h.apart
      rw [hsplit] at happart
      have hleft := allocated_left (fun c => free_of_mem_freeBefore) (freeBefore_eq hsplit)
        happart.left_of_append
      have hright := allocated_right (fun c => free_of_mem_freeAt) (freeAt_eq hsplit)
        happart.right_of_append.tail
      refine isChain_replace hchain (.singleton _) ?_ ?_
      · intro c hc d _
        exact apart_of_left (hleft c hc)
      · intro c _ d hd
        exact apart_of_right (hright d hd)

/-! ### Formatting -/

/-- A store that has just been formatted is one free block. -/
theorem tiles_format (hmin : minSize ≤ s.image.size) (hmax : s.image.size ≤ maxSize) :
    Tiles s.format.image firstBlock [sized firstBlock (s.image.size - firstBlock) true]
      s.image.size := by
  rw [minSize] at hmin
  rw [maxSize] at hmax
  have hheader : headerLength ≤ s.image.size - firstBlock := by
    rw [headerLength, firstBlock]
    omega
  have hfits : s.image.size - firstBlock < freeBit := by
    rw [firstBlock, freeBit]
    omega
  have hend : firstBlock + (s.image.size - firstBlock) = s.image.size := by
    rw [firstBlock]
    omega
  refine ⟨rfl, stands_write hheader hfits ?_, (stop_sized hheader).trans hend⟩
  rw [hend, Bytes.size_write, Bytes.size_zeros]

theorem blocks_format (hmin : minSize ≤ s.image.size) (hmax : s.image.size ≤ maxSize) :
    s.format.blocks = [sized firstBlock (s.image.size - firstBlock) true] :=
  blocks_eq (tiles_format hmin hmax) (s.size_format ▸ ends_size _)

theorem coalesced_format (hmin : minSize ≤ s.image.size) (hmax : s.image.size ≤ maxSize)
    (heven : s.image.size % 2 = 0) : Coalesced s.format := by
  have hblocks := blocks_format hmin hmax
  have htiles := tiles_format hmin hmax
  refine ⟨?_, ?_, ?_⟩
  · rwa [hblocks, size_format]
  · have hstop := htiles.stop_eq
    rw [total_cons, total_nil, firstBlock] at hstop
    rw [hblocks, List.forall_mem_singleton, firstBlock]
    omega
  · rw [hblocks]
    exact .singleton _

/-! ### Room -/

/-- The byte at `i` belongs to an allocated block. -/
def Occupied (s : Store) (i : Nat) : Prop := ∃ b ∈ s.blocks, b.free = false ∧ Covers b i

/-- As many bytes in a row as there are that belong to no allocated block. -/
structure Vacancy (s : Store) (low high : Nat) : Prop where
  first : firstBlock ≤ low
  last : high ≤ s.image.size
  unoccupied : ∀ i, low ≤ i → i < high → ¬ s.Occupied i
  left : low = firstBlock ∨ s.Occupied (low - 1)
  right : high = s.image.size ∨ s.Occupied high

namespace Coalesced

/-- Behind a free block the image ends, or an allocated block begins. -/
theorem behind_free (h : Coalesced s) (hb : b ∈ s.blocks) (hfree : b.free = true) :
    b.stop = s.image.size ∨ ∃ c ∈ s.blocks, c.address = b.stop ∧ c.free = false := by
  obtain ⟨pre, post, hblocks⟩ := List.mem_iff_append.1 hb
  have htiles := h.filled
  have hchain := h.apart
  rw [hblocks] at htiles hchain ⊢
  obtain ⟨_, -, rfl, -, hpost⟩ := tiles_append.1 htiles
  cases post with
  | nil => exact .inl hpost
  | cons c rest =>
      have hapart := (List.isChain_append_cons_cons.1 hchain).2.1
      exact .inr ⟨c, List.mem_append_right _ (.tail _ (.head _)), hpost.1, hapart.right hfree⟩

/-- A free block is the first, or it begins where an allocated block ends. -/
theorem before_free (h : Coalesced s) (hb : b ∈ s.blocks) (hfree : b.free = true) :
    b.address = firstBlock ∨ ∃ c ∈ s.blocks, c.stop = b.address ∧ c.free = false := by
  obtain ⟨pre, post, hblocks⟩ := List.mem_iff_append.1 hb
  have htiles := h.filled
  have hchain := h.apart
  rw [hblocks] at htiles hchain ⊢
  rcases List.eq_nil_or_concat pre with rfl | ⟨init, c, rfl⟩
  · exact .inl htiles.1
  · rw [List.concat_append] at htiles hchain ⊢
    obtain ⟨_, -, rfl, -, hpost⟩ := tiles_append.1 htiles
    have hapart := (List.isChain_append_cons_cons.1 hchain).2.1
    exact .inr ⟨c, List.mem_append_right _ (.head _), hpost.1.symm, hapart.left hfree⟩

/-- A free block is a vacancy. -/
theorem vacancy_of_free (h : Coalesced s) (hb : b ∈ s.blocks) (hfree : b.free = true) :
    Vacancy s b.address b.stop := by
  obtain ⟨hfirst, hlast, -⟩ := h.filled.mem hb
  refine ⟨hfirst, hlast, ?_, ?_, ?_⟩
  · rintro i hlow hhigh ⟨c, hc, hallocated, hcovers⟩
    rw [eq_of_covers hc hb hcovers ⟨hlow, hhigh⟩, hfree] at hallocated
    contradiction
  · rcases h.before_free hb hfree with heq | ⟨c, hc, hstop, hallocated⟩
    · exact .inl heq
    · exact .inr ⟨c, hc, hallocated, hstop ▸ covers_last c⟩
  · rcases h.behind_free hb hfree with heq | ⟨c, hc, haddress, hallocated⟩
    · exact .inl heq
    · exact .inr ⟨c, hc, hallocated, haddress ▸ covers_address c⟩

/-- A vacancy is a free block. -/
theorem exists_free (h : Coalesced s) (hvacancy : Vacancy s low high) (hlt : low < high) :
    ∃ b ∈ s.blocks, b.free = true ∧ b.address = low ∧ b.stop = high := by
  obtain ⟨b, hb, hcovers⟩ :=
    h.filled.exists_covers hvacancy.first (Nat.lt_of_lt_of_le hlt hvacancy.last)
  obtain ⟨hfirst, hlast, -⟩ := h.filled.mem hb
  have hfree : b.free = true := by
    by_contra hnot
    exact hvacancy.unoccupied low (Nat.le_refl _) hlt ⟨b, hb, by simpa using hnot, hcovers⟩
  have hnot : ∀ {i}, Covers b i → ¬ s.Occupied i := by
    rintro i hi ⟨c, hc, hallocated, hcovers'⟩
    rw [eq_of_covers hc hb hcovers' hi, hfree] at hallocated
    contradiction
  rw [Covers] at hcovers
  refine ⟨b, hb, hfree, ?_, ?_⟩
  · rcases hvacancy.left with heq | hoccupied
    · omega
    · by_contra hne
      exact hnot (show b.address ≤ low - 1 ∧ low - 1 < b.stop by omega) hoccupied
  · rcases Nat.lt_trichotomy b.stop high with hbefore | heq | hbehind
    · rcases h.behind_free hb hfree with hend | ⟨c, hc, haddress, hallocated⟩
      · exact absurd hvacancy.last (Nat.not_le_of_lt (hend ▸ hbefore))
      · exact absurd ⟨c, hc, hallocated, haddress ▸ covers_address c⟩
          (hvacancy.unoccupied b.stop (Nat.le_of_lt hcovers.2) hbefore)
    · exact heq
    · rcases hvacancy.right with heq | hoccupied
      · omega
      · exact absurd hoccupied (hnot ⟨by omega, hbehind⟩)

end Coalesced

/-- Something is saved where a free block has room for it. -/
theorem save_iff_free :
    (∃ address s', save bytes s = .ok address s') ↔
      ∃ b ∈ s.blocks, b.free = true ∧ sizeFor bytes.length ≤ b.size := by
  constructor
  · rintro ⟨address, s', hok⟩
    rcases s.save_cases bytes with ⟨e, herror⟩ | ⟨b, s'', hb, hfree, hneed, -⟩
    · cases herror.symm.trans hok
    · exact ⟨b, hb, hfree, hneed⟩
  · rintro ⟨b, hb, hfree, hneed⟩
    have hsize := (stands_of_mem hb).2.size
    have hfound : b ∈ s.blocks.filter fun c => c.free && sizeFor bytes.length ≤ c.size := by
      rw [List.mem_filter, hfree, Bool.true_and, decide_eq_true_iff]
      exact ⟨hb, hneed⟩
    rw [save, if_neg (by omega)]
    cases hsmallest : smallest (s.blocks.filter fun c => c.free && sizeFor bytes.length ≤ c.size) with
    | none =>
        rw [eq_nil_of_smallest hsmallest] at hfound
        contradiction
    | some c => exact ⟨_, _, rfl⟩

/-- In a coalesced store data are saved wherever there is room for them and their header. -/
theorem Coalesced.save_iff (h : Coalesced s) :
    (∃ address s', save bytes s = .ok address s') ↔
      ∃ low high, Vacancy s low high ∧ low + sizeFor bytes.length ≤ high := by
  rw [save_iff_free]
  constructor
  · rintro ⟨b, hb, hfree, hneed⟩
    exact ⟨b.address, b.stop, h.vacancy_of_free hb hfree, Nat.add_le_add_left hneed _⟩
  · rintro ⟨low, high, hvacancy, hroom⟩
    have hmin : headerLength ≤ sizeFor bytes.length := Nat.le_add_left ..
    rw [headerLength] at hmin
    obtain ⟨b, hb, hfree, haddress, hstop⟩ := h.exists_free hvacancy (by omega)
    rw [Block.stop] at hstop
    exact ⟨b, hb, hfree, by omega⟩

/-! ### Freeing everything -/

/-- Without an allocated block there is only one block. -/
theorem Coalesced.blocks_of_free (h : Coalesced s) (hmin : minSize ≤ s.image.size)
    (hnone : allocated s.blocks = []) :
    s.blocks = [sized firstBlock (s.image.size - firstBlock) true] := by
  have htiles := h.filled
  have hapart := h.apart
  have hfree : ∀ b ∈ s.blocks, b.free = true := by
    intro b hb
    by_contra hnot
    have hmem := mem_allocated.2 ⟨b, hb, rfl, by simpa using hnot⟩
    rw [hnone] at hmem
    contradiction
  rw [minSize] at hmin
  cases hblocks : s.blocks with
  | nil =>
      rw [hblocks] at htiles
      have hempty : firstBlock = s.image.size := htiles
      rw [firstBlock] at hempty
      omega
  | cons b others =>
      rw [hblocks] at htiles hapart hfree
      have hself : b.free = true := hfree b (.head _)
      cases others with
      | nil =>
          obtain ⟨haddress, -, hstop⟩ := htiles
          have hwhole : b.stop = s.image.size := hstop
          obtain ⟨address, capacity, free⟩ := b
          obtain rfl : free = true := hself
          obtain rfl : address = firstBlock := haddress
          rw [Block.stop, Block.size] at hwhole
          dsimp only at hwhole
          rw [sized, List.cons.injEq, Block.mk.injEq]
          refine ⟨⟨rfl, ?_, rfl⟩, rfl⟩
          omega
      | cons c rest =>
          exact absurd ⟨hself, hfree c (.tail _ (.head _))⟩ (List.isChain_cons_cons.1 hapart).1

/-- Once all allocated blocks have been freed, in any order, there is one free block. -/
theorem Coalesced.free_all (h : Coalesced s) (hs : s.Sound) {order : List Nat}
    (horder : order.Perm (allocated s.blocks)) :
    ∃ s', order.forM free s = .ok () s' ∧
      s'.blocks = [sized firstBlock (s.image.size - firstBlock) true] := by
  induction order generalizing s with
  | nil => exact ⟨s, rfl, h.blocks_of_free hs.min horder.nil_eq.symm⟩
  | cons address rest ih =>
      obtain ⟨s', hok, hallocated⟩ :=
        free_ok hs.max (horder.subset (.head _))
      have hfreed := h.after_free hs.max address
      have hmoved : Moved (fun _ => False) s (after (free address s)) := moved_free hs.max id
      rw [hok] at hfreed hmoved
      obtain ⟨s'', hrest, hblocks⟩ := ih hfreed (hmoved.sound hs)
        (horder.trans hallocated).cons_inv
      refine ⟨s'', ?_, hmoved.size_eq ▸ hblocks⟩
      show (free address >>= fun _ => rest.forM free) s = .ok () s''
      rw [bind_ok hok]
      exact hrest

end Store

end FlatLisp
