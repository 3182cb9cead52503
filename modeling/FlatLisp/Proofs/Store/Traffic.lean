/-
Module: FlatLisp.Proofs.Store.Traffic
Purpose: What saves and frees, granted or refused, leave of a store. It stays one that can be opened
  again from its image, and the data of a block stays in it until that block is freed.
Main exports: Store.Sound, Store.ofImage_toList, Store.Moved, Store.Stored, Store.stored_of_save,
  Store.Later, Store.Stored.later
-/
import FlatLisp.Proofs.Arena.Operations
import FlatLisp.Proofs.Store.Blocks

namespace FlatLisp

namespace Store

variable {s s' : Store} {address : Nat} {bytes : List UInt8} {kept : Nat → Prop}

/-! ### Images -/

/-- The image has the length and the first bytes that a store has. -/
structure Sound (s : Store) : Prop where
  magic : s.image.Holds 0 magic
  min : minSize ≤ s.image.size
  max : s.image.size ≤ maxSize

theorem size_format (s : Store) : s.format.image.size = s.image.size := by
  rw [format, withHeader, Bytes.size_write, Bytes.size_write, Bytes.size_zeros]

theorem sound_format (hmin : minSize ≤ s.image.size) (hmax : s.image.size ≤ maxSize) :
    s.format.Sound := by
  refine ⟨?_, ?_, ?_⟩
  · rw [format, withHeader]
    refine (Bytes.holds_write ?_).write_of_disjoint (.inl (Nat.le_of_eq rfl))
    rw [minSize] at hmin
    rw [Bytes.size_zeros]
    show 8 ≤ s.image.size
    omega
  · rwa [size_format]
  · rwa [size_format]

/-- A new store has been formatted, and has an even number of bytes. -/
theorem create_eq_ok {size : Nat} (h : create size = .ok s) :
    s = format ⟨Bytes.zeros (size / 2 * 2)⟩ ∧ minSize ≤ size / 2 * 2 ∧ size / 2 * 2 ≤ maxSize := by
  rw [create] at h
  split at h
  · rename_i hsize
    injection h with h
    obtain ⟨hmin, hmax⟩ := hsize
    rw [minSize] at hmin ⊢
    rw [maxSize] at hmax ⊢
    exact ⟨h.symm, by omega, by omega⟩
  · contradiction

theorem sound_create {size : Nat} (h : create size = .ok s) : s.Sound := by
  obtain ⟨rfl, hmin, hmax⟩ := create_eq_ok h
  refine sound_format ?_ ?_
  · rwa [Bytes.size_zeros]
  · rwa [Bytes.size_zeros]

/-- A store is opened again from its image. -/
theorem ofImage_toList (h : s.Sound) : ofImage s.image.toList = .ok s := by
  have hmagic := h.magic.slice_eq
  rw [Bytes.slice_eq_take_drop, List.drop_zero] at hmagic
  rw [ofImage, Bytes.length_toList, if_pos ⟨h.min, h.max⟩, if_pos hmagic]
  rfl

/-! ### One request -/

/-- Nothing has changed, or other blocks lie in the place of some; no allocated block at an address of
`kept` is among these. -/
inductive Moved (kept : Nat → Prop) (s : Store) : Store → Prop where
  | same : Moved kept s s
  | recut {s' : Store} {start stop : Nat} {old new : List Block}
      (hrecut : Recut s s' start stop old new)
      (hold : ∀ b ∈ old, b.free = false → ¬ kept b.address) : Moved kept s s'

theorem moved_save (s : Store) (bytes : List UInt8) : Moved kept s (after (s.save bytes)) := by
  rcases s.save_cases bytes with ⟨e, herror⟩ | ⟨b, s', -, hfree, -, hok, hrecut, -⟩
  · rw [herror]
    exact .same
  · rw [hok]
    refine .recut hrecut fun c hc hallocated => ?_
    rw [List.mem_singleton.1 hc, hfree] at hallocated
    contradiction

theorem moved_free (hs : s.image.size ≤ maxSize) (hother : ¬ kept address) :
    Moved kept s (after (free address s)) := by
  rcases free_cases hs address with
    ⟨herror, -⟩ | ⟨b, old, s', _, _, -, haddress, -, rfl, -, hok, hrecut⟩
  · rw [herror]
    exact .same
  · rw [hok]
    refine .recut hrecut fun c hc hallocated => ?_
    -- Of the blocks that are joined only the one that is freed was allocated.
    rw [List.mem_append, List.mem_cons, Option.mem_toList, Option.mem_toList] at hc
    rcases hc with hc | rfl | hc
    · rw [free_of_mem_freeBefore hc] at hallocated
      contradiction
    · exact haddress ▸ hother
    · rw [free_of_mem_freeAt hc] at hallocated
      contradiction

/-- No block reaches into the magic word. -/
theorem Moved.sound (h : Moved kept s s') (hs : s.Sound) : s'.Sound := by
  cases h with
  | same => exact hs
  | recut hrecut _ =>
      exact ⟨hs.magic.of_sameOn hrecut.size hrecut.below (Nat.zero_le _) hrecut.first,
        hrecut.size ▸ hs.min, hrecut.size ▸ hs.max⟩

theorem Moved.size_eq (h : Moved kept s s') : s'.image.size = s.image.size := by
  cases h with
  | same => rfl
  | recut hrecut _ => exact hrecut.size

/-- An allocated block that no request was meant to free stays, with all its bytes. -/
theorem Moved.block {b : Block} (h : Moved kept s s') (hb : b ∈ s.blocks)
    (hallocated : b.free = false) (hkept : kept b.address) :
    b ∈ s'.blocks ∧ s.image.SameOn s'.image b.address b.stop := by
  cases h with
  | same => exact ⟨hb, Bytes.SameOn.refl _ _ _⟩
  | recut hrecut hold => exact hrecut.mem hb fun h => hold b h hallocated hkept

theorem sound_of_save (hs : s.Sound) (h : save bytes s = .ok address s') : s'.Sound := by
  have hmoved : Moved (fun _ => False) s (after (s.save bytes)) := moved_save s bytes
  rw [h] at hmoved
  exact hmoved.sound hs

/-! ### Data -/

/-- The bytes are the data of the allocated block at an address, as far as they go. -/
def Stored (s : Store) (address : Nat) (bytes : List UInt8) : Prop :=
  ∃ b ∈ s.blocks, b.address = address ∧ b.free = false ∧ bytes.length ≤ b.capacity ∧
    s.image.Holds b.data bytes

theorem Stored.holds (h : Stored s address bytes) :
    firstBlock ≤ address ∧ s.image.Holds (address + Block.headerLength) bytes := by
  obtain ⟨b, hb, rfl, -, -, hheld⟩ := h
  exact ⟨(stands_of_mem hb).1, hheld⟩

/-- What is saved is stored. -/
theorem stored_of_save (h : save bytes s = .ok address s') : Stored s' address bytes := by
  rcases s.save_cases bytes with ⟨e, herror⟩ | ⟨b, s'', -, -, hneed, hok, hrecut, hheld⟩
  · rw [herror] at h
    contradiction
  · rw [hok] at h
    injection h with haddress hs
    subst haddress hs
    obtain ⟨taken, htaken, haddress, hallocated, hcapacity⟩ := mem_cut hneed
    obtain ⟨pre, post, -, hblocks, -⟩ := hrecut.blocks
    refine ⟨taken, ?_, haddress, hallocated, hcapacity, ?_⟩
    · rw [hblocks]
      exact List.mem_append_right _ (List.mem_append_left _ htaken)
    · rw [Block.data, haddress]
      exact hheld

theorem Moved.stored (h : Moved kept s s') (hkept : kept address) (hs : Stored s address bytes) :
    Stored s' address bytes := by
  obtain ⟨b, hb, haddress, hallocated, hcapacity, hheld⟩ := hs
  obtain ⟨hmem, hsame⟩ := h.block hb hallocated (haddress.symm ▸ hkept)
  refine ⟨b, hmem, haddress, hallocated, hcapacity, hheld.of_sameOn h.size_eq hsame ?_ ?_⟩
  · exact Nat.le_add_right ..
  · rw [Block.data, Block.stop, Block.size]
    omega

/-! ### Many requests -/

/-- Saves and frees, granted or refused, have made `s'` of `s`. None was meant to free a block at an
address of `kept`. -/
inductive Later (kept : Nat → Prop) (s : Store) : Store → Prop where
  | refl : Later kept s s
  | save {s' : Store} (h : Later kept s s') (bytes : List UInt8) : Later kept s (after (s'.save bytes))
  | free {s' : Store} (h : Later kept s s') {address : Nat} (hother : ¬ kept address) :
      Later kept s (after (free address s'))

/-- What each request preserves is preserved by all of them together. -/
theorem Later.preserves {P : Store → Prop} (h : Later kept s s') (hs : s.Sound) (hstart : P s)
    (hstep : ∀ {s' s''}, Moved kept s' s'' → P s' → P s'') : s'.Sound ∧ P s' := by
  induction h with
  | refl => exact ⟨hs, hstart⟩
  | @save s' _ bytes ih =>
      have hmoved : Moved kept s' _ := moved_save s' bytes
      exact ⟨hmoved.sound ih.1, hstep hmoved ih.2⟩
  | free _ hother ih =>
      have hmoved := moved_free ih.1.max hother
      exact ⟨hmoved.sound ih.1, hstep hmoved ih.2⟩

theorem Later.sound (h : Later kept s s') (hs : s.Sound) : s'.Sound :=
  (h.preserves hs trivial fun _ _ => trivial).1

/-- The data of a block stays until the block is freed. -/
theorem Stored.later (hstored : Stored s address bytes) (h : Later kept s s') (hs : s.Sound)
    (hkept : kept address) : Stored s' address bytes :=
  (h.preserves hs hstored fun hmoved hstored => hmoved.stored hkept hstored).2

end Store

end FlatLisp
