/-
Module: FlatLisp.Proofs.Store.Damaged
Purpose: Stores whose image may be in any state: of odd length, with blocks of odd size or without
  data, with free blocks side by side, or cut off in the middle of a block. No call stops. The blocks
  lie one behind the other up to a place that never changes, a call writes only into the blocks that it
  takes, and one that is refused changes nothing.
Main exports: Store.Call, Store.Confined, Store.save_confined, Store.free_confined, Store.Charted,
  Store.Charted.act, Store.Answers, Store.damaged_handled
-/
import FlatLisp.Proofs.Store.Strict

namespace FlatLisp

namespace Store

open Block (headerLength)

variable {s s' fresh : Store} {b : Block} {taken made : List Block} {start stop high address : Nat}
  {bytes image : List UInt8}

/-! ### Calls -/

/-- What can be asked of a store in any state. -/
inductive Call where
  | save (bytes : List UInt8)
  | load (address count : Nat)
  | free (address : Nat)
  | blocks
  | freeSpace
  | read (address count : Nat)
deriving Repr

/-- The store after a call, granted or refused. -/
def act (s : Store) : Call → Store
  | .save bytes => after (save bytes s)
  | .free address => after (free address s)
  | .load .. | .blocks | .freeSpace | .read .. => s

/-- Calls one after the other. -/
def run (s : Store) (calls : List Call) : Store := calls.foldl act s

namespace Strict

/-- The store after a call, if the call does not stop. -/
def act (s : Store) : Call → Option Store
  | .save bytes => (save bytes s).map after
  | .free address => (free address s).map after
  | .load address count => (load s address count).map fun _ => s
  | .blocks => (blocks s).map fun _ => s
  | .freeSpace => (freeSpace s).map fun _ => s
  | .read address count => (read s address count).map fun _ => s

/-- Calls one after the other, as long as none of them stops. -/
def run (s : Store) (calls : List Call) : Option Store := calls.foldlM act s

theorem act_eq (hs : s.Sound) (call : Call) : act s call = some (s.act call) := by
  cases call with
  | save bytes => exact congrArg (Option.map after) (save_eq hs bytes)
  | free address => exact congrArg (Option.map after) (free_eq hs address)
  | load address count => exact congrArg (Option.map _) (load_eq hs address count)
  | blocks => exact congrArg (Option.map _) (blocks_eq hs)
  | freeSpace => exact congrArg (Option.map _) (freeSpace_eq hs)
  | read address count => exact congrArg (Option.map _) (read_eq address count)

end Strict

/-! ### Changes inside of some blocks -/

/-- The blocks `made` have taken the place of `taken` and are as large together. Bytes outside of
these blocks are as before, and so are the other blocks. -/
structure Confined (s s' : Store) (taken made : List Block) : Prop where
  size : s'.image.size = s.image.size
  blocks : ∃ pre post, s.blocks = pre ++ (taken ++ post) ∧ s'.blocks = pre ++ (made ++ post)
  total : total made = total taken
  outside : ∀ i < s.image.size, (∀ b ∈ taken, ¬ Covers b i) → s'.image.get i = s.image.get i
  others : ∀ b ∈ s.blocks, b ∉ taken → b ∈ s'.blocks ∧ s.image.SameOn s'.image b.address b.stop

theorem Recut.confined (h : Recut s s' start stop taken made)
    (htiles : Tiles s.image start taken stop) (htotal : Store.total made = Store.total taken) :
    Confined s s' taken made where
  size := h.size
  blocks := by
    obtain ⟨pre, post, hblocks, hblocks', -⟩ := h.blocks
    exact ⟨pre, post, hblocks, hblocks'⟩
  total := htotal
  outside := by
    intro i hi houtside
    by_cases hbefore : i < start
    · exact h.below i (Nat.zero_le i) hbefore
    · apply h.above i _ hi
      by_contra hinside
      obtain ⟨b, hb, hcovers⟩ :=
        htiles.exists_covers (Nat.le_of_not_lt hbefore) (Nat.lt_of_not_le hinside)
      exact houtside b hb hcovers
  others := fun _ hb hother => h.mem hb hother

/-- A save is refused and changes nothing, or splits a free block. -/
theorem save_confined (s : Store) (bytes : List UInt8) :
    (∃ e, save bytes s = .error e s) ∨
      ∃ b s', b ∈ s.blocks ∧ b.free = true ∧ save bytes s = .ok b.address s' ∧
        Confined s s' [b] (cut b (sizeFor bytes.length)) := by
  rcases s.save_cases bytes with herror | ⟨b, s', hb, hfree, hneed, hok, hrecut, -⟩
  · exact .inl herror
  · have hmin : headerLength ≤ sizeFor bytes.length := Nat.le_add_left ..
    have htile : Tiles s.image b.address [b] b.stop := ⟨rfl, (stands_of_mem hb).2, rfl⟩
    refine .inr ⟨b, s', hb, hfree, hok, hrecut.confined htile ?_⟩
    rw [total_cut hmin hneed, total_cons, total_nil, Nat.add_zero]

/-- A block cannot be freed where none is allocated, which changes nothing, or it is merged with free
blocks before and behind it. -/
theorem free_confined (hsize : s.image.size ≤ maxSize) (address : Nat) :
    free address s = .error (.badAddress address) s ∨
      ∃ b before behind s' start, b ∈ s.blocks ∧ b.address = address ∧ b.free = false ∧
        (∀ c ∈ before ++ behind, c.free = true) ∧ free address s = .ok () s' ∧
        Confined s s' (before ++ b :: behind)
          [sized start (total (before ++ b :: behind)) true] := by
  rcases free_cases hsize address with
    ⟨herror, -⟩ | ⟨b, _, s', start, stop, hb, haddress, hallocated, rfl, htiles, hok, hrecut⟩
  · exact .inl herror
  · have hlength : stop - start =
        total ((s.freeBefore b.address).toList ++ b :: (s.freeAt b.stop).toList) := by
      rw [htiles.stop_eq, Nat.add_sub_cancel_left]
    have hmin : headerLength ≤
        total ((s.freeBefore b.address).toList ++ b :: (s.freeAt b.stop).toList) := by
      rw [total_append, total_cons, Block.size]
      omega
    rw [hlength] at hrecut
    refine .inr ⟨b, _, _, s', start, hb, haddress, hallocated, ?_, hok, hrecut.confined htiles ?_⟩
    · intro c hc
      rw [List.mem_append, Option.mem_toList, Option.mem_toList] at hc
      exact hc.elim free_of_mem_freeBefore free_of_mem_freeAt
    · rw [total_cons, total_nil, Nat.add_zero, size_sized hmin]

/-! ### What stays -/

/-- The store has come from `fresh`. Its blocks lie one behind the other up to `stop`, where no block
begins, and from there on nothing has changed. -/
structure Charted (fresh : Store) (stop : Nat) (s : Store) : Prop where
  sound : s.Sound
  size : s.image.size = fresh.image.size
  tiles : Tiles s.image firstBlock s.blocks stop
  ends : Ends s.image stop
  behind : fresh.image.SameOn s.image stop fresh.image.size

theorem exists_charted (hs : fresh.Sound) : ∃ stop, Charted fresh stop fresh := by
  obtain ⟨stop, htiles, hends⟩ := fresh.exists_tiles
  exact ⟨stop, hs, rfl, htiles, hends, .refl _ _ _⟩

/-- Neither the magic word nor what is behind the blocks belongs to a block, and blocks that are as
large as those they replace end at the same place. -/
theorem Charted.confined (h : Charted fresh stop s) (hconfined : Confined s s' taken made) :
    Charted fresh stop s' := by
  obtain ⟨pre, post, hblocks, hblocks'⟩ := hconfined.blocks
  have hmem : ∀ b ∈ taken, b ∈ s.blocks := by
    intro b hb
    rw [hblocks]
    exact List.mem_append_right _ (List.mem_append_left _ hb)
  have hmagic : s.image.SameOn s'.image 0 firstBlock := by
    intro i _ hi
    apply hconfined.outside i
    · have hmin := h.sound.min
      rw [minSize] at hmin
      rw [firstBlock] at hi
      omega
    · intro b hb hcovers
      exact absurd (h.tiles.mem (hmem b hb)).1 (Nat.not_le_of_lt (Nat.lt_of_le_of_lt hcovers.1 hi))
  have hbehind : s.image.SameOn s'.image stop s.image.size := by
    intro i hstop hi
    apply hconfined.outside i hi
    intro b hb hcovers
    exact absurd hcovers.2 (Nat.not_lt_of_le (Nat.le_trans (h.tiles.mem (hmem b hb)).2.1 hstop))
  have htiles : Tiles s'.image firstBlock s'.blocks stop := by
    -- The blocks are tiled up to some place, which their sizes tell.
    obtain ⟨stop', htiles', -⟩ := s'.exists_tiles
    have htotal : total s'.blocks = total s.blocks := by
      rw [hblocks, hblocks', total_append, total_append, total_append, total_append,
        hconfined.total]
    rwa [htiles'.stop_eq, htotal, ← h.tiles.stop_eq] at htiles'
  constructor
  · exact ⟨h.sound.magic.of_sameOn hconfined.size hmagic (Nat.le_refl _) (Nat.le_refl _),
      hconfined.size ▸ h.sound.min, hconfined.size ▸ h.sound.max⟩
  · exact hconfined.size.trans h.size
  · exact htiles
  · exact h.ends.of_sameOn hconfined.size hbehind
  · exact h.behind.trans (h.size ▸ hbehind)

/-- A call leaves the store as it was or changes some of its blocks. -/
theorem Charted.act (h : Charted fresh stop s) (call : Call) : Charted fresh stop (s.act call) := by
  cases call with
  | save bytes =>
      rw [Store.act]
      rcases s.save_confined bytes with ⟨e, herror⟩ | ⟨b, s', -, -, hok, hconfined⟩
      · rwa [herror]
      · rw [hok]
        exact h.confined hconfined
  | free address =>
      rw [Store.act]
      rcases free_confined h.sound.max address with
        herror | ⟨b, before, behind, s', start, -, -, -, -, hok, hconfined⟩
      · rwa [herror]
      · rw [hok]
        exact h.confined hconfined
  | load | blocks | freeSpace | read => exact h

/-- So do any calls, none of which stops. -/
theorem Charted.run (h : Charted fresh stop s) (calls : List Call) :
    Strict.run s calls = some (s.run calls) ∧ Charted fresh stop (s.run calls) := by
  induction calls generalizing s with
  | nil => exact ⟨rfl, h⟩
  | cons call rest ih =>
      obtain ⟨hrun, hcharted⟩ := ih (h.act call)
      refine ⟨?_, hcharted⟩
      rw [Strict.run, List.foldlM_cons]
      exact Strict.proceed (Strict.act_eq h.sound call) hrun

/-! ### Every call -/

/-- None of the calls stops, and each does what it is meant to. Saving and freeing change nothing, or
only blocks that were free and the one that is freed. -/
structure Answers (s : Store) : Prop where
  blocks : Strict.blocks s = some s.blocks
  freeSpace : Strict.freeSpace s = some s.freeSpace
  load : ∀ address count, Strict.load s address count = some (s.load address count)
  read : ∀ address count, Strict.read s address count = some (s.external.read address count)
  save : ∀ bytes, Strict.save bytes s = some (save bytes s) ∧
    ((∃ e, save bytes s = .error e s) ∨
      ∃ b s', b ∈ s.blocks ∧ b.free = true ∧ save bytes s = .ok b.address s' ∧
        Confined s s' [b] (cut b (sizeFor bytes.length)))
  free : ∀ address, Strict.free address s = some (free address s) ∧
    (free address s = .error (.badAddress address) s ∨
      ∃ b before behind s' start, b ∈ s.blocks ∧ b.address = address ∧ b.free = false ∧
        (∀ c ∈ before ++ behind, c.free = true) ∧ free address s = .ok () s' ∧
        Confined s s' (before ++ b :: behind)
          [sized start (total (before ++ b :: behind)) true])

theorem Sound.answers (hs : s.Sound) : Answers s where
  blocks := Strict.blocks_eq hs
  freeSpace := Strict.freeSpace_eq hs
  load := Strict.load_eq hs
  read := Strict.read_eq
  save bytes := ⟨Strict.save_eq hs bytes, s.save_confined bytes⟩
  free address := ⟨Strict.free_eq hs address, free_confined hs.max address⟩

theorem sound_of_ofImage (h : ofImage image = .ok fresh) : fresh.Sound := by
  rw [ofImage] at h
  split at h
  · rename_i hsize
    split at h
    · rename_i hmagic
      injection h with h
      subst h
      have hlength : (Bytes.ofList image).size = image.length := by
        rw [← Bytes.length_toList, Bytes.toList_ofList]
      have hheld : (Bytes.ofList image).Holds 0 ((Bytes.ofList image).slice 0 magic.length) := by
        apply Bytes.holds_slice
        have hmin := hsize.1
        rw [minSize] at hmin
        rw [hlength]
        exact Nat.le_trans (by decide) hmin
      rw [Bytes.slice_eq_take_drop, List.drop_zero, Bytes.toList_ofList, hmagic] at hheld
      exact ⟨hheld, hlength ▸ hsize.1, hlength ▸ hsize.2⟩
    · contradiction
  · contradiction

/-- Whatever is in an image that can be opened, no calls stop. Its blocks keep ending at the same place,
behind which nothing changes, and each further call changes only the blocks that it takes. -/
theorem damaged_handled (h : ofImage image = .ok fresh) :
    ∃ stop, ∀ calls, Strict.run fresh calls = some (fresh.run calls) ∧
      Charted fresh stop (fresh.run calls) ∧ Answers (fresh.run calls) := by
  obtain ⟨stop, hcharted⟩ := exists_charted (sound_of_ofImage h)
  refine ⟨stop, fun calls => ?_⟩
  obtain ⟨hrun, hcharted⟩ := hcharted.run calls
  exact ⟨hrun, hcharted, hcharted.sound.answers⟩

/-- An image of odd length: two free blocks side by side, one of them of odd size, an allocated block
without data, and the header of a block that is cut off. -/
def mangled : List UInt8 :=
  magic ++ [4, 128, 1, 2] ++ [7, 128, 1, 2, 3, 4, 5] ++ [2, 0] ++ [9, 0]

/-- Data are saved into its first block. Freeing makes one block of everything before the header that
is cut off. -/
theorem damaged_handled_mangled :
    ∃ opened, ofImage mangled = .ok opened ∧
      (opened.run [.save [1], .free 19, .free 8]).blocks = [⟨8, 11, true⟩] ∧
      ∃ stop, Strict.run opened [.save [1], .free 19, .free 8] =
          some (opened.run [.save [1], .free 19, .free 8]) ∧
        Charted opened stop (opened.run [.save [1], .free 19, .free 8]) ∧
        Answers (opened.run [.save [1], .free 19, .free 8]) := by
  have hopened : ofImage mangled = .ok ⟨.ofList mangled⟩ := by decide +kernel
  obtain ⟨stop, hcalls⟩ := damaged_handled hopened
  exact ⟨_, hopened, by decide +kernel, stop, hcalls _⟩

end Store

end FlatLisp
