/-
Module: FlatLisp.Proofs.Store.Usage
Purpose: What a store is like after any requests. The data that were saved and not freed lie in blocks
  of their own, which are the allocated ones, and can be loaded as long as they are not freed.
Main exports: Store.Request, Store.Usage, Store.Usage.run, Store.Usage.Kept, Store.Usage.kept_run,
  Store.Usage.run_tidy, Store.Usage.run_loads
-/
import FlatLisp.Proofs.Store.Coalesced

namespace FlatLisp

namespace Store

open Block (headerLength)

/-- What can be asked of a store. It is opened again from its own image. -/
inductive Request where
  | save (bytes : List UInt8)
  | free (address : Nat)
  | load (address count : Nat)
  | format
  | reopen
deriving Repr

/-- Data that have been saved, with the address that was answered. -/
structure Parcel where
  address : Nat
  bytes : List UInt8
deriving DecidableEq, Repr

/-- A store, and the data that have been saved in it and not been freed since. -/
structure Usage where
  store : Store
  parcels : List Parcel

namespace Usage

/-- The addresses of the data. -/
def addresses (u : Usage) : List Nat := u.parcels.map (·.address)

/-- What a request, granted or refused, makes of a store and of what is noted of it. -/
def ask (u : Usage) : Request → Usage
  | .save bytes =>
      match Store.save bytes u.store with
      | .ok address s => ⟨s, ⟨address, bytes⟩ :: u.parcels⟩
      | .error _ s => ⟨s, u.parcels⟩
  | .free address =>
      match Store.free address u.store with
      | .ok () s => ⟨s, u.parcels.filter (·.address != address)⟩
      | .error _ s => ⟨s, u.parcels⟩
  | .load .. => u
  | .format => ⟨u.store.format, []⟩
  | .reopen =>
      match ofImage u.store.image.toList with
      | .ok s => ⟨s, u.parcels⟩
      | .error _ => u

/-- Requests one after the other, to a store in which nothing has been saved. -/
def run (fresh : Store) (requests : List Request) : Usage := requests.foldl ask ⟨fresh, []⟩

end Usage

variable {s s' fresh : Store} {b : Block} {address size : Nat} {bytes : List UInt8} {p : Parcel}
  {u : Usage} {kept : Nat → Prop}

/-! ### Where data are kept -/

/-- The room for `count` bytes of data: as many as make an even number, or the two more that would
have been too few for a block of their own. -/
def Snug (capacity count : Nat) : Prop :=
  capacity = count + count % 2 ∨ capacity = count + count % 2 + 2

/-- The block is the allocated one in which the data were saved. -/
structure Carries (s : Store) (p : Parcel) (b : Block) : Prop where
  mem : b ∈ s.blocks
  address : b.address = p.address
  allocated : b.free = false
  capacity : Snug b.capacity p.bytes.length
  data : s.image.Holds b.data p.bytes

/-- Of a block of even size no more is taken than is asked for, or two bytes more. -/
theorem snug_cut {count : Nat} (h : sizeFor count ≤ b.size) (heven : b.size % 2 = 0) :
    ∃ taken ∈ cut b (sizeFor count),
      taken.address = b.address ∧ taken.free = false ∧ Snug taken.capacity count := by
  rw [cut]
  split
  · refine ⟨_, List.mem_cons_self .., rfl, rfl, .inl ?_⟩
    rw [sized, sizeFor, Nat.add_sub_cancel]
  · rename_i hsplit
    refine ⟨_, List.mem_cons_self .., rfl, rfl, ?_⟩
    rw [minSplit] at hsplit
    rw [sizeFor, headerLength] at h hsplit
    show b.size - 2 = _ ∨ b.size - 2 = _
    omega

theorem carries_of_save (hs : s.Coalesced) (h : save bytes s = .ok address s') :
    ∃ b, Carries s' ⟨address, bytes⟩ b := by
  rcases s.save_cases bytes with ⟨e, herror⟩ | ⟨b, s'', hb, -, hneed, hok, hrecut, hheld⟩
  · cases herror.symm.trans h
  · cases hok.symm.trans h
    obtain ⟨taken, htaken, haddress, hallocated, hcapacity⟩ := snug_cut hneed (hs.even b hb)
    obtain ⟨pre, post, -, hblocks, -⟩ := hrecut.blocks
    refine ⟨taken, ?_, haddress, hallocated, hcapacity, ?_⟩
    · rw [hblocks]
      exact List.mem_append_right _ (List.mem_append_left _ htaken)
    · rw [Block.data, haddress]
      exact hheld

/-- Data stay where they are, unless their block was to be freed. -/
theorem Moved.carries (h : Moved kept s s') (hkept : kept p.address) (hp : Carries s p b) :
    Carries s' p b := by
  obtain ⟨hmem, hsame⟩ := h.block hp.mem hp.allocated (hp.address ▸ hkept)
  have hend : b.data + p.bytes.length ≤ b.stop := by
    have hcapacity := hp.capacity
    rw [Snug] at hcapacity
    rw [Block.data, Block.stop, Block.size]
    omega
  exact ⟨hmem, hp.address, hp.allocated, hp.capacity,
    hp.data.of_sameOn h.size_eq hsame (Nat.le_add_right ..) hend⟩

/-- The data are the first of what is in their block. -/
theorem Carries.prefix_slice (h : Carries s p b) : p.bytes <+: s.image.slice b.data b.capacity := by
  have hcapacity := h.capacity
  rw [Snug] at hcapacity
  have hslice := h.data.slice_eq
  rw [Bytes.slice_eq_take_drop] at hslice ⊢
  rw [← hslice]
  exact List.take_prefix_take_left (by omega)

/-- As many bytes of a block can be loaded as it has room for. -/
theorem Carries.load (h : Carries s p b) (count : Nat) :
    Store.load s p.address count =
      .ok (b.capacity, (s.image.slice b.data b.capacity).take count) := by
  have hfind : s.find p.address = .ok b := by
    cases hfind : s.find p.address with
    | error e =>
        have hfree := (find_eq_error hfind).2 b h.mem h.address
        rw [h.allocated] at hfree
        contradiction
    | ok c =>
        obtain ⟨hc, haddress, -⟩ := find_eq_ok hfind
        rw [eq_of_address hc h.mem (haddress.trans h.address.symm)]
  have hslice : s.image.slice b.data (min count b.capacity) =
      (s.image.slice b.data b.capacity).take count := by
    rw [Bytes.slice_eq_take_drop, Bytes.slice_eq_take_drop, List.take_take]
  rw [Store.load, hfind, ← hslice]
  rfl

/-- There is as much in a block as it has room for. -/
theorem length_slice_of_mem (h : b ∈ s.blocks) :
    (s.image.slice b.data b.capacity).length = b.capacity := by
  refine Bytes.length_slice ?_
  have hstop := (stands_of_mem h).2.stop
  rw [Block.stop, Block.size] at hstop
  rw [Block.data]
  omega

namespace Usage

/-! ### One request -/

/-- The store is in order, and its allocated blocks are those with the data. -/
structure Kept (u : Usage) : Prop where
  sound : u.store.Sound
  coalesced : u.store.Coalesced
  addresses : u.addresses.Perm (allocated u.store.blocks)
  carried : ∀ p ∈ u.parcels, ∃ b, Carries u.store p b

/-- A store in which nothing is allocated keeps nothing. -/
theorem kept_format (hmin : minSize ≤ s.image.size) (hmax : s.image.size ≤ maxSize)
    (heven : s.image.size % 2 = 0) : Kept ⟨s.format, []⟩ where
  sound := sound_format hmin hmax
  coalesced := coalesced_format hmin hmax heven
  addresses := by
    rw [blocks_format hmin hmax]
    exact .nil
  carried := fun _ hp => absurd hp (List.not_mem_nil)

theorem Kept.save (h : Kept u) (bytes : List UInt8) : Kept (u.ask (.save bytes)) := by
  have hcoalesced := h.coalesced.after_save bytes
  have hmoved : Moved (fun _ => True) u.store _ := moved_save u.store bytes
  rw [ask]
  cases hsave : Store.save bytes u.store with
  | error e s' =>
      obtain rfl := eq_of_save_error hsave
      exact h
  | ok address s' =>
      rw [hsave] at hcoalesced hmoved
      refine ⟨hmoved.sound h.sound, hcoalesced, ?_, ?_⟩
      · exact (h.addresses.cons address).trans (allocated_of_save hsave).symm
      · refine List.forall_mem_cons.2 ⟨carries_of_save h.coalesced hsave, fun p hp => ?_⟩
        obtain ⟨b, hb⟩ := h.carried p hp
        exact ⟨b, hmoved.carries trivial hb⟩

theorem Kept.free (h : Kept u) (address : Nat) : Kept (u.ask (.free address)) := by
  have hcoalesced := h.coalesced.after_free h.sound.max address
  have hmoved : Moved (· ≠ address) u.store (after (Store.free address u.store)) :=
    moved_free h.sound.max (· rfl)
  rw [ask]
  by_cases hallocated : address ∈ allocated u.store.blocks
  · obtain ⟨s', hfree, hblocks⟩ := free_ok h.sound.max hallocated
    rw [hfree] at hcoalesced hmoved ⊢
    -- The addresses are different, so only the one that is freed goes.
    have hperm := h.addresses.trans hblocks
    have hnodup : u.addresses.Nodup := h.addresses.nodup_iff.2 (nodup_allocated u.store)
    have hother : ((u.addresses).filter (· != address)).Perm (allocated s'.blocks) := by
      rw [← hnodup.erase_eq_filter]
      exact (hperm.erase address).trans (by rw [List.erase_cons_head])
    refine ⟨hmoved.sound h.sound, hcoalesced, ?_, fun p hp => ?_⟩
    · rwa [Usage.addresses, List.filter_map] at hother
    · obtain ⟨hp, hne⟩ := List.mem_filter.1 hp
      obtain ⟨b, hb⟩ := h.carried p hp
      exact ⟨b, hmoved.carries (bne_iff_ne.1 hne) hb⟩
  · rw [free_error h.sound.max hallocated]
    exact h

theorem Kept.ask (h : Kept u) (request : Request) : Kept (u.ask request) := by
  cases request with
  | save bytes => exact h.save bytes
  | free address => exact h.free address
  | load address count => exact h
  | format => exact kept_format h.sound.min h.sound.max h.coalesced.size_even
  | reopen =>
      rw [Usage.ask, ofImage_toList h.sound]
      exact h

theorem size_ask (h : Kept u) (request : Request) :
    (u.ask request).store.image.size = u.store.image.size := by
  cases request with
  | save bytes =>
      have hmoved : Moved (fun _ => True) u.store _ := moved_save u.store bytes
      rw [ask]
      cases hsave : Store.save bytes u.store <;> rw [hsave] at hmoved <;> exact hmoved.size_eq
  | free address =>
      have hmoved : Moved (· ≠ address) u.store (after (Store.free address u.store)) :=
        moved_free h.sound.max (· rfl)
      rw [ask]
      cases hfree : Store.free address u.store <;> rw [hfree] at hmoved <;> exact hmoved.size_eq
  | load address count => rfl
  | format => exact u.store.size_format
  | reopen =>
      rw [ask, ofImage_toList h.sound]

/-! ### Many requests -/

theorem kept_asked (h : Kept u) (requests : List Request) :
    Kept (requests.foldl ask u) ∧
      (requests.foldl ask u).store.image.size = u.store.image.size := by
  induction requests generalizing u with
  | nil => exact ⟨h, rfl⟩
  | cons request rest ih =>
      obtain ⟨hkept, hsize⟩ := ih (h.ask request)
      exact ⟨hkept, hsize.trans (size_ask h request)⟩

theorem kept_run (h : create size = .ok fresh) (requests : List Request) :
    Kept (run fresh requests) ∧ (run fresh requests).store.image.size = size / 2 * 2 := by
  obtain ⟨rfl, hmin, hmax⟩ := create_eq_ok h
  rw [← Bytes.size_zeros (size / 2 * 2)] at hmin hmax
  have heven : (Bytes.zeros (size / 2 * 2)).size % 2 = 0 := by
    rw [Bytes.size_zeros]
    omega
  have hstart : Kept ⟨Store.format ⟨Bytes.zeros (size / 2 * 2)⟩, []⟩ :=
    kept_format hmin hmax heven
  obtain ⟨hkept, hsize⟩ := kept_asked hstart requests
  exact ⟨hkept, hsize.trans ((size_format _).trans (Bytes.size_zeros _))⟩

/-- A store of `size` bytes, made even, as any requests leave it. -/
structure Tidy (size : Nat) (u : Usage) : Prop where
  length : u.store.image.size = size / 2 * 2
  /-- The blocks lie one behind the other, the last as far as the image goes. -/
  filled : Tiles u.store.image firstBlock u.store.blocks u.store.image.size
  even : ∀ b ∈ u.store.blocks, b.size % 2 = 0 ∧ headerLength ≤ b.size
  apart : u.store.blocks.IsChain Apart
  total : total u.store.blocks = size / 2 * 2 - firstBlock
  /-- The allocated blocks are those in which something has been saved and not been freed. -/
  addresses : u.addresses.Perm (allocated u.store.blocks)
  reopens : ofImage u.store.image.toList = .ok u.store
  /-- Something is saved just if there is room for it and for a header. -/
  saves : ∀ bytes, (∃ address s, Store.save bytes u.store = .ok address s) ↔
    ∃ low high, Vacancy u.store low high ∧ low + (bytes.length + bytes.length % 2 + 2) ≤ high
  saves_not : ∀ bytes e s, Store.save bytes u.store = .error e s → s = u.store
  frees : ∀ address ∈ u.addresses, ∃ s, Store.free address u.store = .ok () s
  frees_not : ∀ address ∉ u.addresses,
    Store.free address u.store = .error (.badAddress address) u.store
  /-- When everything is freed, in any order, there is one free block again. -/
  empties : ∀ order : List Nat, order.Perm u.addresses →
    ∃ s, order.forM Store.free u.store = .ok () s ∧
      s.blocks = [⟨firstBlock, size / 2 * 2 - firstBlock - headerLength, true⟩]

/-- After any requests the blocks of a store tile its image and are coalesced, and what it grants and
refuses is just what the data in it leave room for. -/
theorem run_tidy (h : create size = .ok fresh) (requests : List Request) :
    Tidy size (run fresh requests) := by
  obtain ⟨hkept, hsize⟩ := kept_run h requests
  have hcoalesced := hkept.coalesced
  have hmax := hkept.sound.max
  refine ⟨hsize, hcoalesced.filled, fun b hb => ⟨hcoalesced.even b hb, Nat.le_add_left ..⟩,
    hcoalesced.apart, ?_, hkept.addresses, ofImage_toList hkept.sound, fun _ => hcoalesced.save_iff,
    ?_, ?_, ?_, ?_⟩
  · have htotal := hcoalesced.size_eq
    omega
  · intro bytes e s hsave
    exact eq_of_save_error hsave
  · intro address haddress
    exact (free_iff hmax).2 (hkept.addresses.mem_iff.1 haddress)
  · intro address haddress
    exact free_error hmax fun hallocated => haddress (hkept.addresses.mem_iff.2 hallocated)
  · intro order horder
    obtain ⟨s, hfree, hblocks⟩ := hcoalesced.free_all hkept.sound (horder.trans hkept.addresses)
    rw [hsize] at hblocks
    exact ⟨s, hfree, hblocks⟩

/-- The six bytes that are freed are taken again as a whole, since two would be too few to be left. -/
theorem run_tidy_reused : ∃ fresh, create 33 = .ok fresh ∧
    (run fresh [.save [1, 2, 3], .save [4, 5], .free 8, .save [6, 7], .reopen]).store.blocks =
      [⟨8, 4, false⟩, ⟨14, 2, false⟩, ⟨18, 12, true⟩] ∧
    Tidy 33 (run fresh [.save [1, 2, 3], .save [4, 5], .free 8, .save [6, 7], .reopen]) :=
  ⟨_, rfl, by decide +kernel, run_tidy rfl _⟩

/-- What has been saved and not been freed can be loaded, and begins what is in its block; no other
data lie in that block. -/
theorem run_loads (h : create size = .ok fresh) (requests : List Request) :
    (∀ p ∈ (run fresh requests).parcels, ∃ content : List UInt8,
      p.bytes <+: content ∧ Snug content.length p.bytes.length ∧
      ⟨p.address, content.length, false⟩ ∈ (run fresh requests).store.blocks ∧
      ∀ count, Store.load (run fresh requests).store p.address count =
        .ok (content.length, content.take count)) ∧
    (run fresh requests).parcels.Pairwise fun p q =>
      ∀ b ∈ (run fresh requests).store.blocks, b.address = p.address →
        ∀ c ∈ (run fresh requests).store.blocks, c.address = q.address →
          ∀ i, Covers b i → ¬ Covers c i := by
  obtain ⟨hkept, -⟩ := kept_run h requests
  constructor
  · intro p hp
    obtain ⟨b, hb⟩ := hkept.carried p hp
    have hlength := length_slice_of_mem hb.mem
    refine ⟨_, hb.prefix_slice, hlength.symm ▸ hb.capacity, ?_, fun count => ?_⟩
    · rw [hlength, ← hb.address, ← hb.allocated]
      exact hb.mem
    · rw [hlength]
      exact hb.load count
  · have hnodup := hkept.addresses.nodup_iff.2 (nodup_allocated _)
    refine (List.pairwise_map.1 hnodup).imp fun hne b hb haddress c hc haddress' i hbyte hbyte' => ?_
    rw [← haddress, ← haddress', eq_of_covers hb hc hbyte hbyte'] at hne
    exact hne rfl

/-- Behind the two bytes that are saved the block still has one of those that were freed. -/
theorem run_loads_reused : ∃ fresh, create 33 = .ok fresh ∧
    (run fresh [.save [1, 2, 3], .save [4, 5], .free 8, .save [6, 7]]).parcels =
      [⟨8, [6, 7]⟩, ⟨14, [4, 5]⟩] ∧
    ∃ content : List UInt8, [6, 7] <+: content ∧ Snug content.length 2 ∧
      ∀ count, Store.load (run fresh [.save [1, 2, 3], .save [4, 5], .free 8, .save [6, 7]]).store 8
        count = .ok (content.length, content.take count) := by
  refine ⟨_, rfl, by decide +kernel, ?_⟩
  have hcreate : create 33 = .ok _ := rfl
  obtain ⟨hloads, -⟩ :=
    run_loads hcreate [.save [1, 2, 3], .save [4, 5], .free 8, .save [6, 7]]
  obtain ⟨content, hprefix, hsnug, -, hload⟩ := hloads ⟨8, [6, 7]⟩ (by decide +kernel)
  exact ⟨content, hprefix, hsnug, hload⟩

end Usage

end Store

end FlatLisp
