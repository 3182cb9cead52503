/-
Module: FlatLisp.Proofs.Store.Link
Purpose: Values in the store. Persisting a tree saves the bytes of it; attaching a block adds a cell
  that depicts the tree in it, whatever kind of cell that is. A request that fails leaves the store
  and the arena as they were.
Main exports: Store.Persists, Store.persist_persists, Store.Stored.written, Cell.Attaching,
  Cell.attach_attaching, Cell.attach_depicts
-/
import FlatLisp.Proofs.Cell.Traversal
import FlatLisp.Proofs.Store.Traffic
import FlatLisp.Store.Link

namespace FlatLisp

open Cell (Depicts Written)

/-! ### Persisting -/

section Lift

variable {α : Type} {a a' : Arena} {s s' : Store} {x : α}

theorem backed_cell_ok {job : CellM α} (h : job a = .ok x a') :
    (liftM job : BackedM α) ⟨a, s⟩ = .ok x ⟨a', s⟩ := by
  simp only [liftM, monadLift, MonadLift.monadLift, h]

theorem backed_cell_error {job : CellM α} {e : Fault} (h : job a = .error e a') :
    (liftM job : BackedM α) ⟨a, s⟩ = .error e ⟨a', s⟩ := by
  simp only [liftM, monadLift, MonadLift.monadLift, h]

theorem backed_store_ok {request : StoreM α} (h : request s = .ok x s') :
    (liftM request : BackedM α) ⟨a, s⟩ = .ok x ⟨a, s'⟩ := by
  simp only [liftM, monadLift, MonadLift.monadLift, h]

theorem backed_store_error {request : StoreM α} {e : StoreError} (h : request s = .error e s') :
    (liftM request : BackedM α) ⟨a, s⟩ = .error (.store e) ⟨a, s'⟩ := by
  simp only [liftM, monadLift, MonadLift.monadLift, h]

end Lift

namespace Store

/-- The bytes have been saved, or there is no memory to measure them, for which at most `n` lists are open
at once, or no room for them in the store. The arena is as it was, and so is the store unless they have
been saved. -/
inductive Persists (b : Arena) (s : Store) (bytes : List UInt8) (n : Nat) :
    EStateM.Result Fault Backed Nat → Prop where
  | saved {a : Arena} {s' : Store} {block : Nat} (halike : b.Alike a)
      (hsave : s.save bytes = .ok block s') : Persists b s bytes n (.ok block ⟨a, s'⟩)
  | refused {a : Arena} {e : StoreError} (halike : b.Alike a) (hsave : s.save bytes = .error e s) :
      Persists b s bytes n (.error (.store e) ⟨a, s⟩)
  | ranOut {a : Arena} {e : Fault} (halike : b.Alike a) (hout : e.RanOut)
      (hshort : b.free < 4 + 18 * n) : Persists b s bytes n (.error e ⟨a, s⟩)

theorem save_error {s s' : Store} {bytes : List UInt8} {e : StoreError}
    (h : s.save bytes = .error e s') : s' = s := by
  rcases s.save_cases bytes with ⟨e', herror⟩ | ⟨_, _, -, -, -, hok, -⟩
  · rw [herror] at h
    injection h with _ h
    exact h.symm
  · rw [hok] at h
    contradiction

/-- Persisting a tree that is written in the arena saves the bytes of it. -/
theorem persist_persists {b : Arena} {s : Store} {t : Tree} {offset : Nat} (hb : b.Bounded)
    (hfits : t.Fits) (hnesting : t.nesting ≤ Cell.maxNesting)
    (hwritten : Written b s.external ⟨.arena, offset⟩ t.encode) :
    Persists b s t.encode t.nesting (Backed.persist ⟨.arena, offset⟩ ⟨b, s⟩) := by
  have hlength := Cell.treeLength_reckons hb hfits.cells (t.nesting_cells ▸ hnesting)
    (t.encode_cells.symm ▸ hwritten)
  rw [t.encode_cells, t.nesting_cells] at hlength
  rw [Backed.persist]
  dsimp only
  rw [get_bind]
  generalize hresult : Cell.treeLength s.external ⟨.arena, offset⟩ b = result at hlength
  cases hlength with
  | ranOut hout halike hshort =>
      rw [bind_error (backed_cell_error hresult)]
      exact .ranOut halike hout hshort
  | @found a halike =>
      have hfetch : Cell.fetch a s.external ⟨.arena, offset⟩ t.encode.length = .ok t.encode := by
        rw [Cell.fetch_alike halike]
        exact hwritten.fetch
      rw [bind_ok (backed_cell_ok hresult), bind_ok (backed_cell_ok (consult_ok hfetch))]
      cases hsave : s.save t.encode with
      | ok block s' =>
          rw [backed_store_ok hsave]
          exact .saved halike hsave
      | error e s' =>
          obtain rfl := save_error hsave
          rw [backed_store_error hsave]
          exact .refused halike hsave

/-- What is stored can be fetched from outside memory. -/
theorem Stored.written {s : Store} {address : Nat} {bytes : List UInt8} (h : Stored s address bytes)
    (hs : s.Sound) (a : Arena) :
    Written a s.external ⟨.store, address + Block.headerLength⟩ bytes := by
  obtain ⟨hfirst, hheld⟩ := h.holds
  have hsize := hheld.le_size
  refine ⟨Cell.fetch_iff.2 (External.readImage_iff.2
    ⟨⟨Nat.le_add_right_of_le hfirst, hsize⟩, hheld.slice_eq⟩), ?_⟩
  exact Nat.le_trans (Nat.le_trans hsize hs.max) (by decide)

end Store

/-! ### Attaching -/

namespace Arena

/-- The arena with `count` bytes more in the forward region, which begin with `bytes`. -/
def extended (x : Arena) (count : Nat) (bytes : List UInt8) : Arena :=
  { x with memory := x.memory.write x.forward bytes, forward := x.forward + count }

/-- The arena with bytes added to the forward region. -/
def appended (x : Arena) (bytes : List UInt8) : Arena := x.extended bytes.length bytes

variable {x : Arena} {bytes : List UInt8}

theorem preserves_appended (h : bytes.length ≤ x.free) (hx : x.Bounded) :
    x.Preserves (x.appended bytes) where
  size := Bytes.size_write ..
  below := Bytes.sameOn_write (.inl (Nat.le_refl _))
  above := by
    have hcursors := hx.cursors
    rw [free] at h
    exact Bytes.sameOn_write (.inr (by omega))
  forward := Nat.le_add_right ..
  backward := Nat.le_refl _

theorem bounded_appended (h : bytes.length ≤ x.free) (hx : x.Bounded) :
    (x.appended bytes).Bounded := by
  have hcapacity : (x.appended bytes).capacity = x.capacity := Bytes.size_write ..
  have hcursors := hx.cursors
  rw [free] at h
  refine ⟨Nat.le_add_right_of_le hx.header, ?_, hcapacity ▸ hx.backward, hcapacity ▸ hx.capacity,
    hx.backwardMark⟩
  show x.forward + bytes.length ≤ x.backward
  omega

/-- What has been added can be fetched. -/
theorem written_appended (ext : External) (h : bytes.length ≤ x.free) (hx : x.Bounded) :
    Written (x.appended bytes) ext ⟨.arena, x.forward⟩ bytes := by
  have hcursors := hx.cursors
  have hbackward := hx.backward
  have hcapacity := hx.capacity
  rw [free] at h
  rw [capacity] at hbackward hcapacity
  have hsize : x.forward + bytes.length ≤ x.memory.size := by omega
  refine ⟨?_, Nat.le_trans hsize hcapacity⟩
  exact Cell.fetch_iff.2
    ⟨.inl ⟨hx.header, Nat.le_refl _⟩, (Bytes.holds_write hsize).slice_eq⟩

/-- Where there is room for more bytes than are written, the next ones can be written. -/
theorem write_extended (hx : x.Bounded) (xs ys : List UInt8) {count : Nat}
    (hroom : (xs ++ ys).length ≤ count) :
    write (x.forward + xs.length) ys (x.extended count xs) = .ok () (x.extended count (xs ++ ys)) := by
  have hlive : (x.extended count xs).Live (x.forward + xs.length) ys.length := by
    rw [List.length_append] at hroom
    refine .inl ⟨Nat.le_add_right_of_le hx.header, ?_⟩
    rw [Nat.add_assoc]
    exact Nat.add_le_add_left hroom _
  rw [write_ok hlive, extended, extended, Bytes.write_append]

theorem writeHeader_extended (hx : x.Bounded) (h : Header) {count : Nat}
    (hroom : h.encode.length ≤ count) :
    Cell.writeHeader x.forward h (x.extended count []) = .ok () (x.extended count h.encode) :=
  write_extended hx [] h.encode hroom

theorem writeWord_extended (hx : x.Bounded) (h : Header) (n : Nat) {count : Nat}
    (hroom : (h.encode ++ Word.bytes n).length ≤ count) :
    writeWord (x.forward + h.length) n (x.extended count h.encode) =
      .ok () (x.extended count (h.encode ++ Word.bytes n)) := by
  have hwrite := write_extended hx h.encode (Word.bytes n) hroom
  rwa [Header.length_encode] at hwrite

/-- Why the arena does not hand out `count` bytes at the forward cursor: there are fewer, or it is
locked. -/
def Withholds (x : Arena) (count : Nat) (e : ArenaError) : Prop :=
  Fault.RanOut (.arena e) ∧ x.free < count ∨ e = .locked ∧ x.isLocked = true

theorem Withholds.mono {count count' : Nat} {e : ArenaError} (h : x.Withholds count e)
    (hle : count ≤ count') : x.Withholds count' e :=
  h.imp_left fun hout => ⟨hout.1, Nat.lt_of_lt_of_le hout.2 hle⟩

/-- There is room to allocate, or memory has run out or is locked. -/
theorem alloc_forward_cases (x : Arena) (count : Nat) :
    (∃ e, alloc .forward count x = .error e x ∧ x.Withholds count e) ∨
      count ≤ x.free ∧ alloc .forward count x = .ok ⟨x.forward, count⟩ (x.extended count []) := by
  by_cases hhold : x.hold = none
  · by_cases hfree : count ≤ x.free
    · exact .inr ⟨hfree, alloc_forward_ok hhold hfree⟩
    · rw [Nat.not_le] at hfree
      exact .inl ⟨_, alloc_forward_full hhold hfree, .inl ⟨⟨_, _, hfree, rfl⟩, hfree⟩⟩
  · obtain ⟨hold, hhold⟩ := Option.ne_none_iff_exists'.1 hhold
    exact .inl ⟨.locked, bind_error (demandUnlocked_locked hhold), .inr ⟨rfl, by rw [isLocked, hhold]; rfl⟩⟩

end Arena

namespace Cell

section Headers

variable {header link : Header}

theorem footprint_of_linkTo_eq_none (h : linkTo header = none) :
    header.footprint = header.encode.length := by
  cases header with
  | integer value => rfl
  | symbol _ _ _ _ _ => contradiction
  | list _ _ _ => contradiction

/-- The header of a linked cell says as much as the one it is made from. -/
theorem linked_of_linkTo (h : linkTo header = some link) :
    link.isLinked = true ∧ link.footprint = link.length + Header.addressLength ∧
      (header.Fits → link.Fits) := by
  cases header with
  | symbol _ _ _ _ _ =>
      obtain rfl := Option.some.inj h
      exact ⟨rfl, rfl, fun hfits => hfits⟩
  | integer value => contradiction
  | list _ _ _ =>
      obtain rfl := Option.some.inj h
      exact ⟨rfl, rfl, fun hfits => hfits⟩

/-- No cell that is attached is longer than a header of a symbol and an address. -/
def attachedLength : Nat := Header.symbolLength + Header.addressLength

theorem length_le_of_linkTo_eq_none (h : linkTo header = none) :
    header.encode.length ≤ attachedLength := by
  cases header with
  | integer value =>
      rw [Header.length_encode]
      exact (by decide : Header.integerLength ≤ attachedLength)
  | symbol _ _ _ _ _ => contradiction
  | list _ _ _ => contradiction

theorem length_le_of_linkTo (h : linkTo header = some link) :
    link.length + Header.addressLength ≤ attachedLength := by
  cases header with
  | symbol _ _ _ _ _ =>
      obtain rfl := Option.some.inj h
      exact Nat.le_refl _
  | integer value => contradiction
  | list _ _ _ =>
      obtain rfl := Option.some.inj h
      exact (by decide : Header.listLength + Header.addressLength ≤ attachedLength)

end Headers

variable {x : Arena} {ext : External} {block : Nat}

/-- What attaching the cell at `root` comes to. Nothing has changed, or one cell has been added: a copy
of it, or a cell that is linked to what it has. -/
inductive Attaching (ext : External) (root : Place) (x : Arena) :
    EStateM.Result Fault Arena Place → Prop where
  | unread {e : Fault} (hload : load x ext root = .error e) :
      Attaching ext root x (.error e x)
  | bodiless {header link : Header} {e : Fault}
      (hload : load x ext root = .ok header)
      (hlink : linkTo header = some link)
      (hbody : body x ext root header = .error e) :
      Attaching ext root x (.error e x)
  | refused {e : ArenaError} (hcause : x.Withholds attachedLength e) :
      Attaching ext root x (.error (.arena e) x)
  | copied {header : Header} (hload : load x ext root = .ok header)
      (hlink : linkTo header = none) (hroom : header.encode.length ≤ x.free) :
      Attaching ext root x (.ok ⟨.arena, x.forward⟩ (x.appended header.encode))
  | linked {header link : Header} {target : Place}
      (hload : load x ext root = .ok header)
      (hlink : linkTo header = some link)
      (hbody : body x ext root header = .ok target)
      (hroom : (link.encode ++ Word.bytes target.offset).length ≤ x.free) :
      Attaching ext root x
        (.ok ⟨.arena, x.forward⟩ (x.appended (link.encode ++ Word.bytes target.offset)))

theorem attach_attaching (hx : x.Bounded) (ext : External) (block : Nat) :
    Attaching ext ⟨.store, block + Block.headerLength⟩ x (attach ext block x) := by
  rw [attach]
  cases hload : load x ext ⟨.store, block + Block.headerLength⟩ with
  | error e =>
      rw [bind_error (consult_error hload)]
      exact .unread hload
  | ok header =>
      rw [bind_ok (consult_ok hload)]
      cases hlink : linkTo header with
      | none =>
          dsimp only
          rw [footprint_of_linkTo_eq_none hlink]
          rcases x.alloc_forward_cases header.encode.length with
            ⟨e, halloc, hcause⟩ | ⟨hroom, halloc⟩
          · rw [bind_error (cell_error halloc)]
            exact .refused (hcause.mono (length_le_of_linkTo_eq_none hlink))
          · have hwrite := Arena.writeHeader_extended hx header (Nat.le_refl _)
            rw [bind_ok (cell_ok halloc), bind_ok (cell_ok hwrite)]
            exact .copied hload hlink hroom
      | some link =>
          dsimp only
          cases hbody : body x ext ⟨.store, block + Block.headerLength⟩ header with
          | error e =>
              rw [bind_error (consult_error hbody)]
              exact .bodiless hload hlink hbody
          | ok target =>
              have hlength : (link.encode ++ Word.bytes target.offset).length =
                  link.length + Header.addressLength := by
                rw [List.length_append, Header.length_encode]
                rfl
              rw [bind_ok (consult_ok hbody), ← hlength]
              rcases x.alloc_forward_cases (link.encode ++ Word.bytes target.offset).length with
                ⟨e, halloc, hcause⟩ | ⟨hroom, halloc⟩
              · rw [bind_error (cell_error halloc)]
                exact .refused (hcause.mono (hlength ▸ length_le_of_linkTo hlink))
              · have hheader := Arena.writeHeader_extended hx link
                  (List.length_append ▸ Nat.le_add_right _ (Word.bytes target.offset).length)
                have haddress := Arena.writeWord_extended hx link target.offset (Nat.le_refl _)
                rw [bind_ok (cell_ok halloc), bind_ok (cell_ok hheader), bind_ok (cell_ok haddress)]
                exact .linked hload hlink hbody hroom

/-- Nothing has changed where attaching fails. -/
theorem attach_error {y : Arena} {e : Fault} (hx : x.Bounded) (h : attach ext block x = .error e y) :
    y = x := by
  have hattaching := attach_attaching hx ext block
  rw [h] at hattaching
  cases hattaching with
  | unread _ | bodiless _ _ _ | refused _ => rfl

/-! ### What is attached -/

section Attached

variable {y : Arena} {p c q r target : Place} {t : Tree} {header link : Header}

/-- A body in outside memory is where the cell says. -/
theorem space_of_body (h : body y ext p header = .ok q) (hp : p.space = .store) :
    q.space = .store := by
  rw [body] at h
  cases hstep : step p header.length with
  | error e => rw [hstep] at h; contradiction
  | ok after =>
      obtain ⟨-, rfl⟩ := offset_of_step hstep
      rw [hstep] at h
      simp only [bind, Except.bind] at h
      split at h
      · cases hword : fetchWord y ext (p.after header.length) with
        | error e => rw [hword] at h; contradiction
        | ok n =>
            rw [hword] at h
            injection h with h
            rw [← h]
      · injection h with h
        rw [← h]
        exact hp

/-- The address after a linked header is where the body is. -/
theorem body_linked {n : Nat} (hlinked : link.isLinked = true) (hn : n < 65536)
    (h : Written y ext p (link.encode ++ Word.bytes n)) : body y ext p link = .ok ⟨.store, n⟩ := by
  have hoffset := h.left.offset
  have hword := h.right
  rw [Header.length_encode] at hoffset hword
  have hfetch := hword.fetch
  rw [Word.length_bytes, Word.bytes] at hfetch
  have haddress : fetchWord y ext (p.after link.length) = .ok n := by
    simp only [fetchWord, hfetch, bind, Except.bind, pure, Except.pure, Word.value_bytes hn]
  rw [body, step_ok hoffset]
  simp only [bind, Except.bind, pure, Except.pure, hlinked, if_true, haddress]

/-- What depicts a tree has a header, and a body if it can be linked to. -/
theorem Depicts.root (h : Depicts y ext t p q) : ∃ header, load y ext p = .ok header ∧
    (linkTo header = none ∨ ∃ target, body y ext p header = .ok target) := by
  cases t with
  | symbol sigil quoted chars =>
      obtain ⟨linked, hash, text, hroot, htext, -⟩ := h
      exact ⟨_, hroot, .inr ⟨text, htext⟩⟩
  | integer value => exact ⟨_, h.1, .inl rfl⟩
  | list sigil children =>
      obtain ⟨linked, first, last, next, hroot, hfirst, -⟩ := h
      exact ⟨_, hroot, .inr ⟨first, hfirst⟩⟩

/-- A cell that is linked to the body of another depicts the same. -/
theorem Depicts.relink (h : Depicts y ext t p q) (hload : load y ext p = .ok header)
    (hlink : linkTo header = some link) (hbody : body y ext p header = .ok target)
    (hload' : load y ext c = .ok link) (hbody' : body y ext c link = .ok target)
    (hstep : step c link.footprint = .ok r) : Depicts y ext t c r := by
  cases t with
  | symbol sigil quoted chars =>
      obtain ⟨linked, hash, text, hroot, htext, hchars, -⟩ := h
      obtain rfl : header = _ := Except.ok.inj (hload.symm.trans hroot)
      obtain rfl : target = text := Except.ok.inj (hbody.symm.trans htext)
      obtain rfl : _ = link := Option.some.inj hlink
      exact ⟨true, hash, target, hload', hbody', hchars, hstep⟩
  | integer value =>
      obtain rfl : header = _ := Except.ok.inj (hload.symm.trans h.1)
      contradiction
  | list sigil children =>
      obtain ⟨linked, first, last, next, hroot, hfirst, hchildren, -, -⟩ := h
      obtain rfl : header = _ := Except.ok.inj (hload.symm.trans hroot)
      obtain rfl : target = first := Except.ok.inj (hbody.symm.trans hfirst)
      obtain rfl : _ = link := Option.some.inj hlink
      exact ⟨true, target, last, r, hload', hbody', hchildren, hstep, rfl⟩

/-- A cell that has the same header as an integer depicts the same. -/
theorem Depicts.copy (h : Depicts y ext t p q) (hload : load y ext p = .ok header)
    (hlink : linkTo header = none) (hload' : load y ext c = .ok header)
    (hstep : step c header.footprint = .ok r) : Depicts y ext t c r := by
  cases t with
  | symbol sigil quoted chars =>
      obtain ⟨linked, hash, text, hroot, -⟩ := h
      obtain rfl : header = _ := Except.ok.inj (hload.symm.trans hroot)
      contradiction
  | integer value =>
      obtain rfl : header = _ := Except.ok.inj (hload.symm.trans h.1)
      exact ⟨hload', hstep⟩
  | list sigil children =>
      obtain ⟨linked, first, last, next, hroot, -⟩ := h
      obtain rfl : header = _ := Except.ok.inj (hload.symm.trans hroot)
      contradiction

/-- A cell has been added that depicts the tree, and nothing that was live is lost; or there is no room
for it in the arena, or it is locked, and it is as it was. -/
inductive Attaches (ext : External) (t : Tree) (x : Arena) :
    EStateM.Result Fault Arena Place → Prop where
  | added {c q : Place} {y : Arena} (hpreserves : x.Preserves y) (hbounded : y.Bounded)
      (hcell : Depicts y ext t c q) : Attaches ext t x (.ok c y)
  | refused {e : ArenaError} (hcause : x.Withholds attachedLength e) :
      Attaches ext t x (.error (.arena e) x)

/-- Attaching a block that holds a tree adds a cell that depicts this tree. -/
theorem attach_depicts (hx : x.Bounded)
    (h : Depicts x ext t ⟨.store, block + Block.headerLength⟩ q) :
    Attaches ext t x (attach ext block x) := by
  have hattaching := attach_attaching hx ext block
  obtain ⟨header, hroot, hsome⟩ := h.root
  generalize attach ext block x = result at hattaching
  cases hattaching with
  | refused hcause => exact .refused hcause
  | unread hload =>
      rw [hroot] at hload
      contradiction
  | bodiless hload hlink hbody =>
      obtain rfl := Except.ok.inj (hload.symm.trans hroot)
      rw [hlink, hbody] at hsome
      rcases hsome with hsome | ⟨_, hsome⟩ <;> contradiction
  | @copied header hload hlink hroom =>
      have hpreserves := Arena.preserves_appended hroom hx
      have hretains : Retains ext x _ := retains_of_preserves hx hpreserves
      have hwritten := Arena.written_appended ext hroom hx
      have hfits := fits_of_load hload
      have hload' : load (x.appended header.encode) ext ⟨.arena, x.forward⟩ = .ok header := by
        rw [← List.append_nil header.encode] at hwritten
        exact List.append_nil header.encode ▸ load_written hfits hwritten
      have hoffset := hwritten.offset
      rw [← footprint_of_linkTo_eq_none hlink] at hoffset
      exact .added hpreserves (Arena.bounded_appended hroom hx)
        ((h.of_retains hretains).copy (hretains.load hload) hlink hload' (step_ok hoffset))
  | @linked header link target hload hlink hbody hroom =>
      have hpreserves := Arena.preserves_appended hroom hx
      have hretains : Retains ext x _ := retains_of_preserves hx hpreserves
      have hwritten := Arena.written_appended ext hroom hx
      have hoffset := hwritten.offset
      obtain ⟨hlinked, hfootprint, hfits⟩ := linked_of_linkTo hlink
      have hload' := load_written (hfits (fits_of_load hload)) hwritten
      have hbody' := body_linked hlinked
        (Nat.lt_succ_of_le (offset_of_body hbody).2) hwritten
      have htarget : target = ⟨.store, target.offset⟩ := by
        rw [← space_of_body hbody rfl]
      rw [← htarget] at hbody'
      rw [List.length_append, Header.length_encode, Word.length_bytes] at hoffset
      exact .added hpreserves (Arena.bounded_appended hroom hx)
        ((h.of_retains hretains).relink (hretains.load hload) hlink (hretains.body hbody) hload' hbody'
          (step_ok (hfootprint ▸ hoffset)))

/-- Attaching reads nothing outside the arena but the root, so it makes no difference to it what else
there is. -/
theorem attach_congr {ext' : External} (hfits : t.Fits)
    (h : Written x ext ⟨.store, block + Block.headerLength⟩ t.encode)
    (h' : Written x ext' ⟨.store, block + Block.headerLength⟩ t.encode) :
    attach ext block x = attach ext' block x := by
  obtain ⟨rest, hrest⟩ := t.header_prefix
  rw [hrest] at h h'
  have hlinked : t.header.isLinked = false := by cases t <;> rfl
  have hoffset := h.left.offset
  rw [Header.length_encode] at hoffset
  rw [attach, attach, bind_ok (consult_ok (load_written hfits.header h)),
    bind_ok (consult_ok (load_written hfits.header h'))]
  cases linkTo t.header with
  | none => rfl
  | some link =>
      dsimp only
      rw [bind_ok (consult_ok (body_inline hlinked hoffset)),
        bind_ok (consult_ok (body_inline hlinked hoffset))]

end Attached

end Cell

end FlatLisp
