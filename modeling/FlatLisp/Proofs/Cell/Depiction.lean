/-
Module: FlatLisp.Proofs.Cell.Depiction
Purpose: Which tree the cells at a place depict, wherever each body is: right after its header or
  behind an address. A tree that is written with all bodies inline is depicted, and what is depicted
  stays so while nothing that can be fetched is lost.
Main exports: Cell.Written, Cell.load_written, Cell.Depicts, Cell.depicts_of_written, Cell.Retains,
  Cell.Depicts.of_retains, Cell.retains_of_preserves
-/
import FlatLisp.Proofs.Arena.Pile

namespace FlatLisp

/-- The place `count` bytes further on. -/
def Place.after (p : Place) (count : Nat) : Place := { p with offset := p.offset + count }

@[simp] theorem Place.after_zero (p : Place) : p.after 0 = p := rfl

/-- A place, or none, is read back from its three bytes. -/
theorem Place.exists_encode {p : Option Place} (h : ∀ q ∈ p, q.offset < 65536) : ∃ space low high,
    Place.encode p = [space, low, high] ∧ Place.decode space low high = some p := by
  cases p with
  | none => exact ⟨0, 0, 0, rfl, rfl⟩
  | some p =>
      obtain ⟨space, offset⟩ := p
      have hword := Word.value_bytes (h _ rfl)
      cases space with
      | arena =>
          refine ⟨1, _, _, rfl, ?_⟩
          rw [Place.decode, hword]
          rfl
      | store =>
          refine ⟨2, _, _, rfl, ?_⟩
          rw [Place.decode, hword]
          rfl

theorem Place.after_after (p : Place) (m n : Nat) : (p.after m).after n = p.after (m + n) := by
  simp only [after, Nat.add_assoc]

namespace Cell

/-! ### Written bytes -/

section Written

variable {a : Arena} {ext : External} {p : Place} {xs ys : List UInt8}

theorem step_ok {count : Nat} (h : p.offset + count ≤ Place.maxOffset) :
    step p count = .ok (p.after count) := by
  rw [step, Place.step, if_pos h]
  rfl

theorem offset_of_step {q : Place} {count : Nat} (h : step p count = .ok q) :
    p.offset + count ≤ Place.maxOffset ∧ q = p.after count := by
  rw [step, Place.step] at h
  split at h
  · rename_i q' hstep
    split at hstep
    · injection h with h
      injection hstep with hstep
      exact ⟨‹_›, by rw [← h, ← hstep]; rfl⟩
    · contradiction
  · contradiction

/-- Fetching succeeds where all bytes are live, or can be read, and shows them. -/
theorem fetch_iff {count : Nat} {bytes : List UInt8} :
    fetch a ext p count = .ok bytes ↔
      match p.space with
      | .arena => a.Live p.offset count ∧ a.memory.slice p.offset count = bytes
      | .store => ext.read p.offset count = .ok bytes := by
  obtain ⟨space, offset⟩ := p
  cases space with
  | arena =>
      simp only [fetch, Arena.bytes]
      split <;> simp_all
  | store =>
      dsimp only [fetch]
      cases ext.read offset count <;> simp

/-- What can be fetched as a whole can be fetched in parts. -/
theorem fetch_append (h : fetch a ext p (xs ++ ys).length = .ok (xs ++ ys)) :
    fetch a ext p xs.length = .ok xs ∧ fetch a ext (p.after xs.length) ys.length = .ok ys := by
  obtain ⟨space, offset⟩ := p
  rw [fetch_iff] at h ⊢
  rw [fetch_iff]
  dsimp only [Place.after] at h ⊢
  cases space with
  | arena =>
      obtain ⟨hlive, hslice⟩ := h
      obtain ⟨hleft, hright⟩ := Bytes.slice_append hslice
      rw [List.length_append] at hlive
      refine ⟨⟨?_, hleft⟩, ⟨?_, hright⟩⟩
      · rcases hlive with ⟨hlow, hhigh⟩ | ⟨hlow, hhigh⟩
        · exact .inl ⟨hlow, by omega⟩
        · exact .inr ⟨hlow, by omega⟩
      · rcases hlive with ⟨hlow, hhigh⟩ | ⟨hlow, hhigh⟩
        · exact .inl ⟨Nat.le_add_right_of_le hlow, by omega⟩
        · exact .inr ⟨Nat.le_add_right_of_le hlow, by omega⟩
  | store => exact ext.read_append h

/-- The bytes `bytes` can be fetched from the place `p`, and each of them has a place. -/
structure Written (a : Arena) (ext : External) (p : Place) (bytes : List UInt8) : Prop where
  fetch : Cell.fetch a ext p bytes.length = .ok bytes
  offset : p.offset + bytes.length ≤ Place.maxOffset

theorem Written.left (h : Written a ext p (xs ++ ys)) : Written a ext p xs := by
  have hoffset := h.offset
  rw [List.length_append] at hoffset
  exact ⟨(fetch_append h.fetch).1, by omega⟩

theorem Written.right (h : Written a ext p (xs ++ ys)) :
    Written a ext (p.after xs.length) ys := by
  have hoffset := h.offset
  rw [List.length_append] at hoffset
  exact ⟨(fetch_append h.fetch).2, by dsimp only [Place.after]; omega⟩

/-- A byte of what is written. -/
theorem Written.fetchByte {bytes : List UInt8} (h : Written a ext p bytes) {i : Nat}
    (hi : i < bytes.length) : Cell.fetchByte a ext (p.after i) = .ok bytes[i] := by
  have hsplit : bytes = bytes.take i ++ ([bytes[i]] ++ bytes.drop (i + 1)) := by
    rw [List.singleton_append, ← List.drop_eq_getElem_cons hi, List.take_append_drop]
  have hlength : (bytes.take i).length = i := by
    rw [List.length_take]
    omega
  rw [hsplit] at h
  have hbyte := h.right.left.fetch
  rw [hlength, List.length_singleton] at hbyte
  rw [Cell.fetchByte, hbyte]
  rfl

/-- A header that fits is loaded from its bytes. -/
theorem load_written {h : Header} {rest : List UInt8} (hfits : h.Fits)
    (hwritten : Written a ext p (h.encode ++ rest)) : load a ext p = .ok h := by
  have hhead := hwritten.left
  have hwhole := hhead.fetch
  rw [h.length_encode] at hwhole
  have hfirst : Cell.fetchByte a ext p = .ok (UInt8.ofNat h.word) := by
    have hpos : 0 < h.encode.length := by
      rw [h.length_encode]
      exact h.length_pos
    have hbyte := hhead.fetchByte hpos
    rw [Place.after_zero] at hbyte
    rw [hbyte]
    congr 1
    simp only [h.encode_eq, Word.bytes, List.cons_append, List.getElem_cons_zero]
  simp only [load, hfirst, hwhole, bind, Except.bind, pure, Except.pure, h.lengthFor_encode,
    h.decode_encode hfits]

end Written

/-! ### Trees -/

section Depicts

variable (a : Arena) (ext : External)

mutual

/-- The cell at `p` depicts a tree, and the place after it is `q`. -/
def Depicts : Tree → (p q : Place) → Prop
  | .symbol sigil quoted chars, p, q => ∃ linked hash text,
      load a ext p = .ok (.symbol chars.length sigil quoted linked hash) ∧
      body a ext p (.symbol chars.length sigil quoted linked hash) = .ok text ∧
      Written a ext text chars ∧
      step p (Header.symbol chars.length sigil quoted linked hash).footprint = .ok q
  | .integer value, p, q =>
      load a ext p = .ok (.integer value) ∧ step p (Header.integer value).footprint = .ok q
  | .list sigil children, p, q => ∃ linked first last next,
      load a ext p = .ok (.list children.length sigil linked) ∧
      body a ext p (.list children.length sigil linked) = .ok first ∧
      DepictsAll children first last ∧
      step p (Header.list children.length sigil linked).footprint = .ok next ∧
      q = if linked then next else last

/-- The cells from `p` on depict trees, and the place after them is `q`. -/
def DepictsAll : List Tree → (p q : Place) → Prop
  | [], p, q => q = p
  | t :: rest, p, q => ∃ next, Depicts t p next ∧ DepictsAll rest next q

end

end Depicts

/-! ### Where the cells are -/

section Offsets

variable {a : Arena} {ext : External} {p q : Place}

theorem fetchWord_lt {n : Nat} (h : fetchWord a ext p = .ok n) : n ≤ Place.maxOffset := by
  rw [fetchWord] at h
  cases hfetch : fetch a ext p 2 with
  | error e => rw [hfetch] at h; contradiction
  | ok bytes =>
      rw [hfetch] at h
      simp only [bind, Except.bind, pure, Except.pure] at h
      split at h
      · injection h with h
        rw [← h]
        exact Nat.le_of_lt_succ (Word.value_lt _ _)
      · injection h with h
        rw [← h]
        exact Nat.zero_le _

theorem offset_of_body {h : Header} (hbody : body a ext p h = .ok q) :
    p.offset ≤ Place.maxOffset ∧ q.offset ≤ Place.maxOffset := by
  rw [body] at hbody
  cases hstep : step p h.length with
  | error e => rw [hstep] at hbody; contradiction
  | ok after =>
      obtain ⟨hoffset, hafter⟩ := offset_of_step hstep
      rw [hstep] at hbody
      simp only [bind, Except.bind] at hbody
      refine ⟨by omega, ?_⟩
      split at hbody
      · cases hword : fetchWord a ext after with
        | error e => rw [hword] at hbody; contradiction
        | ok n =>
            rw [hword] at hbody
            injection hbody with hbody
            rw [← hbody]
            exact fetchWord_lt hword
      · injection hbody with hbody
        rw [← hbody, hafter]
        exact hoffset

theorem DepictsAll.offset {ts : List Tree}
    (hoffset : ∀ t ∈ ts, ∀ p q, Depicts a ext t p q → q.offset ≤ Place.maxOffset)
    (h : DepictsAll a ext ts p q) (hp : p.offset ≤ Place.maxOffset) :
    q.offset ≤ Place.maxOffset := by
  induction ts generalizing p with
  | nil => rwa [show q = p from h]
  | cons t rest ih =>
      obtain ⟨middle, ht, hrest⟩ := h
      exact ih (fun u hu => hoffset u (List.mem_cons_of_mem _ hu)) hrest
        (hoffset t (List.mem_cons_self ..) p middle ht)

/-- What is depicted lies in its space. -/
theorem Depicts.offset {t : Tree} (h : Depicts a ext t p q) :
    p.offset ≤ Place.maxOffset ∧ q.offset ≤ Place.maxOffset := by
  induction t using Tree.induct generalizing p q with
  | symbol sigil quoted chars =>
      obtain ⟨_, _, _, _, _, _, hstep⟩ := h
      obtain ⟨hoffset, hq⟩ := offset_of_step hstep
      exact ⟨by omega, by rw [hq]; exact hoffset⟩
  | integer value =>
      obtain ⟨hoffset, hq⟩ := offset_of_step h.2
      exact ⟨by omega, by rw [hq]; exact hoffset⟩
  | list sigil children ih =>
      obtain ⟨linked, first, last, next, _, hbody, hchildren, hstep, hq⟩ := h
      obtain ⟨hp, hfirst⟩ := offset_of_body hbody
      obtain ⟨hoffset, hnext⟩ := offset_of_step hstep
      have hlast := hchildren.offset (fun t ht p q hdepicts => (ih t ht hdepicts).2) hfirst
      refine ⟨hp, ?_⟩
      cases linked with
      | true =>
          rw [hq, if_pos rfl, hnext]
          exact hoffset
      | false =>
          rw [hq, if_neg Bool.false_ne_true]
          exact hlast

end Offsets

section Inline

variable {a : Arena} {ext : External} {p : Place}

theorem body_inline {h : Header} (hlinked : h.isLinked = false)
    (hoffset : p.offset + h.length ≤ Place.maxOffset) : body a ext p h = .ok (p.after h.length) := by
  rw [body, step_ok hoffset]
  simp only [hlinked, bind, Except.bind, pure, Except.pure, Bool.false_eq_true, if_false]

theorem depictsAll_of_written {ts : List Tree}
    (hdepicts : ∀ t ∈ ts, ∀ p, Written a ext p t.encode →
      Depicts a ext t p (p.after t.encode.length))
    (p : Place) (h : Written a ext p (Tree.encodeAll ts)) :
    DepictsAll a ext ts p (p.after (Tree.encodeAll ts).length) := by
  induction ts generalizing p with
  | nil => rfl
  | cons t rest ih =>
      rw [Tree.encodeAll] at h ⊢
      rw [List.length_append, ← Place.after_after]
      exact ⟨_, hdepicts t (List.mem_cons_self ..) p h.left,
        ih (fun u hu => hdepicts u (List.mem_cons_of_mem _ hu)) _ h.right⟩

/-- A tree that is written with all bodies inline is depicted there. -/
theorem depicts_of_written {t : Tree} (hfits : t.Fits) (h : Written a ext p t.encode) :
    Depicts a ext t p (p.after t.encode.length) := by
  induction t using Tree.induct generalizing p with
  | symbol sigil quoted chars =>
      have hoffset := h.offset
      rw [Tree.encode] at h hoffset ⊢
      rw [List.length_append, Header.length_encode] at hoffset ⊢
      have hheader : (Header.symbol chars.length sigil quoted false (Hash.key8 chars)).Fits := hfits
      have hchars := h.right
      rw [Header.length_encode] at hchars
      exact ⟨false, Hash.key8 chars, _, load_written hheader h,
        body_inline rfl (Nat.le_trans (Nat.add_le_add_left (Nat.le_add_right ..) _) hoffset), hchars,
        step_ok hoffset⟩
  | integer value =>
      have hoffset := h.offset
      rw [Tree.encode] at h hoffset ⊢
      rw [Header.length_encode] at hoffset ⊢
      have hheader : (Header.integer value).Fits := hfits
      have hload : Written a ext p ((Header.integer value).encode ++ []) := by
        rw [List.append_nil]
        exact h
      exact ⟨load_written hheader hload, step_ok hoffset⟩
  | list sigil children ih =>
      have hoffset := h.offset
      rw [Tree.encode] at h hoffset ⊢
      rw [List.length_append, Header.length_encode] at hoffset ⊢
      obtain ⟨hcount, hall⟩ := hfits
      have hheader : (Header.list children.length sigil false).Fits := hcount
      have hchildren := h.right
      rw [Header.length_encode] at hchildren
      have hshort : p.offset + Header.listLength ≤ Place.maxOffset :=
        Nat.le_trans (Nat.add_le_add_left (Nat.le_add_right ..) _) hoffset
      have hdepicts := depictsAll_of_written
        (fun t ht p => ih t ht (Tree.fitAll_iff.1 hall t ht)) _ hchildren
      rw [Place.after_after] at hdepicts
      exact ⟨false, _, _, _, load_written hheader h, body_inline rfl hshort, hdepicts,
        step_ok hshort, rfl⟩

end Inline

/-! ### What cells say -/

section Loaded

variable {a b : Arena} {ext : External}

theorem fits_of_load {p : Place} {h : Header} (hload : load a ext p = .ok h) : h.Fits := by
  simp only [load, bind, Except.bind, pure, Except.pure] at hload
  split at hload
  · contradiction
  split at hload
  · contradiction
  split at hload
  · contradiction
  split at hload
  · rename_i hdecode
    injection hload with hload
    exact hload ▸ Header.fits_of_decode hdecode
  · contradiction

/-- Arenas with the same live bytes say the same. -/
theorem fetch_alike (h : b.Alike a) (p : Place) (count : Nat) :
    fetch a ext p count = fetch b ext p count := by
  rw [fetch, fetch, h.bytes_eq]

theorem fetchByte_alike (h : b.Alike a) (p : Place) : fetchByte a ext p = fetchByte b ext p := by
  rw [fetchByte, fetchByte, fetch_alike h]

theorem load_alike (h : b.Alike a) (p : Place) : load a ext p = load b ext p := by
  simp only [load, fetchByte_alike h, fetch_alike h]

theorem body_alike (h : b.Alike a) (p : Place) (header : Header) :
    body a ext p header = body b ext p header := by
  simp only [body, fetchWord, fetch_alike h]

end Loaded

/-! ### What stays depicted -/

/-- Whatever can be fetched beside `b` can be fetched beside `a`. -/
def Retains (ext : External) (b a : Arena) : Prop :=
  ∀ p count bytes, fetch b ext p count = .ok bytes → fetch a ext p count = .ok bytes

section Retains

variable {a b : Arena} {ext : External} {p q : Place}

theorem Retains.fetchByte (h : Retains ext b a) {c : UInt8}
    (hbyte : Cell.fetchByte b ext p = .ok c) : Cell.fetchByte a ext p = .ok c := by
  rw [Cell.fetchByte] at hbyte ⊢
  cases hfetch : fetch b ext p 1 with
  | error e => rw [hfetch] at hbyte; contradiction
  | ok bytes => rwa [h p 1 bytes hfetch, ← hfetch]

theorem Retains.load (h : Retains ext b a) {header : Header}
    (hload : Cell.load b ext p = .ok header) : Cell.load a ext p = .ok header := by
  rw [Cell.load] at hload ⊢
  cases hfirst : Cell.fetchByte b ext p with
  | error e => rw [hfirst] at hload; contradiction
  | ok first =>
      rw [hfirst] at hload
      rw [h.fetchByte hfirst]
      simp only [bind, Except.bind] at hload ⊢
      cases hlength : Header.lengthFor first with
      | none => rw [hlength] at hload; contradiction
      | some length =>
          rw [hlength] at hload
          dsimp only at hload ⊢
          cases hfetch : fetch b ext p length with
          | error e => rw [hfetch] at hload; contradiction
          | ok bytes => rwa [h p length bytes hfetch, ← hfetch]

theorem Retains.body (h : Retains ext b a) {header : Header}
    (hbody : Cell.body b ext p header = .ok q) : Cell.body a ext p header = .ok q := by
  rw [Cell.body] at hbody ⊢
  cases hstep : step p header.length with
  | error e => rw [hstep] at hbody; contradiction
  | ok after =>
      rw [hstep] at hbody
      simp only [bind, Except.bind] at hbody ⊢
      split at hbody
      · rename_i hlinked
        rw [if_pos hlinked]
        rw [fetchWord] at hbody ⊢
        cases hfetch : fetch b ext after 2 with
        | error e => rw [hfetch] at hbody; contradiction
        | ok bytes => rwa [h after 2 bytes hfetch, ← hfetch]
      · rename_i hlinked
        rw [if_neg hlinked]
        exact hbody

theorem Retains.written (h : Retains ext b a) {bytes : List UInt8}
    (hwritten : Written b ext p bytes) : Written a ext p bytes :=
  ⟨h _ _ _ hwritten.fetch, hwritten.offset⟩

theorem DepictsAll.mono {ts : List Tree}
    (hmono : ∀ t ∈ ts, ∀ p q, Depicts b ext t p q → Depicts a ext t p q)
    (hdepicts : DepictsAll b ext ts p q) : DepictsAll a ext ts p q := by
  induction ts generalizing p with
  | nil => exact hdepicts
  | cons t rest ih =>
      obtain ⟨middle, ht, hrest⟩ := hdepicts
      exact ⟨middle, hmono t (List.mem_cons_self ..) p middle ht,
        ih (fun u hu => hmono u (List.mem_cons_of_mem _ hu)) hrest⟩

/-- What is depicted stays depicted while nothing is lost. -/
theorem Depicts.of_retains {t : Tree} (hdepicts : Depicts b ext t p q) (h : Retains ext b a) :
    Depicts a ext t p q := by
  induction t using Tree.induct generalizing p q with
  | symbol sigil quoted chars =>
      obtain ⟨linked, hash, text, hload, hbody, hchars, hstep⟩ := hdepicts
      exact ⟨linked, hash, text, h.load hload, h.body hbody, h.written hchars, hstep⟩
  | integer value => exact ⟨h.load hdepicts.1, hdepicts.2⟩
  | list sigil children ih =>
      obtain ⟨linked, first, last, next, hload, hbody, hchildren, hstep, hq⟩ := hdepicts
      exact ⟨linked, first, last, next, h.load hload, h.body hbody,
        hchildren.mono fun t ht p q => ih t ht, hstep, hq⟩

/-- What is live can be fetched while it is preserved. -/
theorem retains_of_preserves (hb : b.Bounded) (h : b.Preserves a) : Retains ext b a := by
  intro p count bytes hfetch
  obtain ⟨space, offset⟩ := p
  cases space with
  | arena =>
      cases hbytes : b.bytes offset count with
      | error e =>
          simp only [fetch, hbytes, mapError_error] at hfetch
          contradiction
      | ok found =>
          simp only [fetch, hbytes, h.bytes_ok hb hbytes, mapError_ok] at hfetch ⊢
          exact hfetch
  | store => exact hfetch

/-- Entries that are piled up hide nothing. -/
theorem retains_of_piled {entries : List (List UInt8)} (hb : b.Bounded)
    (h : Arena.Piled b entries a) : Retains ext b a :=
  retains_of_preserves hb h.preserves

end Retains

end Cell

end FlatLisp
