/-
Module: FlatLisp.Proofs.Store.Likeness
Purpose: Arenas that cannot be told apart answer alike. Whatever their free bytes are, a value is
  printed, saved and attached in the one as it is in the other, or in neither.
Main exports: Cell.render_alike, Backed.persist_alike, Cell.attach_alike
-/
import FlatLisp.Proofs.Cell.Comparison
import FlatLisp.Proofs.Printing.Borrowing
import FlatLisp.Proofs.Store.Link

namespace FlatLisp

variable {b b' : Arena}

theorem Arena.Alike.free (h : b.Alike b') : b'.free = b.free := by
  rw [Arena.free, Arena.free, h.forward, h.backward]

/-- Bytes added to arenas that are alike leave them alike. -/
theorem Arena.Alike.appended (hb : b.Bounded) (h : b.Alike b') {bytes : List UInt8}
    (hroom : bytes.length ≤ b.free) : (b.appended bytes).Alike (b'.appended bytes) := by
  have hkept := Arena.preserves_appended hroom hb
  have hkept' := Arena.preserves_appended (h.free ▸ hroom) (h.bounded hb)
  have hcursors := hb.cursors
  have hbackward := hb.backward
  rw [Arena.free] at hroom
  rw [Arena.capacity] at hbackward
  have hheld : (b.appended bytes).memory.Holds b.forward bytes := Bytes.holds_write (by omega)
  have hheld' : (b'.appended bytes).memory.Holds b.forward bytes := by
    rw [← h.forward]
    refine Bytes.holds_write ?_
    rw [h.forward, h.size]
    omega
  refine {
    size := hkept'.size.trans (h.size.trans hkept.size.symm)
    below := ?_
    above := ?_
    forward := congrArg (· + bytes.length) h.forward
    backward := h.backward
    forwardMark := h.forwardMark
    backwardMark := h.backwardMark }
  · refine Bytes.SameOn.append ?_ (hheld.sameOn hheld')
    exact hkept.below.symm.trans (h.below.trans (h.forward ▸ hkept'.below))
  · have habove := hkept.above.symm.trans (h.above.trans ((h.backward ▸ h.size ▸ hkept'.above)))
    rwa [hkept.size]

namespace Cell

variable {ext : External} {p : Place}

/-! ### Printing -/

/-- A value is printed alike. -/
theorem render_alike (hb : b.Bounded) (halike : b.Alike b') {root : Place}
    (hroot : root.offset ≤ Place.maxOffset) (ext : External) (o : PrintOptions) :
    verdictOf (render ext o root b') = verdictOf (render ext o root b) := by
  have hidle : ({ options := o } : Printer).isBusy = false := rfl
  obtain ⟨whole, outcome, hanswers⟩ := Printing.exists_answer hb hroot hidle ext
  have hanswer := hanswers Printing.keeps_transcript b {} (.refl b)
  have hanswer' := hanswers Printing.keeps_transcript b' {} halike
  rw [render, render]
  generalize Printing.print ext root ⟨{ options := o }, b, ({} : Transcript)⟩ = result at hanswer
  generalize Printing.print ext root ⟨{ options := o }, b', ({} : Transcript)⟩ = result' at hanswer'
  cases hanswer with
  | blocked _ hrefuses => exact (Printing.not_refuses_transcript hrefuses).elim
  | ended h =>
      cases hanswer' with
      | blocked _ hrefuses => exact (Printing.not_refuses_transcript hrefuses).elim
      | ended h' =>
          cases h with
          | done halike hseen =>
              cases h' with
              | done halike' hseen' => exact congrArg Except.ok (hseen'.trans hseen.symm)
          | failed halike hseen =>
              cases h' with
              | failed halike' hseen' => rfl

/-! ### Measuring -/

/-- A walk that has come to its end had memory for the counters of all open lists. -/
theorem walk_room {σ : Type} (hb : b.Bounded) {t : CellTree} (hfits : t.Fits)
    (hnesting : t.nesting ≤ maxNesting) (hwritten : Written b ext p t.encode)
    {visit : Visit → EStateM Fault σ Unit} {seen : σ} {next : Place} {s : Tour σ}
    (h : walk ext visit p ⟨b, seen⟩ = .ok next s) : Room b [[]] t.nesting := by
  rw [walk] at h
  rcases tour_borrow_ok hb (.refl hb.cursors) (walkTree ext visit maxNesting 0 0 p) seen with
    ⟨e, hout, herror, hshort⟩ | ⟨a₁, hpiled, hafter⟩
  · rw [herror] at h
    contradiction
  · have hwalked :=
      @walkTree_walked _ _ _ _ visit _ hb _ hfits _ hnesting hwritten 0 0 seen _ hpiled
    generalize hresult : walkTree ext visit maxNesting 0 0 p ⟨a₁, seen⟩ = result at hwalked
    cases hwalked with
    | ended hseen hpiled' hroom => exact hroom
    | refused hseen hpiled' =>
        obtain ⟨a₃, -, -, herror⟩ := hafter hpiled'
        rw [herror _ hresult] at h
        contradiction
    | ranOut hearly hseen hout hpiled' hshort =>
        obtain ⟨a₃, -, -, herror⟩ := hafter hpiled'
        rw [herror _ hresult] at h
        contradiction

theorem treeLength_room (hb : b.Bounded) {t : CellTree} (hfits : t.Fits)
    (hnesting : t.nesting ≤ maxNesting) (hwritten : Written b ext p t.encode) {n : Nat} {a : Arena}
    (h : treeLength ext p b = .ok n a) : 4 + 18 * t.nesting ≤ b.free := by
  have hended : ∃ next s, walk ext (fun _ => pure ()) p ⟨b, ()⟩ = .ok next s := by
    cases hwalk : walk ext (fun _ => pure ()) p ⟨b, ()⟩ with
    | ok next s => exact ⟨next, s, rfl⟩
    | error e s =>
        have hrun : (walk ext (fun _ => pure ()) p).run () b = .error e s.arena := by
          rw [TourM.run, hwalk]
        rw [treeLength, advance, bind_error (bind_error hrun)] at h
        contradiction
  obtain ⟨next, s, hwalk⟩ := hended
  have hroom := walk_room hb hfits hnesting hwritten hwalk
  rw [Room, Arena.pileCost_cons, Arena.pileCost_nil, counterCost, Arena.markLength,
    Counter.frameLength, List.length_nil] at hroom
  rw [Arena.free]
  omega

theorem Written.alike (halike : b.Alike b') {bytes : List UInt8} (h : Written b ext p bytes) :
    Written b' ext p bytes :=
  ⟨(fetch_alike halike p bytes.length).trans h.fetch, h.offset⟩

/-- A tree is measured in both arenas or in neither. -/
theorem treeLength_alike (hb : b.Bounded) (halike : b.Alike b') {t : CellTree} (hfits : t.Fits)
    (hnesting : t.nesting ≤ maxNesting) (hwritten : Written b ext p t.encode) :
    (∃ e e' a a', treeLength ext p b = .error e a ∧ treeLength ext p b' = .error e' a' ∧
        e.RanOut ∧ e'.RanOut ∧ b.Alike a ∧ b'.Alike a') ∨
      ∃ a a', treeLength ext p b = .ok t.encode.length a ∧
        treeLength ext p b' = .ok t.encode.length a' ∧ b.Alike a ∧ b'.Alike a' := by
  have hwritten' := hwritten.alike halike
  have hreckons := treeLength_reckons hb hfits hnesting hwritten
  have hreckons' := treeLength_reckons (halike.bounded hb) hfits hnesting hwritten'
  generalize hresult : treeLength ext p b = result at hreckons
  generalize hresult' : treeLength ext p b' = result' at hreckons'
  cases hreckons with
  | found ha =>
      cases hreckons' with
      | found ha' => exact .inr ⟨_, _, rfl, rfl, ha, ha'⟩
      | ranOut hout ha' hshort =>
          have hroom := treeLength_room hb hfits hnesting hwritten hresult
          rw [halike.free] at hshort
          omega
  | ranOut hout ha hshort =>
      cases hreckons' with
      | found ha' =>
          have hroom := treeLength_room (halike.bounded hb) hfits hnesting hwritten' hresult'
          rw [halike.free] at hroom
          omega
      | ranOut hout' ha' hshort' => exact .inl ⟨_, _, _, _, rfl, rfl, hout, hout', ha, ha'⟩

/-! ### Attaching -/

theorem alloc_alike (halike : b.Alike b') (hhold : b'.hold = b.hold) (count : Nat) :
    (∃ e, Arena.alloc .forward count b = .error e b ∧ Arena.alloc .forward count b' = .error e b') ∨
      count ≤ b.free ∧ Arena.alloc .forward count b = .ok ⟨b.forward, count⟩ (b.extended count []) ∧
        Arena.alloc .forward count b' = .ok ⟨b.forward, count⟩ (b'.extended count []) := by
  cases hlock : b.hold with
  | some hold =>
      exact .inl ⟨_, bind_error (Arena.demandUnlocked_locked hlock),
        bind_error (Arena.demandUnlocked_locked (hhold.trans hlock))⟩
  | none =>
      by_cases hfree : count ≤ b.free
      · have hok := Arena.alloc_forward_ok (hhold.trans hlock) (halike.free ▸ hfree)
        rw [halike.forward] at hok
        refine .inr ⟨hfree, Arena.alloc_forward_ok hlock hfree, ?_⟩
        rw [Arena.extended, halike.forward]
        exact hok
      · have hfull := Arena.alloc_forward_full (hhold.trans hlock)
          (halike.free ▸ Nat.lt_of_not_le hfree)
        rw [halike.free] at hfull
        exact .inl ⟨_, Arena.alloc_forward_full hlock (Nat.lt_of_not_le hfree), hfull⟩

/-- A cell is attached in both arenas, with the same bytes, or in neither. -/
theorem attach_alike (hb : b.Bounded) (halike : b.Alike b') (hhold : b'.hold = b.hold)
    (ext : External) (block : Nat) :
    (∃ e, attach ext block b = .error e b ∧ attach ext block b' = .error e b') ∨
      ∃ bytes, bytes.length ≤ b.free ∧
        attach ext block b = .ok ⟨.arena, b.forward⟩ (b.appended bytes) ∧
        attach ext block b' = .ok ⟨.arena, b.forward⟩ (b'.appended bytes) := by
  have hb' := halike.bounded hb
  rw [attach]
  cases hload : load b ext ⟨.store, block + Block.headerLength⟩ with
  | error e =>
      have hload' := (load_alike halike _).trans hload
      exact .inl ⟨e, bind_error (consult_error hload), bind_error (consult_error hload')⟩
  | ok header =>
      have hload' := (load_alike halike _).trans hload
      rw [bind_ok (consult_ok hload), bind_ok (consult_ok hload')]
      cases hlink : linkTo header with
      | none =>
          dsimp only
          rw [footprint_of_linkTo_eq_none hlink]
          rcases alloc_alike halike hhold header.encode.length with
            ⟨e, halloc, halloc'⟩ | ⟨hroom, halloc, halloc'⟩
          · exact .inl ⟨_, bind_error (cell_error halloc), bind_error (cell_error halloc')⟩
          · have hwrite := Arena.writeHeader_extended hb header (Nat.le_refl _)
            have hwrite' := Arena.writeHeader_extended hb' header (Nat.le_refl _)
            rw [halike.forward] at hwrite'
            rw [bind_ok (cell_ok halloc), bind_ok (cell_ok hwrite), bind_ok (cell_ok halloc'),
              bind_ok (cell_ok hwrite')]
            exact .inr ⟨header.encode, hroom, rfl, rfl⟩
      | some link =>
          dsimp only
          cases hbody : body b ext ⟨.store, block + Block.headerLength⟩ header with
          | error e =>
              have hbody' := (body_alike halike _ _).trans hbody
              exact .inl ⟨e, bind_error (consult_error hbody), bind_error (consult_error hbody')⟩
          | ok target =>
              have hbody' := (body_alike halike _ _).trans hbody
              have hlength : (link.encode ++ Word.bytes target.offset).length =
                  link.length + Header.addressLength := by
                rw [List.length_append, Header.length_encode]
                rfl
              have hheaderFits :
                  link.encode.length ≤ (link.encode ++ Word.bytes target.offset).length :=
                List.length_append ▸ Nat.le_add_right _ (Word.bytes target.offset).length
              rw [bind_ok (consult_ok hbody), bind_ok (consult_ok hbody'), ← hlength]
              rcases alloc_alike halike hhold (link.encode ++ Word.bytes target.offset).length with
                ⟨e, halloc, halloc'⟩ | ⟨hroom, halloc, halloc'⟩
              · exact .inl ⟨_, bind_error (cell_error halloc), bind_error (cell_error halloc')⟩
              · have hheader := Arena.writeHeader_extended hb link hheaderFits
                have hheader' := Arena.writeHeader_extended hb' link hheaderFits
                have haddress := Arena.writeWord_extended hb link target.offset (Nat.le_refl _)
                have haddress' := Arena.writeWord_extended hb' link target.offset (Nat.le_refl _)
                rw [halike.forward] at hheader' haddress'
                rw [bind_ok (cell_ok halloc), bind_ok (cell_ok hheader), bind_ok (cell_ok haddress),
                  bind_ok (cell_ok halloc'), bind_ok (cell_ok hheader'),
                  bind_ok (cell_ok haddress')]
                exact .inr ⟨link.encode ++ Word.bytes target.offset, hroom, rfl, rfl⟩

end Cell

/-! ### Saving -/

/-- The bytes of a tree are saved from both arenas, to the same block, or from neither, for the same
reason or as there was no memory to measure it. -/
theorem Backed.persist_alike {s : Store} {t : Tree} {offset : Nat} (hb : b.Bounded)
    (halike : b.Alike b') (hfits : t.Fits) (hnesting : t.nesting ≤ Cell.maxNesting)
    (hwritten : Cell.Written b s.external ⟨.arena, offset⟩ t.encode) :
    (∃ e e' a a', persist ⟨.arena, offset⟩ ⟨b, s⟩ = .error e ⟨a, s⟩ ∧
        persist ⟨.arena, offset⟩ ⟨b', s⟩ = .error e' ⟨a', s⟩ ∧ (e' = e ∨ e.RanOut ∧ e'.RanOut) ∧
        b.Alike a ∧ b'.Alike a') ∨
      ∃ block s' a a', s.save t.encode = .ok block s' ∧
        persist ⟨.arena, offset⟩ ⟨b, s⟩ = .ok block ⟨a, s'⟩ ∧
        persist ⟨.arena, offset⟩ ⟨b', s⟩ = .ok block ⟨a', s'⟩ ∧ b.Alike a ∧ b'.Alike a' := by
  have hfetch : ∀ {a : Arena}, b.Alike a →
      Cell.fetch a s.external ⟨.arena, offset⟩ t.encode.length = .ok t.encode :=
    fun ha => (Cell.fetch_alike ha _ _).trans hwritten.fetch
  have hlength := Cell.treeLength_alike hb halike hfits.cells (t.nesting_cells ▸ hnesting)
    (t.encode_cells.symm ▸ hwritten)
  rw [t.encode_cells] at hlength
  rw [persist]
  dsimp only
  rw [get_bind, get_bind]
  dsimp only
  rcases hlength with
    ⟨e, e', a, a', hresult, hresult', hout, hout', ha, ha'⟩ |
    ⟨a, a', hresult, hresult', ha, ha'⟩
  · exact .inl ⟨e, e', a, a', bind_error (backed_cell_error hresult),
      bind_error (backed_cell_error hresult'), .inr ⟨hout, hout'⟩, ha, ha'⟩
  · rw [bind_ok (backed_cell_ok hresult), bind_ok (backed_cell_ok hresult'),
      bind_ok (backed_cell_ok (consult_ok (hfetch ha))),
      bind_ok (backed_cell_ok (consult_ok (hfetch (halike.trans ha'))))]
    cases hsave : s.save t.encode with
    | ok block s' =>
        exact .inr ⟨block, s', a, a', rfl, backed_store_ok hsave, backed_store_ok hsave, ha, ha'⟩
    | error e s' =>
        obtain rfl := Store.save_error hsave
        exact .inl ⟨_, _, a, a', backed_store_error hsave, backed_store_error hsave, .inl rfl, ha,
          ha'⟩

end FlatLisp
