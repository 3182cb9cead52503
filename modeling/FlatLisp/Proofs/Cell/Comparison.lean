/-
Module: FlatLisp.Proofs.Cell.Comparison
Purpose: What comparing places means for those who do it: it is the order of the trees, whatever the
  places are, the same in all arenas that are alike; for cells that readers have written it is
  equality of bytes.
Main exports: Cell.Compares, Cell.compare_alike, Cell.compare_orders
-/
import FlatLisp.Proofs.Cell.Traversal
import FlatLisp.Proofs.Reading.Value

namespace FlatLisp

namespace Reading

/-- Some reader has added the cell `bytes` to some arena. -/
def Wrote (bytes : List UInt8) : Prop :=
  ∃ r source a place s, Ready r a ∧ Reads ⟨r, source, a⟩ place s ∧ Added a place bytes s.arena

/-- What a reader has added is a tree that it may read. -/
theorem Wrote.tree {bytes : List UInt8} (h : Wrote bytes) :
    ∃ t : Tree, bytes = t.encode ∧ t.Fits ∧ t.nesting ≤ Cell.maxNesting := by
  obtain ⟨r, source, a, place, s, hready, hreads, hadded⟩ := h
  obtain ⟨t, rest, hfound, -, hfinished⟩ := hready.found hreads
  have hwithin := Grammar.read_within r.maxDepth r.inComment (r.pushback ++ source.bytes)
  rw [hfound] at hwithin
  have hlive := hadded.live
  rw [hfinished.liveBytes hready.bounded] at hlive
  exact ⟨t, (List.append_cancel_left hlive).symm, hwithin.2.fits,
    Nat.le_trans hwithin.2.nesting_le hready.depth⟩

end Reading

namespace Cell

variable {a b : Arena} {ext : External} {t u v : Tree} {p p' q q' r r' : Place} {o : Ordering}

/-- Two places that depict one tree of at most `depth` levels are equal, where there is memory for one
mark and a counter for each level. -/
theorem compare_same {depth : Nat} (ha : a.Bounded) (hnesting : t.nesting ≤ depth)
    (hdepth : depth ≤ maxNesting) (hp : Depicts a ext t p p') (hq : Depicts a ext t q q') :
    (∃ a', compare ext p q a = .ok .eq a' ∧ a.Alike a') ∨
      ∃ e a', e.RanOut ∧ a.free < 4 + 18 * depth ∧ compare ext p q a = .error e a' ∧ a.Alike a' := by
  have hlevels := Nat.le_trans (t.lockstep_le t) hnesting
  rcases compare_ok ha (Nat.le_trans hlevels hdepth) hp hq with
    ⟨a', hcompare, hpiled, -⟩ | ⟨e, a', hcompare, hout, hpiled, hroom⟩
  · rw [Tree.order_self] at hcompare
    exact .inl ⟨a', hcompare, hpiled.alike⟩
  · have hshort := short_of_no_room ha hroom
    exact .inr ⟨e, a', hout, by omega, hcompare, hpiled.alike⟩

/-- In some arena that is like `a` the two places are compared to `o`. -/
def Compares (a : Arena) (ext : External) (p q : Place) (o : Ordering) : Prop :=
  ∃ b b', a.Alike b ∧ compare ext p q b = .ok o b'

theorem room_alike {n : Nat} (h : a.Alike b) : Room b [[]] n ↔ Room a [[]] n := by
  rw [Room, Room, h.forward, h.backward]

/-- Arenas that are alike make no difference, and comparing leaves one behind. -/
theorem compare_alike (ha : a.Bounded) (hnesting : t.nesting ≤ maxNesting)
    (ht : Depicts a ext t p p') (hu : Depicts a ext u q q') (h : a.Alike b) :
    (∃ b', compare ext p q b = .ok (t.order u) b' ∧ a.Alike b' ∧ Room a [[]] (t.lockstep u)) ∨
      ∃ e b', compare ext p q b = .error e b' ∧ e.RanOut ∧ a.Alike b' ∧
        ¬ Room a [[]] (t.lockstep u) := by
  have hretains : Retains ext a b := retains_of_preserves ha h.preserves
  rcases compare_ok (h.bounded ha) (Nat.le_trans (t.lockstep_le u) hnesting)
    (ht.of_retains hretains) (hu.of_retains hretains) with
    ⟨b', hcompare, hpiled, hroom⟩ | ⟨e, b', hcompare, hout, hpiled, hroom⟩
  · exact .inl ⟨b', hcompare, h.trans hpiled.alike, (room_alike h).1 hroom⟩
  · exact .inr ⟨e, b', hcompare, hout, h.trans hpiled.alike, fun hn => hroom ((room_alike h).2 hn)⟩

/-- What is answered is the order of the trees, and there was memory for it. -/
theorem Compares.eq (h : Compares a ext p q o) (ha : a.Bounded) (hnesting : t.nesting ≤ maxNesting)
    (ht : Depicts a ext t p p') (hu : Depicts a ext u q q') :
    o = t.order u ∧ Room a [[]] (t.lockstep u) := by
  obtain ⟨b, b', hlike, hcompare⟩ := h
  rcases compare_alike ha hnesting ht hu hlike with
    ⟨_, hcompare', -, hroom⟩ | ⟨_, _, hcompare', -⟩
  · rw [hcompare'] at hcompare
    injection hcompare with horder
    exact ⟨horder.symm, hroom⟩
  · rw [hcompare'] at hcompare
    contradiction

/-- Whatever trees are depicted at three places, and however: comparing answers their order, and only
lack of memory keeps it from doing so. The other way round it takes the same memory and answers the
reverse. Only equal trees are equal, and the order is transitive. Among cells that readers have
written, those with the same bytes are equal. -/
theorem compare_orders (ha : a.Bounded) (ht : Depicts a ext t p p') (hu : Depicts a ext u q q')
    (hv : Depicts a ext v r r') (ht' : t.nesting ≤ maxNesting) (hu' : u.nesting ≤ maxNesting) :
    (∀ o, Compares a ext p q o → o = t.order u ∧ (o = .eq ↔ t = u) ∧
        ∀ b, a.Alike b → ∃ b', compare ext q p b = .ok o.swap b' ∧ a.Alike b') ∧
      (∀ b e b', a.Alike b → compare ext p q b = .error e b' → e.RanOut ∧ a.Alike b') ∧
      (∀ o₁ o₂ o₃, Compares a ext p q o₁ → Compares a ext q r o₂ → Compares a ext p r o₃ →
        o₁.isLE → o₂.isLE → o₃ = o₁.then o₂) ∧
      ∀ x y, Reading.Wrote x → Reading.Wrote y → ∀ p q o, Written a ext p x → Written a ext q y →
        Compares a ext p q o → (o = .eq ↔ x = y) := by
  refine ⟨?_, ?_, ?_, ?_⟩
  · intro o h
    obtain ⟨rfl, hroom⟩ := h.eq ha ht' ht hu
    refine ⟨rfl, Tree.order_eq_iff, fun b hlike => ?_⟩
    rcases compare_alike ha hu' hu ht hlike with
      ⟨b', hcompare, hlike', -⟩ | ⟨_, _, _, -, -, hroom'⟩
    · exact ⟨b', by rw [hcompare, Tree.order_swap t u], hlike'⟩
    · exact (hroom' (u.lockstep_comm t ▸ hroom)).elim
  · intro b e b' hlike herror
    rcases compare_alike ha ht' ht hu hlike with ⟨_, hcompare, -⟩ | ⟨_, _, hcompare, hout, hlike', -⟩
    · rw [hcompare] at herror
      contradiction
    · rw [hcompare] at herror
      injection herror with he hb'
      exact ⟨he ▸ hout, hb' ▸ hlike'⟩
  · intro o₁ o₂ o₃ h₁ h₂ h₃ hle₁ hle₂
    obtain ⟨rfl, -⟩ := h₁.eq ha ht' ht hu
    obtain ⟨rfl, -⟩ := h₂.eq ha hu' hu hv
    obtain ⟨rfl, -⟩ := h₃.eq ha ht' ht hv
    exact Tree.order_then hle₁ hle₂
  · intro x y hx hy p q o hp hq h
    obtain ⟨t, rfl, hfits, hnesting⟩ := hx.tree
    obtain ⟨u, rfl, hfits', -⟩ := hy.tree
    obtain ⟨rfl, -⟩ :=
      h.eq ha hnesting (depicts_of_written hfits hp) (depicts_of_written hfits' hq)
    rw [Tree.order_eq_iff, Tree.encode_inj hfits hfits']

/-- Outside memory with an integer at 1, a list with the same integer inside it at 5, and a list at 11
that is linked to the integer. -/
def linkedImage : External :=
  .ofImage (.ofList [0, 2, 0, 7, 0, 131, 0, 2, 0, 7, 0, 195, 0, 1, 0]) 1

theorem compare_orders_linked : ∃ a, Arena.create 64 = .ok a ∧
    Depicts a linkedImage (.list .bare [.integer 7]) ⟨.store, 5⟩ ⟨.store, 11⟩ ∧
    Depicts a linkedImage (.list .bare [.integer 7]) ⟨.store, 11⟩ ⟨.store, 15⟩ ∧
    Depicts a linkedImage (.integer 7) ⟨.store, 1⟩ ⟨.store, 5⟩ ∧
    (∀ o, Compares a linkedImage ⟨.store, 5⟩ ⟨.store, 11⟩ o →
        o = Tree.order (.list .bare [.integer 7]) (.list .bare [.integer 7]) ∧
        (o = .eq ↔ Tree.list .bare [.integer 7] = .list .bare [.integer 7]) ∧
        ∀ b, a.Alike b → ∃ b', compare linkedImage ⟨.store, 11⟩ ⟨.store, 5⟩ b = .ok o.swap b' ∧
          a.Alike b') ∧
      (∀ b e b', a.Alike b → compare linkedImage ⟨.store, 5⟩ ⟨.store, 11⟩ b = .error e b' →
        e.RanOut ∧ a.Alike b') ∧
      (∀ o₁ o₂ o₃, Compares a linkedImage ⟨.store, 5⟩ ⟨.store, 11⟩ o₁ →
        Compares a linkedImage ⟨.store, 11⟩ ⟨.store, 1⟩ o₂ →
        Compares a linkedImage ⟨.store, 5⟩ ⟨.store, 1⟩ o₃ → o₁.isLE → o₂.isLE →
        o₃ = o₁.then o₂) ∧
      ∀ x y, Reading.Wrote x → Reading.Wrote y → ∀ p q o, Written a linkedImage p x →
        Written a linkedImage q y → Compares a linkedImage p q o → (o = .eq ↔ x = y) := by
  obtain ⟨a, ha⟩ : ∃ a, Arena.create 64 = .ok a := ⟨_, rfl⟩
  have hinteger : Depicts a linkedImage (.integer 7) ⟨.store, 1⟩ ⟨.store, 5⟩ := ⟨rfl, rfl⟩
  have hinline : Depicts a linkedImage (.list .bare [.integer 7]) ⟨.store, 5⟩ ⟨.store, 11⟩ :=
    ⟨false, ⟨.store, 7⟩, ⟨.store, 11⟩, ⟨.store, 7⟩, rfl, rfl, ⟨⟨.store, 11⟩, ⟨rfl, rfl⟩, rfl⟩, rfl,
      rfl⟩
  have hlinked : Depicts a linkedImage (.list .bare [.integer 7]) ⟨.store, 11⟩ ⟨.store, 15⟩ :=
    ⟨true, ⟨.store, 1⟩, ⟨.store, 5⟩, ⟨.store, 15⟩, rfl, rfl, ⟨⟨.store, 5⟩, hinteger, rfl⟩, rfl, rfl⟩
  exact ⟨a, ha, hinline, hlinked, hinteger, compare_orders (Arena.bounded_create ha) hinline hlinked
    hinteger (by decide) (by decide)⟩

end Cell

end FlatLisp
