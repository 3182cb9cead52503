/-
Module: FlatLisp.Proofs.Store.Persistence
Purpose: What a reader has added to an arena can be persisted, and what is attached from its block is
  equal to it and printed alike, in whatever arena and whatever else is saved and freed meanwhile.
Main exports: Store.PrintsFrom, Store.EqualIn, Store.Mirrors, Store.Links, Store.Lasts,
  Store.persist_lasts
-/
import FlatLisp.Proofs.Printing.RoundTrip
import FlatLisp.Proofs.Store.Link

namespace FlatLisp

namespace Store

open Cell (Depicts Retains attach attachedLength retains_of_preserves)
open Grammar (Readable)
open Printing (Keeps Refuses print)
open Reading (Added Reads Ready)
open Source (ofBytes)

/-! ### What depicts the same tree -/

/-- While all that is live in `a` is kept, the cell at `place` is printed as the text that belongs to
the options, into any sink that refuses nothing, unless there is too little memory for a mark and the
frames of `depth` lists and a leaf. Printing leaves the arena as it was. -/
def PrintsFrom (depth : Nat) (ext : External) (a : Arena) (place : Place)
    (text : PrintOptions → List UInt8) : Prop :=
  ∀ {σ : Type} [Sink σ] {seen : σ → List UInt8}, Keeps σ seen → ¬ Refuses σ →
    ∀ (p : Printer) (b : Arena) (k : σ), p.isBusy = false → b.Bounded → a.Preserves b →
      (∃ b' k', print ext place ⟨p, b, k⟩ = .ok .done ⟨p, b', k'⟩ ∧
          seen k' = seen k ++ text p.options ∧ b.Alike b') ∨
        ∃ e b' k', e.RanOut ∧ b.free < 4 + 17 * (depth + 1) ∧
          print ext place ⟨p, b, k⟩ = .error e ⟨p, b', k'⟩ ∧ b.Alike b'

/-- The cells at two places are equal, unless there is too little memory for a mark and the counters of
`depth` lists. Comparing leaves the arena as it was. -/
def EqualIn (depth : Nat) (ext : External) (z : Arena) (p q : Place) : Prop :=
  (∃ z', Cell.compare ext p q z = .ok .eq z' ∧ z.Alike z') ∨
    ∃ e z', e.RanOut ∧ z.free < 4 + 18 * depth ∧ Cell.compare ext p q z = .error e z' ∧ z.Alike z'

section Depicted

variable {a : Arena} {ext : External} {t : Tree} {p p' q q' : Place} {depth : Nat}

theorem printsFrom_of_depicts (ha : a.Bounded) (h : Depicts a ext t p q) (hfits : t.Fits)
    (hnesting : t.nesting ≤ depth) (hdepth : depth ≤ Cell.maxNesting) :
    PrintsFrom depth ext a p fun o => t.text o 0 := by
  intro σ _ seen hk hall printer b k hidle hb hpreserves
  have hdepicts := h.of_retains (retains_of_preserves ha hpreserves)
  rcases Printing.print_ok hk hall hb hdepicts hfits (Nat.le_trans hnesting hdepth) hidle k with
    ⟨k', b', hprint, hseen, hpiled⟩ | ⟨e, k', b', hout, hprint, hpiled, hshort⟩
  · exact .inl ⟨b', k', hprint, hseen, hpiled.alike⟩
  · refine .inr ⟨e, b', k', hout, ?_, hprint, hpiled.alike⟩
    rw [Arena.free]
    omega

end Depicted

/-! ### Attached again and again -/

section Lasting

variable (depth : Nat) (v : Place) (a : Arena) (bytes : List UInt8)
  (text : PrintOptions → List UInt8)

/-- The cell `c` of the arena `y`, attached to a block of `s`, is equal to the value at `v` in `a`
wherever both are, and is printed alike, until the block is freed. -/
structure Mirrors (s : Store) (block : Nat) (c : Place) (y : Arena) : Prop where
  prints : ∀ later, Later (· = block) s later → PrintsFrom depth later.external y c text
  equal : ∀ later, Later (· = block) s later → ∀ z : Arena, z.Bounded → a.Preserves z →
    y.Preserves z → EqualIn depth later.external z v c

/-- What attaching a block to the arena `x` comes to. The new cell is like the value at `v`; or there is
no room for it in the arena, or it is locked, and it is as it was. -/
inductive Links (s : Store) (block : Nat) (x : Arena) : EStateM.Result Fault Arena Place → Prop where
  | attached {c : Place} {y : Arena} (hpreserves : x.Preserves y) (hbounded : y.Bounded)
      (hmirrors : Mirrors depth v a text s block c y) : Links s block x (.ok c y)
  | refused {e : ArenaError} (hcause : x.Withholds attachedLength e) :
      Links s block x (.error (.arena e) x)

/-- What persisting the value at `v` comes to. Its bytes are saved, and until their block is freed the
store can be opened again from its image and cells like `v` can be attached; or there is no room in the
store or no memory to measure the value, and the store is as it was. The arena is always as it was. -/
inductive Lasts (b : Arena) (s : Store) : EStateM.Result Fault Backed Nat → Prop where
  | saved {b' : Arena} {s' : Store} {block : Nat} (halike : b.Alike b')
      (hsave : s.save bytes = .ok block s')
      (hlasts : ∀ later, Later (· = block) s' later → ofImage later.image.toList = .ok later ∧
        ∀ x : Arena, x.Bounded →
          Links depth v a text later block x (attach later.external block x)) :
      Lasts b s (.ok block ⟨b', s'⟩)
  | refused {b' : Arena} {e : Fault} (halike : b.Alike b')
      (hcause : e.RanOut ∧ b.free < 4 + 18 * depth ∨
        ∃ why, e = .store why ∧ s.save bytes = .error why s) :
      Lasts b s (.error e ⟨b', s⟩)

end Lasting

section Tree

variable {v : Place} {a : Arena} {t : Tree} {s : Store} {block depth : Nat}

/-- What is attached from a block with the bytes of a tree mirrors all cells that depict the tree. -/
theorem links_of_stored (ha : a.Bounded) (hfits : t.Fits) (hnesting : t.nesting ≤ depth)
    (hdepth : depth ≤ Cell.maxNesting) (hv : ∀ ext, ∃ q, Depicts a ext t v q) (hs : s.Sound)
    (hstored : Stored s block t.encode) {x : Arena} (hx : x.Bounded) :
    Links depth v a (fun o => t.text o 0) s block x (attach s.external block x) := by
  -- The new cell is read beside stores that come later. The same cell would have been attached from
  -- each of them, since the bytes of the tree are there too, so it depicts the tree beside each.
  have hattaches : ∀ later, Later (· = block) s later →
      Cell.Attaches later.external t x (attach s.external block x) := by
    intro later hlater
    have hwritten := hstored.written hs x
    have hwritten' := (hstored.later hlater hs rfl).written (hlater.sound hs) x
    rw [Cell.attach_congr hfits hwritten hwritten']
    exact Cell.attach_depicts hx (Cell.depicts_of_written hfits hwritten')
  have hnow := hattaches s .refl
  generalize attach s.external block x = result at hattaches hnow
  cases hnow with
  | refused hcause => exact .refused hcause
  | @added c q y hpreserves hbounded _ =>
      have hcell : ∀ later, Later (· = block) s later → ∃ q, Depicts y later.external t c q := by
        intro later hlater
        cases hattaches later hlater with
        | added _ _ hcell => exact ⟨_, hcell⟩
      refine .attached hpreserves hbounded ⟨?_, ?_⟩
      · intro later hlater
        obtain ⟨q, hc⟩ := hcell later hlater
        exact printsFrom_of_depicts hbounded hc hfits hnesting hdepth
      · intro later hlater z hz hkept hkept'
        obtain ⟨q, hc⟩ := hcell later hlater
        obtain ⟨q', hv⟩ := hv later.external
        exact Cell.compare_same hz hnesting hdepth (hv.of_retains (retains_of_preserves ha hkept))
          (hc.of_retains (retains_of_preserves hbounded hkept'))

end Tree

/-- What a reader has added to an arena can be persisted there at any time, in any store that saves and
frees have left. Until its block is freed, all cells that are attached from it to any arena are equal to
the value and printed as the same text, also when the store has been opened again from its image. Where
persisting or attaching fails, nothing has changed. -/
theorem persist_lasts {r : Reader} {a : Arena} {source : Source} {v : Place} {u : Reading}
    (hready : Ready r a) (hreads : Reads ⟨r, source, a⟩ v u) {size : Nat} {fresh s : Store}
    (hcreate : create size = .ok fresh) (hused : Later (fun _ => False) fresh s) :
    ∃ bytes text, Added a v bytes u.arena ∧ (∀ ext, PrintsFrom r.maxDepth ext u.arena v text) ∧
      (∀ b : Arena, b.Bounded → u.arena.Preserves b →
        Lasts r.maxDepth v u.arena bytes text b s (Backed.persist v ⟨b, s⟩)) ∧
      ∀ (x : Arena) ext block e y, x.Bounded → attach ext block x = .error e y → y = x := by
  obtain ⟨t, rest, hfound, rfl, hfinished⟩ := hready.found hreads
  have hwithin := Grammar.read_within r.maxDepth r.inComment (r.pushback ++ source.bytes)
  rw [hfound] at hwithin
  have hreadable : Readable r.maxDepth 0 t := hwithin.2
  have hfits := hreadable.fits
  have hnesting := hreadable.nesting_le
  have harena := hfinished.bounded hready.bounded
  have hwritten := hfinished.written hready.bounded
  have hsound := hused.sound (sound_create hcreate)
  refine ⟨t.encode, fun o => t.text o 0, hfinished.added hready.bounded, fun ext => ?_, ?_, ?_⟩
  · exact printsFrom_of_depicts harena (Cell.depicts_of_written hfits (hwritten ext)) hfits hnesting
      hready.depth
  · intro b hb hpreserves
    have hkept := (retains_of_preserves harena hpreserves).written (hwritten s.external)
    have hpersists := persist_persists hb hfits (Nat.le_trans hnesting hready.depth) hkept
    generalize Backed.persist ⟨.arena, a.forward⟩ ⟨b, s⟩ = result at hpersists
    cases hpersists with
    | refused halike hsave => exact .refused halike (.inr ⟨_, rfl, hsave⟩)
    | ranOut halike hout hshort => exact .refused halike (.inl ⟨hout, by omega⟩)
    | @saved _ s' block halike hsave =>
        have hsound' := sound_of_save hsound hsave
        refine .saved halike hsave fun later hlater => ⟨ofImage_toList (hlater.sound hsound'), ?_⟩
        intro x hx
        exact links_of_stored harena hfits hnesting hready.depth
          (fun ext => ⟨_, Cell.depicts_of_written hfits (hwritten ext)⟩) (hlater.sound hsound')
          ((stored_of_save hsave).later hlater hsound' rfl) hx
  · exact fun x ext block e y hx => Cell.attach_error hx

/-- A list of two values, as it is read into an arena of 64 bytes, saved in a store that has been used, and
linked to. -/
theorem relink_list : ∃ a u fresh w y z, Arena.create 64 = .ok a ∧ create 64 = .ok fresh ∧
    Reading.read ⟨Reader.ofDepth 1, ofBytes [40, 39, 97, 32, 45, 55, 41], a⟩ =
      .ok (.done ⟨.arena, 2⟩) u ∧
    Backed.persist ⟨.arena, 2⟩ ⟨u.arena, after (save [1, 2, 3] fresh)⟩ = .ok 14 w ∧
    attach w.store.external 14 u.arena = .ok ⟨.arena, 12⟩ y ∧
    Cell.compare w.store.external ⟨.arena, 2⟩ ⟨.arena, 12⟩ y = .ok .eq z := by
  obtain ⟨a, ha⟩ : ∃ a, Arena.create 64 = .ok a := ⟨_, rfl⟩
  obtain ⟨fresh, hfresh⟩ : ∃ fresh, create 64 = .ok fresh := ⟨_, rfl⟩
  refine ⟨a, _, fresh, _, _, _, ha, hfresh, eq_ok_of_verdict ?_, eq_ok_of_verdict ?_,
    eq_ok_of_verdict ?_, eq_ok_of_verdict ?_⟩
  all_goals
    cases ha
    cases hfresh
    decide +kernel

/-- A list of a quoted symbol and an integer, and a store in which something else was saved before. There is
memory enough to persist the list and to attach it. -/
theorem persist_lasts_list : ∃ a v u fresh, Arena.create 64 = .ok a ∧ Ready (Reader.ofDepth 1) a ∧
    Reads ⟨Reader.ofDepth 1, ofBytes [40, 39, 97, 32, 45, 55, 41], a⟩ v u ∧
    create 64 = .ok fresh ∧ Later (fun _ => False) fresh (after (save [1, 2, 3] fresh)) ∧
    ∃ bytes text, Added a v bytes u.arena ∧ (∀ ext, PrintsFrom 1 ext u.arena v text) ∧
      (∀ b : Arena, b.Bounded → u.arena.Preserves b →
        Lasts 1 v u.arena bytes text b (after (save [1, 2, 3] fresh))
          (Backed.persist v ⟨b, after (save [1, 2, 3] fresh)⟩)) ∧
      (∀ (x : Arena) ext block e y, x.Bounded → attach ext block x = .error e y → y = x) ∧
      ∃ block b s c y z, Backed.persist v ⟨u.arena, after (save [1, 2, 3] fresh)⟩ = .ok block ⟨b, s⟩ ∧
        attach s.external block u.arena = .ok c y ∧ PrintsFrom 1 s.external y c text ∧
        Cell.compare s.external v c y = .ok .eq z := by
  obtain ⟨a, u, fresh, w, y, z, ha, hfresh, hread, hpersist, hattach, hequal⟩ := relink_list
  have hready := Reading.ready_create 1 ha
  have hused : Later (fun _ => False) fresh (after (save [1, 2, 3] fresh)) := .save .refl _
  have hreads : Reads ⟨Reader.ofDepth 1, ofBytes [40, 39, 97, 32, 45, 55, 41], a⟩ ⟨.arena, 2⟩ u :=
    .done hread
  obtain ⟨bytes, text, hadded, hprints, hlasts, herror⟩ := persist_lasts hready hreads hfresh hused
  rw [show (Reader.ofDepth 1).maxDepth = 1 from rfl] at hprints hlasts
  refine ⟨a, _, u, fresh, ha, hready, hreads, hfresh, hused, bytes, text, hadded, hprints, hlasts, herror,
    ?_⟩
  obtain ⟨t, rest, -, -, hfinished⟩ := hready.found hreads
  have hbounded := hfinished.bounded hready.bounded
  have hlasts := hlasts u.arena hbounded (.refl _)
  rw [hpersist] at hlasts
  cases hlasts with
  | @saved b s _ _ _ hlasts =>
      have hlinks := (hlasts s .refl).2 u.arena hbounded
      rw [hattach] at hlinks
      cases hlinks with
      | attached _ _ hmirrors =>
          exact ⟨14, b, s, _, y, z, hpersist, hattach, hmirrors.prints s .refl, hequal⟩

end Store

end FlatLisp
