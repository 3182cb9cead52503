/-
Module: FlatLisp.Proofs.Store.Handling
Purpose: Whatever can be read can be walked through, compared and printed: a reader takes on no value
  with more levels than every traversal can follow, empty lists at the deepest of them included. The
  same holds of what is attached after the value was persisted. On trees that no reader has made, walks
  and prints agree which of them are too deep.
Main exports: Cell.Handled, Cell.Depicts.handled, Store.read_handled
-/
import FlatLisp.Proofs.Printing.Levels
import FlatLisp.Proofs.Reading.Missing
import FlatLisp.Proofs.Store.Persistence

namespace FlatLisp

open Printing (Keeps Refuses print keeps_transcript not_refuses_transcript)

/-! ### What can be done with a cell -/

namespace Cell

/-- Nothing that can be done with the cell at `p` fails over lists that are nested too deeply. A walk
may do so only if its visitor does. -/
structure Handled (ext : External) (a : Arena) (p : Place) : Prop where
  walk : ∀ {σ : Type} (visit : Visit → EStateM Fault σ Unit) (seen : σ),
    (∀ v seen, Manages (fun _ _ => True) (visit v seen)) →
    Manages (fun _ _ => True) (Cell.walk ext visit p ⟨a, seen⟩)
  advance : Manages (fun _ _ => True) (Cell.advance ext p a)
  treeLength : Manages (fun _ _ => True) (Cell.treeLength ext p a)
  countCells : Manages (fun _ _ => True) (Cell.countCells ext p a)
  compare : ∀ w, Manages (fun _ _ => True) (Cell.compare ext p w a)
  compared : ∀ w, Manages (fun _ _ => True) (Cell.compare ext w p a)
  render : ∀ o, Manages (fun _ _ => True) (Cell.render ext o p a)

section Depicted

variable {a : Arena} {ext : External} {t : Tree} {p q : Place}

theorem Depicts.render_manages (ha : a.Bounded) (h : Depicts a ext t p q)
    (hnesting : t.nesting ≤ maxNesting) (o : PrintOptions) :
    Manages (fun _ _ => True) (render ext o p a) := by
  rw [render]
  rcases Printing.print_ok keeps_transcript not_refuses_transcript ha h h.fits hnesting
    (p := { options := o }) rfl {} with ⟨k, a', hprint, -, -⟩ | ⟨e, k, a', hout, hprint, -, -⟩
  · rw [hprint]
    trivial
  · rw [hprint]
    exact hout.not_tooDeep

/-- A cell that depicts a tree with no more levels than there are counters can be handled. -/
theorem Depicts.handled (ha : a.Bounded) (h : Depicts a ext t p q)
    (hnesting : t.nesting ≤ maxNesting) : Handled ext a p where
  walk _ seen hvisit := (h.walk_manages ha hnesting hvisit seen).imp fun _ _ _ => trivial
  advance := (h.advance_manages ha hnesting).imp fun _ _ _ => trivial
  treeLength := h.treeLength_manages ha hnesting
  countCells := h.countCells_manages ha hnesting
  compare _ := @compare_manages _ _ _ _ _ true _ ha h hnesting
  compared _ := @compare_manages _ _ _ _ _ false _ ha h hnesting
  render := h.render_manages ha hnesting

/-- Whether the tree at `p` is too deep is seen alike by all walks with a visitor that never refuses and
by all prints into a sink that refuses nothing. -/
structure Fathomed (ext : External) (a : Arena) (t : Tree) (p : Place) : Prop where
  walk : ∀ {σ : Type} (visit : Visit → EStateM Fault σ Unit) (seen : σ),
    (∀ v seen, ∃ seen', visit v seen = .ok () seen') →
    Measures t.nesting (4 + 18 * min maxNesting t.nesting) a.free (Cell.walk ext visit p ⟨a, seen⟩)
  print : ∀ {σ : Type} [Sink σ] {seen : σ → List UInt8}, Keeps σ seen → ¬ Refuses σ →
    ∀ (printer : Printer) (k : σ), printer.isBusy = false →
      Measures t.nesting (4 + 17 * (min maxNesting t.nesting + 1)) a.free
        (Printing.print ext p ⟨printer, a, k⟩)

theorem Written.fathomed (ha : a.Bounded) (hfits : t.Fits) (h : Written a ext p t.encode) :
    Fathomed ext a t p where
  walk visit seen hvisit := by
    rw [← t.nesting_cells]
    exact walk_measures ha hvisit hfits.cells (t.encode_cells.symm ▸ h) seen
  print hk hall _ k hidle :=
    Printing.print_measures hk hall ha (depicts_of_written hfits h) hidle k

end Depicted

end Cell

/-! ### What has been read -/

namespace Store

open Cell (Depicts Fathomed Handled Written attach retains_of_preserves)
open Reading (Reads Ready)
open Source (ofBytes)

/-- The cell at `v` can be handled while all that is live in `a` is kept. -/
def StaysHandled (a : Arena) (v : Place) : Prop :=
  ∀ (b : Arena) (ext : External), b.Bounded → a.Preserves b → Handled ext b v

/-- Wherever and whenever the value at `v` of the arena `a` is persisted in `s`, what is attached from
its block can be handled until the block is freed. -/
def MirrorsHandled (a : Arena) (v : Place) (s : Store) : Prop :=
  ∀ (b : Arena) block d, b.Bounded → a.Preserves b → Backed.persist v ⟨b, s⟩ = .ok block d →
    ∀ later, Later (· = block) d.store later →
      ∀ (x : Arena) c y, x.Bounded → attach later.external block x = .ok c y →
        ∀ later', Later (· = block) later later' →
          ∀ z : Arena, z.Bounded → y.Preserves z → Handled later'.external z c

theorem mirrorsHandled {a : Arena} {t : Tree} {offset : Nat} {s : Store} (ha : a.Bounded)
    (hfits : t.Fits) (hnesting : t.nesting ≤ Cell.maxNesting)
    (hwritten : ∀ ext, Written a ext ⟨.arena, offset⟩ t.encode) (hs : s.Sound) :
    MirrorsHandled a ⟨.arena, offset⟩ s := by
  intro b block d hb hpreserves hpersist later hlater x c y hx hattach later' hlater' z hz hkept
  have hpersists := persist_persists hb hfits hnesting
    ((retains_of_preserves ha hpreserves).written (hwritten s.external))
  rw [hpersist] at hpersists
  cases hpersists with
  | @saved b' s' _ halike hsave =>
      have hstored := (stored_of_save hsave).later hlater (sound_of_save hs hsave) rfl
      have hsound := hlater.sound (sound_of_save hs hsave)
      -- The same cell would have been attached from the later store.
      have hnow := hstored.written hsound x
      have hthen := (hstored.later hlater' hsound rfl).written (hlater'.sound hsound) x
      have hattaches := Cell.attach_depicts hx (Cell.depicts_of_written hfits hthen)
      rw [← Cell.attach_congr hfits hnow hthen, hattach] at hattaches
      cases hattaches with
      | added _ hbounded hcell =>
          exact (hcell.of_retains (retains_of_preserves hbounded hkept)).handled hz hnesting

/-- Whatever a reader made for any depth has read can be handled from then on, and so can what is
attached from it after it was persisted. An inline tree that comes from anywhere is too deep for a walk
exactly if it is too deep for a print, namely if it has more levels than there are counters. -/
theorem read_handled {maxDepth : Nat} {r : Reader} {a : Arena} {source : Source} {v : Place}
    {u : Reading} (hmade : r.maxDepth = (Reader.ofDepth maxDepth).maxDepth) (hidle : r.isIdle = true)
    (hpushback : r.pushback.length ≤ Reader.pushbackCapacity) (ha : a.Bounded)
    (hreads : Reads ⟨r, source, a⟩ v u) {size : Nat} {fresh s : Store}
    (hcreate : create size = .ok fresh) (hused : Later (fun _ => False) fresh s) :
    StaysHandled u.arena v ∧ MirrorsHandled u.arena v s ∧
      ∀ (b : Arena) ext (t : Tree) p, b.Bounded → t.Fits → Written b ext p t.encode →
        Fathomed ext b t p := by
  have hready : Ready r a :=
    ⟨hidle, hpushback, hmade ▸ Nat.min_le_right maxDepth Cell.maxNesting, ha,
      Reading.unlocked_of_reads hidle hpushback hreads⟩
  obtain ⟨t, rest, hfound, rfl, hfinished⟩ := hready.found hreads
  have hwithin := Grammar.read_within r.maxDepth r.inComment (r.pushback ++ source.bytes)
  rw [hfound] at hwithin
  have hreadable : Grammar.Readable r.maxDepth 0 t := hwithin.2
  have hfits := hreadable.fits
  have hnesting := Nat.le_trans hreadable.nesting_le hready.depth
  have harena := hfinished.bounded ha
  have hwritten := hfinished.written ha
  refine ⟨fun b ext hb hpreserves => ?_, ?_, fun b ext t p hb hfits hwritten => hwritten.fathomed hb hfits⟩
  · have hdepicts := Cell.depicts_of_written hfits (hwritten ext)
    exact (hdepicts.of_retains (retains_of_preserves harena hpreserves)).handled hb hnesting
  · exact mirrorsHandled harena hfits hnesting hwritten (hused.sound (sound_create hcreate))

/-- An empty list at the deepest level that the reader allows. -/
theorem read_handled_deepest : ∃ a v u fresh, Arena.create 128 = .ok a ∧ a.Bounded ∧
    (Reader.ofDepth 2).isIdle = true ∧
    Reads ⟨Reader.ofDepth 2, ofBytes [40, 40, 41, 32, 55, 41], a⟩ v u ∧
    create 64 = .ok fresh ∧ Later (fun _ => False) fresh (after (save [1, 2, 3] fresh)) ∧
    StaysHandled u.arena v ∧ MirrorsHandled u.arena v (after (save [1, 2, 3] fresh)) ∧
    ∀ (b : Arena) ext (t : Tree) p, b.Bounded → t.Fits → Written b ext p t.encode →
      Fathomed ext b t p := by
  obtain ⟨a, ha, hdone⟩ : ∃ a, Arena.create 128 = .ok a ∧ Reading.isDone
      (Reading.read ⟨Reader.ofDepth 2, ofBytes [40, 40, 41, 32, 55, 41], a⟩) = true :=
    ⟨_, rfl, by decide +kernel⟩
  obtain ⟨fresh, hfresh⟩ : ∃ fresh, create 64 = .ok fresh := ⟨_, rfl⟩
  obtain ⟨v, u, hreads⟩ := Reading.exists_reads hdone
  have hready := Reading.ready_create 2 ha
  have hused : Later (fun _ => False) fresh (after (save [1, 2, 3] fresh)) := .save .refl _
  exact ⟨a, v, u, fresh, ha, hready.bounded, rfl, hreads, hfresh, hused,
    read_handled rfl rfl (Nat.zero_le _) hready.bounded hreads hfresh hused⟩

end Store

end FlatLisp
