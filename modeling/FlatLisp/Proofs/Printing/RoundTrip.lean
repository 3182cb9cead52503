/-
Module: FlatLisp.Proofs.Printing.RoundTrip
Purpose: What has been read and printed is read again to the same bytes. The printer writes the text
  of the tree that the bytes depict, wherever they are; the grammar finds that tree again in its
  text; and there is one way only to encode a tree.
Main exports: Printing.PrintsAs, Printing.ReadsAs, Printing.printsAs_text, Printing.readsAs_text,
  Printing.read_print_read
-/
import FlatLisp.Proofs.Cell.Comparison
import FlatLisp.Proofs.Printing.Run
import FlatLisp.Proofs.Printing.WellFormed
import FlatLisp.Proofs.Reading.Need

namespace FlatLisp

namespace Printing

open Cell (Depicts Written depicts_of_written)
open Grammar (Readable)
open Reading (Added Reads Ready read)
open Source (ofBytes)
open Text
open Text.Utf8 (WellFormed)

/-- Wherever the cell `bytes` is in an arena whose cursors are in order, all of `text` is written for it
into a sink that refuses nothing, and the arena is left as it was. Otherwise memory has run out, and
there was too little for a mark and the frames of `depth` lists and a leaf. -/
def PrintsAs (o : PrintOptions) (ext : External) (depth : Nat) (bytes text : List UInt8) : Prop :=
  ∀ {σ : Type} [Sink σ] {seen : σ → List UInt8}, Keeps σ seen → ¬ Refuses σ →
    ∀ (p : Printer) (b : Arena) (place : Place) (k : σ), p.options = o → p.isBusy = false →
      b.Bounded → Written b ext place bytes →
      (∃ b' k', print ext place ⟨p, b, k⟩ = .ok .done ⟨p, b', k'⟩ ∧ seen k' = seen k ++ text ∧
          b.Alike b') ∨
        ∃ e s, e.RanOut ∧ b.free < 4 + 17 * (depth + 1) ∧ print ext place ⟨p, b, k⟩ = .error e s

/-- A fresh reader finds a value in `text` with a line end after it, in any unlocked arena whose cursors
are in order, and adds it as the cell `bytes`. It is equal to all cells that have the same bytes. Where
memory runs out instead, there was too little for the bytes and the frames, or for the counters of the
comparison. -/
def ReadsAs (maxDepth : Nat) (ext : External) (text bytes : List UInt8) : Prop :=
  ∀ a : Arena, a.Bounded → a.isLocked = false →
    (∃ place s,
      read ⟨Reader.ofDepth maxDepth, ofBytes (text ++ [Ascii.newline]), a⟩ = .ok (.done place) s ∧
        Added a place bytes s.arena ∧ ∀ other, Written a ext other bytes →
          (∃ a', Cell.compare ext other place s.arena = .ok .eq a') ∨
            ∃ e a', e.RanOut ∧ s.arena.free < 4 + 18 * maxDepth ∧
              Cell.compare ext other place s.arena = .error e a') ∨
      ∃ e s, e.RanOut ∧ a.free < bytes.length + Limits.frameCost * (maxDepth + 1) ∧
        read ⟨Reader.ofDepth maxDepth, ofBytes (text ++ [Ascii.newline]), a⟩ = .error (.fault e) s

variable {maxDepth : Nat} {t : Tree}

theorem printsAs_text (h : Readable maxDepth 0 t) (hdepth : maxDepth ≤ Cell.maxNesting)
    (o : PrintOptions) (ext : External) : PrintsAs o ext maxDepth t.encode (t.text o 0) := by
  intro σ _ seen hk hall p b place k hoptions hbusy hb hwritten
  have hdepicts := depicts_of_written h.fits hwritten
  have hnesting := h.nesting_le
  rcases print_ok hk hall hb hdepicts h.fits (Nat.le_trans hnesting hdepth) hbusy k with
    ⟨k', b', hprint, hseen, hpiled⟩ | ⟨e, k', b', hout, hprint, -, hshort⟩
  · rw [hoptions] at hseen
    exact .inl ⟨b', k', hprint, hseen, hpiled.alike⟩
  · refine .inr ⟨e, _, hout, ?_, hprint⟩
    rw [Arena.free]
    omega

theorem readsAs_text (h : Readable maxDepth 0 t) (hdepth : maxDepth ≤ Cell.maxNesting)
    (o : PrintOptions) (ext : External) : ReadsAs maxDepth ext (t.text o 0) t.encode := by
  intro a ha hunlocked
  have hmaxDepth : (Reader.ofDepth maxDepth).maxDepth = maxDepth := Nat.min_eq_left hdepth
  have hready : Ready (Reader.ofDepth maxDepth) a :=
    ⟨rfl, Nat.zero_le _, Nat.min_le_right _ _, ha, hunlocked⟩
  have hfound : Grammar.read (Reader.ofDepth maxDepth).maxDepth false (t.text o 0 ++ [Ascii.newline]) =
      .whole t [Ascii.newline] := by
    rw [hmaxDepth]
    exact Grammar.read_written h o (by decide) []
  rcases hready.read_whole hfound with ⟨s, hread, hfinished⟩ | ⟨e, s, hout, hshort, hread⟩
  · refine .inl ⟨_, s, hread, hfinished.added ha, fun other hother => ?_⟩
    have hkept := (Cell.retains_of_preserves ha hfinished.preserves).written hother
    rcases Cell.compare_same (hfinished.bounded ha) h.nesting_le hdepth
        (depicts_of_written h.fits hkept) (depicts_of_written h.fits (hfinished.written ha ext)) with
      ⟨a', hcompare, -⟩ | ⟨e, a', hout, hshort, hcompare, -⟩
    · exact .inl ⟨a', hcompare⟩
    · exact .inr ⟨e, a', hout, hshort, hcompare⟩
  · exact .inr ⟨e, s, hout, hmaxDepth ▸ hshort, hread⟩

/-- What a reader has added to an arena is printed as text that a reader with the same depth finds
the same bytes in, whatever the options of the printer. If all input was text, so is what is
printed. -/
theorem read_print_read {r : Reader} {a : Arena} {source : Source} {place : Place} {s : Reading}
    (h : Ready r a) (hreads : Reads ⟨r, source, a⟩ place s) (o : PrintOptions) (ext : External) :
    ∃ bytes text, Added a place bytes s.arena ∧ Written s.arena ext place bytes ∧
      PrintsAs o ext r.maxDepth bytes text ∧ ReadsAs r.maxDepth ext text bytes ∧
      (WellFormed (r.pushback ++ source.bytes) →
        ∀ k : Transcript, k.bytes = text → Utf8.encode k.text = k.bytes) := by
  obtain ⟨t, rest, hfound, rfl, hfinished⟩ := h.found hreads
  have hwithin := Grammar.read_within r.maxDepth r.inComment (r.pushback ++ source.bytes)
  rw [hfound] at hwithin
  have hreadable : Readable r.maxDepth 0 t := hwithin.2
  refine ⟨t.encode, t.text o 0, hfinished.added h.bounded, hfinished.written h.bounded ext,
    printsAs_text hreadable h.depth o ext, readsAs_text hreadable h.depth o ext, ?_⟩
  intro hinput k hk
  have htextual := Grammar.read_textual r.maxDepth r.inComment hinput
  rw [hfound] at htextual
  have htextual : t.Textual := htextual.1
  rw [Transcript.text, Utf8.encode_decodeLossy (hk ▸ htextual.text o 0)]

/-- A list of two values, as it is read into an arena of 64 bytes, written and read again. -/
theorem reread_list : ∃ a s, Arena.create 64 = .ok a ∧
    read ⟨Reader.ofDepth 1, ofBytes [40, 39, 97, 32, 45, 55, 41], a⟩ = .ok (.done ⟨.arena, 2⟩) s ∧
    s.arena.free = 52 ∧ s.arena.isLocked = false ∧ (Reading.liveBytes s.arena).length = 10 ∧
    (after (print .unmapped ⟨.arena, 2⟩ ⟨{ options := {} }, s.arena, ({} : Transcript)⟩)).sink.bytes =
      [40, 39, 97, 32, 45, 55, 41] ∧
    (after (read ⟨Reader.ofDepth 1, ofBytes ([40, 39, 97, 32, 45, 55, 41] ++ [Ascii.newline]),
      s.arena⟩)).arena.free = 42 := by
  obtain ⟨a, ha⟩ : ∃ a, Arena.create 64 = .ok a := ⟨_, rfl⟩
  refine ⟨a, after (read ⟨Reader.ofDepth 1, ofBytes [40, 39, 97, 32, 45, 55, 41], a⟩), ha,
    eq_ok_of_verdict ?_, ?_, ?_, ?_, ?_, ?_⟩
  all_goals
    cases ha
    decide +kernel

/-- There is memory enough for all of it, at a depth of one list. -/
theorem read_print_read_list : ∃ a place s, Arena.create 64 = .ok a ∧ Ready (Reader.ofDepth 1) a ∧
    Reads ⟨Reader.ofDepth 1, ofBytes [40, 39, 97, 32, 45, 55, 41], a⟩ place s ∧
    ∃ bytes text, Added a place bytes s.arena ∧ Written s.arena .unmapped place bytes ∧
      PrintsAs {} .unmapped 1 bytes text ∧ ReadsAs 1 .unmapped text bytes ∧
      (WellFormed [40, 39, 97, 32, 45, 55, 41] →
        ∀ k : Transcript, k.bytes = text → Utf8.encode k.text = k.bytes) ∧
      (∃ b k, print .unmapped place ⟨{ options := {} }, s.arena, ({} : Transcript)⟩ =
          .ok .done ⟨{ options := {} }, b, k⟩ ∧ k.bytes = text) ∧
      ∃ place' s', read ⟨Reader.ofDepth 1, ofBytes (text ++ [Ascii.newline]), s.arena⟩ =
          .ok (.done place') s' ∧ Added s.arena place' bytes s'.arena ∧
        ∃ a', Cell.compare .unmapped place place' s'.arena = .ok .eq a' := by
  obtain ⟨a, s, ha, hread, hfree, hunlocked, hlength, hsink, hfree'⟩ := reread_list
  have hready := Reading.ready_create 1 ha
  have hreads : Reads ⟨Reader.ofDepth 1, ofBytes [40, 39, 97, 32, 45, 55, 41], a⟩ ⟨.arena, 2⟩ s :=
    .done hread
  obtain ⟨bytes, text, hadded, hwritten, hprints, hreadsAs, hutf⟩ :=
    read_print_read hready hreads {} .unmapped
  rw [show (Reader.ofDepth 1).maxDepth = 1 from rfl] at hprints hreadsAs
  obtain ⟨t, rest, -, -, hfinished⟩ := hready.found hreads
  have hbounded := hfinished.bounded hready.bounded
  have hbytes : bytes.length ≤ 10 := by
    rw [← hlength, hadded.live, List.length_append]
    exact Nat.le_add_left ..
  obtain ⟨b, k, hprint, htext⟩ : ∃ b k,
      print .unmapped ⟨.arena, 2⟩ ⟨{ options := {} }, s.arena, ({} : Transcript)⟩ =
        .ok .done ⟨{ options := {} }, b, k⟩ ∧ k.bytes = text := by
    rcases hprints keeps_transcript not_refuses_transcript { options := {} } s.arena ⟨.arena, 2⟩
        ({} : Transcript) rfl rfl hbounded hwritten with
      ⟨b, k, hprint, hseen, -⟩ | ⟨_, _, -, hshort, -⟩
    · exact ⟨b, k, hprint, hseen⟩
    · exact absurd hshort (by rw [hfree]; decide)
  rw [hprint] at hsink
  obtain rfl : text = [40, 39, 97, 32, 45, 55, 41] := htext.symm.trans hsink
  refine ⟨a, _, s, ha, hready, hreads, bytes, _, hadded, hwritten, hprints, hreadsAs, hutf,
    ⟨b, k, hprint, htext⟩, ?_⟩
  rcases hreadsAs s.arena hbounded hunlocked with
    ⟨place, s', hread', hadded', hequal⟩ | ⟨_, _, -, hshort, -⟩
  · refine ⟨place, s', hread', hadded', ?_⟩
    rw [hread', after] at hfree'
    rcases hequal _ hwritten with hcompare | ⟨_, _, -, hshort, -⟩
    · exact hcompare
    · exact absurd hshort (by rw [hfree']; decide)
  · rw [hfree, show Limits.frameCost = 14 from rfl] at hshort
    omega

/-- In an arena that is locked nothing is read again, though memory has not run out there. -/
theorem reread_locked : ∃ a s u l b t, Arena.create 64 = .ok a ∧
    read ⟨Reader.ofDepth 4, ofBytes [55, 10], a⟩ = .ok (.done ⟨.arena, 2⟩) s ∧
    print .unmapped ⟨.arena, 2⟩ ⟨{ options := {} }, s.arena, ({} : Transcript)⟩ = .ok .done u ∧
    u.sink.bytes = [43, 55] ∧ Arena.lock s.arena = .ok l b ∧
    read ⟨Reader.ofDepth 4, ofBytes ([43, 55] ++ [Ascii.newline]), b⟩ =
      .error (.fault (.arena .locked)) t := by
  obtain ⟨a, ha⟩ : ∃ a, Arena.create 64 = .ok a := ⟨_, rfl⟩
  let s := after (read ⟨Reader.ofDepth 4, ofBytes [55, 10], a⟩)
  let u := after (print .unmapped ⟨.arena, 2⟩ ⟨{ options := {} }, s.arena, ({} : Transcript)⟩)
  let b := after (Arena.lock s.arena)
  refine ⟨a, s, u, ⟨1⟩, b, _, ha, eq_ok_of_verdict ?_, eq_ok_of_verdict ?_, ?_, eq_ok_of_verdict ?_,
    eq_error_of_verdict ?_⟩
  all_goals
    cases ha
    decide +kernel

end Printing

end FlatLisp
