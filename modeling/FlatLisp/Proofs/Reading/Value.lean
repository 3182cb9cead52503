/-
Module: FlatLisp.Proofs.Reading.Value
Purpose: One value, read on through however many stalls. It is the tree that the grammar finds at the
  beginning of the input; its bytes are added to the forward region, and nothing that was live is
  lost.
Main exports: Reading.Reads, Reading.Added, Reading.finished_of_reads, Reading.Ready.found
-/
import FlatLisp.Proofs.Cell.Depiction
import FlatLisp.Proofs.Reading.Idle

namespace FlatLisp

namespace Reading

open Source (ofBytes)
open Cell (Written)

/-- Reading on from `s`, again after each stall, the next value is the one at `place`. -/
inductive Reads : Reading → Place → Reading → Prop where
  | done {s t : Reading} {place : Place} (hread : read s = .ok (.done place) t) : Reads s place t
  | stalled {s t u : Reading} {place : Place} (hread : read s = .ok .pending t)
      (hrest : Reads t place u) : Reads s place u

/-- The value at `place` has been added to the forward region, where it is encoded as `bytes`. -/
structure Added (b : Arena) (place : Place) (bytes : List UInt8) (a : Arena) : Prop where
  place : place = ⟨.arena, b.forward⟩
  live : liveBytes a = liveBytes b ++ bytes

/-- The result of a read is a value. -/
def isDone : EStateM.Result ReadError Reading ReadStatus → Bool
  | .ok (.done _) _ => true
  | _ => false

theorem read_of_isDone {s : Reading} (h : isDone (read s) = true) :
    ∃ place t, read s = .ok (.done place) t := by
  cases hread : read s with
  | error why t =>
      rw [hread] at h
      contradiction
  | ok status t =>
      cases status with
      | done place => exact ⟨place, t, rfl⟩
      | pending =>
          rw [hread] at h
          contradiction

theorem exists_reads {s : Reading} (h : isDone (read s) = true) : ∃ place t, Reads s place t := by
  obtain ⟨place, t, hread⟩ := read_of_isDone h
  exact ⟨place, t, .done hread⟩

variable {l : Limits} {b : Arena} {p : Parse} {s u : Reading} {place : Place} {t : Tree}

/-! ### In memory -/

section Finished

variable {a : Arena} (hb : b.Bounded) (h : Finished b t a)

include h

theorem Finished.preserves : b.Preserves a where
  size := h.laid.size
  below := h.laid.below
  above := h.laid.above
  forward := h.forward ▸ Nat.le_add_right ..
  backward := Nat.le_of_eq h.laid.backward

include hb

theorem Finished.added : Added b ⟨.arena, b.forward⟩ t.encode a where
  place := rfl
  live := h.liveBytes hb

/-- The bytes of a finished value can be fetched. -/
theorem Finished.written (ext : External) : Written a ext ⟨.arena, b.forward⟩ t.encode := by
  have hforward := h.forward
  have hlive : a.Live b.forward t.encode.length :=
    .inl ⟨hb.header, Nat.le_of_eq hforward.symm⟩
  have hbytes := Arena.bytes_ok hlive h.laid.cells
  have ha := h.bounded hb
  have hcursors := ha.cursors
  have hbackward := ha.backward
  have hcapacity := ha.capacity
  refine ⟨?_, ?_⟩
  · simp only [Cell.fetch, hbytes, mapError_ok]
  · simp only [Place.maxOffset, Arena.maxCapacity] at hcapacity ⊢
    omega

end Finished

/-! ### Through stalls -/

/-- A value that is done was done with all bytes there from the beginning. -/
theorem finished_of_reads (hreads : Reads s place u) (hl : LimitsOf l b) (hvalid : p.Valid l)
    (h : Tracks l b p s) :
    ∃ t q, (p.joined []).read l = .done t (q.joined []) ∧ place = ⟨.arena, b.forward⟩ ∧
      Finished b t u.arena ∧ Tracks l u.arena q u := by
  induction hreads generalizing p with
  | @done s u place hread =>
      have hanswers := answers_read hl hvalid h
      have hjoins := Parse.joins_read [] hvalid
      rw [hread] at hanswers
      obtain ⟨t, q, houtcome, hplace, hfinished, hnext⟩ := hanswers.of_done
      rw [houtcome] at hjoins
      exact ⟨t, q, hjoins.1, hplace, hfinished, hnext⟩
  | @stalled s s' u place hread hrest ih =>
      have hanswers := answers_read hl hvalid h
      have hjoins := Parse.joins_read [] hvalid
      have hsound := Parse.sound_read hvalid
      rw [hread] at hanswers
      obtain ⟨q, houtcome, hnext⟩ := hanswers.of_pending
      rw [houtcome] at hjoins hsound
      rw [hjoins.1]
      exact ih hsound hnext

/-- A value that is done is what the grammar finds. -/
theorem Idle.found {live input : List UInt8} {q : Parse} (h : Idle l live p input)
    (hread : p.read l = .done t q) :
    ∃ rest, Grammar.read l.maxDepth p.inComment input = .whole t rest ∧ q = Reading.after p t rest := by
  rcases h.agrees with hagrees | ⟨_, _, _, hout⟩
  · rw [hread] at hagrees
    generalize Grammar.read l.maxDepth p.inComment input = result at hagrees
    cases result with
    | whole tree rest =>
        rw [Parse.Agrees, carry_complete h.lists] at hagrees
        injection hagrees with htree hq
        exact ⟨rest, by rw [htree], by rw [hq, htree]⟩
    | cut =>
        obtain ⟨_, _, hstarved⟩ := hagrees
        contradiction
    | refused cause found left => contradiction
  · rw [hread] at hout
    contradiction

/-- A value that an idle reader has read is what the grammar finds at the beginning of the input. -/
theorem Ready.found {r : Reader} {a : Arena} {source : Source} (h : Ready r a)
    (hreads : Reads ⟨r, source, a⟩ place u) :
    ∃ t rest, Grammar.read r.maxDepth r.inComment (r.pushback ++ source.bytes) = .whole t rest ∧
      place = ⟨.arena, a.forward⟩ ∧ Finished a t u.arena := by
  obtain ⟨t, q, hread, hplace, hfinished, -⟩ :=
    finished_of_reads hreads h.limitsOf (Ready.valid source) (h.tracks source)
  have hidle := h.joined source []
  rw [List.append_nil] at hidle
  obtain ⟨rest, hfound, -⟩ := hidle.found hread
  exact ⟨t, rest, hfound, hplace, hfinished⟩

end Reading

end FlatLisp
