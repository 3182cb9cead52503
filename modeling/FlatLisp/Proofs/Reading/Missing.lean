/-
Module: FlatLisp.Proofs.Reading.Missing
Purpose: What is written as missing for a suspended reader, whatever arena it reads into. Through every
  sink it is the same text, and if any bytes complete the value in progress, then this text does. In an
  arena that is locked no bytes do.
Main exports: Parse.vacant_read, Reading.Vacant, Reading.unlocked_of_reads, Reading.missing_completes
-/
import FlatLisp.Proofs.Reading.Termination

namespace FlatLisp

open Source (ofBytes)

/-! ### Reads without memory -/

namespace Parse

variable {l : Limits} {p q : Parse}

/-- No value has been made, and none is in progress. -/
def Outcome.Vacant : Outcome → Prop
  | .again q | .starved _ q => q.lists = [] ∧ q.leaf = none
  | .done _ _ => False
  | .failed _ => True

theorem vacant_begin (hstop : l.stop = some 0) {length : Nat} (hlength : 0 < length) (next : Parse) :
    (p.begin l length next).Vacant := by
  have hshort : l.shortage p.frames p.used length = some (Limits.outOfMemory length 0) := by
    rw [Limits.shortage, hstop]
    simp [Limits.free, hlength]
  rw [begin, hshort]
  trivial

theorem vacant_accept (hstop : l.stop = some 0) (hlists : p.lists = []) (hleaf : p.leaf = none)
    (token : Reading.Token) : (p.accept l token).Vacant := by
  cases token with
  | comment => exact ⟨hlists, hleaf⟩
  | close =>
      rw [accept_close_nil l hlists]
      trivial
  | list sigil =>
      unfold accept
      dsimp only
      split
      · trivial
      · exact vacant_begin hstop (by decide) _
  | symbol sigil quoted => exact vacant_begin hstop (by decide) _
  | integer => exact vacant_begin hstop (by decide) _

theorem vacant_turn (hstop : l.stop = some 0) (hlists : p.lists = []) (hleaf : p.leaf = none) :
    (p.turn l).Vacant := by
  cases hcomment : p.inComment with
  | true =>
      rw [turn_of_comment hcomment]
      unfold commentTurn afterComment
      split <;> exact ⟨hlists, hleaf⟩
  | false =>
      rw [turn_of_token hcomment hleaf]
      unfold tokenTurn afterLead
      split
      · exact ⟨hlists, hleaf⟩
      · trivial
      · refine vacant_accept hstop ?_ ?_ _
        · exact hlists
        · exact hleaf

theorem vacant_read (hstop : l.stop = some 0) (hlists : p.lists = []) (hleaf : p.leaf = none) :
    (p.read l).Vacant := by
  have hvalid : p.Valid l := valid_of_idle hlists hleaf
  induction p, hvalid using read_induction with
  | step p hvalid ih =>
      have hturn := vacant_turn hstop hlists hleaf
      cases houtcome : p.turn l with
      | again q =>
          rw [houtcome] at hturn
          rw [read_of_again hvalid houtcome]
          exact ih q (valid_of_again hvalid houtcome) houtcome hturn.1 hturn.2
      | starved kept q | done t q | failed why =>
          rw [read_of_settled (by simp [houtcome])]
          exact hturn

end Parse

namespace Reading

open Printing (missing Views)

/-! ### Arenas in which nothing can be begun -/

section Vacant

variable {s t : Reading} {place : Place} {r : Reader} {a : Arena} {source : Source}

/-- The reader is between values, and there is no memory to begin one. -/
def Vacant (s : Reading) : Prop :=
  ∃ l p, Paired l p s ∧ l.stop = some 0 ∧ p.lists = [] ∧ p.leaf = none

theorem vacant_of_locked (hidle : r.isIdle = true)
    (hpushback : r.pushback.length ≤ Reader.pushbackCapacity) (hlocked : a.isLocked = true)
    (source : Source) : Vacant ⟨r, source, a⟩ := by
  have hunable := unable_idle hidle hpushback (Arena.barren_of_locked hlocked) source
  exact ⟨_, _, .inr hunable, hunable.stop, hunable.lists, hunable.leaf⟩

theorem Vacant.with_source (h : Vacant ⟨r, source, a⟩) (other : Source) : Vacant ⟨r, other, a⟩ := by
  obtain ⟨l, p, hpaired, hstop, hlists, hleaf⟩ := h
  exact ⟨l, _, hpaired.with_source other, hstop, hlists, hleaf⟩

theorem Vacant.pending (h : Vacant s) (hread : read s = .ok .pending t) : Vacant t := by
  obtain ⟨l, p, hpaired, hstop, hlists, hleaf⟩ := h
  have hattains := (hpaired.loops_read (Parse.valid_of_idle hlists hleaf)).2
  have hvacant := Parse.vacant_read hstop hlists hleaf
  rw [hread] at hattains
  obtain ⟨q, houtcome, hnext⟩ := hattains.of_pending
  rw [houtcome] at hvacant
  exact ⟨l, q, hnext, hstop, hvacant.1, hvacant.2⟩

theorem Vacant.not_done (h : Vacant s) : read s ≠ .ok (.done place) t := by
  intro hread
  obtain ⟨l, p, hpaired, hstop, hlists, hleaf⟩ := h
  have hattains := (hpaired.loops_read (Parse.valid_of_idle hlists hleaf)).2
  have hvacant := Parse.vacant_read hstop hlists hleaf
  rw [hread] at hattains
  obtain ⟨tree, q, houtcome, -, -⟩ := hattains.of_done
  rw [houtcome] at hvacant
  exact hvacant

theorem Vacant.not_reads (h : Vacant s) : ¬ Reads s place t := by
  intro hreads
  induction hreads with
  | done hread => exact h.not_done hread
  | stalled hread _ ih => exact ih (h.pending hread)

/-- Where a value has been read the arena was not locked. -/
theorem unlocked_of_reads (hidle : r.isIdle = true)
    (hpushback : r.pushback.length ≤ Reader.pushbackCapacity)
    (hreads : Reads ⟨r, source, a⟩ place t) : a.isLocked = false := by
  cases hlocked : a.isLocked with
  | false => rfl
  | true => exact ((vacant_of_locked hidle hpushback hlocked source).not_reads hreads).elim

theorem Vacant.suspends (h : Vacant s) (hsuspends : Suspends s t) : Vacant t := by
  induction hsuspends with
  | dry hread _ => exact h.pending hread
  | stalled hread _ ih => exact ih (h.pending hread)
  | done hread _ _ => exact (h.not_done hread).elim

theorem Vacant.views (h : Vacant s) : ∃ ctxs, Views s.reader s.arena ctxs := by
  obtain ⟨l, p, hpaired, hstop, hlists, hleaf⟩ := h
  rcases hpaired with ⟨b, hl, htracks⟩ | hunable
  · exact ⟨_, htracks.views hl (Parse.valid_of_idle hlists hleaf)⟩
  · refine ⟨[], by decide, fun outward => ?_⟩
    rw [Reader.openContext, Reader.focus, hunable.root]
    rfl

end Vacant

/-! ### What is missing -/

/-- A call that writes `text` into a sink of which all that it has accepted is known. After one that
is blocked a beginning of the text has been accepted. -/
def Delivers {σ : Type} (text : List UInt8) :
    EStateM.Result Fault (Printing (Recorded σ)) PrintStatus → Prop
  | .ok .done u => u.sink.accepted = text
  | .ok .blocked u => u.sink.accepted <+: text ∧ u.sink.accepted ≠ text
  | .error _ _ => False

theorem asks_delivers {r : Reader} {a : Arena} {ctxs : List OpenContext} (hviews : Views r a ctxs)
    {σ : Type} [Sink σ] {p : Printer} {inner : σ} (hbusy : p.isBusy = false)
    {result : EStateM.Result Fault (Printing (Recorded σ)) PrintStatus}
    (hasks : Printing.Asks r ⟨p, a, ⟨inner, []⟩⟩ result) :
    Delivers (missing r.pendingSigil ctxs) result := by
  have hwrites := Printing.asks_writes hviews ⟨inner, []⟩ hbusy hasks
  cases hwrites with
  | done hseen => exact hseen
  | blocked c _ hleft hseen _ =>
      refine ⟨⟨_, hseen⟩, fun hall => hleft (List.append_right_eq_self.1 (hseen.trans ?_))⟩
      exact hall.symm

/-- Let a reader be suspended with something unfinished, and not in a comment, in an arena whose cursors
are in order. Then there is one text that is written as missing, at once into a sink that accepts
everything, and byte by byte into one that refuses bytes. If any bytes complete the value in progress,
then this text does, with a line end after it. In an arena that is locked no bytes do, however much
memory it has. -/
theorem missing_completes {r : Reader} {a : Arena} {source : Source} {t : Reading}
    (hidle : r.isIdle = true) (hpushback : r.pushback.length ≤ Reader.pushbackCapacity)
    (hdepth : r.maxDepth ≤ Cell.maxNesting) (ha : a.Bounded)
    (hsuspends : Suspends ⟨r, source, a⟩ t)
    (hunfinished : t.reader.isIdle = false ∨ t.reader.pushback ≠ [])
    (hcomment : t.reader.inComment = false) (hfree : 32 ≤ t.arena.free) :
    ∃ text,
      (∀ (p : Printer) (k : Transcript), p.isBusy = false →
        ∃ k', Printing.printMissing t.reader ⟨p, t.arena, k⟩ = .ok .done ⟨p, t.arena, k'⟩ ∧
          k'.bytes = k.bytes ++ text) ∧
      (∀ {σ : Type} [Sink σ] (p : Printer) (inner : σ), p.isBusy = false →
        ∀ result, Printing.Asks t.reader ⟨p, t.arena, ⟨inner, []⟩⟩ result →
          Delivers text result) ∧
      (a.isLocked = false → Completable r (r.pushback ++ source.bytes) →
        ∃ place u, read ⟨t.reader, ofBytes (text ++ [Text.Ascii.newline]), t.arena⟩ =
          .ok (.done place) u) ∧
      (a.isLocked = true → ∀ later place u, ¬ Reads ⟨t.reader, later, t.arena⟩ place u) := by
  cases hlocked : a.isLocked with
  | true =>
      have hvacant := (vacant_of_locked hidle hpushback hlocked source).suspends hsuspends
      obtain ⟨ctxs, hviews⟩ := hvacant.views
      refine ⟨missing t.reader.pendingSigil ctxs, ?_, ?_, Bool.noConfusion, ?_⟩
      · exact fun p k hbusy => Printing.printMissing_transcript hviews k hbusy
      · exact fun p inner hbusy result => asks_delivers hviews hbusy
      · exact fun _ later place u => (hvacant.with_source later).not_reads
  | false =>
      have hready : Ready r a := ⟨hidle, hpushback, hdepth, ha, hlocked⟩
      obtain ⟨n, b, q, hq⟩ :=
        suspended_of_suspends hsuspends hready.limitsOf (Ready.valid source) (hready.tracks source)
      refine ⟨missing t.reader.pendingSigil q.openContexts, ?_, ?_, ?_, Bool.noConfusion⟩
      · exact fun p k hbusy => Printing.printMissing_transcript hq.views k hbusy
      · exact fun p inner hbusy result => asks_delivers hq.views hbusy
      · intro _ hcompletable
        obtain ⟨more, hcompletes⟩ := hq.completes hready hcompletable
        exact hq.done hcompletes hunfinished hcomment hfree

/-- A quote waits for its value. -/
theorem suspends_quote : ∃ a t, Arena.create 64 = .ok a ∧
    Suspends ⟨Reader.ofDepth 4, ofBytes [39], a⟩ t ∧ t.reader.pushback ≠ [] ∧
    t.reader.inComment = false ∧ 32 ≤ t.arena.free := by
  obtain ⟨a, ha, t, hread, hbytes, hkept, hcomment, hfree⟩ :
      ∃ a, Arena.create 64 = .ok a ∧ ∃ t, read ⟨Reader.ofDepth 4, ofBytes [39], a⟩ = .ok .pending t ∧
        t.source.bytes = [] ∧ t.reader.pushback ≠ [] ∧ t.reader.inComment = false ∧
        32 ≤ t.arena.free :=
    ⟨_, rfl, _, rfl, rfl, by decide, by decide, by decide⟩
  exact ⟨a, t, ha, .dry hread hbytes, hkept, hcomment, hfree⟩

/-- A symbol completes it. -/
theorem completable_quote : Completable (Reader.ofDepth 4) [39] := by
  have hcut : Grammar.readAll 4 0 false [39] = ([], none) := by
    rw [Grammar.readAll]
    rfl
  have hread : Grammar.read 4 false [39, 97, 10] = .whole (.symbol .quote false [97]) [10] := rfl
  refine ⟨[97, 10], ?_⟩
  change (Grammar.readAll 4 0 false [39]).1.length < (Grammar.readAll 4 0 false [39, 97, 10]).1.length
  rw [hcut, Grammar.readAll, hread]
  dsimp only
  rw [if_pos (by decide)]
  exact Nat.succ_pos _

/-- So what is written as missing for the quote completes it too. -/
theorem missing_completes_quote : ∃ a t, Arena.create 64 = .ok a ∧
    Suspends ⟨Reader.ofDepth 4, ofBytes [39], a⟩ t ∧ t.reader.pushback ≠ [] ∧
    t.reader.inComment = false ∧ 32 ≤ t.arena.free ∧
    ∃ text,
      (∀ (p : Printer) (k : Transcript), p.isBusy = false →
        ∃ k', Printing.printMissing t.reader ⟨p, t.arena, k⟩ = .ok .done ⟨p, t.arena, k'⟩ ∧
          k'.bytes = k.bytes ++ text) ∧
      (∀ {σ : Type} [Sink σ] (p : Printer) (inner : σ), p.isBusy = false →
        ∀ result, Printing.Asks t.reader ⟨p, t.arena, ⟨inner, []⟩⟩ result →
          Delivers text result) ∧
      ∃ place u, read ⟨t.reader, ofBytes (text ++ [Text.Ascii.newline]), t.arena⟩ =
        .ok (.done place) u := by
  obtain ⟨a, t, ha, hsuspends, hkept, hcomment, hfree⟩ := suspends_quote
  have hready := ready_create 4 ha
  obtain ⟨text, honce, hasks, hcompletes, -⟩ := missing_completes hready.idle hready.pushback
    hready.depth hready.bounded hsuspends (.inr hkept) hcomment hfree
  exact ⟨a, t, ha, hsuspends, hkept, hcomment, hfree, text, honce, hasks,
    hcompletes hready.unlocked completable_quote⟩

end Reading

end FlatLisp
