/-
Module: FlatLisp.Proofs.Reading.Suspension
Purpose: A reader that is suspended in the middle of a value, and how the value can be completed.
  If any bytes complete it, then those do that are written as missing.
Main exports: Reading.Suspends, Reading.Completable, Reading.Suspended, Reading.Suspended.done
-/
import FlatLisp.Proofs.Reading.Completion
import FlatLisp.Proofs.Reading.Idle

namespace FlatLisp

namespace Reading

open Layout
open Source (ofBytes)
open Printing (missing)

/-- Reading on from `s` leaves the reader suspended in the state `t`, with all bytes delivered. -/
inductive Suspends : Reading → Reading → Prop where
  | dry {s t : Reading} (hread : read s = .ok .pending t) (hbytes : t.source.bytes = []) :
      Suspends s t
  | stalled {s t u : Reading} (hread : read s = .ok .pending t) (hrest : Suspends t u) :
      Suspends s u
  | done {s t u : Reading} {place : Place} (hread : read s = .ok (.done place) t)
      (hrest : Suspends t u) : Suspends s u

variable {l : Limits} {b : Arena} {p q : Parse} {s t : Reading} {n : Nat}

/-! ### The same in terms of trees -/

/-- After `n` values the read `p` goes on as the read `q`. -/
inductive Yields (l : Limits) : Nat → Parse → Parse → Prop where
  | same {p q : Parse} (hread : p.read l = q.read l) : Yields l 0 p q
  | done {n : Nat} {p q r : Parse} {t : Tree} (hread : p.read l = .done t q)
      (hrest : Yields l n q r) : Yields l (n + 1) p r

theorem Yields.of_read {r : Parse} (h : Yields l n q r) (hread : p.read l = q.read l) :
    Yields l n p r := by
  cases h with
  | same h => exact .same (hread.trans h)
  | done h hrest => exact .done (hread.trans h) hrest

/-- The state `t` is that of the read `q`, to which the read `p` comes after `n` values, whatever
bytes come later. -/
structure Suspended (l : Limits) (p : Parse) (t : Reading) (n : Nat) (b : Arena) (q : Parse) :
    Prop where
  limits : LimitsOf l b
  valid : q.Valid l
  tracks : Tracks l b q t
  dry : t.source.bytes = []
  kept : (q.with_kept t.reader.pushback).turn l.unbounded =
    .starved t.reader.pushback (q.with_kept t.reader.pushback)
  yields : ∀ later, Yields l.unbounded n (p.joined later) (q.joined later)

theorem read_unbounded_of_ok (hvalid : p.Valid l) (hok : ∀ why, p.read l ≠ .failed why) :
    p.read l.unbounded = p.read l := by
  rcases Parse.read_unbounded hvalid with hsame | ⟨_, _, _, hfailed⟩
  · exact hsame.symm
  · exact (hok _ hfailed).elim

theorem suspended_of_suspends (h : Suspends s t) (hl : LimitsOf l b) (hvalid : p.Valid l)
    (htracks : Tracks l b p s) : ∃ n b' q, Suspended l p t n b' q := by
  induction h generalizing b p with
  | @dry s t hread hbytes =>
      have hanswers := answers_read hl hvalid htracks
      have hsound := Parse.sound_read hvalid
      rw [hread] at hanswers
      obtain ⟨q, houtcome, hnext⟩ := hanswers.of_pending
      have hsame := read_unbounded_of_ok hvalid (by simp [houtcome])
      rw [houtcome] at hsame hsound
      refine ⟨0, b, q, hl, hsound, hnext, hbytes, ?_, ?_⟩
      · have hjoins := Parse.joins_read [] hvalid.unbounded
        rw [hsame] at hjoins
        exact hjoins.2.2.2
      · intro later
        have hjoins := Parse.joins_read later hvalid.unbounded
        rw [hsame] at hjoins
        exact .same hjoins.1
  | @stalled s t u hread hrest ih =>
      have hanswers := answers_read hl hvalid htracks
      have hsound := Parse.sound_read hvalid
      rw [hread] at hanswers
      obtain ⟨q, houtcome, hnext⟩ := hanswers.of_pending
      have hsame := read_unbounded_of_ok hvalid (by simp [houtcome])
      rw [houtcome] at hsame hsound
      obtain ⟨n, b', r, hr⟩ := ih hl hsound hnext
      refine ⟨n, b', r, hr.limits, hr.valid, hr.tracks, hr.dry, hr.kept, ?_⟩
      intro later
      have hjoins := Parse.joins_read later hvalid.unbounded
      rw [hsame] at hjoins
      exact (hr.yields later).of_read hjoins.1
  | @done s t u place hread hrest ih =>
      have hanswers := answers_read hl hvalid htracks
      have hsound := Parse.sound_read hvalid
      rw [hread] at hanswers
      obtain ⟨tree, q, houtcome, -, hfinished, hnext⟩ := hanswers.of_done
      have hsame := read_unbounded_of_ok hvalid (by simp [houtcome])
      rw [houtcome] at hsame hsound
      obtain ⟨n, b', r, hr⟩ := ih (hfinished.limits hl) hsound.2 hnext
      refine ⟨n + 1, b', r, hr.limits, hr.valid, hr.tracks, hr.dry, hr.kept, ?_⟩
      intro later
      have hjoins := Parse.joins_read later hvalid.unbounded
      rw [hsame] at hjoins
      exact .done hjoins.1 (hr.yields later)

/-! ### Values that can be completed -/

/-- Some more bytes after `bytes` make one more value, or several, where memory has no bound. -/
def Completable (r : Reader) (bytes : List UInt8) : Prop :=
  ∃ more, (Grammar.readAll r.maxDepth r.position r.inComment bytes).1.length <
    (Grammar.readAll r.maxDepth r.position r.inComment (bytes ++ more)).1.length

/-- The grammar finds the values that have been read, and one more if the bytes complete it. -/
theorem Yields.count {live input : List UInt8} (h : Yields l n p q) (hl : l.stop = none)
    (hidle : Idle l live p input) (position : Nat) :
    n ≤ (Grammar.readAll l.maxDepth position p.inComment input).1.length ∧
      (n < (Grammar.readAll l.maxDepth position p.inComment input).1.length ↔
        q.Completes l) := by
  induction h generalizing live input position with
  | @same p q hread =>
      refine ⟨Nat.zero_le _, ?_⟩
      have hwithin := Grammar.read_within l.maxDepth p.inComment input
      have hagrees := Parse.agrees_read hl hidle.valid hidle.lists hidle.leaf hidle.ahead
      rw [hread] at hagrees
      rw [Grammar.readAll, Parse.Completes]
      generalize Grammar.read l.maxDepth p.inComment input = result at hagrees hwithin
      cases result with
      | whole t rest =>
          rw [Parse.Agrees, carry_complete hidle.lists] at hagrees
          rw [hagrees]
          dsimp only
          rw [if_pos hwithin.1]
          exact iff_of_true (Nat.zero_lt_succ _) ⟨_, _, rfl⟩
      | cut =>
          obtain ⟨_, _, hstarved⟩ := hagrees
          rw [hstarved]
          exact iff_of_false (Nat.lt_irrefl _) (by simp)
      | refused cause found left =>
          rw [Parse.Agrees] at hagrees
          rw [hagrees]
          exact iff_of_false (Nat.lt_irrefl _) (by simp [Parse.reject])
  | @done n p r q t hread hrest ih =>
      have hwithin := Grammar.read_within l.maxDepth p.inComment input
      have hagrees := Parse.agrees_read hl hidle.valid hidle.lists hidle.leaf hidle.ahead
      rw [hread] at hagrees
      rw [Grammar.readAll]
      generalize Grammar.read l.maxDepth p.inComment input = result at hagrees hwithin
      cases result with
      | whole tree rest =>
          rw [Parse.Agrees, carry_complete hidle.lists] at hagrees
          injection hagrees with htree hr
          subst htree hr
          have hcount := ih (hidle.after t rest) (position + (input.length - rest.length))
          dsimp only
          rw [if_pos hwithin.1]
          exact ⟨Nat.succ_le_succ hcount.1, Nat.succ_lt_succ_iff.trans hcount.2⟩
      | cut =>
          obtain ⟨_, _, hstarved⟩ := hagrees
          contradiction
      | refused cause found left => contradiction

/-- If some bytes complete the value in progress, then there are bytes of which the suspended reader
makes it. -/
theorem Suspended.completes {r : Reader} {a : Arena} {source : Source} (hready : Ready r a)
    (h : Suspended (Ready.limits r a) (Ready.parse r a source) t n b q)
    (hcompletable : Completable r (r.pushback ++ source.bytes)) :
    ∃ more, (q.joined more).Completes (Ready.limits r a).unbounded := by
  obtain ⟨more, hmore⟩ := hcompletable
  have hidle : ∀ later, Idle (Ready.limits r a).unbounded (liveBytes a)
      ((Ready.parse r a source).joined later) (r.pushback ++ source.bytes ++ later) := by
    intro later
    have hidle := hready.joined source later
    exact ⟨hidle.valid.unbounded, hidle.lists, hidle.leaf, hidle.ahead, hidle.start⟩
  obtain ⟨hle, -⟩ := (h.yields []).count rfl (hidle []) r.position
  rw [List.append_nil] at hle
  exact ⟨more, ((h.yields more).count rfl (hidle more) r.position).2.1 (Nat.lt_of_le_of_lt hle hmore)⟩

/-! ### The suspended state -/

/-- The free bytes of the arena are what memory is left. -/
theorem Tracks.free (h : Tracks l b q t) :
    t.arena.free = Limits.free b.backward q.frames (forwardOf l q) := by
  rw [Arena.free, h.forward, h.backward, Limits.free]

/-- In 32 bytes a short symbol fits. -/
theorem Tracks.spare (hl : LimitsOf l b) (h : Tracks l b q t) (hfree : 32 ≤ t.arena.free) :
    q.Spare l := by
  rw [h.free] at hfree
  have hstop := hl.stop
  refine ⟨?_, ?_, ?_⟩
  · intro hleaf
    rw [forwardOf, hleaf] at hfree
    dsimp only at hfree
    rw [Limits.shortage, hstop]
    dsimp only
    generalize Limits.free b.backward q.frames q.used = room at hfree
    have hheader : ¬ room < Header.symbolLength := by
      simp only [Header.symbolLength]
      omega
    have hmark : ¬ room - Header.symbolLength < Arena.markLength := by
      simp only [Header.symbolLength, Arena.markLength]
      omega
    have hframe : ¬ room - Header.symbolLength - Arena.markLength < Frame.length := by
      simp only [Header.symbolLength, Arena.markLength, Frame.length]
      omega
    rw [if_neg hheader, if_neg hmark, if_neg hframe]
  · intro hleaf
    rw [forwardOf, hleaf] at hfree
    dsimp only at hfree
    rw [Limits.reserved, hstop]
    simp only [Limits.free, Limits.frameCost, Arena.markLength, Frame.length, Header.symbolLength,
      Header.maxSymbol] at hfree ⊢
    omega
  · intro sigil quoted escaped chars hleaf
    rw [forwardOf, hleaf] at hfree
    dsimp only at hfree
    rw [Limits.reserved, hstop] at hfree ⊢
    simp only [Limits.free, Header.maxSymbol] at hfree ⊢
    omega

/-- The bytes that a suspended reader has kept wait for their value. -/
theorem waits_of_kept {kept : List UInt8} (hcomment : q.inComment = false) (hne : kept ≠ [])
    (h : (q.with_kept kept).turn l = .starved kept (q.with_kept kept)) :
    q.leaf = none ∧ ∃ sigil, Waits (Parse.levelOf q.lists) kept sigil := by
  cases hleaf : q.leaf with
  | none =>
      refine ⟨rfl, waits_of_starved hne ?_⟩
      rw [Parse.turn_of_token (p := q.with_kept kept) hcomment hleaf, Parse.tokenTurn] at h
      change Parse.afterLead l (q.with_kept kept)
        (scanLead (Parse.levelOf q.lists) 0 (ofBytes kept)) = _ at h
      generalize scanLead (Parse.levelOf q.lists) 0 (ofBytes kept) = scan at h
      obtain ⟨taken, lead⟩ := scan
      cases lead with
      | starved run =>
          injection h with hrun _
          rw [hrun]
      | accepted token back => exact (Parse.accept_ne_starved _ _ _ _ _ h).elim
      | rejected cause found => contradiction
  | some leaf =>
      cases leaf with
      | symbol sigil quoted escaped chars =>
          rw [Parse.turn_of_symbol (p := q.with_kept kept) hcomment hleaf, Parse.symbolTurn,
            Parse.afterSymbol] at h
          split at h
          · injection h with hnil _
            exact (hne hnil.symm).elim
          · contradiction
          · contradiction
          · exact (Parse.complete_ne_starved _ _ _ _ h).elim
      | integer negative digits magnitude =>
          rw [Parse.turn_of_integer (p := q.with_kept kept) hcomment hleaf, Parse.integerTurn,
            Parse.afterInteger] at h
          split at h
          · injection h with hnil _
            exact (hne hnil.symm).elim
          · contradiction
          · exact (Parse.complete_ne_starved _ _ _ _ h).elim

/-- A reader shows its unfinished values, of which there are few. -/
theorem Tracks.views (hl : LimitsOf l b) (hvalid : q.Valid l) (h : Tracks l b q t) :
    Printing.Views t.reader t.arena q.openContexts := by
  refine ⟨?_, h.openContext hl hvalid⟩
  have hdepth := hvalid.depth
  have hmax := hl.depth
  have hleaf : (q.leaf.map Leaf.view).toList.length ≤ 1 := by
    cases q.leaf <;> simp
  rw [Parse.openContexts, List.length_append, List.length_map]
  simp only [Cell.maxNesting, Printing.contextLimit, Place.maxOffset] at hmax ⊢
  omega

theorem Suspended.views (h : Suspended l p t n b q) :
    Printing.Views t.reader t.arena q.openContexts :=
  h.tracks.views h.limits h.valid

/-- The suspended reader is given other bytes. -/
theorem Suspended.given (h : Suspended l p t n b q) (bytes : List UInt8) :
    Tracks l b (q.with_kept (t.reader.pushback ++ bytes)) ⟨t.reader, ofBytes bytes, t.arena⟩ where
  start := h.tracks.start
  laid := h.tracks.laid
  forward := h.tracks.forward
  held := h.tracks.held
  root := h.tracks.root
  inComment := h.tracks.inComment
  count := h.tracks.count
  ahead := by
    rw [Parse.with_kept, Source.ofBytes_append]
    rfl
  pushback := h.tracks.pushback
  maxDepth := h.tracks.maxDepth

theorem pendingSigil_eq (r : Reader) : r.pendingSigil = Parse.pending r.pushback := by
  rw [Reader.pendingSigil, Parse.pending]
  cases r.pushback.getLast? <;> rfl

/-- If anything completes the value in progress, what is missing does. -/
theorem Suspended.done {more : List UInt8} (h : Suspended l p t n b q)
    (hcompletes : (q.joined more).Completes l.unbounded)
    (hunfinished : t.reader.isIdle = false ∨ t.reader.pushback ≠ [])
    (hcomment : t.reader.inComment = false) (hfree : 32 ≤ t.arena.free) :
    ∃ place u, read ⟨t.reader,
      ofBytes (missing t.reader.pendingSigil q.openContexts ++ [Text.Ascii.newline]), t.arena⟩ =
        .ok (.done place) u := by
  have hq : q.inComment = false := h.tracks.inComment.symm.trans hcomment
  have hclosable := Parse.closable_of_completes h.valid.unbounded.joined hcompletes
  have hspare := h.tracks.spare h.limits hfree
  generalize hbytes : missing t.reader.pendingSigil q.openContexts ++ [Text.Ascii.newline] = bytes
  have hvalid : (q.with_kept (t.reader.pushback ++ bytes)).Valid l := h.valid.of_same rfl rfl
  have hahead : (q.with_kept (t.reader.pushback ++ bytes)).ahead =
      ofBytes (t.reader.pushback ++ (missing (Parse.pending t.reader.pushback) q.openContexts ++
        [Text.Ascii.newline])) := by
    rw [← pendingSigil_eq, hbytes]
    rfl
  have hdone : (q.with_kept (t.reader.pushback ++ bytes)).Completes l := by
    refine Parse.completes_missing hvalid hq ⟨hclosable.outer, hclosable.leaf⟩
      ⟨hspare.header, hspare.character, hspare.symbol⟩ ?_ ?_ hahead
    · rw [h.tracks.isIdle h.limits.bounded] at hunfinished
      exact hunfinished
    · intro hne
      obtain ⟨hleaf, sigil, hwaits⟩ := waits_of_kept hq hne h.kept
      have hbetween : Parse.Between l.unbounded (q.joined more) (t.reader.pushback ++ more) := by
        refine ⟨h.valid.unbounded.joined, hleaf, hq, ?_⟩
        rw [Parse.joined, ← h.tracks.ahead, Reading.ahead, Source.bytes_append, h.dry,
          List.append_nil, show t.reader.pushback.map some = ofBytes t.reader.pushback from rfl,
          Source.bytes_ofBytes]
      obtain ⟨hroom, hstray⟩ := hwaits.of_completes (p := q.joined more) hbetween hcompletes
      exact ⟨hleaf, hroom, sigil, hwaits, hstray⟩
  obtain ⟨tree, r, hread⟩ := hdone
  have hanswers := answers_read h.limits hvalid (h.given bytes)
  rw [hread] at hanswers
  obtain ⟨u, hdone, -⟩ := hanswers
  exact ⟨_, u, hdone⟩

end Reading

end FlatLisp
