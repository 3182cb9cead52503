/-
Module: FlatLisp.Proofs.Console.Draining
Purpose: Draining the feed of a session. It comes to an end with the feed empty, and two sessions
  that are reading the same value do the same and write lines that agree.
Main exports: Line.Agrees, Session.Drains, Session.Twin, Session.Twin.drain
-/
import FlatLisp.Proofs.Console.Steady
import FlatLisp.Proofs.Store.Likeness
import Mathlib.Data.List.Forall2

namespace FlatLisp

open Source (ofBytes)

/-- The lines are the same, but that bad input may have been found at different places of all input,
and different figures be given of the memory that was short. -/
inductive Line.Agrees : Line → Line → Prop where
  | same (line : Line) : Agrees line line
  | misplaced {why why' : Rejection} (hcause : why'.cause = why.cause) :
      Agrees (.err ("Read error: " ++ why.message)) (.err ("Read error: " ++ why'.message))
  | short {e e' : Fault} (hout : e.RanOut) (hout' : e'.RanOut) :
      Agrees (.err ("Store error: " ++ e.message)) (.err ("Store error: " ++ e'.message))

theorem agrees_self (lines : List Line) : List.Forall₂ Line.Agrees lines lines :=
  List.forall₂_same.2 fun line _ => .same line

namespace Parse

/-- Between values, with the same bytes ahead. -/
def between (start : Nat) (q : Parse) : Parse where
  inComment := q.inComment
  count := q.count
  start := start
  ahead := q.ahead

/-- A bound on the reads that it takes until nothing is ahead. -/
def calls (p : Parse) : Nat := p.ahead.length + if p.leaf.isNone then 1 else 2

theorem calls_between {l : Limits} {p q : Parse} {t : Tree} (hvalid : p.Valid l)
    (h : p.read l = .done t q) (start : Nat) : (q.between start).calls < p.calls := by
  obtain ⟨hmost, hless⟩ := ahead_of_done hvalid h
  rw [calls, calls, show (q.between start).ahead = q.ahead from rfl,
    show (q.between start).leaf = none from rfl]
  cases hleaf : p.leaf with
  | none =>
      have := hless hleaf
      simp only [Option.isNone_none, if_true]
      omega
  | some leaf =>
      simp only [Option.isNone_none, Option.isNone_some, if_true, Bool.false_eq_true, if_false]
      omega

end Parse

namespace Session

open Reading

/-! ### Parts of a session -/

/-- The line in which a print shows. -/
def echoed : EStateM.Result Fault Arena (List UInt8) → Line
  | .ok bytes _ => .out (Text.Utf8.decodeLossy bytes)
  | .error why _ => .err ("Print error: " ++ why.message)

theorem echoed_congr {result result' : EStateM.Result Fault Arena (List UInt8)}
    (h : verdictOf result' = verdictOf result) : echoed result' = echoed result := by
  cases result <;> cases result' <;> cases h <;> rfl

theorem state_bind {α β : Type} (job : SessionM α) (next : α → SessionM β) (s : Session) :
    (job >>= next) s = next (job s).1 (job s).2 := rfl

theorem session_bind {α : Type} (next : Session → SessionM α) (s : Session) :
    ((get : SessionM Session) >>= next) s = next s s := rfl

section Arena

variable {ε α : Type} {job : EStateM ε Arena α} {s : Session} {a : Arena}

theorem withArena_ok {x : α} (h : job s.arena = .ok x a) :
    withArena job s = (.ok x, { s with arena := a }) := by
  simp only [withArena, h]

theorem withArena_error {e : ε} (h : job s.arena = .error e a) :
    withArena job s = (.error e, { s with arena := a }) := by
  simp only [withArena, h]

end Arena

theorem echo_eq (place : Place) (s : Session) :
    echo place s = ((), { s with
      arena := after (Cell.render s.external s.settings.print place s.arena)
      written := echoed (Cell.render s.external s.settings.print place s.arena) ::
        s.written }) := by
  rw [echo, session_bind, state_bind]
  cases hresult : Cell.render s.external s.settings.print place s.arena with
  | ok bytes a =>
      rw [withArena_ok hresult]
      rfl
  | error why a =>
      rw [withArena_error hresult]
      rfl

theorem release_eq (s : Session) :
    release s = ((), { s with arena := after (s.guard.release s.arena) }) := by
  have hrelease : release s = (withArena s.guard.release >>= fun _ => pure ()) s := rfl
  rw [hrelease, state_bind]
  cases hresult : s.guard.release s.arena with
  | ok _ a =>
      rw [withArena_ok hresult]
      rfl
  | error why a =>
      rw [withArena_error hresult]
      rfl

/-- Everything after the checkpoint is given up. -/
theorem release_covers {s : Session} {b : Arena} (hcheckpoint : s.guard.checkpoint = b.checkpoint)
    (hcovers : b.Covers s.arena) :
    release s = ((), { s with arena := s.arena.restored b.checkpoint }) := by
  rw [release_eq, Guard.release, hcheckpoint, hcovers.restore_ok]
  rfl

/-! ### The loop -/

/-- The state in which a failed read leaves a session: it is complained of, and the feed is
emptied. -/
def stopped : ReadError → Session → Session
  | .rejected why, s =>
      { s with written := .err ("Read error: " ++ why.message) :: s.written, feed := {} }
  | .fault why, s =>
      { s with
        written := .err ("Aborted: " ++ why.message) :: s.written
        printer := s.printer.reset
        feed := {} }

theorem feed_stopped (why : ReadError) (s : Session) : (stopped why s).feed = {} := by
  cases why <;> rfl

theorem store_stopped (why : ReadError) (s : Session) : (stopped why s).store = s.store := by
  cases why <;> rfl

/-- The state after a value has been written back and given up. -/
def shown (place : Place) (s : Session) : Session := (release (echo place s).2).2

section Turns

variable {s t : Session} {fuel : Nat}

theorem drainValues_value {place : Place} (h : readGuarded s = (.value place, t)) :
    drainValues (fuel + 1) s = drainValues fuel (shown place t) := by
  rw [drainValues, state_bind, h]
  rfl

theorem drainValues_pending (h : readGuarded s = (.pending, t)) :
    drainValues (fuel + 1) s = (true, t) := by
  rw [drainValues, state_bind, h]
  rfl

theorem drainValues_failed {why : ReadError} (h : readGuarded s = (why.outcome, t)) :
    drainValues (fuel + 1) s = (false, stopped why t) := by
  rw [drainValues, state_bind, h]
  cases why <;> rfl

end Turns

/-- Draining as a loop that may go on for ever: value after value is read and written back, until
the feed runs dry or a read fails. -/
inductive Drains : Session → Bool → Session → Prop where
  | value {s t u : Session} {good : Bool} {place : Place}
      (hread : readGuarded s = (.value place, t)) (hrest : Drains (shown place t) good u) :
      Drains s good u
  | pending {s t : Session} (hread : readGuarded s = (.pending, t)) : Drains s true t
  | failed {s t : Session} {why : ReadError} (hread : readGuarded s = (why.outcome, t)) :
      Drains s false (stopped why t)

/-! ### What stays as it is -/

section Steady

variable {o s t : Session} {p q : Parse} {a : Arena}

/-- Between values, in an arena that has been cleared, the reader goes on. -/
theorem steady_between (ho : Fresh o) (hsettings : t.settings = o.settings)
    (hprinter : t.printer = o.printer) (hcheckpoint : t.guard.checkpoint = o.arena.checkpoint)
    (hcleared : o.arena.Cleared t.arena)
    (htracks : Tracks o.limits a q (Reading.withPosition ⟨t.reader, t.feed.source, a⟩ q.count))
    (hlists : q.lists = []) (hleaf : q.leaf = none) :
    Steady o (q.between o.arena.forward) t where
  settings := hsettings
  printer := hprinter
  checkpoint := hcheckpoint
  valid := Parse.valid_of_idle rfl rfl
  tracks := by
    have hroot : t.reader.root = 0 := by
      have hroot := htracks.root
      rw [contexts_of_leaf hleaf, hlists] at hroot
      exact hroot
    have hlock : t.reader.lock = none := by
      have hheld := htracks.held
      rw [Held, hleaf] at hheld
      exact hheld.2
    have hidle := tracks_cleared ho.bounded hcleared (r := { t.reader with count := q.count })
      hroot hlock htracks.pushback htracks.maxDepth t.feed.source
    have hsame : q.between o.arena.forward =
        { inComment := t.reader.inComment, count := q.count, start := o.arena.forward,
          ahead := (⟨t.reader, t.feed.source, t.arena⟩ : Reading).ahead } := by
      rw [Parse.between, ← htracks.ahead, ← htracks.inComment]
      rfl
    rw [hsame]
    exact hidle

/-- The read that has read nothing, and has nothing ahead. -/
def fresh (o : Session) : Parse := { start := o.arena.forward, ahead := [] }

theorem valid_fresh (o : Session) (l : Limits) : o.fresh.Valid l := Parse.valid_of_idle rfl rfl

theorem steady_fresh (ho : Fresh o) (hsettings : t.settings = o.settings)
    (hprinter : t.printer = o.printer) (hcheckpoint : t.guard.checkpoint = o.arena.checkpoint)
    (hcleared : o.arena.Cleared t.arena) {n : UInt32}
    (hreader : t.reader = { maxDepth := o.reader.maxDepth, count := n }) (hfeed : t.feed = {}) :
    Steady o o.fresh t where
  settings := hsettings
  printer := hprinter
  checkpoint := hcheckpoint
  valid := o.valid_fresh _
  tracks := by
    rw [reading, hreader, hfeed]
    exact tracks_cleared ho.bounded hcleared (r := { maxDepth := o.reader.maxDepth }) rfl rfl
      (Nat.zero_le _) rfl []

theorem Fresh.cleared (ho : Fresh o) : o.arena.Cleared o.arena where
  toAlike := .refl _
  directions := rfl
  hold := ho.unlocked

/-- What has been read can always be given up. -/
theorem Steady.covers (ho : Fresh o) (h : Steady o p s) : o.arena.Covers s.arena :=
  h.tracks.laid.covers ho.bounded

/-- The reader waits for more. -/
theorem Steady.waits (h : Steady o p s) {g : Guard} {r : Reader}
    (hcheckpoint : g.checkpoint = s.guard.checkpoint) (hvalid : q.Valid o.limits)
    (htracks : Tracks o.limits o.arena q (Reading.withPosition ⟨r, [], a⟩ q.count)) :
    Steady o q { s with guard := g, reader := r, arena := a, feed := {} } :=
  ⟨h.settings, h.printer, hcheckpoint.trans h.checkpoint, hvalid, htracks⟩

/-- A read that failed is given up, and so is the feed. -/
theorem Steady.stops (ho : Fresh o) (h : Steady o p s) {g : Guard} {n : UInt32} (feed : Feed)
    (hcheckpoint : g.checkpoint = s.guard.checkpoint) (hcleared : o.arena.Cleared a)
    (why : ReadError) :
    Steady o o.fresh (stopped why { s with
      guard := g, reader := { maxDepth := o.reader.maxDepth, count := n }, arena := a
      feed := feed }) := by
  have hguard := hcheckpoint.trans h.checkpoint
  cases why with
  | rejected why => exact steady_fresh ho h.settings h.printer hguard hcleared rfl rfl
  | fault why =>
      have hprinter : s.printer.reset = o.printer := by
        rw [h.printer, ho.printer]
        rfl
      exact steady_fresh ho h.settings hprinter hguard hcleared rfl rfl

end Steady

/-! ### Two sessions -/

/-- Two sessions that began alike are reading the same value. They have the same store, and what
they have written agrees. -/
structure Twin (o : Session) (p : Parse) (s s' : Session) : Prop where
  left : Steady o p s
  right : Steady o p s'
  store : s'.store = s.store
  written : List.Forall₂ Line.Agrees s.written s'.written

section Twin

variable {o s s' : Session} {p q : Parse}

theorem Fresh.place (ho : Fresh o) :
    (⟨.arena, o.arena.forward⟩ : Place).offset ≤ Place.maxOffset := by
  have hcursors := ho.bounded.cursors
  have hbackward := ho.bounded.backward
  have hcapacity := ho.bounded.capacity
  simp only [Place.maxOffset, Arena.maxCapacity] at hcapacity ⊢
  omega

/-- The session has just read the value `tree`, and nothing else is in progress. -/
structure Arrived (o : Session) (tree : Tree) (q : Parse) (t : Session) : Prop where
  settings : t.settings = o.settings
  printer : t.printer = o.printer
  checkpoint : t.guard.checkpoint = o.arena.checkpoint
  finished : Finished o.arena tree t.arena
  tracks : Tracks o.limits t.arena q (t.reading.withPosition q.count)
  lists : q.lists = []
  leaf : q.leaf = none

variable {t t' : Session} {tree : Tree}

theorem Steady.arrives (h : Steady o p s) {g : Guard} {r : Reader} {a : Arena} (feed : Feed)
    (hcheckpoint : g.checkpoint = s.guard.checkpoint) (hfinished : Finished o.arena tree a)
    (htracks : Tracks o.limits a q (Reading.withPosition ⟨r, feed.source, a⟩ q.count))
    (hclosed : (Parse.Outcome.done tree q).Closed) :
    Arrived o tree q { s with guard := g, reader := r, arena := a, feed := feed } :=
  ⟨h.settings, h.printer, hcheckpoint.trans h.checkpoint, hfinished, htracks, hclosed.1, hclosed.2⟩

/-- A session that shows a value is as before, but for the arena and what it has written. -/
theorem Arrived.shown_eq (ho : Fresh o) (h : Arrived o tree q t) :
    ∃ a, o.arena.Cleared a ∧ shown ⟨.arena, o.arena.forward⟩ t = { t with
      arena := a
      written := echoed
        (Cell.render t.external t.settings.print ⟨.arena, o.arena.forward⟩ t.arena) ::
          t.written } := by
  have hbounded := h.finished.bounded ho.bounded
  have hechoed := Cell.render_untouched hbounded ho.place t.external t.settings.print
  have hcovers := (h.finished.laid.continues.after hechoed.toAlike).covers
  refine ⟨_, hcovers.cleared, ?_⟩
  rw [shown, echo_eq]
  refine congrArg Prod.snd (release_covers ?_ ?_)
  · exact h.checkpoint
  · exact hcovers

theorem Arrived.steady (ho : Fresh o) (h : Arrived o tree q t) :
    Steady o (q.between o.arena.forward) (shown ⟨.arena, o.arena.forward⟩ t) := by
  obtain ⟨a, hcleared, hshown⟩ := h.shown_eq ho
  rw [hshown]
  refine steady_between (a := t.arena) ho ?_ ?_ ?_ ?_ ?_ h.lists h.leaf
  · exact h.settings
  · exact h.printer
  · exact h.checkpoint
  · exact hcleared
  · exact h.tracks

/-- Both sessions write the value that both have read. -/
theorem Arrived.twin (ho : Fresh o) (h : Arrived o tree q t) (h' : Arrived o tree q t')
    (hstore : t'.store = t.store) (hwritten : List.Forall₂ Line.Agrees t.written t'.written) :
    Twin o (q.between o.arena.forward) (shown ⟨.arena, o.arena.forward⟩ t)
      (shown ⟨.arena, o.arena.forward⟩ t') := by
  refine ⟨h.steady ho, h'.steady ho, ?_, ?_⟩
  · obtain ⟨a, -, hshown⟩ := h.shown_eq ho
    obtain ⟨a', -, hshown'⟩ := h'.shown_eq ho
    rw [hshown, hshown']
    exact hstore
  · obtain ⟨a, -, hshown⟩ := h.shown_eq ho
    obtain ⟨a', -, hshown'⟩ := h'.shown_eq ho
    have hechoed := echoed_congr (Cell.render_alike (h.finished.bounded ho.bounded)
      (h.finished.alike h'.finished) ho.place t.external t.settings.print)
    rw [hshown, hshown', h'.settings.trans h.settings.symm,
      show t'.external = t.external by rw [external, external, hstore], hechoed]
    exact .cons (.same _) hwritten

/-- Both sessions complain of the read that failed in both. -/
theorem agrees_stopped {why why' : ReadError} (hsame : why'.unplaced = why.unplaced)
    (hwritten : List.Forall₂ Line.Agrees t.written t'.written) :
    List.Forall₂ Line.Agrees (stopped why t).written (stopped why' t').written := by
  cases why with
  | rejected why =>
      cases why' with
      | fault why' => cases hsame
      | rejected why' =>
          injection hsame with hsame
          injection hsame with hcause
          exact .cons (.misplaced hcause) hwritten
  | fault why =>
      cases why' with
      | rejected why' => cases hsame
      | fault why' =>
          injection hsame with hsame
          subst hsame
          exact .cons (.same _) hwritten

/-- Draining takes the same course in both sessions, and leaves the feed empty. The induction is on
the number of reads that are allowed for, which is always enough. -/
theorem Twin.drainValues (ho : Fresh o) {fuel : Nat} (h : Twin o p s s') (hbytes : p.OnBytes)
    (hfuel : p.calls ≤ fuel) :
    ∃ q, (p.OnLines → q.Rested) ∧ (drainValues fuel s').1 = (drainValues fuel s).1 ∧
      Twin o q (drainValues fuel s).2 (drainValues fuel s').2 ∧
      Drains s (drainValues fuel s).1 (drainValues fuel s).2 ∧
      (drainValues fuel s).2.feed = {} := by
  induction fuel generalizing p s s' with
  | zero =>
      rw [Parse.calls] at hfuel
      split at hfuel <;> omega
  | succ fuel ih =>
      have hreads := h.left.reads ho hbytes
      have hreads' := h.right.reads ho hbytes
      have hsound := Parse.sound_read h.left.valid
      have hclosed := Parse.closed_read h.left.valid
      have honBytes := Parse.onBytes_read h.left.valid hbytes
      generalize hs : readGuarded s = result at hreads
      generalize hs' : readGuarded s' = result' at hreads'
      generalize houtcome : p.read o.limits = outcome at *
      cases hreads with
      | pending hcheckpoint htracks =>
          cases hreads' with
          | pending hcheckpoint' htracks' =>
              rw [drainValues_pending hs, drainValues_pending hs']
              have htwin : Twin o _ _ _ := ⟨h.left.waits hcheckpoint hsound htracks,
                h.right.waits hcheckpoint' hsound htracks', h.store, h.written⟩
              exact ⟨_, fun hlines => (Parse.rested_read h.left.valid hlines houtcome).2, rfl,
                htwin, .pending hs, rfl⟩
      | value hcheckpoint hfinished htracks =>
          cases hreads' with
          | value hcheckpoint' hfinished' htracks' =>
              rw [drainValues_value hs, drainValues_value hs']
              have harrived := h.left.arrives _ hcheckpoint hfinished htracks hclosed
              have harrived' := h.right.arrives _ hcheckpoint' hfinished' htracks' hclosed
              have hcalls := Parse.calls_between h.left.valid houtcome o.arena.forward
              obtain ⟨q', hrested, hgood, htwin, hdrains, hempty⟩ :=
                ih (harrived.twin ho harrived' h.store h.written) honBytes (by omega)
              refine ⟨q', fun hlines => hrested ?_, hgood, htwin, .value hs hdrains, hempty⟩
              have honLines := Parse.onLines_read h.left.valid hlines
              rw [houtcome] at honLines
              exact Parse.OnLines.of_same honLines rfl rfl
      | failed hcheckpoint hwhy hcleared =>
          cases hreads' with
          | failed hcheckpoint' hwhy' hcleared' =>
              rw [drainValues_failed hs, drainValues_failed hs']
              refine ⟨o.fresh, fun _ => ⟨rfl, rfl⟩, rfl, ⟨?_, ?_, ?_, ?_⟩, .failed hs,
                feed_stopped _ _⟩
              · exact h.left.stops ho _ hcheckpoint hcleared _
              · exact h.right.stops ho _ hcheckpoint' hcleared' _
              · rw [store_stopped, store_stopped]
                exact h.store
              · exact agrees_stopped (hwhy'.trans hwhy.symm) h.written

/-- So it is when nothing is said of how often to read. -/
theorem Twin.drain (ho : Fresh o) (h : Twin o p s s') (hbytes : p.OnBytes) :
    ∃ q, (p.OnLines → q.Rested) ∧ (drain s').1 = (drain s).1 ∧ Twin o q (drain s).2 (drain s').2 ∧
      Drains s (drain s).1 (drain s).2 ∧ (drain s).2.feed = {} := by
  have hfuel {t : Session} (ht : Steady o p t) :
      t.reader.pushback.length + t.feed.pending.length + 2 = p.ahead.length + 2 := by
    rw [← ht.tracks.ahead]
    simp [Reading.ahead, reading, Reading.withPosition, Feed.source, Source.length_ofBytes]
  have hcalls : p.calls ≤ p.ahead.length + 2 := by
    rw [Parse.calls]
    split <;> omega
  have hdrain {t : Session} (ht : Steady o p t) :
      Session.drain t = Session.drainValues (p.ahead.length + 2) t := by
    rw [← hfuel ht]
    rfl
  rw [hdrain h.left, hdrain h.right]
  exact h.drainValues ho hbytes hcalls

end Twin

end Session

end FlatLisp
