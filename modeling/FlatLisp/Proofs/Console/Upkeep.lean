/-
Module: FlatLisp.Proofs.Console.Upkeep
Purpose: Nothing is lost in a session, however long it goes on. Between values its arena is as at
  the beginning, its feed has always been read to the end, and its store holds what was saved and
  not freed.
Main exports: Session.Reached, Session.Clean, Session.upkeep_of_reached
-/
import FlatLisp.Proofs.Console.Ledger

namespace FlatLisp

namespace Session

open Reading

/-- The sessions that come of `o` when lines of input, the lines and the end of a file are handled,
the value in progress is forgotten, and what was written is taken away. -/
inductive Reached (o : Session) : Session → Prop where
  | fresh : Reached o o
  | entered {s : Session} (h : Reached o s) (line : String) : Reached o (enter line s).2
  | read {s : Session} (h : Reached o s) (line : String) : Reached o (readLine line s).2
  | finished {s : Session} (h : Reached o s) (path : String) : Reached o (finishFile path s).2
  | forgotten {s : Session} (h : Reached o s) : Reached o (abandonInput s).2
  | shown {s : Session} (h : Reached o s) : Reached o (takeWritten s).2

/-- Two parts of sessions have come to the same: the same answer, lines that agree, and the same
store. -/
structure Same {α : Type} (x y : α × Session) : Prop where
  answer : y.1 = x.1
  written : List.Forall₂ Line.Agrees x.2.written y.2.written
  store : y.2.store = x.2.store

/-- Nothing but the store is left of what has been read since the session began as `o`. Whatever
comes next, as input or from a file, has the same effect as at the beginning. -/
structure Clean (o s : Session) : Prop where
  unlocked : s.arena.isLocked = false
  forward : s.arena.forward = o.arena.forward
  backward : s.arena.backward = o.arena.backward
  marks : ∀ d, s.arena.trail d = o.arena.trail d
  entering : ∀ lines, Same (enterAll lines { o with store := s.store })
    (enterAll lines { s with written := [] })
  reading : ∀ path text, Same (readFile path text { o with store := s.store })
    (readFile path text { s with written := [] })

variable {o s : Session}

theorem Steady.twin {p : Parse} (h : Steady o p s) : Twin o p s s :=
  ⟨h, h, rfl, agrees_self _⟩

/-- A session has read nothing when it begins. -/
theorem Fresh.steady (ho : Fresh o) : Steady o o.fresh o := by
  have hreader : o.reader = { maxDepth := o.reader.maxDepth, count := 0 } := by
    rw [ho.reader]
    rfl
  exact steady_fresh ho rfl rfl ho.checkpoint ho.cleared hreader ho.feed

/-- After each line nothing is ahead. -/
theorem Reached.steady (ho : Fresh o) (h : Reached o s) : ∃ p, p.Rested ∧ Steady o p s := by
  induction h with
  | fresh => exact ⟨o.fresh, ⟨rfl, rfl⟩, ho.steady⟩
  | entered _ line ih =>
      obtain ⟨p, hrested, hs⟩ := ih
      obtain ⟨q, hnext, -, htwin⟩ := hs.twin.enter ho hrested line
      exact ⟨q, hnext, htwin.left⟩
  | read _ line ih =>
      obtain ⟨p, hrested, hs⟩ := ih
      obtain ⟨q, hnext, -, htwin⟩ := hs.twin.drain_given ho hrested line
      exact ⟨q, hnext, htwin.left⟩
  | finished _ path ih =>
      obtain ⟨p, hrested, hs⟩ := ih
      obtain ⟨q, hnext, htwin⟩ := hs.twin.finishFile ho hrested path
      exact ⟨q, hnext, htwin.left⟩
  | forgotten _ ih =>
      obtain ⟨p, hrested, hs⟩ := ih
      exact ⟨o.fresh, ⟨rfl, rfl⟩, (hs.twin.abandonInput ho hrested).left⟩
  | shown _ ih =>
      obtain ⟨p, hrested, hs⟩ := ih
      exact ⟨p, hrested, hs.settings, hs.printer, hs.checkpoint, hs.valid, hs.tracks⟩

/-- Between values nothing is left. -/
theorem Steady.clean (ho : Fresh o) (h : Steady o o.fresh s) : Clean o s := by
  have hcleared := h.cleared
  have hbegun := ho.steady
  have htwin : Twin o o.fresh { o with store := s.store } { s with written := [] } := by
    refine ⟨⟨hbegun.settings, hbegun.printer, hbegun.checkpoint, hbegun.valid, hbegun.tracks⟩,
      ⟨h.settings, h.printer, h.checkpoint, h.valid, h.tracks⟩, rfl, ?_⟩
    rw [ho.written]
    exact .nil
  refine ⟨?_, hcleared.forward, hcleared.backward, hcleared.toAlike.trail_eq, ?_, ?_⟩
  · rw [Arena.isLocked, hcleared.hold, Option.isSome_none]
  · intro lines
    obtain ⟨q, -, hgoes, hnext⟩ := htwin.enterAll ho ⟨rfl, rfl⟩ lines
    exact ⟨hgoes, hnext.written, hnext.store⟩
  · intro path text
    obtain ⟨q, -, hnext⟩ := htwin.readFile ho ⟨rfl, rfl⟩ path text
    exact ⟨rfl, hnext.written, hnext.store⟩

/-- Whatever lines a session has been given, as input or from a file: between values its arena is
unlocked, with cursors and marks as at the beginning, and what follows is handled as it would be
then; draining any feed comes to an end, with the feed empty; and the store is changed by a value
that is saved, whose block is shown, and by an allocated block that is freed, and not otherwise. -/
theorem upkeep_of_reached {settings : Settings} (hstart : start settings = .ok o)
    (h : Reached o s) :
    (s.reader.isIdle = true → Clean o s) ∧
      (∀ feed : Feed, Drains { s with feed } (drain { s with feed }).1 (drain { s with feed }).2 ∧
        (drain { s with feed }).2.feed = {}) ∧
      (∀ line, Stores line s (enter line s).2) ∧
      (∀ line, (readLine line s).2.store = s.store) ∧
      ∀ path, (finishFile path s).2.store = s.store := by
  have ho := fresh_start hstart
  obtain ⟨p, hrested, hs⟩ := h.steady ho
  refine ⟨fun hidle => (hs.rests ho hrested hidle).clean ho, fun feed => ?_,
    fun line => stores_enter line s, fun line => keeps_readLine line s,
    fun path => keeps_finishFile path s⟩
  have hbytes : Parse.OnBytes { p with ahead := Source.ofBytes feed.pending } := ⟨feed.pending, rfl⟩
  obtain ⟨q, -, -, -, hdrains, hempty⟩ := (hs.fed hrested feed.pending).twin.drain ho hbytes
  exact ⟨hdrains, hempty⟩

/-- A value in two lines has been shown. -/
theorem upkeep_of_lines : ∃ o s, start { arenaSize := 64, storeSize := 64, maxDepth := 4 } = .ok o ∧
    Reached o s ∧ s.reader.isIdle = true ∧ s.written.head? = some (.out "(a b)") ∧
    (s.reader.isIdle = true → Clean o s) ∧
      (∀ feed : Feed, Drains { s with feed } (drain { s with feed }).1 (drain { s with feed }).2 ∧
        (drain { s with feed }).2.feed = {}) ∧
      (∀ line, Stores line s (enter line s).2) ∧
      (∀ line, (readLine line s).2.store = s.store) ∧
      ∀ path, (finishFile path s).2.store = s.store := by
  obtain ⟨o, hstart, hidle, hshown⟩ :
      ∃ o, start { arenaSize := 64, storeSize := 64, maxDepth := 4 } = .ok o ∧
        (enter "b)" (enter "(a" o).2).2.reader.isIdle = true ∧
        (enter "b)" (enter "(a" o).2).2.written.head? = some (.out "(a b)") :=
    ⟨_, rfl, by decide +kernel⟩
  have hreached : Reached o (enter "b)" (enter "(a" o).2).2 :=
    (Reached.fresh.entered "(a").entered "b)"
  exact ⟨o, _, hstart, hreached, hidle, hshown, upkeep_of_reached hstart hreached⟩

end Session

end FlatLisp
