/-
Module: FlatLisp.Proofs.Console.Steady
Purpose: A session and what its reader has in progress. Whatever has been read, the arena is still
  the one that the session began with, under the cells and frames of one unfinished value; so a
  guarded read comes to what the read in terms of trees comes to, and giving up what was read gives
  back the arena.
Main exports: Session.Fresh, Session.fresh_start, Session.Steady, Session.Reads,
  Session.Steady.reads
-/
import FlatLisp.Console.Session
import FlatLisp.Proofs.Guard.Recovery
import FlatLisp.Proofs.Reading.Lines
import FlatLisp.Proofs.Reading.Undisturbed

namespace FlatLisp

open Source (ofBytes)

/-! ### Arenas between values -/

namespace Arena

variable {a a' b : Arena}

/-- The arena `a` cannot be told from `b`, and nobody has locked it. -/
structure Cleared (b a : Arena) : Prop extends Alike b a where
  directions : a.directions = b.directions
  hold : a.hold = none

theorem Covers.cleared (h : b.Covers a) : b.Cleared (a.restored b.checkpoint) where
  toAlike := h.alike
  directions := rfl
  hold := rfl

/-- Two arenas that have been cleared cannot be told apart. -/
theorem Cleared.alike (h : b.Cleared a) (h' : b.Cleared a') : a.Alike a' :=
  h.toAlike.symm.trans h'.toAlike

theorem Cleared.covers (h : b.Cleared a) : b.Covers a := h.toAlike.continues.covers

theorem Continues.after (h : b.Continues a) (halike : a.Alike a') : b.Continues a' :=
  h.trans halike.continues

end Arena

namespace Reading

variable {l : Limits} {b a a' : Arena} {p : Parse} {s : Reading} {t : Tree}

/-- Nothing but the value makes an arena what it is. -/
theorem Finished.alike (h : Finished b t a) (h' : Finished b t a') : a.Alike a' where
  size := h'.laid.size.trans h.laid.size.symm
  below := by
    rw [h.forward]
    exact (h.laid.below.symm.trans h'.laid.below).append (h.laid.cells.sameOn h'.laid.cells)
  above := by
    have hsame := h.laid.above.symm.trans h'.laid.above
    rw [h.laid.backward, h.laid.size]
    exact hsame
  forward := h'.forward.trans h.forward.symm
  backward := h'.laid.backward.trans h.laid.backward.symm
  forwardMark := h'.laid.forwardMark.trans h.laid.forwardMark.symm
  backwardMark := h'.laid.backwardMark.trans h.laid.backwardMark.symm

/-- A reader between values may begin in an arena that has been cleared. -/
theorem tracks_cleared (hb : b.Bounded) (h : b.Cleared a) {r : Reader} (hroot : r.root = 0)
    (hlock : r.lock = none) (hpushback : r.pushback.length ≤ Reader.pushbackCapacity)
    (hdepth : r.maxDepth = l.maxDepth) (source : Source) :
    Tracks l b
      { inComment := r.inComment, count := r.count, start := b.forward,
        ahead := (⟨r, source, a⟩ : Reading).ahead } ⟨r, source, a⟩ where
  start := rfl
  laid := (laid_self hb).of_alike hb h.toAlike h.directions
  forward := h.forward
  held := ⟨h.hold, hlock⟩
  root := hroot
  inComment := rfl
  count := rfl
  ahead := rfl
  pushback := hpushback
  maxDepth := hdepth

/-- How many bytes have been consumed makes no difference to what is in progress. -/
theorem Tracks.placed (h : Tracks l b p s) (n : UInt32) :
    Tracks l b { p with count := n } (s.withPosition n) where
  start := h.start
  laid := h.laid
  forward := h.forward
  held := h.held
  root := h.root
  inComment := h.inComment
  count := rfl
  ahead := h.ahead
  pushback := h.pushback
  maxDepth := h.maxDepth

/-- Where all that is ahead are bytes, the source has nothing but bytes. -/
theorem source_of_ahead {r : Reader} {source : Source} {bytes : List UInt8}
    (h : (⟨r, source, a⟩ : Reading).ahead = ofBytes bytes) : ofBytes source.bytes = source := by
  obtain ⟨rest, -, rfl⟩ := exists_rest h.symm
  rw [Source.bytes_ofBytes]

end Reading

/-! ### Sessions -/

namespace Session

open Reading

/-- A session that has just begun. -/
structure Fresh (o : Session) : Prop where
  bounded : o.arena.Bounded
  unlocked : o.arena.hold = none
  reader : o.reader = Reader.ofDepth o.settings.maxDepth
  printer : o.printer = { options := o.settings.print }
  checkpoint : o.guard.checkpoint = o.arena.checkpoint
  feed : o.feed = {}
  written : o.written = []

theorem fresh_start {settings : Settings} {o : Session} (h : start settings = .ok o) : Fresh o := by
  unfold start at h
  cases harena : settings.newArena with
  | error e =>
      rw [harena] at h
      contradiction
  | ok a =>
      rw [harena] at h
      cases hstore : settings.newStore with
      | error e =>
          rw [hstore] at h
          contradiction
      | ok store =>
          rw [hstore] at h
          injection h with h
          have hcreate : Arena.create settings.arenaSize = .ok a := by
            rw [Settings.newArena] at harena
            cases hcreate : Arena.create settings.arenaSize with
            | error e =>
                rw [hcreate] at harena
                contradiction
            | ok a' =>
                rw [hcreate] at harena
                exact congrArg Except.ok (Except.ok.inj harena)
          have hready := ready_create settings.maxDepth hcreate
          subst h
          refine ⟨hready.bounded, ?_, rfl, rfl, rfl, rfl, rfl⟩
          simpa [Arena.isLocked] using hready.unlocked

/-- What the reader of a session works on. -/
def reading (s : Session) : Reading := ⟨s.reader, s.feed.source, s.arena⟩

/-- The limits of the reads of a session that began as `o`. -/
def limits (o : Session) : Limits := ⟨o.reader.maxDepth, some o.arena.backward⟩

/-- The session began as `o` and its reader has come as far as the read `p`, but for the number of
bytes that it has consumed. Nothing else is in progress. -/
structure Steady (o : Session) (p : Parse) (s : Session) : Prop where
  settings : s.settings = o.settings
  printer : s.printer = o.printer
  checkpoint : s.guard.checkpoint = o.arena.checkpoint
  valid : p.Valid o.limits
  tracks : Tracks o.limits o.arena p (s.reading.withPosition p.count)

/-- What a guarded read comes to where the read in terms of trees has an outcome. One that is
pending leaves the feed empty; one that fails leaves the arena cleared and the reader as one that
has read nothing. -/
inductive Reads (o s : Session) : Parse.Outcome → Outcome × Session → Prop where
  | pending {kept : List UInt8} {q : Parse} {g : Guard} {r : Reader} {a : Arena}
      (hcheckpoint : g.checkpoint = s.guard.checkpoint)
      (htracks : Tracks o.limits o.arena q (Reading.withPosition ⟨r, [], a⟩ q.count)) :
      Reads o s (.starved kept q)
        (.pending, { s with guard := g, reader := r, arena := a, feed := {} })
  | value {t : Tree} {bytes : List UInt8} {q : Parse} {g : Guard} {r : Reader} {a : Arena}
      (hcheckpoint : g.checkpoint = s.guard.checkpoint) (hfinished : Finished o.arena t a)
      (htracks : Tracks o.limits a q (Reading.withPosition ⟨r, ofBytes bytes, a⟩ q.count)) :
      Reads o s (.done t q) (.value ⟨.arena, o.arena.forward⟩,
        { s with guard := g, reader := r, arena := a, feed := ⟨bytes⟩ })
  | failed {why why' : ReadError} {bytes : List UInt8} {g : Guard} {n : UInt32} {a : Arena}
      (hcheckpoint : g.checkpoint = s.guard.checkpoint) (hwhy : why'.unplaced = why.unplaced)
      (hcleared : o.arena.Cleared a) :
      Reads o s (.failed why) (why'.outcome,
        { s with
          guard := g, reader := { maxDepth := o.reader.maxDepth, count := n }, arena := a
          feed := ⟨bytes⟩ })

variable {o s : Session} {p : Parse}

theorem Fresh.limitsOf (h : Fresh o) : LimitsOf o.limits o.arena where
  bounded := h.bounded
  stop := rfl
  depth := by
    rw [limits, h.reader]
    exact Nat.min_le_right _ _

theorem Steady.reads (ho : Fresh o) (h : Steady o p s) (hbytes : p.OnBytes) :
    Reads o s (p.read o.limits) (readGuarded s) := by
  have hanswers := answers_read ho.limitsOf h.valid h.tracks
  have honBytes := Parse.onBytes_read h.valid hbytes
  have hparallel := blind_read s.reading p.count
  have hdepth : s.reading.reader.maxDepth = o.reader.maxDepth := h.tracks.maxDepth
  rw [readGuarded, show (⟨s.reader, s.feed.source, s.arena⟩ : Reading) = s.reading from rfl,
    Guard.read]
  generalize Reading.read s.reading = result at hparallel
  generalize Reading.read (s.reading.withPosition p.count) = result' at hanswers hparallel
  cases hparallel with
  | ok status t n _ =>
      obtain ⟨r, source, a⟩ := t
      cases status with
      | pending =>
          obtain ⟨q, houtcome, hnext⟩ := hanswers.of_pending
          rw [houtcome] at honBytes ⊢
          obtain rfl : n = q.count := hnext.count
          obtain rfl : source = [] := List.append_right_eq_self.1 (hnext.ahead.trans honBytes)
          exact .pending rfl hnext
      | done place =>
          obtain ⟨tree, q, houtcome, rfl, hfinished, hnext⟩ := hanswers.of_done
          rw [houtcome] at honBytes ⊢
          obtain rfl : n = q.count := hnext.count
          obtain ⟨bytes, hahead⟩ := honBytes
          have hsource : ofBytes source.bytes = source :=
            source_of_ahead (hnext.ahead.trans hahead)
          rw [← hsource] at hnext
          exact .value rfl hfinished hnext
  | @error e e' he t n hsame =>
      obtain ⟨houtcome, hcovers⟩ := hanswers.of_error
      have hcovered : o.arena.Covers t.arena := hcovers
      obtain ⟨hfailed, hcheckpoint, hstate⟩ := Guard.recover_covers h.checkpoint hcovered e
      dsimp only
      rw [houtcome]
      generalize s.guard.recover e t = recovered at hfailed hcheckpoint hstate
      obtain ⟨outcome, g, r, source, a⟩ := recovered
      dsimp only at hfailed hcheckpoint hstate ⊢
      injection hstate with hreader hsource harena
      have hreset : r = { maxDepth := o.reader.maxDepth, count := t.reader.count } := by
        rw [hreader, Reader.reset, hsame.trans hdepth]
      subst hfailed harena hreset
      exact .failed hcheckpoint he.symm hcovered.cleared

end Session

end FlatLisp
