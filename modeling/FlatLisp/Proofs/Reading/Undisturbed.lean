/-
Module: FlatLisp.Proofs.Reading.Undisturbed
Purpose: What is done with an arena while a reader is suspended in it. Walking, comparing and printing
  give the arena back as it was, and the read that goes on then is the one that would have gone on
  without them.
Main exports: Reading.Served, Reading.Served.session_iff, Reading.Undisturbed, Reading.Lends,
  Reading.lends
-/
import FlatLisp.Proofs.Arena.Discipline
import FlatLisp.Proofs.Arena.Soundness
import FlatLisp.Proofs.Cell.Borrowing
import FlatLisp.Proofs.Printing.Borrowing
import FlatLisp.Proofs.Reading.Delivery
import FlatLisp.Proofs.Reading.Digits

namespace FlatLisp

open Layout (Laid slot Context)
open Limits (frameCost)

/-- An unfinished value is as well in an arena that is alike. -/
theorem Layout.Laid.of_alike {b a a' : Arena} {bytes : List UInt8} {child : Nat}
    {ctxs : List Context} (hb : b.Bounded) (h : Laid b bytes child ctxs a) (halike : a.Alike a')
    (hdirections : a'.directions = a.directions) : Laid b bytes child ctxs a' := by
  have hslot := h.backward
  have hforward := h.forward
  have hbackward := hb.backward
  rw [Arena.capacity] at hbackward
  have hsize : a.memory.size = b.memory.size := h.size
  have hframes : slot b ctxs.length ≤ b.backward := Nat.sub_le ..
  refine {
    size := halike.size.trans h.size
    below := h.below.trans (halike.below.mono (Nat.le_refl _) (by omega))
    above := h.above.trans (halike.above.mono (by omega) (Nat.le_of_eq hsize.symm))
    cells := h.cells.of_sameOn halike.size halike.below (Nat.zero_le _) hforward
    frames := h.frames.of_sameOn halike.size ?_ h.room
    forward := by rw [halike.forward]; exact hforward
    cursors := by rw [halike.forward, halike.backward]; exact h.cursors
    backward := halike.backward.trans hslot
    backwardMark := halike.backwardMark.trans h.backwardMark
    forwardMark := halike.forwardMark.trans h.forwardMark
    directions := hdirections.trans h.directions
    room := h.room }
  exact halike.above.mono (Nat.le_of_eq hslot) (hsize ▸ hbackward)

namespace Reading

variable {l : Limits} {b a : Arena} {p : Parse} {r : Reader} {s t : Reading} {source : Source}
  {values values' : List Shown} {ending ending' : Ending}

/-- The read in progress is as well in an arena that is untouched. -/
theorem Tracks.of_untouched (hl : LimitsOf l b) (h : Tracks l b p s)
    (huntouched : s.arena.Untouched a) : Tracks l b p ⟨s.reader, s.source, a⟩ where
  start := h.start
  laid := h.laid.of_alike hl.bounded huntouched.toAlike huntouched.directions
  forward := huntouched.forward.trans h.forward
  held := by
    have hheld := h.held
    unfold Held at hheld ⊢
    dsimp only
    rw [huntouched.hold]
    exact hheld
  root := h.root
  inComment := h.inComment
  count := h.count
  ahead := h.ahead
  pushback := h.pushback
  maxDepth := h.maxDepth

/-! ### Readers in use -/

/-- A reader has been used as it is meant to be: it began between values, was asked to read, was given
more to read, and its arena was lent to others meanwhile. -/
inductive Served : Reading → Prop where
  | fresh {r : Reader} {a : Arena} (h : Ready r a) (source : Source) : Served ⟨r, source, a⟩
  | read {s t : Reading} {status : ReadStatus} (h : Served s) (hread : read s = .ok status t) :
      Served t
  | fed {s : Reading} (h : Served s) (more : Source) : Served ⟨s.reader, s.source ++ more, s.arena⟩
  | lent {s : Reading} {a : Arena} (h : Served s) (huntouched : s.arena.Untouched a) :
      Served ⟨s.reader, s.source, a⟩

/-- The state is that of a read in terms of trees, which has stopped in no integer before its digits. -/
theorem Served.tracks (h : Served s) :
    ∃ l b p, LimitsOf l b ∧ p.Valid l ∧ p.HasDigits ∧ Tracks l b p s := by
  induction h with
  | fresh h source =>
      exact ⟨_, _, _, h.limitsOf, Ready.valid source, Parse.hasDigits_of_leaf rfl, h.tracks source⟩
  | @read s t status _ hread ih =>
      obtain ⟨l, b, p, hl, hvalid, hdigits, htracks⟩ := ih
      have hanswers := answers_read hl hvalid htracks
      have hsound := Parse.sound_read hvalid
      have hstops := Parse.stops_read hvalid hdigits.meets
      rw [hread] at hanswers
      cases status with
      | pending =>
          obtain ⟨q, houtcome, hnext⟩ := hanswers.of_pending
          rw [houtcome] at hsound hstops
          exact ⟨l, b, q, hl, hsound, hstops.1, hnext⟩
      | done place =>
          obtain ⟨tree, q, houtcome, -, hfinished, hnext⟩ := hanswers.of_done
          rw [houtcome] at hsound hstops
          exact ⟨l, t.arena, q, hfinished.limits hl, hsound.2, hstops, hnext⟩
  | fed _ more ih =>
      obtain ⟨l, b, p, hl, hvalid, hdigits, htracks⟩ := ih
      refine ⟨l, b, { p with ahead := p.ahead ++ more }, hl, hvalid.of_same rfl rfl, hdigits,
        { htracks with ahead := ?_ }⟩
      dsimp only
      rw [← htracks.ahead, ahead, ahead, List.append_assoc]
  | lent _ huntouched ih =>
      obtain ⟨l, b, p, hl, hvalid, hdigits, htracks⟩ := ih
      exact ⟨l, b, p, hl, hvalid, hdigits, htracks.of_untouched hl huntouched⟩

/-- An arena that a reader is in may be lent. -/
theorem Served.bounded (h : Served s) : s.arena.Bounded := by
  obtain ⟨l, b, p, hl, -, -, htracks⟩ := h.tracks
  exact htracks.laid.bounded hl.bounded

/-- Reading on in an arena that is untouched shows the same: both sessions take the one course that the
read in terms of trees takes. -/
theorem Served.session_iff (h : Served s) (huntouched : s.arena.Untouched a) :
    Session ⟨s.reader, s.source, a⟩ values ending ↔ Session s values ending := by
  obtain ⟨l, b, p, hl, hvalid, -, htracks⟩ := h.tracks
  have htracks' := htracks.of_untouched hl huntouched
  have hsame : ∀ {s t : Reading}, Tracks l b p s → Tracks l b p t →
      Session s values ending → Session t values ending := by
    intro s t hs ht hsession
    obtain ⟨values', ending', hother⟩ := exists_session hl hvalid ht
    obtain ⟨rfl, rfl⟩ := (course_of_session hsession hl hvalid hs).unique
      (course_of_session hother hl hvalid ht)
    exact hother
  exact ⟨hsame htracks' htracks, hsame htracks htracks'⟩

/-! ### Lending -/

/-- The arena `a` cannot be told from `b`, neither by its bytes, cursors, chains and lock nor by a
reader that goes on in it. -/
structure Undisturbed (b a : Arena) : Prop where
  untouched : b.Untouched a
  trail : ∀ d, a.trail d = b.trail d
  bytes : ∀ offset count, a.bytes offset count = b.bytes offset count
  session : ∀ r source values ending, Served ⟨r, source, b⟩ →
    (Session ⟨r, source, a⟩ values ending ↔ Session ⟨r, source, b⟩ values ending)

theorem undisturbed_of_untouched (h : b.Untouched a) : Undisturbed b a where
  untouched := h
  trail := h.toAlike.trail_eq
  bytes := h.toAlike.bytes_eq
  session _ _ _ _ hserved := hserved.session_iff h

open Printing (Calls)

/-- The arena is lent to whatever borrows from it and is given back undisturbed: to a walk, with a
visitor that may fail, to what is told from a walk, to comparisons, and to prints, which may be
suspended and go on. It makes no difference what the cells are and whether the call fails. -/
structure Lends (ext : External) (b : Arena) : Prop where
  walk : ∀ {σ : Type} (visit : Visit → EStateM Fault σ Unit) (p : Place) (seen : σ),
    Undisturbed b (FlatLisp.after (Cell.walk ext visit p ⟨b, seen⟩)).arena
  advance : ∀ p, Undisturbed b (FlatLisp.after (Cell.advance ext p b))
  treeLength : ∀ p, Undisturbed b (FlatLisp.after (Cell.treeLength ext p b))
  countCells : ∀ p, Undisturbed b (FlatLisp.after (Cell.countCells ext p b))
  compare : ∀ p q, Undisturbed b (FlatLisp.after (Cell.compare ext p q b))
  equal : ∀ p q, Undisturbed b (FlatLisp.after (Cell.equal ext p q b))
  render : ∀ o root, root.offset ≤ Place.maxOffset →
    Undisturbed b (FlatLisp.after (Cell.render ext o root b))
  print : ∀ {σ : Type} [Sink σ] (p : Printer) (root : Place) (k : σ)
    (result : EStateM.Result Fault (Printing σ) PrintStatus), root.offset ≤ Place.maxOffset →
    (∀ job, p.job = some job → job.root ≠ root) → Calls ext root ⟨p, b, k⟩ result →
    (∀ t, result ≠ .ok .blocked t) →
    Undisturbed b (FlatLisp.after result).arena ∧ (FlatLisp.after result).printer = p

/-- Any arena is given back undisturbed whose cursors are in order in the buffer, outside of the
header. -/
theorem lends (hb : b.Bounded) (ext : External) : Lends ext b where
  walk visit p seen := undisturbed_of_untouched (Cell.walk_untouched hb visit p seen)
  advance p := undisturbed_of_untouched (Cell.advance_untouched hb p)
  treeLength p := undisturbed_of_untouched (Cell.treeLength_untouched hb p)
  countCells p := undisturbed_of_untouched (Cell.countCells_untouched hb p)
  compare p q := undisturbed_of_untouched (Cell.compare_untouched hb p q)
  equal p q := undisturbed_of_untouched (Cell.equal_untouched hb p q)
  render o _ hroot := undisturbed_of_untouched (Cell.render_untouched hb hroot ext o)
  print _ _ _ _ hroot hother hcalls hended :=
    ⟨undisturbed_of_untouched (Printing.calls_untouched hb hroot hother hcalls hended).1,
      (Printing.calls_untouched hb hroot hother hcalls hended).2⟩

/-- The reader waits for more and holds the lock of the arena. -/
def locks : EStateM.Result ReadError Reading ReadStatus → Bool
  | .ok .pending s => s.arena.isLocked
  | _ => false

/-- A reader holds the lock of the arena, in the middle of a symbol in a list. -/
theorem lends_suspended : ∃ a t, Arena.create 128 = .ok a ∧
    read ⟨Reader.ofDepth 4, Source.ofBytes [40, 97], a⟩ = .ok .pending t ∧ Served t ∧
    t.arena.isLocked = true ∧ t.arena.Bounded ∧ Lends Printing.linkedList t.arena := by
  obtain ⟨a, ha, hlocks⟩ : ∃ a, Arena.create 128 = .ok a ∧
      locks (read ⟨Reader.ofDepth 4, Source.ofBytes [40, 97], a⟩) = true :=
    ⟨_, rfl, by decide +kernel⟩
  obtain ⟨t, hread, hlocked⟩ : ∃ t, read ⟨Reader.ofDepth 4, Source.ofBytes [40, 97], a⟩ =
      .ok .pending t ∧ t.arena.isLocked = true := by
    unfold locks at hlocks
    split at hlocks
    · exact ⟨_, ‹_›, hlocks⟩
    · contradiction
  have hserved : Served t := .read (.fresh (ready_create 4 ha) _) hread
  exact ⟨a, t, ha, hread, hserved, hlocked, hserved.bounded, lends hserved.bounded _⟩

/-- A forward mark whose record is written over before it is rewound, and a list with one child. -/
def careless : List Arena.Request :=
  [.mark .forward, .write 2 [0, 0], .rewind ⟨.forward, 2⟩, .alloc .backward 56, .write 8 [131, 0],
    .write 10 [2, 0, 7, 0]]

/-- Rewinding a mark whose record has been written over can leave the forward cursor inside the header.
The marks of a walk then come to lie where there may be none, and the walk is not given back. -/
theorem lent_header : ∃ fresh a, Arena.create 64 = .ok fresh ∧
    careless.foldl Arena.Request.act fresh = a ∧ a.forward = 0 ∧ a.ChainOf .backward [] ∧
    ¬ a.Untouched (FlatLisp.after (Cell.walk (σ := Unit) .unmapped (fun _ => pure ()) ⟨.arena, 8⟩
      ⟨a, ()⟩)).arena := by
  obtain ⟨fresh, hcreate⟩ : ∃ fresh, Arena.create 64 = .ok fresh := ⟨_, rfl⟩
  refine ⟨fresh, _, hcreate, rfl, ?_, ⟨fun fuel hfuel => ?_, Nat.zero_le _, .nil, nofun, nofun⟩, ?_⟩
  · cases hcreate
    decide +kernel
  · have hmark : (careless.foldl Arena.Request.act fresh).lastMark .backward = 0 := by
      cases hcreate
      decide +kernel
    obtain ⟨fuel, rfl⟩ := Nat.exists_eq_succ_of_ne_zero (Nat.ne_of_gt hfuel)
    rw [hmark]
    rfl
  · intro huntouched
    have hbackward := huntouched.backward
    cases hcreate
    revert hbackward
    decide +kernel

end Reading

end FlatLisp
