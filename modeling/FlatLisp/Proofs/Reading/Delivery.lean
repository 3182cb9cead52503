/-
Module: FlatLisp.Proofs.Reading.Delivery
Purpose: Suspending a reader changes nothing that can be seen. A session reads value after value
  until the first error or until all bytes have been delivered; however they are delivered, it
  shows the same values in the same places and ends in the same way.
Main exports: Reading.Session, Reading.Ready, Reading.session_of_delivery
-/
import FlatLisp.Proofs.Reading.View

namespace FlatLisp

namespace Reading

open Source (ofBytes)

/-! ### What can be seen -/

/-- The bytes of the forward region. -/
def liveBytes (a : Arena) : List UInt8 :=
  a.memory.slice Arena.headerLength (a.forward - Arena.headerLength)

/-- What shows when a value is done. -/
structure Shown where
  place : Place
  live : List UInt8
  forward : Nat
  backward : Nat
  position : Nat
  isIdle : Bool

def shown (place : Place) (s : Reading) : Shown where
  place := place
  live := liveBytes s.arena
  forward := s.arena.forward
  backward := s.arena.backward
  position := s.reader.position
  isIdle := s.reader.isIdle

/-- What shows of a reader that waits for more. -/
structure Waiting where
  isIdle : Bool
  pendingSigil : Bool
  position : Nat
  forward : Nat
  backward : Nat
  /-- The unfinished values, by their distance from the innermost one. -/
  context : Nat → Except Fault (Option OpenContext)

def waiting (s : Reading) : Waiting where
  isIdle := s.reader.isIdle
  pendingSigil := s.reader.pendingSigil
  position := s.reader.position
  forward := s.arena.forward
  backward := s.arena.backward
  context := s.reader.openContext s.arena

/-- How a session ends. -/
inductive Ending where
  | failed (why : ReadError)
  /-- All bytes have been delivered. -/
  | dry (waiting : Waiting)

/-- Reading on from `s` shows these values and ends like this. After a stall the reader is asked
again, as often as it takes. -/
inductive Session : Reading → List Shown → Ending → Prop where
  | failed {s t : Reading} {why : ReadError} (hread : read s = .error why t) :
      Session s [] (.failed why)
  | dry {s t : Reading} (hread : read s = .ok .pending t) (hbytes : t.source.bytes = []) :
      Session s [] (.dry t.waiting)
  | stalled {s t : Reading} {values : List Shown} {ending : Ending}
      (hread : read s = .ok .pending t) (hrest : Session t values ending) : Session s values ending
  | done {s t : Reading} {place : Place} {values : List Shown} {ending : Ending}
      (hread : read s = .ok (.done place) t) (hrest : Session t values ending) :
      Session s (t.shown place :: values) ending

/-! ### The same in terms of trees -/

/-- What shows of the read `p` after the bytes have run out, `kept` excepted. -/
def waitingOf (l : Limits) (backward : Nat) (kept : List UInt8) (p : Parse) : Waiting where
  isIdle := p.isIdle
  pendingSigil := ({ pushback := kept, maxDepth := l.maxDepth } : Reader).pendingSigil
  position := p.position
  forward := forwardOf l p
  backward := backward - Limits.frameCost * p.frames
  context := fun outward => .ok p.openContexts[outward]?

/-- As `Session`, for reads in terms of trees over bytes that are all there. The arena has `live` in
its forward region and `backward` as its other cursor. -/
inductive Course (l : Limits) (backward : Nat) :
    (live : List UInt8) → Parse → List Shown → Ending → Prop where
  | failed {live : List UInt8} {p : Parse} {why : ReadError} (hread : p.read l = .failed why) :
      Course l backward live p [] (.failed why)
  | dry {live kept : List UInt8} {p q : Parse} (hread : p.read l = .starved kept q) :
      Course l backward live p [] (.dry (waitingOf l backward kept q))
  | done {live : List UInt8} {p q : Parse} {t : Tree} {values : List Shown} {ending : Ending}
      (hread : p.read l = .done t q) (hrest : Course l backward (live ++ t.encode) q values ending) :
      Course l backward live p
        (⟨⟨.arena, p.start⟩, live ++ t.encode, q.start, backward, q.position, q.isIdle⟩ :: values)
        ending

variable {l : Limits} {b : Arena} {backward : Nat} {live : List UInt8} {p q : Parse} {s : Reading}
  {values values' : List Shown} {ending ending' : Ending}

/-- A course is settled by its first read. -/
theorem Course.of_read (h : Course l backward live p values ending) (hstart : q.start = p.start)
    (hread : q.read l = p.read l) : Course l backward live q values ending := by
  cases h with
  | failed h => exact .failed (hread.trans h)
  | dry h => exact .dry (hread.trans h)
  | done h hrest =>
      rw [← hstart]
      exact .done (hread.trans h) hrest

theorem Course.unique (h : Course l backward live p values ending)
    (h' : Course l backward live p values' ending') : values' = values ∧ ending' = ending := by
  induction h generalizing values' ending' with
  | failed h =>
      cases h' with
      | failed h' =>
          rw [h] at h'
          injection h' with h'
          subst h'
          exact ⟨rfl, rfl⟩
      | dry h' => rw [h] at h'; contradiction
      | done h' => rw [h] at h'; contradiction
  | dry h =>
      cases h' with
      | failed h' => rw [h] at h'; contradiction
      | dry h' =>
          rw [h] at h'
          injection h' with hkept hq
          subst hkept hq
          exact ⟨rfl, rfl⟩
      | done h' => rw [h] at h'; contradiction
  | done h _ ih =>
      cases h' with
      | failed h' => rw [h] at h'; contradiction
      | dry h' => rw [h] at h'; contradiction
      | done h' hrest' =>
          rw [h] at h'
          injection h' with ht hq
          subst ht hq
          obtain ⟨rfl, rfl⟩ := ih hrest'
          exact ⟨rfl, rfl⟩

/-! ### Sessions are courses -/

theorem length_liveBytes (hb : b.Bounded) :
    (liveBytes b).length = b.forward - Arena.headerLength := by
  have hcursors := hb.cursors
  have hbackward := hb.backward
  rw [Arena.capacity, ← Bytes.length_toList] at hbackward
  rw [liveBytes, Bytes.slice_eq_take_drop, List.length_take, List.length_drop]
  omega

/-- A finished value comes after all that was there. -/
theorem Finished.liveBytes {t : Tree} {a : Arena} (hb : b.Bounded) (h : Finished b t a) :
    liveBytes a = Reading.liveBytes b ++ t.encode := by
  have hlength := length_liveBytes hb
  have hheader := hb.header
  have hfit : Arena.headerLength + (b.forward - Arena.headerLength) ≤ b.memory.size := by
    have hcursors := hb.cursors
    have hbackward := hb.backward
    rw [Arena.capacity] at hbackward
    omega
  have hbelow : a.memory.Holds Arena.headerLength (Reading.liveBytes b) :=
    (Bytes.holds_slice hfit).of_sameOn h.laid.size h.laid.below (Nat.zero_le _) (by
      change Arena.headerLength + (Reading.liveBytes b).length ≤ b.forward
      omega)
  have hcells := h.laid.cells
  rw [show b.forward = Arena.headerLength + (Reading.liveBytes b).length by omega] at hcells
  have hall := (Bytes.holds_append.2 ⟨hbelow, hcells⟩).slice_eq
  rw [List.length_append, hlength] at hall
  rw [Reading.liveBytes, h.forward, ← hall]
  congr 1
  omega

/-- What shows of a suspended reader is what its unfinished values say. -/
theorem Tracks.waiting {kept : List UInt8} (hl : LimitsOf l b) (hvalid : p.Valid l)
    (h : Tracks l b p s) (hkept : s.reader.pushback = kept) :
    s.waiting = waitingOf l b.backward kept p := by
  have hcontext : s.reader.openContext s.arena = fun outward => .ok p.openContexts[outward]? :=
    funext (h.openContext hl hvalid)
  have hsigil : s.reader.pendingSigil =
      ({ pushback := kept, maxDepth := l.maxDepth } : Reader).pendingSigil := by
    rw [Reader.pendingSigil, hkept]
    rfl
  rw [Reading.waiting, hcontext, hsigil, h.isIdle hl.bounded, h.position, h.forward, h.backward]
  rfl

theorem Tracks.shown {t : Tree} (hl : LimitsOf l b) (hfinished : Finished b t s.arena)
    (h : Tracks l s.arena q s) (place : Place) :
    s.shown place =
      ⟨place, Reading.liveBytes b ++ t.encode, q.start, b.backward, q.position, q.isIdle⟩ := by
  have hbackward : s.arena.backward = b.backward := hfinished.laid.backward
  rw [Reading.shown, hfinished.liveBytes hl.bounded, hbackward, h.start, h.position,
    h.isIdle (hfinished.bounded hl.bounded)]

/-- If nothing but the bytes that are given back is ahead, all bytes are there. -/
theorem Tracks.joined_of_dry {kept : List UInt8} (h : Tracks l b p s)
    (hkept : s.reader.pushback = kept) (hbytes : s.source.bytes = []) :
    p.joined [] = p.with_kept kept := by
  have hahead := h.ahead
  rw [Reading.ahead, hkept] at hahead
  rw [Parse.joined, List.append_nil, ← hahead, Source.bytes_append, hbytes, List.append_nil,
    show kept.map some = ofBytes kept from rfl, Source.bytes_ofBytes]
  rfl

/-- A session takes the course that the same read takes with all bytes there. -/
theorem course_of_session (hsession : Session s values ending) (hl : LimitsOf l b)
    (hvalid : p.Valid l) (h : Tracks l b p s) :
    Course l b.backward (liveBytes b) (p.joined []) values ending := by
  induction hsession generalizing b p with
  | @failed s t why hread =>
      have hanswers := answers_read hl hvalid h
      have hjoins := Parse.joins_read [] hvalid
      rw [hread] at hanswers
      rw [hanswers.of_error.1] at hjoins
      exact .failed hjoins
  | @dry s t hread hbytes =>
      have hanswers := answers_read hl hvalid h
      have hjoins := Parse.joins_read [] hvalid
      have hsound := Parse.sound_read hvalid
      rw [hread] at hanswers
      obtain ⟨q, houtcome, hnext⟩ := hanswers.of_pending
      rw [houtcome] at hjoins hsound
      obtain ⟨hjoined, _, _, hkept⟩ := hjoins
      rw [hnext.joined_of_dry rfl hbytes, Parse.read_of_starved hkept] at hjoined
      rw [hnext.waiting hl hsound rfl]
      have hcourse : Course l b.backward (liveBytes b) (p.joined []) [] _ := .dry hjoined
      exact hcourse
  | @stalled s t values ending hread hrest ih =>
      have hanswers := answers_read hl hvalid h
      have hjoins := Parse.joins_read [] hvalid
      have hsound := Parse.sound_read hvalid
      rw [hread] at hanswers
      obtain ⟨q, houtcome, hnext⟩ := hanswers.of_pending
      rw [houtcome] at hjoins hsound
      exact (ih hl hsound hnext).of_read (h.start.trans hnext.start.symm) hjoins.1
  | @done s t place values ending hread hrest ih =>
      have hanswers := answers_read hl hvalid h
      have hjoins := Parse.joins_read [] hvalid
      have hsound := Parse.sound_read hvalid
      rw [hread] at hanswers
      obtain ⟨tree, q, houtcome, hplace, hfinished, hnext⟩ := hanswers.of_done
      rw [houtcome] at hjoins hsound
      have hcourse := ih (hfinished.limits hl) hsound.2 hnext
      have hbackward : t.arena.backward = b.backward := hfinished.laid.backward
      rw [hbackward, hfinished.liveBytes hl.bounded] at hcourse
      have hcourse := Course.done hjoins.1 hcourse
      rw [hplace, hnext.shown hl hfinished, ← h.start]
      exact hcourse

/-- Every reader comes to an end with the bytes it is given. -/
theorem exists_session (hl : LimitsOf l b) (hvalid : p.Valid l) (h : Tracks l b p s) :
    ∃ values ending, Session s values ending := by
  generalize hwork : p.work = work
  induction work using Nat.strongRecOn generalizing b p s with
  | _ work ih =>
      have hanswers := answers_read hl hvalid h
      have hjoins := Parse.joins_read [] hvalid
      have hsound := Parse.sound_read hvalid
      cases hread : read s with
      | error why t => exact ⟨_, _, .failed hread⟩
      | ok status t =>
          rw [hread] at hanswers
          cases status with
          | done place =>
              obtain ⟨tree, q, houtcome, -, hfinished, hnext⟩ := hanswers.of_done
              rw [houtcome] at hjoins hsound
              obtain ⟨values, ending, hrest⟩ :=
                ih q.work (hwork ▸ hjoins.2) (hfinished.limits hl) hsound.2 hnext rfl
              exact ⟨_, _, .done hread hrest⟩
          | pending =>
              obtain ⟨q, houtcome, hnext⟩ := hanswers.of_pending
              rw [houtcome] at hjoins hsound
              obtain ⟨_, _, hless, _⟩ := hjoins
              rcases hless with hdry | hless
              · have hahead := hnext.ahead
                rw [hdry, Reading.ahead] at hahead
                have hsource : t.source = [] :=
                  List.append_right_eq_self.1 hahead
                exact ⟨_, _, .dry hread (by rw [hsource]; rfl)⟩
              · obtain ⟨values, ending, hrest⟩ := ih q.work (hwork ▸ hless) hl hsound hnext rfl
                exact ⟨_, _, .stalled hread hrest⟩

/-! ### Any delivery -/

/-- A reader between values and an arena that it may read into: nobody holds the lock, and the cursors
are in order. -/
structure Ready (r : Reader) (a : Arena) : Prop where
  idle : r.isIdle = true
  pushback : r.pushback.length ≤ Reader.pushbackCapacity
  depth : r.maxDepth ≤ Cell.maxNesting
  bounded : a.Bounded
  unlocked : a.isLocked = false

namespace Ready

variable {r : Reader} {a : Arena}

/-- The limits for reads into the arena. -/
def limits (r : Reader) (a : Arena) : Limits := ⟨r.maxDepth, some a.backward⟩

/-- The read that an idle reader begins. -/
def parse (r : Reader) (a : Arena) (source : Source) : Parse where
  inComment := r.inComment
  count := r.count
  start := a.forward
  ahead := (⟨r, source, a⟩ : Reading).ahead

theorem limitsOf (h : Ready r a) : LimitsOf (limits r a) a := ⟨h.bounded, rfl, h.depth⟩

theorem tracks (h : Ready r a) (source : Source) :
    Tracks (limits r a) a (parse r a source) ⟨r, source, a⟩ := by
  have hidle := h.idle
  simp only [Reader.isIdle, Bool.and_eq_true, beq_iff_eq, Option.isNone_iff_eq_none] at hidle
  exact tracks_idle _ _ h.bounded (by simpa [Arena.isLocked] using h.unlocked) hidle.2 hidle.1
    h.pushback rfl

theorem valid (source : Source) : (parse r a source).Valid (limits r a) :=
  ⟨nofun, nofun, Nat.zero_le _⟩

end Ready

/-- A fresh reader and a fresh arena. -/
theorem ready_create {size : Nat} {a : Arena} (maxDepth : Nat) (h : Arena.create size = .ok a) :
    Ready (Reader.ofDepth maxDepth) a := by
  refine ⟨rfl, Nat.zero_le _, Nat.min_le_right _ _, Arena.bounded_create h, ?_⟩
  unfold Arena.create at h
  split at h
  · injection h with h
    rw [← h]
    rfl
  · contradiction

/-- However bytes are delivered to an idle reader, with stalls wherever they come, it comes to an end
with them, shows the same values and ends in the same way. -/
theorem session_of_delivery {r : Reader} {a : Arena} (h : Ready r a) (bytes : List UInt8) :
    ∃ values ending, ∀ source : Source, source.bytes = bytes → ∀ values' ending',
      Session ⟨r, source, a⟩ values' ending' ↔ values' = values ∧ ending' = ending := by
  obtain ⟨values, ending, hwhole⟩ :=
    exists_session h.limitsOf (Ready.valid (ofBytes bytes)) (h.tracks _)
  have hcourse := course_of_session hwhole h.limitsOf (Ready.valid _) (h.tracks _)
  refine ⟨values, ending, ?_⟩
  intro source hbytes
  have hjoined : (Ready.parse r a source).joined [] =
      (Ready.parse r a (ofBytes bytes)).joined [] := by
    simp only [Ready.parse, Parse.joined, Reading.ahead, Source.bytes_append, hbytes,
      Source.bytes_ofBytes]
  have hunique : ∀ values' ending', Session ⟨r, source, a⟩ values' ending' →
      values' = values ∧ ending' = ending := by
    intro values' ending' hsession
    have hcourse' := course_of_session hsession h.limitsOf (Ready.valid _) (h.tracks _)
    rw [hjoined] at hcourse'
    exact hcourse.unique hcourse'
  intro values' ending'
  constructor
  · exact hunique values' ending'
  · rintro ⟨rfl, rfl⟩
    obtain ⟨values', ending', hsession⟩ :=
      exists_session h.limitsOf (Ready.valid source) (h.tracks _)
    obtain ⟨rfl, rfl⟩ := hunique values' ending' hsession
    exact hsession

theorem session_of_delivery_fresh : ∃ a, Arena.create 256 = .ok a ∧ Ready (Reader.ofDepth 4) a ∧
    ∃ values ending, ∀ source : Source, source.bytes = [40, 97, 41] → ∀ values' ending',
      Session ⟨Reader.ofDepth 4, source, a⟩ values' ending' ↔
        values' = values ∧ ending' = ending := by
  have hready := ready_create 4 (show Arena.create 256 = .ok _ from rfl)
  exact ⟨_, rfl, hready, session_of_delivery hready [40, 97, 41]⟩

end Reading

end FlatLisp
