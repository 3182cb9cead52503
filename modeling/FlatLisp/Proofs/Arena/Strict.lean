/-
Module: FlatLisp.Proofs.Arena.Strict
Purpose: Every request to an arena once more, with sixteen-bit arithmetic that stops where a number is
  too large or below zero, with a buffer that stops where it is indexed outside of its bounds, and with
  walks along chains that stop when they have met more records than there can be. While the marks of
  an arena are in order none of them ever stops, and they do what the requests do.
Main exports: Arena.Strict.act, Arena.Strict.act_eq, Arena.Strict.restore_eq, Arena.Strict.unwind_eq,
  Arena.Strict.reading_eq, Arena.Strict.stats_eq
-/
import FlatLisp.Proofs.Arena.MarkStacks

namespace FlatLisp

namespace Arena.Strict

/-- What a request answers, and the arena it leaves. -/
abbrev Answer (α : Type) := EStateM.Result ArenaError Arena α

/-! ### What can stop -/

/-- A sum of two offsets; none where it does not fit in two bytes. -/
def add (x y : Nat) : Option Nat := if x + y < 65536 then some (x + y) else none

/-- A difference of two offsets; none where it is below zero. -/
def sub (x y : Nat) : Option Nat := if y ≤ x then some (x - y) else none

/-- The bytes from `start` up to `stop` are addressed; none where the buffer does not have them. -/
def index (a : Arena) (start stop : Nat) : Option Unit :=
  if start ≤ stop ∧ stop ≤ a.memory.size then some () else none

/-- The answer of looking at live bytes, which are addressed. -/
def reading {α : Type} (a : Arena) (offset count : Nat) (answer : Except ArenaError α) :
    Option (Except ArenaError α) := do
  if a.Live offset count then index a offset (offset + count)
  return answer

def readRecord (a : Arena) (record : Nat) : Option (Except ArenaError (Nat × Nat)) :=
  reading a record markLength (a.readRecord record)

/-- The records met from `record` on; none where there are more of them than `fuel`. -/
def trailFrom (a : Arena) : (fuel record : Nat) → Option (List Nat)
  | 0, _ => none
  | fuel + 1, record =>
      if record = 0 then some [0]
      else do
        match ← readRecord a record with
        | .ok (_, before) => return record :: (← trailFrom a fuel before)
        | .error _ => return [record]

/-- A chain is no longer than there are bytes. -/
def trail (a : Arena) (d : Direction) : Option (List Nat) :=
  trailFrom a (a.capacity + 1) (a.lastMark d)

/-! ### Requests -/

def free (a : Arena) : Option Nat := sub a.backward a.forward

def advance (d : Direction) (count : Nat) (a : Arena) : Option (Answer Span) := do
  let room ← free a
  if count ≤ room then
    match d with
    | .forward =>
        let stop ← add a.forward count
        return .ok ⟨a.forward, count⟩ { a with forward := stop }
    | .backward =>
        let start ← sub a.backward count
        return .ok ⟨start, count⟩ { a with backward := start }
  else
    return .error (.outOfMemory count room) a

def alloc (d : Direction) (count : Nat) (a : Arena) : Option (Answer Span) :=
  if d = .forward ∧ a.isLocked then some (.error .locked a) else advance d count a

def pushRecord (a : Arena) (d : Direction) (record saved : Nat) : Option Arena := do
  index a record (record + 2)
  index a (record + 2) (record + 4)
  return a.pushRecord d record saved

def mark (d : Direction) (a : Arena) : Option (Answer Mark) := do
  match ← alloc d markLength a with
  | .ok span a' =>
      let marked ← pushRecord a' d span.offset (a.cursor d)
      return .ok ⟨d, span.offset⟩ marked
  | .error e a' => return .error e a'

def latest (a : Arena) (m : Mark) : Option (Except ArenaError (Nat × Nat)) :=
  if a.lastMark m.direction = 0 then some (.error .rewindTooFar)
  else if a.lastMark m.direction ≠ m.record then some (.error .markMismatch)
  else readRecord a m.record

def rewind (m : Mark) (a : Arena) : Option (Answer Unit) :=
  if m.direction = .forward ∧ a.isLocked then some (.error .locked a)
  else do
    match ← latest a m with
    | .ok (saved, before) =>
        return .ok () ((a.withCursor m.direction saved).withLastMark m.direction before)
    | .error e => return .error e a

def dropMark (m : Mark) (a : Arena) : Option (Answer Unit) := do
  match ← latest a m with
  | .ok (_, before) => return .ok () (a.withLastMark m.direction before)
  | .error e => return .error e a

def reserve (l : Lock) (count : Nat) (a : Arena) : Option (Answer Span) :=
  match a.held l with
  | .error e => some (.error e a)
  | .ok hold => do
      let start := if hold.reserved.isSome then hold.start else a.forward
      let room ← sub a.backward start
      if count ≤ room then
        let stop ← add start count
        return .ok ⟨start, count⟩
          { a with forward := stop, hold := some { hold with start, reserved := some count } }
      else
        return .error (.outOfMemory count (← free a)) a

def claim (l : Lock) (count : Nat) (a : Arena) : Option (Answer Span) :=
  match a.held l with
  | .error e => some (.error e a)
  | .ok hold =>
      match hold.reserved with
      | none => some (.error .noReservation a)
      | some reserved =>
          if count ≤ reserved then do
            let stop ← add hold.start count
            return .ok ⟨hold.start, count⟩
              { a with forward := stop, hold := some { hold with reserved := none } }
          else some (.error (.claimTooLarge (min count 65535) reserved) a)

def push (l : Lock) (count : Nat) (a : Arena) : Option (Answer Span) :=
  match a.held l with
  | .error e => some (.error e a)
  | .ok hold =>
      if hold.reserved.isSome then some (.error .reservationOpen a) else advance .forward count a

def write (offset : Nat) (new : List UInt8) (a : Arena) : Option (Answer Unit) := do
  if a.Live offset new.length then index a offset (offset + new.length)
  return Arena.write offset new a

/-- The arena after the request. Locks and directions are only taken and given back, without
arithmetic on offsets. -/
def act (a : Arena) : Request → Option Arena
  | .alloc d count => (alloc d count a).map after
  | .allocDefault count => (alloc a.direction count a).map after
  | .mark d => (mark d a).map after
  | .markDefault => (mark a.direction a).map after
  | .rewind m => (rewind m a).map after
  | .dropMark m => (dropMark m a).map after
  | .pushDirection d => some (after (Arena.pushDirection d a))
  | .popDirection => some (after (Arena.popDirection a))
  | .lock => some (after (Arena.lock a))
  | .reserve l count => (reserve l count a).map after
  | .claim l count => (claim l count a).map after
  | .push l count => (push l count a).map after
  | .unlock l => some (after (Arena.unlock l a))
  | .zero => (index a a.forward a.backward).map fun _ => a.zeroFree
  | .write offset bytes => (write offset bytes a).map after

/-- Both chains are searched before anything is rolled back. -/
def restore (c : Checkpoint) (a : Arena) : Option (Answer Unit) := do
  let _ ← trail a .forward
  let _ ← trail a .backward
  return Arena.restore c a

def unwind (record : Nat) (a : Arena) : Option (Answer Unit) := do
  let records ← trail a .backward
  if record ∈ records then rewind ⟨.backward, record⟩ (a.withLastMark .backward record)
  else return .error .markMismatch a

def stats (a : Arena) : Option Stats := do
  let forwardUsed ← sub a.forward headerLength
  let backwardUsed ← sub a.capacity a.backward
  let room ← free a
  let forwardTrail ← trail a .forward
  let backwardTrail ← trail a .backward
  return {
    capacity := a.capacity
    forwardUsed
    backwardUsed
    free := room
    forwardMarks := (forwardTrail.filter (· != 0)).length
    backwardMarks := (backwardTrail.filter (· != 0)).length
    locked := a.isLocked }

/-! ### Nothing stops -/

section Equal

variable {a : Arena} {S : Stacks} {d : Direction} {marks rest : List Outstanding}
  {x y start stop : Nat}

theorem add_eq (h : x + y < 65536) : add x y = some (x + y) := if_pos h

theorem hold_of_held {l : Lock} {hold : Hold} (h : a.held l = .ok hold) : a.hold = some hold := by
  rw [held] at h
  split at h
  · split at h
    · injection h with h
      rwa [← h]
    · contradiction
  · contradiction

/-- What is done with the lock depends on whether it is held. -/
theorem consult_bind {α β : Type} {look : Arena → Except ArenaError α} {next : α → ArenaM β} :
    (consult look >>= next) a = match look a with
      | .ok x => next x a
      | .error e => .error e a := by
  simp only [bind, EStateM.bind, consult]
  cases look a <;> rfl

theorem sub_eq (h : y ≤ x) : sub x y = some (x - y) := if_pos h

theorem index_eq (hle : start ≤ stop) (hsize : stop ≤ a.memory.size) : index a start stop = some () :=
  if_pos ⟨hle, hsize⟩

section Disciplined

variable (h : Disciplined a S)

include h

theorem live_le {offset count : Nat} (hlive : a.Live offset count) :
    offset + count ≤ a.memory.size := by
  rcases hlive with ⟨-, hhigh⟩ | ⟨-, hhigh⟩
  · exact Nat.le_trans hhigh (Nat.le_trans h.cursors h.backward)
  · exact hhigh

/-- Live bytes can be addressed. -/
theorem reading_eq {α : Type} (offset count : Nat) (answer : Except ArenaError α) :
    reading a offset count answer = some answer := by
  rw [reading]
  by_cases hlive : a.Live offset count
  · rw [if_pos hlive, index_eq (Nat.le_add_right ..) (live_le h hlive)]
    rfl
  · rw [if_neg hlive]
    rfl

/-- A chain ends before there are more records than `fuel`. -/
theorem trailFrom_eq {bound : Nat} (hgrown : Grown d bound (a.settled d))
    (hchained : Chained a.memory d bound marks) {fuel : Nat} (hfuel : marks.length < fuel) :
    trailFrom a fuel (headRecord marks) = some (a.trailFrom fuel (headRecord marks)) := by
  induction marks generalizing bound fuel with
  | nil =>
      obtain ⟨fuel, rfl⟩ := Nat.exists_eq_succ_of_ne_zero (Nat.ne_of_gt hfuel)
      rfl
  | cons e rest ih =>
      obtain ⟨fuel, rfl⟩ := Nat.exists_eq_succ_of_ne_zero (Nat.ne_of_gt (Nat.zero_lt_of_lt hfuel))
      obtain ⟨hpos, hrecord⟩ := h.readRecord_ok hgrown hchained
      have hrest := ih (hchained.saved_grown.trans hgrown) hchained.tail
        (Nat.lt_of_succ_lt_succ hfuel)
      rw [trailFrom, Arena.trailFrom, headRecord, if_neg hpos, if_neg hpos, readRecord,
        reading_eq h, hrecord]
      change (do let records ← trailFrom a fuel (headRecord rest); pure (e.record :: records)) = _
      rw [hrest]
      rfl

theorem trail_eq (d : Direction) : trail a d = some (a.trail d) := by
  rw [trail, Arena.trail, h.last]
  exact trailFrom_eq h (.refl _ _) (h.chained d)
    (Nat.lt_succ_of_le ((h.chained d).length_le (h.settled_le d)))

theorem free_eq : free a = some a.free := sub_eq h.cursors

theorem advance_eq (d : Direction) (count : Nat) :
    advance d count a = some (Arena.advance d count a) := by
  have hcursors := h.cursors
  have hbackward := h.backward
  have hsize := h.size_lt
  rw [capacity] at hbackward
  unfold advance Arena.advance
  rw [free_eq h]
  by_cases hfree : count ≤ a.free
  · have hroom := hfree
    rw [Arena.free] at hroom
    simp only [Option.bind_eq_bind, Option.bind_some, if_pos hfree]
    cases d with
    | forward =>
        rw [add_eq (show a.forward + count < 65536 by omega)]
        rfl
    | backward =>
        rw [sub_eq (show count ≤ a.backward by omega)]
        rfl
  · simp only [Option.bind_eq_bind, Option.bind_some, if_neg hfree]
    rfl

theorem alloc_eq (d : Direction) (count : Nat) : alloc d count a = some (Arena.alloc d count a) := by
  rw [alloc, Arena.alloc]
  cases d with
  | forward =>
      by_cases hlocked : a.isLocked = true
      · obtain ⟨hold, hhold⟩ := Option.isSome_iff_exists.1 hlocked
        rw [if_pos ⟨rfl, hlocked⟩, bind_error (demandUnlocked_locked hhold)]
      · have hhold : a.hold = none := Option.not_isSome_iff_eq_none.1 hlocked
        rw [if_neg fun hboth => hlocked hboth.2, bind_ok (demandUnlocked_ok fun _ => hhold),
          advance_eq h]
  | backward =>
      have hunlocked : demandUnlocked .backward a = .ok () a := rfl
      rw [if_neg fun hboth => absurd hboth.1 (by decide), bind_ok hunlocked, advance_eq h]

theorem mark_eq (d : Direction) : mark d a = some (Arena.mark d a) := by
  have hbackward := h.backward
  have hcursors := h.cursors
  rw [capacity] at hbackward
  rw [mark, alloc_eq h, Arena.mark, get_bind]
  rcases alloc_cases d markLength a with ⟨e, halloc⟩ | ⟨-, hfree, halloc⟩
  · rw [halloc, bind_error halloc]
    rfl
  · rw [halloc, bind_ok halloc]
    rw [Arena.free, markLength] at hfree
    have hsize : a.nextOffset markLength d + 4 ≤ a.memory.size := by
      cases d with
      | forward =>
          simp only [nextOffset]
          omega
      | backward =>
          simp only [nextOffset, markLength]
          omega
    have hkept : (a.allocated markLength d).memory.size = a.memory.size := by
      cases d <;> rfl
    have hpush : pushRecord (a.allocated markLength d) d (a.nextOffset markLength d) (a.cursor d) =
        some ((a.allocated markLength d).pushRecord d (a.nextOffset markLength d) (a.cursor d)) := by
      rw [pushRecord, index_eq (Nat.le_add_right ..) (by rw [hkept]; omega),
        index_eq (by omega) (by rw [hkept]; exact hsize)]
      rfl
    change (do
      let marked ← pushRecord (a.allocated markLength d) d (a.nextOffset markLength d) (a.cursor d)
      pure (.ok ⟨d, a.nextOffset markLength d⟩ marked) : Option (Answer Mark)) = _
    rw [hpush]
    rfl

theorem latest_eq (m : Mark) : latest a m = some (a.latest m) := by
  rw [latest, Arena.latest, readRecord, reading_eq h]
  split
  · rfl
  · split <;> rfl

theorem rewind_eq (m : Mark) : rewind m a = some (Arena.rewind m a) := by
  rw [rewind, latest_eq h]
  rcases unlocked_or_locked m.direction a with hunlocked | ⟨hforward, hold, hhold⟩
  · have hfree : ¬ (m.direction = .forward ∧ a.isLocked = true) := by
      rintro ⟨hforward, hlocked⟩
      rw [isLocked, hunlocked hforward] at hlocked
      contradiction
    rw [if_neg hfree]
    cases hlatest : a.latest m with
    | ok found => rw [rewind_ok hunlocked hlatest]; rfl
    | error e => rw [rewind_error hunlocked hlatest]; rfl
  · have hlocked : a.isLocked = true := by rw [isLocked, hhold]; rfl
    rw [if_pos ⟨hforward, hlocked⟩, rewind_locked hforward hhold]

theorem dropMark_eq (m : Mark) : dropMark m a = some (Arena.dropMark m a) := by
  rw [dropMark, latest_eq h]
  cases hlatest : a.latest m with
  | ok found => rw [dropMark_ok hlatest]; rfl
  | error e => rw [dropMark_error hlatest]; rfl

theorem reserve_eq (l : Lock) (count : Nat) :
    reserve l count a = some (Arena.reserve l count a) := by
  have hsettled := h.settled
  have hcursors := h.cursors
  have hbackward := h.backward
  have hsize := h.size_lt
  rw [capacity] at hbackward
  rw [reserve, Arena.reserve]
  refine Eq.trans ?_ (congrArg some consult_bind.symm)
  cases hheld : a.held l with
  | error e => rfl
  | ok hold =>
      have hstart := Disciplined.start_eq (hold_of_held hheld)
      dsimp only
      rw [hstart, sub_eq (Nat.le_trans hsettled hcursors)]
      by_cases hfree : count ≤ a.backward - a.settled .forward
      · simp only [Option.bind_eq_bind, Option.bind_some, if_pos hfree]
        rw [add_eq (by omega)]
        rfl
      · simp only [Option.bind_eq_bind, Option.bind_some, if_neg hfree]
        rw [free_eq h]
        rfl

theorem claim_eq (l : Lock) (count : Nat) : claim l count a = some (Arena.claim l count a) := by
  have hcursors := h.cursors
  have hbackward := h.backward
  have hsize := h.size_lt
  rw [capacity] at hbackward
  rw [claim, Arena.claim, consult_bind]
  cases hheld : a.held l with
  | error e => rfl
  | ok hold =>
      dsimp only
      cases hreserved : hold.reserved with
      | none => rfl
      | some n =>
          have hforward := h.reserved hold n (hold_of_held hheld) hreserved
          dsimp only
          by_cases hle : count ≤ n
          · rw [if_pos hle, if_pos hle, add_eq (by omega)]
            rfl
          · rw [if_neg hle, if_neg hle]
            rfl

theorem push_eq (l : Lock) (count : Nat) : push l count a = some (Arena.push l count a) := by
  rw [push, Arena.push, consult_bind]
  cases hheld : a.held l with
  | error e => rfl
  | ok hold =>
      dsimp only
      by_cases hreserved : hold.reserved.isSome = true
      · rw [if_pos hreserved, if_pos hreserved]
        rfl
      · rw [if_neg hreserved, if_neg hreserved, advance_eq h]

theorem write_eq (offset : Nat) (new : List UInt8) :
    write offset new a = some (Arena.write offset new a) := by
  rw [write]
  by_cases hlive : a.Live offset new.length
  · rw [if_pos hlive, index_eq (Nat.le_add_right ..) (live_le h hlive)]
    rfl
  · rw [if_neg hlive]
    rfl

/-- No request stops, whether it is granted or not. -/
theorem act_eq (r : Request) : act a r = some (r.act a) := by
  cases r with
  | alloc d count => rw [act, alloc_eq h]; rfl
  | allocDefault count => rw [act, alloc_eq h]; rfl
  | mark d => rw [act, mark_eq h]; rfl
  | markDefault => rw [act, mark_eq h]; rfl
  | rewind m => rw [act, rewind_eq h]; rfl
  | dropMark m => rw [act, dropMark_eq h]; rfl
  | pushDirection d => rfl
  | popDirection => rfl
  | lock => rfl
  | reserve l count => rw [act, reserve_eq h]; rfl
  | claim l count => rw [act, claim_eq h]; rfl
  | push l count => rw [act, push_eq h]; rfl
  | unlock l => rfl
  | zero => rw [act, index_eq h.cursors h.backward]; rfl
  | write offset bytes => rw [act, write_eq h]; rfl

theorem restore_eq (c : Checkpoint) : restore c a = some (Arena.restore c a) := by
  rw [restore, trail_eq h, trail_eq h]
  rfl

/-- Nor does a borrowing when it ends. -/
theorem unwind_eq {record : Nat} (hzero : record ≠ 0) :
    unwind record a = some (Arena.unwind record a) := by
  have hmem : record ∈ a.trail .backward ↔ record ∈ S.backward.map (·.record) := by
    rw [h.trail_eq, List.mem_append, List.mem_singleton]
    exact ⟨fun h => h.resolve_right hzero, .inl⟩
  rw [unwind, trail_eq h, Arena.unwind, get_bind]
  by_cases hfound : record ∈ a.trail .backward
  · obtain ⟨newer, e, hsplit, he⟩ := exists_older (hmem.1 hfound)
    have hchained := h.chained .backward
    rw [show S.of .backward = newer ++ e :: older record S.backward from hsplit] at hchained
    have hrelinked := h.relinked hchained.of_append
    rw [headRecord, he] at hrelinked
    simp only [Option.bind_eq_bind, Option.bind_some, if_pos hfound]
    exact rewind_eq hrelinked _
  · simp only [Option.bind_eq_bind, Option.bind_some, if_neg hfound]
    rfl

theorem stats_eq : stats a = some a.stats := by
  have hheader := Nat.le_trans h.header h.settled
  rw [stats, sub_eq hheader, sub_eq h.backward, free_eq h, trail_eq h, trail_eq h]
  rfl

end Disciplined

end Equal

end Arena.Strict

end FlatLisp
