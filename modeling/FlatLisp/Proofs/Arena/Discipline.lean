/-
Module: FlatLisp.Proofs.Arena.Discipline
Purpose: What each request to an arena does to its outstanding marks. The chains of records stay in
  step with two stacks, one for each cursor, whether the request is granted or not.
Main exports: Arena.Request, Arena.Disciplined.act, Arena.Disciplined.rewind_cases,
  Arena.Disciplined.dropMark_cases
-/
import FlatLisp.Proofs.Arena.Chain

namespace FlatLisp

namespace Arena

/-! ### What requests do -/

section Results

variable {a : Arena} {m : Mark} {d : Direction}

/-- The record of a mark that is taken now. -/
def newRecord (a : Arena) : Direction → Nat
  | .forward => a.forward
  | .backward => a.backward - markLength

/-- The arena after a mark on the cursor of a direction. -/
def withMark (a : Arena) : Direction → Arena
  | .forward =>
      { a with
        memory := a.memory.write a.forward (Word.bytes a.forward ++ Word.bytes a.forwardMark)
        forward := a.forward + markLength
        forwardMark := a.forward }
  | .backward => a.marked

@[simp] theorem hold_withMark (a : Arena) (d : Direction) : (a.withMark d).hold = a.hold := by
  cases d with
  | forward => rw [withMark]
  | backward => rw [withMark, marked]

@[simp] theorem forward_withMark_backward (a : Arena) :
    (a.withMark .backward).forward = a.forward := by
  rw [withMark, marked]

theorem unlocked_or_locked (d : Direction) (a : Arena) :
    (d = .forward → a.hold = none) ∨ d = .forward ∧ ∃ hold, a.hold = some hold := by
  cases d with
  | forward =>
      cases hhold : a.hold with
      | none => exact .inl fun _ => rfl
      | some hold => exact .inr ⟨rfl, hold, rfl⟩
  | backward => exact .inl fun h => by cases h

/-- Where the next allocation of `count` bytes is. -/
def nextOffset (a : Arena) (count : Nat) : Direction → Nat
  | .forward => a.forward
  | .backward => a.backward - count

/-- The arena after an allocation of `count` bytes. -/
def allocated (a : Arena) (count : Nat) : Direction → Arena
  | .forward => { a with forward := a.forward + count }
  | .backward => { a with backward := a.backward - count }

/-- An allocation is refused and nothing happens, or it is made where the cursor is. -/
theorem alloc_cases (d : Direction) (count : Nat) (a : Arena) :
    (∃ e, alloc d count a = .error e a) ∨
      (d = .forward → a.hold = none) ∧ count ≤ a.free ∧
        alloc d count a = .ok ⟨a.nextOffset count d, count⟩ (a.allocated count d) := by
  rcases unlocked_or_locked d a with hunlocked | ⟨rfl, hold, hhold⟩
  · by_cases hfree : count ≤ a.free
    · refine .inr ⟨hunlocked, hfree, ?_⟩
      cases d with
      | forward => exact alloc_forward_ok (hunlocked rfl) hfree
      | backward => exact alloc_backward_ok hfree
    · rw [Nat.not_le] at hfree
      refine .inl ⟨.outOfMemory count a.free, ?_⟩
      cases d with
      | forward => exact alloc_forward_full (hunlocked rfl) hfree
      | backward => exact alloc_backward_full hfree
  · exact .inl ⟨.locked, bind_error (demandUnlocked_locked hhold)⟩

/-- A mark is refused and nothing happens, or it is taken where the cursor is. -/
theorem mark_cases (d : Direction) (a : Arena) :
    (∃ e, mark d a = .error e a) ∨
      (d = .forward → a.hold = none) ∧ markLength ≤ a.free ∧
        mark d a = .ok ⟨d, a.newRecord d⟩ (a.withMark d) := by
  rcases unlocked_or_locked d a with hunlocked | ⟨rfl, hold, hhold⟩
  · by_cases hfree : markLength ≤ a.free
    · refine .inr ⟨hunlocked, hfree, ?_⟩
      cases d with
      | forward =>
          rw [mark, get_bind, bind_ok (alloc_forward_ok (hunlocked rfl) hfree)]
          rfl
      | backward => exact mark_backward_ok hfree
    · rw [Nat.not_le] at hfree
      refine .inl ⟨.outOfMemory markLength a.free, ?_⟩
      cases d with
      | forward => rw [mark, get_bind, bind_error (alloc_forward_full (hunlocked rfl) hfree)]
      | backward => exact mark_backward_full hfree
  · refine .inl ⟨.locked, ?_⟩
    rw [mark, get_bind, alloc]
    exact bind_error (bind_error (demandUnlocked_locked hhold))

theorem rewind_locked {hold : Hold} (hforward : m.direction = .forward)
    (hhold : a.hold = some hold) : rewind m a = .error .locked a := by
  rw [rewind, hforward]
  exact bind_error (demandUnlocked_locked hhold)

theorem rewind_error {e : ArenaError} (hunlocked : m.direction = .forward → a.hold = none)
    (h : a.latest m = .error e) : rewind m a = .error e a := by
  rw [rewind, bind_ok (demandUnlocked_ok hunlocked)]
  exact bind_error (by rw [consult, h])

theorem rewind_ok {saved before : Nat} (hunlocked : m.direction = .forward → a.hold = none)
    (h : a.latest m = .ok (saved, before)) :
    rewind m a = .ok () ((a.withCursor m.direction saved).withLastMark m.direction before) := by
  have hconsult : consult (·.latest m) a = .ok (saved, before) a := by rw [consult, h]
  rw [rewind, bind_ok (demandUnlocked_ok hunlocked), bind_ok hconsult]
  rfl

theorem dropMark_error {e : ArenaError} (h : a.latest m = .error e) :
    dropMark m a = .error e a := by
  rw [dropMark]
  exact bind_error (by rw [consult, h])

theorem dropMark_ok {saved before : Nat} (h : a.latest m = .ok (saved, before)) :
    dropMark m a = .ok () (a.withLastMark m.direction before) := by
  have hconsult : consult (·.latest m) a = .ok (saved, before) a := by rw [consult, h]
  rw [dropMark, bind_ok hconsult]
  rfl

/-- A rewind is refused and nothing happens, or its cursor moves. -/
theorem rewind_cases (m : Mark) (a : Arena) :
    (∃ e, rewind m a = .error e a) ∨ ∃ saved before, (m.direction = .forward → a.hold = none) ∧
      rewind m a = .ok () ((a.withCursor m.direction saved).withLastMark m.direction before) := by
  rcases unlocked_or_locked m.direction a with hunlocked | ⟨hforward, hold, hhold⟩
  · cases hlatest : a.latest m with
    | ok found => exact .inr ⟨found.1, found.2, hunlocked, rewind_ok hunlocked hlatest⟩
    | error e => exact .inl ⟨e, rewind_error hunlocked hlatest⟩
  · exact .inl ⟨.locked, rewind_locked hforward hhold⟩

/-- A mark is not forgotten and nothing happens, or another one is the most recent. -/
theorem dropMark_cases (m : Mark) (a : Arena) :
    (∃ e, dropMark m a = .error e a) ∨
      ∃ before, dropMark m a = .ok () (a.withLastMark m.direction before) := by
  cases hlatest : a.latest m with
  | ok found => exact .inr ⟨found.2, dropMark_ok hlatest⟩
  | error e => exact .inl ⟨e, dropMark_error hlatest⟩

end Results

/-! ### What keeps the stacks -/

namespace Disciplined

variable {a : Arena} {S : Stacks} {d : Direction} {e : Outstanding} {rest newer : List Outstanding}

/-- No reservation is open. -/
def Closed (a : Arena) : Prop := ∀ h, a.hold = some h → h.reserved = none

theorem settled_of_closed (h : Closed a) : a.settled .forward = a.forward := by
  rw [Arena.settled]
  cases hhold : a.hold with
  | none => rfl
  | some hold =>
      have hnone := h hold hhold
      obtain ⟨id, start, reserved⟩ := hold
      cases reserved with
      | none => rfl
      | some n => contradiction

theorem settled_of_open {h : Hold} {n : Nat} (hhold : a.hold = some h)
    (hsome : h.reserved = some n) : a.settled .forward = h.start := by
  obtain ⟨id, start, reserved⟩ := h
  cases hsome
  rw [Arena.settled, hhold]

theorem closed_of_none (h : a.hold = none) : Closed a := by
  intro hold hsome
  rw [h] at hsome
  contradiction

theorem closed_of_some {hold : Hold} (hhold : a.hold = some hold) (hnone : hold.reserved = none) :
    Closed a := by
  intro held hsome
  rw [hhold] at hsome
  cases hsome
  exact hnone

/-- The forward cursor moves to where all records are below it, with nothing set aside. -/
theorem forward_to (h : Disciplined a S) {forward : Nat} {hold : Option Hold}
    (hclosed : Closed { a with forward, hold }) (hlow : headerLength ≤ forward)
    (hhigh : forward ≤ a.backward) (hchained : Chained a.memory .forward forward (S.of .forward)) :
    Disciplined { a with forward, hold } S := by
  have hsettled : ({ a with forward, hold } : Arena).settled .forward = forward :=
    settled_of_closed hclosed
  refine ⟨Nat.le_trans hlow (Nat.le_of_eq hsettled.symm), Nat.le_of_eq hsettled, hhigh, h.backward,
    h.capacity, ?_, ?_, h.last⟩
  · intro held n hhold hsome
    rw [hclosed held hhold] at hsome
    contradiction
  · intro d
    cases d with
    | forward =>
        rw [hsettled]
        exact hchained
    | backward => exact h.chained .backward

/-- The forward cursor moves on. -/
theorem forward_grown (h : Disciplined a S) {forward : Nat} {hold : Option Hold}
    (hclosed : Closed { a with forward, hold }) (hlow : a.settled .forward ≤ forward)
    (hhigh : forward ≤ a.backward) : Disciplined { a with forward, hold } S :=
  h.forward_to hclosed (Nat.le_trans h.header hlow) hhigh ((h.chained .forward).grown hlow)

/-- The backward cursor moves to where all records are above it. -/
theorem backward_to (h : Disciplined a S) {backward : Nat} (hlow : a.forward ≤ backward)
    (hhigh : backward ≤ a.capacity)
    (hchained : Chained a.memory .backward backward (S.of .backward)) :
    Disciplined { a with backward } S := by
  refine ⟨h.header, h.settled, hlow, hhigh, h.capacity, h.reserved, ?_, h.last⟩
  intro d
  cases d with
  | forward => exact h.chained .forward
  | backward => exact hchained

theorem backward_grown (h : Disciplined a S) {count : Nat} (hfree : count ≤ a.free) :
    Disciplined { a with backward := a.backward - count } S := by
  have hcursors := h.cursors
  rw [free] at hfree
  exact h.backward_to (by omega) (Nat.le_trans (Nat.sub_le ..) h.backward)
    ((h.chained .backward).grown (Nat.sub_le ..))

/-- The marks do not depend on the default directions and the numbers of locks. -/
theorem renumbered (h : Disciplined a S) (directions : List Direction) (nextLock : Nat) :
    Disciplined { a with directions, nextLock } S :=
  ⟨h.header, h.settled, h.cursors, h.backward, h.capacity, h.reserved, h.chained, h.last⟩

/-- Bytes are set aside from the settled cursor on. -/
theorem set_aside (h : Disciplined a S) {count : Nat} (id : Nat)
    (hroom : a.settled .forward + count ≤ a.backward) :
    Disciplined { a with
      forward := a.settled .forward + count
      hold := some { id, start := a.settled .forward, reserved := some count } } S := by
  refine ⟨h.header, Nat.le_add_right .., hroom, h.backward, h.capacity, ?_, ?_, h.last⟩
  · intro held n hhold hsome
    cases hhold
    cases hsome
    rfl
  · intro d
    cases d with
    | forward => exact h.chained .forward
    | backward => exact h.chained .backward

/-- Bytes are written that belong to no record of an outstanding mark. -/
theorem written (h : Disciplined a S) {offset : Nat} {bytes : List UInt8}
    (hspares : ∀ d, ∀ e ∈ S.of d,
      e.record + markLength ≤ offset ∨ offset + bytes.length ≤ e.record) :
    Disciplined { a with memory := a.memory.write offset bytes } S := by
  have hsize : (a.memory.write offset bytes).size = a.memory.size := Bytes.size_write ..
  refine ⟨h.header, h.settled, h.cursors, ?_, ?_, h.reserved,
    fun d => (h.chained d).write (hspares d), h.last⟩
  · exact Nat.le_trans h.backward (Nat.le_of_eq hsize.symm)
  · exact Nat.le_trans (Nat.le_of_eq hsize) h.capacity

/-- Bytes between the two regions belong to no record. -/
theorem spares_between (h : Disciplined a S) {offset count : Nat}
    (hlow : a.settled .forward ≤ offset) (hhigh : offset + count ≤ a.backward) (d : Direction) :
    ∀ e ∈ S.of d, e.record + markLength ≤ offset ∨ offset + count ≤ e.record := by
  intro e he
  have hregion := (h.chained d).inRegion he
  cases d with
  | forward => exact .inl (Nat.le_trans hregion.2 hlow)
  | backward => exact .inr (Nat.le_trans hhigh hregion.1)

/-- Another chain of records is followed from now on. -/
theorem relinked (h : Disciplined a S) {marks : List Outstanding}
    (hchained : Chained a.memory d (a.settled d) marks) :
    Disciplined (a.withLastMark d (headRecord marks)) (S.withMarks d marks) := by
  cases d with
  | forward =>
      refine ⟨h.header, h.settled, h.cursors, h.backward, h.capacity, h.reserved, ?_, ?_⟩
      · intro d
        cases d with
        | forward => exact hchained
        | backward => exact h.chained .backward
      · intro d
        cases d with
        | forward => rfl
        | backward => exact h.last .backward
  | backward =>
      refine ⟨h.header, h.settled, h.cursors, h.backward, h.capacity, h.reserved, ?_, ?_⟩
      · intro d
        cases d with
        | forward => exact h.chained .forward
        | backward => exact hchained
      · intro d
        cases d with
        | forward => exact h.last .forward
        | backward => rfl

/-- The most recent mark is forgotten; its record stays where it is. -/
theorem dropped (h : Disciplined a S) (hmarks : S.of d = e :: rest) :
    Disciplined (a.withLastMark d (headRecord rest)) (S.withMarks d rest) := by
  have hchained := h.chained d
  rw [hmarks] at hchained
  exact h.relinked (hchained.tail.grown hchained.saved_grown)

/-- The most recent mark is given back, and its cursor is where it was. -/
theorem rewound (h : Disciplined a S) (hmarks : S.of d = e :: rest)
    (hunlocked : d = .forward → a.hold = none) :
    Disciplined ((a.withCursor d e.saved).withLastMark d (headRecord rest))
      (S.withMarks d rest) := by
  have hdropped := h.dropped hmarks
  have hchained := h.chained d
  have hcursors := h.cursors
  rw [hmarks] at hchained
  have hsaved := hchained.2.1
  have hgrown := hchained.saved_grown
  have hregion := hchained.1
  cases d with
  | forward =>
      have hsettled := h.settled
      simp only [Grown] at hgrown
      exact hdropped.forward_to (closed_of_none (hunlocked rfl)) (hsaved ▸ hregion.1)
        (show e.saved ≤ a.backward by omega) hchained.tail
  | backward =>
      have hlow : a.backward ≤ e.saved := hgrown
      exact hdropped.backward_to (Nat.le_trans hcursors hlow) (hsaved ▸ hregion.2) hchained.tail

/-- A new mark is on top of the others. -/
theorem marked (h : Disciplined a S) (hunlocked : d = .forward → a.hold = none)
    (hfree : markLength ≤ a.free) :
    Disciplined (a.withMark d) (S.withMarks d (⟨a.newRecord d, a.cursor d⟩ :: S.of d)) := by
  have hcursors := h.cursors
  have hsettled := h.settled
  have hbackward := h.backward
  have hlast := h.last d
  have hroom : a.forward + markLength ≤ a.backward := by
    rw [free] at hfree
    omega
  cases d with
  | forward =>
      have hclosed := closed_of_none (hunlocked rfl)
      have hsettled' := settled_of_closed hclosed
      generalize hm :
        a.memory.write a.forward (Word.bytes a.forward ++ Word.bytes a.forwardMark) = m
      have hwritten : Disciplined { a with memory := m } S :=
        hm ▸ h.written (h.spares_between hsettled hroom)
      have hheld : m.Holds a.forward
          (Word.bytes a.forward ++ Word.bytes (headRecord S.forward)) := by
        rw [← show a.forwardMark = headRecord S.forward from hlast, ← hm]
        exact Bytes.holds_write (Nat.le_trans hroom hbackward)
      have hmoved : Disciplined { a with memory := m, forward := a.forward + markLength } S :=
        hwritten.forward_grown hclosed (Nat.le_trans hsettled (Nat.le_add_right ..)) hroom
      have hchained := hwritten.chained .forward
      rw [show ({ a with memory := m } : Arena).settled .forward = a.forward from hsettled']
        at hchained
      have hplace : ({ a with memory := m, forward := a.forward + markLength } : Arena).settled
        .forward = a.forward + markLength := settled_of_closed hclosed
      have hlinked := @relinked _ S .forward hmoved (⟨a.forward, a.forward⟩ :: S.forward)
        ⟨⟨hsettled' ▸ h.header, Nat.le_of_eq hplace.symm⟩, rfl, hheld, hchained⟩
      rw [withMark, hm]
      exact hlinked
  | backward =>
      have hstart : a.backward - markLength + markLength = a.backward :=
        Nat.sub_add_cancel (Nat.le_trans (Nat.le_add_left ..) hroom)
      generalize hm : a.memory.write (a.backward - markLength)
        (Word.bytes a.backward ++ Word.bytes a.backwardMark) = m
      have hwritten : Disciplined { a with memory := m } S :=
        hm ▸ h.written (h.spares_between (by omega) (Nat.le_of_eq hstart))
      have hheld : m.Holds (a.backward - markLength)
          (Word.bytes a.backward ++ Word.bytes (headRecord S.backward)) := by
        rw [← show a.backwardMark = headRecord S.backward from hlast, ← hm]
        exact Bytes.holds_write (Nat.le_trans (Nat.le_of_eq hstart) hbackward)
      have hmoved : Disciplined { a with memory := m, backward := a.backward - markLength } S :=
        hwritten.backward_grown hfree
      have hsize : m.size = a.memory.size := hm ▸ Bytes.size_write ..
      have hlinked := @relinked _ S .backward hmoved
        (⟨a.backward - markLength, a.backward⟩ :: S.backward)
        ⟨⟨Nat.le_refl _, by rw [hstart, hsize]; exact hbackward⟩, hstart.symm, hheld,
          hwritten.chained .backward⟩
      rw [withMark, Arena.marked, hm]
      exact hlinked

end Disciplined

/-! ### Requests -/

end Arena

namespace Stacks

/-- The marks once a mark was asked for on the cursor of `d`. -/
def taken (S : Stacks) (a : Arena) (d : Direction) : EStateM.Result ArenaError Arena Mark → Stacks
  | .ok m _ => S.withMarks d (⟨m.record, a.cursor d⟩ :: S.of d)
  | .error _ _ => S

/-- The marks once the most recent one on the cursor of `d` was asked to be taken back. -/
def released (S : Stacks) (d : Direction) : EStateM.Result ArenaError Arena Unit → Stacks
  | .ok _ _ => S.withMarks d (S.of d).tail
  | .error _ _ => S

end Stacks

namespace Arena

/-- What can be asked of an arena in one step. -/
inductive Request where
  | alloc (d : Direction) (count : Nat)
  | allocDefault (count : Nat)
  | mark (d : Direction)
  | markDefault
  | rewind (m : Mark)
  | dropMark (m : Mark)
  | pushDirection (d : Direction)
  | popDirection
  | lock
  | reserve (l : Lock) (count : Nat)
  | claim (l : Lock) (count : Nat)
  | push (l : Lock) (count : Nat)
  | unlock (l : Lock)
  | zero
  | write (offset : Nat) (bytes : List UInt8)

namespace Request

/-- The arena after the request. -/
def act (a : Arena) : Request → Arena
  | .alloc d count => after (Arena.alloc d count a)
  | .allocDefault count => after (Arena.allocDefault count a)
  | .mark d => after (Arena.mark d a)
  | .markDefault => after (Arena.markDefault a)
  | .rewind m => after (Arena.rewind m a)
  | .dropMark m => after (Arena.dropMark m a)
  | .pushDirection d => after (Arena.pushDirection d a)
  | .popDirection => after (Arena.popDirection a)
  | .lock => after (Arena.lock a)
  | .reserve l count => after (Arena.reserve l count a)
  | .claim l count => after (Arena.claim l count a)
  | .push l count => after (Arena.push l count a)
  | .unlock l => after (Arena.unlock l a)
  | .zero => a.zeroFree
  | .write offset bytes => after (Arena.write offset bytes a)

/-- The outstanding marks after the request: one more where a mark was taken, and without the most
recent one where a mark was rewound or dropped. -/
def track (S : Stacks) (a : Arena) : Request → Stacks
  | .mark d => S.taken a d (Arena.mark d a)
  | .markDefault => S.taken a a.direction (Arena.markDefault a)
  | .rewind m => S.released m.direction (Arena.rewind m a)
  | .dropMark m => S.released m.direction (Arena.dropMark m a)
  | _ => S

/-- A mark is asked for on the cursor of `d`. -/
def Marks (a : Arena) (d : Direction) : Request → Prop
  | .mark d' => d' = d
  | .markDefault => a.direction = d
  | _ => False

/-- No byte is written that belongs to the record of an outstanding mark. -/
def Spares (S : Stacks) : Request → Prop
  | .write offset bytes => ∀ d, ∀ e ∈ S.of d, ∀ i < bytes.length,
      offset + i < e.record ∨ e.record + markLength ≤ offset + i
  | _ => True

/-- A mark on the stacks was there before, or has been asked for and taken. -/
theorem mem_track {a : Arena} {S : Stacks} {d : Direction} {e : Outstanding} {r : Request}
    (he : e ∈ (r.track S a).of d) :
    e ∈ S.of d ∨ r.Marks a d ∧ markLength ≤ a.free ∧ e.record = a.newRecord d := by
  have htaken : ∀ d', e ∈ (S.taken a d' (Arena.mark d' a)).of d →
      e ∈ S.of d ∨ d' = d ∧ markLength ≤ a.free ∧ e.record = a.newRecord d := by
    intro d' he
    rcases mark_cases d' a with ⟨err, hmark⟩ | ⟨-, hfree, hmark⟩
    · rw [hmark] at he
      exact .inl he
    · rw [hmark, Stacks.taken] at he
      by_cases hsame : d' = d
      · subst hsame
        rw [Stacks.of_withMarks] at he
        rcases List.mem_cons.1 he with rfl | he
        · exact .inr ⟨rfl, hfree, rfl⟩
        · exact .inl he
      · cases d <;> cases d' <;> first | exact (hsame rfl).elim | exact .inl he
  have hreleased : ∀ d' result, e ∈ (S.released d' result).of d → e ∈ S.of d := by
    intro d' result he
    cases result with
    | error err s => exact he
    | ok u s =>
        cases d <;> cases d' <;> first | exact he | exact List.mem_of_mem_tail he
  cases r with
  | mark d' => exact htaken d' he
  | markDefault => exact htaken a.direction he
  | rewind m => exact .inl (hreleased _ _ he)
  | dropMark m => exact .inl (hreleased _ _ he)
  | _ => exact .inl he

end Request

namespace Disciplined

section Requests

variable {a : Arena} {S : Stacks} {d : Direction} {e : Outstanding} {rest : List Outstanding}

theorem act_alloc (h : Disciplined a S) (d : Direction) (count : Nat) :
    Disciplined (after (alloc d count a)) S := by
  rcases alloc_cases d count a with ⟨e, halloc⟩ | ⟨hunlocked, hfree, halloc⟩
  · rwa [halloc]
  · rw [halloc]
    cases d with
    | forward =>
        have hcursors := h.cursors
        rw [free] at hfree
        exact h.forward_grown (closed_of_none (hunlocked rfl))
          (Nat.le_trans h.settled (Nat.le_add_right ..))
          (show a.forward + count ≤ a.backward by omega)
    | backward => exact h.backward_grown hfree

theorem act_mark (h : Disciplined a S) (d : Direction) :
    Disciplined (after (mark d a)) (S.taken a d (mark d a)) := by
  rcases mark_cases d a with ⟨e, hmark⟩ | ⟨hunlocked, hfree, hmark⟩
  · rwa [hmark]
  · rw [hmark]
    exact h.marked hunlocked hfree

/-- A rewind finds the most recent mark of its cursor, or is refused. -/
theorem rewind_cases (h : Disciplined a S) (m : Mark) :
    (m.direction = .forward ∧ (∃ hold, a.hold = some hold) ∧ rewind m a = .error .locked a) ∨
      (m.direction = .forward → a.hold = none) ∧
        ((S.of m.direction = [] ∧ rewind m a = .error .rewindTooFar a) ∨
          ∃ e rest, S.of m.direction = e :: rest ∧
            ((e.record ≠ m.record ∧ rewind m a = .error .markMismatch a) ∨
              e.record = m.record ∧ rewind m a =
                .ok () ((a.withCursor m.direction e.saved).withLastMark m.direction
                  (headRecord rest)))) := by
  have hlatest := h.latest_eq m
  rcases unlocked_or_locked m.direction a with hunlocked | ⟨hforward, hold, hhold⟩
  · refine .inr ⟨hunlocked, ?_⟩
    cases hmarks : S.of m.direction with
    | nil =>
        rw [hmarks] at hlatest
        exact .inl ⟨rfl, rewind_error hunlocked hlatest⟩
    | cons e rest =>
        rw [hmarks] at hlatest
        dsimp only at hlatest
        refine .inr ⟨e, rest, rfl, ?_⟩
        by_cases hsame : e.record = m.record
        · rw [if_pos hsame] at hlatest
          exact .inr ⟨hsame, rewind_ok hunlocked hlatest⟩
        · rw [if_neg hsame] at hlatest
          exact .inl ⟨hsame, rewind_error hunlocked hlatest⟩
  · exact .inl ⟨hforward, ⟨hold, hhold⟩, rewind_locked hforward hhold⟩

/-- A mark is dropped where it is the most recent one of its cursor, or the request is refused. -/
theorem dropMark_cases (h : Disciplined a S) (m : Mark) :
    (S.of m.direction = [] ∧ dropMark m a = .error .rewindTooFar a) ∨
      ∃ e rest, S.of m.direction = e :: rest ∧
        ((e.record ≠ m.record ∧ dropMark m a = .error .markMismatch a) ∨
          e.record = m.record ∧
            dropMark m a = .ok () (a.withLastMark m.direction (headRecord rest))) := by
  have hlatest := h.latest_eq m
  cases hmarks : S.of m.direction with
  | nil =>
      rw [hmarks] at hlatest
      exact .inl ⟨rfl, dropMark_error hlatest⟩
  | cons e rest =>
      rw [hmarks] at hlatest
      dsimp only at hlatest
      refine .inr ⟨e, rest, rfl, ?_⟩
      by_cases hsame : e.record = m.record
      · rw [if_pos hsame] at hlatest
        exact .inr ⟨hsame, dropMark_ok hlatest⟩
      · rw [if_neg hsame] at hlatest
        exact .inl ⟨hsame, dropMark_error hlatest⟩

theorem act_rewind (h : Disciplined a S) (m : Mark) :
    Disciplined (after (rewind m a)) (S.released m.direction (rewind m a)) := by
  rcases h.rewind_cases m with ⟨-, -, hrewind⟩ |
    ⟨hunlocked, ⟨-, hrewind⟩ | ⟨e, rest, hmarks, ⟨-, hrewind⟩ | ⟨-, hrewind⟩⟩⟩
  · rwa [hrewind]
  · rwa [hrewind]
  · rwa [hrewind]
  · have hrewound := h.rewound hmarks hunlocked
    rw [hrewind, Stacks.released, hmarks]
    exact hrewound

theorem act_dropMark (h : Disciplined a S) (m : Mark) :
    Disciplined (after (dropMark m a)) (S.released m.direction (dropMark m a)) := by
  rcases h.dropMark_cases m with ⟨-, hdrop⟩ | ⟨e, rest, hmarks, ⟨-, hdrop⟩ | ⟨-, hdrop⟩⟩
  · rwa [hdrop]
  · rwa [hdrop]
  · have hdropped := h.dropped hmarks
    rw [hdrop, Stacks.released, hmarks]
    exact hdropped

theorem lock_cases (a : Arena) :
    (∃ e, lock a = .error e a) ∨ a.hold = none ∧ lock a = .ok ⟨a.nextLock⟩
      { a with
        hold := some { id := a.nextLock, start := a.forward, reserved := none }
        nextLock := if a.nextLock = maxLock then 1 else a.nextLock + 1 } := by
  cases hhold : a.hold with
  | none => exact .inr ⟨rfl, lock_ok hhold⟩
  | some hold => exact .inl ⟨.locked, by simp [lock, isLocked, hhold]⟩

theorem act_lock (h : Disciplined a S) : Disciplined (after (lock a)) S := by
  rcases lock_cases a with ⟨e, hlock⟩ | ⟨hhold, hlock⟩
  · rwa [hlock]
  · rw [hlock]
    have hlocked := @forward_grown _ S h a.forward
      (some { id := a.nextLock, start := a.forward, reserved := none })
      (fun held hsome => by cases hsome; rfl) h.settled h.cursors
    exact hlocked.renumbered a.directions _

theorem held_cases (l : Lock) (a : Arena) :
    (∃ hold, a.hold = some hold ∧ consult (·.held l) a = .ok hold a) ∨
      consult (·.held l) a = .error .lockNotHeld a := by
  rw [consult, held]
  cases hhold : a.hold with
  | none => exact .inr rfl
  | some hold =>
      dsimp only
      by_cases hid : hold.id = l.id
      · rw [if_pos hid]
        exact .inl ⟨hold, rfl, rfl⟩
      · rw [if_neg hid]
        exact .inr rfl

/-- Where the next reservation begins. -/
theorem start_eq {hold : Hold} (hhold : a.hold = some hold) :
    (if hold.reserved.isSome then hold.start else a.forward) = a.settled .forward := by
  cases hreserved : hold.reserved with
  | none => exact (settled_of_closed (closed_of_some hhold hreserved)).symm
  | some n => exact (settled_of_open hhold hreserved).symm

/-- A reservation is refused and nothing happens, or the bytes are set aside. -/
theorem reserve_cases (l : Lock) (count : Nat) (a : Arena) :
    (∃ e, reserve l count a = .error e a) ∨ ∃ hold, a.hold = some hold ∧
      count ≤ a.backward - a.settled .forward ∧
      reserve l count a = .ok ⟨a.settled .forward, count⟩
        { a with
          forward := a.settled .forward + count
          hold := some { hold with start := a.settled .forward, reserved := some count } } := by
  rcases held_cases l a with ⟨hold, hhold, hheld⟩ | hheld
  · have hreserve : reserve l count a =
        if count ≤ a.backward - a.settled .forward then
          .ok ⟨a.settled .forward, count⟩
            { a with
              forward := a.settled .forward + count
              hold := some { hold with start := a.settled .forward, reserved := some count } }
        else .error (.outOfMemory count a.free) a := by
      refine (bind_ok hheld).trans ?_
      dsimp only
      rw [start_eq hhold]
    by_cases hfree : count ≤ a.backward - a.settled .forward
    · rw [if_pos hfree] at hreserve
      exact .inr ⟨hold, hhold, hfree, hreserve⟩
    · rw [if_neg hfree] at hreserve
      exact .inl ⟨_, hreserve⟩
  · exact .inl ⟨_, bind_error hheld⟩

theorem act_reserve (h : Disciplined a S) (l : Lock) (count : Nat) :
    Disciplined (after (reserve l count a)) S := by
  have hcursors := h.cursors
  have hsettled := h.settled
  rcases reserve_cases l count a with ⟨e, hreserve⟩ | ⟨hold, hhold, hfree, hreserve⟩
  · rwa [hreserve]
  · rw [hreserve]
    exact h.set_aside hold.id (by omega)

/-- A claim is refused and nothing happens, or the reservation is closed. -/
theorem claim_cases (l : Lock) (count : Nat) (a : Arena) :
    (∃ e, claim l count a = .error e a) ∨ ∃ hold n, a.hold = some hold ∧
      hold.reserved = some n ∧ count ≤ n ∧
      claim l count a = .ok ⟨hold.start, count⟩
        { a with forward := hold.start + count, hold := some { hold with reserved := none } } := by
  rcases held_cases l a with ⟨hold, hhold, hheld⟩ | hheld
  · rw [claim, bind_ok hheld]
    cases hreserved : hold.reserved with
    | none => exact .inl ⟨_, rfl⟩
    | some n =>
        dsimp only
        by_cases hle : count ≤ n
        · rw [if_pos hle]
          exact .inr ⟨hold, n, hhold, hreserved, hle, rfl⟩
        · rw [if_neg hle]
          exact .inl ⟨_, rfl⟩
  · exact .inl ⟨_, by rw [claim, bind_error hheld]⟩

theorem act_claim (h : Disciplined a S) (l : Lock) (count : Nat) :
    Disciplined (after (claim l count a)) S := by
  have hcursors := h.cursors
  rcases claim_cases l count a with ⟨e, hclaim⟩ | ⟨hold, n, hhold, hreserved, hle, hclaim⟩
  · rwa [hclaim]
  · have hforward := h.reserved hold n hhold hreserved
    rw [hclaim]
    refine h.forward_grown (fun held hsome => by cases hsome; rfl) ?_
      (show hold.start + count ≤ a.backward by omega)
    rw [settled_of_open hhold hreserved]
    exact Nat.le_add_right ..

/-- A push is refused and nothing happens, or it allocates under the lock. -/
theorem push_cases (l : Lock) (count : Nat) (a : Arena) :
    (∃ e, push l count a = .error e a) ∨ ∃ hold, a.hold = some hold ∧ hold.reserved = none ∧
      count ≤ a.free ∧
      push l count a = .ok ⟨a.forward, count⟩ { a with forward := a.forward + count } := by
  rcases held_cases l a with ⟨hold, hhold, hheld⟩ | hheld
  · rw [push, bind_ok hheld]
    cases hreserved : hold.reserved with
    | none =>
        rw [if_neg (by simp)]
        by_cases hfree : count ≤ a.free
        · rw [advance, if_pos hfree]
          exact .inr ⟨hold, hhold, hreserved, hfree, rfl⟩
        · rw [advance, if_neg hfree]
          exact .inl ⟨_, rfl⟩
    | some n =>
        rw [if_pos (by simp)]
        exact .inl ⟨_, rfl⟩
  · exact .inl ⟨_, by rw [push, bind_error hheld]⟩

theorem act_push (h : Disciplined a S) (l : Lock) (count : Nat) :
    Disciplined (after (push l count a)) S := by
  have hcursors := h.cursors
  rcases push_cases l count a with ⟨e, hpush⟩ | ⟨hold, hhold, hreserved, hfree, hpush⟩
  · rwa [hpush]
  · rw [free] at hfree
    rw [hpush]
    exact h.forward_grown (closed_of_some hhold hreserved)
      (Nat.le_trans h.settled (Nat.le_add_right ..)) (show a.forward + count ≤ a.backward by omega)

/-- The lock is not given back and nothing happens, or nothing stays set aside. -/
theorem unlock_cases (l : Lock) (a : Arena) :
    (∃ e, unlock l a = .error e a) ∨ ∃ hold, a.hold = some hold ∧
      unlock l a = .ok () { a with forward := a.settled .forward, hold := none } := by
  rcases held_cases l a with ⟨hold, hhold, hheld⟩ | hheld
  · refine .inr ⟨hold, hhold, ?_⟩
    rw [unlock, bind_ok hheld, ← start_eq hhold]
    rfl
  · exact .inl ⟨_, by rw [unlock, bind_error hheld]⟩

theorem act_unlock (h : Disciplined a S) (l : Lock) : Disciplined (after (unlock l a)) S := by
  rcases unlock_cases l a with ⟨e, hunlock⟩ | ⟨hold, -, hunlock⟩
  · rwa [hunlock]
  · rw [hunlock]
    exact h.forward_grown (closed_of_none rfl) (Nat.le_refl _) (Nat.le_trans h.settled h.cursors)

theorem act_pushDirection (h : Disciplined a S) (d : Direction) :
    Disciplined (after (pushDirection d a)) S := by
  rw [pushDirection]
  split
  · exact h.renumbered (d :: a.directions) a.nextLock
  · exact h

theorem act_popDirection (h : Disciplined a S) : Disciplined (after (popDirection a)) S := by
  rw [popDirection]
  split
  · exact h.renumbered _ a.nextLock
  · exact h

theorem act_zero (h : Disciplined a S) : Disciplined a.zeroFree S := by
  have hcursors := h.cursors
  refine h.written (h.spares_between h.settled ?_)
  rw [List.length_replicate, free]
  omega

theorem act_write (h : Disciplined a S) {offset : Nat} {bytes : List UInt8}
    (hspares : (Request.write offset bytes).Spares S) :
    Disciplined (after (write offset bytes a)) S := by
  rw [Arena.write]
  split
  · cases bytes with
    | nil => exact h
    | cons b rest =>
        refine h.written fun d e he => ?_
        -- If the bytes and the record had an offset in common, the larger beginning would be one.
        have hmax := hspares d e he (e.record - offset)
        simp only [List.length_cons, markLength] at hmax ⊢
        omega
  · exact h

/-- Every request keeps the stacks, granted or not. -/
theorem act (h : Disciplined a S) (r : Request) (hspares : r.Spares S) :
    Disciplined (r.act a) (r.track S a) := by
  cases r with
  | alloc d count => exact h.act_alloc d count
  | allocDefault count => exact h.act_alloc a.direction count
  | mark d => exact h.act_mark d
  | markDefault => exact h.act_mark a.direction
  | rewind m => exact h.act_rewind m
  | dropMark m => exact h.act_dropMark m
  | pushDirection d => exact h.act_pushDirection d
  | popDirection => exact h.act_popDirection
  | lock => exact h.act_lock
  | reserve l count => exact h.act_reserve l count
  | claim l count => exact h.act_claim l count
  | push l count => exact h.act_push l count
  | unlock l => exact h.act_unlock l
  | zero => exact h.act_zero
  | write offset bytes => exact h.act_write hspares

end Requests

end Disciplined

end Arena

end FlatLisp
