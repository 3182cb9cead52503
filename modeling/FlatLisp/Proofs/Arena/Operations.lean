/-
Module: FlatLisp.Proofs.Arena.Operations
Purpose: What each request to an arena answers and leaves behind, one law for each case, and how
  such laws are put together along a computation.
Main exports: Arena.Bounded, EStateM.bind_ok, EStateM.bind_error, Arena.alloc_forward_ok,
  Arena.mark_backward_ok, Arena.rewind_backward_ok, Arena.lock_ok, Arena.reserve_ok, Arena.claim_ok,
  Arena.unlock_ok, Arena.write_ok, Cell.load_ok
-/
import FlatLisp.Cell.Access
import FlatLisp.Arena.Reservation
import FlatLisp.Proofs.Cell.Tree
import FlatLisp.Proofs.Memory

namespace FlatLisp

/-! ### Computations step by step -/

section Steps

variable {ε σ α β : Type}

/-- A step that succeeds hands its result on. -/
theorem bind_ok {x : EStateM ε σ α} {f : α → EStateM ε σ β} {s s' : σ} {y : α}
    (h : x s = .ok y s') : (x >>= f) s = f y s' := by
  simp only [bind, EStateM.bind, h]

/-- A step that fails ends the computation. -/
theorem bind_error {x : EStateM ε σ α} {f : α → EStateM ε σ β} {s s' : σ} {e : ε}
    (h : x s = .error e s') : (x >>= f) s = .error e s' := by
  simp only [bind, EStateM.bind, h]

/-- A computation may look at its state first. -/
theorem get_bind (f : σ → EStateM ε σ β) (s : σ) : ((get : EStateM ε σ σ) >>= f) s = f s s := rfl

/-- The state that a computation leaves, whether it succeeds or fails. -/
def after : EStateM.Result ε σ α → σ
  | .ok _ s => s
  | .error _ s => s

/-- What a computation comes to, the state that it leaves apart. -/
def verdictOf : EStateM.Result ε σ α → Except ε α
  | .ok x _ => .ok x
  | .error e _ => .error e

theorem eq_ok_of_verdict {result : EStateM.Result ε σ α} {x : α} (h : verdictOf result = .ok x) :
    result = .ok x (after result) := by
  cases result with
  | ok y s =>
      cases h
      rfl
  | error e s => contradiction

theorem eq_error_of_verdict {result : EStateM.Result ε σ α} {e : ε}
    (h : verdictOf result = .error e) : result = .error e (after result) := by
  cases result with
  | ok y s => contradiction
  | error e' s =>
      cases h
      rfl

theorem attempt_ok {x : EStateM ε σ α} {s s' : σ} {y : α} (h : x s = .ok y s') :
    attempt x s = .ok (.ok y) s' := by
  simp only [attempt, h]

theorem attempt_error {x : EStateM ε σ α} {s s' : σ} {e : ε} (h : x s = .error e s') :
    attempt x s = .ok (.error e) s' := by
  simp only [attempt, h]

end Steps

section MapError

variable {ε ε' α : Type} (f : ε → ε')

@[simp] theorem mapError_ok (x : α) : (Except.ok x : Except ε α).mapError f = .ok x := rfl

@[simp] theorem mapError_error (e : ε) :
    (Except.error e : Except ε α).mapError f = .error (f e) := rfl

end MapError

namespace Arena

/-- The cursors and the chain of backward marks are where an arena can have them. -/
structure Bounded (a : Arena) : Prop where
  header : headerLength ≤ a.forward
  cursors : a.forward ≤ a.backward
  backward : a.backward ≤ a.capacity
  capacity : a.capacity ≤ maxCapacity
  backwardMark : a.backwardMark < 65536

/-- A fresh arena is bounded, with nothing held. -/
theorem bounded_create {size : Nat} {a : Arena} (h : create size = .ok a) : a.Bounded := by
  unfold create at h
  split at h
  · rename_i hsize
    injection h with h
    subst h
    obtain ⟨hmin, hmax⟩ := hsize
    simp only [minCapacity] at hmin
    refine ⟨Nat.le_refl _, ?_, ?_, ?_, Nat.zero_lt_succ _⟩
    · simp only [headerLength]
      omega
    · simp [Arena.capacity]
    · simpa [Arena.capacity] using hmax
  · contradiction

/-! ### Bytes -/

theorem live_of_below {a : Arena} {offset count : Nat} (hlow : headerLength ≤ offset)
    (hhigh : offset + count ≤ a.forward) : a.Live offset count :=
  .inl ⟨hlow, hhigh⟩

theorem live_of_above {a : Arena} {offset count : Nat} (hlow : a.backward ≤ offset)
    (hhigh : offset + count ≤ a.capacity) : a.Live offset count :=
  .inr ⟨hlow, hhigh⟩

theorem write_ok {a : Arena} {offset : Nat} {new : List UInt8} (h : a.Live offset new.length) :
    write offset new a = .ok () { a with memory := a.memory.write offset new } := by
  rw [write, if_pos h]

theorem bytes_ok {a : Arena} {offset : Nat} {bytes : List UInt8}
    (hlive : a.Live offset bytes.length) (hheld : a.memory.Holds offset bytes) :
    a.bytes offset bytes.length = .ok bytes := by
  rw [Arena.bytes, if_pos hlive, hheld.slice_eq]

/-! ### Allocation -/

theorem demandUnlocked_ok {a : Arena} {d : Direction} (h : d = .forward → a.hold = none) :
    demandUnlocked d a = .ok () a := by
  cases d with
  | forward => simp [demandUnlocked, isLocked, h rfl]
  | backward => rfl

theorem demandUnlocked_locked {a : Arena} {hold : Hold} (h : a.hold = some hold) :
    demandUnlocked .forward a = .error .locked a := by
  simp [demandUnlocked, isLocked, h]

theorem alloc_forward_ok {a : Arena} {count : Nat} (hhold : a.hold = none) (h : count ≤ a.free) :
    alloc .forward count a = .ok ⟨a.forward, count⟩ { a with forward := a.forward + count } := by
  rw [alloc, bind_ok (demandUnlocked_ok fun _ => hhold), advance, if_pos h]

theorem alloc_forward_full {a : Arena} {count : Nat} (hhold : a.hold = none) (h : a.free < count) :
    alloc .forward count a = .error (.outOfMemory count a.free) a := by
  rw [alloc, bind_ok (demandUnlocked_ok fun _ => hhold), advance, if_neg (by omega)]

theorem alloc_backward_ok {a : Arena} {count : Nat} (h : count ≤ a.free) :
    alloc .backward count a =
      .ok ⟨a.backward - count, count⟩ { a with backward := a.backward - count } := by
  have hunlocked : demandUnlocked .backward a = .ok () a := rfl
  rw [alloc, bind_ok hunlocked, advance, if_pos h]

theorem alloc_backward_full {a : Arena} {count : Nat} (h : a.free < count) :
    alloc .backward count a = .error (.outOfMemory count a.free) a := by
  have hunlocked : demandUnlocked .backward a = .ok () a := rfl
  rw [alloc, bind_ok hunlocked, advance, if_neg (by omega)]

/-! ### Marks -/

/-- The arena after a backward mark. -/
def marked (a : Arena) : Arena :=
  { a with
    memory := a.memory.write (a.backward - markLength)
      (Word.bytes a.backward ++ Word.bytes a.backwardMark)
    backward := a.backward - markLength
    backwardMark := a.backward - markLength }

theorem mark_backward_ok {a : Arena} (h : markLength ≤ a.free) :
    mark .backward a = .ok ⟨.backward, a.backward - markLength⟩ a.marked := by
  rw [mark, get_bind, bind_ok (alloc_backward_ok h)]
  rfl

theorem mark_backward_full {a : Arena} (h : a.free < markLength) :
    mark .backward a = .error (.outOfMemory markLength a.free) a := by
  rw [mark, get_bind, bind_error (alloc_backward_full h)]

/-- A record that is held in the arena is read from it. -/
theorem readRecord_ok {a : Arena} {record saved before : Nat} (hlive : a.Live record markLength)
    (hheld : a.memory.Holds record (Word.bytes saved ++ Word.bytes before))
    (hsaved : saved < 65536) (hbefore : before < 65536) :
    a.readRecord record = .ok (saved, before) := by
  have hsecond := hheld.right.word hbefore
  rw [Word.length_bytes, Nat.add_assoc] at hsecond
  rw [readRecord, if_pos hlive, hheld.left.word hsaved, hsecond]

/-- The most recent backward mark can be rewound. -/
theorem rewind_backward_ok {a : Arena} {record saved before : Nat} (hlast : a.backwardMark = record)
    (hzero : record ≠ 0) (hlive : a.Live record markLength)
    (hheld : a.memory.Holds record (Word.bytes saved ++ Word.bytes before))
    (hsaved : saved < 65536) (hbefore : before < 65536) :
    rewind ⟨.backward, record⟩ a = .ok () { a with backward := saved, backwardMark := before } := by
  have hunlocked : demandUnlocked .backward a = .ok () a := rfl
  have hlatest : consult (·.latest ⟨.backward, record⟩) a = .ok (saved, before) a := by
    simp only [consult, latest, lastMark, hlast]
    rw [if_neg hzero, if_neg (by simp), readRecord_ok hlive hheld hsaved hbefore]
  rw [rewind, bind_ok hunlocked, bind_ok hlatest]
  rfl

/-! ### Locks -/

theorem lock_ok {a : Arena} (hhold : a.hold = none) :
    lock a = .ok ⟨a.nextLock⟩
      { a with
        hold := some { id := a.nextLock, start := a.forward, reserved := none }
        nextLock := if a.nextLock = maxLock then 1 else a.nextLock + 1 } := by
  rw [lock, if_neg (by simp [isLocked, hhold])]

theorem held_ok {a : Arena} {h : Hold} (hhold : a.hold = some h) :
    consult (·.held ⟨h.id⟩) a = .ok h a := by
  simp [consult, held, hhold]

/-- The first reservation under a lock. -/
theorem reserve_ok {a : Arena} {h : Hold} (count : Nat) (hhold : a.hold = some h)
    (hnone : h.reserved = none) (hfree : count ≤ a.free) :
    reserve ⟨h.id⟩ count a = .ok ⟨a.forward, count⟩
      { a with
        forward := a.forward + count
        hold := some { h with start := a.forward, reserved := some count } } := by
  refine (bind_ok (held_ok hhold)).trans ?_
  simp only [hnone, Option.isSome_none, Bool.false_eq_true, if_false]
  rw [if_pos (show count ≤ a.backward - a.forward from hfree)]

theorem claim_ok {a : Arena} {h : Hold} {count reserved : Nat} (hhold : a.hold = some h)
    (hsome : h.reserved = some reserved) (hle : count ≤ reserved) :
    claim ⟨h.id⟩ count a = .ok ⟨h.start, count⟩
      { a with forward := h.start + count, hold := some { h with reserved := none } } := by
  rw [claim, bind_ok (held_ok hhold), hsome]
  dsimp only
  rw [if_pos hle]
  rfl

/-- Giving the lock back with no reservation open. -/
theorem unlock_ok {a : Arena} {h : Hold} (hhold : a.hold = some h) (hnone : h.reserved = none) :
    unlock ⟨h.id⟩ a = .ok () { a with hold := none } := by
  rw [unlock, bind_ok (held_ok hhold), hnone]
  rfl

end Arena

/-! ### Cells -/

namespace Cell

/-- A header that is held in the arena is loaded from it. -/
theorem load_ok {a : Arena} {ext : External} {offset : Nat} {h : Header} {rest : List UInt8}
    (hfits : h.Fits) (hlive : a.Live offset h.length)
    (hheld : a.memory.Holds offset (h.encode ++ rest)) :
    load a ext ⟨.arena, offset⟩ = .ok h := by
  have hlength : h.encode.length = h.length := h.length_encode
  have hone : a.Live offset 1 := by
    have := h.length_pos
    rcases hlive with hlive | hlive
    · exact .inl ⟨hlive.1, by omega⟩
    · exact .inr ⟨hlive.1, by omega⟩
  have hfirst : a.bytes offset 1 = .ok [UInt8.ofNat h.word] := by
    refine Arena.bytes_ok (show a.Live offset [UInt8.ofNat h.word].length from hone) ?_
    rw [h.encode_eq, Word.bytes, List.cons_append, List.cons_append] at hheld
    exact (show a.memory.Holds offset ([UInt8.ofNat h.word] ++ _) from hheld).left
  have hwhole : a.bytes offset h.length = .ok h.encode := by
    rw [← hlength] at hlive ⊢
    exact Arena.bytes_ok hlive hheld.left
  simp only [load, fetchByte, fetch, hfirst, hwhole, mapError_ok, bind, Except.bind, pure,
    Except.pure, List.headD_cons, h.lengthFor_encode, h.decode_encode hfits]

end Cell

end FlatLisp
