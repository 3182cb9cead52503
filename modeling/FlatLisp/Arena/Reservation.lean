/-
Module: FlatLisp.Arena.Reservation
Purpose: Locks on the forward cursor. The holder of the lock may set bytes aside, keep a part of
  them, and allocate; everybody else is refused until the lock is given back.
Main exports: Lock, Arena.lock, Arena.reserve, Arena.claim, Arena.push, Arena.unlock
-/
import FlatLisp.Arena.Basic

namespace FlatLisp

/-- A token for the lock on the forward cursor. -/
structure Lock where
  id : Nat
deriving DecidableEq, Repr, Inhabited

namespace Arena

/-- The largest identity of a lock; the one after it is 1. -/
def maxLock : Nat := 65535

/-- Take the lock on the forward cursor. -/
def lock : ArenaM Lock := fun a =>
  if a.isLocked then .error .locked a
  else
    .ok ⟨a.nextLock⟩
      { a with
        hold := some { id := a.nextLock, start := a.forward, reserved := none }
        nextLock := if a.nextLock = maxLock then 1 else a.nextLock + 1 }

/-- The state of the lock, for the one who holds it. -/
def held (a : Arena) (l : Lock) : Except ArenaError Hold :=
  match a.hold with
  | some h => if h.id = l.id then .ok h else .error .lockNotHeld
  | none => .error .lockNotHeld

/-- Set `count` bytes aside on the forward cursor. While a reservation is open, it is resized in
place. As with `Arena.free`, the cursors are taken to be in order. -/
def reserve (l : Lock) (count : Nat) : ArenaM Span := do
  let h ← consult (·.held l)
  fun a =>
    let start := if h.reserved.isSome then h.start else a.forward
    if count ≤ a.backward - start then
      .ok ⟨start, count⟩
        { a with forward := start + count, hold := some { h with start, reserved := some count } }
    else
      .error (.outOfMemory count a.free) a

/-- Keep the first `count` bytes of the open reservation and give the rest back. -/
def claim (l : Lock) (count : Nat) : ArenaM Span := do
  let h ← consult (·.held l)
  match h.reserved with
  | none => throw .noReservation
  | some reserved =>
      if count ≤ reserved then
        modify fun a =>
          { a with forward := h.start + count, hold := some { h with reserved := none } }
        return ⟨h.start, count⟩
      else
        throw (.claimTooLarge (min count 65535) reserved)

/-- Allocate on the forward cursor under the lock. -/
def push (l : Lock) (count : Nat) : ArenaM Span := do
  let h ← consult (·.held l)
  if h.reserved.isSome then throw .reservationOpen else advance .forward count

/-- Give the lock back, and with it an unclaimed reservation. -/
def unlock (l : Lock) : ArenaM Unit := do
  let h ← consult (·.held l)
  modify fun a =>
    { a with forward := if h.reserved.isSome then h.start else a.forward, hold := none }

end Arena

end FlatLisp
