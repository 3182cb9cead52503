/-
Module: FlatLisp.Proofs.Cell.Loops
Purpose: What the loops of traversals are made of. A loop takes step after step until one of them gives
  the result; between a mark and its unwinding it is a loop as well. What it keeps of the open lists is
  one offset, that of the innermost counter, and everything else is read back from memory.
Main exports: Loop, Loop.Leads, Loop.Ends, Loop.borrowing, Loop.ends_borrow, Counter.load, Cell.Cursor,
  Cell.Pace, Cell.Topped
-/
import FlatLisp.Proofs.Cell.Order

namespace FlatLisp

/-! ### Loops -/

/-- What comes of one step of a loop. -/
inductive LoopStep (α β : Type) where
  /-- The loop goes on. -/
  | next (x : α)
  /-- This is the result. -/
  | stop (result : β)
  /-- A number would fall below zero. -/
  | stuck

/-- One step of a loop from a state that it keeps for itself. -/
abbrev Loop (ε σ α β : Type) := α → EStateM ε σ (LoopStep α β)

namespace Loop

variable {ε σ α β : Type} {loop : Loop ε σ α β} {m n : Nat} {x y z : α} {s t u : σ}
  {result : EStateM.Result ε σ β}

/-- After `n` steps the loop goes on from `y`. -/
inductive Leads (loop : Loop ε σ α β) : (n : Nat) → α → σ → α → σ → Prop where
  | refl {x : α} {s : σ} : Leads loop 0 x s x s
  | step {n : Nat} {x y z : α} {s t u : σ} (hstep : loop x s = .ok (.next y) t)
      (hrest : Leads loop n y t z u) : Leads loop (n + 1) x s z u

/-- The `n`-th step is the last, and gives the result. -/
inductive Ends (loop : Loop ε σ α β) : (n : Nat) → α → σ → EStateM.Result ε σ β → Prop where
  | next {n : Nat} {x y : α} {s t : σ} {result : EStateM.Result ε σ β}
      (hstep : loop x s = .ok (.next y) t) (hrest : Ends loop n y t result) :
      Ends loop (n + 1) x s result
  | stop {x : α} {s t : σ} {value : β} (hstep : loop x s = .ok (.stop value) t) :
      Ends loop 1 x s (.ok value t)
  | failed {x : α} {s t : σ} {e : ε} (hstep : loop x s = .error e t) :
      Ends loop 1 x s (.error e t)

theorem Leads.one (hstep : loop x s = .ok (.next y) t) : Leads loop 1 x s y t :=
  .step hstep .refl

theorem Leads.trans (h : Leads loop m x s y t) (hrest : Leads loop n y t z u) :
    Leads loop (m + n) x s z u := by
  induction h with
  | refl => rwa [Nat.zero_add]
  | step hstep _ ih =>
      rw [Nat.add_right_comm]
      exact .step hstep (ih hrest)

theorem Ends.after (hrest : Ends loop n y t result) (h : Leads loop m x s y t) :
    Ends loop (m + n) x s result := by
  induction h with
  | refl => rwa [Nat.zero_add]
  | step hstep _ ih =>
      rw [Nat.add_right_comm]
      exact .next hstep (ih hrest)

/-! ### Between a mark and its unwinding -/

/-- Where a loop is that takes a mark first and unwinds it in the end. -/
inductive Scope (ε α β : Type) where
  | enter (x : α)
  | inside (mark : Mark) (x : α)
  | leave (mark : Mark) (answer : Except ε β)

variable [MonadLiftT ArenaM (EStateM ε σ)]

/-- The loop between a mark and its unwinding, whatever it comes to. -/
def borrowing (loop : Loop ε σ α β) : Loop ε σ (Scope ε α β) β
  | .enter x => do
      let mark ← (Arena.mark .backward : ArenaM Mark)
      return .next (.inside mark x)
  | .inside mark x => do
      match ← attempt (loop x) with
      | .ok (.next y) => return .next (.inside mark y)
      | .ok (.stop result) => return .next (.leave mark (.ok result))
      | .ok .stuck => return .stuck
      | .error e => return .next (.leave mark (.error e))
  | .leave mark answer => do
      (Arena.unwind mark.record : ArenaM Unit)
      match answer with
      | .ok result => return .stop result
      | .error e => throw e

/-- Inside it is the loop that takes the steps. -/
theorem Ends.inside (h : Ends loop n x s result) (mark : Mark) :
    ∃ answer t, attempt (fun _ => result : EStateM ε σ β) s = .ok answer t ∧
      Leads (borrowing loop) n (.inside mark x) s (.leave mark answer) t := by
  induction h with
  | next hstep _ ih =>
      obtain ⟨answer, u, hanswer, hleads⟩ := ih
      refine ⟨answer, u, hanswer, .step ?_ hleads⟩
      rw [borrowing, bind_ok (attempt_ok hstep)]
      rfl
  | stop hstep =>
      refine ⟨_, _, rfl, .one ?_⟩
      rw [borrowing, bind_ok (attempt_ok hstep)]
      rfl
  | failed hstep =>
      refine ⟨_, _, rfl, .one ?_⟩
      rw [borrowing, bind_ok (attempt_error hstep)]
      rfl

/-- Where the loop inside comes to what `body` does, the whole comes to what `body` does between a mark
and its unwinding. -/
theorem ends_borrow {limit : Nat} {body : EStateM ε σ β}
    (hinside : ∀ mark t, (liftM (Arena.mark .backward) : EStateM ε σ Mark) s = .ok mark t →
      ∃ n, n ≤ limit ∧ Ends loop n x t (body t)) :
    ∃ n, n ≤ limit + 2 ∧ Ends (borrowing loop) n (.enter x) s (Arena.borrow body s) := by
  rw [Arena.borrow]
  cases hmark : (liftM (Arena.mark .backward) : EStateM ε σ Mark) s with
  | error e t =>
      refine ⟨1, by omega, ?_⟩
      rw [bind_error hmark]
      exact .failed (bind_error hmark)
  | ok mark t =>
      obtain ⟨n, hle, hends⟩ := hinside mark t hmark
      obtain ⟨answer, u, hanswer, hleads⟩ := hends.inside mark
      have henter : Leads (borrowing loop) 1 (.enter x) s (.inside mark x) t := .one (bind_ok hmark)
      refine ⟨1 + n + 1, by omega, Ends.after ?_ (henter.trans hleads)⟩
      rw [bind_ok hmark, bind_ok (show attempt body t = .ok answer u from hanswer)]
      cases hunwind : (liftM (Arena.unwind mark.record) : EStateM ε σ Unit) u with
      | error e v =>
          rw [bind_error hunwind]
          exact .failed (bind_error hunwind)
      | ok _ v =>
          rw [bind_ok hunwind]
          cases answer with
          | ok value =>
              refine .stop ?_
              rw [borrowing, bind_ok hunwind]
              rfl
          | error e =>
              refine .failed ?_
              rw [borrowing, bind_ok hunwind]
              rfl

end Loop

/-! ### Counters in memory -/

namespace Counter

/-- Read `encode` back. -/
def decode (offset : Nat) : List UInt8 → Option Counter
  | [l0, l1, r0, r1, m0, m1, b0, b1, s0, p0, p1, s1, q0, q1] => do
      return {
        left := Word.value l0 l1
        right := Word.value r0 r1
        mark := ⟨.backward, Word.value m0 m1⟩
        below := Word.value b0 b1
        resumeLeft := ← Place.decode s0 p0 p1
        resumeRight := ← Place.decode s1 q0 q1
        offset }
  | _ => none

/-- The counter whose frame is at an offset. -/
def load (a : Arena) (offset : Nat) : Except Fault Counter := do
  match decode offset (← (a.bytes offset frameLength).mapError .arena) with
  | some c => return c
  | none => .error (.corruptContext offset)

/-- The numbers of a counter are within the widths of their fields. -/
structure Fits (c : Counter) : Prop where
  left : c.left < 65536
  right : c.right < 65536
  direction : c.mark.direction = .backward
  record : c.mark.record < 65536
  below : c.below < 65536
  resumeLeft : ∀ p ∈ c.resumeLeft, p.offset < 65536
  resumeRight : ∀ p ∈ c.resumeRight, p.offset < 65536

/-- A counter that fits is read back from its bytes. -/
theorem decode_encode {c : Counter} (h : c.Fits) : decode c.offset c.encode = some c := by
  obtain ⟨left, right, ⟨direction, record⟩, below, resumeLeft, resumeRight, offset⟩ := c
  obtain ⟨s₀, p₀, p₁, hleft, hleft'⟩ := Place.exists_encode h.resumeLeft
  obtain ⟨s₁, q₀, q₁, hright, hright'⟩ := Place.exists_encode h.resumeRight
  obtain rfl : direction = .backward := h.direction
  dsimp only at hleft hleft' hright hright'
  have hbytes : Counter.encode ⟨left, right, ⟨.backward, record⟩, below, resumeLeft, resumeRight,
      offset⟩ = Word.bytes left ++ Word.bytes right ++ Word.bytes record ++ Word.bytes below ++
        [s₀, p₀, p₁] ++ [s₁, q₀, q₁] := by
    rw [encode, hleft, hright]
  rw [hbytes]
  simp only [Word.bytes, List.cons_append, List.nil_append, decode, hleft', hright',
    Word.value_bytes h.left, Word.value_bytes h.right, Word.value_bytes h.record,
    Word.value_bytes h.below]
  rfl

end Counter

namespace Cell

open Arena (Piled pileTop pileMark)

/-- What the loop of a traversal keeps for itself. -/
structure Cursor (π : Type) where
  /-- Where it is. -/
  place : π
  /-- The counter of the innermost open list; zero for none. -/
  top : Nat
  /-- The number of open lists. -/
  depth : Nat

/-- What the loop of a traversal does next. -/
inductive Pace (π : Type) where
  /-- Look at what is at the cursor. -/
  | look (c : Cursor π)
  /-- Count what ends at the cursor in the innermost open list. -/
  | count (c : Cursor π)

variable {b a : Arena} {entries : List (List UInt8)} {c : Counter}

/-- The counter `c` is the innermost entry, and can be read back. -/
structure Topped (b : Arena) (entries : List (List UInt8)) (c : Counter) (a : Arena) : Prop where
  piled : Piled b (c.encode :: entries) a
  counts : Counts b entries c c.encode
  fits : c.Fits

section Topped

variable (hb : b.Bounded)

include hb

/-- No counter is at offset zero, which stands for none. -/
theorem Topped.offset_ne_zero (h : Topped b entries c a) : c.offset ≠ 0 := by
  have hroom := h.piled.room
  have htop := h.piled.top_add
  have hheader := hb.header
  simp only [Arena.headerLength] at hheader
  rw [h.counts.offset]
  omega

theorem Topped.load (h : Topped b entries c a) : Counter.load a c.offset = .ok c := by
  have hbytes := h.piled.bytes_ok hb
  rw [Counter.length_encode, ← h.counts.offset] at hbytes
  rw [Counter.load, hbytes]
  simp only [mapError_ok, bind, Except.bind, Counter.decode_encode h.fits, pure, Except.pure]

theorem Topped.update (h : Topped b entries c a) {left right : Nat} (hleft : left < 65536)
    (hright : right < 65536) :
    ∃ a', Counter.update { c with left, right } a = .ok () a' ∧
      Topped b entries { c with left, right } a' := by
  obtain ⟨a', hupdate, hcounts, hpiled⟩ := h.counts.update_ok hb h.piled left right
  exact ⟨a', hupdate, hpiled, ⟨hcounts.length, hcounts.offset, hcounts.mark⟩, hleft, hright,
    h.fits.direction, h.fits.record, h.fits.below, h.fits.resumeLeft, h.fits.resumeRight⟩

theorem Topped.pop (h : Topped b entries c a) :
    ∃ a', c.pop a = .ok () a' ∧ Piled b entries a' :=
  h.counts.pop_ok hb h.piled

/-- A list is opened, or there is no memory for its counter. -/
theorem push_cases (hpiled : Piled b entries a) {below left right : Nat}
    {resumeLeft resumeRight : Option Place} (hbelow : below < 65536) (hleft : left < 65536)
    (hright : right < 65536) (hresumeLeft : ∀ p ∈ resumeLeft, p.offset < 65536)
    (hresumeRight : ∀ p ∈ resumeRight, p.offset < 65536) :
    (∃ e a', Counter.push below left right resumeLeft resumeRight a = .error e a') ∨
      ∃ c a', Counter.push below left right resumeLeft resumeRight a = .ok c a' ∧
        c.left = left ∧ c.right = right ∧ c.below = below ∧ c.resumeLeft = resumeLeft ∧
        c.resumeRight = resumeRight ∧ Topped b entries c a' := by
  rcases opened_ok hb hpiled below left right resumeLeft resumeRight with
    ⟨e, a', more, -, -, hpush, -⟩ | ⟨c, a', rfl, hcounts, hpiled', hpush⟩
  · exact .inl ⟨e, a', hpush⟩
  · have hrecord : pileTop b entries - Arena.markLength < 65536 :=
      Nat.lt_of_le_of_lt (Nat.sub_le ..) (Piled.pileTop_lt hb entries)
    exact .inr ⟨_, a', hpush, rfl, rfl, rfl, rfl, rfl, hpiled', hcounts, hleft, hright, rfl, hrecord,
      hbelow, hresumeLeft, hresumeRight⟩

end Topped

end Cell

end FlatLisp
