/-
Module: FlatLisp.Proofs.Arena.Stale
Purpose: Tokens that have outlived what they stood for. A mark is known by where its record is, and a
  lock by a number that is counted up and begins anew after the largest. A token that is stale is
  refused, and nothing happens, as long as its place or its number has not been given out again.
Main exports: Arena.Refused, Arena.Numbered, Arena.Numbered.nextLock, Arena.Numbered.heldBy,
  Arena.stale_refused, Arena.mark_retaken, Arena.lock_reissued
-/
import FlatLisp.Proofs.Arena.Course

namespace FlatLisp

namespace Arena

/-- The request fails and changes nothing. -/
def Refused {α : Type} (request : ArenaM α) (a : Arena) : Prop :=
  ∃ e, request a = .error e a

/-! ### Marks -/

section Marks

variable {Allowed : Arena → Request → Prop} {a : Arena} {S : Stacks} {m : Mark}

/-- A mark that is not on its chain is not given back. -/
theorem Disciplined.mark_refused (h : Disciplined a S) (hoff : m.record ∉ a.trail m.direction) :
    Refused (rewind m) a ∧ Refused (dropMark m) a := by
  have hother : ∀ e rest, S.of m.direction = e :: rest → e.record ≠ m.record := by
    intro e rest hmarks hsame
    apply hoff
    rw [h.trail_eq, hmarks, List.map_cons, hsame]
    exact List.mem_append_left _ (.head _)
  constructor
  · rcases h.rewind_cases m with ⟨-, -, hrewind⟩ |
      ⟨-, ⟨-, hrewind⟩ | ⟨e, rest, hmarks, ⟨-, hrewind⟩ | ⟨hsame, -⟩⟩⟩
    · exact ⟨_, hrewind⟩
    · exact ⟨_, hrewind⟩
    · exact ⟨_, hrewind⟩
    · exact (hother e rest hmarks hsame).elim
  · rcases h.dropMark_cases m with ⟨-, hdrop⟩ | ⟨e, rest, hmarks, ⟨-, hdrop⟩ | ⟨hsame, -⟩⟩
    · exact ⟨_, hdrop⟩
    · exact ⟨_, hdrop⟩
    · exact (hother e rest hmarks hsame).elim

/-- No record on a chain is written over, and no mark is taken where the record of `m` was. -/
def Leaves (m : Mark) (a : Arena) (r : Request) : Prop :=
  Careful a r ∧ Elsewhere m.direction m.record a r

end Marks

/-! ### Locks -/

/-- The identity of the lock that is held. -/
def heldBy (a : Arena) : Option Nat := a.hold.map (·.id)

/-- The identity of the lock that is taken after `n` others, the first of which has `id`. -/
def lockAfter (id n : Nat) : Nat := (id - 1 + n) % maxLock + 1

theorem lockAfter_zero {id : Nat} (hpos : 0 < id) (hmax : id ≤ maxLock) : lockAfter id 0 = id := by
  rw [lockAfter, Nat.add_zero, Nat.mod_eq_of_lt (by omega)]
  omega

theorem lockAfter_succ (id n : Nat) :
    (if lockAfter id n = maxLock then 1 else lockAfter id n + 1) = lockAfter id (n + 1) := by
  by_cases hlast : lockAfter id n = maxLock
  · rw [if_pos hlast]
    simp only [lockAfter, maxLock] at hlast ⊢
    omega
  · rw [if_neg hlast]
    simp only [lockAfter, maxLock] at hlast ⊢
    omega

theorem lockAfter_add (id m n : Nat) : lockAfter (lockAfter id m) n = lockAfter id (m + n) := by
  rw [lockAfter, lockAfter, lockAfter, Nat.add_sub_cancel, Nat.mod_add_mod, Nat.add_assoc]

theorem lockAfter_bounds (id n : Nat) : 0 < lockAfter id n ∧ lockAfter id n ≤ maxLock := by
  simp only [lockAfter, maxLock]
  omega

/-- Only after as many locks as there are identities does one come again. -/
theorem lockAfter_ne {id n : Nat} (hpos : 0 < id) (hmax : id ≤ maxLock) (hn : 0 < n)
    (hfew : n < maxLock) : lockAfter id n ≠ id := by
  simp only [lockAfter, maxLock] at hmax hfew ⊢
  omega

theorem lockAfter_max {id : Nat} (hpos : 0 < id) (hmax : id ≤ maxLock) :
    lockAfter id maxLock = id := by
  simp only [lockAfter, maxLock] at hmax ⊢
  omega

section Locks

variable {Allowed : Arena → Request → Prop} {a a' fresh : Arena} {S : Stacks} {x y z : Moment}
  {l : Lock} {size n : Nat}

/-- No lock is taken; one that is held may be given back. -/
structure Steady (a a' : Arena) : Prop where
  nextLock : a'.nextLock = a.nextLock
  heldBy : a'.heldBy = a.heldBy ∨ a'.hold = none

theorem Steady.of_hold (hnext : a'.nextLock = a.nextLock) (hhold : a'.hold = a.hold) :
    Steady a a' :=
  ⟨hnext, .inl (by rw [Arena.heldBy, Arena.heldBy, hhold])⟩

namespace Disciplined

theorem mark_steady (d : Direction) : Steady a (after (mark d a)) := by
  rcases mark_cases d a with ⟨e, hmark⟩ | ⟨-, -, hmark⟩
  · rw [hmark]
    exact .of_hold rfl rfl
  · rw [hmark]
    cases d with
    | forward => exact .of_hold rfl rfl
    | backward => exact .of_hold rfl rfl

theorem alloc_steady (d : Direction) (count : Nat) : Steady a (after (alloc d count a)) := by
  rcases alloc_cases d count a with ⟨e, halloc⟩ | ⟨-, -, halloc⟩
  · rw [halloc]
    exact .of_hold rfl rfl
  · rw [halloc]
    cases d with
    | forward => exact .of_hold rfl rfl
    | backward => exact .of_hold rfl rfl

theorem rewind_steady (h : Disciplined a S) (m : Mark) : Steady a (after (rewind m a)) := by
  rcases h.rewind_cases m with ⟨-, -, hrewind⟩ |
    ⟨-, ⟨-, hrewind⟩ | ⟨e, rest, -, ⟨-, hrewind⟩ | ⟨-, hrewind⟩⟩⟩
  · rw [hrewind]
    exact .of_hold rfl rfl
  · rw [hrewind]
    exact .of_hold rfl rfl
  · rw [hrewind]
    exact .of_hold rfl rfl
  · rw [hrewind]
    cases m.direction <;> exact .of_hold rfl rfl

theorem dropMark_steady (h : Disciplined a S) (m : Mark) : Steady a (after (dropMark m a)) := by
  rcases h.dropMark_cases m with ⟨-, hdrop⟩ | ⟨e, rest, -, ⟨-, hdrop⟩ | ⟨-, hdrop⟩⟩
  · rw [hdrop]
    exact .of_hold rfl rfl
  · rw [hdrop]
    exact .of_hold rfl rfl
  · rw [hdrop]
    cases m.direction <;> exact .of_hold rfl rfl

/-- Whoever holds the lock keeps it through a reservation. -/
theorem held_steady {hold hold' : Hold} (hhold : a.hold = some hold) (hhold' : a'.hold = some hold')
    (hid : hold'.id = hold.id) (hnext : a'.nextLock = a.nextLock) : Steady a a' := by
  refine ⟨hnext, .inl ?_⟩
  rw [Arena.heldBy, Arena.heldBy, hhold, hhold', Option.map_some, Option.map_some, hid]

/-- No request but one for the lock takes it, and that one not while it is held. -/
theorem act_steady (h : Disciplined a S) (r : Request) (hlock : r = .lock → a.hold ≠ none) :
    Steady a (r.act a) := by
  cases r with
  | alloc d count => exact alloc_steady d count
  | allocDefault count => exact alloc_steady a.direction count
  | mark d => exact mark_steady d
  | markDefault => exact mark_steady a.direction
  | rewind m => exact h.rewind_steady m
  | dropMark m => exact h.dropMark_steady m
  | zero => exact .of_hold rfl rfl
  | pushDirection d =>
      rw [Request.act, pushDirection]
      split <;> exact .of_hold rfl rfl
  | popDirection =>
      rw [Request.act, popDirection]
      split <;> exact .of_hold rfl rfl
  | write offset bytes =>
      rw [Request.act, write]
      split <;> exact .of_hold rfl rfl
  | lock =>
      rcases lock_cases a with ⟨e, htaken⟩ | ⟨hnone, -⟩
      · rw [Request.act, htaken]
        exact .of_hold rfl rfl
      · exact (hlock rfl hnone).elim
  | reserve l count =>
      rw [Request.act]
      rcases reserve_cases l count a with ⟨e, hreserve⟩ | ⟨hold, hhold, -, hreserve⟩
      · rw [hreserve]
        exact .of_hold rfl rfl
      · rw [hreserve]
        exact held_steady hhold rfl rfl rfl
  | claim l count =>
      rw [Request.act]
      rcases claim_cases l count a with ⟨e, hclaim⟩ | ⟨hold, reserved, hhold, -, -, hclaim⟩
      · rw [hclaim]
        exact .of_hold rfl rfl
      · rw [hclaim]
        exact held_steady hhold rfl rfl rfl
  | push l count =>
      rw [Request.act]
      rcases push_cases l count a with ⟨e, hpush⟩ | ⟨hold, -, -, -, hpush⟩
      · rw [hpush]
        exact .of_hold rfl rfl
      · rw [hpush]
        exact .of_hold rfl rfl
  | unlock l =>
      rw [Request.act]
      rcases unlock_cases l a with ⟨e, hunlock⟩ | ⟨hold, -, hunlock⟩
      · rw [hunlock]
        exact .of_hold rfl rfl
      · rw [hunlock]
        exact ⟨rfl, .inr rfl⟩

theorem unwind_steady (h : Disciplined a S) {record : Nat} (hzero : record ≠ 0) :
    Steady a (after (unwind record a)) := by
  rcases h.unwind_cases hzero with ⟨-, hunwind⟩ | ⟨newer, e, -, -, hunwind⟩
  · rw [hunwind]
    exact .of_hold rfl rfl
  · rw [hunwind]
    exact .of_hold rfl rfl

end Disciplined

/-- A step in which no lock is taken. -/
abbrev Idle (Allowed : Arena → Request → Prop) : Moment → Moment → Prop :=
  Next fun a r => Allowed a r ∧ (r = .lock → a.hold ≠ none)

theorem Ordered.idle_steady (h : Ordered x S) (hidle : Idle Allowed x y) :
    Steady x.arena y.arena := by
  cases hidle with
  | ask r hallowed => exact h.act_steady r hallowed.2
  | checkpoint => exact .of_hold rfl rfl
  | @restore c hc =>
      rcases Disciplined.restore_cases c x.arena with hrestore | ⟨-, hrestore⟩
      · rw [hrestore]
        exact .of_hold rfl rfl
      · rw [hrestore]
        exact ⟨rfl, .inr rfl⟩
  | enter hallowed hmark =>
      have hsteady := Disciplined.mark_steady (a := x.arena) .backward
      rwa [hmark] at hsteady
  | @leave record scopes hscopes =>
      exact h.unwind_steady (h.scopes record (hscopes ▸ List.mem_cons_self ..))

/-- One moment comes of another by steps among which `n` locks are taken. -/
inductive Numbered (Allowed : Arena → Request → Prop) (x : Moment) : (n : Nat) → Moment → Prop where
  | refl : Numbered Allowed x 0 x
  | lock {n : Nat} {y : Moment} (numbered : Numbered Allowed x n y)
      (hallowed : Allowed y.arena .lock) (hfree : y.arena.hold = none) :
      Numbered Allowed x (n + 1) (y.asked .lock)
  | idle {n : Nat} {y z : Moment} (numbered : Numbered Allowed x n y) (hidle : Idle Allowed y z) :
      Numbered Allowed x n z

namespace Numbered

theorem trans {k : Nat} (h : Numbered Allowed x n y) (h' : Numbered Allowed y k z) :
    Numbered Allowed x (n + k) z := by
  induction h' with
  | refl => exact h
  | lock _ hallowed hfree ih => exact ih.lock hallowed hfree
  | idle _ hidle ih => exact ih.idle hidle

theorem course (h : Numbered Allowed x n y) : Course Allowed x y := by
  induction h with
  | refl => exact .refl
  | lock _ hallowed _ ih => exact ih.tail (.ask .lock hallowed)
  | idle _ hidle ih =>
      refine ih.tail ?_
      cases hidle with
      | ask r hallowed => exact .ask r hallowed.1
      | checkpoint => exact .checkpoint
      | restore hc => exact .restore hc
      | enter hallowed hmark => exact .enter hallowed.1 hmark
      | leave hscopes => exact .leave hscopes

/-- In every course some number of locks is taken. -/
theorem of_course (h : Course Allowed x y) : ∃ n, Numbered Allowed x n y := by
  induction h with
  | refl => exact ⟨0, .refl⟩
  | @tail y z _ hnext ih =>
      obtain ⟨n, hnumbered⟩ := ih
      cases hnext with
      | ask r hallowed =>
          by_cases htaken : r = .lock ∧ y.arena.hold = none
          · obtain ⟨rfl, hfree⟩ := htaken
            exact ⟨n + 1, hnumbered.lock hallowed hfree⟩
          · exact ⟨n, hnumbered.idle (.ask r ⟨hallowed, fun hr hfree => htaken ⟨hr, hfree⟩⟩)⟩
      | checkpoint => exact ⟨n, hnumbered.idle .checkpoint⟩
      | restore hc => exact ⟨n, hnumbered.idle (.restore hc)⟩
      | enter hallowed hmark => exact ⟨n, hnumbered.idle (.enter ⟨hallowed, nofun⟩ hmark)⟩
      | leave hscopes => exact ⟨n, hnumbered.idle (.leave hscopes)⟩

/-- The identities count the locks. -/
theorem nextLock (h : Numbered Careful x n y) (hx : Ordered x S) (hpos : 0 < x.arena.nextLock)
    (hmax : x.arena.nextLock ≤ maxLock) : y.arena.nextLock = lockAfter x.arena.nextLock n := by
  induction h with
  | refl => exact (lockAfter_zero hpos hmax).symm
  | lock _ _ hfree ih =>
      rw [Moment.asked, Request.act, lock_ok hfree, ← lockAfter_succ, ← ih]
      rfl
  | idle hnumbered hidle ih =>
      obtain ⟨S', hy⟩ := hx.course hnumbered.course fun _ _ h => h
      exact (hy.idle_steady hidle).nextLock.trans ih

/-- A lock that is held was held before, or is one of those taken since. -/
theorem heldBy (h : Numbered Careful x n y) (hx : Ordered x S) (hpos : 0 < x.arena.nextLock)
    (hmax : x.arena.nextLock ≤ maxLock) {id : Nat} (hheld : y.arena.heldBy = some id) :
    x.arena.heldBy = some id ∨ ∃ k < n, id = lockAfter x.arena.nextLock k := by
  induction h with
  | refl => exact .inl hheld
  | @lock n y hnumbered _ hfree ih =>
      rw [Moment.asked, Request.act, lock_ok hfree] at hheld
      cases hheld
      exact .inr ⟨n, Nat.lt_succ_self n, hnumbered.nextLock hx hpos hmax⟩
  | @idle n y z hnumbered hidle ih =>
      obtain ⟨S', hy⟩ := hx.course hnumbered.course fun _ _ h => h
      rcases (hy.idle_steady hidle).heldBy with hsame | hnone
      · exact ih (hsame ▸ hheld)
      · rw [Arena.heldBy, hnone] at hheld
        contradiction

end Numbered

/-- Identities are counted from one to the largest. -/
theorem Numbered.bounds (hcreate : create size = .ok fresh)
    (h : Numbered Careful ⟨fresh, {}, []⟩ n x) :
    0 < x.arena.nextLock ∧ x.arena.nextLock ≤ maxLock := by
  have hone : fresh.nextLock = 1 := by
    rw [create] at hcreate
    split at hcreate
    · injection hcreate with hcreate
      rw [← hcreate]
    · contradiction
  have hnext := h.nextLock (ordered_create hcreate)
    (show 0 < fresh.nextLock by rw [hone]; exact Nat.one_pos)
    (show fresh.nextLock ≤ maxLock by rw [hone]; decide)
  rw [hnext]
  exact lockAfter_bounds _ _

/-- A lock that is not held is of no use. -/
theorem lock_refused (hoff : a.heldBy ≠ some l.id) (count : Nat) :
    Refused (reserve l count) a ∧ Refused (claim l count) a ∧ Refused (push l count) a ∧
      Refused (unlock l) a := by
  have hheld : consult (·.held l) a = .error .lockNotHeld a := by
    rw [consult, held]
    cases hhold : a.hold with
    | none => rfl
    | some hold =>
        have hother : hold.id ≠ l.id := by
          rw [heldBy, hhold] at hoff
          exact fun hsame => hoff (congrArg some hsame)
        dsimp only
        rw [if_neg hother]
  exact ⟨⟨_, bind_error hheld⟩, ⟨_, by rw [claim, bind_error hheld]⟩,
    ⟨_, by rw [push, bind_error hheld]⟩, ⟨_, by rw [unlock, bind_error hheld]⟩⟩

/-- The lock that was taken at `x` and is dropped at `y` is not held at `z`, unless as many locks as there
are identities have been taken since. -/
theorem heldBy_ne_of_dropped {i j : Nat} (hcreate : create size = .ok fresh)
    (hbefore : Course Careful ⟨fresh, {}, []⟩ x) (hlock : lock x.arena = .ok l a)
    (hsince : Numbered Careful (x.asked .lock) i y) (hdropped : y.arena.hold = none)
    (hrest : Numbered Careful y j z) (hfew : i + j < maxLock) : z.arena.heldBy ≠ some l.id := by
  obtain ⟨S, hx⟩ := (ordered_create hcreate).course hbefore fun _ _ h => h
  obtain ⟨k, hnumbered⟩ := Numbered.of_course hbefore
  obtain ⟨hpos, hmax⟩ := hnumbered.bounds hcreate
  rcases Disciplined.lock_cases x.arena with ⟨e, hrefused⟩ | ⟨hfree, hok⟩
  · rw [hlock] at hrefused
    contradiction
  · rw [hlock] at hok
    injection hok with hl
    have hfirst : Numbered Careful x 1 (x.asked .lock) := .lock .refl trivial hfree
    have htaken := hfirst.trans hsince
    obtain ⟨S', hy⟩ := hx.course htaken.course fun _ _ h => h
    have hnext := htaken.nextLock hx hpos hmax
    have hbounds := lockAfter_bounds x.arena.nextLock (1 + i)
    rw [← hnext] at hbounds
    intro hheld
    rcases hrest.heldBy hy hbounds.1 hbounds.2 hheld with hstill | ⟨k, hk, hsame⟩
    · rw [Arena.heldBy, hdropped] at hstill
      contradiction
    · rw [hnext, lockAfter_add, hl] at hsame
      exact lockAfter_ne hpos hmax (by omega) (by omega) hsame.symm

/-- Taking the lock and giving it back only counts the identity up. -/
theorem unlock_lock (hfree : a.hold = none) : after (unlock ⟨a.nextLock⟩ (after (lock a))) =
    { a with nextLock := if a.nextLock = maxLock then 1 else a.nextLock + 1 } := by
  rw [lock_ok hfree]
  let hold : Hold := { id := a.nextLock, start := a.forward, reserved := none }
  let locked : Arena :=
    { a with hold := some hold, nextLock := if a.nextLock = maxLock then 1 else a.nextLock + 1 }
  have hunlock : unlock ⟨hold.id⟩ locked = .ok () { locked with hold := none } := unlock_ok rfl rfl
  rw [← hfree] at hunlock
  exact congrArg after hunlock

/-- Any number of locks can be taken, so that nothing else is changed. -/
theorem exists_numbered (n : Nat) (hfree : x.arena.hold = none) (hpos : 0 < x.arena.nextLock)
    (hmax : x.arena.nextLock ≤ maxLock) : ∃ y, Numbered Careful x n y ∧
      y.arena = { x.arena with nextLock := lockAfter x.arena.nextLock n } := by
  induction n with
  | zero => exact ⟨x, .refl, by rw [lockAfter_zero hpos hmax]⟩
  | succ n ih =>
      obtain ⟨y, hnumbered, hy⟩ := ih
      have hnone : y.arena.hold = none := by
        rw [hy]
        exact hfree
      have htaken := hnumbered.lock trivial hnone
      refine ⟨_, htaken.idle (.ask (.unlock ⟨y.arena.nextLock⟩) ⟨trivial, nofun⟩), ?_⟩
      refine (unlock_lock hnone).trans ?_
      rw [← lockAfter_succ, hy]

end Locks

/-! ### Stale tokens -/

section Stale

variable {fresh : Arena} {x y z : Moment} {l : Lock} {size : Nat}

/-- A mark that is on its chain no more, whatever has discarded it, is neither rewound nor dropped as
long as no other mark has its record in the same place. A lock that has been dropped gives no right to
the forward cursor as long as the identities have not been counted through since it was taken. The
requests leave the arena as it is. -/
theorem stale_refused (hcreate : create size = .ok fresh) (hbefore : Course Careful ⟨fresh, {}, []⟩ x) :
    (∀ m y, m.record ∉ x.arena.trail m.direction → Course (Leaves m) x y →
      Refused (rewind m) y.arena ∧ Refused (dropMark m) y.arena) ∧
    ∀ l a y z i j, lock x.arena = .ok l a → Numbered Careful (x.asked .lock) i y →
      y.arena.hold = none → Numbered Careful y j z → i + j < maxLock →
      ∀ count, Refused (reserve l count) z.arena ∧ Refused (claim l count) z.arena ∧
        Refused (push l count) z.arena ∧ Refused (unlock l) z.arena := by
  constructor
  · intro m y hoff hcourse
    obtain ⟨S, hx⟩ := (ordered_create hcreate).course hbefore fun _ _ h => h
    obtain ⟨S', hy⟩ := hx.course hcourse fun _ _ => And.left
    exact hy.mark_refused
      (hx.not_mem_trail hcourse (fun _ _ => And.left) (fun _ _ => And.right) hoff)
  · intro l a y z i j hlock hsince hdropped hrest hfew
    exact lock_refused (heldBy_ne_of_dropped hcreate hbefore hlock hsince hdropped hrest hfew)

/-- A mark and a lock are dropped by rolling back, and a mark and a lock are taken after it. The mark has
its record elsewhere and the lock has another identity. -/
theorem stale_refused_restored : ∃ fresh x y z, create 64 = .ok fresh ∧
    Course Careful ⟨fresh, {}, []⟩ x ∧ x.arena.trail .forward = [2, 0] ∧ x.arena.heldBy = some 1 ∧
    y.arena = after (restore fresh.checkpoint x.arena) ∧ Course Careful y z ∧
    z.arena.trail .forward = [3, 0] ∧ z.arena.heldBy = some 2 ∧
    Refused (rewind ⟨.forward, 2⟩) z.arena ∧ Refused (dropMark ⟨.forward, 2⟩) z.arena ∧
    Refused (unlock ⟨1⟩) z.arena := by
  obtain ⟨fresh, hcreate⟩ : ∃ fresh, create 64 = .ok fresh := ⟨_, rfl⟩
  let noted : Moment := ⟨fresh, ({} : Ledger).taken fresh.checkpoint, []⟩
  let marked := noted.asked (.mark .forward)
  let x := marked.asked .lock
  let back := after (restore fresh.checkpoint x.arena)
  let y : Moment := ⟨back, x.ledger.settle back, []⟩
  let marked' := (y.asked (.alloc .forward 1)).asked (.mark .forward)
  let z := marked'.asked .lock
  have hmarked : Course Careful ⟨fresh, {}, []⟩ marked :=
    .tail (.tail .refl .checkpoint) (.ask (.mark .forward) trivial)
  have hback : Numbered Careful x 0 y := .idle .refl (.restore (.head _))
  have hx : Course Careful ⟨fresh, {}, []⟩ x := hmarked.tail (.ask .lock trivial)
  have hleaves : Course (Leaves ⟨.forward, 2⟩) y z := by
    refine .tail (.tail (.tail .refl (.ask (.alloc .forward 1) ⟨trivial, nofun⟩))
      (.ask (.mark .forward) ⟨trivial, fun _ => ?_⟩)) (.ask .lock ⟨trivial, nofun⟩)
    cases hcreate
    decide +kernel
  have hrest : Numbered Careful y 1 z := by
    refine .lock (.idle (.idle .refl (.ask (.alloc .forward 1) ⟨trivial, nofun⟩))
      (.ask (.mark .forward) ⟨trivial, nofun⟩)) trivial ?_
    cases hcreate
    decide +kernel
  have hfree : marked.arena.hold = none ∧ marked.arena.nextLock = 1 := by
    cases hcreate
    decide +kernel
  have hmarks := (stale_refused hcreate (hx.trans hback.course)).1 ⟨.forward, 2⟩ z
    (by cases hcreate; decide +kernel) hleaves
  have hlocks := (stale_refused hcreate hmarked).2 ⟨1⟩ _ y z 0 1 (hfree.2 ▸ lock_ok hfree.1) hback
    (by cases hcreate; decide +kernel) hrest (by decide) 0
  refine ⟨fresh, x, y, z, hcreate, hx, ?_, ?_, rfl, hrest.course, ?_, ?_, hmarks.1, hmarks.2,
    hlocks.2.2.2⟩
  all_goals
    cases hcreate
    decide +kernel

/-- A mark is discarded by rolling back, and another is taken in its place. The token of the first
rewinds it. -/
theorem mark_retaken : ∃ fresh x y, create 64 = .ok fresh ∧ Course Careful ⟨fresh, {}, []⟩ x ∧
    2 ∉ x.arena.trail .forward ∧ Course Careful x y ∧
    ¬ Refused (rewind ⟨.forward, 2⟩) y.arena ∧ ¬ Refused (dropMark ⟨.forward, 2⟩) y.arena := by
  obtain ⟨fresh, hcreate⟩ : ∃ fresh, create 64 = .ok fresh := ⟨_, rfl⟩
  let noted : Moment := ⟨fresh, ({} : Ledger).taken fresh.checkpoint, []⟩
  let marked := noted.asked (.mark .forward)
  let a := after (restore fresh.checkpoint marked.arena)
  let x : Moment := ⟨a, marked.ledger.settle a, []⟩
  let y := x.asked (.mark .forward)
  have hmarked : Course Careful ⟨fresh, {}, []⟩ marked :=
    .tail (.tail .refl .checkpoint) (.ask (.mark .forward) trivial)
  have hmark : y.arena.hold = none ∧ y.arena.forwardMark = 2 ∧ y.arena.Live 2 markLength := by
    cases hcreate
    decide +kernel
  have hlatest : ∃ found, y.arena.latest ⟨.forward, 2⟩ = .ok found := by
    rw [latest, lastMark, hmark.2.1, if_neg (by decide), if_neg (by decide), readRecord,
      if_pos hmark.2.2]
    exact ⟨_, rfl⟩
  obtain ⟨⟨saved, before⟩, hlatest⟩ := hlatest
  refine ⟨fresh, x, y, hcreate, hmarked.tail (.restore (.head _)), ?_,
    .tail .refl (.ask (.mark .forward) trivial), ?_, ?_⟩
  · cases hcreate
    decide +kernel
  · rintro ⟨e, hrefused⟩
    rw [rewind_ok (fun _ => hmark.1) hlatest] at hrefused
    contradiction
  · rintro ⟨e, hrefused⟩
    rw [dropMark_ok hlatest] at hrefused
    contradiction

/-- A lock that was dropped by rolling back is good again once the identities have been counted through. -/
theorem lock_reissued (hcreate : create size = .ok fresh) (hbefore : Course Careful ⟨fresh, {}, []⟩ x)
    (hfree : x.arena.hold = none) (htaken : x.arena.checkpoint ∈ x.ledger.checkpoints) :
    ∃ l a y z, lock x.arena = .ok l a ∧ Next Careful (x.asked .lock) y ∧ y.arena.hold = none ∧
      Numbered Careful y maxLock z ∧ z.arena.heldBy = some l.id := by
  obtain ⟨n, hnumbered⟩ := Numbered.of_course hbefore
  obtain ⟨hpos, hmax⟩ := hnumbered.bounds hcreate
  have hlocked : (x.asked .lock).arena = { x.arena with
      hold := some { id := x.arena.nextLock, start := x.arena.forward, reserved := none }
      nextLock := lockAfter x.arena.nextLock 1 } := by
    rw [← lockAfter_succ, lockAfter_zero hpos hmax, Moment.asked, Request.act, lock_ok hfree]
    rfl
  have hreaches : (x.asked .lock).arena.Reaches x.arena.checkpoint := by
    rw [hlocked]
    exact ⟨Nat.le_refl _, Nat.le_refl _, mem_trail_lastMark _ .forward,
      mem_trail_lastMark _ .backward⟩
  let a := after (restore x.arena.checkpoint (x.asked .lock).arena)
  let y : Moment := ⟨a, (x.asked .lock).ledger.settle a, x.scopes⟩
  have hy : y.arena = (x.asked .lock).arena.restored x.arena.checkpoint := by
    change after (restore x.arena.checkpoint (x.asked .lock).arena) = _
    rw [restore, if_pos hreaches]
    rfl
  have hnone : y.arena.hold = none := hy ▸ rfl
  have hnext : y.arena.nextLock = lockAfter x.arena.nextLock 1 := by
    rw [hy, hlocked]
    rfl
  obtain ⟨hpos', hmax'⟩ := lockAfter_bounds x.arena.nextLock 1
  rw [← hnext] at hpos' hmax'
  obtain ⟨z, hrest, hz⟩ := exists_numbered (maxLock - 1) hnone hpos' hmax'
  have hfree' : z.arena.hold = none := by
    rw [hz]
    exact hnone
  refine ⟨⟨x.arena.nextLock⟩, _, y, z.asked .lock, lock_ok hfree, .restore htaken, hnone,
    hrest.lock trivial hfree', ?_⟩
  have hid : z.arena.nextLock = x.arena.nextLock := by
    rw [hz]
    change lockAfter y.arena.nextLock (maxLock - 1) = _
    rw [hnext, lockAfter_add]
    exact lockAfter_max hpos hmax
  rw [Moment.asked, Request.act, lock_ok hfree', ← hid]
  rfl

end Stale

end Arena

end FlatLisp
