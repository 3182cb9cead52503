/-
Module: FlatLisp.Proofs.Arena.Tenure
Purpose: What comes of the forward cursor from taking its lock to giving it back. Whatever is asked of
  the arena meanwhile, the spans that were claimed and pushed lie one behind the other from where the
  cursor was, and hold what their owner wrote last; nothing else stays.
Main exports: Arena.Dealings, Arena.Tenure, Arena.KeepsFront, Arena.Balance, Arena.Balance.act,
  Arena.Tenure.balance, Arena.Settled, Arena.tenure_settles
-/
import FlatLisp.Proofs.Arena.Trace

namespace FlatLisp

/-- A write changes the bytes that it covers to the new ones. -/
theorem Bytes.get_write_of_getElem? {m : Bytes} {start i : Nat} {new : List UInt8} {b : UInt8}
    (hlow : start ≤ i) (hsize : i < m.size) (hnew : new[i - start]? = some b) :
    (m.write start new).get i = b := by
  induction new generalizing m start with
  | nil => contradiction
  | cons first rest ih =>
      rw [write]
      rcases Nat.eq_or_lt_of_le hlow with rfl | hlt
      · rw [Nat.sub_self, List.getElem?_cons_zero, Option.some_inj] at hnew
        rw [get_write_of_lt (Nat.lt_succ_self _), get_set, if_pos ⟨rfl, hsize⟩, hnew]
      · apply ih hlt
        · rwa [size_set]
        · rwa [show i - start = i - (start + 1) + 1 by omega, List.getElem?_cons_succ] at hnew

/-- The bytes of some spans together. -/
def Span.total : List Span → Nat
  | [] => 0
  | s :: rest => s.length + total rest

theorem Span.total_concat (spans : List Span) (s : Span) :
    total (spans ++ [s]) = total spans + s.length := by
  induction spans with
  | nil => exact Nat.add_comm ..
  | cons first rest ih => rw [List.cons_append, total, total, ih, Nat.add_assoc]

namespace Arena

/-! ### What is noted under a lock -/

/-- What the holder of a lock has been granted since he took it, and what he wrote. -/
structure Dealings where
  /-- What was claimed and pushed, in the order of the calls. -/
  spans : List Span := []
  /-- The byte that was written last at an offset, while the forward cursor has not gone back past it
  since. -/
  written : Nat → Option UInt8 := fun _ => none

namespace Dealings

/-- The dealings once a span was asked for. -/
def granted (D : Dealings) : EStateM.Result ArenaError Arena Span → Dealings
  | .ok span _ => { D with spans := D.spans ++ [span] }
  | .error _ _ => D

/-- The dealings once `new` was written at `offset`. -/
def overwritten (D : Dealings) (offset : Nat) (new : List UInt8) : Dealings :=
  { D with written := fun i => if offset ≤ i then new[i - offset]?.or (D.written i) else D.written i }

/-- The dealings once the request was made. What is only set aside is not granted yet. -/
def noted (D : Dealings) (a : Arena) : Request → Dealings
  | .claim l count => D.granted (Arena.claim l count a)
  | .push l count => D.granted (Arena.push l count a)
  | .write offset new => if a.Live offset new.length then D.overwritten offset new else D
  | _ => D

/-- What is at the forward cursor or above it may be overwritten by anyone. -/
def settle (D : Dealings) (a : Arena) : Dealings :=
  { D with written := fun i => if i < a.forward ∧ i < a.capacity then D.written i else none }

def asked (D : Dealings) (a : Arena) (r : Request) : Dealings :=
  (D.noted a r).settle (r.act a)

end Dealings

/-- What can become of an arena while the lock `l` is held on it. Anything is asked but to give the lock
back, and no record of a mark is written over; what is asked may depend on all that was answered
before. -/
inductive Tenure (l : Lock) : Arena → Dealings → Arena → Dealings → Prop where
  | refl (a : Arena) (D : Dealings) : Tenure l a D a D
  | ask {a a' : Arena} {D D' : Dealings} (tenure : Tenure l a D a' D') (r : Request)
      (hkeep : r ≠ .unlock l) (hcareful : Careful a' r) : Tenure l a D (r.act a') (D'.asked a' r)
  /-- A borrowing in whose body the lock is held as well. -/
  | scope {a a₁ a₂ a₃ : Arena} {D D₁ D₂ : Dealings} {m : Mark} {ε α : Type}
      [MonadLiftT ArenaM (EStateM ε Arena)] {convert : ArenaError → ε} (hwithin : Within convert)
      (tenure : Tenure l a D a₁ D₁) (hmark : Arena.mark .backward a₁ = .ok m a₂)
      (body : EStateM ε Arena α) (hafter : after (body a₂) = a₃)
      (inside : Tenure l a₂ (D₁.asked a₁ (.mark .backward)) a₃ D₂) :
      Tenure l a D (after (borrow body a₁)) (D₂.settle (after (borrow body a₁)))
  /-- A borrowing that does not get its mark. -/
  | refused {a a₁ a₂ : Arena} {D D₁ : Dealings} {e : ArenaError} {ε α : Type}
      [MonadLiftT ArenaM (EStateM ε Arena)] {convert : ArenaError → ε} (hwithin : Within convert)
      (tenure : Tenure l a D a₁ D₁) (hmark : Arena.mark .backward a₁ = .error e a₂)
      (body : EStateM ε Arena α) : Tenure l a D (after (borrow body a₁)) D₁

/-! ### What leaves the front alone -/

/-- The forward cursor, its lock and all bytes below it are as before. -/
structure KeepsFront (a a' : Arena) : Prop where
  forward : a'.forward = a.forward
  hold : a'.hold = a.hold
  size : a'.memory.size = a.memory.size
  below : a.memory.SameOn a'.memory 0 a.forward

section KeepsFront

variable {a a' : Arena} {hold : Hold} {d : Direction}

theorem KeepsFront.of_memory (hmemory : a'.memory = a.memory) (hforward : a'.forward = a.forward)
    (hhold : a'.hold = a.hold) : KeepsFront a a' where
  forward := hforward
  hold := hhold
  size := by rw [hmemory]
  below := by rw [hmemory]; exact .refl _ _ _

theorem KeepsFront.refl (a : Arena) : KeepsFront a a := .of_memory rfl rfl rfl

/-- Bytes are written at the forward cursor or above it. -/
theorem KeepsFront.of_written {offset : Nat} {bytes : List UInt8}
    (hmemory : a'.memory = a.memory.write offset bytes) (hoffset : a.forward ≤ offset)
    (hforward : a'.forward = a.forward) (hhold : a'.hold = a.hold) : KeepsFront a a' where
  forward := hforward
  hold := hhold
  size := by rw [hmemory]; exact Bytes.size_write ..
  below := by rw [hmemory]; exact Bytes.sameOn_write (.inl hoffset)

theorem keepsFront_withLastMark (a : Arena) (d : Direction) (record : Nat) :
    KeepsFront a (a.withLastMark d record) := by
  cases d <;> exact .of_memory rfl rfl rfl

section Locked

variable (hhold : a.hold = some hold)

include hhold

/-- Whoever wants the forward cursor to be free is refused. -/
theorem backward_of_unlocked (hunlocked : d = .forward → a.hold = none) : d = .backward := by
  cases d with
  | forward =>
      rw [hunlocked rfl] at hhold
      contradiction
  | backward => rfl

theorem alloc_keepsFront (d : Direction) (count : Nat) : KeepsFront a (after (alloc d count a)) := by
  rcases alloc_cases d count a with ⟨e, halloc⟩ | ⟨hunlocked, -, halloc⟩
  · rw [halloc]
    exact .refl a
  · obtain rfl := backward_of_unlocked hhold hunlocked
    rw [halloc]
    exact .of_memory rfl rfl rfl

/-- A backward mark is recorded between the cursors. -/
theorem mark_keepsFront (d : Direction) : KeepsFront a (after (mark d a)) := by
  rcases mark_cases d a with ⟨e, hmark⟩ | ⟨hunlocked, hfree, hmark⟩
  · rw [hmark]
    exact .refl a
  · obtain rfl := backward_of_unlocked hhold hunlocked
    rw [free, markLength] at hfree
    have hroom : a.forward ≤ a.backward - markLength := by
      rw [markLength]
      omega
    rw [hmark]
    exact .of_written rfl hroom rfl rfl

theorem rewind_keepsFront (m : Mark) : KeepsFront a (after (rewind m a)) := by
  rcases rewind_cases m a with ⟨e, hrewind⟩ | ⟨saved, before, hunlocked, hrewind⟩
  · rw [hrewind]
    exact .refl a
  · have hbackward := backward_of_unlocked hhold hunlocked
    rw [hrewind, hbackward]
    exact .of_memory rfl rfl rfl

theorem lock_keepsFront : KeepsFront a (after (lock a)) := by
  rcases Disciplined.lock_cases a with ⟨e, hlock⟩ | ⟨hnone, -⟩
  · rw [hlock]
    exact .refl a
  · rw [hhold] at hnone
    contradiction

/-- The lock is given back with its own token only. -/
theorem unlock_keepsFront {l : Lock} (hother : hold.id ≠ l.id) :
    KeepsFront a (after (unlock l a)) := by
  have hheld : consult (·.held l) a = .error .lockNotHeld a := by
    simp only [consult, held, hhold, if_neg hother]
  rw [unlock, bind_error hheld]
  exact .refl a

end Locked

theorem dropMark_keepsFront (m : Mark) (a : Arena) : KeepsFront a (after (dropMark m a)) := by
  rcases dropMark_cases m a with ⟨e, hdrop⟩ | ⟨before, hdrop⟩
  · rw [hdrop]
    exact .refl a
  · rw [hdrop]
    exact keepsFront_withLastMark a _ _

theorem pushDirection_keepsFront (d : Direction) (a : Arena) :
    KeepsFront a (after (pushDirection d a)) := by
  rw [pushDirection]
  split
  · exact .of_memory rfl rfl rfl
  · exact .refl a

theorem popDirection_keepsFront (a : Arena) : KeepsFront a (after (popDirection a)) := by
  rw [popDirection]
  split
  · exact .of_memory rfl rfl rfl
  · exact .refl a

theorem zeroFree_keepsFront (a : Arena) : KeepsFront a a.zeroFree :=
  .of_written rfl (Nat.le_refl _) rfl rfl

/-- Unwinding follows the chain of the backward cursor, and moves that cursor at most. -/
theorem unwind_keepsFront (record : Nat) (a : Arena) : KeepsFront a (after (unwind record a)) := by
  rw [unwind, get_bind]
  split
  · have hmodify : (modify (·.withLastMark .backward record) : ArenaM Unit) a =
        .ok () (a.withLastMark .backward record) := rfl
    rw [bind_ok hmodify]
    rcases rewind_cases ⟨.backward, record⟩ (a.withLastMark .backward record) with
      ⟨e, hrewind⟩ | ⟨saved, before, -, hrewind⟩
    · rw [hrewind]
      exact .of_memory rfl rfl rfl
    · rw [hrewind]
      exact .of_memory rfl rfl rfl
  · exact .refl a

end KeepsFront

/-! ### The balance -/

/-- The spans lie one behind the other from `offset` on. -/
def Abut : (offset : Nat) → List Span → Prop
  | _, [] => True
  | offset, s :: rest => s.offset = offset ∧ Abut s.stop rest

theorem abut_concat {offset : Nat} {spans : List Span} {s : Span} :
    Abut offset (spans ++ [s]) ↔
      Abut offset spans ∧ s.offset = offset + Span.total spans := by
  induction spans generalizing offset with
  | nil => simp [Abut, Span.total]
  | cons first rest ih =>
      rw [List.cons_append, Abut, ih, Abut, Span.total, Span.stop, and_assoc]
      constructor
      · rintro ⟨rfl, hrest, hoffset⟩
        exact ⟨rfl, hrest, by rw [hoffset, Nat.add_assoc]⟩
      · rintro ⟨rfl, hrest, hoffset⟩
        exact ⟨rfl, hrest, by rw [hoffset, Nat.add_assoc]⟩

/-- The lock is held, and all that is settled on the forward cursor since it stood at `base` was granted
to the holder, who finds there what he wrote. -/
structure Balance (l : Lock) (base : Nat) (D : Dealings) (a : Arena) : Prop where
  held : ∃ hold, a.hold = some hold ∧ hold.id = l.id
  settled : a.settled .forward = base + Span.total D.spans
  reserved : ∀ hold n, a.hold = some hold → hold.reserved = some n → a.forward = hold.start + n
  abut : Abut base D.spans
  written : ∀ i b, D.written i = some b → i < a.forward ∧ a.memory.get i = b

section Balance

open Disciplined (settled_of_closed settled_of_open closed_of_some)

variable {l l' : Lock} {base : Nat} {D : Dealings} {a a' : Arena} {s : Span}

/-- A lock that was just taken. -/
theorem balance_of_lock (h : lock a = .ok l a') : Balance l a.forward {} a' := by
  rcases Disciplined.lock_cases a with ⟨e, herror⟩ | ⟨-, hok⟩
  · rw [herror] at h
    contradiction
  · rw [hok] at h
    cases h
    constructor
    · exact ⟨_, rfl, rfl⟩
    · rfl
    · rintro hold n ⟨rfl⟩ hsome
      contradiction
    · trivial
    · intro i b hb
      contradiction

/-- What was written must be there as far as it is still below the cursor. -/
theorem balance_settle (hheld : ∃ hold, a.hold = some hold ∧ hold.id = l.id)
    (hsettled : a.settled .forward = base + Span.total D.spans)
    (hreserved : ∀ hold n, a.hold = some hold → hold.reserved = some n → a.forward = hold.start + n)
    (habut : Abut base D.spans)
    (hwritten : ∀ i b, D.written i = some b → i < a.capacity → a.memory.get i = b) :
    Balance l base (D.settle a) a where
  held := hheld
  settled := hsettled
  reserved := hreserved
  abut := habut
  written := by
    intro i b hb
    rw [Dealings.settle] at hb
    dsimp only at hb
    split at hb
    · rename_i hbelow
      exact ⟨hbelow.1, hwritten i b hb hbelow.2⟩
    · contradiction

/-- What leaves the front alone leaves the balance. -/
theorem Balance.kept (h : Balance l base D a) (hkeeps : KeepsFront a a') :
    Balance l base (D.settle a') a' := by
  apply balance_settle
  · rw [hkeeps.hold]
    exact h.held
  · rw [← h.settled, Arena.settled, Arena.settled, hkeeps.hold, hkeeps.forward]
  · rw [hkeeps.hold, hkeeps.forward]
    exact h.reserved
  · exact h.abut
  · intro i b hb _
    obtain ⟨hbelow, hget⟩ := h.written i b hb
    exact (hkeeps.below i (Nat.zero_le i) hbelow).trans hget

theorem Balance.grant (h : Balance l base D a) (hheld : ∃ hold, a'.hold = some hold ∧ hold.id = l.id)
    (hclosed : Disciplined.Closed a') (hmemory : a'.memory = a.memory)
    (hoffset : s.offset = a.settled .forward) (hforward : a'.forward = s.stop) :
    Balance l base ((D.granted (.ok s a')).settle a') a' := by
  apply balance_settle hheld
  · rw [settled_of_closed hclosed, hforward, Span.stop, hoffset, h.settled, Dealings.granted,
      Span.total_concat, Nat.add_assoc]
  · intro hold n hhold hsome
    rw [hclosed hold hhold] at hsome
    contradiction
  · exact abut_concat.2 ⟨h.abut, hoffset.trans h.settled⟩
  · intro i b hb _
    rw [hmemory]
    exact (h.written i b hb).2

theorem Balance.reserve (h : Balance l base D a) (l' : Lock) (count : Nat) :
    Balance l base (D.asked a (.reserve l' count)) (Request.act a (.reserve l' count)) := by
  rw [Dealings.asked, Request.act]
  rcases Disciplined.reserve_cases l' count a with ⟨e, hreserve⟩ | ⟨hold, hhold, -, hreserve⟩
  · rw [hreserve]
    exact h.kept (.refl a)
  · obtain ⟨_, hsame, hid⟩ := h.held
    obtain rfl := Option.some_inj.1 (hhold.symm.trans hsame)
    rw [hreserve]
    apply balance_settle
    · exact ⟨_, rfl, hid⟩
    · exact h.settled
    · rintro held n ⟨rfl⟩ ⟨rfl⟩
      rfl
    · exact h.abut
    · intro i b hb _
      exact (h.written i b hb).2

/-- A reservation is open where everything is settled. -/
theorem Balance.claim (h : Balance l base D a) (l' : Lock) (count : Nat) :
    Balance l base (D.asked a (.claim l' count)) (Request.act a (.claim l' count)) := by
  rw [Dealings.asked, Request.act, Dealings.noted]
  rcases Disciplined.claim_cases l' count a with
    ⟨e, hclaim⟩ | ⟨hold, n, hhold, hreserved, -, hclaim⟩
  · rw [hclaim]
    exact h.kept (.refl a)
  · obtain ⟨_, hsame, hid⟩ := h.held
    obtain rfl := Option.some_inj.1 (hhold.symm.trans hsame)
    rw [hclaim]
    apply h.grant
    · exact ⟨_, rfl, hid⟩
    · exact closed_of_some rfl rfl
    · rfl
    · exact (settled_of_open hhold hreserved).symm
    · rfl

theorem Balance.push (h : Balance l base D a) (l' : Lock) (count : Nat) :
    Balance l base (D.asked a (.push l' count)) (Request.act a (.push l' count)) := by
  rw [Dealings.asked, Request.act, Dealings.noted]
  rcases Disciplined.push_cases l' count a with ⟨e, hpush⟩ | ⟨hold, hhold, hreserved, -, hpush⟩
  · rw [hpush]
    exact h.kept (.refl a)
  · have hclosed := closed_of_some hhold hreserved
    rw [hpush]
    apply h.grant
    · exact h.held
    · exact hclosed
    · rfl
    · exact (settled_of_closed hclosed).symm
    · rfl

theorem Balance.write (h : Balance l base D a) (offset : Nat) (new : List UInt8) :
    Balance l base (D.asked a (.write offset new)) (Request.act a (.write offset new)) := by
  rw [Dealings.asked, Request.act, Dealings.noted, Arena.write]
  split
  · apply balance_settle
    · exact h.held
    · exact h.settled
    · exact h.reserved
    · exact h.abut
    · intro i b hb hsize
      rw [capacity, after, Bytes.size_write] at hsize
      rw [Dealings.overwritten] at hb
      dsimp only at hb
      split at hb
      · rename_i hlow
        cases hnew : new[i - offset]? with
        | some b' =>
            rw [hnew, Option.some_or, Option.some_inj] at hb
            exact hb ▸ Bytes.get_write_of_getElem? hlow hsize hnew
        | none =>
            rw [hnew, Option.none_or] at hb
            have hhigh := List.getElem?_eq_none_iff.1 hnew
            exact (Bytes.get_write_of_ge (by omega)).trans (h.written i b hb).2
      · rename_i hlow
        exact (Bytes.get_write_of_lt (Nat.lt_of_not_le hlow)).trans (h.written i b hb).2
  · exact h.kept (.refl a)

/-- Every request leaves the balance right, granted or not, if it does not give the lock back. -/
theorem Balance.act (h : Balance l base D a) (r : Request) (hkeep : r ≠ .unlock l) :
    Balance l base (D.asked a r) (r.act a) := by
  obtain ⟨hold, hhold, hid⟩ := h.held
  cases r with
  | alloc d count => exact h.kept (alloc_keepsFront hhold d count)
  | allocDefault count => exact h.kept (alloc_keepsFront hhold a.direction count)
  | mark d => exact h.kept (mark_keepsFront hhold d)
  | markDefault => exact h.kept (mark_keepsFront hhold a.direction)
  | rewind m => exact h.kept (rewind_keepsFront hhold m)
  | dropMark m => exact h.kept (dropMark_keepsFront m a)
  | pushDirection d => exact h.kept (pushDirection_keepsFront d a)
  | popDirection => exact h.kept (popDirection_keepsFront a)
  | lock => exact h.kept (lock_keepsFront hhold)
  | reserve l' count => exact h.reserve l' count
  | claim l' count => exact h.claim l' count
  | push l' count => exact h.push l' count
  | unlock l' =>
      apply h.kept (unlock_keepsFront hhold _)
      intro hsame
      exact hkeep (congrArg _ (congrArg Lock.mk (hsame.symm.trans hid)))
  | zero => exact h.kept (zeroFree_keepsFront a)
  | write offset new => exact h.write offset new

/-- The balance is right as long as the lock is held. -/
theorem Tenure.balance {D' : Dealings} (tenure : Tenure l a D a' D') :
    Balance l base D a → Balance l base D' a' := by
  induction tenure with
  | refl => exact id
  | ask tenure r hkeep _ ih => exact fun h => (ih h).act r hkeep
  | @scope _ a₁ _ _ _ _ _ m _ _ _ _ hwithin tenure hmark body hafter inside ih ihinside =>
      -- Mark and unwinding concern the other cursor, so the body is one more part of the tenure.
      intro h
      have hmarked := (ih h).act (.mark .backward) Request.noConfusion
      rw [Request.act, hmark] at hmarked
      rw [after_borrow hwithin hmark, hafter]
      exact (ihinside hmarked).kept (unwind_keepsFront m.record _)
  | @refused _ a₁ _ _ _ _ _ _ _ _ hwithin tenure hmark body ih =>
      intro h
      rw [after_borrow_refused hwithin hmark]
      rcases mark_cases .backward a₁ with ⟨e, herror⟩ | ⟨-, -, hok⟩
      · cases herror.symm.trans hmark
        exact ih h
      · cases hok.symm.trans hmark

/-! ### Giving the lock back -/

/-- What the holder of a lock leaves when he has given it back. -/
structure Settled (base : Nat) (D : Dealings) (a : Arena) : Prop where
  unlocked : a.hold = none
  /-- The cursor has moved by what was claimed and pushed. -/
  forward : a.forward = base + Span.total D.spans
  abut : Abut base D.spans
  written : ∀ s ∈ D.spans, ∀ i b, s.offset ≤ i → i < s.stop → D.written i = some b →
    a.memory.get i = b

/-- From taking the lock to giving it back the forward cursor moves by what was claimed and pushed
under it. -/
theorem tenure_settles (hlock : lock a = .ok l a') {a'' : Arena} (tenure : Tenure l a' {} a'' D) :
    ∃ b, unlock l a'' = .ok () b ∧ Settled a.forward D b := by
  have hbalance := tenure.balance (balance_of_lock hlock)
  obtain ⟨hold, hhold, hid⟩ := hbalance.held
  have hheld : consult (·.held l) a'' = .ok hold a'' := by
    simp only [consult, held, hhold, if_pos hid]
  rcases Disciplined.unlock_cases l a'' with ⟨e, hunlock⟩ | ⟨_, -, hunlock⟩
  · rw [unlock, bind_ok hheld] at hunlock
    contradiction
  · refine ⟨_, hunlock, rfl, hbalance.settled, hbalance.abut, ?_⟩
    intro s _ i b _ _ hb
    exact (hbalance.written i b hb).2

/-- A reservation that is resized, a mark of the backward cursor where it was given up, a claim, a push,
a borrowing that fails, and a reservation that is never claimed. -/
theorem tenure_settles_resized : ∃ a b c d D,
    create 64 = .ok a ∧ lock a = .ok ⟨1⟩ b ∧ Tenure ⟨1⟩ b {} c D ∧
      D.spans = [⟨2, 3⟩, ⟨5, 2⟩] ∧ (D.written 2, D.written 3, D.written 4) = (some 7, some 8, none) ∧
      unlock ⟨1⟩ c = .ok () d ∧ Settled 2 D d := by
  obtain ⟨a, hcreate⟩ : ∃ a, create 64 = .ok a := ⟨_, rfl⟩
  obtain ⟨b, hlock⟩ : ∃ b, lock a = .ok ⟨1⟩ b := by
    cases hcreate
    exact ⟨_, rfl⟩
  obtain ⟨c, D, tenure, hspans, hwritten⟩ : ∃ c D, Tenure ⟨1⟩ b {} c D ∧
      D.spans = [⟨2, 3⟩, ⟨5, 2⟩] ∧
      (D.written 2, D.written 3, D.written 4) = (some 7, some 8, none) := by
    have htaken : Tenure ⟨1⟩ b {} b {} := .refl _ _
    have hreserve := htaken.ask (.reserve ⟨1⟩ 60) nofun trivial
    have hnone : ∀ d, (Request.act b (.reserve ⟨1⟩ 60)).trail d = [0] := by
      cases hcreate
      cases hlock
      intro d
      cases d <;> decide +kernel
    have hwritten := hreserve.ask (.write 2 [7, 8, 9]) nofun (by simp [Careful, hnone])
    have hresized := (hwritten.ask (.reserve ⟨1⟩ 2) nofun trivial).ask (.mark .backward) nofun trivial
    have hclaimed := (hresized.ask (.reserve ⟨1⟩ 3) nofun trivial).ask (.claim ⟨1⟩ 3) nofun trivial
    have hpushed := (hclaimed.ask (.push ⟨1⟩ 2) nofun trivial).ask (.alloc .forward 1) nofun trivial
    have hopen := hpushed.ask (.reserve ⟨1⟩ 9) nofun trivial
    cases hcreate
    cases hlock
    have hscope := hopen.scope within_id (mark_backward_ok (by decide))
      (mark .backward *> throw .markMismatch : ArenaM Unit) rfl
      ((Tenure.refl _ _).ask (.mark .backward) nofun trivial)
    exact ⟨_, _, hscope, by decide +kernel, by decide +kernel⟩
  obtain ⟨d, hunlock, hsettled⟩ := tenure_settles hlock tenure
  have hforward : a.forward = 2 := by
    cases hcreate
    rfl
  exact ⟨a, b, c, d, D, hcreate, hlock, tenure, hspans, hwritten, hunlock, hforward ▸ hsettled⟩

end Balance

end Arena

end FlatLisp
