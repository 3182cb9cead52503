/-
Module: FlatLisp.Proofs.Arena.Trace
Purpose: What can become of an arena while anything is asked of it in any order, rolling back to any
  checkpoint of its own included, and what is then true of its marks and its lock. Beside the arena
  stands a ledger of the checkpoints that were taken and of the bytes that were handed out.
Main exports: Arena.Holding, Arena.Ledger, Arena.Careful, Arena.Trace, Arena.Disciplined.restored,
  Arena.Orderly, Arena.Trace.orderly
-/
import FlatLisp.Proofs.Arena.MarkStacks
import FlatLisp.Proofs.Arena.Rollback

namespace FlatLisp

/-- Bytes that were handed out and whose cursor has not moved back past any of them. -/
structure Arena.Holding where
  /-- The cursor that moved to make room for them. -/
  direction : Direction
  span : Span
  /-- What was there when they were handed out, and what was written over it since. -/
  bytes : List UInt8
  /-- The records of the marks taken since. -/
  marks : List Nat
deriving DecidableEq, Repr, Inhabited

/-- What the users of an arena know of it. -/
structure Arena.Ledger where
  checkpoints : List Checkpoint := []
  holdings : List Arena.Holding := []
deriving DecidableEq, Repr, Inhabited

namespace Arena

/-! ### What is handed out -/

namespace Holding

/-- The cursor has not moved back past any of the bytes. -/
def Survives (h : Holding) (a : Arena) : Prop :=
  match h.direction with
  | .forward => h.span.stop ≤ a.forward
  | .backward => a.backward ≤ h.span.offset

instance (h : Holding) (a : Arena) : Decidable (h.Survives a) := by
  unfold Survives
  cases h.direction <;> infer_instance

/-- The bytes once `new` was written at `offset`, where both meet. -/
def overwritten (h : Holding) (offset : Nat) (new : List UInt8) : Holding :=
  { h with
    bytes := h.bytes.mapIdx fun i b =>
      if offset ≤ h.span.offset + i then new.getD (h.span.offset + i - offset) b else b }

/-- The holding once a mark was asked for. -/
def outlasted (h : Holding) : EStateM.Result ArenaError Arena Mark → Holding
  | .ok m _ => { h with marks := m.record :: h.marks }
  | .error _ _ => h

/-- The holding once the request was made. Only what its users write there changes its bytes. -/
def noted (h : Holding) (a : Arena) : Request → Holding
  | .mark d => h.outlasted (Arena.mark d a)
  | .markDefault => h.outlasted (Arena.markDefault a)
  | .write offset new => if a.Live offset new.length then h.overwritten offset new else h
  | _ => h

end Holding

/-- The bytes that a request has handed out, as they are found. -/
def handedOut (d : Direction) : EStateM.Result ArenaError Arena Span → List Holding
  | .ok span a => [⟨d, span, a.memory.slice span.offset span.length, []⟩]
  | .error _ _ => []

/-- The bytes that a request hands out for good. What is only set aside is not. -/
def Request.granted (a : Arena) : Request → List Holding
  | .alloc d count => handedOut d (Arena.alloc d count a)
  | .allocDefault count => handedOut a.direction (Arena.allocDefault count a)
  | .claim l count => handedOut .forward (Arena.claim l count a)
  | .push l count => handedOut .forward (Arena.push l count a)
  | _ => []

namespace Ledger

/-- What is left of the ledger where the cursors have moved back. -/
def settle (L : Ledger) (a : Arena) : Ledger :=
  { L with holdings := L.holdings.filter (·.Survives a) }

/-- The ledger once the request was made. -/
def asked (L : Ledger) (a : Arena) (r : Request) : Ledger :=
  { L with holdings := r.granted a ++ L.holdings.map (·.noted a r) : Ledger }.settle (r.act a)

/-- The ledger once a checkpoint was taken. -/
def taken (L : Ledger) (c : Checkpoint) : Ledger :=
  { L with checkpoints := c :: L.checkpoints }

end Ledger

/-! ### Traces -/

/-- No byte is written that belongs to the record of a mark on a chain. -/
def Careful (a : Arena) : Request → Prop
  | .write offset bytes => ∀ d, ∀ record ∈ a.trail d, record ≠ 0 → ∀ i < bytes.length,
      offset + i < record ∨ record + markLength ≤ offset + i
  | _ => True

/-- What can become of an arena and its ledger, by requests that are `Allowed`. What is asked may
depend on all that was answered before; tokens may be used in any order, again, or made up. -/
inductive Trace (Allowed : Arena → Request → Prop) : Arena → Ledger → Arena → Ledger → Prop where
  | refl (a : Arena) (L : Ledger) : Trace Allowed a L a L
  | ask {a a' : Arena} {L L' : Ledger} (trace : Trace Allowed a L a' L') (r : Request)
      (hallowed : Allowed a' r) : Trace Allowed a L (r.act a') (L'.asked a' r)
  | checkpoint {a a' : Arena} {L L' : Ledger} (trace : Trace Allowed a L a' L') :
      Trace Allowed a L a' (L'.taken a'.checkpoint)
  /-- Rolling back to a checkpoint of the ledger, which may have been passed long ago. -/
  | restore {a a' : Arena} {L L' : Ledger} (trace : Trace Allowed a L a' L') {c : Checkpoint}
      (hc : c ∈ L'.checkpoints) :
      Trace Allowed a L (after (Arena.restore c a')) (L'.settle (after (Arena.restore c a')))
  /-- A borrowing whose body makes a trace of its own. -/
  | scope {a a₁ a₂ a₃ : Arena} {L L₁ L₂ : Ledger} {m : Mark} {ε α : Type}
      [MonadLiftT ArenaM (EStateM ε Arena)] {convert : ArenaError → ε} (hwithin : Within convert)
      (trace : Trace Allowed a L a₁ L₁) (hmark : Arena.mark .backward a₁ = .ok m a₂)
      (body : EStateM ε Arena α) (hafter : after (body a₂) = a₃)
      (inside : Trace Allowed a₂ (L₁.asked a₁ (.mark .backward)) a₃ L₂) :
      Trace Allowed a L (after (borrow body a₁)) (L₂.settle (after (borrow body a₁)))
  /-- A borrowing that does not get its mark. -/
  | refused {a a₁ a₂ : Arena} {L L₁ : Ledger} {e : ArenaError} {ε α : Type}
      [MonadLiftT ArenaM (EStateM ε Arena)] {convert : ArenaError → ε} (hwithin : Within convert)
      (trace : Trace Allowed a L a₁ L₁) (hmark : Arena.mark .backward a₁ = .error e a₂)
      (body : EStateM ε Arena α) : Trace Allowed a L (after (borrow body a₁)) L₁

/-! ### Rolling back -/

/-- An arena of `size` bytes had these cursors and marks at some time. -/
structure Sound (size : Nat) (c : Checkpoint) : Prop where
  header : headerLength ≤ c.forward
  backward : c.backward ≤ size
  forwardMark : c.forwardMark ≠ 0 → InRegion size .forward c.forward c.forwardMark
  backwardMark : c.backwardMark ≠ 0 → InRegion size .backward c.backward c.backwardMark

section Rollback

variable {a : Arena} {S : Stacks} {c : Checkpoint} {m : Bytes} {d : Direction}
  {marks : List Outstanding} {bound bound' record : Nat}

/-- A record that is met on a chain is where the older marks begin. -/
theorem exists_suffix (h : record ∈ marks.map (·.record) ++ [0]) :
    ∃ older, older <:+ marks ∧ headRecord older = record := by
  rw [List.mem_append, List.mem_singleton] at h
  rcases h with h | rfl
  · obtain ⟨newer, e, hsplit, he⟩ := exists_older h
    exact ⟨e :: older record marks, ⟨newer, hsplit.symm⟩, he⟩
  · exact ⟨[], List.nil_suffix, rfl⟩

theorem Chained.of_suffix {older : List Outstanding} (h : Chained m d bound marks)
    (hsuffix : older <:+ marks) : Chained m d bound older := by
  obtain ⟨newer, rfl⟩ := hsuffix
  exact h.of_append

/-- Only the most recent record must be in the region. -/
theorem Chained.rebound (h : Chained m d bound marks)
    (hhead : headRecord marks ≠ 0 → InRegion m.size d bound' (headRecord marks))
    (hpos : ∀ e ∈ marks, e.record ≠ 0) : Chained m d bound' marks := by
  cases marks with
  | nil => trivial
  | cons e rest => exact ⟨hhead (hpos e (.head _)), h.2⟩

namespace Disciplined

theorem checkpoint_sound (h : Disciplined a S) : Sound a.capacity a.checkpoint := by
  have hhead : ∀ d, a.lastMark d ≠ 0 →
      InRegion a.capacity d (a.settled d) (a.lastMark d) := by
    intro d hpos
    have hchained := h.chained d
    rw [h.last] at hpos ⊢
    cases hmarks : S.of d with
    | nil =>
        rw [hmarks] at hpos
        exact (hpos rfl).elim
    | cons e rest =>
        rw [hmarks] at hchained
        exact hchained.1
  refine ⟨Nat.le_trans h.header h.settled, h.backward, fun hpos => ?_, hhead .backward⟩
  exact (hhead .forward hpos).grown h.settled

/-- Rolling back to where the arena once was keeps the marks of then, and no other. -/
theorem restored (h : Disciplined a S) (hc : Sound a.capacity c) (hreaches : a.Reaches c) :
    ∃ S', (∀ d, S'.of d <:+ S.of d) ∧ Disciplined (a.restored c) S' := by
  obtain ⟨hforward, hbackward, hforwardMark, hbackwardMark⟩ := hreaches
  rw [h.trail_eq] at hforwardMark hbackwardMark
  obtain ⟨forwardMarks, hsuffix, hhead⟩ := exists_suffix hforwardMark
  obtain ⟨backwardMarks, hsuffix', hhead'⟩ := exists_suffix hbackwardMark
  have hpos : ∀ d, ∀ e ∈ S.of d, e.record ≠ 0 :=
    fun d e he => h.record_pos ((h.chained d).inRegion he)
  have hchained := (h.chained .forward).of_suffix hsuffix
  have hchained' := (h.chained .backward).of_suffix hsuffix'
  have hdown : Chained a.memory .forward c.forward forwardMarks :=
    hchained.rebound (hhead ▸ hc.forwardMark) fun e he => hpos .forward e (hsuffix.subset he)
  have hup : Chained a.memory .backward c.backward backwardMarks :=
    hchained'.rebound (hhead' ▸ hc.backwardMark) fun e he => hpos .backward e (hsuffix'.subset he)
  have hmarked := (h.relinked hchained).relinked (d := .backward) hchained'
  rw [hhead, hhead'] at hmarked
  have hlowered := @forward_to _ _ hmarked c.forward none (closed_of_none rfl) hc.header
    (Nat.le_trans hforward h.cursors) hdown
  have hback := hlowered.backward_to (Nat.le_trans hforward (Nat.le_trans h.cursors hbackward))
    hc.backward hup
  refine ⟨⟨forwardMarks, backwardMarks⟩, ?_, hback.renumbered c.directions a.nextLock⟩
  intro d
  cases d with
  | forward => exact hsuffix
  | backward => exact hsuffix'

end Disciplined

end Rollback

/-! ### What requests leave alone -/

/-- From `a` to `a'` only bytes between the two regions have changed, and the forward cursor has not
gone below what was settled without leaving all of it settled. -/
structure Moves (a a' : Arena) : Prop where
  size : a'.memory.size = a.memory.size
  below : a.memory.SameOn a'.memory 0 (a.settled .forward)
  above : a.memory.SameOn a'.memory a.backward a.memory.size
  settled : a'.settled .forward = a'.forward ∨ a.settled .forward ≤ a'.settled .forward

section Moves

variable {a a' : Arena} {S : Stacks} {c : Checkpoint} {record : Nat}

theorem Moves.of_closed (hmemory : a'.memory = a.memory) (hclosed : Disciplined.Closed a') :
    Moves a a' where
  size := by rw [hmemory]
  below := by rw [hmemory]; exact .refl _ _ _
  above := by rw [hmemory]; exact .refl _ _ _
  settled := .inl (Disciplined.settled_of_closed hclosed)

theorem Moves.of_settled (hmemory : a'.memory = a.memory)
    (hsettled : a'.settled .forward = a.settled .forward) : Moves a a' where
  size := by rw [hmemory]
  below := by rw [hmemory]; exact .refl _ _ _
  above := by rw [hmemory]; exact .refl _ _ _
  settled := .inr (Nat.le_of_eq hsettled.symm)

/-- Bytes are written between the two regions, and the cursors move. -/
theorem Moves.of_written {offset : Nat} {bytes : List UInt8}
    (hmemory : a'.memory = a.memory.write offset bytes) (hlow : a.settled .forward ≤ offset)
    (hhigh : offset + bytes.length ≤ a.backward)
    (hsettled : a'.settled .forward = a'.forward ∨ a.settled .forward ≤ a'.settled .forward) :
    Moves a a' where
  size := by rw [hmemory]; exact Bytes.size_write ..
  below := by rw [hmemory]; exact Bytes.sameOn_write (.inl hlow)
  above := by rw [hmemory]; exact Bytes.sameOn_write (.inr hhigh)
  settled := hsettled

namespace Disciplined

theorem mark_moves (h : Disciplined a S) (d : Direction) : Moves a (after (mark d a)) := by
  have hcursors := h.cursors
  rcases mark_cases d a with ⟨e, hmark⟩ | ⟨hunlocked, hfree, hmark⟩
  · rw [hmark]
    exact .of_settled rfl rfl
  · rw [free] at hfree
    rw [hmark]
    cases d with
    | forward =>
        have hhold := (a.hold_withMark .forward).trans (hunlocked rfl)
        exact .of_written rfl h.settled (show a.forward + markLength ≤ a.backward by omega)
          (.inl (settled_of_closed (closed_of_none hhold)))
    | backward =>
        have hsettled := h.settled
        have hkept : (a.withMark .backward).settled .forward = a.settled .forward := by
          simp only [Arena.settled, hold_withMark, forward_withMark_backward]
        exact .of_written rfl (show _ ≤ a.backward - markLength by omega)
          (show a.backward - markLength + markLength ≤ a.backward by omega)
          (.inr (Nat.le_of_eq hkept.symm))

theorem alloc_moves (d : Direction) (count : Nat) : Moves a (after (alloc d count a)) := by
  rcases alloc_cases d count a with ⟨e, halloc⟩ | ⟨hunlocked, -, halloc⟩
  · rw [halloc]
    exact .of_settled rfl rfl
  · rw [halloc]
    cases d with
    | forward => exact .of_closed rfl (closed_of_none (hunlocked rfl))
    | backward => exact .of_settled rfl rfl

theorem rewind_moved (h : Disciplined a S) (m : Mark) : Moves a (after (rewind m a)) := by
  rcases h.rewind_cases m with ⟨-, -, hrewind⟩ |
    ⟨hunlocked, ⟨-, hrewind⟩ | ⟨e, rest, -, ⟨-, hrewind⟩ | ⟨-, hrewind⟩⟩⟩
  · rw [hrewind]
    exact .of_settled rfl rfl
  · rw [hrewind]
    exact .of_settled rfl rfl
  · rw [hrewind]
    exact .of_settled rfl rfl
  · rw [hrewind]
    cases hdirection : m.direction with
    | forward => exact .of_closed rfl (closed_of_none (hunlocked hdirection))
    | backward => exact .of_settled rfl rfl

theorem dropMark_moved (h : Disciplined a S) (m : Mark) : Moves a (after (dropMark m a)) := by
  rcases h.dropMark_cases m with ⟨-, hdrop⟩ | ⟨e, rest, -, ⟨-, hdrop⟩ | ⟨-, hdrop⟩⟩
  · rw [hdrop]
    exact .of_settled rfl rfl
  · rw [hdrop]
    exact .of_settled rfl rfl
  · rw [hdrop]
    cases m.direction <;> exact .of_settled rfl rfl

theorem lock_moves : Moves a (after (lock a)) := by
  rcases lock_cases a with ⟨e, hlock⟩ | ⟨-, hlock⟩
  · rw [hlock]
    exact .of_settled rfl rfl
  · rw [hlock]
    exact .of_closed rfl (fun held hsome => by cases hsome; rfl)

theorem reserve_moves (l : Lock) (count : Nat) : Moves a (after (reserve l count a)) := by
  rcases reserve_cases l count a with ⟨e, hreserve⟩ | ⟨hold, -, -, hreserve⟩
  · rw [hreserve]
    exact .of_settled rfl rfl
  · rw [hreserve]
    exact .of_settled rfl rfl

theorem claim_moves (l : Lock) (count : Nat) : Moves a (after (claim l count a)) := by
  rcases claim_cases l count a with ⟨e, hclaim⟩ | ⟨hold, n, -, -, -, hclaim⟩
  · rw [hclaim]
    exact .of_settled rfl rfl
  · rw [hclaim]
    exact .of_closed rfl (fun held hsome => by cases hsome; rfl)

theorem push_moves (l : Lock) (count : Nat) : Moves a (after (push l count a)) := by
  rcases push_cases l count a with ⟨e, hpush⟩ | ⟨hold, hhold, hreserved, -, hpush⟩
  · rw [hpush]
    exact .of_settled rfl rfl
  · rw [hpush]
    exact .of_closed rfl (closed_of_some hhold hreserved)

theorem unlock_moves (l : Lock) : Moves a (after (unlock l a)) := by
  rcases unlock_cases l a with ⟨e, hunlock⟩ | ⟨hold, -, hunlock⟩
  · rw [hunlock]
    exact .of_settled rfl rfl
  · rw [hunlock]
    exact .of_closed rfl (closed_of_none rfl)

theorem zero_moves (h : Disciplined a S) : Moves a a.zeroFree := by
  have hcursors := h.cursors
  have hkept : a.zeroFree.settled .forward = a.settled .forward := by
    rw [Arena.settled, Arena.settled, zeroFree]
  refine .of_written rfl h.settled ?_ (.inr (Nat.le_of_eq hkept.symm))
  rw [List.length_replicate, free]
  omega

/-- No request but a write touches what is settled. -/
theorem act_moves (h : Disciplined a S) (r : Request)
    (hwrite : ∀ offset bytes, r ≠ .write offset bytes) : Moves a (r.act a) := by
  cases r with
  | alloc d count => exact alloc_moves d count
  | allocDefault count => exact alloc_moves a.direction count
  | mark d => exact h.mark_moves d
  | markDefault => exact h.mark_moves a.direction
  | rewind m => exact h.rewind_moved m
  | dropMark m => exact h.dropMark_moved m
  | pushDirection d =>
      rw [Request.act, pushDirection]
      split <;> exact .of_settled rfl rfl
  | popDirection =>
      rw [Request.act, popDirection]
      split <;> exact .of_settled rfl rfl
  | lock => exact lock_moves
  | reserve l count => exact reserve_moves l count
  | claim l count => exact claim_moves l count
  | push l count => exact push_moves l count
  | unlock l => exact unlock_moves l
  | zero => exact h.zero_moves
  | write offset bytes => exact (hwrite offset bytes rfl).elim

theorem unwind_moves (h : Disciplined a S) (hzero : record ≠ 0) :
    Moves a (after (unwind record a)) := by
  rcases h.unwind_cases hzero with ⟨-, hunwind⟩ | ⟨newer, e, -, -, hunwind⟩
  · rw [hunwind]
    exact .of_settled rfl rfl
  · rw [hunwind]
    exact .of_settled rfl rfl

theorem restore_cases (c : Checkpoint) (a : Arena) :
    restore c a = .error .staleCheckpoint a ∨
      a.Reaches c ∧ restore c a = .ok () (a.restored c) := by
  rw [restore]
  by_cases hreaches : a.Reaches c
  · rw [if_pos hreaches]
    exact .inr ⟨hreaches, rfl⟩
  · rw [if_neg hreaches]
    exact .inl rfl

theorem restore_moves (c : Checkpoint) : Moves a (after (restore c a)) := by
  rcases restore_cases c a with hrestore | ⟨-, hrestore⟩
  · rw [hrestore]
    exact .of_settled rfl rfl
  · rw [hrestore]
    exact .of_closed rfl (closed_of_none rfl)

/-- The buffer never changes its size. -/
theorem act_size (h : Disciplined a S) (r : Request) :
    (r.act a).memory.size = a.memory.size := by
  by_cases hwrite : ∃ offset bytes, r = .write offset bytes
  · obtain ⟨offset, bytes, rfl⟩ := hwrite
    rw [Request.act, write]
    split
    · exact Bytes.size_write ..
    · rfl
  · exact (h.act_moves r fun offset bytes hr => hwrite ⟨offset, bytes, hr⟩).size

end Disciplined

end Moves

/-! ### Records under a lock -/

/-- No record of the forward cursor ends above the start of what is set aside under the lock. -/
structure Anchored (a : Arena) (S : Stacks) (hold : Hold) : Prop where
  start : hold.start ≤ a.forward
  below : ∀ e ∈ S.forward, e.record + markLength ≤ hold.start

section Anchored

variable {a a' : Arena} {S S' : Stacks} {L : Ledger} {record : Nat}

/-- A lock whose reservation begins where everything is settled. -/
theorem Disciplined.anchored_settled {hold : Hold} (h : Disciplined a S)
    (hstart : hold.start = a.settled .forward) : Anchored a S hold where
  start := hstart ▸ h.settled
  below _ he := hstart ▸ ((h.chained .forward).inRegion he).2

/-- The arena is anchored, whatever lock is held on it. -/
def IsAnchored (a : Arena) (S : Stacks) : Prop := ∀ hold, a.hold = some hold → Anchored a S hold

theorem isAnchored_of_none (hnone : a.hold = none) : IsAnchored a S := by
  intro hold hhold
  rw [hnone] at hhold
  contradiction

/-- A lock stays anchored while the forward cursor grows and no mark is added to it. -/
theorem IsAnchored.kept (h : IsAnchored a S) (hhold : a'.hold = a.hold)
    (hforward : a.forward ≤ a'.forward) (hmarks : S'.forward ⊆ S.forward) : IsAnchored a' S' := by
  intro hold hsome
  rw [hhold] at hsome
  exact ⟨Nat.le_trans (h hold hsome).start hforward, fun e he => (h hold hsome).below e (hmarks he)⟩

theorem IsAnchored.alloc (h : IsAnchored a S) (d : Direction) (count : Nat) :
    IsAnchored (after (alloc d count a)) S := by
  rcases alloc_cases d count a with ⟨e, halloc⟩ | ⟨hunlocked, -, halloc⟩
  · rwa [halloc]
  · rw [halloc]
    cases d with
    | forward => exact isAnchored_of_none (hunlocked rfl)
    | backward => exact h.kept rfl (Nat.le_refl _) (List.Subset.refl _)

theorem IsAnchored.mark (h : IsAnchored a S) (d : Direction) :
    IsAnchored (after (mark d a)) (S.taken a d (mark d a)) := by
  rcases mark_cases d a with ⟨e, hmark⟩ | ⟨hunlocked, -, hmark⟩
  · rwa [hmark]
  · rw [hmark]
    cases d with
    | forward => exact isAnchored_of_none ((a.hold_withMark .forward).trans (hunlocked rfl))
    | backward =>
        exact h.kept (a.hold_withMark .backward) (Nat.le_of_eq a.forward_withMark_backward.symm)
          (List.Subset.refl _)

theorem IsAnchored.rewind (h : IsAnchored a S) (hd : Disciplined a S) (m : Mark) :
    IsAnchored (after (rewind m a)) (S.released m.direction (rewind m a)) := by
  rcases hd.rewind_cases m with ⟨-, -, hrewind⟩ |
    ⟨hunlocked, ⟨-, hrewind⟩ | ⟨e, rest, -, ⟨-, hrewind⟩ | ⟨-, hrewind⟩⟩⟩
  · rwa [hrewind]
  · rwa [hrewind]
  · rwa [hrewind]
  · rw [hrewind]
    cases hdirection : m.direction with
    | forward => exact isAnchored_of_none (hunlocked hdirection)
    | backward => exact h.kept rfl (Nat.le_refl _) (List.Subset.refl _)

theorem IsAnchored.dropMark (h : IsAnchored a S) (hd : Disciplined a S) (m : Mark) :
    IsAnchored (after (dropMark m a)) (S.released m.direction (dropMark m a)) := by
  rcases hd.dropMark_cases m with ⟨-, hdrop⟩ | ⟨e, rest, -, ⟨-, hdrop⟩ | ⟨-, hdrop⟩⟩
  · rwa [hdrop]
  · rwa [hdrop]
  · rw [hdrop]
    cases m.direction with
    | forward => exact h.kept rfl (Nat.le_refl _) fun e he => List.mem_of_mem_tail he
    | backward => exact h.kept rfl (Nat.le_refl _) (List.Subset.refl _)

theorem IsAnchored.lock (h : IsAnchored a S) (hd : Disciplined a S) :
    IsAnchored (after (lock a)) S := by
  have hlocked := hd.act_lock
  rcases Disciplined.lock_cases a with ⟨e, hlock⟩ | ⟨-, hlock⟩
  · rwa [hlock]
  · rw [hlock] at hlocked ⊢
    intro hold hsome
    cases hsome
    exact hlocked.anchored_settled rfl

theorem IsAnchored.reserve (h : IsAnchored a S) (hd : Disciplined a S) (l : Lock) (count : Nat) :
    IsAnchored (after (reserve l count a)) S := by
  have hreserved := hd.act_reserve l count
  rcases Disciplined.reserve_cases l count a with ⟨e, hreserve⟩ | ⟨hold, -, -, hreserve⟩
  · rwa [hreserve]
  · rw [hreserve] at hreserved ⊢
    intro hold hsome
    cases hsome
    exact hreserved.anchored_settled rfl

theorem IsAnchored.claim (h : IsAnchored a S) (hd : Disciplined a S) (l : Lock) (count : Nat) :
    IsAnchored (after (claim l count a)) S := by
  rcases Disciplined.claim_cases l count a with ⟨e, hclaim⟩ | ⟨hold, n, hhold, hreserved, -, hclaim⟩
  · rwa [hclaim]
  · rw [hclaim]
    intro held hsome
    cases hsome
    have hanchored := hd.anchored_settled (Disciplined.settled_of_open hhold hreserved).symm
    exact ⟨Nat.le_add_right .., hanchored.below⟩

theorem IsAnchored.push (h : IsAnchored a S) (l : Lock) (count : Nat) :
    IsAnchored (after (push l count a)) S := by
  rcases Disciplined.push_cases l count a with ⟨e, hpush⟩ | ⟨hold, -, -, -, hpush⟩
  · rwa [hpush]
  · rw [hpush]
    exact h.kept rfl (Nat.le_add_right ..) (List.Subset.refl _)

theorem IsAnchored.unlock (h : IsAnchored a S) (l : Lock) : IsAnchored (after (unlock l a)) S := by
  rcases Disciplined.unlock_cases l a with ⟨e, hunlock⟩ | ⟨hold, -, hunlock⟩
  · rwa [hunlock]
  · rw [hunlock]
    exact isAnchored_of_none rfl

/-- Every request keeps a lock anchored, granted or not. -/
theorem IsAnchored.act (h : IsAnchored a S) (hd : Disciplined a S) (r : Request) :
    IsAnchored (r.act a) (r.track S a) := by
  cases r with
  | alloc d count => exact h.alloc d count
  | allocDefault count => exact h.alloc a.direction count
  | mark d => exact h.mark d
  | markDefault => exact h.mark a.direction
  | rewind m => exact h.rewind hd m
  | dropMark m => exact h.dropMark hd m
  | lock => exact h.lock hd
  | reserve l count => exact h.reserve hd l count
  | claim l count => exact h.claim hd l count
  | push l count => exact h.push l count
  | unlock l => exact h.unlock l
  | zero => exact h.kept rfl (Nat.le_refl _) (List.Subset.refl _)
  | pushDirection d =>
      rw [Request.act, pushDirection]
      split <;> exact h.kept rfl (Nat.le_refl _) (List.Subset.refl _)
  | popDirection =>
      rw [Request.act, popDirection]
      split <;> exact h.kept rfl (Nat.le_refl _) (List.Subset.refl _)
  | write offset bytes =>
      rw [Request.act, Arena.write]
      split <;> exact h.kept rfl (Nat.le_refl _) (List.Subset.refl _)

theorem IsAnchored.unwind (h : IsAnchored a S) (hd : Disciplined a S) (hzero : record ≠ 0) :
    IsAnchored (after (unwind record a)) (S.unwound record) := by
  have hsame : (S.unwound record).forward = S.forward := by
    rw [Stacks.unwound]
    split <;> rfl
  rcases hd.unwind_cases hzero with ⟨-, hunwind⟩ | ⟨newer, e, -, -, hunwind⟩
  · rw [hunwind]
    exact h.kept rfl (Nat.le_refl _) (hsame ▸ List.Subset.refl _)
  · rw [hunwind]
    exact h.kept rfl (Nat.le_refl _) (hsame ▸ List.Subset.refl _)

end Anchored

/-! ### Order -/

/-- The marks and the lock of an arena are in order, and so are the checkpoints that were taken. -/
structure Orderly (a : Arena) (S : Stacks) (L : Ledger) : Prop extends Disciplined a S where
  anchored : IsAnchored a S
  checkpoints : ∀ c ∈ L.checkpoints, Sound a.capacity c

section Orderly

variable {a a' : Arena} {S : Stacks} {L L' : Ledger} {record : Nat}

theorem orderly_create {size : Nat} (h : create size = .ok a) : Orderly a {} {} where
  toDisciplined := disciplined_create h
  anchored := by
    apply isAnchored_of_none
    rw [create] at h
    split at h
    · injection h with h
      rw [← h]
    · contradiction
  checkpoints c hc := nomatch hc

/-- Being careful spares the outstanding marks. -/
theorem Disciplined.spares (h : Disciplined a S) {r : Request} (hcareful : Careful a r) :
    r.Spares S := by
  cases r with
  | write offset bytes =>
      intro d e he
      apply hcareful d e.record
      · rw [h.trail_eq, List.mem_append]
        exact .inl (List.mem_map_of_mem he)
      · exact h.record_pos ((h.chained d).inRegion he)
  | _ => trivial

namespace Orderly

theorem act (h : Orderly a S L) (r : Request) (hcareful : Careful a r) :
    Orderly (r.act a) (r.track S a) (L.asked a r) where
  toDisciplined := h.toDisciplined.act r (h.spares hcareful)
  anchored := h.anchored.act h.toDisciplined r
  checkpoints := by
    rw [capacity, h.act_size r]
    exact h.checkpoints

theorem checkpoint (h : Orderly a S L) : Orderly a S (L.taken a.checkpoint) where
  toDisciplined := h.toDisciplined
  anchored := h.anchored
  checkpoints c hc := by
    rcases List.mem_cons.1 hc with rfl | hc
    · exact h.checkpoint_sound
    · exact h.checkpoints c hc

theorem restore (h : Orderly a S L) {c : Checkpoint} (hc : c ∈ L.checkpoints) :
    ∃ S', (∀ d, S'.of d <:+ S.of d) ∧
      Orderly (after (restore c a)) S' (L.settle (after (restore c a))) := by
  rcases Disciplined.restore_cases c a with hrestore | ⟨hreaches, hrestore⟩
  · rw [hrestore]
    exact ⟨S, fun d => List.suffix_refl _, h.toDisciplined, h.anchored, h.checkpoints⟩
  · rw [hrestore]
    obtain ⟨S', hsuffix, hrestored⟩ := h.restored (h.checkpoints c hc) hreaches
    exact ⟨S', hsuffix, hrestored, isAnchored_of_none rfl, h.checkpoints⟩

theorem unwind (h : Orderly a S L) (hzero : record ≠ 0) :
    Orderly (after (unwind record a)) (S.unwound record) (L.settle (after (unwind record a))) where
  toDisciplined := h.act_unwind hzero
  anchored := h.anchored.unwind h.toDisciplined hzero
  checkpoints := by
    rw [capacity, (h.unwind_moves hzero).size]
    exact h.checkpoints

end Orderly

/-- Every trace keeps everything in order while no record on a chain is written over. -/
theorem Trace.orderly (trace : Trace Careful a L a' L') :
    (∃ S, Orderly a S L) → ∃ S', Orderly a' S' L' := by
  induction trace with
  | refl => exact id
  | ask trace r hcareful ih =>
      intro h
      obtain ⟨S, h⟩ := ih h
      exact ⟨_, h.act r hcareful⟩
  | checkpoint trace ih =>
      intro h
      obtain ⟨S, h⟩ := ih h
      exact ⟨S, h.checkpoint⟩
  | restore trace hc ih =>
      intro h
      obtain ⟨S, h⟩ := ih h
      obtain ⟨S', -, h'⟩ := h.restore hc
      exact ⟨S', h'⟩
  | scope hwithin trace hmark body hafter inside ih ihinside =>
      intro h
      obtain ⟨S, h⟩ := ih h
      have hmarked := h.act (.mark .backward) trivial
      rw [Request.act, hmark] at hmarked
      obtain ⟨S', h'⟩ := ihinside ⟨_, hmarked⟩
      rw [after_borrow hwithin hmark, hafter]
      exact ⟨_, h'.unwind (h.mark_record_pos hmark)⟩
  | refused hwithin trace hmark body ih =>
      intro h
      obtain ⟨S, h⟩ := ih h
      rw [after_borrow_refused hwithin hmark]
      rcases mark_cases .backward _ with ⟨e, hcases⟩ | ⟨-, -, hcases⟩
      · cases hmark.symm.trans hcases
        exact ⟨S, h⟩
      · cases hmark.symm.trans hcases

end Orderly

end Arena

end FlatLisp
