/-
Module: FlatLisp.Proofs.Guard.Recovery
Purpose: The boundary around reads at top level. Whenever a guarded read fails, arena and reader are
  back where they were when the checkpoint was taken, and what is read afterwards is read as by a new
  reader. The checkpoint is never lost.
Main exports: Guard.Reached, Guard.Stage, Guard.Recovered, Guard.reached_recovers
-/
import FlatLisp.Proofs.Guard.Outcomes
import FlatLisp.Proofs.Reading.Delivery
import FlatLisp.Proofs.Reading.Locked
import FlatLisp.Proofs.Reading.Shortage

namespace FlatLisp

/-- How a guard reports a read that failed, the checkpoint being there. -/
def ReadError.outcome : ReadError → Outcome
  | .rejected why => .rejected why
  | .fault why => .aborted why

namespace Guard

open Reading

/-- The states that a guard and a reader come to, and the arena as it was when the checkpoint was
taken. The first checkpoint is taken in an arena whose cursors are in order. Between values what was
read may be dropped or kept. -/
inductive Reached : Guard → Reading → Arena → Prop where
  | establish {r : Reader} {a : Arena} (hidle : r.isIdle = true)
      (hpushback : r.pushback.length ≤ Reader.pushbackCapacity)
      (hdepth : r.maxDepth ≤ Cell.maxNesting) (ha : a.Bounded) (source : Source) :
      Reached (establish a) ⟨r, source, a⟩ a
  | read {g : Guard} {s : Reading} {taken : Arena} (h : Reached g s taken) :
      Reached (g.read s).2.1 (g.read s).2.2 taken
  | release {g : Guard} {s : Reading} {taken : Arena} (h : Reached g s taken)
      (hidle : s.reader.isIdle = true) :
      Reached g ⟨s.reader, s.source, after (g.release s.arena)⟩ taken
  | keep {g : Guard} {s : Reading} {taken : Arena} (h : Reached g s taken)
      (hidle : s.reader.isIdle = true) : Reached (g.keep s.arena) s s.arena

/-! ### What a guarded read works on -/

/-- All that the arena was at the checkpoint is still there, and the reader is somewhere in a value
that began later. Or the forward cursor is locked by somebody else, and nothing has begun. -/
inductive Stage (taken : Arena) (s : Reading) : Prop where
  | underway {l : Limits} {b : Arena} {p : Parse} (hlimits : LimitsOf l b) (hvalid : p.Valid l)
      (htracks : Tracks l b p s) (hcontinues : taken.Continues b)
  | locked (hgrounded : Grounded taken s) (hdepth : s.reader.maxDepth ≤ Cell.maxNesting)

section Stage

variable {taken a : Arena} {s t : Reading}

/-- How deep lists may be nested does not change. -/
theorem depth_read (s : Reading) : (after (Reading.read s)).reader.maxDepth = s.reader.maxDepth := by
  have hparallel := blind_read s s.reader.count
  generalize Reading.read s = result at hparallel
  generalize Reading.read (s.withPosition s.reader.count) = result' at hparallel
  cases hparallel with
  | ok status t n hdepth => exact hdepth
  | error he t n hdepth => exact hdepth

theorem Stage.depth (h : Stage taken s) : s.reader.maxDepth ≤ Cell.maxNesting := by
  cases h with
  | underway hlimits hvalid htracks hcontinues =>
      rw [htracks.maxDepth]
      exact hlimits.depth
  | locked hgrounded hdepth => exact hdepth

/-- A read that does not fail goes on to the next stage. One that fails leaves all that was there at
the checkpoint. -/
theorem Stage.read (h : Stage taken s) :
    match Reading.read s with
    | .ok _ t => Stage taken t
    | .error why t => taken.Covers t.arena ∧ why ≠ .fault (.arena .staleCheckpoint) := by
  have hdepth := depth_read s
  have hnesting := h.depth
  cases h with
  | underway hlimits hvalid htracks hcontinues =>
      have hanswers := answers_read hlimits hvalid htracks
      have hsound := Parse.sound_read hvalid
      have hexplained := Parse.explained_read hvalid
      cases hresult : Reading.read s with
      | ok status t =>
          rw [hresult] at hanswers
          cases status with
          | done place =>
              obtain ⟨tree, q, houtcome, -, hfinished, hnext⟩ := hanswers.of_done
              rw [houtcome] at hsound
              exact .underway (hfinished.limits hlimits) hsound.2 hnext
                (hcontinues.trans hfinished.laid.continues)
          | pending =>
              obtain ⟨q, houtcome, hnext⟩ := hanswers.of_pending
              rw [houtcome] at hsound
              exact .underway hlimits hsound hnext hcontinues
      | error why t =>
          rw [hresult] at hanswers
          obtain ⟨houtcome, hcovers⟩ := hanswers.of_error
          rw [houtcome] at hexplained
          refine ⟨hcontinues.trans_covers hcovers, ?_⟩
          rintro rfl
          exact hexplained
  | locked hgrounded =>
      have hrests := rests_read s hgrounded
      cases hresult : Reading.read s with
      | ok status t =>
          rw [hresult] at hrests hdepth
          exact .locked hrests.1 (hdepth ▸ hnesting)
      | error why t =>
          rw [hresult] at hrests
          exact ⟨hrests.1 ▸ (Arena.Continues.refl taken).covers, hrests.2⟩

/-- The reader is between values in an arena that nobody has locked. -/
theorem stage_of_ready (hready : Ready s.reader s.arena) (hcontinues : taken.Continues s.arena) :
    Stage taken s :=
  .underway hready.limitsOf (Ready.valid s.source) (hready.tracks s.source) hcontinues

/-- A checkpoint may be taken whenever the reader is between values. -/
theorem stage_of_idle (hidle : s.reader.isIdle = true)
    (hpushback : s.reader.pushback.length ≤ Reader.pushbackCapacity)
    (hdepth : s.reader.maxDepth ≤ Cell.maxNesting) (ha : s.arena.Bounded) : Stage s.arena s := by
  cases hhold : s.arena.hold with
  | none =>
      have hunlocked : s.arena.isLocked = false := by rw [Arena.isLocked, hhold]; rfl
      exact stage_of_ready ⟨hidle, hpushback, hdepth, ha, hunlocked⟩ (.refl _)
  | some hold =>
      simp only [Reader.isIdle, Bool.and_eq_true, beq_iff_eq, Option.isNone_iff_eq_none] at hidle
      exact .locked ⟨rfl, ⟨hold, hhold⟩, hidle.1, hidle.2, hpushback⟩ hdepth

/-- Between values nothing is lost, and nothing is in progress. -/
theorem Stage.idle (hb : taken.Bounded) (h : Stage taken s) (hidle : s.reader.isIdle = true) :
    s.reader.pushback.length ≤ Reader.pushbackCapacity ∧ s.arena.Bounded ∧
      taken.Continues s.arena := by
  cases h with
  | underway hlimits hvalid htracks hcontinues =>
      simp only [Reader.isIdle, Bool.and_eq_true, beq_iff_eq] at hidle
      have hlaid := htracks.laid_idle hlimits hidle.1
      exact ⟨htracks.pushback, hlaid.bounded hlimits.bounded, hcontinues.trans hlaid.continues⟩
  | locked hgrounded hdepth =>
      rw [hgrounded.arena]
      exact ⟨hgrounded.pushback, hb, .refl taken⟩

/-- After the arena was rolled back, and with nothing in progress, all is as at the checkpoint. -/
theorem stage_restored (hb : taken.Bounded) (hcovers : taken.Covers a) (r : Reader)
    (hidle : r.isIdle = true) (hpushback : r.pushback.length ≤ Reader.pushbackCapacity)
    (hdepth : r.maxDepth ≤ Cell.maxNesting) (source : Source) :
    Stage taken ⟨r, source, a.restored taken.checkpoint⟩ :=
  stage_of_ready ⟨hidle, hpushback, hdepth, hcovers.alike.bounded hb, rfl⟩ hcovers.alike.continues

end Stage

/-! ### Recovering -/

/-- The guard can go back to where the arena was, which is `taken`. -/
structure Guarded (g : Guard) (s : Reading) (taken : Arena) : Prop where
  checkpoint : g.checkpoint = taken.checkpoint
  bounded : taken.Bounded
  stage : Stage taken s

section Guarded

variable {g : Guard} {s t : Reading} {taken : Arena}

/-- Recovering rolls the arena back and makes the reader forget what was in progress. -/
theorem recover_covers (hcheckpoint : g.checkpoint = taken.checkpoint)
    (hcovers : taken.Covers t.arena) (why : ReadError) :
    (g.recover why t).1 = why.outcome ∧ (g.recover why t).2.1.checkpoint = g.checkpoint ∧
      (g.recover why t).2.2 =
        ⟨t.reader.reset, t.source, t.arena.restored taken.checkpoint⟩ := by
  obtain ⟨r, source, a⟩ := t
  rw [recover, hcheckpoint, hcovers.restore_ok]
  cases why <;> exact ⟨rfl, rfl, rfl⟩

/-- A guarded read goes on to the next stage, or it fails and everything is as at the checkpoint. -/
theorem Guarded.read_cases (h : Guarded g s taken) :
    (∃ status t, Reading.read s = .ok status t ∧ (g.read s).2 = (g, t) ∧ Stage taken t) ∨
      ∃ (why : ReadError) (t : Reading), (g.read s).1 = why.outcome ∧
        why ≠ .fault (.arena .staleCheckpoint) ∧
        (g.read s).2.1.checkpoint = taken.checkpoint ∧ taken.Covers t.arena ∧
        t.reader.maxDepth = s.reader.maxDepth ∧
        (g.read s).2.2 = ⟨t.reader.reset, t.source, t.arena.restored taken.checkpoint⟩ := by
  have hstage := h.stage.read
  have hdepth := depth_read s
  cases hresult : Reading.read s with
  | ok status t =>
      rw [hresult] at hstage
      refine .inl ⟨status, t, rfl, ?_, hstage⟩
      rw [Guard.read, hresult]
      cases status <;> rfl
  | error why t =>
      rw [hresult] at hstage hdepth
      obtain ⟨houtcome, hcheckpoint, hstate⟩ := recover_covers h.checkpoint hstage.1 why
      have hread : g.read s = g.recover why t := by rw [Guard.read, hresult]
      refine .inr ⟨why, t, ?_, hstage.2, ?_, hstage.1, hdepth, ?_⟩
      · rw [hread, houtcome]
      · rw [hread, hcheckpoint, h.checkpoint]
      · rw [hread, hstate]

theorem Guarded.release (h : Guarded g s taken) (hidle : s.reader.isIdle = true) :
    g.release s.arena = .ok () (s.arena.restored taken.checkpoint) := by
  obtain ⟨-, -, hcontinues⟩ := h.stage.idle h.bounded hidle
  rw [Guard.release, h.checkpoint]
  exact hcontinues.covers.restore_ok

/-- The guard can always go back. -/
theorem guarded_of_reached (h : Reached g s taken) : Guarded g s taken := by
  induction h with
  | @establish r a hidle hpushback hdepth ha source =>
      exact ⟨rfl, ha, @stage_of_idle ⟨r, source, a⟩ hidle hpushback hdepth ha⟩
  | @read g s taken _ ih =>
      rcases ih.read_cases with ⟨status, t, -, hread, hstage⟩ |
        ⟨why, t, -, -, hcheckpoint, hcovers, hdepth, hstate⟩
      · rw [hread]
        exact ⟨ih.checkpoint, ih.bounded, hstage⟩
      · rw [hstate]
        exact ⟨hcheckpoint, ih.bounded,
          stage_restored ih.bounded hcovers t.reader.reset rfl (Nat.zero_le _)
            (hdepth ▸ ih.stage.depth) t.source⟩
  | @release g s taken _ hidle ih =>
      obtain ⟨hpushback, -, hcontinues⟩ := ih.stage.idle ih.bounded hidle
      rw [ih.release hidle]
      exact ⟨ih.checkpoint, ih.bounded,
        stage_restored ih.bounded hcontinues.covers s.reader hidle hpushback ih.stage.depth
          s.source⟩
  | @keep g s taken _ hidle ih =>
      obtain ⟨hpushback, ha, -⟩ := ih.stage.idle ih.bounded hidle
      exact ⟨rfl, ha, stage_of_idle hidle hpushback ih.stage.depth ha⟩

end Guarded

/-- After a failure: the arena is what it was at the checkpoint, the reader is between values, and
all that comes later is read as by a new reader. -/
structure Recovered (g : Guard) (s : Reading) (taken : Arena) : Prop where
  guarded : g.checkpoint = taken.checkpoint
  checkpoint : s.arena.checkpoint = g.checkpoint
  trail : ∀ d, s.arena.trail d = taken.trail d
  unlocked : s.arena.isLocked = false
  idle : s.reader.isIdle = true
  pushback : s.reader.pushback = []
  below : ∀ i < g.checkpoint.forward, s.arena.memory.get i = taken.memory.get i
  above : ∀ i, g.checkpoint.backward ≤ i → i < taken.capacity →
    s.arena.memory.get i = taken.memory.get i
  later : ∀ actions, (outcomes actions g s).map Outcome.unplaced =
    (outcomes actions (establish s.arena)
      ⟨Reader.ofDepth s.reader.maxDepth, s.source, s.arena⟩).map Outcome.unplaced

theorem recovered_of_covers {g : Guard} {t : Reading} {taken : Arena}
    (hcheckpoint : g.checkpoint = taken.checkpoint) (hcovers : taken.Covers t.arena)
    (hdepth : t.reader.maxDepth ≤ Cell.maxNesting) :
    Recovered g ⟨t.reader.reset, t.source, t.arena.restored taken.checkpoint⟩ taken where
  guarded := hcheckpoint
  checkpoint := hcheckpoint.symm
  trail := hcovers.alike.trail_eq
  unlocked := rfl
  idle := rfl
  pushback := rfl
  below i hi := hcovers.below i (Nat.zero_le _) (by rw [hcheckpoint] at hi; exact hi)
  above i hlow hhigh := hcovers.above i (by rw [hcheckpoint] at hlow; exact hlow) hhigh
  later actions := by
    have hfresh : Reader.ofDepth t.reader.reset.maxDepth = { maxDepth := t.reader.maxDepth } := by
      rw [Reader.ofDepth, show t.reader.reset.maxDepth = t.reader.maxDepth from rfl,
        Nat.min_eq_left hdepth]
    rw [hfresh]
    refine outcomes_eq ?_ actions
    exact ⟨hcheckpoint, t.reader.count, rfl⟩

/-- Wherever a guard and its reader come to: a read that fails recovers, and the checkpoint is never
lost, neither for a read nor for giving up what was read. -/
theorem reached_recovers {g : Guard} {s : Reading} {taken : Arena} (h : Reached g s taken) :
    (∀ o g' s', g.read s = (o, g', s') →
      ((∃ why, o = .rejected why) ∨ ∃ why, o = .aborted why) →
        Recovered g' s' taken ∧ s'.reader.maxDepth = s.reader.maxDepth) ∧
    (g.read s).1 ≠ .aborted (.arena .staleCheckpoint) ∧
    (s.reader.isIdle = true → ∃ a, g.release s.arena = .ok () a) := by
  have hguarded := guarded_of_reached h
  refine ⟨fun o g' s' hread hfailed => ?_, fun hstale => ?_, fun hidle => ⟨_, hguarded.release hidle⟩⟩
  · rcases hguarded.read_cases with ⟨status, t, hresult, -⟩ |
      ⟨why, t, -, -, hcheckpoint, hcovers, hdepth, hstate⟩
    · have houtcome : o = (g.read s).1 := by rw [hread]
      rw [Guard.read, hresult] at houtcome
      cases status <;> subst houtcome <;>
        rcases hfailed with ⟨why, hwhy⟩ | ⟨why, hwhy⟩ <;> cases hwhy
    · rw [hread] at hcheckpoint hstate
      dsimp only at hcheckpoint hstate
      rw [hstate]
      exact ⟨recovered_of_covers hcheckpoint hcovers (hdepth ▸ hguarded.stage.depth), hdepth⟩
  · rcases hguarded.read_cases with ⟨status, t, hresult, -⟩ | ⟨why, t, houtcome, hwhy, -⟩
    · rw [Guard.read, hresult] at hstale
      cases status <;> cases hstale
    · rw [houtcome] at hstale
      cases why with
      | rejected why => cases hstale
      | fault why =>
          injection hstale with hfault
          rw [hfault] at hwhy
          exact hwhy rfl

/-- A list is open when its sigil turns out to have no value. -/
theorem reached_recovers_dangling : ∃ a g s, Arena.create 64 = .ok a ∧ Reached g s a ∧
    (g.read s).1 = .rejected ⟨.danglingSigil, 2, some 41⟩ ∧
    Recovered (g.read s).2.1 (g.read s).2.2 a := by
  obtain ⟨a, hcreate⟩ : ∃ a, Arena.create 64 = .ok a := ⟨_, rfl⟩
  have hready := ready_create 4 hcreate
  have hreached : Reached (establish a) ⟨Reader.ofDepth 4, .ofBytes [40, 39, 41], a⟩ a :=
    .establish hready.idle hready.pushback hready.depth hready.bounded _
  have houtcome : ((establish a).read ⟨Reader.ofDepth 4, .ofBytes [40, 39, 41], a⟩).1 =
      .rejected ⟨.danglingSigil, 2, some 41⟩ := by
    cases hcreate
    decide +kernel
  exact ⟨a, establish a, _, hcreate, hreached, houtcome,
    ((reached_recovers hreached).1 _ _ _ rfl (.inl ⟨_, houtcome⟩)).1⟩

end Guard

end FlatLisp
