/-
Module: FlatLisp.Proofs.Arena.Shift
Purpose: What one request does to the marks on a cursor and to where the cursor has settled. From this
  follows what cannot be undone without giving up an old mark: as long as all marks of some earlier time
  are outstanding, the cursor stays past where it was then.
Main exports: Arena.Shift, Arena.Disciplined.act_shift, Arena.Disciplined.unwind_shift, Arena.Above,
  Arena.Shift.above, Arena.Shift.suffix
-/
import FlatLisp.Proofs.Arena.Trace

namespace FlatLisp

/-- The cursor of a direction at a checkpoint. -/
def Checkpoint.cursor (c : Checkpoint) : Direction → Nat
  | .forward => c.forward
  | .backward => c.backward

namespace Arena

@[simp] theorem cursor_checkpoint (a : Arena) (d : Direction) :
    a.checkpoint.cursor d = a.cursor d := by
  cases d <;> rfl

/-- What can become in one step of the marks on the cursor of `d` and of the place where it has settled,
while the checkpoints that can be rolled back to are `known`. -/
inductive Shift (known : List Checkpoint) (d : Direction) :
    (marks : List Outstanding) → (settled : Nat) →
    (marks' : List Outstanding) → (settled' : Nat) → Prop where
  /-- The cursor moves on. Marks may be forgotten. -/
  | on {marks marks' : List Outstanding} {settled settled' : Nat} (hsuffix : marks' <:+ marks)
      (hgrown : Grown d settled settled') : Shift known d marks settled marks' settled'
  | taken {marks : List Outstanding} {e : Outstanding} {settled settled' : Nat}
      (hsaved : Grown d settled e.saved) (hgrown : Grown d e.saved settled') :
      Shift known d marks settled (e :: marks) settled'
  /-- The cursor moves back to where a mark was taken, and that mark and all newer ones are gone. -/
  | back (newer : List Outstanding) (e : Outstanding) (marks : List Outstanding) (settled : Nat) :
      Shift known d (newer ++ e :: marks) settled marks e.saved
  | restored {marks marks' : List Outstanding} {settled : Nat} {c : Checkpoint} (hc : c ∈ known)
      (hsuffix : marks' <:+ marks) : Shift known d marks settled marks' (c.cursor d)

theorem Shift.still {known : List Checkpoint} {d : Direction} {marks : List Outstanding}
    {settled settled' : Nat} (h : settled' = settled) : Shift known d marks settled marks settled' :=
  .on (List.suffix_refl _) (h ▸ .refl ..)

/-! ### One request -/

section Requests

variable {a : Arena} {S : Stacks} {known : List Checkpoint} {record : Nat} {c : Checkpoint}

/-- A request that does not touch the marks or the backward cursor, and under which the forward cursor
never goes back below what has settled. -/
theorem shift_of_grown {a' : Arena} (hbackward : a'.backward = a.backward)
    (hgrown : a.settled .forward ≤ a'.settled .forward) (d : Direction) :
    Shift known d (S.of d) (a.settled d) (S.of d) (a'.settled d) := by
  cases d with
  | forward => exact .on (List.suffix_refl _) hgrown
  | backward => exact .still hbackward

/-- What is settled depends on the forward cursor and the lock alone. -/
theorem settled_forward_congr {a' : Arena} (hforward : a'.forward = a.forward)
    (hhold : a'.hold = a.hold) : a'.settled .forward = a.settled .forward := by
  rw [settled, settled, hforward, hhold]

namespace Disciplined

theorem alloc_shift (d' : Direction) (count : Nat) (d : Direction) :
    Shift known d (S.of d) (a.settled d) (S.of d) ((after (alloc d' count a)).settled d) := by
  rcases alloc_cases d' count a with ⟨e, halloc⟩ | ⟨hunlocked, -, halloc⟩
  · rw [halloc]
    exact .still rfl
  · rw [halloc, after]
    cases d' with
    | forward =>
        have hhold := hunlocked rfl
        have hsettled : (a.allocated count .forward).settled .forward = a.forward + count :=
          settled_of_closed (closed_of_none hhold)
        refine shift_of_grown ?_ ?_ d
        · rfl
        · rw [hsettled, settled_of_closed (closed_of_none hhold)]
          exact Nat.le_add_right ..
    | backward =>
        cases d with
        | forward => exact .still rfl
        | backward => exact .on (List.suffix_refl _) (Nat.sub_le ..)

theorem mark_shift (h : Disciplined a S) (d' d : Direction) :
    Shift known d (S.of d) (a.settled d) ((S.taken a d' (mark d' a)).of d)
      ((after (mark d' a)).settled d) := by
  rcases mark_cases d' a with ⟨e, hmark⟩ | ⟨hunlocked, -, hmark⟩
  · rw [hmark]
    exact .still rfl
  · rw [hmark, after]
    cases d' with
    | forward =>
        cases d with
        | forward =>
            have hsettled : (a.withMark .forward).settled .forward = a.forward + markLength :=
              settled_of_closed (closed_of_none ((hold_withMark ..).trans (hunlocked rfl)))
            rw [hsettled]
            exact .taken h.settled (Nat.le_add_right ..)
        | backward => exact .still rfl
    | backward =>
        cases d with
        | forward =>
            exact .still (settled_forward_congr (forward_withMark_backward a) (hold_withMark ..))
        | backward => exact .taken (Nat.le_refl _) (Nat.sub_le ..)

theorem rewind_shift (h : Disciplined a S) (m : Mark) (d : Direction) :
    Shift known d (S.of d) (a.settled d) ((S.released m.direction (rewind m a)).of d)
      ((after (rewind m a)).settled d) := by
  rcases h.rewind_cases m with ⟨-, -, hrewind⟩ |
    ⟨hunlocked, ⟨-, hrewind⟩ | ⟨e, rest, hmarks, ⟨-, hrewind⟩ | ⟨-, hrewind⟩⟩⟩
  · rw [hrewind]
    exact .still rfl
  · rw [hrewind]
    exact .still rfl
  · rw [hrewind]
    exact .still rfl
  · rw [hrewind, after, Stacks.released, hmarks]
    obtain ⟨direction, record⟩ := m
    cases direction with
    | forward =>
        cases d with
        | forward =>
            have hsettled : ((a.withCursor .forward e.saved).withLastMark .forward
                (headRecord rest)).settled .forward = e.saved :=
              settled_of_closed (closed_of_none (hunlocked rfl))
            rw [show S.of .forward = e :: rest from hmarks, hsettled]
            exact .back [] e rest _
        | backward => exact .still rfl
    | backward =>
        cases d with
        | forward => exact .still rfl
        | backward =>
            rw [show S.of .backward = e :: rest from hmarks]
            exact .back [] e rest _

theorem dropMark_shift (h : Disciplined a S) (m : Mark) (d : Direction) :
    Shift known d (S.of d) (a.settled d) ((S.released m.direction (dropMark m a)).of d)
      ((after (dropMark m a)).settled d) := by
  rcases h.dropMark_cases m with ⟨-, hdrop⟩ | ⟨e, rest, hmarks, ⟨-, hdrop⟩ | ⟨-, hdrop⟩⟩
  · rw [hdrop]
    exact .still rfl
  · rw [hdrop]
    exact .still rfl
  · have hsettled : (a.withLastMark m.direction (headRecord rest)).settled d = a.settled d := by
      cases m.direction <;> cases d <;> rfl
    rw [hdrop, Stacks.released]
    refine .on ?_ (hsettled ▸ .refl ..)
    cases m.direction <;> cases d <;> first | exact List.suffix_refl _ | exact List.tail_suffix _

theorem lock_shift (d : Direction) :
    Shift known d (S.of d) (a.settled d) (S.of d) ((after (lock a)).settled d) := by
  rcases lock_cases a with ⟨e, hlock⟩ | ⟨hhold, hlock⟩
  · rw [hlock]
    exact .still rfl
  · rw [hlock]
    refine shift_of_grown ?_ ?_ d
    · rfl
    · exact Nat.le_of_eq (settled_of_closed (closed_of_none hhold))

theorem reserve_shift (l : Lock) (count : Nat) (d : Direction) :
    Shift known d (S.of d) (a.settled d) (S.of d) ((after (reserve l count a)).settled d) := by
  rcases reserve_cases l count a with ⟨e, hreserve⟩ | ⟨hold, -, -, hreserve⟩
  · rw [hreserve]
    exact .still rfl
  · rw [hreserve]
    exact shift_of_grown rfl (Nat.le_refl _) d

theorem claim_shift (l : Lock) (count : Nat) (d : Direction) :
    Shift known d (S.of d) (a.settled d) (S.of d) ((after (claim l count a)).settled d) := by
  rcases claim_cases l count a with ⟨e, hclaim⟩ | ⟨hold, n, hhold, hreserved, -, hclaim⟩
  · rw [hclaim]
    exact .still rfl
  · rw [hclaim]
    refine shift_of_grown ?_ ?_ d
    · rfl
    · rw [settled_of_open hhold hreserved]
      exact Nat.le_add_right ..

theorem push_shift (l : Lock) (count : Nat) (d : Direction) :
    Shift known d (S.of d) (a.settled d) (S.of d) ((after (push l count a)).settled d) := by
  rcases push_cases l count a with ⟨e, hpush⟩ | ⟨hold, hhold, hreserved, -, hpush⟩
  · rw [hpush]
    exact .still rfl
  · have hclosed := closed_of_some hhold hreserved
    have hsettled : ({ a with forward := a.forward + count } : Arena).settled .forward =
        a.forward + count := settled_of_closed hclosed
    rw [hpush, after]
    refine shift_of_grown ?_ ?_ d
    · rfl
    · rw [hsettled, settled_of_closed hclosed]
      exact Nat.le_add_right ..

theorem unlock_shift (l : Lock) (d : Direction) :
    Shift known d (S.of d) (a.settled d) (S.of d) ((after (unlock l a)).settled d) := by
  rcases unlock_cases l a with ⟨e, hunlock⟩ | ⟨hold, -, hunlock⟩
  · rw [hunlock]
    exact .still rfl
  · rw [hunlock]
    exact shift_of_grown rfl (Nat.le_refl _) d

/-- Every request shifts the marks and the cursors, granted or not. -/
theorem act_shift (h : Disciplined a S) (r : Request) (d : Direction) :
    Shift known d (S.of d) (a.settled d) ((r.track S a).of d) ((r.act a).settled d) := by
  cases r with
  | alloc d' count => exact alloc_shift d' count d
  | allocDefault count => exact alloc_shift a.direction count d
  | mark d' => exact h.mark_shift d' d
  | markDefault => exact h.mark_shift a.direction d
  | rewind m => exact h.rewind_shift m d
  | dropMark m => exact h.dropMark_shift m d
  | lock => exact lock_shift d
  | reserve l count => exact reserve_shift l count d
  | claim l count => exact claim_shift l count d
  | push l count => exact push_shift l count d
  | unlock l => exact unlock_shift l d
  | zero => exact shift_of_grown rfl (Nat.le_refl _) d
  | pushDirection d' =>
      rw [Request.act, pushDirection]
      split <;> exact shift_of_grown rfl (Nat.le_refl _) d
  | popDirection =>
      rw [Request.act, popDirection]
      split <;> exact shift_of_grown rfl (Nat.le_refl _) d
  | write offset bytes =>
      rw [Request.act, Arena.write]
      split <;> exact shift_of_grown rfl (Nat.le_refl _) d

/-- So does unwinding a mark, with all that came after it. -/
theorem unwind_shift (h : Disciplined a S) (hzero : record ≠ 0) (d : Direction) :
    Shift known d (S.of d) (a.settled d) ((S.unwound record).of d)
      ((after (unwind record a)).settled d) := by
  rw [Stacks.unwound]
  rcases h.unwind_cases hzero with ⟨hfound, hunwind⟩ | ⟨newer, e, hsplit, he, hunwind⟩
  · rw [if_neg hfound, hunwind]
    exact .still rfl
  · have hmem : record ∈ S.backward.map (·.record) := by
      rw [hsplit, List.map_append, List.mem_append]
      exact .inr (List.mem_map.2 ⟨e, .head _, he⟩)
    rw [if_pos hmem, hunwind]
    cases d with
    | forward => exact .still rfl
    | backward =>
        have hback : Shift known .backward (newer ++ e :: older record S.backward) a.backward
            (older record S.backward) e.saved := .back ..
        rw [← hsplit] at hback
        exact hback

end Disciplined

end Requests

/-! ### What stays below -/

/-- Below the marks on the cursor of `d` are all that there were in `base`, and neither the cursor nor
anything that the newer marks can take it back to is below `start`. -/
structure Above (d : Direction) (base : List Outstanding) (start : Nat) (marks : List Outstanding)
    (settled : Nat) : Prop where
  newer : ∃ newer, marks = newer ++ base ∧ ∀ e ∈ newer, Grown d start e.saved
  settled : Grown d start settled

section Above

variable {known : List Checkpoint} {d : Direction} {m : Bytes} {base marks marks' : List Outstanding}
  {start settled settled' bound : Nat}

/-- Newer marks may be given up as long as none of `base` is. -/
theorem Above.of_suffix (h : Above d base start marks settled) (hsuffix : marks' <:+ marks)
    (hbase : base <:+ marks') (hgrown : Grown d start settled') :
    Above d base start marks' settled' := by
  obtain ⟨newer, rfl, hnewer⟩ := h.newer
  obtain ⟨newer', rfl⟩ := hbase
  obtain ⟨given, hgiven⟩ := hsuffix
  rw [← List.append_assoc] at hgiven
  have hsplit : given ++ newer' = newer := List.append_cancel_right hgiven
  exact ⟨⟨newer', rfl, fun e he => hnewer e (hsplit ▸ List.mem_append_right _ he)⟩, hgrown⟩

/-- Nothing takes the cursor below `start` while the marks of `base` are outstanding. -/
theorem Shift.above (h : Shift known d marks settled marks' settled')
    (habove : Above d base start marks settled) (hknown : ∀ c ∈ known, Grown d start (c.cursor d))
    (hbase : base <:+ marks') : Above d base start marks' settled' := by
  cases h with
  | on hsuffix hgrown => exact habove.of_suffix hsuffix hbase (habove.settled.trans hgrown)
  | @taken _ e _ _ hsaved hgrown =>
      obtain ⟨newer, hmarks, hnewer⟩ := habove.newer
      have hstart := habove.settled.trans hsaved
      refine ⟨⟨e :: newer, by rw [hmarks, List.cons_append], ?_⟩, hstart.trans hgrown⟩
      exact List.forall_mem_cons.2 ⟨hstart, hnewer⟩
  | back given e =>
      have hsuffix : marks' <:+ given ++ e :: marks' :=
        (List.suffix_cons e marks').trans (List.suffix_append given _)
      -- The mark that is rewound is newer than those of `base`, which are still there.
      obtain ⟨newer, hmarks, hnewer⟩ := habove.newer
      obtain ⟨newer', rfl⟩ := hbase
      have hsplit : given ++ e :: newer' = newer := by
        refine List.append_cancel_right (?_ : _ ++ base = _ ++ base)
        rw [← hmarks, List.append_assoc, List.cons_append]
      have he : e ∈ newer := hsplit ▸ List.mem_append_right _ (.head _)
      exact habove.of_suffix hsuffix ⟨newer', rfl⟩ (hnewer e he)
  | restored hc hsuffix => exact habove.of_suffix hsuffix hbase (hknown _ hc)

/-- The marks of `base` are all outstanding while the most recent of them is. -/
theorem suffix_of_headRecord (hchained : Chained m d bound marks) (hbase : base <:+ marks)
    (hpos : ∀ e ∈ marks, e.record ≠ 0) (hsuffix : marks' <:+ marks)
    (hhead : headRecord base ∈ marks'.map (·.record) ++ [0]) : base <:+ marks' := by
  cases base with
  | nil => exact List.nil_suffix
  | cons e rest =>
      have hmem : e.record ∈ marks'.map (·.record) := by
        refine (List.mem_append.1 hhead).resolve_right fun hzero => ?_
        exact hpos e (hbase.subset (.head _)) (List.mem_singleton.1 hzero)
      rcases List.suffix_or_suffix_of_suffix hbase hsuffix with hthere | hless
      · exact hthere
      · rcases List.suffix_cons_iff.1 hless with rfl | hless
        · exact List.suffix_refl _
        · have hnodup := (hchained.of_suffix hbase).nodup
          rw [List.map_cons, List.nodup_cons] at hnodup
          exact absurd ((hless.map _).subset hmem) hnodup.1

/-- After one step, too. -/
theorem Shift.suffix (h : Shift known d marks settled marks' settled')
    (hchained : Chained m d bound marks) (hbase : base <:+ marks) (hpos : ∀ e ∈ marks, e.record ≠ 0)
    (hhead : headRecord base ∈ marks'.map (·.record) ++ [0]) : base <:+ marks' := by
  cases h with
  | on hsuffix => exact suffix_of_headRecord hchained hbase hpos hsuffix hhead
  | taken => exact hbase.trans (List.suffix_cons ..)
  | back given e =>
      have hsuffix : marks' <:+ given ++ e :: marks' :=
        (List.suffix_cons e marks').trans (List.suffix_append given _)
      exact suffix_of_headRecord hchained hbase hpos hsuffix hhead
  | restored _ hsuffix => exact suffix_of_headRecord hchained hbase hpos hsuffix hhead

end Above

end Arena

end FlatLisp
