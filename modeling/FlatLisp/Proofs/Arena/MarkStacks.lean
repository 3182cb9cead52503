/-
Module: FlatLisp.Proofs.Arena.MarkStacks
Purpose: The marks of an arena are two independent stacks along every run. A run asks for anything in
  any order, and may go through borrowings, which discard what was marked meanwhile.
Main exports: Arena.Run, Arena.Run.disciplined, Arena.KeepsStacks, Arena.run_keepsStacks
-/
import FlatLisp.Arena.Checkpoint
import FlatLisp.Proofs.Arena.Discipline

namespace FlatLisp

/-! ### Borrowings -/

/-- The marks that were taken before the one whose record is `record`. -/
def older (record : Nat) : List Outstanding → List Outstanding
  | [] => []
  | e :: rest => if e.record = record then rest else older record rest

theorem exists_older {record : Nat} {marks : List Outstanding}
    (h : record ∈ marks.map (·.record)) :
    ∃ newer e, marks = newer ++ e :: older record marks ∧ e.record = record := by
  induction marks with
  | nil => contradiction
  | cons first rest ih =>
      by_cases hfirst : first.record = record
      · exact ⟨[], first, by rw [older, if_pos hfirst, List.nil_append], hfirst⟩
      · rw [List.map_cons, List.mem_cons] at h
        obtain ⟨newer, e, hsplit, he⟩ := ih (h.resolve_left (Ne.symm hfirst))
        refine ⟨first :: newer, e, ?_, he⟩
        rw [older, if_neg hfirst, List.cons_append, ← hsplit]

/-- The marks once the backward mark at `record` was unwound, with all that came after it. -/
def Stacks.unwound (S : Stacks) (record : Nat) : Stacks :=
  if record ∈ S.backward.map (·.record) then S.withMarks .backward (older record S.backward) else S

/-- Unwinding takes no mark. -/
theorem Stacks.mem_of_unwound {S : Stacks} {record : Nat} {d : Direction} {e : Outstanding}
    (h : e ∈ (S.unwound record).of d) : e ∈ S.of d := by
  rw [unwound] at h
  split at h
  · rename_i hfound
    obtain ⟨newer, e', hsplit, -⟩ := exists_older hfound
    cases d with
    | forward => exact h
    | backward =>
        rw [of_withMarks] at h
        rw [show S.of .backward = newer ++ e' :: older record S.backward from hsplit]
        exact List.mem_append_right _ (.tail _ h)
  · exact h

namespace Arena

/-- A program does what is asked of the arena, and takes its errors as `convert` says. -/
structure Within {ε : Type} [MonadLiftT ArenaM (EStateM ε Arena)] (convert : ArenaError → ε) :
    Prop where
  ok {α : Type} {job : ArenaM α} {a a' : Arena} {x : α} (h : job a = .ok x a') :
    (monadLift job : EStateM ε Arena α) a = .ok x a'
  error {α : Type} {job : ArenaM α} {a a' : Arena} {e : ArenaError} (h : job a = .error e a') :
    (monadLift job : EStateM ε Arena α) a = .error (convert e) a'

/-- The arena's own requests. -/
theorem within_id : Within (id : ArenaError → ArenaError) where
  ok h := h
  error h := h

section Borrowing

variable {a : Arena} {S : Stacks} {record : Nat}

/-- Unwinding is refused where the mark is not outstanding, or gives back the mark and what came after
it. -/
theorem Disciplined.unwind_cases (h : Disciplined a S) (hzero : record ≠ 0) :
    (record ∉ S.backward.map (·.record) ∧ unwind record a = .error .markMismatch a) ∨
      ∃ newer e, S.backward = newer ++ e :: older record S.backward ∧ e.record = record ∧
        unwind record a = .ok ()
          { a with backward := e.saved, backwardMark := headRecord (older record S.backward) } := by
  have hmem : record ∈ a.trail .backward ↔ record ∈ S.backward.map (·.record) := by
    rw [h.trail_eq, List.mem_append, List.mem_singleton]
    exact ⟨fun h => h.resolve_right hzero, .inl⟩
  rw [unwind, get_bind]
  by_cases hfound : record ∈ S.backward.map (·.record)
  · obtain ⟨newer, e, hsplit, he⟩ := exists_older hfound
    refine .inr ⟨newer, e, hsplit, he, ?_⟩
    rw [if_pos (hmem.2 hfound)]
    have hchained := h.chained .backward
    rw [show S.of .backward = newer ++ e :: older record S.backward from hsplit] at hchained
    have hrelinked := h.relinked hchained.of_append
    have hmodify : (modify (·.withLastMark .backward record) : ArenaM Unit) a =
        .ok () (a.withLastMark .backward record) := rfl
    rw [headRecord, he] at hrelinked
    have hlatest := hrelinked.latest_eq ⟨.backward, record⟩
    dsimp only at hlatest
    rw [Stacks.of_withMarks] at hlatest
    dsimp only at hlatest
    rw [if_pos he] at hlatest
    rw [bind_ok hmodify, rewind_ok (fun h => by cases h) hlatest]
    rfl
  · rw [if_neg (mt hmem.1 hfound)]
    exact .inl ⟨hfound, rfl⟩

/-- Unwinding a mark keeps the stacks, also where the mark is not outstanding. -/
theorem Disciplined.act_unwind (h : Disciplined a S) (hzero : record ≠ 0) :
    Disciplined (after (unwind record a)) (S.unwound record) := by
  rw [Stacks.unwound]
  rcases h.unwind_cases hzero with ⟨hfound, hunwind⟩ | ⟨newer, e, hsplit, he, hunwind⟩
  · rw [if_neg hfound, hunwind]
    exact h
  · have hmem : record ∈ S.backward.map (·.record) := by
      rw [hsplit, List.map_append, List.mem_append]
      exact .inr (List.mem_map.2 ⟨e, .head _, he⟩)
    have hchained := h.chained .backward
    rw [show S.of .backward = newer ++ e :: older record S.backward from hsplit] at hchained
    have hrewound := (h.relinked hchained.of_append).rewound (Stacks.of_withMarks ..)
      (fun h => by cases h)
    rw [if_pos hmem, hunwind]
    exact hrewound

section Within

variable {ε α : Type} [MonadLiftT ArenaM (EStateM ε Arena)] {convert : ArenaError → ε}
  {body : EStateM ε Arena α} {a a' : Arena}

/-- A borrowing ends with the unwinding of its mark, however its body ended. -/
theorem after_borrow (h : Within convert) {m : Mark} (hmark : mark .backward a = .ok m a') :
    after (borrow body a) = after (unwind m.record (after (body a'))) := by
  rw [borrow, bind_ok (h.ok hmark)]
  cases hbody : body a' with
  | ok x s =>
      rw [bind_ok (attempt_ok hbody)]
      cases hunwind : unwind m.record s with
      | ok _ s' =>
          rw [bind_ok (h.ok hunwind)]
          simp only [after, hunwind]
          rfl
      | error e s' =>
          rw [bind_error (h.error hunwind)]
          simp only [after, hunwind]
  | error e s =>
      rw [bind_ok (attempt_error hbody)]
      cases hunwind : unwind m.record s with
      | ok _ s' =>
          rw [bind_ok (h.ok hunwind)]
          simp only [after, hunwind]
          rfl
      | error e s' =>
          rw [bind_error (h.error hunwind)]
          simp only [after, hunwind]

/-- A borrowing whose mark is refused does not begin. -/
theorem after_borrow_refused (h : Within convert) {e : ArenaError}
    (hmark : mark .backward a = .error e a') : after (borrow body a) = a' := by
  rw [borrow, bind_error (h.error hmark)]
  rfl

end Within

end Borrowing

/-! ### Runs -/

/-- What can become of an arena and its outstanding marks. What is asked may depend on all that was
answered before. -/
inductive Run : Arena → Stacks → Arena → Stacks → Prop where
  | refl (a : Arena) (S : Stacks) : Run a S a S
  | ask {a a' : Arena} {S S' : Stacks} (run : Run a S a' S') (r : Request) (hspares : r.Spares S') :
      Run a S (r.act a') (r.track S' a')
  /-- A borrowing whose body makes a run of its own. -/
  | scope {a a₁ a₂ a₃ : Arena} {S S₁ S₂ : Stacks} {m : Mark} {ε α : Type}
      [MonadLiftT ArenaM (EStateM ε Arena)] {convert : ArenaError → ε} (hwithin : Within convert)
      (run : Run a S a₁ S₁) (hmark : mark .backward a₁ = .ok m a₂)
      (body : EStateM ε Arena α) (hafter : after (body a₂) = a₃)
      (inside : Run a₂ (S₁.taken a₁ .backward (.ok m a₂)) a₃ S₂) :
      Run a S (after (borrow body a₁)) (S₂.unwound m.record)
  /-- A borrowing that does not get its mark. -/
  | refused {a a₁ a₂ : Arena} {S S₁ : Stacks} {e : ArenaError} {ε α : Type}
      [MonadLiftT ArenaM (EStateM ε Arena)] {convert : ArenaError → ε} (hwithin : Within convert)
      (run : Run a S a₁ S₁) (hmark : mark .backward a₁ = .error e a₂)
      (body : EStateM ε Arena α) :
      Run a S (after (borrow body a₁)) S₁

/-- The record of a new mark is never at zero. -/
theorem Disciplined.mark_record_pos {a a' : Arena} {S : Stacks} {d : Direction} {m : Mark}
    (h : Disciplined a S) (hmark : mark d a = .ok m a') : m.record ≠ 0 := by
  have hmarked := h.act_mark d
  rw [hmark] at hmarked
  have hchained := hmarked.chained d
  rw [Stacks.taken, Stacks.of_withMarks] at hchained
  exact hmarked.record_pos hchained.1

/-- Every run keeps the chains in step with the stacks. -/
theorem Run.disciplined {a a' : Arena} {S S' : Stacks} (run : Run a S a' S') :
    Disciplined a S → Disciplined a' S' := by
  induction run with
  | refl => exact id
  | ask run r hspares ih => exact fun h => (ih h).act r hspares
  | scope hwithin run hmark body hafter inside ih ihinside =>
      intro h
      have hmarked := (ih h).act_mark .backward
      rw [hmark] at hmarked
      rw [after_borrow hwithin hmark, hafter]
      exact (ihinside hmarked).act_unwind ((ih h).mark_record_pos hmark)
  | refused hwithin run hmark body ih =>
      intro h
      have hmarked := (ih h).act_mark .backward
      rw [hmark] at hmarked
      rw [after_borrow_refused hwithin hmark]
      exact hmarked

/-- Every arena that a run leads to has its cursors where they can be. -/
theorem Run.bounded {size : Nat} {fresh a : Arena} {S : Stacks} (hcreate : create size = .ok fresh)
    (run : Run fresh {} a S) : a.Bounded :=
  (run.disciplined (disciplined_create hcreate)).bounded

/-! ### What the stacks say -/

/-- The mark is the most recent one of its cursor, and was taken when that stood at `saved`. -/
def MostRecent (S : Stacks) (m : Mark) (saved : Nat) : Prop :=
  (S.of m.direction).head? = some ⟨m.record, saved⟩

/-- The marks of the arena behave as two independent stacks, which are `S`. -/
structure KeepsStacks (a : Arena) (S : Stacks) : Prop where
  /-- Each chain of records is the stack. -/
  trail : ∀ d, a.trail d = (S.of d).map (·.record) ++ [0]
  /-- A record identifies its mark. -/
  distinct : ∀ d, ((S.of d).map (·.record)).Nodup
  rewind_iff : ∀ m, (∃ a', rewind m a = .ok () a') ↔
    (∃ saved, MostRecent S m saved) ∧ (m.direction = .forward → a.isLocked = false)
  /-- The cursor goes back to where the mark was taken; the other one and its marks stay. -/
  rewind_moves : ∀ m saved a', MostRecent S m saved → rewind m a = .ok () a' →
    a'.cursor m.direction = saved ∧
      a'.cursor m.direction.opposite = a.cursor m.direction.opposite ∧
      a'.trail m.direction.opposite = a.trail m.direction.opposite
  rewind_error : ∀ m e a', rewind m a = .error e a' → a' = a ∧ e =
    if m.direction = .forward ∧ a.isLocked = true then .locked
    else if S.of m.direction = [] then .rewindTooFar
    else .markMismatch
  dropMark_iff : ∀ m, (∃ a', dropMark m a = .ok () a') ↔ ∃ saved, MostRecent S m saved
  /-- No cursor moves; the marks of the other one stay. -/
  dropMark_moves : ∀ m a', dropMark m a = .ok () a' →
    (∀ d, a'.cursor d = a.cursor d) ∧
      a'.trail m.direction.opposite = a.trail m.direction.opposite
  dropMark_error : ∀ m e a', dropMark m a = .error e a' → a' = a ∧ e =
    if S.of m.direction = [] then .rewindTooFar else .markMismatch
  forwardMarks : a.stats.forwardMarks = S.forward.length
  backwardMarks : a.stats.backwardMarks = S.backward.length

section KeepsStacks

variable {a a' : Arena} {S : Stacks} {m : Mark} {e : Outstanding} {rest : List Outstanding}

theorem mostRecent_iff_of_cons (hmarks : S.of m.direction = e :: rest) {saved : Nat} :
    MostRecent S m saved ↔ e.record = m.record ∧ e.saved = saved := by
  rw [MostRecent, hmarks, List.head?_cons, Option.some_inj]
  constructor
  · rintro rfl
    exact ⟨rfl, rfl⟩
  · rintro ⟨hrecord, rfl⟩
    rw [← hrecord]

theorem not_mostRecent_of_nil (hmarks : S.of m.direction = []) (saved : Nat) :
    ¬ MostRecent S m saved := by
  rw [MostRecent, hmarks]
  exact fun h => by cases h

namespace Disciplined

/-- What happens to the marks of one cursor does not show on the chain of the other. -/
theorem trail_opposite {d : Direction} {marks : List Outstanding} (h : Disciplined a S)
    (h' : Disciplined a' (S.withMarks d marks)) : a'.trail d.opposite = a.trail d.opposite := by
  rw [h'.trail_eq, h.trail_eq, Stacks.of_withMarks_opposite]

/-- A rewind that is granted moves one cursor and shortens its stack. -/
theorem rewind_granted (h : Disciplined a S) (hrewind : rewind m a = .ok () a') :
    (m.direction = .forward → a.hold = none) ∧
      ∃ e rest, S.of m.direction = e :: rest ∧ e.record = m.record ∧
        a' = (a.withCursor m.direction e.saved).withLastMark m.direction (headRecord rest) := by
  rcases h.rewind_cases m with ⟨-, -, herror⟩ |
    ⟨hunlocked, ⟨-, herror⟩ | ⟨e, rest, hmarks, ⟨-, herror⟩ | ⟨hrecord, hok⟩⟩⟩
  · cases herror.symm.trans hrewind
  · cases herror.symm.trans hrewind
  · cases herror.symm.trans hrewind
  · rw [hok] at hrewind
    cases hrewind
    exact ⟨hunlocked, e, rest, hmarks, hrecord, rfl⟩

theorem dropMark_granted (h : Disciplined a S) (hdrop : dropMark m a = .ok () a') :
    ∃ e rest, S.of m.direction = e :: rest ∧ e.record = m.record ∧
      a' = a.withLastMark m.direction (headRecord rest) := by
  rcases h.dropMark_cases m with ⟨-, herror⟩ | ⟨e, rest, hmarks, ⟨-, herror⟩ | ⟨hrecord, hok⟩⟩
  · cases herror.symm.trans hdrop
  · cases herror.symm.trans hdrop
  · rw [hok] at hdrop
    cases hdrop
    exact ⟨e, rest, hmarks, hrecord, rfl⟩

theorem rewind_iff (h : Disciplined a S) (m : Mark) :
    (∃ a', rewind m a = .ok () a') ↔
      (∃ saved, MostRecent S m saved) ∧ (m.direction = .forward → a.isLocked = false) := by
  have hopen : a.isLocked = false ↔ a.hold = none := by
    rw [isLocked, Option.isSome_eq_false_iff, Option.isNone_iff_eq_none]
  rw [hopen]
  constructor
  · rintro ⟨a', hrewind⟩
    obtain ⟨hunlocked, e, rest, hmarks, hrecord, -⟩ := h.rewind_granted hrewind
    exact ⟨⟨e.saved, (mostRecent_iff_of_cons hmarks).2 ⟨hrecord, rfl⟩⟩, hunlocked⟩
  · rintro ⟨⟨saved, hrecent⟩, hunlocked⟩
    rcases h.rewind_cases m with ⟨hforward, ⟨hold, hhold⟩, -⟩ |
      ⟨-, ⟨hmarks, -⟩ | ⟨e, rest, hmarks, ⟨hne, -⟩ | ⟨-, hok⟩⟩⟩
    · rw [hunlocked hforward] at hhold
      cases hhold
    · exact absurd hrecent (not_mostRecent_of_nil hmarks saved)
    · exact absurd ((mostRecent_iff_of_cons hmarks).1 hrecent).1 hne
    · exact ⟨_, hok⟩

theorem rewind_moves (h : Disciplined a S) {saved : Nat} (hrecent : MostRecent S m saved)
    (hrewind : rewind m a = .ok () a') :
    a'.cursor m.direction = saved ∧
      a'.cursor m.direction.opposite = a.cursor m.direction.opposite ∧
      a'.trail m.direction.opposite = a.trail m.direction.opposite := by
  obtain ⟨hunlocked, e, rest, hmarks, hrecord, rfl⟩ := h.rewind_granted hrewind
  obtain ⟨-, rfl⟩ := (mostRecent_iff_of_cons hmarks).1 hrecent
  refine ⟨?_, ?_, ?_⟩
  · cases m.direction <;> rfl
  · cases m.direction <;> rfl
  · exact h.trail_opposite (h.rewound hmarks hunlocked)

theorem rewind_error (h : Disciplined a S) {err : ArenaError}
    (hrewind : rewind m a = .error err a') :
    a' = a ∧ err =
      if m.direction = .forward ∧ a.isLocked = true then .locked
      else if S.of m.direction = [] then .rewindTooFar
      else .markMismatch := by
  rcases h.rewind_cases m with ⟨hforward, ⟨hold, hhold⟩, herror⟩ | ⟨hunlocked, hcases⟩
  · rw [herror] at hrewind
    cases hrewind
    rw [if_pos ⟨hforward, by rw [isLocked, hhold]; rfl⟩]
    exact ⟨rfl, rfl⟩
  · rw [if_neg fun hlocked => by rw [isLocked, hunlocked hlocked.1] at hlocked; cases hlocked.2]
    rcases hcases with ⟨hmarks, herror⟩ | ⟨e, rest, hmarks, ⟨-, herror⟩ | ⟨-, hok⟩⟩
    · rw [herror] at hrewind
      cases hrewind
      rw [if_pos hmarks]
      exact ⟨rfl, rfl⟩
    · rw [herror] at hrewind
      cases hrewind
      rw [if_neg (by rw [hmarks]; exact List.cons_ne_nil e rest)]
      exact ⟨rfl, rfl⟩
    · cases hok.symm.trans hrewind

theorem dropMark_iff (h : Disciplined a S) (m : Mark) :
    (∃ a', dropMark m a = .ok () a') ↔ ∃ saved, MostRecent S m saved := by
  constructor
  · rintro ⟨a', hdrop⟩
    obtain ⟨e, rest, hmarks, hrecord, -⟩ := h.dropMark_granted hdrop
    exact ⟨e.saved, (mostRecent_iff_of_cons hmarks).2 ⟨hrecord, rfl⟩⟩
  · rintro ⟨saved, hrecent⟩
    rcases h.dropMark_cases m with ⟨hmarks, -⟩ | ⟨e, rest, hmarks, ⟨hne, -⟩ | ⟨-, hok⟩⟩
    · exact absurd hrecent (not_mostRecent_of_nil hmarks saved)
    · exact absurd ((mostRecent_iff_of_cons hmarks).1 hrecent).1 hne
    · exact ⟨_, hok⟩

theorem dropMark_moves (h : Disciplined a S) (hdrop : dropMark m a = .ok () a') :
    (∀ d, a'.cursor d = a.cursor d) ∧
      a'.trail m.direction.opposite = a.trail m.direction.opposite := by
  obtain ⟨e, rest, hmarks, -, rfl⟩ := h.dropMark_granted hdrop
  constructor
  · intro d
    cases m.direction <;> cases d <;> rfl
  · exact h.trail_opposite (h.dropped hmarks)

theorem dropMark_error (h : Disciplined a S) {err : ArenaError}
    (hdrop : dropMark m a = .error err a') :
    a' = a ∧ err = if S.of m.direction = [] then .rewindTooFar else .markMismatch := by
  rcases h.dropMark_cases m with ⟨hmarks, herror⟩ | ⟨e, rest, hmarks, ⟨-, herror⟩ | ⟨-, hok⟩⟩
  · rw [herror] at hdrop
    cases hdrop
    rw [if_pos hmarks]
    exact ⟨rfl, rfl⟩
  · rw [herror] at hdrop
    cases hdrop
    rw [if_neg (by rw [hmarks]; exact List.cons_ne_nil e rest)]
    exact ⟨rfl, rfl⟩
  · cases hok.symm.trans hdrop

theorem keepsStacks (h : Disciplined a S) : KeepsStacks a S where
  trail := h.trail_eq
  distinct d := (h.chained d).nodup
  rewind_iff := h.rewind_iff
  rewind_moves _ _ _ := h.rewind_moves
  rewind_error _ _ _ := h.rewind_error
  dropMark_iff := h.dropMark_iff
  dropMark_moves _ _ := h.dropMark_moves
  dropMark_error _ _ _ := h.dropMark_error
  forwardMarks := h.markCount_eq .forward
  backwardMarks := h.markCount_eq .backward

end Disciplined

/-- Whatever a run asks of a fresh arena, its marks are two independent stacks. -/
theorem run_keepsStacks {size : Nat} {fresh : Arena} (hcreate : create size = .ok fresh)
    (run : Run fresh {} a S) : KeepsStacks a S :=
  (run.disciplined (disciplined_create hcreate)).keepsStacks

/-- A mark in each direction, and a borrowing that fails after one more. -/
theorem run_keepsStacks_scope : ∃ fresh a,
    create 64 = .ok fresh ∧ Run fresh {} a { forward := [⟨2, 2⟩], backward := [⟨60, 64⟩] } ∧
      KeepsStacks a { forward := [⟨2, 2⟩], backward := [⟨60, 64⟩] } := by
  obtain ⟨fresh, hcreate⟩ : ∃ fresh, create 64 = .ok fresh := ⟨_, rfl⟩
  obtain ⟨a, run⟩ : ∃ a, Run fresh {} a { forward := [⟨2, 2⟩], backward := [⟨60, 64⟩] } := by
    have hmarks := ((Run.refl fresh {}).ask (.mark .forward) trivial).ask (.mark .backward) trivial
    cases hcreate
    have hscope := hmarks.scope within_id (mark_backward_ok (by decide))
      (mark .backward *> throw .markMismatch : ArenaM Unit) rfl
      ((Run.refl _ _).ask (.mark .backward) trivial)
    exact ⟨_, hscope⟩
  exact ⟨fresh, a, hcreate, run, run_keepsStacks hcreate run⟩

end KeepsStacks

end Arena

end FlatLisp
