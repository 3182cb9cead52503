/-
Module: FlatLisp.Proofs.Reading.Locked
Purpose: Reading into an arena whose forward cursor is locked by somebody else. Blanks and comments
  are skipped as ever, and the first value fails before anything is changed in the arena.
Main exports: Reading.Grounded, Reading.Rests, Reading.rests_read
-/
import FlatLisp.Proofs.Reading.Positions

namespace FlatLisp

namespace Reading

/-- The reader is between values, and the arena is `a`, which is locked. -/
structure Grounded (a : Arena) (s : Reading) : Prop where
  arena : s.arena = a
  locked : ∃ hold, a.hold = some hold
  root : s.reader.root = 0
  lock : s.reader.lock = none
  pushback : s.reader.pushback.length ≤ Reader.pushbackCapacity

/-- The part of a read leaves the arena as it is. If it does not fail, the reader is still between
values, and the answer is such as `post` says. -/
def Rests {α : Type} (a : Arena) (job : ReadM α) (post : α → Prop) : Prop :=
  ∀ s, Grounded a s → match job s with
    | .ok x t => Grounded a t ∧ post x
    | .error why t => t.arena = a ∧ why ≠ .fault (.arena .staleCheckpoint)

section Rules

variable {α β : Type} {a : Arena} {post : α → Prop} {post' : β → Prop}

theorem Rests.bind {job : ReadM α} {next : α → ReadM β} (h : Rests a job post)
    (hnext : ∀ x, post x → Rests a (next x) post') : Rests a (job >>= next) post' := by
  intro s hs
  have hjob := h s hs
  cases hresult : job s with
  | ok x t =>
      rw [hresult] at hjob
      rw [bind_ok hresult]
      exact hnext x hjob.2 t hjob.1
  | error why t =>
      rw [hresult] at hjob
      rw [bind_error hresult]
      exact hjob

theorem rests_pure {x : α} (h : post x) : Rests a (pure x) post := fun _ hs => ⟨hs, h⟩

theorem rests_get {next : Reading → ReadM α} (h : ∀ s, Grounded a s → Rests a (next s) post) :
    Rests a (get >>= next) post :=
  fun s hs => h s hs s hs

theorem rests_reject (cause : Rejection.Cause) (found : Option UInt8) :
    Rests a (reject cause found) post :=
  fun _ hs => ⟨hs.arena, ReadError.noConfusion⟩

theorem rests_setComment (inComment : Bool) :
    Rests a (modifyReader ({ · with inComment })) fun _ => True :=
  fun _ hs => ⟨⟨hs.arena, hs.locked, hs.root, hs.lock, hs.pushback⟩, trivial⟩

theorem rests_consume (taken : Nat) (back : List UInt8) :
    Rests a (consume taken back) fun _ => True := by
  intro s hs
  by_cases hfit : (back ++ s.reader.pushback.drop taken).length ≤ Reader.pushbackCapacity
  · have hconsumed : consume taken back s = .ok () (s.consumed taken back) := if_pos hfit
    rw [hconsumed]
    exact ⟨⟨hs.arena, hs.locked, hs.root, hs.lock, hfit⟩, trivial⟩
  · have hrefused : consume taken back s = .error (.fault .ungetOverflow) s := if_neg hfit
    rw [hrefused]
    exact ⟨hs.arena, by simp⟩

theorem rests_starve (taken : Nat) (kept : List UInt8) :
    Rests a (starve taken kept) fun _ => True :=
  (rests_consume taken kept).bind fun _ _ _ hs =>
    ⟨⟨hs.arena, hs.locked, hs.root, hs.lock, hs.pushback⟩, trivial⟩

end Rules

/-! ### Turns -/

section Turns

variable {a : Arena}

/-- Nothing is done. -/
def Unfinished (t : Turn) : Prop := ∀ place, t ≠ .done place

theorem rests_begin (kind : Frame.Kind) (flags : UInt8) (parent : Nat) (h : Header) :
    Rests a (begin kind flags parent h) fun _ => False := by
  intro s hs
  obtain ⟨hold, hhold⟩ := hs.locked
  have hlocked : Arena.alloc .forward h.length s.arena = .error .locked s.arena := by
    rw [hs.arena]
    exact bind_error (Arena.demandUnlocked_locked hhold)
  rw [begin, bind_error (lift_arena_error hlocked)]
  exact ⟨hs.arena, by simp⟩

theorem rests_accept {focus : Focus} (hleaf : focus.leaf = none) (token : Token) :
    Rests a (accept focus token) Unfinished := by
  cases token with
  | comment => exact (rests_setComment true).bind fun _ _ => rests_pure fun _ => Turn.noConfusion
  | close =>
      rw [accept, hleaf]
      exact rests_reject _ _
  | list sigil =>
      refine rests_get fun s hs => ?_
      split
      · exact rests_reject _ _
      · exact (rests_begin _ _ _ _).bind fun _ h => h.elim
  | symbol sigil quoted =>
      exact (rests_begin _ _ _ _).bind fun _ h => h.elim
  | integer => exact (rests_begin _ _ _ _).bind fun _ h => h.elim

theorem rests_commentTurn : Rests a commentTurn Unfinished := by
  refine rests_get fun s hs => ?_
  split
  · exact (rests_consume _ _).bind fun _ _ => (rests_setComment false).bind fun _ _ =>
      rests_pure fun _ => Turn.noConfusion
  · exact (rests_starve _ _).bind fun _ _ => rests_pure fun _ => Turn.noConfusion

theorem rests_tokenTurn {focus : Focus} (hleaf : focus.leaf = none) :
    Rests a (tokenTurn focus) Unfinished := by
  refine rests_get fun s hs => ?_
  split
  · exact (rests_starve _ _).bind fun _ _ => rests_pure fun _ => Turn.noConfusion
  · exact (rests_consume _ _).bind fun _ _ => rests_reject _ _
  · exact (rests_consume _ _).bind fun _ _ => rests_accept hleaf _

theorem rests_focus {s : Reading} (hs : Grounded a s) :
    Rests a (look s.reader.focus) fun focus => focus.leaf = none := by
  intro t ht
  have hfocus : s.reader.focus t.arena = .ok ⟨none, 0, 0⟩ := by
    rw [Reader.focus, hs.root]
    rfl
  rw [look_ok hfocus]
  exact ⟨ht, rfl⟩

theorem rests_turn : Rests a turn Unfinished := by
  refine rests_get fun s hs => ?_
  split
  · exact rests_commentTurn
  · refine rests_get fun s hs => (rests_focus hs).bind fun focus hleaf => ?_
    rw [hleaf]
    exact rests_tokenTurn hleaf

theorem rests_turns (fuel : Nat) : Rests a (turns fuel) fun status => status = .pending := by
  induction fuel with
  | zero => exact rests_pure rfl
  | succ fuel ih =>
      refine rests_turn.bind fun t ht => ?_
      cases t with
      | again => exact ih
      | starved => exact rests_pure rfl
      | done place => exact absurd rfl (ht place)

/-- A read in a locked arena waits for more, or fails with nothing changed. -/
theorem rests_read : Rests a read fun status => status = .pending :=
  rests_get fun _ _ => rests_turns _

end Turns

end Reading

end FlatLisp
