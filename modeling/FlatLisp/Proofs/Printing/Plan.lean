/-
Module: FlatLisp.Proofs.Printing.Plan
Purpose: The rounds of a print apart from the sink. A round has a plan, the byte it offers and how it
  goes on once that is accepted, which depends on the job and the arena only; and into a sink that
  accepts all bytes rounds write what their plans say.
Main exports: Printing.plan, Printing.round_eq, Printing.Steps, Printing.rounds_of_steps,
  Printing.Fails, Printing.rounds_of_fails
-/
import FlatLisp.Proofs.Arena.Pile
import FlatLisp.Proofs.Printing.Missing

namespace FlatLisp

namespace Printing

open Text

section Plan

variable (o : PrintOptions) (ext : External)

/-- The byte that a move offers, if it offers one, and how it is carried on when that is accepted,
with the job that is left. -/
def carry (job : Job) (f : Frame) (h : Header) : Move → Option UInt8 × CellM (Option Job)
  | .emit c next => (some c, do Frame.store job.top next; return some job)
  | .pass next => (none, do Frame.store job.top next; return some job)
  | .wrap next =>
      (none, do
        Frame.store job.top next
        return some { job with newline := true, spaces := o.indent * job.depth })
  | .descend child => (none, some <$> pushFrame ext job child)
  | .finish closer => (closer, do popFrame ext job f (← Cell.consult fun _ => f.stop h))

/-- What a round does, the sink apart. -/
def plan (job : Job) (a : Arena) : Except Fault (Option UInt8 × CellM (Option Job)) :=
  if job.newline then .ok (some Ascii.newline, return some { job with newline := false })
  else if 0 < job.spaces then
    .ok (some Ascii.space, return some { job with spaces := job.spaces - 1 })
  else do
    let f ← Frame.load a job.top
    let h ← Cell.load a ext f.place
    return carry o ext job f h (← f.move o a ext job.top h)

variable {o ext} {job : Job} {a : Arena}

theorem plan_newline (h : job.newline = true) :
    plan o ext job a = .ok (some Ascii.newline, return some { job with newline := false }) := by
  rw [plan, if_pos h]

theorem plan_space (h : job.newline = false) (hspaces : 0 < job.spaces) :
    plan o ext job a =
      .ok (some Ascii.space, return some { job with spaces := job.spaces - 1 }) := by
  rw [plan, if_neg (by simp [h]), if_pos hspaces]

theorem plan_frame (h : job.newline = false) (hspaces : job.spaces = 0) :
    plan o ext job a = do
      let f ← Frame.load a job.top
      let h ← Cell.load a ext f.place
      return carry o ext job f h (← f.move o a ext job.top h) := by
  rw [plan, if_neg (by simp [h]), if_neg (by omega)]

end Plan

section Lift

variable {σ : Type}

theorem lift_bind {α β : Type} (x : CellM α) (f : α → CellM β) :
    (liftM (x >>= f) : PrintM σ β) = liftM x >>= fun y => liftM (f y) := by
  funext ⟨p, a, k⟩
  simp only [bind, EStateM.bind, liftM, monadLift, MonadLift.monadLift]
  cases x a <;> rfl

theorem lift_pure {α : Type} (y : α) : (liftM (pure y : CellM α) : PrintM σ α) = pure y := rfl

section Results

variable {α : Type} {a a' : Arena} {y : α} {e : Fault} (p : Printer) (k : σ)

theorem lift_cell_ok {x : CellM α} (h : x a = .ok y a') :
    (liftM x : PrintM σ α) ⟨p, a, k⟩ = .ok y ⟨p, a', k⟩ := by
  simp only [liftM, monadLift, MonadLift.monadLift, h]

theorem lift_cell_error {x : CellM α} (h : x a = .error e a') :
    (liftM x : PrintM σ α) ⟨p, a, k⟩ = .error e ⟨p, a', k⟩ := by
  simp only [liftM, monadLift, MonadLift.monadLift, h]

theorem lift_arena_ok {x : ArenaM α} (h : x a = .ok y a') :
    (liftM x : PrintM σ α) ⟨p, a, k⟩ = .ok y ⟨p, a', k⟩ := by
  simp only [liftM, monadLift, MonadLift.monadLift, h]

end Results

theorem look_error {α : Type} {f : Arena → Except Fault α} {e : Fault} {p : Printer} {a : Arena}
    {k : σ} (h : f a = .error e) : look f ⟨p, a, k⟩ = .error e ⟨p, a, k⟩ := by
  simp only [look, liftM, monadLift, MonadLift.monadLift, Cell.consult, h]

end Lift

section Rounds

variable {σ : Type} [Sink σ] (o : PrintOptions) (ext : External)

/-- Offer a byte, if there is one. -/
def offerAny : Option UInt8 → PrintM σ Bool
  | none => return true
  | some c => offer c

/-- A round offers the byte of its plan and then goes on as planned. -/
theorem round_eq (job : Job) : (round o ext job : PrintM σ Round) = do
    let (byte, next) ← look (plan o ext job)
    if ← offerAny byte then
      match ← next with
      | some job => return .more job
      | none => return .done
    else return .blocked job := by
  funext ⟨p, a, k⟩
  rw [round]
  by_cases hnewline : job.newline = true
  · rw [if_pos hnewline, bind_ok (look_ok (plan_newline hnewline))]
    rfl
  rw [if_neg hnewline]
  rw [Bool.not_eq_true] at hnewline
  by_cases hspaces : 0 < job.spaces
  · rw [if_pos hspaces, bind_ok (look_ok (plan_space hnewline hspaces))]
    rfl
  rw [if_neg hspaces]
  have hplan : plan o ext job a = _ := plan_frame hnewline (Nat.eq_zero_of_not_pos hspaces)
  cases hf : Frame.load a job.top with
  | error e =>
      rw [hf] at hplan
      rw [bind_error (look_error hf), bind_error (look_error hplan)]
  | ok f =>
      rw [hf] at hplan
      rw [bind_ok (look_ok hf)]
      cases hh : Cell.load a ext f.place with
      | error e =>
          simp only [hh, bind, Except.bind] at hplan
          rw [bind_error (look_error hh), bind_error (look_error hplan)]
      | ok h =>
          rw [bind_ok (look_ok hh)]
          cases hmove : f.move o a ext job.top h with
          | error e =>
              simp only [hh, hmove, bind, Except.bind] at hplan
              rw [bind_error (look_error hmove), bind_error (look_error hplan)]
          | ok move =>
              simp only [hh, hmove, bind, Except.bind, pure, Except.pure] at hplan
              rw [bind_ok (look_ok hmove), bind_ok (look_ok hplan)]
              cases move with
              | emit c next =>
                  simp only [carry, offerAny, lift_bind, lift_pure, bind_assoc, pure_bind]
              | pass next =>
                  simp only [carry, offerAny, lift_bind, lift_pure, bind_assoc, pure_bind, if_true]
              | wrap next =>
                  simp only [carry, offerAny, lift_bind, lift_pure, bind_assoc, pure_bind, if_true]
              | descend child =>
                  simp only [carry, offerAny, lift_bind, lift_pure, bind_assoc, pure_bind, if_true,
                    map_eq_pure_bind]
              | finish closer =>
                  cases closer with
                  | none =>
                      simp only [carry, offerAny, lift_bind, bind_assoc, pure_bind, if_true]
                      rfl
                  | some c =>
                      simp only [carry, offerAny, lift_bind, bind_assoc]
                      rfl

end Rounds

/-! ### Many rounds -/

/-- `n` rounds, whose bytes are all accepted, lead from one state to another, and `text` is written
meanwhile. -/
inductive Steps (o : PrintOptions) (ext : External) :
    Nat → Job → Arena → List UInt8 → Job → Arena → Prop where
  | refl {job : Job} {a : Arena} : Steps o ext 0 job a [] job a
  | step {n : Nat} {job₁ job₂ job₃ : Job} {a₁ a₂ a₃ : Arena} {byte : Option UInt8}
      {next : CellM (Option Job)} {text : List UInt8}
      (hplan : plan o ext job₁ a₁ = .ok (byte, next)) (hnext : next a₁ = .ok (some job₂) a₂)
      (hrest : Steps o ext n job₂ a₂ text job₃ a₃) :
      Steps o ext (n + 1) job₁ a₁ (byte.toList ++ text) job₃ a₃

/-- After `n` rounds at most, a round that offers nothing fails. -/
def Fails (o : PrintOptions) (ext : External) (n : Nat) (job : Job) (a : Arena) (e : Fault)
    (a' : Arena) : Prop :=
  ∃ m text job₁ a₁ next, m ≤ n ∧ Steps o ext m job a text job₁ a₁ ∧
    plan o ext job₁ a₁ = .ok (none, next) ∧ next a₁ = .error e a'

section Steps

variable {o : PrintOptions} {ext : External} {m n : Nat} {job job₁ job₂ : Job} {a a₁ a₂ : Arena}
  {text text₁ text₂ : List UInt8} {e : Fault}

/-- One round. -/
theorem Steps.one {byte : Option UInt8} {next : CellM (Option Job)}
    (hplan : plan o ext job a = .ok (byte, next)) (hnext : next a = .ok (some job₁) a₁) :
    Steps o ext 1 job a byte.toList job₁ a₁ := by
  have hstep := Steps.step hplan hnext .refl
  rwa [List.append_nil] at hstep

theorem Steps.trans (h₁ : Steps o ext m job a text₁ job₁ a₁)
    (h₂ : Steps o ext n job₁ a₁ text₂ job₂ a₂) :
    Steps o ext (m + n) job a (text₁ ++ text₂) job₂ a₂ := by
  induction h₁ with
  | refl => rwa [Nat.zero_add]
  | step hplan hnext _ ih =>
      rw [List.append_assoc, Nat.succ_add]
      exact .step hplan hnext (ih h₂)

theorem Fails.after (h₁ : Steps o ext m job a text job₁ a₁)
    (h₂ : Fails o ext n job₁ a₁ e a₂) : Fails o ext (m + n) job a e a₂ := by
  obtain ⟨k, text', job₂, a₂', next, hle, hsteps, hplan, hnext⟩ := h₂
  exact ⟨m + k, text ++ text', job₂, a₂', next, Nat.add_le_add_left hle m, h₁.trans hsteps, hplan,
    hnext⟩

theorem Fails.mono (h : Fails o ext m job a e a₁) (hle : m ≤ n) : Fails o ext n job a e a₁ := by
  obtain ⟨k, text, job₂, a₂, next, hk, hrest⟩ := h
  exact ⟨k, text, job₂, a₂, next, Nat.le_trans hk hle, hrest⟩

end Steps

/-! ### Into a sink that accepts all bytes -/

section Accepting

variable {σ : Type} [Sink σ] {seen : σ → List UInt8} (hk : Keeps σ seen) (hall : ¬ Refuses σ)
  {o : PrintOptions} {ext : External} {n : Nat} {job job₁ : Job} {a a₁ : Arena}
  {text : List UInt8} {e : Fault}

theorem round_error {next : CellM (Option Job)} (hplan : plan o ext job a = .ok (none, next))
    (hnext : next a = .error e a₁) (p : Printer) (k : σ) :
    round o ext job ⟨p, a, k⟩ = .error e ⟨p, a₁, k⟩ := by
  have hoffer : offerAny none ⟨p, a, k⟩ = .ok true ⟨p, a, k⟩ := rfl
  rw [round_eq, bind_ok (look_ok hplan)]
  dsimp only
  rw [bind_ok hoffer, if_pos rfl, bind_error (lift_cell_error p k hnext)]

include hk hall

theorem offerAny_ok (byte : Option UInt8) (p : Printer) (a : Arena) (k : σ) :
    ∃ k', offerAny byte ⟨p, a, k⟩ = .ok true ⟨p, a, k'⟩ ∧ seen k' = seen k ++ byte.toList := by
  cases byte with
  | none => exact ⟨k, rfl, by rw [Option.toList_none, List.append_nil]⟩
  | some c =>
      cases hoffer : Sink.offer k c with
      | mk accepted k' =>
          cases accepted with
          | false => exact (hall ⟨k, k', c, hoffer⟩).elim
          | true => exact ⟨k', by rw [offerAny, offer, hoffer], hk.accepted hoffer⟩

/-- A round goes on as planned. -/
theorem round_ok {byte : Option UInt8} {next : CellM (Option Job)} {left : Option Job}
    (hplan : plan o ext job a = .ok (byte, next)) (hnext : next a = .ok left a₁) (p : Printer)
    (k : σ) :
    ∃ k', round o ext job ⟨p, a, k⟩ =
        .ok (match left with | some job => .more job | none => .done) ⟨p, a₁, k'⟩ ∧
      seen k' = seen k ++ byte.toList := by
  obtain ⟨k', hoffer, hseen⟩ := offerAny_ok hk hall byte p a k
  refine ⟨k', ?_, hseen⟩
  rw [round_eq, bind_ok (look_ok hplan)]
  dsimp only
  rw [bind_ok hoffer, if_pos rfl, bind_ok (lift_cell_ok p k' hnext)]
  cases left <;> rfl

/-- Rounds write what their plans say. -/
theorem rounds_of_steps (h : Steps o ext n job a text job₁ a₁) (fuel : Nat) (p : Printer) (k : σ) :
    ∃ k', rounds o ext (n + fuel) job ⟨p, a, k⟩ = rounds o ext fuel job₁ ⟨p, a₁, k'⟩ ∧
      seen k' = seen k ++ text := by
  induction h generalizing k with
  | refl => exact ⟨k, by rw [Nat.zero_add], by rw [List.append_nil]⟩
  | @step n job₁ job₂ job₃ a₁ a₂ a₃ byte next text hplan hnext _ ih =>
      obtain ⟨k₁, hround, hseen₁⟩ := round_ok hk hall hplan hnext p k
      obtain ⟨k₂, hrounds, hseen₂⟩ := ih k₁
      refine ⟨k₂, ?_, by rw [hseen₂, hseen₁, List.append_assoc]⟩
      rw [Nat.succ_add, rounds, bind_ok hround]
      exact hrounds

theorem rounds_of_fails (h : Fails o ext n job a e a₁) {fuel : Nat} (hfuel : n < fuel)
    (p : Printer) (k : σ) : ∃ k', rounds o ext fuel job ⟨p, a, k⟩ = .error e ⟨p, a₁, k'⟩ := by
  obtain ⟨m, text, job₁, a₂, next, hle, hsteps, hplan, hnext⟩ := h
  obtain ⟨fuel', rfl⟩ : ∃ fuel', fuel = m + (fuel' + 1) := ⟨fuel - m - 1, by omega⟩
  obtain ⟨k', hrounds, -⟩ := rounds_of_steps hk hall hsteps (fuel' + 1) p k
  refine ⟨k', ?_⟩
  rw [hrounds, rounds]
  exact bind_error (round_error hplan hnext p k')

end Accepting

end Printing

end FlatLisp
