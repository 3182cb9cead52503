/-
Module: FlatLisp.Proofs.Reading.Positions
Purpose: How many bytes a reader has consumed shows nowhere but in what it says about bad input. Two
  reads that differ in that number only go on in parallel.
Main exports: Reading.withPosition, ReadError.unplaced, Reading.Parallel, Reading.Blind,
  Reading.blind_read
-/
import FlatLisp.Proofs.Reading.Simulation

namespace FlatLisp

/-- The error without the place where it was found. -/
def ReadError.unplaced : ReadError → ReadError
  | .rejected why => .rejected { why with position := 0 }
  | .fault why => .fault why

namespace Reading

/-- The same state, had `n` bytes been counted. -/
def withPosition (s : Reading) (n : UInt32) : Reading :=
  ⟨{ s.reader with count := n }, s.source, s.arena⟩

/-- The two results differ only in how many bytes have been consumed, and the depth is still what it
was. -/
inductive Parallel {α : Type} (depth : Nat) :
    EStateM.Result ReadError Reading α → EStateM.Result ReadError Reading α → Prop where
  | ok (x : α) (s : Reading) (n : UInt32) (hdepth : s.reader.maxDepth = depth) :
      Parallel depth (.ok x s) (.ok x (s.withPosition n))
  | error {e e' : ReadError} (h : e'.unplaced = e.unplaced) (s : Reading) (n : UInt32)
      (hdepth : s.reader.maxDepth = depth) :
      Parallel depth (.error e s) (.error e' (s.withPosition n))

/-- The part of a read does not see how many bytes have been consumed, and does not change how deep
lists may be nested. -/
def Blind {α : Type} (job : ReadM α) : Prop :=
  ∀ s n, Parallel s.reader.maxDepth (job s) (job (s.withPosition n))

section Rules

variable {α β : Type}

theorem Blind.bind {job : ReadM α} {next : α → ReadM β} (h : Blind job)
    (hnext : ∀ x, Blind (next x)) : Blind (job >>= next) := by
  intro s n
  have hjob := h s n
  generalize hresult : job s = result at hjob
  generalize hresult' : job (s.withPosition n) = result' at hjob
  cases hjob with
  | ok x t k hdepth =>
      rw [bind_ok hresult, bind_ok hresult', ← hdepth]
      exact hnext x t k
  | error he t k hdepth =>
      rw [bind_error hresult, bind_error hresult']
      exact .error he t k hdepth

theorem blind_pure (x : α) : Blind (pure x : ReadM α) := fun s n => .ok x s n rfl

theorem blind_throw (e : ReadError) : Blind (throw e : ReadM α) := fun s n => .error rfl s n rfl

/-- The state is looked at, but not at the number of bytes consumed. -/
theorem blind_get {next : Reading → ReadM α} (hsame : ∀ s n, next (s.withPosition n) = next s)
    (h : ∀ s, Blind (next s)) : Blind (get >>= next) := by
  intro s n
  change Parallel _ (next s s) (next (s.withPosition n) (s.withPosition n))
  rw [hsame]
  exact h s s n

theorem blind_cell (job : CellM α) : Blind (liftM job : ReadM α) := by
  intro s n
  simp only [liftM, monadLift, MonadLift.monadLift, withPosition]
  cases job s.arena with
  | ok x a => exact .ok x ⟨s.reader, s.source, a⟩ n rfl
  | error e a => exact .error rfl ⟨s.reader, s.source, a⟩ n rfl

theorem blind_arena (job : ArenaM α) : Blind (liftM job : ReadM α) :=
  blind_cell (liftM job)

theorem blind_look (f : Arena → Except Fault α) : Blind (look f) := blind_cell _

theorem blind_modifyReader {change : Reader → Reader}
    (h : ∀ r n, change { r with count := n } = { change r with count := n })
    (hdepth : ∀ r, (change r).maxDepth = r.maxDepth) :
    Blind (modifyReader change) := by
  intro s n
  have hmoved : modifyReader change (s.withPosition n) =
      .ok () (Reading.withPosition ⟨change s.reader, s.source, s.arena⟩ n) := by
    rw [withPosition, modifyReader, h]
    rfl
  rw [hmoved]
  exact .ok () ⟨change s.reader, s.source, s.arena⟩ n (hdepth s.reader)

theorem blind_reject (cause : Rejection.Cause) (found : Option UInt8) :
    Blind (reject cause found : ReadM α) := by
  intro s n
  have hsame : (ReadError.rejected ⟨cause, n.toNat - 1, found⟩).unplaced =
      (ReadError.rejected ⟨cause, s.reader.count.toNat - 1, found⟩).unplaced := rfl
  exact .error hsame s n rfl

theorem blind_consume (taken : Nat) (back : List UInt8) : Blind (consume taken back) := by
  intro s n
  by_cases hfit : (back ++ s.reader.pushback.drop taken).length ≤ Reader.pushbackCapacity
  · let t : Reading := ⟨{ s.reader with pushback := back ++ s.reader.pushback.drop taken },
      s.source.drop (taken - s.reader.pushback.length), s.arena⟩
    have hconsumed : ∀ k, consume taken back (s.withPosition k) =
        .ok () (t.withPosition (k + .ofNat taken - .ofNat back.length)) :=
      fun k => by rw [withPosition, consume, if_pos hfit]; rfl
    have hself := hconsumed s.reader.count
    rw [show s.withPosition s.reader.count = s from rfl] at hself
    rw [hself, hconsumed n]
    exact .ok () (t.withPosition _) (n + .ofNat taken - .ofNat back.length) rfl
  · have hrefused : ∀ k, consume taken back (s.withPosition k) =
        .error (.fault .ungetOverflow) (s.withPosition k) :=
      fun k => by rw [withPosition, consume, if_neg hfit]
    have hself := hrefused s.reader.count
    rw [show s.withPosition s.reader.count = s from rfl] at hself
    rw [hself, hrefused n]
    exact .error rfl s n rfl

theorem blind_starve (taken : Nat) (kept : List UInt8) : Blind (starve taken kept) :=
  (blind_consume taken kept).bind fun _ s n => .ok () ⟨s.reader, s.source.drop 1, s.arena⟩ n rfl

end Rules

/-! ### The parts of a read -/

theorem blind_pushFrame (f : Frame) : Blind (pushFrame f) := by
  refine (blind_arena _).bind fun mark => (blind_arena _).bind fun span =>
    (blind_cell _).bind fun _ => ?_
  split
  · exact blind_modifyReader (fun _ _ => rfl) fun _ => rfl
  · exact (blind_look _).bind fun around => blind_cell _

theorem blind_complete (offset : Nat) (f : Frame) : Blind (complete offset f) := by
  refine (blind_arena _).bind fun _ => ?_
  split
  · exact Blind.bind (blind_modifyReader (fun _ _ => rfl) fun _ => rfl) fun _ => blind_pure _
  · refine (blind_look _).bind fun around => ?_
    split
    · exact blind_throw _
    · refine (blind_cell _).bind fun _ => (blind_look _).bind fun h => ?_
      split
      · split
        · exact blind_reject _ _
        · exact (blind_cell _).bind fun _ => blind_pure _
      · exact blind_throw _

theorem blind_begin (kind : Frame.Kind) (flags : UInt8) (parent : Nat) (h : Header) :
    Blind (begin kind flags parent h) :=
  (blind_arena _).bind fun _ => (blind_cell _).bind fun _ => blind_pushFrame _

theorem blind_reserveSymbol : Blind reserveSymbol :=
  (blind_arena _).bind fun _ => blind_get (fun _ _ => rfl) fun _ => (blind_arena _).bind fun _ =>
    blind_modifyReader (fun _ _ => rfl) fun _ => rfl

theorem blind_accept (focus : Focus) (token : Token) : Blind (accept focus token) := by
  cases token with
  | comment =>
      exact Blind.bind (blind_modifyReader (fun _ _ => rfl) fun _ => rfl) fun _ => blind_pure _
  | close =>
      rw [accept]
      split
      · exact blind_complete _ _
      · exact blind_reject _ _
  | list sigil =>
      refine blind_get (fun _ _ => rfl) fun s => ?_
      split
      · exact blind_reject _ _
      · exact (blind_begin _ _ _ _).bind fun _ => blind_pure _
  | symbol sigil quoted =>
      exact (blind_begin _ _ _ _).bind fun _ => blind_reserveSymbol.bind fun _ => blind_pure _
  | integer => exact (blind_begin _ _ _ _).bind fun _ => blind_pure _

theorem blind_commentTurn : Blind commentTurn := by
  refine blind_get (fun _ _ => rfl) fun s => ?_
  split
  · exact (blind_consume _ _).bind fun _ =>
      Blind.bind (blind_modifyReader (fun _ _ => rfl) fun _ => rfl) fun _ => blind_pure _
  · exact (blind_starve _ _).bind fun _ => blind_pure _

theorem blind_tokenTurn (focus : Focus) : Blind (tokenTurn focus) := by
  refine blind_get (fun _ _ => rfl) fun s => ?_
  split
  · exact (blind_starve _ _).bind fun _ => blind_pure _
  · exact (blind_consume _ _).bind fun _ => blind_reject _ _
  · exact (blind_consume _ _).bind fun _ => blind_accept _ _

theorem blind_settleSymbol (offset length : Nat) : Blind (settleSymbol offset length) := by
  refine blind_get (fun _ _ => rfl) fun s => ?_
  split
  · exact blind_throw _
  · exact Blind.bind (blind_modifyReader (fun _ _ => rfl) fun _ => rfl) fun _ =>
      (blind_arena _).bind fun _ => blind_arena _

theorem blind_afterSymbol (offset : Nat) (f : Frame) (sigil : Sigil) (quoted : Bool) (length : Nat)
    (run : SymbolRun) : Blind (afterSymbol offset f sigil quoted length run) := by
  rw [afterSymbol]
  split
  · exact (blind_starve _ _).bind fun _ => (blind_cell _).bind fun _ => (blind_cell _).bind fun _ =>
      blind_pure _
  · exact (blind_consume _ _).bind fun _ => blind_reject _ _
  · exact (blind_consume _ _).bind fun _ => blind_get (fun _ _ => rfl) fun _ => blind_throw _
  · exact (blind_consume _ _).bind fun _ => (blind_settleSymbol _ _).bind fun _ =>
      (blind_look _).bind fun _ => (blind_cell _).bind fun _ => blind_complete _ _

theorem blind_symbolTurn (offset : Nat) (f : Frame) : Blind (symbolTurn offset f) := by
  refine (blind_look _).bind fun h => ?_
  split
  · refine blind_get (fun _ _ => rfl) fun s => ?_
    dsimp only
    split
    · exact (blind_arena _).bind fun _ => blind_afterSymbol offset f _ _ _ _
    · exact blind_afterSymbol offset f _ _ _ _
  · exact blind_throw _

theorem blind_integerTurn (offset : Nat) (f : Frame) : Blind (integerTurn offset f) := by
  refine (blind_look _).bind fun h => ?_
  split
  · refine blind_get (fun _ _ => rfl) fun s => ?_
    dsimp only
    split
    · exact (blind_starve _ _).bind fun _ => (blind_cell _).bind fun _ => (blind_cell _).bind fun _ =>
        blind_pure _
    · exact (blind_consume _ _).bind fun _ => blind_reject _ _
    · exact (blind_consume _ _).bind fun _ => (blind_cell _).bind fun _ => blind_complete _ _
  · exact blind_throw _

/-- One turn does not see how many bytes have been consumed. -/
theorem blind_turn : Blind turn := by
  refine blind_get (fun _ _ => rfl) fun s => ?_
  split
  · exact blind_commentTurn
  · refine blind_get (fun _ _ => rfl) fun s => (blind_look _).bind fun focus => ?_
    split
    · split
      · exact blind_symbolTurn _ _
      · exact blind_integerTurn _ _
      · exact blind_tokenTurn _
    · exact blind_tokenTurn _

theorem blind_turns (fuel : Nat) : Blind (turns fuel) := by
  induction fuel with
  | zero => exact blind_pure _
  | succ fuel ih =>
      refine blind_turn.bind fun t => ?_
      cases t with
      | again => exact ih
      | starved => exact blind_pure _
      | done place => exact blind_pure _

/-- A read does not see how many bytes have been consumed. -/
theorem blind_read : Blind read := blind_get (fun _ _ => rfl) fun _ => blind_turns _

end Reading

end FlatLisp
