/-
Module: FlatLisp.Proofs.Printing.Resumption
Purpose: A print that is stopped at any bytes and goes on each time writes what one writes that is
  never stopped, and both leave the arena as they found it. The rounds of a print that nothing stops
  are one run; wherever a byte is refused the rest of the run is still to come.
Main exports: Printing.Runs, Printing.exists_run, Printing.Attempts, Printing.Ends, Printing.Waits,
  Printing.print_resumes
-/
import FlatLisp.Proofs.Arena.Untouched
import FlatLisp.Proofs.Printing.Turn

namespace FlatLisp

namespace Printing

open Arena (Piled pileMark)

/-! ### Runs -/

/-- In `n` rounds, none of which is refused, `text` is written and the print comes to its end. -/
inductive Runs (o : PrintOptions) (ext : External) (b : Arena) (root : Place) :
    Nat → Job → Frame → List Frame → List UInt8 → Except Fault Unit → Prop where
  | more {n : Nat} {job job' : Job} {f f' : Frame} {around around' : List Frame}
      {byte : Option UInt8} {text : List UInt8} {outcome : Except Fault Unit}
      (hturn : Turns o ext b root job f around byte (.more job' f' around'))
      (hrest : Runs o ext b root n job' f' around' text outcome) :
      Runs o ext b root (n + 1) job f around (byte.toList ++ text) outcome
  | finished {job : Job} {f : Frame} {around : List Frame} {byte : Option UInt8}
      (hturn : Turns o ext b root job f around byte .finished) :
      Runs o ext b root 1 job f around byte.toList (.ok ())
  | failed {job : Job} {f : Frame} {around : List Frame} {byte : Option UInt8} {e : Fault}
      (hturn : Turns o ext b root job f around byte (.failed e)) :
      Runs o ext b root 1 job f around byte.toList (.error e)

/-- Every print comes to an end if nothing stops it. -/
theorem exists_run {o : PrintOptions} {ext : External} {b a : Arena} {root : Place} {job : Job}
    {f : Frame} {around : List Frame} {n : Nat} (hb : b.Bounded)
    (hs : Nests b root job (f :: around) a) (hcost : cost o job f around < n) :
    ∃ m text outcome, m ≤ n ∧ Runs o ext b root m job f around text outcome := by
  induction n generalizing job f around a with
  | zero => exact absurd hcost (Nat.not_lt_zero _)
  | succ n ih =>
      obtain ⟨byte, turn, hturn, hwithin⟩ := exists_turn hb hs o ext
      cases turn with
      | more job' f' around' =>
          obtain ⟨a', hs'⟩ : ∃ a', Nests b root job' (f' :: around') a' := by
            rcases hturn b a (.refl b) hs with ⟨hplan, hgoes⟩
            rcases hgoes with ⟨hnext, hnests⟩
            exact ⟨_, hnests⟩
          obtain ⟨m, text, outcome, hle, hrest⟩ := ih hs'
            (Nat.lt_of_lt_of_le hwithin (Nat.le_of_lt_succ hcost))
          exact ⟨m + 1, _, outcome, Nat.succ_le_succ hle, .more hturn hrest⟩
      | finished => exact ⟨1, _, _, Nat.succ_le_succ (Nat.zero_le _), .finished hturn⟩
      | failed e => exact ⟨1, _, _, Nat.succ_le_succ (Nat.zero_le _), .failed hturn⟩

/-! ### Rounds into any sink -/

section Rounds

variable {σ : Type} [Sink σ] {seen : σ → List UInt8} {o : PrintOptions} {ext : External}
  {b b' a : Arena} {root : Place} {job : Job} {f : Frame} {around : List Frame} {text : List UInt8}
  {outcome : Except Fault Unit} {n : Nat}

/-- The result of a round that takes the turn, with the sink left as `k`. -/
inductive Shows (b : Arena) (root : Place) (p : Printer) (k : σ) :
    Turn → EStateM.Result Fault (Printing σ) Round → Prop where
  | more {job : Job} {f : Frame} {around : List Frame} {a : Arena}
      (hnests : Nests b root job (f :: around) a) :
      Shows b root p k (.more job f around) (.ok (.more job) ⟨p, a, k⟩)
  | finished {a : Arena} (hpiled : Piled b [[]] a) :
      Shows b root p k .finished (.ok .done ⟨p, a, k⟩)
  | failed {e : Fault} {a : Arena} {more : List (List UInt8)} (hpiled : Piled b (more ++ [[]]) a) :
      Shows b root p k (.failed e) (.error e ⟨p, a, k⟩)

/-- A byte is taken or refused. -/
theorem offerAny_cases (hk : Keeps σ seen) (byte : Option UInt8) (p : Printer) (a : Arena) (k : σ) :
    (∃ k', offerAny byte ⟨p, a, k⟩ = .ok false ⟨p, a, k'⟩ ∧ seen k' = seen k ∧ Refuses σ) ∨
      ∃ k', offerAny byte ⟨p, a, k⟩ = .ok true ⟨p, a, k'⟩ ∧ seen k' = seen k ++ byte.toList := by
  cases byte with
  | none => exact .inr ⟨k, rfl, by rw [Option.toList_none, List.append_nil]⟩
  | some c =>
      cases hoffer : Sink.offer k c with
      | mk accepted k' =>
          cases accepted with
          | false =>
              exact .inl ⟨k', by rw [offerAny, offer, hoffer], hk.refused hoffer, k, k', c, hoffer⟩
          | true => exact .inr ⟨k', by rw [offerAny, offer, hoffer], hk.accepted hoffer⟩

/-- A round takes its turn if its byte is accepted, and leaves everything as it is if not. -/
theorem Takes.of_offer {byte : Option UInt8} {turn : Turn} {accepted : Bool} {p : Printer}
    {k k' : σ} (h : Takes o ext b root job a byte turn)
    (hoffer : offerAny byte ⟨p, a, k⟩ = .ok accepted ⟨p, a, k'⟩) :
    (accepted = false ∧ Printing.round o ext job ⟨p, a, k⟩ = .ok (.blocked job) ⟨p, a, k'⟩) ∨
      accepted = true ∧ Shows b root p k' turn (Printing.round o ext job ⟨p, a, k⟩) := by
  rw [round_eq]
  cases h with
  | stuck hplan hpiled =>
      cases hoffer
      rw [bind_error (look_error hplan)]
      exact .inr ⟨rfl, .failed hpiled⟩
  | @planned byte next turn hplan hgoes =>
      rw [bind_ok (look_ok hplan)]
      dsimp only
      rw [bind_ok hoffer]
      cases accepted with
      | false => exact .inl ⟨rfl, congrFun (if_neg Bool.false_ne_true) _⟩
      | true =>
          rw [if_pos rfl]
          refine .inr ⟨rfl, ?_⟩
          cases hgoes with
          | more hnext hnests =>
              rw [bind_ok (lift_cell_ok p k' hnext)]
              exact .more hnests
          | finished hnext hpiled =>
              rw [bind_ok (lift_cell_ok p k' hnext)]
              exact .finished hpiled
          | failed hnext hpiled =>
              rw [bind_error (lift_cell_error p k' hnext)]
              exact .failed hpiled

/-- A round is refused and leaves everything as it is, or takes its turn. -/
theorem Takes.round (hk : Keeps σ seen) {byte : Option UInt8} {turn : Turn}
    (h : Takes o ext b root job a byte turn) (p : Printer) (k : σ) :
    (∃ k', Printing.round o ext job ⟨p, a, k⟩ = .ok (.blocked job) ⟨p, a, k'⟩ ∧ seen k' = seen k ∧
        Refuses σ) ∨
      ∃ k', seen k' = seen k ++ byte.toList ∧
        Shows b root p k' turn (Printing.round o ext job ⟨p, a, k⟩) := by
  rcases offerAny_cases hk byte p a k with ⟨k', hoffer, hseen, hrefuses⟩ | ⟨k', hoffer, hseen⟩
  · rcases h.of_offer hoffer with ⟨-, hround⟩ | ⟨htrue, -⟩
    · exact .inl ⟨k', hround, hseen, hrefuses⟩
    · contradiction
  · rcases h.of_offer hoffer with ⟨hfalse, -⟩ | ⟨-, hshows⟩
    · contradiction
    · exact .inr ⟨k', hseen, hshows⟩

/-- The result of the rounds of a run: all of `whole` has been written after what was there before, or
a byte was refused and the rest of the run is still to come. -/
inductive Pauses (seen : σ → List UInt8) (o : PrintOptions) (ext : External) (b : Arena)
    (root : Place) (p : Printer) (limit : Nat) (before whole : List UInt8)
    (outcome : Except Fault Unit) : EStateM.Result Fault (Printing σ) (Option Job) → Prop where
  | finished {b' a : Arena} {k : σ} (halike : b.Alike b') (hpiled : Piled b' [[]] a)
      (hseen : seen k = before ++ whole) (houtcome : outcome = .ok ()) :
      Pauses seen o ext b root p limit before whole outcome (.ok none ⟨p, a, k⟩)
  | failed {b' a : Arena} {k : σ} {e : Fault} {more : List (List UInt8)} (halike : b.Alike b')
      (hpiled : Piled b' (more ++ [[]]) a) (hseen : seen k = before ++ whole)
      (houtcome : outcome = .error e) :
      Pauses seen o ext b root p limit before whole outcome (.error e ⟨p, a, k⟩)
  | blocked {b' a : Arena} {k : σ} {n : Nat} {job : Job} {f : Frame} {around : List Frame}
      {written left : List UInt8} (halike : b.Alike b')
      (hnests : Nests b' root job (f :: around) a)
      (hrest : Runs o ext b root n job f around left outcome) (hle : n ≤ limit)
      (hseen : seen k = before ++ written) (hwhole : written ++ left = whole)
      (hrefuses : Refuses σ) :
      Pauses seen o ext b root p limit before whole outcome (.ok (some job) ⟨p, a, k⟩)

/-- Where the byte of a turn is refused the whole run is still to come. Otherwise it remains to see
what comes after the turn. -/
theorem Runs.pauses_of_turn (hk : Keeps σ seen)
    (h : Runs o ext b root n job f around text outcome) {limit : Nat} (hlimit : n ≤ limit)
    (halike : b.Alike b') (hs : Nests b' root job (f :: around) a) {byte : Option UInt8} {turn : Turn}
    (hturn : Takes o ext b' root job a byte turn) {p : Printer} {k : σ} {before written : List UInt8}
    (hseen : seen k = before ++ written) {fuel : Nat}
    (htaken : ∀ k', seen k' = before ++ (written ++ byte.toList) →
      Shows b' root p k' turn (Printing.round o ext job ⟨p, a, k⟩) →
      Pauses seen o ext b root p limit before (written ++ text) outcome
        (rounds o ext (fuel + 1) job ⟨p, a, k⟩)) :
    Pauses seen o ext b root p limit before (written ++ text) outcome
      (rounds o ext (fuel + 1) job ⟨p, a, k⟩) := by
  rcases hturn.round hk p k with ⟨k', hround, hseen', hrefuses⟩ | ⟨k', hseen', hshows⟩
  · rw [rounds, bind_ok hround]
    exact .blocked halike hs h hlimit (hseen'.trans hseen) rfl hrefuses
  · rw [hseen, List.append_assoc] at hseen'
    exact htaken k' hseen' hshows

/-- What has been written and what the run still writes make up the whole. The induction is on the
run; a byte that is accepted passes from the one to the other. -/
theorem rounds_pauses (hk : Keeps σ seen) (h : Runs o ext b root n job f around text outcome)
    {fuel limit : Nat} (hfuel : n ≤ fuel) (hlimit : n ≤ limit) (halike : b.Alike b')
    (hs : Nests b' root job (f :: around) a) (p : Printer) {k : σ} {before written : List UInt8}
    (hseen : seen k = before ++ written) :
    Pauses seen o ext b root p limit before (written ++ text) outcome
      (rounds o ext fuel job ⟨p, a, k⟩) := by
  induction h generalizing fuel b' a k written with
  | @more n job job' f f' around around' byte text outcome hturn hrest ih =>
      obtain ⟨fuel, rfl⟩ : ∃ fuel', fuel = fuel' + 1 := ⟨fuel - 1, by omega⟩
      refine (Runs.more hturn hrest).pauses_of_turn hk hlimit halike hs (hturn b' a halike hs) hseen
        fun k' hseen' hshows => ?_
      generalize hresult : round o ext job ⟨p, a, k⟩ = result at hshows
      cases hshows with
      | more hnests =>
          rw [rounds, bind_ok hresult, ← List.append_assoc]
          exact ih (Nat.le_of_succ_le_succ hfuel) (Nat.le_of_succ_le hlimit) halike hnests hseen'
  | @finished job f around byte hturn =>
      obtain ⟨fuel, rfl⟩ : ∃ fuel', fuel = fuel' + 1 := ⟨fuel - 1, by omega⟩
      refine (Runs.finished hturn).pauses_of_turn hk hlimit halike hs (hturn b' a halike hs) hseen
        fun k' hseen' hshows => ?_
      generalize hresult : round o ext job ⟨p, a, k⟩ = result at hshows
      cases hshows with
      | finished hpiled =>
          rw [rounds, bind_ok hresult]
          exact .finished halike hpiled hseen' rfl
  | @failed job f around byte e hturn =>
      obtain ⟨fuel, rfl⟩ : ∃ fuel', fuel = fuel' + 1 := ⟨fuel - 1, by omega⟩
      refine (Runs.failed hturn).pauses_of_turn hk hlimit halike hs (hturn b' a halike hs) hseen
        fun k' hseen' hshows => ?_
      generalize hresult : round o ext job ⟨p, a, k⟩ = result at hshows
      cases hshows with
      | failed hpiled =>
          rw [rounds, bind_error hresult]
          exact .failed halike hpiled hseen' rfl

end Rounds

/-! ### Calls -/

section Calls

variable {σ : Type} [Sink σ] {seen : σ → List UInt8} {ext : External} {b b' a : Arena}
  {root : Place} {p : Printer} {job : Job} {f : Frame} {around : List Frame}
  {text before whole : List UInt8} {outcome : Except Fault Unit} {n : Nat}

/-- The print has come to its end: `text` has been written, the printer is idle and the arena as it
was. -/
inductive Ends (seen : σ → List UInt8) (b : Arena) (p : Printer) (text : List UInt8) :
    Except Fault Unit → EStateM.Result Fault (Printing σ) PrintStatus → Prop where
  | done {a : Arena} {k : σ} (halike : b.Alike a) (hseen : seen k = text) :
      Ends seen b p text (.ok ()) (.ok .done ⟨p, a, k⟩)
  | failed {e : Fault} {a : Arena} {k : σ} (halike : b.Alike a) (hseen : seen k = text) :
      Ends seen b p text (.error e) (.error e ⟨p, a, k⟩)

/-- A byte was refused after some of `whole` had been written; the run that is still to come writes
what is left of it. -/
inductive Suspended (seen : σ → List UInt8) (ext : External) (b : Arena) (root : Place)
    (p : Printer) (before whole : List UInt8) (outcome : Except Fault Unit) : Printing σ → Prop where
  | intro {b' a : Arena} {k : σ} {n : Nat} {job : Job} {f : Frame} {around : List Frame}
      {written left : List UInt8} (halike : b.Alike b')
      (hnests : Nests b' root job (f :: around) a)
      (hrest : Runs p.options ext b root n job f around left outcome)
      (hle : n ≤ roundLimit p.options) (hseen : seen k = before ++ written)
      (hwhole : written ++ left = whole) :
      Suspended seen ext b root p before whole outcome ⟨{ p with job := some job }, a, k⟩

/-- The print has come to its end, or a byte was refused. -/
inductive Answers (seen : σ → List UInt8) (ext : External) (b : Arena) (root : Place) (p : Printer)
    (before whole : List UInt8) (outcome : Except Fault Unit) :
    EStateM.Result Fault (Printing σ) PrintStatus → Prop where
  | ended {result : EStateM.Result Fault (Printing σ) PrintStatus}
      (h : Ends seen b p (before ++ whole) outcome result) :
      Answers seen ext b root p before whole outcome result
  | blocked {s : Printing σ} (h : Suspended seen ext b root p before whole outcome s)
      (hrefuses : Refuses σ) : Answers seen ext b root p before whole outcome (.ok .blocked s)

/-- Go on with a job until a byte is refused. -/
def goOn (o : PrintOptions) (ext : External) (job : Job) : PrintM σ PrintStatus := do
  modifyPrinter ({ · with job := none })
  match ← attempt (rounds o ext (roundLimit o) job) with
  | .ok (some rest) =>
      modifyPrinter ({ · with job := some rest })
      return .blocked
  | .ok none =>
      Arena.rewind ⟨.backward, job.mark⟩
      return .done
  | .error e =>
      Arena.unwind job.mark
      throw e

/-- The mark of a print does not depend on the arena it is taken in. -/
theorem Nests.mark_eq {b₀ : Arena} {fs : List Frame} (hs : Nests b' root job fs a)
    (halike : b.Alike b') (halike₀ : b.Alike b₀) : job.mark = pileMark b₀ [[]] := by
  rw [hs.mark, halike.pileMark_eq, halike₀.pileMark_eq]

theorem goOn_answers (hk : Keeps σ seen) (hb : b.Bounded) (hjob : p.job = none)
    (h : Runs p.options ext b root n job f around text outcome) (hle : n ≤ roundLimit p.options)
    (halike : b.Alike b') (hs : Nests b' root job (f :: around) a) (left : Option Job) {k : σ}
    {before written : List UInt8} (hseen : seen k = before ++ written) :
    Answers seen ext b root p before (written ++ text) outcome
      (goOn p.options ext job ⟨{ p with job := left }, a, k⟩) := by
  have hidle : modifyPrinter ({ · with job := none }) ⟨{ p with job := left }, a, k⟩ =
      .ok () (⟨p, a, k⟩ : Printing σ) := by
    rw [modifyPrinter, ← hjob]
  rw [goOn, bind_ok hidle]
  have hpauses := rounds_pauses hk h hle hle halike hs p hseen
  generalize hresult : rounds p.options ext (roundLimit p.options) job ⟨p, a, k⟩ = result at hpauses
  cases hpauses with
  | @finished b₀ a₁ k' halike₀ hpiled hseen houtcome =>
      obtain ⟨a₂, hrewind, hpiled'⟩ := hpiled.rewind_ok (halike₀.bounded hb)
      rw [← hs.mark_eq halike halike₀] at hrewind
      rw [bind_ok (attempt_ok hresult), houtcome]
      dsimp only
      rw [bind_ok (lift_arena_ok p k' hrewind)]
      exact .ended (.done (halike₀.trans hpiled'.alike) hseen)
  | @failed b₀ a₁ k' e more halike₀ hpiled hseen houtcome =>
      obtain ⟨a₂, hunwind, hpiled'⟩ := hpiled.unwind_ok (halike₀.bounded hb)
      rw [← hs.mark_eq halike halike₀] at hunwind
      rw [bind_ok (attempt_error hresult), houtcome]
      dsimp only
      rw [bind_ok (lift_arena_ok p k' hunwind)]
      exact .ended (.failed (halike₀.trans hpiled'.alike) hseen)
  | blocked halike₀ hnests hrest hle hseen hwhole hrefuses =>
      rw [bind_ok (attempt_ok hresult)]
      exact .blocked (.intro halike₀ hnests hrest hle hseen hwhole) hrefuses

/-! ### The first call -/

/-- A print starts with the frame of its root, or fails before it has written anything; and so it does
in every arena that is alike. -/
theorem start_cases (hb : b.Bounded) (hroot : root.offset ≤ Place.maxOffset) (ext : External) :
    (∃ e, ∀ b', b.Alike b' → ∃ a, start ext root b' = .error e a ∧ b'.Untouched a) ∨
      ∃ job f, job.newline = false ∧ job.spaces = 0 ∧ f.stage = .sigil ∧
        ∀ b', b.Alike b' → ∃ a, start ext root b' = .ok job a ∧ Nests b' root job [f] a := by
  by_cases hfree : Arena.markLength ≤ b.free
  · have hmarked : ∀ b', b.Alike b' → Arena.markLength ≤ b'.free ∧ Nests b' root
        { root, mark := b.backward - Arena.markLength, top := 0, depth := 0, newline := false, spaces := 0 }
        [] b'.marked := by
      intro b' halike
      have hb' := halike.bounded hb
      have hfree' : Arena.markLength ≤ b'.free := by rwa [Arena.free, halike.forward, halike.backward]
      refine ⟨hfree', (Piled.refl hb'.cursors).mark_ok hb' hfree', trivial,
        List.forall_mem_nil _, Nat.zero_le _, rfl, rfl, rfl, ?_⟩
      exact (congrArg (· - Arena.markLength) halike.backward).symm
    have hopened : ∀ b', b.Alike b' → Arena.mark .backward b' =
        .ok ⟨.backward, b.backward - Arena.markLength⟩ b'.marked := by
      intro b' halike
      rw [Arena.mark_backward_ok (hmarked b' halike).1, halike.backward]
    rcases (hmarked b (.refl b)).2.push hb (List.forall_mem_nil _)
      (Nat.lt_succ_of_le hroot) ext with
      ⟨e, hfails⟩ | ⟨job, f, hjob, hsigil, hpushed⟩
    · refine .inl ⟨e, fun b' halike => ?_⟩
      obtain ⟨more, a, hpush, hpiled⟩ := hfails b' _ halike (hmarked b' halike).2
      obtain ⟨a', hunwind, hpiled'⟩ := hpiled.unwind_ok (halike.bounded hb)
      rw [Arena.pileMark, Arena.pileTop, halike.backward] at hunwind
      refine ⟨a', ?_, hpiled'.untouched⟩
      rw [start, bind_ok (cell_ok (hopened b' halike))]
      dsimp only
      rw [bind_ok (attempt_error hpush)]
      exact bind_ok (cell_ok hunwind)
    · refine .inr ⟨job, f, by rw [hjob], by rw [hjob], hsigil, fun b' halike => ?_⟩
      obtain ⟨a, hpush, hs'⟩ := hpushed b' _ halike (hmarked b' halike).2
      refine ⟨a, ?_, hs'⟩
      rw [start, bind_ok (cell_ok (hopened b' halike))]
      dsimp only
      rw [bind_ok (attempt_ok hpush)]
      rfl
  · refine .inl ⟨.arena (.outOfMemory Arena.markLength b.free), fun b' halike => ⟨b', ?_, .refl b'⟩⟩
    have hsame : b'.free = b.free := by rw [Arena.free, Arena.free, halike.forward, halike.backward]
    have hrefused := Arena.mark_backward_full (hsame.symm ▸ Nat.lt_of_not_le hfree)
    rw [hsame] at hrefused
    rw [start]
    exact bind_error (cell_error hrefused)

/-- An idle printer starts with the root. -/
theorem print_idle (hidle : p.isBusy = false) (ext : External) (root : Place) (a : Arena) (k : σ) :
    print ext root ⟨p, a, k⟩ =
      (liftM (start ext root) >>= goOn p.options ext : PrintM σ PrintStatus) ⟨p, a, k⟩ := by
  obtain ⟨hjob, hcompletion⟩ := idle_iff.1 hidle
  rw [print, get_bind]
  dsimp only
  rw [if_neg (by simp [hcompletion]), hjob]
  rfl

/-- A printer that has a job for the root goes on with it. -/
theorem print_job (hidle : p.isBusy = false) (ext : External) (hroot : job.root = root) (a : Arena)
    (k : σ) : print ext root ⟨{ p with job := some job }, a, k⟩ =
      goOn p.options ext job ⟨{ p with job := some job }, a, k⟩ := by
  obtain ⟨-, hcompletion⟩ := idle_iff.1 hidle
  rw [print, get_bind]
  dsimp only
  rw [if_neg (by simp [hcompletion]), if_pos hroot, pure_bind]
  rfl

/-- What a print from an idle printer writes into any sink, as far as that takes it, and in every arena
that is alike. -/
theorem exists_answer (hb : b.Bounded) (hroot : root.offset ≤ Place.maxOffset)
    (hidle : p.isBusy = false) (ext : External) :
    ∃ whole outcome, ∀ {σ : Type} [Sink σ] {seen : σ → List UInt8}, Keeps σ seen →
      ∀ (b' : Arena) (k : σ), b.Alike b' →
        Answers seen ext b root p (seen k) whole outcome (print ext root ⟨p, b', k⟩) := by
  obtain ⟨hjob, -⟩ := idle_iff.1 hidle
  rcases start_cases hb hroot ext with ⟨e, hstart⟩ | ⟨job, f, hnewline, hspaces, hsigil, hstart⟩
  · refine ⟨[], .error e, fun hk b' k halike => ?_⟩
    obtain ⟨a, hstart, huntouched⟩ := hstart b' halike
    rw [print_idle hidle, bind_error (lift_cell_error p k hstart)]
    exact .ended (.failed (halike.trans huntouched.toAlike) (List.append_nil _).symm)
  · obtain ⟨a, -, hs⟩ := hstart b (.refl b)
    obtain ⟨n, whole, outcome, hle, hruns⟩ :=
      exists_run hb hs (cost_lt_roundLimit hnewline hspaces hsigil)
    refine ⟨whole, outcome, fun hk b' k halike => ?_⟩
    obtain ⟨a', hstart, hs'⟩ := hstart b' halike
    have hsame : { p with job := none } = p := by rw [← hjob]
    have hanswers := goOn_answers hk hb hjob hruns hle halike hs' none (k := k)
      (List.append_nil _).symm
    rw [hsame, List.nil_append] at hanswers
    rw [print_idle hidle, bind_ok (lift_cell_ok p k hstart)]
    exact hanswers

/-! ### The calls after it -/

namespace Suspended

/-- A suspended print goes on, in any arena that is alike and into the sink in any state. -/
theorem print_answers (hk : Keeps σ seen) (hb : b.Bounded) (hidle : p.isBusy = false)
    {s : Printing σ} (h : Suspended seen ext b root p before whole outcome s) (halike : s.arena.Alike a)
    {k : σ} (hseen : seen k = seen s.sink) :
    Answers seen ext b root p before whole outcome (print ext root ⟨s.printer, a, k⟩) := by
  obtain ⟨hjob, -⟩ := idle_iff.1 hidle
  obtain @⟨b', a', k', n, job, f, around, written, left, hbase, hnests, hrest, hle, htext, hwhole⟩ := h
  obtain ⟨b₁, hbase₁, hnests₁⟩ := hnests.of_alike (hbase.bounded hb) halike
  rw [← hwhole, print_job hidle ext hnests.root]
  exact goOn_answers hk hb hjob hrest hle (hbase.trans hbase₁) hnests₁ (some job)
    (hseen.trans htext)

/-- Meanwhile the printer writes nothing else. -/
theorem print_other (hidle : p.isBusy = false) {s : Printing σ}
    (h : Suspended seen ext b root p before whole outcome s) {other : Place} (hother : other ≠ root)
    (a : Arena) (k : σ) :
    print ext other ⟨s.printer, a, k⟩ = .error .printerBusy ⟨s.printer, a, k⟩ := by
  obtain ⟨hjob, hcompletion⟩ := idle_iff.1 hidle
  obtain @⟨b', a', k', n, job, f, around, written, left, hbase, hnests, hrest, hle, htext, hwhole⟩ := h
  rw [print, get_bind]
  dsimp only
  rw [if_neg (by simp [hcompletion]), if_neg (by rw [hnests.root]; exact hother.symm)]
  rfl

theorem printMissing_busy {s : Printing σ} (h : Suspended seen ext b root p before whole outcome s)
    (r : Reader) (a : Arena) (k : σ) :
    printMissing r ⟨s.printer, a, k⟩ = .error .printerBusy ⟨s.printer, a, k⟩ := by
  obtain ⟨hbase, hnests, hrest, hle, htext, hwhole⟩ := h
  rfl

omit [Sink σ] in
/-- A suspended print can be given up. -/
theorem abandon_ok (hb : b.Bounded) (hidle : p.isBusy = false) {s : Printing σ}
    (h : Suspended seen ext b root p before whole outcome s) (halike : s.arena.Alike a) (k : σ) :
    ∃ a', abandon ⟨s.printer, a, k⟩ = .ok () ⟨p, a', k⟩ ∧ b.Alike a' := by
  obtain ⟨hjob, hcompletion⟩ := idle_iff.1 hidle
  obtain @⟨b', a', k', n, job, f, around, written, left, hbase, hnests, hrest, hle, htext, hwhole⟩ := h
  obtain ⟨b₁, hbase₁, hnests₁⟩ := hnests.of_alike (hbase.bounded hb) halike
  have halike₁ := hbase.trans hbase₁
  obtain ⟨a'', hunwind, hpiled⟩ := hnests₁.piled.unwind_ok (halike₁.bounded hb)
  rw [← hnests₁.mark] at hunwind
  have hreset : modifyPrinter (·.reset) ⟨{ p with job := some job }, a, k⟩ =
      .ok () (⟨p, a, k⟩ : Printing σ) := by
    rw [modifyPrinter, Printer.reset, ← hjob, ← hcompletion]
  refine ⟨a'', ?_, halike₁.trans hpiled.alike⟩
  rw [abandon, get_bind]
  dsimp only
  rw [bind_ok hreset]
  exact lift_arena_ok p k hunwind

end Suspended

end Calls

/-! ### Any number of calls -/

/-- The answer of a print, or of a call that goes on with it after a byte was refused. In between the
sink may come to be in any state, and the arena may become another that is alike. -/
inductive Attempts {σ : Type} [Sink σ] (ext : External) (root : Place) (s : Printing (Recorded σ)) :
    EStateM.Result Fault (Printing (Recorded σ)) PrintStatus → Prop where
  | first : Attempts ext root s (print ext root s)
  | again {t : Printing (Recorded σ)} (h : Attempts ext root s (.ok .blocked t)) {a : Arena}
      (halike : t.arena.Alike a) (inner : σ) :
      Attempts ext root s (print ext root ⟨t.printer, a, ⟨inner, t.sink.accepted⟩⟩)

/-- The print of the value at `root` is waiting for its sink, which has accepted no more than the
beginning of `whole` since it had accepted `before`. The printer takes nothing else on meanwhile; and
if the print is given up, the arena is as it was before, like `b`, and the printer `p` idle. -/
structure Waits {σ : Type} [Sink σ] (ext : External) (b : Arena) (root : Place) (p : Printer)
    (before whole : List UInt8) (t : Printing (Recorded σ)) : Prop where
  accepted : ∃ text, text <+: whole ∧ t.sink.accepted = before ++ text
  other : ∀ (other : Place) (a : Arena) (k : Recorded σ), other ≠ root →
    print ext other ⟨t.printer, a, k⟩ = .error .printerBusy ⟨t.printer, a, k⟩
  missing : ∀ (r : Reader) (a : Arena) (k : Recorded σ),
    printMissing r ⟨t.printer, a, k⟩ = .error .printerBusy ⟨t.printer, a, k⟩
  abandon : ∀ (a : Arena) (k : Recorded σ), t.arena.Alike a →
    ∃ a', abandon ⟨t.printer, a, k⟩ = .ok () ⟨p, a', k⟩ ∧ b.Alike a'

section Attempts

variable {σ τ : Type} [Sink σ] [Sink τ] {ext : External} {b : Arena} {root : Place} {p : Printer}

theorem Suspended.waits {s : Recorded σ} {t : Printing (Recorded σ)} {whole : List UInt8}
    {outcome : Except Fault Unit} (hb : b.Bounded) (hidle : p.isBusy = false)
    (h : Suspended Recorded.accepted ext b root p s.accepted whole outcome t) :
    Waits ext b root p s.accepted whole t where
  accepted := by
    obtain @⟨b', a, k, n, job, f, around, written, left, _, _, _, _, hseen, hwhole⟩ := h
    exact ⟨written, ⟨left, hwhole⟩, hseen⟩
  other other a k hother := h.print_other hidle hother a k
  missing := h.printMissing_busy
  abandon _ k halike := h.abandon_ok hb hidle halike k

theorem attempts_answers {s : Recorded σ} {whole : List UInt8} {outcome : Except Fault Unit}
    (hb : b.Bounded) (hidle : p.isBusy = false)
    (hfirst : Answers Recorded.accepted ext b root p s.accepted whole outcome
      (print ext root ⟨p, b, s⟩))
    {result : EStateM.Result Fault (Printing (Recorded σ)) PrintStatus}
    (h : Attempts ext root ⟨p, b, s⟩ result) :
    Answers Recorded.accepted ext b root p s.accepted whole outcome result := by
  induction h with
  | first => exact hfirst
  | again h halike inner ih =>
      cases ih with
      | ended h => cases h
      | blocked h => exact h.print_answers keeps_recorded hb hidle halike rfl

/-- A print that is stopped and goes on any number of times comes to the same end as one that is not,
and writes the same text; as long as it waits it has written a beginning of that. -/
theorem print_resumes {seen : τ → List UInt8} (hk : Keeps τ seen) (hall : ¬ Refuses τ)
    (hb : b.Bounded) (hroot : root.offset ≤ Place.maxOffset) (hidle : p.isBusy = false) (k : τ)
    (s : Recorded σ) :
    ∃ outcome whole, Ends seen b p (seen k ++ whole) outcome (print ext root ⟨p, b, k⟩) ∧
      ∀ result, Attempts ext root ⟨p, b, s⟩ result →
        Ends Recorded.accepted b p (s.accepted ++ whole) outcome result ∨
          ∃ t, result = .ok .blocked t ∧ Waits ext b root p s.accepted whole t := by
  obtain ⟨whole, outcome, hanswers⟩ := exists_answer hb hroot hidle ext
  refine ⟨outcome, whole, ?_, fun result h => ?_⟩
  · have honce := hanswers hk b k (.refl b)
    generalize print ext root ⟨p, b, k⟩ = result at honce
    cases honce with
    | ended h => exact h
    | blocked h hrefuses => exact (hall hrefuses).elim
  · cases attempts_answers hb hidle (hanswers keeps_recorded b s (.refl b)) h with
    | ended h => exact .inl h
    | @blocked t hsuspended =>
        exact .inr ⟨t, rfl, hsuspended.waits hb hidle⟩

/-- An integer and, after it, a list whose only child is at the address of that. -/
def linkedList : External := .ofImage (.ofList [0, 2, 0, 7, 0, 195, 0, 1, 0]) 1

/-- What has been written by a print that is done. -/
def textOf : EStateM.Result Fault (Printing Transcript) PrintStatus → Option (List UInt8)
  | .ok .done s => some s.sink.bytes
  | _ => none

theorem print_resumes_linked : ∃ a, Arena.create 64 = .ok a ∧ ∀ result,
    Attempts linkedList ⟨.store, 5⟩
      ⟨{ options := {} }, a, ⟨Throttled.ofInner ({} : Transcript) 1, []⟩⟩ result →
    Ends Recorded.accepted a { options := {} } [40, 43, 55, 41] (.ok ()) result ∨
      ∃ t, result = .ok .blocked t ∧
        Waits linkedList a ⟨.store, 5⟩ { options := {} } [] [40, 43, 55, 41] t := by
  obtain ⟨a, ha, hdone⟩ : ∃ a, Arena.create 64 = .ok a ∧
      textOf (print linkedList ⟨.store, 5⟩ ⟨{ options := {} }, a, {}⟩) = some [40, 43, 55, 41] :=
    ⟨_, rfl, by decide +kernel⟩
  obtain ⟨outcome, whole, honce, hattempts⟩ :=
    @print_resumes (Throttled Transcript) Transcript _ _ linkedList a ⟨.store, 5⟩ { options := {} } _
      keeps_transcript not_refuses_transcript (Arena.bounded_create ha) (by decide) rfl {}
      ⟨Throttled.ofInner {} 1, []⟩
  refine ⟨a, ha, ?_⟩
  generalize print linkedList ⟨.store, 5⟩ ⟨{ options := {} }, a, ({} : Transcript)⟩ = once
    at honce hdone
  cases honce with
  | done halike hseen =>
      have hwhole : whole = [40, 43, 55, 41] := hseen.symm.trans (Option.some.inj hdone)
      rw [hwhole] at hattempts
      exact hattempts
  | failed => contradiction

end Attempts

end Printing

end FlatLisp
