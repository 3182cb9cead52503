/-
Module: FlatLisp.Proofs.Printing.Borrowing
Purpose: A print gives back what it borrows, whatever cells it comes upon and whatever sink it writes
  into. While it waits for its sink only its frames are on top of what was there; once it is done, or
  has failed, nothing is.
Main exports: Printing.Calls, Printing.calls_untouched, Cell.render_untouched
-/
import FlatLisp.Proofs.Printing.Resumption

namespace FlatLisp

namespace Printing

open Arena (Piled)

variable {σ : Type} [Sink σ] {ext : External} {b a : Arena} {root : Place} {p : Printer} {job : Job}
  {f : Frame} {around : List Frame}

/-! ### Rounds -/

/-- The result of some rounds of a print: all its frames are gone but for the mark under them, or they
are there for the job that is left, or an error has left some of them behind. -/
inductive Stops (b : Arena) (root : Place) (p : Printer) :
    EStateM.Result Fault (Printing σ) (Option Job) → Prop where
  | finished {a : Arena} {k : σ} (hpiled : Piled b [[]] a) : Stops b root p (.ok none ⟨p, a, k⟩)
  | left {a : Arena} {k : σ} {job : Job} {f : Frame} {around : List Frame}
      (hnests : Nests b root job (f :: around) a) : Stops b root p (.ok (some job) ⟨p, a, k⟩)
  | failed {e : Fault} {a : Arena} {k : σ} {more : List (List UInt8)}
      (hpiled : Piled b (more ++ [[]]) a) : Stops b root p (.error e ⟨p, a, k⟩)

/-- A sink takes a byte or refuses it. -/
theorem exists_offer (byte : Option UInt8) (p : Printer) (a : Arena) (k : σ) :
    ∃ accepted k', offerAny byte ⟨p, a, k⟩ = .ok accepted ⟨p, a, k'⟩ := by
  cases byte with
  | none => exact ⟨true, k, rfl⟩
  | some c => exact ⟨(Sink.offer k c).1, (Sink.offer k c).2, rfl⟩

/-- Each round takes its turn or is refused, so it leaves frames that nest or is the last. -/
theorem rounds_stops (hb : b.Bounded) (hs : Nests b root job (f :: around) a) (o : PrintOptions)
    (fuel : Nat) (k : σ) : Stops b root p (rounds o ext fuel job ⟨p, a, k⟩) := by
  induction fuel generalizing job f around a k with
  | zero => exact .left hs
  | succ fuel ih =>
      obtain ⟨byte, turn, hturn, -⟩ := exists_turn hb hs o ext
      obtain ⟨accepted, k', hoffer⟩ := exists_offer byte p a k
      rcases (hturn b a (.refl b) hs).of_offer hoffer with ⟨-, hround⟩ | ⟨-, hshows⟩
      · rw [rounds, bind_ok hround]
        exact .left hs
      · generalize hround : round o ext job ⟨p, a, k⟩ = result at hshows
        cases hshows with
        | more hnests =>
            rw [rounds, bind_ok hround]
            exact ih hnests k'
        | finished hpiled =>
            rw [rounds, bind_ok hround]
            exact .finished hpiled
        | failed hpiled =>
            rw [rounds, bind_error hround]
            exact .failed hpiled

/-! ### Calls -/

/-- The result of a call: the print has come to its end and the arena is untouched, or it waits, with
its frames on top of an arena that is. -/
inductive Leaves (b : Arena) (root : Place) (p : Printer) :
    EStateM.Result Fault (Printing σ) PrintStatus → Prop where
  | done {a : Arena} {k : σ} (huntouched : b.Untouched a) :
      Leaves b root p (.ok .done ⟨p, a, k⟩)
  | failed {e : Fault} {a : Arena} {k : σ} (huntouched : b.Untouched a) :
      Leaves b root p (.error e ⟨p, a, k⟩)
  | waiting {b' a : Arena} {k : σ} {job : Job} {f : Frame} {around : List Frame}
      (huntouched : b.Untouched b') (hnests : Nests b' root job (f :: around) a) :
      Leaves b root p (.ok .blocked ⟨{ p with job := some job }, a, k⟩)

theorem goOn_leaves (hb : b.Bounded) (hjob : p.job = none) {b' : Arena}
    (huntouched : b.Untouched b') (hs : Nests b' root job (f :: around) a) (left : Option Job)
    (k : σ) : Leaves b root p (goOn p.options ext job ⟨{ p with job := left }, a, k⟩) := by
  have hidle : modifyPrinter ({ · with job := none }) ⟨{ p with job := left }, a, k⟩ =
      .ok () (⟨p, a, k⟩ : Printing σ) := by
    rw [modifyPrinter, ← hjob]
  have hb' := huntouched.bounded hb
  have hstops : Stops b' root p (rounds p.options ext (roundLimit p.options) job ⟨p, a, k⟩) :=
    rounds_stops hb' hs p.options _ k
  rw [goOn, bind_ok hidle]
  generalize hresult : rounds p.options ext (roundLimit p.options) job ⟨p, a, k⟩ = result at hstops
  cases hstops with
  | @finished a' k' hpiled =>
      obtain ⟨a'', hrewind, hpiled'⟩ := hpiled.rewind_ok hb'
      rw [← hs.mark] at hrewind
      rw [bind_ok (attempt_ok hresult)]
      dsimp only
      rw [bind_ok (lift_arena_ok p k' hrewind)]
      exact .done (huntouched.trans hpiled'.untouched)
  | left hnests =>
      rw [bind_ok (attempt_ok hresult)]
      exact .waiting huntouched hnests
  | @failed e a' k' more hpiled =>
      obtain ⟨a'', hunwind, hpiled'⟩ := hpiled.unwind_ok hb'
      rw [← hs.mark] at hunwind
      rw [bind_ok (attempt_error hresult)]
      dsimp only
      rw [bind_ok (lift_arena_ok p k' hunwind)]
      exact .failed (huntouched.trans hpiled'.untouched)

theorem print_leaves (hb : b.Bounded) (hroot : root.offset ≤ Place.maxOffset)
    (hidle : p.isBusy = false) (k : σ) : Leaves b root p (print ext root ⟨p, b, k⟩) := by
  obtain ⟨hjob, -⟩ := idle_iff.1 hidle
  rw [print_idle hidle]
  rcases start_cases hb hroot ext with ⟨e, hstart⟩ | ⟨job, f, -, -, -, hstart⟩
  · obtain ⟨a, hstart, huntouched⟩ := hstart b (.refl b)
    rw [bind_error (lift_cell_error p k hstart)]
    exact .failed huntouched
  · obtain ⟨a, hstart, hs⟩ := hstart b (.refl b)
    have hleaves : Leaves b root p (goOn p.options ext job ⟨{ p with job := none }, a, k⟩) :=
      goOn_leaves hb hjob (.refl b) hs none k
    have hsame : { p with job := none } = p := by rw [← hjob]
    rw [hsame] at hleaves
    rw [bind_ok (lift_cell_ok p k hstart)]
    exact hleaves

/-- The answer of a print of the value at `root`, or of a call that goes on with it after a byte was
refused. In between the sink may come to be in any state, and the arena may be lent and given back. -/
inductive Calls (ext : External) (root : Place) (s : Printing σ) :
    EStateM.Result Fault (Printing σ) PrintStatus → Prop where
  | first : Calls ext root s (print ext root s)
  | again {t : Printing σ} (h : Calls ext root s (.ok .blocked t)) {a : Arena}
      (huntouched : t.arena.Untouched a) (k : σ) :
      Calls ext root s (print ext root ⟨t.printer, a, k⟩)

/-- The induction is on the calls. The frames of a print that waits nest in whatever is given back as
its arena, on a base that is untouched. -/
theorem calls_leaves (hb : b.Bounded) (hroot : root.offset ≤ Place.maxOffset)
    (hidle : p.isBusy = false) {k : σ} {result : EStateM.Result Fault (Printing σ) PrintStatus}
    (h : Calls ext root ⟨p, b, k⟩ result) : Leaves b root p result := by
  obtain ⟨hjob, -⟩ := idle_iff.1 hidle
  induction h with
  | first => exact print_leaves hb hroot hidle k
  | again _ hlent k' ih =>
      cases ih with
      | waiting huntouched hnests =>
          obtain ⟨b₁, halike, hnests₁⟩ := hnests.of_alike (huntouched.bounded hb) hlent.toAlike
          have hbase := hnests.piled.of_untouched hlent halike hnests₁.piled
          rw [print_job hidle ext hnests.root]
          exact goOn_leaves hb hjob (huntouched.trans hbase) hnests₁ _ k'

/-! ### Prints that are refused -/

/-- After a first call that fails there is no other. -/
theorem calls_refused {s : Printing σ} {e : Fault} (hrefused : print ext root s = .error e s)
    {result : EStateM.Result Fault (Printing σ) PrintStatus} (h : Calls ext root s result) :
    result = .error e s := by
  induction h with
  | first => exact hrefused
  | again _ _ _ ih => contradiction

/-- A printer that has something else to finish takes nothing on. -/
theorem print_busy (hbusy : p.isBusy = true) (hother : ∀ job, p.job = some job → job.root ≠ root)
    (a : Arena) (k : σ) : print ext root ⟨p, a, k⟩ = .error .printerBusy ⟨p, a, k⟩ := by
  rw [print, get_bind]
  dsimp only
  by_cases hcompletion : p.completion.isSome = true
  · rw [if_pos hcompletion]
    rfl
  · rw [if_neg hcompletion]
    cases hjob : p.job with
    | none => simp [Printer.isBusy, hjob, hcompletion] at hbusy
    | some job =>
        dsimp only
        rw [if_neg (hother job hjob)]
        rfl

/-- Where nothing is refused one call is the whole print. -/
theorem print_ended {seen : σ → List UInt8} (hk : Keeps σ seen) (hall : ¬ Refuses σ)
    (hb : b.Bounded) (hroot : root.offset ≤ Place.maxOffset) (ext : External)
    (hidle : p.isBusy = false) (k : σ) (t : Printing σ) : print ext root ⟨p, b, k⟩ ≠ .ok .blocked t := by
  obtain ⟨whole, outcome, hanswers⟩ := exists_answer hb hroot hidle ext
  intro hblocked
  have hanswer := hanswers hk b k (.refl b)
  rw [hblocked] at hanswer
  cases hanswer with
  | ended h => cases h
  | blocked _ hrefuses => exact hall hrefuses

/-! ### The whole is given back -/

/-- A print that is carried to its end, by one call or by many, gives back all that it borrows, and
the printer is as it was. It may have been refused because the printer has something else to finish. -/
theorem calls_untouched (hb : b.Bounded) (hroot : root.offset ≤ Place.maxOffset)
    (hother : ∀ job, p.job = some job → job.root ≠ root) {k : σ}
    {result : EStateM.Result Fault (Printing σ) PrintStatus}
    (h : Calls ext root ⟨p, b, k⟩ result) (hended : ∀ t, result ≠ .ok .blocked t) :
    b.Untouched (after result).arena ∧ (after result).printer = p := by
  cases hbusy : p.isBusy with
  | true =>
      rw [calls_refused (print_busy hbusy hother b k) h]
      exact ⟨.refl b, rfl⟩
  | false =>
      cases calls_leaves hb hroot hbusy h with
      | done huntouched => exact ⟨huntouched, rfl⟩
      | failed huntouched => exact ⟨huntouched, rfl⟩
      | waiting => exact (hended _ rfl).elim

end Printing

namespace Cell

open Printing

theorem print_transcript_ended {b : Arena} (hb : b.Bounded) {root : Place}
    (hroot : root.offset ≤ Place.maxOffset) (ext : External) {p : Printer} (hidle : p.isBusy = false)
    (k : Transcript) (t : Printing Transcript) : print ext root ⟨p, b, k⟩ ≠ .ok .blocked t :=
  print_ended keeps_transcript not_refuses_transcript hb hroot ext hidle k t

theorem render_untouched {b : Arena} (hb : b.Bounded) {root : Place}
    (hroot : root.offset ≤ Place.maxOffset) (ext : External) (o : PrintOptions) :
    b.Untouched (after (render ext o root b)) := by
  have hcalls : Calls ext root ⟨{ options := o }, b, ({} : Transcript)⟩
      (print ext root ⟨{ options := o }, b, ({} : Transcript)⟩) := .first
  have huntouched := (calls_untouched hb hroot (p := { options := o }) nofun hcalls
    (print_transcript_ended hb hroot ext rfl {})).1
  rw [render]
  generalize print ext root ⟨{ options := o }, b, ({} : Transcript)⟩ = result at huntouched
  cases result <;> exact huntouched

end Cell

end FlatLisp
