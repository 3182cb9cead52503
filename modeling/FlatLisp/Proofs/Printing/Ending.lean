/-
Module: FlatLisp.Proofs.Printing.Ending
Purpose: A print is a loop of rounds, and it ends on any memory. Each round leaves fewer rounds that the
  open frames are still good for, whatever cells they are frames of; and into a sink that refuses
  nothing one call is the whole print. So walks, comparisons and prints all end, from everywhere.
Main exports: Printing.printLoop, Printing.Standing, Printing.print_ends, Printing.traversals_end
-/
import FlatLisp.Proofs.Cell.Comparing
import FlatLisp.Proofs.Cell.Walking
import FlatLisp.Proofs.Printing.Borrowing

namespace FlatLisp

/-- A loop whose step is over with what `body` answers ends as that does. -/
theorem Loop.ends_stop {ε σ α β : Type} {loop : Loop ε σ α β} {x : α} {s t : σ}
    (body : EStateM ε σ β)
    (hstep : loop x s = (do return .stop (← body) : EStateM ε σ (LoopStep α β)) t) :
    Loop.Ends loop 1 x s (body t) := by
  cases hbody : body t with
  | ok value u =>
      rw [bind_ok hbody] at hstep
      exact .stop hstep
  | error e u =>
      rw [bind_error hbody] at hstep
      exact .failed hstep

namespace Printing

open Arena (Piled)

variable {σ : Type} [Sink σ] {ext : External} {b a : Arena} {root : Place} {p : Printer} {job : Job}
  {f : Frame} {around : List Frame} {o : PrintOptions} {k : σ} {limit : Nat}

/-! ### The loop -/

/-- Where the loop of a print is. -/
inductive Pass where
  | call
  /-- Rounds are done for a job above a mark. -/
  | writing (mark : Nat) (job : Job)

/-- The job of a call: a new one for the root, or the one that the printer has for it. -/
def jobFor (ext : External) (root : Place) : PrintM σ Job := do
  let p := (← get).printer
  if p.completion.isSome then
    throw .printerBusy
  else
    match p.job with
    | some job => if job.root = root then pure job else throw .printerBusy
    | none => start ext root

/-- What becomes of the printer and the arena when no more rounds are done. -/
def conclude (mark : Nat) : Except Fault (Option Job) → PrintM σ PrintStatus
  | .ok (some rest) => do
      modifyPrinter ({ · with job := some rest })
      return .blocked
  | .ok none => do
      Arena.rewind ⟨.backward, mark⟩
      return .done
  | .error e => do
      Arena.unwind mark
      throw e

/-- What a call answers after its rounds. -/
def answer (mark : Nat) :
    EStateM.Result Fault (Printing σ) (Option Job) → EStateM.Result Fault (Printing σ) PrintStatus
  | .ok left s => conclude mark (.ok left) s
  | .error e s => conclude mark (.error e) s

/-- One step of a print: it is begun, or one round of it is done. -/
def printLoop (ext : External) (root : Place) : Loop Fault (Printing σ) Pass PrintStatus
  | .call => do
      let job ← jobFor ext root
      modifyPrinter ({ · with job := none })
      return .next (.writing job.mark job)
  | .writing mark job => do
      let o := (← get).printer.options
      match ← attempt (round o ext job) with
      | .ok (.more job) => return .next (.writing mark job)
      | .ok (.blocked rest) => return .stop (← conclude mark (.ok (some rest)))
      | .ok .done => return .stop (← conclude mark (.ok none))
      | .error e => return .stop (← conclude mark (.error e))

/-! ### Rounds -/

/-- The result of the rounds of a call, where fewer than `limit` are left at any time. A job is left
only where a byte was refused. -/
inductive Halts (o : PrintOptions) (b : Arena) (root : Place) (p : Printer) (limit : Nat) :
    EStateM.Result Fault (Printing σ) (Option Job) → Prop where
  | finished {a : Arena} {k : σ} : Halts o b root p limit (.ok none ⟨p, a, k⟩)
  | left {a : Arena} {k : σ} {job : Job} {f : Frame} {around : List Frame}
      (hnests : Nests b root job (f :: around) a) (hcost : cost o job f around < limit)
      (hrefuses : Refuses σ) : Halts o b root p limit (.ok (some job) ⟨p, a, k⟩)
  | failed {e : Fault} {a : Arena} {k : σ} : Halts o b root p limit (.error e ⟨p, a, k⟩)

theorem refuses_of_offer {byte : Option UInt8} {k' : σ}
    (hoffer : offerAny byte ⟨p, a, k⟩ = .ok false ⟨p, a, k'⟩) : Refuses σ := by
  cases byte with
  | none => cases hoffer
  | some c =>
      refine ⟨k, k', c, ?_⟩
      rw [offerAny, offer] at hoffer
      injection hoffer with haccepted hstate
      injection hstate with _ _ hsink
      exact Prod.ext haccepted hsink

/-- Fewer rounds are left after each. They are the steps of the loop until one of them is the last. -/
theorem rounds_halts (hb : b.Bounded) (hs : Nests b root job (f :: around) a)
    (hlimit : cost p.options job f around < limit) {fuel : Nat}
    (hfuel : cost p.options job f around < fuel) (ext : External) (mark : Nat) (origin : Place)
    (k : σ) :
    Halts p.options b root p limit (rounds p.options ext fuel job ⟨p, a, k⟩) ∧
      ∃ n, n ≤ fuel ∧ Loop.Ends (printLoop ext origin) n (.writing mark job) ⟨p, a, k⟩
        (answer mark (rounds p.options ext fuel job ⟨p, a, k⟩)) := by
  induction fuel generalizing job f around a k with
  | zero => exact absurd hfuel (Nat.not_lt_zero _)
  | succ fuel ih =>
      obtain ⟨byte, turn, hturn, hwithin⟩ := exists_turn hb hs p.options ext
      obtain ⟨accepted, k', hoffer⟩ := exists_offer byte p a k
      rw [rounds]
      rcases (hturn b a (.refl b) hs).of_offer hoffer with ⟨rfl, hround⟩ | ⟨-, hshows⟩
      · rw [bind_ok hround]
        refine ⟨.left hs hlimit (refuses_of_offer hoffer), 1, Nat.le_add_left ..,
          Loop.ends_stop (conclude mark (.ok (some job))) ?_⟩
        rw [printLoop, get_bind, bind_ok (attempt_ok hround)]
      · generalize hround : round p.options ext job ⟨p, a, k⟩ = result at hshows
        cases hshows with
        | @more job' f' around' a' hnests =>
            have hless : cost p.options job' f' around' < cost p.options job f around := hwithin
            obtain ⟨hhalts, n, hle, hends⟩ := ih hnests (Nat.lt_trans hless hlimit) (by omega) k'
            rw [bind_ok hround]
            refine ⟨hhalts, n + 1, Nat.succ_le_succ hle, .next ?_ hends⟩
            rw [printLoop, get_bind, bind_ok (attempt_ok hround)]
            rfl
        | finished hpiled =>
            rw [bind_ok hround]
            refine ⟨.finished, 1, Nat.le_add_left .., Loop.ends_stop (conclude mark (.ok none)) ?_⟩
            rw [printLoop, get_bind, bind_ok (attempt_ok hround)]
        | failed hpiled =>
            rw [bind_error hround]
            refine ⟨.failed, 1, Nat.le_add_left .., Loop.ends_stop (conclude mark (.error _)) ?_⟩
            rw [printLoop, get_bind, bind_ok (attempt_error hround)]

/-! ### Calls -/

/-- What the printer has begun, if anything, is there in the arena, whatever the cells that it writes:
the frames of its job nest, and fewer rounds are left than a call may do. -/
inductive Standing (p : Printer) (a : Arena) : Prop where
  | idle (hjob : p.job = none) (ha : a.Bounded)
  | writing {b : Arena} {job : Job} {f : Frame} {around : List Frame} (hjob : p.job = some job)
      (hb : b.Bounded) (hnests : Nests b job.root job (f :: around) a)
      (hcost : cost p.options job f around < roundLimit p.options)

/-- Meanwhile the arena may become another that is alike. -/
theorem Standing.alike {a' : Arena} (h : Standing p a) (halike : a.Alike a') : Standing p a' := by
  cases h with
  | idle hjob ha => exact .idle hjob (halike.bounded ha)
  | writing hjob hb hnests hcost =>
      obtain ⟨b', hbase, hnests'⟩ := hnests.of_alike hb halike
      exact .writing hjob (hbase.bounded hb) hnests' hcost

omit [Sink σ] in
/-- The job of a call nests. -/
theorem jobFor_ok (hroot : root.offset ≤ Place.maxOffset) (hp : Standing p a)
    {s : Printing σ} (h : jobFor ext root ⟨p, a, k⟩ = .ok job s) :
    ∃ a', s = ⟨p, a', k⟩ ∧ ∃ b f around, b.Bounded ∧ Nests b root job (f :: around) a' ∧
      cost p.options job f around < roundLimit p.options := by
  rw [jobFor, get_bind] at h
  dsimp only at h
  by_cases hcompletion : p.completion.isSome = true
  · rw [if_pos hcompletion] at h
    contradiction
  rw [if_neg hcompletion] at h
  cases hp with
  | @writing b begun f around hjob hb hnests hcost =>
      rw [hjob] at h
      dsimp only at h
      by_cases hsame : begun.root = root
      · rw [if_pos hsame] at h
        injection h with hbegun hs
        subst hbegun
        exact ⟨a, hs.symm, b, f, around, hb, hsame ▸ hnests, hcost⟩
      · rw [if_neg hsame] at h
        contradiction
  | idle hjob hb =>
      rw [hjob] at h
      dsimp only at h
      rcases start_cases hb hroot ext with
        ⟨e, hstart⟩ | ⟨job', f, hnewline, hspaces, hsigil, hstart⟩
      · obtain ⟨a', hstart, -⟩ := hstart a (.refl a)
        rw [lift_cell_error p k hstart] at h
        contradiction
      · obtain ⟨a', hstart, hnests⟩ := hstart a (.refl a)
        rw [lift_cell_ok p k hstart] at h
        injection h with hjob' hs
        subst hjob'
        exact ⟨a', hs.symm, a, f, [], hb, hnests, cost_lt_roundLimit hnewline hspaces hsigil⟩

/-- A call goes on with its job. -/
theorem print_eq (ext : External) (root : Place) (p : Printer) (a : Arena) (k : σ) :
    print ext root ⟨p, a, k⟩ = (jobFor ext root >>= goOn p.options ext) ⟨p, a, k⟩ := by
  rw [print, get_bind, jobFor, bind_assoc, get_bind]
  dsimp only
  by_cases hcompletion : p.completion.isSome = true
  · rw [if_pos hcompletion, if_pos hcompletion]
    rfl
  · rw [if_neg hcompletion, if_neg hcompletion]
    cases p.job with
    | none => rfl
    | some begun =>
        dsimp only
        by_cases hroot : begun.root = root
        · rw [if_pos hroot, if_pos hroot]
          rfl
        · rw [if_neg hroot, if_neg hroot]
          rfl

theorem goOn_eq (job : Job) (s : Printing σ) :
    goOn o ext job s = answer job.mark (rounds o ext (roundLimit o) job
      { s with printer := { s.printer with job := none } }) := by
  have hidle : modifyPrinter ({ · with job := none }) s =
      .ok () { s with printer := { s.printer with job := none } } := rfl
  rw [goOn, bind_ok hidle]
  cases hrounds : rounds o ext (roundLimit o) job
    { s with printer := { s.printer with job := none } } with
  | error e t =>
      rw [bind_ok (attempt_error hrounds)]
      rfl
  | ok left t =>
      rw [bind_ok (attempt_ok hrounds)]
      cases left <;> rfl

omit [Sink σ] in
/-- A call waits only where its rounds have left a job. -/
theorem answer_blocked {mark : Nat} {result : EStateM.Result Fault (Printing σ) (Option Job)}
    {t : Printing σ} (h : answer mark result = .ok .blocked t) :
    ∃ rest s, result = .ok (some rest) s ∧
      t = { s with printer := { s.printer with job := some rest } } := by
  cases result with
  | error e s =>
      rw [answer, conclude] at h
      cases hunwind : (liftM (Arena.unwind mark) : PrintM σ Unit) s with
      | error e' s' =>
          rw [bind_error hunwind] at h
          contradiction
      | ok _ s' =>
          rw [bind_ok hunwind] at h
          contradiction
  | ok left s =>
      cases left with
      | none =>
          rw [answer, conclude] at h
          cases hrewind : (liftM (Arena.rewind ⟨.backward, mark⟩) : PrintM σ Unit) s with
          | error e' s' =>
              rw [bind_error hrewind] at h
              contradiction
          | ok _ s' =>
              rw [bind_ok hrewind] at h
              injection h with hstatus _
              contradiction
      | some rest =>
          injection h with _ ht
          exact ⟨rest, s, rfl, ht.symm⟩

/-- A call ends after fewer rounds than are allowed. It is not refused, except by its sink. -/
theorem print_ends (hroot : root.offset ≤ Place.maxOffset) (hp : Standing p a) (ext : External)
    (k : σ) :
    (∃ n, n ≤ roundLimit p.options + 1 ∧
      Loop.Ends (printLoop ext root) n .call ⟨p, a, k⟩ (print ext root ⟨p, a, k⟩)) ∧
      ∀ t, print ext root ⟨p, a, k⟩ = .ok .blocked t → Refuses σ ∧ Standing t.printer t.arena := by
  rw [print_eq]
  cases hjob : (jobFor ext root : PrintM σ Job) ⟨p, a, k⟩ with
  | error e s =>
      rw [bind_error hjob]
      refine ⟨⟨1, Nat.le_add_left .., .failed ?_⟩, fun t h => ?_⟩
      · rw [printLoop, bind_error hjob]
      · contradiction
  | ok job s =>
      obtain ⟨a', rfl, b, f, around, hb, hnests, hcost⟩ := jobFor_ok hroot hp hjob
      have hcall : printLoop ext root .call ⟨p, a, k⟩ =
          .ok (.next (.writing job.mark job)) ⟨{ p with job := none }, a', k⟩ := by
        rw [printLoop, bind_ok hjob]
        rfl
      obtain ⟨hhalts, n, hle, hends⟩ :=
        rounds_halts (p := { p with job := none }) hb hnests hcost hcost ext job.mark root k
      rw [bind_ok hjob, goOn_eq]
      refine ⟨⟨n + 1, Nat.succ_le_succ hle, .next hcall hends⟩, fun t h => ?_⟩
      obtain ⟨rest, s, hrest, rfl⟩ := answer_blocked h
      rw [hrest] at hhalts
      cases hhalts with
      | left hnests hcost hrefuses =>
          exact ⟨hrefuses, .writing rfl hb (hnests.root.symm ▸ hnests) hcost⟩

/-- A print that waits for its sink can go on, however often it has been stopped before. -/
theorem standing_of_calls (hb : b.Bounded) (hroot : root.offset ≤ Place.maxOffset)
    (hidle : p.isBusy = false) {k : σ} {result : EStateM.Result Fault (Printing σ) PrintStatus}
    (h : Calls ext root ⟨p, b, k⟩ result) {t : Printing σ} (hblocked : result = .ok .blocked t) :
    Standing t.printer t.arena := by
  induction h generalizing t with
  | first => exact ((print_ends hroot (.idle (idle_iff.1 hidle).1 hb) ext k).2 t hblocked).2
  | again _ huntouched k' ih =>
      exact ((print_ends hroot ((ih rfl).alike huntouched.toAlike) ext k').2 t hblocked).2

/-! ### All traversals -/

/-- Whatever is in memory, and wherever they start, a walk, a comparison and a print come to a result
after finitely many steps. Into a sink that refuses nothing the print does not wait. -/
theorem traversals_end {τ : Type} (ha : a.Bounded) {place : Place}
    (hplace : place.offset ≤ Place.maxOffset) (other : Place) (ext : External)
    (visit : Visit → EStateM Fault τ Unit) (seen : τ) (hp : Standing p a) (k : σ) :
    (∃ n, n ≤ Place.maxOffset - place.offset + 3 ∧
      Loop.Ends (Cell.walking ext visit) n (.enter (.look ⟨place, 0, 0⟩)) ⟨a, seen⟩
        (Cell.walk ext visit place ⟨a, seen⟩)) ∧
    (∃ n, n ≤ Cell.pairLimit Cell.maxNesting + 3 ∧
      Loop.Ends (Cell.comparing ext) n (.enter (.look ⟨(place, other), 0, 0⟩)) a
        (Cell.compare ext place other a)) ∧
    (∃ n, n ≤ roundLimit p.options + 1 ∧
      Loop.Ends (printLoop ext place) n .call ⟨p, a, k⟩ (print ext place ⟨p, a, k⟩)) ∧
    (¬ Refuses σ → ∀ t, print ext place ⟨p, a, k⟩ ≠ .ok .blocked t) := by
  obtain ⟨hends, hblocked⟩ := print_ends hplace hp ext k
  exact ⟨Cell.walk_ends ha hplace ext visit seen, Cell.compare_ends ha ext place other, hends,
    fun hall t h => hall (hblocked t h).1⟩

/-- A list whose only child is at the address of the list itself. -/
def selfLinked : External := .ofImage (.ofList [0, 195, 0, 1, 0]) 1

theorem traversals_end_linked : ∃ a, Arena.create 1024 = .ok a ∧
    (∃ n, n ≤ Place.maxOffset - 1 + 3 ∧
      Loop.Ends (Cell.walking selfLinked fun _ => pure ()) n (.enter (.look ⟨⟨.store, 1⟩, 0, 0⟩))
        ⟨a, ()⟩ (Cell.walk selfLinked (fun _ => pure ()) ⟨.store, 1⟩ ⟨a, ()⟩)) ∧
    (∃ n, n ≤ Cell.pairLimit Cell.maxNesting + 3 ∧
      Loop.Ends (Cell.comparing selfLinked) n (.enter (.look ⟨(⟨.store, 1⟩, ⟨.store, 1⟩), 0, 0⟩)) a
        (Cell.compare selfLinked ⟨.store, 1⟩ ⟨.store, 1⟩ a)) ∧
    (∃ n, n ≤ roundLimit {} + 1 ∧
      Loop.Ends (printLoop selfLinked ⟨.store, 1⟩) n .call ⟨{ options := {} }, a, ({} : Transcript)⟩
        (print selfLinked ⟨.store, 1⟩ ⟨{ options := {} }, a, {}⟩)) ∧
    ∀ t, print selfLinked ⟨.store, 1⟩ ⟨{ options := {} }, a, ({} : Transcript)⟩ ≠
      .ok .blocked t := by
  obtain ⟨a, ha⟩ : ∃ a, Arena.create 1024 = .ok a := ⟨_, rfl⟩
  have hbounded := Arena.bounded_create ha
  have hidle : Standing { options := {} } a := .idle rfl hbounded
  have hplace : (⟨.store, 1⟩ : Place).offset ≤ Place.maxOffset := by decide
  obtain ⟨hwalk, hcompare, hprint, hended⟩ := traversals_end hbounded hplace ⟨.store, 1⟩ selfLinked
    (fun _ => pure ()) () hidle ({} : Transcript)
  exact ⟨a, ha, hwalk, hcompare, hprint, hended not_refuses_transcript⟩

end Printing

end FlatLisp
