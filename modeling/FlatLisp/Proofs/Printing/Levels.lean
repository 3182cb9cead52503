/-
Module: FlatLisp.Proofs.Printing.Levels
Purpose: A print of a tree with more levels than may be open at once fails over them, unless memory runs
  out before. It writes what comes before the first list that is too deep; the induction is on the tree,
  and what comes before that list is printed as in any other.
Main exports: Printing.Breaks, Printing.breaks, Printing.print_measures
-/
import FlatLisp.Proofs.Cell.Levels
import FlatLisp.Proofs.Printing.Borrowing
import FlatLisp.Proofs.Printing.Display

namespace FlatLisp

namespace Printing

open Arena (Piled pileTop pileMark pileCost)
open Cell (Depicts DepictsAll Measures)

section Parts

variable {b a : Arena} {es : List (List UInt8)} {job : Job} {f : Frame} {o : PrintOptions}
  {ext : External} {depth : Nat}

/-- The print comes to a list that is too deep; or memory runs out, of which there is less than 33
frames take of which `depth` are open around the innermost one. -/
def Breaks (o : PrintOptions) (ext : External) (b : Arena) (es : List (List UInt8)) (job : Job)
    (depth : Nat) (a : Arena) : Prop :=
  ∃ n e more a', Fails o ext n job a e a' ∧ Piled b (more ++ es) a' ∧
    (e = .depthExceeded Cell.maxNesting ∨
      e.RanOut ∧ b.backward < b.forward + pileCost es + 17 * (Cell.maxNesting + 1 - depth))

theorem Breaks.after {m : Nat} {text : List UInt8} {job' : Job} {a' : Arena}
    (h : Breaks o ext b es job' depth a') (hsteps : Steps o ext m job a text job' a') :
    Breaks o ext b es job depth a := by
  obtain ⟨n, e, more, a'', hfails, hpiled, hcause⟩ := h
  exact ⟨m + n, e, more, a'', hfails.after hsteps, hpiled, hcause⟩

theorem Exhausts.breaks {n cost : Nat} (h : Exhausts o ext b es job n cost a)
    (hcost : cost ≤ 17 * (Cell.maxNesting + 1 - depth)) : Breaks o ext b es job depth a := by
  obtain ⟨e, more, a', hout, hfails, hpiled, hshort⟩ := h
  exact ⟨n, e, more, a', hfails, hpiled, .inr ⟨hout, by omega⟩⟩

/-- What breaks above a frame breaks above those around it. -/
theorem Breaks.around (h : Breaks o ext b (f.encode :: es) job (depth + 1) a)
    (hdepth : depth ≤ Cell.maxNesting) : Breaks o ext b es job depth a := by
  obtain ⟨n, e, more, a', hfails, hpiled, hcause⟩ := h
  rw [List.append_cons] at hpiled
  rw [Arena.pileCost_cons, Frame.length_encode, Arena.markLength, Frame.length] at hcause
  refine ⟨n, e, _, a', hfails, hpiled, hcause.imp_right (And.imp_right fun hshort => ?_)⟩
  omega

/-- Wherever a tree is depicted that has too many levels for the depth at which it is, it is not
printed as a whole. -/
def Overflows (o : PrintOptions) (ext : External) (b : Arena) (t : Tree) : Prop :=
  ∀ (es : List (List UInt8)) (job : Job) (f : Frame) (h : Header) (q : Place) (depth : Nat)
    (a : Arena), Depicts b ext t f.place q → Cell.load b ext f.place = .ok h →
    partsAt b ext f.place h = .ok f.next → f.stage = .sigil → f.counter = 0 →
    Stands b es job f a → job.depth = depth + 1 → depth + opens h ≤ Cell.maxNesting →
    Cell.maxNesting < depth + t.nesting → Breaks o ext b es job depth a

variable (hb : b.Bounded)

include hb

/-- A list that is too deep is not opened, or one inside it is not. -/
theorem child_breaks {t : Tree} {q : Place} {count : Nat} {sigil : Sigil} {linked : Bool}
    (ht : Overflows o ext b t) (hdepicts : Depicts b ext t f.next q)
    (hload : Cell.load b ext f.place = .ok (.list count sigil linked)) (hstage : f.stage = .body)
    (hcounter : f.counter < count) (hs : Stands b es job f a) (hjob : job.depth = depth + 1)
    (hdepth : depth + 1 ≤ Cell.maxNesting) (hdeep : Cell.maxNesting < depth + 1 + t.nesting) :
    Breaks o ext b es job depth a := by
  obtain ⟨header, next, hchild, hparts, hopens, hnext⟩ := parts_of_depicts hdepicts
  have hplace := Nat.lt_succ_of_le hdepicts.offset.1
  have hmove : f.move o a ext job.top (.list count sigil linked) = .ok (.descend f.next) := by
    simp only [Frame.move, hstage]
    rw [if_neg (by omega)]
    rfl
  have hplan := hs.plan hb hload hmove
  have htop := hs.top_lt hb
  have hopened : opens header ≤ 1 := opens_le header
  by_cases hfits : job.depth + opens header ≤ Cell.maxNesting
  · rcases pushFrame_ok hb hs.piled hchild hparts hfits hplace hnext htop hs.newline hs.spaces with
      ⟨e, a', more, hout, hpiled, herror, hshort⟩ | ⟨job₁, a₁, hpush, hs₁, hjob₁⟩
    · rw [List.append_cons] at hpiled
      rw [Arena.pileCost_cons, Frame.length_encode, Arena.markLength, Frame.length] at hshort
      exact ⟨0, e, _, a', ⟨0, [], job, a, _, Nat.le_refl _, .refl, hplan, bind_error herror⟩, hpiled,
        .inr ⟨hout, by omega⟩⟩
    · have hdescend : Steps o ext 1 job a [] job₁ a₁ := .one hplan (bind_ok hpush)
      have hdepth₁ : job₁.depth = depth + 1 + 1 := by
        rw [hjob₁, hjob]
      have hbreaks := ht _ _ _ _ _ (depth + 1) _ hdepicts hchild hparts rfl rfl hs₁ hdepth₁ (by omega)
        hdeep
      exact (hbreaks.around (by omega)).after hdescend
  · have hsurvey : survey ext job.depth f.next a = .error (.depthExceeded Cell.maxNesting) := by
      rw [survey, (Cell.retains_of_piled hb hs.piled).load hchild]
      exact if_pos (Nat.lt_of_not_le hfits)
    exact ⟨0, _, [f.encode], a, ⟨0, [], job, a, _, Nat.le_refl _, .refl, hplan,
      bind_error (pushFrame_refused hsurvey)⟩, hs.piled, .inl rfl⟩

/-- The first child that is too deep ends the print, if the ones before it do not. -/
theorem children_break {ts : List Tree} {last : Place} {count : Nat} {sigil : Sigil} {linked : Bool}
    (hfit : ∀ u ∈ ts, u.Fits) (hall : ∀ u ∈ ts, Overflows o ext b u)
    (hdepicts : DepictsAll b ext ts f.next last)
    (hload : Cell.load b ext f.place = .ok (.list count sigil linked)) (hstage : f.stage = .body)
    (hcounter : f.counter + ts.length = count) (hcount : count ≤ Header.maxCount)
    (hs : Stands b es job f a) (hjob : job.depth = depth + 1) (hdepth : depth + 1 ≤ Cell.maxNesting)
    (hdeep : Cell.maxNesting < depth + 1 + Tree.nestingAll ts) : Breaks o ext b es job depth a := by
  induction ts generalizing f a with
  | nil =>
      rw [Tree.nestingAll] at hdeep
      omega
  | cons u rest ih =>
      obtain ⟨middle, hu, hrest⟩ := hdepicts
      rw [List.length_cons] at hcounter
      rw [Tree.nestingAll] at hdeep
      by_cases hfits : depth + 1 + u.nesting ≤ Cell.maxNesting
      · rcases child hb (completes hb (hfit u (.head _))) hu hload hstage (by omega) hcount hs hjob hfits
          with ⟨n₁, a₁, -, hsteps₁, hs₁⟩ | hexhausts
        · have hmore : f.counter + 1 < count := by
            cases rest with
            | nil =>
                rw [Tree.nestingAll] at hdeep
                omega
            | cons v rest =>
                rw [List.length_cons] at hcounter
                omega
          rw [Frame.counted, if_pos hmore] at hs₁
          obtain ⟨n₂, a₂, -, hsteps₂, hs₂⟩ := between (o := o)
            (f := { f with counter := f.counter + 1, stage := .separator, next := middle }) hb hload rfl
            hs₁ hjob
          refine (ih (f := { f with counter := f.counter + 1, stage := .body, next := middle }) (fun v hv => hfit v (.tail _ hv)) (fun v hv => hall v (.tail _ hv)) hrest hload rfl
            ?_ hs₂ ?_).after (hsteps₁.trans hsteps₂)
          · exact (Nat.add_right_comm ..).trans hcounter
          · omega
        · exact hexhausts.breaks (by omega)
      · exact child_breaks hb (hall u (.head _)) hu hload hstage (by omega) hs hjob hdepth
          (Nat.lt_of_not_le hfits)

/-- No tree that fits is printed as a whole where it has too many levels. -/
theorem overflows {t : Tree} (hfits : t.Fits) : Overflows o ext b t := by
  induction t using Tree.induct with
  | symbol sigil quoted chars =>
      intro es job f h q depth a _ _ _ _ _ _ _ hdepth hdeep
      rw [Tree.nesting] at hdeep
      omega
  | integer value =>
      intro es job f h q depth a _ _ _ _ _ _ _ hdepth hdeep
      rw [Tree.nesting] at hdeep
      omega
  | list sigil children ih =>
      intro es job f h q depth a hdepicts hload hparts hstage hcounter hs hjob hdepth hdeep
      obtain ⟨hcount, hall⟩ := hfits
      obtain ⟨linked, first, last, next, hload', hbody, hchildren, -, -⟩ := hdepicts
      obtain rfl := Except.ok.inj (hload.symm.trans hload')
      obtain rfl : first = f.next := Except.ok.inj (hbody.symm.trans hparts)
      cases children with
      | nil =>
          rw [Tree.nesting, if_pos rfl] at hdeep
          omega
      | cons t rest =>
          rw [Tree.nesting, if_neg (List.cons_ne_nil t rest)] at hdeep
          have hdepth' : depth + 1 ≤ Cell.maxNesting := hdepth
          obtain ⟨n, a₁, -, hsteps, hs₁⟩ := front (o := o) hb hload hstage hcounter hs
          have hfit := Tree.fitAll_iff.1 hall
          exact (children_break hb (f := { f with stage := .body, counter := 0 }) hfit
            (fun u hu => ih u hu (hfit u hu)) hchildren hload rfl (Nat.zero_add _) hcount hs₁ hjob
            hdepth' (by omega)).after hsteps

end Parts

/-! ### Prints -/

section Print

variable {σ : Type} [Sink σ] {seen : σ → List UInt8} {b : Arena} {ext : External} {t : Tree}
  {place stop : Place} {p : Printer}

/-- Rounds that have come to an end come to it with more fuel as well. -/
theorem rounds_more {o : PrintOptions} {fuel : Nat} {job : Job} {s : Printing σ}
    (hended : ∀ rest t, rounds o ext fuel job s ≠ .ok (some rest) t) (more : Nat) :
    rounds o ext (fuel + more) job s = rounds o ext fuel job s := by
  induction fuel generalizing job s with
  | zero => exact (hended job s rfl).elim
  | succ fuel ih =>
      rw [Nat.succ_add]
      rw [rounds] at hended ⊢
      rw [rounds]
      cases hround : round o ext job s with
      | error e t => rw [bind_error hround, bind_error hround]
      | ok left t =>
          rw [bind_ok hround] at hended ⊢
          rw [bind_ok hround]
          cases left with
          | more job => exact ih hended
          | blocked job => rfl
          | done => rfl

/-- A print into a sink that refuses nothing fails over the levels of a tree exactly if it has more of
them than may be open at once. Besides a mark it takes a frame for each of them and one for the value
in the innermost. -/
theorem print_measures (hk : Keeps σ seen) (hall : ¬ Refuses σ) (hb : b.Bounded)
    (hdepicts : Depicts b ext t place stop) (hidle : p.isBusy = false) (k : σ) :
    Measures t.nesting (4 + 17 * (min Cell.maxNesting t.nesting + 1)) b.free
      (print ext place ⟨p, b, k⟩) := by
  have hroot := hdepicts.offset.1
  have hended := print_ended hk hall hb hroot ext hidle k
  by_cases hnesting : t.nesting ≤ Cell.maxNesting
  · rw [Nat.min_eq_right hnesting]
    rcases print_ok hk hall hb hdepicts hdepicts.fits hnesting hidle k with
      ⟨k', a', hprint, -, -⟩ | ⟨e, k', a', hout, hprint, -, hshort⟩
    · refine .inr ⟨?_, fun hdeep => absurd hnesting (Nat.not_le_of_lt hdeep)⟩
      rintro ⟨s, h⟩
      rw [hprint] at h
      contradiction
    · exact .inl ⟨e, _, hprint, hout, by rw [Arena.free]; omega⟩
  · rw [Nat.not_le] at hnesting
    rw [Nat.min_eq_left (Nat.le_of_lt hnesting)]
    obtain ⟨hjob, -⟩ := idle_iff.1 hidle
    have hsame : { p with job := none } = p := by rw [← hjob]
    rw [print_idle hidle] at hended ⊢
    rcases start_ok hb hdepicts with
      ⟨e, a', hout, herror, hpiled, hshort⟩ |
        ⟨job, h, f, a₁, hstart, hs, hload, hparts, rfl, hstage, hcounter, -, hdepth, hmark⟩
    · exact .inl ⟨e, _, bind_error (lift_cell_error p k herror), hout, by rw [Arena.free]; omega⟩
    · have hidle : modifyPrinter ({ · with job := none }) ⟨p, a₁, k⟩ =
          .ok () (⟨p, a₁, k⟩ : Printing σ) := by
        rw [modifyPrinter, hsame]
      have hopens := opens_le h
      obtain ⟨n, e, more, a₂, hfails, hpiled, hcause⟩ := overflows (o := p.options) hb hdepicts.fits
        _ _ _ _ _ 0 _ hdepicts hload hparts hstage hcounter hs hdepth
        (by simp only [Cell.maxNesting]; omega) (by omega)
      rw [bind_ok (lift_cell_ok p k hstart), goOn, bind_ok hidle] at hended ⊢
      have hstops : ∀ rest t,
          rounds p.options ext (roundLimit p.options) job ⟨p, a₁, k⟩ ≠ .ok (some rest) t := by
        intro rest t hrounds
        rw [bind_ok (attempt_ok hrounds)] at hended
        exact hended _ rfl
      obtain ⟨k', hrounds⟩ : ∃ k', rounds p.options ext (roundLimit p.options + (n + 1)) job
          ⟨p, a₁, k⟩ = .error e ⟨p, a₂, k'⟩ := rounds_of_fails hk hall hfails (by omega) p k
      rw [rounds_more hstops] at hrounds
      obtain ⟨a₃, hunwind, -⟩ := hpiled.unwind_ok hb
      rw [bind_ok (attempt_error hrounds), hmark]
      dsimp only
      rw [bind_ok (lift_arena_ok p k' hunwind)]
      rcases hcause with rfl | ⟨hout, hshort⟩
      · exact .inr ⟨fun _ => hnesting, fun _ => ⟨_, rfl⟩⟩
      · rw [Arena.pileCost_cons, Arena.pileCost_nil, Arena.markLength, List.length_nil] at hshort
        exact .inl ⟨e, _, rfl, hout, by rw [Arena.free]; omega⟩

end Print

end Printing

end FlatLisp
