/-
Module: FlatLisp.Proofs.Cell.Walking
Purpose: A walk is a loop that keeps a place and the offset of a counter, and it ends on any memory. It
  never follows an address, so each cell that it visits is behind the one before, and it takes no more
  steps than there are places left where it starts.
Main exports: Cell.walkLoop, Cell.Covers, Cell.walkTree_covers, Cell.walk_ends
-/
import FlatLisp.Proofs.Cell.Borrowing
import FlatLisp.Proofs.Cell.Loops

namespace FlatLisp

namespace Cell

open Arena (Piled)

variable {σ : Type} {ext : External} {visit : Visit → EStateM Fault σ Unit}

/-! ### The loop -/

/-- Go on behind a cell: a list with children after it is opened. -/
def walkOn (c : Cursor Place) (next : Place) : Header → TourM σ (LoopStep (Pace Place) Place)
  | .list (count + 1) _ false =>
      if c.depth < maxNesting then do
        let counter ← Counter.push c.top (count + 1) 0 none none
        return .next (.look ⟨next, counter.offset, c.depth + 1⟩)
      else
        throw (.depthExceeded maxNesting)
  | _ => return .next (.count { c with place := next })

/-- One step of a walk: a cell is visited, or a tree is counted in the list around it. -/
def walkLoop (ext : External) (visit : Visit → EStateM Fault σ Unit) :
    Loop Fault (Tour σ) (Pace Place) Place
  | .look c => do
      let header ← consult (load · ext c.place)
      TourM.visit (visit ⟨c.place, header, c.depth⟩)
      let next ← consult fun _ => step c.place header.footprint
      walkOn c next header
  | .count c =>
      if c.top = 0 then
        return .stop c.place
      else do
        let counter ← consult (Counter.load · c.top)
        if counter.left = 0 ∨ c.depth = 0 then
          return .stuck
        else if counter.left = 1 then
          counter.pop
          return .next (.count ⟨c.place, counter.below, c.depth - 1⟩)
        else
          Counter.update { counter with left := counter.left - 1 }
          return .next (.look c)

/-! ### Trees and their children -/

section Covers

variable {x y : Pace Place} {start stop m : Nat} {onward : Place → Pace Place} {t u : Tour σ}
  {result : EStateM.Result Fault (Tour σ) Place}

/-- The loop takes from `x` on what `result` says: it goes on behind a tree, or it fails. It does not
take more steps than there are places between the offset `start` and the end of the tree, or than are
left at all. -/
def Covers (ext : External) (visit : Visit → EStateM Fault σ Unit) (x : Pace Place) (start : Nat)
    (onward : Place → Pace Place) (t : Tour σ) : EStateM.Result Fault (Tour σ) Place → Prop
  | .ok q u => q.offset ≤ Place.maxOffset ∧
      ∃ n, start + n ≤ q.offset ∧ Loop.Leads (walkLoop ext visit) n x t (onward q) u
  | .error e u => ∃ n, start + n ≤ Place.maxOffset + 2 ∧
      Loop.Ends (walkLoop ext visit) n x t (.error e u)

theorem Covers.after (h : Covers ext visit y stop onward u result)
    (hleads : Loop.Leads (walkLoop ext visit) m x t y u) (hless : start + m ≤ stop) :
    Covers ext visit x start onward t result := by
  cases result with
  | ok q v =>
      obtain ⟨hq, n, hle, hrest⟩ := h
      exact ⟨hq, m + n, by omega, hleads.trans hrest⟩
  | error e v =>
      obtain ⟨n, hle, hrest⟩ := h
      exact ⟨m + n, by omega, hrest.after hleads⟩

/-- A part that ends behind its start, and then the next one. -/
theorem Covers.bind {b : Arena} {entries : List (List UInt8)} {job : TourM σ Place}
    {next : Place → TourM σ Place} {further : Place → Pace Place}
    (h : Covers ext visit x (start + 1) onward t (job t))
    (hkept : Returns Tour.arena b entries (fun _ => True) (job t))
    (hnext : ∀ q u stop, stop + 1 = q.offset → q.offset ≤ Place.maxOffset →
      Piled b entries u.arena → Covers ext visit (onward q) stop further u (next q u)) :
    Covers ext visit x start further t ((job >>= next) t) := by
  cases hresult : job t with
  | error e u =>
      rw [hresult] at h
      obtain ⟨n, hle, hends⟩ := h
      rw [bind_error hresult]
      exact ⟨n, by omega, hends⟩
  | ok q u =>
      rw [hresult] at h hkept
      obtain ⟨hq, n, hle, hleads⟩ := h
      rw [bind_ok hresult]
      exact (hnext q u (q.offset - 1) (by omega) hq (hkept.piled trivial)).after hleads (by omega)

/-- A step that fails is the last. -/
theorem covers_failed {e : Fault} (hstep : walkLoop ext visit x t = .error e u)
    (hstart : start ≤ Place.maxOffset + 1) : Covers ext visit x start onward t (.error e u) :=
  ⟨1, Nat.succ_le_succ hstart, .failed hstep⟩

end Covers

theorem two_le_footprint (h : Header) : 2 ≤ h.footprint := by
  cases h with
  | symbol length sigil quoted linked hash =>
      exact Nat.le_trans (show 2 ≤ Header.symbolLength by decide) (Nat.le_add_right ..)
  | integer value => exact (show 2 ≤ Header.integerLength by decide)
  | list count sigil linked => exact Nat.le_add_right ..

section Steps

variable {b a : Arena} {entries : List (List UInt8)} {c : Counter} {depth : Nat} {q : Place} {seen : σ}

/-- Load a cell, show it and step over it. -/
def meet (ext : External) (visit : Visit → EStateM Fault σ Unit) (p : Place) (depth : Nat) :
    TourM σ (Header × Place) := do
  let header ← consult (load · ext p)
  TourM.visit (visit ⟨p, header, depth⟩)
  let next ← consult fun _ => step p header.footprint
  return (header, next)

theorem walkTree_meet (levels depth below : Nat) (p : Place) :
    walkTree ext visit levels depth below p = (do
      let met ← meet ext visit p depth
      enter ext visit levels depth below met.2 met.1) := by
  simp only [walkTree_eq, meet, bind_assoc, pure_bind]

theorem walkLoop_meet (c : Cursor Place) : walkLoop ext visit (.look c) = (do
    let met ← meet ext visit c.place c.depth
    walkOn c met.2 met.1) := by
  simp only [walkLoop, meet, bind_assoc, pure_bind]

/-- The next cell is two bytes further on at least. -/
theorem meet_ok {p next : Place} {header : Header} {t u : Tour σ}
    (h : meet ext visit p depth t = .ok (header, next) u) :
    header.Fits ∧ p.offset + 2 ≤ next.offset ∧ next.offset ≤ Place.maxOffset ∧
      u.arena = t.arena := by
  obtain ⟨a, seen⟩ := t
  rw [meet] at h
  cases hload : load a ext p with
  | error e =>
      rw [bind_error (tour_cell_error (consult_error hload))] at h
      contradiction
  | ok found =>
      rw [bind_ok (tour_cell_ok (consult_ok hload))] at h
      cases hvisit : visit ⟨p, found, depth⟩ seen with
      | error e seen' =>
          rw [bind_error (tour_visit_error hvisit)] at h
          contradiction
      | ok _ seen' =>
          rw [bind_ok (tour_visit_ok hvisit)] at h
          cases hstep : step p found.footprint with
          | error e =>
              rw [bind_error (tour_cell_error (consult_error hstep))] at h
              contradiction
          | ok after =>
              rw [bind_ok (tour_cell_ok (consult_ok hstep))] at h
              injection h with hmet hu
              obtain ⟨rfl, rfl⟩ := Prod.mk.inj hmet
              obtain ⟨hoffset, rfl⟩ := offset_of_step hstep
              have htwo := two_le_footprint found
              exact ⟨fits_of_load hload, Nat.add_le_add_left htwo _, hoffset, by rw [← hu]⟩

/-- The last child of a list is counted, and its counter given back. -/
theorem count_last (hb : b.Bounded) (h : Topped b entries { c with left := 1 } a) (q : Place)
    (seen : σ) :
    ∃ a', (liftM c.pop : TourM σ Unit) ⟨a, seen⟩ = .ok () ⟨a', seen⟩ ∧ Piled b entries a' ∧
      walkLoop ext visit (.count ⟨q, c.offset, depth + 1⟩) ⟨a, seen⟩ =
        .ok (.next (.count ⟨q, c.below, depth⟩)) ⟨a', seen⟩ := by
  obtain ⟨a', hpop, hpiled⟩ := h.pop hb
  refine ⟨a', tour_cell_ok hpop, hpiled, ?_⟩
  rw [walkLoop, if_neg (h.offset_ne_zero hb), bind_ok (tour_cell_ok (consult_ok (h.load hb)))]
  dsimp only
  rw [if_neg (by omega), if_pos rfl]
  exact bind_ok (tour_cell_ok hpop)

/-- A child is counted that is not the last. -/
theorem count_more (hb : b.Bounded) {n : Nat} (h : Topped b entries { c with left := n + 2 } a)
    (q : Place) (seen : σ) :
    ∃ a', (liftM (Counter.update { c with left := n + 1 }) : TourM σ Unit) ⟨a, seen⟩ =
        .ok () ⟨a', seen⟩ ∧ Topped b entries { c with left := n + 1 } a' ∧
      walkLoop ext visit (.count ⟨q, c.offset, depth + 1⟩) ⟨a, seen⟩ =
        .ok (.next (.look ⟨q, c.offset, depth + 1⟩)) ⟨a', seen⟩ := by
  have hleft := h.fits.left
  obtain ⟨a', hupdate, htopped⟩ := h.update hb (Nat.lt_of_succ_lt hleft) h.fits.right
  refine ⟨a', tour_cell_ok hupdate, htopped, ?_⟩
  rw [walkLoop, if_neg (h.offset_ne_zero hb), bind_ok (tour_cell_ok (consult_ok (h.load hb)))]
  dsimp only
  rw [if_neg (by omega), if_neg (by omega)]
  exact bind_ok (tour_cell_ok hupdate)

/-- Children are walked through as the loop does it. The counter of their list is on top before each
of them. -/
theorem walkChildren_covers (hb : b.Bounded) {child : Place → TourM σ Place}
    (hreturns : ∀ p frame t, Piled b (frame :: entries) t.arena →
      Returns Tour.arena b (frame :: entries) (fun _ => True) (child p t))
    (hchild : ∀ p frame t, p.offset ≤ Place.maxOffset → Piled b (frame :: entries) t.arena →
      Covers ext visit (.look ⟨p, c.offset, depth + 1⟩) (p.offset + 1)
        (fun q => .count ⟨q, c.offset, depth + 1⟩) t (child p t))
    (n : Nat) {p : Place} {t : Tour σ} (hp : p.offset ≤ Place.maxOffset)
    (h : Topped b entries { c with left := n + 1 } t.arena) :
    Covers ext visit (.look ⟨p, c.offset, depth + 1⟩) p.offset
      (fun q => .count ⟨q, c.below, depth⟩) t (walkChildren child c (n + 1) p t) := by
  induction n generalizing p t with
  | zero =>
      refine (hchild p _ t hp h.piled).bind (hreturns p _ t h.piled)
        fun q u stop hstop hq hpiled => ?_
      obtain ⟨a', hpop, -, hcount⟩ := count_last hb ⟨hpiled, h.counts, h.fits⟩ q u.seen
      rw [if_pos rfl, bind_ok hpop]
      exact ⟨hq, 1, Nat.le_of_eq hstop, .one hcount⟩
  | succ n ih =>
      refine (hchild p _ t hp h.piled).bind (hreturns p _ t h.piled)
        fun q u stop hstop hq hpiled => ?_
      obtain ⟨a', hupdate, htopped, hcount⟩ := count_more hb ⟨hpiled, h.counts, h.fits⟩ q u.seen
      rw [if_neg (Nat.succ_ne_zero n), bind_ok hupdate]
      exact (ih hq htopped).after (.one hcount) (Nat.le_of_eq hstop)

section Trees

variable {levels below : Nat} {p : Place} {t u : Tour σ} (hb : b.Bounded)
  (hlevels : depth + levels = maxNesting)
  (hless : ∀ l, levels = l + 1 → ∀ entries below (p : Place) (t : Tour σ), below < 65536 →
    p.offset ≤ Place.maxOffset → Piled b entries t.arena →
    Covers ext visit (.look ⟨p, below, depth + 1⟩) (p.offset + 1)
      (fun q => .count ⟨q, below, depth + 1⟩) t (walkTree ext visit l (depth + 1) below p t))
  (hbelow : below < 65536) (hp : p.offset ≤ Place.maxOffset)

include hb hlevels hless hbelow hp

/-- Behind a cell the children of a list are walked through at one level less. -/
theorem enter_covers {header : Header} {next : Place} (hfits : header.Fits)
    (hnext : p.offset + 2 ≤ next.offset) (hlast : next.offset ≤ Place.maxOffset)
    (hloop : walkLoop ext visit (.look ⟨p, below, depth⟩) t = walkOn ⟨p, below, depth⟩ next header u)
    (hpiled : Piled b entries u.arena) :
    Covers ext visit (.look ⟨p, below, depth⟩) (p.offset + 1) (fun q => .count ⟨q, below, depth⟩) t
      (enter ext visit levels depth below next header u) := by
  have hstart : p.offset + 1 ≤ Place.maxOffset + 1 := Nat.succ_le_succ hp
  rw [enter.eq_def]
  split
  · rename_i count sigil
    rw [walkOn] at hloop
    split
    · rw [if_neg (show ¬ depth < maxNesting by omega)] at hloop
      exact covers_failed hloop hstart
    · rename_i levels
      rw [if_pos (show depth < maxNesting by omega)] at hloop
      simp only [Header.Fits, Header.maxCount] at hfits
      rcases push_cases hb hpiled hbelow (show count + 1 < 65536 by omega) (Nat.zero_lt_succ _)
          (fun _ hq => (Option.not_mem_none _ hq).elim)
          (fun _ hq => (Option.not_mem_none _ hq).elim) with
        ⟨e, a', hpush⟩ | ⟨c, a', hpush, hleft, -, rfl, -, -, htopped⟩
      · have hrefused : (liftM (Counter.push below (count + 1) 0 none none) : TourM σ Counter) u =
            .error e ⟨a', u.seen⟩ := tour_cell_error hpush
        rw [bind_error hrefused] at hloop ⊢
        exact covers_failed hloop hstart
      · have hopened : (liftM (Counter.push c.below (count + 1) 0 none none) : TourM σ Counter) u =
            .ok c ⟨a', u.seen⟩ := tour_cell_ok hpush
        -- The loop reads the number of children from memory, the walk has it as an argument.
        have hcounter : c = { c with left := count + 1 } := by rw [← hleft]
        rw [hcounter] at htopped
        rw [bind_ok hopened] at hloop ⊢
        have hchildren := walkChildren_covers hb
          (fun p frame t hpiled => walkTree_returns hb levels (depth + 1) c.offset p hpiled)
          (fun p frame t hp hpiled => hless levels rfl _ c.offset p t
            (htopped.counts.offset ▸ Piled.pileTop_lt hb _) hp hpiled) count hlast
          (show Topped b entries _ (⟨a', u.seen⟩ : Tour σ).arena from htopped)
        exact hchildren.after (.one hloop) hnext
  · rename_i hother
    rw [walkOn.eq_2 _ _ _ hother] at hloop
    exact ⟨hlast, 1, hnext, .one hloop⟩

/-- A cell is visited, and then gone on behind. -/
theorem walkTree_covers_of (hpiled : Piled b entries t.arena) :
    Covers ext visit (.look ⟨p, below, depth⟩) (p.offset + 1) (fun q => .count ⟨q, below, depth⟩) t
      (walkTree ext visit levels depth below p t) := by
  rw [walkTree_meet]
  cases hmet : meet ext visit p depth t with
  | error e u =>
      rw [bind_error hmet]
      refine covers_failed ?_ (Nat.succ_le_succ hp)
      rw [walkLoop_meet]
      exact bind_error hmet
  | ok met u =>
      obtain ⟨header, next⟩ := met
      obtain ⟨hfits, hnext, hlast, harena⟩ := meet_ok hmet
      rw [bind_ok hmet]
      refine enter_covers hb hlevels hless hbelow hp hfits hnext hlast ?_ (harena ▸ hpiled)
      rw [walkLoop_meet]
      exact bind_ok hmet

end Trees

/-- The loop goes over whatever is found from `p` on as the walk does. -/
theorem walkTree_covers (hb : b.Bounded) {levels : Nat} (hlevels : depth + levels = maxNesting)
    {below : Nat} (hbelow : below < 65536) {p : Place} (hp : p.offset ≤ Place.maxOffset) {t : Tour σ}
    (hpiled : Piled b entries t.arena) :
    Covers ext visit (.look ⟨p, below, depth⟩) (p.offset + 1) (fun q => .count ⟨q, below, depth⟩) t
      (walkTree ext visit levels depth below p t) := by
  induction levels generalizing depth below p entries t with
  | zero =>
      refine walkTree_covers_of hb hlevels (fun l hl => ?_) hbelow hp hpiled
      exact absurd hl.symm (Nat.succ_ne_zero l)
  | succ levels ih =>
      refine walkTree_covers_of hb hlevels (fun l hl entries below p t hbelow hp hpiled => ?_) hbelow
        hp hpiled
      obtain rfl := Nat.succ.inj hl
      exact ih (by omega) hbelow hp hpiled

end Steps

/-! ### Walks as a whole -/

/-- The loop of a walk, from its mark to the unwinding of that. -/
def walking (ext : External) (visit : Visit → EStateM Fault σ Unit) :
    Loop Fault (Tour σ) (Loop.Scope Fault (Pace Place) Place) Place :=
  Loop.borrowing (walkLoop ext visit)

/-- Whatever is in memory and wherever a walk starts, it ends after no more steps than there are places
left there, and three. -/
theorem walk_ends {a : Arena} (ha : a.Bounded) {p : Place} (hp : p.offset ≤ Place.maxOffset)
    (ext : External) (visit : Visit → EStateM Fault σ Unit) (seen : σ) :
    ∃ n, n ≤ Place.maxOffset - p.offset + 3 ∧
      Loop.Ends (walking ext visit) n (.enter (.look ⟨p, 0, 0⟩)) ⟨a, seen⟩
        (walk ext visit p ⟨a, seen⟩) := by
  refine Loop.ends_borrow fun mark t hmark => ?_
  cases htaken : Arena.mark .backward a with
  | error e a' =>
      rw [tour_arena_error htaken] at hmark
      contradiction
  | ok mark' a' =>
      rw [tour_arena_ok htaken] at hmark
      injection hmark with _ ht
      subst ht
      have hpiled := Arena.piled_of_mark ha htaken
      have hcovers : Covers ext visit (.look ⟨p, 0, 0⟩) (p.offset + 1) (fun q => .count ⟨q, 0, 0⟩)
          ⟨a', seen⟩ (walkTree ext visit maxNesting 0 0 p ⟨a', seen⟩) :=
        walkTree_covers ha (Nat.zero_add _) (Nat.zero_lt_succ _) hp hpiled
      cases hresult : walkTree ext visit maxNesting 0 0 p ⟨a', seen⟩ with
      | error e u =>
          rw [hresult] at hcovers
          obtain ⟨n, hle, hends⟩ := hcovers
          exact ⟨n, by omega, hends⟩
      | ok q u =>
          rw [hresult] at hcovers
          obtain ⟨hq, n, hle, hleads⟩ := hcovers
          have hstop : Loop.Ends (walkLoop ext visit) 1 (.count ⟨q, 0, 0⟩) u (.ok q u) := .stop rfl
          exact ⟨n + 1, by omega, hstop.after hleads⟩

end Cell

end FlatLisp
