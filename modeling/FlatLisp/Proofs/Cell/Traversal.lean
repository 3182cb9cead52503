/-
Module: FlatLisp.Proofs.Cell.Traversal
Purpose: Walking through a written tree of cells visits each of them once, in the order in which they
  are written, and ends just past the tree; only memory for the counters of the open lists may be
  missing. Whatever is computed by a walk agrees on where the tree ends and how many cells it has.
Main exports: Cell.Walked, Cell.walkChildren_walked, Cell.walkTree_walked, Cell.Toured,
  Cell.walk_toured, Cell.walk_decodes
-/
import FlatLisp.Proofs.Cell.CellTree
import FlatLisp.Proofs.Cell.Order

namespace FlatLisp

variable {σ : Type}

/-! ### Steps of a tour -/

section Lift

variable {α : Type} {a a' : Arena} {seen seen' : σ}

theorem tour_cell_ok {x : CellM α} {y : α} (h : x a = .ok y a') :
    (liftM x : TourM σ α) ⟨a, seen⟩ = .ok y ⟨a', seen⟩ := by
  simp only [liftM, monadLift, MonadLift.monadLift, h]

theorem tour_cell_error {x : CellM α} {e : Fault} (h : x a = .error e a') :
    (liftM x : TourM σ α) ⟨a, seen⟩ = .error e ⟨a', seen⟩ := by
  simp only [liftM, monadLift, MonadLift.monadLift, h]

theorem tour_arena_ok {x : ArenaM α} {y : α} (h : x a = .ok y a') :
    (liftM x : TourM σ α) ⟨a, seen⟩ = .ok y ⟨a', seen⟩ := by
  simp only [liftM, monadLift, MonadLift.monadLift, h]

theorem tour_arena_error {x : ArenaM α} {e : ArenaError} (h : x a = .error e a') :
    (liftM x : TourM σ α) ⟨a, seen⟩ = .error (.arena e) ⟨a', seen⟩ := by
  simp only [liftM, monadLift, MonadLift.monadLift, h]

theorem tour_visit_ok {act : EStateM Fault σ α} {y : α} (h : act seen = .ok y seen') :
    TourM.visit act ⟨a, seen⟩ = .ok y ⟨a, seen'⟩ := by
  simp only [TourM.visit, h]

theorem tour_visit_error {act : EStateM Fault σ α} {e : Fault} (h : act seen = .error e seen') :
    TourM.visit act ⟨a, seen⟩ = .error e ⟨a, seen'⟩ := by
  simp only [TourM.visit, h]

end Lift

namespace Cell

open Arena (Piled)

/-- Show cells to a visitor, one after another. -/
def tell (visit : Visit → EStateM Fault σ Unit) (visits : List Visit) : EStateM Fault σ Unit :=
  forM visits visit

theorem tell_cons (visit : Visit → EStateM Fault σ Unit) (v : Visit) (rest : List Visit) :
    tell visit (v :: rest) = (do visit v; tell visit rest) := List.forM_cons

theorem tell_append (visit : Visit → EStateM Fault σ Unit) (visits more : List Visit) :
    tell visit (visits ++ more) = (do tell visit visits; tell visit more) := List.forM_append

/-! ### Walking -/

section Walk

variable {b : Arena} {ext : External} {entries : List (List UInt8)} {n m : Nat}
  {visit : Visit → EStateM Fault σ Unit} {visits more : List Visit} {seen : σ} {p next : Place}

/-- A walk through cells, for which `n` lists are open at once, has come to its end. Either every cell
has been visited, and nothing that was borrowed is kept; or the visitor has refused a cell, or memory
has run out, and the counters of the open lists are left on top of the entries. -/
inductive Walked (b : Arena) (entries : List (List UInt8)) (n : Nat)
    (visit : Visit → EStateM Fault σ Unit) (visits : List Visit) (seen : σ) (next : Place) :
    EStateM.Result Fault (Tour σ) Place → Prop where
  | ended {a : Arena} {seen' : σ} (hseen : tell visit visits seen = .ok () seen')
      (hpiled : Piled b entries a) (hroom : Room b entries n) :
      Walked b entries n visit visits seen next (.ok next ⟨a, seen'⟩)
  | refused {a : Arena} {seen' : σ} {e : Fault} {left : List (List UInt8)}
      (hseen : tell visit visits seen = .error e seen') (hpiled : Piled b (left ++ entries) a) :
      Walked b entries n visit visits seen next (.error e ⟨a, seen'⟩)
  | ranOut {a : Arena} {seen' : σ} {e : Fault} {left : List (List UInt8)} {early : List Visit}
      (hearly : early <+: visits) (hseen : tell visit early seen = .ok () seen') (hout : e.RanOut)
      (hpiled : Piled b (left ++ entries) a) (hshort : ¬ Room b entries n) :
      Walked b entries n visit visits seen next (.error e ⟨a, seen'⟩)

theorem Walked.mono {r : EStateM.Result Fault (Tour σ) Place} (hroom : Room b entries m)
    (h : Walked b entries n visit visits seen next r) :
    Walked b entries (max m n) visit visits seen next r := by
  cases h with
  | ended hseen hpiled hn =>
      refine .ended hseen hpiled ?_
      rcases Nat.le_total m n with hle | hle
      · rwa [Nat.max_eq_right hle]
      · rwa [Nat.max_eq_left hle]
  | refused hseen hpiled => exact .refused hseen hpiled
  | ranOut hearly hseen hout hpiled hshort =>
      exact .ranOut hearly hseen hout hpiled (not_max_of_right hshort)

/-- A walk that goes on after the cells that have been visited. -/
theorem Walked.after {early : List Visit} {seen' : σ} {r : EStateM.Result Fault (Tour σ) Place}
    (hearly : tell visit early seen = .ok () seen')
    (h : Walked b entries n visit visits seen' next r) :
    Walked b entries n visit (early ++ visits) seen next r := by
  cases h with
  | ended hseen hpiled hroom =>
      refine .ended ?_ hpiled hroom
      rw [tell_append, bind_ok hearly, hseen]
  | refused hseen hpiled =>
      refine .refused ?_ hpiled
      rw [tell_append, bind_ok hearly, hseen]
  | ranOut hbegun hseen hout hpiled hshort =>
      refine .ranOut ((List.prefix_append_right_inj _).2 hbegun) ?_ hout hpiled hshort
      rw [tell_append, bind_ok hearly, hseen]

/-- Children are walked through one by one. The counter of their list is on top while there are more of
them, and is given back with the last one. -/
theorem walkChildren_walked (hb : b.Bounded) {depth : Nat} {child : Place → TourM σ Place}
    {ts : List CellTree} (hts : ts ≠ [])
    (hchild : ∀ t ∈ ts, ∀ p frame a seen, Written b ext p t.encode →
      Piled b (frame :: entries) a →
      Walked b (frame :: entries) t.nesting visit (t.visits p depth) seen
        (p.after t.encode.length) (child p ⟨a, seen⟩))
    {c : Counter} {frame : List UInt8} (hc : Counts b entries c frame)
    (hwritten : Written b ext p (CellTree.encodeAll ts)) {a : Arena}
    (hpiled : Piled b (frame :: entries) a) :
    Walked b entries (CellTree.nestingAll ts + 1) visit (CellTree.visitsAll ts p depth) seen
      (p.after (CellTree.encodeAll ts).length) (walkChildren child c ts.length p ⟨a, seen⟩) := by
  induction ts generalizing p frame a seen with
  | nil => exact (hts rfl).elim
  | cons t ts ih =>
      have hfirst := hchild t (.head _) p frame a seen hwritten.left hpiled
      rw [List.length_cons, walkChildren, CellTree.visitsAll, CellTree.nestingAll,
        CellTree.encodeAll, List.length_append, ← Place.after_after]
      generalize hresult : child p ⟨a, seen⟩ = result at hfirst
      cases hfirst with
      | refused hseen hpiled' =>
          rw [List.append_cons] at hpiled'
          rw [bind_error hresult]
          refine .refused ?_ hpiled'
          rw [tell_append, bind_error hseen]
      | ranOut hearly hseen hout hpiled' hshort =>
          rw [List.append_cons] at hpiled'
          rw [room_counted hc.length] at hshort
          rw [bind_error hresult]
          have hless : t.nesting + 1 ≤ max t.nesting (CellTree.nestingAll ts) + 1 :=
            Nat.succ_le_succ (Nat.le_max_left ..)
          exact .ranOut (hearly.trans (List.prefix_append ..)) hseen hout hpiled'
            fun hroom => hshort (hroom.of_le hless)
      | @ended a₁ seen₁ hseen hpiled' hroom =>
          rw [room_counted hc.length] at hroom
          rw [bind_ok hresult, ← Nat.add_max_add_right]
          cases ts with
          | nil =>
              obtain ⟨a₂, hpop, hpiled''⟩ := hc.pop_ok hb hpiled'
              have hgiven : (liftM c.pop : TourM σ Unit) ⟨a₁, seen₁⟩ = .ok () ⟨a₂, seen₁⟩ :=
                tour_cell_ok hpop
              refine .after hseen (.mono hroom ?_)
              change Walked b entries _ visit [] seen₁ _ ((do
                c.pop
                return p.after t.encode.length : TourM σ Place) _)
              rw [bind_ok hgiven]
              exact .ended rfl hpiled'' (hroom.of_le (Nat.le_add_left ..))
          | cons u us =>
              obtain ⟨a₂, hupdate, hcounts, hpiled''⟩ :=
                hc.update_ok hb hpiled' (us.length + 1) c.right
              have hcount : (liftM (Counter.update { c with left := us.length + 1 }) :
                  TourM σ Unit) ⟨a₁, seen₁⟩ = .ok () ⟨a₂, seen₁⟩ := tour_cell_ok hupdate
              refine .after hseen (.mono hroom ?_)
              change Walked b entries _ visit _ seen₁ _ ((do
                Counter.update { c with left := us.length + 1 }
                walkChildren child c (us.length + 1) (p.after t.encode.length) : TourM σ Place) _)
              rw [bind_ok hcount]
              apply ih (List.cons_ne_nil u us) (fun t ht => hchild t (.tail _ ht)) hcounts ?_ hpiled''
              exact hwritten.right

/-- A list is opened, or memory has run out. -/
theorem open_ok (hb : b.Bounded) {a : Arena} (hpiled : Piled b entries a) (below count : Nat)
    (seen : σ) (next : Counter → TourM σ Place) :
    (∃ e a' left, e.RanOut ∧ Piled b (left ++ entries) a' ∧ ¬ Room b entries 1 ∧
        (do let c ← Counter.push below count 0 none none
            next c : TourM σ Place) ⟨a, seen⟩ = .error e ⟨a', seen⟩) ∨
      ∃ c frame a', Counts b entries c frame ∧ Piled b (frame :: entries) a' ∧
        (do let c ← Counter.push below count 0 none none
            next c : TourM σ Place) ⟨a, seen⟩ = next c ⟨a', seen⟩ := by
  rcases push_ok hb hpiled below count 0 none none pure with
    ⟨e, a', left, hout, hpiled', herror, hshort⟩ | ⟨c, frame, a', hcounts, hpiled', -, -, hopen⟩
  · rw [bind_pure] at herror
    exact .inl ⟨e, a', left, hout, hpiled', hshort, bind_error (tour_cell_error herror)⟩
  · rw [bind_pure] at hopen
    exact .inr ⟨c, frame, a', hcounts, hpiled', bind_ok (tour_cell_ok hopen)⟩

/-- What a walk does once a cell has been shown: a list with children after it is opened. -/
def enter (ext : External) (visit : Visit → EStateM Fault σ Unit) (levels depth below : Nat)
    (next : Place) : Header → TourM σ Place
  | .list (count + 1) _ false =>
      match levels with
      | 0 => throw (.depthExceeded maxNesting)
      | levels + 1 => do
          let c ← Counter.push below (count + 1) 0 none none
          walkChildren (walkTree ext visit levels (depth + 1) c.offset) c (count + 1) next
  | _ => return next

theorem walkTree_eq (visit : Visit → EStateM Fault σ Unit) (levels depth below : Nat) (p : Place) :
    walkTree ext visit levels depth below p = (do
      let header ← consult (load · ext p)
      TourM.visit (visit ⟨p, header, depth⟩)
      let next ← consult fun _ => step p header.footprint
      enter ext visit levels depth below next header) := by
  rw [walkTree.eq_def]
  rfl

/-- Every cell is loaded and shown to the visitor before anything else happens. -/
theorem walkTree_walked_cell {header : Header} {a : Arena} {depth : Nat} {rest : List Visit}
    {levels below : Nat} (hload : load a ext p = .ok header)
    (hoffset : p.offset + header.footprint ≤ Place.maxOffset) (hpiled : Piled b entries a)
    (hrest : ∀ seen', Walked b entries n visit rest seen' next
      (enter ext visit levels depth below (p.after header.footprint) header ⟨a, seen'⟩)) :
    Walked b entries n visit (⟨p, header, depth⟩ :: rest) seen next
      (walkTree ext visit levels depth below p ⟨a, seen⟩) := by
  have hheader : (liftM (consult (load · ext p)) : TourM σ Header) ⟨a, seen⟩ =
      .ok header ⟨a, seen⟩ := tour_cell_ok (consult_ok hload)
  rw [walkTree_eq, bind_ok hheader]
  cases hvisit : visit ⟨p, header, depth⟩ seen with
  | error e seen' =>
      rw [bind_error (tour_visit_error hvisit)]
      refine @Walked.refused _ _ _ _ _ _ _ _ _ _ _ [] ?_ hpiled
      rw [tell_cons, bind_error hvisit]
  | ok u seen' =>
      have hstep : (liftM (consult fun _ => step p header.footprint) : TourM σ Place) ⟨a, seen'⟩ =
          .ok (p.after header.footprint) ⟨a, seen'⟩ := tour_cell_ok (consult_ok (step_ok hoffset))
      have hshown : tell visit [⟨p, header, depth⟩] seen = .ok () seen' := by
        rw [tell_cons, bind_ok hvisit]
        rfl
      rw [bind_ok (tour_visit_ok hvisit), bind_ok hstep]
      exact .after hshown (hrest seen')

/-- Walking through a written tree visits its cells in pre-order and ends just past it. -/
theorem walkTree_walked (hb : b.Bounded) {t : CellTree} (hfits : t.Fits) {levels : Nat}
    (hlevels : t.nesting ≤ levels) (hwritten : Written b ext p t.encode) (depth below : Nat)
    (seen : σ) {a : Arena} (hpiled : Piled b entries a) :
    Walked b entries t.nesting visit (t.visits p depth) seen (p.after t.encode.length)
      (walkTree ext visit levels depth below p ⟨a, seen⟩) := by
  induction t using CellTree.induct generalizing levels p depth below seen entries a with
  | leaf header body =>
      obtain ⟨hheader, hopens, hlength⟩ := hfits
      have hoffset := hwritten.offset
      rw [CellTree.encode] at hwritten hoffset ⊢
      rw [List.length_append, Header.length_encode, hlength] at hoffset ⊢
      have hload := (retains_of_piled hb hpiled).load (load_written hheader hwritten)
      apply walkTree_walked_cell hload hoffset hpiled
      intro seen'
      have hended : Walked b entries 0 visit [] seen' (p.after header.footprint)
          (.ok (p.after header.footprint) ⟨a, seen'⟩) := .ended rfl hpiled (room_zero hpiled)
      cases header with
      | symbol _ _ _ _ _ => exact hended
      | integer _ => exact hended
      | list count _ linked =>
          cases linked with
          | false => contradiction
          | true => cases count <;> exact hended
  | list sigil children ih =>
      obtain ⟨hcount, hall⟩ := hfits
      have hoffset := hwritten.offset
      rw [CellTree.encode] at hwritten hoffset ⊢
      rw [List.length_append, Header.length_encode] at hoffset ⊢
      have hheader : (Header.list children.length sigil false).Fits := hcount
      have hload := (retains_of_piled hb hpiled).load (load_written hheader hwritten)
      have hchildren := hwritten.right
      rw [Header.length_encode] at hchildren
      apply walkTree_walked_cell hload
        (Nat.le_trans (Nat.add_le_add_left (Nat.le_add_right ..) _) hoffset) hpiled
      intro seen'
      rw [← Place.after_after]
      cases children with
      | nil => exact .ended rfl hpiled (room_zero hpiled)
      | cons t ts =>
          rw [CellTree.nesting, if_neg (List.cons_ne_nil t ts)] at hlevels ⊢
          obtain ⟨levels, rfl⟩ : ∃ l, levels = l + 1 := ⟨levels - 1, by omega⟩
          rcases open_ok hb hpiled below (ts.length + 1) seen' fun c =>
              walkChildren (walkTree ext visit levels (depth + 1) c.offset) c (ts.length + 1)
                (p.after (Header.list (ts.length + 1) sigil false).footprint) with
            ⟨e, a', left, hout, hpiled', hshort, herror⟩ | ⟨c, frame, a', hcounts, hpiled', hopen⟩
          · rw [List.length_cons, enter, herror]
            exact .ranOut List.nil_prefix rfl hout hpiled'
              fun hroom => hshort (hroom.of_le (Nat.le_add_left ..))
          · rw [List.length_cons, enter, hopen]
            apply walkChildren_walked hb (List.cons_ne_nil t ts) ?_ hcounts hchildren hpiled'
            intro u hu q frame a seen hq hpiled
            have hless := CellTree.nesting_le_nestingAll hu
            exact ih u hu (CellTree.fitAll_iff.1 hall u hu) (by omega) hq (depth + 1) c.offset
              seen hpiled

/-! ### Walks as a whole -/

/-- What runs between a mark and its unwinding may leave anything on top of the mark. -/
theorem tour_borrow_ok {a : Arena} (hb : b.Bounded) (hpiled : Piled b entries a)
    (body : TourM σ Place) (seen : σ) :
    (∃ e, e.RanOut ∧ Arena.borrow body ⟨a, seen⟩ = .error e ⟨a, seen⟩ ∧ a.free < Arena.markLength) ∨
      ∃ a₁, Piled b ([] :: entries) a₁ ∧
        ∀ {left a₂ seen'}, Piled b (left ++ [] :: entries) a₂ → ∃ a₃, Piled b entries a₃ ∧
          (∀ q, body ⟨a₁, seen⟩ = .ok q ⟨a₂, seen'⟩ →
            Arena.borrow body ⟨a, seen⟩ = .ok q ⟨a₃, seen'⟩) ∧
          ∀ e, body ⟨a₁, seen⟩ = .error e ⟨a₂, seen'⟩ →
            Arena.borrow body ⟨a, seen⟩ = .error e ⟨a₃, seen'⟩ := by
  by_cases hmark : Arena.markLength ≤ a.free
  · have htaken : (liftM (Arena.mark .backward) : TourM σ Mark) ⟨a, seen⟩ = _ :=
      tour_arena_ok (Arena.mark_backward_ok hmark)
    have hrecord : a.backward - Arena.markLength = Arena.pileMark b ([] :: entries) := by
      rw [hpiled.backward]
      rfl
    rw [hrecord] at htaken
    refine .inr ⟨a.marked, hpiled.mark_ok hb hmark, fun {left a₂ seen'} hpiled' => ?_⟩
    obtain ⟨a₃, hunwind, hpiled''⟩ := hpiled'.unwind_ok hb
    have hgiven : (liftM (Arena.unwind _) : TourM σ Unit) ⟨a₂, seen'⟩ = .ok () ⟨a₃, seen'⟩ :=
      tour_arena_ok hunwind
    refine ⟨a₃, hpiled'', fun q hbody => ?_, fun e hbody => ?_⟩
    · rw [Arena.borrow, bind_ok htaken, bind_ok (attempt_ok hbody), bind_ok hgiven]
      rfl
    · rw [Arena.borrow, bind_ok htaken, bind_ok (attempt_error hbody), bind_ok hgiven]
      rfl
  · have hfull : a.free < Arena.markLength := Nat.lt_of_not_le hmark
    exact .inl ⟨_, ⟨Arena.markLength, a.free, hfull, rfl⟩,
      bind_error (tour_arena_error (Arena.mark_backward_full hfull)), hfull⟩

/-- A walk from outside, where at most `n` lists are open at once: the cells are shown to the visitor in
order, and the arena is as it was. It runs out of memory only where there is too little. -/
inductive Toured (b : Arena) (n : Nat) (visit : Visit → EStateM Fault σ Unit) (visits : List Visit)
    (seen : σ) (next : Place) : EStateM.Result Fault (Tour σ) Place → Prop where
  | ended {a : Arena} {seen' : σ} (hseen : tell visit visits seen = .ok () seen')
      (halike : b.Alike a) : Toured b n visit visits seen next (.ok next ⟨a, seen'⟩)
  | refused {a : Arena} {seen' : σ} {e : Fault} (hseen : tell visit visits seen = .error e seen')
      (halike : b.Alike a) : Toured b n visit visits seen next (.error e ⟨a, seen'⟩)
  | ranOut {a : Arena} {seen' : σ} {e : Fault} {early : List Visit} (hearly : early <+: visits)
      (hseen : tell visit early seen = .ok () seen') (hout : e.RanOut) (halike : b.Alike a)
      (hshort : b.free < 4 + 18 * n) : Toured b n visit visits seen next (.error e ⟨a, seen'⟩)

theorem short_of_no_room (hb : b.Bounded) (h : ¬ Room b [[]] n) : b.free < 4 + 18 * n := by
  have hcursors := hb.cursors
  rw [Room, Arena.pileCost_cons, Arena.pileCost_nil, counterCost, Arena.markLength,
    Counter.frameLength, List.length_nil] at h
  rw [Arena.free]
  omega

/-- A walk shows the cells of a written tree in pre-order and answers the place just past it. -/
theorem walk_toured (hb : b.Bounded) {t : CellTree} (hfits : t.Fits)
    (hnesting : t.nesting ≤ maxNesting) (hwritten : Written b ext p t.encode)
    (visit : Visit → EStateM Fault σ Unit) (seen : σ) :
    Toured b t.nesting visit (t.visits p 0) seen (p.after t.encode.length)
      (walk ext visit p ⟨b, seen⟩) := by
  rw [walk]
  rcases tour_borrow_ok hb (.refl hb.cursors) (walkTree ext visit maxNesting 0 0 p) seen with
    ⟨e, hout, herror, hshort⟩ | ⟨a₁, hpiled, hafter⟩
  · rw [herror]
    rw [Arena.markLength] at hshort
    exact .ranOut List.nil_prefix rfl hout (.refl b) (by omega)
  · have hwalked := @walkTree_walked _ _ _ _ visit _ hb _ hfits _ hnesting hwritten 0 0 seen _ hpiled
    generalize hresult : walkTree ext visit maxNesting 0 0 p ⟨a₁, seen⟩ = result at hwalked
    cases hwalked with
    | ended hseen hpiled' hroom =>
        obtain ⟨a₃, hpiled'', hok, -⟩ := @hafter [] _ _ hpiled'
        rw [hok _ hresult]
        exact .ended hseen hpiled''.alike
    | refused hseen hpiled' =>
        obtain ⟨a₃, hpiled'', -, herror⟩ := hafter hpiled'
        rw [herror _ hresult]
        exact .refused hseen hpiled''.alike
    | ranOut hearly hseen hout hpiled' hshort =>
        obtain ⟨a₃, hpiled'', -, herror⟩ := hafter hpiled'
        rw [herror _ hresult]
        exact .ranOut hearly hseen hout hpiled''.alike (short_of_no_room hb hshort)

/-! ### What walks compute -/

/-- What is computed by a walk for which at most `n` lists are open at once is `x`, unless memory runs
out. The arena is as it was. -/
inductive Reckons {α : Type} (b : Arena) (n : Nat) (x : α) : EStateM.Result Fault Arena α → Prop where
  | found {a : Arena} (halike : b.Alike a) : Reckons b n x (.ok x a)
  | ranOut {a : Arena} {e : Fault} (hout : e.RanOut) (halike : b.Alike a)
      (hshort : b.free < 4 + 18 * n) : Reckons b n x (.error e a)

/-- A visitor that never refuses sees every cell, if there is memory. -/
theorem Toured.run {r : EStateM.Result Fault (Tour σ) Place} {seen' : σ} {tour : TourM σ Place}
    (hresult : tour ⟨b, seen⟩ = r) (h : Toured b n visit visits seen next r)
    (htell : tell visit visits seen = .ok () seen') :
    Reckons b n (next, seen') (tour.run seen b) := by
  rw [TourM.run, hresult]
  cases h with
  | ended hseen halike =>
      rw [htell] at hseen
      injection hseen with _ hseen
      rw [← hseen]
      exact .found halike
  | refused hseen halike =>
      rw [htell] at hseen
      contradiction
  | ranOut hearly hseen hout halike hshort => exact .ranOut hout halike hshort

theorem Reckons.map {α β : Type} {x : α} {job : CellM α} (f : α → β)
    (h : Reckons b n x (job b)) : Reckons b n (f x) ((do return f (← job) : CellM β) b) := by
  generalize hresult : job b = result at h
  cases h with
  | found halike =>
      rw [bind_ok hresult]
      exact .found halike
  | ranOut hout halike hshort =>
      rw [bind_error hresult]
      exact .ranOut hout halike hshort

theorem tell_nothing (visits : List Visit) :
    tell (fun _ => pure ()) visits () = .ok () () := by
  induction visits with
  | nil => rfl
  | cons v rest ih =>
      have hshown : (pure () : EStateM Fault Unit Unit) () = .ok () () := rfl
      rw [tell_cons, bind_ok hshown, ih]

theorem tell_count (visits : List Visit) (k : Nat) :
    tell (fun _ => modify (· + 1)) visits k = .ok () (k + visits.length) := by
  induction visits generalizing k with
  | nil => rfl
  | cons v rest ih =>
      have hcounted : (modify (· + 1) : EStateM Fault Nat Unit) k = .ok () (k + 1) := rfl
      rw [tell_cons, bind_ok hcounted, ih, List.length_cons, Nat.add_assoc, Nat.add_comm 1]

section Computed

variable {t : CellTree} (hb : b.Bounded) (hfits : t.Fits) (hnesting : t.nesting ≤ maxNesting)
  (hwritten : Written b ext p t.encode)

include hb hfits hnesting hwritten

theorem advance_reckons : Reckons b t.nesting (p.after t.encode.length) (advance ext p b) :=
  ((walk_toured hb hfits hnesting hwritten _ ()).run rfl (tell_nothing _)).map Prod.fst

theorem treeLength_reckons : Reckons b t.nesting t.encode.length (treeLength ext p b) := by
  have hlength := (advance_reckons hb hfits hnesting hwritten).map fun q => q.offset - p.offset
  rwa [Place.after, Nat.add_sub_cancel_left] at hlength

theorem countCells_reckons : Reckons b t.nesting t.size (countCells ext p b) := by
  have hcount := ((walk_toured hb hfits hnesting hwritten _ 0).run rfl (tell_count _ 0)).map Prod.snd
  rwa [CellTree.length_visits, Nat.zero_add] at hcount

end Computed

theorem load_visitsAll {ts : List CellTree} {depth : Nat}
    (hload : ∀ t ∈ ts, ∀ p, Written b ext p t.encode →
      ∀ v ∈ t.visits p depth, load b ext v.place = .ok v.header)
    (hwritten : Written b ext p (CellTree.encodeAll ts)) :
    ∀ v ∈ CellTree.visitsAll ts p depth, load b ext v.place = .ok v.header := by
  induction ts generalizing p with
  | nil => exact fun v hv => nomatch hv
  | cons t rest ih =>
      intro v hv
      rw [CellTree.visitsAll, List.mem_append] at hv
      rcases hv with hv | hv
      · exact hload t (.head _) p hwritten.left v hv
      · exact ih (fun u hu => hload u (.tail _ hu)) hwritten.right v hv

/-- Each cell that is shown is at its place. -/
theorem load_visits {t : CellTree} (hfits : t.Fits) (hwritten : Written b ext p t.encode)
    (depth : Nat) : ∀ v ∈ t.visits p depth, load b ext v.place = .ok v.header := by
  induction t using CellTree.induct generalizing p depth with
  | leaf header body =>
      intro v hv
      obtain rfl := List.mem_singleton.1 hv
      exact load_written hfits.1 hwritten
  | list sigil children ih =>
      intro v hv
      rw [CellTree.visits, List.mem_cons] at hv
      rcases hv with rfl | hv
      · exact load_written (h := .list children.length sigil false) hfits.1 hwritten
      · have hchildren := hwritten.right
        rw [Header.length_encode] at hchildren
        exact load_visitsAll (fun t ht p hp => ih t ht (CellTree.fitAll_iff.1 hfits.2 t ht) hp _)
          hchildren v hv

/-- A tree that is written in the arena or in outside memory is found again, whatever comes after it: a
walk shows its cells in pre-order, each with its place, its header and the number of lists open around
it, and ends just past it; so does everything that is computed by a walk. Only memory may be missing,
where there is less than one mark and a counter for each open list take. No other tree is written with
these bytes, or with some of them from the start. -/
theorem walk_decodes {t : CellTree} (hb : b.Bounded) (hfits : t.Fits)
    (hnesting : t.nesting ≤ maxNesting) (hwritten : Written b ext p t.encode) :
    (∀ {σ : Type} (visit : Visit → EStateM Fault σ Unit) (seen : σ),
        Toured b t.nesting visit (t.visits p 0) seen (p.after t.encode.length)
          (walk ext visit p ⟨b, seen⟩)) ∧
      (∀ v ∈ t.visits p 0, load b ext v.place = .ok v.header) ∧
      Reckons b t.nesting (p.after t.encode.length) (advance ext p b) ∧
      Reckons b t.nesting t.encode.length (treeLength ext p b) ∧
      Reckons b t.nesting t.size (countCells ext p b) ∧
      ∀ u : CellTree, u.Fits → u.encode <+: t.encode → u = t := by
  refine ⟨?_, load_visits hfits hwritten 0, advance_reckons hb hfits hnesting hwritten,
    treeLength_reckons hb hfits hnesting hwritten, countCells_reckons hb hfits hnesting hwritten, ?_⟩
  · exact fun visit seen => walk_toured hb hfits hnesting hwritten visit seen
  · exact fun u hu h => CellTree.eq_of_prefix hfits hu h

/-- A list with an integer, a list with a symbol in it, and a list whose child is elsewhere. -/
def nestedTree : CellTree :=
  .list .bare [.leaf (.integer 7) [], .list .bare [.leaf (.symbol 1 .bare false false 9) [120]],
    .leaf (.list 1 .bare true) (Word.bytes 3)]

/-- Outside memory with the tree at 1, and another byte after it. -/
def nestedImage : External := .ofImage (.ofList (0 :: nestedTree.encode ++ [255])) 1

theorem walk_decodes_nested : ∃ a, Arena.create 64 = .ok a ∧ nestedTree.Fits ∧
    nestedTree.nesting ≤ maxNesting ∧
    Written a nestedImage ⟨.store, 1⟩ nestedTree.encode ∧
    (∀ {σ : Type} (visit : Visit → EStateM Fault σ Unit) (seen : σ),
        Toured a nestedTree.nesting visit (nestedTree.visits ⟨.store, 1⟩ 0) seen ⟨.store, 17⟩
          (walk nestedImage visit ⟨.store, 1⟩ ⟨a, seen⟩)) ∧
      (∀ v ∈ nestedTree.visits ⟨.store, 1⟩ 0, load a nestedImage v.place = .ok v.header) ∧
      Reckons a nestedTree.nesting ⟨.store, 17⟩ (advance nestedImage ⟨.store, 1⟩ a) ∧
      Reckons a nestedTree.nesting 16 (treeLength nestedImage ⟨.store, 1⟩ a) ∧
      Reckons a nestedTree.nesting 5 (countCells nestedImage ⟨.store, 1⟩ a) ∧
      ∀ u : CellTree, u.Fits → u.encode <+: nestedTree.encode → u = nestedTree := by
  obtain ⟨a, ha⟩ : ∃ a, Arena.create 64 = .ok a := ⟨_, rfl⟩
  have hfits : nestedTree.Fits := by
    simp only [nestedTree, CellTree.Fits, CellTree.FitAll, Header.Fits]
    decide
  have hwritten : Written a nestedImage ⟨.store, 1⟩ nestedTree.encode := ⟨rfl, by decide⟩
  exact ⟨a, ha, hfits, by decide, hwritten,
    walk_decodes (Arena.bounded_create ha) hfits (by decide) hwritten⟩

end Walk

end Cell

end FlatLisp
