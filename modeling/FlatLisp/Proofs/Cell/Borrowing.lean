/-
Module: FlatLisp.Proofs.Cell.Borrowing
Purpose: Walking and comparing give back what they borrow, whatever bytes they come upon. A traversal
  piles the counters of its open lists on what was there; wherever it ends, by an error of any kind
  included, only counters of its own are left on top, and the mark around the whole takes them away.
Main exports: Cell.Returns, Cell.walkTree_returns, Cell.compareTrees_returns, Cell.walk_untouched,
  Cell.compare_untouched
-/
import FlatLisp.Proofs.Arena.Untouched
import FlatLisp.Proofs.Cell.Traversal

namespace FlatLisp

namespace Cell

open Arena (Piled Untouched)

variable {α β σ : Type} {b : Arena} {entries : List (List UInt8)}

/-! ### What is left on top -/

/-- A part of a traversal has ended. It has left the entries as they were, and something may be on top
of them; nothing is if it has succeeded with an answer that is `closed`. The arena is a part of the
state. -/
def Returns (arena : σ → Arena) (b : Arena) (entries : List (List UInt8)) (closed : α → Prop)
    (result : EStateM.Result Fault σ α) : Prop :=
  ∃ more, Piled b (more ++ entries) (arena (after result)) ∧
    ∀ x s, result = .ok x s → closed x → more = []

section Rules

variable {arena : σ → Arena} {closed : β → Prop} {job : EStateM Fault σ α}
  {next : α → EStateM Fault σ β} {s : σ}

theorem returns_ok {x : β} (hpiled : Piled b entries (arena s)) :
    Returns arena b entries closed (.ok x s) :=
  ⟨[], hpiled, fun _ _ _ _ => rfl⟩

theorem returns_error {e : Fault} {more : List (List UInt8)}
    (hpiled : Piled b (more ++ entries) (arena s)) : Returns arena b entries closed (.error e s) :=
  ⟨more, hpiled, nofun⟩

theorem returns_refused {e : Fault} (hpiled : Piled b entries (arena s)) :
    Returns arena b entries closed (.error e s) :=
  ⟨[], hpiled, nofun⟩

theorem Returns.piled {x : β} (h : Returns arena b entries closed (.ok x s)) (hclosed : closed x) :
    Piled b entries (arena s) := by
  obtain ⟨more, hpiled, hnone⟩ := h
  cases hnone x s rfl hclosed
  exact hpiled

/-- What is left by a part whose answers are all closed is what the next part finds. -/
theorem Returns.bind (h : Returns arena b entries (fun _ => True) (job s))
    (hnext : ∀ x t, Piled b entries (arena t) → Returns arena b entries closed (next x t)) :
    Returns arena b entries closed ((job >>= next) s) := by
  obtain ⟨more, hpiled, hclosed⟩ := h
  cases hresult : job s with
  | ok x t =>
      rw [hresult] at hpiled hclosed
      cases hclosed x t rfl trivial
      rw [bind_ok hresult]
      exact hnext x t hpiled
  | error e t =>
      rw [hresult] at hpiled
      rw [bind_error hresult]
      exact returns_error hpiled

/-- A part that begins with a further entry on top, which the next part takes away. -/
theorem Returns.bind_under {frame : List UInt8}
    (h : Returns arena b (frame :: entries) (fun _ => True) (job s))
    (hnext : ∀ x t, Piled b (frame :: entries) (arena t) →
      Returns arena b entries closed (next x t)) :
    Returns arena b entries closed ((job >>= next) s) := by
  obtain ⟨more, hpiled, hclosed⟩ := h
  cases hresult : job s with
  | ok x t =>
      rw [hresult] at hpiled hclosed
      cases hclosed x t rfl trivial
      rw [bind_ok hresult]
      exact hnext x t hpiled
  | error e t =>
      rw [hresult, List.append_cons] at hpiled
      rw [bind_error hresult]
      exact returns_error hpiled

theorem returns_ite {c : Prop} [Decidable c] {yes no : EStateM Fault σ β}
    (hyes : c → Returns arena b entries closed (yes s))
    (hno : ¬ c → Returns arena b entries closed (no s)) :
    Returns arena b entries closed ((if c then yes else no) s) := by
  by_cases hc : c
  · rw [if_pos hc]
    exact hyes hc
  · rw [if_neg hc]
    exact hno hc

/-- A part that leaves the arena alone. -/
theorem returns_still (hpiled : Piled b entries (arena s))
    (hstill : arena (after (job s)) = arena s) :
    Returns arena b entries (fun _ => True) (job s) := by
  refine ⟨[], ?_, fun _ _ _ _ => rfl⟩
  rw [hstill]
  exact hpiled

/-- What comes last may answer anything if it leaves the arena alone. -/
theorem Returns.last {first : α → Prop} (h : Returns arena b entries first (job s))
    (hstill : ∀ x t, arena (after (next x t)) = arena t) :
    Returns arena b entries (fun _ => False) ((job >>= next) s) := by
  obtain ⟨more, hpiled, -⟩ := h
  refine ⟨more, ?_, nofun⟩
  cases hresult : job s with
  | ok x t =>
      rw [hresult] at hpiled
      rw [bind_ok hresult, hstill]
      exact hpiled
  | error e t =>
      rw [hresult] at hpiled
      rw [bind_error hresult]
      exact hpiled

end Rules

/-! ### Walking -/

section Walk

variable {ext : External} {visit : Visit → EStateM Fault σ Unit}

theorem tour_look_still {f : Arena → Except Fault α} (t : Tour σ) :
    (after ((liftM (consult f) : TourM σ α) t)).arena = t.arena := by
  obtain ⟨a, seen⟩ := t
  cases hlook : f a with
  | ok x => rw [tour_cell_ok (consult_ok hlook), after]
  | error e => rw [tour_cell_error (consult_error hlook), after]

theorem visit_still (act : EStateM Fault σ α) (t : Tour σ) :
    (after (TourM.visit act t)).arena = t.arena := by
  obtain ⟨a, seen⟩ := t
  cases hact : act seen with
  | ok x seen' => rw [tour_visit_ok hact, after]
  | error e seen' => rw [tour_visit_error hact, after]

/-- The counter of a list is on top before each of its children, and is given back with the last. -/
theorem walkChildren_returns (hb : b.Bounded) {child : Place → TourM σ Place}
    (hchild : ∀ p frame t, Piled b (frame :: entries) t.arena →
      Returns Tour.arena b (frame :: entries) (fun _ => True) (child p t))
    {c : Counter} {frame : List UInt8} (hc : Counts b entries c frame) (n : Nat) (p : Place)
    {t : Tour σ} (hpiled : Piled b (frame :: entries) t.arena) :
    Returns Tour.arena b entries (fun _ => True) (walkChildren child c (n + 1) p t) := by
  induction n generalizing p frame t with
  | zero =>
      refine (hchild p frame t hpiled).bind_under fun next t hpiled => ?_
      obtain ⟨a, hpop, hpiled'⟩ := hc.pop_ok hb hpiled
      have hgiven : (liftM c.pop : TourM σ Unit) t = .ok () ⟨a, t.seen⟩ := tour_cell_ok hpop
      rw [if_pos rfl, bind_ok hgiven]
      exact returns_ok hpiled'
  | succ n ih =>
      refine (hchild p frame t hpiled).bind_under fun next t hpiled => ?_
      obtain ⟨a, hupdate, hcounts, hpiled'⟩ := hc.update_ok hb hpiled (n + 1) c.right
      have hcount : (liftM (Counter.update { c with left := n + 1 }) : TourM σ Unit) t =
          .ok () ⟨a, t.seen⟩ := tour_cell_ok hupdate
      rw [if_neg (Nat.succ_ne_zero n), bind_ok hcount]
      exact ih hcounts next hpiled'

/-- Loading a cell, showing it and stepping over it leave the arena alone. -/
theorem walkTree_enters {levels depth below : Nat} {p : Place} {t : Tour σ}
    (hpiled : Piled b entries t.arena)
    (henter : ∀ header next t, Piled b entries t.arena → Returns Tour.arena b entries (fun _ => True)
      (enter ext visit levels depth below next header t)) :
    Returns Tour.arena b entries (fun _ => True) (walkTree ext visit levels depth below p t) := by
  rw [walkTree_eq]
  refine (returns_still hpiled (tour_look_still t)).bind fun header t hpiled => ?_
  refine (returns_still hpiled (visit_still _ t)).bind fun _ t hpiled => ?_
  refine (returns_still hpiled (tour_look_still t)).bind fun next t hpiled => ?_
  exact henter header next t hpiled

/-- A list is opened, or there is no memory for its counter. -/
theorem open_returns (hb : b.Bounded) {t : Tour σ} (hpiled : Piled b entries t.arena)
    (below count : Nat) {next : Counter → TourM σ Place}
    (hnext : ∀ c frame t, Counts b entries c frame → Piled b (frame :: entries) t.arena →
      Returns Tour.arena b entries (fun _ => True) (next c t)) :
    Returns Tour.arena b entries (fun _ => True)
      ((do let c ← Counter.push below count 0 none none
           next c : TourM σ Place) t) := by
  rcases open_ok hb hpiled below count t.seen next with
    ⟨e, a, left, -, hpiled', -, herror⟩ | ⟨c, frame, a, hcounts, hpiled', hopen⟩
  · rw [show t = ⟨t.arena, t.seen⟩ from rfl, herror]
    exact returns_error hpiled'
  · rw [show t = ⟨t.arena, t.seen⟩ from rfl, hopen]
    exact hnext c frame _ hcounts hpiled'

/-- A walk through whatever is found from `p` on. -/
theorem walkTree_returns (hb : b.Bounded) (levels depth below : Nat) (p : Place) {t : Tour σ}
    (hpiled : Piled b entries t.arena) :
    Returns Tour.arena b entries (fun _ => True) (walkTree ext visit levels depth below p t) := by
  induction levels generalizing depth below p entries t with
  | zero =>
      refine walkTree_enters hpiled fun header next t hpiled => ?_
      rw [enter.eq_def]
      split
      · exact returns_refused hpiled
      · exact returns_ok hpiled
  | succ levels ih =>
      refine walkTree_enters hpiled fun header next t hpiled => ?_
      rw [enter.eq_def]
      split
      · rename_i count sigil
        refine open_returns hb hpiled below (count + 1) fun c frame t hcounts hpiled => ?_
        refine walkChildren_returns hb ?_ hcounts count next hpiled
        exact fun p frame t hpiled => ih (depth + 1) c.offset p hpiled
      · exact returns_ok hpiled

end Walk

/-! ### Comparing -/

section Compare

variable {ext : External}

/-- The comparison is not over: it goes on behind both trees. -/
def Verdict.Tied : Verdict → Prop
  | .decided _ => False
  | .tied .. => True

theorem consult_still {f : Arena → Except Fault α} (a : Arena) :
    after (consult f a) = a := by
  cases hlook : f a with
  | ok x => rw [consult_ok hlook, after]
  | error e => rw [consult_error hlook, after]

/-- Where a pair of children does not tie the comparison is over, with the counter left on top. -/
theorem Returns.verdict {frame : List UInt8} {job : CellM Verdict} {next : Verdict → CellM Verdict}
    {a : Arena} (h : Returns id b (frame :: entries) Verdict.Tied (job a))
    (hdecided : ∀ order, next (.decided order) = pure (.decided order))
    (htied : ∀ p q a, Piled b (frame :: entries) a →
      Returns id b entries Verdict.Tied (next (.tied p q) a)) :
    Returns id b entries Verdict.Tied ((job >>= next) a) := by
  obtain ⟨more, hpiled, hclosed⟩ := h
  cases hresult : job a with
  | error e a' =>
      rw [hresult, List.append_cons] at hpiled
      rw [bind_error hresult]
      exact returns_error hpiled
  | ok verdict a' =>
      rw [hresult] at hpiled hclosed
      rw [bind_ok hresult]
      cases verdict with
      | decided order =>
          rw [hdecided order]
          rw [List.append_cons] at hpiled
          exact ⟨_, hpiled, fun x s hx htied => by cases hx; cases htied⟩
      | tied p q =>
          cases hclosed _ _ rfl trivial
          exact htied p q a' hpiled

theorem returns_decided {frame : List UInt8} {a : Arena} (order : Ordering)
    (hpiled : Piled b (frame :: entries) a) :
    Returns id b entries Verdict.Tied (.ok (.decided order) a) :=
  ⟨[frame], hpiled, fun x s hx htied => by cases hx; cases htied⟩

/-- While the children tie, the counter of their lists is innermost; it is given back with the last
pair. -/
theorem compareChildren_returns (hb : b.Bounded) {children : Place → Place → CellM Verdict}
    (hchildren : ∀ p q frame a, Piled b (frame :: entries) a →
      Returns id b (frame :: entries) Verdict.Tied (children p q a))
    {c : Counter} {frame : List UInt8} (hc : Counts b entries c frame) (n m : Nat) (p q : Place)
    {a : Arena} (hpiled : Piled b (frame :: entries) a) :
    Returns id b entries Verdict.Tied (compareChildren children c (n + 1) (m + 1) p q a) := by
  induction n generalizing m p q frame a with
  | zero =>
      rw [compareChildren]
      refine (hchildren p q frame a hpiled).verdict (fun _ => rfl) fun p q a hpiled => ?_
      cases m with
      | zero =>
          obtain ⟨a', hpop, hpiled'⟩ := hc.pop_ok hb hpiled
          change Returns id b entries Verdict.Tied ((do
            c.pop
            return .tied (c.resumeLeft.getD p) (c.resumeRight.getD q) : CellM Verdict) a)
          rw [bind_ok hpop]
          exact returns_ok hpiled'
      | succ m => exact returns_decided .lt hpiled
  | succ n ih =>
      rw [compareChildren]
      refine (hchildren p q frame a hpiled).verdict (fun _ => rfl) fun p q a hpiled => ?_
      cases m with
      | zero => exact returns_decided .gt hpiled
      | succ m =>
          obtain ⟨a', hupdate, hcounts, hpiled'⟩ := hc.update_ok hb hpiled (n + 1) (m + 1)
          change Returns id b entries Verdict.Tied ((do
            Counter.update { c with left := n + 1, right := m + 1 }
            compareChildren children c (n + 1) (m + 1) p q : CellM Verdict) a)
          rw [bind_ok hupdate]
          exact ih hcounts m p q hpiled'

/-- Two lists are opened, or there is no memory for their counter. -/
theorem open_both_returns (hb : b.Bounded) {a : Arena} (hpiled : Piled b entries a)
    (below left right : Nat) (resumeLeft resumeRight : Option Place) {next : Counter → CellM Verdict}
    (hnext : ∀ c frame a, Counts b entries c frame → Piled b (frame :: entries) a →
      Returns id b entries Verdict.Tied (next c a)) :
    Returns id b entries Verdict.Tied
      ((do let c ← Counter.push below left right resumeLeft resumeRight
           next c : CellM Verdict) a) := by
  rcases push_ok hb hpiled below left right resumeLeft resumeRight next with
    ⟨e, a', more, -, hpiled', herror, -⟩ | ⟨c, frame, a', hcounts, hpiled', -, -, hopen⟩
  · rw [herror]
    exact returns_error hpiled'
  · rw [hopen]
    exact hnext c frame a' hcounts hpiled'

/-- Two cells are compared as such; where they are lists with children these are compared at one level
less. -/
theorem compareTrees_returns_of (hb : b.Bounded) {levels : Nat}
    (hless : ∀ l, levels = l + 1 → ∀ entries below p q a, Piled b entries a →
      Returns id b entries Verdict.Tied (compareTrees ext l below p q a))
    (below : Nat) (p q : Place) {a : Arena} (hpiled : Piled b entries a) :
    Returns id b entries Verdict.Tied (compareTrees ext levels below p q a) := by
  rw [compareTrees.eq_def]
  dsimp only
  refine (returns_still hpiled (consult_still a)).bind fun left a hpiled => ?_
  refine (returns_still hpiled (consult_still a)).bind fun right a hpiled => ?_
  refine returns_ite (fun _ => returns_ok hpiled) fun _ => ?_
  refine (returns_still hpiled (consult_still a)).bind fun nextLeft a hpiled => ?_
  refine (returns_still hpiled (consult_still a)).bind fun nextRight a hpiled => ?_
  split
  · refine (returns_still hpiled (consult_still a)).bind fun order a hpiled => ?_
    cases order <;> exact returns_ok hpiled
  · exact returns_ite (fun _ => returns_ok hpiled) fun _ => returns_ok hpiled
  · refine returns_ite (fun _ => returns_ok hpiled) fun _ => ?_
    refine returns_ite (fun _ => ?_) fun hchildren => ?_
    · exact returns_ite (fun _ => returns_ok hpiled) fun _ => returns_ok hpiled
    · rename_i n _ _ m _ _
      cases levels with
      | zero => exact returns_refused hpiled
      | succ levels =>
          obtain ⟨n, rfl⟩ := Nat.exists_eq_succ_of_ne_zero fun hn => hchildren (.inl hn)
          obtain ⟨m, rfl⟩ := Nat.exists_eq_succ_of_ne_zero fun hm => hchildren (.inr hm)
          refine open_both_returns hb hpiled _ _ _ _ _ fun c frame a hcounts hpiled => ?_
          refine (returns_still hpiled (consult_still a)).bind_under fun leftBody a hpiled => ?_
          refine (returns_still hpiled (consult_still a)).bind_under fun rightBody a hpiled => ?_
          refine compareChildren_returns hb (fun p q frame a hpiled => ?_) hcounts n m _ _ hpiled
          exact hless levels rfl _ _ p q a hpiled
  · exact returns_refused hpiled

theorem compareTrees_returns (hb : b.Bounded) (levels below : Nat) (p q : Place) {a : Arena}
    (hpiled : Piled b entries a) :
    Returns id b entries Verdict.Tied (compareTrees ext levels below p q a) := by
  induction levels generalizing below p q entries a with
  | zero => exact compareTrees_returns_of hb (fun l hl => (Nat.succ_ne_zero l hl.symm).elim) below p q hpiled
  | succ levels ih =>
      refine compareTrees_returns_of hb (fun l hl entries below p q a hpiled => ?_) below p q hpiled
      cases hl
      exact ih below p q hpiled

end Compare

/-! ### The whole is given back -/

section Whole

variable {ext : External}

/-- What is computed from an answer does not matter for the state. -/
theorem after_map (job : EStateM Fault σ α) (f : α → β) (s : σ) :
    after ((do return f (← job) : EStateM Fault σ β) s) = after (job s) := by
  cases hresult : job s with
  | ok x t =>
      rw [bind_ok hresult]
      rfl
  | error e t =>
      rw [bind_error hresult]
      rfl

theorem after_run (tour : TourM σ α) (seen : σ) (a : Arena) :
    after (tour.run seen a) = (after (tour ⟨a, seen⟩)).arena := by
  rw [TourM.run]
  cases tour ⟨a, seen⟩ <;> rfl

/-- A walk gives back all that it borrows, whatever it comes upon and wherever the visitor fails. -/
theorem walk_untouched (hb : b.Bounded) (visit : Visit → EStateM Fault σ Unit) (p : Place)
    (seen : σ) : b.Untouched (after (walk ext visit p ⟨b, seen⟩)).arena := by
  rcases tour_borrow_ok hb (.refl hb.cursors) (walkTree ext visit maxNesting 0 0 p) seen with
    ⟨e, -, hwalk, -⟩ | ⟨a₁, hmarked, hafter⟩
  · rw [walk, hwalk]
    exact .refl b
  · have hreturns : Returns Tour.arena b [[]] (fun _ => True)
        (walkTree ext visit maxNesting 0 0 p ⟨a₁, seen⟩) :=
      walkTree_returns hb maxNesting 0 0 p hmarked
    obtain ⟨more, hpiled, -⟩ := hreturns
    cases hresult : walkTree ext visit maxNesting 0 0 p ⟨a₁, seen⟩ with
    | ok q t =>
        rw [hresult] at hpiled
        obtain ⟨a₃, hpiled', hok, -⟩ := hafter hpiled
        rw [walk, hok q hresult]
        exact hpiled'.untouched
    | error e t =>
        rw [hresult] at hpiled
        obtain ⟨a₃, hpiled', -, herror⟩ := hafter hpiled
        rw [walk, herror e hresult]
        exact hpiled'.untouched

theorem advance_untouched (hb : b.Bounded) (p : Place) :
    b.Untouched (after (advance ext p b)) := by
  rw [advance, after_map, after_run]
  exact walk_untouched hb _ p ()

theorem treeLength_untouched (hb : b.Bounded) (p : Place) :
    b.Untouched (after (treeLength ext p b)) := by
  rw [treeLength, after_map]
  exact advance_untouched hb p

theorem countCells_untouched (hb : b.Bounded) (p : Place) :
    b.Untouched (after (countCells ext p b)) := by
  rw [countCells, after_map, after_run]
  exact walk_untouched hb _ p 0

/-- What is borrowed for a computation is given back, whatever the computation leaves on top. -/
theorem borrow_untouched (hb : b.Bounded) {body : CellM α} {closed : α → Prop}
    (hbody : ∀ a, Piled b [[]] a → Returns id b [[]] closed (body a)) :
    b.Untouched (after (Arena.borrow body b)) := by
  rcases Piled.borrow_ok hb (.refl hb.cursors) body with
    ⟨e, -, hborrow, -⟩ | ⟨a₁, hmarked, hafter⟩
  · rw [hborrow]
    exact .refl b
  · obtain ⟨more, hpiled, -⟩ := hbody a₁ hmarked
    cases hresult : body a₁ with
    | ok x a₂ =>
        rw [hresult] at hpiled
        obtain ⟨a₃, hpiled', hok, -⟩ := hafter hpiled
        rw [hok x hresult]
        exact hpiled'.untouched
    | error e a₂ =>
        rw [hresult] at hpiled
        obtain ⟨a₃, hpiled', -, herror⟩ := hafter hpiled
        rw [herror e hresult]
        exact hpiled'.untouched

/-- A comparison gives back all that it borrows, whatever it comes upon. -/
theorem compare_untouched (hb : b.Bounded) (p q : Place) :
    b.Untouched (after (compare ext p q b)) := by
  refine borrow_untouched hb fun a hpiled =>
    (compareTrees_returns hb maxNesting 0 p q hpiled).last fun verdict a => ?_
  cases verdict <;> rfl

theorem equal_untouched (hb : b.Bounded) (p q : Place) :
    b.Untouched (after (equal ext p q b)) := by
  rw [equal, after_map]
  exact compare_untouched hb p q

end Whole

end Cell

end FlatLisp
