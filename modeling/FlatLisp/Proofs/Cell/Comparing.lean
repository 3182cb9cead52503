/-
Module: FlatLisp.Proofs.Cell.Comparing
Purpose: A comparison is a loop that keeps two places and the offset of a counter, and it ends on any
  memory. It follows addresses, which may lead back to where it has been, so only the levels that may
  be open at once and the numbers of children there bound its steps.
Main exports: Cell.compareLoop, Cell.Reaches, Cell.compareTrees_reaches, Cell.compare_ends
-/
import FlatLisp.Proofs.Cell.Borrowing
import FlatLisp.Proofs.Cell.Loops

namespace FlatLisp

namespace Cell

open Arena (Piled)

variable {ext : External}

/-! ### The loop -/

/-- What two cells come to before anything is opened. -/
inductive Meeting where
  | settled (verdict : Verdict)
  /-- Both are lists with children, of which these are the numbers. -/
  | lists (left right : Header) (leftCount rightCount : Nat) (resumeLeft resumeRight : Option Place)

/-- Compare two cells as such. -/
def compareCells (ext : External) (p q : Place) : CellM Meeting := do
  let left ← consult (load · ext p)
  let right ← consult (load · ext q)
  if left.tag ≠ right.tag then
    return .settled (.decided (Ord.compare left.tag right.tag))
  let nextLeft ← consult fun _ => step p left.footprint
  let nextRight ← consult fun _ => step q right.footprint
  match left, right with
  | .symbol .., .symbol .. =>
      match ← consult (compareSymbols · ext p q) with
      | .eq => return .settled (.tied nextLeft nextRight)
      | order => return .settled (.decided order)
  | .integer x, .integer y =>
      if x = y then return .settled (.tied nextLeft nextRight)
      else return .settled (.decided (Ord.compare x y))
  | .list leftCount leftSigil leftLinked, .list rightCount rightSigil rightLinked =>
      if leftSigil ≠ rightSigil then
        return .settled (.decided (Ord.compare leftSigil rightSigil))
      else if leftCount = 0 ∨ rightCount = 0 then
        if leftCount = rightCount then return .settled (.tied nextLeft nextRight)
        else return .settled (.decided (Ord.compare leftCount rightCount))
      else
        return .lists left right leftCount rightCount (if leftLinked then some nextLeft else none)
          (if rightLinked then some nextRight else none)
  | _, _ => throw (.corruptCell p (UInt8.ofNat left.tag))

/-- One step of a comparison: two cells are compared, or a pair of children is counted. -/
def compareLoop (ext : External) : Loop Fault Arena (Pace (Place × Place)) Ordering
  | .look c => do
      match ← compareCells ext c.place.1 c.place.2 with
      | .settled (.decided order) => return .stop order
      | .settled (.tied p q) => return .next (.count { c with place := (p, q) })
      | .lists left right leftCount rightCount resumeLeft resumeRight =>
          if c.depth < maxNesting then
            let counter ← Counter.push c.top leftCount rightCount resumeLeft resumeRight
            let p ← consult (body · ext c.place.1 left)
            let q ← consult (body · ext c.place.2 right)
            return .next (.look ⟨(p, q), counter.offset, c.depth + 1⟩)
          else
            throw (.depthExceeded maxNesting)
  | .count c =>
      if c.top = 0 then
        return .stop .eq
      else do
        let counter ← consult (Counter.load · c.top)
        if counter.left = 0 ∨ counter.right = 0 ∨ c.depth = 0 then
          return .stuck
        else if counter.left = 1 ∧ counter.right = 1 then
          counter.pop
          return .next (.count ⟨(counter.resumeLeft.getD c.place.1, counter.resumeRight.getD c.place.2),
            counter.below, c.depth - 1⟩)
        else if counter.left = 1 then
          return .stop .lt
        else if counter.right = 1 then
          return .stop .gt
        else
          Counter.update { counter with left := counter.left - 1, right := counter.right - 1 }
          return .next (.look c)

/-! ### Pairs of trees and of children -/

section Reaches

variable {x y : Pace (Place × Place)} {limit most m : Nat}
  {onward further : Place → Place → Pace (Place × Place)} {a a' : Arena}
  {result : EStateM.Result Fault Arena Verdict}

/-- The loop takes from `x` on what `result` says: it goes on behind both trees, or it ends. It takes
`limit` steps at most. -/
def Reaches (ext : External) (limit : Nat) (x : Pace (Place × Place))
    (onward : Place → Place → Pace (Place × Place)) (a : Arena) :
    EStateM.Result Fault Arena Verdict → Prop
  | .ok (.decided order) a' => ∃ n, n ≤ limit ∧ Loop.Ends (compareLoop ext) n x a (.ok order a')
  | .ok (.tied p q) a' => ∃ n, n ≤ limit ∧ Loop.Leads (compareLoop ext) n x a (onward p q) a'
  | .error e a' => ∃ n, n ≤ limit ∧ Loop.Ends (compareLoop ext) n x a (.error e a')

theorem Reaches.after (h : Reaches ext limit y onward a' result)
    (hleads : Loop.Leads (compareLoop ext) m x a y a') (hless : m + limit ≤ most) :
    Reaches ext most x onward a result := by
  cases result with
  | error e a'' =>
      obtain ⟨n, hle, hends⟩ := h
      exact ⟨m + n, by omega, hends.after hleads⟩
  | ok verdict a'' =>
      cases verdict with
      | decided order =>
          obtain ⟨n, hle, hends⟩ := h
          exact ⟨m + n, by omega, hends.after hleads⟩
      | tied p q =>
          obtain ⟨n, hle, hrest⟩ := h
          exact ⟨m + n, by omega, hleads.trans hrest⟩

/-- Where a pair ties the next part goes on. -/
theorem Reaches.bind {b : Arena} {entries : List (List UInt8)} {job : CellM Verdict}
    {next : Verdict → CellM Verdict} (h : Reaches ext limit x onward a (job a))
    (hkept : Returns id b entries Verdict.Tied (job a))
    (hdecided : ∀ order, next (.decided order) = pure (.decided order))
    (htied : ∀ p q a', Piled b entries a' →
      Reaches ext m (onward p q) further a' (next (.tied p q) a')) :
    Reaches ext (limit + m) x further a ((job >>= next) a) := by
  cases hresult : job a with
  | error e a' =>
      rw [hresult] at h
      obtain ⟨n, hle, hends⟩ := h
      rw [bind_error hresult]
      exact ⟨n, by omega, hends⟩
  | ok verdict a' =>
      rw [hresult] at h hkept
      rw [bind_ok hresult]
      cases verdict with
      | decided order =>
          obtain ⟨n, hle, hends⟩ := h
          rw [hdecided order]
          exact ⟨n, by omega, hends⟩
      | tied p q =>
          obtain ⟨n, hle, hleads⟩ := h
          exact (htied p q a' (hkept.piled trivial)).after hleads (by omega)

end Reaches

section Steps

variable {b a : Arena} {entries : List (List UInt8)} {c : Counter} {depth n m : Nat}

/-- What a comparison does once two cells have been compared as such. -/
def openBoth (ext : External) (below : Nat) (p q : Place) : (levels : Nat) → Meeting → CellM Verdict
  | _, .settled verdict => return verdict
  | 0, .lists .. => throw (.depthExceeded maxNesting)
  | levels + 1, .lists left right leftCount rightCount resumeLeft resumeRight => do
      let c ← Counter.push below leftCount rightCount resumeLeft resumeRight
      let leftBody ← consult (body · ext p left)
      let rightBody ← consult (body · ext q right)
      compareChildren (compareTrees ext levels c.offset) c leftCount rightCount leftBody rightBody

theorem compareTrees_eq (levels below : Nat) (p q : Place) :
    compareTrees ext levels below p q = compareCells ext p q >>= openBoth ext below p q levels := by
  rw [compareTrees.eq_def, compareCells]
  simp only [bind_assoc]
  refine bind_congr fun left => bind_congr fun right => ?_
  by_cases htag : left.tag ≠ right.tag
  · rw [if_pos htag, if_pos htag, pure_bind, openBoth]
  rw [if_neg htag, if_neg htag]
  simp only [bind_assoc]
  refine bind_congr fun nextLeft => bind_congr fun nextRight => ?_
  cases left with
  | symbol length sigil quoted linked hash =>
      cases right with
      | symbol length' sigil' quoted' linked' hash' =>
          simp only [bind_assoc]
          refine bind_congr fun order => ?_
          cases order <;> rfl
      | integer | list => rfl
  | integer x =>
      cases right with
      | integer y =>
          by_cases hsame : x = y
          · simp only [if_pos hsame, pure_bind, openBoth]
          · simp only [if_neg hsame, pure_bind, openBoth]
      | symbol | list => rfl
  | list leftCount leftSigil leftLinked =>
      cases right with
      | list rightCount rightSigil rightLinked =>
          by_cases hsigil : leftSigil ≠ rightSigil
          · simp only [if_pos hsigil, pure_bind, openBoth]
          by_cases hempty : leftCount = 0 ∨ rightCount = 0
          · by_cases hsame : leftCount = rightCount
            · simp only [if_neg hsigil, if_pos hempty, if_pos hsame, pure_bind, openBoth]
            · simp only [if_neg hsigil, if_pos hempty, if_neg hsame, pure_bind, openBoth]
          · cases levels <;> simp only [if_neg hsigil, if_neg hempty, pure_bind, openBoth]
      | symbol | integer => rfl

/-- What is known of two lists that are to be opened: each has children, and not too many of them. -/
def Meeting.Sound : Meeting → Prop
  | .settled _ => True
  | .lists _ _ leftCount rightCount resumeLeft resumeRight =>
      (0 < leftCount ∧ leftCount ≤ Header.maxCount) ∧ (0 < rightCount ∧ rightCount ≤ Header.maxCount) ∧
        (∀ p ∈ resumeLeft, p.offset < 65536) ∧ ∀ p ∈ resumeRight, p.offset < 65536

theorem resume_lt {p next : Place} {count : Nat} (hstep : step p count = .ok next) (linked : Bool) :
    ∀ q ∈ (if linked then some next else none), q.offset < 65536 := by
  obtain ⟨hoffset, rfl⟩ := offset_of_step hstep
  intro q hq
  cases linked with
  | false => contradiction
  | true =>
      cases Option.some.inj hq
      exact Nat.lt_succ_of_le hoffset

/-- The result of looking at cells, which leaves the arena alone. -/
def Meets (a : Arena) (result : EStateM.Result Fault Arena Meeting) : Prop :=
  (∃ e, result = .error e a) ∨ ∃ meeting, result = .ok meeting a ∧ meeting.Sound

theorem meets_look {α : Type} {f : Arena → Except Fault α} {next : α → CellM Meeting}
    (hnext : ∀ x, f a = .ok x → Meets a (next x a)) : Meets a ((consult f >>= next) a) := by
  cases hlook : f a with
  | error e => exact .inl ⟨e, bind_error (consult_error hlook)⟩
  | ok x =>
      rw [bind_ok (consult_ok hlook)]
      exact hnext x hlook

theorem meets_settled (verdict : Verdict) : Meets a (.ok (.settled verdict) a) :=
  .inr ⟨_, rfl, trivial⟩

theorem compareCells_meets (ext : External) (p q : Place) (a : Arena) :
    Meets a (compareCells ext p q a) := by
  rw [compareCells]
  refine meets_look fun left hleft => meets_look fun right hright => ?_
  by_cases htag : left.tag ≠ right.tag
  · rw [if_pos htag]
    exact meets_settled _
  rw [if_neg htag]
  refine meets_look fun nextLeft hnextLeft => meets_look fun nextRight hnextRight => ?_
  split
  · refine meets_look fun order _ => ?_
    cases order <;> exact meets_settled _
  · split <;> exact meets_settled _
  · split
    · exact meets_settled _
    · split
      · split <;> exact meets_settled _
      · have hcounts := And.intro (fits_of_load hleft) (fits_of_load hright)
        simp only [Header.Fits] at hcounts
        exact .inr ⟨_, rfl, ⟨by omega, hcounts.1⟩, ⟨by omega, hcounts.2⟩, resume_lt hnextLeft _,
          resume_lt hnextRight _⟩
  · exact .inl ⟨_, rfl⟩

/-- The counter of two lists is read while it is not down to zero on either side. -/
theorem count_both (hb : b.Bounded) (h : Topped b entries { c with left := n + 1, right := m + 1 } a)
    (ext : External) (depth : Nat) (p q : Place) :
    compareLoop ext (.count ⟨(p, q), c.offset, depth + 1⟩) a =
      (if n + 1 = 1 ∧ m + 1 = 1 then do
        c.pop
        return .next (.count ⟨(c.resumeLeft.getD p, c.resumeRight.getD q), c.below, depth⟩)
      else if n + 1 = 1 then
        return .stop .lt
      else if m + 1 = 1 then
        return .stop .gt
      else do
        Counter.update { c with left := n, right := m }
        return .next (.look ⟨(p, q), c.offset, depth + 1⟩) : CellM _) a := by
  rw [compareLoop, if_neg (h.offset_ne_zero hb), bind_ok (consult_ok (h.load hb))]
  dsimp only
  rw [if_neg (by omega)]
  rfl

/-- Children are compared pair by pair as the loop does it. -/
theorem compareChildren_reaches (hb : b.Bounded) {children : Place → Place → CellM Verdict}
    {limit : Nat}
    (hreturns : ∀ p q frame a, Piled b (frame :: entries) a →
      Returns id b (frame :: entries) Verdict.Tied (children p q a))
    (hchildren : ∀ p q frame a, Piled b (frame :: entries) a →
      Reaches ext limit (.look ⟨(p, q), c.offset, depth + 1⟩)
        (fun p q => .count ⟨(p, q), c.offset, depth + 1⟩) a (children p q a))
    (n m : Nat) (p q : Place) {a : Arena}
    (h : Topped b entries { c with left := n + 1, right := m + 1 } a) :
    Reaches ext ((n + 1) * (limit + 1)) (.look ⟨(p, q), c.offset, depth + 1⟩)
      (fun p q => .count ⟨(p, q), c.below, depth⟩) a
      (compareChildren children c (n + 1) (m + 1) p q a) := by
  induction n generalizing m p q a with
  | zero =>
      rw [compareChildren, Nat.zero_add, Nat.one_mul]
      refine (hchildren p q _ a h.piled).bind (hreturns p q _ a h.piled) (fun _ => rfl)
        fun p q a hpiled => ?_
      have htopped : Topped b entries _ a := ⟨hpiled, h.counts, h.fits⟩
      have hcount := count_both hb htopped ext depth p q
      cases m with
      | zero =>
          obtain ⟨a', hpop, -⟩ := htopped.pop hb
          have hpop' : c.pop a = .ok () a' := hpop
          rw [if_pos (by omega), bind_ok hpop'] at hcount
          change Reaches ext 1 _ _ a ((do
            c.pop
            return .tied (c.resumeLeft.getD p) (c.resumeRight.getD q) : CellM Verdict) a)
          rw [bind_ok hpop']
          exact ⟨1, Nat.le_refl _, .one hcount⟩
      | succ m =>
          rw [if_neg (by omega), if_pos rfl] at hcount
          exact ⟨1, Nat.le_refl _, .stop hcount⟩
  | succ n ih =>
      rw [compareChildren, Nat.succ_mul (n + 1), Nat.add_comm, Nat.add_assoc]
      refine (hchildren p q _ a h.piled).bind (hreturns p q _ a h.piled) (fun _ => rfl)
        fun p q a hpiled => ?_
      have htopped : Topped b entries _ a := ⟨hpiled, h.counts, h.fits⟩
      have hcount := count_both hb htopped ext depth p q
      cases m with
      | zero =>
          rw [if_neg (by omega), if_neg (by omega), if_pos rfl] at hcount
          exact ⟨1, Nat.le_add_right .., .stop hcount⟩
      | succ m =>
          obtain ⟨a', hupdate, hupdated⟩ := htopped.update hb (Nat.lt_of_succ_lt h.fits.left)
            (Nat.lt_of_succ_lt h.fits.right)
          rw [if_neg (by omega), if_neg (by omega), if_neg (by omega)] at hcount
          rw [bind_ok hupdate] at hcount
          change Reaches ext _ _ _ a ((do
            Counter.update { c with left := n + 1, right := m + 1 }
            compareChildren children c (n + 1) (m + 1) p q : CellM Verdict) a)
          rw [bind_ok hupdate]
          exact (ih m p q hupdated).after (.one hcount) (Nat.le_refl _)

/-- The most steps that the comparison of two trees takes with at most `levels` levels of lists in them:
one for two cells, and where these are lists one more for each pair of children, which is to be counted. -/
def pairLimit : (levels : Nat) → Nat
  | 0 => 1
  | levels + 1 => Header.maxCount * (pairLimit levels + 1) + 1

theorem pairLimit_succ {levels count : Nat} (hcount : count ≤ Header.maxCount) :
    count * (pairLimit levels + 1) + 1 ≤ pairLimit (levels + 1) :=
  Nat.succ_le_succ (Nat.mul_le_mul_right _ hcount)

theorem one_le_pairLimit (levels : Nat) : 1 ≤ pairLimit levels := by
  cases levels with
  | zero => exact Nat.le_refl 1
  | succ levels => exact Nat.le_add_left 1 _

section Trees

variable {levels below : Nat} {p q : Place} (hb : b.Bounded) (hlevels : depth + levels = maxNesting)
  (hless : ∀ l, levels = l + 1 → ∀ entries below (p q : Place) (a : Arena), below < 65536 →
    Piled b entries a →
    Reaches ext (pairLimit l) (.look ⟨(p, q), below, depth + 1⟩)
      (fun p q => .count ⟨(p, q), below, depth + 1⟩) a (compareTrees ext l below p q a))
  (hbelow : below < 65536) (hpiled : Piled b entries a)

include hb hlevels hless hbelow hpiled

/-- Two lists with children are opened, and these are compared at one level less. -/
theorem openBoth_reaches {left right : Header} {leftCount rightCount : Nat}
    {resumeLeft resumeRight : Option Place}
    (hcells : compareCells ext p q a =
      .ok (.lists left right leftCount rightCount resumeLeft resumeRight) a)
    (hsound : (Meeting.lists left right leftCount rightCount resumeLeft resumeRight).Sound) :
    Reaches ext (pairLimit levels) (.look ⟨(p, q), below, depth⟩)
      (fun p q => .count ⟨(p, q), below, depth⟩) a
      (openBoth ext below p q levels (.lists left right leftCount rightCount resumeLeft resumeRight)
        a) := by
  have hone := one_le_pairLimit levels
  have hloop : compareLoop ext (.look ⟨(p, q), below, depth⟩) a = _ := bind_ok hcells
  dsimp only at hloop
  obtain ⟨⟨hleft, hleftMost⟩, ⟨hright, hrightMost⟩, hresumeLeft, hresumeRight⟩ := hsound
  cases levels with
  | zero =>
      rw [if_neg (by omega)] at hloop
      exact ⟨1, hone, .failed hloop⟩
  | succ levels =>
      rw [openBoth]
      rw [if_pos (by omega)] at hloop
      simp only [Header.maxCount] at hleftMost hrightMost
      rcases push_cases hb hpiled hbelow (show leftCount < 65536 by omega)
          (show rightCount < 65536 by omega) hresumeLeft hresumeRight with
        ⟨e, a', hpush⟩ | ⟨c, a', hpush, hcountLeft, hcountRight, rfl, -, -, htopped⟩
      · rw [bind_error hpush] at hloop ⊢
        exact ⟨1, hone, .failed hloop⟩
      rw [bind_ok hpush] at hloop ⊢
      cases hbodyLeft : body a' ext p left with
      | error e =>
          rw [bind_error (consult_error hbodyLeft)] at hloop ⊢
          exact ⟨1, hone, .failed hloop⟩
      | ok leftBody =>
      rw [bind_ok (consult_ok hbodyLeft)] at hloop ⊢
      cases hbodyRight : body a' ext q right with
      | error e =>
          rw [bind_error (consult_error hbodyRight)] at hloop ⊢
          exact ⟨1, hone, .failed hloop⟩
      | ok rightBody =>
      rw [bind_ok (consult_ok hbodyRight)] at hloop ⊢
      -- Neither number is zero, so counting a pair takes neither below it.
      obtain ⟨n, rfl⟩ := Nat.exists_eq_succ_of_ne_zero (Nat.ne_of_gt hleft)
      obtain ⟨m, rfl⟩ := Nat.exists_eq_succ_of_ne_zero (Nat.ne_of_gt hright)
      have hcounter : c = { c with left := n + 1, right := m + 1 } := by
        rw [← Nat.succ_eq_add_one, ← hcountLeft, ← Nat.succ_eq_add_one, ← hcountRight]
      rw [hcounter] at htopped
      have hchildren := compareChildren_reaches hb
        (fun p q frame a hpiled => compareTrees_returns hb levels c.offset p q hpiled)
        (fun p q frame a hpiled => hless levels rfl _ c.offset p q a
          (htopped.counts.offset ▸ Piled.pileTop_lt hb _) hpiled) n m leftBody rightBody htopped
      exact hchildren.after (.one hloop) (Nat.add_comm .. ▸ pairLimit_succ hleftMost)

/-- Two cells are compared as such; where they are lists with children these are opened. -/
theorem compareTrees_reaches_of :
    Reaches ext (pairLimit levels) (.look ⟨(p, q), below, depth⟩)
      (fun p q => .count ⟨(p, q), below, depth⟩) a (compareTrees ext levels below p q a) := by
  have hone := one_le_pairLimit levels
  rw [compareTrees_eq]
  rcases compareCells_meets ext p q a with ⟨e, hcells⟩ | ⟨meeting, hcells, hsound⟩
  · rw [bind_error hcells]
    exact ⟨1, hone, .failed (bind_error hcells)⟩
  · rw [bind_ok hcells]
    cases meeting with
    | settled verdict =>
        have hloop : compareLoop ext (.look ⟨(p, q), below, depth⟩) a = _ := bind_ok hcells
        rw [openBoth]
        cases verdict with
        | decided order => exact ⟨1, hone, .stop hloop⟩
        | tied p' q' => exact ⟨1, hone, .one hloop⟩
    | lists => exact openBoth_reaches hb hlevels hless hbelow hpiled hcells hsound

end Trees

/-- The loop compares whatever is found from two places on as the comparison does. -/
theorem compareTrees_reaches (hb : b.Bounded) {levels : Nat} (hlevels : depth + levels = maxNesting)
    {below : Nat} (hbelow : below < 65536) (p q : Place) {a : Arena} (hpiled : Piled b entries a) :
    Reaches ext (pairLimit levels) (.look ⟨(p, q), below, depth⟩)
      (fun p q => .count ⟨(p, q), below, depth⟩) a (compareTrees ext levels below p q a) := by
  induction levels generalizing depth below p q entries a with
  | zero =>
      refine compareTrees_reaches_of hb hlevels (fun l hl => ?_) hbelow hpiled
      exact absurd hl.symm (Nat.succ_ne_zero l)
  | succ levels ih =>
      refine compareTrees_reaches_of hb hlevels (fun l hl entries below p q a hbelow hpiled => ?_)
        hbelow hpiled
      obtain rfl := Nat.succ.inj hl
      exact ih (by omega) hbelow p q hpiled

end Steps

/-! ### Comparisons as a whole -/

/-- The loop of a comparison, from its mark to the unwinding of that. -/
def comparing (ext : External) :
    Loop Fault Arena (Loop.Scope Fault (Pace (Place × Place)) Ordering) Ordering :=
  Loop.borrowing (compareLoop ext)

/-- Whatever is in memory and wherever a comparison starts, it ends. -/
theorem compare_ends {a : Arena} (ha : a.Bounded) (ext : External) (p q : Place) :
    ∃ n, n ≤ pairLimit maxNesting + 3 ∧
      Loop.Ends (comparing ext) n (.enter (.look ⟨(p, q), 0, 0⟩)) a (compare ext p q a) := by
  refine Loop.ends_borrow fun mark a' hmark => ?_
  cases htaken : Arena.mark .backward a with
  | error e a₁ =>
      rw [cell_error htaken] at hmark
      contradiction
  | ok mark' a₁ =>
      rw [cell_ok htaken] at hmark
      injection hmark with _ ha₁
      subst ha₁
      have hpiled := Arena.piled_of_mark ha htaken
      have hreaches : Reaches ext (pairLimit maxNesting) (.look ⟨(p, q), 0, 0⟩)
          (fun p q => .count ⟨(p, q), 0, 0⟩) a₁ (compareTrees ext maxNesting 0 p q a₁) :=
        compareTrees_reaches ha (Nat.zero_add _) (Nat.zero_lt_succ _) p q hpiled
      cases hresult : compareTrees ext maxNesting 0 p q a₁ with
      | error e a₂ =>
          rw [hresult] at hreaches
          obtain ⟨n, hle, hends⟩ := hreaches
          rw [bind_error hresult]
          exact ⟨n, Nat.le_succ_of_le hle, hends⟩
      | ok verdict a₂ =>
          rw [hresult] at hreaches
          rw [bind_ok hresult]
          cases verdict with
          | decided order =>
              obtain ⟨n, hle, hends⟩ := hreaches
              exact ⟨n, Nat.le_succ_of_le hle, hends⟩
          | tied p' q' =>
              obtain ⟨n, hle, hleads⟩ := hreaches
              have hstop : Loop.Ends (compareLoop ext) 1 (.count ⟨(p', q'), 0, 0⟩) a₂ (.ok .eq a₂) :=
                .stop rfl
              exact ⟨n + 1, Nat.succ_le_succ hle, hstop.after hleads⟩

end Cell

end FlatLisp
