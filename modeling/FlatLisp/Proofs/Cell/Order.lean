/-
Module: FlatLisp.Proofs.Cell.Order
Purpose: Comparing two places answers the order of the trees that are depicted there, wherever their
  bodies are, if there is memory for the counters of the lists that are open at once; otherwise it
  runs out. The counters are piled up on what was there before, and all of them are given back.
Main exports: Cell.Settles, Cell.compareChildren_settles, Cell.compareTrees_settles,
  Cell.compare_ok
-/
import FlatLisp.Proofs.Cell.Depiction
import FlatLisp.Proofs.Cell.TreeOrder

namespace FlatLisp

namespace Cell

open Arena (Piled pileTop pileMark pileCost)

/-! ### Loaded headers -/

section Loaded

variable {a : Arena} {ext : External} {p p' q q' : Place} {t u : Tree}

/-- Whatever is depicted has a header of its kind. -/
theorem Depicts.header (h : Depicts a ext t p p') :
    ∃ header next, load a ext p = .ok header ∧ step p header.footprint = .ok next ∧
      header.tag = t.header.tag := by
  cases t with
  | symbol sigil quoted chars =>
      obtain ⟨linked, hash, _, hload, _, _, hstep⟩ := h
      exact ⟨_, _, hload, hstep, rfl⟩
  | integer value => exact ⟨_, _, h.1, h.2, rfl⟩
  | list sigil children =>
      obtain ⟨linked, _, _, _, hload, _, _, hstep, _⟩ := h
      exact ⟨_, _, hload, hstep, rfl⟩

theorem symbolText_ok {sigil : Sigil} {quoted : Bool} {chars : List UInt8}
    (h : Depicts a ext (.symbol sigil quoted chars) p p') : symbolText a ext p = .ok chars := by
  obtain ⟨linked, hash, text, hload, hbody, hchars, -⟩ := h
  simp only [symbolText, hload, hbody, hchars.fetch, bind, Except.bind]

theorem compareSymbols_ok {sigil sigil' : Sigil} {quoted quoted' : Bool} {chars chars' : List UInt8}
    (hp : Depicts a ext (.symbol sigil quoted chars) p p')
    (hq : Depicts a ext (.symbol sigil' quoted' chars') q q') :
    compareSymbols a ext p q =
      .ok ((Tree.symbol sigil quoted chars).order (.symbol sigil' quoted' chars')) := by
  have htext := symbolText_ok hp
  have htext' := symbolText_ok hq
  obtain ⟨_, _, _, hload, -⟩ := hp
  obtain ⟨_, _, _, hload', -⟩ := hq
  simp only [compareSymbols, hload, hload', htext, htext', bind, Except.bind, pure, Except.pure,
    Tree.order]

end Loaded

/-! ### Comparing -/

section Compare

/-- The memory that one counter takes, with the mark under it. -/
def counterCost : Nat := Arena.markLength + Counter.frameLength

variable {b : Arena} {ext : External} {entries : List (List UInt8)} {n : Nat} {order : Ordering}
  {p q : Place}

/-- There is memory for `n` counters on top of the entries. -/
def Room (b : Arena) (entries : List (List UInt8)) (n : Nat) : Prop :=
  b.forward + pileCost entries + counterCost * n ≤ b.backward

/-- The comparison of two trees, for which `n` lists are open at once, has come to its end. Only where
it is decided, or where memory has run out, are counters left behind, on top of the entries. -/
inductive Settles (b : Arena) (entries : List (List UInt8)) (n : Nat) (order : Ordering)
    (p q : Place) : EStateM.Result Fault Arena Verdict → Prop where
  | tied {a : Arena} (horder : order = .eq) (hpiled : Piled b entries a)
      (hroom : Room b entries n) : Settles b entries n order p q (.ok (.tied p q) a)
  | decided {a : Arena} {more : List (List UInt8)} (horder : order ≠ .eq)
      (hpiled : Piled b (more ++ entries) a) (hroom : Room b entries n) :
      Settles b entries n order p q (.ok (.decided order) a)
  | ranOut {a : Arena} {e : Fault} {more : List (List UInt8)} (hout : e.RanOut)
      (hpiled : Piled b (more ++ entries) a) (hshort : ¬ Room b entries n) :
      Settles b entries n order p q (.error e a)

/-- The counter `c` is the innermost entry. -/
structure Counts (b : Arena) (entries : List (List UInt8)) (c : Counter) (frame : List UInt8) :
    Prop where
  length : frame.length = Counter.frameLength
  offset : c.offset = pileTop b (frame :: entries)
  mark : c.mark = ⟨.backward, pileMark b (frame :: entries)⟩

theorem then_of_ne {o : Ordering} (h : o ≠ .eq) (o' : Ordering) : o.then o' = o := by
  cases o with
  | eq => exact (h rfl).elim
  | lt | gt => rfl

/-- The numbers of children left can be replaced. -/
theorem Counts.update_ok (hb : b.Bounded) {c : Counter} {frame : List UInt8}
    (hc : Counts b entries c frame) {a : Arena} (hpiled : Piled b (frame :: entries) a)
    (left right : Nat) :
    ∃ a', Counter.update { c with left, right } a = .ok () a' ∧
      Counts b entries c { c with left, right }.encode ∧
      Piled b ({ c with left, right }.encode :: entries) a' := by
  have hlength : ({ c with left, right } : Counter).encode.length = frame.length := by
    rw [Counter.length_encode, hc.length]
  obtain ⟨a', hwrite, hpiled'⟩ := hpiled.write_ok hb hlength
  rw [← hc.offset] at hwrite
  refine ⟨a', cell_ok hwrite, ⟨hlength.trans hc.length, ?_, hc.mark⟩, hpiled'⟩
  exact hc.offset.trans (Arena.pileTop_congr hlength.symm)

/-- The innermost counter can be given back. -/
theorem Counts.pop_ok (hb : b.Bounded) {c : Counter} {frame : List UInt8}
    (hc : Counts b entries c frame) {a : Arena} (hpiled : Piled b (frame :: entries) a) :
    ∃ a', c.pop a = .ok () a' ∧ Piled b entries a' := by
  obtain ⟨a', hrewind, hpiled'⟩ := hpiled.rewind_ok hb
  rw [← hc.mark] at hrewind
  exact ⟨a', cell_ok hrewind, hpiled'⟩

theorem Room.of_le {m : Nat} (h : Room b entries n) (hle : m ≤ n) : Room b entries m :=
  Nat.le_trans (Nat.add_le_add_left (Nat.mul_le_mul_left _ hle) _) h

/-- A counter is one of those that there is memory for. -/
theorem room_counted {frame : List UInt8} (hlength : frame.length = Counter.frameLength) :
    Room b (frame :: entries) n ↔ Room b entries (n + 1) := by
  rw [Room, Room, Arena.pileCost_cons, hlength, ← counterCost, Nat.mul_succ]
  omega

theorem not_max_of_right {m : Nat} (h : ¬ Room b entries n) : ¬ Room b entries (max m n) :=
  fun hroom => h (hroom.of_le (Nat.le_max_right ..))

/-- Where one pair has tied, the rest settles the whole. -/
theorem Settles.after {m : Nat} {p' q' : Place} (hroom : Room b entries m)
    {r : EStateM.Result Fault Arena Verdict} (h : Settles b entries n order p' q' r) :
    Settles b entries (max m n) order p' q' r := by
  have hboth : Room b entries n → Room b entries (max m n) := by
    intro hn
    rcases Nat.le_total m n with hle | hle
    · rwa [Nat.max_eq_right hle]
    · rwa [Nat.max_eq_left hle]
  cases h with
  | tied horder hpiled hn => exact .tied horder hpiled (hboth hn)
  | decided horder hpiled hn => exact .decided horder hpiled (hboth hn)
  | ranOut hout hpiled hn => exact .ranOut hout hpiled (not_max_of_right hn)

/-- Children are compared pair by pair, given that each pair settles. -/
theorem compareChildren_settles (hb : b.Bounded) {levels : Nat}
    {children : Place → Place → CellM Verdict} {ts us : List Tree} (hts : ts ≠ []) (hus : us ≠ [])
    (hlevels : Tree.lockstepAll ts us ≤ levels)
    (hpairs : ∀ t ∈ ts, ∀ u ∈ us, t.lockstep u ≤ levels → ∀ p p' q q' frame a,
      Depicts b ext t p p' → Depicts b ext u q q' → Piled b (frame :: entries) a →
      Settles b (frame :: entries) (t.lockstep u) (t.order u) p' q' (children p q a))
    {c : Counter} {frame : List UInt8} (hc : Counts b entries c frame) {p' q' : Place}
    (hp : DepictsAll b ext ts p p') (hq : DepictsAll b ext us q q') {a : Arena}
    (hpiled : Piled b (frame :: entries) a) :
    Settles b entries (Tree.lockstepAll ts us + 1) (Tree.orderAll ts us) (c.resumeLeft.getD p')
      (c.resumeRight.getD q') (compareChildren children c ts.length us.length p q a) := by
  induction ts generalizing us p q frame a with
  | nil => exact (hts rfl).elim
  | cons t ts ih =>
      cases us with
      | nil => exact (hus rfl).elim
      | cons u us =>
          obtain ⟨nextLeft, ht, hp⟩ := hp
          obtain ⟨nextRight, hu, hq⟩ := hq
          have hless : t.lockstep u ≤ Tree.lockstepAll (t :: ts) (u :: us) := by
            rw [Tree.lockstepAll]
            split <;> omega
          have hpair := hpairs t (.head _) u (.head _) (Nat.le_trans hless hlevels) p nextLeft q
            nextRight frame a ht hu hpiled
          rw [List.length_cons, List.length_cons, compareChildren, Tree.orderAll]
          generalize hresult : children p q a = result at hpair
          cases hpair with
          | ranOut hout hpiled' hshort =>
              rw [bind_error hresult]
              rw [List.append_cons] at hpiled'
              rw [room_counted hc.length] at hshort
              exact .ranOut hout hpiled' fun hroom => hshort (hroom.of_le (Nat.succ_le_succ hless))
          | decided horder hpiled' hroom =>
              rw [bind_ok hresult, then_of_ne horder, Tree.lockstepAll, if_neg horder]
              rw [List.append_cons] at hpiled'
              exact .decided horder hpiled' ((room_counted hc.length).1 hroom)
          | tied horder hpiled' hroom =>
              have hlast : Piled b ([frame] ++ entries) _ := hpiled'
              rw [room_counted hc.length] at hroom
              rw [Tree.lockstepAll, if_pos horder] at hlevels ⊢
              rw [bind_ok hresult, horder]
              cases ts with
              | nil =>
                  have hroom' : Room b entries (max (t.lockstep u) (Tree.lockstepAll [] us) + 1) := by
                    rwa [Tree.lockstepAll_nil_left, Nat.max_zero]
                  rw [show nextLeft = p' from hp.symm]
                  cases us with
                  | nil =>
                      obtain ⟨a', hpop, hpiled''⟩ := hc.pop_ok hb hpiled'
                      rw [show nextRight = q' from hq.symm]
                      change Settles b entries _ _ _ _ ((do
                        c.pop
                        return .tied (c.resumeLeft.getD p') (c.resumeRight.getD q') : CellM _) _)
                      rw [bind_ok hpop]
                      exact .tied rfl hpiled'' hroom'
                  | cons => exact .decided (show Ordering.lt ≠ .eq by decide) hlast hroom'
              | cons t' ts =>
                  cases us with
                  | nil =>
                      have hroom' : Room b entries
                          (max (t.lockstep u) (Tree.lockstepAll (t' :: ts) []) + 1) := by
                        rwa [Tree.lockstepAll_nil_right, Nat.max_zero]
                      exact .decided (show Ordering.gt ≠ .eq by decide) hlast hroom'
                  | cons u' us =>
                      obtain ⟨a', hwrite, hcounts, hpiled''⟩ :=
                        hc.update_ok hb hpiled' (ts.length + 1) (us.length + 1)
                      have hrest := @ih _ _ (u' :: us) (by simp) (by simp)
                        (Nat.le_trans (Nat.le_max_right ..) hlevels)
                        (fun t ht u hu => hpairs t (.tail _ ht) u (.tail _ hu)) _ hcounts hp hq _
                        hpiled''
                      change Settles b entries _ _ _ _ ((do
                        Counter.update { c with left := ts.length + 1, right := us.length + 1 }
                        compareChildren children c (ts.length + 1) (us.length + 1) nextLeft nextRight
                          : CellM _) _)
                      rw [bind_ok hwrite, ← Nat.add_max_add_right]
                      exact hrest.after hroom

/-- The counter of a list that is opened on top of the entries. -/
def opened (b : Arena) (entries : List (List UInt8)) (below left right : Nat)
    (resumeLeft resumeRight : Option Place) : Counter where
  left := left
  right := right
  mark := ⟨.backward, pileTop b entries - Arena.markLength⟩
  below := below
  resumeLeft := resumeLeft
  resumeRight := resumeRight
  offset := pileTop b entries - counterCost

/-- A list is opened, or memory has run out. -/
theorem opened_ok (hb : b.Bounded) {a : Arena} (hpiled : Piled b entries a) (below left right : Nat)
    (resumeLeft resumeRight : Option Place) :
    (∃ e a' more, e.RanOut ∧ Piled b (more ++ entries) a' ∧
        Counter.push below left right resumeLeft resumeRight a = .error e a' ∧
        ¬ Room b entries 1) ∨
      ∃ c a', c = opened b entries below left right resumeLeft resumeRight ∧
        Counts b entries c c.encode ∧ Piled b (c.encode :: entries) a' ∧
        Counter.push below left right resumeLeft resumeRight a = .ok c a' := by
  rw [Counter.push]
  rcases hpiled.take hb Counter.frameLength fun mark span => do
      let c : Counter := { left, right, mark, below, resumeLeft, resumeRight, offset := span.offset }
      c.update
      return c with
    ⟨e, a', more, hout, hpiled', herror, hshort, -⟩ | ⟨a₁, old, hlength, hpiled₁, htake⟩
  · exact .inl ⟨e, a', more, hout, hpiled', herror, Nat.not_le_of_lt hshort⟩
  · generalize hc : opened b entries below left right resumeLeft resumeRight = c
    have hsize : c.encode.length = old.length := by rw [Counter.length_encode, hlength]
    have hplace : pileTop b (old :: entries) = c.offset := by
      rw [← hc, Arena.pileTop, hlength]
      rfl
    obtain ⟨a₂, hwrite, hpiled₂⟩ := hpiled₁.write_ok hb hsize
    rw [hplace] at hwrite htake
    refine .inr ⟨c, a₂, rfl, ⟨Counter.length_encode c, ?_, by rw [← hc]; rfl⟩, hpiled₂, ?_⟩
    · rw [← hplace]
      exact Arena.pileTop_congr hsize.symm
    · have hupdate : c.update a₁ = .ok () a₂ := cell_ok hwrite
      rw [htake]
      dsimp only
      rw [← hc] at hupdate ⊢
      exact bind_ok hupdate

/-- A list is opened, and what comes next goes on with its counter; or memory has run out. -/
theorem push_ok (hb : b.Bounded) {a : Arena} (hpiled : Piled b entries a) (below left right : Nat)
    (resumeLeft resumeRight : Option Place) {α : Type} (next : Counter → CellM α) :
    (∃ e a' more, e.RanOut ∧ Piled b (more ++ entries) a' ∧
        (do let c ← Counter.push below left right resumeLeft resumeRight
            next c : CellM α) a = .error e a' ∧
        ¬ Room b entries 1) ∨
      ∃ c frame a', Counts b entries c frame ∧ Piled b (frame :: entries) a' ∧
        c.resumeLeft = resumeLeft ∧ c.resumeRight = resumeRight ∧
        (do let c ← Counter.push below left right resumeLeft resumeRight
            next c : CellM α) a = next c a' := by
  rcases opened_ok hb hpiled below left right resumeLeft resumeRight with
    ⟨e, a', more, hout, hpiled', hpush, hshort⟩ | ⟨c, a', hc, hcounts, hpiled', hpush⟩
  · exact .inl ⟨e, a', more, hout, hpiled', bind_error hpush, hshort⟩
  · exact .inr ⟨c, _, a', hcounts, hpiled', by rw [hc]; rfl, by rw [hc]; rfl, bind_ok hpush⟩

/-- Cells of different kinds are told apart by their headers. -/
theorem compareTrees_of_tags {t u : Tree} (htag : t.header.tag ≠ u.header.tag) {p' q' : Place}
    {a : Arena} (ht : Depicts a ext t p p') (hu : Depicts a ext u q q') (levels below : Nat) :
    compareTrees ext levels below p q a =
      .ok (.decided (Ord.compare t.header.tag u.header.tag)) a := by
  obtain ⟨left, _, hleft, -, hleft'⟩ := ht.header
  obtain ⟨right, _, hright, -, hright'⟩ := hu.header
  rw [← hleft', ← hright'] at htag ⊢
  rw [compareTrees.eq_def]
  dsimp only
  rw [bind_ok (consult_ok hleft), bind_ok (consult_ok hright)]
  exact congrFun (if_pos htag) a

theorem compareTrees_symbols {sigil sigil' : Sigil} {quoted quoted' : Bool} {chars chars' : List UInt8}
    {p' q' : Place} {a : Arena} (ht : Depicts a ext (.symbol sigil quoted chars) p p')
    (hu : Depicts a ext (.symbol sigil' quoted' chars') q q') (levels below : Nat) :
    compareTrees ext levels below p q a =
      .ok (match (Tree.symbol sigil quoted chars).order (.symbol sigil' quoted' chars') with
        | .eq => .tied p' q'
        | order => .decided order) a := by
  have hsymbols := compareSymbols_ok ht hu
  obtain ⟨_, _, _, hleft, -, -, hnext⟩ := ht
  obtain ⟨_, _, _, hright, -, -, hnext'⟩ := hu
  rw [compareTrees.eq_def]
  dsimp only
  rw [bind_ok (consult_ok hleft), bind_ok (consult_ok hright)]
  refine (congrFun (if_neg fun h => h rfl) a).trans ?_
  rw [bind_ok (consult_ok hnext), bind_ok (consult_ok hnext')]
  dsimp only
  rw [bind_ok (consult_ok hsymbols)]
  cases (Tree.symbol sigil quoted chars).order (.symbol sigil' quoted' chars') <;> rfl

theorem compareTrees_integers {value value' : Int} {p' q' : Place} {a : Arena}
    (ht : Depicts a ext (.integer value) p p') (hu : Depicts a ext (.integer value') q q')
    (levels below : Nat) :
    compareTrees ext levels below p q a =
      .ok (match (Tree.integer value).order (.integer value') with
        | .eq => .tied p' q'
        | order => .decided order) a := by
  rw [compareTrees.eq_def]
  dsimp only
  rw [bind_ok (consult_ok ht.1), bind_ok (consult_ok hu.1)]
  refine (congrFun (if_neg fun h => h rfl) a).trans ?_
  rw [bind_ok (consult_ok ht.2), bind_ok (consult_ok hu.2)]
  dsimp only
  by_cases hsame : value = value'
  · subst hsame
    rw [Tree.order_self]
    exact congrFun (if_pos rfl) a
  · have hne : Ord.compare value value' ≠ .eq := fun h => hsame (Std.compare_eq_iff_eq.1 h)
    refine (congrFun (if_neg hsame) a).trans ?_
    rw [Tree.order]
    cases hcompare : Ord.compare value value' with
    | eq => exact (hne hcompare).elim
    | lt | gt => rfl

section Lists

variable {sigil sigil' : Sigil} {ts us : List Tree} {p' q' : Place} {a : Arena}

theorem compareTrees_sigils (hsigil : sigil ≠ sigil') (ht : Depicts a ext (.list sigil ts) p p')
    (hu : Depicts a ext (.list sigil' us) q q') (levels below : Nat) :
    compareTrees ext levels below p q a = .ok (.decided (Ord.compare sigil sigil')) a := by
  obtain ⟨_, _, _, _, hleft, -, -, hnext, -⟩ := ht
  obtain ⟨_, _, _, _, hright, -, -, hnext', -⟩ := hu
  rw [compareTrees.eq_def]
  dsimp only
  rw [bind_ok (consult_ok hleft), bind_ok (consult_ok hright)]
  refine (congrFun (if_neg fun h => h rfl) a).trans ?_
  rw [bind_ok (consult_ok hnext), bind_ok (consult_ok hnext')]
  exact congrFun (if_pos hsigil) a

/-- After a list without children comes what is after its cell, wherever its body is. -/
theorem Depicts.list_next (ht : Depicts a ext (.list sigil ts) p p') :
    ∃ linked next, load a ext p = .ok (.list ts.length sigil linked) ∧
      step p (Header.list ts.length sigil linked).footprint = .ok next ∧ (ts = [] → next = p') := by
  obtain ⟨linked, first, last, next, hload, hbody, hlast, hstep, hp'⟩ := ht
  refine ⟨linked, next, hload, hstep, ?_⟩
  rintro rfl
  cases linked with
  | true => exact hp'.symm
  | false =>
      rw [hp', if_neg Bool.false_ne_true, show last = first from hlast]
      simp only [body, Header.isLinked, Bool.false_eq_true, if_false, bind_pure] at hbody
      exact Except.ok.inj (hstep.symm.trans hbody)

theorem compareTrees_empty (hempty : ts = [] ∨ us = []) (ht : Depicts a ext (.list sigil ts) p p')
    (hu : Depicts a ext (.list sigil us) q q') (levels below : Nat) :
    compareTrees ext levels below p q a =
      .ok (match Tree.orderAll ts us with
        | .eq => .tied p' q'
        | order => .decided order) a := by
  obtain ⟨linked, next, hleft, hnext, htied⟩ := ht.list_next
  obtain ⟨linked', next', hright, hnext', htied'⟩ := hu.list_next
  rw [compareTrees.eq_def]
  dsimp only
  rw [bind_ok (consult_ok hleft), bind_ok (consult_ok hright)]
  refine (congrFun (if_neg fun h => h rfl) a).trans ?_
  rw [bind_ok (consult_ok hnext), bind_ok (consult_ok hnext')]
  refine (congrFun (if_neg fun h => h rfl) a).trans ?_
  cases ts with
  | nil =>
      cases us with
      | nil =>
          rw [htied rfl, htied' rfl]
          rfl
      | cons => rfl
  | cons =>
      cases us with
      | nil => rfl
      | cons => simp at hempty

theorem compareTrees_children {n m : Nat} {linked linked' : Bool} {next next' : Place}
    (hleft : load a ext p = .ok (.list (n + 1) sigil linked))
    (hright : load a ext q = .ok (.list (m + 1) sigil linked'))
    (hnext : step p (Header.list (n + 1) sigil linked).footprint = .ok next)
    (hnext' : step q (Header.list (m + 1) sigil linked').footprint = .ok next')
    (levels below : Nat) :
    compareTrees ext (levels + 1) below p q a = (do
      let c ← Counter.push below (n + 1) (m + 1) (if linked then some next else none)
        (if linked' then some next' else none)
      let leftBody ← consult (body · ext p (.list (n + 1) sigil linked))
      let rightBody ← consult (body · ext q (.list (m + 1) sigil linked'))
      compareChildren (compareTrees ext levels c.offset) c (n + 1) (m + 1) leftBody rightBody
        : CellM _) a := by
  rw [compareTrees.eq_def]
  dsimp only
  rw [bind_ok (consult_ok hleft), bind_ok (consult_ok hright)]
  refine (congrFun (if_neg fun h => h rfl) a).trans ?_
  rw [bind_ok (consult_ok hnext), bind_ok (consult_ok hnext')]
  refine (congrFun (if_neg fun h => h rfl) a).trans ?_
  exact congrFun (if_neg fun h => h.elim nofun nofun) a

end Lists

theorem room_zero {a : Arena} (hpiled : Piled b entries a) : Room b entries 0 := hpiled.room

/-- What is answered at once takes no counter. -/
theorem Settles.of_verdict {p' q' : Place} {a : Arena} (hpiled : Piled b entries a)
    {r : EStateM.Result Fault Arena Verdict}
    (h : r = .ok (match order with
      | .eq => .tied p' q'
      | order => .decided order) a) : Settles b entries 0 order p' q' r := by
  have hroom := room_zero hpiled
  rw [h]
  cases order with
  | eq => exact .tied rfl hpiled hroom
  | lt | gt => exact @Settles.decided _ _ _ _ _ _ _ [] (by decide) hpiled hroom

theorem compareLists_settles (hb : b.Bounded) {levels : Nat} {sigil : Sigil} {ts us : List Tree}
    (hts : ts ≠ []) (hus : us ≠ []) (hlevels : Tree.lockstepAll ts us ≤ levels)
    (hpairs : ∀ t ∈ ts, ∀ u ∈ us, t.lockstep u ≤ levels → ∀ p p' q q' below entries a,
      Depicts b ext t p p' → Depicts b ext u q q' → Piled b entries a →
      Settles b entries (t.lockstep u) (t.order u) p' q' (compareTrees ext levels below p q a))
    {p' q' : Place} (ht : Depicts b ext (.list sigil ts) p p')
    (hu : Depicts b ext (.list sigil us) q q') (below : Nat) {a : Arena}
    (hpiled : Piled b entries a) :
    Settles b entries (Tree.lockstepAll ts us + 1) (Tree.orderAll ts us) p' q'
      (compareTrees ext (levels + 1) below p q a) := by
  have hretains : Retains ext b a := retains_of_piled hb hpiled
  obtain ⟨linked, first, last, next, hleft, hbody, hchildren, hnext, hp'⟩ := ht
  obtain ⟨linked', first', last', next', hright, hbody', hchildren', hnext', hq'⟩ := hu
  obtain ⟨t, ts, rfl⟩ := List.exists_cons_of_ne_nil hts
  obtain ⟨u, us, rfl⟩ := List.exists_cons_of_ne_nil hus
  rw [compareTrees_children (hretains.load hleft) (hretains.load hright) hnext hnext']
  rcases push_ok hb hpiled below (ts.length + 1) (us.length + 1)
    (if linked then some next else none) (if linked' then some next' else none) (fun c => do
      let leftBody ← consult (body · ext p (.list (ts.length + 1) sigil linked))
      let rightBody ← consult (body · ext q (.list (us.length + 1) sigil linked'))
      compareChildren (compareTrees ext levels c.offset) c (ts.length + 1) (us.length + 1)
        leftBody rightBody) with
    ⟨e, a', more, hout, hpiled', herror, hshort⟩ |
    ⟨c, frame, a', hcounts, hpiled', hresume, hresume', hopen⟩
  · rw [herror]
    exact .ranOut hout hpiled' fun hroom => hshort (hroom.of_le (Nat.le_add_left ..))
  · have hretains' : Retains ext b a' := retains_of_piled hb hpiled'
    rw [hopen, bind_ok (consult_ok (hretains'.body hbody)),
      bind_ok (consult_ok (hretains'.body hbody'))]
    have hall := compareChildren_settles hb hts hus hlevels
      (fun t ht u hu hless p p' q q' frame a hp hq hpiled =>
        hpairs t ht u hu hless p p' q q' c.offset _ a hp hq hpiled) hcounts hchildren hchildren'
      hpiled'
    have hresumed : c.resumeLeft.getD last = p' := by
      rw [hresume, hp']
      cases linked <;> rfl
    have hresumed' : c.resumeRight.getD last' = q' := by
      rw [hresume', hq']
      cases linked' <;> rfl
    rw [hresumed, hresumed'] at hall
    exact hall

/-- Comparing two places settles on the order of the trees that are depicted there. -/
theorem compareTrees_settles (hb : b.Bounded) {levels : Nat} {t u : Tree}
    (hlevels : t.lockstep u ≤ levels) {p' q' : Place} (ht : Depicts b ext t p p')
    (hu : Depicts b ext u q q') (below : Nat) {a : Arena} (hpiled : Piled b entries a) :
    Settles b entries (t.lockstep u) (t.order u) p' q' (compareTrees ext levels below p q a) := by
  have hretains : Retains ext b a := retains_of_piled hb hpiled
  induction t using Tree.induct generalizing u levels p p' q q' below entries a with
  | symbol sigil quoted chars =>
      cases u with
      | symbol =>
          exact .of_verdict hpiled (compareTrees_symbols (ht.of_retains hretains)
            (hu.of_retains hretains) levels below)
      | integer | list =>
          exact .of_verdict hpiled (compareTrees_of_tags (by simp [Tree.header, Header.tag])
            (ht.of_retains hretains) (hu.of_retains hretains) levels below)
  | integer value =>
      cases u with
      | integer =>
          exact .of_verdict hpiled (compareTrees_integers (ht.of_retains hretains)
            (hu.of_retains hretains) levels below)
      | symbol | list =>
          exact .of_verdict hpiled (compareTrees_of_tags (by simp [Tree.header, Header.tag])
            (ht.of_retains hretains) (hu.of_retains hretains) levels below)
  | list sigil ts ih =>
      cases u with
      | symbol | integer =>
          exact .of_verdict hpiled (compareTrees_of_tags (by simp [Tree.header, Header.tag])
            (ht.of_retains hretains) (hu.of_retains hretains) levels below)
      | list sigil' us =>
          have ht' := ht.of_retains hretains
          have hu' := hu.of_retains hretains
          rw [Tree.lockstep] at hlevels ⊢
          rw [Tree.order]
          by_cases hsigil : sigil = sigil'
          · subst hsigil
            rw [Std.compare_self, Ordering.then]
            by_cases hempty : ts = [] ∨ us = []
            · rw [if_neg fun hboth => hempty.elim hboth.2.1 hboth.2.2]
              exact .of_verdict hpiled (compareTrees_empty hempty ht' hu' levels below)
            · obtain ⟨hts, hus⟩ := not_or.1 hempty
              rw [if_pos ⟨rfl, hts, hus⟩] at hlevels ⊢
              obtain ⟨levels, rfl⟩ : ∃ l, levels = l + 1 := ⟨levels - 1, by omega⟩
              refine compareLists_settles hb hts hus (Nat.le_of_succ_le_succ hlevels) ?_ ht hu below
                hpiled
              intro t ht u hu hless p p' q q' below entries a hp hq hpiled
              exact ih t ht hless hp hq below hpiled (retains_of_piled hb hpiled)
          · have hne : Ord.compare sigil sigil' ≠ .eq := fun h => hsigil (Std.compare_eq_iff_eq.1 h)
            rw [compareTrees_sigils hsigil ht' hu', then_of_ne hne, if_neg fun hboth => hsigil hboth.1]
            exact @Settles.decided _ _ _ _ _ _ _ [] hne hpiled (room_zero hpiled)

/-- Comparing two places answers the order of the trees that are depicted there where there is memory
for one mark and the counters, and runs out of memory where there is not; the arena is left as it
was. -/
theorem compare_ok (hb : b.Bounded) {t u : Tree} (hlevels : t.lockstep u ≤ maxNesting)
    {p' q' : Place} (ht : Depicts b ext t p p') (hu : Depicts b ext u q q') :
    (∃ a', compare ext p q b = .ok (t.order u) a' ∧ Piled b [] a' ∧ Room b [[]] (t.lockstep u)) ∨
      ∃ e a', compare ext p q b = .error e a' ∧ e.RanOut ∧ Piled b [] a' ∧
        ¬ Room b [[]] (t.lockstep u) := by
  unfold compare
  generalize hbody : (compareTrees ext maxNesting 0 p q >>= _ : CellM Ordering) = body
  rcases (Piled.refl hb.cursors).borrow_ok hb body with
    ⟨e, hout, herror, hshort⟩ | ⟨a₁, hpiled, hafter⟩
  · have hroom : ¬ Room b [[]] (t.lockstep u) :=
      fun hroom => Nat.not_le_of_lt hshort (hroom.of_le (Nat.zero_le _))
    exact .inr ⟨e, b, herror, hout, .refl hb.cursors, hroom⟩
  · have hsettles := compareTrees_settles hb hlevels ht hu 0 hpiled
    generalize hresult : compareTrees ext maxNesting 0 p q a₁ = result at hsettles
    cases hsettles with
    | tied horder hpiled' hroom =>
        obtain ⟨a₃, hpiled'', hok, -⟩ := @hafter [] _ hpiled'
        exact .inl ⟨a₃, hok _ (by rw [← hbody, bind_ok hresult, horder]; rfl), hpiled'', hroom⟩
    | decided horder hpiled' hroom =>
        obtain ⟨a₃, hpiled'', hok, -⟩ := hafter hpiled'
        exact .inl ⟨a₃, hok _ (by rw [← hbody, bind_ok hresult]; rfl), hpiled'', hroom⟩
    | ranOut hout hpiled' hshort =>
        obtain ⟨a₃, hpiled'', -, herror⟩ := hafter hpiled'
        exact .inr ⟨_, a₃, herror _ (by rw [← hbody, bind_error hresult]), hout, hpiled'', hshort⟩

end Compare

end Cell

end FlatLisp
