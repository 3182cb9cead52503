/-
Module: FlatLisp.Proofs.Cell.Levels
Purpose: How many lists with children may be open at once in what is walked through or compared. No
  traversal of a tree with as many levels as there are counters fails over its levels, whatever the
  other side of a comparison is; a walk through a deeper tree whose bodies are all inline always does,
  unless memory runs out before.
Main exports: Fault.TooDeep, Cell.Manages, Cell.walkTree_manages, Cell.compareTrees_manages,
  Cell.Depicts.walk_manages, Cell.Depicts.compare_manages, Cell.Measures, Cell.walk_measures
-/
import FlatLisp.Proofs.Cell.Borrowing

namespace FlatLisp

/-- Lists are nested too deeply. -/
def Fault.TooDeep (e : Fault) : Prop := ∃ levels, e = .depthExceeded levels

theorem Fault.not_tooDeep {e : Fault} (h : ∀ levels, e ≠ .depthExceeded levels) : ¬ e.TooDeep := by
  rintro ⟨levels, rfl⟩
  exact h levels rfl

theorem Fault.RanOut.not_tooDeep {e : Fault} (h : e.RanOut) : ¬ e.TooDeep := by
  rintro ⟨levels, rfl⟩
  obtain ⟨_, _, -, he⟩ := h
  contradiction

namespace Cell

open Arena (Piled)

variable {α β σ : Type}

/-! ### Traversals that do not go too deep -/

/-- A part of a traversal that does not fail over its levels. If it succeeds, `post` holds of its
answer and of the state after it. -/
def Manages (post : α → σ → Prop) : EStateM.Result Fault σ α → Prop
  | .ok x s => post x s
  | .error e _ => ¬ e.TooDeep

section Rules

variable {post : α → σ → Prop} {post' : β → σ → Prop} {job : EStateM Fault σ α}
  {next : α → EStateM Fault σ β} {s : σ}

theorem Manages.imp {r : EStateM.Result Fault σ α} {post' : α → σ → Prop} (h : Manages post r)
    (himp : ∀ x t, post x t → post' x t) : Manages post' r := by
  cases r with
  | ok x t => exact himp x t h
  | error e t => exact h

theorem Manages.bind (h : Manages post (job s))
    (hnext : ∀ x t, post x t → Manages post' (next x t)) : Manages post' ((job >>= next) s) := by
  cases hresult : job s with
  | ok x t =>
      rw [hresult] at h
      rw [bind_ok hresult]
      exact hnext x t h
  | error e t =>
      rw [hresult] at h
      rw [bind_error hresult]
      exact h

theorem manages_ite {c : Prop} [Decidable c] {yes no : EStateM Fault σ α}
    (hyes : c → Manages post (yes s)) (hno : ¬ c → Manages post (no s)) :
    Manages post ((if c then yes else no) s) := by
  by_cases hc : c
  · rw [if_pos hc]
    exact hyes hc
  · rw [if_neg hc]
    exact hno hc

end Rules

/-! ### What is looked at -/

/-- What is looked up fails for reasons other than levels. -/
def Shallow (x : Except Fault α) : Prop := ∀ e, x = .error e → ¬ e.TooDeep

theorem shallow_ok (x : α) : Shallow (.ok x) := nofun

theorem shallow_error {e : Fault} (h : ¬ e.TooDeep) : Shallow (.error e : Except Fault α) := by
  rintro _ ⟨⟩
  exact h

theorem Shallow.bind {x : Except Fault α} {f : α → Except Fault β} (h : Shallow x)
    (hf : ∀ y, Shallow (f y)) : Shallow (x >>= f) := by
  cases x with
  | ok y => exact hf y
  | error e => exact shallow_error (h e rfl)

theorem shallow_mapError {ε : Type} {x : Except ε α} {f : ε → Fault} (h : ∀ e, ¬ (f e).TooDeep) :
    Shallow (x.mapError f) := by
  cases x with
  | ok y => exact shallow_ok y
  | error e => exact shallow_error (h e)

section Look

variable (a : Arena) (ext : External) (p q : Place)

theorem fetch_shallow (count : Nat) : Shallow (fetch a ext p count) := by
  rw [fetch]
  split
  · exact shallow_mapError fun _ => Fault.not_tooDeep fun _ => Fault.noConfusion
  · exact shallow_mapError fun _ => Fault.not_tooDeep fun _ => Fault.noConfusion

theorem step_shallow (count : Nat) : Shallow (step p count) := by
  rw [step]
  cases p.step count with
  | some q => exact shallow_ok q
  | none => exact shallow_error (Fault.not_tooDeep fun _ => Fault.noConfusion)

theorem load_shallow : Shallow (load a ext p) := by
  refine ((fetch_shallow a ext p 1).bind fun _ => shallow_ok _).bind fun first => ?_
  cases Header.lengthFor first with
  | none => exact shallow_error (Fault.not_tooDeep fun _ => Fault.noConfusion)
  | some length =>
      refine (fetch_shallow a ext p length).bind fun bytes => ?_
      cases Header.decode bytes with
      | some header => exact shallow_ok header
      | none => exact shallow_error (Fault.not_tooDeep fun _ => Fault.noConfusion)

theorem body_shallow (header : Header) : Shallow (body a ext p header) := by
  refine (step_shallow p header.length).bind fun after => ?_
  split
  · refine Shallow.bind ?_ fun n => shallow_ok _
    refine (fetch_shallow a ext after 2).bind fun bytes => ?_
    split <;> exact shallow_ok _
  · exact shallow_ok after

theorem symbolText_shallow : Shallow (symbolText a ext p) := by
  refine (load_shallow a ext p).bind fun header => ?_
  cases header with
  | symbol length sigil quoted linked hash =>
      exact (body_shallow a ext p _).bind fun q => fetch_shallow a ext q length
  | integer | list => exact shallow_error (Fault.not_tooDeep fun _ => Fault.noConfusion)

theorem compareSymbols_shallow : Shallow (compareSymbols a ext p q) := by
  refine (load_shallow a ext p).bind fun left => ?_
  refine (load_shallow a ext q).bind fun right => ?_
  split
  · refine (symbolText_shallow a ext p).bind fun _ => ?_
    exact (symbolText_shallow a ext q).bind fun _ => shallow_ok _
  · exact shallow_error (Fault.not_tooDeep fun _ => Fault.noConfusion)

end Look

theorem manages_consult {look : Arena → Except Fault α} {a : Arena} (h : Shallow (look a)) :
    Manages (fun x t => look a = .ok x ∧ t = a) (consult look a) := by
  cases hlook : look a with
  | ok x =>
      rw [consult_ok hlook]
      exact ⟨rfl, rfl⟩
  | error e =>
      rw [consult_error hlook]
      exact h e hlook

/-- A request to the arena fails for reasons of its own. -/
theorem manages_arena (request : ArenaM α) (a : Arena) :
    Manages (fun x t => request a = .ok x t) ((liftM request : CellM α) a) := by
  cases hrequest : request a with
  | ok x t =>
      rw [cell_ok hrequest]
      exact rfl
  | error e t =>
      rw [cell_error hrequest]
      rintro ⟨levels, h⟩
      cases h

/-! ### Walking -/

section Walk

variable {b : Arena} {ext : External} {entries : List (List UInt8)} {p q : Place} {t : Tree}
  {visit : Visit → EStateM Fault σ Unit}

/-- What a walk comes upon where a tree is depicted: a list with children that are next to it, or a
cell that it steps over. -/
theorem Depicts.entered (h : Depicts b ext t p q) : ∃ header next,
    load b ext p = .ok header ∧ step p header.footprint = .ok next ∧
      ((∃ count sigil ts, header = .list (count + 1) sigil false ∧ count + 1 = ts.length ∧
          t = .list sigil ts ∧ DepictsAll b ext ts next q) ∨
        next = q ∧ ∀ count sigil, header ≠ .list (count + 1) sigil false) := by
  cases t with
  | symbol sigil quoted chars =>
      obtain ⟨linked, hash, text, hload, -, -, hstep⟩ := h
      exact ⟨_, q, hload, hstep, .inr ⟨rfl, nofun⟩⟩
  | integer value => exact ⟨_, q, h.1, h.2, .inr ⟨rfl, nofun⟩⟩
  | list sigil ts =>
      obtain ⟨linked, first, last, next, hload, hbody, hchildren, hstep, hq⟩ := h
      refine ⟨_, next, hload, hstep, ?_⟩
      cases linked with
      | true => exact .inr ⟨hq.symm, fun _ _ h => by injection h; contradiction⟩
      | false =>
          -- Children that are not elsewhere begin right after the header.
          have hfirst : next = first := by
            simp only [body, Header.isLinked, Bool.false_eq_true, if_false, bind_pure] at hbody
            exact Except.ok.inj (hstep.symm.trans hbody)
          rw [if_neg Bool.false_ne_true] at hq
          subst hq hfirst
          cases ts with
          | nil =>
              have hlast : q = next := hchildren
              exact .inr ⟨hlast.symm, by rintro _ _ ⟨⟩⟩
          | cons u us => exact .inl ⟨us.length, sigil, u :: us, rfl, rfl, rfl, hchildren⟩

theorem walkChildren_manages (hb : b.Bounded) {ts : List Tree} (hts : ts ≠ [])
    {child : Place → TourM σ Place}
    (hchild : ∀ t ∈ ts, ∀ p q frame s, Depicts b ext t p q → Piled b (frame :: entries) s.arena →
      Manages (fun x s => x = q ∧ Piled b (frame :: entries) s.arena) (child p s))
    {c : Counter} {frame : List UInt8} (hc : Counts b entries c frame)
    (hdepicts : DepictsAll b ext ts p q) {s : Tour σ} (hpiled : Piled b (frame :: entries) s.arena) :
    Manages (fun x s => x = q ∧ Piled b entries s.arena) (walkChildren child c ts.length p s) := by
  induction ts generalizing p frame s with
  | nil => exact (hts rfl).elim
  | cons t ts ih =>
      obtain ⟨middle, ht, hrest⟩ := hdepicts
      refine (hchild t (.head _) p middle frame s ht hpiled).bind fun x s ⟨hx, hpiled⟩ => ?_
      subst hx
      cases ts with
      | nil =>
          have hlast : q = x := hrest
          obtain ⟨a, hpop, hpiled'⟩ := hc.pop_ok hb hpiled
          have hgiven : (liftM c.pop : TourM σ Unit) s = .ok () ⟨a, s.seen⟩ := tour_cell_ok hpop
          refine (congrFun (if_pos rfl) s).symm ▸ ?_
          rw [bind_ok hgiven]
          exact ⟨hlast.symm, hpiled'⟩
      | cons u us =>
          obtain ⟨a, hupdate, hcounts, hpiled'⟩ :=
            hc.update_ok hb hpiled (us.length + 1) c.right
          have hcount : (liftM (Counter.update { c with left := us.length + 1 }) : TourM σ Unit) s =
              .ok () ⟨a, s.seen⟩ := tour_cell_ok hupdate
          refine (congrFun (if_neg (Nat.succ_ne_zero us.length)) s).symm ▸ ?_
          rw [List.length_cons, bind_ok hcount]
          exact ih (List.cons_ne_nil u us) (fun t ht => hchild t (.tail _ ht)) hcounts hrest hpiled'

/-- A cell that a walk can load is shown to the visitor and stepped over. -/
theorem enters_manages (hb : b.Bounded) (hvisit : ∀ v seen, Manages (fun _ _ => True) (visit v seen))
    {header : Header} {next : Place} (hload : load b ext p = .ok header)
    (hstep : step p header.footprint = .ok next) {levels depth below : Nat} {s : Tour σ}
    (hpiled : Piled b entries s.arena)
    (henter : ∀ s : Tour σ, Piled b entries s.arena →
      Manages (fun x s => x = q ∧ Piled b entries s.arena)
        (enter ext visit levels depth below next header s)) :
    Manages (fun x s => x = q ∧ Piled b entries s.arena)
      (walkTree ext visit levels depth below p s) := by
  have hload' := (retains_of_piled hb hpiled).load hload
  have hheader : (liftM (consult (load · ext p)) : TourM σ Header) s = .ok header s :=
    tour_cell_ok (consult_ok hload')
  rw [walkTree_eq, bind_ok hheader]
  have hshown := hvisit ⟨p, header, depth⟩ s.seen
  have hshow : Manages (fun _ t => t.arena = s.arena)
      (TourM.visit (visit ⟨p, header, depth⟩) s) := by
    cases hresult : visit ⟨p, header, depth⟩ s.seen with
    | ok _ seen =>
        rw [show s = ⟨s.arena, s.seen⟩ from rfl, tour_visit_ok hresult]
        exact rfl
    | error e seen =>
        rw [hresult] at hshown
        rw [show s = ⟨s.arena, s.seen⟩ from rfl, tour_visit_error hresult]
        exact hshown
  refine hshow.bind fun _ t ht => ?_
  have hnext : (liftM (consult fun _ => step p header.footprint) : TourM σ Place) t = .ok next t :=
    tour_cell_ok (consult_ok hstep)
  rw [bind_ok hnext]
  exact henter t (ht ▸ hpiled)

theorem enter_other {header : Header} (h : ∀ count sigil, header ≠ .list (count + 1) sigil false)
    (levels depth below : Nat) (next : Place) :
    enter ext visit levels depth below next header = pure next := by
  rw [enter.eq_def]
  split
  · exact (h _ _ rfl).elim
  · rfl

/-- A walk through a tree with no more levels than are left ends just past it. -/
theorem walkTree_manages (hb : b.Bounded)
    (hvisit : ∀ v seen, Manages (fun _ _ => True) (visit v seen)) {levels : Nat}
    (hlevels : t.nesting ≤ levels) (ht : Depicts b ext t p q) (depth below : Nat) {s : Tour σ}
    (hpiled : Piled b entries s.arena) :
    Manages (fun x s => x = q ∧ Piled b entries s.arena)
      (walkTree ext visit levels depth below p s) := by
  induction levels generalizing t depth below p q entries s with
  | zero =>
      obtain ⟨header, next, hload, hstep, hentered⟩ := ht.entered
      refine enters_manages hb hvisit hload hstep hpiled fun s hpiled => ?_
      rcases hentered with ⟨count, sigil, ts, rfl, hcount, rfl, -⟩ | ⟨rfl, hother⟩
      · rw [Tree.nesting, if_neg (List.ne_nil_of_length_eq_add_one hcount.symm)] at hlevels
        contradiction
      · rw [enter_other hother]
        exact ⟨rfl, hpiled⟩
  | succ levels ih =>
      obtain ⟨header, next, hload, hstep, hentered⟩ := ht.entered
      refine enters_manages hb hvisit hload hstep hpiled fun s hpiled => ?_
      rcases hentered with ⟨count, sigil, ts, rfl, hcount, rfl, hchildren⟩ | ⟨rfl, hother⟩
      · have hts := List.ne_nil_of_length_eq_add_one hcount.symm
        rw [Tree.nesting, if_neg hts] at hlevels
        rw [enter, show s = ⟨s.arena, s.seen⟩ from rfl]
        rcases open_ok hb hpiled below (count + 1) s.seen fun c =>
            walkChildren (walkTree ext visit levels (depth + 1) c.offset) c (count + 1) next with
          ⟨e, a, left, hout, -, -, herror⟩ | ⟨c, frame, a, hcounts, hpiled', hopen⟩
        · rw [herror]
          exact hout.not_tooDeep
        · rw [hopen, hcount]
          refine walkChildren_manages hb hts ?_ hcounts hchildren hpiled'
          intro u hu p q frame s hdepicts hpiled
          have hless := Tree.nesting_le_nestingAll hu
          exact ih (by omega) hdepicts (depth + 1) c.offset hpiled
      · rw [enter_other hother]
        exact ⟨rfl, hpiled⟩

end Walk

/-! ### Comparing -/

section Compare

variable {b : Arena} {ext : External} {entries : List (List UInt8)} {t : Tree} {p q next : Place}
  {left : Bool}

/-- The comparison goes on, if it does, behind the tree on one of the sides, and nothing that was
borrowed is kept. -/
def Resumes (b : Arena) (entries : List (List UInt8)) (left : Bool) (next : Place) (verdict : Verdict)
    (a : Arena) : Prop :=
  ∀ p q, verdict = .tied p q → cond left p q = next ∧ Piled b entries a

theorem resumes_decided (order : Ordering) (a : Arena) :
    Resumes b entries left next (.decided order) a := nofun

theorem resumes_tied {a : Arena} (hnext : cond left p q = next) (hpiled : Piled b entries a) :
    Resumes b entries left next (.tied p q) a := by
  rintro _ _ ⟨⟩
  exact ⟨hnext, hpiled⟩

/-- Where a tree is depicted on one side, what is on the other decides the comparison at some time or
runs along with it. -/
theorem compareChildren_manages (hb : b.Bounded) {ts : List Tree}
    {children : Place → Place → CellM Verdict}
    (hchildren : ∀ t ∈ ts, ∀ p q next frame a, Depicts b ext t (cond left p q) next →
      Piled b (frame :: entries) a →
      Manages (Resumes b (frame :: entries) left next) (children p q a))
    {c : Counter} {frame : List UInt8} (hc : Counts b entries c frame) {last : Place} {n m : Nat}
    (hcount : ts.length = cond left n m + 1) (hdepicts : DepictsAll b ext ts (cond left p q) last)
    (hlast : (cond left c.resumeLeft c.resumeRight).getD last = next) {a : Arena}
    (hpiled : Piled b (frame :: entries) a) :
    Manages (Resumes b entries left next) (compareChildren children c (n + 1) (m + 1) p q a) := by
  induction ts generalizing n m p q frame a with
  | nil => contradiction
  | cons t rest ih =>
      obtain ⟨middle, ht, hrest⟩ := hdepicts
      rw [List.length_cons, Nat.succ_inj] at hcount
      rw [compareChildren]
      refine (hchildren t (.head _) p q middle frame a ht hpiled).bind fun verdict a hresumes => ?_
      cases verdict with
      | decided order => exact resumes_decided order a
      | tied p q =>
          obtain ⟨rfl, hpiled⟩ := hresumes p q rfl
          cases n with
          | zero =>
              cases m with
              | succ m => exact resumes_decided .lt a
              | zero =>
                  have hempty : rest = [] := by
                    rw [Bool.cond_self] at hcount
                    exact List.eq_nil_of_length_eq_zero hcount
                  subst hempty
                  have hlast' : last = cond left p q := hrest
                  obtain ⟨a', hpop, hpiled'⟩ := hc.pop_ok hb hpiled
                  change Manages (Resumes b entries left next) ((do
                    c.pop
                    return .tied (c.resumeLeft.getD p) (c.resumeRight.getD q) : CellM Verdict) a)
                  rw [bind_ok hpop]
                  refine resumes_tied ?_ hpiled'
                  rw [← hlast, hlast']
                  cases left <;> rfl
          | succ n =>
              cases m with
              | zero => exact resumes_decided .gt a
              | succ m =>
                  obtain ⟨a', hupdate, hcounts, hpiled'⟩ :=
                    hc.update_ok hb hpiled (n + 1) (m + 1)
                  have hcount' : rest.length = cond left n m + 1 := by
                    rw [hcount]
                    cases left <;> rfl
                  change Manages (Resumes b entries left next) ((do
                    Counter.update { c with left := n + 1, right := m + 1 }
                    compareChildren children c (n + 1) (m + 1) p q : CellM Verdict) a)
                  rw [bind_ok hupdate]
                  exact ih (fun t ht => hchildren t (.tail _ ht)) hcounts hcount' hrest hpiled'

/-- Two lists are opened, or there is no memory for their counter. -/
theorem open_both_manages (hb : b.Bounded) {a : Arena} (hpiled : Piled b entries a)
    (below n m : Nat) (resumeLeft resumeRight : Option Place) {goOn : Counter → CellM Verdict}
    (hnext : ∀ c frame a, Counts b entries c frame → Piled b (frame :: entries) a →
      c.resumeLeft = resumeLeft → c.resumeRight = resumeRight →
      Manages (Resumes b entries left next) (goOn c a)) :
    Manages (Resumes b entries left next)
      ((do let c ← Counter.push below n m resumeLeft resumeRight
           goOn c : CellM Verdict) a) := by
  rcases push_ok hb hpiled below n m resumeLeft resumeRight goOn with
    ⟨e, a', more, hout, -, herror, -⟩ | ⟨c, frame, a', hcounts, hpiled', hleft, hright, hopen⟩
  · rw [herror]
    exact hout.not_tooDeep
  · rw [hopen]
    exact hnext c frame a' hcounts hpiled' hleft hright

/-- What a comparison comes upon where a tree is depicted: a list with children, or a cell that has
nothing to open. -/
theorem Depicts.opened (h : Depicts b ext t p q) : ∃ header after,
    load b ext p = .ok header ∧ step p header.footprint = .ok after ∧
      ((∃ sigil ts linked first last, t = .list sigil ts ∧ ts ≠ [] ∧
          header = .list ts.length sigil linked ∧ body b ext p header = .ok first ∧
          DepictsAll b ext ts first last ∧ (if linked then some after else none).getD last = q) ∨
        after = q ∧ ∀ count sigil linked, header = .list count sigil linked → count = 0) := by
  cases t with
  | symbol sigil quoted chars =>
      obtain ⟨linked, hash, text, hload, -, -, hstep⟩ := h
      exact ⟨_, q, hload, hstep, .inr ⟨rfl, nofun⟩⟩
  | integer value => exact ⟨_, q, h.1, h.2, .inr ⟨rfl, nofun⟩⟩
  | list sigil ts =>
      cases ts with
      | nil =>
          obtain ⟨linked, next, hload, hstep, hnext⟩ := h.list_next
          refine ⟨_, next, hload, hstep, .inr ⟨hnext rfl, ?_⟩⟩
          rintro _ _ _ ⟨⟩
          rfl
      | cons u us =>
          obtain ⟨linked, first, last, next, hload, hbody, hchildren, hstep, hq⟩ := h
          refine ⟨_, next, hload, hstep, .inl ⟨sigil, u :: us, linked, first, last, rfl,
            List.cons_ne_nil u us, rfl, hbody, hchildren, ?_⟩⟩
          rw [hq]
          cases linked <;> rfl

/-- What is the same on the side of the tree is known of it. -/
theorem eq_cond {x y z : α} {f : Place → Except Fault α} (hz : f (cond left p q) = .ok z)
    (hx : f p = .ok x) (hy : f q = .ok y) : cond left x y = z := by
  cases left with
  | true => exact Except.ok.inj (hx.symm.trans hz)
  | false => exact Except.ok.inj (hy.symm.trans hz)

/-- Two lists with children, the one on the side of the tree among them, are opened. -/
theorem compareLists_manages (hb : b.Bounded) {levels below n m : Nat} {ts : List Tree}
    {leftSigil rightSigil sigil : Sigil} {leftLinked rightLinked linked : Bool}
    {first last nextLeft nextRight : Place}
    (hheader : cond left (.list (n + 1) leftSigil leftLinked) (.list (m + 1) rightSigil rightLinked) =
      Header.list ts.length sigil linked)
    (hbody : body b ext (cond left p q) (.list ts.length sigil linked) = .ok first)
    (hdepicts : DepictsAll b ext ts first last)
    (hlast : (if linked then some (cond left nextLeft nextRight) else none).getD last = next)
    (hpairs : ∀ t ∈ ts, ∀ entries below p q next a, Depicts b ext t (cond left p q) next →
      Piled b entries a → Manages (Resumes b entries left next) (compareTrees ext levels below p q a))
    {a : Arena} (hpiled : Piled b entries a) :
    Manages (Resumes b entries left next)
      ((do let c ← Counter.push below (n + 1) (m + 1) (if leftLinked then some nextLeft else none)
             (if rightLinked then some nextRight else none)
           let leftBody ← consult (body · ext p (.list (n + 1) leftSigil leftLinked))
           let rightBody ← consult (body · ext q (.list (m + 1) rightSigil rightLinked))
           compareChildren (compareTrees ext levels c.offset) c (n + 1) (m + 1) leftBody rightBody
             : CellM Verdict) a) := by
  obtain ⟨k, hk⟩ : ∃ k, ts.length = k + 1 := by
    cases left with
    | true => exact ⟨n, by injection hheader with hcount; exact hcount.symm⟩
    | false => exact ⟨m, by injection hheader with hcount; exact hcount.symm⟩
  rw [hk] at hheader hbody
  refine open_both_manages hb hpiled _ _ _ _ _ fun c frame a hcounts hpiled hresume hresume' => ?_
  have hbody' := (retains_of_piled hb hpiled).body hbody
  refine (manages_consult (body_shallow a ext p _)).bind fun leftBody _ h => ?_
  obtain ⟨hleftBody, rfl⟩ := h
  refine (manages_consult (body_shallow _ ext q _)).bind fun rightBody a h => ?_
  obtain ⟨hrightBody, rfl⟩ := h
  have hcount : ts.length = cond left n m + 1 := by
    rw [hk]
    cases left with
    | true => cases hheader; rfl
    | false => cases hheader; rfl
  have hfirst : cond left leftBody rightBody = first := by
    cases left with
    | true => cases hheader; exact Except.ok.inj (hleftBody.symm.trans hbody')
    | false => cases hheader; exact Except.ok.inj (hrightBody.symm.trans hbody')
  have hresumed : (cond left c.resumeLeft c.resumeRight).getD last = next := by
    rw [hresume, hresume', ← hlast]
    cases left with
    | true => cases hheader; rfl
    | false => cases hheader; rfl
  refine compareChildren_manages hb ?_ hcounts hcount (hfirst.symm ▸ hdepicts) hresumed hpiled
  exact fun u hu p q next frame a hdepicts hpiled =>
    hpairs u hu _ c.offset p q next a hdepicts hpiled

/-- Two cells are compared as such; where they are lists with children these are compared at one level
less. -/
theorem compareTrees_manages_of (hb : b.Bounded) {levels : Nat}
    (hless : ∀ l, levels = l + 1 → ∀ {t : Tree}, t.nesting ≤ l → ∀ entries below p q next a,
      Depicts b ext t (cond left p q) next → Piled b entries a →
      Manages (Resumes b entries left next) (compareTrees ext l below p q a))
    (hlevels : t.nesting ≤ levels) (ht : Depicts b ext t (cond left p q) next) (below : Nat) {a : Arena}
    (hpiled : Piled b entries a) :
    Manages (Resumes b entries left next) (compareTrees ext levels below p q a) := by
  have hretains : Retains ext b a := retains_of_piled hb hpiled
  obtain ⟨header, after, hload, hstep, hopened⟩ := ht.opened
  rw [compareTrees.eq_def]
  dsimp only
  refine (manages_consult (load_shallow a ext p)).bind fun x _ h => ?_
  obtain ⟨hx, rfl⟩ := h
  refine (manages_consult (load_shallow _ ext q)).bind fun y a h => ?_
  obtain ⟨hy, rfl⟩ := h
  have hheader : cond left x y = header := eq_cond (hretains.load hload) hx hy
  refine manages_ite (fun _ => resumes_decided _ _) fun htag => ?_
  refine (manages_consult (step_shallow p x.footprint)).bind fun nextLeft _ h => ?_
  obtain ⟨hleft, rfl⟩ := h
  refine (manages_consult (step_shallow q y.footprint)).bind fun nextRight a h => ?_
  obtain ⟨hright, rfl⟩ := h
  have hafter : cond left nextLeft nextRight = after := by
    subst hheader
    cases left with
    | true => exact Except.ok.inj (hleft.symm.trans hstep)
    | false => exact Except.ok.inj (hright.symm.trans hstep)
  have hflat : (∀ count sigil linked, cond left x y = .list count sigil linked → count = 0) →
      cond left nextLeft nextRight = next := by
    intro hflat
    rcases hopened with ⟨sigil, ts, linked, _, _, _, hts, rfl, _⟩ | ⟨hnext, -⟩
    · exact (hts (List.eq_nil_of_length_eq_zero (hflat _ _ _ hheader))).elim
    · exact hafter.trans hnext
  split
  · have hnext := hflat (by cases left <;> exact fun _ _ _ => Header.noConfusion)
    refine (manages_consult (compareSymbols_shallow _ ext p q)).bind fun order a h => ?_
    obtain ⟨-, rfl⟩ := h
    cases order with
    | eq => exact resumes_tied hnext hpiled
    | lt | gt => exact resumes_decided _ _
  · have hnext := hflat (by cases left <;> exact fun _ _ _ => Header.noConfusion)
    exact manages_ite (fun _ => resumes_tied hnext hpiled) fun _ => resumes_decided _ _
  · rename_i n sigil leftLinked m sigil' rightLinked
    refine manages_ite (fun _ => resumes_decided _ _) fun _ => ?_
    refine manages_ite (fun hempty => ?_) fun hboth => ?_
    · refine manages_ite (fun hsame => ?_) fun _ => resumes_decided _ _
      have hnone : n = 0 ∧ m = 0 := by omega
      refine resumes_tied (hflat ?_) hpiled
      intro count sigil linked hlist
      cases left with
      | true => cases hlist; exact hnone.1
      | false => cases hlist; exact hnone.2
    · obtain ⟨n, rfl⟩ := Nat.exists_eq_succ_of_ne_zero fun hn => hboth (.inl hn)
      obtain ⟨m, rfl⟩ := Nat.exists_eq_succ_of_ne_zero fun hm => hboth (.inr hm)
      rcases hopened with
        ⟨sigil, ts, linked, first, last, rfl, hts, hlist, hbody, hchildren, hlast⟩ | ⟨-, hnone⟩
      · rw [Tree.nesting, if_neg hts] at hlevels
        obtain ⟨levels, rfl⟩ : ∃ l, levels = l + 1 := ⟨levels - 1, by omega⟩
        rw [hlist] at hheader hbody
        rw [← hafter] at hlast
        refine compareLists_manages hb hheader hbody hchildren hlast (fun u hu => ?_) hpiled
        have hunder := Tree.nesting_le_nestingAll hu
        exact hless levels rfl (by omega)
      · exfalso
        cases left with
        | true => exact absurd (hnone _ _ _ hheader.symm) (Nat.succ_ne_zero n)
        | false => exact absurd (hnone _ _ _ hheader.symm) (Nat.succ_ne_zero m)
  · exact Fault.not_tooDeep fun _ => Fault.noConfusion

/-- Where a tree with no more levels than are left is on one side, a comparison is decided or goes on
behind the tree. -/
theorem compareTrees_manages (hb : b.Bounded) {levels : Nat} (hlevels : t.nesting ≤ levels)
    (ht : Depicts b ext t (cond left p q) next) (below : Nat) {a : Arena}
    (hpiled : Piled b entries a) :
    Manages (Resumes b entries left next) (compareTrees ext levels below p q a) := by
  induction levels generalizing t below p q next entries a with
  | zero =>
      exact compareTrees_manages_of hb (fun l hl => (Nat.succ_ne_zero l hl.symm).elim) hlevels ht below
        hpiled
  | succ levels ih =>
      refine compareTrees_manages_of hb (fun l hl t hlevels entries below p q next a ht hpiled => ?_)
        hlevels ht below hpiled
      cases hl
      exact ih hlevels ht below hpiled

end Compare

/-! ### Whole traversals -/

section Whole

variable {b : Arena} {ext : External} {t : Tree} {p q : Place}

/-- Taking a mark and going back to it fail for reasons of their own. -/
theorem manages_borrow [MonadLiftT ArenaM (EStateM Fault σ)] {post : α → Prop}
    (hlift : ∀ {γ : Type} (request : ArenaM γ) (s : σ),
      Manages (fun _ _ => True) ((liftM request : EStateM Fault σ γ) s))
    {body : EStateM Fault σ α} {s : σ}
    (hbody : ∀ m t, (liftM (Arena.mark .backward) : EStateM Fault σ Mark) s = .ok m t →
      Manages (fun x _ => post x) (body t)) :
    Manages (fun x _ => post x) (Arena.borrow body s) := by
  rw [Arena.borrow]
  cases hmark : (liftM (Arena.mark .backward) : EStateM Fault σ Mark) s with
  | error e t =>
      have herror := hlift (Arena.mark .backward) s
      rw [hmark] at herror
      rw [bind_error hmark]
      exact herror
  | ok m t =>
      have hanswer := hbody m t hmark
      rw [bind_ok hmark]
      cases hresult : body t with
      | ok x u =>
          rw [hresult] at hanswer
          rw [bind_ok (attempt_ok hresult)]
          exact (hlift _ u).bind fun _ _ _ => hanswer
      | error e u =>
          rw [hresult] at hanswer
          rw [bind_ok (attempt_error hresult)]
          exact (hlift _ u).bind fun _ _ _ => hanswer

theorem manages_tour_arena (request : ArenaM α) (s : Tour σ) :
    Manages (fun _ _ => True) ((liftM request : TourM σ α) s) := by
  cases hrequest : request s.arena with
  | ok x a =>
      rw [show s = ⟨s.arena, s.seen⟩ from rfl, tour_arena_ok hrequest]
      trivial
  | error e a =>
      rw [show s = ⟨s.arena, s.seen⟩ from rfl, tour_arena_error hrequest]
      rintro ⟨levels, h⟩
      cases h

/-- No walk through a tree with as many levels as there are counters fails over them; only the visitor
may do so. -/
theorem Depicts.walk_manages (hb : b.Bounded) (ht : Depicts b ext t p q)
    (hnesting : t.nesting ≤ maxNesting) {visit : Visit → EStateM Fault σ Unit}
    (hvisit : ∀ v seen, Manages (fun _ _ => True) (visit v seen)) (seen : σ) :
    Manages (fun x _ => x = q) (walk ext visit p ⟨b, seen⟩) := by
  refine manages_borrow manages_tour_arena fun m s hmark => ?_
  cases htaken : Arena.mark .backward b with
  | error e a =>
      rw [tour_arena_error htaken] at hmark
      contradiction
  | ok m a =>
      rw [tour_arena_ok htaken] at hmark
      injection hmark with _ hs
      subst hs
      have hpiled := Arena.piled_of_mark hb htaken
      exact (walkTree_manages hb hvisit hnesting ht 0 0 hpiled).imp fun x s h => h.1

theorem Manages.run {tour : TourM σ α} {post : α → Prop} {seen : σ} {a : Arena}
    (h : Manages (fun x _ => post x) (tour ⟨a, seen⟩)) :
    Manages (fun x _ => post x.1) (tour.run seen a) := by
  rw [TourM.run]
  cases hresult : tour ⟨a, seen⟩ with
  | ok x s =>
      rw [hresult] at h
      exact h
  | error e s =>
      rw [hresult] at h
      exact h

theorem Depicts.advance_manages (hb : b.Bounded) (ht : Depicts b ext t p q)
    (hnesting : t.nesting ≤ maxNesting) : Manages (fun x _ => x = q) (advance ext p b) := by
  refine (ht.walk_manages hb hnesting (fun _ _ => ?_) ()).run.bind fun _ _ h => ?_
  · exact trivial
  · exact h

theorem Depicts.treeLength_manages (hb : b.Bounded) (ht : Depicts b ext t p q)
    (hnesting : t.nesting ≤ maxNesting) : Manages (fun _ _ => True) (treeLength ext p b) := by
  refine (ht.advance_manages hb hnesting).bind fun _ _ _ => ?_
  exact trivial

theorem Depicts.countCells_manages (hb : b.Bounded) (ht : Depicts b ext t p q)
    (hnesting : t.nesting ≤ maxNesting) : Manages (fun _ _ => True) (countCells ext p b) := by
  refine (ht.walk_manages hb hnesting (fun _ _ => ?_) 0).run.bind fun _ _ _ => ?_
  · exact trivial
  · exact trivial

/-- No comparison with a tree that has as many levels as there are counters fails over them, whatever
it is compared with and on which side. -/
theorem Depicts.compare_manages {left : Bool} {next : Place} (hb : b.Bounded)
    (ht : Depicts b ext t (cond left p q) next) (hnesting : t.nesting ≤ maxNesting) :
    Manages (fun _ _ => True) (compare ext p q b) := by
  refine manages_borrow (fun request s => (manages_arena request s).imp fun _ _ _ => trivial)
    fun m a hmark => ?_
  cases htaken : Arena.mark .backward b with
  | error e a' =>
      rw [cell_error htaken] at hmark
      contradiction
  | ok m a' =>
      rw [cell_ok htaken] at hmark
      injection hmark with _ ha
      subst ha
      have hpiled := Arena.piled_of_mark hb htaken
      refine (compareTrees_manages hb hnesting ht 0 hpiled).bind fun verdict a _ => ?_
      cases verdict <;> trivial

end Whole

/-! ### Deeper trees -/

section Deep

variable {b : Arena} {ext : External} {entries : List (List UInt8)} {levels n : Nat} {p : Place}
  {visit : Visit → EStateM Fault σ Unit} {seen : σ}

/-- A walk that has come to lists that are nested too deeply, unless there is no memory for `n`
counters. -/
def Overflows (b : Arena) (entries : List (List UInt8)) (n : Nat)
    (result : EStateM.Result Fault (Tour σ) α) : Prop :=
  ∃ e s, result = .error e s ∧ (e = .depthExceeded maxNesting ∨ e.RanOut ∧ ¬ Room b entries n)

theorem tell_shown (hvisit : ∀ v seen, ∃ seen', visit v seen = .ok () seen') (visits : List Visit)
    (seen : σ) : ∃ seen', tell visit visits seen = .ok () seen' := by
  induction visits generalizing seen with
  | nil => exact ⟨seen, rfl⟩
  | cons v rest ih =>
      obtain ⟨seen', hshown⟩ := hvisit v seen
      obtain ⟨seen'', hrest⟩ := ih seen'
      exact ⟨seen'', by rw [tell_cons, bind_ok hshown, hrest]⟩

/-- The first child that is too deep ends the walk, if the ones before it do not. -/
theorem walkChildren_overflows (hb : b.Bounded)
    (hvisit : ∀ v seen, ∃ seen', visit v seen = .ok () seen') (depth : Nat)
    {child : Place → TourM σ Place} {ts : List CellTree} (hdeep : levels < CellTree.nestingAll ts)
    (hfit : ∀ t ∈ ts, t.nesting ≤ levels → ∀ p frame a seen, Written b ext p t.encode →
      Piled b (frame :: entries) a →
      Walked b (frame :: entries) t.nesting visit (t.visits p depth) seen
        (p.after t.encode.length) (child p ⟨a, seen⟩))
    (hunfit : ∀ t ∈ ts, levels < t.nesting → ∀ p frame a seen, Written b ext p t.encode →
      Piled b (frame :: entries) a → Overflows b (frame :: entries) levels (child p ⟨a, seen⟩))
    {c : Counter} {frame : List UInt8} (hc : Counts b entries c frame)
    (hwritten : Written b ext p (CellTree.encodeAll ts)) {a : Arena}
    (hpiled : Piled b (frame :: entries) a) :
    Overflows b entries (levels + 1) (walkChildren child c ts.length p ⟨a, seen⟩) := by
  induction ts generalizing p frame a seen with
  | nil => contradiction
  | cons t ts ih =>
      rw [List.length_cons, walkChildren]
      by_cases ht : t.nesting ≤ levels
      · have hwalked := hfit t (.head _) ht p frame a seen hwritten.left hpiled
        obtain ⟨seen', htell⟩ := tell_shown hvisit (t.visits p depth) seen
        generalize hresult : child p ⟨a, seen⟩ = result at hwalked
        cases hwalked with
        | refused hseen _ =>
            rw [htell] at hseen
            contradiction
        | ranOut _ _ hout _ hshort =>
            rw [room_counted hc.length] at hshort
            refine ⟨_, _, bind_error hresult, .inr ⟨hout, fun hroom => hshort (hroom.of_le ?_)⟩⟩
            exact Nat.succ_le_succ ht
        | @ended a₁ seen₁ _ hpiled' _ =>
            have hrest : levels < CellTree.nestingAll ts := by
              rw [CellTree.nestingAll] at hdeep
              omega
            obtain ⟨a₂, hupdate, hcounts, hpiled''⟩ :=
              hc.update_ok hb hpiled' ts.length c.right
            have hcount : (liftM (Counter.update { c with left := ts.length }) : TourM σ Unit)
                ⟨a₁, seen₁⟩ = .ok () ⟨a₂, seen₁⟩ := tour_cell_ok hupdate
            have hmore : ts.length ≠ 0 := by
              intro hnone
              rw [List.eq_nil_of_length_eq_zero hnone] at hrest
              contradiction
            rw [bind_ok hresult]
            refine (congrFun (if_neg hmore) (⟨a₁, seen₁⟩ : Tour σ)).symm ▸ ?_
            rw [bind_ok hcount]
            exact ih hrest (fun u hu => hfit u (.tail _ hu)) (fun u hu => hunfit u (.tail _ hu))
              hcounts hwritten.right hpiled''
      · obtain ⟨e, s, herror, hcause⟩ :=
          hunfit t (.head _) (Nat.lt_of_not_le ht) p frame a seen hwritten.left hpiled
        rw [room_counted hc.length] at hcause
        exact ⟨e, s, bind_error herror, hcause⟩

/-- A tree with levels is a list with children, which are written after its header. -/
theorem Written.children {t : CellTree} (hwritten : Written b ext p t.encode) (hfits : t.Fits)
    (hdeep : n < t.nesting) : ∃ sigil u us, t = .list sigil (u :: us) ∧
      n ≤ CellTree.nestingAll (u :: us) ∧
      load b ext p = .ok (.list (us.length + 1) sigil false) ∧
      p.offset + Header.listLength ≤ Place.maxOffset ∧
      Written b ext (p.after Header.listLength) (CellTree.encodeAll (u :: us)) := by
  cases t with
  | leaf header body => contradiction
  | list sigil children =>
      cases children with
      | nil => contradiction
      | cons u us =>
          have hoffset := hwritten.offset
          rw [CellTree.encode] at hwritten hoffset
          rw [List.length_append, Header.length_encode] at hoffset
          have hheader : (Header.list (us.length + 1) sigil false).Fits := hfits.1
          have hchildren := hwritten.right
          rw [Header.length_encode] at hchildren
          refine ⟨sigil, u, us, rfl, Nat.le_of_lt_succ hdeep, load_written hheader hwritten, ?_,
            hchildren⟩
          exact Nat.le_trans (Nat.add_le_add_left (Nat.le_add_right ..) _) hoffset

/-- A cell is shown to a visitor that never refuses, and then entered. -/
theorem walkTree_shown (hvisit : ∀ v seen, ∃ seen', visit v seen = .ok () seen') {header : Header}
    {a : Arena} (hload : load a ext p = .ok header)
    (hoffset : p.offset + header.footprint ≤ Place.maxOffset) (levels depth below : Nat) (seen : σ) :
    ∃ seen', walkTree ext visit levels depth below p ⟨a, seen⟩ =
      enter ext visit levels depth below (p.after header.footprint) header ⟨a, seen'⟩ := by
  obtain ⟨seen', hshown⟩ := hvisit ⟨p, header, depth⟩ seen
  have hheader : (liftM (consult (load · ext p)) : TourM σ Header) ⟨a, seen⟩ =
      .ok header ⟨a, seen⟩ := tour_cell_ok (consult_ok hload)
  have hstep : (liftM (consult fun _ => step p header.footprint) : TourM σ Place) ⟨a, seen'⟩ =
      .ok (p.after header.footprint) ⟨a, seen'⟩ := tour_cell_ok (consult_ok (step_ok hoffset))
  refine ⟨seen', ?_⟩
  rw [walkTree_eq, bind_ok hheader, bind_ok (tour_visit_ok hshown), bind_ok hstep]

/-- A walk through a written tree with more levels than are left overflows. -/
theorem walkTree_overflows (hb : b.Bounded)
    (hvisit : ∀ v seen, ∃ seen', visit v seen = .ok () seen') {t : CellTree} (hfits : t.Fits)
    (hdeep : levels < t.nesting) (hwritten : Written b ext p t.encode) (depth below : Nat)
    {a : Arena} (hpiled : Piled b entries a) :
    Overflows b entries levels (walkTree ext visit levels depth below p ⟨a, seen⟩) := by
  induction levels generalizing t p depth below entries seen a with
  | zero =>
      obtain ⟨sigil, u, us, rfl, -, hload, hoffset, -⟩ := hwritten.children hfits hdeep
      obtain ⟨seen', hentered⟩ := walkTree_shown hvisit ((retains_of_piled hb hpiled).load hload)
        hoffset 0 depth below seen
      rw [hentered]
      exact ⟨_, _, rfl, .inl rfl⟩
  | succ levels ih =>
      obtain ⟨sigil, u, us, rfl, hless, hload, hoffset, hchildren⟩ := hwritten.children hfits hdeep
      obtain ⟨seen', hentered⟩ := walkTree_shown hvisit ((retains_of_piled hb hpiled).load hload)
        hoffset (levels + 1) depth below seen
      have hall := CellTree.fitAll_iff.1 hfits.2
      rw [hentered, enter]
      rcases open_ok hb hpiled below (us.length + 1) seen' fun c =>
          walkChildren (walkTree ext visit levels (depth + 1) c.offset) c (us.length + 1)
            (p.after (Header.list (us.length + 1) sigil false).footprint) with
        ⟨e, a', left, hout, -, hshort, herror⟩ | ⟨c, frame, a', hcounts, hpiled', hopen⟩
      · rw [herror]
        exact ⟨e, _, rfl, .inr ⟨hout, fun hroom => hshort (hroom.of_le (Nat.le_add_left ..))⟩⟩
      · rw [hopen]
        refine walkChildren_overflows hb hvisit (depth + 1) hless ?_ ?_ hcounts hchildren hpiled'
        · exact fun t ht hfit p frame a seen hwritten hpiled =>
            walkTree_walked hb (hall t ht) hfit hwritten (depth + 1) c.offset seen hpiled
        · exact fun t ht hunfit p frame a seen hwritten hpiled =>
            ih (hall t ht) hunfit hwritten (depth + 1) c.offset hpiled

/-- A traversal of a tree with `n` levels, for which there has to be memory for `need` bytes. Unless
memory runs out, it fails over the levels exactly if these are too many. -/
def Measures (n need free : Nat) (result : EStateM.Result Fault σ α) : Prop :=
  (∃ e s, result = .error e s ∧ e.RanOut ∧ free < need) ∨
    ((∃ s, result = .error (.depthExceeded maxNesting) s) ↔ maxNesting < n)

/-- A walk through a written tree, with a visitor that never refuses, fails over the levels exactly if
the tree has more of them than there are counters. Besides a mark it takes a counter for each of them. -/
theorem walk_measures (hb : b.Bounded) (hvisit : ∀ v seen, ∃ seen', visit v seen = .ok () seen')
    {t : CellTree} (hfits : t.Fits) (hwritten : Written b ext p t.encode) (seen : σ) :
    Measures t.nesting (4 + 18 * min maxNesting t.nesting) b.free (walk ext visit p ⟨b, seen⟩) := by
  by_cases hnesting : t.nesting ≤ maxNesting
  · obtain ⟨seen', htell⟩ := tell_shown hvisit (t.visits p 0) seen
    have htoured := walk_toured hb hfits hnesting hwritten visit seen
    generalize walk ext visit p ⟨b, seen⟩ = result at htoured
    cases htoured with
    | ended hseen halike =>
        refine .inr ⟨?_, fun hdeep => absurd hnesting (Nat.not_le_of_lt hdeep)⟩
        rintro ⟨s, h⟩
        contradiction
    | refused hseen halike =>
        rw [htell] at hseen
        contradiction
    | ranOut hearly hseen hout halike hshort =>
        rw [Nat.min_eq_right hnesting]
        exact .inl ⟨_, _, rfl, hout, hshort⟩
  · rw [Nat.not_le] at hnesting
    rw [Nat.min_eq_left (Nat.le_of_lt hnesting), walk]
    rcases tour_borrow_ok hb (.refl hb.cursors) (walkTree ext visit maxNesting 0 0 p) seen with
      ⟨e, hout, herror, hshort⟩ | ⟨a, hmarked, hafter⟩
    · rw [Arena.markLength] at hshort
      exact .inl ⟨e, _, herror, hout, by omega⟩
    · obtain ⟨e, s, herror, hcause⟩ :=
        @walkTree_overflows _ _ _ _ _ _ _ seen hb hvisit _ hfits hnesting hwritten 0 0 _ hmarked
      have hreturns : Returns Tour.arena b [[]] (fun _ => True)
          (walkTree ext visit maxNesting 0 0 p ⟨a, seen⟩) :=
        walkTree_returns hb maxNesting 0 0 p hmarked
      obtain ⟨more, hpiled, -⟩ := hreturns
      rw [herror] at hpiled
      obtain ⟨a', -, -, hgiven⟩ := hafter hpiled
      rcases hcause with rfl | ⟨hout, hshort⟩
      · exact .inr ⟨fun _ => hnesting, fun _ => ⟨_, hgiven _ herror⟩⟩
      · exact .inl ⟨e, _, hgiven _ herror, hout, short_of_no_room hb hshort⟩

end Deep

end Cell

end FlatLisp
