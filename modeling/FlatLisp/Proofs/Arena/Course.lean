/-
Module: FlatLisp.Proofs.Arena.Course
Purpose: What rolling back tells of the time since a checkpoint. Between two moments a cursor may go
  back past where it was at the first and grow past it again. Rolling back looks only at the cursors
  and the records of the second. It is refused for certain after a cursor was moved back past the
  checkpoint by giving up marks, as long as no other mark has its record where the latest one had it.
Main exports: Arena.Moment, Arena.Next, Arena.Course, Arena.Trace.course, Arena.Ordered.next,
  Arena.restore_unpassed
-/
import Mathlib.Logic.Relation
import FlatLisp.Proofs.Arena.Shift

namespace FlatLisp

namespace Arena

/-- An arena, what its users know of it, and the records of the borrowings that have not ended, the
innermost first. -/
structure Moment where
  arena : Arena
  ledger : Ledger := {}
  scopes : List Nat := []

/-- The moment after a request. -/
def Moment.asked (x : Moment) (r : Request) : Moment :=
  ⟨r.act x.arena, x.ledger.asked x.arena r, x.scopes⟩

/-- What can come of a moment in one step, by a request that is `Allowed`. A borrowing is a step when
it begins, a step when it ends, and all the steps between. -/
inductive Next (Allowed : Arena → Request → Prop) (x : Moment) : Moment → Prop where
  | ask (r : Request) (hallowed : Allowed x.arena r) : Next Allowed x (x.asked r)
  | checkpoint : Next Allowed x ⟨x.arena, x.ledger.taken x.arena.checkpoint, x.scopes⟩
  | restore {c : Checkpoint} (hc : c ∈ x.ledger.checkpoints) :
      Next Allowed x ⟨after (Arena.restore c x.arena),
        x.ledger.settle (after (Arena.restore c x.arena)), x.scopes⟩
  | enter {m : Mark} {a : Arena} (hallowed : Allowed x.arena (.mark .backward))
      (hmark : mark .backward x.arena = .ok m a) :
      Next Allowed x ⟨a, x.ledger.asked x.arena (.mark .backward), m.record :: x.scopes⟩
  | leave {record : Nat} {scopes : List Nat} (hscopes : x.scopes = record :: scopes) :
      Next Allowed x ⟨after (unwind record x.arena),
        x.ledger.settle (after (unwind record x.arena)), scopes⟩

/-- One moment comes of another by any number of steps. -/
abbrev Course (Allowed : Arena → Request → Prop) : Moment → Moment → Prop :=
  Relation.ReflTransGen (Next Allowed)

section Course

variable {Allowed : Arena → Request → Prop} {a a' fresh : Arena} {L L' : Ledger} {S : Stacks}
  {x y z : Moment} {d : Direction} {record size : Nat}

theorem course_asked (rs : List Request) (hallowed : ∀ a, ∀ r ∈ rs, Allowed a r) :
    Course Allowed x (rs.foldl Moment.asked x) := by
  induction rs generalizing x with
  | nil => exact .refl
  | cons r rest ih =>
      obtain ⟨hr, hrest⟩ : (∀ a, Allowed a r) ∧ ∀ a, ∀ r ∈ rest, Allowed a r :=
        ⟨fun a => hallowed a r (.head _), fun a s hs => hallowed a s (.tail _ hs)⟩
      exact .head (.ask r (hr x.arena)) (ih hrest)

/-- Every trace is a course, in which its borrowings begin and end. -/
theorem Trace.course (trace : Trace Allowed a L a' L')
    (hallowed : ∀ a, Allowed a (.mark .backward)) (scopes : List Nat) :
    Course Allowed ⟨a, L, scopes⟩ ⟨a', L', scopes⟩ := by
  induction trace generalizing scopes with
  | refl => exact .refl
  | ask trace r hr ih => exact (ih scopes).tail (.ask r hr)
  | checkpoint trace ih => exact (ih scopes).tail .checkpoint
  | restore trace hc ih => exact (ih scopes).tail (.restore hc)
  | @scope _ a₁ a₂ _ _ _ _ m _ _ _ _ hwithin trace hmark body hafter inside ih ihinside =>
      have hentered := (ih scopes).tail (.enter (hallowed a₁) hmark)
      have hbody := hentered.trans (ihinside (m.record :: scopes))
      rw [after_borrow hwithin hmark, hafter]
      exact hbody.tail (.leave rfl)
  | refused hwithin trace hmark body ih =>
      rw [after_borrow_refused hwithin hmark]
      rcases mark_cases .backward _ with ⟨e, hcases⟩ | ⟨-, -, hcases⟩
      · cases hmark.symm.trans hcases
        exact ih scopes
      · cases hmark.symm.trans hcases

/-! ### One step -/

/-- An arena in order, with borrowings in it. -/
structure Ordered (x : Moment) (S : Stacks) : Prop extends Orderly x.arena S x.ledger where
  scopes : ∀ record ∈ x.scopes, record ≠ 0

theorem ordered_create (hcreate : create size = .ok fresh) : Ordered ⟨fresh, {}, []⟩ {} :=
  ⟨orderly_create hcreate, fun _ h => nomatch h⟩

/-- What a step from `x` to `y` does to the marks, the cursors and the checkpoints that are known. -/
structure Advances (Allowed : Arena → Request → Prop) (x : Moment) (S : Stacks) (y : Moment)
    (S' : Stacks) : Prop where
  ordered : Ordered y S'
  /-- The marks were there before, or have been asked for and taken. -/
  marks : ∀ d, ∀ e ∈ S'.of d, e ∈ S.of d ∨
    ∃ r, Allowed x.arena r ∧ r.Marks x.arena d ∧ e.record = x.arena.newRecord d
  shift : ∀ d, Shift x.ledger.checkpoints d (S.of d) (x.arena.settled d) (S'.of d)
    (y.arena.settled d)
  checkpoints : ∀ c ∈ y.ledger.checkpoints, c = x.arena.checkpoint ∨ c ∈ x.ledger.checkpoints

theorem Ordered.asked (h : Ordered x S) {r : Request} (hcareful : Careful x.arena r)
    (hallowed : Allowed x.arena r) : Advances Allowed x S (x.asked r) (r.track S x.arena) where
  ordered := ⟨h.act r hcareful, h.scopes⟩
  marks d e he := by
    rcases Request.mem_track he with he | ⟨hmarks, -, hrecord⟩
    · exact .inl he
    · exact .inr ⟨r, hallowed, hmarks, hrecord⟩
  shift d := h.act_shift r d
  checkpoints _ hc := .inr hc

theorem Ordered.restored (h : Ordered x S) {c : Checkpoint} (hc : c ∈ x.ledger.checkpoints) :
    ∃ S', Advances Allowed x S ⟨after (Arena.restore c x.arena),
      x.ledger.settle (after (Arena.restore c x.arena)), x.scopes⟩ S' := by
  obtain ⟨S', hsuffix, ho⟩ := h.toOrderly.restore hc
  refine ⟨S', ⟨ho, h.scopes⟩, fun d e he => .inl ((hsuffix d).subset he), fun d => ?_,
    fun _ hc => .inr hc⟩
  rcases Disciplined.restore_cases c x.arena with hrestore | ⟨-, hrestore⟩
  · rw [hrestore]
    exact .on (hsuffix d) (.refl ..)
  · have hsettled : (x.arena.restored c).settled d = c.cursor d := by
      cases d with
      | forward => exact Disciplined.settled_of_closed (Disciplined.closed_of_none rfl)
      | backward => rfl
    rw [hrestore, after, hsettled]
    exact .restored hc (hsuffix d)

/-- Each step keeps an arena in order. -/
theorem Ordered.next (h : Ordered x S) (hnext : Next Allowed x y)
    (hcareful : ∀ a r, Allowed a r → Careful a r) : ∃ S', Advances Allowed x S y S' := by
  cases hnext with
  | ask r hallowed => exact ⟨_, h.asked (hcareful _ _ hallowed) hallowed⟩
  | checkpoint =>
      exact ⟨S, ⟨h.toOrderly.checkpoint, h.scopes⟩, fun d e he => .inl he, fun d => .still rfl,
        fun c hc => List.mem_cons.1 hc⟩
  | restore hc => exact h.restored hc
  | @enter m a hallowed hmark =>
      have hasked := h.asked (r := .mark .backward) trivial hallowed
      have ha : Request.act x.arena (.mark .backward) = a := by rw [Request.act, hmark, after]
      have hordered := hasked.ordered
      have hshift := hasked.shift
      rw [Moment.asked, ha] at hordered hshift
      refine ⟨_, ⟨hordered.toOrderly, List.forall_mem_cons.2 ⟨?_, h.scopes⟩⟩, hasked.marks, hshift,
        fun _ hc => .inr hc⟩
      exact h.mark_record_pos hmark
  | @leave record scopes hscopes =>
      have hzero := h.scopes record (hscopes ▸ List.mem_cons_self ..)
      refine ⟨_, ⟨h.toOrderly.unwind hzero, fun r hr => ?_⟩,
        fun d e he => .inl (Stacks.mem_of_unwound he), fun d => h.unwind_shift hzero d,
        fun _ hc => .inr hc⟩
      exact h.scopes r (hscopes ▸ List.mem_cons_of_mem _ hr)

/-! ### Many steps -/

theorem Ordered.course (h : Ordered x S) (hcourse : Course Allowed x y)
    (hcareful : ∀ a r, Allowed a r → Careful a r) : ∃ S', Ordered y S' := by
  induction hcourse with
  | refl => exact ⟨S, h⟩
  | tail _ hnext ih =>
      obtain ⟨S', hordered⟩ := ih
      obtain ⟨S'', hadvances⟩ := hordered.next hnext hcareful
      exact ⟨S'', hadvances.ordered⟩

/-- No mark is taken on the cursor of `d` whose record would be at `record`. -/
def Elsewhere (d : Direction) (record : Nat) (a : Arena) (r : Request) : Prop :=
  r.Marks a d → a.newRecord d ≠ record

/-- A cursor is past what has settled. -/
theorem Disciplined.settled_grown (h : Disciplined a S) (d : Direction) :
    Grown d (a.settled d) (a.cursor d) := by
  cases d with
  | forward => exact h.settled
  | backward => exact Nat.le_refl _

/-- A record that is on no chain any more stays off until a mark is taken in its place. -/
theorem Ordered.not_mem_trail (h : Ordered x S) (hcourse : Course Allowed x y)
    (hcareful : ∀ a r, Allowed a r → Careful a r)
    (helsewhere : ∀ a r, Allowed a r → Elsewhere d record a r)
    (hoff : record ∉ x.arena.trail d) : record ∉ y.arena.trail d := by
  induction hcourse with
  | refl => exact hoff
  | @tail y z hcourse hnext ih =>
      obtain ⟨S', hordered⟩ := h.course hcourse hcareful
      obtain ⟨S'', hadvances⟩ := hordered.next hnext hcareful
      rw [hordered.trail_eq, List.mem_append, not_or] at ih
      rw [hadvances.ordered.trail_eq, List.mem_append, not_or]
      refine ⟨fun hmem => ?_, ih.2⟩
      obtain ⟨e, he, hrecord⟩ := List.mem_map.1 hmem
      rcases hadvances.marks d e he with hbefore | ⟨r, hallowed, hasked, hnew⟩
      · exact ih.1 (List.mem_map.2 ⟨e, hbefore, hrecord⟩)
      · exact helsewhere _ r hallowed hasked (hnew.symm.trans hrecord)

/-- While the latest mark of some moment is outstanding, nothing takes the cursor back past where it was
then, unless bytes were only set aside then or one rolls back to an earlier moment. -/
theorem Ordered.above (h : Ordered x S) (hsettled : x.arena.settled d = x.arena.cursor d)
    (hknown : ∀ c ∈ x.ledger.checkpoints, Grown d (x.arena.cursor d) (c.cursor d))
    (hcourse : Course Allowed x y) (hcareful : ∀ a r, Allowed a r → Careful a r)
    (helsewhere : ∀ a r, Allowed a r → Elsewhere d (x.arena.lastMark d) a r)
    (hlast : x.arena.lastMark d ∈ y.arena.trail d) :
    ∃ S', Ordered y S' ∧
      Above d (S.of d) (x.arena.cursor d) (S'.of d) (y.arena.settled d) ∧
      ∀ c ∈ y.ledger.checkpoints, Grown d (x.arena.cursor d) (c.cursor d) := by
  induction hcourse with
  | refl => exact ⟨S, h, ⟨⟨[], rfl, fun _ he => nomatch he⟩, hsettled ▸ .refl ..⟩, hknown⟩
  | @tail y z hcourse hnext ih =>
      -- A mark that is outstanding after the step was outstanding before it.
      obtain ⟨S₀, hordered₀⟩ := h.course hcourse hcareful
      have hbefore : x.arena.lastMark d ∈ y.arena.trail d :=
        Decidable.byContradiction fun hoff =>
          hordered₀.not_mem_trail (.single hnext) hcareful helsewhere hoff hlast
      obtain ⟨S', hordered, habove, hknown'⟩ := ih hbefore
      obtain ⟨S'', hadvances⟩ := hordered.next hnext hcareful
      have hpos : ∀ e ∈ S'.of d, e.record ≠ 0 := fun e he =>
        hordered.record_pos ((hordered.chained d).inRegion he)
      have hbase : S.of d <:+ S''.of d := by
        obtain ⟨newer, hnewer, -⟩ := habove.newer
        rw [hadvances.ordered.trail_eq, h.last] at hlast
        exact (hadvances.shift d).suffix (hordered.chained d) ⟨newer, hnewer.symm⟩ hpos hlast
      refine ⟨S'', hadvances.ordered, (hadvances.shift d).above habove hknown' hbase, ?_⟩
      intro c hc
      rcases hadvances.checkpoints c hc with rfl | hc
      · rw [cursor_checkpoint]
        exact habove.settled.trans (hordered.settled_grown d)
      · exact hknown' c hc

/-! ### Rolling back -/

/-- No record on a chain is written over, and no mark is taken where the latest ones of `x` were. -/
def Since (x : Moment) (a : Arena) (r : Request) : Prop :=
  Careful a r ∧ ∀ d, Elsewhere d (x.arena.lastMark d) a r

/-- The same moment, without the checkpoints that are before where its cursors stand. -/
def Moment.onwards (x : Moment) : Moment :=
  { x with
    ledger :=
      { x.ledger with
        checkpoints := x.ledger.checkpoints.filter fun c =>
          x.arena.forward ≤ c.forward ∧ c.backward ≤ x.arena.backward } }

theorem Moment.onwards_checkpoints {c : Checkpoint} (hc : c ∈ x.onwards.ledger.checkpoints)
    (d : Direction) : c ∈ x.ledger.checkpoints ∧ Grown d (x.arena.cursor d) (c.cursor d) := by
  obtain ⟨hmem, hcursors⟩ := List.mem_filter.1 hc
  obtain ⟨hforward, hbackward⟩ := of_decide_eq_true hcursors
  cases d with
  | forward => exact ⟨hmem, hforward⟩
  | backward => exact ⟨hmem, hbackward⟩

theorem Ordered.onwards (h : Ordered x S) : Ordered x.onwards S :=
  ⟨⟨h.toDisciplined, h.anchored, fun c hc =>
    h.checkpoints c (Moment.onwards_checkpoints hc .forward).1⟩, h.scopes⟩

/-- Rolling back is refused and changes nothing, or no cursor has been moved back past the checkpoint at
any moment `z` since. No reservation must have been open at the checkpoint, and since then no mark must
have come to be where the latest ones were, nor must one have rolled back to before the checkpoint:
rolling back cannot tell these from a time in which nothing was given back. -/
theorem restore_unpassed (hcreate : create size = .ok fresh)
    (hbefore : Course Careful ⟨fresh, {}, []⟩ x) (hclosed : Disciplined.Closed x.arena)
    (hsince : Course (Since x) x.onwards z) (hrest : Course (Since x) z y) :
    restore x.arena.checkpoint y.arena = .error .staleCheckpoint y.arena ∨
      restore x.arena.checkpoint y.arena = .ok () (y.arena.restored x.arena.checkpoint) ∧
        ∀ d, Grown d (x.arena.cursor d) (z.arena.cursor d) := by
  obtain ⟨S, hx⟩ := (ordered_create hcreate).course hbefore fun _ _ => id
  obtain ⟨S', hz⟩ := hx.onwards.course hsince fun _ _ => And.left
  rcases Disciplined.restore_cases x.arena.checkpoint y.arena with hstale | ⟨hreaches, hok⟩
  · exact .inl hstale
  · refine .inr ⟨hok, fun d => ?_⟩
    have hlast : x.arena.lastMark d ∈ y.arena.trail d := by
      cases d with
      | forward => exact hreaches.2.2.1
      | backward => exact hreaches.2.2.2
    have hthere : x.arena.lastMark d ∈ z.arena.trail d :=
      Decidable.byContradiction fun hoff =>
        hz.not_mem_trail hrest (fun _ _ => And.left) (fun _ _ h => h.2 d) hoff hlast
    have hsettled : x.onwards.arena.settled d = x.onwards.arena.cursor d := by
      cases d with
      | forward => exact Disciplined.settled_of_closed hclosed
      | backward => rfl
    obtain ⟨S'', hordered, habove, -⟩ := hx.onwards.above hsettled
      (fun c hc => (Moment.onwards_checkpoints hc d).2) hsince (fun _ _ => And.left)
      (fun _ _ h => h.2 d) hthere
    exact habove.settled.trans (hordered.settled_grown d)

/-- A mark is rewound that was taken some time before the checkpoint, and the cursor grows past where it
was. Rolling back is refused. -/
theorem restore_unpassed_rewound : ∃ fresh x z y, create 64 = .ok fresh ∧
    Course Careful ⟨fresh, {}, []⟩ x ∧ Disciplined.Closed x.arena ∧
    Course (Since x) x.onwards z ∧ Course (Since x) z y ∧
    z.arena.forward < x.arena.forward ∧ x.arena.forward < y.arena.forward ∧
    restore x.arena.checkpoint y.arena = .error .staleCheckpoint y.arena := by
  obtain ⟨fresh, hcreate⟩ : ∃ fresh, create 64 = .ok fresh := ⟨_, rfl⟩
  obtain ⟨x, hbefore, hx⟩ : ∃ x, Course Careful ⟨fresh, {}, []⟩ x ∧
      x = [.mark .forward, .alloc .forward 4].foldl Moment.asked ⟨fresh, {}, []⟩ :=
    ⟨_, course_asked _ (by simp [Careful]), rfl⟩
  obtain ⟨z, hsince, hz⟩ : ∃ z, Course (Since x) x.onwards z ∧
      z = [.rewind ⟨.forward, 2⟩].foldl Moment.asked x.onwards :=
    ⟨_, course_asked _ (by simp [Since, Careful, Elsewhere, Request.Marks]), rfl⟩
  obtain ⟨y, hrest, hy⟩ : ∃ y, Course (Since x) z y ∧
      y = [.alloc .forward 12].foldl Moment.asked z :=
    ⟨_, course_asked _ (by simp [Since, Careful, Elsewhere, Request.Marks]), rfl⟩
  have hclosed : Disciplined.Closed x.arena := by
    subst hx
    cases hcreate
    exact Disciplined.closed_of_none rfl
  have hunpassed := restore_unpassed hcreate hbefore hclosed hsince hrest
  subst hx hz hy
  cases hcreate
  refine ⟨_, _, _, _, rfl, hbefore, hclosed, hsince, hrest, by decide +kernel, by decide +kernel, ?_⟩
  rcases hunpassed with hstale | ⟨-, hgrown⟩
  · exact hstale
  · exact absurd (hgrown .forward) (show ¬ (10 ≤ 2) by decide)

/-- A mark is rewound that was taken right before the checkpoint, and another is taken in its place.
Rolling back is granted, although the cursor has been moved back past the checkpoint. -/
theorem restore_retaken : ∃ fresh x z y, create 64 = .ok fresh ∧
    Course Careful ⟨fresh, {}, []⟩ x ∧ Course Careful x z ∧ Course Careful z y ∧
    z.arena.forward < x.arena.forward ∧
    restore x.arena.checkpoint y.arena = .ok () (y.arena.restored x.arena.checkpoint) := by
  obtain ⟨fresh, hcreate⟩ : ∃ fresh, create 64 = .ok fresh := ⟨_, rfl⟩
  refine ⟨fresh, _, _, _, hcreate, course_asked [.mark .forward] (by simp [Careful]),
    course_asked [.rewind ⟨.forward, 2⟩] (by simp [Careful]),
    course_asked [.mark .forward] (by simp [Careful]), ?_, ?_⟩
  · cases hcreate
    decide +kernel
  · cases hcreate
    rfl

/-- Bytes that were only set aside at the checkpoint are given back, and handed out again to others.
Rolling back is granted. -/
theorem restore_regrown : ∃ fresh x z y, create 64 = .ok fresh ∧
    Course Careful ⟨fresh, {}, []⟩ x ∧ Course Careful x z ∧ Course Careful z y ∧
    z.arena.forward < x.arena.forward ∧
    restore x.arena.checkpoint y.arena = .ok () (y.arena.restored x.arena.checkpoint) := by
  obtain ⟨fresh, hcreate⟩ : ∃ fresh, create 64 = .ok fresh := ⟨_, rfl⟩
  refine ⟨fresh, _, _, _, hcreate, course_asked [.lock, .reserve ⟨1⟩ 10] (by simp [Careful]),
    course_asked [.unlock ⟨1⟩] (by simp [Careful]),
    course_asked [.alloc .forward 20] (by simp [Careful]), ?_, ?_⟩
  · cases hcreate
    decide +kernel
  · cases hcreate
    rfl

/-- All that was allocated between two checkpoints is given back by rolling back to the first, and as
much is handed out again. Rolling back to the second is granted. -/
theorem restore_rolled_back : ∃ fresh x z y, create 64 = .ok fresh ∧
    Course Careful ⟨fresh, {}, []⟩ x ∧ Course Careful x z ∧ Course Careful z y ∧
    z.arena.forward < x.arena.forward ∧
    restore x.arena.checkpoint y.arena = .ok () (y.arena.restored x.arena.checkpoint) := by
  obtain ⟨fresh, hcreate⟩ : ∃ fresh, create 64 = .ok fresh := ⟨_, rfl⟩
  have hbefore : Course Careful ⟨fresh, {}, []⟩
      (Moment.asked ⟨fresh, { checkpoints := [fresh.checkpoint] }, []⟩ (.alloc .forward 8)) :=
    .tail (.single .checkpoint) (.ask _ trivial)
  refine ⟨fresh, _, _, _, hcreate, hbefore, .single (.restore (List.mem_singleton.2 rfl)),
    course_asked [.alloc .forward 20] (by simp [Careful]), ?_, ?_⟩
  · cases hcreate
    decide +kernel
  · cases hcreate
    rfl

end Course

end Arena

end FlatLisp
