/-
Module: FlatLisp.Proofs.Printing.Turn
Purpose: What one round of a print does, whatever cells are printed. The open frames are a list, and a
  round changes the innermost one, puts one on top or takes it away, or the print is over. In which
  arena they are makes no difference as long as the live bytes are the same.
Main exports: Printing.Nests, Printing.Turn, Printing.Turns, Printing.Nests.push, Printing.exists_turn
-/
import FlatLisp.Proofs.Printing.Work

namespace FlatLisp

namespace Printing

open Arena (Piled pileTop pileMark pileCost)

/-! ### Open frames -/

/-- What is on the pile while the frames `fs` are open, the innermost first: these, and the mark of the
print itself. -/
def entries (fs : List Frame) : List (List UInt8) := fs.map Frame.encode ++ [[]]

@[simp] theorem entries_nil : entries [] = [[]] := rfl

@[simp] theorem entries_cons (f : Frame) (fs : List Frame) :
    entries (f :: fs) = f.encode :: entries fs := rfl

/-- The offset of the innermost frame; zero for none. -/
def frameTop (b : Arena) : List Frame → Nat
  | [] => 0
  | f :: fs => pileTop b (entries (f :: fs))

/-- Each frame knows the mark under it and the frame around it. -/
def Linked (b : Arena) : List Frame → Prop
  | [] => True
  | f :: fs =>
      f.Sound ∧ f.mark = pileMark b (entries (f :: fs)) ∧ f.below = frameTop b fs ∧ Linked b fs

/-- The job writes the value at `root`, the frames `fs` are open and nothing else has been borrowed
from the arena `b`. All but the innermost frame wait for a child. -/
structure Nests (b : Arena) (root : Place) (job : Job) (fs : List Frame) (a : Arena) : Prop where
  piled : Piled b (entries fs) a
  linked : Linked b fs
  waiting : ∀ g ∈ fs.tail, g.counter < Header.maxCount
  short : fs.length ≤ Cell.maxNesting + 1
  top : job.top = frameTop b fs
  depth : job.depth = fs.length
  root : job.root = root
  mark : job.mark = pileMark b [[]]

section Nests

variable {b b' a a' : Arena} {root : Place} {job : Job} {f next : Frame} {fs around : List Frame}
  {o : PrintOptions} {ext : External}

theorem frameTop_lt (hb : b.Bounded) (fs : List Frame) : frameTop b fs < 65536 := by
  cases fs with
  | nil => exact Nat.zero_lt_succ _
  | cons f fs => exact Piled.pileTop_lt hb _

theorem frameTop_alike (halike : b.Alike b') (fs : List Frame) : frameTop b' fs = frameTop b fs := by
  cases fs with
  | nil => rfl
  | cons f fs => exact halike.pileTop_eq _

theorem Linked.of_alike (halike : b.Alike b') (h : Linked b fs) : Linked b' fs := by
  induction fs with
  | nil => trivial
  | cons f fs ih =>
      obtain ⟨hsound, hmark, hbelow, hlinked⟩ := h
      exact ⟨hsound, hmark.trans (halike.pileMark_eq _).symm,
        hbelow.trans (frameTop_alike halike fs).symm, ih hlinked⟩

namespace Nests

theorem alike (hs : Nests b root job fs a) (hs' : Nests b' root job fs a') (halike : b.Alike b') :
    a.Alike a' :=
  hs.piled.alike_of_alike hs'.piled halike

/-- The frames are as well in an arena that is alike, on a base that is. -/
theorem of_alike (hb : b.Bounded) (hs : Nests b root job fs a) (halike : a.Alike a') :
    ∃ b', b.Alike b' ∧ Nests b' root job fs a' := by
  obtain ⟨b', hbase, hpiled⟩ := hs.piled.of_alike hb halike
  exact ⟨b', hbase, hpiled, hs.linked.of_alike hbase, hs.waiting, hs.short,
    hs.top.trans (frameTop_alike hbase fs).symm, hs.depth, hs.root,
    hs.mark.trans (hbase.pileMark_eq _).symm⟩

/-- Line ends and spaces are no business of the frames. -/
theorem respite (hs : Nests b root job fs a) (newline : Bool) (spaces : Nat) :
    Nests b root { job with newline, spaces } fs a :=
  ⟨hs.piled, hs.linked, hs.waiting, hs.short, hs.top, hs.depth, hs.root, hs.mark⟩

theorem sound (hs : Nests b root job (f :: around) a) : f.Sound := hs.linked.1

theorem stands (hs : Nests b root job (f :: around) a) (hnewline : job.newline = false)
    (hspaces : job.spaces = 0) : Stands b (entries around) job f a :=
  ⟨hs.piled, hs.top, hnewline, hspaces, hs.sound.fits, hs.linked.2.1⟩

/-- All of it lies on the mark of the print. -/
theorem on_mark (hs : Nests b root job fs a) : ∃ more, Piled b (more ++ [[]]) a :=
  ⟨_, hs.piled⟩

theorem store (hb : b.Bounded) (hs : Nests b root job (f :: around) a) (hsound : next.Sound)
    (hmark : next.mark = f.mark) (hbelow : next.below = f.below) :
    ∃ a', Frame.store job.top next a = .ok () a' ∧ Nests b root job (next :: around) a' := by
  obtain ⟨-, hmark', hbelow', hlinked⟩ := hs.linked
  have hlength : next.encode.length = f.encode.length := by
    rw [Frame.length_encode, Frame.length_encode]
  obtain ⟨a', hwrite, hpiled⟩ := hs.piled.write_ok hb hlength
  have hplace : pileTop b (entries (next :: around)) = pileTop b (entries (f :: around)) :=
    Arena.pileTop_congr hlength
  refine ⟨a', ?_, hpiled, ⟨hsound, hmark.trans hmark', hbelow.trans hbelow', hlinked⟩, hs.waiting,
    hs.short, hs.top.trans hplace.symm, hs.depth, hs.root, hs.mark⟩
  rw [Frame.store, hs.top]
  exact cell_ok hwrite

end Nests

/-! ### What is looked at -/

theorem move_alike {h : Header} (halike : b.Alike a) (top : Nat) :
    f.move o a ext top h = f.move o b ext top h := by
  simp only [Frame.move, Frame.symbolChar, Cell.body_alike halike, Cell.fetchByte_alike halike]

/-- The plan depends on the frames and on live bytes only. -/
theorem Nests.plan_eq (hs : Nests b root job fs a) (hs' : Nests b' root job fs a')
    (halike : b.Alike b') : plan o ext job a' = plan o ext job a := by
  have hsame := hs.alike hs' halike
  simp only [plan, Frame.load, hsame.bytes_eq, Cell.load_alike hsame, move_alike hsame]

/-- What is looked at before a frame is put on top: from where the parts of the value are written. -/
def survey (ext : External) (depth : Nat) (p : Place) (a : Arena) : Except Fault Place := do
  let h ← Cell.load a ext p
  if Cell.maxNesting < depth + opens h then .error (.depthExceeded Cell.maxNesting)
  else partsAt a ext p h

theorem survey_alike (halike : b.Alike a) (depth : Nat) (p : Place) :
    survey ext depth p a = survey ext depth p b := by
  simp only [survey, Cell.load_alike halike]
  congr 1
  funext h
  cases h with
  | list count sigil linked => simp only [partsAt, Cell.body_alike halike]
  | symbol | integer => rfl

theorem pushFrame_refused {p : Place} {e : Fault} (h : survey ext job.depth p a = .error e) :
    pushFrame ext job p a = .error e a := by
  rw [survey] at h
  cases hload : Cell.load a ext p with
  | error e' =>
      rw [hload] at h
      injection h with h
      exact h ▸ bind_error (by simp only [Cell.consult, hload])
  | ok header =>
      rw [hload] at h
      simp only [bind, Except.bind] at h
      rw [pushFrame, bind_ok (consult_ok hload)]
      dsimp only
      by_cases hdepth : Cell.maxNesting < job.depth + opens header
      · rw [if_pos hdepth] at h
        injection h with h
        subst h
        refine congrFun (if_pos ?_) a
        cases header with
        | list count sigil linked => cases count <;> exact hdepth
        | symbol | integer => exact hdepth
      · rw [if_neg hdepth] at h
        cases header with
        | list count sigil linked =>
            refine (congrFun (if_neg ?_) a).trans
              (bind_error (by simp only [Cell.consult, show Cell.body a ext p _ = .error e from h]))
            cases count <;> exact hdepth
        | symbol | integer => contradiction

theorem pushFrame_surveyed {p next : Place} (h : survey ext job.depth p a = .ok next) :
    pushFrame ext job p a = openFrame job p next a ∧ job.depth ≤ Cell.maxNesting ∧
      (p.offset < 65536 → next.offset < 65536) := by
  rw [survey] at h
  cases hload : Cell.load a ext p with
  | error e =>
      rw [hload] at h
      contradiction
  | ok header =>
      rw [hload] at h
      simp only [bind, Except.bind] at h
      split at h
      · contradiction
      · rename_i hdepth
        rw [Nat.not_lt] at hdepth
        refine ⟨pushFrame_eq hload h hdepth, Nat.le_trans (Nat.le_add_right ..) hdepth, ?_⟩
        intro hp
        cases header with
        | list count sigil linked => exact Nat.lt_succ_of_le (Cell.offset_of_body h).2
        | symbol | integer =>
            injection h with h
            exact h ▸ hp

/-- A frame is put on top, or the same error is met whichever arena the frames are in. -/
theorem Nests.push (hb : b.Bounded) (hs : Nests b root job fs a)
    (hwaiting : ∀ g ∈ fs, g.counter < Header.maxCount) {p : Place} (hp : p.offset < 65536)
    (ext : External) :
    (∃ e, ∀ b' a', b.Alike b' → Nests b' root job fs a' →
        ∃ more a'', pushFrame ext job p a' = .error e a'' ∧ Piled b' (more ++ [[]]) a'') ∨
      ∃ job' f, job' = { job with top := job'.top, depth := job.depth + 1 } ∧ f.stage = .sigil ∧
        ∀ b' a', b.Alike b' → Nests b' root job fs a' →
          ∃ a'', pushFrame ext job p a' = .ok job' a'' ∧ Nests b' root job' (f :: fs) a'' := by
  cases hsurvey : survey ext job.depth p a with
  | error e =>
      refine .inl ⟨e, fun b' a' halike hs' => ?_⟩
      obtain ⟨more, hpiled⟩ := hs'.on_mark
      exact ⟨more, a', pushFrame_refused
        ((survey_alike (hs.alike hs' halike) ..).trans hsurvey), hpiled⟩
  | ok next =>
      obtain ⟨-, hdepth, hnext⟩ := pushFrame_surveyed hsurvey
      have hopen : ∀ b' a', b.Alike b' → Nests b' root job fs a' →
          pushFrame ext job p a' = openFrame job p next a' := fun b' a' halike hs' =>
        (pushFrame_surveyed ((survey_alike (hs.alike hs' halike) ..).trans hsurvey)).1
      have htop : job.top < 65536 := hs.top ▸ frameTop_lt hb fs
      by_cases hshort : b.backward < b.forward + pileCost (entries fs) + 17
      · refine .inl ⟨.shortage Frame.length a.free, fun b' a' halike hs' => ?_⟩
        have hsame := hs.alike hs' halike
        have hfree : a'.free = a.free := by rw [Arena.free, Arena.free, hsame.forward, hsame.backward]
        rw [hopen b' a' halike hs', ← hfree]
        rcases openFrame_ok (halike.bounded hb) hs'.piled hp (hnext hp) htop with
          ⟨a'', more, herror, hpiled, -⟩ | ⟨f, a'', -, -, hpiled, -⟩
        · rw [entries, ← List.append_assoc] at hpiled
          exact ⟨_, a'', herror, hpiled⟩
        · have hroom := hpiled.room
          rw [Arena.pileCost_cons, Frame.length_encode, halike.forward, halike.backward] at hroom
          simp only [Arena.markLength, Frame.length] at hroom
          omega
      · refine .inr ⟨{ job with
            top := pileTop b ((freshFrame b (entries fs) p next job.top).encode :: entries fs)
            depth := job.depth + 1 }, freshFrame b (entries fs) p next job.top, rfl, rfl,
          fun b' a' halike hs' => ?_⟩
        have hfresh : freshFrame b' (entries fs) p next job.top =
            freshFrame b (entries fs) p next job.top := by
          rw [freshFrame, freshFrame, halike.pileTop_eq]
        rw [hopen b' a' halike hs']
        rcases openFrame_ok (halike.bounded hb) hs'.piled hp (hnext hp) htop with
          ⟨a'', more, -, -, -, hshort'⟩ | ⟨f, a'', rfl, hfits, hpiled, hopened⟩
        · rw [halike.forward, halike.backward] at hshort'
          exact absurd hshort' hshort
        · rw [hfresh] at hfits hpiled hopened
          rw [halike.pileTop_eq] at hopened
          refine ⟨a'', hopened, hpiled, ⟨⟨hfits, fun hescaped => by cases hescaped⟩, ?_,
            hs'.top, hs'.linked⟩, hwaiting, ?_,
            (halike.pileTop_eq _).symm, congrArg (· + 1) hs'.depth, hs'.root, hs'.mark⟩
          · rw [← hfresh]
            rfl
          · rw [List.length_cons, ← hs'.depth]
            exact Nat.succ_le_succ hdepth

end Nests

/-! ### Turns -/

/-- How a print goes on after a round. -/
inductive Turn where
  | more (job : Job) (f : Frame) (around : List Frame)
  | finished
  | failed (e : Fault)

/-- Fewer than `n` rounds are left. -/
def Turn.Within (o : PrintOptions) (n : Nat) : Turn → Prop
  | .more job f around => cost o job f around < n
  | .finished | .failed _ => True

theorem Turn.Within.mono {o : PrintOptions} {m n : Nat} {turn : Turn} (h : turn.Within o m)
    (hle : m ≤ n) : turn.Within o n := by
  cases turn with
  | more job f around => exact Nat.lt_of_lt_of_le h hle
  | finished | failed => trivial

/-- The planned continuation `next` of a round takes the turn in the arena `a`. -/
inductive Goes (b : Arena) (root : Place) (next : CellM (Option Job)) (a : Arena) : Turn → Prop where
  | more {job : Job} {f : Frame} {around : List Frame} {a' : Arena}
      (hnext : next a = .ok (some job) a') (hnests : Nests b root job (f :: around) a') :
      Goes b root next a (.more job f around)
  | finished {a' : Arena} (hnext : next a = .ok none a') (hpiled : Piled b [[]] a') :
      Goes b root next a .finished
  | failed {e : Fault} {a' : Arena} {more : List (List UInt8)} (hnext : next a = .error e a')
      (hpiled : Piled b (more ++ [[]]) a') : Goes b root next a (.failed e)

theorem Goes.of_eq {b a a' : Arena} {root : Place} {next next' : CellM (Option Job)} {turn : Turn}
    (h : Goes b root next a turn) (heq : next' a' = next a) : Goes b root next' a' turn := by
  cases h with
  | more hnext hnests => exact .more (heq.trans hnext) hnests
  | finished hnext hpiled => exact .finished (heq.trans hnext) hpiled
  | failed hnext hpiled => exact .failed (heq.trans hnext) hpiled

/-- A round offers the byte, if there is one, and takes the turn. -/
inductive Takes (o : PrintOptions) (ext : External) (b : Arena) (root : Place) (job : Job)
    (a : Arena) : Option UInt8 → Turn → Prop where
  | planned {byte : Option UInt8} {next : CellM (Option Job)} {turn : Turn}
      (hplan : plan o ext job a = .ok (byte, next)) (hgoes : Goes b root next a turn) :
      Takes o ext b root job a byte turn
  | stuck {e : Fault} {more : List (List UInt8)} (hplan : plan o ext job a = .error e)
      (hpiled : Piled b (more ++ [[]]) a) : Takes o ext b root job a none (.failed e)

/-- Wherever the frames are, a round takes the turn. -/
def Turns (o : PrintOptions) (ext : External) (b : Arena) (root : Place) (job : Job) (f : Frame)
    (around : List Frame) (byte : Option UInt8) (turn : Turn) : Prop :=
  ∀ b' a, b.Alike b' → Nests b' root job (f :: around) a → Takes o ext b' root job a byte turn

section Turns

variable {b b' a : Arena} {root : Place} {job : Job} {f : Frame} {around : List Frame}
  {o : PrintOptions} {ext : External} {h : Header}

theorem stop_offset {stop : Place} (hf : f.Fits) (hstop : f.stop h = .ok stop) :
    stop.offset < 65536 := by
  have hstep : ∀ count, Cell.step f.place count = .ok stop → stop.offset < 65536 := by
    intro count hstep
    obtain ⟨hoffset, rfl⟩ := Cell.offset_of_step hstep
    exact Nat.lt_succ_of_le hoffset
  rw [Frame.stop.eq_def] at hstop
  split at hstop
  · injection hstop with hstop
    exact hstop ▸ hf.next
  · exact hstep _ hstop

/-- The frame of a complete value is taken away, and the one around it is the innermost. -/
theorem Nests.pop (hb : b.Bounded) {g : Frame} (hs : Nests b root job (f :: g :: around) a)
    (hnewline : job.newline = false) (hspaces : job.spaces = 0) (ext : External) (stop : Place) :
    ∃ a', Nests b root { job with top := f.below, depth := job.depth - 1 } (g :: around) a' ∧
      popFrame ext job f stop a =
        countChild ext { job with top := f.below, depth := job.depth - 1 } g stop a' := by
  obtain ⟨-, -, hbelow, hlinked⟩ := hs.linked
  obtain ⟨a', hstands, hpop⟩ := @popFrame_eq _ _ _ _ ext hb f g stop (hs.stands hnewline hspaces)
    hbelow hlinked.1.fits hlinked.2.1
  refine ⟨a', ⟨hstands.piled, hlinked, fun g' hg' => hs.waiting g' (.tail _ hg'),
    Nat.le_of_succ_le hs.short, hbelow, ?_, hs.root, hs.mark⟩, hpop⟩
  rw [hs.depth]
  rfl

/-- A complete value is counted in the list around it, unless that is no list any more. -/
theorem exists_count (hb : b.Bounded) {stop : Place} (hstop : stop.offset < 65536)
    (hs : Nests b root job (f :: around) a) (hcounter : f.counter < Header.maxCount)
    (hnewline : job.newline = false) (hspaces : job.spaces = 0) (ext : External) :
    ∃ turn, turn.Within o (f.waiting o (Cell.maxNesting - around.length) + waitingWork o around) ∧
      ∀ b' a', b.Alike b' → Nests b' root job (f :: around) a' →
        Goes b' root (countChild ext job f stop) a' turn := by
  have hsame : ∀ b' a', b.Alike b' → Nests b' root job (f :: around) a' →
      Cell.load a' ext f.place = Cell.load a ext f.place := fun b' a' halike hs' =>
    Cell.load_alike (hs.alike hs' halike) _
  cases hload : Cell.load a ext f.place with
  | error e =>
      refine ⟨.failed e, trivial, fun b' a' halike hs' => ?_⟩
      obtain ⟨more, hpiled⟩ := hs'.on_mark
      refine .failed (bind_error ?_) hpiled
      simp only [Cell.consult, hsame b' a' halike hs', hload]
  | ok header =>
      have hconsult : ∀ b' a', b.Alike b' → Nests b' root job (f :: around) a' →
          Cell.consult (Cell.load · ext f.place) a' = .ok header a' := fun b' a' halike hs' =>
        consult_ok ((hsame b' a' halike hs').trans hload)
      cases header with
      | list count sigil linked =>
          have hcounted : (f.counted count stop).Sound := by
            refine ⟨⟨hs.sound.fits.place, hstop, ?_, hs.sound.fits.mark, hs.sound.fits.below⟩, ?_⟩
            · simp only [Header.maxCount] at hcounter
              exact Nat.lt_trans (Nat.succ_lt_succ hcounter) (by decide)
            · rw [Frame.counted]
              dsimp only
              split
              all_goals
                intro hescaped
                cases hescaped
          refine ⟨.more job (f.counted count stop) around, ?_, fun b' a' halike hs' => ?_⟩
          · have hless := @counted_lowers o f (Cell.maxNesting - around.length) count stop
            simp only [Turn.Within, cost, hnewline, hspaces, Bool.toNat_false]
            omega
          · obtain ⟨a'', hstore, hs''⟩ := hs'.store (halike.bounded hb) hcounted rfl rfl
            refine .more ?_ hs''
            rw [countChild, bind_ok (hconsult b' a' halike hs')]
            exact bind_ok hstore
      | symbol | integer =>
          refine ⟨.failed (.corruptContext job.top), trivial, fun b' a' halike hs' => ?_⟩
          obtain ⟨more, hpiled⟩ := hs'.on_mark
          refine .failed ?_ hpiled
          rw [countChild, bind_ok (hconsult b' a' halike hs')]
          rfl

/-- A complete value is taken away. It is counted in the list around it, or the print is over. -/
theorem exists_pop (hb : b.Bounded) {stop : Place} (hstop : stop.offset < 65536)
    (hs : Nests b root job (f :: around) a) (hnewline : job.newline = false)
    (hspaces : job.spaces = 0) (ext : External) :
    ∃ turn, turn.Within o (cost o job f around) ∧
      ∀ b' a', b.Alike b' → Nests b' root job (f :: around) a' →
        Goes b' root (popFrame ext job f stop) a' turn := by
  cases around with
  | nil =>
      refine ⟨.finished, trivial, fun b' a' halike hs' => ?_⟩
      obtain ⟨a'', hpop, hpiled⟩ :=
        popFrame_last (halike.bounded hb) (hs'.stands hnewline hspaces) hs'.linked.2.2.1
      exact .finished hpop hpiled
  | cons g around =>
      obtain ⟨a₁, hs₁, -⟩ := hs.pop hb hnewline hspaces ext stop
      obtain ⟨turn, hwithin, hgoes⟩ := exists_count (o := o) hb hstop hs₁
        (hs.waiting g (.head _)) hnewline hspaces ext
      refine ⟨turn, hwithin.mono ?_, fun b' a' halike hs' => ?_⟩
      · simp only [cost, waitingWork]
        omega
      · obtain ⟨a'', hs'', hpop⟩ := hs'.pop (halike.bounded hb) hnewline hspaces ext stop
        exact (hgoes b' a'' halike hs'').of_eq hpop

/-- The frame of a child is put on top, or memory has run out. -/
theorem exists_push (hb : b.Bounded) (hs : Nests b root job (f :: around) a)
    (hnewline : job.newline = false) (hspaces : job.spaces = 0) (hstage : f.stage = .body)
    (hcounter : f.counter < Header.maxCount) :
    ∃ turn, turn.Within o (cost o job f around) ∧
      ∀ b' a', b.Alike b' → Nests b' root job (f :: around) a' →
        Goes b' root (some <$> pushFrame ext job f.next) a' turn := by
  have hwaiting : ∀ g ∈ f :: around, g.counter < Header.maxCount := by
    intro g hg
    rcases List.mem_cons.1 hg with rfl | hg
    · exact hcounter
    · exact hs.waiting g hg
  rcases hs.push hb hwaiting hs.sound.fits.next ext with
    ⟨e, hfails⟩ | ⟨job', child, hjob, hsigil, hpushed⟩
  · refine ⟨.failed e, trivial, fun b' a' halike hs' => ?_⟩
    obtain ⟨more, a'', hpush, hpiled⟩ := hfails b' a' halike hs'
    refine .failed ?_ hpiled
    rw [map_eq_pure_bind]
    exact bind_error hpush
  · refine ⟨.more job' child (f :: around), ?_, fun b' a' halike hs' => ?_⟩
    · obtain ⟨a', -, hs'⟩ := hpushed b a (.refl b) hs
      have hshort := hs'.short
      rw [List.length_cons, List.length_cons] at hshort
      have hlevels : Cell.maxNesting - around.length =
        Cell.maxNesting - (f :: around).length + 1 := by
          rw [List.length_cons]
          omega
      have hless := @descend_lowers o f (Cell.maxNesting - (f :: around).length) child hstage
        hcounter hsigil
      rw [hjob]
      simp only [Turn.Within, cost, waitingWork, hnewline, hspaces, Bool.toNat_false, hlevels]
      omega
    · obtain ⟨a'', hpush, hs''⟩ := hpushed b' a' halike hs'
      refine .more ?_ hs''
      rw [map_eq_pure_bind]
      exact bind_ok hpush

/-- The innermost frame is changed. -/
theorem goes_store (hb : b.Bounded) {next : Frame} (hs : Nests b root job (f :: around) a)
    (hnext : f.Becomes next) (newline : Bool) (spaces : Nat) :
    Goes b root
      (do Frame.store job.top next
          return some { job with newline, spaces }) a
      (.more { job with newline, spaces } next around) := by
  have hsound := hnext.sound hs.sound
  obtain ⟨stage, counter, rfl, -⟩ := hnext
  obtain ⟨a', hstore, hs'⟩ := hs.store hb hsound rfl rfl
  exact .more (bind_ok hstore) (hs'.respite newline spaces)

/-- The plan for a move can be carried on. -/
theorem exists_carry (hb : b.Bounded) (hs : Nests b root job (f :: around) a)
    (hnewline : job.newline = false) (hspaces : job.spaces = 0) {m : Move}
    (hm : m.Lowers o (Cell.maxNesting - around.length) f) :
    ∃ turn, turn.Within o (cost o job f around) ∧
      ∀ b' a', b.Alike b' → Nests b' root job (f :: around) a' →
        Goes b' root (carry o ext job f h m).2 a' turn := by
  cases m with
  | emit c next | pass next =>
      obtain ⟨hnext, hless⟩ := hm
      refine ⟨.more job next around, ?_, fun b' a' halike hs' =>
        goes_store (halike.bounded hb) hs' hnext job.newline job.spaces⟩
      simp only [Turn.Within, cost]
      omega
  | wrap next =>
      obtain ⟨hnext, hless⟩ := hm
      refine ⟨.more _ next around, ?_, fun b' a' halike hs' =>
        goes_store (halike.bounded hb) hs' hnext true (o.indent * job.depth)⟩
      have hspaces' : o.indent * job.depth ≤ o.indent * (Cell.maxNesting + 1) :=
        Nat.mul_le_mul_left _ (hs.depth ▸ hs.short)
      simp only [lineCost] at hless
      simp only [Turn.Within, cost, hnewline, hspaces, Bool.toNat_false, Bool.toNat_true]
      omega
  | descend child =>
      obtain ⟨rfl, hstage, hcounter⟩ := hm
      exact exists_push hb hs hnewline hspaces hstage hcounter
  | finish closer =>
      cases hstop : f.stop h with
      | error e =>
          refine ⟨.failed e, trivial, fun b' a' halike hs' => ?_⟩
          obtain ⟨more, hpiled⟩ := hs'.on_mark
          exact .failed (bind_error (by simp only [Cell.consult, hstop])) hpiled
      | ok stop =>
          obtain ⟨turn, hwithin, hgoes⟩ := exists_pop (o := o) hb
            (stop_offset hs.sound.fits hstop) hs hnewline hspaces ext
          exact ⟨turn, hwithin, fun b' a' halike hs' =>
            (hgoes b' a' halike hs').of_eq (bind_ok (consult_ok hstop))⟩

/-- Every round takes a turn, the same wherever the frames are, and leaves fewer rounds. -/
theorem exists_turn (hb : b.Bounded) (hs : Nests b root job (f :: around) a) (o : PrintOptions)
    (ext : External) :
    ∃ byte turn, Turns o ext b root job f around byte turn ∧
      turn.Within o (cost o job f around) := by
  cases hplan : plan o ext job a with
  | error e =>
      refine ⟨none, .failed e, fun b' a' halike hs' => ?_, trivial⟩
      obtain ⟨more, hpiled⟩ := hs'.on_mark
      exact .stuck ((hs.plan_eq hs' halike).trans hplan) hpiled
  | ok planned =>
      obtain ⟨byte, next⟩ := planned
      suffices h : ∃ turn, turn.Within o (cost o job f around) ∧
          ∀ b' a', b.Alike b' → Nests b' root job (f :: around) a' → Goes b' root next a' turn by
        obtain ⟨turn, hwithin, hgoes⟩ := h
        exact ⟨byte, turn, fun b' a' halike hs' =>
          .planned ((hs.plan_eq hs' halike).trans hplan) (hgoes b' a' halike hs'), hwithin⟩
      by_cases hnewline : job.newline = true
      · rw [plan_newline hnewline] at hplan
        injection hplan with hplan
        obtain ⟨-, rfl⟩ := Prod.mk.inj hplan
        refine ⟨.more { job with newline := false } f around, ?_, fun b' a' _ hs' =>
          .more rfl (hs'.respite false job.spaces)⟩
        simp only [Turn.Within, cost, hnewline, Bool.toNat_false, Bool.toNat_true]
        omega
      rw [Bool.not_eq_true] at hnewline
      by_cases hspaces : 0 < job.spaces
      · rw [plan_space hnewline hspaces] at hplan
        injection hplan with hplan
        obtain ⟨-, rfl⟩ := Prod.mk.inj hplan
        refine ⟨.more { job with spaces := job.spaces - 1 } f around, ?_, fun b' a' _ hs' =>
          .more rfl (hs'.respite job.newline (job.spaces - 1))⟩
        simp only [Turn.Within, cost]
        omega
      have hspaces : job.spaces = 0 := Nat.eq_zero_of_not_pos hspaces
      have hf := (hs.stands hnewline hspaces).load hb
      rw [plan_frame hnewline hspaces, hf] at hplan
      cases hload : Cell.load a ext f.place with
      | error e =>
          simp only [hload, bind, Except.bind] at hplan
          contradiction
      | ok header =>
          cases hmove : f.move o a ext job.top header with
          | error e =>
              simp only [hload, hmove, bind, Except.bind] at hplan
              contradiction
          | ok m =>
              simp only [hload, hmove, bind, Except.bind, pure, Except.pure] at hplan
              injection hplan with hplan
              have hnext : (carry o ext job f header m).2 = next := by rw [hplan]
              rw [← hnext]
              exact exists_carry hb hs hnewline hspaces
                (Frame.move_lowers (Cell.fits_of_load hload) hs.sound hmove)

end Turns

end Printing

end FlatLisp
