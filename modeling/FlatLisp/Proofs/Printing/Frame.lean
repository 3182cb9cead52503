/-
Module: FlatLisp.Proofs.Printing.Frame
Purpose: The frames of a print on a pile. A frame is read back from its bytes; and a round that
  changes the innermost frame, puts one on top or takes one away, does so on the pile.
Main exports: Printing.Frame.Fits, Printing.Frame.decode_encode, Printing.Stands,
  Printing.Stands.emit, Printing.Stands.pass, Printing.pushFrame_ok, Printing.popFrame_ok
-/
import Mathlib.Algebra.Order.Ring.Nat
import FlatLisp.Proofs.Cell.Depiction
import FlatLisp.Proofs.Printing.Plan

namespace FlatLisp

namespace Printing

open Arena (Piled pileTop pileMark pileCost)

/-! ### Frames and their bytes -/

theorem length_digits_le {n k : Nat} (h : n < 10 ^ (k + 1)) : (Decimal.digits n).length ≤ k + 1 := by
  induction k generalizing n with
  | zero =>
      rw [Decimal.digits, if_pos (by omega)]
      exact Nat.le_refl _
  | succ k ih =>
      rw [Decimal.digits]
      split
      · exact Nat.le_add_left ..
      · rw [List.length_append, List.length_singleton]
        exact Nat.succ_le_succ (ih (Nat.div_lt_of_lt_mul (by rwa [Nat.mul_comm])))

theorem length_sigil_text (s : Sigil) : s.text.length ≤ 2 := by
  cases s <;> decide

/-- The numbers of a frame are within the widths of their fields. -/
structure Frame.Fits (f : Frame) : Prop where
  place : f.place.offset < 65536
  next : f.next.offset < 65536
  counter : f.counter < 65536
  mark : f.mark < 65536
  below : f.below < 65536

/-- A frame that fits is read back from its bytes. -/
theorem Frame.decode_encode {f : Frame} (h : f.Fits) : Frame.decode f.encode = some f := by
  obtain ⟨s₀, p₀, p₁, hplace, hplace'⟩ :=
    Place.exists_encode fun q (hq : q ∈ some f.place) => Option.some.inj hq ▸ h.place
  obtain ⟨s₁, n₀, n₁, hnext, hnext'⟩ :=
    Place.exists_encode fun q (hq : q ∈ some f.next) => Option.some.inj hq ▸ h.next
  have hbytes : f.encode = [s₀, p₀, p₁, s₁, n₀, n₁, f.stage.code] ++
      (Word.bytes f.counter ++ Word.bytes f.mark ++ Word.bytes f.below) := by
    rw [Frame.encode, hplace, hnext]
    rfl
  rw [hbytes]
  simp only [Word.bytes, List.cons_append, List.nil_append, Frame.decode, hplace', hnext',
    Stage.ofCode?_code, Word.value_bytes h.counter, Word.value_bytes h.mark,
    Word.value_bytes h.below]
  rfl

/-! ### The innermost frame -/

/-- The job's innermost frame is `f`, on top of the entries `es`, and nothing else is to be written
first. -/
structure Stands (b : Arena) (es : List (List UInt8)) (job : Job) (f : Frame) (a : Arena) : Prop where
  piled : Piled b (f.encode :: es) a
  top : job.top = pileTop b (f.encode :: es)
  newline : job.newline = false
  spaces : job.spaces = 0
  fits : f.Fits
  mark : f.mark = pileMark b (f.encode :: es)

section Stands

variable {b a : Arena} {es : List (List UInt8)} {job : Job} {f next : Frame} {o : PrintOptions}
  {ext : External} {h : Header} (hb : b.Bounded)

theorem steps_spaces (hnewline : job.newline = false) {n : Nat} (hspaces : job.spaces = n) :
    Steps o ext n job a (List.replicate n Text.Ascii.space) { job with spaces := 0 } a := by
  induction n generalizing job with
  | zero =>
      have hjob : { job with spaces := 0 } = job := by rw [← hspaces]
      rw [hjob]
      exact .refl
  | succ n ih =>
      exact .step (plan_space hnewline (hspaces ▸ Nat.succ_pos n)) rfl
        (ih hnewline (show job.spaces - 1 = n by rw [hspaces]; rfl))

include hb

theorem Stands.top_lt (hs : Stands b es job f a) : job.top < 65536 :=
  hs.top ▸ Piled.pileTop_lt hb _

theorem Stands.load (hs : Stands b es job f a) : Frame.load a job.top = .ok f := by
  have hbytes := hs.piled.bytes_ok hb
  rw [Frame.length_encode] at hbytes
  rw [Frame.load, hs.top, hbytes]
  simp only [mapError_ok, bind, Except.bind, Frame.decode_encode hs.fits, pure, Except.pure]

theorem Stands.plan {move : Move} (hs : Stands b es job f a) (hload : Cell.load b ext f.place = .ok h)
    (hmove : f.move o a ext job.top h = .ok move) :
    Printing.plan o ext job a = .ok (carry o ext job f h move) := by
  rw [plan_frame hs.newline hs.spaces, hs.load hb]
  simp only [bind, Except.bind, (Cell.retains_of_piled hb hs.piled).load hload, hmove, pure,
    Except.pure]

theorem Stands.store (hs : Stands b es job f a) (hfits : next.Fits) (hmark : next.mark = f.mark) :
    ∃ a', Frame.store job.top next a = .ok () a' ∧ Stands b es job next a' := by
  have hlength : next.encode.length = f.encode.length := by
    rw [Frame.length_encode, Frame.length_encode]
  obtain ⟨a', hwrite, hpiled⟩ := hs.piled.write_ok hb hlength
  refine ⟨a', ?_, ?_⟩
  · rw [Frame.store, hs.top]
    exact cell_ok hwrite
  · refine ⟨hpiled, ?_, hs.newline, hs.spaces, hfits, hmark.trans hs.mark⟩
    rw [hs.top, pileTop, pileTop, hlength]

/-- A byte is written and the frame changed. -/
theorem Stands.emit {c : UInt8} (hs : Stands b es job f a)
    (hload : Cell.load b ext f.place = .ok h)
    (hmove : f.move o a ext job.top h = .ok (.emit c next)) (hfits : next.Fits)
    (hmark : next.mark = f.mark) :
    ∃ a', Steps o ext 1 job a [c] job a' ∧ Stands b es job next a' := by
  obtain ⟨a', hstore, hnext⟩ := hs.store hb hfits hmark
  exact ⟨a', .one (hs.plan hb hload hmove) (bind_ok hstore), hnext⟩

/-- The frame is changed. -/
theorem Stands.pass (hs : Stands b es job f a) (hload : Cell.load b ext f.place = .ok h)
    (hmove : f.move o a ext job.top h = .ok (.pass next)) (hfits : next.Fits)
    (hmark : next.mark = f.mark) :
    ∃ a', Steps o ext 1 job a [] job a' ∧ Stands b es job next a' := by
  obtain ⟨a', hstore, hnext⟩ := hs.store hb hfits hmark
  exact ⟨a', .one (hs.plan hb hload hmove) (bind_ok hstore), hnext⟩

/-- A new line is started and the frame changed. -/
theorem Stands.wrap (hs : Stands b es job f a) (hload : Cell.load b ext f.place = .ok h)
    (hmove : f.move o a ext job.top h = .ok (.wrap next)) (hfits : next.Fits)
    (hmark : next.mark = f.mark) :
    ∃ a', Steps o ext (o.indent * job.depth + 2) job a
        (Text.Ascii.newline :: List.replicate (o.indent * job.depth) Text.Ascii.space) job a' ∧
      Stands b es job next a' := by
  obtain ⟨a', hstore, hnext⟩ := hs.store hb hfits hmark
  refine ⟨a', ?_, hnext⟩
  have hspaces : Steps o ext (o.indent * job.depth)
      { job with newline := false, spaces := o.indent * job.depth } a'
      (List.replicate (o.indent * job.depth) Text.Ascii.space)
      { job with newline := false, spaces := 0 } a' := steps_spaces rfl rfl
  have hjob : { job with newline := false, spaces := 0 } = job := by
    rw [← hs.newline, ← hs.spaces]
  rw [hjob] at hspaces
  exact .step (hs.plan hb hload hmove) (bind_ok hstore)
    (.step (plan_newline rfl) rfl hspaces)

end Stands

/-! ### Frames come and go -/

/-- The place from which the parts of a value are written: that of its first child, for a list. -/
def partsAt (a : Arena) (ext : External) (p : Place) : Header → Except Fault Place
  | .list count sigil linked => Cell.body a ext p (.list count sigil linked)
  | _ => .ok p

/-- The number of lists with children that a value opens itself. -/
def opens : Header → Nat
  | .list (_ + 1) .. => 1
  | _ => 0

theorem opens_le (h : Header) : opens h ≤ 1 := by
  cases h with
  | list count sigil linked => cases count <;> simp [opens]
  | symbol | integer => exact Nat.zero_le 1

/-- The frame of a value that is still to be written, on top of the entries `es`. -/
def freshFrame (b : Arena) (es : List (List UInt8)) (place next : Place) (below : Nat) : Frame where
  place := place
  next := next
  stage := .sigil
  counter := 0
  mark := pileTop b es - Arena.markLength
  below := below

section Frames

variable {b a : Arena} {es : List (List UInt8)} {job : Job} {ext : External} {h : Header}
  {p next : Place}

/-- Put a frame for the value at `p` on top, whose parts are written from `next` on. -/
def openFrame (job : Job) (p next : Place) : CellM Job := do
  let mark ← Arena.mark .backward
  let span ← Arena.alloc .backward Frame.length
  Frame.store span.offset
    { place := p, next, stage := .sigil, counter := 0, mark := mark.record, below := job.top }
  return { job with top := span.offset, depth := job.depth + 1 }

theorem pushFrame_eq (hload : Cell.load a ext p = .ok h) (hparts : partsAt a ext p h = .ok next)
    (hdepth : job.depth + opens h ≤ Cell.maxNesting) :
    pushFrame ext job p a = openFrame job p next a := by
  rw [pushFrame, bind_ok (consult_ok hload)]
  dsimp only
  cases h with
  | list count sigil linked =>
      refine (congrFun (if_neg ?_) a).trans (bind_ok (consult_ok hparts))
      cases count <;> exact Nat.not_lt.2 hdepth
  | symbol | integer =>
      injection hparts with hparts
      subst hparts
      exact congrFun (if_neg (Nat.not_lt.2 hdepth)) a

/-- A frame is put on top, unless memory runs out. -/
theorem openFrame_ok (hb : b.Bounded) (hpiled : Piled b es a) (hplace : p.offset < 65536)
    (hnext : next.offset < 65536) (htop : job.top < 65536) :
    (∃ a' more, openFrame job p next a = .error (.shortage Frame.length a.free) a' ∧
        Piled b (more ++ es) a' ∧ (Fault.shortage Frame.length a.free).RanOut ∧
        b.backward < b.forward + pileCost es + 17) ∨
      ∃ f a', f = freshFrame b es p next job.top ∧ f.Fits ∧ Piled b (f.encode :: es) a' ∧
        openFrame job p next a =
          .ok { job with top := pileTop b (f.encode :: es), depth := job.depth + 1 } a' := by
  rw [openFrame]
  rcases hpiled.take hb Frame.length fun mark span => do
      Frame.store span.offset
        { place := p, next, stage := .sigil, counter := 0, mark := mark.record, below := job.top }
      return { job with top := span.offset, depth := job.depth + 1 } with
    ⟨_, a', more, hout, hpiled', herror, hshort, rfl⟩ | ⟨a', old, hlength, hpiled', htake⟩
  · exact .inl ⟨a', more, herror, hpiled', hout, hshort⟩
  · right
    have hfits : (freshFrame b es p next job.top).Fits :=
      ⟨hplace, hnext, Nat.zero_lt_succ _, Piled.pileMark_lt hb (old :: es), htop⟩
    have hsize : (freshFrame b es p next job.top).encode.length = old.length := by
      rw [Frame.length_encode, hlength]
    obtain ⟨a'', hwrite, hpiled''⟩ := hpiled'.write_ok hb hsize
    refine ⟨_, a'', rfl, hfits, hpiled'', ?_⟩
    rw [htake, Arena.pileTop_congr hsize]
    exact bind_ok (cell_ok hwrite)

/-- A frame is put on top of those that are open, unless memory runs out. -/
theorem pushFrame_ok (hb : b.Bounded) (hpiled : Piled b es a) (hload : Cell.load b ext p = .ok h)
    (hparts : partsAt b ext p h = .ok next) (hdepth : job.depth + opens h ≤ Cell.maxNesting)
    (hplace : p.offset < 65536) (hnext : next.offset < 65536) (htop : job.top < 65536)
    (hnewline : job.newline = false) (hspaces : job.spaces = 0) :
    (∃ e a' more, e.RanOut ∧ Piled b (more ++ es) a' ∧ pushFrame ext job p a = .error e a' ∧
        b.backward < b.forward + pileCost es + 17) ∨
      ∃ job' a', pushFrame ext job p a = .ok job' a' ∧
        Stands b es job' (freshFrame b es p next job.top) a' ∧
        job' = { job with top := job'.top, depth := job.depth + 1 } := by
  have hretains : Cell.Retains ext b a := Cell.retains_of_piled hb hpiled
  have hparts' : partsAt a ext p h = .ok next := by
    cases h with
    | list count sigil linked => exact hretains.body hparts
    | symbol | integer => exact hparts
  rw [pushFrame_eq (hretains.load hload) hparts' hdepth]
  rcases openFrame_ok hb hpiled hplace hnext htop with
    ⟨a', more, herror, hpiled', hout, hshort⟩ | ⟨f, a', rfl, hfits, hpiled', hopen⟩
  · exact .inl ⟨_, a', more, hout, hpiled', herror, hshort⟩
  · exact .inr ⟨_, a', hopen, ⟨hpiled', rfl, hnewline, hspaces, hfits, rfl⟩, rfl⟩

/-- The outermost frame is taken away. -/
theorem popFrame_last (hb : b.Bounded) {f : Frame} {stop : Place} (hs : Stands b es job f a)
    (hbelow : f.below = 0) :
    ∃ a', popFrame ext job f stop a = .ok none a' ∧ Piled b es a' := by
  obtain ⟨a', hrewind, hpiled⟩ := hs.piled.rewind_ok hb
  rw [← hs.mark] at hrewind
  refine ⟨a', ?_, hpiled⟩
  rw [popFrame, bind_ok (cell_ok hrewind), if_pos hbelow]
  rfl

/-- The frame of a list once another child is complete. -/
def Frame.counted (f : Frame) (count : Nat) (stop : Place) : Frame :=
  { f with
    counter := f.counter + 1
    stage := if f.counter + 1 < count then .separator else .closing
    next := stop }

/-- Count the value that ends at `stop` in the list whose frame, `around`, is innermost now. -/
def countChild (ext : External) (job : Job) (around : Frame) (stop : Place) : CellM (Option Job) := do
  match ← Cell.consult (Cell.load · ext around.place) with
  | .list count .. =>
      Frame.store job.top (around.counted count stop)
      return some job
  | _ => throw (.corruptContext job.top)

/-- A frame is taken away, so that the one around it is the innermost. -/
theorem popFrame_eq (hb : b.Bounded) {f around : Frame} {stop : Place}
    (hs : Stands b (around.encode :: es) job f a)
    (hbelow : f.below = pileTop b (around.encode :: es)) (hfits : around.Fits)
    (hmark : around.mark = pileMark b (around.encode :: es)) :
    ∃ a', Stands b es { job with top := f.below, depth := job.depth - 1 } around a' ∧
      popFrame ext job f stop a =
        countChild ext { job with top := f.below, depth := job.depth - 1 } around stop a' := by
  obtain ⟨a', hrewind, hpiled⟩ := hs.piled.rewind_ok hb
  rw [← hs.mark] at hrewind
  have hstands : Stands b es { job with top := f.below, depth := job.depth - 1 } around a' :=
    ⟨hpiled, hbelow, hs.newline, hs.spaces, hfits, hmark⟩
  have hzero : f.below ≠ 0 := by
    have htop := hpiled.top_add
    have hroom := hpiled.room
    have hheader := hb.header
    simp only [Arena.headerLength] at hheader
    omega
  refine ⟨a', hstands, ?_⟩
  rw [popFrame, bind_ok (cell_ok hrewind), if_neg hzero, bind_ok (consult_ok (hstands.load hb))]
  rfl

theorem countChild_ok (hb : b.Bounded) {around : Frame} {stop : Place} {count : Nat} {sigil : Sigil}
    {linked : Bool} (hs : Stands b es job around a)
    (hload : Cell.load a ext around.place = .ok (.list count sigil linked))
    (hcounter : around.counter + 1 < 65536) (hstop : stop.offset < 65536) :
    ∃ a', countChild ext job around stop a = .ok (some job) a' ∧
      Stands b es job (around.counted count stop) a' := by
  have hcounted : (around.counted count stop).Fits :=
    ⟨hs.fits.place, hstop, hcounter, hs.fits.mark, hs.fits.below⟩
  obtain ⟨a', hstore, hnext⟩ := hs.store hb hcounted rfl
  refine ⟨a', ?_, hnext⟩
  rw [countChild, bind_ok (consult_ok hload)]
  exact bind_ok hstore

/-- A frame is taken away, and its value counted in the frame around it. -/
theorem popFrame_ok (hb : b.Bounded) {f around : Frame} {stop : Place} {count : Nat} {sigil : Sigil}
    {linked : Bool} (hs : Stands b (around.encode :: es) job f a)
    (hbelow : f.below = pileTop b (around.encode :: es)) (hfits : around.Fits)
    (hmark : around.mark = pileMark b (around.encode :: es))
    (hload : Cell.load b ext around.place = .ok (.list count sigil linked))
    (hcounter : around.counter + 1 < 65536) (hstop : stop.offset < 65536) :
    ∃ a', popFrame ext job f stop a =
        .ok (some { job with top := f.below, depth := job.depth - 1 }) a' ∧
      Stands b es { job with top := f.below, depth := job.depth - 1 }
        (around.counted count stop) a' := by
  obtain ⟨a₁, hstands, hpop⟩ := @popFrame_eq _ _ _ _ ext hb f around stop hs hbelow hfits hmark
  rw [hpop]
  exact countChild_ok hb hstands ((Cell.retains_of_piled hb hstands.piled).load hload) hcounter hstop

end Frames

end Printing

end FlatLisp
