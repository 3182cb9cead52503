/-
Module: FlatLisp.Proofs.Printing.Run
Purpose: A print writes the text of the tree that is depicted where it starts, unless memory runs out,
  and gives back what it has borrowed. The induction is on the tree; between two children a list
  stands as it did before the first.
Main exports: Printing.closes_tree, Printing.print_ok
-/
import FlatLisp.Proofs.Printing.Frame
import FlatLisp.Proofs.Printing.Text

namespace FlatLisp

namespace Printing

open Arena (Piled pileTop pileMark pileCost)
open Cell (Depicts DepictsAll Written)
open Text

/-- The characters of a symbol as they are written. -/
def spelling (quoted : Bool) (chars : List UInt8) : List UInt8 :=
  if quoted then escape chars else chars

theorem spelling_cons (quoted : Bool) (c : UInt8) (rest : List UInt8) :
    spelling quoted (c :: rest) =
      (if (quoted && needsEscape c) = true then [Ascii.backslash, c] else [c]) ++
        spelling quoted rest := by
  cases quoted <;> rfl

section Parts

variable {b a : Arena} {es : List (List UInt8)} {job : Job} {f : Frame} {o : PrintOptions}
  {ext : External} {h : Header} (hb : b.Bounded)

include hb

/-! ### Runs of bytes -/

/-- Bytes that are counted off one after the other are written. -/
theorem spell {list : List UInt8} {last : Frame} (hload : Cell.load b ext f.place = .ok h)
    (hmove : ∀ i ≤ list.length, ∀ a, ({ f with counter := i } : Frame).move o a ext job.top h =
      .ok (match list[i]? with
        | some c => .emit c { f with counter := i + 1 }
        | none => .pass last))
    (hlength : list.length < 65535) (hlast : last.Fits) (hmark : last.mark = f.mark) {k i : Nat}
    (hk : i + k = list.length) (hs : Stands b es job { f with counter := i } a) :
    ∃ a', Steps o ext (k + 1) job a (list.drop i) job a' ∧ Stands b es job last a' := by
  induction k generalizing i a with
  | zero =>
      have hnone : list[i]? = none := List.getElem?_eq_none (by omega)
      have hpass := hmove i (by omega) a
      rw [hnone] at hpass
      obtain ⟨a', hstep, hnext⟩ := hs.pass hb hload hpass hlast hmark
      refine ⟨a', ?_, hnext⟩
      rw [List.drop_eq_nil_of_le (by omega)]
      exact hstep
  | succ k ih =>
      have hi : i < list.length := by omega
      have hemit := hmove i (by omega) a
      rw [List.getElem?_eq_getElem hi] at hemit
      have hfits : ({ f with counter := i + 1 } : Frame).Fits :=
        ⟨hs.fits.place, hs.fits.next, show i + 1 < 65536 by omega, hs.fits.mark, hs.fits.below⟩
      obtain ⟨a₁, hstep, hnext⟩ := hs.emit hb hload hemit hfits rfl
      obtain ⟨a', hsteps, hend⟩ := ih (by omega) hnext
      refine ⟨a', ?_, hend⟩
      rw [List.drop_eq_getElem_cons hi, Nat.add_comm (k + 1)]
      exact hstep.trans hsteps

/-- The sigil and the opening byte of a value are written. -/
theorem front (hload : Cell.load b ext f.place = .ok h) (hstage : f.stage = .sigil)
    (hcounter : f.counter = 0) (hs : Stands b es job f a) :
    ∃ n a', n ≤ 4 ∧ Steps o ext n job a (h.sigil.text ++ (opener o h).toList) job a' ∧
      Stands b es job { f with stage := .body, counter := 0 } a' := by
  have hlength := length_sigil_text h.sigil
  have hopening : ({ f with stage := .opening, counter := 0 } : Frame).Fits :=
    ⟨hs.fits.place, hs.fits.next, Nat.zero_lt_succ _, hs.fits.mark, hs.fits.below⟩
  have hbody : ({ f with stage := .body, counter := 0 } : Frame).Fits :=
    ⟨hs.fits.place, hs.fits.next, Nat.zero_lt_succ _, hs.fits.mark, hs.fits.below⟩
  have hsigil : ∃ a', Steps o ext (h.sigil.text.length + 1) job a h.sigil.text job a' ∧
      Stands b es job { f with stage := .opening, counter := 0 } a' := by
    have hs₀ : Stands b es job { f with counter := 0 } a := by
      rw [← hcounter]
      exact hs
    generalize htext : h.sigil.text = chars at hlength
    have hmove : ∀ i ≤ chars.length, ∀ a,
        ({ f with counter := i } : Frame).move o a ext job.top h = .ok (match chars[i]? with
          | some c => .emit c { f with counter := i + 1 }
          | none => .pass { f with stage := .opening, counter := 0 }) := by
      intro i _ a
      simp only [Frame.move, hstage, htext]
      cases chars[i]? <;> rfl
    exact spell hb hload hmove (by omega) hopening rfl (Nat.zero_add _) hs₀
  obtain ⟨a₁, hsteps, hs₁⟩ := hsigil
  have hopen : ∃ a', Steps o ext 1 job a₁ (opener o h).toList job a' ∧
      Stands b es job { f with stage := .body, counter := 0 } a' := by
    cases hopener : opener o h with
    | none =>
        refine hs₁.pass hb hload ?_ hbody rfl
        simp only [Frame.move, hopener]
        rfl
    | some c =>
        refine hs₁.emit hb hload ?_ hbody rfl
        simp only [Frame.move, hopener]
        rfl
  obtain ⟨a', hstep, hs'⟩ := hopen
  exact ⟨_, a', by omega, hsteps.trans hstep, hs'⟩

/-! ### Symbols -/

omit hb in
/-- The character that is written next. -/
theorem symbolChar_ok {text : Place} {chars : List UInt8}
    (hretains : Cell.Retains ext b a) (hbody : Cell.body b ext f.place h = .ok text)
    (hwritten : Written b ext text chars) (hcounter : f.counter < chars.length) :
    f.symbolChar a ext h = .ok chars[f.counter] := by
  have hoffset := hwritten.offset
  rw [Frame.symbolChar, hretains.body hbody]
  simp only [bind, Except.bind]
  rw [Cell.step_ok (by omega)]
  exact (hretains.written hwritten).fetchByte hcounter

/-- The characters of a symbol are written. -/
theorem symbolChars {length : Nat} {sigil : Sigil} {quoted linked : Bool} {hash : UInt8}
    {text : Place} {chars : List UInt8}
    (hload : Cell.load b ext f.place = .ok (.symbol length sigil quoted linked hash))
    (hbody : Cell.body b ext f.place (.symbol length sigil quoted linked hash) = .ok text)
    (hlength : chars.length = length) (hwritten : Written b ext text chars)
    (hstage : f.stage = .body) (hshort : length < 65535) {k i : Nat} (hk : i + k = length)
    (hs : Stands b es job { f with counter := i } a) :
    ∃ n a', n ≤ 2 * k + 1 ∧ Steps o ext n job a (spelling quoted (chars.drop i)) job a' ∧
      Stands b es job { f with stage := .closing, counter := length } a' := by
  induction k generalizing i a with
  | zero =>
      have hmove : ({ f with counter := i } : Frame).move o a ext job.top
          (.symbol length sigil quoted linked hash) =
          .ok (.pass { f with stage := .closing, counter := i }) := by
        simp only [Frame.move, hstage]
        rw [if_pos (by omega)]
        rfl
      obtain ⟨a', hstep, hnext⟩ := hs.pass hb hload hmove
        ⟨hs.fits.place, hs.fits.next, hs.fits.counter, hs.fits.mark, hs.fits.below⟩ rfl
      rw [show i = length by omega] at hnext
      refine ⟨1, a', Nat.le_refl _, ?_, hnext⟩
      rw [List.drop_eq_nil_of_le (by omega), spelling]
      cases quoted <;> exact hstep
  | succ k ih =>
      have hi : i < chars.length := by omega
      have hchar : ∀ {a : Arena} {f' : Frame}, Piled b (f'.encode :: es) a → ∀ stage,
          ({ f with stage := stage, counter := i } : Frame).symbolChar a ext
            (.symbol length sigil quoted linked hash) = .ok chars[i] := by
        intro a f' hpiled stage
        exact symbolChar_ok (f := { f with stage := stage, counter := i })
          (Cell.retains_of_piled hb hpiled) hbody hwritten hi
      have hnext : ({ f with counter := i + 1 } : Frame).Fits :=
        ⟨hs.fits.place, hs.fits.next, show i + 1 < 65536 by omega, hs.fits.mark, hs.fits.below⟩
      have hbodyStage : ({ f with stage := .body, counter := i } : Frame) =
          { f with counter := i } := by rw [← hstage]
      have hmove : ({ f with counter := i } : Frame).move o a ext job.top
          (.symbol length sigil quoted linked hash) =
          .ok (if (quoted && needsEscape chars[i]) = true then
            .emit Ascii.backslash { f with stage := .escaped, counter := i }
            else .emit chars[i] { f with counter := i + 1 }) := by
        have hchar := hchar hs.piled .body
        rw [hbodyStage] at hchar
        simp only [Frame.move, hstage]
        rw [if_neg (by omega), ← hstage, hchar]
        simp only [bind, Except.bind]
        split <;> rfl
      rw [List.drop_eq_getElem_cons hi, spelling_cons]
      by_cases hescape : (quoted && needsEscape chars[i]) = true
      · rw [if_pos hescape] at hmove ⊢
        obtain ⟨a₁, hstep₁, hs₁⟩ := hs.emit hb hload hmove
          ⟨hs.fits.place, hs.fits.next, hs.fits.counter, hs.fits.mark, hs.fits.below⟩ rfl
        have hescaped : ({ f with stage := .escaped, counter := i } : Frame).move o a₁ ext job.top
            (.symbol length sigil quoted linked hash) =
            .ok (.emit chars[i] { f with counter := i + 1 }) := by
          simp only [Frame.move, hchar hs₁.piled .escaped, bind, Except.bind, ← hstage]
          rfl
        obtain ⟨a₂, hstep₂, hs₂⟩ := hs₁.emit hb hload hescaped hnext rfl
        obtain ⟨n, a', hn, hsteps, hend⟩ := ih (by omega) hs₂
        exact ⟨1 + (1 + n), a', by omega, hstep₁.trans (hstep₂.trans hsteps), hend⟩
      · rw [if_neg hescape] at hmove ⊢
        obtain ⟨a₁, hstep, hs₁⟩ := hs.emit hb hload hmove hnext rfl
        obtain ⟨n, a', hn, hsteps, hend⟩ := ih (by omega) hs₁
        exact ⟨1 + n, a', by omega, hstep.trans hsteps, hend⟩

/-! ### Whole values -/

omit hb in
/-- After `n` rounds at most only the closing byte of `whole` is still to be written for the value of
the innermost frame, whose header is `h`; the place after the value is `q`. -/
def Closes (o : PrintOptions) (ext : External) (b : Arena) (es : List (List UInt8)) (job : Job)
    (f : Frame) (h : Header) (q : Place) (n : Nat) (whole : List UInt8) (a : Arena) : Prop :=
  ∃ m text f' a', m ≤ n ∧ Steps o ext m job a text job a' ∧ Stands b es job f' a' ∧
    f'.stage = .closing ∧ f'.place = f.place ∧ f'.below = f.below ∧ f'.stop h = .ok q ∧
    text ++ (closer h).toList = whole

omit hb in
/-- After `n` rounds at most memory runs out, of which less than `cost` is left above the entries. -/
def Exhausts (o : PrintOptions) (ext : External) (b : Arena) (es : List (List UInt8)) (job : Job)
    (n cost : Nat) (a : Arena) : Prop :=
  ∃ e more a', e.RanOut ∧ Fails o ext n job a e a' ∧ Piled b (more ++ es) a' ∧
    b.backward < b.forward + pileCost es + cost

theorem closes_symbol {sigil : Sigil} {quoted : Bool} {chars : List UInt8} {p q : Place}
    (hdepicts : Depicts b ext (.symbol sigil quoted chars) p q)
    (hfits : (Tree.symbol sigil quoted chars).Fits) (hload : Cell.load b ext p = .ok h)
    (hplace : f.place = p) (hstage : f.stage = .sigil) (hcounter : f.counter = 0)
    (hs : Stands b es job f a) (depth : Nat) :
    Closes o ext b es job f h q 200 ((Tree.symbol sigil quoted chars).text o depth) a := by
  subst hplace
  obtain ⟨linked, hash, text, hload', hbody, hwritten, hstep⟩ := hdepicts
  rw [hload] at hload'
  injection hload' with hh
  subst hh
  have hlength : chars.length ≤ 63 := hfits
  obtain ⟨n₁, a₁, hn₁, hsteps₁, hs₁⟩ := front (o := o) hb hload hstage hcounter hs
  obtain ⟨n₂, a₂, hn₂, hsteps₂, hs₂⟩ :=
    symbolChars (o := o) hb (f := { f with stage := .body }) hload hbody rfl hwritten rfl (by omega)
      (Nat.zero_add _) hs₁
  refine ⟨_, _, _, a₂, ?_, hsteps₁.trans hsteps₂, hs₂, rfl, rfl, rfl, hstep, ?_⟩
  · omega
  · rw [List.drop_zero, Tree.text, spelling]
    cases quoted <;> simp [Header.sigil, opener, closer]

theorem closes_integer {value : Int} {p q : Place} (hdepicts : Depicts b ext (.integer value) p q)
    (hfits : (Tree.integer value).Fits) (hload : Cell.load b ext p = .ok h)
    (hplace : f.place = p) (hstage : f.stage = .sigil) (hcounter : f.counter = 0)
    (hs : Stands b es job f a) (depth : Nat) :
    Closes o ext b es job f h q 200 ((Tree.integer value).text o depth) a := by
  subst hplace
  obtain ⟨hload', hstep⟩ := hdepicts
  rw [hload] at hload'
  injection hload' with hh
  subst hh
  have hvalue : value.natAbs ≤ 536870911 := hfits
  have hlength : (Decimal.digits value.natAbs).length ≤ 9 :=
    length_digits_le (Nat.lt_of_le_of_lt hvalue (by decide))
  obtain ⟨n₁, a₁, hn₁, hsteps₁, hs₁⟩ := front (o := o) hb hload hstage hcounter hs
  generalize hdigits : Decimal.digits value.natAbs = digits at hlength
  have hlast : ({ f with stage := .closing, counter := digits.length } : Frame).Fits :=
    ⟨hs.fits.place, hs.fits.next, show digits.length < 65536 by omega, hs.fits.mark, hs.fits.below⟩
  have hmove : ∀ i ≤ digits.length, ∀ a,
      ({ f with stage := .body, counter := i } : Frame).move o a ext job.top (.integer value) =
        .ok (match digits[i]? with
          | some c => .emit c { f with stage := .body, counter := i + 1 }
          | none => .pass { f with stage := .closing, counter := digits.length }) := by
    intro i hi a
    simp only [Frame.move, hdigits]
    cases hget : digits[i]? with
    | some c => rfl
    | none =>
        rw [List.getElem?_eq_none_iff] at hget
        rw [Nat.le_antisymm hget hi]
        rfl
  obtain ⟨a₂, hsteps₂, hs₂⟩ := spell (o := o) (f := { f with stage := .body }) hb hload hmove
    (by omega) hlast rfl (Nat.zero_add _) hs₁
  refine ⟨_, _, _, a₂, ?_, hsteps₁.trans hsteps₂, hs₂, rfl, rfl, rfl, hstep, ?_⟩
  · omega
  · rw [List.drop_zero, Tree.text, hdigits, sign, opener, closer]
    simp only [Header.sigil, Sigil.text, List.nil_append, Option.toList_none, List.append_nil]
    split
    · rfl
    · split <;> rfl

/-! ### Children -/

omit hb in
theorem Exhausts.after {m n cost : Nat} {text : List UInt8} {a₁ : Arena}
    (h : Exhausts o ext b es job n cost a₁) (hsteps : Steps o ext m job a text job a₁) :
    Exhausts o ext b es job (m + n) cost a := by
  obtain ⟨e, more, a', hout, hfails, hpiled, hshort⟩ := h
  exact ⟨e, more, a', hout, hfails.after hsteps, hpiled, hshort⟩

omit hb in
theorem Exhausts.mono {m n cost cost' : Nat} (h : Exhausts o ext b es job m cost a) (hn : m ≤ n)
    (hcost : cost ≤ cost') : Exhausts o ext b es job n cost' a := by
  obtain ⟨e, more, a', hout, hfails, hpiled, hshort⟩ := h
  exact ⟨e, more, a', hout, hfails.mono hn, hpiled, by omega⟩

omit hb in
theorem Closes.mono {q : Place} {m n : Nat} {whole : List UInt8}
    (hcloses : Closes o ext b es job f h q m whole a) (hle : m ≤ n) :
    Closes o ext b es job f h q n whole a := by
  obtain ⟨k, text, f', a', hk, hrest⟩ := hcloses
  exact ⟨k, text, f', a', Nat.le_trans hk hle, hrest⟩

omit hb in
/-- Wherever a tree is depicted, all of it but the closing byte is written, or memory runs out. -/
def Completes (o : PrintOptions) (ext : External) (b : Arena) (t : Tree) : Prop :=
  ∀ (es : List (List UInt8)) (job : Job) (f : Frame) (h : Header) (q : Place) (depth : Nat)
    (a : Arena), Depicts b ext t f.place q → Cell.load b ext f.place = .ok h →
    partsAt b ext f.place h = .ok f.next → f.stage = .sigil → f.counter = 0 →
    Stands b es job f a → job.depth = depth + 1 → depth + t.nesting ≤ Cell.maxNesting →
    Closes o ext b es job f h q ((o.indent + 1) * t.weight) (t.text o depth) a ∨
      Exhausts o ext b es job ((o.indent + 1) * t.weight) (17 * (t.nesting + 1)) a

omit hb in
/-- What a print looks at before it starts to write a tree. -/
theorem parts_of_depicts {t : Tree} {p q : Place} (h : Depicts b ext t p q) :
    ∃ header next, Cell.load b ext p = .ok header ∧ partsAt b ext p header = .ok next ∧
      opens header ≤ t.nesting ∧ next.offset < 65536 := by
  have hoffset : p.offset < 65536 := Nat.lt_succ_of_le h.offset.1
  cases t with
  | symbol sigil quoted chars =>
      obtain ⟨_, _, _, hload, _⟩ := h
      exact ⟨_, p, hload, rfl, Nat.zero_le _, hoffset⟩
  | integer value => exact ⟨_, p, h.1, rfl, Nat.zero_le _, hoffset⟩
  | list sigil children =>
      obtain ⟨_, first, _, _, hload, hbody, _⟩ := h
      refine ⟨_, first, hload, hbody, ?_, Nat.lt_succ_of_le (Cell.offset_of_body hbody).2⟩
      cases children with
      | nil => exact Nat.zero_le _
      | cons t rest =>
          rw [Tree.nesting, if_neg (List.cons_ne_nil _ _)]
          exact Nat.succ_le_succ (Nat.zero_le _)

omit hb in
theorem weightAll_cons (o : PrintOptions) (t : Tree) (rest : List Tree) :
    (o.indent + 1) * Tree.weightAll (t :: rest) = (o.indent + 1) * t.weight +
      (o.indent + 1) * 40 + (o.indent + 1) * Tree.weightAll rest := by
  rw [Tree.weightAll, Nat.mul_add, Nat.mul_add]

/-- One child of a list is written and counted. -/
theorem child {t : Tree} {q : Place} {count depth : Nat} {sigil : Sigil} {linked : Bool}
    (ht : Completes o ext b t) (hdepicts : Depicts b ext t f.next q)
    (hload : Cell.load b ext f.place = .ok (.list count sigil linked)) (hstage : f.stage = .body)
    (hcounter : f.counter < count) (hcount : count ≤ Header.maxCount)
    (hs : Stands b es job f a) (hjob : job.depth = depth + 1)
    (hdepth : depth + 1 + t.nesting ≤ Cell.maxNesting) :
    (∃ n a', n ≤ (o.indent + 1) * t.weight + 2 ∧
        Steps o ext n job a (t.text o (depth + 1)) job a' ∧
        Stands b es job (f.counted count q) a') ∨
      Exhausts o ext b es job ((o.indent + 1) * t.weight + 2) (17 * (t.nesting + 2)) a := by
  obtain ⟨header, next, hchild, hparts, hopens, hnext⟩ := parts_of_depicts hdepicts
  obtain ⟨hplace, hq⟩ := hdepicts.offset
  have htop := hs.top_lt hb
  have hcost : pileCost (f.encode :: es) = 17 + pileCost es := by
    rw [Arena.pileCost_cons, Frame.length_encode]
    rfl
  have hmove : f.move o a ext job.top (.list count sigil linked) = .ok (.descend f.next) := by
    simp only [Frame.move, hstage]
    rw [if_neg (by omega)]
    rfl
  have hplan := hs.plan hb hload hmove
  rcases pushFrame_ok hb hs.piled hchild hparts (show job.depth + opens header ≤ Cell.maxNesting by
    omega) (Nat.lt_succ_of_le hplace) hnext htop hs.newline hs.spaces with
    ⟨e, a', more, hout, hpiled, herror, hshort⟩ | ⟨job₁, a₁, hpush, hs₁, hjob₁⟩
  · right
    have hfails : Fails o ext 0 job a e a' := by
      refine ⟨0, [], job, a, _, Nat.le_refl _, .refl, hplan, ?_⟩
      exact bind_error herror
    refine ⟨e, more ++ [f.encode], a', hout, hfails.mono (Nat.zero_le _), ?_, by omega⟩
    rw [List.append_assoc]
    exact hpiled
  · have hdescend : Steps o ext 1 job a [] job₁ a₁ := .one hplan (bind_ok hpush)
    have hdepth₁ : job₁.depth = depth + 1 + 1 := by
      rw [hjob₁, hjob]
    rcases ht _ _ _ _ _ _ _ hdepicts hchild hparts rfl rfl hs₁ hdepth₁ hdepth with
      ⟨m, text, f₂, a₂, hm, hsteps, hs₂, hstage₂, hplace₂, hbelow₂, hstop₂, htext⟩ | hexhausts
    · left
      have hbelow : f₂.below = pileTop b (f.encode :: es) := hbelow₂.trans hs.top
      have hload₂ : Cell.load b ext f₂.place = .ok header := by
        rw [hplace₂]
        exact hchild
      have hmove₂ : f₂.move o a₂ ext job₁.top header = .ok (.finish (closer header)) := by
        simp only [Frame.move, hstage₂]
        rfl
      obtain ⟨a', hpop, hs'⟩ := popFrame_ok hb hs₂ hbelow hs.fits hs.mark hload
        (show f.counter + 1 < 65536 by
          simp only [Header.maxCount] at hcount
          omega) (Nat.lt_succ_of_le hq)
      have hback : { job₁ with top := f₂.below, depth := job₁.depth - 1 } = job := by
        rw [hbelow₂, hjob₁]
        rfl
      rw [hback] at hpop hs'
      have hfinish : Steps o ext 1 job₁ a₂ (closer header).toList job a' :=
        .one (hs₂.plan hb hload₂ hmove₂) ((bind_ok (consult_ok hstop₂)).trans hpop)
      refine ⟨1 + (m + 1), a', by omega, ?_, hs'⟩
      rw [← htext]
      exact hdescend.trans (hsteps.trans hfinish)
    · right
      obtain ⟨e, more, a', hout, hfails, hpiled, hshort⟩ := hexhausts
      have hfails := hfails.after hdescend
      refine ⟨e, more ++ [f.encode], a', hout, hfails.mono (by omega), ?_, by omega⟩
      rw [List.append_assoc]
      exact hpiled

/-- What comes between two children is written. -/
theorem between {count depth : Nat} {sigil : Sigil} {linked : Bool}
    (hload : Cell.load b ext f.place = .ok (.list count sigil linked)) (hstage : f.stage = .separator)
    (hs : Stands b es job f a) (hjob : job.depth = depth + 1) :
    ∃ n a', n ≤ o.indent * (depth + 1) + 2 ∧
      Steps o ext n job a (separator o count depth) job a' ∧
      Stands b es job { f with stage := .body } a' := by
  have hbody : ({ f with stage := .body } : Frame).Fits :=
    ⟨hs.fits.place, hs.fits.next, hs.fits.counter, hs.fits.mark, hs.fits.below⟩
  have hmove : f.move o a ext job.top (.list count sigil linked) =
      .ok (if o.wraps count then .wrap { f with stage := .body }
        else .emit Ascii.space { f with stage := .body }) := by
    simp only [Frame.move, hstage]
    split <;> rfl
  rw [separator]
  by_cases hwraps : o.wraps count = true
  · rw [if_pos hwraps] at hmove ⊢
    obtain ⟨a', hsteps, hs'⟩ := hs.wrap hb hload hmove hbody rfl
    rw [hjob] at hsteps
    exact ⟨_, a', Nat.le_refl _, hsteps, hs'⟩
  · rw [if_neg hwraps] at hmove ⊢
    obtain ⟨a', hsteps, hs'⟩ := hs.emit hb hload hmove hbody rfl
    exact ⟨1, a', by omega, hsteps, hs'⟩

/-- The children of a list are written from one on. -/
theorem children {t : Tree} {rest : List Tree} {last : Place} {count depth : Nat} {sigil : Sigil}
    {linked : Bool} (hall : ∀ u ∈ t :: rest, Completes o ext b u)
    (hdepicts : DepictsAll b ext (t :: rest) f.next last)
    (hload : Cell.load b ext f.place = .ok (.list count sigil linked)) (hstage : f.stage = .body)
    (hcounter : f.counter + (t :: rest).length = count) (hcount : count ≤ Header.maxCount)
    (hs : Stands b es job f a) (hjob : job.depth = depth + 1)
    (hdepth : depth + 1 + Tree.nestingAll (t :: rest) ≤ Cell.maxNesting) :
    (∃ n a', n ≤ (o.indent + 1) * Tree.weightAll (t :: rest) ∧
        Steps o ext n job a (Tree.textAll o (depth + 1) (separator o count depth) (t :: rest)) job a' ∧
        Stands b es job { f with stage := .closing, counter := count, next := last } a') ∨
      Exhausts o ext b es job ((o.indent + 1) * Tree.weightAll (t :: rest))
        (17 * (Tree.nestingAll (t :: rest) + 2)) a := by
  induction rest generalizing t f a with
  | nil =>
      have hweight := weightAll_cons o t []
      have hnesting : Tree.nestingAll [t] = max t.nesting 0 := rfl
      obtain ⟨middle, ht, hlast⟩ := hdepicts
      have hlast : last = middle := hlast
      rw [List.length_singleton] at hcounter
      rcases child hb (hall t (List.mem_singleton_self t)) ht hload hstage (by omega) hcount hs hjob
        (by omega) with ⟨n, a', hn, hsteps, hs'⟩ | hexhausts
      · left
        refine ⟨n, a', by omega, ?_, ?_⟩
        · rw [Tree.textAll, if_pos rfl, List.append_nil]
          exact hsteps
        · rw [Frame.counted, if_neg (by omega), hcounter, ← hlast] at hs'
          exact hs'
      · exact .inr (hexhausts.mono (by omega) (by omega))
  | cons u rest ih =>
      have hweight := weightAll_cons o t (u :: rest)
      have hnesting : Tree.nestingAll (t :: u :: rest) =
        max t.nesting (Tree.nestingAll (u :: rest)) := rfl
      obtain ⟨middle, ht, hrest⟩ := hdepicts
      rw [List.length_cons] at hcounter
      rcases child hb (hall t (List.mem_cons_self ..)) ht hload hstage (by omega) hcount hs hjob
        (by omega) with ⟨n₁, a₁, hn₁, hsteps₁, hs₁⟩ | hexhausts
      · rw [Frame.counted, if_pos (by rw [List.length_cons] at hcounter; omega)] at hs₁
        obtain ⟨n₂, a₂, hn₂, hsteps₂, hs₂⟩ := between (o := o)
          (f := { f with counter := f.counter + 1, stage := .separator, next := middle }) hb hload rfl
          hs₁ hjob
        have hindent : o.indent * (depth + 1) ≤ o.indent * 32 := by
          simp only [Cell.maxNesting] at hdepth
          exact Nat.mul_le_mul_left _ (by omega)
        have hsteps₁₂ := hsteps₁.trans hsteps₂
        rcases ih (f := { f with counter := f.counter + 1, stage := .body, next := middle })
          (fun v hv => hall v (List.mem_cons_of_mem _ hv)) hrest hload rfl
          (show f.counter + 1 + (u :: rest).length = count by omega) hs₂ (by omega) with
          ⟨n₃, a₃, hn₃, hsteps₃, hs₃⟩ | hexhausts
        · left
          refine ⟨n₁ + n₂ + n₃, a₃, by omega, ?_, hs₃⟩
          rw [Tree.textAll, if_neg (List.cons_ne_nil _ _), ← List.append_assoc]
          exact hsteps₁₂.trans hsteps₃
        · exact .inr ((hexhausts.after hsteps₁₂).mono (by omega) (by omega))
      · exact .inr (hexhausts.mono (by omega) (by omega))

/-- Every tree that fits is written wherever it is depicted. -/
theorem completes {t : Tree} (hfits : t.Fits) : Completes o ext b t := by
  induction t using Tree.induct with
  | symbol sigil quoted chars =>
      intro es job f h q depth a hdepicts hload _ hstage hcounter hs _ _
      exact .inl ((closes_symbol hb hdepicts hfits hload rfl hstage hcounter hs depth).mono
        (Nat.le_mul_of_pos_left _ (Nat.succ_pos _)))
  | integer value =>
      intro es job f h q depth a hdepicts hload _ hstage hcounter hs _ _
      exact .inl ((closes_integer hb hdepicts hfits hload rfl hstage hcounter hs depth).mono
        (Nat.le_mul_of_pos_left _ (Nat.succ_pos _)))
  | list sigil children ih =>
      intro es job f h q depth a hdepicts hload hparts hstage hcounter hs hjob hdepth
      obtain ⟨hcount, hall⟩ := hfits
      obtain ⟨linked, first, last, next, hload', hbody, hchildren, hstep, hq⟩ := hdepicts
      rw [hload] at hload'
      injection hload' with hh
      subst hh
      have hfirst : first = f.next := by
        rw [partsAt, hbody] at hparts
        injection hparts
      rw [hfirst] at hchildren
      have hstop : ∀ counter, ({ f with stage := .closing, counter, next := last } : Frame).stop
          (.list children.length sigil linked) = .ok q := by
        intro counter
        cases linked with
        | true =>
            rw [hq, if_pos rfl]
            exact hstep
        | false =>
            rw [hq, if_neg Bool.false_ne_true]
            rfl
      obtain ⟨n₁, a₁, hn₁, hsteps₁, hs₁⟩ := front (o := o) hb hload hstage hcounter hs
      cases children with
      | nil =>
          have hlast : last = f.next := hchildren
          have hmove : ({ f with stage := .body, counter := 0 } : Frame).move o a₁ ext job.top
              (.list 0 sigil linked) =
              .ok (.pass { f with stage := .closing, counter := 0 }) := rfl
          obtain ⟨a₂, hstep₂, hs₂⟩ := hs₁.pass hb hload hmove
            ⟨hs.fits.place, hs.fits.next, Nat.zero_lt_succ _, hs.fits.mark, hs.fits.below⟩ rfl
          left
          refine ⟨n₁ + 1, _, _, a₂, ?_, hsteps₁.trans hstep₂, hs₂, rfl, rfl, rfl, ?_, ?_⟩
          · refine Nat.le_trans ?_ (Nat.le_mul_of_pos_left _ (Nat.succ_pos _))
            simp only [Tree.weight, Tree.weightAll]
            omega
          · rw [hlast] at hstop
            exact hstop 0
          · simp [Tree.text, Tree.textAll, Header.sigil, opener, closer]
      | cons t rest =>
          have hnesting : (Tree.list sigil (t :: rest)).nesting =
              Tree.nestingAll (t :: rest) + 1 := by
            rw [Tree.nesting, if_neg (List.cons_ne_nil _ _)]
          have hweight : (o.indent + 1) * (Tree.list sigil (t :: rest)).weight =
              (o.indent + 1) * 200 + (o.indent + 1) * Tree.weightAll (t :: rest) := by
            rw [Tree.weight, Nat.mul_add]
          rcases children hb (f := { f with stage := .body, counter := 0 })
            (fun u hu => ih u hu (Tree.fitAll_iff.1 hall u hu)) hchildren hload rfl (Nat.zero_add _)
            hcount hs₁ hjob (by omega) with ⟨n₂, a₂, hn₂, hsteps₂, hs₂⟩ | hexhausts
          · left
            refine ⟨n₁ + n₂, _, _, a₂, by omega, hsteps₁.trans hsteps₂, hs₂, rfl, rfl, rfl,
              hstop _, ?_⟩
            simp [Tree.text, Header.sigil, opener, closer]
          · exact .inr ((hexhausts.after hsteps₁).mono (by omega) (by omega))

end Parts

/-! ### Prints -/

section Print

variable {σ : Type} [Sink σ] {seen : σ → List UInt8} {b : Arena} {ext : External} {t : Tree}
  {place stop : Place} {p : Printer}

/-- The frame of a value that is about to be written, or none for want of memory. -/
theorem start_ok (hb : b.Bounded) (hdepicts : Depicts b ext t place stop) :
    (∃ e a', e.RanOut ∧ start ext place b = .error e a' ∧ Piled b [] a' ∧
        b.backward < b.forward + 21) ∨
      ∃ job h f a', start ext place b = .ok job a' ∧ Stands b [[]] job f a' ∧
        Cell.load b ext place = .ok h ∧ partsAt b ext place h = .ok f.next ∧ f.place = place ∧
        f.stage = .sigil ∧ f.counter = 0 ∧ f.below = 0 ∧ job.depth = 1 ∧
        job.mark = pileMark b [[]] := by
  obtain ⟨h, next, hload, hparts, -, hnext⟩ := parts_of_depicts hdepicts
  have hplace := hdepicts.offset.1
  have hbase := Piled.refl hb.cursors
  by_cases hfree : Arena.markLength ≤ b.free
  · have hmarked := hbase.mark_ok hb hfree
    rw [start, bind_ok (cell_ok (Arena.mark_backward_ok hfree))]
    dsimp only
    have hdepth : (⟨place, b.backward - Arena.markLength, 0, 0, false, 0⟩ : Job).depth + opens h ≤
        Cell.maxNesting := Nat.le_trans (Nat.add_le_add_left (opens_le h) 0) (by decide)
    rcases pushFrame_ok hb hmarked hload hparts hdepth (Nat.lt_succ_of_le hplace) hnext
      (Nat.zero_lt_succ _) rfl rfl with
      ⟨e, a', more, hout, hpiled, herror, hshort⟩ | ⟨job, a', hpush, hs, hjob⟩
    · left
      obtain ⟨a'', hunwind, hback⟩ := hpiled.unwind_ok hb
      refine ⟨e, a'', hout, ?_, hback, ?_⟩
      · rw [bind_ok (attempt_error herror)]
        exact bind_ok (cell_ok hunwind)
      · rw [Arena.pileCost_cons, Arena.pileCost_nil, List.length_nil] at hshort
        simp only [Arena.markLength] at hshort
        omega
    · right
      refine ⟨job, h, _, a', ?_, hs, hload, hparts, rfl, rfl, rfl, rfl, ?_, ?_⟩
      · rw [bind_ok (attempt_ok hpush)]
        rfl
      · rw [hjob]
      · rw [hjob]
        rfl
  · left
    refine ⟨_, b, ⟨Arena.markLength, b.free, by omega, rfl⟩, ?_, hbase, ?_⟩
    · exact bind_error (cell_error (Arena.mark_backward_full (by omega)))
    · simp only [Arena.markLength, Arena.free] at hfree
      omega

/-- The text of what is depicted is written and all that was borrowed is given back, unless memory
runs out. -/
theorem print_ok (hk : Keeps σ seen) (hall : ¬ Refuses σ) (hb : b.Bounded)
    (hdepicts : Depicts b ext t place stop) (hfits : t.Fits)
    (hnesting : t.nesting ≤ Cell.maxNesting) (hidle : p.isBusy = false) (k : σ) :
    (∃ k' a', print ext place ⟨p, b, k⟩ = .ok .done ⟨p, a', k'⟩ ∧
        seen k' = seen k ++ t.text p.options 0 ∧ Piled b [] a') ∨
      ∃ e k' a', e.RanOut ∧ print ext place ⟨p, b, k⟩ = .error e ⟨p, a', k'⟩ ∧ Piled b [] a' ∧
        b.backward < b.forward + 4 + 17 * (t.nesting + 1) := by
  obtain ⟨hjob, hcompletion⟩ := idle_iff.1 hidle
  have hsame : { p with job := none } = p := by rw [← hjob]
  have hmodify : ∀ a (k : σ), modifyPrinter ({ · with job := none }) ⟨p, a, k⟩ =
      .ok () ⟨p, a, k⟩ := by
    intro a k
    rw [modifyPrinter, hsame]
  rw [print, get_bind]
  dsimp only
  rw [if_neg (by simp [hcompletion]), hjob]
  dsimp only
  rcases start_ok hb hdepicts with
    ⟨e, a', hout, herror, hpiled, hshort⟩ |
      ⟨job, h, f, a₁, hstart, hs, hload, hparts, hplace, hstage, hcounter, hbelow, hdepth, hmark⟩
  · right
    exact ⟨e, k, a', hout, bind_error (lift_cell_error p k herror), hpiled, by omega⟩
  · rw [bind_ok (lift_cell_ok p k hstart), bind_ok (hmodify a₁ k)]
    have hlimit := Tree.weight_lt_roundLimit hfits hnesting p.options
    subst hplace
    rcases completes (o := p.options) hb hfits _ _ _ _ _ 0 _ hdepicts hload hparts hstage hcounter hs
      hdepth (by omega) with
      ⟨n, text, f₂, a₂, hn, hsteps, hs₂, hstage₂, hplace₂, hbelow₂, hstop₂, htext⟩ |
        ⟨e, more, a₂, hout, hfails, hpiled, hshort⟩
    · left
      obtain ⟨fuel, hfuel⟩ : ∃ fuel, roundLimit p.options = n + (fuel + 1) :=
        ⟨roundLimit p.options - n - 1, by omega⟩
      obtain ⟨k₂, hrounds, hseen₂⟩ := rounds_of_steps hk hall hsteps (fuel + 1) p k
      have hmove : f₂.move p.options a₂ ext job.top h = .ok (.finish (closer h)) := by
        simp only [Frame.move, hstage₂]
        rfl
      obtain ⟨a₃, hpop, hpiled₃⟩ : ∃ a', popFrame ext job f₂ stop a₂ = .ok none a' ∧
          Piled b [[]] a' := popFrame_last hb hs₂ (hbelow₂.trans hbelow)
      obtain ⟨k₃, hround, hseen₃⟩ := round_ok hk hall (hs₂.plan hb (hplace₂ ▸ hload) hmove)
        ((bind_ok (consult_ok hstop₂)).trans hpop) p k₂
      obtain ⟨a₄, hrewind, hpiled₄⟩ := hpiled₃.rewind_ok hb
      refine ⟨k₃, a₄, ?_, ?_, hpiled₄⟩
      · have hall : rounds p.options ext (roundLimit p.options) job ⟨p, a₁, k⟩ =
            .ok none ⟨p, a₃, k₃⟩ := by
          rw [hfuel, hrounds, rounds, bind_ok hround]
          rfl
        rw [bind_ok (attempt_ok hall), hmark]
        exact bind_ok (lift_arena_ok p k₃ hrewind)
      · rw [hseen₃, hseen₂, List.append_assoc, htext]
    · right
      obtain ⟨k₂, hrounds⟩ := rounds_of_fails hk hall hfails hlimit p k
      obtain ⟨a₃, hunwind, hpiled₃⟩ := hpiled.unwind_ok hb
      refine ⟨e, k₂, a₃, hout, ?_, hpiled₃, ?_⟩
      · rw [bind_ok (attempt_error hrounds), hmark]
        exact bind_ok (lift_arena_ok p k₂ hunwind)
      · rw [Arena.pileCost_cons, Arena.pileCost_nil, List.length_nil] at hshort
        simp only [Arena.markLength] at hshort
        omega

end Print

end Printing

end FlatLisp
