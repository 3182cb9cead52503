/-
Module: FlatLisp.Proofs.Printing.Missing
Purpose: What is missing of an unfinished value is written once and in order, whatever bytes a sink
  refuses and however often it is asked again.
Main exports: Recorded, Printing.missing, Printing.Asks, Printing.asks_missing,
  Printing.printMissing_transcript
-/
import FlatLisp.Printing.Missing
import FlatLisp.Proofs.Arena.Operations

namespace FlatLisp

/-- A sink together with all bytes that it has accepted. -/
structure Recorded (σ : Type) where
  inner : σ
  accepted : List UInt8 := []

instance {σ : Type} [Sink σ] : Sink (Recorded σ) where
  offer s c :=
    match Sink.offer s.inner c with
    | (true, inner) => (true, ⟨inner, s.accepted ++ [c]⟩)
    | (false, inner) => (false, ⟨inner, s.accepted⟩)

namespace Printing

/-! ### Sinks that can be looked into -/

/-- What has been accepted is what `seen` shows. -/
structure Keeps (σ : Type) [Sink σ] (seen : σ → List UInt8) : Prop where
  accepted : ∀ {k k' : σ} {c : UInt8}, Sink.offer k c = (true, k') → seen k' = seen k ++ [c]
  refused : ∀ {k k' : σ} {c : UInt8}, Sink.offer k c = (false, k') → seen k' = seen k

/-- Some byte is refused in some state. -/
def Refuses (σ : Type) [Sink σ] : Prop := ∃ (k k' : σ) (c : UInt8), Sink.offer k c = (false, k')

theorem keeps_recorded {σ : Type} [Sink σ] : Keeps (Recorded σ) Recorded.accepted where
  accepted := by
    intro k k' c h
    simp only [Sink.offer] at h
    split at h
    · injection h with _ h
      rw [← h]
    · injection h with h _
      contradiction
  refused := by
    intro k k' c h
    simp only [Sink.offer] at h
    split at h
    · injection h with h _
      contradiction
    · injection h with _ h
      rw [← h]

theorem keeps_transcript : Keeps Transcript Transcript.bytes where
  accepted := by
    intro k k' c h
    injection h with _ h
    rw [← h, Transcript.bytes, Array.toList_push]
    rfl
  refused := by
    intro k k' c h
    injection h with h _
    contradiction

theorem not_refuses_transcript : ¬ Refuses Transcript := by
  rintro ⟨k, k', c, h⟩
  injection h with h _
  contradiction

/-! ### What is left to write -/

/-- What is missing of a value with these unfinished parts, the innermost first; `pending` says that
a sigil waits for its value. -/
def missing (pending : Bool) (ctxs : List OpenContext) : List UInt8 :=
  (if pending then placeholder else []) ++ ctxs.flatMap OpenContext.closer

namespace Completion

variable (pending : Bool) (ctxs : List OpenContext)

/-- The piece that is being written. -/
def piece (c : Completion) : List UInt8 :=
  if !c.placed && pending then placeholder
  else (ctxs[c.closed]?.map OpenContext.closer).getD []

/-- What comes after that piece. -/
def following (c : Completion) : List UInt8 :=
  if !c.placed && pending then ctxs.flatMap OpenContext.closer
  else (ctxs.drop (c.closed + 1)).flatMap OpenContext.closer

/-- What has not been written yet. -/
def left (c : Completion) : List UInt8 :=
  (c.piece pending ctxs).drop c.emitted ++ c.following pending ctxs

/-- No more has been closed than there is to close, and nothing before the waiting sigil. -/
structure Fits (c : Completion) : Prop where
  closed : c.closed ≤ ctxs.length
  fresh : c.placed = false → c.closed = 0

variable {pending ctxs}

/-- Between two pieces. -/
theorem left_of_placed {c : Completion} (hplaced : c.placed = true) (hemitted : c.emitted = 0) :
    c.left pending ctxs = (ctxs.drop c.closed).flatMap OpenContext.closer := by
  obtain ⟨placed, closed, emitted⟩ := c
  dsimp only at hplaced hemitted
  subst hplaced hemitted
  simp only [left, piece, following, Bool.not_true, Bool.false_and, Bool.false_eq_true, if_false,
    List.drop_zero]
  cases hget : ctxs[closed]? with
  | none =>
      rw [List.getElem?_eq_none_iff] at hget
      rw [List.drop_eq_nil_of_le hget, List.drop_eq_nil_of_le (Nat.le_succ_of_le hget)]
      rfl
  | some unfinished =>
      obtain ⟨hlt, rfl⟩ := List.getElem?_eq_some_iff.1 hget
      rw [List.drop_eq_getElem_cons hlt, List.flatMap_cons]
      rfl

theorem left_default : Completion.left pending ctxs {} = missing pending ctxs := by
  cases pending with
  | true => rfl
  | false =>
      change Completion.left false ctxs { placed := true } = _
      rw [left_of_placed rfl rfl]
      rfl

end Completion

/-! ### One call -/

theorem idle_iff {p : Printer} : p.isBusy = false ↔ p.job = none ∧ p.completion = none := by
  simp [Printer.isBusy]

section Call

variable {σ : Type} [Sink σ] {seen : σ → List UInt8} (hk : Keeps σ seen)

include hk

theorem offerAll_ok (bytes : List UInt8) (p : Printer) (a : Arena) (k : σ) :
    ∃ n k', offerAll bytes ⟨p, a, k⟩ = .ok n ⟨p, a, k'⟩ ∧ n ≤ bytes.length ∧
      seen k' = seen k ++ bytes.take n ∧ (n < bytes.length → Refuses σ) := by
  induction bytes generalizing k with
  | nil => exact ⟨0, k, rfl, Nat.le_refl _, by rw [List.take_nil, List.append_nil], nofun⟩
  | cons c rest ih =>
      cases hoffer : Sink.offer k c with
      | mk accepted k₁ =>
          have hstep : offer c ⟨p, a, k⟩ = .ok accepted ⟨p, a, k₁⟩ := by
            rw [offer, hoffer]
          rw [offerAll, bind_ok hstep]
          cases accepted with
          | false =>
              refine ⟨0, k₁, rfl, Nat.zero_le _, ?_, fun _ => ⟨k, k₁, c, hoffer⟩⟩
              rw [hk.refused hoffer, List.take_zero, List.append_nil]
          | true =>
              obtain ⟨n, k₂, hrest, hle, hseen, hrefuses⟩ := ih k₁
              refine ⟨n + 1, k₂, ?_, Nat.succ_le_succ hle, ?_, ?_⟩
              · rw [if_pos rfl, bind_ok hrest]
                rfl
              · rw [hseen, hk.accepted hoffer, List.take_succ_cons, List.append_assoc,
                  List.singleton_append]
              · intro hlt
                exact hrefuses (Nat.lt_of_succ_lt_succ hlt)

theorem offerPiece_ok (piece : List UInt8) (c : Completion) (p : Printer) (a : Arena) (k : σ) :
    (∃ k', offerPiece piece c ⟨p, a, k⟩ = .ok true ⟨p, a, k'⟩ ∧
      seen k' = seen k ++ piece.drop c.emitted) ∨
    ∃ n k', offerPiece piece c ⟨p, a, k⟩ =
        .ok false ⟨{ p with completion := some { c with emitted := n } }, a, k'⟩ ∧
      n < piece.length ∧ seen k' ++ piece.drop n = seen k ++ piece.drop c.emitted ∧
      Refuses σ := by
  obtain ⟨n, k', hoffer, hle, hseen, hrefuses⟩ := offerAll_ok hk (piece.drop c.emitted) p a k
  rw [offerPiece, bind_ok hoffer]
  by_cases hall : n = (piece.drop c.emitted).length
  · left
    refine ⟨k', ?_, ?_⟩
    · rw [if_pos hall]
      rfl
    · rw [hseen, hall, List.take_length]
  · right
    refine ⟨c.emitted + n, k', ?_, ?_, ?_, hrefuses (Nat.lt_of_le_of_ne hle hall)⟩
    · rw [if_neg hall]
      rfl
    · rw [List.length_drop] at hle hall
      omega
    · rw [hseen, List.append_assoc, ← List.drop_drop, List.take_append_drop]

omit hk

/-- Either all of `text` is written, or a byte was refused and the rest is kept. -/
inductive Writes (seen : σ → List UInt8) (pending : Bool) (ctxs : List OpenContext)
    (text : List UInt8) (p : Printer) (a : Arena) (k : σ) :
    EStateM.Result Fault (Printing σ) PrintStatus → Prop where
  | done {k' : σ} (hseen : seen k' = seen k ++ text) :
      Writes seen pending ctxs text p a k (.ok .done ⟨{ p with completion := none }, a, k'⟩)
  | blocked {k' : σ} (c : Completion) (hfits : c.Fits ctxs)
      (hleft : c.left pending ctxs ≠ [])
      (hseen : seen k' ++ c.left pending ctxs = seen k ++ text) (hrefuses : Refuses σ) :
      Writes seen pending ctxs text p a k
        (.ok .blocked ⟨{ p with completion := some c }, a, k'⟩)

/-- The unfinished values of a reader are `ctxs`, the innermost first. -/
def Views (r : Reader) (a : Arena) (ctxs : List OpenContext) : Prop :=
  ctxs.length < contextLimit ∧ ∀ outward, r.openContext a outward = .ok ctxs[outward]?

theorem Writes.of_eq {pending : Bool} {ctxs : List OpenContext} {text text' : List UInt8}
    {p : Printer} {a : Arena} {k k' : σ} {result : EStateM.Result Fault (Printing σ) PrintStatus}
    (h : Writes seen pending ctxs text' p a k' result)
    (heq : seen k' ++ text' = seen k ++ text) : Writes seen pending ctxs text p a k result := by
  cases h with
  | done hseen => exact .done (hseen.trans heq)
  | blocked c hfits hleft hseen hrefuses =>
      exact .blocked c hfits hleft (hseen.trans heq) hrefuses

omit [Sink σ] in
theorem look_ok {α : Type} {f : Arena → Except Fault α} {x : α} {p : Printer} {a : Arena} {k : σ}
    (h : f a = .ok x) : look f ⟨p, a, k⟩ = .ok x ⟨p, a, k⟩ := by
  simp only [look, liftM, monadLift, MonadLift.monadLift, Cell.consult, h]

include hk

/-- A piece is written and then what comes after it, or it is stopped in. -/
theorem offerPiece_writes {pending : Bool} {ctxs : List OpenContext} {c : Completion}
    {piece : List UInt8} {p : Printer} {a : Arena} {k : σ} {rest : PrintM σ PrintStatus}
    (hfits : c.Fits ctxs) (hpiece : c.piece pending ctxs = piece)
    (hrest : ∀ k', Writes seen pending ctxs (c.following pending ctxs) p a k'
      (rest ⟨{ p with completion := none }, a, k'⟩)) :
    Writes seen pending ctxs (c.left pending ctxs) p a k
      ((do if ← offerPiece piece c then rest else return .blocked)
        ⟨{ p with completion := none }, a, k⟩) := by
  rcases offerPiece_ok hk piece c { p with completion := none } a k with
    ⟨k', hoffer, hseen⟩ | ⟨n, k', hoffer, hless, hseen, hrefuses⟩
  · rw [bind_ok hoffer, if_pos rfl]
    refine (hrest k').of_eq ?_
    rw [hseen, List.append_assoc, Completion.left, hpiece]
  · rw [bind_ok hoffer, if_neg Bool.false_ne_true]
    have hleft : Completion.left pending ctxs { c with emitted := n } =
        piece.drop n ++ c.following pending ctxs := by
      rw [← hpiece]
      rfl
    refine Writes.blocked (p := p) { c with emitted := n } ⟨hfits.closed, hfits.fresh⟩ ?_ ?_
      hrefuses
    · rw [hleft]
      intro hnil
      have hdrop := (List.append_eq_nil_iff.1 hnil).1
      rw [List.drop_eq_nil_iff] at hdrop
      omega
    · rw [hleft, ← List.append_assoc, hseen, List.append_assoc, Completion.left, hpiece]

/-- From the innermost unfinished value on, all are closed. -/
theorem closeContexts_writes {r : Reader} {a : Arena} {ctxs : List OpenContext}
    (hviews : Views r a ctxs) (pending : Bool) (p : Printer) (fuel : Nat) (c : Completion) (k : σ)
    (hplaced : c.placed = true) (hclosed : c.closed ≤ ctxs.length)
    (hfuel : ctxs.length < fuel + c.closed) :
    Writes seen pending ctxs (c.left pending ctxs) p a k
      (closeContexts r fuel c ⟨{ p with completion := none }, a, k⟩) := by
  induction fuel generalizing c k with
  | zero => omega
  | succ fuel ih =>
      have hpiece : c.piece pending ctxs = (ctxs[c.closed]?.map OpenContext.closer).getD [] := by
        simp [Completion.piece, hplaced]
      have hfollowing : c.following pending ctxs =
          (ctxs.drop (c.closed + 1)).flatMap OpenContext.closer := by
        simp [Completion.following, hplaced]
      rw [closeContexts, bind_ok (look_ok (hviews.2 c.closed))]
      cases hget : ctxs[c.closed]? with
      | none =>
          rw [hget] at hpiece
          rw [List.getElem?_eq_none_iff] at hget
          rw [List.drop_eq_nil_of_le (Nat.le_succ_of_le hget)] at hfollowing
          have hleft : c.left pending ctxs = [] := by
            rw [Completion.left, hpiece, hfollowing]
            simp
          exact .done (by rw [hleft, List.append_nil])
      | some unfinished =>
          rw [hget] at hpiece
          obtain ⟨hlt, -⟩ := List.getElem?_eq_some_iff.1 hget
          refine offerPiece_writes hk ⟨hclosed, by simp [hplaced]⟩ hpiece ?_
          intro k'
          have hrest := ih { c with closed := c.closed + 1, emitted := 0 } k' hplaced hlt
            (by dsimp only; omega)
          rw [Completion.left_of_placed (by exact hplaced) rfl] at hrest
          rw [hfollowing]
          exact hrest

/-- One call writes what is left, or stops at a byte that is refused. -/
theorem printMissing_writes {r : Reader} {a : Arena} {ctxs : List OpenContext}
    (hviews : Views r a ctxs) {p : Printer} (k : σ) (hjob : p.job = none)
    (hfits : (p.completion.getD {}).Fits ctxs) :
    Writes seen r.pendingSigil ctxs ((p.completion.getD {}).left r.pendingSigil ctxs) p a k
      (printMissing r ⟨p, a, k⟩) := by
  generalize hc : p.completion.getD {} = c at hfits
  have hlength := hviews.1
  have hstart : printMissing r ⟨p, a, k⟩ =
      (if !c.placed && r.pendingSigil then do
        if ← offerPiece placeholder c then
          closeContexts r contextLimit { c with placed := true, emitted := 0 }
        else
          return .blocked
      else
        closeContexts r contextLimit { c with placed := true } : PrintM σ PrintStatus)
      ⟨{ p with completion := none }, a, k⟩ := by
    rw [printMissing, get_bind]
    dsimp only
    rw [if_neg (by simp [hjob]), hc]
    rfl
  rw [hstart]
  cases hplace : !c.placed && r.pendingSigil with
  | true =>
      rw [if_pos rfl]
      have hplaced : c.placed = false := by simpa using (Bool.and_eq_true_iff.1 hplace).1
      refine offerPiece_writes hk hfits ?_ ?_
      · rw [Completion.piece, hplace, if_pos rfl]
      · intro k'
        have hall : ctxs.drop c.closed = ctxs := by
          rw [hfits.fresh hplaced, List.drop_zero]
        have hrest := closeContexts_writes hk hviews r.pendingSigil p contextLimit
          { c with placed := true, emitted := 0 } k' rfl hfits.closed (by dsimp only; omega)
        rw [Completion.left_of_placed rfl rfl] at hrest
        dsimp only at hrest
        rw [hall] at hrest
        rw [Completion.following, hplace, if_pos rfl]
        exact hrest
  | false =>
      rw [if_neg Bool.false_ne_true]
      have hrest := closeContexts_writes hk hviews r.pendingSigil p contextLimit
        { c with placed := true } k rfl hfits.closed (by dsimp only; omega)
      have hleft : Completion.left r.pendingSigil ctxs { c with placed := true } =
          c.left r.pendingSigil ctxs := by
        simp only [Completion.left, Completion.piece, Completion.following, hplace, Bool.not_true,
          Bool.false_and]
      rwa [hleft] at hrest

/-- The first call of an idle printer writes all that is missing, as far as the sink takes it. -/
theorem printMissing_writes_all {r : Reader} {a : Arena} {ctxs : List OpenContext}
    (hviews : Views r a ctxs) {p : Printer} (k : σ) (hidle : p.isBusy = false) :
    Writes seen r.pendingSigil ctxs (missing r.pendingSigil ctxs) p a k
      (printMissing r ⟨p, a, k⟩) := by
  obtain ⟨hjob, hcompletion⟩ := idle_iff.1 hidle
  have hwrites := printMissing_writes hk hviews k hjob
    (by rw [hcompletion]; exact ⟨Nat.zero_le _, fun _ => rfl⟩)
  rw [hcompletion] at hwrites
  rwa [Option.getD_none, Completion.left_default] at hwrites

end Call

/-! ### Any number of calls -/

section Calls

variable {σ : Type} [Sink σ]

/-- The answer of a call that writes what is missing, or of one that goes on writing it after a byte
was refused. In between the sink may come to be in any state. -/
inductive Asks (r : Reader) (s : Printing (Recorded σ)) :
    EStateM.Result Fault (Printing (Recorded σ)) PrintStatus → Prop where
  | first : Asks r s (printMissing r s)
  | again {t : Printing (Recorded σ)} (h : Asks r s (.ok .blocked t)) (inner : σ) :
      Asks r s (printMissing r ⟨t.printer, t.arena, ⟨inner, t.sink.accepted⟩⟩)

/-- However often the sink refuses, it accepts what is missing, each byte once and in order. -/
theorem asks_writes {r : Reader} {a : Arena} {ctxs : List OpenContext} (hviews : Views r a ctxs)
    {p : Printer} (k : Recorded σ) (hbusy : p.isBusy = false)
    {result : EStateM.Result Fault (Printing (Recorded σ)) PrintStatus}
    (h : Asks r ⟨p, a, k⟩ result) :
    Writes Recorded.accepted r.pendingSigil ctxs (missing r.pendingSigil ctxs) p a k result := by
  have hjob := (idle_iff.1 hbusy).1
  induction h with
  | first => exact printMissing_writes_all keeps_recorded hviews k hbusy
  | @again t h inner ih =>
      generalize hstatus : EStateM.Result.ok PrintStatus.blocked t = blocked at ih
      cases ih with
      | done =>
          injection hstatus with hstatus _
          contradiction
      | @blocked k' c hfits hleft hseen hrefuses =>
          injection hstatus with _ ht
          subst ht
          have hwrites := printMissing_writes keeps_recorded hviews
            (p := { p with completion := some c }) ⟨inner, k'.accepted⟩ hjob hfits
          rw [Option.getD_some] at hwrites
          have hwrites := hwrites.of_eq hseen
          generalize printMissing r ⟨{ p with completion := some c }, a,
            (⟨inner, k'.accepted⟩ : Recorded σ)⟩ = result at hwrites
          cases hwrites with
          | done hseen => exact .done hseen
          | blocked c hfits hleft hseen hrefuses => exact .blocked c hfits hleft hseen hrefuses

end Calls

/-- A sink that accepts everything is given what is missing at once. -/
theorem printMissing_transcript {r : Reader} {a : Arena} {ctxs : List OpenContext}
    (hviews : Views r a ctxs) {p : Printer} (k : Transcript) (hbusy : p.isBusy = false) :
    ∃ k', printMissing r ⟨p, a, k⟩ = .ok .done ⟨p, a, k'⟩ ∧
      k'.bytes = k.bytes ++ missing r.pendingSigil ctxs := by
  have hcompletion := (idle_iff.1 hbusy).2
  have hwrites := printMissing_writes_all keeps_transcript hviews k hbusy
  generalize hresult : printMissing r ⟨p, a, k⟩ = result at hwrites
  cases hwrites with
  | @done k' hseen =>
      refine ⟨k', ?_, hseen⟩
      rw [← hcompletion]
  | blocked c _ _ _ hrefuses => exact (not_refuses_transcript hrefuses).elim

end Printing

end FlatLisp
