/-
Module: FlatLisp.Proofs.Reading.Spelling
Purpose: Over bytes that are all there the scans find what the productions of the grammar say: the
  same sigil, the same characters and the same number, and where the input ends, or is wrong.
Main exports: Reading.Spells, Reading.spells_symbol, Reading.spells_integer, Reading.splitSigil_splits
-/
import FlatLisp.Proofs.Reading.Grammar
import FlatLisp.Proofs.Reading.Parse
import FlatLisp.Proofs.Reading.Scan

namespace FlatLisp

namespace Reading

open Text
open Source (ofBytes)
open Grammar (Result)

/-! ### Symbols -/

/-- A scan of a symbol over `input` has found what a production says. -/
def Spells (run : SymbolRun) (input : List UInt8) : Result (List UInt8) → Prop
  | .whole chars rest =>
      run.chars = chars ∧ ∃ before back after, input = before ++ rest ∧ rest = back ++ after ∧
        run.ending = .closed back ∧ run.taken = before.length + back.length
  | .cut => run.ending = .starved
  | .refused cause found left =>
      cause = .symbolTooLong ∧ ∃ before c, input = before ++ c :: left ∧ found = some c ∧
        run.ending = .tooLong c ∧ run.taken = before.length + 1

/-- One more byte before a run, and what it adds to the characters. -/
theorem Spells.after {run : SymbolRun} {input : List UInt8} {result : Result (List UInt8)}
    (h : Spells run input result) (c : UInt8) (chars : List UInt8) :
    Spells (run.after chars) (c :: input) (result.map (chars ++ ·)) := by
  cases result with
  | cut => exact h
  | whole found rest =>
      obtain ⟨rfl, before, back, after, rfl, rfl, hending, htaken⟩ := h
      refine ⟨rfl, c :: before, back, after, rfl, rfl, hending, ?_⟩
      simp only [SymbolRun.after, htaken, List.length_cons]
      omega
  | refused cause found left =>
      obtain ⟨rfl, before, d, rfl, rfl, hending, htaken⟩ := h
      refine ⟨rfl, c :: before, d, rfl, rfl, hending, ?_⟩
      simp only [SymbolRun.after, htaken, List.length_cons]

theorem map_nil_append (result : Result (List UInt8)) : result.map ([] ++ ·) = result := by
  cases result <;> rfl

theorem spells_plain {length room : Nat} (hroom : length + room = Header.maxSymbol)
    (input : List UInt8) :
    Spells (scanSymbol false false length room (ofBytes input)) input
      (Grammar.plain room input) := by
  induction input generalizing length room with
  | nil => simp [Spells, scanSymbol, SymbolRun.stop]
  | cons c rest ih =>
      rw [Source.ofBytes_cons, scanSymbol_cons, Grammar.plain_cons]
      cases hends : endsSymbol c with
      | true => exact ⟨rfl, [], [c], rest, rfl, rfl, rfl, rfl⟩
      | false =>
          simp only [Bool.not_false, Bool.true_and, Bool.false_and, Bool.false_eq_true, if_false]
          cases room with
          | zero =>
              rw [if_pos (by omega)]
              exact ⟨rfl, [], c, rfl, rfl, rfl, rfl⟩
          | succ room =>
              rw [if_neg (by omega)]
              exact (ih (by omega)).after c [c]

/-- A byte between quotes that is a character of the symbol. -/
theorem scanSymbol_literal {escaped : Bool} {length room : Nat} {c : UInt8} {rest : Source}
    (h : escaped = true ∨ c ≠ Ascii.doubleQuote ∧ c ≠ Ascii.backslash) :
    scanSymbol true escaped length room (some c :: rest) =
      if length = Header.maxSymbol then .stop 1 false (.tooLong c)
      else
        match room with
        | 0 => .stop 1 false .full
        | room + 1 => (scanSymbol true false (length + 1) room rest).after [c] := by
  have hmarks : (!escaped && c == Ascii.backslash) = false ∧
      (!escaped && c == Ascii.doubleQuote) = false := by
    rcases h with rfl | ⟨hquote, hbackslash⟩
    · exact ⟨rfl, rfl⟩
    · rw [beq_eq_false_iff_ne.2 hquote, beq_eq_false_iff_ne.2 hbackslash, Bool.and_false]
      exact ⟨rfl, rfl⟩
  cases room <;>
    simp only [scanSymbol_cons, Bool.not_true, Bool.true_and, Bool.false_and, hmarks,
      Bool.false_eq_true, if_false]

theorem spells_quoted {length room : Nat} (hroom : length + room = Header.maxSymbol)
    (input : List UInt8) :
    Spells (scanSymbol true false length room (ofBytes input)) input
      (Grammar.quoted room input) := by
  fun_induction Grammar.quoted room input generalizing length with
  | case1 => simp [Spells, scanSymbol, SymbolRun.stop]
  | case2 room rest =>
      rw [Source.ofBytes_cons, scanSymbol_cons]
      exact ⟨rfl, [Ascii.doubleQuote], [], rest, rfl, rfl, rfl, rfl⟩
  | case3 room h =>
      rw [Source.ofBytes_cons, scanSymbol_cons]
      simp [Spells, scanSymbol, SymbolRun.stop, SymbolRun.after]
  | case4 d rest h =>
      rw [Source.ofBytes_cons, scanSymbol_cons, Source.ofBytes_cons,
        scanSymbol_literal (.inl rfl), if_pos (show length = Header.maxSymbol by omega)]
      exact ⟨rfl, [Ascii.backslash], d, rfl, rfl, rfl, rfl⟩
  | case5 room d rest h ih =>
      have hspells := ((@ih (length + 1) (by omega)).after d [d]).after Ascii.backslash []
      rw [map_nil_append] at hspells
      rw [Source.ofBytes_cons, scanSymbol_cons, Source.ofBytes_cons,
        scanSymbol_literal (.inl rfl), if_neg (show length ≠ Header.maxSymbol by omega)]
      exact hspells
  | case6 c rest hquote hbackslash =>
      rw [Source.ofBytes_cons, scanSymbol_literal (.inr ⟨hquote, hbackslash⟩),
        if_pos (show length = Header.maxSymbol by omega)]
      exact ⟨rfl, [], c, rfl, rfl, rfl, rfl⟩
  | case7 c rest hquote hbackslash room ih =>
      rw [Source.ofBytes_cons, scanSymbol_literal (.inr ⟨hquote, hbackslash⟩),
        if_neg (show length ≠ Header.maxSymbol by omega)]
      exact (ih (by omega)).after c [c]

/-! ### Integers -/

/-- The glyphs in the order in which the grammar asks for them. -/
theorem ofByte_eq (c : UInt8) :
    Glyph.ofByte c =
      if Grammar.isSign c then .sign
      else if c = Ascii.openParen then .opens
      else if c = Ascii.doubleQuote then .quote
      else if Ascii.isDigit c then .digit
      else if Ascii.isBlank c then .blank
      else if c = Ascii.closeParen then .closes
      else if c = Ascii.semicolon then .comment
      else .other := by
  have h : ∀ n : Fin 256, Glyph.ofByte (UInt8.ofFin n) =
      if Grammar.isSign (UInt8.ofFin n) then .sign
      else if UInt8.ofFin n = Ascii.openParen then .opens
      else if UInt8.ofFin n = Ascii.doubleQuote then .quote
      else if Ascii.isDigit (UInt8.ofFin n) then .digit
      else if Ascii.isBlank (UInt8.ofFin n) then .blank
      else if UInt8.ofFin n = Ascii.closeParen then .closes
      else if UInt8.ofFin n = Ascii.semicolon then .comment
      else .other := by decide +kernel
  exact h c.toFin

theorem ofByte_sign {c : UInt8} : Glyph.ofByte c = .sign ↔ Grammar.isSign c = true := by
  rw [ofByte_eq]
  grind

theorem ofByte_digit {c : UInt8} : Glyph.ofByte c = .digit ↔ Ascii.isDigit c = true := by
  have h : ∀ n : Fin 256, Ascii.isDigit (UInt8.ofFin n) = true →
      Glyph.ofByte (UInt8.ofFin n) = .digit := by decide +kernel
  refine ⟨?_, h c.toFin⟩
  rw [ofByte_eq]
  grind

/-- A scan of an integer over `input` has found what a production says. -/
def SpellsNumber (run : IntegerRun) (count : Nat) (input : List UInt8) : Result Int → Prop
  | .whole value rest =>
      Leaf.signed run.negative run.magnitude = value ∧ ∃ before c after,
        input = before ++ rest ∧ rest = c :: after ∧ run.ending = .closed c ∧
        run.taken = count + before.length + 1
  | .cut => run.ending = .starved
  | .refused cause found left =>
      cause = .integerOverflow ∧ ∃ before c, input = before ++ c :: left ∧ found = some c ∧
        run.ending = .overflow c ∧ run.taken = count + before.length + 1

theorem SpellsNumber.cons {run : IntegerRun} {count : Nat} {input : List UInt8}
    {result : Result Int} (h : SpellsNumber run (count + 1) input result) (c : UInt8) :
    SpellsNumber run count (c :: input) result := by
  cases result with
  | cut => exact h
  | whole value rest =>
      obtain ⟨hvalue, before, d, after, rfl, hrest, hending, htaken⟩ := h
      refine ⟨hvalue, c :: before, d, after, rfl, hrest, hending, ?_⟩
      rw [htaken, List.length_cons]
      omega
  | refused cause found left =>
      obtain ⟨hcause, before, d, rfl, hfound, hending, htaken⟩ := h
      refine ⟨hcause, c :: before, d, rfl, hfound, hending, ?_⟩
      rw [htaken, List.length_cons]
      omega

theorem spells_integer (negative digits : Bool) (magnitude count : Nat) (input : List UInt8) :
    SpellsNumber (scanInteger magnitude negative digits count (ofBytes input)) count input
      (Grammar.integer negative magnitude input) := by
  fun_induction Grammar.integer negative magnitude input generalizing digits count with
  | case1 negative magnitude => simp [SpellsNumber, scanInteger]
  | case2 negative magnitude c rest hsign ih =>
      rw [Source.ofBytes_cons, scanInteger, ofByte_sign.2 hsign.1]
      dsimp only
      rw [if_pos hsign.2]
      exact (ih digits (count + 1)).cons c
  | case3 negative magnitude c rest hsign hdigit longer hle ih =>
      rw [Source.ofBytes_cons, scanInteger, ofByte_digit.2 hdigit]
      dsimp only
      rw [if_pos hle]
      exact (ih true (count + 1)).cons c
  | case4 negative magnitude c rest hsign hdigit longer hle =>
      rw [Source.ofBytes_cons, scanInteger, ofByte_digit.2 hdigit]
      dsimp only
      rw [if_neg hle]
      exact ⟨rfl, [], c, rfl, rfl, rfl, rfl⟩
  | case5 negative magnitude c rest hsign hdigit =>
      have hclosed : SpellsNumber ⟨magnitude, negative, digits, count + 1, .closed c⟩ count
          (c :: rest)
          (.whole (if negative then -magnitude else magnitude) (c :: rest)) :=
        ⟨rfl, [], c, rest, rfl, rfl, rfl, rfl⟩
      rw [Source.ofBytes_cons, scanInteger]
      cases hglyph : Glyph.ofByte c with
      | digit => exact (hdigit (ofByte_digit.1 hglyph)).elim
      | sign =>
          dsimp only
          rw [if_neg fun hzero => hsign ⟨ofByte_sign.1 hglyph, hzero⟩]
          exact hclosed
      | blank | opens | closes | comment | quote | other => exact hclosed

/-! ### Sigils -/

theorem ofByte_of_sigil {c : UInt8} (h : (Sigil.ofByte? c).isSome = true) :
    Glyph.ofByte c = .other := by
  have hall : ∀ n : Fin 256, (Sigil.ofByte? (UInt8.ofFin n)).isSome = true →
      Glyph.ofByte (UInt8.ofFin n) = .other := by decide +kernel
  exact hall c.toFin h

theorem combine_cases {sigil longer : Sigil} {c : UInt8} (h : sigil.combine c = some longer) :
    sigil = .bare ∧ Sigil.ofByte? c = some longer ∨
      sigil = .unquote ∧ c = Ascii.atSign ∧ longer = .unquoteSplicing ∨
      sigil = .sharp ∧ c = Ascii.quote ∧ longer = .sharpQuote := by
  cases sigil <;> simp only [Sigil.combine, reduceCtorEq, Option.ite_none_right_eq_some] at h
  case bare => exact .inl ⟨rfl, h⟩
  case unquote => exact .inr (.inl ⟨rfl, h.1, (Option.some.inj h.2).symm⟩)
  case sharp => exact .inr (.inr ⟨rfl, h.1, (Option.some.inj h.2).symm⟩)

theorem ofByte_of_combine {sigil longer : Sigil} {c : UInt8} (h : sigil.combine c = some longer) :
    Glyph.ofByte c = .other := by
  rcases combine_cases h with ⟨_, h⟩ | ⟨_, rfl, _⟩ | ⟨_, rfl, _⟩
  · exact ofByte_of_sigil (by rw [h]; rfl)
  · rfl
  · rfl

/-- No sigil has three characters. -/
theorem combine_combine {sigil longer : Sigil} {c : UInt8} (hsigil : sigil ≠ .bare)
    (h : sigil.combine c = some longer) (d : UInt8) : longer.combine d = none := by
  rcases combine_cases h with ⟨hbare, _⟩ | ⟨_, _, rfl⟩ | ⟨_, _, rfl⟩
  · exact (hsigil hbare).elim
  · rfl
  · rfl

theorem ofByte?_ne_bare (c : UInt8) : Sigil.ofByte? c ≠ some .bare := by
  unfold Sigil.ofByte?
  repeat' split
  all_goals simp

theorem combine_ne_bare {sigil longer : Sigil} {c : UInt8} (h : sigil.combine c = some longer) :
    longer ≠ .bare := by
  rcases combine_cases h with ⟨_, h⟩ | ⟨_, _, rfl⟩ | ⟨_, _, rfl⟩
  · intro hbare
    rw [hbare] at h
    exact ofByte?_ne_bare c h
  · exact Sigil.noConfusion
  · exact Sigil.noConfusion

theorem scanSigils_of_combine (level : Int) {sigil longer : Sigil} (run : List UInt8) (taken : Nat)
    {c : UInt8} (rest : Source) (h : sigil.combine c = some longer) :
    scanSigils level sigil run taken (some c :: rest) =
      scanSigils level longer (run ++ [c]) (taken + 1) rest := by
  rw [scanSigils.eq_def]
  simp only [ofByte_of_combine h, h]

/-- A scan goes over the longest sigil that the input begins with. -/
structure SplitsAt (level : Int) (input run : List UInt8) (sigil : Sigil) (body : List UInt8) :
    Prop where
  split : input = run ++ body
  goesOn : ∀ more, scanSigils level .bare [] 0 (ofBytes run ++ more) =
    scanSigils level sigil run run.length more
  longest : ∀ c rest, body = c :: rest → sigil.combine c = none
  bare : sigil = .bare → run = []
  last : ∀ c ∈ run.getLast?, (Sigil.ofByte? c).isSome = true

theorem SplitsAt.scan {level : Int} {input run body : List UInt8} {sigil : Sigil}
    (h : SplitsAt level input run sigil body) :
    scanSigils level .bare [] 0 (ofBytes input) =
      scanSigils level sigil run run.length (ofBytes body) := by
  rw [h.split, Source.ofBytes_append, h.goesOn]

theorem isSome_of_combine {sigil longer : Sigil} {c : UInt8} (h : sigil.combine c = some longer) :
    (Sigil.ofByte? c).isSome = true := by
  rcases combine_cases h with ⟨_, h⟩ | ⟨_, rfl, _⟩ | ⟨_, rfl, _⟩
  · rw [h]
    rfl
  · rfl
  · rfl

theorem splitSigil_splits (level : Int) (input : List UInt8) :
    ∃ run, SplitsAt level input run (Grammar.splitSigil input).1 (Grammar.splitSigil input).2 := by
  cases input with
  | nil => exact ⟨[], rfl, fun _ => rfl, by simp [Grammar.splitSigil], fun _ => rfl, by simp⟩
  | cons c rest =>
      cases hfirst : Sigil.ofByte? c with
      | none =>
          have hsplit : Grammar.splitSigil (c :: rest) = (.bare, c :: rest) := by
            simp only [Grammar.splitSigil, hfirst]
          rw [hsplit]
          refine ⟨[], rfl, fun _ => rfl, ?_, fun _ => rfl, by simp⟩
          intro d after h
          injection h with h _
          rw [← h]
          exact hfirst
      | some sigil =>
          have hne : sigil ≠ .bare := by
            intro hbare
            rw [hbare] at hfirst
            exact ofByte?_ne_bare c hfirst
          have hone : ∀ more, scanSigils level .bare [] 0 (ofBytes [c] ++ more) =
              scanSigils level sigil [c] 1 more := by
            intro more
            exact scanSigils_of_combine level [] 0 more
              (show Sigil.bare.combine c = some sigil from hfirst)
          have hsome : ∀ x ∈ [c].getLast?, (Sigil.ofByte? x).isSome = true := by
            rintro x ⟨⟩
            exact isSome_of_combine (show Sigil.bare.combine c = some sigil from hfirst)
          cases rest with
          | nil =>
              have hsplit : Grammar.splitSigil [c] = (sigil, []) := by
                simp only [Grammar.splitSigil, hfirst]
              rw [hsplit]
              exact ⟨[c], rfl, hone, by simp, fun h => (hne h).elim, hsome⟩
          | cons d after =>
              cases hsecond : sigil.combine d with
              | none =>
                  have hsplit : Grammar.splitSigil (c :: d :: after) = (sigil, d :: after) := by
                    simp only [Grammar.splitSigil, hfirst, hsecond]
                  rw [hsplit]
                  refine ⟨[c], rfl, hone, ?_, fun h => (hne h).elim, hsome⟩
                  intro e more h
                  injection h with h _
                  rw [← h]
                  exact hsecond
              | some longer =>
                  have hsplit : Grammar.splitSigil (c :: d :: after) = (longer, after) := by
                    simp only [Grammar.splitSigil, hfirst, hsecond]
                  rw [hsplit]
                  refine ⟨[c, d], rfl, ?_, fun e _ _ => combine_combine hne hsecond e, ?_, ?_⟩
                  · intro more
                    exact (hone (some d :: more)).trans
                      (scanSigils_of_combine level [c] 1 more hsecond)
                  · intro hbare
                    exact (combine_ne_bare hsecond hbare).elim
                  · rintro x ⟨⟩
                    exact isSome_of_combine hsecond

/-- A sign before what is neither a digit nor a parenthesis begins a symbol. -/
theorem leadSigned_symbol {level : Int} {sigil : Sigil} {s c : UInt8} (hopen : c ≠ Ascii.openParen)
    (hdigit : ¬ Ascii.isDigit c = true) :
    leadSigned level sigil s c = allowed level sigil c (.symbol sigil false) [s, c] := by
  rw [leadSigned, ofByte_eq, if_neg hopen, if_neg hdigit]
  split
  · grind
  · grind
  · rfl

end Reading

end FlatLisp
