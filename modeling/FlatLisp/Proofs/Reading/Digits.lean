/-
Module: FlatLisp.Proofs.Reading.Digits
Purpose: What is left at a stop. An integer is begun only where a digit has arrived, or a sign and a
  digit, and the turn after that takes them: so wherever a read stops, an integer in progress has a
  digit. And no more than three bytes are kept to be read again.
Main exports: Parse.HasDigits, Parse.Outcome.Stops, Parse.stops_turn, Parse.stops_read
-/
import FlatLisp.Proofs.Reading.Progress

namespace FlatLisp

namespace Reading

open Text

/-! ### Digits in a scan -/

/-- A digit that was met stays met. -/
theorem scanInteger_digits (magnitude : Nat) (negative : Bool) {digits : Bool} (taken : Nat)
    (source : Source) (h : digits = true) :
    (scanInteger magnitude negative digits taken source).digits = true := by
  fun_induction scanInteger magnitude negative digits taken source with
  | case1 | case2 | case4 | case6 | case7 => exact h
  | case3 _ _ _ _ _ _ ih => exact ih h
  | case5 _ _ _ _ _ _ _ _ _ ih => exact ih rfl

/-- The first digit of an integer does not make it too large. -/
theorem scanInteger_digit {c : UInt8} (hc : Glyph.ofByte c = .digit) (negative : Bool) (taken : Nat)
    (rest : Source) : (scanInteger 0 negative false taken (some c :: rest)).digits = true := by
  have hsmall : 0 * 10 + Ascii.digitValue c ≤ Header.maxMagnitude := by
    have := c.toNat_lt
    rw [Ascii.digitValue, Header.maxMagnitude]
    omega
  simp only [scanInteger, hc]
  rw [if_pos hsmall]
  exact scanInteger_digits _ _ _ _ rfl

/-- The bytes that show an integer have a digit among them. -/
theorem scanInteger_of_begins {back : List UInt8} (h : Token.integer.Begins back) (rest : Source) :
    (scanInteger 0 false false 0 (back.map some ++ rest)).digits = true := by
  rcases h with ⟨c, rfl, hc⟩ | ⟨s, c, rfl, hs, hc⟩
  · exact scanInteger_digit hc false 0 rest
  · rw [List.map_cons, List.cons_append, scanInteger, hs]
    exact scanInteger_digit hc _ 1 rest

end Reading

namespace Parse

open Reading

variable {l : Limits} {p : Parse}

/-- An integer in progress has a digit. -/
def HasDigits (p : Parse) : Prop :=
  ∀ negative magnitude, p.leaf ≠ some (.integer negative false magnitude)

/-- An integer in progress has a digit, or comes to one in the bytes that are read next. -/
def MeetsDigits (p : Parse) : Prop :=
  ∀ negative magnitude, p.leaf = some (.integer negative false magnitude) →
    p.inComment = false ∧ (scanInteger magnitude negative false 0 p.ahead).digits = true

theorem HasDigits.meets (h : p.HasDigits) : p.MeetsDigits :=
  fun negative magnitude hleaf => (h negative magnitude hleaf).elim

theorem hasDigits_of_leaf (hleaf : p.leaf = none) : p.HasDigits := by
  intro negative magnitude h
  rw [hleaf] at h
  contradiction

/-- Where a turn stops an integer in progress has a digit, and no more than three bytes are kept. -/
def Outcome.Stops : Outcome → Prop
  | .again p => p.MeetsDigits
  | .starved kept p => p.HasDigits ∧ kept.length ≤ 3
  | .done _ p => p.HasDigits
  | .failed _ => True

/-! ### Turns -/

theorem stops_complete (hleaf : p.leaf = none) (t : Tree) : (p.complete t).Stops := by
  rw [complete]
  split
  · exact hasDigits_of_leaf hleaf
  · split
    · trivial
    · exact (hasDigits_of_leaf hleaf).meets

theorem stops_begin {next : Parse} (h : next.MeetsDigits) (length : Nat) :
    (p.begin l length next).Stops := by
  rw [begin]
  split
  · trivial
  · exact h

theorem stops_accept (hcomment : p.inComment = false) (hleaf : p.leaf = none) {token : Token}
    {back : List UInt8} {rest : Source} (hahead : p.ahead = back.map some ++ rest)
    (hbegins : token.Begins back) : (p.accept l token).Stops := by
  cases token with
  | comment => exact (hasDigits_of_leaf (p := { p with inComment := true }) hleaf).meets
  | close =>
      cases hlists : p.lists with
      | nil =>
          rw [accept_close_nil l hlists]
          trivial
      | cons o outer =>
          rw [accept_close_cons l hlists]
          exact stops_complete (p := { p with lists := outer }) hleaf _
  | list sigil =>
      rw [accept]
      split
      · trivial
      · exact stops_begin (hasDigits_of_leaf (p := { p with lists := ⟨sigil, []⟩ :: p.lists })
          hleaf).meets _
  | symbol sigil quoted =>
      apply stops_begin
      intro negative magnitude h
      injection h with h
      contradiction
  | integer =>
      apply stops_begin
      intro negative magnitude h
      injection h with h
      injection h with hnegative _ hmagnitude
      subst hnegative hmagnitude
      refine ⟨hcomment, ?_⟩
      change (scanInteger 0 false false 0 p.ahead).digits = true
      rw [hahead]
      exact scanInteger_of_begins hbegins rest

theorem stops_commentTurn (h : p.MeetsDigits) (hcomment : p.inComment = true) :
    p.commentTurn.Stops := by
  -- A comment is met between values only, so this is no integer that waits for its digits.
  have hdigits : p.HasDigits := by
    intro negative magnitude hleaf
    rw [(h negative magnitude hleaf).1] at hcomment
    contradiction
  rw [commentTurn]
  rcases scanComment 0 p.ahead with ⟨taken, _ | _⟩
  · exact ⟨hdigits, Nat.zero_le _⟩
  · exact HasDigits.meets (p := { p.consume taken [] with inComment := false }) hdigits

theorem stops_tokenTurn (hcomment : p.inComment = false) (hleaf : p.leaf = none) :
    (p.tokenTurn l).Stops := by
  obtain ⟨bytes, tail, hahead, htail⟩ := p.ahead.exists_split
  have hbegins := scanLead_begins (levelOf p.lists) 0 p.ahead
  rw [tokenTurn]
  rw [hahead] at hbegins ⊢
  rcases scanLead_ofBytes (levelOf p.lists) 0 bytes with
    ⟨count, lead, ⟨-, -, hlead⟩, hscan⟩ | ⟨blanks, run, -, hrun, -, hstall⟩
  · rw [hscan] at hbegins ⊢
    cases lead with
    | starved run => exact hlead.elim
    | rejected cause found => trivial
    | accepted token back =>
        exact stops_accept (p := p.consume (0 + count) back) hcomment hleaf rfl hbegins
  · rw [hstall tail htail]
    exact ⟨hasDigits_of_leaf hleaf, hrun⟩

theorem stops_symbolTurn (sigil : Sigil) (quoted escaped : Bool) (chars : List UInt8) :
    (p.symbolTurn l sigil quoted escaped chars).Stops := by
  rw [symbolTurn, afterSymbol]
  split
  · refine ⟨fun negative magnitude h => ?_, Nat.zero_le _⟩
    injection h with h
    contradiction
  · trivial
  · trivial
  · exact stops_complete rfl _

/-- The scan that goes on with an integer has met a digit when it stops. -/
theorem stops_integerTurn {negative digits : Bool} {magnitude : Nat} (h : p.MeetsDigits)
    (hleaf : p.leaf = some (.integer negative digits magnitude)) :
    (p.integerTurn negative digits magnitude).Stops := by
  have hdigits : (scanInteger magnitude negative digits 0 p.ahead).digits = true := by
    cases digits with
    | true => exact scanInteger_digits _ _ _ _ rfl
    | false => exact (h negative magnitude hleaf).2
  rw [integerTurn, afterInteger]
  split
  · refine ⟨fun negative' magnitude' hleaf' => ?_, Nat.zero_le _⟩
    injection hleaf' with hleaf'
    injection hleaf' with _ hnone _
    rw [hdigits] at hnone
    contradiction
  · trivial
  · exact stops_complete rfl _

theorem stops_turn (h : p.MeetsDigits) : (p.turn l).Stops := by
  rw [turn]
  split
  · exact stops_commentTurn h ‹_›
  · rename_i hcomment
    split
    · exact stops_tokenTurn (Bool.eq_false_iff.2 hcomment) ‹_›
    · exact stops_symbolTurn ..
    · exact stops_integerTurn h ‹_›

/-- Wherever a read stops an integer in progress has a digit, and no more than three bytes are kept. -/
theorem stops_read (hvalid : p.Valid l) (h : p.MeetsDigits) : (p.read l).Stops := by
  induction p, hvalid using read_induction with
  | step p hvalid ih =>
      rw [read_eq hvalid]
      have hstops := stops_turn (l := l) h
      cases hturn : p.turn l with
      | again q =>
          rw [hturn] at hstops
          exact ih q (valid_of_again hvalid hturn) hturn hstops
      | starved kept q | done t q | failed why =>
          rw [hturn] at hstops
          exact hstops

end Parse

end FlatLisp
