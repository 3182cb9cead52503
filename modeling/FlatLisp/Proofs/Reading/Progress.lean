/-
Module: FlatLisp.Proofs.Reading.Progress
Purpose: A read ends. Every turn after which another is taken leaves less to do, and the fuel of a
  read is more than there is to do at its beginning; so a read is its first turn and then the read
  that goes on from there. A value takes one byte at least.
Main exports: Parse.work, Parse.work_lt_of_again, Parse.read_eq, Parse.read_induction
-/
import FlatLisp.Proofs.Reading.Validity

namespace FlatLisp

open Source (ofBytes)

namespace Reading

open Text

/-! ### What a scan leaves behind -/

theorem endsSymbol_of_glyph {c : UInt8} (h : Glyph.ofByte c = .other ∨ Glyph.ofByte c = .sign) :
    endsSymbol c = false := by
  unfold endsSymbol
  by_cases hblank : Ascii.isBlank c = true
  · simp [Glyph.ofByte, hblank] at h
  by_cases hclose : c = Ascii.closeParen
  · subst hclose
    revert h
    decide
  by_cases hsemicolon : c = Ascii.semicolon
  · subst hsemicolon
    revert h
    decide
  simp [hblank, hclose, hsemicolon]

/-- The bytes that are given back with a token are the first ones of its text. -/
def Token.Begins (back : List UInt8) : Token → Prop
  | .symbol _ false => ∃ c rest, back = c :: rest ∧ endsSymbol c = false
  | .integer =>
      (∃ c, back = [c] ∧ Glyph.ofByte c = .digit) ∨
        ∃ s c, back = [s, c] ∧ Glyph.ofByte s = .sign ∧ Glyph.ofByte c = .digit
  | _ => back = []

/-- As `Token.Begins`, for an outcome. -/
def Lead.Begins : Lead → Prop
  | .accepted token back => token.Begins back
  | _ => True

theorem allowed_begins {level : Int} {sigil : Sigil} {c : UInt8} {token : Token}
    {back : List UInt8} (h : token.Begins back) : (allowed level sigil c token back).Begins := by
  unfold allowed
  split
  · trivial
  · exact h

theorem leadSigned_begins {level : Int} {sigil : Sigil} {s c : UInt8}
    (hs : Glyph.ofByte s = .sign) : (leadSigned level sigil s c).Begins := by
  unfold leadSigned
  split
  · rename_i hc
    split
    · trivial
    · exact .inr ⟨s, c, rfl, hs, hc⟩
  · split
    · trivial
    · exact rfl
  · exact allowed_begins ⟨s, [c], rfl, endsSymbol_of_glyph (.inr hs)⟩

theorem scanSigils_begins (level : Int) (sigil : Sigil) (run : List UInt8) (taken : Nat)
    (source : Source) : (scanSigils level sigil run taken source).2.Begins := by
  fun_induction scanSigils level sigil run taken source with
  | case1 | case2 | case3 | case4 | case11 => trivial
  | case5 _ _ _ c hsign => exact leadSigned_begins hsign
  | case6 | case7 => exact allowed_begins rfl
  | case8 _ _ _ c rest hdigit =>
      split
      · trivial
      · exact .inl ⟨c, rfl, hdigit⟩
  | case9 | case10 =>
      split
      · trivial
      · exact rfl
  | case12 _ _ _ _ _ _ _ _ ih => exact ih
  | case13 _ _ _ c rest hother =>
      split
      · trivial
      · exact allowed_begins ⟨c, [], rfl, endsSymbol_of_glyph (.inl hother)⟩

theorem scanLead_begins (level : Int) (taken : Nat) (source : Source) :
    (scanLead level taken source).2.Begins := by
  fun_induction scanLead level taken source with
  | case1 _ _ _ _ ih => exact ih
  | case2 => exact scanSigils_begins ..
  | case3 => exact scanSigils_begins ..

/-- The next byte is there and ends the leaf. -/
def closesAtOnce : Leaf → Source → Bool
  | .symbol _ quoted _ _, some c :: _ => !quoted && endsSymbol c
  | .integer _ _ magnitude, some c :: _ =>
      match Glyph.ofByte c with
      | .digit => false
      | .sign => magnitude != 0
      | _ => true
  | _, _ => false

/-- A symbol that is complete has taken more bytes than it gives back, unless its first byte ended
it. -/
theorem scanSymbol_closed (sigil : Sigil) (quoted escaped : Bool) (chars : List UInt8)
    (length room : Nat) (source : Source) (back : List UInt8)
    (h : (scanSymbol quoted escaped length room source).ending = .closed back) :
    back.length ≤ (scanSymbol quoted escaped length room source).taken ∧
      (back.length < (scanSymbol quoted escaped length room source).taken ∨
        closesAtOnce (.symbol sigil quoted escaped chars) source = true) := by
  fun_induction scanSymbol quoted escaped length room source with
  | case1 | case2 | case6 | case7 => simp [SymbolRun.stop] at h
  | case3 _ _ _ _ _ hends =>
      simp only [SymbolRun.stop, SymbolRun.Ending.closed.injEq] at h
      subst h
      exact ⟨Nat.le_refl _, .inr hends⟩
  | case4 _ _ _ _ _ _ _ ih =>
      obtain ⟨hle, -⟩ := ih h
      exact ⟨Nat.le_succ_of_le hle, .inl (Nat.lt_succ_of_le hle)⟩
  | case5 =>
      simp only [SymbolRun.stop, SymbolRun.Ending.closed.injEq] at h
      subst h
      exact ⟨Nat.zero_le _, .inl (Nat.zero_lt_one)⟩
  | case8 _ _ _ _ _ _ _ _ _ ih =>
      obtain ⟨hle, -⟩ := ih h
      exact ⟨Nat.le_succ_of_le hle, .inl (Nat.lt_succ_of_le hle)⟩

/-- As `scanSymbol_closed`, for integers, which always give one byte back. -/
theorem scanInteger_closed (magnitude taken : Nat) (negative digits : Bool) (source : Source)
    (next : UInt8) (h : (scanInteger magnitude negative digits taken source).ending = .closed next) :
    taken < (scanInteger magnitude negative digits taken source).taken ∧
      (taken + 1 < (scanInteger magnitude negative digits taken source).taken ∨
        closesAtOnce (.integer negative digits magnitude) source = true) := by
  fun_induction scanInteger magnitude negative digits taken source with
  | case1 | case2 | case6 => simp at h
  | case3 _ _ _ _ _ _ ih =>
      obtain ⟨hlt, -⟩ := ih h
      exact ⟨Nat.lt_of_succ_lt hlt, .inl hlt⟩
  | case4 _ _ _ _ c _ hsign hzero =>
      exact ⟨Nat.lt_succ_self _, .inr (by simpa [closesAtOnce, hsign] using hzero)⟩
  | case5 _ _ _ _ _ _ _ _ _ ih =>
      obtain ⟨hlt, -⟩ := ih h
      exact ⟨Nat.lt_of_succ_lt hlt, .inl hlt⟩
  | case7 magnitude negative digits _ c _ hsign hdigit =>
      refine ⟨Nat.lt_succ_self _, .inr ?_⟩
      cases hglyph : Glyph.ofByte c with
      | digit => exact (hdigit hglyph).elim
      | sign => exact (hsign hglyph).elim
      | blank | opens | closes | comment | quote | other => simp [closesAtOnce, hglyph]

end Reading

namespace Parse

open Reading

variable {l : Limits} {p q : Parse}

/-! ### How much is left to do -/

/-- How much a read has left to do: three for each byte, and a few that depend on what is in
progress. -/
def work (p : Parse) : Nat :=
  3 * p.ahead.length +
    if p.inComment then 2
    else
      match p.leaf with
      | none => 2
      | some leaf => if closesAtOnce leaf p.ahead then 3 else 1

theorem work_le (p : Parse) : p.work ≤ 3 * p.ahead.length + 3 := by
  unfold work
  split
  · omega
  · split
    · omega
    · split <;> omega

theorem work_of_token (hleaf : p.leaf = none) : p.work = 3 * p.ahead.length + 2 := by
  unfold work
  rw [hleaf]
  split <;> rfl

theorem work_of_open {leaf : Leaf} (hcomment : p.inComment = false) (hleaf : p.leaf = some leaf)
    (hopen : closesAtOnce leaf p.ahead = false) : p.work = 3 * p.ahead.length + 1 := by
  unfold work
  rw [hcomment, hleaf, if_neg Bool.false_ne_true]
  dsimp only
  rw [hopen]
  rfl

theorem length_consume (p : Parse) {taken : Nat} (back : List UInt8)
    (htaken : taken ≤ p.ahead.length) :
    (p.consume taken back).ahead.length + taken = p.ahead.length + back.length := by
  rw [consume, List.length_append, List.length_map, List.length_drop]
  omega

/-- The state in which an outcome goes on without waiting, if it does: with the next turn, or with
the next value. -/
def Outcome.onward : Outcome → Option Parse
  | .again p | .done _ p => some p
  | .starved .. | .failed _ => none

theorem onward_complete {t : Tree} (h : (p.complete t).onward = some q) :
    q.ahead = p.ahead ∧ q.leaf = p.leaf ∧ q.inComment = p.inComment := by
  unfold complete at h
  split at h
  · injection h with h
    subst h
    exact ⟨rfl, rfl, rfl⟩
  · split at h
    · contradiction
    · injection h with h
      subst h
      exact ⟨rfl, rfl, rfl⟩

theorem onward_begin {next : Parse} {length : Nat}
    (h : (p.begin l length next).onward = some q) : q = next := by
  unfold begin at h
  split at h
  · contradiction
  · injection h with h
    exact h.symm

theorem work_lt_of_comment (h : p.commentTurn.onward = some q) (hcomment : p.inComment = true) :
    q.work < p.work := by
  obtain ⟨bytes, tail, hahead, htail⟩ := p.ahead.exists_split
  have hlength : bytes.length ≤ p.ahead.length := by
    rw [hahead, List.length_append, Source.length_ofBytes]
    omega
  have hp : p.work = 3 * p.ahead.length + 2 := by
    unfold work
    rw [hcomment, if_pos rfl]
  rw [commentTurn, hahead] at h
  rcases scanComment_ofBytes 0 bytes with ⟨count, hpos, hle, hscan⟩ | hscan
  · rw [hscan, Nat.zero_add, afterComment] at h
    injection h with h
    have hconsume := p.length_consume [] (Nat.le_trans hle hlength)
    have hahead : q.ahead = (p.consume count []).ahead := by rw [← h]
    have hq := q.work_le
    rw [hahead] at hq
    rw [List.length_nil] at hconsume
    omega
  · rw [hscan, scanComment_of_stalls htail, afterComment] at h
    contradiction

theorem work_lt_of_accept {token : Token} {back : List UInt8} {taken : Nat}
    (hp : p.leaf = none) (hcomment : p.inComment = false) (htaken : taken ≤ p.ahead.length)
    (hpos : 0 < taken) (hback : back.length ≤ taken) (hbegins : token.Begins back)
    (h : ((p.consume taken back).accept l token).onward = some q) : q.work < p.work := by
  have hconsume := p.length_consume back htaken
  have hwork := work_of_token hp
  -- A token that gives nothing back leaves less input, whatever it begins.
  have hshorter : back = [] → q.ahead = (p.consume taken back).ahead → q.work < p.work := by
    intro hnil hahead
    have hq := q.work_le
    rw [hahead] at hq
    rw [hnil] at hq hconsume
    rw [List.length_nil] at hconsume
    omega
  -- One that gives its first bytes back begins a leaf that does not end there.
  have hopens : ∀ leaf, q = (p.consume taken back).withLeaf (some leaf) →
      closesAtOnce leaf (p.consume taken back).ahead = false → q.work < p.work := by
    intro leaf hq hopen
    subst hq
    have hopened := work_of_open (p := (p.consume taken back).withLeaf (some leaf)) hcomment rfl hopen
    have hahead : ((p.consume taken back).withLeaf (some leaf)).ahead =
        (p.consume taken back).ahead := rfl
    rw [hahead] at hopened
    omega
  cases token with
  | comment =>
      injection h with h
      exact hshorter hbegins (by rw [← h])
  | close =>
      cases hlists : (p.consume taken back).lists with
      | nil =>
          rw [accept_close_nil l hlists] at h
          contradiction
      | cons o outer =>
          rw [accept_close_cons l hlists] at h
          exact hshorter hbegins (onward_complete h).1
  | list sigil =>
      rw [accept] at h
      split at h
      · contradiction
      · exact hshorter hbegins (by rw [onward_begin h])
  | symbol sigil quoted =>
      have hq := onward_begin h
      cases quoted with
      | true => exact hshorter hbegins (by rw [hq]; rfl)
      | false =>
          obtain ⟨c, rest, rfl, hc⟩ := hbegins
          exact hopens _ hq (by simpa [closesAtOnce, consume] using hc)
  | integer =>
      have hq := onward_begin h
      rcases hbegins with ⟨c, rfl, hc⟩ | ⟨c, d, rfl, hc, -⟩
      · exact hopens _ hq (by simp [closesAtOnce, consume, hc])
      · exact hopens _ hq (by simp [closesAtOnce, consume, hc])

theorem work_lt_of_token (hp : p.leaf = none) (hcomment : p.inComment = false)
    (h : (p.tokenTurn l).onward = some q) : q.work < p.work := by
  obtain ⟨bytes, tail, hahead, htail⟩ := p.ahead.exists_split
  have hlength : bytes.length ≤ p.ahead.length := by
    rw [hahead, List.length_append, Source.length_ofBytes]
    omega
  have hbegins := scanLead_begins (levelOf p.lists) 0 p.ahead
  rw [tokenTurn, hahead] at h
  rw [hahead] at hbegins
  rcases scanLead_ofBytes (levelOf p.lists) 0 bytes with
    ⟨count, lead, ⟨hpos, hle, hlead⟩, hscan⟩ | ⟨blanks, run, rfl, _, _, hstall⟩
  · rw [hscan, Nat.zero_add] at h hbegins
    cases lead with
    | starved run => exact hlead.elim
    | accepted token back =>
        exact work_lt_of_accept hp hcomment (Nat.le_trans hle hlength) hpos hlead.2 hbegins h
    | rejected cause found => contradiction
  · rw [hstall tail htail] at h
    contradiction

theorem work_lt_of_close {leaf : Leaf} {taken : Nat} (back : List UInt8) {t : Tree}
    (hcomment : p.inComment = false) (hleaf : p.leaf = some leaf) (htaken : taken ≤ p.ahead.length)
    (hle : back.length ≤ taken)
    (hback : back.length < taken ∨ closesAtOnce leaf p.ahead = true)
    (h : (((p.consume taken back).withLeaf none).complete t).onward = some q) : q.work < p.work := by
  obtain ⟨hahead, hnone, -⟩ := onward_complete h
  have hq := work_of_token hnone
  rw [show ((p.consume taken back).withLeaf none).ahead = (p.consume taken back).ahead from rfl]
    at hahead
  have hconsume := p.length_consume back htaken
  rw [hahead] at hq
  have hp : p.work = 3 * p.ahead.length + if closesAtOnce leaf p.ahead then 3 else 1 := by
    unfold work
    rw [hcomment, hleaf, if_neg Bool.false_ne_true]
  rcases hback with hback | hback
  · split at hp <;> omega
  · rw [hback, if_pos rfl] at hp
    omega

theorem work_lt_of_symbol {sigil : Sigil} {quoted escaped : Bool} {chars : List UInt8}
    (hleaf : p.leaf = some (.symbol sigil quoted escaped chars)) (hcomment : p.inComment = false)
    (hescaped : quoted = false → escaped = false)
    (h : (p.symbolTurn l sigil quoted escaped chars).onward = some q) : q.work < p.work := by
  obtain ⟨bytes, tail, hahead, htail⟩ := p.ahead.exists_split
  have hlength : bytes.length ≤ p.ahead.length := by
    rw [hahead, List.length_append, Source.length_ofBytes]
    omega
  rw [symbolTurn, afterSymbol] at h
  generalize l.reserved p.frames p.text - chars.length = room at h
  have hclosed := scanSymbol_closed sigil quoted escaped chars chars.length room p.ahead
  rcases scanSymbol_ofBytes quoted escaped chars.length room bytes hescaped with
    ⟨run, hsettled, hscan⟩ | ⟨more, escaped', _, _, hscan⟩
  · have hrun := hscan tail
    rw [← hahead] at hrun
    rw [hrun] at h hclosed
    cases hending : run.ending with
    | starved => exact (hsettled.ending hending).elim
    | closed back =>
        rw [hending] at h
        obtain ⟨hle, hback⟩ := hclosed back hending
        exact work_lt_of_close back hcomment hleaf (Nat.le_trans hsettled.le hlength) hle hback h
    | tooLong found | full =>
        rw [hending] at h
        contradiction
  · have hrun := hscan tail
    rw [← hahead, scanSymbol_of_stalls htail] at hrun
    rw [hrun] at h
    contradiction

theorem work_lt_of_integer {negative digits : Bool} {magnitude : Nat}
    (hleaf : p.leaf = some (.integer negative digits magnitude)) (hcomment : p.inComment = false)
    (h : (p.integerTurn negative digits magnitude).onward = some q) : q.work < p.work := by
  obtain ⟨bytes, tail, hahead, htail⟩ := p.ahead.exists_split
  have hlength : bytes.length ≤ p.ahead.length := by
    rw [hahead, List.length_append, Source.length_ofBytes]
    omega
  rw [integerTurn, afterInteger] at h
  have hclosed := scanInteger_closed magnitude 0 negative digits p.ahead
  rcases scanInteger_ofBytes magnitude negative digits 0 bytes with
    ⟨run, ⟨hpos, hle, hne⟩, hscan⟩ | ⟨magnitude', negative', digits', hscan⟩
  · have hrun := hscan tail
    rw [← hahead] at hrun
    rw [hrun] at h hclosed
    rw [Nat.zero_add] at hle
    cases hending : run.ending with
    | starved => exact (hne hending).elim
    | closed next =>
        rw [hending] at h
        obtain ⟨hlt, hback⟩ := hclosed next hending
        rw [Nat.zero_add] at hback
        exact work_lt_of_close [next] hcomment hleaf (Nat.le_trans hle hlength) hlt hback h
    | overflow found =>
        rw [hending] at h
        contradiction
  · have hrun := hscan tail
    rw [← hahead, scanInteger_of_stalls htail] at hrun
    rw [hrun] at h
    contradiction

/-- Every turn that does not run out of bytes leaves less to do. -/
theorem work_lt_of_onward (hvalid : p.Valid l) (h : (p.turn l).onward = some q) :
    q.work < p.work := by
  cases hcomment : p.inComment with
  | true =>
      rw [turn_of_comment hcomment] at h
      exact work_lt_of_comment h hcomment
  | false =>
      cases hleaf : p.leaf with
      | none =>
          rw [turn_of_token hcomment hleaf] at h
          exact work_lt_of_token hleaf hcomment h
      | some leaf =>
          cases leaf with
          | symbol sigil quoted escaped chars =>
              rw [turn_of_symbol hcomment hleaf] at h
              exact work_lt_of_symbol hleaf hcomment (hvalid.leaf _ hleaf).2 h
          | integer negative digits magnitude =>
              rw [turn_of_integer hcomment hleaf] at h
              exact work_lt_of_integer hleaf hcomment h

theorem work_lt_of_again (hvalid : p.Valid l) (h : p.turn l = .again q) : q.work < p.work :=
  work_lt_of_onward hvalid (by rw [h]; rfl)

/-! ### Reading as far as the bytes go -/

theorem turns_of_again (h : p.turn l = .again q) (fuel : Nat) :
    turns l (fuel + 1) p = turns l fuel q := by
  rw [turns, h]

theorem turns_of_settled (h : ∀ q, p.turn l ≠ .again q) (fuel : Nat) :
    turns l (fuel + 1) p = p.turn l := by
  rw [turns]
  split
  · rename_i q hq
    exact (h q hq).elim
  · rfl

/-- What is left to do is what a read goes by: an induction over the turns that it takes. -/
@[elab_as_elim]
theorem read_induction {motive : (p : Parse) → p.Valid l → Prop}
    (step : ∀ p hvalid, (∀ q hq, p.turn l = .again q → motive q hq) → motive p hvalid)
    (p : Parse) (hvalid : p.Valid l) : motive p hvalid := by
  generalize hn : p.work = n
  induction n using Nat.strongRecOn generalizing p with
  | _ n ih =>
      refine step p hvalid ?_
      intro q hqvalid hq
      exact ih q.work (hn ▸ work_lt_of_again hvalid hq) q hqvalid rfl

theorem valid_of_again (hvalid : p.Valid l) (h : p.turn l = .again q) : q.Valid l := by
  have hsound := sound_turn hvalid
  rw [h] at hsound
  exact hsound

/-- Fuel for more turns than there are left to take changes nothing. -/
theorem turns_eq_of_work (hvalid : p.Valid l) {fuel fuel' : Nat} (hfuel : p.work < fuel)
    (hfuel' : p.work < fuel') : turns l fuel p = turns l fuel' p := by
  induction p, hvalid using read_induction generalizing fuel fuel' with
  | step p hvalid ih =>
      obtain ⟨n, rfl⟩ : ∃ n, fuel = n + 1 := ⟨fuel - 1, by omega⟩
      obtain ⟨n', rfl⟩ : ∃ n', fuel' = n' + 1 := ⟨fuel' - 1, by omega⟩
      cases hturn : p.turn l with
      | again q =>
          have hlt := work_lt_of_again hvalid hturn
          rw [turns_of_again hturn, turns_of_again hturn]
          exact ih q (valid_of_again hvalid hturn) hturn (by omega) (by omega)
      | starved kept q | done t q | failed why =>
          rw [turns_of_settled (by simp [hturn]), turns_of_settled (by simp [hturn])]

theorem work_lt_fuel (p : Parse) : p.work < 4 * (p.ahead.length + 2) := by
  have := p.work_le
  omega

/-- A read goes on from where a turn has led. -/
theorem read_of_again (hvalid : p.Valid l) (h : p.turn l = .again q) : p.read l = q.read l := by
  have hlt := work_lt_of_again hvalid h
  have hp := p.work_lt_fuel
  obtain ⟨n, hn⟩ : ∃ n, 4 * (p.ahead.length + 2) = n + 1 := ⟨4 * (p.ahead.length + 2) - 1, by omega⟩
  rw [read, hn, turns_of_again h]
  exact turns_eq_of_work (valid_of_again hvalid h) (by omega) q.work_lt_fuel

/-- A read ends with the turn after which no other is taken. -/
theorem read_of_settled (h : ∀ q, p.turn l ≠ .again q) : p.read l = p.turn l := by
  rw [read, show 4 * (p.ahead.length + 2) = 4 * p.ahead.length + 7 + 1 by omega]
  exact turns_of_settled h _

theorem read_of_starved {kept : List UInt8} (h : p.turn l = .starved kept q) :
    p.read l = .starved kept q :=
  (read_of_settled (by simp [h])).trans h

theorem read_eq (hvalid : p.Valid l) :
    p.read l =
      match p.turn l with
      | .again q => q.read l
      | outcome => outcome := by
  cases hturn : p.turn l with
  | again q => exact read_of_again hvalid hturn
  | starved kept q | done t q | failed why =>
      rw [read_of_settled (by simp [hturn]), hturn]

theorem read_ne_again (hvalid : p.Valid l) (q : Parse) : p.read l ≠ .again q := by
  induction p, hvalid using read_induction with
  | step p hvalid ih =>
      cases hturn : p.turn l with
      | again r =>
          rw [read_of_again hvalid hturn]
          exact ih r (valid_of_again hvalid hturn) hturn
      | starved kept r | done t r | failed why =>
          rw [read_of_settled (by simp [hturn]), hturn]
          simp

theorem sound_read (hvalid : p.Valid l) : (p.read l).Sound l := sound_turns hvalid _

end Parse

end FlatLisp
