/-
Module: FlatLisp.Proofs.Reading.Lines
Purpose: Reading whole lines. A line end is no part of a sigil and ends every comment, so that after
  a line a reader keeps no byte and is in no comment, whatever else is unfinished. Between values it
  is then as a reader that has read nothing.
Main exports: Parse.closed_read, Parse.OnBytes, Parse.onBytes_read, Parse.OnLines, Parse.rested_read
-/
import FlatLisp.Proofs.Reading.Suspension
import FlatLisp.Proofs.Reading.Tally

namespace FlatLisp

open Source (ofBytes)
open Text

namespace Reading

/-- The bytes end with a line end, if there are any. -/
def EndsLine (bytes : List UInt8) : Prop := bytes = [] ∨ ∃ before, bytes = before ++ [Ascii.newline]

theorem EndsLine.suffix {before bytes : List UInt8} (h : EndsLine (before ++ bytes)) :
    EndsLine bytes := by
  rcases List.eq_nil_or_concat bytes with rfl | ⟨start, c, rfl⟩
  · exact .inl rfl
  · rcases h with hnil | ⟨other, hother⟩
    · simp at hnil
    · rw [List.concat_eq_append, ← List.append_assoc] at hother
      obtain ⟨-, hc⟩ := List.append_inj' hother rfl
      exact .inr ⟨start, by rw [List.concat_eq_append, hc]⟩

/-- What ends with another byte is not the last of the bytes. -/
theorem EndsLine.more {before rest : List UInt8} {c : UInt8} (hc : c ≠ Ascii.newline)
    (h : EndsLine (before ++ [c] ++ rest)) : rest ≠ [] := by
  rintro rfl
  rw [List.append_nil] at h
  rcases h with hnil | ⟨other, hother⟩
  · simp at hnil
  · obtain ⟨-, hsame⟩ := List.append_inj' hother rfl
    exact hc (List.cons.inj hsame).1

/-! ### Scans -/

section Scans

variable {bytes last : List UInt8} {taken : Nat}

theorem exists_rest {tail : Source} {before : List UInt8}
    (h : ofBytes bytes = ofBytes before ++ tail) :
    ∃ rest, bytes = before ++ rest ∧ tail = ofBytes rest := by
  obtain ⟨start, rest, hbytes, hstart, hrest⟩ := List.map_eq_append_iff.1 h
  have hsame : start = before := List.map_inj_right (fun _ _ => Option.some.inj) |>.1 hstart
  exact ⟨rest, hsame ▸ hbytes, hrest.symm⟩

/-- Where all that is ahead are bytes, the rest are bytes as well. -/
theorem Takes.split (h : Takes (ofBytes bytes) taken last) :
    ∃ before rest, bytes = before ++ last ++ rest ∧ (before ++ last).length = taken := by
  obtain ⟨before, tail, hahead, htaken⟩ := h
  obtain ⟨rest, hbytes, -⟩ := exists_rest hahead
  exact ⟨before, rest, hbytes, htaken⟩

/-- Where all that is ahead are bytes, nothing arrives after them. -/
theorem Drains.split (h : Drains (ofBytes bytes) taken last) :
    ∃ before, bytes = before ++ last ∧ bytes.length = taken := by
  obtain ⟨before, tail, hahead, htaken, hstalls⟩ := h
  obtain ⟨rest, hbytes, rfl⟩ := exists_rest hahead
  cases rest with
  | nil =>
      rw [List.append_nil] at hbytes
      exact ⟨before, hbytes, hbytes ▸ htaken⟩
  | cons c rest => exact hstalls.elim

/-- A comment ends with the line. -/
theorem scanComment_line (taken : Nat) (before : List UInt8) :
    (scanComment taken (ofBytes (before ++ [Ascii.newline]))).2 = true := by
  induction before generalizing taken with
  | nil => rfl
  | cons c rest ih =>
      rw [List.cons_append, Source.ofBytes_cons, scanComment]
      split
      · rfl
      · exact ih _

theorem eq_semicolon_of_glyph {c : UInt8} (h : Glyph.ofByte c = .comment) :
    c = Ascii.semicolon := by
  unfold Glyph.ofByte at h
  repeat' split at h
  all_goals first | assumption | contradiction

theorem allowed_comment {level : Int} {sigil : Sigil} {c : UInt8} {token : Token}
    {back back' : List UInt8} (h : allowed level sigil c token back = .accepted .comment back') :
    token = .comment := by
  rw [allowed] at h
  split at h
  · contradiction
  · injection h

theorem leadSigned_comment {level : Int} {sigil : Sigil} {s c : UInt8} {back : List UInt8} :
    leadSigned level sigil s c ≠ .accepted .comment back := by
  intro h
  unfold leadSigned at h
  split at h
  · split at h <;> simp at h
  · split at h <;> simp at h
  · have htoken := allowed_comment h
    contradiction

/-- What is looked at of a comment ends with the semicolon. -/
theorem scanSigils_comment {back : List UInt8} (level : Int) (sigil : Sigil) (run : List UInt8)
    (taken : Nat) (source : Source)
    (h : (scanSigils level sigil run taken source).2 = .accepted .comment back) :
    ∀ blanks : List UInt8, (blanks ++ run).length = taken → back = [] ∧
      Takes (ofBytes (blanks ++ run) ++ source) (scanSigils level sigil run taken source).1
        [Ascii.semicolon] := by
  fun_induction scanSigils level sigil run taken source with
  | case1 | case2 | case3 | case4 | case11 => contradiction
  | case5 => exact (leadSigned_comment h).elim
  | case6 | case7 =>
      have htoken := allowed_comment h
      contradiction
  | case8 | case10 => split at h <;> simp at h
  | case9 sigil run taken c rest hcomment =>
      rintro blanks rfl
      obtain rfl := eq_semicolon_of_glyph hcomment
      split at h
      · contradiction
      · injection h with _ hback
        exact ⟨hback.symm, takes_next ..⟩
  | case12 sigil run taken c rest hother longer hcombine ih =>
      rintro blanks rfl
      have hshows := ih h blanks (by simp [Nat.add_assoc])
      simpa using hshows
  | case13 =>
      split at h
      · contradiction
      · have htoken := allowed_comment h
        contradiction

theorem scanLead_comment {back : List UInt8} (level : Int) (taken : Nat) (source : Source)
    (h : (scanLead level taken source).2 = .accepted .comment back) :
    ∀ blanks : List UInt8, blanks.length = taken → back = [] ∧
      Takes (ofBytes blanks ++ source) (scanLead level taken source).1 [Ascii.semicolon] := by
  fun_induction scanLead level taken source with
  | case1 taken c rest hblank ih =>
      rintro blanks rfl
      have hshows := ih h (blanks ++ [c]) (by simp)
      simpa using hshows
  | case2 taken c rest hblank =>
      rintro blanks rfl
      simpa using scanSigils_comment level .bare [] blanks.length _ h blanks (by simp)
  | case3 taken ahead hahead =>
      rintro blanks rfl
      simpa using scanSigils_comment level .bare [] blanks.length ahead h blanks (by simp)

end Scans

end Reading

namespace Parse

open Reading

variable {l : Limits} {p : Parse}

/-! ### Values that are done -/

/-- A value that is done is inside of no other. -/
def Outcome.Closed : Outcome → Prop
  | .done _ q => q.lists = [] ∧ q.leaf = none
  | _ => True

theorem closed_complete (hleaf : p.leaf = none) (t : Tree) : (p.complete t).Closed := by
  unfold complete
  cases hlists : p.lists with
  | nil => exact ⟨hlists.symm ▸ rfl, hleaf⟩
  | cons o outer =>
      dsimp only
      split <;> trivial

theorem closed_begin (next : Parse) (length : Nat) : (p.begin l length next).Closed := by
  unfold begin
  split <;> trivial

theorem closed_accept (hleaf : p.leaf = none) (token : Token) : (p.accept l token).Closed := by
  cases token with
  | comment => trivial
  | close =>
      cases hlists : p.lists with
      | nil =>
          rw [accept_close_nil l hlists]
          trivial
      | cons o outer =>
          rw [accept_close_cons l hlists]
          refine closed_complete ?_ _
          exact hleaf
  | list sigil =>
      unfold accept
      dsimp only
      split
      · trivial
      · exact closed_begin _ _
  | symbol sigil quoted => exact closed_begin _ _
  | integer => exact closed_begin _ _

theorem closed_turn : (p.turn l).Closed := by
  unfold turn
  split
  · unfold commentTurn afterComment
    split <;> trivial
  · split
    · rename_i hleaf
      unfold tokenTurn afterLead
      split
      · trivial
      · trivial
      · refine closed_accept ?_ _
        exact hleaf
    · unfold symbolTurn afterSymbol
      dsimp only
      split
      · trivial
      · trivial
      · trivial
      · exact closed_complete rfl _
    · unfold integerTurn afterInteger
      split
      · trivial
      · trivial
      · exact closed_complete rfl _

theorem closed_read (hvalid : p.Valid l) : (p.read l).Closed := by
  induction p, hvalid using read_induction with
  | step p hvalid ih =>
      have hturn := closed_turn (p := p) (l := l)
      cases houtcome : p.turn l with
      | again q =>
          rw [read_of_again hvalid houtcome]
          exact ih q (valid_of_again hvalid houtcome) houtcome
      | starved kept q | done t q | failed why =>
          rw [houtcome] at hturn
          rw [read_of_settled (by simp [houtcome]), houtcome]
          exact hturn

/-- A value takes a byte at least, unless it was the last byte that completed a part of it. -/
theorem ahead_of_done {t : Tree} {q : Parse} (hvalid : p.Valid l) (h : p.read l = .done t q) :
    q.ahead.length ≤ p.ahead.length ∧ (p.leaf = none → q.ahead.length < p.ahead.length) := by
  have hjoins := joins_read [] hvalid
  have hclosed := closed_read hvalid
  rw [h] at hjoins hclosed
  have hless := hjoins.2
  have hmost := p.work_le
  rw [work_of_token hclosed.2] at hless
  refine ⟨by omega, fun hleaf => ?_⟩
  rw [work_of_token hleaf] at hless
  omega

/-! ### Bytes that are all there -/

/-- All that is ahead are bytes. -/
def OnBytes (p : Parse) : Prop := ∃ bytes, p.ahead = ofBytes bytes

/-- What a read leads to that has all its bytes there. When they run out only those are ahead that
are kept. -/
def Outcome.OnBytes : Outcome → Prop
  | .again q | .done _ q => q.OnBytes
  | .starved kept q => q.ahead = ofBytes kept
  | .failed _ => True

theorem joined_onBytes (hbytes : p.OnBytes) : p.joined [] = p := by
  obtain ⟨bytes, hahead⟩ := hbytes
  rw [joined, hahead, Source.bytes_ofBytes, List.append_nil, ← hahead]

theorem onBytes_joined {q : Parse} (h : q = q.joined []) : q.OnBytes :=
  ⟨q.ahead.bytes ++ [], congrArg Parse.ahead h⟩

theorem onBytes_turn (hvalid : p.Valid l) (hbytes : p.OnBytes) : (p.turn l).OnBytes := by
  have hjoins := joins_turn [] hvalid
  have hsame := joined_onBytes hbytes
  cases houtcome : p.turn l with
  | failed why => trivial
  | again q =>
      rw [houtcome, Outcome.Joins, hsame, houtcome] at hjoins
      injection hjoins with hq
      exact onBytes_joined hq
  | done t q =>
      rw [houtcome, Outcome.Joins, hsame, houtcome] at hjoins
      injection hjoins with _ hq
      exact onBytes_joined hq
  | starved kept q =>
      rw [houtcome] at hjoins
      obtain ⟨-, ⟨before, tail, hp, hstalls, hq⟩, -⟩ := hjoins
      obtain ⟨bytes, hahead⟩ := hbytes
      obtain ⟨rest, -, rfl⟩ := exists_rest (hahead.symm.trans hp)
      cases rest with
      | nil =>
          have hdry : q.ahead = ofBytes kept := by simpa using hq
          exact hdry
      | cons c rest => exact hstalls.elim

theorem onBytes_read (hvalid : p.Valid l) (hbytes : p.OnBytes) : (p.read l).OnBytes := by
  induction p, hvalid using read_induction with
  | step p hvalid ih =>
      have hturn := onBytes_turn hvalid hbytes
      cases houtcome : p.turn l with
      | again q =>
          rw [houtcome] at hturn
          rw [read_of_again hvalid houtcome]
          exact ih q (valid_of_again hvalid houtcome) houtcome hturn
      | starved kept q | done t q | failed why =>
          rw [read_of_settled (by simp [houtcome])]
          exact hturn

/-! ### Turns on lines -/

/-- The bytes ahead are whole lines, or what is left of them; in a comment they are not at their
end. -/
def OnLines (p : Parse) : Prop :=
  ∃ bytes, p.ahead = ofBytes bytes ∧ EndsLine bytes ∧ (p.inComment = true → bytes ≠ [])

/-- Nothing is ahead, and the read is in no comment. -/
structure Rested (p : Parse) : Prop where
  ahead : p.ahead = []
  inComment : p.inComment = false

/-- What a turn leads to that begins on lines. -/
def Outcome.OnLines : Outcome → Prop
  | .again q | .done _ q => q.OnLines
  | .starved kept q => q.ahead = ofBytes kept ∧ q.inComment = false ∧ EndsLine kept
  | .failed _ => True

variable {bytes back last : List UInt8} {taken : Nat}

theorem OnLines.onBytes (h : p.OnLines) : p.OnBytes := by
  obtain ⟨bytes, hahead, -⟩ := h
  exact ⟨bytes, hahead⟩

theorem OnLines.of_same {q : Parse} (h : p.OnLines) (hahead : q.ahead = p.ahead)
    (hcomment : q.inComment = p.inComment) : q.OnLines := by
  rw [OnLines, hahead, hcomment]
  exact h

theorem ahead_consume (hahead : p.ahead = ofBytes bytes) (h : Takes p.ahead taken (last ++ back)) :
    ∃ before rest, bytes = before ++ last ++ (back ++ rest) ∧
      (p.consume taken back).ahead = ofBytes (back ++ rest) := by
  rw [hahead] at h
  obtain ⟨before, rest, rfl, rfl⟩ := h.split
  refine ⟨before, rest, by simp only [List.append_assoc], ?_⟩
  rw [consume, hahead, Source.ofBytes_append (before ++ (last ++ back)), Source.drop_ofBytes_append,
    Source.ofBytes_append]
  rfl

/-- Bytes are taken that are no comment. -/
theorem onLines_consume (hlines : p.OnLines) (h : Takes p.ahead taken (last ++ back))
    (hcomment : p.inComment = false) : (p.consume taken back).OnLines := by
  obtain ⟨bytes, hahead, hends, -⟩ := hlines
  obtain ⟨before, rest, rfl, hrest⟩ := ahead_consume hahead h
  refine ⟨back ++ rest, hrest, hends.suffix, fun hin => ?_⟩
  rw [show (p.consume taken back).inComment = p.inComment from rfl, hcomment] at hin
  contradiction

theorem starved_onLines {kept : List UInt8} (hlines : p.OnLines) (h : Drains p.ahead taken kept) :
    (p.starve taken kept).ahead = ofBytes kept ∧ EndsLine kept := by
  obtain ⟨bytes, hahead, hends, -⟩ := hlines
  rw [hahead] at h
  obtain ⟨before, rfl, rfl⟩ := h.split
  refine ⟨?_, hends.suffix⟩
  rw [starve, hahead, List.drop_eq_nil_of_le (by rw [Source.length_ofBytes]; omega),
    List.append_nil]
  rfl

theorem onLines_complete (hlines : p.OnLines) (t : Tree) : (p.complete t).OnLines := by
  unfold complete
  split
  · exact hlines.of_same rfl rfl
  · split
    · trivial
    · exact hlines.of_same rfl rfl

theorem onLines_begin {next : Parse} (hlines : next.OnLines) (length : Nat) :
    (p.begin l length next).OnLines := by
  unfold begin
  split
  · trivial
  · exact hlines

theorem onLines_accept (hlines : p.OnLines) {token : Token} (htoken : token ≠ .comment) :
    (p.accept l token).OnLines := by
  cases token with
  | comment => exact (htoken rfl).elim
  | close =>
      cases hlists : p.lists with
      | nil =>
          rw [accept_close_nil l hlists]
          trivial
      | cons o outer =>
          rw [accept_close_cons l hlists]
          refine onLines_complete ?_ _
          exact hlines.of_same rfl rfl
  | list sigil =>
      unfold accept
      dsimp only
      split
      · trivial
      · refine onLines_begin ?_ _
        exact hlines.of_same rfl rfl
  | symbol sigil quoted =>
      refine onLines_begin ?_ _
      exact hlines.of_same rfl rfl
  | integer =>
      refine onLines_begin ?_ _
      exact hlines.of_same rfl rfl

theorem onLines_commentTurn (hlines : p.OnLines) (hcomment : p.inComment = true) :
    p.commentTurn.OnLines := by
  obtain ⟨bytes, hahead, hends, hne⟩ := hlines
  obtain ⟨before, rfl⟩ := hends.resolve_left (hne hcomment)
  obtain ⟨count, hcount, hshows⟩ := scanComment_takes 0 p.ahead
  have hfound : (scanComment 0 p.ahead).2 = true := hahead ▸ scanComment_line 0 before
  rw [if_pos hfound] at hshows
  rw [commentTurn, afterComment.eq_def]
  generalize scanComment 0 p.ahead = scan at hcount hfound
  obtain ⟨taken, found⟩ := scan
  dsimp only at hcount hfound
  subst hfound
  obtain rfl : taken = count := hcount.trans (Nat.zero_add _)
  obtain ⟨before', rest, hbytes, hrest⟩ := @ahead_consume p _ [] [] _ hahead hshows
  exact ⟨rest, hrest, (hbytes ▸ hends).suffix, fun hin => Bool.noConfusion hin⟩

theorem onLines_tokenTurn (hlines : p.OnLines) (hcomment : p.inComment = false) :
    (p.tokenTurn l).OnLines := by
  have hshows : (scanLead (levelOf p.lists) 0 p.ahead).2.Shows p.ahead
      (scanLead (levelOf p.lists) 0 p.ahead).1 :=
    scanLead_shows (levelOf p.lists) 0 p.ahead [] rfl
  have hsemicolon : ∀ back, (scanLead (levelOf p.lists) 0 p.ahead).2 = .accepted .comment back →
      back = [] ∧ Takes p.ahead (scanLead (levelOf p.lists) 0 p.ahead).1 [Ascii.semicolon] :=
    fun back h => scanLead_comment (levelOf p.lists) 0 p.ahead h [] rfl
  rw [tokenTurn]
  generalize scanLead (levelOf p.lists) 0 p.ahead = scan at hshows hsemicolon
  obtain ⟨taken, lead⟩ := scan
  dsimp only at hshows hsemicolon
  cases lead with
  | starved run =>
      obtain ⟨hahead, hends⟩ := starved_onLines hlines hshows
      exact ⟨hahead, hcomment, hends⟩
  | rejected cause found => trivial
  | accepted token back =>
      by_cases htoken : token = .comment
      · subst htoken
        obtain ⟨rfl, htakes⟩ := hsemicolon back rfl
        obtain ⟨bytes, hahead, hends, -⟩ := hlines
        obtain ⟨before, rest, rfl, hrest⟩ := @ahead_consume p _ [] [Ascii.semicolon] _ hahead htakes
        exact ⟨rest, hrest, hends.suffix, fun _ => hends.more (by decide)⟩
      · exact onLines_accept (onLines_consume hlines hshows hcomment) htoken

theorem onLines_symbolTurn {sigil : Sigil} {quoted escaped : Bool} {chars : List UInt8}
    (hlines : p.OnLines) (hcomment : p.inComment = false) :
    (p.symbolTurn l sigil quoted escaped chars).OnLines := by
  rw [symbolTurn]
  have hshows := scanSymbol_shows quoted escaped chars.length
    (l.reserved p.frames p.text - chars.length) p.ahead
  generalize scanSymbol quoted escaped chars.length (l.reserved p.frames p.text - chars.length)
    p.ahead = run at hshows
  obtain ⟨more, taken, escaped', ending⟩ := run
  dsimp only [afterSymbol] at hshows ⊢
  cases ending with
  | starved =>
      obtain ⟨hahead, hends⟩ := starved_onLines hlines hshows
      exact ⟨hahead, hcomment, hends⟩
  | tooLong found => trivial
  | full => trivial
  | closed back =>
      have hrest := @onLines_consume p back [] taken hlines hshows hcomment
      refine onLines_complete ?_ _
      exact hrest.of_same rfl rfl

theorem onLines_integerTurn {negative digits : Bool} {magnitude : Nat} (hlines : p.OnLines)
    (hcomment : p.inComment = false) : (p.integerTurn negative digits magnitude).OnLines := by
  rw [integerTurn]
  obtain ⟨count, hcount, hshows⟩ := scanInteger_shows magnitude negative digits 0 p.ahead
  rw [Nat.zero_add] at hcount
  rw [← hcount] at hshows
  generalize scanInteger magnitude negative digits 0 p.ahead = run at hshows
  obtain ⟨magnitude', negative', digits', taken, ending⟩ := run
  dsimp only [afterInteger] at hshows ⊢
  cases ending with
  | starved =>
      obtain ⟨hahead, hends⟩ := starved_onLines hlines hshows
      exact ⟨hahead, hcomment, hends⟩
  | overflow found => trivial
  | closed next =>
      have hrest := @onLines_consume p [next] [] taken hlines hshows hcomment
      refine onLines_complete ?_ _
      exact hrest.of_same rfl rfl

/-- A turn that begins on lines ends on lines. -/
theorem onLines_turn (hlines : p.OnLines) : (p.turn l).OnLines := by
  cases hcomment : p.inComment with
  | true =>
      rw [turn_of_comment hcomment]
      exact onLines_commentTurn hlines hcomment
  | false =>
      cases hleaf : p.leaf with
      | none =>
          rw [turn_of_token hcomment hleaf]
          exact onLines_tokenTurn hlines hcomment
      | some leaf =>
          cases leaf with
          | symbol sigil quoted escaped chars =>
              rw [turn_of_symbol hcomment hleaf]
              exact onLines_symbolTurn hlines hcomment
          | integer negative digits magnitude =>
              rw [turn_of_integer hcomment hleaf]
              exact onLines_integerTurn hlines hcomment

/-! ### Reads -/

theorem onLines_read (hvalid : p.Valid l) (hlines : p.OnLines) : (p.read l).OnLines := by
  induction p, hvalid using read_induction with
  | step p hvalid ih =>
      have hturn := onLines_turn (l := l) hlines
      cases houtcome : p.turn l with
      | again q =>
          rw [houtcome] at hturn
          rw [read_of_again hvalid houtcome]
          exact ih q (valid_of_again hvalid houtcome) houtcome hturn
      | starved kept q | done t q | failed why =>
          rw [read_of_settled (by simp [houtcome])]
          exact hturn

/-- When whole lines have run out nothing is ahead. -/
theorem rested_read {kept : List UInt8} {q : Parse} (hvalid : p.Valid l) (hlines : p.OnLines)
    (h : p.read l = .starved kept q) : kept = [] ∧ q.Rested := by
  have hjoins := joins_read [] hvalid
  have honLines := onLines_read hvalid hlines
  rw [h] at hjoins honLines
  obtain ⟨-, -, -, hkept⟩ := hjoins
  obtain ⟨hahead, hcomment, hends⟩ := honLines
  have hnil : kept = [] := by
    refine hends.resolve_right ?_
    rintro ⟨before, rfl⟩
    -- What is kept ends with a sigil or a sign.
    obtain ⟨-, sigil, hwaits⟩ := waits_of_kept hcomment (by simp) hkept
    cases hwaits with
    | sigil hne hlast hscan =>
        obtain ⟨c, hc, hsigil⟩ := hlast
        obtain rfl : Ascii.newline = c := by simpa using hc
        exact absurd hsigil (by decide)
    | sign s hsign hlast hstarved hscan =>
        obtain rfl : Ascii.newline = s := by simpa using hlast
        exact absurd hsign (by decide)
  subst hnil
  exact ⟨rfl, hahead, hcomment⟩

/-- A line and its end are put before a read that has nothing ahead. -/
theorem Rested.onLines {line : List UInt8} (h : p.Rested) :
    OnLines { p with ahead := ofBytes (line ++ [Ascii.newline]) } := by
  refine ⟨_, rfl, .inr ⟨line, rfl⟩, fun hcomment => ?_⟩
  rw [show p.inComment = false from h.inComment] at hcomment
  contradiction

end Parse

end FlatLisp
