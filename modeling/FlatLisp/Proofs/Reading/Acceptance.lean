/-
Module: FlatLisp.Proofs.Reading.Acceptance
Purpose: With memory without bound, a read over bytes that are all there accepts what the grammar
  accepts, builds the tree that the grammar builds, and refuses the input where the grammar does.
Main exports: Parse.Agrees, Parse.agrees_value, Parse.agrees_items, Parse.agrees_read
-/
import FlatLisp.Proofs.Reading.Progress
import FlatLisp.Proofs.Reading.Readable

namespace FlatLisp

namespace Parse

open Text
open Reading
open Source (ofBytes)
open Grammar (Result)

variable {l : Limits} {p q : Parse} {input rest left body before back : List UInt8} {o : Outcome}
  {result : Result Tree}

/-! ### Where a read stands -/

/-- The same read when the bytes `rest` are left. -/
def arrive (p : Parse) (rest : List UInt8) : Parse :=
  { p with count := p.count + .ofNat p.ahead.length - .ofNat rest.length, ahead := ofBytes rest }

theorem arrive_arrive (p : Parse) (body rest : List UInt8) :
    (p.arrive body).arrive rest = p.arrive rest := by
  simp only [arrive, Source.length_ofBytes, UInt32.sub_add_cancel]

theorem arrive_self (h : p.ahead = ofBytes input) : p.arrive input = p := by
  obtain ⟨lists, leaf, inComment, count, start, ahead⟩ := p
  subst h
  simp only [arrive, Source.length_ofBytes, UInt32.add_sub_cancel]

theorem consume_eq_arrive (back : List UInt8) (h : p.ahead = ofBytes (before ++ (back ++ left))) :
    p.consume (before.length + back.length) back = p.arrive (back ++ left) := by
  have hdrop : p.ahead.drop (before.length + back.length) = ofBytes left := by
    rw [h, Source.ofBytes_append, Source.drop_add_ofBytes_append, Source.ofBytes_append,
      Source.drop_ofBytes_append]
  have hcount : p.count + .ofNat (before.length + back.length) - .ofNat back.length =
      p.count + .ofNat (before.length + (back.length + left.length)) -
        .ofNat (back.length + left.length) := by
    simp only [UInt32.ofNat_add]
    grind
  rw [consume, hdrop, hcount, arrive, h, Source.length_ofBytes, List.length_append,
    List.length_append, Source.ofBytes_append back left]
  rfl

theorem consume_eq_arrive_nil (h : p.ahead = ofBytes (before ++ left)) :
    p.consume before.length [] = p.arrive left :=
  consume_eq_arrive [] h

/-- Between the children of a list, or between values, with the bytes `input` left. -/
structure Between (l : Limits) (p : Parse) (input : List UInt8) : Prop where
  valid : p.Valid l
  leaf : p.leaf = none
  inComment : p.inComment = false
  ahead : p.ahead = ofBytes input

theorem Between.arrive (h : Between l p input) (rest : List UInt8) :
    Between l (p.arrive rest) rest :=
  ⟨h.valid.of_same rfl rfl, h.leaf, h.inComment, rfl⟩

theorem Between.length (h : Between l p input) : p.ahead.length = input.length := by
  rw [h.ahead, Source.length_ofBytes]

/-- What becomes of a read after a turn. -/
def Outcome.carry (l : Limits) : Outcome → Outcome
  | .again p => p.read l
  | outcome => outcome

theorem read_eq_carry (h : p.Valid l) : p.read l = (p.turn l).carry l := by
  rw [read_eq h]
  cases p.turn l <;> rfl

/-- A read from `p` comes to what a production makes of the bytes left: with the tree `t` it goes on
as after completing `t`. -/
def Agrees (l : Limits) (p : Parse) : Result Tree → Outcome → Prop
  | .whole t rest, o => o = ((p.arrive rest).complete t).carry l
  | .cut, o => ∃ kept q, o = .starved kept q
  | .refused cause found left, o => o = (p.arrive left).reject cause found

theorem Agrees.of_arrive (body : List UInt8) (h : Agrees l (p.arrive body) result o) :
    Agrees l p result o := by
  cases result with
  | cut => exact h
  | whole t rest =>
      rw [Agrees, arrive_arrive] at h
      exact h
  | refused cause found left =>
      rw [Agrees, arrive_arrive] at h
      exact h

/-! ### Leaves -/

theorem begin_unlimited (hl : l.stop = none) (p next : Parse) (length : Nat) :
    p.begin l length next = .again next := by
  rw [begin, Limits.shortage, hl]

theorem reserved_unlimited (hl : l.stop = none) (frames text : Nat) :
    l.reserved frames text = Header.maxSymbol := by
  rw [Limits.reserved, hl]

theorem withLeaf_withLeaf_none (h : p.leaf = none) (leaf : Option Leaf) :
    (p.withLeaf leaf).withLeaf none = p := by
  obtain ⟨lists, leaf', inComment, count, start, ahead⟩ := p
  subst h
  rfl

/-- A symbol is read as a production reads it. -/
theorem agrees_symbol (hl : l.stop = none) (h : Between l p input) (sigil : Sigil) (quoted : Bool)
    {chars : Result (List UInt8)}
    (hspells : Spells (scanSymbol quoted false 0 Header.maxSymbol (ofBytes input)) input chars) :
    Agrees l p (chars.map (.symbol sigil quoted))
      ((p.accept l (.symbol sigil quoted)).carry l) := by
  generalize hq : p.withLeaf (some (.symbol sigil quoted false [])) = q
  have haccept : p.accept l (.symbol sigil quoted) = .again q := by
    rw [← hq]
    exact begin_unlimited hl p _ _
  have hvalid : q.Valid l := by
    rw [← hq]
    refine h.valid.with_leaf rfl rfl ?_
    rintro leaf ⟨⟩
    exact ⟨Nat.zero_le _, fun _ => rfl⟩
  have hturn : q.turn l = q.symbolTurn l sigil quoted false [] := by
    rw [← hq]
    exact turn_of_symbol h.inComment rfl
  have hahead : q.ahead = ofBytes input := by
    rw [← hq]
    exact h.ahead
  rw [haccept, Outcome.carry, read_eq_carry hvalid, hturn, symbolTurn, reserved_unlimited hl,
    hahead]
  generalize scanSymbol quoted false 0 Header.maxSymbol (ofBytes input) = run at hspells
  change Agrees l p _ ((q.afterSymbol l sigil quoted [] run).carry l)
  rw [afterSymbol]
  cases chars with
  | cut =>
      rw [show run.ending = .starved from hspells]
      exact ⟨_, _, rfl⟩
  | whole found rest =>
      obtain ⟨rfl, before, back, after, hinput, rfl, hending, htaken⟩ := hspells
      have hconsume : (q.consume run.taken back).withLeaf none = p.arrive (back ++ after) := by
        rw [← hq, htaken]
        rw [← consume_eq_arrive back (h.ahead.trans (by rw [hinput]))]
        exact withLeaf_withLeaf_none (p := p.consume (before.length + back.length) back) h.leaf _
      rw [hending]
      dsimp only
      rw [hconsume]
      rfl
  | refused cause found left =>
      obtain ⟨rfl, before, c, hinput, rfl, hending, htaken⟩ := hspells
      have hconsume : p.consume (before ++ [c]).length [] = p.arrive left :=
        consume_eq_arrive_nil (h.ahead.trans (by rw [hinput, List.append_assoc]; rfl))
      rw [List.length_append, List.length_singleton, ← htaken] at hconsume
      rw [hending, Result.map, Agrees, ← hconsume, ← hq]
      rfl

/-- An integer is read as a production reads it. -/
theorem agrees_number (hl : l.stop = none) (h : Between l p input) :
    Agrees l p (Grammar.number input) ((p.accept l .integer).carry l) := by
  have hspells := spells_integer false false 0 0 input
  rw [Grammar.number]
  generalize Grammar.integer false 0 input = value at hspells
  generalize hq : p.withLeaf (some (.integer false false 0)) = q
  have haccept : p.accept l .integer = .again q := by
    rw [← hq]
    exact begin_unlimited hl p _ _
  have hvalid : q.Valid l := by
    rw [← hq]
    refine h.valid.with_leaf rfl rfl ?_
    rintro leaf ⟨⟩
    exact ⟨Nat.zero_le _, fun _ => rfl⟩
  have hturn : q.turn l = q.integerTurn false false 0 := by
    rw [← hq]
    exact turn_of_integer h.inComment rfl
  have hahead : q.ahead = ofBytes input := by
    rw [← hq]
    exact h.ahead
  rw [haccept, Outcome.carry, read_eq_carry hvalid, hturn, integerTurn, hahead]
  generalize scanInteger 0 false false 0 (ofBytes input) = run at hspells
  rw [afterInteger]
  cases value with
  | cut =>
      rw [show run.ending = .starved from hspells]
      exact ⟨_, _, rfl⟩
  | whole number rest =>
      obtain ⟨hnumber, before, c, after, hinput, rfl, hending, htaken⟩ := hspells
      have hconsume : (q.consume run.taken [c]).withLeaf none = p.arrive (c :: after) := by
        rw [Nat.zero_add] at htaken
        rw [← hq, htaken]
        have hconsume : p.consume (before.length + 1) [c] = p.arrive (c :: after) :=
          consume_eq_arrive [c] (h.ahead.trans (by rw [hinput]; rfl))
        rw [← hconsume]
        exact withLeaf_withLeaf_none (p := p.consume (before.length + 1) [c]) h.leaf _
      rw [hending]
      dsimp only
      rw [hconsume, hnumber]
      rfl
  | refused cause found left =>
      obtain ⟨rfl, before, c, hinput, rfl, hending, htaken⟩ := hspells
      have hconsume : p.consume (before ++ [c]).length [] = p.arrive left :=
        consume_eq_arrive_nil (h.ahead.trans (by rw [hinput, List.append_assoc]; rfl))
      rw [Nat.zero_add] at htaken
      rw [List.length_append, List.length_singleton, ← htaken] at hconsume
      rw [hending, Result.map, Agrees, ← hconsume, ← hq]
      rfl

/-! ### Tokens -/

section Tokens

variable {level : Int} {sigil : Sigil} {c : UInt8} {token : Token}

theorem agrees_accepted (back : List UInt8) (h : p.ahead = ofBytes (before ++ (back ++ left)))
    (hresult : Agrees l (p.arrive (back ++ left)) result
      (((p.arrive (back ++ left)).accept l token).carry l)) :
    Agrees l p result
      ((p.afterLead l (before.length + back.length, .accepted token back)).carry l) := by
  rw [afterLead, consume_eq_arrive back h]
  exact hresult.of_arrive (back ++ left)

theorem agrees_rejected (h : p.ahead = ofBytes (before ++ left)) (cause : Rejection.Cause) :
    Agrees l p (.refused cause (some c) left)
      ((p.afterLead l (before.length, .rejected cause c)).carry l) := by
  rw [afterLead, consume_eq_arrive_nil h]
  rfl

theorem agrees_allowed (back : List UInt8) (h : p.ahead = ofBytes (before ++ (back ++ left)))
    (hresult : Agrees l (p.arrive (back ++ left)) result
      (((p.arrive (back ++ left)).accept l token).carry l)) :
    Agrees l p (Grammar.underSigil level sigil c left result)
      ((p.afterLead l
        (before.length + back.length, allowed level sigil c token back)).carry l) := by
  rw [Grammar.underSigil, allowed]
  split
  · rw [← List.length_append]
    exact agrees_rejected (by rw [h, List.append_assoc]) _
  · exact agrees_accepted back h hresult

/-- A token that takes no sigil. -/
theorem agrees_unprefixed (back : List UInt8) (cause : Rejection.Cause)
    (h : p.ahead = ofBytes (before ++ (back ++ left)))
    (hresult : Agrees l (p.arrive (back ++ left)) result
      (((p.arrive (back ++ left)).accept l token).carry l)) :
    Agrees l p (if sigil = .bare then result else .refused cause (some c) left)
      ((p.afterLead l (before.length + back.length,
        if sigil ≠ .bare then .rejected cause c else .accepted token back)).carry l) := by
  by_cases hsigil : sigil = .bare
  · rw [if_pos hsigil, if_neg (not_not_intro hsigil)]
    exact agrees_accepted back h hresult
  · rw [if_neg hsigil, if_pos hsigil, ← List.length_append]
    exact agrees_rejected (by rw [h, List.append_assoc]) _

/-- A sign is that of a list, or of an integer, or part of a symbol. -/
theorem agrees_leadSigned {s : UInt8} {list : Result Tree} (hl : l.stop = none)
    (h : Between l p (before ++ s :: c :: left))
    (hlist : Agrees l (p.arrive left) list
      (((p.arrive left).accept l (.list (Grammar.ofSign s))).carry l)) :
    Agrees l p
      (if c = Ascii.openParen then
        if sigil = .bare then list else .refused .unhandledSigil (some c) left
      else if Ascii.isDigit c then
        if sigil = .bare then Grammar.number (s :: c :: left)
        else .refused .sigilOnInteger (some c) left
      else Grammar.underSigil level sigil c left (Grammar.symbol sigil (s :: c :: left)))
      ((p.afterLead l (before.length + 2, leadSigned level sigil s c)).carry l) := by
  have hrest := h.arrive (s :: c :: left)
  by_cases hopen : c = Ascii.openParen
  · have hshown : p.ahead = ofBytes ((before ++ [s, c]) ++ left) :=
      h.ahead.trans (by rw [List.append_assoc]; rfl)
    have hlength : before.length + 2 = (before ++ [s, c]).length := by
      rw [List.length_append]
      rfl
    rw [if_pos hopen, leadSigned, show Glyph.ofByte c = .opens by rw [hopen]; rfl, hlength]
    exact agrees_unprefixed [] _ hshown hlist
  rw [if_neg hopen]
  by_cases hdigit : Ascii.isDigit c = true
  · rw [if_pos hdigit, leadSigned, ofByte_digit.2 hdigit]
    exact agrees_unprefixed [s, c] _ h.ahead (agrees_number hl hrest)
  · rw [if_neg hdigit, leadSigned_symbol hopen hdigit]
    exact agrees_allowed [s, c] h.ahead
      (agrees_symbol hl hrest sigil false (spells_plain (Nat.zero_add _) _))

/-- What ends a symbol is no value under a sigil. -/
theorem scanSigils_ends (level : Int) (run : List UInt8) (taken : Nat) (rest : Source)
    (hsigil : sigil ≠ .bare) (hends : endsSymbol c = true) :
    scanSigils level sigil run taken (some c :: rest) = (taken + 1, .rejected .danglingSigil c) := by
  simp only [endsSymbol, Bool.or_eq_true, beq_iff_eq] at hends
  rcases hends with (hblank | rfl) | rfl
  · rw [scanSigils.eq_def]
    dsimp only
    rw [Glyph.ofByte, if_pos hblank]
  · exact congrArg (Prod.mk _) (if_pos hsigil)
  · exact congrArg (Prod.mk _) (if_pos hsigil)

/-! ### Values -/

/-- A value is read as a production reads it, if lists are. -/
theorem agrees_value (list : Sigil → List UInt8 → Result Tree) (hl : l.stop = none)
    (h : Between l p input) {c : UInt8} (hinput : input = c :: rest) (hc : endsSymbol c = false)
    (hlist : ∀ sigil rest, Agrees l (p.arrive rest) (list sigil rest)
      (((p.arrive rest).accept l (.list sigil)).carry l)) :
    Agrees l p (Grammar.value list (levelOf p.lists) input) (p.read l) := by
  obtain ⟨run, hsplit⟩ := splitSigil_splits (levelOf p.lists) input
  have hlead : scanLead (levelOf p.lists) 0 (ofBytes input) =
      scanSigils (levelOf p.lists) .bare [] 0 (ofBytes input) := by
    rw [hinput, Source.ofBytes_cons, scanLead, if_neg]
    intro hblank
    rw [ofByte_eq] at hblank
    simp only [endsSymbol, Bool.or_eq_false_iff] at hc
    grind
  rw [read_eq_carry h.valid, turn_of_token h.inComment h.leaf, tokenTurn, h.ahead, hlead,
    hsplit.scan, Grammar.value]
  generalize Grammar.splitSigil input = split at hsplit
  obtain ⟨sigil, body⟩ := split
  obtain ⟨hrun, -, hlongest, hbare⟩ := hsplit
  dsimp only at hrun hlongest hbare ⊢
  have hahead : p.ahead = ofBytes (run ++ body) := h.ahead.trans (by rw [hrun])
  cases body with
  | nil => exact ⟨_, _, rfl⟩
  | cons d rest =>
      have hcombine := hlongest d rest rfl
      have hshown : p.ahead = ofBytes ((run ++ [d]) ++ rest) :=
        hahead.trans (by rw [List.append_assoc]; rfl)
      have hlength : run.length + 1 = (run ++ [d]).length := by
        rw [List.length_append, List.length_singleton]
      rw [Source.ofBytes_cons, scanSigils.eq_def]
      dsimp only
      rw [ofByte_eq]
      by_cases hsign : Grammar.isSign d = true
      · rw [if_pos hsign, if_pos hsign]
        cases rest with
        | nil => exact ⟨_, _, rfl⟩
        | cons e after =>
            have hbetween : Between l p (run ++ d :: e :: after) :=
              ⟨h.valid, h.leaf, h.inComment, hahead⟩
            exact agrees_leadSigned hl hbetween (hlist _ _)
      rw [if_neg hsign, if_neg hsign]
      by_cases hopen : d = Ascii.openParen
      · rw [if_pos hopen, if_pos hopen, hlength]
        exact agrees_allowed [] hshown (hlist sigil rest)
      rw [if_neg hopen, if_neg hopen]
      by_cases hquote : d = Ascii.doubleQuote
      · rw [if_pos hquote, if_pos hquote, hlength]
        exact agrees_allowed [] hshown (agrees_symbol hl (h.arrive rest) sigil true
          (spells_quoted (Nat.zero_add _) rest))
      rw [if_neg hquote, if_neg hquote]
      by_cases hdigit : Ascii.isDigit d = true
      · rw [if_pos hdigit, if_pos hdigit]
        exact agrees_unprefixed [d] _ hahead (agrees_number hl (h.arrive (d :: rest)))
      rw [if_neg hdigit, if_neg hdigit]
      by_cases hends : endsSymbol d = true
      · -- What ends a symbol is not the first byte, so there is a sigil before it.
        have hsigil : sigil ≠ .bare := by
          intro hsigil
          rw [hbare hsigil, List.nil_append, hinput] at hrun
          injection hrun with hd _
          rw [hd, hends] at hc
          contradiction
        have hscan := scanSigils_ends (levelOf p.lists) run run.length (ofBytes rest) hsigil hends
        rw [scanSigils.eq_def] at hscan
        dsimp only at hscan
        rw [ofByte_eq, if_neg hsign, if_neg hopen, if_neg hquote, if_neg hdigit] at hscan
        rw [if_pos hends, hscan, hlength]
        exact agrees_rejected hshown _
      rw [if_neg hends]
      have hother : ¬ Ascii.isBlank d = true ∧ d ≠ Ascii.closeParen ∧ d ≠ Ascii.semicolon := by
        simp only [endsSymbol, Bool.or_eq_true, beq_iff_eq, not_or] at hends
        exact ⟨hends.1.1, hends.1.2, hends.2⟩
      rw [if_neg hother.1, if_neg hother.2.1, if_neg hother.2.2]
      dsimp only
      rw [hcombine]
      dsimp only
      by_cases hsome : (Sigil.ofByte? d).isSome = true
      · rw [if_pos hsome, if_pos hsome, hlength]
        exact agrees_rejected hshown _
      · rw [if_neg hsome, if_neg hsome]
        exact agrees_allowed [d] hahead
          (agrees_symbol hl (h.arrive (d :: rest)) sigil false (spells_plain (Nat.zero_add _) _))

/-! ### Blanks and comments -/

theorem consume_succ {c : UInt8} (h : p.ahead = some c :: ofBytes rest) (taken : Nat)
    (back : List UInt8) : p.consume (taken + 1) back = (p.arrive rest).consume taken back := by
  have hcount : p.count + .ofNat (taken + 1) - .ofNat back.length =
      p.count + .ofNat (rest.length + 1) - .ofNat rest.length + .ofNat taken -
        .ofNat back.length := by
    simp only [UInt32.ofNat_add]
    grind
  simp only [consume, arrive, h, List.drop_succ_cons, List.length_cons, Source.length_ofBytes, hcount]

theorem starve_succ {c : UInt8} (h : p.ahead = some c :: ofBytes rest) (taken : Nat)
    (kept : List UInt8) : p.starve (taken + 1) kept = (p.arrive rest).starve taken kept := by
  have hcount : p.count + .ofNat (taken + 1) - .ofNat kept.length =
      p.count + .ofNat (rest.length + 1) - .ofNat rest.length + .ofNat taken -
        .ofNat kept.length := by
    simp only [UInt32.ofNat_add]
    grind
  simp only [starve, arrive, h, List.drop_succ_cons, List.length_cons, Source.length_ofBytes, hcount]

/-- One more byte of a comment. -/
theorem commentTurn_cons {c : UInt8} (h : p.ahead = some c :: ofBytes rest)
    (hc : c ≠ Ascii.newline) : p.commentTurn = (p.arrive rest).commentTurn := by
  rw [commentTurn, h, scanComment, if_neg hc, scanComment_shift, commentTurn, arrive]
  generalize scanComment 0 (ofBytes rest) = scan
  obtain ⟨taken, found⟩ := scan
  cases found with
  | true =>
      simp only [afterComment, Nat.add_comm (0 + 1), consume_succ h]
      rfl
  | false =>
      simp only [afterComment, Nat.add_comm (0 + 1), starve_succ h]
      rfl

/-- One more blank before a token. -/
theorem tokenTurn_cons {c : UInt8} (h : p.ahead = some c :: ofBytes rest)
    (hc : Ascii.isBlank c = true) : p.tokenTurn l = (p.arrive rest).tokenTurn l := by
  have hglyph : Glyph.ofByte c = .blank := by
    rw [Glyph.ofByte, if_pos hc]
  rw [tokenTurn, h, scanLead, if_pos hglyph, scanLead_shift, tokenTurn]
  change afterLead l p _ = afterLead l (p.arrive rest) (scanLead (levelOf p.lists) 0 (ofBytes rest))
  generalize scanLead (levelOf p.lists) 0 (ofBytes rest) = scan
  obtain ⟨taken, lead⟩ := scan
  cases lead with
  | starved run => simp only [afterLead, starve_succ h]
  | accepted token back => simp only [afterLead, consume_succ h]
  | rejected cause found => simp only [afterLead, consume_succ h]

/-- A read goes on from `left`, which begins with neither a blank nor a comment. -/
def Resumes (l : Limits) (p : Parse) : (left : List UInt8) → Prop
  | [] => ∃ kept q, p.read l = .starved kept q
  | c :: rest => Ascii.isBlank c = false ∧ c ≠ Ascii.semicolon ∧
      p.read l = { p.arrive (c :: rest) with inComment := false }.read l

theorem Resumes.of_arrive (inComment : Bool)
    (hread : p.read l = { p.arrive rest with inComment }.read l)
    (h : Resumes l { p.arrive rest with inComment } left) : Resumes l p left := by
  cases left with
  | nil =>
      obtain ⟨kept, q, hq⟩ := h
      exact ⟨kept, q, hread.trans hq⟩
  | cons d after =>
      obtain ⟨hblank, hsemicolon, hrest⟩ := h
      refine ⟨hblank, hsemicolon, hread.trans (hrest.trans ?_)⟩
      rw [← arrive_arrive p rest (d :: after)]
      rfl

/-- Blanks and comments are skipped as the grammar skips them. -/
theorem resumes_skip (hvalid : p.Valid l) (hleaf : p.leaf = none) {inComment : Bool}
    (hcomment : p.inComment = inComment) (hahead : p.ahead = ofBytes input) :
    Resumes l p (Grammar.skip inComment input) := by
  fun_induction Grammar.skip inComment input generalizing p with
  | case1 inComment =>
      cases inComment with
      | true =>
          refine ⟨[], p.starve 0 [], ?_⟩
          rw [read_eq_carry hvalid, turn_of_comment hcomment, commentTurn, hahead]
          rfl
      | false =>
          refine ⟨[], p.starve 0 [], ?_⟩
          rw [read_eq_carry hvalid, turn_of_token hcomment hleaf, tokenTurn, hahead]
          rfl
  | case2 c rest ih =>
      refine Resumes.of_arrive (c != Ascii.newline) ?_
        (ih (hvalid.of_same rfl rfl) hleaf rfl rfl)
      by_cases hc : c = Ascii.newline
      · refine read_of_again hvalid ?_
        rw [turn_of_comment hcomment, commentTurn, hahead, Source.ofBytes_cons, scanComment,
          if_pos hc, afterComment, consume_succ hahead, consume_zero, hc]
        rfl
      · have hsame : ({ p.arrive rest with inComment := c != Ascii.newline } : Parse) =
            p.arrive rest := by
          rw [show (c != Ascii.newline) = p.inComment by rw [hcomment]; simpa using hc]
          rfl
        have hq : (p.arrive rest).Valid l := hvalid.of_same rfl rfl
        rw [hsame, read_eq_carry hvalid, read_eq_carry hq, turn_of_comment hcomment,
          turn_of_comment (p := p.arrive rest) hcomment, commentTurn_cons hahead hc]
  | case3 c rest hblank ih =>
      have hsame : ({ p.arrive rest with inComment := false } : Parse) = p.arrive rest := by
        rw [← hcomment]
        rfl
      refine Resumes.of_arrive false ?_
        (ih (hvalid.of_same rfl rfl) hleaf rfl rfl)
      have hq : (p.arrive rest).Valid l := hvalid.of_same rfl rfl
      rw [hsame, read_eq_carry hvalid, read_eq_carry hq, turn_of_token hcomment hleaf,
        turn_of_token (p := p.arrive rest) hcomment hleaf, tokenTurn_cons hahead hblank]
  | case4 rest hblank ih =>
      refine Resumes.of_arrive true ?_
        (ih (hvalid.of_same rfl rfl) hleaf rfl rfl)
      refine read_of_again hvalid ?_
      rw [turn_of_token hcomment hleaf, tokenTurn, hahead, Source.ofBytes_cons]
      have hlead : scanLead (levelOf p.lists) 0 (some Ascii.semicolon :: ofBytes rest) =
          (0 + 1, .accepted .comment []) := rfl
      rw [hlead, afterLead, consume_succ hahead, consume_zero]
      rfl
  | case5 c rest hblank hsemicolon =>
      refine ⟨Bool.eq_false_iff.2 hblank, hsemicolon, ?_⟩
      rw [arrive_self hahead, ← hcomment]

/-! ### Lists -/

/-- Where the closing parenthesis comes next, the innermost list is complete. -/
theorem read_close {o : OpenList} {outer : List OpenList}
    (h : Between l p (Ascii.closeParen :: rest)) (hlists : p.lists = o :: outer) :
    p.read l = (({ p.arrive rest with lists := outer } : Parse).complete o.tree).carry l := by
  have hlead : scanLead (levelOf p.lists) 0 (some Ascii.closeParen :: ofBytes rest) =
      (0 + 1, .accepted .close []) := rfl
  have hahead : p.ahead = some Ascii.closeParen :: ofBytes rest := h.ahead
  rw [read_eq_carry h.valid, turn_of_token h.inComment h.leaf, tokenTurn, hahead, hlead, afterLead,
    consume_succ hahead, consume_zero, accept_close_cons l (p := p.arrive rest) hlists]

/-- Lists that may have `depth` more lists in them are read as a production reads them. -/
def ListsAgree (l : Limits) (depth : Nat) : Prop :=
  ∀ (p : Parse) (input : List UInt8) (sigil : Sigil), Between l p input →
    p.lists.length + depth = l.maxDepth →
    Agrees l p (Grammar.list depth (levelOf p.lists) sigil input)
      ((p.accept l (.list sigil)).carry l)

/-- The children of a list are read as a production reads them. -/
theorem agrees_items (hl : l.stop = none) {depth : Nat} (hlist : ListsAgree l depth) {o : OpenList}
    {outer : List OpenList} (h : Between l p input) (hlists : p.lists = o :: outer)
    (hdepth : p.lists.length + depth = l.maxDepth) :
    Agrees l { p with lists := outer }
      ((Grammar.items (Grammar.value (Grammar.list depth (levelOf p.lists)) (levelOf p.lists))
        o.children input).map (.list o.sigil)) (p.read l) := by
  generalize hn : input.length = n
  induction n using Nat.strongRecOn generalizing p input o with
  | _ n ih =>
      have hresumes := resumes_skip h.valid h.leaf h.inComment h.ahead
      have hlength := Grammar.length_skip_le false input
      rw [Grammar.items]
      cases hskip : Grammar.skip false input with
      | nil =>
          rw [hskip] at hresumes
          exact hresumes
      | cons c rest =>
          rw [hskip] at hresumes hlength
          obtain ⟨hblank, hsemicolon, hread⟩ := hresumes
          have hsame : ({ p.arrive (c :: rest) with inComment := false } : Parse) =
              p.arrive (c :: rest) := by
            rw [← h.inComment]
            rfl
          have hq := h.arrive (c :: rest)
          rw [hread, hsame]
          dsimp only
          by_cases hclose : c = Ascii.closeParen
          · subst hclose
            rw [if_pos rfl, read_close hq hlists, arrive_arrive]
            rfl
          · have hends : endsSymbol c = false := by
              simp [endsSymbol, hblank, hclose, hsemicolon]
            have hvalue := agrees_value (Grammar.list depth (levelOf p.lists)) hl hq rfl hends
              fun sigil rest => hlist _ rest sigil (hq.arrive rest) hdepth
            have hwithin' := Grammar.value_within (Grammar.list_within depth (levelOf p.lists))
              (c :: rest)
            rw [if_neg hclose]
            change Agrees l (p.arrive (c :: rest))
              (Grammar.value (Grammar.list depth (levelOf p.lists)) (levelOf p.lists) (c :: rest))
              ((p.arrive (c :: rest)).read l) at hvalue
            generalize Grammar.value (Grammar.list depth (levelOf p.lists)) (levelOf p.lists)
              (c :: rest) = result at hvalue hwithin'
            generalize (p.arrive (c :: rest)).read l = outcome at hvalue
            replace hvalue := hvalue.of_arrive (c :: rest)
            cases result with
            | cut => exact hvalue
            | refused cause found left => exact hvalue
            | whole child after =>
                obtain ⟨hless, hreadable⟩ := hwithin'
                have hafter : after.length < input.length := Nat.lt_of_lt_of_le hless hlength
                have hcomplete : outcome = ((p.arrive after).complete child).carry l := hvalue
                have hsound := sound_complete (h.arrive after).valid hreadable.fits
                rw [hcomplete]
                unfold complete at hsound ⊢
                rw [show (p.arrive after).lists = o :: outer from hlists] at hsound ⊢
                dsimp only at hsound ⊢
                by_cases hfull : o.children.length = Header.maxCount
                · rw [if_pos hfull, if_pos hfull]
                  rfl
                · rw [if_neg hfull] at hsound ⊢
                  rw [if_neg hfull, if_pos hafter]
                  have hlevel : levelOf (o.adopt child :: outer) = levelOf p.lists := by
                    rw [hlists]
                    rfl
                  have hrest := ih after.length (hn ▸ hafter)
                    (p := { p.arrive after with lists := o.adopt child :: outer })
                    (o := o.adopt child) ⟨hsound, h.leaf, h.inComment, rfl⟩ rfl
                    (by rw [← hdepth, hlists]; rfl) rfl
                  rw [show levelOf ({ p.arrive after with lists := o.adopt child :: outer } :
                    Parse).lists = levelOf p.lists from hlevel] at hrest
                  exact hrest.of_arrive after

/-- Lists are read as a production reads them, however deep they may nest. -/
theorem listsAgree (hl : l.stop = none) (depth : Nat) : ListsAgree l depth := by
  induction depth with
  | zero =>
      intro p input sigil h hdepth
      rw [accept, if_pos (by omega), Grammar.list, Agrees, arrive_self h.ahead]
      rfl
  | succ depth ih =>
      intro p input sigil h hdepth
      have hsound := sound_accept h.valid (.list sigil)
      have haccept : p.accept l (.list sigil) =
          .again { p with lists := ⟨sigil, []⟩ :: p.lists } := by
        rw [accept, if_neg (by omega)]
        exact begin_unlimited hl p _ _
      rw [haccept] at hsound ⊢
      have hitems := agrees_items (p := { p with lists := ⟨sigil, []⟩ :: p.lists }) hl ih
        ⟨hsound, h.leaf, h.inComment, h.ahead⟩ rfl
        (by simp only [List.length_cons]; omega)
      exact hitems

/-! ### Whole reads -/

/-- A read between values does what the grammar says. -/
theorem agrees_read (hl : l.stop = none) (hvalid : p.Valid l) (hlists : p.lists = [])
    (hleaf : p.leaf = none) (hahead : p.ahead = ofBytes input) :
    Agrees l { p with inComment := false } (Grammar.read l.maxDepth p.inComment input)
      (p.read l) := by
  have hresumes := resumes_skip hvalid hleaf rfl hahead
  have hlength := Grammar.length_skip_le p.inComment input
  rw [Grammar.read]
  cases hskip : Grammar.skip p.inComment input with
  | nil =>
      rw [hskip] at hresumes
      exact hresumes
  | cons c rest =>
      rw [hskip] at hresumes hlength
      obtain ⟨hblank, hsemicolon, hread⟩ := hresumes
      have hq : Between l { p.arrive (c :: rest) with inComment := false } (c :: rest) :=
        ⟨hvalid.of_same rfl rfl, hleaf, rfl, rfl⟩
      rw [hread]
      refine Agrees.of_arrive (c :: rest) ?_
      dsimp only
      by_cases hclose : c = Ascii.closeParen
      · subst hclose
        have hlead : scanLead 0 0 (some Ascii.closeParen :: ofBytes rest) =
            (0 + 1, .accepted .close []) := rfl
        have hnone : levelOf ({ p.arrive (Ascii.closeParen :: rest) with
            inComment := false } : Parse).lists = 0 := by
          change levelOf p.lists = 0
          rw [hlists]
          rfl
        rw [if_pos rfl, read_eq_carry hq.valid, turn_of_token hq.inComment hq.leaf, tokenTurn,
          hnone, hq.ahead, Source.ofBytes_cons, hlead, afterLead, consume_succ hq.ahead, consume_zero]
        rw [accept_close_nil l (by exact hlists)]
        rfl
      · have hends : endsSymbol c = false := by
          simp [endsSymbol, hblank, hclose, hsemicolon]
        have hlevel : levelOf ({ p.arrive (c :: rest) with inComment := false } : Parse).lists =
            0 := by
          change levelOf p.lists = 0
          rw [hlists]
          rfl
        have hvalue := agrees_value (Grammar.list l.maxDepth 0) hl hq rfl hends ?_
        · rw [hlevel] at hvalue
          rw [if_neg hclose]
          exact hvalue
        · intro sigil rest
          have hlist := listsAgree hl l.maxDepth _ rest sigil (hq.arrive rest)
            (by change p.lists.length + l.maxDepth = l.maxDepth; rw [hlists]; exact Nat.zero_add _)
          rw [show levelOf (({ p.arrive (c :: _) with inComment := false } : Parse).arrive
            rest).lists = 0 from hlevel] at hlist
          exact hlist

end Tokens

end Parse

end FlatLisp
