/-
Module: FlatLisp.Proofs.Reading.Completion
Purpose: Which unfinished values can be completed at all, and by which bytes. Whatever completes a
  value has to add to lists that are not full and to a symbol that is not full, and no unquote may
  wait outside of a quasiquote; where nothing of that is in the way, the closers complete the value.
Main exports: Parse.Completes, Parse.Closable, Parse.closable_of_completes, Parse.Waits,
  Parse.open_of_completes, Parse.completes_missing
-/
import FlatLisp.Proofs.Printing.Missing
import FlatLisp.Proofs.Reading.Acceptance
import FlatLisp.Proofs.Reading.View

namespace FlatLisp

open Source (ofBytes)
open Text

/-- One more child may be added. -/
def OpenList.HasRoom (o : OpenList) : Prop := o.children.length < Header.maxCount

/-- A waiting backslash has a place for the character that it escapes. -/
def Leaf.Closable : Leaf → Prop
  | .symbol _ _ escaped chars => escaped = true → chars.length < Header.maxSymbol
  | .integer .. => True

namespace Parse

open Reading

variable {l : Limits} {p q : Parse}

/-- The bytes ahead complete the value. -/
def Completes (l : Limits) (p : Parse) : Prop := ∃ t q, p.read l = .done t q

/-! ### What is in the way -/

/-- Nothing of what has been read is in the way of completing the value. -/
structure Closable (p : Parse) : Prop where
  outer : ∀ o ∈ p.lists.tail, o.HasRoom
  leaf : ∀ leaf ∈ p.leaf, leaf.Closable ∧ ∀ o ∈ p.lists, o.HasRoom

/-- A turn leads on to where nothing is in the way, or it completes the value. -/
def Outcome.Leads : Outcome → Prop
  | .again q => q.Closable
  | .done _ _ => True
  | .starved _ _ | .failed _ => False

/-- A value can only be added to a list that is not full, and so can that list. -/
theorem room_of_complete {t : Tree} (hvalid : ∀ o ∈ p.lists, o.Fits)
    (h : (p.complete t).Leads) : ∀ o ∈ p.lists, o.HasRoom := by
  unfold complete at h
  cases hlists : p.lists with
  | nil => nofun
  | cons o outer =>
      rw [hlists] at h hvalid
      dsimp only at h
      split at h
      · exact h.elim
      · rename_i hroom
        intro x hx
        rcases List.mem_cons.1 hx with rfl | hx
        · exact Nat.lt_of_le_of_ne (hvalid x (List.mem_cons_self ..)).1 hroom
        · exact h.outer x hx

theorem room_of_begin {length : Nat} (h : (p.begin l length q).Leads) : q.Closable := by
  unfold begin at h
  split at h
  · exact h.elim
  · exact h

/-- What begins a value begins it where there is room for it. -/
theorem room_of_accept {token : Token} (hclose : token ≠ .close) (hcomment : token ≠ .comment)
    (h : (p.accept l token).Leads) : ∀ o ∈ p.lists, o.HasRoom := by
  cases token with
  | comment => contradiction
  | close => contradiction
  | list sigil =>
      rw [accept] at h
      split at h
      · exact h.elim
      · exact (room_of_begin h).outer
  | symbol sigil quoted => exact ((room_of_begin h).leaf _ rfl).2
  | integer => exact ((room_of_begin h).leaf _ rfl).2

theorem closable_of_accept {token : Token} (hvalid : p.Valid l) (hleaf : p.leaf = none)
    (h : (p.accept l token).Leads) : p.Closable := by
  refine ⟨?_, by simp [hleaf]⟩
  by_cases hclose : token = .close
  · subst hclose
    cases hlists : p.lists with
    | nil => nofun
    | cons o outer =>
        rw [accept_close_cons l hlists] at h
        refine room_of_complete (p := { p with lists := outer }) ?_ h
        intro x hx
        exact hvalid.lists x (hlists ▸ List.mem_cons_of_mem _ hx)
  · by_cases hcomment : token = .comment
    · subst hcomment
      exact h.outer
    · intro o ho
      exact room_of_accept hclose hcomment h o (List.mem_of_mem_tail ho)

/-- A full symbol does not end with a character escaped. -/
theorem scanSymbol_full {room : Nat} {source : Source} {back : List UInt8}
    (h : (scanSymbol true true Header.maxSymbol room source).ending = .closed back) : False := by
  match source with
  | [] | none :: _ => simp [scanSymbol, SymbolRun.stop] at h
  | some c :: rest => simp [scanSymbol, SymbolRun.stop] at h

theorem closable_of_symbolTurn {sigil : Sigil} {quoted escaped : Bool} {chars : List UInt8}
    (hvalid : p.Valid l) (hleaf : p.leaf = some (.symbol sigil quoted escaped chars))
    (h : (p.symbolTurn l sigil quoted escaped chars).Leads) : p.Closable := by
  obtain ⟨hchars, hescaped⟩ := hvalid.leaf _ hleaf
  rw [symbolTurn, afterSymbol] at h
  generalize hrun : scanSymbol quoted escaped chars.length
    (l.reserved p.frames p.text - chars.length) p.ahead = run at h
  cases hending : run.ending with
  | starved => rw [hending] at h; exact h.elim
  | tooLong found => rw [hending] at h; exact h.elim
  | full => rw [hending] at h; exact h.elim
  | closed back =>
      rw [hending] at h
      have hroom := room_of_complete (p := (p.consume run.taken back).withLeaf none) hvalid.lists h
      refine ⟨fun o ho => hroom o (List.mem_of_mem_tail ho), ?_⟩
      intro leaf hsome
      rw [hleaf] at hsome
      obtain rfl := Option.some.inj hsome
      refine ⟨?_, hroom⟩
      intro htrue
      refine Nat.lt_of_le_of_ne hchars ?_
      intro hfull
      have hquoted : quoted = true := by
        cases quoted with
        | true => rfl
        | false => rw [hescaped rfl] at htrue; contradiction
      rw [htrue, hquoted, hfull] at hrun
      rw [← hrun] at hending
      exact scanSymbol_full hending

theorem closable_of_integerTurn {negative digits : Bool} {magnitude : Nat} (hvalid : p.Valid l)
    (hleaf : p.leaf = some (.integer negative digits magnitude))
    (h : (p.integerTurn negative digits magnitude).Leads) : p.Closable := by
  rw [integerTurn, afterInteger] at h
  generalize scanInteger magnitude negative digits 0 p.ahead = run at h
  cases hending : run.ending with
  | starved => rw [hending] at h; exact h.elim
  | overflow found => rw [hending] at h; exact h.elim
  | closed next =>
      rw [hending] at h
      have hroom := room_of_complete (p := (p.consume run.taken [next]).withLeaf none) hvalid.lists h
      refine ⟨fun o ho => hroom o (List.mem_of_mem_tail ho), ?_⟩
      intro leaf hsome
      rw [hleaf] at hsome
      obtain rfl := Option.some.inj hsome
      exact ⟨trivial, hroom⟩

/-- One turn does not get rid of what is in the way. -/
theorem closable_of_turn (hvalid : p.Valid l) (h : (p.turn l).Leads) : p.Closable := by
  cases hcomment : p.inComment with
  | true =>
      rw [turn_of_comment hcomment, commentTurn] at h
      generalize scanComment 0 p.ahead = scan at h
      obtain ⟨taken, found⟩ := scan
      cases found with
      | true => exact ⟨h.outer, h.leaf⟩
      | false => exact h.elim
  | false =>
      cases hleaf : p.leaf with
      | none =>
          rw [turn_of_token hcomment hleaf, tokenTurn] at h
          generalize scanLead (levelOf p.lists) 0 p.ahead = scan at h
          obtain ⟨taken, lead⟩ := scan
          cases lead with
          | starved run => exact h.elim
          | rejected cause found => exact h.elim
          | accepted token back =>
              have hclosable := closable_of_accept (p := p.consume taken back)
                (hvalid.of_same rfl rfl) hleaf h
              exact ⟨hclosable.outer, hclosable.leaf⟩
      | some leaf =>
          cases leaf with
          | symbol sigil quoted escaped chars =>
              rw [turn_of_symbol hcomment hleaf] at h
              exact closable_of_symbolTurn hvalid hleaf h
          | integer negative digits magnitude =>
              rw [turn_of_integer hcomment hleaf] at h
              exact closable_of_integerTurn hvalid hleaf h

theorem leads_of_completes (hvalid : p.Valid l)
    (hagain : ∀ q, p.turn l = .again q → q.Completes l → q.Closable) (h : p.Completes l) :
    (p.turn l).Leads := by
  obtain ⟨t, r, hread⟩ := h
  rw [read_eq_carry hvalid] at hread
  cases hturn : p.turn l with
  | again q =>
      rw [hturn] at hread
      exact hagain q hturn ⟨t, r, hread⟩
  | done t q => trivial
  | starved kept q =>
      rw [hturn] at hread
      contradiction
  | failed why =>
      rw [hturn] at hread
      contradiction

/-- A value that can be completed has nothing in the way. -/
theorem closable_of_completes (hvalid : p.Valid l) (h : p.Completes l) : p.Closable := by
  induction p, hvalid using read_induction with
  | step p hvalid ih =>
      refine closable_of_turn hvalid (leads_of_completes hvalid ?_ h)
      intro q hturn hq
      exact ih q (valid_of_again hvalid hturn) hturn hq

end Parse

/-! ### Bytes that wait to be read again -/

namespace Reading

variable {level : Int} {sigil : Sigil} {run kept : List UInt8} {taken : Nat}

theorem allowed_ne_starved {c : UInt8} {token : Token} {back : List UInt8} :
    allowed level sigil c token back ≠ .starved kept := by
  unfold allowed
  split <;> simp

theorem leadSigned_ne_starved {s c : UInt8} : leadSigned level sigil s c ≠ .starved kept := by
  unfold leadSigned
  split
  · split <;> simp
  · split <;> simp
  · exact allowed_ne_starved

/-- After a sigil that is spelled out only a sign waits for the next byte. -/
theorem sign_of_starved {c : UInt8} {rest : Source} (hlongest : sigil.combine c = none)
    (h : (scanSigils level sigil run taken (some c :: rest)).2 = .starved kept) :
    Glyph.ofByte c = .sign ∧ rest.Stalls ∧ kept = run ++ [c] := by
  rw [scanSigils.eq_def] at h
  dsimp only at h
  split at h
  · rename_i hsign
    split at h
    · injection h with h
      exact ⟨hsign, trivial, h.symm⟩
    · injection h with h
      exact ⟨hsign, trivial, h.symm⟩
    · exact (leadSigned_ne_starved h).elim
  · exact (allowed_ne_starved h).elim
  · exact (allowed_ne_starved h).elim
  · split at h <;> contradiction
  · split at h <;> contradiction
  · split at h <;> contradiction
  · contradiction
  · rw [hlongest] at h
    dsimp only at h
    split at h
    · contradiction
    · exact (allowed_ne_starved h).elim

/-- What the bytes `kept` begin depends on what comes next: they spell the sigil `sigil`, after which
there may be a sign. -/
inductive Waits (level : Int) (kept : List UInt8) (sigil : Sigil) : Prop where
  | sigil (hne : sigil ≠ .bare)
      (hlast : ∃ c, kept.getLast? = some c ∧ (Sigil.ofByte? c).isSome = true)
      (hscan : ∀ more, scanLead level 0 (ofBytes kept ++ more) =
        scanSigils level sigil kept kept.length more)
  | sign (s : UInt8) (hsign : Glyph.ofByte s = .sign)
      (hlast : kept.getLast? = some s)
      (hstarved : (scanLead level 0 (ofBytes kept)).2 = .starved kept)
      (hscan : ∀ c more, scanLead level 0 (ofBytes kept ++ some c :: more) =
        (kept.length + 1, leadSigned level sigil s c))

theorem waits_of_starved (hne : kept ≠ [])
    (h : (scanLead level 0 (ofBytes kept)).2 = .starved kept) : ∃ sigil, Waits level kept sigil := by
  obtain ⟨c, rest, rfl⟩ := List.exists_cons_of_ne_nil hne
  -- A blank would not be kept.
  have hblank : Glyph.ofByte c ≠ .blank := by
    intro hblank
    rw [Source.ofBytes_cons, scanLead, if_pos hblank] at h
    have hnil : ofBytes rest ++ [] = ofBytes rest := List.append_nil _
    rcases scanLead_ofBytes level 1 rest with
      ⟨count, lead, ⟨_, _, hlead⟩, hscan⟩ | ⟨blanks, run, hrest, _, _, hstall⟩
    · have hscan := hscan []
      rw [hnil] at hscan
      rw [hscan] at h
      dsimp only at h
      rw [h] at hlead
      exact hlead
    · have hstall := hstall [] trivial
      rw [hnil] at hstall
      rw [hstall] at h
      injection h with h
      have hlength := congrArg List.length hrest
      rw [h, List.length_append, List.length_cons] at hlength
      omega
  have hlead : ∀ more, scanLead level 0 (ofBytes (c :: rest) ++ more) =
      scanSigils level .bare [] 0 (ofBytes (c :: rest) ++ more) := by
    intro more
    rw [Source.ofBytes_cons, List.cons_append, scanLead, if_neg hblank]
  have hscan := hlead []
  rw [List.append_nil] at hscan
  obtain ⟨run, hsplit⟩ := splitSigil_splits level (c :: rest)
  rw [hscan, hsplit.scan] at h
  generalize (Grammar.splitSigil (c :: rest)).1 = sigil at hsplit h
  generalize (Grammar.splitSigil (c :: rest)).2 = body at hsplit h
  cases body with
  | nil =>
      have hrun : c :: rest = run := by rw [hsplit.split, List.append_nil]
      refine ⟨sigil, .sigil ?_ ?_ ?_⟩
      · intro hbare
        rw [hsplit.bare hbare] at hrun
        contradiction
      · rw [hrun]
        obtain ⟨x, hx⟩ := Option.isSome_iff_exists.1 (show run.getLast?.isSome = true by
          rw [← hrun]; simp)
        exact ⟨x, hx, hsplit.last x hx⟩
      · intro more
        rw [hlead, hrun, hsplit.goesOn]
  | cons s body =>
      obtain ⟨hsign, hstalls, hkept⟩ := sign_of_starved (hsplit.longest s body rfl) h
      rw [hkept]
      refine ⟨sigil, .sign s hsign ?_ ?_ ?_⟩
      · simp
      · rw [← hkept, hscan, hsplit.scan]
        exact h
      · intro d more
        rw [← hkept, hlead, hkept, Source.ofBytes_append, List.append_assoc, hsplit.goesOn]
        simp [scanSigils, hsign]

/-- An unquote stands outside of all quasiquotes. -/
def Stray (level : Int) (sigil : Sigil) : Prop := sigil.isUnquote = true ∧ level ≤ 0

theorem allowed_of_accepted {c : UInt8} {token token' : Token} {back back' : List UInt8}
    (h : allowed level sigil c token back = .accepted token' back') :
    ¬ Stray level sigil ∧ token' = token := by
  unfold allowed at h
  split at h
  · contradiction
  · rename_i hstray
    injection h with h _
    exact ⟨hstray, h.symm⟩

theorem leadSigned_accepted {s c : UInt8} {token : Token} {back : List UInt8}
    (h : leadSigned level sigil s c = .accepted token back) :
    ¬ Stray level sigil ∧ token ≠ .close ∧ token ≠ .comment := by
  have hbare : ¬ sigil ≠ .bare → ¬ Stray level sigil := by
    intro hbare hstray
    rw [Decidable.not_not.1 hbare] at hstray
    exact Bool.false_ne_true hstray.1
  unfold leadSigned at h
  split at h
  · split at h
    · contradiction
    · rename_i hsigil
      injection h with h _
      subst h
      exact ⟨hbare hsigil, nofun, nofun⟩
  · split at h
    · contradiction
    · rename_i hsigil
      injection h with h _
      subst h
      exact ⟨hbare hsigil, nofun, nofun⟩
  · obtain ⟨hstray, rfl⟩ := allowed_of_accepted h
    exact ⟨hstray, Token.noConfusion, Token.noConfusion⟩

theorem stray_of_combine {longer : Sigil} {c : UInt8} (hne : sigil ≠ .bare)
    (h : sigil.combine c = some longer) (hstray : Stray level sigil) : Stray level longer := by
  rcases combine_cases h with ⟨hbare, _⟩ | ⟨_, _, rfl⟩ | ⟨rfl, _, _⟩
  · exact (hne hbare).elim
  · exact ⟨rfl, hstray.2⟩
  · exact (Bool.false_ne_true hstray.1).elim

/-- After a sigil there is only a value that the sigil may stand before. -/
theorem scanSigils_accepted {source : Source} {token : Token} {back : List UInt8}
    (hne : sigil ≠ .bare) (h : (scanSigils level sigil run taken source).2 = .accepted token back) :
    ¬ Stray level sigil ∧ token ≠ .close ∧ token ≠ .comment := by
  fun_induction scanSigils level sigil run taken source with
  | case1 | case2 | case3 | case4 => contradiction
  | case5 => exact leadSigned_accepted h
  | case6 | case7 =>
      obtain ⟨hstray, rfl⟩ := allowed_of_accepted h
      exact ⟨hstray, Token.noConfusion, Token.noConfusion⟩
  | case8 | case9 | case10 =>
      rw [if_pos hne] at h
      contradiction
  | case11 => contradiction
  | case12 sigil run taken c rest hother longer hcombine ih =>
      obtain ⟨hstray, htoken⟩ := ih (combine_ne_bare hcombine) h
      exact ⟨fun hbefore => hstray (stray_of_combine hne hcombine hbefore), htoken⟩
  | case13 =>
      split at h
      · contradiction
      · obtain ⟨hstray, rfl⟩ := allowed_of_accepted h
        exact ⟨hstray, Token.noConfusion, Token.noConfusion⟩

/-- Bytes that wait may be waiting in vain: for room in a list, or for a quasiquote. -/
theorem Waits.of_completes {l : Limits} {p : Parse} {more : List UInt8}
    (h : Waits (Parse.levelOf p.lists) kept sigil) (hp : Parse.Between l p (kept ++ more))
    (hcompletes : p.Completes l) :
    (∀ o ∈ p.lists, o.HasRoom) ∧ ¬ Stray (Parse.levelOf p.lists) sigil := by
  have hleads : (p.turn l).Leads := by
    refine Parse.leads_of_completes hp.valid ?_ hcompletes
    intro q hturn hq
    exact Parse.closable_of_completes (Parse.valid_of_again hp.valid hturn) hq
  rw [Parse.turn_of_token hp.inComment hp.leaf, Parse.tokenTurn, hp.ahead, Source.ofBytes_append]
    at hleads
  -- Whatever comes next, it is a value that the sigil stands before.
  have hvalue : ∀ scan : Nat × Lead, (p.afterLead l scan).Leads →
      (∀ token back, scan.2 = .accepted token back →
        ¬ Stray (Parse.levelOf p.lists) sigil ∧ token ≠ .close ∧ token ≠ .comment) →
      (∀ o ∈ p.lists, o.HasRoom) ∧ ¬ Stray (Parse.levelOf p.lists) sigil := by
    intro scan hleads haccepted
    obtain ⟨taken, lead⟩ := scan
    cases lead with
    | starved run => exact hleads.elim
    | rejected cause found => exact hleads.elim
    | accepted token back =>
        obtain ⟨hstray, hclose, hcomment⟩ := haccepted token back rfl
        exact ⟨Parse.room_of_accept (p := p.consume taken back) hclose hcomment hleads, hstray⟩
  refine hvalue _ hleads ?_
  intro token back hscan
  cases h with
  | sigil hne _ hgoesOn =>
      rw [hgoesOn] at hscan
      exact scanSigils_accepted hne hscan
  | sign s _ _ hstarved hgoesOn =>
      cases more with
      | nil =>
          rw [Source.ofBytes_nil, List.append_nil, hstarved] at hscan
          contradiction
      | cons c more =>
          rw [Source.ofBytes_cons, hgoesOn] at hscan
          exact leadSigned_accepted hscan

end Reading

/-! ### What completes a value -/

namespace Parse

open Reading

variable {l : Limits} {p q : Parse} {rest : List UInt8}

/-- One closing parenthesis for each open list. -/
def closers (lists : List OpenList) : List UInt8 := lists.map fun _ => Ascii.closeParen

/-- Once the innermost value is complete, the open lists are closed one after another. -/
theorem completes_complete {t : Tree} (h : Between l p (closers p.lists ++ rest))
    (hroom : ∀ o ∈ p.lists, o.HasRoom) (ht : t.Fits) :
    ∃ t' q, (p.complete t).carry l = .done t' q := by
  generalize hlists : p.lists = lists at h hroom
  induction lists generalizing p t with
  | nil =>
      rw [complete, hlists]
      exact ⟨_, _, rfl⟩
  | cons o outer ih =>
      have hfree := hroom o (List.mem_cons_self ..)
      have hsound := sound_complete h.valid ht
      have hfits := h.valid.lists o (hlists ▸ List.mem_cons_self ..)
      rw [complete, hlists] at hsound ⊢
      dsimp only at hsound ⊢
      rw [if_neg (Nat.ne_of_lt hfree)] at hsound ⊢
      have hq : Between l { p with lists := o.adopt t :: outer }
          (Ascii.closeParen :: (closers outer ++ rest)) :=
        ⟨hsound, h.leaf, h.inComment, h.ahead⟩
      have hread := read_close hq rfl
      have hinner : (o.adopt t).tree.Fits := hfits.adopt ht hfree
      have hnext : Between l
          { ({ p with lists := o.adopt t :: outer } : Parse).arrive (closers outer ++ rest) with
            lists := outer } (closers outer ++ rest) :=
        ⟨⟨fun x hx => hsound.lists x (List.mem_cons_of_mem _ hx), hsound.leaf,
          Nat.le_of_succ_le hsound.depth⟩, h.leaf, h.inComment, rfl⟩
      obtain ⟨t', r, hdone⟩ := ih hinner rfl hnext fun x hx => hroom x (List.mem_cons_of_mem _ hx)
      exact ⟨t', r, hread.trans hdone⟩

/-- Between the children of a list the closing parentheses complete the value. -/
theorem completes_closers (h : Between l p (closers p.lists ++ rest)) (hne : p.lists ≠ [])
    (hroom : ∀ o ∈ p.lists.tail, o.HasRoom) : p.Completes l := by
  obtain ⟨o, outer, hlists⟩ := List.exists_cons_of_ne_nil hne
  rw [hlists] at h hroom
  have hdepth := h.valid.depth
  rw [hlists] at hdepth
  have hnext : Between l { p.arrive (closers outer ++ rest) with lists := outer }
      (closers outer ++ rest) :=
    ⟨⟨fun x hx => h.valid.lists x (hlists ▸ List.mem_cons_of_mem _ hx), h.valid.leaf,
      Nat.le_of_succ_le hdepth⟩, h.leaf, h.inComment, rfl⟩
  obtain ⟨t, r, hdone⟩ := completes_complete hnext hroom
    (h.valid.lists o (hlists ▸ List.mem_cons_self ..)).tree
  exact ⟨t, r, (read_close h hlists).trans hdone⟩

/-- After a symbol that ends the closing parentheses complete the value. -/
theorem completes_symbol {sigil : Sigil} {quoted escaped escaped' : Bool}
    {chars more left : List UInt8} (before back : List UInt8) (hvalid : p.Valid l)
    (hcomment : p.inComment = false)
    (hleaf : p.leaf = some (.symbol sigil quoted escaped chars))
    (hahead : p.ahead = ofBytes (before ++ (back ++ left)))
    (hrun : scanSymbol quoted escaped chars.length (l.reserved p.frames p.text - chars.length)
      p.ahead = ⟨more, before.length + back.length, escaped', .closed back⟩)
    (hleft : back ++ left = closers p.lists ++ rest) (hroom : ∀ o ∈ p.lists, o.HasRoom) :
    p.Completes l := by
  have hfits := scanSymbol_length_le quoted escaped (l.reserved p.frames p.text - chars.length)
    p.ahead (hvalid.leaf _ hleaf).1
  rw [hrun, ← List.length_append] at hfits
  have hnext : Between l ((p.arrive (back ++ left)).withLeaf none) (closers p.lists ++ rest) :=
    ⟨hvalid.without_leaf rfl rfl, rfl, hcomment, by rw [← hleft]; rfl⟩
  obtain ⟨t, r, hdone⟩ := completes_complete (t := .symbol sigil quoted (chars ++ more)) hnext hroom
    hfits
  refine ⟨t, r, ?_⟩
  rw [read_eq_carry hvalid, turn_of_symbol hcomment hleaf, symbolTurn, hrun, afterSymbol]
  dsimp only
  rw [consume_eq_arrive back hahead]
  exact hdone

/-- As `completes_symbol`, for integers. -/
theorem completes_integer {negative negative' digits digits' : Bool} {magnitude magnitude' : Nat}
    {next : UInt8} {left : List UInt8} (before : List UInt8) (hvalid : p.Valid l)
    (hcomment : p.inComment = false)
    (hleaf : p.leaf = some (.integer negative digits magnitude))
    (hahead : p.ahead = ofBytes (before ++ ([next] ++ left)))
    (hrun : scanInteger magnitude negative digits 0 p.ahead =
      ⟨magnitude', negative', digits', before.length + 1, .closed next⟩)
    (hleft : [next] ++ left = closers p.lists ++ rest) (hroom : ∀ o ∈ p.lists, o.HasRoom) :
    p.Completes l := by
  obtain ⟨hmagnitude, hdigits⟩ := hvalid.leaf _ hleaf
  have hfits := (scanInteger_fits negative 0 p.ahead hmagnitude hdigits).1
  rw [hrun] at hfits
  have hnext : Between l ((p.arrive ([next] ++ left)).withLeaf none) (closers p.lists ++ rest) :=
    ⟨hvalid.without_leaf rfl rfl, rfl, hcomment, by rw [← hleft]; rfl⟩
  obtain ⟨t, r, hdone⟩ := completes_complete (t := .integer (Leaf.signed negative' magnitude')) hnext
    hroom (by rw [Tree.Fits, Leaf.natAbs_signed]; exact hfits)
  refine ⟨t, r, ?_⟩
  rw [read_eq_carry hvalid, turn_of_integer hcomment hleaf, integerTurn, hrun, afterInteger]
  dsimp only
  rw [show before.length + 1 = before.length + [next].length from rfl,
    consume_eq_arrive [next] hahead]
  exact hdone

/-- Both the closing parentheses and a line end come right after a symbol or integer. -/
theorem exists_next (lists : List OpenList) (rest : List UInt8) :
    ∃ next left, closers lists ++ Ascii.newline :: rest = [next] ++ left ∧
      (next = Ascii.closeParen ∨ next = Ascii.newline) := by
  cases lists with
  | nil => exact ⟨_, _, rfl, .inr rfl⟩
  | cons o outer => exact ⟨_, _, rfl, .inl rfl⟩

theorem scanSymbol_plain (text : List UInt8) {after : List UInt8} {next : UInt8} {length room : Nat}
    (htext : ∀ c ∈ text, endsSymbol c = false) (hnext : endsSymbol next = true)
    (hlength : length + text.length ≤ Header.maxSymbol) (hroom : text.length ≤ room) :
    scanSymbol false false length room (ofBytes (text ++ ([next] ++ after))) =
      ⟨text, text.length + 1, false, .closed [next]⟩ := by
  induction text generalizing length room with
  | nil => simp [scanSymbol, hnext, SymbolRun.stop]
  | cons c text ih =>
      rw [List.length_cons] at hlength hroom
      obtain ⟨room, rfl⟩ := Nat.exists_eq_succ_of_ne_zero (show room ≠ 0 by omega)
      have hends := htext c (List.mem_cons_self ..)
      have hrest := @ih (length + 1) room (fun x hx => htext x (List.mem_cons_of_mem _ hx))
        (by omega) (by omega)
      have hshort : length ≠ Header.maxSymbol := by omega
      rw [List.cons_append, Source.ofBytes_cons, scanSymbol_cons]
      simp only [Bool.not_false, Bool.true_and, hends, Bool.false_eq_true, if_false,
        Bool.false_and, hshort]
      rw [hrest]
      rfl

/-- A leaf is completed by its closer and the closing parentheses. -/
theorem completes_leaf {leaf : Leaf} (hvalid : p.Valid l) (hcomment : p.inComment = false)
    (hleaf : p.leaf = some leaf)
    (hahead : p.ahead = ofBytes (leaf.view.closer ++ (closers p.lists ++ Ascii.newline :: rest)))
    (hclosable : leaf.Closable) (hroom : ∀ o ∈ p.lists, o.HasRoom)
    (hmemory : ∀ sigil quoted chars, leaf = .symbol sigil quoted true chars →
      chars.length < l.reserved p.frames p.text) : p.Completes l := by
  obtain ⟨next, left, hnext, hbyte⟩ := exists_next p.lists rest
  have hfits := hvalid.leaf _ hleaf
  cases leaf with
  | symbol sigil quoted escaped chars =>
      generalize hspace : l.reserved p.frames p.text - chars.length = room
      cases quoted with
      | false =>
          obtain rfl : escaped = false := hfits.2 rfl
          have hends : endsSymbol next = true := by rcases hbyte with rfl | rfl <;> rfl
          replace hahead : p.ahead = ofBytes ([] ++ ([next] ++ left)) := by
            rw [hahead, hnext]
            rfl
          have hrun : scanSymbol false false chars.length room p.ahead =
              ⟨[], 1, false, .closed [next]⟩ := by
            rw [hahead]
            exact scanSymbol_plain [] nofun hends hfits.1 (Nat.zero_le _)
          exact completes_symbol [] [next] hvalid hcomment hleaf hahead (hspace ▸ hrun) hnext.symm
            hroom
      | true =>
          cases escaped with
          | false =>
              have hrun : scanSymbol true false chars.length room p.ahead =
                  ⟨[], 1, false, .closed []⟩ := by
                rw [hahead]
                exact scanSymbol_cons ..
              exact completes_symbol [Ascii.doubleQuote] [] hvalid hcomment hleaf hahead
                (hspace ▸ hrun) rfl hroom
          | true =>
              have hshort : chars.length ≠ Header.maxSymbol := Nat.ne_of_lt (hclosable rfl)
              have hfree := hmemory sigil true chars rfl
              obtain ⟨room, rfl⟩ := Nat.exists_eq_add_of_lt (show 0 < room by omega)
              have hrun : scanSymbol true true chars.length (0 + room + 1) p.ahead =
                  ⟨[Ascii.doubleQuote], 2, false, .closed []⟩ := by
                rw [hahead]
                change scanSymbol true true chars.length (0 + room + 1)
                  (some Ascii.doubleQuote :: some Ascii.doubleQuote :: _) = _
                rw [scanSymbol_literal (.inl rfl), if_neg hshort]
                dsimp only
                rw [scanSymbol_cons]
                rfl
              exact completes_symbol [Ascii.doubleQuote, Ascii.doubleQuote] [] hvalid hcomment hleaf
                hahead (hspace ▸ hrun) rfl hroom
  | integer negative digits magnitude =>
      have hglyph : Glyph.ofByte next ≠ .sign ∧ Glyph.ofByte next ≠ .digit := by
        rcases hbyte with rfl | rfl <;> decide
      have hstop : ∀ taken, scanInteger magnitude negative true taken (ofBytes ([next] ++ left)) =
          ⟨magnitude, negative, true, taken + 1, .closed next⟩ := by
        intro taken
        rw [List.singleton_append, Source.ofBytes_cons, scanInteger]
        split
        · exact (hglyph.1 ‹_›).elim
        · exact (hglyph.2 ‹_›).elim
        · rfl
      cases digits with
      | true =>
          replace hahead : p.ahead = ofBytes ([] ++ ([next] ++ left)) := by
            rw [hahead, hnext]
            rfl
          have hrun := hstop 0
          rw [← List.nil_append ([next] ++ left), ← hahead] at hrun
          exact completes_integer [] hvalid hcomment hleaf hahead hrun hnext.symm hroom
      | false =>
          obtain rfl : magnitude = 0 := hfits.2 rfl
          replace hahead : p.ahead = ofBytes ([Ascii.zero] ++ ([next] ++ left)) := by
            rw [hahead, hnext]
            rfl
          have hrun : scanInteger 0 negative false 0 p.ahead =
              ⟨0, negative, true, 2, .closed next⟩ := by
            rw [hahead]
            exact hstop 1
          exact completes_integer [Ascii.zero] hvalid hcomment hleaf hahead hrun hnext.symm hroom

/-- A sigil that waits for its value is the last of the bytes that are kept. -/
def pending (kept : List UInt8) : Bool := kept.getLast?.any fun c => (Sigil.ofByte? c).isSome

/-- Another symbol of one character can be begun, and the symbol in progress can have as many
characters as symbols have. -/
structure Spare (l : Limits) (p : Parse) : Prop where
  header : p.leaf = none → l.shortage p.frames p.used Header.symbolLength = none
  character : p.leaf = none → 0 < l.reserved (p.frames + 1) (p.used + Header.symbolLength)
  symbol : ∀ sigil quoted escaped chars, p.leaf = some (.symbol sigil quoted escaped chars) →
    l.reserved p.frames p.text = Header.maxSymbol

theorem completes_of_again (hvalid : p.Valid l) (hturn : p.turn l = .again q)
    (h : q.Completes l) : p.Completes l := by
  obtain ⟨t, r, hread⟩ := h
  exact ⟨t, r, (read_of_again hvalid hturn).trans hread⟩

/-- A symbol is begun where there is memory for it. -/
theorem turn_of_lead {sigil : Sigil} {quoted : Bool} {before back left : List UInt8}
    (hcomment : p.inComment = false) (hleaf : p.leaf = none) (hspare : p.Spare l)
    (hahead : p.ahead = ofBytes (before ++ (back ++ left)))
    (hlead : scanLead (levelOf p.lists) 0 p.ahead =
      (before.length + back.length, .accepted (.symbol sigil quoted) back)) :
    p.turn l =
      .again ((p.arrive (back ++ left)).withLeaf (some (.symbol sigil quoted false []))) := by
  rw [turn_of_token hcomment hleaf, tokenTurn, hlead, afterLead, consume_eq_arrive back hahead,
    accept, begin]
  have hsame : l.shortage (p.arrive (back ++ left)).frames (p.arrive (back ++ left)).used
      Header.symbolLength = none := hspare.header hleaf
  rw [hsame]

/-- Where nothing is in the way the bytes that wait become a symbol. -/
theorem completes_waits {kept : List UInt8} {sigil : Sigil} (hvalid : p.Valid l)
    (hcomment : p.inComment = false) (hleaf : p.leaf = none) (hspare : p.Spare l)
    (hwaits : Waits (levelOf p.lists) kept sigil) (hstray : ¬ Stray (levelOf p.lists) sigil)
    (hroom : ∀ o ∈ p.lists, o.HasRoom)
    (hahead : p.ahead = ofBytes (kept ++ ((if pending kept then Printing.placeholder else []) ++
      (closers p.lists ++ Ascii.newline :: rest)))) : p.Completes l := by
  have hallowed : ∀ c token back, allowed (levelOf p.lists) sigil c token back =
      .accepted token back := by
    intro c token back
    exact if_neg hstray
  have hnew : ∀ quoted left,
      ((p.arrive left).withLeaf (some (.symbol sigil quoted false []))).Valid l := by
    intro quoted left
    refine hvalid.with_leaf rfl rfl ?_
    rintro x ⟨⟩
    exact ⟨Nat.zero_le _, fun _ => rfl⟩
  cases hwaits with
  | sigil hne hlast hscan =>
      obtain ⟨c, hlast, hsome⟩ := hlast
      have hpending : pending kept = true := by
        rw [pending, hlast]
        exact hsome
      rw [hpending, if_pos rfl] at hahead
      replace hahead : p.ahead = ofBytes ((kept ++ [Ascii.doubleQuote]) ++
          ([] ++ (Ascii.doubleQuote :: (closers p.lists ++ Ascii.newline :: rest)))) := by
        rw [hahead, List.append_assoc]
        rfl
      have hlead : scanLead (levelOf p.lists) 0 p.ahead =
          ((kept ++ [Ascii.doubleQuote]).length + 0, .accepted (.symbol sigil true) []) := by
        rw [hahead, List.append_assoc, Source.ofBytes_append, hscan, List.length_append,
          ← hallowed Ascii.doubleQuote]
        rfl
      have hturn := turn_of_lead hcomment hleaf hspare hahead hlead
      refine completes_of_again hvalid hturn ?_
      exact completes_leaf (hnew ..) hcomment rfl rfl nofun hroom nofun
  | sign s hsign hlast _ hscan =>
      obtain ⟨init, rfl⟩ := List.getLast?_eq_some_iff.1 hlast
      obtain ⟨next, left, hnext, hbyte⟩ := exists_next p.lists rest
      have hpending : pending (init ++ [s]) = false := by
        rw [pending, hlast, Option.any_some, Bool.eq_false_iff]
        intro hsome
        rw [ofByte_of_sigil hsome] at hsign
        contradiction
      have hends : endsSymbol next = true := by rcases hbyte with rfl | rfl <;> rfl
      rw [hpending, if_neg Bool.false_ne_true, List.nil_append, hnext] at hahead
      replace hahead : p.ahead = ofBytes (init ++ ([s, next] ++ left)) := by
        rw [hahead, List.append_assoc]
        rfl
      have hlead : scanLead (levelOf p.lists) 0 p.ahead =
          (init.length + 2, .accepted (.symbol sigil false) [s, next]) := by
        have hsigned : leadSigned (levelOf p.lists) sigil s next =
            .accepted (.symbol sigil false) [s, next] := by
          rw [← hallowed next]
          rcases hbyte with rfl | rfl <;> rfl
        have hscan := hscan next (ofBytes left)
        rw [hsigned, List.length_append, Source.ofBytes_append, List.append_assoc] at hscan
        rw [hahead, Source.ofBytes_append]
        exact hscan
      have hturn := turn_of_lead hcomment hleaf hspare hahead hlead
      refine completes_of_again hvalid hturn ?_
      have hplain : endsSymbol s = false := endsSymbol_of_glyph (.inr hsign)
      generalize hq : (p.arrive ([s, next] ++ left)).withLeaf
        (some (.symbol sigil false false [])) = q
      have hframes : q.frames = p.frames + 1 := by
        simp [← hq, frames, withLeaf, arrive, hleaf]
      have htext : q.text = p.used + Header.symbolLength := by
        simp only [← hq, text, used, encode, withLeaf, arrive, hleaf, leafBytes, List.append_nil]
      have hrun : scanSymbol false false 0 (l.reserved q.frames q.text)
          (ofBytes ([s] ++ ([next] ++ left))) = ⟨[s], 2, false, .closed [next]⟩ := by
        refine scanSymbol_plain [s] (by simpa using hplain) hends (by simp [Header.maxSymbol]) ?_
        rw [hframes, htext]
        exact hspare.character hleaf
      subst hq
      exact completes_symbol [s] [next] (hnew ..) hcomment rfl rfl hrun hnext.symm hroom

theorem closers_eq (lists : List OpenList) :
    (lists.map fun o => OpenContext.list o.sigil).flatMap OpenContext.closer = closers lists := by
  induction lists with
  | nil => rfl
  | cons o outer ih =>
      rw [List.map_cons, List.flatMap_cons, ih]
      rfl

/-- Where nothing is in the way, what is missing and a line end complete the value. -/
theorem completes_missing {kept : List UInt8} (hvalid : p.Valid l) (hcomment : p.inComment = false)
    (hclosable : p.Closable) (hspare : p.Spare l) (hunfinished : p.isIdle = false ∨ kept ≠ [])
    (hkept : kept ≠ [] → p.leaf = none ∧ (∀ o ∈ p.lists, o.HasRoom) ∧
      ∃ sigil, Waits (levelOf p.lists) kept sigil ∧ ¬ Stray (levelOf p.lists) sigil)
    (hahead : p.ahead = ofBytes (kept ++ (Printing.missing (pending kept) p.openContexts ++
      Ascii.newline :: rest))) : p.Completes l := by
  rw [Printing.missing, openContexts, List.flatMap_append, closers_eq] at hahead
  cases hleaf : p.leaf with
  | some leaf =>
      obtain ⟨hopen, hroom⟩ := hclosable.leaf leaf hleaf
      have hempty : kept = [] := by
        cases kept with
        | nil => rfl
        | cons c rest =>
            rw [hleaf] at hkept
            exact nomatch (hkept (List.cons_ne_nil _ _)).1
      rw [hempty, hleaf] at hahead
      replace hahead : p.ahead =
          ofBytes (leaf.view.closer ++ (closers p.lists ++ Ascii.newline :: rest)) := by
        rw [hahead]
        simp [pending]
      refine completes_leaf hvalid hcomment hleaf hahead hopen hroom ?_
      intro sigil quoted chars heq
      rw [hspare.symbol sigil quoted true chars (heq ▸ hleaf)]
      rw [heq] at hopen
      exact hopen rfl
  | none =>
      rw [hleaf] at hahead
      by_cases hempty : kept = []
      · rw [hempty] at hahead
        have hne : p.lists ≠ [] := by
          intro hnil
          rcases hunfinished with hbusy | hne
          · rw [isIdle, hnil, hleaf] at hbusy
            contradiction
          · exact hne hempty
        have hbetween : Between l p (closers p.lists ++ Ascii.newline :: rest) :=
          ⟨hvalid, hleaf, hcomment, hahead⟩
        exact completes_closers hbetween hne hclosable.outer
      · obtain ⟨-, hroom, sigil, hwaits, hstray⟩ := hkept hempty
        rw [List.append_assoc] at hahead
        exact completes_waits hvalid hcomment hleaf hspare hwaits hstray hroom hahead

end Parse

end FlatLisp
