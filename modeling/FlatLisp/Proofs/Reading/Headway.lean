/-
Module: FlatLisp.Proofs.Reading.Headway
Purpose: How far a read gets, in terms of trees. It takes bytes off those ahead, counts them and stops
  at the first stall. A value takes one byte at least, and all that was kept for it.
Main exports: Parse.Outcome.Passes, Parse.passes_read, Parse.ahead_of_again, Parse.Footing
-/
import FlatLisp.Proofs.Reading.GivenBack
import FlatLisp.Proofs.Reading.Lines

namespace FlatLisp

open Source (ofBytes)

/-! ### Bytes that are taken -/

namespace Parse

open Reading

variable {l : Limits} {p q r : Parse} {outcome : Outcome} {taken : Nat} {back kept : List UInt8} {t : Tree}

/-- What an outcome leaves of the bytes ahead of `p`. Some are taken off, and counted; where they run
out, those kept are left, and all that comes after the stall. -/
def Outcome.Passes (p : Parse) : Outcome → Prop
  | .again q | .done _ q => ∃ used, p.ahead = ofBytes used ++ q.ahead ∧
      q.count = p.count + .ofNat used.length
  | .starved kept q => ∃ used tail, p.ahead = ofBytes (used ++ kept) ++ tail ∧ tail.Stalls ∧
      q.ahead = ofBytes kept ++ tail.drop 1 ∧ q.count = p.count + .ofNat used.length
  | .failed _ => True

theorem Outcome.Passes.after (h : (Outcome.again q).Passes p) (hrest : outcome.Passes q) :
    outcome.Passes p := by
  obtain ⟨used, hahead, hcount⟩ := h
  have hboth : ∀ more : List UInt8, p.count + .ofNat (used ++ more).length =
      q.count + .ofNat more.length := by
    intro more
    rw [hcount, List.length_append, UInt32.ofNat_add, UInt32.add_assoc]
  cases outcome with
  | again r | done t r =>
      obtain ⟨more, hmore, hnext⟩ := hrest
      refine ⟨used ++ more, ?_, by rw [hnext, hboth]⟩
      rw [hahead, hmore, Source.ofBytes_append, List.append_assoc]
  | starved kept r =>
      obtain ⟨more, tail, hmore, htail, hleft, hnext⟩ := hrest
      refine ⟨used ++ more, tail, ?_, htail, hleft, by rw [hnext, hboth]⟩
      rw [hahead, hmore, List.append_assoc, Source.ofBytes_append used, List.append_assoc]
  | failed why => trivial

theorem passes_same (hahead : q.ahead = p.ahead) (hcount : q.count = p.count) :
    (Outcome.again q).Passes p :=
  ⟨[], hahead.symm, by simp [hcount]⟩

/-- What is given back is not counted. -/
theorem count_taken (count : UInt32) (before back : List UInt8) :
    count + .ofNat (before ++ back).length - .ofNat back.length = count + .ofNat before.length := by
  rw [List.length_append, UInt32.ofNat_add, ← UInt32.add_assoc, UInt32.add_sub_cancel]

theorem passes_consume (h : Takes p.ahead taken back) :
    (Outcome.again (p.consume taken back)).Passes p := by
  obtain ⟨before, tail, hahead, rfl⟩ := h
  refine ⟨before, ?_, ?_⟩
  · rw [consume, hahead, Source.drop_ofBytes_append, Source.ofBytes_append, List.append_assoc]
    rfl
  · exact count_taken p.count before back

theorem passes_starve (h : Drains p.ahead taken kept) :
    (Outcome.starved kept (p.starve taken kept)).Passes p := by
  obtain ⟨before, tail, hahead, rfl, htail⟩ := h
  exact ⟨before, tail, hahead, htail, ahead_starve hahead, count_taken p.count before kept⟩

theorem passes_complete (p : Parse) (t : Tree) : (p.complete t).Passes p := by
  unfold complete
  split
  · exact passes_same rfl rfl
  · split
    · trivial
    · exact passes_same rfl rfl

theorem passes_begin {next : Parse} (length : Nat) (h : (Outcome.again next).Passes p) :
    (p.begin l length next).Passes p := by
  unfold begin
  split
  · trivial
  · exact h

theorem passes_accept (p : Parse) (token : Token) : (p.accept l token).Passes p := by
  cases token with
  | comment => exact passes_same rfl rfl
  | close =>
      cases hlists : p.lists with
      | nil =>
          rw [accept_close_nil l hlists]
          trivial
      | cons o outer =>
          rw [accept_close_cons l hlists]
          exact (passes_same rfl rfl).after (passes_complete _ _)
  | list sigil =>
      unfold accept
      dsimp only
      split
      · trivial
      · exact passes_begin _ (passes_same rfl rfl)
  | symbol sigil quoted => exact passes_begin _ (passes_same rfl rfl)
  | integer => exact passes_begin _ (passes_same rfl rfl)

theorem passes_commentTurn (p : Parse) : p.commentTurn.Passes p := by
  obtain ⟨count, hcount, hshows⟩ := scanComment_takes 0 p.ahead
  rw [commentTurn, afterComment.eq_def]
  generalize scanComment 0 p.ahead = scan at hcount hshows
  obtain ⟨taken, found⟩ := scan
  obtain rfl : taken = count := hcount.trans (Nat.zero_add _)
  cases found with
  | true => exact (passes_consume hshows).after (passes_same rfl rfl)
  | false => exact passes_starve hshows

theorem passes_tokenTurn (p : Parse) : (p.tokenTurn l).Passes p := by
  have hshows : (scanLead (levelOf p.lists) 0 p.ahead).2.Shows p.ahead
      (scanLead (levelOf p.lists) 0 p.ahead).1 :=
    scanLead_shows (levelOf p.lists) 0 p.ahead [] rfl
  rw [tokenTurn]
  generalize scanLead (levelOf p.lists) 0 p.ahead = scan at hshows
  obtain ⟨taken, lead⟩ := scan
  cases lead with
  | starved run => exact passes_starve hshows
  | rejected cause found => trivial
  | accepted token back =>
      obtain ⟨before, tail, hahead, htaken⟩ := hshows
      rw [← List.append_assoc] at hahead htaken
      exact (passes_consume ⟨_, tail, hahead, htaken⟩).after (passes_accept _ _)

theorem passes_symbolTurn (p : Parse) (sigil : Sigil) (quoted escaped : Bool) (chars : List UInt8) :
    (p.symbolTurn l sigil quoted escaped chars).Passes p := by
  rw [symbolTurn]
  have hshows := scanSymbol_shows quoted escaped chars.length
    (l.reserved p.frames p.text - chars.length) p.ahead
  generalize scanSymbol quoted escaped chars.length (l.reserved p.frames p.text - chars.length)
    p.ahead = run at hshows
  obtain ⟨more, taken, escaped', ending⟩ := run
  cases ending with
  | starved => exact passes_starve hshows
  | tooLong found => trivial
  | full => trivial
  | closed back =>
      exact (passes_consume hshows).after ((passes_same rfl rfl).after (passes_complete _ _))

theorem passes_integerTurn (p : Parse) (negative digits : Bool) (magnitude : Nat) :
    (p.integerTurn negative digits magnitude).Passes p := by
  rw [integerTurn]
  obtain ⟨count, hcount, hshows⟩ := scanInteger_shows magnitude negative digits 0 p.ahead
  rw [Nat.zero_add] at hcount
  rw [← hcount] at hshows
  generalize scanInteger magnitude negative digits 0 p.ahead = run at hshows
  obtain ⟨magnitude', negative', digits', taken, ending⟩ := run
  cases ending with
  | starved => exact passes_starve hshows
  | overflow found => trivial
  | closed next =>
      exact (passes_consume hshows).after ((passes_same rfl rfl).after (passes_complete _ _))

theorem passes_turn (p : Parse) : (p.turn l).Passes p := by
  rw [turn]
  split
  · exact passes_commentTurn p
  · split
    · exact passes_tokenTurn p
    · exact passes_symbolTurn p ..
    · exact passes_integerTurn p ..

/-- A read takes bytes off, and counts them; it stops at the first stall. -/
theorem passes_read (hvalid : p.Valid l) : (p.read l).Passes p := by
  induction p, hvalid using read_induction with
  | step p hvalid ih =>
      have hturn := passes_turn (l := l) p
      cases houtcome : p.turn l with
      | again q =>
          rw [houtcome] at hturn
          rw [read_of_again hvalid houtcome]
          exact hturn.after (ih q (valid_of_again hvalid houtcome) houtcome)
      | starved kept q | done t q | failed why =>
          rwa [read_of_settled (by simp [houtcome])]

theorem passes_of_done (hvalid : p.Valid l) (h : p.read l = .done t q) :
    ∃ used, p.ahead = ofBytes used ++ q.ahead ∧ q.count = p.count + .ofNat used.length := by
  have hpasses := passes_read hvalid
  rwa [h] at hpasses

/-! ### What a value takes -/

/-- A leaf that a token begins does not end with the bytes that are given back for it. -/
theorem work_le_of_accept {token : Token} (hleaf : p.leaf = none) (hbegins : token.Begins back)
    (hahead : ∃ rest, p.ahead = ofBytes back ++ rest) (h : p.accept l token = .again q) :
    q.work ≤ 3 * q.ahead.length + 2 := by
  obtain ⟨rest, hahead⟩ := hahead
  have hopens : ∀ leaf, q = p.withLeaf (some leaf) → closesAtOnce leaf p.ahead = false →
      q.work ≤ 3 * q.ahead.length + 2 := by
    intro leaf hq hopen
    unfold work
    subst hq
    split
    · exact Nat.le_refl _
    · change _ + (if closesAtOnce leaf p.ahead then 3 else 1) ≤ _
      rw [hopen, if_neg Bool.false_ne_true]
      exact Nat.le_succ _
  have honward : (p.accept l token).onward = some q := by rw [h]; rfl
  cases token with
  | comment =>
      injection honward with hq
      exact Nat.le_of_eq (work_of_token (show q.leaf = none from hq ▸ hleaf))
  | close =>
      cases hlists : p.lists with
      | nil =>
          rw [accept_close_nil l hlists] at honward
          contradiction
      | cons o outer =>
          rw [accept_close_cons l hlists] at honward
          exact Nat.le_of_eq (work_of_token ((onward_complete honward).2.1.trans hleaf))
  | list sigil =>
      rw [accept] at honward
      split at honward
      · contradiction
      · rw [onward_begin honward]
        exact Nat.le_of_eq (work_of_token hleaf)
  | symbol sigil quoted =>
      refine hopens _ (onward_begin honward) ?_
      cases quoted with
      | true =>
          unfold closesAtOnce
          split <;> simp_all
      | false =>
          obtain ⟨c, more, rfl, hc⟩ := hbegins
          rw [hahead]
          simpa [closesAtOnce] using hc
  | integer =>
      refine hopens _ (onward_begin honward) ?_
      rw [hahead]
      rcases hbegins with ⟨c, rfl, hc⟩ | ⟨c, d, rfl, hc, -⟩
      · simp [closesAtOnce, hc]
      · simp [closesAtOnce, hc]

theorem work_le_of_again (hcomment : p.inComment = false) (h : p.turn l = .again q) :
    q.work ≤ 3 * q.ahead.length + 2 := by
  have hcompleted : ∀ {p' : Parse} {t : Tree}, p'.leaf = none → p'.complete t = .again q →
      q.work ≤ 3 * q.ahead.length + 2 := by
    intro p' t hleaf h
    have honward : (p'.complete t).onward = some q := by rw [h]; rfl
    exact Nat.le_of_eq (work_of_token ((onward_complete honward).2.1.trans hleaf))
  cases hleaf : p.leaf with
  | none =>
      rw [turn_of_token hcomment hleaf, tokenTurn] at h
      have hbegins := scanLead_begins (levelOf p.lists) 0 p.ahead
      generalize scanLead (levelOf p.lists) 0 p.ahead = scan at h hbegins
      obtain ⟨taken, lead⟩ := scan
      cases lead with
      | starved run => contradiction
      | rejected cause found => contradiction
      | accepted token back =>
          exact work_le_of_accept (p := p.consume taken back) hleaf hbegins ⟨_, rfl⟩ h
  | some leaf =>
      cases leaf with
      | symbol sigil quoted escaped chars =>
          rw [turn_of_symbol hcomment hleaf, symbolTurn, afterSymbol] at h
          split at h
          · contradiction
          · contradiction
          · contradiction
          · exact hcompleted rfl h
      | integer negative digits magnitude =>
          rw [turn_of_integer hcomment hleaf, integerTurn, afterInteger] at h
          split at h
          · contradiction
          · contradiction
          · exact hcompleted rfl h

/-- A value that goes on after a turn takes one more byte. -/
theorem ahead_of_again (hvalid : p.Valid l) (hcomment : p.inComment = false)
    (h : p.turn l = .again q) (hread : q.read l = .done t r) : r.ahead.length < q.ahead.length := by
  have hq := valid_of_again hvalid h
  have hjoins := joins_read [] hq
  have hclosed := closed_read hq
  rw [hread] at hjoins hclosed
  have hless := hjoins.2
  have hmost := work_le_of_again hcomment h
  rw [work_of_token hclosed.2] at hless
  omega

end Parse

/-! ### Bytes that were kept -/

namespace Reading

variable {level : Int} {sigil : Sigil} {kept back : List UInt8} {taken : Nat} {source : Source}

/-- A token is not settled by the bytes alone that were kept for it. -/
theorem Waits.past (h : Waits level kept sigil) {token : Token}
    (hscan : scanLead level 0 (ofBytes kept ++ source) = (taken, .accepted token back)) :
    kept.length < taken := by
  obtain ⟨bytes, tail, rfl, htail⟩ := source.exists_split
  cases h with
  | sigil hne hlast hgoes =>
      rw [hgoes] at hscan
      rcases scanSigils_ofBytes level sigil kept kept.length bytes with
        ⟨count, lead, ⟨hpos, -, -⟩, hsettled⟩ | ⟨-, hstall⟩
      · rw [hsettled] at hscan
        injection hscan with htaken _
        omega
      · rw [hstall tail htail] at hscan
        injection hscan with _ hlead
        contradiction
  | sign s hsign hlast hstarved hgoes =>
      cases bytes with
      | cons c more =>
          rw [Source.ofBytes_cons, List.cons_append, hgoes] at hscan
          injection hscan with htaken _
          omega
      | nil =>
          -- Nothing more has arrived, so that the bytes are kept again.
          have hnil : ofBytes kept ++ [] = ofBytes kept := List.append_nil _
          rcases scanLead_ofBytes level 0 kept with
            ⟨count, lead, ⟨-, -, hlead⟩, hsettled⟩ | ⟨blanks, run, -, -, -, hstall⟩
          · have hsame := hsettled []
            rw [hnil] at hsame
            rw [hsame] at hstarved
            dsimp only at hstarved
            rw [hstarved] at hlead
            exact hlead.elim
          · have hdry := hstall tail htail
            rw [Source.ofBytes_nil, List.nil_append, hdry] at hscan
            injection hscan with _ hlead
            contradiction

end Reading

namespace Parse

open Reading

variable {l : Limits} {p q r : Parse} {kept : List UInt8} {t : Tree} {source : Source}

theorem begin_ne_done {next : Parse} {length : Nat} : p.begin l length next ≠ .done t q := by
  unfold begin
  split <;> exact Outcome.noConfusion

/-- Only the end of a list completes a value at once. -/
theorem close_of_accept {token : Token} (h : p.accept l token = .done t q) : token = .close := by
  cases token with
  | close => rfl
  | comment => contradiction
  | list sigil =>
      rw [accept] at h
      split at h
      · contradiction
      · exact (begin_ne_done h).elim
  | symbol sigil quoted => exact (begin_ne_done h).elim
  | integer => exact (begin_ne_done h).elim

/-- The next value takes all bytes that were kept for it. -/
theorem ahead_of_kept (hvalid : p.Valid l) (hcomment : p.inComment = false) (hleaf : p.leaf = none)
    {sigil : Sigil} (hwaits : Waits (levelOf p.lists) kept sigil)
    (hahead : p.ahead = ofBytes kept ++ source) (h : p.read l = .done t r) :
    r.ahead.length ≤ source.length := by
  have hturn : p.turn l = p.afterLead l (scanLead (levelOf p.lists) 0 p.ahead) :=
    turn_of_token hcomment hleaf
  have hlength : p.ahead.length = kept.length + source.length := by
    rw [hahead, List.length_append, Source.length_ofBytes]
  have hbegins := scanLead_begins (levelOf p.lists) 0 p.ahead
  have hback := @scanLead_back (levelOf p.lists) p.ahead
  generalize hscan : scanLead (levelOf p.lists) 0 p.ahead = scan at hturn hbegins hback
  obtain ⟨taken, lead⟩ := scan
  rw [read_eq hvalid, hturn] at h
  cases lead with
  | starved run => contradiction
  | rejected cause found => contradiction
  | accepted token back =>
      obtain ⟨hle, htwo⟩ := hback taken rfl
      rw [hahead] at hscan
      have hpast := hwaits.past hscan
      have hconsume := p.length_consume back hle
      have hpasses := passes_accept (l := l) (p.consume taken back) token
      rw [afterLead] at h hturn
      cases haccept : (p.consume taken back).accept l token with
      | again q =>
          rw [haccept] at h hpasses hturn
          obtain ⟨used, hrest, -⟩ := hpasses
          have hless := ahead_of_again hvalid hcomment hturn h
          rw [hrest, List.length_append] at hconsume
          omega
      | done t' q =>
          rw [haccept] at h hpasses
          obtain ⟨used, hrest, -⟩ := hpasses
          injection h with _ hr
          subst hr
          have htoken := close_of_accept haccept
          subst htoken
          have hnil : back = [] := hbegins
          rw [hrest, List.length_append, hnil, List.length_nil] at hconsume
          omega
      | starved kept q =>
          rw [haccept] at h
          contradiction
      | failed why =>
          rw [haccept] at h
          contradiction

/-! ### Between two calls -/

/-- What is kept waits to be read again. -/
theorem waits_of_again (hne : kept ≠ [])
    (h : (q.with_kept kept).turn l = .starved kept (q.with_kept kept)) :
    q.inComment = false ∧ q.leaf = none ∧ ∃ sigil, Waits (levelOf q.lists) kept sigil := by
  cases hcomment : q.inComment with
  | false => exact ⟨rfl, waits_of_kept hcomment hne h⟩
  | true =>
      rw [turn_of_comment (p := q.with_kept kept) hcomment, commentTurn, afterComment.eq_def] at h
      split at h
      · contradiction
      · injection h with hnil _
        exact (hne hnil.symm).elim

/-- Where nothing has arrived, nothing is begun. -/
theorem leaf_of_stalls (hleaf : p.leaf = none) (hstalls : p.ahead.Stalls)
    (h : p.read l = .starved kept q) : q.leaf = none := by
  have hstarved : p.turn l = .starved [] (p.starve 0 []) := by
    cases hcomment : p.inComment with
    | true =>
        rw [turn_of_comment hcomment, commentTurn, scanComment_of_stalls hstalls]
        rfl
    | false =>
        have hscan : scanLead (levelOf p.lists) 0 p.ahead = (0, .starved []) := by
          cases hahead : p.ahead with
          | nil => simp [scanLead, scanSigils]
          | cons arrival rest =>
              rw [hahead] at hstalls
              cases arrival with
              | none => simp [scanLead, scanSigils]
              | some c => exact hstalls.elim
        rw [turn_of_token hcomment hleaf, tokenTurn, hscan]
        rfl
  rw [read_of_starved hstarved] at h
  injection h with _ hq
  rw [← hq]
  exact hleaf

/-- Where a read stands between two calls. Of all bytes `total` have been consumed, and `last` were when
a value was complete. Of the bytes `kept` there is at most one, or the next value takes them all. -/
structure Footing (last total : Nat) (p : Parse) (kept : List UInt8) : Prop where
  count : p.count = .ofNat total
  begun : last < total ∨ last ≤ total ∧ p.leaf = none
  kept : kept = [] ∨ p.leaf = none ∧ (kept.length = 1 ∨
    p.inComment = false ∧ ∃ sigil, Waits (levelOf p.lists) kept sigil)

theorem Footing.starved {last total : Nat} {before : List UInt8} (hvalid : p.Valid l)
    (h : Footing last total p before) (hread : p.read l = .starved kept q) :
    ∃ used, p.ahead.bytes = used ++ q.ahead.bytes ∧ Footing last (total + used.length) q kept := by
  have hpasses := passes_read hvalid
  have hjoins := joins_read [] hvalid
  rw [hread] at hpasses hjoins
  obtain ⟨-, -, -, hagain⟩ := hjoins
  obtain ⟨used, tail, hahead, htail, hleft, hcount⟩ := hpasses
  have hwaits : kept = [] ∨ q.leaf = none ∧ q.inComment = false ∧
      ∃ sigil, Waits (levelOf q.lists) kept sigil := by
    by_cases hne : kept = []
    · exact .inl hne
    · obtain ⟨hcomment, hleaf, hwaits⟩ := waits_of_again hne hagain
      exact .inr ⟨hleaf, hcomment, hwaits⟩
  refine ⟨used, ?_, ?_, ?_, hwaits.imp_right fun h => ⟨h.1, .inr h.2⟩⟩
  · rw [hahead, hleft, bytes_ofBytes_append, bytes_ofBytes_append, Source.bytes_of_stalls htail,
      List.append_assoc]
  · rw [hcount, h.count, UInt32.ofNat_add]
  rcases h.begun with hless | ⟨hle, hleaf⟩
  · exact .inl (by omega)
  · cases used with
    | cons c used =>
        rw [List.length_cons]
        exact .inl (by omega)
    | nil =>
        refine .inr ⟨hle, ?_⟩
        rcases hwaits with rfl | ⟨hnone, -, -⟩
        · refine leaf_of_stalls hleaf ?_ hread
          rw [hahead]
          exact htail
        · exact hnone

/-- A value is complete behind the last one, and behind all that was kept for it. -/
theorem Footing.done {last total : Nat} (hvalid : p.Valid l) (h : Footing last total p kept)
    (hahead : p.ahead = ofBytes kept ++ source) (hread : p.read l = .done t q) :
    q.leaf = none ∧ ∃ used, p.ahead = ofBytes used ++ q.ahead ∧
      q.count = .ofNat (total + used.length) ∧ last < total + used.length ∧
      kept.length ≤ used.length := by
  have hclosed := closed_read hvalid
  have hless := ahead_of_done hvalid hread
  rw [hread] at hclosed
  obtain ⟨used, hsplit, hcount⟩ := passes_of_done hvalid hread
  have hlength := congrArg List.length hsplit
  rw [List.length_append, Source.length_ofBytes] at hlength
  have hwhole := congrArg List.length hahead
  rw [List.length_append, Source.length_ofBytes] at hwhole
  refine ⟨hclosed.2, used, hsplit, ?_, ?_, ?_⟩
  · rw [hcount, h.count, UInt32.ofNat_add]
  · rcases h.begun with hlast | ⟨hle, hleaf⟩
    · omega
    · have := hless.2 hleaf
      omega
  · rcases h.kept with rfl | ⟨hleaf, hone | ⟨hcomment, sigil, hwaits⟩⟩
    · exact Nat.zero_le _
    · have := hless.2 hleaf
      omega
    · have := ahead_of_kept hvalid hcomment hleaf hwaits hahead hread
      omega

end Parse

end FlatLisp
