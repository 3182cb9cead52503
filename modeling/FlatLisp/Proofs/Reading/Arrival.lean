/-
Module: FlatLisp.Proofs.Reading.Arrival
Purpose: It makes no difference when bytes arrive. A turn that stalls, followed by one that goes on,
  comes to the same as one turn over all the bytes; so a read over bytes that are all there passes
  through every stall.
Main exports: Parse.joined, Parse.joins_turn, Parse.joins_read
-/
import FlatLisp.Proofs.Reading.Progress

namespace FlatLisp

open Source (ofBytes)

theorem Source.bytes_of_stalls {tail : Source} (h : tail.Stalls) :
    Source.bytes (tail.drop 1) = tail.bytes := by
  match tail, h with
  | [], _ => rfl
  | none :: rest, _ => rfl

namespace Parse

open Reading

/-- The same read with all bytes there from the beginning. -/
def joined (p : Parse) (later : List UInt8) : Parse :=
  { p with ahead := ofBytes (p.ahead.bytes ++ later) }

/-- The outcome of the same turn with all bytes there from the beginning. A turn that stalls has no
counterpart. -/
def Outcome.joined (later : List UInt8) : Outcome → Outcome
  | .again p => .again (p.joined later)
  | .starved kept p => .starved kept (p.joined later)
  | .done t p => .done t (p.joined later)
  | .failed why => .failed why

variable {later : List UInt8}

theorem joined_ahead (later : List UInt8) {p : Parse} {bytes : List UInt8} {tail : Source}
    (h : p.ahead = ofBytes bytes ++ tail) :
    (p.joined later).ahead = ofBytes bytes ++ ofBytes (tail.bytes ++ later) := by
  rw [joined, h, Source.bytes_append, Source.bytes_ofBytes, List.append_assoc,
    Source.ofBytes_append]

/-! ### Steps that stop before the input stalls -/

theorem joined_consume {p : Parse} {bytes back : List UInt8} {tail : Source} {taken : Nat}
    (h : p.ahead = ofBytes bytes ++ tail) (htaken : taken ≤ bytes.length) :
    (p.consume taken back).joined later = (p.joined later).consume taken back := by
  have hahead := joined_ahead later h
  simp only [consume, joined] at hahead ⊢
  rw [hahead, h, Source.drop_ofBytes_append_of_le htaken, Source.drop_ofBytes_append_of_le htaken,
    show back.map some = ofBytes back from rfl, Source.bytes_append, Source.bytes_append,
    Source.bytes_ofBytes, Source.bytes_ofBytes, ← Source.ofBytes_append, ← Source.ofBytes_append,
    List.append_assoc, List.append_assoc]

theorem joined_complete (p : Parse) (t : Tree) :
    (p.complete t).joined later = (p.joined later).complete t := by
  obtain ⟨lists, leaf, inComment, count, start, ahead⟩ := p
  cases lists with
  | nil => rfl
  | cons o outer =>
      simp only [complete, joined]
      split <;> rfl

theorem joined_accept (l : Limits) (p : Parse) (token : Token) :
    (p.accept l token).joined later = (p.joined later).accept l token := by
  obtain ⟨lists, leaf, inComment, count, start, ahead⟩ := p
  have hbegin : ∀ (q next : Parse) (length : Nat),
      (q.begin l length next).joined later =
        (q.joined later).begin l length (next.joined later) := by
    intro q next length
    have hsame : l.shortage (q.joined later).frames (q.joined later).used length =
        l.shortage q.frames q.used length := rfl
    rw [begin, begin, hsame]
    cases l.shortage q.frames q.used length <;> rfl
  cases token with
  | comment => rfl
  | close =>
      cases lists with
      | nil => rfl
      | cons o outer => exact joined_complete _ _
  | list sigil =>
      unfold accept
      change ((if l.maxDepth ≤ lists.length then _ else _ : Outcome).joined later) =
        if l.maxDepth ≤ lists.length then _ else _
      split
      · rfl
      · exact hbegin _ _ _
  | symbol sigil quoted => exact hbegin _ _ _
  | integer => exact hbegin _ _ _

/-! ### Steps that the input stalls -/

section Stalled

variable {p : Parse} {before kept : List UInt8} {tail : Source}

theorem ahead_append_nil (h : p.ahead = ofBytes before ++ tail) :
    p.ahead = ofBytes (before ++ []) ++ tail := by
  rw [List.append_nil, h]

theorem ahead_starve (h : p.ahead = ofBytes (before ++ kept) ++ tail) :
    (p.starve (before ++ kept).length kept).ahead = ofBytes kept ++ tail.drop 1 := by
  simp only [starve]
  rw [h, Source.drop_add_ofBytes_append]
  rfl

theorem joined_ahead_starve (later : List UInt8)
    (h : p.ahead = ofBytes (before ++ kept) ++ tail) (htail : tail.Stalls) :
    ((p.starve (before ++ kept).length kept).joined later).ahead =
      ofBytes kept ++ ofBytes (tail.bytes ++ later) := by
  rw [joined_ahead later (ahead_starve h), Source.bytes_of_stalls htail]

/-- Bytes taken after the stall are those taken without it. -/
theorem consume_joined_starve (later : List UInt8) (h : p.ahead = ofBytes (before ++ kept) ++ tail)
    (htail : tail.Stalls) (taken : Nat) (back : List UInt8) :
    ((p.starve (before ++ kept).length kept).joined later).consume taken back =
      (p.joined later).consume (before.length + taken) back := by
  have hq := joined_ahead_starve later h htail
  have hp := joined_ahead later h
  have hcount : p.count + .ofNat (before ++ kept).length - .ofNat kept.length + .ofNat taken -
      .ofNat back.length = p.count + .ofNat (before.length + taken) - .ofNat back.length := by
    simp only [List.length_append, UInt32.ofNat_add]
    grind
  simp only [consume, joined] at hq hp ⊢
  rw [hq, hp]
  simp only [starve]
  rw [hcount, Source.ofBytes_append before kept, List.append_assoc,
    Source.drop_add_ofBytes_append]

theorem starve_joined_starve (later : List UInt8) (h : p.ahead = ofBytes (before ++ kept) ++ tail)
    (htail : tail.Stalls) (taken : Nat) (kept' : List UInt8) :
    ((p.starve (before ++ kept).length kept).joined later).starve taken kept' =
      (p.joined later).starve (before.length + taken) kept' := by
  have hq := joined_ahead_starve later h htail
  have hp := joined_ahead later h
  have hcount : p.count + .ofNat (before ++ kept).length - .ofNat kept.length + .ofNat taken -
      .ofNat kept'.length = p.count + .ofNat (before.length + taken) - .ofNat kept'.length := by
    simp only [List.length_append, UInt32.ofNat_add]
    grind
  simp only [starve, joined] at hq hp ⊢
  rw [hq, hp]
  rw [hcount, Nat.add_assoc, Source.ofBytes_append before kept, List.append_assoc,
    Source.drop_add_ofBytes_append]

/-- As `consume_joined_starve`, where nothing is kept. -/
theorem consume_joined_starve_nil (later : List UInt8) (h : p.ahead = ofBytes before ++ tail)
    (htail : tail.Stalls) (taken : Nat) (back : List UInt8) :
    ((p.starve before.length []).joined later).consume taken back =
      (p.joined later).consume (before.length + taken) back := by
  have hrest := consume_joined_starve later (ahead_append_nil h) htail
    taken back
  rwa [List.append_nil] at hrest

theorem starve_joined_starve_nil (later : List UInt8) (h : p.ahead = ofBytes before ++ tail)
    (htail : tail.Stalls) (taken : Nat) (kept' : List UInt8) :
    ((p.starve before.length []).joined later).starve taken kept' =
      (p.joined later).starve (before.length + taken) kept' := by
  have hrest := starve_joined_starve later (ahead_append_nil h) htail
    taken kept'
  rwa [List.append_nil] at hrest

theorem joined_ahead_starve_nil (later : List UInt8) (h : p.ahead = ofBytes before ++ tail)
    (htail : tail.Stalls) :
    ((p.starve before.length []).joined later).ahead = ofBytes (tail.bytes ++ later) := by
  have hrest := joined_ahead_starve later (ahead_append_nil h) htail
  rwa [List.append_nil] at hrest

end Stalled

/-- A stall with nothing to come leaves everything as it is. -/
theorem starve_of_ahead {q : Parse} {kept : List UInt8} (h : q.ahead = ofBytes kept) :
    q.starve kept.length kept = q := by
  obtain ⟨lists, leaf, inComment, count, start, ahead⟩ := q
  simp only at h
  subst h
  simp [starve, ofBytes]

/-! ### Turns -/

/-- The read that has only the bytes `kept` ahead. -/
def with_kept (p : Parse) (kept : List UInt8) : Parse := { p with ahead := ofBytes kept }

/-- The bytes that are there have run out. Those of them in `kept` are still ahead, and the stall
after them is over. -/
def RunsOut (p : Parse) (kept : List UInt8) (q : Parse) : Prop :=
  ∃ before tail, p.ahead = ofBytes (before ++ kept) ++ tail ∧ tail.Stalls ∧
    q.ahead = ofBytes kept ++ tail.drop 1

theorem runsOut_starve {p : Parse} {before : List UInt8} {tail : Source}
    (h : p.ahead = ofBytes before ++ tail) (htail : tail.Stalls) :
    p.RunsOut [] (p.starve before.length []) := by
  have hsplit := ahead_append_nil h
  have hahead := ahead_starve hsplit
  rw [List.append_nil] at hahead
  exact ⟨before, tail, hsplit, htail, hahead⟩

/-- What one turn says of the same turn with all bytes there: one that settles has the same
outcome, and after one that stalls the next has it. If nothing comes after the stall, another turn
changes nothing. -/
def Outcome.Joins (later : List UInt8) (l : Limits) (p : Parse) : Outcome → Prop
  | .again q => (p.joined later).turn l = .again (q.joined later)
  | .done t q => (p.joined later).turn l = .done t (q.joined later)
  | .failed why => (p.joined later).turn l = .failed why
  | .starved kept q =>
      (p.joined later).turn l = (q.joined later).turn l ∧ p.RunsOut kept q ∧
        (q.with_kept kept).turn l = .starved kept (q.with_kept kept)

theorem joins_of_eq {l : Limits} {p : Parse} {outcome : Outcome}
    (h : (p.joined later).turn l = outcome.joined later)
    (hsettled : ∀ kept q, outcome ≠ .starved kept q) :
    outcome.Joins later l p := by
  cases outcome with
  | again q => exact h
  | starved kept q => exact (hsettled kept q rfl).elim
  | done t q => exact h
  | failed why => exact h

theorem complete_ne_starved (p : Parse) (t : Tree) (kept : List UInt8) (q : Parse) :
    p.complete t ≠ .starved kept q := by
  unfold complete reject
  split
  · simp
  · split <;> simp

theorem begin_ne_starved (l : Limits) (p next : Parse) (length : Nat) (kept : List UInt8)
    (q : Parse) : p.begin l length next ≠ .starved kept q := by
  unfold begin
  split <;> simp

theorem accept_ne_starved (l : Limits) (p : Parse) (token : Token) (kept : List UInt8)
    (q : Parse) : p.accept l token ≠ .starved kept q := by
  cases token with
  | comment => simp [accept]
  | close =>
      cases hlists : p.lists with
      | nil => simp [accept_close_nil l hlists, reject]
      | cons o outer =>
          rw [accept_close_cons l hlists]
          exact complete_ne_starved _ _ _ _
  | list sigil =>
      rw [accept]
      split
      · simp [reject]
      · exact begin_ne_starved _ _ _ _ _ _
  | symbol sigil quoted => exact begin_ne_starved _ _ _ _ _ _
  | integer => exact begin_ne_starved _ _ _ _ _ _

/-- After a stall the rest of a scan leads to what the whole scan leads to. -/
theorem afterComment_shift {p : Parse} {before : List UInt8} {tail : Source}
    (h : p.ahead = ofBytes before ++ tail) (htail : tail.Stalls) (scan : Nat × Bool) :
    ((p.starve before.length []).joined later).afterComment scan =
      (p.joined later).afterComment (before.length + scan.1, scan.2) := by
  obtain ⟨taken, found⟩ := scan
  cases found with
  | true =>
      simp only [afterComment]
      rw [consume_joined_starve_nil later h htail]
  | false =>
      simp only [afterComment]
      rw [starve_joined_starve_nil later h htail]

theorem afterLead_shift (l : Limits) {p : Parse} {before kept : List UInt8} {tail : Source}
    (h : p.ahead = ofBytes (before ++ kept) ++ tail) (htail : tail.Stalls) (scan : Nat × Lead) :
    ((p.starve (before ++ kept).length kept).joined later).afterLead l scan =
      (p.joined later).afterLead l (before.length + scan.1, scan.2) := by
  obtain ⟨taken, lead⟩ := scan
  cases lead with
  | starved run =>
      simp only [afterLead]
      rw [starve_joined_starve later h htail]
  | accepted token back =>
      simp only [afterLead]
      rw [consume_joined_starve later h htail]
  | rejected cause found =>
      simp only [afterLead]
      rw [consume_joined_starve later h htail]

theorem afterSymbol_shift {l : Limits} {p : Parse} {before : List UInt8} {tail : Source}
    (h : p.ahead = ofBytes before ++ tail) (htail : tail.Stalls)
    (hleaf : ∃ leaf, p.leaf = some leaf) (sigil : Sigil) (quoted : Bool) (leaf : Leaf)
    (chars more : List UInt8) (run : SymbolRun) :
    (((p.starve before.length []).withLeaf (some leaf)).joined later).afterSymbol l sigil quoted
        (chars ++ more) run =
      (p.joined later).afterSymbol l sigil quoted chars (run.following more before.length) := by
  obtain ⟨leaf', hleaf⟩ := hleaf
  have hframes : (((p.starve before.length []).withLeaf (some leaf)).joined later).frames =
      (p.joined later).frames := by
    simp [frames, joined, withLeaf, starve, hleaf]
  have hconsume := consume_joined_starve_nil later h htail
  have hstarve := starve_joined_starve_nil later h htail
  obtain ⟨more', taken, escaped, ending⟩ := run
  cases ending with
  | starved =>
      have hrest := congrArg
        (withLeaf · (some (.symbol sigil quoted escaped (chars ++ (more ++ more')))))
        (hstarve taken [])
      simp only [afterSymbol, SymbolRun.following, List.append_assoc]
      exact congrArg (Outcome.starved []) hrest
  | closed back =>
      have hrest := congrArg
        (fun q => (withLeaf q none).complete (.symbol sigil quoted (chars ++ (more ++ more'))))
        (hconsume taken back)
      simp only [afterSymbol, SymbolRun.following, List.append_assoc]
      exact hrest
  | tooLong found =>
      have hrest := congrArg (reject · .symbolTooLong (some found)) (hconsume taken [])
      simp only [afterSymbol, SymbolRun.following]
      exact hrest
  | full =>
      simp only [afterSymbol, SymbolRun.following, hframes]
      rfl

theorem joins_commentTurn {l : Limits} {p : Parse} (h : p.inComment = true) :
    p.commentTurn.Joins later l p := by
  have hjoined : (p.joined later).turn l = (p.joined later).commentTurn := turn_of_comment h
  obtain ⟨bytes, tail, hahead, htail⟩ := p.ahead.exists_split
  rcases scanComment_ofBytes 0 bytes with ⟨count, _, hle, hscan⟩ | hscan
  · have hstep : p.commentTurn = .again { p.consume count [] with inComment := false } := by
      rw [commentTurn, hahead, hscan, Nat.zero_add, afterComment]
    have hstep' : (p.joined later).commentTurn =
        .again { (p.joined later).consume count [] with inComment := false } := by
      rw [commentTurn, joined_ahead later hahead, hscan, Nat.zero_add, afterComment]
    rw [hstep]
    refine joins_of_eq ?_ (by simp)
    rw [hjoined, hstep', ← joined_consume hahead hle]
    rfl
  · have hstep : p.commentTurn = .starved [] (p.starve bytes.length []) := by
      rw [commentTurn, hahead, hscan, scanComment_of_stalls htail, Nat.zero_add, afterComment]
    rw [hstep]
    refine ⟨?_, runsOut_starve hahead htail, ?_⟩
    · rw [hjoined, turn_of_comment (p := (p.starve bytes.length []).joined later) h, commentTurn,
        commentTurn, joined_ahead_starve_nil later hahead htail, afterComment_shift hahead htail,
        ← scanComment_shift, joined_ahead later hahead, hscan, Nat.zero_add]
    · rw [turn_of_comment (p := (p.starve bytes.length []).with_kept []) h]
      change Outcome.starved [] (((p.starve bytes.length []).with_kept []).starve 0 []) = _
      rw [show 0 = ([] : List UInt8).length from rfl, starve_of_ahead rfl]

theorem joins_tokenTurn {l : Limits} {p : Parse} (hcomment : p.inComment = false)
    (hleaf : p.leaf = none) : (p.tokenTurn l).Joins later l p := by
  have hjoined : (p.joined later).turn l = (p.joined later).tokenTurn l :=
    turn_of_token hcomment hleaf
  have hlevel : levelOf (p.joined later).lists = levelOf p.lists := rfl
  obtain ⟨bytes, tail, hahead, htail⟩ := p.ahead.exists_split
  rcases scanLead_ofBytes (levelOf p.lists) 0 bytes with
    ⟨count, lead, ⟨_, hle, hlead⟩, hscan⟩ | ⟨blanks, run, rfl, _, hagain, hstall⟩
  · have hstep : p.tokenTurn l = p.afterLead l (count, lead) := by
      rw [tokenTurn, hahead, hscan, Nat.zero_add]
    have hstep' : (p.joined later).tokenTurn l = (p.joined later).afterLead l (count, lead) := by
      rw [tokenTurn, joined_ahead later hahead, hlevel, hscan, Nat.zero_add]
    rw [hstep]
    cases lead with
    | starved run => exact hlead.elim
    | accepted token back =>
        refine joins_of_eq ?_ (accept_ne_starved l _ token)
        rw [hjoined, hstep', afterLead, afterLead, joined_accept, joined_consume hahead hle]
    | rejected cause found =>
        refine joins_of_eq ?_ (by simp [afterLead, reject])
        rw [hjoined, hstep', afterLead, afterLead, ← joined_consume hahead hle]
        rfl
  · have hstep : p.tokenTurn l = .starved run (p.starve (blanks ++ run).length run) := by
      rw [tokenTurn, hahead, hstall tail htail, Nat.zero_add, afterLead]
    have hkept : scanLead (levelOf p.lists) 0 (ofBytes run) = (run.length, .starved run) := by
      have hempty := hstall [] trivial
      rw [hagain, scanLead_shift, List.append_nil, List.length_append] at hempty
      obtain ⟨htaken, hlead⟩ := Prod.mk.inj hempty
      rw [Prod.ext_iff]
      exact ⟨by dsimp only; omega, hlead⟩
    rw [hstep]
    refine ⟨?_, ⟨blanks, tail, hahead, htail, ahead_starve hahead⟩, ?_⟩
    · rw [hjoined,
        turn_of_token (p := (p.starve (blanks ++ run).length run).joined later) hcomment hleaf,
        tokenTurn, tokenTurn, joined_ahead_starve later hahead htail,
        afterLead_shift l hahead htail, Nat.add_comm, ← scanLead_shift, joined_ahead later hahead,
        hlevel, hagain]
      rfl
    · rw [turn_of_token (p := (p.starve (blanks ++ run).length run).with_kept run) hcomment hleaf]
      change afterLead l ((p.starve (blanks ++ run).length run).with_kept run)
        (scanLead (levelOf p.lists) 0 (ofBytes run)) = _
      rw [hkept, afterLead, starve_of_ahead rfl]

theorem joins_symbolTurn {l : Limits} {p : Parse} {sigil : Sigil} {quoted escaped : Bool}
    {chars : List UInt8} (hcomment : p.inComment = false)
    (hleaf : p.leaf = some (.symbol sigil quoted escaped chars))
    (hescaped : quoted = false → escaped = false) :
    (p.symbolTurn l sigil quoted escaped chars).Joins later l p := by
  have hjoined : (p.joined later).turn l =
      (p.joined later).symbolTurn l sigil quoted escaped chars :=
    turn_of_symbol hcomment hleaf
  have hroom : l.reserved (p.joined later).frames (p.joined later).text =
      l.reserved p.frames p.text := rfl
  obtain ⟨bytes, tail, hahead, htail⟩ := p.ahead.exists_split
  generalize hr : l.reserved p.frames p.text - chars.length = room at *
  rcases scanSymbol_ofBytes quoted escaped chars.length room bytes hescaped with
    ⟨run, hsettled, hscan⟩ | ⟨more, escaped', _, _, hscan⟩
  · have hstep : p.symbolTurn l sigil quoted escaped chars =
        p.afterSymbol l sigil quoted chars run := by
      rw [symbolTurn, hahead, hr, hscan]
    have hstep' : (p.joined later).symbolTurn l sigil quoted escaped chars =
        (p.joined later).afterSymbol l sigil quoted chars run := by
      rw [symbolTurn, joined_ahead later hahead, hroom, hr, hscan]
    have hne := hsettled.ending
    rw [hstep]
    refine joins_of_eq ?_ fun kept q => ?_
    · rw [hjoined, hstep', afterSymbol, afterSymbol]
      cases hending : run.ending with
      | starved => exact (hne hending).elim
      | closed back =>
          dsimp only
          rw [joined_complete, ← joined_consume hahead hsettled.le]
          rfl
      | tooLong found =>
          dsimp only
          rw [← joined_consume hahead hsettled.le]
          rfl
      | full => rfl
    · rw [afterSymbol]
      cases hending : run.ending with
      | starved => exact (hne hending).elim
      | closed back => exact complete_ne_starved _ _ _ _
      | tooLong found => simp [reject]
      | full => simp
  · have hstep : p.symbolTurn l sigil quoted escaped chars =
        .starved [] ((p.starve bytes.length []).withLeaf
          (some (.symbol sigil quoted escaped' (chars ++ more)))) := by
      rw [symbolTurn, hahead, hr, hscan, scanSymbol_of_stalls htail, afterSymbol]
      simp [SymbolRun.following]
    rw [hstep]
    generalize hlonger : Leaf.symbol sigil quoted escaped' (chars ++ more) = longer
    have hlength : chars.length + more.length = (chars ++ more).length := by
      rw [List.length_append]
    have hframes : ((p.starve bytes.length []).withLeaf (some longer)).frames = p.frames := by
      simp [frames, withLeaf, starve, hleaf]
    have htext : ((p.starve bytes.length []).withLeaf (some longer)).text = p.text := rfl
    generalize hq : (p.starve bytes.length []).withLeaf (some longer) = q at hframes htext
    have hqleaf : q.leaf = some (.symbol sigil quoted escaped' (chars ++ more)) := by
      rw [← hq, hlonger, withLeaf]
    have hqcomment : q.inComment = false := by rw [← hq]; exact hcomment
    have hqahead : (q.joined later).ahead = ofBytes (tail.bytes ++ later) := by
      rw [← hq]
      exact joined_ahead_starve_nil later hahead htail
    refine ⟨?_, hq ▸ runsOut_starve hahead htail, ?_⟩
    · rw [hjoined, turn_of_symbol (p := q.joined later) hqcomment hqleaf, symbolTurn, symbolTurn,
        hroom, hr, show l.reserved (q.joined later).frames (q.joined later).text =
          l.reserved q.frames q.text from rfl, hframes, htext, joined_ahead later hahead, hscan,
        hqahead, ← hlength, ← Nat.sub_sub, hr, ← hq,
        afterSymbol_shift hahead htail ⟨_, hleaf⟩]
    · rw [turn_of_symbol (p := q.with_kept []) hqcomment hqleaf, symbolTurn,
        scanSymbol_of_stalls (show (q.with_kept []).ahead.Stalls from trivial), afterSymbol]
      have hsame := starve_of_ahead (q := q.with_kept []) rfl
      rw [List.length_nil] at hsame
      dsimp only
      rw [hsame, List.append_nil, withLeaf, ← hqleaf]
      rfl

/-- As `afterSymbol_shift`, for integers. -/
theorem afterInteger_shift {p : Parse} {before : List UInt8} {tail : Source}
    (h : p.ahead = ofBytes before ++ tail) (htail : tail.Stalls) (leaf : Leaf) (run : IntegerRun) :
    (((p.starve before.length []).withLeaf (some leaf)).joined later).afterInteger run =
      (p.joined later).afterInteger (run.following before.length) := by
  have hconsume := consume_joined_starve_nil later h htail
  have hstarve := starve_joined_starve_nil later h htail
  obtain ⟨magnitude, negative, digits, taken, ending⟩ := run
  cases ending with
  | starved =>
      have hrest := congrArg (withLeaf · (some (.integer negative digits magnitude)))
        (hstarve taken [])
      exact congrArg (Outcome.starved []) hrest
  | closed next =>
      have hrest := congrArg
        (fun q => (withLeaf q none).complete (.integer (Leaf.signed negative magnitude)))
        (hconsume taken [next])
      exact hrest
  | overflow found =>
      have hrest := congrArg (reject · .integerOverflow (some found)) (hconsume taken [])
      exact hrest

theorem joins_integerTurn {l : Limits} {p : Parse} {negative digits : Bool} {magnitude : Nat}
    (hcomment : p.inComment = false) (hleaf : p.leaf = some (.integer negative digits magnitude)) :
    (p.integerTurn negative digits magnitude).Joins later l p := by
  have hjoined : (p.joined later).turn l = (p.joined later).integerTurn negative digits magnitude :=
    turn_of_integer hcomment hleaf
  obtain ⟨bytes, tail, hahead, htail⟩ := p.ahead.exists_split
  rcases scanInteger_ofBytes magnitude negative digits 0 bytes with
    ⟨run, ⟨_, hle, hne⟩, hscan⟩ | ⟨magnitude', negative', digits', hscan⟩
  · rw [Nat.zero_add] at hle
    have hstep : p.integerTurn negative digits magnitude = p.afterInteger run := by
      rw [integerTurn, hahead, hscan]
    have hstep' : (p.joined later).integerTurn negative digits magnitude =
        (p.joined later).afterInteger run := by
      rw [integerTurn, joined_ahead later hahead, hscan]
    rw [hstep]
    refine joins_of_eq ?_ fun kept q => ?_
    · rw [hjoined, hstep', afterInteger, afterInteger]
      cases hending : run.ending with
      | starved => exact (hne hending).elim
      | closed next =>
          dsimp only
          rw [joined_complete, ← joined_consume hahead hle]
          rfl
      | overflow found =>
          dsimp only
          rw [← joined_consume hahead hle]
          rfl
    · rw [afterInteger]
      cases hending : run.ending with
      | starved => exact (hne hending).elim
      | closed next => exact complete_ne_starved _ _ _ _
      | overflow found => simp [reject]
  · have hstep : p.integerTurn negative digits magnitude =
        .starved [] ((p.starve bytes.length []).withLeaf
          (some (.integer negative' digits' magnitude'))) := by
      rw [integerTurn, hahead, hscan, scanInteger_of_stalls htail, Nat.zero_add, afterInteger]
    rw [hstep]
    generalize hq : (p.starve bytes.length []).withLeaf
      (some (.integer negative' digits' magnitude')) = q
    have hqleaf : q.leaf = some (.integer negative' digits' magnitude') := by rw [← hq, withLeaf]
    have hqcomment : q.inComment = false := by rw [← hq]; exact hcomment
    have hqahead : (q.joined later).ahead = ofBytes (tail.bytes ++ later) := by
      rw [← hq]
      exact joined_ahead_starve_nil later hahead htail
    refine ⟨?_, hq ▸ runsOut_starve hahead htail, ?_⟩
    · rw [hjoined, turn_of_integer (p := q.joined later) hqcomment hqleaf, integerTurn, integerTurn,
        joined_ahead later hahead, hscan, hqahead, scanInteger_shift, Nat.zero_add, ← hq,
        afterInteger_shift hahead htail]
    · rw [turn_of_integer (p := q.with_kept []) hqcomment hqleaf, integerTurn,
        scanInteger_of_stalls (show (q.with_kept []).ahead.Stalls from trivial), afterInteger]
      have hsame := starve_of_ahead (q := q.with_kept []) rfl
      rw [List.length_nil] at hsame
      dsimp only
      rw [hsame, withLeaf, ← hqleaf]
      rfl

/-- One turn does what it does when all bytes are there from the beginning. -/
theorem joins_turn (later : List UInt8) {l : Limits} {p : Parse} (h : p.Valid l) :
    (p.turn l).Joins later l p := by
  cases hcomment : p.inComment with
  | true =>
      rw [turn_of_comment hcomment]
      exact joins_commentTurn hcomment
  | false =>
      cases hleaf : p.leaf with
      | none =>
          rw [turn_of_token hcomment hleaf]
          exact joins_tokenTurn hcomment hleaf
      | some leaf =>
          have hfits := h.leaf leaf hleaf
          cases leaf with
          | symbol sigil quoted escaped chars =>
              rw [turn_of_symbol hcomment hleaf]
              exact joins_symbolTurn hcomment hleaf hfits.2
          | integer negative digits magnitude =>
              rw [turn_of_integer hcomment hleaf]
              exact joins_integerTurn hcomment hleaf

/-! ### Reads -/

section Reads

variable {l : Limits} {p q : Parse}

theorem Valid.joined (h : p.Valid l) : (p.joined later).Valid l := h.of_same rfl rfl

theorem joined_read_of_turn (hp : p.Valid l) (hq : q.Valid l)
    (h : (p.joined later).turn l = (q.joined later).turn l) :
    (p.joined later).read l = (q.joined later).read l := by
  rw [read_eq hp.joined, read_eq hq.joined, h]

/-- After the bytes have run out, either all that is ahead are the bytes that are kept, or there is
less to do. -/
theorem RunsOut.work_lt {kept : List UInt8} (h : p.RunsOut kept q) :
    q.ahead = ofBytes kept ∨ q.work < p.work := by
  obtain ⟨before, tail, hp, _, hq⟩ := h
  cases tail with
  | nil => exact .inl (by rw [hq, List.drop_nil, List.append_nil])
  | cons arrival rest =>
      have hpwork : 3 * p.ahead.length + 1 ≤ p.work := by
        unfold work
        split
        · omega
        · split
          · omega
          · split <;> omega
      have hqwork := q.work_le
      rw [hp] at hpwork
      rw [hq] at hqwork
      simp only [List.length_append, Source.length_ofBytes, List.length_drop, List.length_cons]
        at hpwork hqwork
      exact .inr (by omega)

/-- What a read says of the same read with all bytes there, as `Outcome.Joins` does for a turn. What
is not yet done is less than at the beginning, unless only bytes that are kept are left. -/
def Outcome.JoinsRead (later : List UInt8) (l : Limits) (p : Parse) : Outcome → Prop
  | .again _ => False
  | .done t q => (p.joined later).read l = .done t (q.joined later) ∧ q.work < p.work
  | .failed why => (p.joined later).read l = .failed why
  | .starved kept q =>
      (p.joined later).read l = (q.joined later).read l ∧ (∃ rest, q.ahead = ofBytes kept ++ rest) ∧
        (q.ahead = ofBytes kept ∨ q.work < p.work) ∧
        (q.with_kept kept).turn l = .starved kept (q.with_kept kept)

/-- One read does what it does when all bytes are there from the beginning. -/
theorem joins_read (later : List UInt8) (h : p.Valid l) : (p.read l).JoinsRead later l p := by
  induction p, h using read_induction with
  | step p hvalid ih =>
      have hjoins := joins_turn later hvalid
      have hsound := sound_turn hvalid
      cases hturn : p.turn l with
      | again q =>
          rw [hturn] at hjoins
          have hq := valid_of_again hvalid hturn
          have hwork := work_lt_of_again hvalid hturn
          have hread := ih q hq hturn
          have hjoined : (p.joined later).read l = (q.joined later).read l :=
            read_of_again hvalid.joined hjoins
          rw [read_of_again hvalid hturn]
          cases houtcome : q.read l with
          | again r => exact (read_ne_again hq r houtcome).elim
          | done t r =>
              rw [houtcome] at hread
              exact ⟨hjoined.trans hread.1, Nat.lt_trans hread.2 hwork⟩
          | failed why =>
              rw [houtcome] at hread
              exact hjoined.trans hread
          | starved kept r =>
              rw [houtcome] at hread
              obtain ⟨hsame, hahead, hless, hkept⟩ := hread
              exact ⟨hjoined.trans hsame, hahead, hless.imp_right (Nat.lt_trans · hwork), hkept⟩
      | done t q =>
          have hwork := work_lt_of_onward (q := q) hvalid (by rw [hturn]; rfl)
          rw [hturn] at hjoins
          have hjoined : (p.joined later).turn l = .done t (q.joined later) := hjoins
          rw [read_of_settled (by simp [hturn]), hturn]
          exact ⟨(read_of_settled (by simp [hjoined])).trans hjoined, hwork⟩
      | failed why =>
          rw [hturn] at hjoins
          have hjoined : (p.joined later).turn l = .failed why := hjoins
          rw [read_of_settled (by simp [hturn]), hturn]
          exact (read_of_settled (by simp [hjoined])).trans hjoined
      | starved kept q =>
          rw [hturn] at hjoins hsound
          obtain ⟨hsame, hout, hkept⟩ := hjoins
          rw [read_of_settled (by simp [hturn]), hturn]
          obtain ⟨before, tail, -, -, hahead⟩ := id hout
          exact ⟨joined_read_of_turn hvalid hsound hsame, ⟨_, hahead⟩, hout.work_lt, hkept⟩

end Reads

end Parse

end FlatLisp
