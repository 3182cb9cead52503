/-
Module: FlatLisp.Proofs.Reading.Tally
Purpose: Which bytes a reader has consumed. What a scan looks at are the bytes ahead, and what it gives
  back are the last of them. So the bytes that were consumed, those given back and those still to come
  are always the whole input, and where input is refused the byte found is the last one consumed.
Main exports: Reading.Takes, Reading.scanLead_shows, Reading.Counted, ReadError.Placed, Reading.Counts,
  Reading.counts_read
-/
import FlatLisp.Proofs.Reading.Simulation

namespace FlatLisp

/-- Where input is refused at a byte, that byte is found there, `lost` bytes not being counted, as long
as 32 bits are enough to count the bytes. -/
def ReadError.Placed (whole : List UInt8) (lost : Nat) : ReadError → Prop
  | .rejected why => whole.length < UInt32.size → ∀ b ∈ why.found, whole[why.position + lost]? = some b
  | .fault _ => True

/-- The position of a reader that has counted all but `lost` of `taken` bytes. -/
theorem Reader.position_eq {r : Reader} {taken lost : Nat} (hlost : lost ≤ taken)
    (hcount : .ofNat taken = r.count + .ofNat lost) (hshort : taken < UInt32.size) :
    r.position + lost = taken := by
  have hcounted : r.count = .ofNat (taken - lost) := by
    rw [UInt32.ofNat_sub hlost, hcount, UInt32.add_sub_cancel]
  have hsmall : taken - lost < UInt32.size := Nat.lt_of_le_of_lt (Nat.sub_le ..) hshort
  rw [Reader.position, hcounted, UInt32.toNat_ofNat_of_lt' hsmall]
  omega

namespace Reading

open Source (ofBytes)
open Text

/-! ### What scans look at -/

/-- The first `taken` arrivals are bytes, and end with `last`. -/
def Takes (ahead : Source) (taken : Nat) (last : List UInt8) : Prop :=
  ∃ before tail, ahead = ofBytes (before ++ last) ++ tail ∧ (before ++ last).length = taken

/-- The first `taken` arrivals are bytes, and end with `last`; then nothing arrives for a while. -/
def Drains (ahead : Source) (taken : Nat) (last : List UInt8) : Prop :=
  ∃ before tail, ahead = ofBytes (before ++ last) ++ tail ∧ (before ++ last).length = taken ∧
    tail.Stalls

section Takes

variable {ahead rest tail : Source} {taken : Nat} {last : List UInt8} {c : UInt8}

theorem Takes.cons (h : Takes rest taken last) : Takes (some c :: rest) (taken + 1) last := by
  obtain ⟨before, tail, rfl, rfl⟩ := h
  exact ⟨c :: before, tail, rfl, rfl⟩

theorem Drains.cons (h : Drains rest taken last) : Drains (some c :: rest) (taken + 1) last := by
  obtain ⟨before, tail, rfl, rfl, hstalls⟩ := h
  exact ⟨c :: before, tail, rfl, rfl, hstalls⟩

/-- The last byte is what was looked at last. -/
theorem takes_one (c : UInt8) (rest : Source) : Takes (some c :: rest) 1 [c] :=
  ⟨[], rest, rfl, rfl⟩

theorem Takes.nil (h : Takes ahead taken last) : Takes ahead taken [] := by
  obtain ⟨before, tail, rfl, rfl⟩ := h
  exact ⟨before ++ last, tail, by rw [List.append_nil], by rw [List.append_nil]⟩

/-- The byte after those looked at before is looked at as well. -/
theorem takes_next (before : List UInt8) (c : UInt8) (rest : Source) :
    Takes (ofBytes before ++ some c :: rest) (before.length + 1) [c] :=
  ⟨before, rest, by simp, by simp⟩

theorem takes_append (before last : List UInt8) (tail : Source) :
    Takes (ofBytes (before ++ last) ++ tail) (before ++ last).length last :=
  ⟨before, tail, rfl, rfl⟩

theorem drains_nil (h : tail.Stalls) : Drains tail 0 [] := ⟨[], tail, rfl, rfl, h⟩

end Takes

/-! ### Comments and integers -/

theorem scanComment_takes (taken : Nat) (source : Source) :
    ∃ count, (scanComment taken source).1 = taken + count ∧
      if (scanComment taken source).2 then Takes source count [] else Drains source count [] := by
  fun_induction scanComment taken source with
  | case1 | case2 => exact ⟨0, rfl, drains_nil trivial⟩
  | case3 => exact ⟨1, rfl, (takes_one ..).nil⟩
  | case4 taken c rest hc ih =>
      obtain ⟨count, hcount, hshows⟩ := ih
      refine ⟨count + 1, by omega, ?_⟩
      split at hshows
      · rename_i hfound
        rw [if_pos hfound]
        exact hshows.cons
      · rename_i hfound
        rw [if_neg hfound]
        exact hshows.cons

/-- How the bytes end that a run of integer characters looks at. -/
def IntegerRun.Ending.Shows (ahead : Source) (taken : Nat) : IntegerRun.Ending → Prop
  | .starved => Drains ahead taken []
  | .closed next => Takes ahead taken [next]
  | .overflow found => Takes ahead taken [found]

theorem IntegerRun.Ending.Shows.cons {ending : IntegerRun.Ending} {rest : Source} {taken : Nat}
    {c : UInt8} (h : ending.Shows rest taken) : ending.Shows (some c :: rest) (taken + 1) := by
  cases ending with
  | starved => exact Drains.cons h
  | closed next => exact Takes.cons h
  | overflow found => exact Takes.cons h

theorem scanInteger_shows (magnitude : Nat) (negative digits : Bool) (taken : Nat)
    (source : Source) :
    ∃ count, (scanInteger magnitude negative digits taken source).taken = taken + count ∧
      (scanInteger magnitude negative digits taken source).ending.Shows source count := by
  fun_induction scanInteger magnitude negative digits taken source with
  | case1 | case2 => exact ⟨0, rfl, drains_nil trivial⟩
  | case3 _ _ _ _ _ _ ih | case5 _ _ _ _ _ _ _ _ _ ih =>
      obtain ⟨count, hcount, hshows⟩ := ih
      exact ⟨count + 1, by omega, hshows.cons⟩
  | case4 | case6 | case7 => exact ⟨1, rfl, takes_one ..⟩

/-! ### Symbols -/

/-- How the bytes end that a run of symbol characters looks at. -/
def SymbolRun.Ending.Shows (ahead : Source) (taken : Nat) : SymbolRun.Ending → Prop
  | .starved => Drains ahead taken []
  | .closed back => Takes ahead taken back
  | .tooLong found => Takes ahead taken [found]
  | .full => Takes ahead taken []

theorem SymbolRun.Ending.Shows.cons {ending : SymbolRun.Ending} {rest : Source} {taken : Nat}
    {c : UInt8} (h : ending.Shows rest taken) : ending.Shows (some c :: rest) (taken + 1) := by
  cases ending with
  | starved => exact Drains.cons h
  | closed back => exact Takes.cons h
  | tooLong found => exact Takes.cons h
  | full => exact Takes.cons h

theorem scanSymbol_shows (quoted escaped : Bool) (length room : Nat) (source : Source) :
    (scanSymbol quoted escaped length room source).ending.Shows source
      (scanSymbol quoted escaped length room source).taken := by
  fun_induction scanSymbol quoted escaped length room source with
  | case1 | case2 => exact drains_nil trivial
  | case3 => exact takes_one ..
  | case4 _ _ _ _ _ _ _ ih => exact ih.cons
  | case5 => exact (takes_one ..).nil
  | case6 => exact takes_one ..
  | case7 => exact (takes_one ..).nil
  | case8 _ _ _ _ _ _ _ _ _ ih => exact ih.cons

/-! ### Tokens -/

/-- The byte that opens or closes a list. -/
def Token.paren : Token → List UInt8
  | .list _ => [Ascii.openParen]
  | .close => [Ascii.closeParen]
  | _ => []

/-- How the bytes end that are looked at for a token. -/
def Lead.Shows (ahead : Source) (taken : Nat) : Lead → Prop
  | .starved run => Drains ahead taken run
  | .accepted token back => Takes ahead taken (token.paren ++ back)
  | .rejected _ found => Takes ahead taken [found]

theorem eq_openParen_of_glyph {c : UInt8} (h : Glyph.ofByte c = .opens) : c = Ascii.openParen := by
  unfold Glyph.ofByte at h
  repeat' split at h
  all_goals first | assumption | contradiction

theorem eq_closeParen_of_glyph {c : UInt8} (h : Glyph.ofByte c = .closes) :
    c = Ascii.closeParen := by
  unfold Glyph.ofByte at h
  repeat' split at h
  all_goals first | assumption | contradiction

theorem allowed_shows {ahead : Source} {taken : Nat} (level : Int) (sigil : Sigil) {c : UInt8}
    {token : Token} {back : List UInt8} (hfound : Takes ahead taken [c])
    (hback : Takes ahead taken (token.paren ++ back)) :
    (allowed level sigil c token back).Shows ahead taken := by
  rw [allowed]
  split
  · exact hfound
  · exact hback

theorem leadSigned_shows (before : List UInt8) (level : Int) (sigil : Sigil) (s c : UInt8)
    (tail : Source) : (leadSigned level sigil s c).Shows (ofBytes (before ++ [s, c]) ++ tail)
      (before ++ [s, c]).length := by
  have hback := takes_append before [s, c] tail
  have hfound : Takes (ofBytes (before ++ [s, c]) ++ tail) (before ++ [s, c]).length [c] :=
    ⟨before ++ [s], tail, by simp, by simp⟩
  rw [leadSigned]
  split
  · split
    · exact hfound
    · exact hback
  · rename_i hopens
    split
    · exact hfound
    · obtain rfl := eq_openParen_of_glyph hopens
      exact hfound
  · exact allowed_shows level sigil hfound hback

/-- What is looked at are the bytes `blanks` and `run` and those after them. -/
theorem scanSigils_shows (level : Int) (sigil : Sigil) (run : List UInt8) (taken : Nat)
    (source : Source) : ∀ blanks : List UInt8, (blanks ++ run).length = taken →
      (scanSigils level sigil run taken source).2.Shows (ofBytes (blanks ++ run) ++ source)
        (scanSigils level sigil run taken source).1 := by
  fun_induction scanSigils level sigil run taken source with
  | case1 | case2 =>
      intro blanks htaken
      exact ⟨blanks, _, rfl, htaken, trivial⟩
  | case3 sigil run taken c =>
      rintro blanks rfl
      exact ⟨blanks, [], by simp, by simp [Nat.add_assoc], trivial⟩
  | case4 sigil run taken c _ rest =>
      rintro blanks rfl
      exact ⟨blanks, none :: rest, by simp, by simp [Nat.add_assoc], trivial⟩
  | case5 sigil run taken c _ d rest =>
      rintro blanks rfl
      have hshows := leadSigned_shows (blanks ++ run) level sigil c d rest
      simpa [Nat.add_assoc] using hshows
  | case6 sigil run taken c rest hopens =>
      rintro blanks rfl
      obtain rfl := eq_openParen_of_glyph hopens
      exact allowed_shows level _ (takes_next ..) (takes_next ..)
  | case7 sigil run taken c rest =>
      rintro blanks rfl
      exact allowed_shows level _ (takes_next ..) (takes_next ..).nil
  | case8 sigil run taken c rest =>
      rintro blanks rfl
      split
      · exact takes_next ..
      · exact takes_next ..
  | case9 sigil run taken c rest =>
      rintro blanks rfl
      split
      · exact takes_next ..
      · exact (takes_next ..).nil
  | case10 sigil run taken c rest hcloses =>
      rintro blanks rfl
      obtain rfl := eq_closeParen_of_glyph hcloses
      split
      · exact takes_next ..
      · exact takes_next ..
  | case11 sigil run taken c rest =>
      rintro blanks rfl
      exact takes_next ..
  | case12 sigil run taken c rest hother longer hcombine ih =>
      rintro blanks rfl
      have hshows := ih blanks (by simp [Nat.add_assoc])
      simpa using hshows
  | case13 sigil run taken c rest =>
      rintro blanks rfl
      split
      · exact takes_next ..
      · exact allowed_shows level _ (takes_next ..) (takes_next ..)

theorem scanLead_shows (level : Int) (taken : Nat) (source : Source) : ∀ blanks : List UInt8,
    blanks.length = taken → (scanLead level taken source).2.Shows (ofBytes blanks ++ source)
      (scanLead level taken source).1 := by
  fun_induction scanLead level taken source with
  | case1 taken c rest hblank ih =>
      rintro blanks rfl
      have hshows := ih (blanks ++ [c]) (by simp)
      simpa using hshows
  | case2 taken c rest hblank =>
      rintro blanks rfl
      have hshows := scanSigils_shows level .bare [] blanks.length (some c :: rest) blanks (by simp)
      simpa using hshows
  | case3 taken ahead hahead =>
      rintro blanks rfl
      have hshows := scanSigils_shows level .bare [] blanks.length ahead blanks (by simp)
      simpa using hshows

/-! ### What has been counted -/

/-- Of the bytes of `whole` those that are not ahead have been consumed. All but `lost` of them have
been counted, as far as 32 bits can tell, and `last` are the last of them. -/
def Counted (whole : List UInt8) (lost : Nat) (last : List UInt8) (s : Reading) : Prop :=
  ∃ before, whole = before ++ last ++ s.ahead.bytes ∧
    .ofNat (before ++ last).length = s.reader.count + .ofNat lost ∧ lost ≤ before.length

section Counts

variable {α β : Type} {whole last last' back : List UInt8} {lost taken : Nat} {s : Reading}

/-- Whatever the result, all bytes are accounted for. -/
def Tallied (whole : List UInt8) (lost : Nat) : EStateM.Result ReadError Reading α → Prop
  | .ok _ s => Counted whole lost [] s
  | .error e s => Counted whole lost [] s ∧ e.Placed whole lost

/-- The part of a read accounts for all bytes where it begins in the state `s`. -/
def CountsAt (whole : List UInt8) (lost : Nat) (s : Reading) (job : ReadM α) : Prop :=
  Tallied whole lost (job s)

/-- The part of a read accounts for all bytes, if `last` were the last bytes consumed before it. -/
def Counts (whole : List UInt8) (lost : Nat) (last : List UInt8) (job : ReadM α) : Prop :=
  ∀ s, Counted whole lost last s → CountsAt whole lost s job

theorem Counted.nil (h : Counted whole lost last s) : Counted whole lost [] s := by
  obtain ⟨before, hwhole, hcount, hlost⟩ := h
  refine ⟨before ++ last, by rwa [List.append_nil], by rwa [List.append_nil], ?_⟩
  rw [List.length_append]
  omega

theorem Counted.of_same {s t : Reading} (h : Counted whole lost last s) (hahead : t.ahead = s.ahead)
    (hcount : t.reader.count = s.reader.count) : Counted whole lost last t := by
  rw [Counted, hahead, hcount]
  exact h

theorem bytes_ofBytes_append (bytes : List UInt8) (tail : Source) :
    Source.bytes (ofBytes bytes ++ tail) = bytes ++ tail.bytes := by
  rw [Source.bytes_append, Source.bytes_ofBytes]

/-- Bytes are consumed that end with `last`, those left aside that are given back. -/
theorem Counted.consumed (h : Counted whole lost last' s)
    (htakes : Takes s.ahead taken (last ++ back)) :
    Counted whole lost last (s.consumed taken back) := by
  obtain ⟨before, hwhole, hcount, hlost⟩ := h
  obtain ⟨blanks, tail, hahead, htaken⟩ := htakes
  have hbytes : (s.consumed taken back).ahead.bytes = back ++ tail.bytes := by
    rw [ahead_consumed, hahead, ← htaken, Source.drop_ofBytes_append]
    exact bytes_ofBytes_append back tail
  have hnext : (s.consumed taken back).reader.count =
      s.reader.count + .ofNat taken - .ofNat back.length := rfl
  rw [hahead, bytes_ofBytes_append] at hwhole
  refine ⟨before ++ last' ++ blanks, ?_, ?_, ?_⟩
  · rw [hbytes, hwhole]
    simp only [List.append_assoc]
  · rw [hnext, ← htaken]
    simp only [List.length_append, UInt32.ofNat_add] at hcount ⊢
    grind
  · simp only [List.length_append]
    omega

/-- Where the bytes run out nothing is between those given back and the stall. -/
theorem Counted.starved (h : Counted whole lost last s) (hdrains : Drains s.ahead taken back) :
    Counted whole lost [] (s.starved taken back) := by
  obtain ⟨before, tail, hahead, rfl, hstalls⟩ := hdrains
  have hconsumed : Counted whole lost [] (s.consumed (before ++ back).length back) :=
    h.consumed ⟨before, tail, hahead, rfl⟩
  have hpushback := pushback_le_of_ahead hahead hstalls
  have hsource : (s.consumed (before ++ back).length back).source = tail := by
    have hdrop : s.ahead.drop (before ++ back).length = tail := by
      rw [hahead, Source.drop_ofBytes_append]
    rwa [ahead, List.drop_append, List.length_map,
      List.drop_eq_nil_of_le (by rwa [List.length_map]), List.nil_append] at hdrop
  obtain ⟨counted, hwhole, hcount, hlost⟩ := hconsumed
  refine ⟨counted, ?_, hcount, hlost⟩
  rw [hwhole, ahead, ahead, starved, hsource, Source.bytes_append, Source.bytes_append,
    Source.bytes_of_stalls hstalls]

/-! ### Parts of a read that consume nothing -/

/-- Both have the same input, and have come equally far in it. -/
structure SameInput (s t : Reading) : Prop where
  source : t.source = s.source
  pushback : t.reader.pushback = s.reader.pushback
  count : t.reader.count = s.reader.count

theorem SameInput.ahead {s t : Reading} (h : SameInput s t) : t.ahead = s.ahead := by
  rw [Reading.ahead, Reading.ahead, h.source, h.pushback]

theorem SameInput.trans {s t u : Reading} (h : SameInput s t) (h' : SameInput t u) : SameInput s u :=
  ⟨h'.source.trans h.source, h'.pushback.trans h.pushback, h'.count.trans h.count⟩

/-- The part of a read leaves the input alone, and refuses nothing. -/
def Still (job : ReadM α) : Prop :=
  ∀ s, match job s with
    | .ok _ t => SameInput s t
    | .error e t => SameInput s t ∧ ∃ why, e = .fault why

theorem Still.bind {job : ReadM α} {next : α → ReadM β} (h : Still job)
    (hnext : ∀ x, Still (next x)) : Still (job >>= next) := by
  intro s
  have hjob := h s
  cases hresult : job s with
  | error e t =>
      rw [hresult] at hjob
      rw [bind_error hresult]
      exact hjob
  | ok x t =>
      rw [hresult] at hjob
      rw [bind_ok hresult]
      have hrest := hnext x t
      cases hresult' : next x t with
      | error e u =>
          rw [hresult'] at hrest
          exact ⟨hjob.trans hrest.1, hrest.2⟩
      | ok y u =>
          rw [hresult'] at hrest
          exact hjob.trans hrest

theorem still_pure (x : α) : Still (pure x : ReadM α) := fun _ => ⟨rfl, rfl, rfl⟩

theorem still_throw (why : Fault) : Still (throw (.fault why) : ReadM α) :=
  fun _ => ⟨⟨rfl, rfl, rfl⟩, why, rfl⟩

theorem still_get {next : Reading → ReadM α} (h : ∀ s, Still (next s)) : Still (get >>= next) :=
  fun s => h s s

theorem still_cell (job : CellM α) : Still (liftM job : ReadM α) := by
  intro s
  simp only [liftM, monadLift, MonadLift.monadLift]
  cases job s.arena with
  | ok x a => exact ⟨rfl, rfl, rfl⟩
  | error e a => exact ⟨⟨rfl, rfl, rfl⟩, e, rfl⟩

theorem still_arena (job : ArenaM α) : Still (liftM job : ReadM α) := still_cell (liftM job)

theorem still_look (f : Arena → Except Fault α) : Still (look f) := still_cell _

theorem still_modifyReader {change : Reader → Reader}
    (h : ∀ r, (change r).pushback = r.pushback ∧ (change r).count = r.count) :
    Still (modifyReader change) := fun s => ⟨rfl, (h s.reader).1, (h s.reader).2⟩

theorem still_pushFrame (f : Frame) : Still (pushFrame f) := by
  refine (still_arena _).bind fun mark => (still_arena _).bind fun span =>
    (still_cell _).bind fun _ => ?_
  split
  · exact still_modifyReader fun _ => ⟨rfl, rfl⟩
  · exact (still_look _).bind fun around => still_cell _

theorem still_begin (kind : Frame.Kind) (flags : UInt8) (parent : Nat) (h : Header) :
    Still (begin kind flags parent h) :=
  (still_arena _).bind fun _ => (still_cell _).bind fun _ => still_pushFrame _

theorem still_reserveSymbol : Still reserveSymbol :=
  (still_arena _).bind fun _ => still_get fun _ => (still_arena _).bind fun _ =>
    still_modifyReader fun _ => ⟨rfl, rfl⟩

theorem still_settleSymbol (offset length : Nat) : Still (settleSymbol offset length) := by
  refine still_get fun s => ?_
  split
  · exact still_throw _
  · exact Still.bind (still_modifyReader fun _ => ⟨rfl, rfl⟩) fun _ =>
      (still_arena _).bind fun _ => still_arena _

/-! ### Parts of a read that account for what they consume -/

theorem Still.counts {job : ReadM α} (h : Still job) : Counts whole lost last job := by
  intro s hs
  rw [CountsAt]
  have hjob := h s
  cases hresult : job s with
  | ok x t =>
      rw [hresult] at hjob
      exact (hs.of_same hjob.ahead hjob.count).nil
  | error e t =>
      rw [hresult] at hjob
      obtain ⟨hsame, why, rfl⟩ := hjob
      exact ⟨(hs.of_same hsame.ahead hsame.count).nil, trivial⟩

theorem Still.countsAt_bind {job : ReadM α} {next : α → ReadM β} (h : Still job)
    (hs : Counted whole lost last s)
    (hnext : ∀ x t, t.ahead = s.ahead → Counted whole lost last t →
      CountsAt whole lost t (next x)) :
    CountsAt whole lost s (job >>= next) := by
  rw [CountsAt]
  have hjob := h s
  cases hresult : job s with
  | ok x t =>
      rw [hresult] at hjob
      rw [bind_ok hresult]
      exact hnext x t hjob.ahead (hs.of_same hjob.ahead hjob.count)
  | error e t =>
      rw [hresult] at hjob
      rw [bind_error hresult]
      obtain ⟨hsame, why, rfl⟩ := hjob
      exact ⟨(hs.of_same hsame.ahead hsame.count).nil, trivial⟩

theorem Still.counts_bind {job : ReadM α} {next : α → ReadM β} (h : Still job)
    (hnext : ∀ x, Counts whole lost last (next x)) : Counts whole lost last (job >>= next) :=
  fun _ hs => h.countsAt_bind hs fun x t _ ht => hnext x t ht

theorem Counts.bind {job : ReadM α} {next : α → ReadM β} (h : Counts whole lost last job)
    (hnext : ∀ x, Counts whole lost [] (next x)) : Counts whole lost last (job >>= next) := by
  intro s hs
  rw [CountsAt]
  have hjob := h s hs
  rw [CountsAt] at hjob
  cases hresult : job s with
  | ok x t =>
      rw [hresult] at hjob
      rw [bind_ok hresult]
      exact hnext x t hjob
  | error e t =>
      rw [hresult] at hjob
      rw [bind_error hresult]
      exact hjob

theorem countsAt_get {next : Reading → ReadM α} (h : CountsAt whole lost s (next s)) :
    CountsAt whole lost s (get >>= next) := h

/-- Of the reader only what it knows of the value in progress changes. -/
theorem counts_modifyReader {change : Reader → Reader} {x : α}
    (h : ∀ r, (change r).pushback = r.pushback ∧ (change r).count = r.count) :
    Counts whole lost last (modifyReader change >>= fun _ => pure x) :=
  ((still_modifyReader h).bind fun _ => still_pure x).counts

theorem counts_get {next : Reading → ReadM α} (h : ∀ s, Counts whole lost last (next s)) :
    Counts whole lost last (get >>= next) := fun s hs => countsAt_get (h s s hs)

/-- Nothing is refused at a byte. -/
theorem counts_reject_none (cause : Rejection.Cause) :
    Counts whole lost last (reject cause none : ReadM α) :=
  fun _ hs => ⟨hs.nil, nofun⟩

/-- The byte found is the last one consumed. -/
theorem counts_reject (cause : Rejection.Cause) (c : UInt8) :
    Counts whole lost [c] (reject cause (some c) : ReadM α) := by
  intro s hs
  refine ⟨hs.nil, ?_⟩
  obtain ⟨before, rfl, hcount, hlost⟩ := hs
  rintro hshort b ⟨⟩
  have hindex : s.reader.position - 1 + lost = before.length := by
    simp only [List.length_append, List.length_singleton] at hcount hshort
    have hposition := Reader.position_eq (by omega) hcount (by omega)
    omega
  rw [hindex, List.append_assoc, List.getElem?_append_right (Nat.le_refl _), Nat.sub_self]
  rfl

/-- Bytes are taken that are bytes ahead, and then the last of them are known. -/
theorem countsAt_consume (last : List UInt8) {next : ReadM α} (hs : Counted whole lost last' s)
    (htakes : Takes s.ahead taken (last ++ back)) (hnext : Counts whole lost last next) :
    CountsAt whole lost s (consume taken back >>= fun _ => next) := by
  rw [CountsAt]
  by_cases hfit : (back ++ s.reader.pushback.drop taken).length ≤ Reader.pushbackCapacity
  · have hconsume : consume taken back s = .ok () (s.consumed taken back) := if_pos hfit
    rw [bind_ok hconsume]
    exact hnext _ (hs.consumed htakes)
  · have hrefused : consume taken back s = .error (.fault .ungetOverflow) s := if_neg hfit
    rw [bind_error hrefused]
    exact ⟨hs.nil, trivial⟩

theorem countsAt_starve {next : ReadM α} (hs : Counted whole lost last s)
    (hdrains : Drains s.ahead taken back) (hnext : Counts whole lost [] next) :
    CountsAt whole lost s (starve taken back >>= fun _ => next) := by
  rw [CountsAt]
  by_cases hfit : (back ++ s.reader.pushback.drop taken).length ≤ Reader.pushbackCapacity
  · have hconsume : consume taken back s = .ok () (s.consumed taken back) := if_pos hfit
    have hstarve : starve taken back s = .ok () (s.starved taken back) := by
      rw [starve, bind_ok hconsume]
      rfl
    rw [bind_ok hstarve]
    exact hnext _ (hs.starved hdrains)
  · have hrefused : consume taken back s = .error (.fault .ungetOverflow) s := if_neg hfit
    have hstarve : starve taken back s = .error (.fault .ungetOverflow) s := by
      rw [starve, bind_error hrefused]
    rw [bind_error hstarve]
    exact ⟨hs.nil, trivial⟩

theorem counts_complete (offset : Nat) (f : Frame) :
    Counts whole lost last (complete offset f) := by
  refine (still_arena _).counts_bind fun _ => ?_
  split
  · exact counts_modifyReader fun _ => ⟨rfl, rfl⟩
  · refine (still_look _).counts_bind fun around => ?_
    split
    · exact (still_throw _).counts
    · refine (still_cell _).counts_bind fun _ => (still_look _).counts_bind fun h => ?_
      split
      · split
        · exact counts_reject_none _
        · exact Still.counts ((still_cell _).bind fun _ => still_pure _)
      · exact (still_throw _).counts

theorem counts_accept (focus : Focus) (token : Token) :
    Counts whole lost token.paren (accept focus token) := by
  cases token with
  | comment => exact counts_modifyReader fun _ => ⟨rfl, rfl⟩
  | close =>
      rw [accept]
      split
      · exact counts_complete _ _
      · exact counts_reject _ _
  | list sigil =>
      refine counts_get fun s => ?_
      split
      · exact counts_reject _ _
      · exact Still.counts ((still_begin _ _ _ _).bind fun _ => still_pure _)
  | symbol sigil quoted =>
      exact Still.counts ((still_begin _ _ _ _).bind fun _ => still_reserveSymbol.bind fun _ =>
        still_pure _)
  | integer => exact Still.counts ((still_begin _ _ _ _).bind fun _ => still_pure _)

/-! ### Turns -/

theorem counts_commentTurn : Counts whole lost [] commentTurn := by
  intro s hs
  obtain ⟨count, hcount, hshows⟩ := scanComment_takes 0 s.ahead
  rw [Nat.zero_add] at hcount
  refine countsAt_get ?_
  split
  · rename_i taken hscan
    rw [hscan] at hcount hshows
    obtain rfl : taken = count := hcount
    exact countsAt_consume [] hs hshows (counts_modifyReader fun _ => ⟨rfl, rfl⟩)
  · rename_i taken hscan
    rw [hscan] at hcount hshows
    obtain rfl : taken = count := hcount
    exact countsAt_starve hs hshows (still_pure _).counts

theorem counts_tokenTurn (focus : Focus) : Counts whole lost [] (tokenTurn focus) := by
  intro s hs
  have hshows : (scanLead focus.level 0 s.ahead).2.Shows s.ahead (scanLead focus.level 0 s.ahead).1 :=
    scanLead_shows focus.level 0 s.ahead [] rfl
  refine countsAt_get ?_
  split
  · rename_i taken run hscan
    rw [hscan] at hshows
    exact countsAt_starve hs hshows (still_pure _).counts
  · rename_i taken cause found hscan
    rw [hscan] at hshows
    exact countsAt_consume [found] hs hshows (counts_reject cause found)
  · rename_i taken token back hscan
    rw [hscan] at hshows
    exact countsAt_consume token.paren hs hshows (counts_accept focus token)

theorem countsAt_afterSymbol (offset : Nat) (f : Frame) (sigil : Sigil) (quoted : Bool)
    (length : Nat) {run : SymbolRun} (hs : Counted whole lost [] s)
    (hshows : run.ending.Shows s.ahead run.taken) :
    CountsAt whole lost s (afterSymbol offset f sigil quoted length run) := by
  obtain ⟨chars, taken, escaped, ending⟩ := run
  cases ending with
  | starved =>
      exact countsAt_starve hs hshows (Still.counts ((still_cell _).bind fun _ =>
        (still_cell _).bind fun _ => still_pure _))
  | tooLong found => exact countsAt_consume [found] hs hshows (counts_reject _ _)
  | full => exact countsAt_consume [] hs hshows (Still.counts (still_get fun _ => still_throw _))
  | closed back =>
      exact countsAt_consume [] hs hshows ((still_settleSymbol _ _).counts_bind fun _ =>
        (still_look _).counts_bind fun _ => (still_cell _).counts_bind fun _ => counts_complete _ _)

theorem counts_symbolTurn (offset : Nat) (f : Frame) :
    Counts whole lost [] (symbolTurn offset f) := by
  refine (still_look _).counts_bind fun h => ?_
  split
  · intro s hs
    refine countsAt_get ?_
    dsimp only
    split
    · refine (still_arena _).countsAt_bind hs fun _ t hahead ht => ?_
      exact countsAt_afterSymbol offset f _ _ _ ht (hahead ▸ scanSymbol_shows ..)
    · exact countsAt_afterSymbol offset f _ _ _ hs (scanSymbol_shows ..)
  · exact (still_throw _).counts

theorem counts_integerTurn (offset : Nat) (f : Frame) :
    Counts whole lost [] (integerTurn offset f) := by
  refine (still_look _).counts_bind fun h => ?_
  split
  · rename_i value
    intro s hs
    obtain ⟨count, hcount, hshows⟩ := scanInteger_shows value.natAbs (f.has Frame.negativeFlag)
      (f.has Frame.digitsFlag) 0 s.ahead
    rw [Nat.zero_add] at hcount
    rw [← hcount] at hshows
    refine countsAt_get ?_
    dsimp only
    split
    · rename_i hending
      rw [hending] at hshows
      exact countsAt_starve hs hshows (Still.counts ((still_cell _).bind fun _ =>
        (still_cell _).bind fun _ => still_pure _))
    · rename_i found hending
      rw [hending] at hshows
      exact countsAt_consume [found] hs hshows (counts_reject _ _)
    · rename_i next hending
      rw [hending] at hshows
      exact countsAt_consume [] hs hshows ((still_cell _).counts_bind fun _ => counts_complete _ _)
  · exact (still_throw _).counts

theorem counts_turn : Counts whole lost [] turn := by
  refine counts_get fun s => ?_
  split
  · exact counts_commentTurn
  · refine counts_get fun s => (still_look _).counts_bind fun focus => ?_
    split
    · split
      · exact counts_symbolTurn _ _
      · exact counts_integerTurn _ _
      · exact counts_tokenTurn _
    · exact counts_tokenTurn _

theorem counts_turns (fuel : Nat) : Counts whole lost [] (turns fuel) := by
  induction fuel with
  | zero => exact (still_pure _).counts
  | succ fuel ih =>
      refine counts_turn.bind fun t => ?_
      cases t with
      | again => exact ih
      | starved => exact (still_pure _).counts
      | done place => exact (still_pure _).counts

/-- A read accounts for all bytes, and what it refuses is the byte that it says. -/
theorem counts_read : Counts whole lost [] read := counts_get fun _ => counts_turns _

end Counts

end Reading

end FlatLisp
