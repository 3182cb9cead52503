/-
Module: FlatLisp.Proofs.Reading.Scan
Purpose: Scans and arrival. Over bytes that have arrived a scan either settles within them, whatever
  comes after, or goes on after them from a state that these bytes determine. So it makes no
  difference to a scan where its input was cut.
Main exports: Source.Stalls, Source.exists_split, scanComment_ofBytes, scanInteger_ofBytes,
  scanSymbol_ofBytes, scanLead_ofBytes
-/
import FlatLisp.Reading.Scan

namespace FlatLisp

namespace Source

/-- Nothing has arrived: the input ends here or stalls. -/
def Stalls : Source → Prop
  | [] | none :: _ => True
  | some _ :: _ => False

@[simp] theorem ofBytes_nil : ofBytes [] = [] := rfl

@[simp] theorem ofBytes_cons (b : UInt8) (bytes : List UInt8) :
    ofBytes (b :: bytes) = some b :: ofBytes bytes := rfl

@[simp] theorem ofBytes_append (xs ys : List UInt8) :
    ofBytes (xs ++ ys) = ofBytes xs ++ ofBytes ys := by
  simp [ofBytes]

@[simp] theorem length_ofBytes (bytes : List UInt8) : (ofBytes bytes).length = bytes.length := by
  simp [ofBytes]

theorem bytes_append (s t : Source) : Source.bytes (s ++ t) = Source.bytes s ++ Source.bytes t := by
  simp [Source.bytes]

theorem drop_ofBytes_append (bytes : List UInt8) (tail : Source) :
    (ofBytes bytes ++ tail).drop bytes.length = tail := by
  rw [List.drop_append, length_ofBytes]
  simp [ofBytes]

theorem drop_add_ofBytes_append (bytes : List UInt8) (tail : Source) (count : Nat) :
    (ofBytes bytes ++ tail).drop (bytes.length + count) = tail.drop count := by
  rw [← List.drop_drop, drop_ofBytes_append]

theorem drop_ofBytes_append_of_le {bytes : List UInt8} {tail : Source} {count : Nat}
    (h : count ≤ bytes.length) :
    (ofBytes bytes ++ tail).drop count = ofBytes (bytes.drop count) ++ tail := by
  rw [List.drop_append_of_le_length (by rw [length_ofBytes]; exact h)]
  simp [ofBytes]

/-- Any input is some bytes that have arrived and then nothing for a while. -/
theorem exists_split (s : Source) : ∃ bytes tail, s = ofBytes bytes ++ tail ∧ tail.Stalls := by
  induction s with
  | nil => exact ⟨[], [], rfl, trivial⟩
  | cons arrival rest ih =>
      cases arrival with
      | none => exact ⟨[], none :: rest, rfl, trivial⟩
      | some b =>
          obtain ⟨bytes, tail, rfl, htail⟩ := ih
          exact ⟨b :: bytes, tail, rfl, htail⟩

end Source

namespace Reading

open Source (ofBytes)

/-! ### Comments -/

theorem scanComment_of_stalls {taken : Nat} {tail : Source} (h : tail.Stalls) :
    scanComment taken tail = (taken, false) := by
  match tail, h with
  | [], _ => rfl
  | none :: _, _ => rfl

theorem scanComment_shift (count : Nat) (source : Source) :
    scanComment count source = (count + (scanComment 0 source).1, (scanComment 0 source).2) := by
  suffices h : ∀ taken, scanComment (count + taken) source =
      (count + (scanComment taken source).1, (scanComment taken source).2) from h 0
  intro taken
  fun_induction scanComment taken source with
  | case1 | case2 => rfl
  | case3 => simp [scanComment, Nat.add_assoc]
  | case4 taken c rest hc ih => rw [scanComment, if_neg hc, Nat.add_assoc, ih]

theorem scanComment_ofBytes (taken : Nat) (bytes : List UInt8) :
    (∃ count, 0 < count ∧ count ≤ bytes.length ∧
      ∀ tail, scanComment taken (ofBytes bytes ++ tail) = (taken + count, true)) ∨
    ∀ tail, scanComment taken (ofBytes bytes ++ tail) = scanComment (taken + bytes.length) tail := by
  induction bytes generalizing taken with
  | nil => exact .inr fun _ => rfl
  | cons c rest ih =>
      by_cases hc : c = Text.Ascii.newline
      · refine .inl ⟨1, by omega, by simp, fun tail => ?_⟩
        simp [scanComment, hc]
      · have hstep : ∀ tail, scanComment taken (ofBytes (c :: rest) ++ tail) =
            scanComment (taken + 1) (ofBytes rest ++ tail) := by
          intro tail
          simp [scanComment, hc]
        rcases ih (taken + 1) with ⟨count, hpos, hle, hsettled⟩ | hopen
        · refine .inl ⟨count + 1, by omega, by simpa using hle, fun tail => ?_⟩
          rw [hstep, hsettled, Nat.add_assoc, Nat.add_comm 1]
        · refine .inr fun tail => ?_
          rw [hstep, hopen, List.length_cons, Nat.add_assoc, Nat.add_comm 1]

/-! ### Integers -/

theorem scanInteger_of_stalls {magnitude taken : Nat} {negative digits : Bool} {tail : Source}
    (h : tail.Stalls) : scanInteger magnitude negative digits taken tail =
      ⟨magnitude, negative, digits, taken, .starved⟩ := by
  match tail, h with
  | [], _ => simp [scanInteger]
  | none :: _, _ => simp [scanInteger]

/-- What a scan of an integer knows when it stops before the input does. -/
def IntegerRun.Settled (run : IntegerRun) (taken count : Nat) : Prop :=
  taken < run.taken ∧ run.taken ≤ taken + count ∧ run.ending ≠ .starved

/-- One byte either settles an integer, or the scan goes on with another state. -/
theorem scanInteger_byte (magnitude : Nat) (negative digits : Bool) (taken : Nat) (c : UInt8) :
    (∃ run : IntegerRun, run.Settled taken 1 ∧
      ∀ tail, scanInteger magnitude negative digits taken (some c :: tail) = run) ∨
    ∃ magnitude' negative' digits', ∀ tail,
      scanInteger magnitude negative digits taken (some c :: tail) =
        scanInteger magnitude' negative' digits' (taken + 1) tail := by
  cases hglyph : Glyph.ofByte c with
  | sign =>
      by_cases hzero : magnitude = 0
      · refine .inr ⟨0, c = Text.Ascii.minus, digits, fun tail => ?_⟩
        simp [scanInteger, hglyph, hzero]
      · refine .inl ⟨⟨magnitude, negative, digits, taken + 1, .closed c⟩, ?_, fun tail => ?_⟩
        · simp [IntegerRun.Settled]
        · simp [scanInteger, hglyph, hzero]
  | digit =>
      by_cases hfits : magnitude * 10 + Text.Ascii.digitValue c ≤ Header.maxMagnitude
      · refine .inr ⟨magnitude * 10 + Text.Ascii.digitValue c, negative, true, fun tail => ?_⟩
        simp [scanInteger, hglyph, hfits]
      · refine .inl ⟨⟨magnitude, negative, digits, taken + 1, .overflow c⟩, ?_, fun tail => ?_⟩
        · simp [IntegerRun.Settled]
        · simp [scanInteger, hglyph, hfits]
  | blank | opens | closes | comment | quote | other =>
      refine .inl ⟨⟨magnitude, negative, digits, taken + 1, .closed c⟩, ?_, fun tail => ?_⟩
      · simp [IntegerRun.Settled]
      · simp [scanInteger, hglyph]

theorem scanInteger_ofBytes (magnitude : Nat) (negative digits : Bool) (taken : Nat)
    (bytes : List UInt8) :
    (∃ run : IntegerRun, run.Settled taken bytes.length ∧
      ∀ tail, scanInteger magnitude negative digits taken (ofBytes bytes ++ tail) = run) ∨
    ∃ magnitude' negative' digits', ∀ tail,
      scanInteger magnitude negative digits taken (ofBytes bytes ++ tail) =
        scanInteger magnitude' negative' digits' (taken + bytes.length) tail := by
  induction bytes generalizing magnitude negative digits taken with
  | nil => exact .inr ⟨magnitude, negative, digits, fun _ => rfl⟩
  | cons c rest ih =>
      rcases scanInteger_byte magnitude negative digits taken c with
        ⟨run, ⟨hpos, hle, hending⟩, hrun⟩ | ⟨m, n, d, hstep⟩
      · refine .inl ⟨run, ⟨hpos, ?_, hending⟩, fun tail => hrun _⟩
        rw [List.length_cons]
        omega
      · rcases ih m n d (taken + 1) with ⟨run, ⟨hpos, hle, hending⟩, hrun⟩ | ⟨m', n', d', hopen⟩
        · refine .inl ⟨run, ⟨by omega, ?_, hending⟩, fun tail => ?_⟩
          · rw [List.length_cons]
            omega
          · rw [Source.ofBytes_cons, List.cons_append, hstep, hrun]
        · refine .inr ⟨m', n', d', fun tail => ?_⟩
          rw [Source.ofBytes_cons, List.cons_append, hstep, hopen, List.length_cons, Nat.add_assoc,
            Nat.add_comm 1]

/-- The run with `count` more bytes before it. -/
def IntegerRun.following (run : IntegerRun) (count : Nat) : IntegerRun :=
  { run with taken := count + run.taken }

theorem scanInteger_shift (magnitude : Nat) (negative digits : Bool) (count : Nat)
    (source : Source) : scanInteger magnitude negative digits count source =
      (scanInteger magnitude negative digits 0 source).following count := by
  suffices h : ∀ taken, scanInteger magnitude negative digits (count + taken) source =
      (scanInteger magnitude negative digits taken source).following count from h 0
  intro taken
  fun_induction scanInteger magnitude negative digits taken source with
  | case5 _ _ _ _ _ _ hglyph _ hfits ih =>
      simp only [scanInteger, hglyph]
      rw [if_pos hfits, Nat.add_assoc, ih]
  | case6 _ _ _ _ _ _ hglyph _ hlarge =>
      simp only [scanInteger, hglyph]
      rw [if_neg hlarge, IntegerRun.following, Nat.add_assoc]
  | case1 | case2 | case3 | case4 | case7 =>
      simp_all [scanInteger, IntegerRun.following, Nat.add_assoc]

/-- A magnitude that fits stays one that fits. -/
theorem scanInteger_fits {magnitude : Nat} (negative : Bool) {digits : Bool} (taken : Nat)
    (source : Source) (h : magnitude ≤ Header.maxMagnitude)
    (hdigits : digits = false → magnitude = 0) :
    (scanInteger magnitude negative digits taken source).magnitude ≤ Header.maxMagnitude ∧
      ((scanInteger magnitude negative digits taken source).digits = false →
        (scanInteger magnitude negative digits taken source).magnitude = 0) := by
  fun_induction scanInteger magnitude negative digits taken source with
  | case1 | case2 => exact ⟨h, hdigits⟩
  | case3 _ _ _ _ _ _ ih => exact ih (Nat.zero_le _) fun _ => rfl
  | case4 => exact ⟨h, hdigits⟩
  | case5 _ _ _ _ _ _ _ _ hfits ih => exact ih hfits nofun
  | case6 => exact ⟨h, hdigits⟩
  | case7 => exact ⟨h, hdigits⟩

/-! ### Symbols -/

theorem scanSymbol_of_stalls {quoted escaped : Bool} {length room : Nat} {tail : Source}
    (h : tail.Stalls) :
    scanSymbol quoted escaped length room tail = ⟨[], 0, escaped, .starved⟩ := by
  match tail, h with
  | [], _ => simp [scanSymbol, SymbolRun.stop]
  | none :: _, _ => simp [scanSymbol, SymbolRun.stop]

/-- The run with more bytes before it. -/
def SymbolRun.following (run : SymbolRun) (chars : List UInt8) (taken : Nat) : SymbolRun :=
  { run with chars := chars ++ run.chars, taken := taken + run.taken }

theorem SymbolRun.following_following (run : SymbolRun) (chars chars' : List UInt8)
    (taken taken' : Nat) : (run.following chars' taken').following chars taken =
      run.following (chars ++ chars') (taken + taken') := by
  simp [following, Nat.add_assoc]

/-- What a scan of a symbol knows when it stops before the input does. -/
structure SymbolRun.Settled (run : SymbolRun) (room count : Nat) : Prop where
  pos : 0 < run.taken
  le : run.taken ≤ count
  fits : run.chars.length ≤ room
  ending : run.ending ≠ .starved
  /-- A byte that is given back is no character of the symbol. -/
  back : ∀ back, run.ending = .closed back → back.length ≤ 1 ∧ back.length ≤ run.taken

theorem SymbolRun.Settled.following {run : SymbolRun} {room count : Nat} {chars : List UInt8}
    {taken : Nat} (h : run.Settled (room - chars.length) count) (hchars : chars.length ≤ room) :
    (run.following chars taken).Settled room (taken + count) where
  pos := Nat.lt_of_lt_of_le h.pos (Nat.le_add_left ..)
  le := Nat.add_le_add_left h.le _
  fits := by
    have := h.fits
    simp only [SymbolRun.following, List.length_append]
    omega
  ending := h.ending
  back := by
    intro back hback
    obtain ⟨hone, htaken⟩ := h.back back hback
    exact ⟨hone, Nat.le_trans htaken (Nat.le_add_left ..)⟩

theorem scanSymbol_cons (quoted escaped : Bool) (length room : Nat) (c : UInt8) (rest : Source) :
    scanSymbol quoted escaped length room (some c :: rest) =
      if !quoted && endsSymbol c then .stop 1 escaped (.closed [c])
      else if quoted && !escaped && c == Text.Ascii.backslash then
        (scanSymbol quoted true length room rest).after []
      else if quoted && !escaped && c == Text.Ascii.doubleQuote then .stop 1 escaped (.closed [])
      else if length = Header.maxSymbol then .stop 1 false (.tooLong c)
      else
        match room with
        | 0 => .stop 1 false .full
        | room + 1 => (scanSymbol quoted false (length + 1) room rest).after [c] :=
  scanSymbol.eq_def ..

/-- One byte either settles a symbol, or the scan goes on after it, with at most one character
more. -/
theorem scanSymbol_byte (quoted escaped : Bool) (length room : Nat) (c : UInt8) :
    (∃ run : SymbolRun, run.Settled room 1 ∧
      ∀ tail, scanSymbol quoted escaped length room (some c :: tail) = run) ∨
    ∃ chars escaped', chars.length ≤ room ∧ (quoted = false → escaped' = false) ∧
      ∀ tail, scanSymbol quoted escaped length room (some c :: tail) =
        (scanSymbol quoted escaped' (length + chars.length) (room - chars.length) tail).following
          chars 1 := by
  by_cases hends : (!quoted && endsSymbol c) = true
  · refine .inl ⟨.stop 1 escaped (.closed [c]), ⟨?_, ?_, ?_, ?_, ?_⟩, fun tail => ?_⟩
    all_goals simp [SymbolRun.stop, scanSymbol_cons, hends]
  by_cases hbackslash : (quoted && !escaped && c == Text.Ascii.backslash) = true
  · refine .inr ⟨[], true, Nat.zero_le _, ?_, fun tail => ?_⟩
    · intro hq
      simp [hq] at hbackslash
    · rw [scanSymbol_cons, if_neg hends, if_pos hbackslash]
      simp [SymbolRun.after, SymbolRun.following, Nat.add_comm]
  by_cases hquote : (quoted && !escaped && c == Text.Ascii.doubleQuote) = true
  · refine .inl ⟨.stop 1 escaped (.closed []), ⟨?_, ?_, ?_, ?_, ?_⟩, fun tail => ?_⟩
    all_goals simp [SymbolRun.stop, scanSymbol_cons, hends, hbackslash, hquote]
  by_cases hlong : length = Header.maxSymbol
  · refine .inl ⟨.stop 1 false (.tooLong c), ⟨?_, ?_, ?_, ?_, ?_⟩, fun tail => ?_⟩
    all_goals simp [SymbolRun.stop, scanSymbol_cons, hends, hbackslash, hquote, hlong]
  cases room with
  | zero =>
      refine .inl ⟨.stop 1 false .full, ⟨?_, ?_, ?_, ?_, ?_⟩, fun tail => ?_⟩
      all_goals simp [SymbolRun.stop, scanSymbol_cons, hends, hbackslash, hquote, hlong]
  | succ room =>
      refine .inr ⟨[c], false, by simp, fun _ => rfl, fun tail => ?_⟩
      rw [scanSymbol_cons, if_neg hends, if_neg hbackslash, if_neg hquote, if_neg hlong]
      simp [SymbolRun.after, SymbolRun.following, Nat.add_comm]

theorem scanSymbol_ofBytes (quoted escaped : Bool) (length room : Nat) (bytes : List UInt8)
    (hescaped : quoted = false → escaped = false) :
    (∃ run : SymbolRun, run.Settled room bytes.length ∧
      ∀ tail, scanSymbol quoted escaped length room (ofBytes bytes ++ tail) = run) ∨
    ∃ chars escaped', chars.length ≤ room ∧ (quoted = false → escaped' = false) ∧
      ∀ tail, scanSymbol quoted escaped length room (ofBytes bytes ++ tail) =
        (scanSymbol quoted escaped' (length + chars.length) (room - chars.length) tail).following
          chars bytes.length := by
  induction bytes generalizing escaped length room with
  | nil =>
      refine .inr ⟨[], escaped, Nat.zero_le _, hescaped, fun tail => ?_⟩
      simp [SymbolRun.following]
  | cons c rest ih =>
      rcases scanSymbol_byte quoted escaped length room c with
        ⟨run, hsettled, hrun⟩ | ⟨chars, escaped', hchars, hescaped', hstep⟩
      · exact .inl ⟨run, { hsettled with le := Nat.le_trans hsettled.le (by simp) }, fun _ => hrun _⟩
      rcases ih escaped' (length + chars.length) (room - chars.length) hescaped' with
        ⟨run, hsettled, hrun⟩ | ⟨chars', escaped'', hchars', hescaped'', hopen⟩
      · refine .inl ⟨run.following chars 1, ?_, fun tail => ?_⟩
        · rw [List.length_cons, Nat.add_comm]
          exact hsettled.following hchars
        · rw [Source.ofBytes_cons, List.cons_append, hstep, hrun]
      · refine .inr ⟨chars ++ chars', escaped'', ?_, hescaped'', fun tail => ?_⟩
        · rw [List.length_append]
          omega
        · rw [Source.ofBytes_cons, List.cons_append, hstep, hopen, SymbolRun.following_following,
            List.length_append, List.length_cons, ← Nat.add_assoc, ← Nat.sub_sub,
            Nat.add_comm 1]

/-- A symbol never gets more characters than its header can count. -/
theorem scanSymbol_length_le (quoted escaped : Bool) {length : Nat} (room : Nat) (source : Source)
    (h : length ≤ Header.maxSymbol) :
    length + (scanSymbol quoted escaped length room source).chars.length ≤ Header.maxSymbol := by
  fun_induction scanSymbol quoted escaped length room source with
  | case1 | case2 => simpa [SymbolRun.stop] using h
  | case3 => simpa [SymbolRun.stop] using h
  | case4 _ _ _ _ _ _ _ ih => simpa [SymbolRun.after] using ih h
  | case5 => simpa [SymbolRun.stop] using h
  | case6 => simp [SymbolRun.stop]
  | case7 => simpa [SymbolRun.stop] using h
  | case8 =>
      rename_i hlong _ ih
      have := ih (by omega)
      simp only [SymbolRun.after, List.length_append, List.length_singleton]
      omega

/-- Nothing is escaped in a plain symbol. -/
theorem scanSymbol_escaped {quoted escaped : Bool} (length room : Nat) (source : Source)
    (hquoted : quoted = false) (hescaped : escaped = false) :
    (scanSymbol quoted escaped length room source).escaped = false := by
  fun_induction scanSymbol quoted escaped length room source with
  | case1 | case2 | case3 | case5 => exact hescaped
  | case4 _ _ _ _ _ _ hbackslash => simp [hquoted] at hbackslash
  | case6 | case7 => rfl
  | case8 _ _ _ _ _ _ _ _ _ ih => exact ih rfl

/-! ### Tokens -/

/-- How many more characters a sigil may get. -/
def Sigil.slack : Sigil → Nat
  | .bare => 2
  | .unquote | .sharp => 1
  | _ => 0

theorem Sigil.slack_combine {sigil longer : Sigil} {c : UInt8} (h : sigil.combine c = some longer) :
    Sigil.slack longer < Sigil.slack sigil := by
  cases sigil <;> simp only [Sigil.combine] at h <;> try contradiction
  · simp only [Sigil.ofByte?] at h
    repeat' split at h
    all_goals first
      | contradiction
      | (injection h with h; subst h; decide)
  all_goals
    split at h
    · injection h with h
      subst h
      decide
    · contradiction

/-- What a scan for a token knows when it stops before the input does. -/
def Lead.Settled (lead : Lead) (taken count : Nat) : Prop :=
  0 < taken ∧ taken ≤ count ∧
    match lead with
    | .starved _ => False
    | .accepted _ back => back.length ≤ 2 ∧ back.length ≤ taken
    | .rejected _ _ => True

theorem allowed_settled {level : Int} {sigil : Sigil} {c : UInt8} {token : Token}
    {back : List UInt8} {taken count : Nat} (hpos : 0 < taken) (hle : taken ≤ count)
    (hback : back.length ≤ 2 ∧ back.length ≤ taken) :
    (allowed level sigil c token back).Settled taken count := by
  unfold allowed
  split
  · exact ⟨hpos, hle, trivial⟩
  · exact ⟨hpos, hle, hback⟩

theorem unprefixed_settled {sigil : Sigil} {cause : Rejection.Cause} {c : UInt8} {token : Token}
    {back : List UInt8} {taken count : Nat} (hpos : 0 < taken) (hle : taken ≤ count)
    (hback : back.length ≤ 2 ∧ back.length ≤ taken) :
    (if sigil ≠ .bare then Lead.rejected cause c else .accepted token back).Settled taken count := by
  split
  · exact ⟨hpos, hle, trivial⟩
  · exact ⟨hpos, hle, hback⟩

theorem leadSigned_settled {level : Int} {sigil : Sigil} {s c : UInt8} {taken count : Nat}
    (hpos : 2 ≤ taken) (hle : taken ≤ count) :
    (leadSigned level sigil s c).Settled taken count := by
  unfold leadSigned
  split
  · exact unprefixed_settled (by omega) hle ⟨by simp, hpos⟩
  · exact unprefixed_settled (by omega) hle (by simp)
  · exact allowed_settled (by omega) hle ⟨by simp, hpos⟩

/-- The same with one more byte looked at before. -/
theorem Lead.Settled.succ {lead : Lead} {taken count : Nat} (h : lead.Settled taken count) :
    lead.Settled (taken + 1) (count + 1) := by
  obtain ⟨hpos, hle, hlead⟩ := h
  refine ⟨Nat.succ_pos _, Nat.succ_le_succ hle, ?_⟩
  cases lead with
  | starved run => exact hlead
  | accepted token back => exact ⟨hlead.1, Nat.le_succ_of_le hlead.2⟩
  | rejected cause found => trivial

/-- One byte after some sigils settles the token, or is a sign, or makes a longer sigil. -/
theorem scanSigils_byte (level : Int) (sigil : Sigil) (run : List UInt8) (taken : Nat) (c : UInt8) :
    (∃ lead : Lead, lead.Settled 1 1 ∧
      ∀ tail, scanSigils level sigil run taken (some c :: tail) = (taken + 1, lead)) ∨
    Glyph.ofByte c = .sign ∨
    ∃ longer, sigil.combine c = some longer ∧
      ∀ tail, scanSigils level sigil run taken (some c :: tail) =
        scanSigils level longer (run ++ [c]) (taken + 1) tail := by
  have hone : ([c] : List UInt8).length ≤ 2 ∧ ([c] : List UInt8).length ≤ 1 := by simp
  have hnone : ([] : List UInt8).length ≤ 2 ∧ ([] : List UInt8).length ≤ 1 := by simp
  have hle := Nat.le_refl 1
  cases hglyph : Glyph.ofByte c with
  | sign => exact .inr (.inl rfl)
  | blank => exact .inl ⟨.rejected .danglingSigil c, ⟨hle, hle, trivial⟩, by simp [scanSigils, hglyph]⟩
  | opens =>
      exact .inl ⟨allowed level sigil c (.list sigil) [], allowed_settled hle hle hnone,
        by simp [scanSigils, hglyph]⟩
  | quote =>
      exact .inl ⟨allowed level sigil c (.symbol sigil true) [], allowed_settled hle hle hnone,
        by simp [scanSigils, hglyph]⟩
  | digit =>
      exact .inl ⟨if sigil ≠ .bare then .rejected .sigilOnInteger c else .accepted .integer [c],
        unprefixed_settled hle hle hone, by simp [scanSigils, hglyph]⟩
  | comment =>
      exact .inl ⟨if sigil ≠ .bare then .rejected .danglingSigil c else .accepted .comment [],
        unprefixed_settled hle hle hnone, by simp [scanSigils, hglyph]⟩
  | closes =>
      exact .inl ⟨if sigil ≠ .bare then .rejected .danglingSigil c else .accepted .close [],
        unprefixed_settled hle hle hnone, by simp [scanSigils, hglyph]⟩
  | other =>
      cases hcombine : sigil.combine c with
      | some longer => exact .inr (.inr ⟨longer, rfl, by simp [scanSigils, hglyph, hcombine]⟩)
      | none =>
          refine .inl ⟨if (Sigil.ofByte? c).isSome then .rejected .unhandledSigil c
            else allowed level sigil c (.symbol sigil false) [c], ?_, ?_⟩
          · split
            · exact ⟨hle, hle, trivial⟩
            · exact allowed_settled hle hle hone
          · simp [scanSigils, hglyph, hcombine]

/-- Looking for a token after some sigils. Where the input stalls, all bytes belong to the run. -/
theorem scanSigils_ofBytes (level : Int) (sigil : Sigil) (run : List UInt8) (taken : Nat)
    (bytes : List UInt8) :
    (∃ count lead, lead.Settled count bytes.length ∧
      ∀ tail, scanSigils level sigil run taken (ofBytes bytes ++ tail) = (taken + count, lead)) ∨
    bytes.length ≤ Sigil.slack sigil + 1 ∧ ∀ tail : Source, tail.Stalls →
      scanSigils level sigil run taken (ofBytes bytes ++ tail) =
        (taken + bytes.length, .starved (run ++ bytes)) := by
  induction bytes generalizing sigil run taken with
  | nil =>
      refine .inr ⟨Nat.zero_le _, fun tail htail => ?_⟩
      match tail, htail with
      | [], _ => simp [scanSigils]
      | none :: _, _ => simp [scanSigils]
  | cons c rest ih =>
      rcases scanSigils_byte level sigil run taken c with
        ⟨lead, ⟨hpos, _, hlead⟩, hscan⟩ | hsign | ⟨longer, hcombine, hstep⟩
      · exact .inl ⟨1, lead, ⟨hpos, by simp, hlead⟩, fun tail => hscan _⟩
      · cases rest with
        | nil =>
            refine .inr ⟨by simp, fun tail htail => ?_⟩
            match tail, htail with
            | [], _ => simp [scanSigils, hsign]
            | none :: _, _ => simp [scanSigils, hsign]
        | cons d rest =>
            refine .inl ⟨2, leadSigned level sigil c d, leadSigned_settled (by omega) (by simp),
              fun tail => ?_⟩
            simp [scanSigils, hsign]
      · have hslack := Sigil.slack_combine hcombine
        rcases ih longer (run ++ [c]) (taken + 1) with ⟨count, lead, hlead, hsettled⟩ | ⟨hle, hopen⟩
        · refine .inl ⟨count + 1, lead, hlead.succ, fun tail => ?_⟩
          rw [Source.ofBytes_cons, List.cons_append, hstep, hsettled, Nat.add_assoc, Nat.add_comm 1]
        · refine .inr ⟨?_, fun tail htail => ?_⟩
          · rw [List.length_cons]
            omega
          · rw [Source.ofBytes_cons, List.cons_append, hstep, hopen tail htail, List.length_cons,
              Nat.add_assoc, Nat.add_comm 1, List.append_assoc]
            rfl

theorem scanSigils_shift (level : Int) (sigil : Sigil) (run : List UInt8) (taken more : Nat)
    (source : Source) : scanSigils level sigil run (taken + more) source =
      ((scanSigils level sigil run taken source).1 + more,
        (scanSigils level sigil run taken source).2) := by
  fun_induction scanSigils level sigil run taken source <;>
    simp_all [scanSigils, Nat.add_right_comm _ more]

theorem scanLead_shift (level : Int) (taken more : Nat) (source : Source) :
    scanLead level (taken + more) source =
      ((scanLead level taken source).1 + more, (scanLead level taken source).2) := by
  fun_induction scanLead level taken source with
  | case1 taken c rest hblank ih =>
      rw [scanLead, if_pos hblank, ← ih, Nat.add_right_comm]
  | case2 taken c rest hblank =>
      rw [scanLead, if_neg hblank, scanSigils_shift]
  | case3 taken ahead hahead =>
      rw [scanLead, scanSigils_shift]
      exact hahead

/-- Looking for a token. Where the input stalls, the bytes after the blanks are looked at again. -/
theorem scanLead_ofBytes (level : Int) (taken : Nat) (bytes : List UInt8) :
    (∃ count lead, lead.Settled count bytes.length ∧
      ∀ tail, scanLead level taken (ofBytes bytes ++ tail) = (taken + count, lead)) ∨
    ∃ blanks run, bytes = blanks ++ run ∧ run.length ≤ 3 ∧
      (∀ tail, scanLead level taken (ofBytes bytes ++ tail) =
        scanLead level (taken + blanks.length) (ofBytes run ++ tail)) ∧
      ∀ tail : Source, tail.Stalls → scanLead level taken (ofBytes bytes ++ tail) =
        (taken + bytes.length, .starved run) := by
  induction bytes generalizing taken with
  | nil =>
      refine .inr ⟨[], [], rfl, by simp, fun _ => rfl, fun tail htail => ?_⟩
      match tail, htail with
      | [], _ => simp [scanLead, scanSigils]
      | none :: _, _ => simp [scanLead, scanSigils]
  | cons c rest ih =>
      by_cases hblank : Glyph.ofByte c = .blank
      · have hstep : ∀ tail, scanLead level taken (ofBytes (c :: rest) ++ tail) =
            scanLead level (taken + 1) (ofBytes rest ++ tail) := by
          intro tail
          simp [scanLead, hblank]
        rcases ih (taken + 1) with
          ⟨count, lead, hlead, hsettled⟩ | ⟨blanks, run, rfl, hrun, hagain, hstall⟩
        · refine .inl ⟨count + 1, lead, hlead.succ, fun tail => ?_⟩
          rw [hstep, hsettled, Nat.add_assoc, Nat.add_comm 1]
        · refine .inr ⟨c :: blanks, run, rfl, hrun, fun tail => ?_, fun tail htail => ?_⟩
          · rw [hstep, hagain, List.length_cons, Nat.add_assoc, Nat.add_comm 1]
          · rw [hstep, hstall tail htail, List.length_cons, Nat.add_assoc, Nat.add_comm 1]
      · have hstep : ∀ tail, scanLead level taken (ofBytes (c :: rest) ++ tail) =
            scanSigils level .bare [] taken (ofBytes (c :: rest) ++ tail) := by
          intro tail
          simp [scanLead, hblank]
        rcases scanSigils_ofBytes level .bare [] taken (c :: rest) with
          ⟨count, lead, hlead, hsettled⟩ | ⟨hle, hstall⟩
        · exact .inl ⟨count, lead, hlead, fun tail => by rw [hstep, hsettled]⟩
        · refine .inr ⟨[], c :: rest, rfl, hle, fun _ => rfl, fun tail htail => ?_⟩
          rw [hstep, hstall tail htail]
          rfl

end Reading

end FlatLisp
