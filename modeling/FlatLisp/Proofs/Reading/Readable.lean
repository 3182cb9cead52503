/-
Module: FlatLisp.Proofs.Reading.Readable
Purpose: Which trees the grammar can find, and how much input it leaves. A tree that is found can be
  written as it is: its numbers are within the widths of their fields, no text of a plain symbol
  could be taken for anything else, and unquotes are inside quasiquotes.
Main exports: Grammar.Plain, Grammar.Readable, Grammar.Readable.fits, Grammar.Readable.nesting_le,
  Grammar.value_within, Grammar.list_within, Grammar.read_within
-/
import FlatLisp.Proofs.Reading.Spelling

namespace FlatLisp

namespace Grammar

open Text
open Reading (endsSymbol)

/-! ### Trees that can be written -/

/-- The byte `c` begins a plain symbol, if `after` is what comes after it. -/
def Begins (c : UInt8) (after : List UInt8) : Prop :=
  c ≠ Ascii.openParen ∧ c ≠ Ascii.doubleQuote ∧ Ascii.isDigit c = false ∧ Sigil.ofByte? c = none ∧
    (isSign c = true → ∀ d ∈ after.head?, d ≠ Ascii.openParen ∧ Ascii.isDigit d = false)

/-- The text of a plain symbol: it does not begin like anything else, and goes on to its end. -/
structure Plain (chars : List UInt8) : Prop where
  length : chars.length ≤ Header.maxSymbol
  open_ended : ∀ c ∈ chars, endsSymbol c = false
  begins : ∃ c rest, chars = c :: rest ∧ Begins c rest

/-- The sigil is allowed `level` quasiquotes deep. -/
def Allowed (level : Int) (sigil : Sigil) : Prop := sigil.isUnquote = true → 0 < level

/-- Signs are sigils of lists only. -/
def NoSign (sigil : Sigil) : Prop := sigil ≠ .plus ∧ sigil ≠ .minus

/-- The tree can be found `level` quasiquotes deep, where `depth` more lists may be opened. -/
inductive Readable : (depth : Nat) → (level : Int) → Tree → Prop where
  | plain {depth : Nat} {level : Int} {sigil : Sigil} {chars : List UInt8} (hsign : NoSign sigil)
      (hallowed : Allowed level sigil) (hchars : Plain chars) :
      Readable depth level (.symbol sigil false chars)
  | quoted {depth : Nat} {level : Int} {sigil : Sigil} {chars : List UInt8} (hsign : NoSign sigil)
      (hallowed : Allowed level sigil) (hlength : chars.length ≤ Header.maxSymbol) :
      Readable depth level (.symbol sigil true chars)
  | integer {depth : Nat} {level : Int} {value : Int} (hvalue : value.natAbs ≤ Header.maxMagnitude) :
      Readable depth level (.integer value)
  | list {depth : Nat} {level : Int} {sigil : Sigil} {children : List Tree}
      (hallowed : Allowed level sigil) (hcount : children.length ≤ Header.maxCount)
      (hchildren : ∀ t ∈ children, Readable depth (level + Reader.levelStep sigil) t) :
      Readable (depth + 1) level (.list sigil children)

theorem Readable.fits {depth : Nat} {level : Int} {t : Tree} (h : Readable depth level t) :
    t.Fits := by
  induction h with
  | plain _ _ hchars => exact hchars.length
  | quoted _ _ hlength => exact hlength
  | integer hvalue => exact hvalue
  | list _ hcount _ ih => exact ⟨hcount, Tree.fitAll_iff.2 ih⟩

theorem Readable.nesting_le {depth : Nat} {level : Int} {t : Tree} (h : Readable depth level t) :
    t.nesting ≤ depth := by
  induction h with
  | plain | quoted | integer => exact Nat.zero_le _
  | @list depth level sigil children _ _ _ ih =>
      rw [Tree.nesting]
      split
      · exact Nat.zero_le _
      · exact Nat.succ_le_succ (Tree.nestingAll_le ih)

/-! ### What the productions leave -/

/-- Fewer than `n` bytes are left after what the production has dealt with, and what it has found
has the property `P`. -/
def Result.Within {α : Type} (n : Nat) (P : α → Prop) : Result α → Prop
  | .whole value rest => rest.length < n ∧ P value
  | .cut => True
  | .refused _ _ left => left.length < n

section Within

variable {α β : Type} {n m : Nat} {P : α → Prop} {r : Result α}

theorem Result.Within.map (h : r.Within n P) {f : α → β} {Q : β → Prop}
    (hf : ∀ value, P value → Q (f value)) : (r.map f).Within n Q := by
  cases r with
  | cut => trivial
  | whole value rest => exact ⟨h.1, hf value h.2⟩
  | refused cause found left => exact h

theorem Result.Within.imp (h : r.Within n P) {Q : α → Prop} (hf : ∀ value, P value → Q value) :
    r.Within n Q := by
  cases r with
  | cut => trivial
  | whole value rest => exact ⟨h.1, hf value h.2⟩
  | refused cause found left => exact h

theorem Result.Within.mono (h : r.Within n P) (hle : n ≤ m) : r.Within m P := by
  cases r with
  | cut => trivial
  | whole value rest => exact ⟨Nat.lt_of_lt_of_le h.1 hle, h.2⟩
  | refused cause found left => exact Nat.lt_of_lt_of_le h hle

theorem underSigil_within {level : Int} {sigil : Sigil} {c : UInt8} {left : List UInt8}
    (hleft : left.length < n) (h : r.Within n fun value => Allowed level sigil → P value) :
    (underSigil level sigil c left r).Within n P := by
  unfold underSigil
  split
  · exact hleft
  · rename_i hallowed
    cases r with
    | cut => trivial
    | whole value rest => exact ⟨h.1, h.2 fun hunquote => Int.not_le.1 fun hle => hallowed ⟨hunquote, hle⟩⟩
    | refused cause found left => exact h

end Within

theorem plain_within (room : Nat) (input : List UInt8) :
    (plain room input).Within (input.length + 1) fun chars =>
      chars.length ≤ room ∧ chars = input.takeWhile fun c => !endsSymbol c := by
  unfold plain
  dsimp only
  split
  · simp only [Result.Within, List.length_drop]
    omega
  · split
    · trivial
    · rename_i hroom _
      refine ⟨?_, Nat.not_lt.1 hroom, rfl⟩
      exact Nat.lt_succ_of_le (List.dropWhile_suffix _).length_le

theorem quoted_within (room : Nat) (input : List UInt8) :
    (quoted room input).Within (input.length + 1) fun chars => chars.length ≤ room := by
  fun_induction quoted room input with
  | case1 | case3 => trivial
  | case2 => exact ⟨Nat.lt_succ_of_lt (Nat.lt_succ_self _), Nat.zero_le _⟩
  | case4 | case6 =>
      simp only [Result.Within, List.length_cons]
      omega
  | case5 _ _ _ _ ih =>
      exact (ih.mono (Nat.le_succ_of_le (Nat.le_succ _))).map fun _ h => Nat.succ_le_succ h
  | case7 _ _ _ _ _ ih => exact (ih.mono (Nat.le_succ _)).map fun _ h => Nat.succ_le_succ h

theorem integer_within (negative : Bool) {magnitude : Nat} (input : List UInt8)
    (h : magnitude ≤ Header.maxMagnitude) :
    (integer negative magnitude input).Within (input.length + 1) fun value =>
      value.natAbs ≤ Header.maxMagnitude := by
  fun_induction integer negative magnitude input with
  | case1 => trivial
  | case2 _ _ _ _ _ ih => exact (ih (Nat.zero_le _)).mono (Nat.le_succ _)
  | case3 _ _ _ _ _ _ _ hle ih => exact (ih hle).mono (Nat.le_succ _)
  | case4 => exact Nat.lt_succ_of_lt (Nat.lt_succ_self _)
  | case5 =>
      refine ⟨Nat.lt_succ_self _, ?_⟩
      split
      · rw [Int.natAbs_neg, Int.natAbs_natCast]
        exact h
      · rw [Int.natAbs_natCast]
        exact h

theorem endsSymbol_sign {c : UInt8} (h : isSign c = true) : endsSymbol c = false := by
  have hall : ∀ n : Fin 256, isSign (UInt8.ofFin n) = true → endsSymbol (UInt8.ofFin n) = false := by
    decide +kernel
  exact hall c.toFin h

theorem head?_takeWhile {α : Type} {p : α → Bool} {xs : List α} {x : α}
    (h : x ∈ (xs.takeWhile p).head?) : x ∈ xs.head? := by
  cases xs with
  | nil => exact h
  | cons y rest =>
      rw [List.takeWhile_cons] at h
      split at h
      · exact h
      · contradiction

theorem symbol_within (depth : Nat) {level : Int} {sigil : Sigil} (hsign : NoSign sigil) {c : UInt8}
    {rest : List UInt8} (hends : endsSymbol c = false) (hbegins : Begins c rest) :
    (symbol sigil (c :: rest)).Within (rest.length + 1) fun t =>
      Allowed level sigil → Readable depth level t := by
  have htake : (c :: rest).takeWhile (fun d => !endsSymbol d) =
      c :: rest.takeWhile fun d => !endsSymbol d := by
    rw [List.takeWhile_cons, hends]
    rfl
  have hplain : (plain Header.maxSymbol (c :: rest)).Within (rest.length + 1) Plain := by
    have hwithin := plain_within Header.maxSymbol (c :: rest)
    have hdrop : (c :: rest).dropWhile (fun d => !endsSymbol d) =
        rest.dropWhile fun d => !endsSymbol d := by
      rw [List.dropWhile_cons, hends]
      rfl
    unfold plain at hwithin ⊢
    dsimp only at hwithin ⊢
    split
    · simp only [Result.Within, List.length_drop, List.length_cons]
      omega
    · split
      · trivial
      · rename_i hroom hne
        rw [if_neg hroom, if_neg hne] at hwithin
        rw [hdrop]
        refine ⟨Nat.lt_succ_of_le (List.dropWhile_suffix _).length_le, hwithin.2.1, ?_, ?_⟩
        · intro d hd
          have := List.all_eq_true.1 (List.all_takeWhile) d hd
          simpa using this
        · obtain ⟨hopen, hquote, hdigit, hsigil, hsigned⟩ := hbegins
          exact ⟨c, _, htake, hopen, hquote, hdigit, hsigil,
            fun h d hd => hsigned h d (head?_takeWhile hd)⟩
  exact hplain.map fun _ hchars hallowed => .plain hsign hallowed hchars

theorem quotedSymbol_within (depth : Nat) {level : Int} {sigil : Sigil} (hsign : NoSign sigil)
    (rest : List UInt8) :
    (quotedSymbol sigil rest).Within (rest.length + 1) fun t =>
      Allowed level sigil → Readable depth level t :=
  (quoted_within _ rest).map fun _ hlength hallowed => .quoted hsign hallowed hlength

theorem number_within (depth : Nat) (level : Int) {c : UInt8}
    (hc : isSign c = true ∨ Ascii.isDigit c = true) (rest : List UInt8) :
    (number (c :: rest)).Within (rest.length + 1) (Readable depth level) := by
  have hinteger : (integer false 0 (c :: rest)).Within (rest.length + 1)
      fun value => value.natAbs ≤ Header.maxMagnitude := by
    rw [integer]
    split
    · exact integer_within _ rest (Nat.zero_le _)
    · rename_i hsign
      rw [if_pos (hc.resolve_left fun h => hsign ⟨h, rfl⟩)]
      dsimp only
      split
      · rename_i hle
        exact integer_within _ rest hle
      · exact Nat.lt_succ_self _
  exact hinteger.map fun _ h => .integer h

theorem length_splitSigil_le (input : List UInt8) :
    (splitSigil input).2.length ≤ input.length := by
  unfold splitSigil
  split
  · exact Nat.le_refl _
  · split
    · exact Nat.le_refl _
    · split
      · exact Nat.zero_le _
      · split
        · exact Nat.le_succ _
        · exact Nat.le_succ_of_le (Nat.le_succ _)

theorem splitSigil_noSign (input : List UInt8) : NoSign (splitSigil input).1 := by
  have hbyte : ∀ c sigil, Sigil.ofByte? c = some sigil → NoSign sigil := by
    intro c sigil h
    unfold Sigil.ofByte? at h
    repeat' split at h
    all_goals cases h
    all_goals exact ⟨by simp, by simp⟩
  unfold splitSigil
  split
  · exact ⟨by simp, by simp⟩
  · rename_i c rest
    split
    · exact ⟨by simp, by simp⟩
    · rename_i sigil hfirst
      split
      · exact hbyte c sigil hfirst
      · split
        · exact hbyte c sigil hfirst
        · rename_i longer hsecond
          rcases Reading.combine_cases hsecond with ⟨_, h⟩ | ⟨_, _, rfl⟩ | ⟨_, _, rfl⟩
          · exact hbyte _ longer h
          · exact ⟨by simp, by simp⟩
          · exact ⟨by simp, by simp⟩

theorem sign_alone {c : UInt8} (hsign : isSign c = true) :
    c ≠ Ascii.openParen ∧ c ≠ Ascii.doubleQuote ∧ Ascii.isDigit c = false ∧
      Sigil.ofByte? c = none := by
  have hall : ∀ n : Fin 256, isSign (UInt8.ofFin n) = true →
      UInt8.ofFin n ≠ Ascii.openParen ∧ UInt8.ofFin n ≠ Ascii.doubleQuote ∧
        Ascii.isDigit (UInt8.ofFin n) = false ∧ Sigil.ofByte? (UInt8.ofFin n) = none := by
    decide +kernel
  exact hall c.toFin hsign

theorem sign_begins {c d : UInt8} {after : List UInt8} (hsign : isSign c = true)
    (hopen : d ≠ Ascii.openParen) (hdigit : ¬ Ascii.isDigit d = true) :
    Begins c (d :: after) := by
  obtain ⟨hc, hquote, hc', hsigil⟩ := sign_alone hsign
  refine ⟨hc, hquote, hc', hsigil, ?_⟩
  rintro - x ⟨⟩
  exact ⟨hopen, Bool.eq_false_iff.2 hdigit⟩

/-- A value takes a byte at least, and can be found again. -/
theorem value_within {list : Sigil → List UInt8 → Result Tree} {depth : Nat} {level : Int}
    (hlist : ∀ sigil rest, (list sigil rest).Within (rest.length + 1) fun t =>
      Allowed level sigil → Readable depth level t) (input : List UInt8) :
    (value list level input).Within input.length (Readable depth level) := by
  have hlength := length_splitSigil_le input
  have hnosign := splitSigil_noSign input
  unfold value
  generalize splitSigil input = split at hlength hnosign
  obtain ⟨sigil, body⟩ := split
  dsimp only at hlength hnosign ⊢
  cases body with
  | nil => trivial
  | cons c rest =>
      refine Result.Within.mono (n := rest.length + 1) ?_ hlength
      dsimp only
      by_cases hsign : isSign c = true
      · rw [if_pos hsign]
        cases rest with
        | nil => trivial
        | cons d after =>
            have hafter : after.length < (d :: after).length + 1 := by
              rw [List.length_cons]
              omega
            dsimp only
            split
            · split
              · refine ((hlist (ofSign c) after).mono (Nat.le_succ _)).imp fun t h => h ?_
                unfold Allowed ofSign
                split <;> exact nofun
              · exact hafter
            · split
              · split
                · exact number_within depth level (.inl hsign) _
                · exact hafter
              · rename_i hopen hdigit
                exact underSigil_within hafter (symbol_within depth hnosign (endsSymbol_sign hsign)
                  (sign_begins hsign hopen hdigit))
      rw [if_neg hsign]
      split
      · exact underSigil_within (Nat.lt_succ_self _) (hlist _ _)
      rename_i hopen
      split
      · exact underSigil_within (Nat.lt_succ_self _) (quotedSymbol_within depth hnosign _)
      rename_i hquote
      split
      · rename_i hdigit
        split
        · exact number_within depth level (.inr hdigit) _
        · exact Nat.lt_succ_self _
      rename_i hdigit
      split
      · exact Nat.lt_succ_self _
      rename_i hends
      split
      · exact Nat.lt_succ_self _
      · rename_i hsigil
        exact underSigil_within (Nat.lt_succ_self _)
          (symbol_within depth hnosign (Bool.eq_false_iff.2 hends)
            ⟨hopen, hquote, Bool.eq_false_iff.2 hdigit, by simpa using hsigil,
              fun h => (hsign h).elim⟩)

theorem length_skip_le (inComment : Bool) (input : List UInt8) :
    (skip inComment input).length ≤ input.length := by
  fun_induction skip inComment input with
  | case1 => exact Nat.le_refl _
  | case2 _ _ ih | case3 _ _ _ ih | case4 _ _ ih => exact Nat.le_succ_of_le ih
  | case5 => exact Nat.le_refl _

/-- The children of a list as its header can count them. -/
def Together (P : Tree → Prop) (children : List Tree) : Prop :=
  children.length ≤ Header.maxCount ∧ ∀ t ∈ children, P t

theorem items_within {value : List UInt8 → Result Tree} {P : Tree → Prop}
    (hvalue : ∀ input, (value input).Within input.length P) (children : List Tree)
    (input : List UInt8) (hchildren : Together P children) :
    (items value children input).Within input.length (Together P) := by
  fun_induction items value children input with
  | case1 | case5 | case6 => trivial
  | case2 children input rest hskip =>
      have hlength := length_skip_le false input
      rw [hskip] at hlength
      exact ⟨hlength, hchildren⟩
  | case3 children input c rest hskip hclose child after hchild hfull =>
      have hlength := length_skip_le false input
      have hwithin := hvalue (c :: rest)
      rw [hskip] at hlength
      rw [hchild] at hwithin
      exact Nat.lt_of_lt_of_le hwithin.1 hlength
  | case4 children input c rest hskip hclose child after hchild hroom hlt ih =>
      have hwithin := hvalue (c :: rest)
      rw [hchild] at hwithin
      refine (ih ⟨?_, ?_⟩).mono (Nat.le_of_lt hlt)
      · rw [List.length_append, List.length_singleton]
        exact Nat.lt_of_le_of_ne hchildren.1 hroom
      · intro x hx
        rcases List.mem_append.1 hx with hx | hx
        · exact hchildren.2 x hx
        · rw [List.mem_singleton.1 hx]
          exact hwithin.2
  | case7 children input c rest hskip hclose cause found left hchild =>
      have hlength := length_skip_le false input
      have hwithin := hvalue (c :: rest)
      rw [hskip] at hlength
      rw [hchild] at hwithin
      exact Nat.lt_of_lt_of_le hwithin hlength

theorem list_within (depth : Nat) (level : Int) (sigil : Sigil) (input : List UInt8) :
    (list depth level sigil input).Within (input.length + 1) fun t =>
      Allowed level sigil → Readable depth level t := by
  induction depth generalizing level sigil input with
  | zero => exact Nat.lt_succ_self _
  | succ depth ih =>
      have hvalue := value_within (ih (level + Reader.levelStep sigil))
      have hitems := items_within hvalue [] input ⟨Nat.zero_le _, nofun⟩
      exact (hitems.mono (Nat.le_succ _)).map fun _ h hallowed => .list hallowed h.1 h.2

/-- What is read outside of any list can be found again. -/
theorem read_within (maxDepth : Nat) (inComment : Bool) (input : List UInt8) :
    (read maxDepth inComment input).Within input.length (Readable maxDepth 0) := by
  have hlength := length_skip_le inComment input
  unfold read
  split
  · trivial
  · rename_i c rest hskip
    rw [hskip] at hlength
    split
    · exact hlength
    · exact (value_within (list_within maxDepth 0) _).mono hlength

end Grammar

end FlatLisp
