/-
Module: FlatLisp.Proofs.Printing.Reread
Purpose: The grammar finds a tree again in what is written for it, whatever the options: each kind of
  leaf is followed to its end, and a list by induction on its children, with the blanks between them.
Main exports: Grammar.quoted_escape, Grammar.number_written, Grammar.items_written,
  Grammar.value_written, Grammar.read_written
-/
import FlatLisp.Proofs.Printing.Text
import FlatLisp.Proofs.Reading.Readable

namespace FlatLisp

namespace Grammar

open Text
open Printing (escape needsEscape separator sign)
open Reading (endsSymbol)

variable {o : PrintOptions} {e : UInt8}

/-! ### Leaves -/

/-- A plain symbol goes on to the byte that ends it. -/
theorem plain_append {room : Nat} {chars : List UInt8} (hroom : chars.length ≤ room)
    (hopen : ∀ c ∈ chars, endsSymbol c = false) (he : endsSymbol e = true) (rest : List UInt8) :
    plain room (chars ++ e :: rest) = .whole chars (e :: rest) := by
  induction chars generalizing room with
  | nil => rw [List.nil_append, plain_cons, if_pos he]
  | cons c chars ih =>
      cases room with
      | zero => contradiction
      | succ room =>
          have hrest := ih (Nat.le_of_succ_le_succ hroom) fun d hd => hopen d (.tail _ hd)
          rw [List.cons_append, plain_cons, hopen c (.head _), if_neg Bool.false_ne_true]
          dsimp only
          rw [hrest]
          rfl

/-- The characters of a quoted symbol are found behind their escapes. -/
theorem quoted_escape {room : Nat} {chars : List UInt8} (hroom : chars.length ≤ room)
    (rest : List UInt8) :
    quoted room (escape chars ++ Ascii.doubleQuote :: rest) = .whole chars rest := by
  induction chars generalizing room with
  | nil =>
      rw [escape, List.flatMap_nil, List.nil_append, quoted.eq_def]
      rfl
  | cons c chars ih =>
      cases room with
      | zero => contradiction
      | succ room =>
          have hrest := ih (Nat.le_of_succ_le_succ hroom)
          rw [escape] at hrest
          rw [escape, List.flatMap_cons]
          by_cases hescape : needsEscape c = true
          · rw [if_pos hescape, quoted.eq_def]
            simp only [List.cons_append, List.nil_append]
            rw [if_neg (by decide), if_pos trivial, hrest]
            rfl
          · have hne : c ≠ Ascii.doubleQuote ∧ c ≠ Ascii.backslash := by
              simpa [needsEscape] using hescape
            rw [if_neg hescape, quoted.eq_def]
            simp only [List.cons_append, List.nil_append]
            rw [if_neg hne.1, if_neg hne.2, hrest]
            rfl

theorem digit_spec {d : Nat} (hd : d < 10) :
    isSign (Ascii.digit d) = false ∧ Ascii.isDigit (Ascii.digit d) = true ∧
      Ascii.digitValue (Ascii.digit d) = d := by
  have hall : ∀ n : Fin 10, isSign (Ascii.digit n) = false ∧
      Ascii.isDigit (Ascii.digit n) = true ∧ Ascii.digitValue (Ascii.digit n) = n := by decide
  exact hall ⟨d, hd⟩

theorem integer_digit (negative : Bool) {magnitude d : Nat} (hd : d < 10)
    (hfits : magnitude * 10 + d ≤ Header.maxMagnitude) (rest : List UInt8) :
    integer negative magnitude (Ascii.digit d :: rest) =
      integer negative (magnitude * 10 + d) rest := by
  obtain ⟨hsign, hdigit, hvalue⟩ := digit_spec hd
  rw [integer, if_neg (by rw [hsign]; exact fun h => Bool.false_ne_true h.1), if_pos hdigit, hvalue]
  exact if_pos hfits

/-- The digits of a number are read to that number. -/
theorem integer_digits (negative : Bool) {n : Nat} (hfits : n ≤ Header.maxMagnitude)
    (rest : List UInt8) :
    integer negative 0 (Decimal.digits n ++ rest) = integer negative n rest := by
  fun_induction Decimal.digits n generalizing rest with
  | case1 n hlt =>
      have hdigit : integer negative 0 (Ascii.digit n :: rest) =
          integer negative (0 * 10 + n) rest := integer_digit negative hlt (by omega) rest
      rwa [Nat.zero_mul, Nat.zero_add] at hdigit
  | case2 n hge ih =>
      have hdigit : integer negative (n / 10) (Ascii.digit (n % 10) :: rest) =
          integer negative (n / 10 * 10 + n % 10) rest :=
        integer_digit negative (Nat.mod_lt n (by decide)) (by omega) rest
      rw [List.append_assoc, List.singleton_append, ih (by omega), hdigit, Nat.div_add_mod']

theorem ends_integer {c : UInt8} (hc : endsSymbol c = true) :
    isSign c = false ∧ Ascii.isDigit c = false := by
  have hall : ∀ n : Fin 256, endsSymbol (UInt8.ofFin n) = true →
      isSign (UInt8.ofFin n) = false ∧ Ascii.isDigit (UInt8.ofFin n) = false := by
    decide +kernel
  exact hall c.toFin hc

theorem integer_ends (negative : Bool) (magnitude : Nat) (he : endsSymbol e = true)
    (rest : List UInt8) :
    integer negative magnitude (e :: rest) =
      .whole (if negative then -magnitude else magnitude) (e :: rest) := by
  obtain ⟨hsign, hdigit⟩ := ends_integer he
  rw [integer, hsign, hdigit]
  rfl

/-- An integer is read to its value, with its sign or without. -/
theorem number_written {value : Int} (hfits : value.natAbs ≤ Header.maxMagnitude)
    (he : endsSymbol e = true) (rest : List UInt8) :
    number (sign o value ++ (Decimal.digits value.natAbs ++ e :: rest)) =
      .whole (.integer value) (e :: rest) := by
  have hread : ∀ negative, integer negative 0 (Decimal.digits value.natAbs ++ e :: rest) =
      .whole (if negative then -value.natAbs else value.natAbs) (e :: rest) := by
    intro negative
    rw [integer_digits negative hfits, integer_ends negative _ he]
  have hsigned : ∀ s, isSign s = true →
      integer false 0 (s :: (Decimal.digits value.natAbs ++ e :: rest)) =
        integer (s = Ascii.minus) 0 (Decimal.digits value.natAbs ++ e :: rest) := by
    intro s hs
    rw [integer, if_pos ⟨hs, rfl⟩]
  rw [number, sign]
  split
  · rename_i hnegative
    rw [List.singleton_append, hsigned _ rfl, hread]
    simp only [Result.map, decide_true, if_true]
    rw [show -(value.natAbs : Int) = value by omega]
  · rename_i hnegative
    have hvalue : (value.natAbs : Int) = value := by omega
    split
    · rw [List.singleton_append, hsigned _ rfl, hread]
      simp only [Result.map, show (Ascii.plus = Ascii.minus) = False by decide, decide_false,
        Bool.false_eq_true, if_false, hvalue]
    · rw [List.nil_append, hread]
      simp only [Result.map, Bool.false_eq_true, if_false, hvalue]

/-! ### Values -/

theorem digits_begin (n : Nat) :
    ∃ c rest, Decimal.digits n = c :: rest ∧ Ascii.isDigit c = true := by
  fun_induction Decimal.digits n with
  | case1 n hlt => exact ⟨_, [], rfl, (digit_spec hlt).2.1⟩
  | case2 n hge ih =>
      obtain ⟨c, rest, hdigits, hc⟩ := ih
      exact ⟨c, _, by rw [hdigits]; rfl, hc⟩

/-- A digit begins nothing but an integer. -/
theorem digit_begins {c : UInt8} (hc : Ascii.isDigit c = true) :
    endsSymbol c = false ∧ isSign c = false ∧ c ≠ Ascii.openParen ∧ c ≠ Ascii.doubleQuote ∧
      Sigil.ofByte? c = none := by
  have hall : ∀ n : Fin 256, Ascii.isDigit (UInt8.ofFin n) = true →
      endsSymbol (UInt8.ofFin n) = false ∧ isSign (UInt8.ofFin n) = false ∧
        UInt8.ofFin n ≠ Ascii.openParen ∧ UInt8.ofFin n ≠ Ascii.doubleQuote ∧
        Sigil.ofByte? (UInt8.ofFin n) = none := by decide +kernel
  exact hall c.toFin hc

theorem splitSigil_bare {c : UInt8} (hc : Sigil.ofByte? c = none) (rest : List UInt8) :
    splitSigil (c :: rest) = (.bare, c :: rest) := by
  simp only [splitSigil, hc]

theorem splitSigil_cons {c d : UInt8} {sigil : Sigil} (hfirst : Sigil.ofByte? c = some sigil)
    (hsecond : sigil.combine d = none) (rest : List UInt8) :
    splitSigil (c :: d :: rest) = (sigil, d :: rest) := by
  simp only [splitSigil, hfirst, hsecond]

theorem splitSigil_text {sigil : Sigil} (hsign : NoSign sigil) {c : UInt8}
    (hc : Sigil.ofByte? c = none) (rest : List UInt8) :
    splitSigil (sigil.text ++ c :: rest) = (sigil, c :: rest) := by
  have hlongest : sigil.combine c = none := by
    cases hcombine : sigil.combine c with
    | none => rfl
    | some longer =>
        have hsome := Reading.isSome_of_combine hcombine
        rw [hc] at hsome
        contradiction
  cases sigil with
  | bare => exact splitSigil_bare hc rest
  | plus => exact (hsign.1 rfl).elim
  | minus => exact (hsign.2 rfl).elim
  | unquoteSplicing | sharpQuote => rfl
  | quote | quasiquote | unquote | sharp | atSign | ampersand =>
      exact splitSigil_cons rfl hlongest rest

theorem underSigil_of_allowed {α : Type} {level : Int} {sigil : Sigil} (h : Allowed level sigil)
    (c : UInt8) (left : List UInt8) (r : Result α) : underSigil level sigil c left r = r := by
  refine if_neg ?_
  rintro ⟨hunquote, hle⟩
  have := h hunquote
  omega

theorem symbol_append {sigil : Sigil} {chars : List UInt8} (hchars : Plain chars)
    (he : endsSymbol e = true) (rest : List UInt8) :
    symbol sigil (chars ++ e :: rest) = .whole (.symbol sigil false chars) (e :: rest) := by
  rw [symbol, plain_append hchars.length hchars.open_ended he]
  rfl

section Values

variable {list : Sigil → List UInt8 → Result Tree} {level : Int} {sigil : Sigil}

theorem value_plain (list : Sigil → List UInt8 → Result Tree) (hsign : NoSign sigil)
    (hallowed : Allowed level sigil) {chars : List UInt8} (hchars : Plain chars)
    (he : endsSymbol e = true) (rest : List UInt8) :
    value list level (sigil.text ++ (chars ++ e :: rest)) =
      .whole (.symbol sigil false chars) (e :: rest) := by
  have hsymbol : symbol sigil (chars ++ e :: rest) =
      .whole (.symbol sigil false chars) (e :: rest) := symbol_append hchars he rest
  obtain ⟨c, tail, rfl, hopen, hquote, hdigit, hsigil, hsigned⟩ := hchars.begins
  have hends : endsSymbol c = false := hchars.open_ended c (.head _)
  rw [List.cons_append] at hsymbol ⊢
  rw [value, splitSigil_text hsign hsigil]
  dsimp only
  by_cases hs : isSign c = true
  · rw [if_pos hs]
    -- What follows a sign is the rest of the symbol, or the byte that ends it.
    obtain ⟨d, after, hafter, hd⟩ : ∃ d after, tail ++ e :: rest = d :: after ∧
        d ≠ Ascii.openParen ∧ Ascii.isDigit d = false := by
      cases tail with
      | nil =>
          refine ⟨e, rest, rfl, ?_, (ends_integer he).2⟩
          rintro rfl
          contradiction
      | cons d tail => exact ⟨d, tail ++ e :: rest, rfl, hsigned hs d rfl⟩
    rw [hafter] at hsymbol ⊢
    dsimp only
    rw [if_neg hd.1, if_neg (Bool.eq_false_iff.1 hd.2), underSigil_of_allowed hallowed, hsymbol]
  · rw [if_neg hs, if_neg hopen, if_neg hquote, if_neg (Bool.eq_false_iff.1 hdigit),
      if_neg (Bool.eq_false_iff.1 hends), hsigil, Option.isSome_none,
      if_neg Bool.false_ne_true, underSigil_of_allowed hallowed, hsymbol]

theorem value_quoted (list : Sigil → List UInt8 → Result Tree) (hsign : NoSign sigil)
    (hallowed : Allowed level sigil) {chars : List UInt8} (hlength : chars.length ≤ Header.maxSymbol)
    (rest : List UInt8) :
    value list level
        (sigil.text ++ Ascii.doubleQuote :: (escape chars ++ Ascii.doubleQuote :: rest)) =
      .whole (.symbol sigil true chars) rest := by
  rw [value, splitSigil_text hsign rfl]
  dsimp only
  rw [if_neg (by decide), if_neg (by decide), if_pos rfl, underSigil_of_allowed hallowed,
    quotedSymbol, quoted_escape hlength]
  rfl

theorem value_number (list : Sigil → List UInt8 → Result Tree) {n : Int}
    (hfits : n.natAbs ≤ Header.maxMagnitude) (he : endsSymbol e = true) (rest : List UInt8) :
    value list level (sign o n ++ (Decimal.digits n.natAbs ++ e :: rest)) =
      .whole (.integer n) (e :: rest) := by
  have hnumber := number_written (o := o) hfits he rest
  obtain ⟨c, tail, hdigits, hdigit⟩ := digits_begin n.natAbs
  obtain ⟨_, hsign, hopen, hquote, hsigil⟩ := digit_begins hdigit
  have hsigned : ∀ s, isSign s = true → value list level (s :: c :: (tail ++ e :: rest)) =
      number (s :: c :: (tail ++ e :: rest)) := by
    intro s hs
    rw [value, splitSigil_bare (sign_alone hs).2.2.2]
    dsimp only
    rw [if_pos hs, if_neg hopen, if_pos hdigit, if_pos rfl]
  refine Eq.trans ?_ hnumber
  rw [hdigits, sign]
  split
  · exact hsigned _ rfl
  · split
    · exact hsigned _ rfl
    · simp only [List.nil_append, List.cons_append]
      rw [value, splitSigil_bare hsigil]
      dsimp only
      rw [hsign, if_neg Bool.false_ne_true, if_neg hopen, if_neg hquote, if_pos hdigit, if_pos rfl]

theorem value_list (hallowed : Allowed level sigil) (rest : List UInt8) :
    value list level (sigil.text ++ Ascii.openParen :: rest) = list sigil rest := by
  by_cases hsign : NoSign sigil
  · rw [value, splitSigil_text hsign rfl]
    dsimp only
    rw [if_neg (by decide), if_pos rfl, underSigil_of_allowed hallowed]
  · cases sigil with
    | plus | minus => rfl
    | bare | quote | quasiquote | unquote | unquoteSplicing | sharp | sharpQuote | atSign
    | ampersand => exact (hsign ⟨nofun, nofun⟩).elim

end Values

/-! ### Lists -/

theorem skip_blanks {blanks : List UInt8} (hblank : ∀ c ∈ blanks, Ascii.isBlank c = true)
    (input : List UInt8) : skip false (blanks ++ input) = skip false input := by
  induction blanks with
  | nil => rfl
  | cons c blanks ih =>
      rw [List.cons_append, skip, if_pos (hblank c (.head _)), ih fun d hd => hblank d (.tail _ hd)]

theorem skip_value {c : UInt8} (hc : endsSymbol c = false) (rest : List UInt8) :
    skip false (c :: rest) = c :: rest := by
  simp only [endsSymbol, Bool.or_eq_false_iff, beq_eq_false_iff_ne] at hc
  rw [skip, hc.1.1, if_neg Bool.false_ne_true, if_neg hc.2]

theorem separator_blank (o : PrintOptions) (count depth : Nat) :
    ∀ c ∈ separator o count depth, Ascii.isBlank c = true := by
  intro c hc
  rw [separator] at hc
  split at hc
  · rcases List.mem_cons.1 hc with rfl | hc
    · rfl
    · rw [List.eq_of_mem_replicate hc]
      rfl
  · rw [List.mem_singleton.1 hc]
    rfl

theorem separator_begins (o : PrintOptions) (count depth : Nat) :
    ∃ c rest, separator o count depth = c :: rest ∧ endsSymbol c = true := by
  rw [separator]
  split
  · exact ⟨Ascii.newline, _, rfl, rfl⟩
  · exact ⟨Ascii.space, [], rfl, rfl⟩

/-- A value begins with the first byte that is written for it, since that is neither a blank nor a
semicolon nor a closing parenthesis. -/
theorem Readable.begins {depth : Nat} {level : Int} {t : Tree} (h : Readable depth level t)
    (o : PrintOptions) (around : Nat) :
    ∃ c rest, t.text o around = c :: rest ∧ endsSymbol c = false := by
  have hsigil : ∀ (sigil : Sigil) {c rest}, endsSymbol c = false →
      ∃ d more, sigil.text ++ c :: rest = d :: more ∧ endsSymbol d = false := by
    intro sigil c rest hc
    cases sigil with
    | bare => exact ⟨c, rest, rfl, hc⟩
    | quote | quasiquote | unquote | unquoteSplicing | sharp | sharpQuote | atSign | ampersand
    | plus | minus => exact ⟨_, _, rfl, rfl⟩
  cases h with
  | @plain _ _ sigil chars _ _ hchars =>
      obtain ⟨c, rest, rfl, _⟩ := hchars.begins
      exact hsigil sigil (hchars.open_ended c (.head _))
  | @quoted _ _ sigil => exact hsigil sigil rfl
  | @list _ _ sigil => exact hsigil sigil rfl
  | @integer _ _ value =>
      obtain ⟨c, rest, hdigits, hc⟩ := digits_begin value.natAbs
      rw [Tree.text, sign]
      split
      · exact ⟨_, _, rfl, rfl⟩
      · split
        · exact ⟨_, _, rfl, rfl⟩
        · exact ⟨c, rest, hdigits, (digit_begins hc).1⟩

/-- The production `value` finds the tree in what is written for it with `around` lists around it. -/
def Finds (o : PrintOptions) (value : List UInt8 → Result Tree) (around : Nat) (t : Tree) : Prop :=
  (∃ c rest, t.text o around = c :: rest ∧ endsSymbol c = false) ∧
    ∀ e rest, endsSymbol e = true → value (t.text o around ++ e :: rest) = .whole t (e :: rest)

/-- Children are found one after another, up to the parenthesis that closes their list. -/
theorem items_written {value : List UInt8 → Result Tree} {around count depth : Nat}
    {children ts : List Tree} (hfinds : ∀ t ∈ ts, Finds o value around t)
    (hcount : children.length + ts.length ≤ Header.maxCount) {blanks : List UInt8}
    (hblank : ∀ c ∈ blanks, Ascii.isBlank c = true) (rest : List UInt8) :
    items value children (blanks ++
        (Tree.textAll o around (separator o count depth) ts ++ Ascii.closeParen :: rest)) =
      .whole (children ++ ts) rest := by
  induction ts generalizing children blanks with
  | nil =>
      rw [items, skip_blanks hblank, Tree.textAll, List.append_nil]
      rfl
  | cons t ts ih =>
      obtain ⟨⟨c, tail, htext, hc⟩, hvalue⟩ := hfinds t (.head _)
      rw [List.length_cons] at hcount
      -- Between this child and the next one, or the end, are blanks only.
      obtain ⟨between, hbetween, hnext, hwhich⟩ : ∃ between : List UInt8,
          (∀ c ∈ between, Ascii.isBlank c = true) ∧
          (if ts = [] then [] else
            separator o count depth ++ Tree.textAll o around (separator o count depth) ts) =
          between ++ Tree.textAll o around (separator o count depth) ts ∧
          (ts = [] ∧ between = [] ∨ between = separator o count depth) := by
        by_cases hlast : ts = []
        · exact ⟨[], nofun, by rw [if_pos hlast, hlast, Tree.textAll]; rfl, .inl ⟨hlast, rfl⟩⟩
        · exact ⟨_, separator_blank o count depth, if_neg hlast, .inr rfl⟩
      obtain ⟨e, after, hafter, he⟩ : ∃ e after,
          between ++ (Tree.textAll o around (separator o count depth) ts ++
            Ascii.closeParen :: rest) = e :: after ∧ endsSymbol e = true := by
        rcases hwhich with ⟨rfl, rfl⟩ | rfl
        · exact ⟨Ascii.closeParen, rest, by rw [Tree.textAll]; rfl, rfl⟩
        · obtain ⟨e, more, hsep, he⟩ := separator_begins o count depth
          exact ⟨e, _, by rw [hsep]; rfl, he⟩
      have hcount' : (children ++ [t]).length + ts.length ≤ Header.maxCount := by
        rw [List.length_append, List.length_singleton]
        omega
      have hrest := ih (fun u hu => hfinds u (.tail _ hu)) hcount' hbetween
      rw [List.append_assoc, List.singleton_append] at hrest
      have hread := hvalue e after he
      rw [Tree.textAll, hnext, List.append_assoc, List.append_assoc, hafter, items,
        skip_blanks hblank]
      rw [htext] at hread ⊢
      rw [List.cons_append] at hread ⊢
      rw [skip_value hc]
      dsimp only
      rw [if_neg (by rintro rfl; contradiction), hread]
      dsimp only
      rw [if_neg (by omega), if_pos (by simp only [List.length_append, List.length_cons]; omega),
        ← hafter, hrest]

/-- The grammar finds a tree in what is written for it. -/
theorem value_written {depth : Nat} {level : Int} {t : Tree} (h : Readable depth level t)
    (o : PrintOptions) (around : Nat) (he : endsSymbol e = true) (rest : List UInt8) :
    value (list depth level) level (t.text o around ++ e :: rest) = .whole t (e :: rest) := by
  induction h generalizing around e rest with
  | plain hsign hallowed hchars =>
      rw [Tree.text, if_neg Bool.false_ne_true, List.append_assoc]
      exact value_plain _ hsign hallowed hchars he rest
  | quoted hsign hallowed hlength =>
      rw [Tree.text, if_pos rfl]
      simp only [List.append_assoc, List.cons_append, List.nil_append]
      exact value_quoted _ hsign hallowed hlength (e :: rest)
  | @integer depth level n hvalue =>
      rw [Tree.text, List.append_assoc]
      exact value_number _ hvalue he rest
  | @list depth level sigil children hallowed hcount hchildren ih =>
      have hfinds : ∀ t ∈ children, Finds o (value (list depth (level + Reader.levelStep sigil))
          (level + Reader.levelStep sigil)) (around + 1) t := fun t ht =>
        ⟨(hchildren t ht).begins o (around + 1), fun e rest he => ih t ht (around + 1) he rest⟩
      have hnone : ([] : List Tree).length + children.length ≤ Header.maxCount := by
        rwa [List.length_nil, Nat.zero_add]
      have hblank : ∀ c ∈ ([] : List UInt8), Ascii.isBlank c = true := nofun
      have hitems : items (value (list depth (level + Reader.levelStep sigil))
          (level + Reader.levelStep sigil)) []
          ([] ++ (Tree.textAll o (around + 1) (separator o children.length around) children ++
            Ascii.closeParen :: e :: rest)) = .whole ([] ++ children) (e :: rest) :=
        items_written hfinds hnone hblank (e :: rest)
      rw [Tree.text]
      simp only [List.append_assoc, List.cons_append, List.nil_append] at hitems ⊢
      rw [value_list hallowed, list, hitems]
      rfl

/-- Outside of any list the grammar finds a tree in what is written for it, whatever ends it. -/
theorem read_written {maxDepth : Nat} {t : Tree} (h : Readable maxDepth 0 t) (o : PrintOptions)
    (he : endsSymbol e = true) (rest : List UInt8) :
    read maxDepth false (t.text o 0 ++ e :: rest) = .whole t (e :: rest) := by
  have hvalue := value_written h o 0 he rest
  obtain ⟨c, tail, htext, hc⟩ := h.begins o 0
  rw [htext, List.cons_append] at hvalue ⊢
  rw [read, skip_value hc]
  dsimp only
  rw [if_neg (by rintro rfl; contradiction), hvalue]

end Grammar

end FlatLisp
