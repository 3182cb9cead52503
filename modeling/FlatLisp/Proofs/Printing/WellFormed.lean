/-
Module: FlatLisp.Proofs.Printing.WellFormed
Purpose: Text stays text. The grammar cuts an input only next to bytes that are characters on their
  own, so the symbols of a well-formed input are well-formed, and so is what is written for them.
Main exports: Tree.Textual, Grammar.read_textual, Tree.Textual.text
-/
import FlatLisp.Proofs.Printing.Reread
import FlatLisp.Proofs.Text.Utf8

namespace FlatLisp

open Text
open Text.Utf8 (WellFormed encodeChar encodeChar_eq_of_mem)

/-- The characters of every symbol in the tree are text. -/
inductive Tree.Textual : Tree → Prop where
  | symbol {sigil : Sigil} {quoted : Bool} {chars : List UInt8} (hchars : WellFormed chars) :
      Textual (.symbol sigil quoted chars)
  | integer {value : Int} : Textual (.integer value)
  | list {sigil : Sigil} {children : List Tree} (hchildren : ∀ t ∈ children, Textual t) :
      Textual (.list sigil children)

namespace Text.Utf8

theorem WellFormed.tail {c : UInt8} {bytes : List UInt8} (h : WellFormed (c :: bytes))
    (hc : c.toNat < 128) : WellFormed bytes :=
  (show WellFormed ([] ++ c :: bytes) from h).split hc |>.2

theorem WellFormed.flatMap {α : Type} {xs : List α} {f : α → List UInt8}
    (h : ∀ x ∈ xs, WellFormed (f x)) : WellFormed (xs.flatMap f) := by
  induction xs with
  | nil => exact .nil
  | cons x xs ih =>
      rw [List.flatMap_cons]
      exact (h x (.head _)).append (ih fun y hy => h y (.tail _ hy))

theorem WellFormed.of_ascii {bytes : List UInt8} (h : ∀ c ∈ bytes, c.toNat < 128) :
    WellFormed bytes := by
  induction bytes with
  | nil => exact .nil
  | cons c bytes ih => exact .cons (h c (.head _)) (ih fun d hd => h d (.tail _ hd))

end Text.Utf8

namespace Grammar

open Reading (endsSymbol)

/-! ### What is read -/

/-- What the production has found has the property `P`, and text is left. -/
def Result.Textual {α : Type} (P : α → Prop) : Result α → Prop
  | .whole value rest => P value ∧ WellFormed rest
  | .cut => True
  | .refused .. => True

section Textual

variable {α β : Type} {P : α → Prop} {r : Result α}

theorem Result.Textual.map (h : r.Textual P) {f : α → β} {Q : β → Prop}
    (hf : ∀ value, P value → Q (f value)) : (r.map f).Textual Q := by
  cases r with
  | whole value rest => exact ⟨hf value h.1, h.2⟩
  | cut | refused => trivial

theorem underSigil_textual (h : r.Textual P) (level : Int) (sigil : Sigil) (c : UInt8)
    (left : List UInt8) : (underSigil level sigil c left r).Textual P := by
  unfold underSigil
  split
  · trivial
  · exact h

end Textual

theorem ascii_of_ends {c : UInt8} (hc : endsSymbol c = true) : c.toNat < 128 := by
  have hall : ∀ n : Fin 256, endsSymbol (UInt8.ofFin n) = true → n.1 < 128 := by decide +kernel
  exact hall c.toFin hc

theorem ascii_of_sign {c : UInt8} (hc : isSign c = true) : c.toNat < 128 := by
  have hall : ∀ n : Fin 256, isSign (UInt8.ofFin n) = true → n.1 < 128 := by decide +kernel
  exact hall c.toFin hc

theorem ascii_of_digit {c : UInt8} (hc : Ascii.isDigit c = true) : c.toNat < 128 := by
  have hall : ∀ n : Fin 256, Ascii.isDigit (UInt8.ofFin n) = true → n.1 < 128 := by decide +kernel
  exact hall c.toFin hc

theorem ascii_of_sigil {c : UInt8} (hc : (Sigil.ofByte? c).isSome = true) : c.toNat < 128 := by
  have hall : ∀ n : Fin 256, (Sigil.ofByte? (UInt8.ofFin n)).isSome = true → n.1 < 128 := by
    decide +kernel
  exact hall c.toFin hc

theorem symbol_textual (sigil : Sigil) {input : List UInt8} (h : WellFormed input) :
    (symbol sigil input).Textual Tree.Textual := by
  have hplain : (plain Header.maxSymbol input).Textual WellFormed := by
    unfold plain
    dsimp only
    split
    · trivial
    · split
      · trivial
      · rename_i hne
        -- The rest begins with the byte that ends the symbol.
        obtain ⟨c, rest, hrest⟩ := List.exists_cons_of_ne_nil hne
        have hends : endsSymbol c = true := by
          have hhead := List.head?_dropWhile_not (fun d => !endsSymbol d) input
          rw [hrest] at hhead
          simpa using hhead
        have hcut := List.takeWhile_append_dropWhile (p := fun d => !endsSymbol d) (l := input)
        rw [hrest] at hcut ⊢
        rw [← hcut] at h
        obtain ⟨hchars, hafter⟩ := h.split (ascii_of_ends hends)
        exact ⟨hchars, hafter.cons (ascii_of_ends hends)⟩
  exact hplain.map fun _ h => .symbol h

/-- The characters before those of `input` are `before`: only together are they text. -/
theorem quoted_textual (room : Nat) {before input : List UInt8} (h : WellFormed (before ++ input)) :
    (quoted room input).Textual fun chars => WellFormed (before ++ chars) := by
  fun_induction quoted room input generalizing before with
  | case1 | case3 | case4 | case6 => trivial
  | case2 room rest =>
      obtain ⟨hbefore, hrest⟩ := h.split (b := Ascii.doubleQuote) (by decide)
      exact ⟨by simpa using hbefore, hrest⟩
  | case5 room d rest _ ih =>
      obtain ⟨hbefore, hrest⟩ := h.split (b := Ascii.backslash) (by decide)
      have hchars := @ih (before ++ [d]) (by
        rw [List.append_assoc]
        exact hbefore.append hrest)
      exact hchars.map fun chars h => by rwa [List.append_assoc] at h
  | case7 c rest _ _ room ih =>
      have hchars := @ih (before ++ [c]) (by rwa [List.append_assoc])
      exact hchars.map fun chars h => by rwa [List.append_assoc] at h

theorem quotedSymbol_textual (sigil : Sigil) {input : List UInt8} (h : WellFormed input) :
    (quotedSymbol sigil input).Textual Tree.Textual :=
  (quoted_textual _ (show WellFormed ([] ++ input) from h)).map fun _ h => .symbol h

theorem number_textual {input : List UInt8} (h : WellFormed input) :
    (number input).Textual Tree.Textual := by
  have hinteger : ∀ negative magnitude, (integer negative magnitude input).Textual fun _ => True := by
    intro negative magnitude
    fun_induction integer negative magnitude input with
    | case1 | case4 => trivial
    | case2 _ _ _ _ hsign ih => exact ih (h.tail (ascii_of_sign hsign.1))
    | case3 _ _ _ _ _ hdigit _ _ ih => exact ih (h.tail (ascii_of_digit hdigit))
    | case5 => exact ⟨trivial, h⟩
  exact (hinteger false 0).map fun _ _ => .integer

theorem splitSigil_textual {input : List UInt8} (h : WellFormed input) :
    WellFormed (splitSigil input).2 := by
  unfold splitSigil
  split
  · exact h
  · split
    · exact h
    · rename_i sigil hfirst
      have hrest := h.tail (ascii_of_sigil (by rw [hfirst]; rfl))
      split
      · exact hrest
      · split
        · exact hrest
        · rename_i hsecond
          exact hrest.tail (ascii_of_sigil (Reading.isSome_of_combine hsecond))

theorem value_textual {list : Sigil → List UInt8 → Result Tree}
    (hlist : ∀ sigil {rest}, WellFormed rest → (list sigil rest).Textual Tree.Textual) (level : Int)
    {input : List UInt8} (h : WellFormed input) :
    (value list level input).Textual Tree.Textual := by
  have hbody := splitSigil_textual h
  unfold value
  generalize splitSigil input = split at hbody
  obtain ⟨sigil, body⟩ := split
  dsimp only at hbody ⊢
  cases body with
  | nil => trivial
  | cons c rest =>
      have hsymbol := symbol_textual sigil hbody
      have hnumber := number_textual hbody
      dsimp only
      split
      · rename_i hsign
        have hrest := hbody.tail (ascii_of_sign hsign)
        cases rest with
        | nil => trivial
        | cons d after =>
            dsimp only
            split
            · rename_i hopen
              split
              · exact hlist _ (hrest.tail (by rw [hopen]; decide))
              · trivial
            · split
              · split
                · exact hnumber
                · trivial
              · exact underSigil_textual hsymbol ..
      split
      · rename_i hopen
        exact underSigil_textual (hlist _ (hbody.tail (by rw [hopen]; decide))) ..
      split
      · rename_i hquote
        exact underSigil_textual (quotedSymbol_textual _ (hbody.tail (by rw [hquote]; decide))) ..
      split
      · split
        · exact hnumber
        · trivial
      split
      · trivial
      split
      · trivial
      · exact underSigil_textual hsymbol ..

/-- A comment may hold any characters; `before` are the bytes of it before `input`. -/
theorem skip_textual (inComment : Bool) {before input : List UInt8}
    (hbefore : inComment = false → before = []) (h : WellFormed (before ++ input)) :
    WellFormed (skip inComment input) := by
  fun_induction skip inComment input generalizing before with
  | case1 => exact .nil
  | case2 c rest ih =>
      by_cases hc : c = Ascii.newline
      · subst hc
        obtain ⟨-, hrest⟩ := h.split (b := Ascii.newline) (by decide)
        exact @ih [] (fun _ => rfl) hrest
      · refine @ih (before ++ [c]) (fun hfalse => ?_) (by rwa [List.append_assoc])
        exact (hc (by simpa using hfalse)).elim
  | case3 c rest hblank ih =>
      rw [hbefore rfl, List.nil_append] at h
      exact @ih [] (fun _ => rfl) (h.tail (ascii_of_ends (by simp [endsSymbol, hblank])))
  | case4 rest _ ih =>
      rw [hbefore rfl, List.nil_append] at h
      exact @ih [] (fun _ => rfl) (h.tail (by decide))
  | case5 c rest =>
      rw [hbefore rfl] at h
      exact h

theorem items_textual {value : List UInt8 → Result Tree}
    (hvalue : ∀ {input}, WellFormed input → (value input).Textual Tree.Textual)
    {children : List Tree} (hchildren : ∀ t ∈ children, t.Textual) {input : List UInt8}
    (h : WellFormed input) :
    (items value children input).Textual fun children => ∀ t ∈ children, t.Textual := by
  have hskip : ∀ {input}, WellFormed input → WellFormed (skip false input) := fun {input} h =>
    skip_textual false (fun _ => rfl) (show WellFormed ([] ++ input) from h)
  fun_induction items value children input with
  | case1 | case3 | case5 | case6 | case7 => trivial
  | case2 children input rest heq =>
      have hrest := hskip h
      rw [heq] at hrest
      exact ⟨hchildren, hrest.tail (by decide)⟩
  | case4 children input c rest heq _ child after hchild _ _ ih =>
      have hread := hvalue (hskip h)
      rw [heq, hchild] at hread
      refine ih ?_ hread.2
      intro t ht
      rcases List.mem_append.1 ht with ht | ht
      · exact hchildren t ht
      · rw [List.mem_singleton.1 ht]
        exact hread.1

theorem list_textual (depth : Nat) (level : Int) (sigil : Sigil) {input : List UInt8}
    (h : WellFormed input) : (list depth level sigil input).Textual Tree.Textual := by
  induction depth generalizing level sigil input with
  | zero => trivial
  | succ depth ih =>
      have hnone : ∀ t ∈ ([] : List Tree), t.Textual := nofun
      exact (items_textual (value_textual (fun sigil _ hrest => ih _ sigil hrest) _) hnone h).map
        fun _ h => .list h

/-- The trees of a text are trees of text, and text is left. -/
theorem read_textual (maxDepth : Nat) (inComment : Bool) {input : List UInt8}
    (h : WellFormed input) : (read maxDepth inComment input).Textual Tree.Textual := by
  have hskip := skip_textual inComment (fun _ => rfl) (show WellFormed ([] ++ input) from h)
  unfold read
  split
  · trivial
  · rename_i c rest heq
    rw [heq] at hskip
    split
    · trivial
    · exact value_textual (fun sigil _ hrest => list_textual maxDepth 0 sigil hrest) 0 hskip

end Grammar

/-! ### What is written -/

namespace Printing

/-- Only characters on their own are escaped. -/
theorem escape_wellFormed {chars : List UInt8} (h : WellFormed chars) :
    WellFormed (escape chars) := by
  obtain ⟨cs, rfl⟩ := h
  rw [escape, List.flatMap_assoc]
  refine WellFormed.flatMap fun c _ => ?_
  by_cases hescape : ∃ b ∈ encodeChar c, needsEscape b = true
  · obtain ⟨b, hb, hneeds⟩ := hescape
    have hascii : b.toNat < 128 := by
      simp only [needsEscape, Bool.or_eq_true, beq_iff_eq] at hneeds
      rcases hneeds with rfl | rfl <;> decide
    rw [encodeChar_eq_of_mem hb hascii, List.flatMap_singleton, if_pos hneeds]
    exact .cons (by decide) (.single hascii)
  · have hsame : ∀ bytes : List UInt8, (∀ b ∈ bytes, ¬ needsEscape b = true) →
        bytes.flatMap (fun b => if needsEscape b then [Ascii.backslash, b] else [b]) = bytes := by
      intro bytes hnone
      induction bytes with
      | nil => rfl
      | cons b bytes ih =>
          rw [List.flatMap_cons, if_neg (hnone b (.head _)), ih fun d hd => hnone d (.tail _ hd)]
          rfl
    rw [hsame _ fun b hb hneeds => hescape ⟨b, hb, hneeds⟩]
    exact ⟨[c], (List.flatMap_singleton ..).symm⟩

theorem digits_wellFormed (n : Nat) : WellFormed (Decimal.digits n) := by
  have hdigit : ∀ {d}, d < 10 → WellFormed [Ascii.digit d] := by
    intro d hd
    have hall : ∀ n : Fin 10, (Ascii.digit n).toNat < 128 := by decide
    exact .single (hall ⟨d, hd⟩)
  fun_induction Decimal.digits n with
  | case1 n hlt => exact hdigit hlt
  | case2 n hge ih => exact ih.append (hdigit (Nat.mod_lt n (by decide)))

theorem separator_wellFormed (o : PrintOptions) (count depth : Nat) :
    WellFormed (separator o count depth) := by
  refine WellFormed.of_ascii fun c hc => ?_
  have hblank := Grammar.separator_blank o count depth c hc
  exact Grammar.ascii_of_ends (by simp [Reading.endsSymbol, hblank])

end Printing

namespace Tree

open Printing

theorem textAll_wellFormed {o : PrintOptions} {around : Nat} {sep : List UInt8}
    (hsep : WellFormed sep) {ts : List Tree} (h : ∀ t ∈ ts, WellFormed (t.text o around)) :
    WellFormed (textAll o around sep ts) := by
  induction ts with
  | nil => exact .nil
  | cons t ts ih =>
      rw [textAll]
      refine (h t (.head _)).append ?_
      split
      · exact .nil
      · exact hsep.append (ih fun u hu => h u (.tail _ hu))

/-- What is written for a tree of text is text. -/
theorem Textual.text {t : Tree} (h : t.Textual) (o : PrintOptions) (around : Nat) :
    WellFormed (t.text o around) := by
  have hsigil : ∀ sigil : Sigil, WellFormed sigil.text := by
    intro sigil
    refine .of_ascii ?_
    cases sigil <;> simp [Sigil.text] <;> decide
  induction h generalizing around with
  | @symbol sigil quoted chars hchars =>
      rw [Tree.text]
      refine (hsigil sigil).append ?_
      split
      · exact .cons (by decide) ((escape_wellFormed hchars).append (.single (by decide)))
      · exact hchars
  | @integer value =>
      rw [Tree.text]
      refine .append ?_ (digits_wellFormed _)
      unfold sign
      split
      · exact .single (by decide)
      · split
        · exact .single (by decide)
        · exact .nil
  | @list sigil children _ ih =>
      rw [Tree.text]
      refine (hsigil sigil).append (.cons (by decide) (.append ?_ (.single (by decide))))
      exact textAll_wellFormed (separator_wellFormed ..) fun t ht => ih t ht (around + 1)

end Tree

end FlatLisp
