/-
Module: FlatLisp.Proofs.Cell.Tree
Purpose: Values as trees, apart from where their bytes are, and the one way in which a tree is
  written into memory. A header that fits is read back from its bytes.
Main exports: Header.Fits, Header.decode_encode, Header.encode_inj, Tree, Tree.induct, Tree.encode,
  Tree.Fits, Tree.nesting
-/
import FlatLisp.Cell.Hash
import FlatLisp.Cell.Header

namespace FlatLisp

/-! ### Headers -/

namespace Header

/-- The numbers of a header are within the widths of their fields. -/
def Fits : Header → Prop
  | .symbol n _ _ _ _ => n ≤ maxSymbol
  | .integer value => value.natAbs ≤ maxMagnitude
  | .list count _ _ => count ≤ maxCount

/-- The first two bytes of a header as a number. -/
def word : Header → Nat
  | .symbol n s quoted linked _ =>
      1 + 4 * (n % 64) + 256 * s.code + 4096 * linked.toNat + 8192 * quoted.toNat
  | .integer value =>
      2 + 4 * (decide (value < 0)).toNat + 8 * (min value.natAbs maxMagnitude / 65536)
  | .list count s linked => 3 + 4 * s.code + 64 * linked.toNat + 128 * (count % 512)

theorem word_lt (h : Header) : h.word < 65536 := by
  cases h with
  | symbol n s quoted linked hash =>
      have := s.code_lt
      have := Bool.toNat_lt linked
      have := Bool.toNat_lt quoted
      simp only [word]
      omega
  | integer value =>
      have := Bool.toNat_lt (decide (value < 0))
      simp only [word, maxMagnitude]
      omega
  | list count s linked =>
      have := s.code_lt
      have := Bool.toNat_lt linked
      simp only [word]
      omega

theorem word_mod_four (h : Header) : h.word % 4 = h.tag := by
  cases h <;> simp only [word, tag] <;> omega

/-- What follows the first two bytes of a header. -/
def tail : Header → List UInt8
  | .symbol _ _ _ _ hash => [hash]
  | .integer value => Word.bytes (min value.natAbs maxMagnitude % 65536)
  | .list .. => []

theorem encode_eq (h : Header) : h.encode = Word.bytes h.word ++ h.tail := by
  cases h <;> simp [encode, word, tail]

theorem length_pos (h : Header) : 0 < h.length := by
  cases h <;> simp [length, symbolLength, integerLength, listLength]

/-- The first byte of a header tells its length. -/
theorem lengthFor_encode (h : Header) : lengthFor (UInt8.ofNat h.word) = some h.length := by
  have hmod : (UInt8.ofNat h.word).toNat % 4 = h.tag := by
    rw [UInt8.toNat_ofNat', ← word_mod_four]
    omega
  rw [lengthFor, hmod]
  cases h <;> rfl

private theorem decode_word {low high : UInt8} {word : Nat} (rest : List UInt8)
    (hword : Word.value low high = word) :
    decode (low :: high :: rest) =
      match word % 4, rest with
      | 1, hash :: _ =>
          (Sigil.ofCode? (word / 256 % 16)).map fun s =>
            .symbol (word / 4 % 64) s (word / 8192 % 2 = 1) (word / 4096 % 2 = 1) hash
      | 2, b2 :: b3 :: _ =>
          let magnitude : Int := (word / 8 * 65536 + Word.value b2 b3 : Nat)
          some (.integer (if word / 4 % 2 = 1 then -magnitude else magnitude))
      | 3, _ =>
          (Sigil.ofCode? (word / 4 % 16)).map fun s =>
            .list (word / 128) s (word / 64 % 2 = 1)
      | _, _ => none := by
  cases hword
  rfl

private theorem toNat_eq_one (b : Bool) : decide (b.toNat = 1) = b := by
  cases b <;> rfl

/-- A header that fits is read back from its bytes. -/
theorem decode_encode {h : Header} (hfits : h.Fits) : decode h.encode = some h := by
  rw [encode_eq, Word.bytes, List.cons_append, List.singleton_append,
    decode_word _ (Word.value_bytes h.word_lt), word_mod_four]
  cases h with
  | symbol n s quoted linked hash =>
      have hs := s.code_lt
      have hl := Bool.toNat_lt linked
      have hq := Bool.toNat_lt quoted
      simp only [Fits, maxSymbol] at hfits
      have hcode : (symbol n s quoted linked hash).word / 256 % 16 = s.code := by
        simp only [word]; omega
      have hlength : (symbol n s quoted linked hash).word / 4 % 64 = n := by
        simp only [word]; omega
      have hquoted : (symbol n s quoted linked hash).word / 8192 % 2 = quoted.toNat := by
        simp only [word]; omega
      have hlinked : (symbol n s quoted linked hash).word / 4096 % 2 = linked.toNat := by
        simp only [word]; omega
      simp only [tag, tail, hcode, hlength, hquoted, hlinked, Sigil.ofCode?_code, Option.map_some,
        toNat_eq_one]
  | integer value =>
      have hsign := Bool.toNat_lt (decide (value < 0))
      simp only [Fits] at hfits
      have hmin : min value.natAbs maxMagnitude = value.natAbs := Nat.min_eq_left hfits
      have hlow : Word.value (UInt8.ofNat (value.natAbs % 65536))
          (UInt8.ofNat (value.natAbs % 65536 / 256)) = value.natAbs % 65536 :=
        Word.value_bytes (by omega)
      have hhigh : (integer value).word / 8 = value.natAbs / 65536 := by
        simp only [word, hmin]; omega
      have hnegative : (integer value).word / 4 % 2 = (decide (value < 0)).toNat := by
        simp only [word]; omega
      simp only [tag, tail, Word.bytes, hmin, hlow, hhigh, hnegative]
      congr 2
      by_cases hneg : value < 0
      · simp only [hneg, decide_true, Bool.toNat_true, if_true]
        omega
      · simp only [hneg, decide_false, Bool.toNat_false]
        rw [if_neg (by decide)]
        omega
  | list count s linked =>
      have hs := s.code_lt
      have hl := Bool.toNat_lt linked
      simp only [Fits, maxCount] at hfits
      have hcode : (list count s linked).word / 4 % 16 = s.code := by
        simp only [word]; omega
      have hcount : (list count s linked).word / 128 = count := by
        simp only [word]; omega
      have hlinked : (list count s linked).word / 64 % 2 = linked.toNat := by
        simp only [word]; omega
      simp only [tag, tail, hcode, hcount, hlinked, Sigil.ofCode?_code, Option.map_some,
        toNat_eq_one]

/-- The fields of a header are as wide as its numbers may be. -/
theorem fits_of_decode {bytes : List UInt8} {h : Header} (hdecode : decode bytes = some h) :
    h.Fits := by
  obtain ⟨b₀, b₁, rest, rfl⟩ : ∃ b₀ b₁ rest, bytes = b₀ :: b₁ :: rest := by
    match bytes with
    | [] | [_] => contradiction
    | b₀ :: b₁ :: rest => exact ⟨b₀, b₁, rest, rfl⟩
  have hword := Word.value_lt b₀ b₁
  rw [decode_word rest rfl] at hdecode
  generalize Word.value b₀ b₁ = word at hword hdecode
  split at hdecode
  · obtain ⟨s, -, rfl⟩ := Option.map_eq_some_iff.1 hdecode
    simp only [Fits, maxSymbol]
    omega
  · rename_i b₂ b₃ _ _
    have hlow := Word.value_lt b₂ b₃
    injection hdecode with hdecode
    rw [← hdecode]
    simp only [Fits, maxMagnitude]
    split <;> omega
  · obtain ⟨s, -, rfl⟩ := Option.map_eq_some_iff.1 hdecode
    simp only [Fits, maxCount]
    omega
  · contradiction

/-- Headers can be told apart, whatever comes after them. -/
theorem encode_inj {h h' : Header} {rest rest' : List UInt8} (hfits : h.Fits) (hfits' : h'.Fits)
    (heq : h.encode ++ rest = h'.encode ++ rest') : h = h' ∧ rest = rest' := by
  have hfirst : UInt8.ofNat h.word = UInt8.ofNat h'.word := by
    rw [h.encode_eq, h'.encode_eq] at heq
    exact (List.cons.inj heq).1
  have hlength : h.encode.length = h'.encode.length := by
    have hfor := h.lengthFor_encode
    rw [hfirst, h'.lengthFor_encode] at hfor
    rw [h.length_encode, h'.length_encode]
    exact (Option.some.inj hfor).symm
  obtain ⟨hsame, hrest⟩ := List.append_inj heq hlength
  have hdecode := h.decode_encode hfits
  rw [hsame, h'.decode_encode hfits'] at hdecode
  exact ⟨(Option.some.inj hdecode).symm, hrest⟩

end Header

/-! ### Trees -/

/-- A value, apart from where its bytes are. -/
inductive Tree where
  | symbol (sigil : Sigil) (quoted : Bool) (chars : List UInt8)
  | integer (value : Int)
  | list (sigil : Sigil) (children : List Tree)
deriving Repr, Inhabited

namespace Tree

/-- What holds of the leaves, and of a list whenever it holds of its children, holds of all trees. -/
@[elab_as_elim]
theorem induct {P : Tree → Prop} (symbol : ∀ sigil quoted chars, P (.symbol sigil quoted chars))
    (integer : ∀ value, P (.integer value))
    (list : ∀ sigil children, (∀ t ∈ children, P t) → P (.list sigil children)) : ∀ t, P t
  | .symbol sigil quoted chars => symbol sigil quoted chars
  | .integer value => integer value
  | .list sigil children => list sigil children fun t _ => induct symbol integer list t

/-- The header under which a tree is written with its body inline. -/
def header : Tree → Header
  | .symbol sigil quoted chars => .symbol chars.length sigil quoted false (Hash.key8 chars)
  | .integer value => .integer value
  | .list sigil children => .list children.length sigil false

mutual

/-- The bytes of a tree in pre-order, every body right after its header. -/
def encode : Tree → List UInt8
  | .symbol sigil quoted chars =>
      (Header.symbol chars.length sigil quoted false (Hash.key8 chars)).encode ++ chars
  | .integer value => (Header.integer value).encode
  | .list sigil children => (Header.list children.length sigil false).encode ++ encodeAll children

/-- The bytes of trees one after another. -/
def encodeAll : List Tree → List UInt8
  | [] => []
  | t :: rest => t.encode ++ encodeAll rest

end

mutual

/-- Every number in the tree is within the width of its field. -/
def Fits : Tree → Prop
  | .symbol _ _ chars => chars.length ≤ Header.maxSymbol
  | .integer value => value.natAbs ≤ Header.maxMagnitude
  | .list _ children => children.length ≤ Header.maxCount ∧ FitAll children

def FitAll : List Tree → Prop
  | [] => True
  | t :: rest => t.Fits ∧ FitAll rest

end

mutual

/-- How many lists with children are open at once in the tree. -/
def nesting : Tree → Nat
  | .symbol .. => 0
  | .integer _ => 0
  | .list _ children => if children = [] then 0 else nestingAll children + 1

def nestingAll : List Tree → Nat
  | [] => 0
  | t :: rest => max t.nesting (nestingAll rest)

end

theorem nesting_le_nestingAll {t : Tree} {ts : List Tree} (h : t ∈ ts) :
    t.nesting ≤ nestingAll ts := by
  induction ts with
  | nil => contradiction
  | cons u rest ih =>
      rw [nestingAll]
      rcases List.mem_cons.1 h with rfl | h
      · exact Nat.le_max_left ..
      · exact Nat.le_trans (ih h) (Nat.le_max_right ..)

theorem nestingAll_le {ts : List Tree} {n : Nat} (h : ∀ t ∈ ts, t.nesting ≤ n) :
    nestingAll ts ≤ n := by
  induction ts with
  | nil => exact Nat.zero_le _
  | cons t rest ih =>
      rw [nestingAll]
      exact Nat.max_le.2
        ⟨h t (List.mem_cons_self ..), ih fun u hu => h u (List.mem_cons_of_mem _ hu)⟩

theorem fitAll_iff {ts : List Tree} : FitAll ts ↔ ∀ t ∈ ts, t.Fits := by
  induction ts with
  | nil => simp [FitAll]
  | cons t rest ih => simp [FitAll, ih]

theorem encodeAll_append (ts us : List Tree) :
    encodeAll (ts ++ us) = encodeAll ts ++ encodeAll us := by
  induction ts with
  | nil => simp [encodeAll]
  | cons t rest ih => simp [encodeAll, ih, List.append_assoc]

@[simp] theorem encodeAll_singleton (t : Tree) : encodeAll [t] = t.encode := by
  simp [encodeAll]

/-- The header of a tree begins its bytes. -/
theorem header_prefix (t : Tree) : ∃ body, t.encode = t.header.encode ++ body := by
  cases t with
  | symbol sigil quoted chars => exact ⟨chars, by simp [encode, header]⟩
  | integer value => exact ⟨[], by simp [encode, header]⟩
  | list sigil children => exact ⟨encodeAll children, by simp [encode, header]⟩

theorem Fits.header {t : Tree} (h : t.Fits) : t.header.Fits := by
  cases t with
  | symbol sigil quoted chars => simpa [Fits, Tree.header, Header.Fits] using h
  | integer value => simpa [Fits, Tree.header, Header.Fits] using h
  | list sigil children =>
      simp only [Fits] at h
      exact h.1

end Tree

end FlatLisp
