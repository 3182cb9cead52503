/-
Module: FlatLisp.Proofs.Text.Utf8
Purpose: UTF-8 text is read back from its bytes, with nothing replaced, and can be cut at any byte
  below 128, since no longer character has such a byte.
Main exports: Utf8.WellFormed, Utf8.WellFormed.append, Utf8.WellFormed.split, Utf8.decode_encode,
  Utf8.encode_decodeLossy
-/
import FlatLisp.Text.Utf8

namespace FlatLisp.Text.Utf8

/-! ### Well-formed bytes -/

/-- The bytes are the bytes of some characters. -/
def WellFormed (bytes : List UInt8) : Prop := ∃ chars : List Char, bytes = chars.flatMap encodeChar

theorem WellFormed.nil : WellFormed [] := ⟨[], rfl⟩

theorem WellFormed.append {xs ys : List UInt8} (hx : WellFormed xs) (hy : WellFormed ys) :
    WellFormed (xs ++ ys) := by
  obtain ⟨cs, rfl⟩ := hx
  obtain ⟨ds, rfl⟩ := hy
  exact ⟨cs ++ ds, (List.flatMap_append ..).symm⟩

theorem WellFormed.single {b : UInt8} (hb : b.toNat < 128) : WellFormed [b] := by
  have hall : ∀ n : Fin 128, encodeChar (Char.ofNat n) = [UInt8.ofNat n] := by decide +kernel
  refine ⟨[Char.ofNat b.toNat], ?_⟩
  rw [List.flatMap_singleton, hall ⟨b.toNat, hb⟩, UInt8.ofNat_toNat]

theorem WellFormed.cons {b : UInt8} {bytes : List UInt8} (hb : b.toNat < 128)
    (h : WellFormed bytes) : WellFormed (b :: bytes) :=
  (WellFormed.single hb).append h

/-- A byte below 128 is a character on its own. -/
theorem encodeChar_eq_of_mem {c : Char} {b : UInt8} (h : b ∈ encodeChar c) (hb : b.toNat < 128) :
    encodeChar c = [b] := by
  have hvalid : c.toNat < 0xd800 ∨ 0xdfff < c.toNat ∧ c.toNat < 0x110000 := c.valid
  have hhigh : ∀ m, 128 ≤ m → m < 256 → b ≠ UInt8.ofNat m := by
    rintro m hm hlt rfl
    rw [UInt8.toNat_ofNat', Nat.mod_eq_of_lt hlt] at hb
    omega
  unfold encodeChar at h ⊢
  dsimp only at h ⊢
  split at h
  · rename_i hone
    rw [if_pos hone, List.mem_singleton.1 h]
  · split at h
    · simp only [List.mem_cons, List.not_mem_nil, or_false] at h
      rcases h with h | h <;> exact (hhigh _ (by omega) (by omega) h).elim
    · split at h
      · simp only [List.mem_cons, List.not_mem_nil, or_false] at h
        rcases h with h | h | h <;> exact (hhigh _ (by omega) (by omega) h).elim
      · simp only [List.mem_cons, List.not_mem_nil, or_false] at h
        rcases h with h | h | h | h <;> exact (hhigh _ (by omega) (by omega) h).elim

/-- Well-formed bytes can be cut around a byte below 128. -/
theorem WellFormed.split {xs ys : List UInt8} {b : UInt8} (h : WellFormed (xs ++ b :: ys))
    (hb : b.toNat < 128) : WellFormed xs ∧ WellFormed ys := by
  obtain ⟨cs, h⟩ := h
  induction cs generalizing xs with
  | nil => exact absurd h (by simp)
  | cons c cs ih =>
      rw [List.flatMap_cons, List.append_eq_append_iff] at h
      rcases h with ⟨more, hchar, hrest⟩ | ⟨more, hxs, hrest⟩
      · cases more with
        | nil =>
            rw [List.append_nil] at hchar
            obtain ⟨-, hys⟩ := ih (show [] ++ b :: ys = cs.flatMap encodeChar from hrest)
            exact ⟨⟨[c], by rw [List.flatMap_singleton, hchar]⟩, hys⟩
        | cons d more =>
            injection hrest with hd hrest
            subst hd
            have hone := encodeChar_eq_of_mem (c := c) (b := b) (by rw [hchar]; simp) hb
            rw [hchar] at hone
            cases xs with
            | nil =>
                injection hone with _ hmore
                exact ⟨.nil, cs, by rw [hrest, hmore]; rfl⟩
            | cons x xs =>
                injection hone with _ hone
                exact absurd hone (by simp)
      · obtain ⟨hmore, hys⟩ := ih hrest.symm
        refine ⟨?_, hys⟩
        rw [hxs]
        exact .append ⟨[c], (List.flatMap_singleton ..).symm⟩ hmore

/-! ### Decoding -/

theorem lead?_spec {m : Nat} (hm : m < 256) :
    (0xc2 ≤ m ∧ m ≤ 0xdf → lead? (UInt8.ofNat m) = some (1, 0x80, 0xbf)) ∧
    (0xe1 ≤ m ∧ m ≤ 0xec ∨ 0xee ≤ m ∧ m ≤ 0xef → lead? (UInt8.ofNat m) = some (2, 0x80, 0xbf)) ∧
    (0xf1 ≤ m ∧ m ≤ 0xf3 → lead? (UInt8.ofNat m) = some (3, 0x80, 0xbf)) := by
  have hall : ∀ n : Fin 256,
      (0xc2 ≤ n.1 ∧ n.1 ≤ 0xdf → lead? (UInt8.ofNat n) = some (1, 0x80, 0xbf)) ∧
      (0xe1 ≤ n.1 ∧ n.1 ≤ 0xec ∨ 0xee ≤ n.1 ∧ n.1 ≤ 0xef →
        lead? (UInt8.ofNat n) = some (2, 0x80, 0xbf)) ∧
      (0xf1 ≤ n.1 ∧ n.1 ≤ 0xf3 → lead? (UInt8.ofNat n) = some (3, 0x80, 0xbf)) := by
    decide +kernel
  exact hall ⟨m, hm⟩

theorem continuation_byte {low high : UInt8} {m : Nat} (hlow : low.toNat ≤ m) (hhigh : m ≤ high.toNat)
    (count n : Nat) (rest : List UInt8) :
    continuation (count + 1) low high n (UInt8.ofNat m :: rest) =
      continuation count 0x80 0xbf (n * 64 + m % 64) rest := by
  have hm : (UInt8.ofNat m).toNat = m := by
    have := high.toNat_lt
    rw [UInt8.toNat_ofNat', Nat.mod_eq_of_lt (by omega)]
  rw [continuation, hm]
  simp only [UInt8.le_iff_toNat_le, hm, hlow, hhigh, decide_true, Bool.and_self, if_true]

/-- After a lead byte the bits of a character come six to a byte, the highest ones first. -/
theorem decode_lead {b low high : UInt8} {count : Nat} (hb : 128 ≤ b.toNat)
    (hlead : lead? b = some (count, low, high)) {rest left : List UInt8} {c : Char}
    (hread : continuation count low high (leadBits count b) rest = (some c, left)) :
    decode (b :: rest) = some c :: decode left := by
  rw [decode, if_neg (by rw [UInt8.lt_iff_toNat_lt]; exact Nat.not_lt.2 hb), hlead]
  dsimp only
  rw [hread]

/-- The lead byte of a character of three bytes, and the range of the byte after it. -/
theorem lead?_three {n : Nat} (hlow : 2048 ≤ n) (hhigh : n < 65536)
    (hvalid : n < 0xd800 ∨ 0xdfff < n) :
    ∃ low high : UInt8, lead? (UInt8.ofNat (224 + n / 4096)) = some (2, low, high) ∧
      low.toNat ≤ 128 + n / 64 % 64 ∧ 128 + n / 64 % 64 ≤ high.toNat := by
  by_cases hfirst : n / 4096 = 0
  · rw [hfirst]
    exact ⟨0xa0, 0xbf, rfl, show 160 ≤ _ by omega, show _ ≤ 191 by omega⟩
  · by_cases hsurrogate : n / 4096 = 13
    · rw [hsurrogate]
      exact ⟨0x80, 0x9f, rfl, show 128 ≤ _ by omega, show _ ≤ 159 by omega⟩
    · exact ⟨0x80, 0xbf, (lead?_spec (by omega)).2.1 (by omega), show 128 ≤ _ by omega,
        show _ ≤ 191 by omega⟩

/-- The lead byte of a character of four bytes, and the range of the byte after it. -/
theorem lead?_four {n : Nat} (hlow : 65536 ≤ n) (hhigh : n < 0x110000) :
    ∃ low high : UInt8, lead? (UInt8.ofNat (240 + n / 262144)) = some (3, low, high) ∧
      low.toNat ≤ 128 + n / 4096 % 64 ∧ 128 + n / 4096 % 64 ≤ high.toNat := by
  by_cases hfirst : n / 262144 = 0
  · rw [hfirst]
    exact ⟨0x90, 0xbf, rfl, show 144 ≤ _ by omega, show _ ≤ 191 by omega⟩
  · by_cases hlast : n / 262144 = 4
    · rw [hlast]
      exact ⟨0x80, 0x8f, rfl, show 128 ≤ _ by omega, show _ ≤ 143 by omega⟩
    · exact ⟨0x80, 0xbf, (lead?_spec (by omega)).2.2 (by omega), show 128 ≤ _ by omega,
        show _ ≤ 191 by omega⟩

/-- A character is read back from its bytes. -/
theorem decode_encodeChar (c : Char) (rest : List UInt8) :
    decode (encodeChar c ++ rest) = some c :: decode rest := by
  have hvalid : c.toNat < 0xd800 ∨ 0xdfff < c.toNat ∧ c.toNat < 0x110000 := c.valid
  have hchar := Char.ofNat_toNat c
  have hnat : ∀ m, m < 256 → (UInt8.ofNat m).toNat = m := by
    intro m hm
    rw [UInt8.toNat_ofNat', Nat.mod_eq_of_lt hm]
  -- The bytes after the first two are in the full range.
  have hmore : ∀ k count n rest, continuation (count + 1) 0x80 0xbf n
      (UInt8.ofNat (128 + k % 64) :: rest) =
        continuation count 0x80 0xbf (n * 64 + (128 + k % 64) % 64) rest := by
    intro k count n rest
    exact continuation_byte (show 128 ≤ _ by omega) (show _ ≤ 191 by omega) count n rest
  unfold encodeChar
  dsimp only
  generalize c.toNat = n at hvalid hchar
  split
  · rename_i hone
    rw [List.singleton_append, decode,
      if_pos (by rw [UInt8.lt_iff_toNat_lt, hnat n (by omega)]; exact hone), hnat n (by omega), hchar]
  · split
    · simp only [List.cons_append, List.nil_append]
      refine decode_lead ?_ ((lead?_spec (by omega)).1 (by omega)) ?_
      · rw [hnat _ (by omega)]
        omega
      · rw [hmore, continuation, leadBits, Nat.one_shiftLeft, hnat _ (by omega), ← hchar]
        congr 3
        omega
    · split
      · obtain ⟨low, high, hlead, hlow, hhigh⟩ :=
          lead?_three (n := n) (by omega) (by omega) (by omega)
        simp only [List.cons_append, List.nil_append]
        refine decode_lead ?_ hlead ?_
        · rw [hnat _ (by omega)]
          omega
        · rw [continuation_byte hlow hhigh, hmore, continuation, leadBits, Nat.one_shiftLeft,
            hnat _ (by omega), ← hchar]
          congr 3
          omega
      · obtain ⟨low, high, hlead, hlow, hhigh⟩ := lead?_four (n := n) (by omega) (by omega)
        simp only [List.cons_append, List.nil_append]
        refine decode_lead ?_ hlead ?_
        · rw [hnat _ (by omega)]
          omega
        · rw [continuation_byte hlow hhigh, hmore, hmore, continuation, leadBits,
            Nat.one_shiftLeft, hnat _ (by omega), ← hchar]
          congr 3
          omega

theorem decode_flatMap (chars : List Char) :
    decode (chars.flatMap encodeChar) = chars.map some := by
  induction chars with
  | nil => rw [List.flatMap_nil, decode]; rfl
  | cons c chars ih => rw [List.flatMap_cons, decode_encodeChar, ih, List.map_cons]

/-- The text of well-formed bytes has just these bytes: nothing in them is replaced. -/
theorem encode_decodeLossy {bytes : List UInt8} (h : WellFormed bytes) :
    encode (decodeLossy bytes) = bytes := by
  obtain ⟨chars, rfl⟩ := h
  rw [decodeLossy, decode_flatMap, List.map_map]
  simp [encode, Function.comp_def]

end FlatLisp.Text.Utf8
