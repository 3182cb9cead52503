/-
Module: FlatLisp.Proofs.Guard.Placement
Purpose: Positions over a whole guarded session. A read that fails forgets what was given back, and the
  position keeps pointing before those bytes. But for them, and until 2 ^ 32 bytes have been consumed,
  the position says how many were, and a rejection says where the byte is that shows it.
Main exports: Reading.forgotten, Guard.Driven, Guard.driven_placed
-/
import FlatLisp.Guard
import FlatLisp.Proofs.Reading.Tally

namespace FlatLisp

/-- How many bytes the next read gives back and then forgets, since it fails. -/
def Reading.forgotten (s : Reading) : Nat :=
  match Reading.read s with
  | .ok _ _ => 0
  | .error _ t => t.reader.pushback.length

namespace Guard

open Reading

/-- A new reader is driven by a guard over the bytes `whole`, however they arrive. The reads that
failed have forgotten `lost` of them. -/
inductive Driven (whole : List UInt8) : Guard → Reading → (lost : Nat) → Prop where
  | start (g : Guard) (a : Arena) (depth : Nat) (source : Source) (hsource : source.bytes = whole) :
      Driven whole g ⟨Reader.ofDepth depth, source, a⟩ 0
  | read {g : Guard} {s : Reading} {lost : Nat} (h : Driven whole g s lost) :
      Driven whole (g.read s).2.1 (g.read s).2.2 (lost + s.forgotten)
  | release {g : Guard} {s : Reading} {lost : Nat} (h : Driven whole g s lost) :
      Driven whole g ⟨s.reader, s.source, after (g.release s.arena)⟩ lost
  | keep {g : Guard} {s : Reading} {lost : Nat} (h : Driven whole g s lost) :
      Driven whole (g.keep s.arena) s lost

section Driven

variable {whole : List UInt8} {g : Guard} {s : Reading} {lost : Nat}

/-- Recovering resets the reader, and takes nothing from the source. -/
theorem recover_reader (g : Guard) (e : ReadError) (s : Reading) :
    ∃ a, (g.recover e s).2.2 = ⟨s.reader.reset, s.source, a⟩ := by
  obtain ⟨r, source, a⟩ := s
  rw [recover]
  cases Arena.restore g.checkpoint a with
  | error stale a' => exact ⟨a', rfl⟩
  | ok _ a' => cases e <;> exact ⟨a', rfl⟩

/-- Only rejected input is reported as rejected. -/
theorem eq_rejected_of_recover {e : ReadError} {why : Rejection}
    (h : (g.recover e s).1 = .rejected why) : e = .rejected why := by
  obtain ⟨r, source, a⟩ := s
  rw [recover] at h
  cases hrestore : Arena.restore g.checkpoint a with
  | error stale a' =>
      rw [hrestore] at h
      cases h
  | ok _ a' =>
      rw [hrestore] at h
      cases e with
      | rejected found =>
          injection h with hfound
          rw [hfound]
      | fault why => cases h

/-- All bytes taken off the source are counted, are held to be read again, or are lost. -/
theorem taken_of_counted (h : Counted whole lost [] s) :
    ∃ taken, whole = taken ++ s.source.bytes ∧
      .ofNat taken.length = s.reader.count + .ofNat (lost + s.reader.pushback.length) ∧
      lost + s.reader.pushback.length ≤ taken.length := by
  obtain ⟨before, hwhole, hcount, hlost⟩ := h
  have hahead : s.ahead.bytes = s.reader.pushback ++ s.source.bytes :=
    bytes_ofBytes_append s.reader.pushback s.source
  rw [List.append_nil] at hwhole hcount
  refine ⟨before ++ s.reader.pushback, ?_, ?_, ?_⟩
  · rw [hwhole, hahead, List.append_assoc]
  · rw [List.length_append, UInt32.ofNat_add, hcount, UInt32.ofNat_add, UInt32.add_assoc]
  · rw [List.length_append]
    omega

/-- Until 2 ^ 32 bytes have been consumed the position says how many they are, but for those held or
lost. -/
theorem position_of_counted (h : Counted whole lost [] s) (hshort : whole.length < UInt32.size) :
    ∃ taken, whole = taken ++ s.source.bytes ∧
      s.reader.position + s.reader.pushback.length + lost = taken.length := by
  obtain ⟨taken, rfl, hcount, hlost⟩ := taken_of_counted h
  rw [List.length_append] at hshort
  have hposition := Reader.position_eq hlost hcount (by omega)
  exact ⟨taken, rfl, by omega⟩

/-- What was given back had been taken off the count, and is lost. -/
theorem counted_reset (h : Counted whole lost [] s) (a : Arena) :
    Counted whole (lost + s.reader.pushback.length) [] ⟨s.reader.reset, s.source, a⟩ := by
  obtain ⟨taken, hwhole, hcount, hlost⟩ := taken_of_counted h
  exact ⟨taken, by rwa [List.append_nil], by rwa [List.append_nil], hlost⟩

/-- A guarded read accounts for all bytes, those that it forgets included. -/
theorem counted_read (g : Guard) (h : Counted whole lost [] s) :
    Counted whole (lost + s.forgotten) [] (g.read s).2.2 := by
  have hread := counts_read s h
  rw [CountsAt] at hread
  rw [Guard.read, forgotten]
  cases hresult : Reading.read s with
  | ok status t =>
      rw [hresult] at hread
      cases status <;> exact hread
  | error e t =>
      rw [hresult] at hread
      obtain ⟨a, ha⟩ := recover_reader g e t
      dsimp only
      rw [ha]
      exact counted_reset hread.1 a

/-- Where a guarded read rejects a byte, that byte is in the input at the position, `lost` bytes not
being counted. -/
theorem placed_read (g : Guard) (h : Counted whole lost [] s) {why : Rejection}
    (hrejected : (g.read s).1 = .rejected why) : (ReadError.rejected why).Placed whole lost := by
  have hread := counts_read s h
  rw [CountsAt] at hread
  rw [Guard.read] at hrejected
  cases hresult : Reading.read s with
  | ok status t =>
      rw [hresult] at hrejected
      cases status <;> cases hrejected
  | error e t =>
      rw [hresult] at hrejected hread
      rw [← eq_rejected_of_recover hrejected]
      exact hread.2

/-- Wherever the session gets to, all bytes are accounted for. -/
theorem Driven.counted (h : Driven whole g s lost) : Counted whole lost [] s := by
  induction h with
  | start g a depth source hsource => exact ⟨[], hsource.symm, rfl, Nat.zero_le _⟩
  | read _ ih => exact counted_read _ ih
  | release _ ih => exact ih.of_same rfl rfl
  | keep _ ih => exact ih

/-- Wherever a session over fewer than 2 ^ 32 bytes gets to: the position and the bytes held to be read
again are all that was taken off the source, but for the bytes that failing reads have forgotten; and a
byte that is rejected is in the input as many bytes behind the position that is reported. -/
theorem driven_placed (h : Driven whole g s lost) (hshort : whole.length < UInt32.size) :
    (∃ taken, whole = taken ++ s.source.bytes ∧
      s.reader.position + s.reader.pushback.length + lost = taken.length) ∧
    ∀ why, (g.read s).1 = .rejected why →
      ∀ b ∈ why.found, whole[why.position + lost]? = some b :=
  ⟨position_of_counted h.counted hshort,
    fun _ hrejected => placed_read g h.counted hrejected hshort⟩

/-- There is no room for an integer, which is forgotten, and after it comes a parenthesis. -/
theorem driven_crowded : ∃ a g s, Arena.create 64 = .ok a ∧ Driven [55, 41] g s 1 ∧
    s.source.bytes = [41] ∧ s.reader.position = 0 ∧ s.reader.pushback = [] ∧
    (g.read s).1 = .rejected ⟨.spuriousClose, 0, some 41⟩ := by
  obtain ⟨a, hcreate⟩ : ∃ a, Arena.create 64 = .ok a := ⟨_, rfl⟩
  let full := after (Arena.alloc .forward 60 a)
  let first : Reading := ⟨Reader.ofDepth 4, .ofBytes [55, 41], full⟩
  have hdriven := Driven.read (.start (establish full) full 4 (.ofBytes [55, 41]) rfl)
  have hforgotten : 0 + first.forgotten = 1 := by
    cases hcreate
    decide +kernel
  rw [hforgotten] at hdriven
  refine ⟨a, _, _, hcreate, hdriven, ?_⟩
  cases hcreate
  decide +kernel

/-- The parenthesis that is rejected stands behind the position that is reported, where the integer
was. -/
theorem driven_placed_behind : ∃ a g s, Arena.create 64 = .ok a ∧ Driven [55, 41] g s 1 ∧
    (g.read s).1 = .rejected ⟨.spuriousClose, 0, some 41⟩ ∧
    ([55, 41] : List UInt8)[0 + 1]? = some 41 := by
  obtain ⟨a, g, s, hcreate, hdriven, -, -, -, hrejected⟩ := driven_crowded
  exact ⟨a, g, s, hcreate, hdriven, hrejected, (driven_placed hdriven (by decide)).2 _ hrejected 41 rfl⟩

/-- The position does not always say how many bytes were taken and are not held, nor does a rejection
always say where the byte is. -/
theorem driven_misplaced :
    (¬ ∀ whole g s lost, Driven whole g s lost → ∃ taken, whole = taken ++ s.source.bytes ∧
      s.reader.position + s.reader.pushback.length = taken.length) ∧
    ¬ ∀ whole g s lost, Driven whole g s lost → ∀ why, (g.read s).1 = .rejected why →
      ∀ b ∈ why.found, whole[why.position]? = some b := by
  obtain ⟨a, g, s, -, hdriven, hsource, hposition, hpushback, hrejected⟩ := driven_crowded
  refine ⟨fun hcounted => ?_, fun hplaced => ?_⟩
  · obtain ⟨taken, hwhole, hlength⟩ := hcounted _ g s 1 hdriven
    rw [hposition, hpushback] at hlength
    have hnone : taken = [] := List.eq_nil_of_length_eq_zero hlength.symm
    rw [hnone, hsource] at hwhole
    cases hwhole
  · have hfound := hplaced _ g s 1 hdriven _ hrejected 41 rfl
    cases hfound

end Driven

end Guard

end FlatLisp
