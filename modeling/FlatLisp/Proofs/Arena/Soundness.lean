/-
Module: FlatLisp.Proofs.Arena.Soundness
Purpose: What is always true of an arena, whatever was asked of it: where its cursors are, that both
  chains of marks end and lie in their regions one record behind the other, what is set aside under a
  lock, and that nothing that can be asked next goes out of bounds.
Main exports: Arena.ChainOf, Arena.Intact, Arena.Orderly.intact, Arena.trace_intact
-/
import FlatLisp.Proofs.Arena.Strict
import FlatLisp.Proofs.Arena.Trace

namespace FlatLisp

namespace Arena

/-- Of two records of one cursor, the newer one is past the older one. -/
def Past : Direction → (newer older : Nat) → Prop
  | .forward, newer, older => older + markLength ≤ newer
  | .backward, newer, older => newer + markLength ≤ older

/-- The records of the marks on one cursor, the most recent first. -/
structure ChainOf (a : Arena) (d : Direction) (records : List Nat) : Prop where
  /-- Following the chain meets them and then ends, however long it may be followed. -/
  ends : ∀ fuel, records.length < fuel → a.trailFrom fuel (a.lastMark d) = records ++ [0]
  length : records.length ≤ a.capacity
  ordered : records.Pairwise (Past d)
  inside : ∀ record ∈ records, InRegion a.capacity d (a.cursor d) record
  /-- Each says that the cursor stood where the record begins, as the cursor moves. -/
  saved : ∀ record ∈ records, ∃ before, a.readRecord record = .ok (cursorBefore d record, before)

/-- What is always true of an arena. -/
structure Intact (a : Arena) : Prop where
  header : headerLength ≤ a.forward
  cursors : a.forward ≤ a.backward
  backward : a.backward ≤ a.capacity
  chains : ∀ d, ∃ records, ChainOf a d records
  reserved : ∀ hold n, a.hold = some hold → hold.reserved = some n → hold.start + n = a.forward
  anchored : ∀ hold, a.hold = some hold → ∀ record ∈ a.trail .forward, record ≠ 0 →
    record + markLength ≤ hold.start
  /-- No request goes out of bounds, whether it is granted or not. -/
  act : ∀ r, Strict.act a r = some (r.act a)
  restore : ∀ c, Strict.restore c a = some (Arena.restore c a)
  unwind : ∀ record, record ≠ 0 → Strict.unwind record a = some (Arena.unwind record a)
  reading : ∀ {α : Type} offset count (answer : Except ArenaError α),
    Strict.reading a offset count answer = some answer
  stats : Strict.stats a = some a.stats

section Intact

variable {a : Arena} {S : Stacks} {L : Ledger} {m : Bytes} {d : Direction} {bound : Nat}
  {marks : List Outstanding}

theorem Chained.ordered (h : Chained m d bound marks) :
    (marks.map (·.record)).Pairwise (Past d) := by
  induction marks generalizing bound with
  | nil => exact .nil
  | cons e rest ih =>
      rw [List.map_cons, List.pairwise_cons]
      refine ⟨fun record hrecord => ?_, ih h.tail⟩
      obtain ⟨older, holder, rfl⟩ := List.mem_map.1 hrecord
      have hregion := h.tail.inRegion holder
      rw [h.2.1] at hregion
      cases d with
      | forward => exact hregion.2
      | backward => exact hregion.1

theorem Disciplined.chainOf (h : Disciplined a S) (d : Direction) :
    ChainOf a d ((S.of d).map (·.record)) where
  ends := by
    intro fuel hfuel
    rw [List.length_map] at hfuel
    rw [h.last]
    exact h.trailFrom_eq (.refl _ _) (h.chained d) hfuel
  length := by
    rw [List.length_map]
    exact (h.chained d).length_le (h.settled_le d)
  ordered := (h.chained d).ordered
  inside := by
    intro record hrecord
    obtain ⟨e, he, rfl⟩ := List.mem_map.1 hrecord
    have hregion := (h.chained d).inRegion he
    cases d with
    | forward => exact hregion.grown h.settled
    | backward => exact hregion
  saved := by
    intro record hrecord
    obtain ⟨e, he, rfl⟩ := List.mem_map.1 hrecord
    obtain ⟨newer, older, hsplit⟩ := List.append_of_mem he
    have hchained := h.chained d
    rw [hsplit] at hchained
    have hbelow := hchained.of_append
    obtain ⟨-, hread⟩ := h.readRecord_ok (.refl _ _) hbelow
    rw [hbelow.2.1] at hread
    exact ⟨_, hread⟩

/-- Where marks and locks are in order nothing can go wrong. -/
theorem Orderly.intact (h : Orderly a S L) : a.Intact where
  header := Nat.le_trans h.header h.settled
  cursors := h.cursors
  backward := h.backward
  chains d := ⟨_, h.chainOf d⟩
  reserved hold n hhold hsome := (h.reserved hold n hhold hsome).symm
  anchored := by
    intro hold hhold record hrecord hzero
    rw [h.trail_eq, List.mem_append, List.mem_singleton] at hrecord
    obtain ⟨e, he, rfl⟩ := List.mem_map.1 (hrecord.resolve_right hzero)
    exact (h.anchored hold hhold).below e he
  act := Strict.act_eq h.toDisciplined
  restore := Strict.restore_eq h.toDisciplined
  unwind _ := Strict.unwind_eq h.toDisciplined
  reading := Strict.reading_eq h.toDisciplined
  stats := Strict.stats_eq h.toDisciplined

/-- Whatever is asked of a fresh arena, in whatever order, and however often it is rolled back, it stays
intact while nobody writes over the record of a mark on a chain. -/
theorem trace_intact {size : Nat} {fresh : Arena} (hcreate : create size = .ok fresh)
    (trace : Trace Careful fresh {} a L) : a.Intact := by
  obtain ⟨S, h⟩ := trace.orderly ⟨{}, orderly_create hcreate⟩
  exact h.intact

/-- A mark, a checkpoint, bytes set aside under a lock, and a borrowing that fails after a mark of its
own; then all of it is rolled back to the checkpoint. -/
theorem trace_intact_rollback : ∃ fresh a L, create 64 = .ok fresh ∧
    Trace Careful fresh {} a L ∧ a.forward = 6 ∧ a.backward = 64 ∧ a.hold = none ∧ a.Intact := by
  obtain ⟨fresh, hcreate⟩ : ∃ fresh, create 64 = .ok fresh := ⟨_, rfl⟩
  obtain ⟨a, L, trace, hforward, hbackward, hhold⟩ : ∃ a L, Trace Careful fresh {} a L ∧
      a.forward = 6 ∧ a.backward = 64 ∧ a.hold = none := by
    have hfresh : Trace Careful fresh {} fresh {} := .refl _ _
    have hmarked := (hfresh.ask (.mark .forward) trivial).checkpoint
    have hlocked := (hmarked.ask .lock trivial).ask (.reserve ⟨1⟩ 5) trivial
    cases hcreate
    have hscope := hlocked.scope within_id (mark_backward_ok (by decide))
      (mark .backward *> throw .markMismatch : ArenaM Unit) rfl
      (.ask (.refl _ _) (.mark .backward) trivial)
    have hback := hscope.restore (.head _)
    exact ⟨_, _, hback, rfl, rfl, rfl⟩
  exact ⟨fresh, a, L, hcreate, trace, hforward, hbackward, hhold, trace_intact hcreate trace⟩

end Intact

end Arena

end FlatLisp
