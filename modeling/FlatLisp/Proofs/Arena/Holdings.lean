/-
Module: FlatLisp.Proofs.Arena.Holdings
Purpose: Bytes that were handed out by an arena belong to whoever got them, until their cursor moves
  back past them. They overlap neither each other nor the header nor the record of a mark, they are
  live, and only what is written there changes them.
Main exports: Span.Apart, Arena.Kept, Arena.Keeps, Arena.Keeps.asked, Arena.Trace.keeps,
  Arena.trace_kept
-/
import FlatLisp.Proofs.Arena.Trace

namespace FlatLisp

/-- The spans have no byte in common. -/
def Span.Apart (s t : Span) : Prop := s.stop ≤ t.offset ∨ t.stop ≤ s.offset

instance (s t : Span) : Decidable (s.Apart t) := inferInstanceAs (Decidable (_ ∨ _))

theorem Span.Apart.symm {s t : Span} (h : s.Apart t) : t.Apart s := Or.symm h

namespace Arena

/-- The bytes of a mark's record. -/
def recordSpan (record : Nat) : Span := ⟨record, markLength⟩

/-- Whoever was handed bytes has them to himself, and finds in them what he wrote. -/
structure Kept (a : Arena) (L : Ledger) : Prop where
  apart : L.holdings.Pairwise fun h h' => h.span.Apart h'.span
  header : ∀ h ∈ L.holdings, headerLength ≤ h.span.offset
  later : ∀ h ∈ L.holdings, ∀ record ∈ h.marks, h.span.Apart (recordSpan record)
  chained : ∀ h ∈ L.holdings, ∀ d, ∀ record ∈ a.trail d, record ≠ 0 →
    h.span.Apart (recordSpan record)
  bytes : ∀ h ∈ L.holdings, a.bytes h.span.offset h.span.length = .ok h.bytes

/-! ### Where holdings are -/

/-- The span lies between what is settled and the backward region. -/
structure Gap (a : Arena) (s : Span) : Prop where
  low : a.settled .forward ≤ s.offset
  high : s.stop ≤ a.backward

/-- The holding lies in the settled part of its region. -/
def Holding.Inside (h : Holding) (a : Arena) : Prop :=
  match h.direction with
  | .forward => headerLength ≤ h.span.offset ∧ h.span.stop ≤ a.settled .forward
  | .backward => a.backward ≤ h.span.offset ∧ h.span.stop ≤ a.capacity

/-- The holdings of an arena, as far as it matters for what is asked next. -/
structure Keeps (a : Arena) (hs : List Holding) : Prop where
  inside : ∀ h ∈ hs, h.Inside a
  held : ∀ h ∈ hs, a.memory.Holds h.span.offset h.bytes
  length : ∀ h ∈ hs, h.bytes.length = h.span.length
  apart : hs.Pairwise fun h h' => h.span.Apart h'.span
  later : ∀ h ∈ hs, ∀ record ∈ h.marks, h.span.Apart (recordSpan record)
  chained : ∀ h ∈ hs, ∀ d, ∀ record ∈ a.trail d, record ≠ 0 → h.span.Apart (recordSpan record)

section Keeps

variable {a a' : Arena} {S S' : Stacks} {L L' : Ledger} {h g : Holding} {hs : List Holding}
  {s : Span} {record : Nat}

theorem keeps_nil : Keeps a [] where
  inside _ hmem := nomatch hmem
  held _ hmem := nomatch hmem
  length _ hmem := nomatch hmem
  apart := .nil
  later _ hmem := nomatch hmem
  chained _ hmem := nomatch hmem

/-- What is between the regions is not handed out. -/
theorem Holding.Inside.apart_gap (h' : h.Inside a) (hgap : Gap a s) : h.span.Apart s := by
  rw [Inside] at h'
  split at h'
  · exact .inl (Nat.le_trans h'.2 hgap.low)
  · exact .inr (Nat.le_trans hgap.high h'.1)

/-- Records on a chain are apart from what is between the regions. -/
theorem Disciplined.apart_chain (hd : Disciplined a S) (hgap : Gap a s) {d : Direction}
    (hrecord : record ∈ a.trail d) (hzero : record ≠ 0) : s.Apart (recordSpan record) := by
  rw [hd.trail_eq, List.mem_append, List.mem_singleton] at hrecord
  obtain ⟨e, he, rfl⟩ := List.mem_map.1 (hrecord.resolve_right hzero)
  have hregion := (hd.chained d).inRegion he
  cases d with
  | forward => exact .inr (Nat.le_trans hregion.2 hgap.low)
  | backward => exact .inl (Nat.le_trans hgap.high hregion.1)

/-- Whoever has bytes in a settled region finds them. -/
theorem Keeps.kept (h : Keeps a L.holdings) (hd : Disciplined a S) : Kept a L where
  apart := h.apart
  header := by
    intro x hx
    have hheader := hd.header
    have hsettled := hd.settled
    have hcursors := hd.cursors
    have hinside := h.inside x hx
    rw [Holding.Inside] at hinside
    split at hinside
    · exact hinside.1
    · omega
  later := h.later
  chained := h.chained
  bytes := by
    intro x hx
    have hinside := h.inside x hx
    have hlive : a.Live x.span.offset x.bytes.length := by
      rw [h.length x hx]
      rw [Holding.Inside] at hinside
      split at hinside
      · exact live_of_below hinside.1 (Nat.le_trans hinside.2 hd.settled)
      · exact live_of_above hinside.1 hinside.2
    rw [← h.length x hx]
    exact bytes_ok hlive (h.held x hx)

/-! ### What keeps holdings -/

/-- Where only bytes between the regions have changed, those keep their bytes whose cursor has not moved
back past any of them. -/
theorem Keeps.moved (h : Keeps a hs) (hmoves : Moves a a')
    (hmarks : ∀ d, ∀ record ∈ a'.trail d, record ≠ 0 →
      record ∈ a.trail d ∨ Gap a (recordSpan record)) :
    Keeps a' (hs.filter (·.Survives a')) where
  inside := by
    intro x hx
    obtain ⟨hmem, hsurvives⟩ := List.mem_filter.1 hx
    have hinside := h.inside x hmem
    rw [decide_eq_true_eq, Holding.Survives] at hsurvives
    rw [Holding.Inside] at hinside ⊢
    cases hdirection : x.direction with
    | forward =>
        rw [hdirection] at hinside hsurvives
        rcases hmoves.settled with hsettled | hsettled
        · exact ⟨hinside.1, hsettled ▸ hsurvives⟩
        · exact ⟨hinside.1, Nat.le_trans hinside.2 hsettled⟩
    | backward =>
        rw [hdirection] at hinside hsurvives
        exact ⟨hsurvives, Nat.le_trans hinside.2 (Nat.le_of_eq hmoves.size.symm)⟩
  held := by
    intro x hx
    have hmem := (List.mem_filter.1 hx).1
    have hheld := h.held x hmem
    have hinside := h.inside x hmem
    have hstop : x.span.offset + x.bytes.length = x.span.stop := by rw [h.length x hmem]; rfl
    rw [Holding.Inside] at hinside
    split at hinside
    · exact hheld.of_sameOn hmoves.size hmoves.below (Nat.zero_le _) (hstop ▸ hinside.2)
    · exact hheld.of_sameOn hmoves.size hmoves.above hinside.1 (hstop ▸ hinside.2)
  length x hx := h.length x (List.mem_filter.1 hx).1
  apart := h.apart.filter _
  later x hx := h.later x (List.mem_filter.1 hx).1
  chained := by
    intro x hx d record hrecord hzero
    have hmem := (List.mem_filter.1 hx).1
    rcases hmarks d record hrecord hzero with hold | hgap
    · exact h.chained x hmem d record hold hzero
    · exact (h.inside x hmem).apart_gap hgap

/-- A mark is noted whose record is between the regions. -/
theorem Keeps.outlasted (h : Keeps a hs) (hgap : Gap a (recordSpan record)) :
    Keeps a (hs.map fun x => { x with marks := record :: x.marks }) where
  inside := List.forall_mem_map.2 fun x hx => h.inside x hx
  held := List.forall_mem_map.2 fun x hx => h.held x hx
  length := List.forall_mem_map.2 fun x hx => h.length x hx
  apart := List.pairwise_map.2 h.apart
  later := List.forall_mem_map.2 fun x hx record' hrecord => by
    rcases List.mem_cons.1 hrecord with rfl | hrecord
    · exact (h.inside x hx).apart_gap hgap
    · exact h.later x hx record' hrecord
  chained := List.forall_mem_map.2 fun x hx => h.chained x hx

/-- More bytes are handed out, which are apart from all others. -/
theorem Keeps.cons (h : Keeps a hs) (hinside : g.Inside a)
    (hheld : a.memory.Holds g.span.offset g.bytes) (hlength : g.bytes.length = g.span.length)
    (hapart : ∀ x ∈ hs, g.span.Apart x.span) (hmarks : g.marks = [])
    (hchained : ∀ d, ∀ record ∈ a.trail d, record ≠ 0 → g.span.Apart (recordSpan record)) :
    Keeps a (g :: hs) where
  inside := List.forall_mem_cons.2 ⟨hinside, h.inside⟩
  held := List.forall_mem_cons.2 ⟨hheld, h.held⟩
  length := List.forall_mem_cons.2 ⟨hlength, h.length⟩
  apart := .cons hapart h.apart
  later := List.forall_mem_cons.2 ⟨fun record hrecord => by rw [hmarks] at hrecord; contradiction,
    h.later⟩
  chained := List.forall_mem_cons.2 ⟨hchained, h.chained⟩

/-- Bytes that are held are held still where nothing is written, and elsewhere what was written. -/
theorem holds_overwritten {m : Bytes} {start offset : Nat} {bytes new : List UInt8}
    (h : m.Holds start bytes) (hsize : offset + new.length ≤ m.size) :
    (m.write offset new).Holds start (bytes.mapIdx fun i b =>
      if offset ≤ start + i then new.getD (start + i - offset) b else b) := by
  refine ⟨by rw [List.length_mapIdx, Bytes.size_write]; exact h.1, fun i hi => ?_⟩
  rw [List.length_mapIdx] at hi
  rw [List.getElem_mapIdx]
  have hbyte := h.2 i hi
  by_cases hlow : offset ≤ start + i
  · rw [if_pos hlow]
    by_cases hhigh : start + i < offset + new.length
    · have hindex : start + i - offset < new.length := by omega
      have hnew := Bytes.get_write_self hsize (start + i - offset) hindex
      rw [Nat.add_sub_cancel' hlow] at hnew
      rw [hnew, List.getD_eq_getElem?_getD, List.getElem?_eq_getElem hindex, Option.getD_some]
    · rw [Bytes.get_write_of_ge (Nat.le_of_not_lt hhigh), hbyte, List.getD_eq_getElem?_getD,
        List.getElem?_eq_none (by omega), Option.getD_none]
  · rw [if_neg hlow, Bytes.get_write_of_lt (Nat.lt_of_not_le hlow), hbyte]

/-- Holdings stay where they are. -/
theorem Holding.span_noted (x : Holding) (a : Arena) (r : Request) :
    (x.noted a r).span = x.span := by
  have hmark : ∀ result, (x.outlasted result).span = x.span := by
    intro result
    cases result <;> rfl
  cases r with
  | mark d => exact hmark _
  | markDefault => exact hmark _
  | write offset bytes =>
      rw [noted]
      split <;> rfl
  | _ => rfl

/-- What its users write is found in the holdings that it covers. -/
theorem Keeps.written (h : Keeps a hs) {offset : Nat} {new : List UInt8}
    (hsize : offset + new.length ≤ a.memory.size)
    (htrail : ∀ d, ({ a with memory := a.memory.write offset new } : Arena).trail d = a.trail d) :
    Keeps { a with memory := a.memory.write offset new } (hs.map (·.overwritten offset new)) where
  inside := List.forall_mem_map.2 fun x hx => by
    have hinside := h.inside x hx
    rw [Holding.Inside] at hinside ⊢
    cases hdirection : x.direction with
    | forward =>
        rw [hdirection] at hinside
        simp only [Holding.overwritten, hdirection]
        exact hinside
    | backward =>
        rw [hdirection] at hinside
        simp only [Holding.overwritten, hdirection]
        exact ⟨hinside.1, Nat.le_trans hinside.2 (Nat.le_of_eq (Bytes.size_write ..).symm)⟩
  held := List.forall_mem_map.2 fun x hx => holds_overwritten (h.held x hx) hsize
  length := List.forall_mem_map.2 fun x hx => (List.length_mapIdx ..).trans (h.length x hx)
  apart := List.pairwise_map.2 h.apart
  later := List.forall_mem_map.2 fun x hx => h.later x hx
  chained := List.forall_mem_map.2 fun x hx d => by
    rw [htrail d]
    exact h.chained x hx d

/-! ### Requests -/

/-- The record of a new mark is between the regions. -/
theorem Disciplined.gap_newRecord (hd : Disciplined a S) {d : Direction}
    (hfree : markLength ≤ a.free) : Gap a (recordSpan (a.newRecord d)) := by
  have hsettled := hd.settled
  have hcursors := hd.cursors
  rw [free] at hfree
  cases d with
  | forward => exact ⟨hsettled, show a.forward + markLength ≤ a.backward by omega⟩
  | backward =>
      exact ⟨show _ ≤ a.backward - markLength by omega,
        show a.backward - markLength + markLength ≤ a.backward by omega⟩

/-- Whoever holds bytes notes a new mark, if there is one. -/
theorem Disciplined.noted_cases (hd : Disciplined a S) (r : Request)
    (hwrite : ∀ offset bytes, r ≠ .write offset bytes) :
    (∀ x : Holding, x.noted a r = x) ∨ ∃ record, Gap a (recordSpan record) ∧
      ∀ x : Holding, x.noted a r = { x with marks := record :: x.marks } := by
  have hmark : ∀ d, (∀ x : Holding, x.outlasted (mark d a) = x) ∨ ∃ record,
      Gap a (recordSpan record) ∧
      ∀ x : Holding, x.outlasted (mark d a) = { x with marks := record :: x.marks } := by
    intro d
    rcases mark_cases d a with ⟨e, hmark⟩ | ⟨-, hfree, hmark⟩
    · rw [hmark]
      exact .inl fun x => rfl
    · rw [hmark]
      exact .inr ⟨_, hd.gap_newRecord hfree, fun x => rfl⟩
  cases r with
  | mark d => exact hmark d
  | markDefault => exact hmark a.direction
  | write offset bytes => exact (hwrite offset bytes rfl).elim
  | _ => exact .inl fun x => rfl

/-- A mark on the stacks was there before, or its record is between the regions. -/
theorem Disciplined.track_cases (hd : Disciplined a S) (r : Request) (d : Direction) :
    ∀ e ∈ (r.track S a).of d, e ∈ S.of d ∨ Gap a (recordSpan e.record) := by
  intro e he
  rcases Request.mem_track he with he | ⟨-, hfree, hrecord⟩
  · exact .inl he
  · exact .inr (hrecord ▸ hd.gap_newRecord hfree)

/-- The records on a chain after stacks have changed were there before, or are between the regions. -/
theorem Disciplined.trail_cases (hd : Disciplined a S) (hd' : Disciplined a' S')
    (hmarks : ∀ d, ∀ e ∈ S'.of d, e ∈ S.of d ∨ Gap a (recordSpan e.record)) (d : Direction) :
    ∀ record ∈ a'.trail d, record ≠ 0 → record ∈ a.trail d ∨ Gap a (recordSpan record) := by
  intro record hrecord hzero
  rw [hd'.trail_eq, List.mem_append, List.mem_singleton] at hrecord
  obtain ⟨e, he, rfl⟩ := List.mem_map.1 (hrecord.resolve_right hzero)
  rcases hmarks d e he with he | hgap
  · rw [hd.trail_eq, List.mem_append]
    exact .inl (.inl (List.mem_map_of_mem he))
  · exact .inr hgap

/-- What a request hands out is between the regions before, and in its region after. -/
theorem Disciplined.granted_cases (hd : Disciplined a S) (r : Request) :
    r.granted a = [] ∨ ∃ g, r.granted a = [g] ∧ r.track S a = S ∧ Gap a g.span ∧
      g.Inside (r.act a) ∧ g.marks = [] ∧
      g.bytes = (r.act a).memory.slice g.span.offset g.span.length := by
  have hheader := hd.header
  have hsettled := hd.settled
  have hcursors := hd.cursors
  have halloc : ∀ d count, handedOut d (alloc d count a) = [] ∨ ∃ g,
      handedOut d (alloc d count a) = [g] ∧ Gap a g.span ∧ g.Inside (after (alloc d count a)) ∧
        g.marks = [] ∧
        g.bytes = (after (alloc d count a)).memory.slice g.span.offset g.span.length := by
    intro d count
    rcases alloc_cases d count a with ⟨e, halloc⟩ | ⟨hunlocked, hfree, halloc⟩
    · rw [halloc]
      exact .inl rfl
    · rw [free] at hfree
      rw [halloc]
      refine .inr ⟨_, rfl, ?_, ?_, rfl, rfl⟩
      · cases d with
        | forward => exact ⟨hsettled, show a.forward + count ≤ a.backward by omega⟩
        | backward =>
            exact ⟨show _ ≤ a.backward - count by omega,
              show a.backward - count + count ≤ a.backward by omega⟩
      · cases d with
        | forward =>
            have hclosed : Closed (a.allocated count .forward) := closed_of_none (hunlocked rfl)
            exact ⟨show headerLength ≤ a.forward by omega,
              Nat.le_of_eq (settled_of_closed hclosed).symm⟩
        | backward =>
            have hbackward := hd.backward
            exact ⟨Nat.le_refl _, show a.backward - count + count ≤ a.capacity by omega⟩
  cases r with
  | alloc d count =>
      rcases halloc d count with hnone | ⟨g, hsome, hgap, hrest⟩
      · exact .inl hnone
      · exact .inr ⟨g, hsome, rfl, hgap, hrest⟩
  | allocDefault count =>
      rcases halloc a.direction count with hnone | ⟨g, hsome, hgap, hrest⟩
      · exact .inl hnone
      · exact .inr ⟨g, hsome, rfl, hgap, hrest⟩
  | claim l count =>
      rw [Request.granted, Request.act]
      rcases claim_cases l count a with ⟨e, hclaim⟩ | ⟨hold, n, hhold, hreserved, hle, hclaim⟩
      · rw [hclaim]
        exact .inl rfl
      · have hstart := settled_of_open hhold hreserved
        have hforward := hd.reserved hold n hhold hreserved
        rw [hclaim]
        refine .inr ⟨_, rfl, rfl, ⟨Nat.le_of_eq hstart, ?_⟩, ⟨hstart ▸ hheader, ?_⟩, rfl, rfl⟩
        · exact show hold.start + count ≤ a.backward by omega
        · have hclosed : Closed { a with
              forward := hold.start + count, hold := some { hold with reserved := none } } :=
            fun held hsome => by cases hsome; rfl
          exact Nat.le_of_eq (settled_of_closed hclosed).symm
  | push l count =>
      rw [Request.granted, Request.act]
      rcases push_cases l count a with ⟨e, hpush⟩ | ⟨hold, hhold, hreserved, hfree, hpush⟩
      · rw [hpush]
        exact .inl rfl
      · rw [free] at hfree
        rw [hpush]
        refine .inr ⟨_, rfl, rfl, ⟨hsettled, ?_⟩, ⟨Nat.le_trans hheader hsettled, ?_⟩, rfl, rfl⟩
        · exact show a.forward + count ≤ a.backward by omega
        · have hclosed : Closed { a with forward := a.forward + count } :=
            closed_of_some hhold hreserved
          exact Nat.le_of_eq (settled_of_closed hclosed).symm
  | _ => exact .inl rfl

/-- The holdings of before, once the request was made. -/
theorem Keeps.noted (h : Keeps a hs) (ho : Orderly a S L) (r : Request) (hcareful : Careful a r) :
    Keeps (r.act a) ((hs.map (·.noted a r)).filter (·.Survives (r.act a))) := by
  have hd := ho.toDisciplined
  have hd' := (ho.act r hcareful).toDisciplined
  by_cases hwrite : ∃ offset bytes, r = .write offset bytes
  · obtain ⟨offset, bytes, rfl⟩ := hwrite
    have hact : (Request.write offset bytes).act a = after (write offset bytes a) := rfl
    by_cases hlive : a.Live offset bytes.length
    · have hsize : offset + bytes.length ≤ a.memory.size := by
        rcases hlive with ⟨-, hhigh⟩ | ⟨-, hhigh⟩
        · exact Nat.le_trans hhigh (Nat.le_trans hd.cursors hd.backward)
        · exact hhigh
      have hnoted : (fun x : Holding => x.noted a (.write offset bytes)) =
          (·.overwritten offset bytes) := funext fun x => if_pos hlive
      rw [hact, write_ok hlive] at hd' ⊢
      rw [hnoted]
      have htrail := fun d => (hd'.trail_eq d).trans (hd.trail_eq d).symm
      have hwritten := h.written hsize htrail
      exact hwritten.moved (.of_settled rfl rfl) fun d record hrecord _ => .inl hrecord
    · have hrefused : after (write offset bytes a) = a := by
        rw [write, if_neg hlive]
        rfl
      have hnoted : (fun x : Holding => x.noted a (.write offset bytes)) = id :=
        funext fun x => if_neg hlive
      rw [hact, hrefused, hnoted, List.map_id]
      exact h.moved (.of_settled rfl rfl) fun d record hrecord _ => .inl hrecord
  · have hother : ∀ offset bytes, r ≠ .write offset bytes :=
      fun offset bytes hr => hwrite ⟨offset, bytes, hr⟩
    have hmoves := hd.act_moves r hother
    have htrail := hd.trail_cases hd' (hd.track_cases r)
    rcases hd.noted_cases r hother with hsame | ⟨record, hgap, hnoted⟩
    · rw [show (fun x : Holding => x.noted a r) = id from funext hsame, List.map_id]
      exact h.moved hmoves htrail
    · rw [funext hnoted]
      exact (h.outlasted hgap).moved hmoves htrail

/-- Every request keeps what was handed out, and what it hands out itself. -/
theorem Keeps.asked (h : Keeps a L.holdings) (ho : Orderly a S L) (r : Request)
    (hcareful : Careful a r) : Keeps (r.act a) (L.asked a r).holdings := by
  have hd := ho.toDisciplined
  have hd' := (ho.act r hcareful).toDisciplined
  have hrest := h.noted ho r hcareful
  have hholdings : (L.asked a r).holdings = (r.granted a).filter (·.Survives (r.act a)) ++
      (L.holdings.map (·.noted a r)).filter (·.Survives (r.act a)) := List.filter_append ..
  rw [hholdings]
  rcases hd.granted_cases r with hnone | ⟨g, hsome, hstacks, hgap, hinside, hmarks, hbytes⟩
  · rw [hnone]
    exact hrest
  · rw [hsome, List.filter_cons, List.filter_nil]
    split
    · have hsize : g.span.offset + g.span.length ≤ (r.act a).memory.size := by
        rw [hd.act_size r]
        exact Nat.le_trans hgap.high hd.backward
      have hlength : g.bytes.length = g.span.length := hbytes ▸ Bytes.length_slice hsize
      refine hrest.cons hinside (hbytes ▸ Bytes.holds_slice hsize) hlength ?_ hmarks ?_
      · intro x hx
        obtain ⟨y, hy, rfl⟩ := List.mem_map.1 (List.mem_filter.1 hx).1
        rw [y.span_noted]
        exact ((h.inside y hy).apart_gap hgap).symm
      · intro d record hrecord hzero
        rw [hd'.trail_eq, hstacks, ← hd.trail_eq] at hrecord
        exact hd.apart_chain hgap hrecord hzero
    · exact hrest

theorem Keeps.restored (h : Keeps a L.holdings) (ho : Orderly a S L) {c : Checkpoint}
    (hc : c ∈ L.checkpoints) :
    Keeps (after (restore c a)) (L.settle (after (restore c a))).holdings := by
  obtain ⟨S', hsuffix, ho'⟩ := ho.restore hc
  exact h.moved (Disciplined.restore_moves c)
    (ho.trail_cases ho'.toDisciplined fun d e he => .inl ((hsuffix d).subset he))

theorem Keeps.unwound (h : Keeps a L.holdings) (ho : Orderly a S L) (hzero : record ≠ 0) :
    Keeps (after (unwind record a)) (L.settle (after (unwind record a))).holdings := by
  exact h.moved (ho.unwind_moves hzero)
    (ho.trail_cases (ho.act_unwind hzero) fun d e he => .inl (Stacks.mem_of_unwound he))

/-- Every trace keeps what was handed out while no record on a chain is written over. -/
theorem Trace.keeps (trace : Trace Careful a L a' L') (ho : ∃ S, Orderly a S L) :
    Keeps a L.holdings → Keeps a' L'.holdings := by
  induction trace with
  | refl => exact id
  | ask trace r hcareful ih =>
      intro h
      obtain ⟨S, ho'⟩ := trace.orderly ho
      exact (ih ho h).asked ho' r hcareful
  | checkpoint trace ih => exact ih ho
  | restore trace hc ih =>
      intro h
      obtain ⟨S, ho'⟩ := trace.orderly ho
      exact (ih ho h).restored ho' hc
  | scope hwithin trace hmark body hafter inside ih ihinside =>
      intro h
      obtain ⟨S, ho'⟩ := trace.orderly ho
      have hmarked := ho'.act (.mark .backward) trivial
      have hkept := (ih ho h).asked ho' (.mark .backward) trivial
      rw [Request.act, hmark] at hmarked hkept
      obtain ⟨S', hinside⟩ := inside.orderly ⟨_, hmarked⟩
      rw [after_borrow hwithin hmark, hafter]
      exact (ihinside ⟨_, hmarked⟩ hkept).unwound hinside (ho'.mark_record_pos hmark)
  | refused hwithin trace hmark body ih =>
      intro h
      rw [after_borrow_refused hwithin hmark]
      rcases mark_cases .backward _ with ⟨e, hcases⟩ | ⟨-, -, hcases⟩
      · cases hmark.symm.trans hcases
        exact ih ho h
      · cases hmark.symm.trans hcases

/-- Whatever is asked of a fresh arena, whoever was handed bytes keeps them to himself until their cursor
moves back past them, while nobody writes over the record of a mark on a chain. -/
theorem trace_kept {size : Nat} {fresh : Arena} (hcreate : create size = .ok fresh)
    (trace : Trace Careful fresh {} a L) : Kept a L := by
  have hfresh : ∃ S, Orderly fresh S {} := ⟨{}, orderly_create hcreate⟩
  obtain ⟨S, ho⟩ := trace.orderly hfresh
  exact (trace.keeps hfresh keeps_nil).kept ho.toDisciplined

/-- Bytes at both ends, a mark, and a reservation of which a part is kept. What was written into the
first bytes is there, and the bytes past a mark that was rewound are given back. -/
theorem trace_kept_claim : ∃ fresh a L, create 64 = .ok fresh ∧ Trace Careful fresh {} a L ∧
    L.holdings = [⟨.forward, ⟨4, 3⟩, [0, 0, 0], []⟩, ⟨.backward, ⟨60, 4⟩, [0, 0, 0, 0], [4]⟩,
      ⟨.forward, ⟨2, 2⟩, [7, 9], [4]⟩] ∧ Kept a L := by
  obtain ⟨fresh, hcreate⟩ : ∃ fresh, create 64 = .ok fresh := ⟨_, rfl⟩
  obtain ⟨a, L, trace, hholdings⟩ : ∃ a L, Trace Careful fresh {} a L ∧
      L.holdings = [⟨.forward, ⟨4, 3⟩, [0, 0, 0], []⟩, ⟨.backward, ⟨60, 4⟩, [0, 0, 0, 0], [4]⟩,
        ⟨.forward, ⟨2, 2⟩, [7, 9], [4]⟩] := by
    have hfresh : Trace Careful fresh {} fresh {} := .refl _ _
    have hends := (hfresh.ask (.alloc .forward 2) trivial).ask (.alloc .backward 4) trivial
    have hmarked := (hends.ask (.mark .forward) trivial).ask (.alloc .forward 8) trivial
    have hrewound := (hmarked.ask (.rewind ⟨.forward, 4⟩) trivial).ask .zero trivial
    cases hcreate
    have hwritten := hrewound.ask (.write 2 [7, 9]) fun d => by
      cases d <;> decide +kernel
    have hreserved := (hwritten.ask .lock trivial).ask (.reserve ⟨1⟩ 5) trivial
    have hclaimed := hreserved.ask (.claim ⟨1⟩ 3) trivial
    exact ⟨_, _, hclaimed, by decide +kernel⟩
  exact ⟨fresh, a, L, hcreate, trace, hholdings, trace_kept hcreate trace⟩

/-- The arena and its ledger after requests, one after the other. -/
def askAll (a : Arena) (L : Ledger) : List Request → Arena × Ledger
  | [] => (a, L)
  | r :: rest => askAll (r.act a) (L.asked a r) rest

theorem Trace.askAll {Allowed : Arena → Request → Prop} (hallowed : ∀ a r, Allowed a r)
    (trace : Trace Allowed a L a' L') (rs : List Request) :
    Trace Allowed a L (askAll a' L' rs).1 (askAll a' L' rs).2 := by
  induction rs generalizing a' L' with
  | nil => exact trace
  | cons r rest ih => exact ih (trace.ask r (hallowed a' r))

/-- Whoever writes over the record of a mark sends its cursor anywhere: here it is rewound to zero, and
the header of the arena is handed out. -/
theorem overwritten_not_kept : ∃ fresh, create 64 = .ok fresh ∧
    ∃ a L, askAll fresh {} [.mark .forward, .write 2 [0, 0], .rewind ⟨.forward, 2⟩,
      .alloc .forward 1] = (a, L) ∧
    Trace (fun _ _ => True) fresh {} a L ∧ ¬ Kept a L := by
  obtain ⟨fresh, hcreate⟩ : ∃ fresh, create 64 = .ok fresh := ⟨_, rfl⟩
  have hfresh : Trace (fun _ _ => True) fresh {} fresh {} := .refl _ _
  have trace := hfresh.askAll (fun _ _ => trivial)
    [.mark .forward, .write 2 [0, 0], .rewind ⟨.forward, 2⟩, .alloc .forward 1]
  refine ⟨fresh, hcreate, _, _, rfl, trace, fun h => ?_⟩
  cases hcreate
  have hmem := h.header ⟨.forward, ⟨0, 1⟩, [64], []⟩ (by decide +kernel)
  exact absurd hmem (by decide)

end Keeps

end Arena

end FlatLisp
