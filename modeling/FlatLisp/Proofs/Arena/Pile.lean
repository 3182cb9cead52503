/-
Module: FlatLisp.Proofs.Arena.Pile
Purpose: What is borrowed from the backward region and given back. Entries of any length are piled up
  on a base, each under a mark of its own; nothing that was live before is touched, and rewinding the
  marks, one by one or all at once, leads back to the base.
Main exports: Arena.Piled, Arena.Piled.take, Arena.Piled.write_ok, Arena.Piled.bytes_ok,
  Arena.Piled.rewind_ok, Arena.Piled.unwind_ok, Arena.Piled.preserves
-/
import FlatLisp.Proofs.Arena.Preserves

namespace FlatLisp

/-- Memory has run out: there is less of it than was asked for. -/
def Fault.RanOut (e : Fault) : Prop :=
  ∃ requested free, free < requested ∧ e = .arena (.outOfMemory requested free)

/-- The refusal of `count` bytes under a mark of their own, where `free` bytes are left. -/
def Fault.shortage (count free : Nat) : Fault :=
  if free < Arena.markLength then .arena (.outOfMemory Arena.markLength free)
  else .arena (.outOfMemory count (free - Arena.markLength))

section Lift

variable {α : Type} {a a' : Arena} {x : ArenaM α}

theorem cell_ok {y : α} (h : x a = .ok y a') : (liftM x : CellM α) a = .ok y a' := by
  simp only [liftM, monadLift, MonadLift.monadLift, h]

theorem cell_error {e : ArenaError} (h : x a = .error e a') :
    (liftM x : CellM α) a = .error (.arena e) a' := by
  simp only [liftM, monadLift, MonadLift.monadLift, h]

theorem consult_ok {f : Arena → Except Fault α} {y : α} (h : f a = .ok y) :
    Cell.consult f a = .ok y a := by
  simp only [Cell.consult, h]

theorem consult_error {f : Arena → Except Fault α} {e : Fault} (h : f a = .error e) :
    Cell.consult f a = .error e a := by
  simp only [Cell.consult, h]

end Lift

namespace Arena

/-! ### Where the entries are -/

section Base

variable (b : Arena)

/-- The offset of the innermost entry, the backward cursor. -/
def pileTop : List (List UInt8) → Nat
  | [] => b.backward
  | entry :: rest => pileTop rest - (markLength + entry.length)

/-- The record of the mark under the innermost entry. -/
def pileMark : List (List UInt8) → Nat
  | [] => b.backwardMark
  | _ :: rest => pileTop b rest - markLength

/-- The record of a mark that is taken on top of the entries. -/
def pileRecord (entries : List (List UInt8)) : List UInt8 :=
  Word.bytes (pileTop b entries) ++ Word.bytes (pileMark b entries)

/-- The bytes that entries take. -/
def pileCost : List (List UInt8) → Nat
  | [] => 0
  | entry :: rest => markLength + entry.length + pileCost rest

/-- Each entry is in memory right below the record of its mark. -/
def Stacked (m : Bytes) : List (List UInt8) → Prop
  | [] => True
  | entry :: rest =>
      m.Holds (pileTop b (entry :: rest)) (entry ++ pileRecord b rest) ∧ Stacked m rest

/-- The arena `a` has the entries on top of the base and is otherwise the same. -/
structure Piled (entries : List (List UInt8)) (a : Arena) : Prop where
  eq : a = { b with
    memory := a.memory, backward := pileTop b entries, backwardMark := pileMark b entries }
  size : a.memory.size = b.memory.size
  below : b.memory.SameOn a.memory 0 b.forward
  above : b.memory.SameOn a.memory b.backward b.memory.size
  stacked : Stacked b a.memory entries
  room : b.forward + pileCost entries ≤ b.backward

end Base

variable {b a : Arena} {entries rest : List (List UInt8)} {entry : List UInt8} {m m' : Bytes}

@[simp] theorem pileCost_nil : pileCost [] = 0 := rfl

@[simp] theorem pileCost_cons (entry : List UInt8) (rest : List (List UInt8)) :
    pileCost (entry :: rest) = markLength + entry.length + pileCost rest := rfl

theorem pileCost_append (xs ys : List (List UInt8)) :
    pileCost (xs ++ ys) = pileCost xs + pileCost ys := by
  induction xs with
  | nil => simp
  | cons x xs ih =>
      rw [List.cons_append, pileCost_cons, pileCost_cons, ih]
      omega

theorem pileTop_add (h : pileCost entries ≤ b.backward) :
    pileTop b entries + pileCost entries = b.backward := by
  induction entries with
  | nil => rfl
  | cons entry rest ih =>
      rw [pileCost_cons] at h
      have hrest := ih (by omega)
      rw [pileTop, pileCost_cons]
      omega

@[simp] theorem length_pileRecord : (pileRecord b entries).length = markLength := rfl

/-- Only the lengths of the entries tell where they are. -/
theorem pileTop_congr {entry' : List UInt8} (h : entry.length = entry'.length) :
    pileTop b (entry :: rest) = pileTop b (entry' :: rest) := by
  rw [pileTop, pileTop, h]

/-- On bases that are alike the same entries are in the same places. -/
theorem Alike.pileTop_eq {b' : Arena} (h : b.Alike b') (entries : List (List UInt8)) :
    pileTop b' entries = pileTop b entries := by
  induction entries with
  | nil => exact h.backward
  | cons entry rest ih => rw [pileTop, pileTop, ih]

theorem Alike.pileMark_eq {b' : Arena} (h : b.Alike b') (entries : List (List UInt8)) :
    pileMark b' entries = pileMark b entries := by
  cases entries with
  | nil => exact h.backwardMark
  | cons entry rest => rw [pileMark, pileMark, h.pileTop_eq]

theorem Alike.pileRecord_eq {b' : Arena} (h : b.Alike b') (entries : List (List UInt8)) :
    pileRecord b' entries = pileRecord b entries := by
  rw [pileRecord, pileRecord, h.pileTop_eq, h.pileMark_eq]

theorem Stacked.sameOn {b' : Arena} (halike : b.Alike b') (hcost : pileCost entries ≤ b.backward)
    (h : Stacked b m entries) (h' : Stacked b' m' entries) :
    m.SameOn m' (pileTop b entries) b.backward := by
  induction entries with
  | nil =>
      intro i hlow hhigh
      exact absurd hhigh (Nat.not_lt.2 hlow)
  | cons entry rest ih =>
      have htop := pileTop_add hcost
      rw [pileCost_cons] at hcost htop
      have hrest := pileTop_add (show pileCost rest ≤ b.backward by omega)
      obtain ⟨hentry, hbelow⟩ := h
      obtain ⟨hentry', hbelow'⟩ := h'
      rw [halike.pileTop_eq, halike.pileRecord_eq] at hentry'
      have hsame := hentry.sameOn hentry'
      rw [List.length_append, length_pileRecord] at hsame
      refine hsame.append ?_
      rw [show pileTop b (entry :: rest) + (entry.length + markLength) = pileTop b rest by omega]
      exact ih (by omega) hbelow hbelow'

theorem Stacked.of_alike {b' : Arena} (halike : b.Alike b') (h : Stacked b m entries) :
    Stacked b' m entries := by
  induction entries with
  | nil => trivial
  | cons entry rest ih =>
      refine ⟨?_, ih h.2⟩
      rw [halike.pileTop_eq, halike.pileRecord_eq]
      exact h.1

/-- What lies below the innermost entry does not matter. -/
theorem Stacked.of_sameOn (hsize : m'.size = m.size)
    (hsame : m.SameOn m' (pileTop b entries) b.backward) (hcost : pileCost entries ≤ b.backward)
    (h : Stacked b m entries) : Stacked b m' entries := by
  induction entries with
  | nil => trivial
  | cons entry rest ih =>
      have htop := pileTop_add hcost
      rw [pileCost_cons] at hcost
      have hrest := pileTop_add (show pileCost rest ≤ b.backward by omega)
      rw [pileCost_cons] at htop
      constructor
      · refine h.1.of_sameOn hsize hsame (Nat.le_refl _) ?_
        rw [List.length_append, length_pileRecord]
        omega
      · exact ih (hsame.mono (by omega) (Nat.le_refl _)) (by omega) h.2

namespace Piled

/-- Nothing borrowed. -/
theorem refl (hcursors : b.forward ≤ b.backward) : Piled b [] b where
  eq := rfl
  size := rfl
  below := fun _ _ _ => rfl
  above := fun _ _ _ => rfl
  stacked := trivial
  room := hcursors

theorem forward (h : Piled b entries a) : a.forward = b.forward := by rw [h.eq]

theorem backward (h : Piled b entries a) : a.backward = pileTop b entries := by rw [h.eq]

theorem backwardMark (h : Piled b entries a) : a.backwardMark = pileMark b entries := by rw [h.eq]

theorem hold (h : Piled b entries a) : a.hold = b.hold := by rw [h.eq]

theorem capacity (h : Piled b entries a) : a.capacity = b.capacity := h.size

theorem top_add (h : Piled b entries a) : pileTop b entries + pileCost entries = b.backward :=
  pileTop_add (Nat.le_trans (Nat.le_add_left ..) h.room)

theorem free (h : Piled b entries a) : a.free = b.backward - b.forward - pileCost entries := by
  have htop := h.top_add
  rw [Arena.free, h.backward, h.forward]
  omega

/-- What is borrowed touches nothing that was live. -/
theorem preserves (h : Piled b entries a) : Preserves b a where
  size := h.size
  below := h.below
  above := h.above
  forward := Nat.le_of_eq h.forward.symm
  backward := by
    have htop := h.top_add
    rw [h.backward]
    omega

/-- Once everything is given back the base is there again. -/
theorem alike (h : Piled b [] a) : Alike b a where
  size := h.size
  below := h.below
  above := h.above
  forward := h.forward
  backward := h.backward
  forwardMark := by rw [h.eq]
  backwardMark := h.backwardMark

/-- The same entries on bases that are alike make arenas that are alike. -/
theorem alike_of_alike {b' a' : Arena} (h : Piled b entries a) (h' : Piled b' entries a')
    (halike : b.Alike b') : Alike a a' where
  size := by rw [h'.size, h.size, halike.size]
  below := by
    rw [h.forward]
    have hback := halike.symm.below
    rw [halike.forward] at hback
    have hsame := h'.below
    rw [halike.forward] at hsame
    exact fun i hlow hhigh => by rw [hsame i hlow hhigh, ← hback i hlow hhigh, h.below i hlow hhigh]
  above := by
    have hroom := h.room
    have hsame := h'.above
    rw [halike.backward, halike.size] at hsame
    rw [h.backward, h.size]
    refine (h.stacked.sameOn halike (by omega) h'.stacked).append fun i hlow hhigh => ?_
    rw [hsame i hlow hhigh, halike.above i hlow hhigh, h.above i hlow hhigh]
  forward := by rw [h'.forward, h.forward, halike.forward]
  backward := by rw [h'.backward, h.backward, halike.pileTop_eq]
  forwardMark := by
    rw [h'.eq, h.eq]
    exact halike.forwardMark
  backwardMark := by rw [h'.backwardMark, h.backwardMark, halike.pileMark_eq]

/-- The entries are as well in an arena that is alike, on a base that is. -/
theorem of_alike {a' : Arena} (hb : b.Bounded) (h : Piled b entries a) (halike : a.Alike a') :
    ∃ b', b.Alike b' ∧ Piled b' entries a' := by
  have htop := h.top_add
  have hforward : b.forward = a'.forward := by rw [halike.forward, h.forward]
  have hforwardMark : b.forwardMark = a'.forwardMark := by rw [halike.forwardMark, h.eq]
  have hbackward : pileTop b entries = a'.backward := by rw [halike.backward, h.backward]
  have hbackwardMark : pileMark b entries = a'.backwardMark := by
    rw [halike.backwardMark, h.backwardMark]
  have hbase : b.Alike { b with
      directions := a'.directions, hold := a'.hold, nextLock := a'.nextLock } :=
    ⟨rfl, .refl _ _ _, .refl _ _ _, rfl, rfl, rfl, rfl⟩
  refine ⟨_, hbase, ?_, halike.size.trans h.size, ?_, ?_, ?_, h.room⟩
  · rw [hbase.pileTop_eq, hbase.pileMark_eq, hbackward, hbackwardMark]
    dsimp only
    rw [hforward, hforwardMark]
  · exact h.below.trans (h.forward ▸ halike.below)
  · exact h.above.trans (halike.above.mono (by rw [h.backward]; omega) (Nat.le_of_eq h.size.symm))
  · refine (h.stacked.of_sameOn halike.size ?_ (by omega)).of_alike hbase
    rw [← h.backward]
    exact halike.above.mono (Nat.le_refl _) (h.size ▸ hb.backward)

/-! ### Borrowing -/

/-- A mark is an entry without bytes. -/
theorem mark_ok (hb : b.Bounded) (h : Piled b entries a) (hfree : markLength ≤ a.free) :
    Piled b ([] :: entries) a.marked := by
  have hroom := h.room
  have htop := h.top_add
  have hbackward := hb.backward
  rw [h.free] at hfree
  rw [Arena.capacity] at hbackward
  have hrecord : Word.bytes a.backward ++ Word.bytes a.backwardMark = pileRecord b entries := by
    rw [h.backward, h.backwardMark]
    rfl
  have hstart : a.backward - markLength = pileTop b ([] :: entries) := by rw [h.backward]; rfl
  rw [marked, hrecord, hstart]
  have hplace : pileTop b ([] :: entries) + markLength = pileTop b entries := by
    change pileTop b entries - (markLength + 0) + markLength = _
    omega
  constructor
  · dsimp only
    rw [h.eq]
    rfl
  · exact (Bytes.size_write ..).trans h.size
  · refine h.below.trans (Bytes.sameOn_write (.inl ?_))
    omega
  · refine h.above.trans (Bytes.sameOn_write (.inr ?_))
    rw [length_pileRecord]
    omega
  · constructor
    · rw [List.nil_append]
      refine Bytes.holds_write ?_
      rw [length_pileRecord, h.size]
      omega
    · refine h.stacked.of_sameOn (Bytes.size_write ..) (Bytes.sameOn_write (.inr ?_)) (by omega)
      rw [length_pileRecord]
      omega
  · rw [pileCost_cons, List.length_nil]
    omega

/-- The entry of the innermost mark grows by what is allocated. -/
theorem alloc_ok (hb : b.Bounded) (h : Piled b ([] :: entries) a) {count : Nat}
    (hfree : count ≤ a.free) :
    ∃ old, old.length = count ∧ Piled b (old :: entries) { a with backward := a.backward - count } ∧
      a.backward - count = pileTop b (old :: entries) := by
  have hroom := h.room
  have htop := h.top_add
  have hbackward := hb.backward
  rw [h.free] at hfree
  rw [Arena.capacity] at hbackward
  rw [pileCost_cons, List.length_nil] at hroom hfree htop
  have hbytes : pileTop b ([] :: entries) - count + count ≤ a.memory.size := by
    rw [h.size]
    omega
  have hlength := Bytes.length_slice hbytes
  have hheld := Bytes.holds_slice hbytes
  generalize a.memory.slice (pileTop b ([] :: entries) - count) count = old at hlength hheld
  have hplace : pileTop b ([] :: entries) - count = pileTop b (old :: entries) := by
    rw [pileTop, pileTop, hlength, List.length_nil]
    omega
  refine ⟨old, hlength, ?_, by rw [h.backward, hplace]⟩
  constructor
  · dsimp only
    rw [h.eq]
    dsimp only
    rw [hplace]
    rfl
  · exact h.size
  · exact h.below
  · exact h.above
  · refine ⟨Bytes.holds_append.2 ⟨?_, ?_⟩, h.stacked.2⟩
    · rw [← hplace]
      exact hheld
    · rw [← hplace, hlength, show pileTop b ([] :: entries) - count + count =
        pileTop b ([] :: entries) by omega]
      exact h.stacked.1
  · rw [pileCost_cons, hlength]
    omega

/-- A mark is taken and bytes under it, or there are too few. -/
theorem take (hb : b.Bounded) (h : Piled b entries a) (count : Nat) {α : Type}
    (next : Mark → Span → CellM α) :
    (∃ e a' more, e.RanOut ∧ Piled b (more ++ entries) a' ∧
        (do let mark ← Arena.mark .backward
            let span ← Arena.alloc .backward count
            next mark span : CellM α) a = .error e a' ∧
        b.backward < b.forward + pileCost entries + (markLength + count) ∧
        e = .shortage count a.free) ∨
      ∃ a' old, old.length = count ∧ Piled b (old :: entries) a' ∧
        (do let mark ← Arena.mark .backward
            let span ← Arena.alloc .backward count
            next mark span : CellM α) a =
          next ⟨.backward, pileMark b (old :: entries)⟩ ⟨pileTop b (old :: entries), count⟩ a' := by
  have hroom := h.room
  have hfree := h.free
  by_cases hmark : markLength ≤ a.free
  · have hmarked := h.mark_ok hb hmark
    have hfree' := hmarked.free
    rw [bind_ok (cell_ok (mark_backward_ok hmark)), h.backward]
    rw [pileCost_cons, List.length_nil] at hfree'
    by_cases halloc : count ≤ a.marked.free
    · obtain ⟨old, hlength, hpiled, hplace⟩ := hmarked.alloc_ok hb halloc
      refine .inr ⟨_, old, hlength, hpiled, ?_⟩
      rw [bind_ok (cell_ok (alloc_backward_ok halloc)), hplace]
      rfl
    · refine .inl ⟨_, a.marked, [[]], ⟨count, a.marked.free, by omega, rfl⟩, hmarked,
        bind_error (cell_error (alloc_backward_full (by omega))), by omega, ?_⟩
      rw [Fault.shortage, if_neg (by omega), show a.free - markLength = a.marked.free by omega]
  · refine .inl ⟨_, a, [], ⟨markLength, a.free, by omega, rfl⟩, h,
      bind_error (cell_error (mark_backward_full (by omega))), by omega, ?_⟩
    rw [Fault.shortage, if_pos (by omega)]

/-! ### The innermost entry -/

/-- The arena with the marks from the innermost entry on forgotten. -/
theorem pop (h : Piled b (entry :: rest) a) :
    Piled b rest { a with backward := pileTop b rest, backwardMark := pileMark b rest } where
  eq := by
    dsimp only
    rw [h.eq]
  size := h.size
  below := h.below
  above := h.above
  stacked := h.stacked.2
  room := by
    have := h.room
    rw [pileCost_cons] at this
    omega

theorem pop_all (h : Piled b (entries ++ rest) a) :
    Piled b rest { a with backward := pileTop b rest, backwardMark := pileMark b rest } := by
  induction entries generalizing a with
  | nil =>
      have heq : { a with backward := pileTop b rest, backwardMark := pileMark b rest } = a := by
        rw [h.eq]
        rfl
      rw [heq]
      exact h
  | cons first entries ih =>
      have hall := ih h.pop
      exact hall

theorem live_above (hb : b.Bounded) (h : Piled b entries a) {offset count : Nat}
    (hlow : pileTop b entries ≤ offset) (hhigh : offset + count ≤ b.backward) :
    a.Live offset count := by
  refine live_of_above (by rw [h.backward]; exact hlow) ?_
  have hbackward := hb.backward
  rw [h.capacity]
  omega

theorem bytes_ok (hb : b.Bounded) (h : Piled b (entry :: rest) a) :
    a.bytes (pileTop b (entry :: rest)) entry.length = .ok entry := by
  have htop := h.top_add
  rw [pileCost_cons] at htop
  exact Arena.bytes_ok (h.live_above hb (Nat.le_refl _) (by omega)) h.stacked.1.left

/-- The innermost entry can be replaced. -/
theorem write_ok (hb : b.Bounded) (h : Piled b (entry :: rest) a) {new : List UInt8}
    (hlength : new.length = entry.length) :
    ∃ a', write (pileTop b (entry :: rest)) new a = .ok () a' ∧ Piled b (new :: rest) a' := by
  have htop := h.top_add
  have hroom := h.room
  have hbackward := hb.backward
  rw [pileCost_cons] at htop hroom
  rw [Arena.capacity] at hbackward
  have hplace : pileTop b (new :: rest) = pileTop b (entry :: rest) := pileTop_congr hlength
  have hrest : pileTop b (entry :: rest) + (markLength + entry.length) = pileTop b rest := by
    have hrest := h.pop.top_add
    omega
  refine ⟨_, Arena.write_ok (h.live_above hb (Nat.le_refl _) (by omega)), ?_⟩
  constructor
  · dsimp only
    rw [hplace, h.eq]
    rfl
  · exact (Bytes.size_write ..).trans h.size
  · exact h.below.trans (Bytes.sameOn_write (.inl (by omega)))
  · exact h.above.trans (Bytes.sameOn_write (.inr (by omega)))
  · rw [Stacked, hplace]
    constructor
    · refine Bytes.holds_append.2 ⟨Bytes.holds_write (by rw [h.size]; omega), ?_⟩
      rw [hlength]
      refine h.stacked.1.right.write_of_disjoint (.inr ?_)
      omega
    · refine h.stacked.2.of_sameOn (Bytes.size_write ..) (Bytes.sameOn_write (.inr ?_)) (by omega)
      omega
  · rw [pileCost_cons, hlength]
    exact hroom

/-! ### Giving back -/

theorem pileTop_le (b : Arena) (entries : List (List UInt8)) : pileTop b entries ≤ b.backward := by
  induction entries with
  | nil => exact Nat.le_refl _
  | cons entry rest ih => exact Nat.le_trans (Nat.sub_le ..) ih

theorem pileTop_lt (hb : b.Bounded) (entries : List (List UInt8)) : pileTop b entries < 65536 := by
  have hcapacity := hb.capacity
  have hbackward := hb.backward
  have htop := pileTop_le b entries
  simp only [maxCapacity] at hcapacity
  omega

theorem pileMark_lt (hb : b.Bounded) (entries : List (List UInt8)) : pileMark b entries < 65536 := by
  cases entries with
  | nil => exact hb.backwardMark
  | cons entry rest => exact Nat.lt_of_le_of_lt (Nat.sub_le ..) (pileTop_lt hb rest)

/-- Each mark has a record that says what was there before it. -/
theorem record (hb : b.Bounded) (h : Piled b (entries ++ entry :: rest) a) :
    pileMark b (entry :: rest) ≠ 0 ∧ a.Live (pileMark b (entry :: rest)) markLength ∧
      a.memory.Holds (pileMark b (entry :: rest)) (pileRecord b rest) := by
  have hall := h.top_add
  have hpop := h.pop_all
  have htop := hpop.top_add
  have hrest := hpop.pop.top_add
  have hroom := hpop.room
  have hheader := hb.header
  have hheld := hpop.stacked.1.right
  rw [pileCost_append] at hall
  rw [pileCost_cons] at htop hroom
  have hplace : pileTop b (entry :: rest) + entry.length = pileMark b (entry :: rest) := by
    simp only [pileMark]
    omega
  rw [hplace] at hheld
  simp only [headerLength] at hheader
  exact ⟨by omega, h.live_above hb (by rw [pileCost_cons] at hall; omega) (by omega), hheld⟩

theorem readRecord_ok (hb : b.Bounded) (h : Piled b (entries ++ entry :: rest) a) :
    a.readRecord (pileMark b (entry :: rest)) = .ok (pileTop b rest, pileMark b rest) := by
  have hcapacity := hb.capacity
  have hbackward := hb.backward
  have htop := h.pop_all.pop.top_add
  simp only [maxCapacity] at hcapacity
  obtain ⟨-, hlive, hheld⟩ := h.record hb
  have hsecond := hheld.right.word (pileMark_lt hb rest)
  rw [Word.length_bytes, Nat.add_assoc] at hsecond
  rw [readRecord, if_pos hlive, hheld.left.word (by omega), hsecond]

/-- Rewinding its mark takes the innermost entry away. -/
theorem rewind_ok (hb : b.Bounded) (h : Piled b (entry :: rest) a) :
    ∃ a', rewind ⟨.backward, pileMark b (entry :: rest)⟩ a = .ok () a' ∧ Piled b rest a' := by
  have hcapacity := hb.capacity
  have hbackward := hb.backward
  have htop := h.pop.top_add
  simp only [maxCapacity] at hcapacity
  have hinnermost : Piled b ([] ++ entry :: rest) a := h
  obtain ⟨hzero, hlive, hheld⟩ := hinnermost.record hb
  exact ⟨_, rewind_backward_ok h.backwardMark hzero hlive hheld (by omega) (pileMark_lt hb rest),
    h.pop⟩

/-- Following the records from one to the one before meets every mark. -/
theorem mem_trailFrom (hb : b.Bounded) (h : Piled b (entries ++ (rest ++ entry :: base)) a)
    {fuel : Nat} (hfuel : rest.length < fuel) :
    pileMark b (entry :: base) ∈ a.trailFrom fuel (pileMark b (rest ++ entry :: base)) := by
  induction rest generalizing entries fuel with
  | nil =>
      cases fuel with
      | zero => exact absurd hfuel (Nat.not_lt_zero _)
      | succ fuel => exact List.mem_cons_self ..
  | cons inner rest ih =>
      cases fuel with
      | zero => exact absurd hfuel (Nat.not_lt_zero _)
      | succ fuel =>
          have hnext : Piled b (entries ++ [inner] ++ (rest ++ entry :: base)) a := by
            rw [List.append_assoc]
            exact h
          have hzero : pileMark b (inner :: (rest ++ entry :: base)) ≠ 0 := (h.record hb).1
          have hrecord : a.readRecord (pileMark b (inner :: (rest ++ entry :: base))) =
              .ok (pileTop b (rest ++ entry :: base), pileMark b (rest ++ entry :: base)) :=
            h.readRecord_ok hb
          rw [trailFrom, List.cons_append, if_neg hzero, hrecord]
          exact List.mem_cons_of_mem _ (ih hnext (Nat.lt_of_succ_lt_succ hfuel))

theorem length_le_pileCost (entries : List (List UInt8)) : entries.length ≤ pileCost entries := by
  induction entries with
  | nil => exact Nat.le_refl _
  | cons entry rest ih =>
      rw [pileCost_cons, List.length_cons, markLength]
      omega

/-- Unwinding a mark takes away its entry and all that came after it. -/
theorem unwind_ok (hb : b.Bounded) (h : Piled b (entries ++ entry :: rest) a) :
    ∃ a', unwind (pileMark b (entry :: rest)) a = .ok () a' ∧ Piled b rest a' := by
  have hlength := length_le_pileCost (entries ++ entry :: rest)
  have hroom := h.room
  have hbackward := hb.backward
  have hfuel : entries.length < a.capacity + 1 := by
    rw [h.capacity]
    rw [List.length_append] at hlength
    omega
  have hmem : pileMark b (entry :: rest) ∈ a.trail .backward := by
    rw [trail, lastMark, h.backwardMark]
    have hall : Piled b ([] ++ (entries ++ entry :: rest)) a := h
    exact hall.mem_trailFrom hb hfuel
  have hpop : Piled b (entry :: rest) { a with
      backward := pileTop b (entry :: rest), backwardMark := pileMark b (entry :: rest) } := h.pop_all
  have hcapacity := hb.capacity
  have htop := h.pop_all.pop.top_add
  simp only [maxCapacity] at hcapacity
  obtain ⟨hzero, hlive, hheld⟩ := h.record hb
  have hrewind : rewind ⟨.backward, pileMark b (entry :: rest)⟩
      (a.withLastMark .backward (pileMark b (entry :: rest))) = .ok ()
        { a with backward := pileTop b rest, backwardMark := pileMark b rest } :=
    rewind_backward_ok rfl hzero hlive hheld (by omega) (pileMark_lt hb rest)
  refine ⟨_, ?_, h.pop_all.pop⟩
  rw [unwind, get_bind, if_pos hmem]
  exact hrewind

/-- What runs between a mark and its unwinding may leave anything on top of the mark. -/
theorem borrow_ok (hb : b.Bounded) (h : Piled b entries a) {α : Type} (body : CellM α) :
    (∃ e, e.RanOut ∧ borrow body a = .error e a ∧
        b.backward < b.forward + pileCost entries + markLength) ∨
      ∃ a₁, Piled b ([] :: entries) a₁ ∧
        ∀ {more a₂}, Piled b (more ++ [] :: entries) a₂ → ∃ a₃, Piled b entries a₃ ∧
          (∀ x, body a₁ = .ok x a₂ → borrow body a = .ok x a₃) ∧
          ∀ e, body a₁ = .error e a₂ → borrow body a = .error e a₃ := by
  have hroom := h.room
  have hfree := h.free
  by_cases hmark : markLength ≤ a.free
  · have hrecord : a.backward - markLength = pileMark b ([] :: entries) := by
      rw [h.backward]
      rfl
    refine .inr ⟨a.marked, h.mark_ok hb hmark, fun hpiled => ?_⟩
    obtain ⟨a₃, hunwind, hpiled'⟩ := hpiled.unwind_ok hb
    refine ⟨a₃, hpiled', fun x hbody => ?_, fun e hbody => ?_⟩
    · rw [borrow, bind_ok (cell_ok (mark_backward_ok hmark)), bind_ok (attempt_ok hbody), hrecord,
        bind_ok (cell_ok hunwind)]
      rfl
    · rw [borrow, bind_ok (cell_ok (mark_backward_ok hmark)), bind_ok (attempt_error hbody), hrecord,
        bind_ok (cell_ok hunwind)]
      rfl
  · refine .inl ⟨_, ⟨markLength, a.free, by omega, rfl⟩, ?_, by omega⟩
    exact bind_error (cell_error (mark_backward_full (by omega)))

end Piled

end Arena

end FlatLisp
