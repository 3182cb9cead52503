/-
Module: FlatLisp.Proofs.Arena.Refusal
Purpose: A call to an arena that is refused has changed nothing. A borrowing whose body uses no mark
  from before it answers what the body answered and leaves the backward cursor and its marks as they
  were, whatever the body has left behind.
Main exports: Arena.Unchanging, Arena.Refuses, Arena.refuses, Arena.Enclosed, Arena.Nested,
  Arena.Enclosed.nested, Arena.Returns, Arena.failures_undone
-/
import FlatLisp.Proofs.Arena.Trace

namespace FlatLisp

namespace Arena

/-! ### Single calls -/

/-- If the request is refused, the arena is the same in every respect. -/
def Unchanging {α : Type} (request : ArenaM α) (a : Arena) : Prop :=
  ∀ e a', request a = .error e a' → a' = a

section Unchanging

variable {α : Type} {request : ArenaM α} {a a' : Arena} {e : ArenaError} {x : α}

theorem unchanging_of_error (h : request a = .error e a) : Unchanging request a := by
  intro e' a' herror
  cases h.symm.trans herror
  rfl

theorem unchanging_of_ok (h : request a = .ok x a') : Unchanging request a := by
  intro e' a'' herror
  cases h.symm.trans herror

end Unchanging

/-- Every call that is refused changes nothing. -/
structure Refuses (a : Arena) : Prop where
  alloc : ∀ d count, Unchanging (alloc d count) a
  allocDefault : ∀ count, Unchanging (allocDefault count) a
  mark : ∀ d, Unchanging (mark d) a
  markDefault : Unchanging markDefault a
  rewind : ∀ m, Unchanging (rewind m) a
  dropMark : ∀ m, Unchanging (dropMark m) a
  pushDirection : ∀ d, Unchanging (pushDirection d) a
  popDirection : Unchanging popDirection a
  lock : Unchanging lock a
  reserve : ∀ l count, Unchanging (reserve l count) a
  claim : ∀ l count, Unchanging (claim l count) a
  push : ∀ l count, Unchanging (push l count) a
  unlock : ∀ l, Unchanging (unlock l) a
  restore : ∀ c, Unchanging (restore c) a
  write : ∀ offset bytes, Unchanging (write offset bytes) a
  writeByte : ∀ offset b, Unchanging (writeByte offset b) a
  writeWord : ∀ offset n, Unchanging (writeWord offset n) a

theorem alloc_unchanging (d : Direction) (count : Nat) (a : Arena) :
    Unchanging (alloc d count) a := by
  rcases alloc_cases d count a with ⟨e, herror⟩ | ⟨-, -, hok⟩
  · exact unchanging_of_error herror
  · exact unchanging_of_ok hok

theorem mark_unchanging (d : Direction) (a : Arena) : Unchanging (mark d) a := by
  rcases mark_cases d a with ⟨e, herror⟩ | ⟨-, -, hok⟩
  · exact unchanging_of_error herror
  · exact unchanging_of_ok hok

theorem write_unchanging (offset : Nat) (bytes : List UInt8) (a : Arena) :
    Unchanging (write offset bytes) a := by
  by_cases hlive : a.Live offset bytes.length
  · exact unchanging_of_ok (if_pos hlive)
  · exact unchanging_of_error (if_neg hlive)

/-- This holds of every arena, whatever its state. -/
theorem refuses (a : Arena) : Refuses a where
  alloc d count := alloc_unchanging d count a
  allocDefault count := alloc_unchanging a.direction count a
  mark d := mark_unchanging d a
  markDefault := mark_unchanging a.direction a
  rewind m := by
    rcases rewind_cases m a with ⟨e, herror⟩ | ⟨saved, before, -, hok⟩
    · exact unchanging_of_error herror
    · exact unchanging_of_ok hok
  dropMark m := by
    rcases dropMark_cases m a with ⟨e, herror⟩ | ⟨before, hok⟩
    · exact unchanging_of_error herror
    · exact unchanging_of_ok hok
  pushDirection d := by
    by_cases hroom : a.directions.length < maxDirections
    · exact unchanging_of_ok (if_pos hroom)
    · exact unchanging_of_error (if_neg hroom)
  popDirection := by
    intro e a' herror
    rw [popDirection] at herror
    split at herror
    · cases herror
    · cases herror
      rfl
  lock := by
    rcases Disciplined.lock_cases a with ⟨e, herror⟩ | ⟨-, hok⟩
    · exact unchanging_of_error herror
    · exact unchanging_of_ok hok
  reserve l count := by
    rcases Disciplined.reserve_cases l count a with ⟨e, herror⟩ | ⟨hold, -, -, hok⟩
    · exact unchanging_of_error herror
    · exact unchanging_of_ok hok
  claim l count := by
    rcases Disciplined.claim_cases l count a with ⟨e, herror⟩ | ⟨hold, n, -, -, -, hok⟩
    · exact unchanging_of_error herror
    · exact unchanging_of_ok hok
  push l count := by
    rcases Disciplined.push_cases l count a with ⟨e, herror⟩ | ⟨hold, -, -, -, hok⟩
    · exact unchanging_of_error herror
    · exact unchanging_of_ok hok
  unlock l := by
    rcases Disciplined.unlock_cases l a with ⟨e, herror⟩ | ⟨hold, -, hok⟩
    · exact unchanging_of_error herror
    · exact unchanging_of_ok hok
  restore c := by
    rcases Disciplined.restore_cases c a with herror | ⟨-, hok⟩
    · exact unchanging_of_error herror
    · exact unchanging_of_ok hok
  write offset bytes := write_unchanging offset bytes a
  writeByte offset b := write_unchanging offset [b] a
  writeWord offset n := write_unchanging offset (Word.bytes n) a

/-! ### Bodies of borrowings -/

/-- The request uses the token of a backward mark. -/
def Request.UsesBackward (m : Mark) : Request → Prop
  | .rewind used | .dropMark used => used = m ∧ m.direction = .backward
  | _ => False

/-- The tokens once a mark was asked for. -/
def gained (tokens : List Mark) : EStateM.Result ArenaError Arena Mark → List Mark
  | .ok m _ => m :: tokens
  | .error _ _ => tokens

/-- The tokens of the marks taken so far, after one more request. -/
def collected (tokens : List Mark) (a : Arena) : Request → List Mark
  | .mark d => gained tokens (Arena.mark d a)
  | .markDefault => gained tokens (Arena.markDefault a)
  | _ => tokens

/-- What a body can do to an arena that has no tokens of backward marks but of those it takes itself,
in `tokens`. It may keep them after their marks were given back, or never give those back; it does not
write over records. Borrowings inside of it may use its tokens, and leave it theirs. -/
inductive Enclosed : Arena → List Mark → Arena → List Mark → Prop where
  | refl (a : Arena) (tokens : List Mark) : Enclosed a tokens a tokens
  | ask {a a' : Arena} {tokens tokens' : List Mark} (run : Enclosed a tokens a' tokens')
      (r : Request) (hcareful : Careful a' r) (howned : ∀ m, r.UsesBackward m → m ∈ tokens') :
      Enclosed a tokens (r.act a') (collected tokens' a' r)
  | scope {a a₁ a₂ a₃ : Arena} {tokens tokens₁ tokens₂ : List Mark} {m : Mark} {ε α : Type}
      [MonadLiftT ArenaM (EStateM ε Arena)] {convert : ArenaError → ε} (hwithin : Within convert)
      (run : Enclosed a tokens a₁ tokens₁) (hmark : mark .backward a₁ = .ok m a₂)
      (body : EStateM ε Arena α) (hafter : after (body a₂) = a₃)
      (inside : Enclosed a₂ tokens₁ a₃ tokens₂) :
      Enclosed a tokens (after (borrow body a₁)) tokens₂
  | refused {a a₁ a₂ : Arena} {tokens tokens₁ : List Mark} {e : ArenaError} {ε α : Type}
      [MonadLiftT ArenaM (EStateM ε Arena)] {convert : ArenaError → ε} (hwithin : Within convert)
      (run : Enclosed a tokens a₁ tokens₁) (hmark : mark .backward a₁ = .error e a₂)
      (body : EStateM ε Arena α) : Enclosed a tokens (after (borrow body a₁)) tokens₁

section Older

variable {record : Nat} {newer rest : List Outstanding}

theorem older_append_of_mem (h : record ∈ newer.map (·.record)) :
    older record (newer ++ rest) = older record newer ++ rest := by
  induction newer with
  | nil => contradiction
  | cons e others ih =>
      rw [List.cons_append, older, older]
      by_cases he : e.record = record
      · rw [if_pos he, if_pos he]
      · rw [if_neg he, if_neg he]
        rw [List.map_cons, List.mem_cons] at h
        exact ih (h.resolve_left (Ne.symm he))

theorem older_append_of_not_mem (h : record ∉ newer.map (·.record)) :
    older record (newer ++ rest) = older record rest := by
  induction newer with
  | nil => rfl
  | cons e others ih =>
      rw [List.map_cons, List.mem_cons, not_or] at h
      rw [List.cons_append, older, if_neg (Ne.symm h.1), ih h.2]

end Older

section Enclosed

variable {a a' : Arena} {S : Stacks} {tokens tokens' : List Mark} {base e : Outstanding}
  {newer rest marks : List Outstanding} {d : Direction} {m : Mark} {r : Request}

/-- The mark `base` and those before it are still outstanding, below whatever was marked since. The
tokens are of marks whose records came after. -/
structure Nested (base : Outstanding) (rest : List Outstanding) (a : Arena) (S : Stacks)
    (tokens : List Mark) : Prop extends Disciplined a S where
  marks : ∃ newer, S.backward = newer ++ base :: rest
  tokens : ∀ m ∈ tokens, m.direction = .backward → m.record + markLength ≤ base.record

namespace Nested

/-- Records that come after a mark are below it. -/
theorem backward_le (h : Nested base rest a S tokens) : a.backward ≤ base.record := by
  obtain ⟨newer, hmarks⟩ := h.marks
  have hchained := h.chained .backward
  rw [show S.of .backward = newer ++ base :: rest from hmarks] at hchained
  exact hchained.of_append.1.1

/-- A mark that is taken now has its record below. -/
theorem record_le (h : Nested base rest a S tokens) (hmark : mark .backward a = .ok m a') :
    m.record + markLength ≤ base.record := by
  rcases mark_cases .backward a with ⟨e, herror⟩ | ⟨-, hfree, hok⟩
  · cases herror.symm.trans hmark
  · cases hok.symm.trans hmark
    have hbackward := h.backward_le
    rw [free] at hfree
    simp only [newRecord]
    omega

theorem mark (h : Nested base rest a S tokens) (d : Direction) :
    Nested base rest (after (mark d a)) (S.taken a d (Arena.mark d a))
      (gained tokens (Arena.mark d a)) := by
  have hmarked := h.toDisciplined.act_mark d
  obtain ⟨newer, hmarks⟩ := h.marks
  cases hmark : Arena.mark d a with
  | error e a' =>
      rw [hmark] at hmarked
      exact ⟨hmarked, ⟨newer, hmarks⟩, h.tokens⟩
  | ok m a' =>
      rw [hmark] at hmarked
      refine ⟨hmarked, ?_, ?_⟩
      · cases d with
        | forward => exact ⟨newer, hmarks⟩
        | backward => exact ⟨_ :: newer, congrArg (List.cons _) hmarks⟩
      · intro t ht hbackward
        rcases List.mem_cons.1 ht with rfl | ht
        · obtain rfl : d = .backward := by
            rcases mark_cases d a with ⟨e, herror⟩ | ⟨-, -, hok⟩
            · cases herror.symm.trans hmark
            · cases hok.symm.trans hmark
              exact hbackward
          exact h.record_le hmark
        · exact h.tokens t ht hbackward

/-- A token of the body is never that of `base`, so its mark is one of those taken since. -/
theorem popped (h : Nested base rest a S tokens) (hmarks : S.of m.direction = e :: marks)
    (hrecord : e.record = m.record) (howned : m.direction = .backward → m ∈ tokens) :
    ∃ newer, (S.withMarks m.direction marks).backward = newer ++ base :: rest := by
  obtain ⟨newer, hsplit⟩ := h.marks
  cases hdirection : m.direction with
  | forward => exact ⟨newer, hsplit⟩
  | backward =>
      have htoken := h.tokens m (howned hdirection) hdirection
      rw [hdirection] at hmarks
      have hsame : e :: marks = newer ++ base :: rest := hmarks.symm.trans hsplit
      cases newer with
      | nil =>
          rw [List.nil_append] at hsame
          injection hsame with hsame
          rw [← hrecord, hsame, markLength] at htoken
          omega
      | cons first others =>
          injection hsame with _ hsame
          exact ⟨others, hsame⟩

theorem rewind (h : Nested base rest a S tokens) (m : Mark)
    (howned : m.direction = .backward → m ∈ tokens) :
    Nested base rest (after (rewind m a)) (S.released m.direction (Arena.rewind m a)) tokens := by
  have hrewound := h.toDisciplined.act_rewind m
  cases hrewind : Arena.rewind m a with
  | error e a' =>
      rw [hrewind] at hrewound
      exact ⟨hrewound, h.marks, h.tokens⟩
  | ok u a' =>
      obtain ⟨-, e, marks, hmarks, hrecord, -⟩ := h.toDisciplined.rewind_granted hrewind
      have hpopped := h.popped hmarks hrecord howned
      rw [hrewind, Stacks.released, hmarks] at hrewound
      rw [Stacks.released, hmarks]
      exact ⟨hrewound, hpopped, h.tokens⟩

theorem dropMark (h : Nested base rest a S tokens) (m : Mark)
    (howned : m.direction = .backward → m ∈ tokens) :
    Nested base rest (after (dropMark m a)) (S.released m.direction (Arena.dropMark m a)) tokens := by
  have hdropped := h.toDisciplined.act_dropMark m
  cases hdrop : Arena.dropMark m a with
  | error e a' =>
      rw [hdrop] at hdropped
      exact ⟨hdropped, h.marks, h.tokens⟩
  | ok u a' =>
      obtain ⟨e, marks, hmarks, hrecord, -⟩ := h.toDisciplined.dropMark_granted hdrop
      have hpopped := h.popped hmarks hrecord howned
      rw [hdrop, Stacks.released, hmarks] at hdropped
      rw [Stacks.released, hmarks]
      exact ⟨hdropped, hpopped, h.tokens⟩

/-- Every request of a body leaves the marks that it has no tokens of. -/
theorem act (h : Nested base rest a S tokens) (r : Request) (hcareful : Careful a r)
    (howned : ∀ m, r.UsesBackward m → m ∈ tokens) :
    Nested base rest (r.act a) (r.track S a) (collected tokens a r) := by
  have hacted := h.toDisciplined.act r (h.spares hcareful)
  cases r with
  | mark d => exact h.mark d
  | markDefault => exact h.mark a.direction
  | rewind m => exact h.rewind m fun hbackward => howned m ⟨rfl, hbackward⟩
  | dropMark m => exact h.dropMark m fun hbackward => howned m ⟨rfl, hbackward⟩
  | _ => exact ⟨hacted, h.marks, h.tokens⟩

/-- The records of older marks are above it. -/
theorem record_lt_of_mem (h : Nested base rest a S tokens) (he : e ∈ rest) :
    base.record < e.record := by
  obtain ⟨newer, hmarks⟩ := h.marks
  have hchained := h.chained .backward
  rw [show S.of .backward = newer ++ base :: rest from hmarks] at hchained
  have hbase := hchained.of_append
  have habove := (hbase.tail.inRegion he).1
  rw [hbase.2.1, cursorBefore, markLength] at habove
  omega

/-- Unwinding a mark whose record came after gives back only such marks. -/
theorem unwind (h : Nested base rest a S tokens) {record : Nat} (hzero : record ≠ 0)
    (hafter : record + markLength ≤ base.record) :
    Nested base rest (after (unwind record a)) (S.unwound record) tokens := by
  have hunwound := h.toDisciplined.act_unwind hzero
  obtain ⟨newer, hmarks⟩ := h.marks
  refine ⟨hunwound, ?_, h.tokens⟩
  rw [Stacks.unwound]
  split
  · rename_i hfound
    have hnewer : record ∈ newer.map (·.record) := by
      rw [hmarks, List.map_append, List.mem_append] at hfound
      apply hfound.resolve_right
      intro holder
      obtain ⟨e, he, rfl⟩ := List.mem_map.1 holder
      rw [markLength] at hafter
      rcases List.mem_cons.1 he with rfl | he
      · omega
      · have hlt := h.record_lt_of_mem he
        omega
    exact ⟨older record newer, by rw [hmarks, older_append_of_mem hnewer]; rfl⟩
  · exact ⟨newer, hmarks⟩

end Nested

/-- A body leaves the marks that it has no tokens of. -/
theorem Enclosed.nested (run : Enclosed a tokens a' tokens') :
    (∃ S, Nested base rest a S tokens) → ∃ S, Nested base rest a' S tokens' := by
  induction run with
  | refl => exact id
  | ask run r hcareful howned ih =>
      intro h
      obtain ⟨S, h⟩ := ih h
      exact ⟨_, h.act r hcareful howned⟩
  | scope hwithin run hmark body hafter inside ih ihinside =>
      intro h
      obtain ⟨S, h⟩ := ih h
      have hmarked := h.mark .backward
      have hzero := h.toDisciplined.mark_record_pos hmark
      have hrecord := h.record_le hmark
      rw [hmark] at hmarked
      -- The body of the inner borrowing does not get the token of its mark.
      obtain ⟨S', h'⟩ := ihinside ⟨_, hmarked.toDisciplined, hmarked.marks, h.tokens⟩
      rw [after_borrow hwithin hmark, hafter]
      exact ⟨_, h'.unwind hzero hrecord⟩
  | refused hwithin run hmark body ih =>
      intro h
      rw [after_borrow_refused hwithin hmark, mark_unchanging _ _ _ _ hmark]
      exact ih h

end Enclosed

/-! ### Borrowings -/

/-- The backward cursor and the marks on it are as before, and each record says what it said. -/
structure Returns (a a' : Arena) : Prop where
  cursor : a'.backward = a.backward
  lastMark : a'.backwardMark = a.backwardMark
  trail : a'.trail .backward = a.trail .backward
  records : ∀ record ∈ a.trail .backward, record ≠ 0 → a'.readRecord record = a.readRecord record

section Returns

variable {a a' a'' : Arena} {S S' : Stacks} {tokens : List Mark} {base : Outstanding}
  {rest : List Outstanding} {m : Mark}

/-- A stack says what is on the chain and in its records. -/
theorem Disciplined.returns (h : Disciplined a S) (h' : Disciplined a' S')
    (hcursor : a'.backward = a.backward) (hmarks : S'.backward = S.backward) : Returns a a' where
  cursor := hcursor
  lastMark := by
    have hlast := h.last .backward
    have hlast' := h'.last .backward
    rw [show S'.of .backward = S.of .backward from hmarks] at hlast'
    exact hlast'.trans hlast.symm
  trail := by
    rw [h.trail_eq, h'.trail_eq, show S'.of .backward = S.of .backward from hmarks]
  records := by
    intro record hrecord hzero
    rw [h.trail_eq, List.mem_append, List.mem_singleton] at hrecord
    obtain ⟨e, he, rfl⟩ := List.mem_map.1 (hrecord.resolve_right hzero)
    obtain ⟨newer, rest, hsplit⟩ := List.mem_iff_append.1 he
    have hchained := h.chained .backward
    have hchained' := h'.chained .backward
    rw [show S'.of .backward = S.of .backward from hmarks, hsplit] at hchained'
    rw [hsplit] at hchained
    rw [(h.readRecord_ok (.refl _ _) hchained.of_append).2,
      (h'.readRecord_ok (.refl _ _) hchained'.of_append).2]

/-- Whatever the body has left behind, unwinding gives back everything since `base`. -/
theorem Nested.unwind_base (h : Nested base rest a S tokens) (hzero : base.record ≠ 0) :
    ∃ S', Arena.unwind base.record a = .ok () { a with
        backward := base.record + markLength, backwardMark := headRecord rest } ∧
      Disciplined { a with
        backward := base.record + markLength, backwardMark := headRecord rest } S' ∧
      S'.backward = rest := by
  have hunwound := h.toDisciplined.act_unwind hzero
  obtain ⟨newer, hmarks⟩ := h.marks
  have hchained := h.chained .backward
  have hmem : base.record ∈ S.backward.map (·.record) := by
    rw [hmarks]
    exact List.mem_map_of_mem (List.mem_append_right _ (.head _))
  have holder : older base.record S.backward = rest := by
    have hnodup := hchained.nodup
    rw [show S.of .backward = newer ++ base :: rest from hmarks, List.map_append, List.map_cons,
      List.nodup_append] at hnodup
    have hnot : base.record ∉ newer.map (·.record) := fun hnewer =>
      hnodup.2.2 _ hnewer _ (.head _) rfl
    rw [hmarks, older_append_of_not_mem hnot, older, if_pos rfl]
  rcases h.toDisciplined.unwind_cases hzero with ⟨hnot, -⟩ | ⟨newer', e, hsplit, he, hunwind⟩
  · exact absurd hmem hnot
  · rw [show S.of .backward = newer' ++ e :: older base.record S.backward from hsplit] at hchained
    have hsaved := hchained.of_append.2.1
    rw [cursorBefore, he] at hsaved
    rw [hunwind, Stacks.unwound, if_pos hmem, holder, hsaved] at hunwound
    rw [holder, hsaved] at hunwind
    exact ⟨_, hunwind, hunwound, rfl⟩

section Within

variable {ε α : Type} [MonadLiftT ArenaM (EStateM ε Arena)] {convert : ArenaError → ε}
  {body : EStateM ε Arena α}

/-- A borrowing whose mark can be unwound answers what its body answered. -/
theorem verdict_borrow (h : Within convert) (hmark : mark .backward a = .ok m a')
    (hunwind : unwind m.record (after (body a')) = .ok () a'') :
    verdictOf (borrow body a) = verdictOf (body a') := by
  rw [borrow, bind_ok (h.ok hmark)]
  cases hbody : body a' with
  | ok x s =>
      rw [hbody, after] at hunwind
      rw [bind_ok (attempt_ok hbody), bind_ok (h.ok hunwind)]
      rfl
  | error e s =>
      rw [hbody, after] at hunwind
      rw [bind_ok (attempt_error hbody), bind_ok (h.ok hunwind)]
      rfl

theorem Disciplined.borrow_returns (h : Disciplined a S) (hwithin : Within convert)
    (hmark : mark .backward a = .ok m a') (inside : Enclosed a' [] (after (body a')) tokens) :
    verdictOf (borrow body a) = verdictOf (body a') ∧ Returns a (after (borrow body a)) := by
  have hmarked := h.act_mark .backward
  have hzero := h.mark_record_pos hmark
  rw [hmark] at hmarked
  have hcursor : m.record + markLength = a.backward := by
    rcases mark_cases .backward a with ⟨e, herror⟩ | ⟨-, hfree, hok⟩
    · cases herror.symm.trans hmark
    · cases hok.symm.trans hmark
      rw [free] at hfree
      simp only [newRecord]
      omega
  have hnone : Nested ⟨m.record, a.backward⟩ S.backward a' _ [] :=
    ⟨hmarked, ⟨[], rfl⟩, List.forall_mem_nil _⟩
  obtain ⟨S', hnested⟩ := inside.nested ⟨_, hnone⟩
  obtain ⟨S'', hunwind, hdisciplined, hmarks⟩ := hnested.unwind_base hzero
  refine ⟨verdict_borrow hwithin hmark hunwind, ?_⟩
  rw [after_borrow hwithin hmark, hunwind]
  exact h.returns hdisciplined hcursor hmarks

end Within

end Returns

/-- Whatever has been asked of a fresh arena, calls that fail change nothing, and a borrowing undoes
what its body has left on the backward cursor. -/
theorem failures_undone {size : Nat} {fresh a : Arena} {L : Ledger} (hcreate : create size = .ok fresh)
    (trace : Trace Careful fresh {} a L) :
    Refuses a ∧
      ∀ {ε α : Type} [MonadLiftT ArenaM (EStateM ε Arena)] {convert : ArenaError → ε}
        (body : EStateM ε Arena α) (m : Mark) (a' : Arena) (tokens : List Mark),
        Within convert → mark .backward a = .ok m a' →
        Enclosed a' [] (after (body a')) tokens →
        verdictOf (borrow body a) = verdictOf (body a') ∧ Returns a (after (borrow body a)) := by
  obtain ⟨S, horderly⟩ := trace.orderly ⟨{}, orderly_create hcreate⟩
  refine ⟨refuses a, ?_⟩
  intro ε α _ convert body m a' tokens hwithin hmark inside
  exact horderly.toDisciplined.borrow_returns hwithin hmark inside

/-- A small arena, once a mark and a lock were taken. -/
def engaged : Arena :=
  Request.act (Request.act
    ⟨(Bytes.zeros 64).write 0 (Word.bytes 64), headerLength, 64, 0, 0, [], none, 1⟩
    (.mark .backward)) .lock

/-- A body that gives back one of its marks and fails before it has given back the next. -/
def faltering : ArenaM Unit := do
  let m ← mark .backward
  rewind m
  let _ ← mark .backward
  let _ ← alloc .backward 4
  throw .directionUnderflow

theorem failures_undone_faltering : ∃ fresh L m tokens,
    create 64 = .ok fresh ∧ Trace Careful fresh {} engaged L ∧
      mark .backward engaged = .ok m engaged.marked ∧
      Enclosed engaged.marked [] (after (faltering engaged.marked)) tokens ∧ Refuses engaged ∧
      verdictOf (borrow faltering engaged) = verdictOf (faltering engaged.marked) ∧
      Returns engaged (after (borrow faltering engaged)) := by
  obtain ⟨fresh, hcreate⟩ : ∃ fresh, create 64 = .ok fresh := ⟨_, rfl⟩
  have hfresh : Trace Careful fresh {} fresh {} := .refl _ _
  have htrace := (hfresh.ask (.mark .backward) trivial).ask .lock trivial
  have hmark : mark .backward engaged = .ok _ engaged.marked := mark_backward_ok (by decide)
  have hmarked := (Enclosed.refl engaged.marked []).ask (.mark .backward) trivial nofun
  have hrewound := hmarked.ask (.rewind ⟨.backward, 52⟩) trivial fun m ⟨hused, _⟩ => by
    rw [← hused]
    decide +kernel
  have hleft := (hrewound.ask (.mark .backward) trivial nofun).ask (.alloc .backward 4) trivial nofun
  have hend : Request.act (Request.act (Request.act (Request.act engaged.marked (.mark .backward))
      (.rewind ⟨.backward, 52⟩)) (.mark .backward)) (.alloc .backward 4) =
        after (faltering engaged.marked) := by decide +kernel
  rw [hend] at hleft
  cases hcreate
  have htrace : Trace Careful _ {} engaged _ := htrace
  have hcreate : create 64 = .ok _ := rfl
  obtain ⟨hrefuses, hborrow⟩ := failures_undone hcreate htrace
  obtain ⟨hanswer, hreturns⟩ := hborrow faltering _ _ _ within_id hmark hleft
  exact ⟨_, _, _, _, hcreate, htrace, hmark, hleft, hrefuses, hanswer, hreturns⟩

end Arena

end FlatLisp
