/-
Module: FlatLisp.Proofs.Reading.Simulation
Purpose: A read in an arena does what the read in terms of trees does. Each turn of the one is a turn
  of the other, and the arena holds what the other has in progress.
Main exports: Reading.Tracks, Reading.Follows, Reading.follows_turn, Reading.answers_read
-/
import FlatLisp.Proofs.Reading.Arrival
import FlatLisp.Proofs.Reading.Stack

namespace FlatLisp

namespace Reading

open Layout
open Source (ofBytes)

/-- The limits under which a reader reads into the base arena `b`. -/
structure LimitsOf (l : Limits) (b : Arena) : Prop where
  bounded : b.Bounded
  stop : l.stop = some b.backward
  depth : l.maxDepth ≤ Cell.maxNesting

/-- The forward cursor of a read in progress. -/
def forwardOf (l : Limits) (p : Parse) : Nat :=
  match p.leaf with
  | some (.symbol ..) => p.text + l.reserved p.frames p.text
  | _ => p.used

/-- While a symbol is in progress its reader holds the lock, with room for all characters that the
symbol may have. -/
def Held (l : Limits) (p : Parse) (s : Reading) : Prop :=
  match p.leaf with
  | some (.symbol _ _ _ chars) =>
      chars.length ≤ l.reserved p.frames p.text ∧
        ∃ id, s.arena.hold = some ⟨id, p.text, some (l.reserved p.frames p.text)⟩ ∧
          s.reader.lock = some ⟨id⟩
  | _ => s.arena.hold = none ∧ s.reader.lock = none

/-- The state `s` is that of the read `p`, begun in the arena `b`. -/
structure Tracks (l : Limits) (b : Arena) (p : Parse) (s : Reading) : Prop where
  start : p.start = b.forward
  laid : Laid b p.encode 0 (contexts p) s.arena
  forward : s.arena.forward = forwardOf l p
  held : Held l p s
  root : s.reader.root = entry b 0 (contexts p)
  inComment : s.reader.inComment = p.inComment
  count : s.reader.count = p.count
  ahead : s.ahead = p.ahead
  pushback : s.reader.pushback.length ≤ Reader.pushbackCapacity
  maxDepth : s.reader.maxDepth = l.maxDepth

/-- The arena `a` is the base `b` with the finished value `t` after it. -/
structure Finished (b : Arena) (t : Tree) (a : Arena) : Prop where
  laid : Laid b t.encode 0 [] a
  forward : a.forward = b.forward + t.encode.length
  hold : a.hold = none

/-- What a turn of a read in the arena answers, and where it leads, is what the outcome of a turn in
terms of trees says. A value that is done leaves an arena in which the next may be begun. -/
def Follows (l : Limits) (b : Arena) (outcome : Parse.Outcome)
    (result : EStateM.Result ReadError Reading Turn) : Prop :=
  match outcome with
  | .again q => ∃ s, result = .ok .again s ∧ Tracks l b q s
  | .starved kept q => ∃ s, result = .ok .starved s ∧ Tracks l b q s ∧ s.reader.pushback = kept
  | .done t q => ∃ s, result = .ok (.done ⟨.arena, b.forward⟩) s ∧ Finished b t s.arena ∧
      Tracks l s.arena q s
  | .failed why => ∃ s, result = .error why s ∧ b.Covers s.arena

variable {l : Limits} {b : Arena} {p q : Parse} {s : Reading}

/-- The same count says the same position. -/
theorem position_eq {r : Reader} (h : r.count = p.count) : r.position = p.position :=
  congrArg UInt32.toNat h

theorem Tracks.position (h : Tracks l b p s) : s.reader.position = p.position :=
  position_eq h.count

/-! ### Taking bytes -/

/-- The state after `taken` bytes were taken and `back` given back. -/
def consumed (s : Reading) (taken : Nat) (back : List UInt8) : Reading :=
  ⟨{ s.reader with
      pushback := back ++ s.reader.pushback.drop taken
      count := s.reader.count + .ofNat taken - .ofNat back.length },
    s.source.drop (taken - s.reader.pushback.length), s.arena⟩

theorem consume_ok {taken : Nat} {back : List UInt8}
    (hpushback : s.reader.pushback.length ≤ Reader.pushbackCapacity)
    (hback : back.length ≤ Reader.pushbackCapacity) (htaken : back.length ≤ taken) :
    consume taken back s = .ok () (s.consumed taken back) := by
  obtain ⟨r, source, a⟩ := s
  have hlength : (back ++ r.pushback.drop taken).length ≤ Reader.pushbackCapacity := by
    rw [List.length_append, List.length_drop]
    simp only at hpushback
    omega
  rw [consume, if_pos hlength]
  rfl

theorem ahead_consumed (s : Reading) (taken : Nat) (back : List UInt8) :
    (s.consumed taken back).ahead = back.map some ++ s.ahead.drop taken := by
  simp only [ahead, consumed, List.map_append, List.append_assoc, List.drop_append, List.length_map,
    List.map_drop]

/-- The input side of a read: both have the same bytes ahead, and have come equally far. -/
structure InStep (l : Limits) (p : Parse) (s : Reading) : Prop where
  inComment : s.reader.inComment = p.inComment
  count : s.reader.count = p.count
  ahead : s.ahead = p.ahead
  pushback : s.reader.pushback.length ≤ Reader.pushbackCapacity
  maxDepth : s.reader.maxDepth = l.maxDepth

/-- The input side does not depend on the arena. -/
theorem InStep.with_arena (h : InStep l p s) (a : Arena) : InStep l p ⟨s.reader, s.source, a⟩ :=
  ⟨h.inComment, h.count, h.ahead, h.pushback, h.maxDepth⟩

theorem InStep.consume (taken : Nat) (back : List UInt8) (h : InStep l p s)
    (hback : back.length ≤ 2) (htaken : back.length ≤ taken) :
    Reading.consume taken back s = .ok () (s.consumed taken back) ∧
      InStep l (p.consume taken back) (s.consumed taken back) := by
  have hfit : back.length ≤ Reader.pushbackCapacity := Nat.le_trans hback (by decide)
  refine ⟨consume_ok h.pushback hfit htaken, h.inComment, ?_, ?_, ?_, h.maxDepth⟩
  · simp only [consumed, Parse.consume, h.count]
  · rw [ahead_consumed, h.ahead]
    rfl
  · have := h.pushback
    simp only [consumed, List.length_append, List.length_drop]
    omega

/-- The state after the bytes that have arrived were taken, and the stall after them, and `kept`
given back. -/
def starved (s : Reading) (taken : Nat) (kept : List UInt8) : Reading :=
  ⟨(s.consumed taken kept).reader, (s.consumed taken kept).source.drop 1, s.arena⟩

theorem pushback_le_of_ahead {bytes : List UInt8} {tail : Source}
    (h : s.ahead = ofBytes bytes ++ tail) (htail : tail.Stalls) :
    s.reader.pushback.length ≤ bytes.length := by
  rw [Reading.ahead] at h
  generalize s.reader.pushback = pushback at h ⊢
  induction pushback generalizing bytes with
  | nil => exact Nat.zero_le _
  | cons c rest ih =>
      cases bytes with
      | nil =>
          match tail, htail, h with
          | [], _, h => contradiction
          | none :: _, _, h => exact absurd (List.cons.inj h).1 (by simp)
      | cons c' bytes => exact Nat.succ_le_succ (ih (List.cons.inj h).2)

/-- Where the bytes run out the input stalls, and what is kept is all that is given back. -/
theorem InStep.starve {bytes : List UInt8} (kept : List UInt8) {tail : Source} (h : InStep l p s)
    (hahead : p.ahead = ofBytes bytes ++ tail) (htail : tail.Stalls) (hkept : kept.length ≤ 3)
    (hle : kept.length ≤ bytes.length) :
    Reading.starve bytes.length kept s = .ok () (s.starved bytes.length kept) ∧
      InStep l (p.starve bytes.length kept) (s.starved bytes.length kept) ∧
      (s.starved bytes.length kept).reader.pushback = kept := by
  have hfit : kept.length ≤ Reader.pushbackCapacity := Nat.le_trans hkept (by decide)
  have hsplit : s.ahead = ofBytes bytes ++ tail := h.ahead.trans hahead
  have hpushback := pushback_le_of_ahead hsplit htail
  have hnone : s.reader.pushback.drop bytes.length = [] := List.drop_eq_nil_of_le hpushback
  have hreader : (s.starved bytes.length kept).reader.pushback = kept := by
    simp only [starved, consumed, hnone, List.append_nil]
  refine ⟨?_, ⟨h.inComment, ?_, ?_, ?_, h.maxDepth⟩, hreader⟩
  · rw [Reading.starve, bind_ok (consume_ok h.pushback hfit hle)]
    rfl
  · simp only [starved, consumed, Parse.starve, h.count]
  · have hsource : (s.starved bytes.length kept).source =
        s.source.drop (bytes.length + 1 - s.reader.pushback.length) := by
      rw [starved, consumed, List.drop_drop,
        show bytes.length - s.reader.pushback.length + 1 =
          bytes.length + 1 - s.reader.pushback.length by omega]
    have hspent : (s.reader.pushback.map some).drop (bytes.length + 1) = [] :=
      List.drop_eq_nil_of_le (by rw [List.length_map]; omega)
    rw [Reading.ahead, hreader, hsource, Parse.starve, ← h.ahead, Reading.ahead,
      List.drop_append, List.length_map, hspent, List.nil_append]
  · rw [hreader]
    exact hfit

theorem Tracks.inStep (h : Tracks l b p s) : InStep l p s :=
  ⟨h.inComment, h.count, h.ahead, h.pushback, h.maxDepth⟩

/-- Nothing of what is in progress depends on the bytes ahead. -/
theorem Tracks.of_inStep {s' : Reading} (h : Tracks l b p s) (hstep : InStep l q s')
    (hlists : q.lists = p.lists) (hleaf : q.leaf = p.leaf) (hstart : q.start = p.start)
    (harena : s'.arena = s.arena) (hroot : s'.reader.root = s.reader.root)
    (hlock : s'.reader.lock = s.reader.lock) : Tracks l b q s' := by
  obtain ⟨lists, leaf, inComment, count, start, ahead⟩ := q
  obtain ⟨lists', leaf', inComment', count', start', ahead'⟩ := p
  obtain ⟨r, source, a⟩ := s'
  obtain ⟨r', source', a'⟩ := s
  dsimp only at hlists hleaf hstart harena hroot hlock
  subst hlists hleaf hstart harena
  refine ⟨h.start, h.laid, h.forward, ?_, hroot.trans h.root, hstep.inComment, hstep.count,
    hstep.ahead, hstep.pushback, hstep.maxDepth⟩
  have hheld := h.held
  unfold Held at hheld ⊢
  dsimp only at hheld ⊢
  rw [hlock]
  exact hheld

theorem Tracks.consume (taken : Nat) (back : List UInt8) (h : Tracks l b p s)
    (hback : back.length ≤ 2) (htaken : back.length ≤ taken) :
    Reading.consume taken back s = .ok () (s.consumed taken back) ∧
      Tracks l b (p.consume taken back) (s.consumed taken back) := by
  obtain ⟨hconsume, hnext⟩ := h.inStep.consume taken back hback htaken
  exact ⟨hconsume, h.of_inStep hnext rfl rfl rfl rfl rfl rfl⟩

theorem Tracks.starve {bytes : List UInt8} (kept : List UInt8) {tail : Source}
    (h : Tracks l b p s)
    (hahead : p.ahead = ofBytes bytes ++ tail) (htail : tail.Stalls) (hkept : kept.length ≤ 3)
    (hle : kept.length ≤ bytes.length) :
    Reading.starve bytes.length kept s = .ok () (s.starved bytes.length kept) ∧
      Tracks l b (p.starve bytes.length kept) (s.starved bytes.length kept) ∧
      (s.starved bytes.length kept).reader.pushback = kept := by
  obtain ⟨hstarve, hnext, hreader⟩ := h.inStep.starve kept hahead htail hkept hle
  exact ⟨hstarve, h.of_inStep hnext rfl rfl rfl rfl rfl rfl, hreader⟩

/-! ### Comments -/

theorem get_ok (s : Reading) : (get : ReadM Reading) s = .ok s s := rfl

theorem follows_commentTurn (h : Tracks l b p s) :
    Follows l b p.commentTurn (Reading.commentTurn s) := by
  obtain ⟨bytes, tail, hahead, htail⟩ := p.ahead.exists_split
  rw [Parse.commentTurn, Reading.commentTurn, bind_ok (get_ok s), h.ahead, hahead]
  rcases scanComment_ofBytes 0 bytes with ⟨taken, _, _, hscan⟩ | hscan
  · obtain ⟨hconsume, hnext⟩ := h.consume taken [] (by simp) (by simp)
    rw [hscan, Nat.zero_add]
    dsimp only
    rw [bind_ok hconsume]
    exact ⟨_, rfl, hnext.of_inStep ⟨rfl, hnext.count, hnext.ahead, hnext.pushback,
      hnext.maxDepth⟩ rfl rfl rfl rfl rfl rfl⟩
  · obtain ⟨hstarve, hnext, hkept⟩ := h.starve [] hahead htail (by simp) (by simp)
    rw [hscan, Nat.zero_add, scanComment_of_stalls htail]
    dsimp only
    rw [bind_ok hstarve]
    exact ⟨_, rfl, hnext, hkept⟩

/-! ### Completing a value -/

/-- The value `t` is all in memory, and its frame `c` is still there. -/
structure Closing (l : Limits) (b : Arena) (p : Parse) (t : Tree) (c : Context) (s : Reading) :
    Prop where
  start : p.start = b.forward
  leaf : p.leaf = none
  laid : Laid b (OpenList.encodeAll p.lists ++ t.encode) 0 (c :: listContexts b.forward p.lists)
    s.arena
  cell : c.cell = b.forward + (OpenList.encodeAll p.lists).length
  forward : s.arena.forward = b.forward + (OpenList.encodeAll p.lists ++ t.encode).length
  hold : s.arena.hold = none
  lock : s.reader.lock = none
  root : s.reader.root = entry b 0 (c :: listContexts b.forward p.lists)
  inComment : s.reader.inComment = p.inComment
  count : s.reader.count = p.count
  ahead : s.ahead = p.ahead
  pushback : s.reader.pushback.length ≤ Reader.pushbackCapacity
  maxDepth : s.reader.maxDepth = l.maxDepth

/-- An arena in which nothing is in progress is laid out on itself. -/
theorem laid_self {a : Arena} (h : a.Bounded) : Laid a [] 0 [] a where
  size := rfl
  below := .refl _ _ _
  above := .refl _ _ _
  cells := Bytes.holds_nil.2 (Nat.le_trans h.cursors h.backward)
  frames := trivial
  forward := Nat.le_refl _
  cursors := h.cursors
  backward := rfl
  backwardMark := rfl
  forwardMark := rfl
  directions := rfl
  room := Nat.zero_le _

/-- A finished value leaves an arena in which the next may be begun. -/
theorem Finished.bounded {t : Tree} {a : Arena} (hb : b.Bounded) (h : Finished b t a) : a.Bounded :=
  h.laid.bounded hb

theorem Finished.limits {t : Tree} {a : Arena} (hl : LimitsOf l b) (h : Finished b t a) :
    LimitsOf l a where
  bounded := h.bounded hl.bounded
  stop := by
    rw [hl.stop, h.laid.backward]
    rfl
  depth := hl.depth

/-- Between values nothing but the cursors matters. -/
theorem tracks_idle {a : Arena} (r : Reader) (source : Source) (ha : a.Bounded)
    (hhold : a.hold = none) (hlock : r.lock = none) (hroot : r.root = 0)
    (hpushback : r.pushback.length ≤ Reader.pushbackCapacity) (hdepth : r.maxDepth = l.maxDepth) :
    Tracks l a
      { inComment := r.inComment, count := r.count, start := a.forward,
        ahead := (⟨r, source, a⟩ : Reading).ahead } ⟨r, source, a⟩ where
  start := rfl
  laid := laid_self ha
  forward := rfl
  held := ⟨hhold, hlock⟩
  root := hroot
  inComment := rfl
  count := rfl
  ahead := rfl
  pushback := hpushback
  maxDepth := hdepth

/-- Completing a value does what it does in terms of trees. -/
theorem follows_complete {t : Tree} {c : Context} (hl : LimitsOf l b) (hvalid : p.Valid l)
    (h : Closing l b p t c s) :
    Follows l b (p.complete t)
      (Reading.complete (slot b (p.lists.length + 1)) (frameOf b c p.lists.length 0) s) := by
  obtain ⟨lists, leaf, inComment, count, start, ahead⟩ := p
  obtain ⟨r, source, a⟩ := s
  have hstart := h.start
  have hleaf := h.leaf
  dsimp only at hstart hleaf
  subst hstart hleaf
  cases lists with
  | nil =>
      obtain ⟨hcomplete, hlaid⟩ := complete_top hl.bounded h.laid (slot b 1) r source
      have hfinished : Finished b t (popped b a 0) := ⟨hlaid.with_child 0, h.forward, h.hold⟩
      have hcell := h.cell
      have hcount := h.count
      have hahead := h.ahead
      have hcomment := h.inComment
      dsimp only at hcount hahead hcomment
      simp only [OpenList.encodeAll, List.length_nil, Nat.add_zero] at hcell
      refine ⟨⟨{ r with root := 0 }, source, popped b a 0⟩, ?_, hfinished, ?_⟩
      · rw [List.length_nil, hcomplete, hcell]
      · have htracks := tracks_idle (l := l) { r with root := 0 } source
          (hfinished.bounded hl.bounded) hfinished.hold h.lock rfl h.pushback h.maxDepth
        rw [hfinished.forward] at htracks
        rw [← hcount, ← hahead, ← hcomment]
        exact htracks
  | cons o outer =>
      have ho := hvalid.lists o (List.mem_cons_self ..)
      by_cases hfull : o.children.length = Header.maxCount
      · obtain ⟨s', hcomplete, hcovers⟩ := complete_tooLong hl.bounded h.laid ho hfull r source
        rw [Parse.complete]
        dsimp only
        rw [if_pos hfull]
        have hposition := position_eq h.count
        dsimp only at hposition
        rw [hposition] at hcomplete
        exact ⟨s', hcomplete, hcovers⟩
      · obtain ⟨a', hcomplete, hlaid, hforward, hhold⟩ :=
          complete_again hl.bounded h.laid ho hfull r source
        rw [Parse.complete]
        dsimp only
        rw [if_neg hfull]
        have hlength := length_encodeAll_adopt o outer t
        have hheld := hhold.trans h.hold
        have hused := hforward.trans h.forward
        refine ⟨_, hcomplete, rfl, ?_, ?_, ⟨hheld, h.lock⟩, h.root, h.inComment, h.count, h.ahead,
          h.pushback, h.maxDepth⟩
        · rw [Parse.encode, Parse.leafBytes, List.append_nil]
          exact hlaid
        · rw [hused, forwardOf, Parse.used, Parse.encode, Parse.leafBytes, List.append_nil, hlength]

/-! ### Beginning a value -/

theorem encode_of_leaf (hleaf : p.leaf = none) : p.encode = OpenList.encodeAll p.lists := by
  rw [Parse.encode, hleaf, Parse.leafBytes, List.append_nil]

theorem contexts_of_leaf (hleaf : p.leaf = none) : contexts p = listContexts p.start p.lists := by
  rw [contexts, hleaf]

theorem frames_of_leaf (hleaf : p.leaf = none) : p.frames = p.lists.length := by
  simp [Parse.frames, hleaf]

theorem Tracks.hold_none (h : Tracks l b p s) (hleaf : p.leaf = none) :
    s.arena.hold = none ∧ s.reader.lock = none := by
  have hheld := h.held
  rw [Held, hleaf] at hheld
  exact hheld

theorem Tracks.forward_none (h : Tracks l b p s) (hleaf : p.leaf = none) :
    s.arena.forward = b.forward + p.encode.length := by
  rw [h.forward, forwardOf, hleaf, Parse.used, h.start]

theorem cell_le (start : Nat) (lists : List OpenList) :
    ∀ c ∈ listContexts start lists, c.cell ≤ start + (OpenList.encodeAll lists).length := by
  induction lists with
  | nil => intro c hc; cases hc
  | cons o outer ih =>
      intro c hc
      rw [OpenList.encodeAll, List.length_append]
      rcases List.mem_cons.1 hc with rfl | hc
      · simp only [listContext]
        omega
      · have := ih c hc
        omega

/-- What is in focus between the children of a list, or between values. -/
def focusOf (b : Arena) (p : Parse) : Focus :=
  ⟨leafOf b 0 (listContexts p.start p.lists), Parse.levelOf p.lists, p.lists.length⟩

/-- The offset of the frame in focus is what a new frame is linked to. -/
theorem parent_focusOf (b : Arena) (p : Parse) :
    ((focusOf b p).leaf.map (·.1)).getD 0 = parentOf b p.lists.length := by
  unfold focusOf
  cases p.lists with
  | nil => rfl
  | cons o outer => simp [listContexts, leafOf, parentOf]

/-- A value is begun in memory where there is room for it. -/
theorem Tracks.begin (hl : LimitsOf l b) (h : Tracks l b p s) (hleaf : p.leaf = none)
    (kind : Frame.Kind) (flags : UInt8) (header : Header) :
    match l.shortage p.frames p.used header.length with
    | some why => ∃ s', Reading.begin kind flags (parentOf b p.lists.length) header s =
        .error why s' ∧ b.Covers s'.arena
    | none => ∃ a', Reading.begin kind flags (parentOf b p.lists.length) header s =
        .ok () ⟨{ s.reader with
            root := entry b 0 (⟨kind, flags, p.used⟩ :: listContexts p.start p.lists) },
          s.source, a'⟩ ∧
        Laid b (p.encode ++ header.encode) 0
          (⟨kind, flags, p.used⟩ :: listContexts p.start p.lists) a' ∧
        a'.forward = b.forward + (p.encode ++ header.encode).length ∧ a'.hold = none := by
  have hlaid := h.laid
  have hroot := h.root
  have hlt := hlaid.forward_lt hl.bounded
  have hcells : ∀ c ∈ listContexts p.start p.lists, c.cell < 65536 := by
    intro c hc
    have := cell_le p.start p.lists c hc
    rw [h.start, ← encode_of_leaf hleaf] at this
    omega
  have hused : b.forward + p.encode.length = p.used := by rw [Parse.used, h.start]
  rw [contexts_of_leaf hleaf] at hlaid hroot
  have hbegin := begin_ok hl.bounded hlaid (h.forward_none hleaf) (h.hold_none hleaf).1 hcells hroot
    hl.stop s.source kind flags header
  rw [length_listContexts, ← frames_of_leaf hleaf, hused] at hbegin
  rw [← frames_of_leaf hleaf]
  exact hbegin

/-- Between values there are no frames. -/
theorem Tracks.laid_idle (hl : LimitsOf l b) (h : Tracks l b p s) (hroot : s.reader.root = 0) :
    Laid b p.encode 0 [] s.arena := by
  have hlaid := h.laid
  have hentry := h.root
  cases hcontexts : contexts p with
  | nil =>
      rw [hcontexts] at hlaid
      exact hlaid
  | cons c outer =>
      rw [hcontexts] at hlaid hentry
      have hpos := hlaid.slot_pos hl.bounded
      rw [hroot, entry] at hentry
      simp only [slot, frameCost_eq, List.length_cons] at hpos hentry
      omega

theorem pure_ok {α : Type} (x : α) (s : Reading) : (pure x : ReadM α) s = .ok x s := rfl

/-- What follows a value's beginning decides where a turn leads that begins one. -/
theorem follows_begin (hl : LimitsOf l b) (h : Tracks l b p s) (hleaf : p.leaf = none)
    (kind : Frame.Kind) (flags : UInt8) (header : Header) (next : Parse) (rest : ReadM Turn)
    (hrest : ∀ a', Laid b (OpenList.encodeAll p.lists ++ header.encode) 0
        (⟨kind, flags, p.start + (OpenList.encodeAll p.lists).length⟩ ::
          listContexts p.start p.lists) a' →
      a'.forward = b.forward + (OpenList.encodeAll p.lists ++ header.encode).length →
      a'.hold = none →
      Follows l b (.again next) (rest ⟨{ s.reader with
        root := entry b 0 (⟨kind, flags, p.start + (OpenList.encodeAll p.lists).length⟩ ::
          listContexts p.start p.lists) }, s.source, a'⟩)) :
    Follows l b (p.begin l header.length next)
      ((Reading.begin kind flags (parentOf b p.lists.length) header >>= fun _ => rest) s) := by
  have hbegin := h.begin hl hleaf kind flags header
  have hused : p.used = p.start + (OpenList.encodeAll p.lists).length := by
    rw [Parse.used, encode_of_leaf hleaf]
  rw [encode_of_leaf hleaf] at hbegin
  rw [Parse.begin]
  cases hshort : l.shortage p.frames p.used header.length with
  | some why =>
      rw [hshort] at hbegin
      obtain ⟨s', hbegin, hcovers⟩ := hbegin
      exact ⟨s', bind_error hbegin, hcovers⟩
  | none =>
      rw [hshort] at hbegin
      obtain ⟨a', hbegin, hlaid, hforward, hhold⟩ := hbegin
      rw [bind_ok hbegin, hused]
      rw [hused] at hlaid
      exact hrest a' hlaid hforward hhold

theorem follows_list (hl : LimitsOf l b) (h : Tracks l b p s) (hleaf : p.leaf = none)
    (sigil : Sigil) :
    Follows l b (p.accept l (.list sigil)) (Reading.accept (focusOf b p) (.list sigil) s) := by
  rw [Reading.accept, Parse.accept, bind_ok (get_ok s), h.maxDepth]
  by_cases hdepth : l.maxDepth ≤ (focusOf b p).depth
  · rw [if_pos hdepth, if_pos (show l.maxDepth ≤ p.lists.length from hdepth)]
    exact ⟨s, by rw [← h.position]; rfl, h.laid.covers hl.bounded⟩
  · rw [if_neg hdepth, if_neg (show ¬ l.maxDepth ≤ p.lists.length from hdepth), parent_focusOf]
    refine follows_begin hl h hleaf _ _ (.list 0 sigil false) _ _ fun a' hlaid hforward hhold => ?_
    generalize hnext : { p with lists := ⟨sigil, []⟩ :: p.lists : Parse } = next
    have hleaf' : next.leaf = none := by rw [← hnext]; exact hleaf
    have hencode : next.encode =
        OpenList.encodeAll p.lists ++ (Header.list 0 sigil false).encode := by
      rw [encode_of_leaf hleaf', ← hnext]
      simp [OpenList.encodeAll, OpenList.encode, OpenList.header, Tree.encodeAll]
    have hcontexts : contexts next =
        ⟨.list, UInt8.ofNat sigil.code, p.start + (OpenList.encodeAll p.lists).length⟩ ::
          listContexts p.start p.lists := by
      rw [contexts_of_leaf hleaf', ← hnext]
      rfl
    have hstart : next.start = b.forward := by rw [← hnext]; exact h.start
    refine ⟨_, pure_ok _ _, hstart, ?_, ?_, ?_, ?_, ?_, ?_, ?_, h.pushback, h.maxDepth⟩
    · rw [hencode, hcontexts]
      exact hlaid
    · rw [forwardOf, hleaf', Parse.used, hencode, hstart]
      exact hforward
    · rw [Held, hleaf']
      exact ⟨hhold, (h.hold_none hleaf).2⟩
    · rw [hcontexts]
    · rw [← hnext]
      exact h.inComment
    · rw [← hnext]
      exact h.count
    · rw [← hnext]
      exact h.ahead

theorem follows_integer (hl : LimitsOf l b) (h : Tracks l b p s) (hleaf : p.leaf = none) :
    Follows l b (p.accept l .integer) (Reading.accept (focusOf b p) .integer s) := by
  rw [Reading.accept, Parse.accept, parent_focusOf]
  refine follows_begin hl h hleaf _ _ (.integer 0) _ _ fun a' hlaid hforward hhold => ?_
  have hencode : (p.withLeaf (some (.integer false false 0))).encode =
      OpenList.encodeAll p.lists ++ (Header.integer 0).encode := by
    simp [Parse.encode, Parse.withLeaf, Parse.leafBytes, Leaf.encode, Leaf.header, Leaf.chars,
      Leaf.signed]
  refine ⟨_, pure_ok _ _, h.start, ?_, ?_, ⟨hhold, (h.hold_none hleaf).2⟩, rfl, h.inComment,
    h.count, h.ahead, h.pushback, h.maxDepth⟩
  · rw [hencode]
    exact hlaid
  · have hforwardOf : forwardOf l (p.withLeaf (some (.integer false false 0))) =
        (p.withLeaf (some (.integer false false 0))).used := rfl
    rw [hforwardOf, Parse.used, hencode, hforward, Parse.withLeaf, h.start]

/-- All room that a symbol may need is set aside under a lock. -/
theorem reserveSymbol_ok {a : Arena} (hhold : a.hold = none) (r : Reader) (source : Source) :
    Reading.reserveSymbol ⟨r, source, a⟩ =
      .ok () ⟨{ r with lock := some ⟨a.nextLock⟩ }, source,
        { a with
          forward := a.forward + min Header.maxSymbol a.free
          hold := some ⟨a.nextLock, a.forward, some (min Header.maxSymbol a.free)⟩
          nextLock := if a.nextLock = Arena.maxLock then 1 else a.nextLock + 1 }⟩ := by
  have hreserve := Arena.reserve_ok (min Header.maxSymbol a.free)
    (a := { a with
      hold := some ⟨a.nextLock, a.forward, none⟩
      nextLock := if a.nextLock = Arena.maxLock then 1 else a.nextLock + 1 })
    rfl rfl (Nat.min_le_right ..)
  rw [Reading.reserveSymbol, bind_ok (lift_arena_ok (Arena.lock_ok hhold)), bind_ok (get_ok _)]
  exact bind_ok (lift_arena_ok hreserve)

theorem follows_symbol (hl : LimitsOf l b) (h : Tracks l b p s) (hleaf : p.leaf = none)
    (sigil : Sigil) (quoted : Bool) :
    Follows l b (p.accept l (.symbol sigil quoted))
      (Reading.accept (focusOf b p) (.symbol sigil quoted) s) := by
  rw [Reading.accept, Parse.accept, parent_focusOf]
  refine follows_begin hl h hleaf _ _ (.symbol 0 sigil quoted false 0) _ _
    fun a' hlaid hforward hhold => ?_
  generalize hnext : p.withLeaf (some (.symbol sigil quoted false [])) = next
  have hleaf' : next.leaf = some (.symbol sigil quoted false []) := by rw [← hnext]; rfl
  have hencode : next.encode =
      OpenList.encodeAll p.lists ++ (Header.symbol 0 sigil quoted false 0).encode := by
    simp [← hnext, Parse.encode, Parse.withLeaf, Parse.leafBytes, Leaf.encode, Leaf.header,
      Leaf.chars]
  have htext : next.text = a'.forward := by
    rw [hforward, ← hnext, List.length_append, Header.length_encode, ← h.start, ← Nat.add_assoc]
    rfl
  have hframes : next.frames = p.lists.length + 1 := by
    rw [← hnext]
    rfl
  have hreserved : l.reserved next.frames next.text = min Header.maxSymbol a'.free := by
    rw [Limits.reserved, hl.stop, htext, hframes, Arena.free, hlaid.backward, List.length_cons,
      length_listContexts]
    rfl
  have hcontexts : contexts next =
      ⟨.symbol, if quoted then Frame.quotedFlag else 0,
        p.start + (OpenList.encodeAll p.lists).length⟩ :: listContexts p.start p.lists := by
    rw [← hnext]
    cases quoted <;> rfl
  refine ⟨_, (bind_ok (reserveSymbol_ok hhold _ _)).trans (pure_ok _ _), ?_, ?_, ?_, ?_, ?_, ?_, ?_,
    ?_, h.pushback, h.maxDepth⟩
  · rw [← hnext]
    exact h.start
  · rw [hencode, hcontexts]
    have hcursors := hlaid.cursors
    refine hlaid.with_forward ?_ ?_ _ _
    · rw [hforward]
      exact Nat.le_add_right ..
    · simp only [Arena.free]
      omega
  · rw [forwardOf, hleaf', hreserved, htext]
  · rw [Held, hleaf', hreserved, htext]
    exact ⟨Nat.zero_le _, _, rfl, rfl⟩
  · rw [hcontexts]
  · rw [← hnext]
    exact h.inComment
  · rw [← hnext]
    exact h.count
  · rw [← hnext]
    exact h.ahead

theorem encode_tree (o : OpenList) : o.tree.encode = o.encode := by
  rw [OpenList.tree, Tree.encode, OpenList.encode, OpenList.header]

theorem follows_close (hl : LimitsOf l b) (hvalid : p.Valid l) (h : Tracks l b p s)
    (hleaf : p.leaf = none) :
    Follows l b (p.accept l .close) (Reading.accept (focusOf b p) .close s) := by
  cases hlists : p.lists with
  | nil =>
      have hfocus : (focusOf b p).leaf = none := by rw [focusOf, hlists]; rfl
      rw [Parse.accept_close_nil l hlists, Reading.accept, hfocus]
      exact ⟨s, by rw [← h.position]; rfl, h.laid.covers hl.bounded⟩
  | cons o outer =>
      have hlaid := h.laid
      have hforward := h.forward_none hleaf
      have hroot := h.root
      have hencode : p.encode = OpenList.encodeAll outer ++ o.tree.encode := by
        rw [encode_of_leaf hleaf, hlists, OpenList.encodeAll, encode_tree]
      have hcontexts : contexts p =
          listContext b.forward o outer :: listContexts b.forward outer := by
        rw [contexts_of_leaf hleaf, hlists, h.start]
        rfl
      have hfocus : (focusOf b p).leaf = some (slot b (outer.length + 1),
          frameOf b (listContext b.forward o outer) outer.length 0) := by
        rw [focusOf, hlists, h.start]
        simp [listContexts, leafOf]
      rw [hencode] at hlaid hforward
      rw [hcontexts] at hlaid hroot
      rw [Parse.accept_close_cons l hlists, Reading.accept, hfocus]
      have hsub : ({ p with lists := outer } : Parse).Valid l := by
        refine ⟨?_, hvalid.leaf, ?_⟩
        · intro x hx
          exact hvalid.lists x (by rw [hlists]; exact List.mem_cons_of_mem _ hx)
        · have := hvalid.depth
          rw [hlists, List.length_cons] at this
          exact Nat.le_of_succ_le this
      exact follows_complete (p := { p with lists := outer }) hl hsub
        ⟨h.start, hleaf, hlaid, rfl, hforward, (h.hold_none hleaf).1, (h.hold_none hleaf).2, hroot,
          h.inComment, h.count, h.ahead, h.pushback, h.maxDepth⟩

/-- Acting on a token does what it does in terms of trees. -/
theorem follows_accept (hl : LimitsOf l b) (hvalid : p.Valid l) (h : Tracks l b p s)
    (hleaf : p.leaf = none) (token : Token) :
    Follows l b (p.accept l token) (Reading.accept (focusOf b p) token s) := by
  cases token with
  | comment =>
      exact ⟨_, rfl, h.of_inStep ⟨rfl, h.count, h.ahead, h.pushback, h.maxDepth⟩ rfl rfl rfl rfl
        rfl rfl⟩
  | close => exact follows_close hl hvalid h hleaf
  | list sigil => exact follows_list hl h hleaf sigil
  | symbol sigil quoted => exact follows_symbol hl h hleaf sigil quoted
  | integer => exact follows_integer hl h hleaf

/-- Between values, or between the children of a list. -/
theorem follows_tokenTurn (hl : LimitsOf l b) (hvalid : p.Valid l) (h : Tracks l b p s)
    (hleaf : p.leaf = none) :
    Follows l b (p.tokenTurn l) (Reading.tokenTurn (focusOf b p) s) := by
  obtain ⟨bytes, tail, hahead, htail⟩ := p.ahead.exists_split
  rw [Parse.tokenTurn, Reading.tokenTurn, bind_ok (get_ok s), h.ahead, hahead,
    show (focusOf b p).level = Parse.levelOf p.lists from rfl]
  rcases scanLead_ofBytes (Parse.levelOf p.lists) 0 bytes with
    ⟨taken, lead, ⟨_, _, hlead⟩, hscan⟩ | ⟨blanks, run, rfl, hrun, _, hstall⟩
  · rw [hscan, Nat.zero_add]
    cases lead with
    | starved run => exact hlead.elim
    | accepted token back =>
        obtain ⟨hconsume, hnext⟩ := h.consume taken back hlead.1 hlead.2
        dsimp only
        rw [bind_ok hconsume]
        exact follows_accept (p := p.consume taken back) hl (hvalid.of_same rfl rfl) hnext hleaf
          token
    | rejected cause found =>
        obtain ⟨hconsume, hnext⟩ := h.consume taken [] (by simp) (by simp)
        dsimp only
        rw [bind_ok hconsume]
        exact ⟨_, by rw [← hnext.position]; rfl, hnext.laid.covers hl.bounded⟩
  · obtain ⟨hstarve, hnext, hkept⟩ := h.starve run hahead htail hrun (by simp)
    rw [hstall tail htail, Nat.zero_add]
    dsimp only
    rw [bind_ok hstarve]
    exact ⟨_, rfl, hnext, hkept⟩

/-! ### Symbols -/

theorem has_escaped (b : Arena) (start : Nat) (lists : List OpenList) (sigil : Sigil)
    (quoted escaped : Bool) (chars : List UInt8) (n child : Nat) :
    (frameOf b (leafContext start lists (.symbol sigil quoted escaped chars)) n child).has
      Frame.escapedFlag = escaped := by
  change (symbolFlags quoted escaped &&& Frame.escapedFlag != 0) = escaped
  revert quoted escaped
  decide

/-- The flags of the frame follow the escape. -/
theorem withFlag_escaped (b : Arena) (start : Nat) (lists : List OpenList) (sigil : Sigil)
    {quoted escaped escaped' : Bool} (chars chars' : List UInt8) (n child : Nat)
    (h : quoted = false → escaped = false) (h' : quoted = false → escaped' = false) :
    (if quoted then
        (frameOf b (leafContext start lists (.symbol sigil quoted escaped chars)) n child).withFlag
          Frame.escapedFlag escaped'
      else frameOf b (leafContext start lists (.symbol sigil quoted escaped chars)) n child) =
      frameOf b (leafContext start lists (.symbol sigil quoted escaped' chars')) n child := by
  cases quoted with
  | true =>
      have hflags : (if escaped' then symbolFlags true escaped ||| Frame.escapedFlag
          else symbolFlags true escaped &&& ~~~Frame.escapedFlag) = symbolFlags true escaped' := by
        revert escaped escaped'
        decide
      simp only [if_true, Frame.withFlag, frameOf, leafContext, hflags]
  | false =>
      rw [h rfl, h' rfl]
      rfl

/-- Writing no characters is writing nothing. -/
theorem write_chars {r : Reader} {source : Source} {a : Arena} {offset : Nat} {chars : List UInt8}
    (hlive : a.Live offset chars.length) (rest : ReadM Turn) :
    (if chars ≠ [] then (liftM (Arena.write offset chars) >>= fun _ => rest) else rest : ReadM Turn)
        ⟨r, source, a⟩ =
      rest ⟨r, source, { a with memory := a.memory.write offset chars }⟩ := by
  by_cases hchars : chars = []
  · rw [if_neg (by simp [hchars]), hchars]
    rfl
  · rw [if_pos hchars, bind_ok (lift_arena_ok (Arena.write_ok hlive))]

/-- What a read does after a scan of a symbol, which has `length` characters by then. -/
def afterSymbol (offset : Nat) (f : Frame) (sigil : Sigil) (quoted : Bool) (length : Nat)
    (run : SymbolRun) : ReadM Turn :=
  match run.ending with
  | .starved => do
      starve run.taken []
      setHeader f.cell (.symbol length sigil quoted false 0)
      Frame.store offset (if quoted then f.withFlag Frame.escapedFlag run.escaped else f)
      return .starved
  | .tooLong found => do
      consume run.taken []
      reject .symbolTooLong (some found)
  | .full => do
      consume run.taken []
      throw (.fault (.arena (.outOfMemory 1 (← get).arena.free)))
  | .closed back => do
      consume run.taken back
      settleSymbol offset length
      let chars ← look fun a => (a.bytes (f.cell + Header.symbolLength) length).mapError .arena
      setHeader f.cell (.symbol length sigil quoted false (Hash.key8 chars))
      Reading.complete offset f

/-- A turn inside a symbol writes the characters that it finds. -/
theorem symbolTurn_eq (offset : Nat) {f : Frame} (r : Reader) (source : Source) {a : Arena}
    {length : Nat} {sigil : Sigil} {quoted : Bool} (run : SymbolRun)
    (hheader : Cell.load a .unmapped ⟨.arena, f.cell⟩ = .ok (.symbol length sigil quoted false 0))
    (hrun : scanSymbol quoted (f.has Frame.escapedFlag) length
      (a.forward - (f.cell + Header.symbolLength + length)) (⟨r, source, a⟩ : Reading).ahead = run)
    (hlive : a.Live (f.cell + Header.symbolLength + length) run.chars.length) :
    Reading.symbolTurn offset f ⟨r, source, a⟩ =
      afterSymbol offset f sigil quoted (length + run.chars.length) run
        ⟨r, source, { a with
          memory := a.memory.write (f.cell + Header.symbolLength + length) run.chars }⟩ := by
  rw [Reading.symbolTurn, Reading.header, bind_ok (look_ok hheader)]
  dsimp only
  rw [bind_ok (get_ok _)]
  dsimp only
  rw [hrun]
  exact write_chars hlive _

/-- In the middle of a turn inside a symbol: the characters `longer` are in memory, of which the
header and the frame count `known`. -/
structure Spelling (l : Limits) (b : Arena) (p : Parse) (sigil : Sigil) (quoted escaped : Bool)
    (known longer : List UInt8) (s : Reading) : Prop where
  start : p.start = b.forward
  laid : Laid b (OpenList.encodeAll p.lists ++
      ((Header.symbol known.length sigil quoted false 0).encode ++ longer)) 0
    (leafContext p.start p.lists (.symbol sigil quoted escaped known) ::
      listContexts p.start p.lists) s.arena
  frames : p.frames = p.lists.length + 1
  forward : s.arena.forward = p.text + l.reserved p.frames p.text
  room : longer.length ≤ l.reserved p.frames p.text
  held : ∃ id, s.arena.hold = some ⟨id, p.text, some (l.reserved p.frames p.text)⟩ ∧
    s.reader.lock = some ⟨id⟩
  root : s.reader.root = entry b 0
    (leafContext p.start p.lists (.symbol sigil quoted escaped known) ::
    listContexts p.start p.lists)
  inStep : InStep l p s

/-- The header and the frame of the value in progress are written anew. -/
theorem rewrite_leaf (hb : b.Bounded) {start : Nat} {lists : List OpenList} {known : Leaf}
    (leaf : Leaf) {old : Header} {a : Arena}
    (hlaid : Laid b (OpenList.encodeAll lists ++ (old.encode ++ leaf.chars)) 0
      (leafContext start lists known :: listContexts start lists) a)
    (hlength : leaf.header.length = old.length) (r : Reader) (source : Source) :
    ∃ m, (do
        setHeader (b.forward + (OpenList.encodeAll lists).length) leaf.header
        Frame.store (slot b (lists.length + 1))
          (frameOf b (leafContext start lists leaf) lists.length 0)
        return .starved : ReadM Turn) ⟨r, source, a⟩ =
      .ok .starved ⟨r, source, { a with memory := m }⟩ ∧
      Laid b (OpenList.encodeAll lists ++ leaf.encode) 0
        (leafContext start lists leaf :: listContexts start lists) { a with memory := m } := by
  have hreplaced := hlaid.replace leaf.header.encode (by simp only [Header.length_encode, hlength])
  have hreframed := hreplaced.reframe (leafContext start lists leaf) 0
  rw [length_listContexts] at hreframed
  have hheader : a.Live (b.forward + (OpenList.encodeAll lists).length) leaf.header.length := by
    have hend := hlaid.forward
    simp only [List.length_append, Header.length_encode, ← hlength] at hend
    exact Laid.live_cells hb (Nat.le_add_right ..) (by omega)
  generalize hm : a.memory.write (b.forward + (OpenList.encodeAll lists).length) leaf.header.encode =
    m at hreplaced hreframed
  have hframe : Arena.Live { a with memory := m } (slot b (lists.length + 1)) Frame.length := by
    have hslot := slot_add lists.length (by simpa using hreplaced.room)
    have hle : slot b lists.length ≤ b.backward := Nat.sub_le ..
    refine hreplaced.live_frames hb (by simp) ?_
    simp only [frameCost_eq, Frame.length] at hslot ⊢
    omega
  refine ⟨_, ?_, hreframed⟩
  rw [bind_ok (setHeader_ok hheader), hm, bind_ok (storeFrame_ok hframe)]
  rfl

/-- The input side of a read, and what is in memory, make the whole of it. -/
theorem InStep.with_leaf {leaf : Leaf} (h : InStep l q s) (hstart : q.start = b.forward)
    (hlaid : Laid b (OpenList.encodeAll q.lists ++ leaf.encode) 0
      (leafContext q.start q.lists leaf :: listContexts q.start q.lists) s.arena)
    (hforward : s.arena.forward = forwardOf l (q.withLeaf (some leaf)))
    (hheld : Held l (q.withLeaf (some leaf)) s) (hroot : s.reader.root = slot b 1) :
    Tracks l b (q.withLeaf (some leaf)) s :=
  ⟨hstart, hlaid, hforward, hheld, hroot, h.inComment, h.count, h.ahead, h.pushback, h.maxDepth⟩

section Spelling

variable {sigil : Sigil} {quoted escaped : Bool} {known longer : List UInt8} {run : SymbolRun}

/-- The symbol stays in progress, and its frame and its header know all characters. -/
theorem Spelling.starve (hl : LimitsOf l b) (h : Spelling l b p sigil quoted escaped known longer s)
    {bytes : List UInt8} {tail : Source} (hahead : p.ahead = ofBytes bytes ++ tail)
    (htail : tail.Stalls) (hending : run.ending = .starved) (htaken : run.taken = bytes.length)
    (hescaped : quoted = false → escaped = false)
    (hescaped' : quoted = false → run.escaped = false) :
    ∃ s', afterSymbol (slot b (p.lists.length + 1))
        (frameOf b (leafContext p.start p.lists (.symbol sigil quoted escaped known))
          p.lists.length 0) sigil quoted longer.length run s = .ok .starved s' ∧
      Tracks l b ((p.starve run.taken []).withLeaf
        (some (.symbol sigil quoted run.escaped longer))) s' ∧ s'.reader.pushback = [] := by
  obtain ⟨hstarve, hstep, hkept⟩ := h.inStep.starve [] hahead htail (by simp) (by simp)
  have hcell : (leafContext p.start p.lists (.symbol sigil quoted escaped known)).cell =
      b.forward + (OpenList.encodeAll p.lists).length := by
    rw [← h.start]
    rfl
  obtain ⟨m, hkeep, hlaid⟩ := rewrite_leaf hl.bounded (.symbol sigil quoted run.escaped longer)
    h.laid rfl (s.starved bytes.length []).reader (s.starved bytes.length []).source
  have hforward := h.forward
  have hroom := h.room
  have hheld := h.held
  rw [h.frames] at hforward hroom hheld
  rw [htaken]
  refine ⟨_, ?_, (hstep.with_arena _).with_leaf h.start hlaid hforward ⟨hroom, hheld⟩ h.root, hkept⟩
  rw [afterSymbol, hending]
  dsimp only
  rw [htaken, bind_ok hstarve, cell_frameOf, hcell,
    withFlag_escaped b p.start p.lists sigil known longer _ _ hescaped hescaped']
  exact hkeep

/-- There is no room for another character. -/
theorem Spelling.full (hl : LimitsOf l b) (h : Spelling l b p sigil quoted escaped known longer s)
    (offset : Nat) (f : Frame) (length : Nat) (hending : run.ending = .full) :
    ∃ s', afterSymbol offset f sigil quoted length run s =
      .error (Limits.outOfMemory 1 (l.freeBeside p.frames p.text)) s' ∧ b.Covers s'.arena := by
  obtain ⟨hconsume, -⟩ := h.inStep.consume run.taken [] (by simp) (by simp)
  have hfree : s.arena.free = l.freeBeside p.frames p.text := by
    have hbackward := h.laid.backward
    rw [List.length_cons, length_listContexts, ← h.frames] at hbackward
    rw [Arena.free, hbackward, h.forward, Limits.freeBeside, hl.stop]
    rfl
  refine ⟨s.consumed run.taken [], ?_, h.laid.covers hl.bounded⟩
  rw [afterSymbol, hending]
  dsimp only
  rw [bind_ok hconsume, bind_ok (get_ok _), ← hfree]
  rfl

theorem Spelling.tooLong (hl : LimitsOf l b)
    (h : Spelling l b p sigil quoted escaped known longer s) (offset : Nat) (f : Frame)
    (length : Nat) {found : UInt8} (hending : run.ending = .tooLong found) :
    Follows l b ((p.consume run.taken []).reject .symbolTooLong (some found))
      (afterSymbol offset f sigil quoted length run s) := by
  obtain ⟨hconsume, hstep⟩ := h.inStep.consume run.taken [] (by simp) (by simp)
  refine ⟨s.consumed run.taken [], ?_, h.laid.covers hl.bounded⟩
  rw [afterSymbol, hending]
  dsimp only
  rw [bind_ok hconsume, ← position_eq hstep.count]
  rfl

/-- The arena with the forward cursor given back, at `forward`. -/
def settled (a : Arena) (forward : Nat) : Arena := { a with forward, hold := none }

/-- The reader without its lock. -/
def unlocked (s : Reading) (a : Arena) : Reading := ⟨{ s.reader with lock := none }, s.source, a⟩

/-- The room that a complete symbol does not need is given back, and the lock with it. -/
theorem settleSymbol_ok {id text reserved length : Nat} (hlock : s.reader.lock = some ⟨id⟩)
    (hhold : s.arena.hold = some ⟨id, text, some reserved⟩) (hle : length ≤ reserved)
    (offset : Nat) :
    settleSymbol offset length s = .ok () (s.unlocked (settled s.arena (text + length))) := by
  have hclaim := Arena.claim_ok hhold rfl hle
  have hunlock := Arena.unlock_ok
    (a := { s.arena with forward := text + length, hold := some ⟨id, text, none⟩ }) rfl rfl
  have hmodify : modifyReader ({ · with lock := none }) s = .ok () (s.unlocked s.arena) := rfl
  rw [settleSymbol, bind_ok (get_ok _), hlock]
  dsimp only
  rw [bind_ok hmodify, unlocked, bind_ok (lift_arena_ok hclaim)]
  exact lift_arena_ok hunlock

/-- The last steps of a symbol before its frame goes away. -/
theorem afterSymbol_closed {s s' : Reading} {offset : Nat} {f : Frame} {back : List UInt8}
    {id text reserved : Nat} (hending : run.ending = .closed back)
    (hconsume : Reading.consume run.taken back s = .ok () s') (hlock : s'.reader.lock = some ⟨id⟩)
    (hhold : s'.arena.hold = some ⟨id, text, some reserved⟩) (hle : longer.length ≤ reserved)
    (htext : f.cell + Header.symbolLength = text)
    (hbytes : (settled s'.arena (text + longer.length)).bytes text longer.length = .ok longer)
    (hlive : (settled s'.arena (text + longer.length)).Live f.cell Header.symbolLength) :
    afterSymbol offset f sigil quoted longer.length run s =
      Reading.complete offset f (s'.unlocked
        { settled s'.arena (text + longer.length) with
          memory := s'.arena.memory.write f.cell
            (Header.symbol longer.length sigil quoted false (Hash.key8 longer)).encode }) := by
  have hlook : (fun a : Arena => (a.bytes (f.cell + Header.symbolLength) longer.length).mapError
      Fault.arena) (settled s'.arena (text + longer.length)) = .ok longer := by
    simp only [htext, hbytes, mapError_ok]
  rw [afterSymbol, hending]
  dsimp only
  rw [bind_ok hconsume, bind_ok (settleSymbol_ok hlock hhold hle offset), unlocked,
    bind_ok (look_ok hlook), bind_ok (setHeader_ok hlive)]
  rfl

/-- The symbol is complete. -/
theorem Spelling.close (hl : LimitsOf l b) (hvalid : p.Valid l)
    (h : Spelling l b p sigil quoted escaped known longer s) {back : List UInt8}
    (hending : run.ending = .closed back) (hback : back.length ≤ 1)
    (htaken : back.length ≤ run.taken) :
    Follows l b
      (((p.consume run.taken back).withLeaf none).complete (.symbol sigil quoted longer))
      (afterSymbol (slot b (p.lists.length + 1))
        (frameOf b (leafContext p.start p.lists (.symbol sigil quoted escaped known))
          p.lists.length 0) sigil quoted longer.length run s) := by
  obtain ⟨hconsume, hstep⟩ := h.inStep.consume run.taken back (by omega) htaken
  obtain ⟨id, hhold, hlock⟩ := h.held
  have hlength : b.forward + (OpenList.encodeAll p.lists ++
      ((Header.symbol known.length sigil quoted false 0).encode ++ longer)).length =
        p.text + longer.length := by
    simp only [List.length_append, Header.length_encode, Parse.text, h.start, Header.length]
    omega
  have hcursors := h.laid.cursors
  have hroom := h.room
  rw [h.forward] at hcursors
  have hlaid : Laid b (OpenList.encodeAll p.lists ++
      ((Header.symbol known.length sigil quoted false 0).encode ++ longer)) 0
      (leafContext p.start p.lists (.symbol sigil quoted escaped known) ::
        listContexts p.start p.lists) (settled s.arena (p.text + longer.length)) :=
    h.laid.with_forward (Nat.le_of_eq hlength) (by omega) none s.arena.nextLock
  have hreplaced := hlaid.replace
    (Header.symbol longer.length sigil quoted false (Hash.key8 longer)).encode rfl
  have hchars := hlaid.cells.right.right
  rw [Header.length_encode, ← h.start] at hchars
  have hbytes : (settled s.arena (p.text + longer.length)).bytes p.text longer.length =
      .ok longer := by
    refine Arena.bytes_ok (Laid.live_cells hl.bounded ?_ (Nat.le_refl _)) hchars
    simp only [Parse.text, h.start]
    omega
  have hlive : (settled s.arena (p.text + longer.length)).Live
      (p.start + (OpenList.encodeAll p.lists).length) Header.symbolLength := by
    refine Laid.live_cells hl.bounded (by rw [h.start]; exact Nat.le_add_right ..) ?_
    simp only [settled, Parse.text]
    omega
  generalize hf : frameOf b (leafContext p.start p.lists (.symbol sigil quoted escaped known))
    p.lists.length 0 = f
  have hcell : f.cell = p.start + (OpenList.encodeAll p.lists).length := by
    rw [← hf]
    rfl
  have htext : f.cell + Header.symbolLength = p.text := by rw [hcell]; rfl
  rw [← hcell] at hlive
  rw [afterSymbol_closed hending hconsume hlock hhold h.room htext hbytes hlive]
  rw [← h.start, ← hcell] at hreplaced
  have hencode : (Tree.symbol sigil quoted longer).encode =
      (Header.symbol longer.length sigil quoted false (Hash.key8 longer)).encode ++ longer := by
    rw [Tree.encode]
  subst hf
  refine follows_complete (p := (p.consume run.taken back).withLeaf none) hl
    (hvalid.without_leaf rfl rfl)
    ⟨h.start, rfl, ?_, ?_, ?_, rfl, rfl, h.root, hstep.inComment, hstep.count, hstep.ahead,
      hstep.pushback, hstep.maxDepth⟩
  · rw [hencode, ← h.start]
    exact hreplaced
  · rw [← h.start]
    rfl
  · rw [hencode]
    simp only [List.length_append, Header.length_encode, Header.length] at hlength ⊢
    exact hlength.symm

/-- A turn inside a symbol comes to a scan with the characters that it finds in memory. -/
theorem Tracks.spell {sigil : Sigil} {quoted escaped : Bool} {chars : List UInt8}
    (hl : LimitsOf l b) (hvalid : p.Valid l) (h : Tracks l b p s)
    (hleaf : p.leaf = some (.symbol sigil quoted escaped chars)) {run : SymbolRun}
    (hrun : scanSymbol quoted escaped chars.length (l.reserved p.frames p.text - chars.length)
      p.ahead = run)
    (hfits : run.chars.length ≤ l.reserved p.frames p.text - chars.length) :
    ∃ s', Reading.symbolTurn (slot b (p.lists.length + 1))
        (frameOf b (leafContext p.start p.lists (.symbol sigil quoted escaped chars))
          p.lists.length 0) s =
      afterSymbol (slot b (p.lists.length + 1))
        (frameOf b (leafContext p.start p.lists (.symbol sigil quoted escaped chars))
          p.lists.length 0) sigil quoted (chars ++ run.chars).length run s' ∧
      Spelling l b p sigil quoted escaped chars (chars ++ run.chars) s' := by
  obtain ⟨hchars, -⟩ := hvalid.leaf _ hleaf
  have hheld := h.held
  have hforward := h.forward
  have hroot := h.root
  have hlaid := h.laid
  rw [Held, hleaf] at hheld
  rw [forwardOf, hleaf] at hforward
  obtain ⟨hreserved, hhold⟩ := hheld
  have hencode : p.encode = OpenList.encodeAll p.lists ++
      ((Header.symbol chars.length sigil quoted false 0).encode ++ chars) := by
    rw [Parse.encode, hleaf]
    rfl
  have hcontexts : contexts p =
      leafContext p.start p.lists (.symbol sigil quoted escaped chars) ::
        listContexts p.start p.lists := by
    rw [contexts, hleaf]
  have hlength : b.forward + p.encode.length = p.text + chars.length := by
    rw [hencode]
    simp only [List.length_append, Header.length_encode, Header.length, Parse.text, h.start]
    omega
  have hframes : p.frames = p.lists.length + 1 := by
    rw [Parse.frames, hleaf]
    rfl
  rw [hcontexts] at hlaid hroot
  have hextended := hlaid.extend hl.bounded run.chars (by
    rw [hlength, hforward]
    dsimp only
    omega)
  rw [hlength, hencode, List.append_assoc, List.append_assoc] at hextended
  rw [hencode] at hlaid
  have hheader := hlaid.load_header hl.bounded .unmapped hchars
  generalize hf : frameOf b (leafContext p.start p.lists (.symbol sigil quoted escaped chars))
    p.lists.length 0 = f
  have hcell : f.cell = b.forward + (OpenList.encodeAll p.lists).length := by
    rw [← hf, ← h.start]
    rfl
  have htext : f.cell + Header.symbolLength = p.text := by
    rw [hcell, ← h.start]
    rfl
  have hflag : f.has Frame.escapedFlag = escaped := by rw [← hf, has_escaped]
  have hroom : s.arena.forward - (p.text + chars.length) =
      l.reserved p.frames p.text - chars.length := by
    rw [hforward]
    dsimp only
    omega
  have hlive : s.arena.Live (p.text + chars.length) run.chars.length := by
    refine Laid.live_cells hl.bounded (by omega) ?_
    rw [hforward]
    dsimp only
    omega
  rw [← hcell] at hheader
  have hturn := symbolTurn_eq (slot b (p.lists.length + 1)) s.reader s.source run hheader
    (by rw [hflag, htext, hroom, ← hrun, ← h.ahead]) (by rw [htext]; exact hlive)
  rw [htext, ← List.length_append] at hturn
  refine ⟨_, hturn, h.start, hextended, hframes, hforward, ?_, hhold, hroot, h.inStep.with_arena _⟩
  rw [List.length_append]
  omega

/-- A turn inside a symbol. -/
theorem follows_symbolTurn {sigil : Sigil} {quoted escaped : Bool} {chars : List UInt8}
    (hl : LimitsOf l b) (hvalid : p.Valid l) (h : Tracks l b p s)
    (hleaf : p.leaf = some (.symbol sigil quoted escaped chars)) :
    Follows l b (p.symbolTurn l sigil quoted escaped chars)
      (Reading.symbolTurn (slot b (p.lists.length + 1))
        (frameOf b (leafContext p.start p.lists (.symbol sigil quoted escaped chars))
          p.lists.length 0) s) := by
  obtain ⟨-, hescaped⟩ := hvalid.leaf _ hleaf
  obtain ⟨bytes, tail, hahead, htail⟩ := p.ahead.exists_split
  generalize hroom : l.reserved p.frames p.text - chars.length = room
  rw [Parse.symbolTurn, hroom, Parse.afterSymbol]
  rcases scanSymbol_ofBytes quoted escaped chars.length room bytes hescaped with
    ⟨run, hsettled, hscan⟩ | ⟨more, escaped', hmore, hescaped', hscan⟩
  · have hrun := hscan tail
    rw [← hahead] at hrun
    obtain ⟨s', hturn, hspell⟩ := h.spell hl hvalid hleaf (hroom ▸ hrun) (hroom ▸ hsettled.fits)
    rw [hturn, hrun]
    cases hending : run.ending with
    | starved => exact (hsettled.ending hending).elim
    | closed back =>
        obtain ⟨hback, htaken⟩ := hsettled.back back hending
        exact hspell.close hl hvalid hending hback htaken
    | tooLong found => exact hspell.tooLong hl _ _ _ hending
    | full => exact hspell.full hl _ _ _ hending
  · have hrun := hscan tail
    rw [← hahead, scanSymbol_of_stalls htail] at hrun
    obtain ⟨s', hturn, hspell⟩ := h.spell hl hvalid hleaf (hroom ▸ hrun)
      (by rw [hroom]; simpa [SymbolRun.following] using hmore)
    rw [hturn, hrun]
    exact hspell.starve hl hahead htail rfl rfl hescaped hescaped'

/-! ### Integers -/

theorem has_negative (b : Arena) (start : Nat) (lists : List OpenList) (negative digits : Bool)
    (magnitude n child : Nat) :
    (frameOf b (leafContext start lists (.integer negative digits magnitude)) n child).has
      Frame.negativeFlag = negative := by
  change (integerFlags negative digits &&& Frame.negativeFlag != 0) = negative
  revert negative digits
  decide

theorem has_digits (b : Arena) (start : Nat) (lists : List OpenList) (negative digits : Bool)
    (magnitude n child : Nat) :
    (frameOf b (leafContext start lists (.integer negative digits magnitude)) n child).has
      Frame.digitsFlag = digits := by
  change (integerFlags negative digits &&& Frame.digitsFlag != 0) = digits
  revert negative digits
  decide

/-- The flags of the frame follow the sign and the digits. -/
theorem withFlag_integer (b : Arena) (start : Nat) (lists : List OpenList)
    (negative digits negative' digits' : Bool) (magnitude magnitude' n child : Nat) :
    ((frameOf b (leafContext start lists (.integer negative digits magnitude)) n child).withFlag
        Frame.negativeFlag negative').withFlag Frame.digitsFlag digits' =
      frameOf b (leafContext start lists (.integer negative' digits' magnitude')) n child := by
  have hflags : (if digits' then
        (if negative' then integerFlags negative digits ||| Frame.negativeFlag
          else integerFlags negative digits &&& ~~~Frame.negativeFlag) ||| Frame.digitsFlag
      else (if negative' then integerFlags negative digits ||| Frame.negativeFlag
          else integerFlags negative digits &&& ~~~Frame.negativeFlag) &&& ~~~Frame.digitsFlag) =
      integerFlags negative' digits' := by
    revert negative digits negative' digits'
    decide
  simp only [Frame.withFlag, frameOf, leafContext, hflags]

/-- Of the frame that goes away only the links matter. -/
theorem complete_congr {offset : Nat} {f f' : Frame} (hmark : f'.mark = f.mark)
    (hparent : f'.parent = f.parent) (hcell : f'.cell = f.cell) :
    Reading.complete offset f' = Reading.complete offset f := by
  rw [Reading.complete, Reading.complete, hmark, hparent, hcell]

/-- What a read does after a scan of an integer; `f` is the frame that knows of it. -/
def afterInteger (offset : Nat) (f : Frame) (run : IntegerRun) : ReadM Turn :=
  match run.ending with
  | .starved => do
      starve run.taken []
      setHeader f.cell (.integer (Leaf.signed run.negative run.magnitude))
      Frame.store offset f
      return .starved
  | .overflow found => do
      consume run.taken []
      reject .integerOverflow (some found)
  | .closed next => do
      consume run.taken [next]
      setHeader f.cell (.integer (Leaf.signed run.negative run.magnitude))
      Reading.complete offset f

theorem integerTurn_eq (offset : Nat) {f f' : Frame} {s : Reading} {value : Int} (run : IntegerRun)
    (hheader : Cell.load s.arena .unmapped ⟨.arena, f.cell⟩ = .ok (.integer value))
    (hrun : scanInteger value.natAbs (f.has Frame.negativeFlag) (f.has Frame.digitsFlag) 0 s.ahead =
      run)
    (hframe : (f.withFlag Frame.negativeFlag run.negative).withFlag Frame.digitsFlag run.digits =
      f') : Reading.integerTurn offset f s = afterInteger offset f' run s := by
  obtain ⟨r, source, a⟩ := s
  rw [Reading.integerTurn, Reading.header, bind_ok (look_ok hheader)]
  dsimp only
  rw [bind_ok (get_ok _), hrun, hframe]
  rfl

section Counting

variable {negative digits : Bool} {magnitude : Nat} {run : IntegerRun}

/-- The arena inside an integer: the header holds the number so far. -/
theorem Tracks.integer (h : Tracks l b p s)
    (hleaf : p.leaf = some (.integer negative digits magnitude)) :
    Laid b (OpenList.encodeAll p.lists ++
        ((Header.integer (Leaf.signed negative magnitude)).encode ++ [])) 0
      (leafContext p.start p.lists (.integer negative digits magnitude) ::
        listContexts p.start p.lists) s.arena ∧
    s.arena.forward = b.forward + (OpenList.encodeAll p.lists).length + Header.integerLength ∧
    s.arena.hold = none ∧ s.reader.lock = none ∧ s.reader.root = slot b 1 := by
  have hencode : p.encode = OpenList.encodeAll p.lists ++
      ((Header.integer (Leaf.signed negative magnitude)).encode ++ []) := by
    rw [Parse.encode, hleaf]
    rfl
  have hcontexts : contexts p =
      leafContext p.start p.lists (.integer negative digits magnitude) ::
        listContexts p.start p.lists := by
    rw [contexts, hleaf]
  have hlaid := h.laid
  have hheld := h.held
  have hroot := h.root
  have hforward := h.forward
  rw [hencode, hcontexts] at hlaid
  rw [Held, hleaf] at hheld
  rw [hcontexts] at hroot
  rw [forwardOf, hleaf, Parse.used, h.start, hencode, List.length_append, List.append_nil,
    Header.length_encode, ← Nat.add_assoc] at hforward
  exact ⟨hlaid, hforward, hheld.1, hheld.2, hroot⟩

/-- The integer stays in progress, and its frame and its header know all digits. -/
theorem Tracks.integer_starve (hl : LimitsOf l b) (h : Tracks l b p s)
    (hleaf : p.leaf = some (.integer negative digits magnitude)) {bytes : List UInt8}
    {tail : Source} (hahead : p.ahead = ofBytes bytes ++ tail) (htail : tail.Stalls)
    (hending : run.ending = .starved) (htaken : run.taken = bytes.length) :
    ∃ s', afterInteger (slot b (p.lists.length + 1))
        (frameOf b (leafContext p.start p.lists (.integer run.negative run.digits run.magnitude))
          p.lists.length 0) run s = .ok .starved s' ∧
      Tracks l b ((p.starve run.taken []).withLeaf
        (some (.integer run.negative run.digits run.magnitude))) s' ∧
      s'.reader.pushback = [] := by
  obtain ⟨hlaid, hforward, hhold, hlock, hroot⟩ := h.integer hleaf
  obtain ⟨hstarve, hstep, hkept⟩ := h.inStep.starve [] hahead htail (by simp) (by simp)
  have hcell : (leafContext p.start p.lists
      (.integer run.negative run.digits run.magnitude)).cell =
      b.forward + (OpenList.encodeAll p.lists).length := by
    rw [← h.start]
    rfl
  obtain ⟨m, hkeep, hkept'⟩ := rewrite_leaf hl.bounded
    (.integer run.negative run.digits run.magnitude) hlaid rfl
    (s.starved bytes.length []).reader (s.starved bytes.length []).source
  rw [htaken]
  refine ⟨_, ?_, (hstep.with_arena _).with_leaf h.start hkept' ?_ ⟨hhold, hlock⟩ hroot, hkept⟩
  · rw [afterInteger, hending]
    dsimp only
    rw [htaken, bind_ok hstarve, cell_frameOf, hcell]
    exact hkeep
  · change s.arena.forward = p.start + (OpenList.encodeAll p.lists ++
      ((Header.integer (Leaf.signed run.negative run.magnitude)).encode ++ [])).length
    rw [h.start, List.length_append, List.append_nil, Header.length_encode, ← Nat.add_assoc]
    exact hforward

/-- The integer is complete. -/
theorem Tracks.integer_close (hl : LimitsOf l b) (hvalid : p.Valid l) (h : Tracks l b p s)
    (hleaf : p.leaf = some (.integer negative digits magnitude)) {next : UInt8}
    (hending : run.ending = .closed next) (htaken : 0 < run.taken) :
    Follows l b
      (((p.consume run.taken [next]).withLeaf none).complete
        (.integer (Leaf.signed run.negative run.magnitude)))
      (afterInteger (slot b (p.lists.length + 1))
        (frameOf b (leafContext p.start p.lists (.integer run.negative run.digits run.magnitude))
          p.lists.length 0) run s) := by
  obtain ⟨hlaid, hforward, hhold, hlock, hroot⟩ := h.integer hleaf
  obtain ⟨hconsume, hstep⟩ := h.inStep.consume run.taken [next] (by simp) htaken
  have hreplaced := hlaid.replace
    (Header.integer (Leaf.signed run.negative run.magnitude)).encode rfl
  have hlive : (s.consumed run.taken [next]).arena.Live
      (b.forward + (OpenList.encodeAll p.lists).length) Header.integerLength :=
    Laid.live_cells hl.bounded (Nat.le_add_right ..) (Nat.le_of_eq hforward.symm)
  generalize hm : s.arena.memory.write (b.forward + (OpenList.encodeAll p.lists).length)
    (Header.integer (Leaf.signed run.negative run.magnitude)).encode = m at hreplaced
  have hrun : afterInteger (slot b (p.lists.length + 1))
      (frameOf b (leafContext p.start p.lists (.integer run.negative run.digits run.magnitude))
        p.lists.length 0) run s =
      Reading.complete (slot b (p.lists.length + 1))
        (frameOf b (leafContext p.start p.lists (.integer negative digits magnitude))
          p.lists.length 0)
        ⟨(s.consumed run.taken [next]).reader, (s.consumed run.taken [next]).source,
          { s.arena with memory := m }⟩ := by
    have hcell : (leafContext p.start p.lists
        (.integer run.negative run.digits run.magnitude)).cell =
        b.forward + (OpenList.encodeAll p.lists).length := by
      rw [← h.start]
      rfl
    rw [afterInteger, hending]
    dsimp only
    rw [bind_ok hconsume, cell_frameOf, hcell]
    refine (bind_ok (setHeader_ok hlive)).trans ?_
    rw [complete_congr (f := frameOf b
      (leafContext p.start p.lists (.integer negative digits magnitude)) p.lists.length 0)
      rfl rfl rfl, ← hm]
    rfl
  have hencode : (Tree.integer (Leaf.signed run.negative run.magnitude)).encode =
      (Header.integer (Leaf.signed run.negative run.magnitude)).encode ++ [] := by
    rw [Tree.encode, List.append_nil]
  rw [hrun]
  replace hstep := hstep.with_arena { s.arena with memory := m }
  refine follows_complete (p := (p.consume run.taken [next]).withLeaf none) hl
    (hvalid.without_leaf rfl rfl)
    ⟨h.start, rfl, ?_, ?_, ?_, hhold, hlock, hroot, hstep.inComment, hstep.count, hstep.ahead,
      hstep.pushback, hstep.maxDepth⟩
  · rw [hencode, ← h.start]
    exact hreplaced
  · rw [← h.start]
    rfl
  · rw [hencode, List.append_nil, List.length_append, Header.length_encode, ← Nat.add_assoc]
    exact hforward

theorem Tracks.integer_overflow (hl : LimitsOf l b) (h : Tracks l b p s) (offset : Nat) (f : Frame)
    {found : UInt8} (hending : run.ending = .overflow found) :
    Follows l b ((p.consume run.taken []).reject .integerOverflow (some found))
      (afterInteger offset f run s) := by
  obtain ⟨hconsume, hstep⟩ := h.inStep.consume run.taken [] (by simp) (by simp)
  refine ⟨s.consumed run.taken [], ?_, h.laid.covers hl.bounded⟩
  rw [afterInteger, hending]
  dsimp only
  rw [bind_ok hconsume, ← position_eq hstep.count]
  rfl

/-- A turn inside an integer. -/
theorem follows_integerTurn {negative digits : Bool} {magnitude : Nat} (hl : LimitsOf l b)
    (hvalid : p.Valid l) (h : Tracks l b p s)
    (hleaf : p.leaf = some (.integer negative digits magnitude)) :
    Follows l b (p.integerTurn negative digits magnitude)
      (Reading.integerTurn (slot b (p.lists.length + 1))
        (frameOf b (leafContext p.start p.lists (.integer negative digits magnitude))
          p.lists.length 0) s) := by
  have hfits := hvalid.leaf _ hleaf
  obtain ⟨hlaid, -⟩ := h.integer hleaf
  have hheader := hlaid.load_header hl.bounded .unmapped hfits.header
  rw [← h.start] at hheader
  obtain ⟨bytes, tail, hahead, htail⟩ := p.ahead.exists_split
  generalize hrun : scanInteger magnitude negative digits 0 p.ahead = run
  have hturn := integerTurn_eq (slot b (p.lists.length + 1)) run hheader
    (by rw [Leaf.natAbs_signed, has_negative, has_digits, h.ahead, hrun])
    (withFlag_integer b p.start p.lists negative digits run.negative run.digits magnitude
      run.magnitude p.lists.length 0)
  rw [hturn, Parse.integerTurn, Parse.afterInteger, hrun]
  rw [hahead] at hrun
  rcases scanInteger_ofBytes magnitude negative digits 0 bytes with
    ⟨run', ⟨hpos, _, hne⟩, hscan⟩ | ⟨magnitude', negative', digits', hscan⟩
  · rw [hscan] at hrun
    subst hrun
    cases hending : run'.ending with
    | starved => exact (hne hending).elim
    | overflow found => exact h.integer_overflow hl _ _ hending
    | closed next => exact h.integer_close hl hvalid hleaf hending hpos
  · rw [hscan, scanInteger_of_stalls htail, Nat.zero_add] at hrun
    subst hrun
    exact h.integer_starve hl hleaf hahead htail rfl rfl

/-! ### Whole reads -/

/-- One turn does what it does in terms of trees. -/
theorem follows_turn (hl : LimitsOf l b) (hvalid : p.Valid l) (h : Tracks l b p s) :
    Follows l b (p.turn l) (Reading.turn s) := by
  obtain ⟨r, source, a⟩ := s
  rw [Reading.turn, bind_ok (get_ok _)]
  cases hcomment : p.inComment with
  | true =>
      rw [Parse.turn_of_comment hcomment, if_pos (h.inComment.trans hcomment)]
      exact follows_commentTurn h
  | false =>
      have hreader : ¬ r.inComment = true := by
        rw [show r.inComment = p.inComment from h.inComment, hcomment]
        exact Bool.false_ne_true
      rw [if_neg hreader, bind_ok (get_ok _)]
      have hlaid := h.laid
      have hroot := h.root
      have hlt := hlaid.forward_lt hl.bounded
      have hdepth : p.lists.length < Reader.maxFrames := by
        have := hvalid.depth
        have := hl.depth
        simp only [Cell.maxNesting, Reader.maxFrames] at *
        omega
      have hcells : p.start + (OpenList.encodeAll p.lists).length < 65536 := by
        rw [h.start]
        rw [Parse.encode, List.length_append] at hlt
        omega
      cases hleaf : p.leaf with
      | none =>
          have hfocus : r.focus a = .ok (focusOf b p) := by
            rw [contexts_of_leaf hleaf] at hlaid hroot
            exact focus_lists hl.bounded hlaid hcells hdepth hroot
          dsimp only
          rw [bind_ok (look_ok hfocus), Parse.turn_of_token hcomment hleaf]
          have hfollows := follows_tokenTurn hl hvalid h hleaf
          cases hlists : p.lists with
          | nil =>
              have hnone : (focusOf b p).leaf = none := by rw [focusOf, hlists]; rfl
              rw [hnone]
              exact hfollows
          | cons o outer =>
              have hsome : (focusOf b p).leaf = some (slot b (outer.length + 1),
                  frameOf b (listContext p.start o outer) outer.length 0) := by
                rw [focusOf, hlists]
                simp [listContexts, leafOf]
              rw [hsome]
              exact hfollows
      | some leaf =>
          have hfocus : ∀ c, contexts p = c :: listContexts p.start p.lists → c.kind ≠ .list →
              c.cell = p.start + (OpenList.encodeAll p.lists).length →
              r.focus a = .ok ⟨some (slot b (p.lists.length + 1), frameOf b c p.lists.length 0),
                Parse.levelOf p.lists, p.lists.length⟩ := by
            intro c hc hkind hcell
            rw [hc] at hlaid hroot
            exact focus_leaf hl.bounded hlaid hkind (by omega) hcells hdepth hroot
          dsimp only
          cases leaf with
          | symbol sigil quoted escaped chars =>
              rw [bind_ok (look_ok (hfocus (leafContext p.start p.lists
                (.symbol sigil quoted escaped chars)) (by rw [contexts, hleaf]) Frame.Kind.noConfusion rfl)),
                Parse.turn_of_symbol hcomment hleaf]
              exact follows_symbolTurn hl hvalid h hleaf
          | integer negative digits magnitude =>
              rw [bind_ok (look_ok (hfocus (leafContext p.start p.lists
                (.integer negative digits magnitude)) (by rw [contexts, hleaf]) Frame.Kind.noConfusion rfl)),
                Parse.turn_of_integer hcomment hleaf]
              exact follows_integerTurn hl hvalid h hleaf

/-! ### Reads -/

/-- What a read in the arena answers, and where it leads, is what the outcome of a read in terms of
trees says. -/
def Answers (l : Limits) (b : Arena) (outcome : Parse.Outcome)
    (result : EStateM.Result ReadError Reading ReadStatus) : Prop :=
  match outcome with
  | .again _ => False
  | .starved kept q => ∃ s, result = .ok .pending s ∧ Tracks l b q s ∧ s.reader.pushback = kept
  | .done t q => ∃ s, result = .ok (.done ⟨.arena, b.forward⟩) s ∧ Finished b t s.arena ∧
      Tracks l s.arena q s
  | .failed why => ∃ s, result = .error why s ∧ b.Covers s.arena

theorem answers_turns (hl : LimitsOf l b) (hvalid : p.Valid l) (h : Tracks l b p s) {fuel : Nat}
    (hfuel : p.work < fuel) : Answers l b (p.turns l fuel) (Reading.turns fuel s) := by
  induction fuel generalizing p s with
  | zero => exact absurd hfuel (Nat.not_lt_zero _)
  | succ fuel ih =>
      have hfollows := follows_turn hl hvalid h
      rw [Reading.turns]
      cases hturn : p.turn l with
      | again q =>
          rw [hturn] at hfollows
          obtain ⟨s', hs', hnext⟩ := hfollows
          have hwork := Parse.work_lt_of_again hvalid hturn
          rw [Parse.turns_of_again hturn, bind_ok hs']
          exact ih (Parse.valid_of_again hvalid hturn) hnext (by omega)
      | starved kept q =>
          rw [hturn] at hfollows
          obtain ⟨s', hs', hnext⟩ := hfollows
          rw [Parse.turns_of_settled (by simp [hturn]), hturn, bind_ok hs']
          exact ⟨s', rfl, hnext⟩
      | done t q =>
          rw [hturn] at hfollows
          obtain ⟨s', hs', hnext⟩ := hfollows
          rw [Parse.turns_of_settled (by simp [hturn]), hturn, bind_ok hs']
          exact ⟨s', rfl, hnext⟩
      | failed why =>
          rw [hturn] at hfollows
          obtain ⟨s', hs', hcovers⟩ := hfollows
          rw [Parse.turns_of_settled (by simp [hturn]), hturn, bind_error hs']
          exact ⟨s', rfl, hcovers⟩

/-- A read in the arena does what the read in terms of trees does. -/
theorem answers_read (hl : LimitsOf l b) (hvalid : p.Valid l) (h : Tracks l b p s) :
    Answers l b (p.read l) (Reading.read s) := by
  rw [Reading.read, bind_ok (get_ok s), Reading.turnLimit, h.ahead]
  exact answers_turns hl hvalid h p.work_lt_fuel

section Answers

variable {outcome : Parse.Outcome}

theorem Answers.of_error {why : ReadError} (h : Answers l b outcome (.error why s)) :
    outcome = .failed why ∧ b.Covers s.arena := by
  cases outcome with
  | again q => exact h.elim
  | starved kept q | done t q =>
      obtain ⟨_, hresult, _⟩ := h
      contradiction
  | failed why' =>
      obtain ⟨_, hresult, hcovers⟩ := h
      injection hresult with hwhy hs
      subst hs
      exact ⟨congrArg _ hwhy.symm, hcovers⟩

theorem Answers.of_pending (h : Answers l b outcome (.ok .pending s)) :
    ∃ q, outcome = .starved s.reader.pushback q ∧ Tracks l b q s := by
  cases outcome with
  | again q => exact h.elim
  | starved kept q =>
      obtain ⟨s', hresult, hnext, hkept⟩ := h
      injection hresult with _ hs
      subst hs hkept
      exact ⟨q, rfl, hnext⟩
  | done t q =>
      obtain ⟨_, hresult, _⟩ := h
      injection hresult with hstatus _
      contradiction
  | failed why =>
      obtain ⟨_, hresult, -⟩ := h
      contradiction

theorem Answers.of_done {place : Place} (h : Answers l b outcome (.ok (.done place) s)) :
    ∃ t q, outcome = .done t q ∧ place = ⟨.arena, b.forward⟩ ∧ Finished b t s.arena ∧
      Tracks l s.arena q s := by
  cases outcome with
  | again q => exact h.elim
  | starved kept q =>
      obtain ⟨_, hresult, _⟩ := h
      injection hresult with hstatus _
      contradiction
  | done t q =>
      obtain ⟨s', hresult, hfinished, hnext⟩ := h
      injection hresult with hstatus hs
      injection hstatus with hplace
      subst hs
      exact ⟨t, q, rfl, hplace, hfinished, hnext⟩
  | failed why =>
      obtain ⟨_, hresult, -⟩ := h
      contradiction

end Answers

end Counting

end Spelling

end Reading

end FlatLisp
