/-
Module: FlatLisp.Proofs.Reading.Need
Purpose: How much memory a read needs. At each moment it needs the bytes that it has encoded so far,
  and a frame for each value that is open; room that is set aside for a symbol counts for nothing. A
  read runs out of memory exactly if it comes to a moment at which it needs more than there was when
  it began.
Main exports: Parse.need, Parse.Moment, Parse.turn_or_short, Parse.read_ranOut_iff,
  Reading.session_runs_out_iff
-/
import FlatLisp.Proofs.Reading.Value

namespace FlatLisp

namespace Reading

open Text

/-! ### Scans of symbols with more and with less -/

/-- Every character takes a byte of the room. -/
theorem scanSymbol_chars_le (quoted escaped : Bool) (length room : Nat) (source : Source) :
    (scanSymbol quoted escaped length room source).chars.length ≤ room := by
  fun_induction scanSymbol quoted escaped length room source with
  | case1 | case2 | case3 | case5 | case6 | case7 => exact Nat.zero_le _
  | case4 _ _ _ _ _ _ _ ih => exact ih
  | case8 _ _ _ _ _ _ _ _ _ ih => exact Nat.succ_le_succ ih

/-- The characters that are found while bytes are still to arrive are the first of all. -/
theorem scanSymbol_take (quoted escaped : Bool) (length room : Nat) (source : Source)
    (count : Nat) :
    (scanSymbol quoted escaped length room (source.take count)).chars <+:
      (scanSymbol quoted escaped length room source).chars := by
  induction source generalizing escaped length room count with
  | nil => simp only [List.take_nil, List.prefix_rfl]
  | cons arrival rest ih =>
      cases count with
      | zero =>
          rw [List.take_zero, scanSymbol]
          exact List.nil_prefix
      | succ count =>
          rw [List.take_succ_cons]
          cases arrival with
          | none => simp only [scanSymbol, List.prefix_rfl]
          | some c =>
              rcases scanSymbol_byte quoted escaped length room c with
                ⟨run, -, hsettled⟩ | ⟨chars, escaped', -, -, hgoes⟩
              · simp only [hsettled, List.prefix_rfl]
              · rw [hgoes, hgoes]
                exact (List.prefix_append_right_inj chars).2 (ih ..)

/-- Where the room is full, the bytes looked at so far hold one character more than there is room
for. -/
theorem scanSymbol_filled (quoted escaped : Bool) (length room more : Nat) (source : Source)
    (h : (scanSymbol quoted escaped length room source).ending = .full) :
    ∃ run : SymbolRun, run.ending = .starved ∧ run.chars.length = room + 1 ∧
      scanSymbol quoted escaped length (room + (more + 1))
        (source.take (scanSymbol quoted escaped length room source).taken) = run := by
  fun_induction scanSymbol quoted escaped length room source with
  | case1 | case2 | case3 | case5 | case6 => simp [SymbolRun.stop] at h
  | case4 _ _ _ _ _ hends hescape ih =>
      obtain ⟨run, hending, hlength, hrun⟩ := ih h
      refine ⟨run.after [], hending, hlength, ?_⟩
      rw [SymbolRun.after, List.take_succ_cons, scanSymbol_cons, if_neg hends, if_pos hescape, hrun]
  | case7 _ _ c _ hends hescape hquote hshort =>
      refine ⟨(SymbolRun.stop 0 false .starved).after [c], rfl, rfl, ?_⟩
      rw [SymbolRun.stop, List.take_succ_cons, scanSymbol_cons, if_neg hends, if_neg hescape,
        if_neg hquote, if_neg hshort, Nat.zero_add, List.take_zero]
      rfl
  | case8 _ _ c _ hends hescape hquote hshort room ih =>
      obtain ⟨run, hending, hlength, hrun⟩ := ih h
      refine ⟨run.after [c], hending, congrArg (· + 1) hlength, ?_⟩
      rw [SymbolRun.after, List.take_succ_cons, scanSymbol_cons, if_neg hends, if_neg hescape,
        if_neg hquote, if_neg hshort, Nat.succ_add]
      dsimp only
      rw [hrun]

end Reading

namespace Parse

open Reading

variable {l : Limits} {stop : Nat} {p q : Parse} {outcome : Parse.Outcome}

/-! ### What is needed -/

/-- The memory that is needed for what is in progress: its bytes as far as they are known, and a frame
for each open list and for the leaf. -/
def need (p : Parse) : Nat := p.encode.length + Limits.frameCost * p.frames

example : Limits.frameCost = 14 := rfl

/-- The same read when only the first `count` of what is ahead has arrived. -/
def cut (p : Parse) (count : Nat) : Parse := { p with ahead := p.ahead.take count }

/-- A read from `p` comes to `q`: after some of its turns, and of the turn after them some of the bytes
that it takes. -/
inductive Moment (l : Limits) : Parse → Parse → Prop where
  | now (p : Parse) : Moment l p p
  | arrived {p q : Parse} {kept : List UInt8} (count : Nat)
      (hturn : (p.cut count).turn l = .starved kept q) : Moment l p q
  | onward {p q r : Parse} (hturn : p.turn l = .again q) (hrest : Moment l q r) : Moment l p r

theorem need_congr (hlists : q.lists = p.lists) (hleaf : q.leaf = p.leaf) : q.need = p.need := by
  rw [need, need, encode, encode, frames, frames, hlists, hleaf]

theorem need_without_leaf (hleaf : p.leaf = none) :
    p.need = (OpenList.encodeAll p.lists).length + Limits.frameCost * p.lists.length := by
  rw [need, encode, frames, hleaf, leafBytes, List.append_nil]
  rfl

theorem need_withLeaf (p : Parse) (leaf : Leaf) :
    (p.withLeaf (some leaf)).need =
      (p.withLeaf none).need + leaf.header.length + leaf.chars.length + Limits.frameCost := by
  rw [need_without_leaf (p := p.withLeaf none) rfl, need, encode, frames]
  simp only [withLeaf, leafBytes, Leaf.encode, List.length_append, Header.length_encode,
    Option.toList_some, List.length_singleton, Nat.mul_add]
  omega

theorem need_open (hleaf : p.leaf = none) (sigil : Sigil) :
    need { p with lists := ⟨sigil, []⟩ :: p.lists } =
      p.need + Header.listLength + Limits.frameCost := by
  rw [need_without_leaf (p := { p with lists := ⟨sigil, []⟩ :: p.lists }) hleaf,
    need_without_leaf hleaf]
  simp only [OpenList.encodeAll, OpenList.encode, OpenList.header, Tree.encodeAll, List.append_nil,
    List.length_append, Header.length_encode, Header.length, List.length_cons,
    Nat.mul_add]
  omega

/-! ### What a turn adds and what it gives back -/

/-- The characters that the next turn adds to a symbol in progress. -/
def spelled (l : Limits) (p : Parse) : List UInt8 :=
  match p.inComment, p.leaf with
  | false, some (.symbol _ quoted escaped chars) =>
      (scanSymbol quoted escaped chars.length (l.reserved p.frames p.text - chars.length)
        p.ahead).chars
  | _, _ => []

/-- What the outcome of a turn says of the bytes and of the frames. -/
inductive Spends (l : Limits) (p : Parse) : Outcome → Prop where
  | still {q : Parse} (hstart : q.start = p.start) (hspelled : p.spelled l = [])
      (hsize : q.encode.length = p.encode.length) (hframes : q.frames = p.frames) :
      Spends l p (.again q)
  | begun {q : Parse} (hstart : q.start = p.start) (hspelled : p.spelled l = []) (length : Nat)
      (hsize : q.encode.length = p.encode.length + length) (hframes : q.frames = p.frames + 1)
      (hroom : l.shortage p.frames p.used length = none) : Spends l p (.again q)
  | completed {q : Parse} (hstart : q.start = p.start)
      (hsize : q.encode.length = p.encode.length + (p.spelled l).length)
      (hframes : q.frames + 1 = p.frames) : Spends l p (.again q)
  | done {t : Tree} {q : Parse} (hsize : t.encode.length = p.encode.length + (p.spelled l).length) :
      Spends l p (.done t q)
  | starved {kept : List UInt8} {q : Parse}
      (hsize : q.encode.length = p.encode.length + (p.spelled l).length)
      (hframes : q.frames = p.frames) : Spends l p (.starved kept q)
  | failed {why : ReadError} : Spends l p (.failed why)

theorem encode_congr (hlists : q.lists = p.lists) (hleaf : q.leaf = p.leaf) :
    q.encode = p.encode := by
  rw [encode, encode, hlists, hleaf]

theorem frames_congr (hlists : q.lists = p.lists) (hleaf : q.leaf = p.leaf) :
    q.frames = p.frames := by
  rw [frames, frames, hlists, hleaf]

theorem length_encode_withLeaf (p : Parse) (leaf : Leaf) :
    (p.withLeaf (some leaf)).encode.length =
      (p.withLeaf none).encode.length + leaf.header.length + leaf.chars.length := by
  simp only [encode, withLeaf, leafBytes, Leaf.encode, List.length_append, Header.length_encode,
    List.append_nil, Nat.add_assoc]

theorem frames_withLeaf (p : Parse) (leaf : Leaf) :
    (p.withLeaf (some leaf)).frames = (p.withLeaf none).frames + 1 := rfl

theorem spelled_of_comment (hcomment : p.inComment = true) : p.spelled l = [] := by
  rw [spelled, hcomment]

theorem spelled_of_token (hleaf : p.leaf = none) : p.spelled l = [] := by
  rw [spelled, hleaf]
  cases p.inComment <;> rfl

theorem spelled_of_symbol {sigil : Sigil} {quoted escaped : Bool} {chars : List UInt8}
    (hcomment : p.inComment = false) (hleaf : p.leaf = some (.symbol sigil quoted escaped chars)) :
    p.spelled l =
      (scanSymbol quoted escaped chars.length (l.reserved p.frames p.text - chars.length)
        p.ahead).chars := by
  rw [spelled, hcomment, hleaf]

theorem spelled_of_integer {negative digits : Bool} {magnitude : Nat}
    (hleaf : p.leaf = some (.integer negative digits magnitude)) : p.spelled l = [] := by
  rw [spelled, hleaf]
  cases p.inComment <;> rfl

theorem Spends.of_same (hlists : q.lists = p.lists) (hleaf : q.leaf = p.leaf)
    (hstart : q.start = p.start) (hspelled : q.spelled l = p.spelled l)
    (h : Spends l q outcome) : Spends l p outcome := by
  have hencode := encode_congr hlists hleaf
  have hframes := frames_congr hlists hleaf
  have hused : q.used = p.used := by rw [used, used, hstart, hencode]
  cases h with
  | still hs hnone hsize hf =>
      exact .still (hs.trans hstart) (hspelled ▸ hnone) (by rw [hsize, hencode]) (hf.trans hframes)
  | begun hs hnone length hsize hf hroom =>
      rw [hframes, hused] at hroom
      exact .begun (hs.trans hstart) (hspelled ▸ hnone) length (by rw [hsize, hencode])
        (by rw [hf, hframes]) hroom
  | completed hs hsize hf =>
      exact .completed (hs.trans hstart) (by rw [hsize, hencode, hspelled]) (hf.trans hframes)
  | done hsize => exact .done (by rw [hsize, hencode, hspelled])
  | starved hsize hf => exact .starved (by rw [hsize, hencode, hspelled]) (hf.trans hframes)
  | failed => exact .failed

theorem length_encode_of_symbol {sigil : Sigil} {quoted escaped : Bool} {chars : List UInt8}
    (hleaf : p.leaf = some (.symbol sigil quoted escaped chars)) :
    p.start + p.encode.length = p.text + chars.length := by
  simp only [encode, hleaf, leafBytes, Leaf.encode, Leaf.header, Leaf.chars, List.length_append,
    Header.length_encode, Header.length, text]
  omega

/-- A finished value is counted in the list around it, and its frame is given back. -/
theorem spends_complete {r : Parse} {t : Tree} (hleaf : r.leaf = none)
    (hstart : r.start = p.start)
    (hsize : r.encode.length + t.encode.length = p.encode.length + (p.spelled l).length)
    (hframes : r.frames + 1 = p.frames) : Spends l p (r.complete t) := by
  cases hlists : r.lists with
  | nil =>
      rw [complete, hlists]
      refine .done ?_
      rw [← hsize, encode, hlists, hleaf, OpenList.encodeAll, leafBytes, List.append_nil,
        List.length_nil, Nat.zero_add]
  | cons o outer =>
      rw [complete, hlists]
      dsimp only
      split
      · exact .failed
      · refine .completed hstart ?_ ?_
        · rw [← hsize, encode, encode, hlists, hleaf, leafBytes, List.append_nil, List.append_nil,
            Layout.length_encodeAll_adopt, List.length_append]
        · rw [← hframes, frames, frames, hlists]
          rfl

theorem spends_begin {next : Parse} (hstart : next.start = p.start) (hleaf : p.leaf = none)
    {length : Nat} (hsize : next.encode.length = p.encode.length + length) 
    (hframes : next.frames = p.frames + 1) : Spends l p (p.begin l length next) := by
  rw [begin]
  cases hshortage : l.shortage p.frames p.used length with
  | some why => exact .failed
  | none => exact .begun hstart (spelled_of_token hleaf) length hsize hframes hshortage

theorem spends_accept (hleaf : p.leaf = none) (token : Token) : Spends l p (p.accept l token) := by
  cases token with
  | comment => exact .still rfl (spelled_of_token hleaf) rfl rfl
  | close =>
      cases hlists : p.lists with
      | nil =>
          rw [accept_close_nil l hlists]
          exact .failed
      | cons o outer =>
          rw [accept_close_cons l hlists]
          refine spends_complete (r := { p with lists := outer }) hleaf rfl ?_ ?_
          · rw [spelled_of_token hleaf, encode_tree, encode, encode, hlists, hleaf, leafBytes,
              OpenList.encodeAll, List.append_nil, List.append_nil, List.length_append]
            rfl
          · rw [frames, frames, hlists]
            simp only [List.length_cons]
            omega
  | list sigil =>
      rw [accept]
      split
      · exact .failed
      · refine spends_begin ?_ hleaf ?_ ?_
        · rfl
        · simp only [encode, hleaf, leafBytes, OpenList.encodeAll, OpenList.encode, OpenList.header,
            Tree.encodeAll, List.append_nil, List.length_append, Header.length_encode, Header.length]
        · simp only [frames, List.length_cons]
          omega
  | symbol sigil quoted =>
      refine spends_begin ?_ hleaf ?_ ?_
      · rfl
      · rw [length_encode_withLeaf, encode_congr (p := p) (q := p.withLeaf none) rfl hleaf.symm]
        rfl
      · rw [frames_withLeaf, frames_congr (p := p) (q := p.withLeaf none) rfl hleaf.symm]
  | integer =>
      refine spends_begin ?_ hleaf ?_ ?_
      · rfl
      · rw [length_encode_withLeaf, encode_congr (p := p) (q := p.withLeaf none) rfl hleaf.symm]
        rfl
      · rw [frames_withLeaf, frames_congr (p := p) (q := p.withLeaf none) rfl hleaf.symm]

theorem spends_symbolTurn {sigil : Sigil} {quoted escaped : Bool} {chars : List UInt8}
    (hcomment : p.inComment = false) (hleaf : p.leaf = some (.symbol sigil quoted escaped chars)) :
    Spends l p (p.symbolTurn l sigil quoted escaped chars) := by
  have hspelled := spelled_of_symbol (l := l) hcomment hleaf
  have hsame : p.withLeaf (some (.symbol sigil quoted escaped chars)) = p := by
    rw [withLeaf, ← hleaf]
  have hsize : p.encode.length =
      (p.withLeaf none).encode.length + Header.symbolLength + chars.length := by
    have hlength := length_encode_withLeaf p (.symbol sigil quoted escaped chars)
    rwa [hsame] at hlength
  have hframes : p.frames = (p.withLeaf none).frames + 1 := by
    rw [← frames_withLeaf p (.symbol sigil quoted escaped chars), hsame]
  rw [symbolTurn]
  generalize scanSymbol quoted escaped chars.length
    (l.reserved p.frames p.text - chars.length) p.ahead = run at hspelled ⊢
  rw [afterSymbol]
  split
  · refine .starved ?_ ?_
    · rw [length_encode_withLeaf, hsize, hspelled]
      simp only [Leaf.header, Leaf.chars, Header.length, List.length_append]
      exact (Nat.add_assoc ..).symm
    · rw [frames_withLeaf, hframes]
      rfl
  · exact .failed
  · exact .failed
  · refine spends_complete rfl rfl ?_ hframes.symm
    rw [hsize, hspelled, Tree.encode]
    simp only [List.length_append, Header.length_encode, Header.length, ← Nat.add_assoc]
    rfl

theorem spends_integerTurn {negative digits : Bool} {magnitude : Nat}
    (hleaf : p.leaf = some (.integer negative digits magnitude)) :
    Spends l p (p.integerTurn negative digits magnitude) := by
  have hspelled := spelled_of_integer (l := l) hleaf
  have hsame : p.withLeaf (some (.integer negative digits magnitude)) = p := by
    rw [withLeaf, ← hleaf]
  have hsize : p.encode.length = (p.withLeaf none).encode.length + Header.integerLength := by
    have hlength := length_encode_withLeaf p (.integer negative digits magnitude)
    rwa [hsame] at hlength
  have hframes : p.frames = (p.withLeaf none).frames + 1 := by
    rw [← frames_withLeaf p (.integer negative digits magnitude), hsame]
  rw [integerTurn, afterInteger]
  split
  · refine .starved ?_ ?_
    · rw [length_encode_withLeaf, hsize, hspelled]
      rfl
    · rw [frames_withLeaf, hframes]
      rfl
  · exact .failed
  · refine spends_complete rfl rfl ?_ hframes.symm
    rw [hsize, hspelled, Tree.encode, Header.length_encode]
    rfl

/-- A turn adds a header and a frame, or some characters; and it gives back one frame at most. -/
theorem spends_turn (l : Limits) (p : Parse) : Spends l p (p.turn l) := by
  cases hcomment : p.inComment with
  | true =>
      have hspelled := spelled_of_comment (l := l) hcomment
      rw [turn_of_comment hcomment, commentTurn]
      rcases scanComment 0 p.ahead with ⟨taken, _ | _⟩
      · refine .starved ?_ rfl
        rw [hspelled]
        rfl
      · exact .still rfl hspelled rfl rfl
  | false =>
      cases hleaf : p.leaf with
      | none =>
          have hspelled := spelled_of_token (l := l) hleaf
          rw [turn_of_token hcomment hleaf, tokenTurn]
          rcases scanLead (levelOf p.lists) 0 p.ahead with ⟨taken, run | ⟨token, back⟩ | _⟩
          · refine .starved ?_ rfl
            rw [hspelled]
            rfl
          · have hspends := spends_accept (l := l) (p := p.consume taken back) hleaf token
            exact Spends.of_same (q := p.consume taken back) rfl rfl rfl
              ((spelled_of_token (p := p.consume taken back) hleaf).trans hspelled.symm) hspends
          · exact .failed
      | some leaf =>
          cases leaf with
          | symbol sigil quoted escaped chars =>
              rw [turn_of_symbol hcomment hleaf]
              exact spends_symbolTurn hcomment hleaf
          | integer negative digits magnitude =>
              rw [turn_of_integer hcomment hleaf]
              exact spends_integerTurn hleaf

/-! ### Enough memory, and too little -/

theorem length_spelled_cut (l : Limits) (p : Parse) (count : Nat) :
    ((p.cut count).spelled l).length ≤ (p.spelled l).length := by
  cases hcomment : p.inComment with
  | true =>
      rw [spelled_of_comment (p := p.cut count) hcomment]
      exact Nat.zero_le _
  | false =>
      cases hleaf : p.leaf with
      | none =>
          rw [spelled_of_token (p := p.cut count) hleaf]
          exact Nat.zero_le _
      | some leaf =>
          cases leaf with
          | symbol sigil quoted escaped chars =>
              rw [spelled_of_symbol (p := p.cut count) hcomment hleaf,
                spelled_of_symbol hcomment hleaf]
              exact (scanSymbol_take ..).length_le
          | integer negative digits magnitude =>
              rw [spelled_of_integer (p := p.cut count) hleaf]
              exact Nat.zero_le _

section Bounded

variable (hstop : l.stop = some stop) (hfits : p.start + p.need ≤ stop)

include hstop hfits

theorem shortage_eq_none_iff (length : Nat) :
    l.shortage p.frames p.used length = none ↔
      p.start + p.need + length + Limits.frameCost ≤ stop := by
  have hroom : Limits.free stop p.frames p.used = stop - (p.start + p.need) := by
    rw [Limits.free, used, need]
    omega
  rw [Limits.shortage, hstop]
  dsimp only
  rw [hroom, Limits.frameCost]
  constructor
  · intro h
    split at h
    · contradiction
    split at h
    · contradiction
    split at h
    · contradiction
    omega
  · intro h
    rw [if_neg (by omega), if_neg (by omega), if_neg (by omega)]

/-- The characters of a symbol that find room are within what is there. -/
theorem spelled_within : p.start + p.need + (p.spelled l).length ≤ stop := by
  cases hcomment : p.inComment with
  | true =>
      rw [spelled_of_comment hcomment]
      exact hfits
  | false =>
      cases hleaf : p.leaf with
      | none =>
          rw [spelled_of_token hleaf]
          exact hfits
      | some leaf =>
          cases leaf with
          | integer negative digits magnitude =>
              rw [spelled_of_integer hleaf]
              exact hfits
          | symbol sigil quoted escaped chars =>
              have hroom := scanSymbol_chars_le quoted escaped chars.length
                (l.reserved p.frames p.text - chars.length) p.ahead
              have hreserved : l.reserved p.frames p.text ≤
                  stop - Limits.frameCost * p.frames - p.text := by
                rw [Limits.reserved, hstop]
                exact Nat.min_le_right ..
              have htext := length_encode_of_symbol hleaf
              rw [spelled_of_symbol hcomment hleaf]
              generalize (scanSymbol ..).chars = found at hroom ⊢
              rw [need] at hfits ⊢
              omega

/-- A value is begun if there is memory for its header and its frame; otherwise there is less than
would be needed with it begun. -/
theorem begin_or_short {next : Parse} {length : Nat}
    (hneed : next.need = p.need + length + Limits.frameCost) :
    p.begin l length next = .again next ∨
      (p.begin l length next).RanOut ∧ stop < p.start + next.need := by
  have hiff := shortage_eq_none_iff hstop hfits length
  rw [begin]
  cases hshortage : l.shortage p.frames p.used length with
  | none => exact .inl rfl
  | some why =>
      refine .inr ⟨shortage_ranOut hshortage, ?_⟩
      rw [hshortage] at hiff
      have hless := mt hiff.2 (by simp)
      omega

theorem accept_or_short (hleaf : p.leaf = none) (token : Token) :
    p.accept l token = p.accept l.unbounded token ∨
      (p.accept l token).RanOut ∧
        ∃ q, p.accept l.unbounded token = .again q ∧ stop < p.start + q.need := by
  cases token with
  | comment | close => exact .inl rfl
  | list sigil =>
      rw [accept, accept]
      by_cases hdepth : l.maxDepth ≤ p.lists.length
      · rw [if_pos hdepth, if_pos (show l.unbounded.maxDepth ≤ _ from hdepth)]
        exact .inl rfl
      · rw [if_neg hdepth, if_neg (show ¬ l.unbounded.maxDepth ≤ _ from hdepth),
          begin_unlimited (l := l.unbounded) rfl]
        exact (begin_or_short hstop hfits (need_open hleaf sigil)).imp_right
          (And.imp_right fun hless => ⟨_, rfl, hless⟩)
  | symbol sigil quoted =>
      have hneed := need_withLeaf p (.symbol sigil quoted false [])
      rw [need_congr (p := p) (q := p.withLeaf none) rfl hleaf.symm] at hneed
      rw [accept, accept, begin_unlimited (l := l.unbounded) rfl]
      exact (begin_or_short hstop hfits hneed).imp_right
        (And.imp_right fun hless => ⟨_, rfl, hless⟩)
  | integer =>
      have hneed := need_withLeaf p (.integer false false 0)
      rw [need_congr (p := p) (q := p.withLeaf none) rfl hleaf.symm] at hneed
      rw [accept, accept, begin_unlimited (l := l.unbounded) rfl]
      exact (begin_or_short hstop hfits hneed).imp_right
        (And.imp_right fun hless => ⟨_, rfl, hless⟩)

/-- The turn runs out of memory, and comes to a moment at which more than there is is needed. -/
def Short (l : Limits) (stop : Nat) (p : Parse) : Prop :=
  (p.turn l).RanOut ∧ ∃ q, Moment l.unbounded p q ∧ stop < p.start + q.need

theorem symbolTurn_or_short {sigil : Sigil} {quoted escaped : Bool} {chars : List UInt8}
    (hcomment : p.inComment = false) (hleaf : p.leaf = some (.symbol sigil quoted escaped chars))
    (hlength : chars.length ≤ Header.maxSymbol) :
    (p.turn l = p.turn l.unbounded ∧ p.spelled l = p.spelled l.unbounded) ∨ Short l stop p := by
  have hreserved : l.reserved p.frames p.text =
      min Header.maxSymbol (Limits.free stop p.frames p.text) := by
    rw [Limits.reserved, hstop]
  have hunbounded : l.unbounded.reserved p.frames p.text = Header.maxSymbol := rfl
  have htext := length_encode_of_symbol hleaf
  generalize hroom : l.reserved p.frames p.text - chars.length = room
  rcases scanSymbol_room quoted escaped room p.ahead hlength
      (Header.maxSymbol - chars.length - room) with ⟨hending, hsame⟩ | ⟨hfull, hless⟩
  · -- With any other ending no figure of the memory is looked at.
    rw [show room + (Header.maxSymbol - chars.length - room) = Header.maxSymbol - chars.length by
      omega] at hsame
    left
    rw [turn_of_symbol hcomment hleaf, turn_of_symbol hcomment hleaf, symbolTurn, symbolTurn,
      spelled_of_symbol hcomment hleaf, spelled_of_symbol hcomment hleaf, hunbounded, hroom, ← hsame]
    refine ⟨?_, rfl⟩
    generalize scanSymbol quoted escaped chars.length room p.ahead = run at hending
    rw [afterSymbol, afterSymbol]
    cases hrun : run.ending with
    | starved | tooLong | closed => rfl
    | full => exact (hending hrun).elim
  · right
    obtain ⟨run, hrun, hcount, hscan⟩ := scanSymbol_filled quoted escaped chars.length room
      (Header.maxSymbol - chars.length - room - 1) p.ahead hfull
    generalize (scanSymbol quoted escaped chars.length room p.ahead).taken = taken at hscan
    rw [show room + (Header.maxSymbol - chars.length - room - 1 + 1) =
      Header.maxSymbol - chars.length by omega] at hscan
    rw [Limits.free] at hreserved
    constructor
    · refine ⟨1, l.freeBeside p.frames p.text, ?_, ?_⟩
      · rw [Limits.freeBeside, hstop]
        simp only [Limits.free]
        omega
      · rw [turn_of_symbol hcomment hleaf, symbolTurn, hroom, afterSymbol, hfull]
    · have hspelled : (p.cut taken).spelled l.unbounded = run.chars :=
        (spelled_of_symbol (p := p.cut taken) hcomment hleaf).trans (congrArg _ hscan)
      have hturn : ∃ q, (p.cut taken).turn l.unbounded = .starved [] q := by
        have hafter : (p.cut taken).turn l.unbounded =
            (p.cut taken).afterSymbol l.unbounded sigil quoted chars run :=
          (turn_of_symbol (p := p.cut taken) hcomment hleaf).trans
            (congrArg ((p.cut taken).afterSymbol l.unbounded sigil quoted chars) hscan)
        rw [hafter, afterSymbol, hrun]
        exact ⟨_, rfl⟩
      obtain ⟨q, hturn⟩ := hturn
      refine ⟨q, .arrived taken hturn, ?_⟩
      have hspends := spends_turn l.unbounded (p.cut taken)
      rw [hturn] at hspends
      cases hspends with
      | starved hsize hframes =>
          rw [hspelled, hcount] at hsize
          rw [need] at hfits
          rw [need, hsize, hframes]
          change stop < p.start + (p.encode.length + (room + 1) + Limits.frameCost * p.frames)
          omega

/-- A turn does what it does with memory without bound, or it comes to a moment at which memory does
not suffice. -/
theorem turn_or_short (hvalid : p.Valid l) :
    (p.turn l = p.turn l.unbounded ∧ p.spelled l = p.spelled l.unbounded) ∨ Short l stop p := by
  cases hcomment : p.inComment with
  | true =>
      rw [turn_of_comment hcomment, turn_of_comment hcomment, spelled_of_comment hcomment,
        spelled_of_comment hcomment]
      exact .inl ⟨rfl, rfl⟩
  | false =>
      cases hleaf : p.leaf with
      | none =>
          have hturn : ∀ {l : Limits}, p.turn l = p.tokenTurn l := turn_of_token hcomment hleaf
          rw [Short, spelled_of_token hleaf, spelled_of_token hleaf, hturn, hturn, tokenTurn,
            tokenTurn]
          generalize hscan : scanLead (levelOf p.lists) 0 p.ahead = scan
          obtain ⟨taken, lead⟩ := scan
          cases lead with
          | starved | rejected => exact .inl ⟨rfl, rfl⟩
          | accepted token back =>
              have hneed : (p.consume taken back).need = p.need := need_congr rfl rfl
              rcases accept_or_short hstop (p := p.consume taken back)
                  (by rw [hneed]; exact hfits) hleaf token with
                hsame | ⟨hout, q, hagain, hless⟩
              · exact .inl ⟨hsame, rfl⟩
              · refine .inr ⟨hout, q, .onward ?_ (.now q), hless⟩
                rw [hturn, tokenTurn, hscan]
                exact hagain
      | some leaf =>
          have hleafFits := hvalid.leaf leaf hleaf
          cases leaf with
          | symbol sigil quoted escaped chars =>
              exact symbolTurn_or_short hstop hfits hcomment hleaf hleafFits.1
          | integer negative digits magnitude =>
              rw [turn_of_integer hcomment hleaf, turn_of_integer hcomment hleaf,
                spelled_of_integer hleaf, spelled_of_integer hleaf]
              exact .inl ⟨rfl, rfl⟩

end Bounded

/-! ### Memory without bound -/

/-- Where there is a failure, the input is no value. -/
def Outcome.Faultless : Outcome → Prop
  | .failed (.fault _) => False
  | _ => True

theorem Outcome.Faultless.not_ranOut (h : outcome.Faultless) : ¬ outcome.RanOut := by
  rintro ⟨requested, free, -, rfl⟩
  exact h

theorem faultless_complete (p : Parse) (t : Tree) : (p.complete t).Faultless := by
  rw [complete]
  split
  · trivial
  · split <;> trivial

theorem faultless_accept (hunlimited : l.stop = none) (p : Parse) (token : Token) :
    (p.accept l token).Faultless := by
  cases token with
  | comment => trivial
  | close =>
      cases hlists : p.lists with
      | nil =>
          rw [accept_close_nil l hlists]
          trivial
      | cons o outer =>
          rw [accept_close_cons l hlists]
          exact faultless_complete _ _
  | list sigil =>
      rw [accept, begin_unlimited hunlimited]
      split <;> trivial
  | symbol sigil quoted =>
      rw [accept, begin_unlimited hunlimited]
      trivial
  | integer =>
      rw [accept, begin_unlimited hunlimited]
      trivial

theorem faultless_turn (hunlimited : l.stop = none) (hvalid : p.Valid l) :
    (p.turn l).Faultless := by
  cases hcomment : p.inComment with
  | true =>
      rw [turn_of_comment hcomment, commentTurn]
      rcases scanComment 0 p.ahead with ⟨taken, _ | _⟩ <;> trivial
  | false =>
      cases hleaf : p.leaf with
      | none =>
          rw [turn_of_token hcomment hleaf, tokenTurn]
          rcases scanLead (levelOf p.lists) 0 p.ahead with ⟨taken, run | ⟨token, back⟩ | _⟩
          · trivial
          · exact faultless_accept hunlimited _ token
          · trivial
      | some leaf =>
          have hfits := hvalid.leaf leaf hleaf
          cases leaf with
          | symbol sigil quoted escaped chars =>
              rw [turn_of_symbol hcomment hleaf, symbolTurn, reserved_unlimited hunlimited]
              have hroom := scanSymbol_room quoted escaped (Header.maxSymbol - chars.length) p.ahead
                hfits.1 0
              generalize scanSymbol quoted escaped chars.length (Header.maxSymbol - chars.length)
                p.ahead = run at hroom
              rw [afterSymbol]
              cases hending : run.ending with
              | starved | tooLong => trivial
              | closed => exact faultless_complete _ _
              | full =>
                  rcases hroom with ⟨hnot, -⟩ | ⟨-, hless⟩
                  · exact (hnot hending).elim
                  · omega
          | integer negative digits magnitude =>
              rw [turn_of_integer hcomment hleaf, integerTurn, afterInteger]
              split
              · trivial
              · trivial
              · exact faultless_complete _ _

theorem faultless_read (hunlimited : l.stop = none) (hvalid : p.Valid l) :
    (p.read l).Faultless := by
  induction p, hvalid using read_induction with
  | step p hvalid ih =>
      have hturn := faultless_turn hunlimited hvalid
      rw [read_eq hvalid]
      cases houtcome : p.turn l with
      | again q => exact ih q (valid_of_again hvalid houtcome) houtcome
      | starved kept q | done t q => trivial
      | failed why => rwa [houtcome] at hturn

theorem ranOut_of_outOfMemory (hvalid : p.Valid l) {requested free : Nat}
    (hread : p.read l = .failed (Limits.outOfMemory requested free)) : (p.read l).RanOut := by
  rcases read_unbounded hvalid with hsame | hout
  · have hfaultless := faultless_read rfl hvalid.unbounded
    rw [← hsame, hread] at hfaultless
    exact hfaultless.elim
  · exact hout

/-! ### Exactly as much as is needed -/

section Within

variable (hstop : l.stop = some stop) (hfits : p.start + p.need ≤ stop)

include hstop hfits

/-- After a turn that is not the last one no more is needed than there is. -/
theorem within_of_again (hturn : p.turn l = .again q) :
    q.start = p.start ∧ q.start + q.need ≤ stop := by
  have hwithin := spelled_within hstop hfits
  have hspends := spends_turn l p
  rw [hturn] at hspends
  rw [need] at hwithin ⊢
  cases hspends with
  | still hstart _ hsize hframes =>
      rw [hsize, hframes, hstart]
      exact ⟨rfl, by omega⟩
  | begun hstart _ length hsize hframes hroom =>
      have hfits := (shortage_eq_none_iff hstop hfits length).1 hroom
      rw [need] at hfits
      rw [hsize, hframes, hstart, Nat.mul_add]
      exact ⟨rfl, by omega⟩
  | completed hstart hsize hframes =>
      rw [← hframes, Nat.mul_add] at hwithin
      rw [hsize, hstart]
      exact ⟨rfl, by omega⟩

/-- Nor in the middle of a turn, if the turn finds memory enough. -/
theorem within_of_arrived (hspelled : p.spelled l = p.spelled l.unbounded) {count : Nat}
    {kept : List UInt8} (hturn : (p.cut count).turn l.unbounded = .starved kept q) :
    p.start + q.need ≤ stop := by
  have hwithin := spelled_within hstop hfits
  have hspends := spends_turn l.unbounded (p.cut count)
  have hshorter := length_spelled_cut l.unbounded p count
  rw [hturn] at hspends
  rw [← hspelled] at hshorter
  cases hspends with
  | starved hsize hframes =>
      change q.encode.length = p.encode.length + _ at hsize
      change q.frames = p.frames at hframes
      rw [need] at hwithin ⊢
      rw [hsize, hframes]
      omega

end Within

/-- A read runs out of memory exactly if it comes to a moment at which it needs more than there is. -/
theorem read_ranOut_iff (hstop : l.stop = some stop) (hvalid : p.Valid l)
    (hfits : p.start + p.need ≤ stop) :
    (p.read l).RanOut ↔ ∃ q, Moment l.unbounded p q ∧ stop < p.start + q.need := by
  induction p, hvalid using read_induction with
  | step p hvalid ih =>
      rw [read_eq hvalid]
      rcases turn_or_short hstop hfits hvalid with ⟨hsame, hspelled⟩ | ⟨hout, hmoment⟩
      · have hnot := (faultless_turn rfl hvalid.unbounded).not_ranOut
        rw [← hsame] at hnot
        have hmoments : ∀ {q}, Moment l.unbounded p q → stop < p.start + q.need →
            ∃ r, p.turn l = .again r ∧ Moment l.unbounded r q := by
          intro q hmoment hless
          cases hmoment with
          | now => omega
          | arrived count hturn =>
              have := within_of_arrived hstop hfits hspelled hturn
              omega
          | onward hturn hrest => exact ⟨_, hsame.trans hturn, hrest⟩
        cases hturn : p.turn l with
        | again r =>
            obtain ⟨hstart, hnext⟩ := within_of_again hstop hfits hturn
            refine (ih r (valid_of_again hvalid hturn) hturn hnext).trans ?_
            rw [hstart]
            constructor
            · rintro ⟨q, hmoment, hless⟩
              exact ⟨q, .onward (hsame.symm.trans hturn) hmoment, hless⟩
            · rintro ⟨q, hmoment, hless⟩
              obtain ⟨r', hturn', hrest⟩ := hmoments hmoment hless
              rw [hturn] at hturn'
              injection hturn' with hturn'
              exact ⟨q, hturn' ▸ hrest, hless⟩
        | starved kept r | done t r | failed why =>
            rw [hturn] at hnot
            refine iff_of_false hnot ?_
            rintro ⟨q, hmoment, hless⟩
            obtain ⟨r', hturn', -⟩ := hmoments hmoment hless
            rw [hturn] at hturn'
            contradiction
      · refine iff_of_true ?_ hmoment
        obtain ⟨requested, free, hless, hturn⟩ := hout
        rw [hturn]
        exact ⟨requested, free, hless, rfl⟩

/-! ### Values that have been read -/

/-- What has been encoded of a value is no more than what the value is encoded as. -/
theorem size_le_of_done {t : Tree} (hvalid : p.Valid l) (hread : p.read l = .done t q) :
    p.encode.length + (p.spelled l).length ≤ t.encode.length := by
  induction p, hvalid using read_induction with
  | step p hvalid ih =>
      have hspends := spends_turn l p
      rw [read_eq hvalid] at hread
      cases hturn : p.turn l with
      | again r =>
          rw [hturn] at hread hspends
          have hrest := ih r (valid_of_again hvalid hturn) hturn hread
          cases hspends with
          | still _ hspelled hsize | begun _ hspelled _ hsize =>
              rw [hspelled, List.length_nil]
              omega
          | completed _ hsize => omega
      | done t' r =>
          rw [hturn] at hread hspends
          injection hread with htree
          cases hspends with
          | done hsize => exact htree ▸ Nat.le_of_eq hsize.symm
      | starved kept r | failed why =>
          rw [hturn] at hread
          contradiction

theorem Moment.size_le {r : Parse} {t : Tree} (hmoment : Moment l p r) (hvalid : p.Valid l)
    (hread : p.read l = .done t q) : r.encode.length ≤ t.encode.length := by
  induction hmoment with
  | now p =>
      have := size_le_of_done hvalid hread
      omega
  | @arrived p r kept count hturn =>
      have hsize := size_le_of_done hvalid hread
      have hshorter := length_spelled_cut l p count
      have hspends := spends_turn l (p.cut count)
      rw [hturn] at hspends
      cases hspends with
      | starved hcut =>
          change r.encode.length = p.encode.length + _ at hcut
          omega
  | onward hturn _ ih =>
      exact ih (valid_of_again hvalid hturn) ((read_of_again hvalid hturn).symm.trans hread)

/-- The open lists and the leaf are as many as the reader allows. -/
theorem Moment.frames_le (hmoment : Moment l p q) (hvalid : p.Valid l) :
    q.frames ≤ l.maxDepth + 1 := by
  have hframes : ∀ {p : Parse}, p.Valid l → p.frames ≤ l.maxDepth + 1 := by
    intro p hp
    refine Nat.add_le_add hp.depth ?_
    cases p.leaf <;> simp
  induction hmoment with
  | now p => exact hframes hvalid
  | @arrived p r kept count hturn =>
      have hsound := sound_turn (p := p.cut count) (hvalid.of_same rfl rfl)
      rw [hturn] at hsound
      exact hframes hsound
  | onward hturn _ ih => exact ih (valid_of_again hvalid hturn)

/-- What is needed for a value is no more than its bytes and all frames that there may be. -/
theorem Moment.need_le {r : Parse} {t : Tree} (hmoment : Moment l p r) (hvalid : p.Valid l)
    (hread : p.read l = .done t q) :
    r.need ≤ t.encode.length + Limits.frameCost * (l.maxDepth + 1) :=
  Nat.add_le_add (hmoment.size_le hvalid hread)
    (Nat.mul_le_mul_left _ (hmoment.frames_le hvalid))

end Parse

/-- One value in parentheses. -/
theorem Grammar.read_parenthesised :
    Grammar.read 4 false [40, 97, 41] = .whole (.list .bare [.symbol .bare false [97]]) [] := by
  -- One child after the opening parenthesis, and none after that.
  rw [show Grammar.read 4 false [40, 97, 41] =
    (Grammar.items _ [] [97, 41]).map (.list .bare) from rfl, Grammar.items]
  change Grammar.Result.map _ (Grammar.items _ [.symbol .bare false [97]] [41]) = _
  rw [Grammar.items]
  rfl

namespace Reading

open Source (ofBytes)
open Parse (Moment)

variable {r : Reader} {a : Arena} {s : Reading} {values : List Shown} {value : Shown}
  {ending : Ending}

/-- The read that an idle reader begins, with all bytes there. -/
def opening (r : Reader) (a : Arena) (bytes : List UInt8) : Parse where
  inComment := r.inComment
  count := r.count
  start := a.forward
  ahead := ofBytes bytes

theorem Ready.joined_eq (r : Reader) (a : Arena) (source : Source) :
    (Ready.parse r a source).joined [] = opening r a (r.pushback ++ source.bytes) := by
  simp only [Ready.parse, opening, Parse.joined, Reading.ahead, Source.bytes_append,
    List.append_nil, show r.pushback.map some = ofBytes r.pushback from rfl, Source.bytes_ofBytes]

theorem exists_reads_of_session (h : Session s (value :: values) ending) :
    ∃ place u, Reads s place u := by
  generalize hshown : value :: values = shown at h
  induction h with
  | failed | dry => contradiction
  | stalled hread _ ih =>
      obtain ⟨place, u, hreads⟩ := ih hshown
      exact ⟨place, u, .stalled hread hreads⟩
  | done hread _ _ => exact ⟨_, _, .done hread⟩

theorem opening_valid (l : Limits) (bytes : List UInt8) : (opening r a bytes).Valid l :=
  ⟨nofun, nofun, Nat.zero_le _⟩

/-- Memory without bound, for what the reader accepts. -/
def boundless (r : Reader) : Limits := ⟨r.maxDepth, none⟩

theorem opening_agrees (r : Reader) (a : Arena) (bytes : List UInt8) :
    Parse.Agrees (boundless r) { opening r a bytes with inComment := false }
      (Grammar.read r.maxDepth r.inComment bytes) ((opening r a bytes).read (boundless r)) :=
  Parse.agrees_read rfl (opening_valid (boundless r) bytes) rfl rfl rfl

section Ready

variable (h : Ready r a) (source : Source)

include h

/-- The first value fails for want of memory, however its bytes arrive, if it does when all of them are
there. -/
theorem Ready.failed_iff (why : ReadError) :
    Session ⟨r, source, a⟩ [] (.failed why) ↔
      (opening r a (r.pushback ++ source.bytes)).read (Ready.limits r a) = .failed why := by
  obtain ⟨values, ending, hsession⟩ := exists_session h.limitsOf (Ready.valid source) (h.tracks source)
  have hcourse := course_of_session hsession h.limitsOf (Ready.valid source) (h.tracks source)
  rw [Ready.joined_eq] at hcourse
  constructor
  · intro hfailed
    have hcourse := course_of_session hfailed h.limitsOf (Ready.valid source) (h.tracks source)
    rw [Ready.joined_eq] at hcourse
    cases hcourse with
    | failed hread => exact hread
  · intro hread
    obtain ⟨rfl, rfl⟩ := (Course.failed hread).unique hcourse
    exact hsession

/-- Reading runs out of memory exactly if it comes to a moment at which it needs more than is free. -/
theorem Ready.runs_out_iff :
    (∃ requested free,
        Session ⟨r, source, a⟩ [] (.failed (Limits.outOfMemory requested free))) ↔
      ∃ q, Moment (boundless r) (opening r a (r.pushback ++ source.bytes)) q ∧ a.free < q.need := by
  generalize hp : opening r a (r.pushback ++ source.bytes) = p
  have hvalid : p.Valid (Ready.limits r a) := hp ▸ opening_valid _ _
  have hstart : p.start = a.forward := by rw [← hp]; rfl
  have hneed : p.need = 0 := by rw [← hp]; rfl
  have hcursors := h.bounded.cursors
  have hstop : (Ready.limits r a).stop = some a.backward := rfl
  have hiff := Parse.read_ranOut_iff hstop hvalid (by omega)
  have hmoments : (∃ q, Moment (boundless r) p q ∧ a.free < q.need) ↔
      (p.read (Ready.limits r a)).RanOut := by
    refine (exists_congr fun q => and_congr_right fun _ => ?_).trans hiff.symm
    rw [Arena.free]
    omega
  rw [hmoments]
  constructor
  · rintro ⟨requested, free, hfailed⟩
    rw [h.failed_iff source, hp] at hfailed
    exact Parse.ranOut_of_outOfMemory hvalid hfailed
  · rintro ⟨requested, free, -, hread⟩
    exact ⟨requested, free, (h.failed_iff source _).2 (by rw [hp]; exact hread)⟩

/-- A value is read if there is memory for its bytes and for as many frames as there are at once. -/
theorem Ready.reads_of_room {tree : Tree} {rest : List UInt8} {depth : Nat}
    (hfound : Grammar.read r.maxDepth r.inComment (r.pushback ++ source.bytes) = .whole tree rest)
    (hdepth : ∀ q, Moment (boundless r) (opening r a (r.pushback ++ source.bytes)) q →
      q.frames ≤ depth)
    (hroom : tree.encode.length + Limits.frameCost * depth ≤ a.free) :
    ∃ place u, Reads ⟨r, source, a⟩ place u ∧ Added a place tree.encode u.arena := by
  generalize hp : opening r a (r.pushback ++ source.bytes) = p at hdepth
  have hvalid : ∀ l, p.Valid l := fun l => hp ▸ opening_valid l _
  have hunbounded : p.read (boundless r) = .done tree (after p tree rest) := by
    have hagrees := opening_agrees r a (r.pushback ++ source.bytes)
    rwa [hfound, Parse.Agrees, carry_complete rfl, hp] at hagrees
  have hdone : p.read (Ready.limits r a) = .done tree (after p tree rest) := by
    rcases Parse.read_unbounded (hvalid (Ready.limits r a)) with hsame | ⟨requested, free, -, hread⟩
    · exact hsame.trans hunbounded
    · obtain ⟨q, hmoment, hless⟩ :=
        (h.runs_out_iff source).1 ⟨requested, free, (h.failed_iff source _).2 (hp ▸ hread)⟩
      rw [hp] at hmoment
      have hsize := hmoment.size_le (hvalid _) hunbounded
      have hframes := Nat.mul_le_mul_left Limits.frameCost (hdepth q hmoment)
      rw [Parse.need] at hless
      omega
  obtain ⟨values, ending, hsession⟩ := exists_session h.limitsOf (Ready.valid source) (h.tracks source)
  have hcourse := course_of_session hsession h.limitsOf (Ready.valid source) (h.tracks source)
  rw [Ready.joined_eq, hp] at hcourse
  cases hcourse with
  | failed hread | dry hread =>
      rw [hdone] at hread
      contradiction
  | done hread hrest =>
      obtain ⟨place, u, hreads⟩ := exists_reads_of_session hsession
      obtain ⟨t, rest', hfound', rfl, hfinished⟩ := h.found hreads
      rw [hfound] at hfound'
      injection hfound' with htree _
      exact ⟨_, u, hreads, htree ▸ hfinished.added h.bounded⟩

omit source in
/-- A value that is there as a whole is read at once, or there is too little memory for its bytes and all
frames that there may be. -/
theorem Ready.read_whole {tree : Tree} {bytes rest : List UInt8}
    (hfound : Grammar.read r.maxDepth r.inComment (r.pushback ++ bytes) = .whole tree rest) :
    (∃ s, read ⟨r, ofBytes bytes, a⟩ = .ok (.done ⟨.arena, a.forward⟩) s ∧ Finished a tree s.arena) ∨
      ∃ e s, e.RanOut ∧ a.free < tree.encode.length + Limits.frameCost * (r.maxDepth + 1) ∧
        read ⟨r, ofBytes bytes, a⟩ = .error (.fault e) s := by
  have hparse : Ready.parse r a (ofBytes bytes) = opening r a (r.pushback ++ bytes) := by
    rw [Ready.parse, opening, Reading.ahead, Source.ofBytes_append]
    rfl
  have hanswers := answers_read h.limitsOf (Ready.valid (ofBytes bytes)) (h.tracks (ofBytes bytes))
  have hagrees := opening_agrees r a (r.pushback ++ bytes)
  rw [hfound, Parse.Agrees, carry_complete rfl] at hagrees
  rw [hparse] at hanswers
  rcases Parse.read_unbounded (opening_valid (Ready.limits r a) (r.pushback ++ bytes)) with
    hsame | ⟨requested, free, hless, hout⟩
  · rw [hsame.trans hagrees] at hanswers
    obtain ⟨s, hread, hfinished, -⟩ := hanswers
    exact .inl ⟨s, hread, hfinished⟩
  · rw [hout] at hanswers
    obtain ⟨s, hread, -⟩ := hanswers
    obtain ⟨q, hmoment, hshort⟩ := (h.runs_out_iff (ofBytes bytes)).1
      ⟨requested, free, (h.failed_iff (ofBytes bytes) _).2 (by rw [Source.bytes_ofBytes]; exact hout)⟩
    rw [Source.bytes_ofBytes] at hmoment
    have hneed := hmoment.need_le (opening_valid (boundless r) _) hagrees
    exact .inr ⟨_, s, ⟨requested, free, hless, rfl⟩, Nat.lt_of_lt_of_le hshort hneed, hread⟩

end Ready

/-- Whatever arrives and in whatever pieces, a read fails for want of memory exactly if it comes to a
moment at which it needs more than was free when the value began. So a value is always read where
there is memory for its bytes and for as many frames as there are at once. -/
theorem session_runs_out_iff (h : Ready r a) (source : Source) :
    ((∃ requested free,
        Session ⟨r, source, a⟩ [] (.failed (Limits.outOfMemory requested free))) ↔
      ∃ q, Moment (boundless r) (opening r a (r.pushback ++ source.bytes)) q ∧
        a.free < q.need) ∧
    ∀ tree rest depth,
      Grammar.read r.maxDepth r.inComment (r.pushback ++ source.bytes) = .whole tree rest →
      (∀ q, Moment (boundless r) (opening r a (r.pushback ++ source.bytes)) q → q.frames ≤ depth) →
      tree.encode.length + Limits.frameCost * depth ≤ a.free →
      ∃ place u, Reads ⟨r, source, a⟩ place u ∧ Added a place tree.encode u.arena :=
  ⟨h.runs_out_iff source, fun _ _ _ hfound hdepth hroom => h.reads_of_room source hfound hdepth hroom⟩

/-- The bytes of `(a)` take six bytes, and at most five values are open at once at this depth. -/
theorem session_runs_out_iff_fresh : ∃ a, Arena.create 128 = .ok a ∧ Ready (Reader.ofDepth 4) a ∧
    ((∃ requested free, Session ⟨Reader.ofDepth 4, ofBytes [40, 97, 41], a⟩ []
        (.failed (Limits.outOfMemory requested free))) ↔
      ∃ q, Moment ⟨4, none⟩ (opening (Reader.ofDepth 4) a [40, 97, 41]) q ∧ a.free < q.need) ∧
    ∃ place u, Reads ⟨Reader.ofDepth 4, ofBytes [40, 97, 41], a⟩ place u ∧
      Added a place (Tree.list .bare [.symbol .bare false [97]]).encode u.arena := by
  have hready := ready_create 4 (show Arena.create 128 = .ok _ from rfl)
  obtain ⟨hiff, hreads⟩ := session_runs_out_iff hready (ofBytes [40, 97, 41])
  refine ⟨_, rfl, hready, hiff, hreads (.list .bare [.symbol .bare false [97]]) [] 5 Grammar.read_parenthesised ?_ ?_⟩
  · intro q hmoment
    exact hmoment.frames_le (opening_valid _ _)
  · decide

end Reading

end FlatLisp
