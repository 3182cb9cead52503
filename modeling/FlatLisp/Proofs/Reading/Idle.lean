/-
Module: FlatLisp.Proofs.Reading.Idle
Purpose: A read that begins between values, with a number of bytes ahead. It does what the grammar says of
  these bytes, or it runs out of memory; and the positions that it reports are offsets in the input, as far
  as 32 bits can tell.
Main exports: Rejection.counted, Reading.Idle, Reading.Idle.agrees, Reading.after, Reading.Ready.joined
-/
import FlatLisp.Proofs.Reading.Acceptance
import FlatLisp.Proofs.Reading.Delivery
import FlatLisp.Proofs.Reading.Shortage

namespace FlatLisp

/-- The rejection as it is reported. What is counted in 32 bits is the bytes up to and with the one that
shows it. -/
def Rejection.counted (why : Rejection) : Rejection :=
  { why with position := (UInt32.ofNat (why.position + 1)).toNat - 1 }

namespace Reading

open Source (ofBytes)

variable {l : Limits} {live input : List UInt8} {p : Parse}

/-- Between values, with the bytes `input` left and all values so far in the forward region. -/
structure Idle (l : Limits) (live : List UInt8) (p : Parse) (input : List UInt8) : Prop where
  valid : p.Valid l
  lists : p.lists = []
  leaf : p.leaf = none
  ahead : p.ahead = ofBytes input
  start : p.start = Arena.headerLength + live.length

/-- A read between values does what the grammar says, or it runs out of memory. -/
theorem Idle.agrees (h : Idle l live p input) :
    Parse.Agrees l.unbounded { p with inComment := false }
        (Grammar.read l.maxDepth p.inComment input) (p.read l) ∨ (p.read l).RanOut := by
  rcases Parse.read_unbounded h.valid with hsame | hout
  · rw [hsame]
    exact .inl (Parse.agrees_read rfl h.valid.unbounded h.lists h.leaf h.ahead)
  · exact .inr hout

/-- The state after a value, with the bytes `rest` left. -/
def after (p : Parse) (t : Tree) (rest : List UInt8) : Parse :=
  { p with
    inComment := false
    count := p.count + .ofNat p.ahead.length - .ofNat rest.length
    start := p.start + t.encode.length
    ahead := ofBytes rest }

theorem carry_complete (hlists : p.lists = []) (t : Tree) (rest : List UInt8) :
    ((({ p with inComment := false } : Parse).arrive rest).complete t).carry l =
      .done t (after p t rest) := by
  obtain ⟨lists, leaf, inComment, count, start, ahead⟩ := p
  dsimp only at hlists
  subst hlists
  rfl

theorem Idle.after (t : Tree) (rest : List UInt8) (h : Idle l live p input) :
    Idle l (live ++ t.encode) (after p t rest) rest where
  valid := h.valid.of_same rfl rfl
  lists := h.lists
  leaf := h.leaf
  ahead := rfl
  start := by
    rw [List.length_append, ← Nat.add_assoc, ← h.start]
    rfl

/-- An idle reader that has all bytes from the beginning, and `later` after them. -/
theorem Ready.joined {r : Reader} {a : Arena} (h : Ready r a) (source : Source)
    (later : List UInt8) :
    Idle (Ready.limits r a) (liveBytes a) ((Ready.parse r a source).joined later)
      (r.pushback ++ source.bytes ++ later) where
  valid := (Ready.valid source).joined
  lists := rfl
  leaf := rfl
  ahead := by
    change ofBytes (Source.bytes (ofBytes r.pushback ++ source) ++ later) = _
    rw [Source.bytes_append, Source.bytes_ofBytes]
  start := by
    have hheader := h.bounded.header
    rw [length_liveBytes h.bounded]
    change a.forward = _
    omega

end Reading

end FlatLisp
