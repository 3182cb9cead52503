/-
Module: FlatLisp.Source
Purpose: Input as it arrives: bytes, and moments at which none is there.
Main exports: Source, Source.next, Source.ofBytes, Source.stutter, Source.bytes, Feed
-/
import FlatLisp.Text.Ascii
import FlatLisp.Text.Utf8

namespace FlatLisp

/-- What successive requests for a byte get: `none` where nothing has arrived yet. After the end of
the list nothing arrives any more. -/
abbrev Source := List (Option UInt8)

namespace Source

/-- Bytes that are all there. -/
def ofBytes (bytes : List UInt8) : Source := bytes.map some

/-- The bytes still to come, stalls left out. -/
def bytes (s : Source) : List UInt8 := s.filterMap id

/-- Ask for one byte. -/
def next : Source → Option UInt8 × Source
  | [] => (none, [])
  | arrival :: rest => (arrival, rest)

/-- Bytes with a stall after each `burst` of them, `room` of the first burst being left. -/
def stutterFrom (burst room : Nat) : List UInt8 → Source
  | [] => []
  | b :: rest =>
      match room with
      | 0 => none :: some b :: stutterFrom burst (burst - 1) rest
      | room + 1 => some b :: stutterFrom burst room rest

/-- Bytes with a stall after each `burst` of them, one at least. -/
def stutter (burst : Nat) (bytes : List UInt8) : Source :=
  stutterFrom (max burst 1) (max burst 1) bytes

@[simp] theorem bytes_ofBytes (bytes : List UInt8) : (ofBytes bytes).bytes = bytes := by
  simp [ofBytes, Source.bytes, List.filterMap_map]

@[simp] theorem bytes_stutterFrom (burst room : Nat) (bytes : List UInt8) :
    Source.bytes (stutterFrom burst room bytes) = bytes := by
  induction bytes generalizing room with
  | nil => rfl
  | cons b rest ih =>
      cases room <;> simpa [stutterFrom, Source.bytes] using ih _

end Source

/-- A queue of bytes that is filled line by line. -/
structure Feed where
  pending : List UInt8 := []
deriving DecidableEq, Repr, Inhabited

namespace Feed

def isEmpty (f : Feed) : Bool := f.pending.isEmpty

/-- Queue some text. -/
def pushText (f : Feed) (text : String) : Feed := ⟨f.pending ++ Text.Utf8.encode text⟩

/-- Queue a line and the line end after it. -/
def pushLine (f : Feed) (line : String) : Feed :=
  ⟨f.pending ++ Text.Utf8.encode line ++ [Text.Ascii.newline]⟩

/-- Ask for one byte. -/
def next (f : Feed) : Option UInt8 × Feed :=
  match f.pending with
  | [] => (none, f)
  | b :: rest => (some b, ⟨rest⟩)

/-- The queue as a source. -/
def source (f : Feed) : Source := .ofBytes f.pending

end Feed

end FlatLisp
