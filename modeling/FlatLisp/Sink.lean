/-
Module: FlatLisp.Sink
Purpose: Output as it is taken: byte by byte, each accepted or refused.
Main exports: Sink, Transcript, Throttled, Throttled.drain
-/
import FlatLisp.Text.Utf8

namespace FlatLisp

/-- A taker of bytes. It answers whether it accepted the byte; one that is refused may be offered
again. -/
class Sink (σ : Type) where
  offer : σ → UInt8 → Bool × σ

/-- A sink that accepts everything and keeps it. -/
structure Transcript where
  written : Array UInt8 := #[]
deriving DecidableEq, Inhabited

namespace Transcript

def bytes (t : Transcript) : List UInt8 := t.written.toList

/-- What was written, as text; ill-formed parts are replaced. -/
def text (t : Transcript) : String := Text.Utf8.decodeLossy t.bytes

instance : Sink Transcript where
  offer t b := (true, ⟨t.written.push b⟩)

end Transcript

/-- A sink that passes on `capacity` bytes and then refuses until it is drained. -/
structure Throttled (σ : Type) where
  inner : σ
  capacity : Nat
  /-- How many more bytes are accepted. -/
  room : Nat

namespace Throttled

variable {σ : Type}

def ofInner (inner : σ) (capacity : Nat) : Throttled σ := ⟨inner, capacity, capacity⟩

/-- Make room for another `capacity` bytes. -/
def drain (t : Throttled σ) : Throttled σ := { t with room := t.capacity }

instance [Sink σ] : Sink (Throttled σ) where
  offer := fun ⟨inner, capacity, room⟩ b =>
    match room with
    | 0 => (false, ⟨inner, capacity, 0⟩)
    | room + 1 =>
        match Sink.offer inner b with
        | (true, inner) => (true, ⟨inner, capacity, room⟩)
        | (false, inner) => (false, ⟨inner, capacity, room + 1⟩)

end Throttled

end FlatLisp
