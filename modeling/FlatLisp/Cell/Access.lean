/-
Module: FlatLisp.Cell.Access
Purpose: Cells by their place: reading headers, bodies and the characters of symbols from the
  arena or from outside memory, and writing headers into the arena.
Main exports: CellM, Cell.fetch, Cell.load, Cell.body, Cell.symbolText, Cell.writeHeader
-/
import FlatLisp.Arena.Mark
import FlatLisp.Cell.Header
import FlatLisp.External
import FlatLisp.Fault

namespace FlatLisp

/-- A computation on an arena that may fail. -/
abbrev CellM := EStateM Fault Arena

instance : MonadLift ArenaM CellM where
  monadLift request := fun a =>
    match request a with
    | .ok x a => .ok x a
    | .error e a => .error (.arena e) a

namespace Cell

/-- Consult the arena without changing it. -/
def consult {α : Type} (look : Arena → Except Fault α) : CellM α := fun a =>
  match look a with
  | .ok x => .ok x a
  | .error e => .error e a

/-- The bytes at a place. -/
def fetch (a : Arena) (ext : External) (p : Place) (count : Nat) : Except Fault (List UInt8) :=
  match p.space with
  | .arena => (a.bytes p.offset count).mapError .arena
  | .store => (ext.read p.offset count).mapError .store

def fetchByte (a : Arena) (ext : External) (p : Place) : Except Fault UInt8 := do
  return (← fetch a ext p 1).headD 0

def fetchWord (a : Arena) (ext : External) (p : Place) : Except Fault Nat := do
  match ← fetch a ext p 2 with
  | [low, high] => return Word.value low high
  | _ => return 0

/-- The place `count` bytes further on. Past the end of its space nothing is live. -/
def step (p : Place) (count : Nat) : Except Fault Place :=
  match p.step count with
  | some q => .ok q
  | none => .error (.arena (.dangling p.offset count))

/-- The header at a place. -/
def load (a : Arena) (ext : External) (p : Place) : Except Fault Header := do
  let first ← fetchByte a ext p
  match Header.lengthFor first with
  | none => .error (.corruptCell p first)
  | some length =>
      match Header.decode (← fetch a ext p length) with
      | some header => return header
      | none => .error (.corruptCell p first)

/-- Where the characters or children of a cell are: right after its header, or in outside memory
at the address that follows a linked header. -/
def body (a : Arena) (ext : External) (p : Place) (header : Header) : Except Fault Place := do
  let after ← step p header.length
  if header.isLinked then
    return ⟨.store, ← fetchWord a ext after⟩
  else
    return after

/-- The characters of the symbol at a place. -/
def symbolText (a : Arena) (ext : External) (p : Place) : Except Fault (List UInt8) := do
  let header ← load a ext p
  match header with
  | .symbol length .. => fetch a ext (← body a ext p header) length
  | _ => .error (.corruptCell p (UInt8.ofNat header.tag))

/-- Write a header into the arena. -/
def writeHeader (offset : Nat) (header : Header) : ArenaM Unit :=
  Arena.write offset header.encode

end Cell

end FlatLisp
