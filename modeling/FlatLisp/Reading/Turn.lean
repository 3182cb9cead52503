/-
Module: FlatLisp.Reading.Turn
Purpose: Reading values. A read takes turns: each looks at the innermost unfinished value, takes
  the bytes that carry it on, and leaves everything it knows in the arena.
Main exports: ReadStatus, Reading.turn, Reading.read, Reading.readToEnd
-/
import FlatLisp.Cell.Hash
import FlatLisp.Reading.Basic
import FlatLisp.Reading.Scan

namespace FlatLisp

/-- The result of a read that does not fail. -/
inductive ReadStatus where
  /-- A whole value, and where it is. -/
  | done (place : Place)
  /-- The input ran dry in the middle of a value, or before one. -/
  | pending
deriving DecidableEq, Repr, Inhabited

namespace Reading

/-- The result of one turn. -/
inductive Turn where
  | again
  | starved
  | done (place : Place)
deriving DecidableEq, Repr, Inhabited

/-- Consult the arena. -/
def look {α : Type} (f : Arena → Except Fault α) : ReadM α := (Cell.consult f : CellM α)

/-- The header at an offset of the arena. -/
def header (offset : Nat) : ReadM Header := look (Cell.load · .unmapped ⟨.arena, offset⟩)

/-- Write a header at an offset of the arena. -/
def setHeader (offset : Nat) (h : Header) : ReadM Unit := Cell.writeHeader offset h

/-- Put a new frame inside the innermost one. -/
def pushFrame (f : Frame) : ReadM Unit := do
  let mark ← Arena.mark .backward
  let span ← Arena.alloc .backward Frame.length
  Frame.store span.offset { f with mark := mark.record }
  if f.parent = 0 then
    modifyReader ({ · with root := span.offset })
  else
    let around ← look (Frame.load · f.parent)
    Frame.store f.parent { around with child := span.offset }

/-- Take a finished value's frame away, and count the value in the list around it. -/
def complete (offset : Nat) (f : Frame) : ReadM Turn := do
  Arena.rewind ⟨.backward, f.mark⟩
  if f.parent = 0 then
    modifyReader ({ · with root := 0 })
    return .done ⟨.arena, f.cell⟩
  else
    let around ← look (Frame.load · f.parent)
    if around.child ≠ offset then
      throw (.fault (.corruptContext f.parent))
    else
      Frame.store f.parent { around with child := 0 }
      match ← header around.cell with
      | .list count sigil _ =>
          if count = Header.maxCount then
            reject .listTooLong none
          else
            setHeader around.cell (.list (count + 1) sigil false)
            return .again
      | _ => throw (.fault (.corruptContext f.parent))

/-! ### Starting values -/

/-- Start a value: its header, and a frame for it. -/
def begin (kind : Frame.Kind) (flags : UInt8) (parent : Nat) (h : Header) : ReadM Unit := do
  let span ← Arena.alloc .forward h.length
  setHeader span.offset h
  pushFrame { kind, flags, cell := span.offset, mark := 0, parent, child := 0 }

/-- Set all room aside that a symbol may need. -/
def reserveSymbol : ReadM Unit := do
  let lock ← Arena.lock
  let room := min Header.maxSymbol (← get).arena.free
  let _ ← Arena.reserve lock room
  modifyReader ({ · with lock := some lock })

/-- Act on a token found under the focus. -/
def accept (focus : Focus) (token : Token) : ReadM Turn := do
  let parent := (focus.leaf.map (·.1)).getD 0
  match token with
  | .comment =>
      modifyReader ({ · with inComment := true })
      return .again
  | .close =>
      match focus.leaf with
      | some (offset, f) => complete offset f
      | none => reject .spuriousClose (some Text.Ascii.closeParen)
  | .list sigil =>
      if (← get).reader.maxDepth ≤ focus.depth then
        reject .tooDeep (some Text.Ascii.openParen)
      else
        begin .list (UInt8.ofNat sigil.code) parent (.list 0 sigil false)
        return .again
  | .symbol sigil quoted =>
      begin .symbol (if quoted then Frame.quotedFlag else 0) parent (.symbol 0 sigil quoted false 0)
      reserveSymbol
      return .again
  | .integer =>
      begin .integer 0 parent (.integer 0)
      return .again

/-! ### Turns -/

/-- Skip what is there of a comment. -/
def commentTurn : ReadM Turn := do
  match scanComment 0 (← get).ahead with
  | (taken, true) =>
      consume taken []
      modifyReader ({ · with inComment := false })
      return .again
  | (taken, false) =>
      starve taken []
      return .starved

/-- Between the children of a list, or between values. -/
def tokenTurn (focus : Focus) : ReadM Turn := do
  match scanLead focus.level 0 (← get).ahead with
  | (taken, .starved run) =>
      starve taken run
      return .starved
  | (taken, .rejected cause found) =>
      consume taken []
      reject cause (some found)
  | (taken, .accepted token back) =>
      consume taken back
      accept focus token

/-- Give back the room that a complete symbol of `length` characters does not need. -/
def settleSymbol (offset length : Nat) : ReadM Unit := do
  match (← get).reader.lock with
  | none => throw (.fault (.corruptContext offset))
  | some lock =>
      modifyReader ({ · with lock := none })
      let _ ← Arena.claim lock length
      Arena.unlock lock

/-- Inside a symbol. -/
def symbolTurn (offset : Nat) (f : Frame) : ReadM Turn := do
  match ← header f.cell with
  | .symbol length sigil quoted _ _ =>
      let text := f.cell + Header.symbolLength
      let s ← get
      let run := scanSymbol quoted (f.has Frame.escapedFlag) length
        (s.arena.forward - (text + length)) s.ahead
      if run.chars ≠ [] then
        Arena.write (text + length) run.chars
      let length := length + run.chars.length
      match run.ending with
      | .starved =>
          starve run.taken []
          setHeader f.cell (.symbol length sigil quoted false 0)
          let f := if quoted then f.withFlag Frame.escapedFlag run.escaped else f
          Frame.store offset f
          return .starved
      | .tooLong found =>
          consume run.taken []
          reject .symbolTooLong (some found)
      | .full =>
          consume run.taken []
          throw (.fault (.arena (.outOfMemory 1 (← get).arena.free)))
      | .closed back =>
          consume run.taken back
          settleSymbol offset length
          let chars ← look fun a => (a.bytes text length).mapError .arena
          setHeader f.cell (.symbol length sigil quoted false (Hash.key8 chars))
          complete offset f
  | _ => throw (.fault (.corruptContext offset))

/-- Inside an integer. -/
def integerTurn (offset : Nat) (f : Frame) : ReadM Turn := do
  match ← header f.cell with
  | .integer value =>
      let run := scanInteger value.natAbs (f.has Frame.negativeFlag) (f.has Frame.digitsFlag) 0
        (← get).ahead
      let value : Int := if run.negative then -run.magnitude else run.magnitude
      let f := (f.withFlag Frame.negativeFlag run.negative).withFlag Frame.digitsFlag run.digits
      match run.ending with
      | .starved =>
          starve run.taken []
          setHeader f.cell (.integer value)
          Frame.store offset f
          return .starved
      | .overflow found =>
          consume run.taken []
          reject .integerOverflow (some found)
      | .closed next =>
          consume run.taken [next]
          setHeader f.cell (.integer value)
          complete offset f
  | _ => throw (.fault (.corruptContext offset))

/-- Carry the innermost unfinished value on as far as one kind of scan goes. -/
def turn : ReadM Turn := do
  if (← get).reader.inComment then
    commentTurn
  else
    let r := (← get).reader
    let focus ← look r.focus
    match focus.leaf with
    | some (offset, f) =>
        match f.kind with
        | .symbol => symbolTurn offset f
        | .integer => integerTurn offset f
        | .list => tokenTurn focus
    | none => tokenTurn focus

/-- Take at most `fuel` turns, until the bytes run out or a value is complete. -/
def turns : (fuel : Nat) → ReadM ReadStatus
  | 0 => return .pending
  | fuel + 1 => do
      match ← turn with
      | .again => turns fuel
      | .starved => return .pending
      | .done place => return .done place

/-- More turns than a read takes. A value may be started, and ended, by a turn that leaves a byte to
be read again, but the turn after it takes that byte, so there are a few turns for each byte. -/
def turnLimit (s : Reading) : Nat := 4 * (s.ahead.length + 2)

/-- Continue reading: answer the next value once all of it has been consumed, or `pending` when
the source has nothing more. -/
def read : ReadM ReadStatus := do
  turns (← get).turnLimit

/-- Read a value from a source that is all there is: its end is as good as a line end. -/
def readToEnd : ReadM ReadStatus := do
  match ← read with
  | .pending =>
      modify fun ⟨r, _, a⟩ => ⟨r, .ofBytes [Text.Ascii.newline], a⟩
      read
  | done => return done

end Reading

end FlatLisp
