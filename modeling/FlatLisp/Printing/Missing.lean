/-
Module: FlatLisp.Printing.Missing
Purpose: What an unfinished value lacks: the bytes after which a reader would have it complete.
Main exports: Printing.placeholder, OpenContext.closer, Printing.printMissing
-/
import FlatLisp.Printing.Basic
import FlatLisp.Reading.Basic

namespace FlatLisp

open Text

/-- The bytes that complete an unfinished value whose parts are complete: the closing quote, with
a character for a backslash to escape; a digit for a bare sign; the closing parenthesis. -/
def OpenContext.closer : OpenContext → List UInt8
  | .list _ => [Ascii.closeParen]
  | .symbol true true => [Ascii.doubleQuote, Ascii.doubleQuote]
  | .symbol true false => [Ascii.doubleQuote]
  | .symbol false _ => []
  | .integer _ false => [Ascii.zero]
  | .integer _ true => []

namespace Printing

variable {σ : Type}

/-- The value that stands in after a sigil that has none: an empty quoted symbol, which every sigil
may be written before. -/
def placeholder : List UInt8 := [Ascii.doubleQuote, Ascii.doubleQuote]

/-- Offer bytes until one is refused, and answer how many were accepted. -/
def offerAll [Sink σ] : List UInt8 → PrintM σ Nat
  | [] => return 0
  | c :: rest => do
      if ← offer c then return (← offerAll rest) + 1 else return 0

/-- Write what is left of a piece, and answer whether that was accepted to its end; if not, what is
unfinished is kept. -/
def offerPiece [Sink σ] (piece : List UInt8) (c : Completion) : PrintM σ Bool := do
  let left := piece.drop c.emitted
  let accepted ← offerAll left
  if accepted = left.length then
    return true
  else
    modifyPrinter ({ · with completion := some { c with emitted := c.emitted + accepted } })
    return false

/-- Close the unfinished values from the innermost on, `fuel` of them at most. -/
def closeContexts [Sink σ] (r : Reader) : (fuel : Nat) → Completion → PrintM σ PrintStatus
  | 0, c => do
      modifyPrinter ({ · with completion := some c })
      return .blocked
  | fuel + 1, c => do
      match ← look (r.openContext · c.closed) with
      | none => return .done
      | some unfinished =>
          if ← offerPiece unfinished.closer c then
            closeContexts r fuel { c with closed := c.closed + 1, emitted := 0 }
          else
            return .blocked

/-- More values than can be open at once: each has a frame at an offset of its own. -/
def contextLimit : Nat := Place.maxOffset + 1

/-- Write what the value that a reader has in progress lacks, or go on writing it. -/
def printMissing [Sink σ] (r : Reader) : PrintM σ PrintStatus := do
  let p := (← get).printer
  if p.job.isSome then
    throw .printerBusy
  else
    let c := p.completion.getD {}
    modifyPrinter ({ · with completion := none })
    if !c.placed && r.pendingSigil then
      if ← offerPiece placeholder c then
        closeContexts r contextLimit { c with placed := true, emitted := 0 }
      else
        return .blocked
    else
      closeContexts r contextLimit { c with placed := true }

end Printing

end FlatLisp
