/-
Module: FlatLisp.Printing.Basic
Purpose: Printers, which may stop at any byte that their sink refuses and go on from there.
Main exports: Printer, PrintStatus, Printing, PrintM, Printing.print, Printing.abandon, Cell.render
-/
import FlatLisp.Cell.Counter
import FlatLisp.Printing.Frame
import FlatLisp.Sink

namespace FlatLisp

/-- The result of a print that does not fail. -/
inductive PrintStatus where
  | done
  /-- The sink refused a byte; ask again to go on. -/
  | blocked
deriving DecidableEq, Repr, Inhabited

/-- A value that is being written. -/
structure Printing.Job where
  root : Place
  /-- The record of the mark taken before the first frame. -/
  mark : Nat
  /-- The innermost frame. -/
  top : Nat
  /-- The number of frames. -/
  depth : Nat
  /-- A line end is still to be written. -/
  newline : Bool
  /-- How many spaces are still to be written. -/
  spaces : Nat
deriving DecidableEq, Repr, Inhabited

/-- The end of an unfinished value that is being written. -/
structure Printing.Completion where
  /-- The value for a waiting sigil has been written. -/
  placed : Bool := false
  /-- How many unfinished values have been closed, from the innermost on. -/
  closed : Nat := 0
  /-- How many bytes of the current piece have been written. -/
  emitted : Nat := 0
deriving DecidableEq, Repr, Inhabited

/-- A printer, and what it has not finished. -/
structure Printer where
  options : PrintOptions
  job : Option Printing.Job := none
  completion : Option Printing.Completion := none
deriving DecidableEq, Repr, Inhabited

namespace Printer

/-- Something is waiting for the sink. -/
def isBusy (p : Printer) : Bool := p.job.isSome || p.completion.isSome

/-- Forget what is unfinished. The arena has to be taken back by other means. -/
def reset (p : Printer) : Printer := { p with job := none, completion := none }

end Printer

/-- What a print works on. -/
structure Printing (σ : Type) where
  printer : Printer
  arena : Arena
  sink : σ

/-- A part of a print. -/
abbrev PrintM (σ : Type) := EStateM Fault (Printing σ)

instance {σ : Type} : MonadLift CellM (PrintM σ) where
  monadLift job := fun ⟨p, a, sink⟩ =>
    match job a with
    | .ok x a => .ok x ⟨p, a, sink⟩
    | .error e a => .error e ⟨p, a, sink⟩

namespace Printing

variable {σ : Type}

/-- Consult the arena. -/
def look {α : Type} (f : Arena → Except Fault α) : PrintM σ α := (Cell.consult f : CellM α)

/-- Change the printer. -/
def modifyPrinter (change : Printer → Printer) : PrintM σ Unit := fun ⟨p, a, sink⟩ =>
  .ok () ⟨change p, a, sink⟩

/-- Offer a byte to the sink, and answer whether it was accepted. -/
def offer [Sink σ] (c : UInt8) : PrintM σ Bool := fun ⟨p, a, sink⟩ =>
  match Sink.offer sink c with
  | (accepted, sink) => .ok accepted ⟨p, a, sink⟩

/-- Put a frame for the value at `child` on top. All frames but the top one are those of lists with
children, and only such lists count as levels. -/
def pushFrame (ext : External) (job : Job) (child : Place) : CellM Job := do
  let h ← Cell.consult (Cell.load · ext child)
  let nested :=
    match h with
    | .list (_ + 1) .. => 1
    | _ => 0
  if Cell.maxNesting < job.depth + nested then
    throw (.depthExceeded Cell.maxNesting)
  else
    let next ←
      match h with
      | .list .. => Cell.consult (Cell.body · ext child h)
      | _ => pure child
    let mark ← Arena.mark .backward
    let span ← Arena.alloc .backward Frame.length
    Frame.store span.offset
      { place := child, next, stage := .sigil, counter := 0, mark := mark.record, below := job.top }
    return { job with top := span.offset, depth := job.depth + 1 }

/-- Start to write the value at `root`. -/
def start (ext : External) (root : Place) : CellM Job := do
  let mark ← Arena.mark .backward
  let job : Job :=
    { root, mark := mark.record, top := 0, depth := 0, newline := false, spaces := 0 }
  match ← attempt (pushFrame ext job root) with
  | .ok job => return job
  | .error e =>
      Arena.unwind mark.record
      throw e

/-- Take the frame of a complete value away and count it in the list around it. `stop` is the place
after the value. The answer is `none` when it was the root. -/
def popFrame (ext : External) (job : Job) (f : Frame) (stop : Place) : CellM (Option Job) := do
  Arena.rewind ⟨.backward, f.mark⟩
  if f.below = 0 then
    return none
  else
    let around ← Cell.consult (Frame.load · f.below)
    match ← Cell.consult (Cell.load · ext around.place) with
    | .list count .. =>
        let counter := around.counter + 1
        let stage := if counter < count then Stage.separator else Stage.closing
        Frame.store f.below { around with counter, stage, next := stop }
        return some { job with top := f.below, depth := job.depth - 1 }
    | _ => throw (.corruptContext f.below)

/-- The result of one round. -/
inductive Round where
  | more (job : Job)
  | blocked (job : Job)
  | done
deriving DecidableEq, Repr, Inhabited

/-- Write at most one byte of a job. -/
def round [Sink σ] (o : PrintOptions) (ext : External) (job : Job) : PrintM σ Round := do
  if job.newline then
    if ← offer Text.Ascii.newline then return .more { job with newline := false }
    else return .blocked job
  else if 0 < job.spaces then
    if ← offer Text.Ascii.space then return .more { job with spaces := job.spaces - 1 }
    else return .blocked job
  else
    let f ← look (Frame.load · job.top)
    let h ← look (Cell.load · ext f.place)
    match ← look (f.move o · ext job.top h) with
    | .emit c next =>
        if ← offer c then
          Frame.store job.top next
          return .more job
        else
          return .blocked job
    | .pass next =>
        Frame.store job.top next
        return .more job
    | .wrap next =>
        Frame.store job.top next
        return .more { job with newline := true, spaces := o.indent * job.depth }
    | .descend child =>
        return .more (← pushFrame ext job child)
    | .finish closer =>
        let accepted ←
          match closer with
          | some c => offer c
          | none => pure true
        if accepted then
          let stop ← look fun _ => f.stop h
          match ← popFrame ext job f stop with
          | some job => return .more job
          | none => return .done
        else
          return .blocked job

/-- Do at most `fuel` rounds, until a byte is refused, and answer the job that is left, if any. -/
def rounds [Sink σ] (o : PrintOptions) (ext : External) : (fuel : Nat) → Job → PrintM σ (Option Job)
  | 0, job => return some job
  | fuel + 1, job => do
      match ← round o ext job with
      | .more job => rounds o ext fuel job
      | .blocked job => return some job
      | .done => return none

/-- More rounds than any print takes. At most 33 values are open at once, each with at most 511
children; apart from its children a value takes fewer than 1024 rounds, and between two children
there are at most 33 times `indent` spaces. -/
def roundLimit (o : PrintOptions) : Nat := (o.indent + 1) <<< 400

/-- Write the value at `root`, or go on writing it. -/
def print [Sink σ] (ext : External) (root : Place) : PrintM σ PrintStatus := do
  let p := (← get).printer
  if p.completion.isSome then
    throw .printerBusy
  else
    let job ←
      match p.job with
      | some job => if job.root = root then pure job else throw .printerBusy
      | none => start ext root
    modifyPrinter ({ · with job := none })
    match ← attempt (rounds p.options ext (roundLimit p.options) job) with
    | .ok (some rest) =>
        modifyPrinter ({ · with job := some rest })
        return .blocked
    | .ok none =>
        Arena.rewind ⟨.backward, job.mark⟩
        return .done
    | .error e =>
        Arena.unwind job.mark
        throw e

/-- Drop what is unfinished and give its frames back. -/
def abandon : PrintM σ Unit := do
  let p := (← get).printer
  modifyPrinter (·.reset)
  match p.job with
  | some job => Arena.unwind job.mark
  | none => return

end Printing

/-- The written form of the value at a place. -/
def Cell.render (ext : External) (o : PrintOptions) (p : Place) : CellM (List UInt8) := fun a =>
  match Printing.print ext p ⟨{ options := o }, a, ({} : Transcript)⟩ with
  | .ok _ s => .ok s.sink.bytes s.arena
  | .error e s => .error e s.arena

end FlatLisp
