/-
Module: FlatLisp.Console.Session
Purpose: A session at the console: lines in, lines out. Every value that is read is written back,
  and as long as one is unfinished, what it lacks is shown.
Main exports: Session, SessionM, Session.start, Session.enter, Session.readFile, Session.banner
-/
import FlatLisp.Arena.Checkpoint
import FlatLisp.Console.Command
import FlatLisp.Console.Typed
import FlatLisp.Guard
import FlatLisp.Printing.Missing
import FlatLisp.Settings
import FlatLisp.Store.Link

namespace FlatLisp

/-- A line of output, to one of two streams. -/
inductive Line where
  | out (text : String)
  | err (text : String)
deriving DecidableEq, Repr, Inhabited

/-- Why a session cannot be started. -/
inductive StartError where
  | settings (why : SettingsError)
  | store (why : StoreError)
deriving DecidableEq, Repr, Inhabited

/-- A session. -/
structure Session where
  settings : Settings
  arena : Arena
  store : Option Store
  reader : Reader
  printer : Printer
  guard : Guard
  feed : Feed := {}
  /-- What has been written since it was last taken away, the latest first. -/
  written : List Line := []

/-- A part of a session. -/
abbrev SessionM := StateM Session

namespace Session

/-- Start a session. -/
def start (settings : Settings) : Except StartError Session := do
  let arena ← settings.newArena.mapError .settings
  let store ← settings.newStore.mapError .store
  return {
    settings, arena, store
    reader := .ofDepth settings.maxDepth
    printer := { options := settings.print }
    guard := .establish arena }

/-- What a session begins with. -/
def banner : List String :=
  ["ThinLisp v0.3.0 - incremental reader", "Type :quit or Ctrl-D to exit, :help for commands", ""]

/-- What is written when the input is at its end. -/
def farewell : String := "CTRL-D"

/-- Take away what has been written, the earliest first. -/
def takeWritten : SessionM (List Line) := fun s => (s.written.reverse, { s with written := [] })

def out (text : String) : SessionM Unit :=
  modify fun s => { s with written := .out text :: s.written }

def err (text : String) : SessionM Unit :=
  modify fun s => { s with written := .err text :: s.written }

/-- The memory outside the arena. -/
def external (s : Session) : External := (s.store.map (·.external)).getD .unmapped

/-- Do something with the arena. -/
def withArena {ε α : Type} (job : EStateM ε Arena α) : SessionM (Except ε α) := fun s =>
  match job s.arena with
  | .ok x a => (.ok x, { s with arena := a })
  | .error e a => (.error e, { s with arena := a })

/-- Drop what was allocated since the session was between values. -/
def release : SessionM Unit := do
  let _ ← withArena (← get).guard.release

/-- Write a value. -/
def echo (p : Place) : SessionM Unit := do
  let s ← get
  match ← withArena (Cell.render s.external s.settings.print p) with
  | .ok bytes => out (Text.Utf8.decodeLossy bytes)
  | .error why => err ("Print error: " ++ why.message)

/-! ### Reading -/

/-- Continue reading from the feed under the guard. -/
def readGuarded : SessionM Outcome := fun s =>
  match s.guard.read ⟨s.reader, s.feed.source, s.arena⟩ with
  | (outcome, guard, ⟨reader, source, arena⟩) =>
      (outcome, { s with guard, reader, arena, feed := ⟨source.bytes⟩ })

/-- Read and write back the values in the feed, `fuel` of them at most, and answer whether all of
the input was good. -/
def drainValues : (fuel : Nat) → SessionM Bool
  | 0 => return true
  | fuel + 1 => do
      match ← readGuarded with
      | .value place =>
          echo place
          release
          drainValues fuel
      | .pending => return true
      | .rejected why =>
          err ("Read error: " ++ why.message)
          modify ({ · with feed := {} })
          return false
      | .aborted why =>
          err ("Aborted: " ++ why.message)
          modify fun s => { s with printer := s.printer.reset, feed := {} }
          return false

/-- Read and write back all values in the feed. A value takes a byte at least. -/
def drain : SessionM Bool := do
  let s ← get
  drainValues (s.reader.pushback.length + s.feed.pending.length + 2)

/-- What the value in progress lacks, if one is in progress. -/
def missing : SessionM (Option String) := fun s =>
  if s.reader.isIdle && !s.reader.pendingSigil then (none, s)
  else
    match Printing.printMissing s.reader ⟨s.printer, s.arena, ({} : Transcript)⟩ with
    | .ok .done p => (some p.sink.text, { s with printer := p.printer, arena := p.arena })
    | .ok .blocked p => (none, { s with printer := p.printer, arena := p.arena })
    | .error _ p => (none, { s with printer := p.printer, arena := p.arena })

/-! ### Commands -/

def noStore : String := "No store configured."

/-- Read a value from the text and save it. -/
def saveText (text : String) : SessionM Unit := do
  let s ← get
  match s.store with
  | none => out noStore
  | some store =>
      let reader := Reader.ofDepth s.settings.maxDepth
      match Reading.readToEnd ⟨reader, .ofBytes (Text.Utf8.encode text), s.arena⟩ with
      | .ok (.done place) r =>
          match Backed.persist place ⟨r.arena, store⟩ with
          | .ok block b =>
              set { s with arena := b.arena, store := some b.store }
              out s!"Saved at {Text.Hex.address block}"
          | .error why b =>
              set { s with arena := b.arena, store := some b.store }
              err ("Store error: " ++ why.message)
      | .ok .pending r =>
          set { s with arena := r.arena }
          out "Incomplete expression."
      | .error why r =>
          set { s with arena := r.arena }
          err ("Read error: " ++ why.message)
      release

/-- Write the value saved in a block. -/
def loadBlock (block : Nat) : SessionM Unit := do
  match (← get).store with
  | none => out noStore
  | some store =>
      match ← withArena (Cell.attach store.external block) with
      | .ok place => echo place
      | .error why => err ("Store error: " ++ why.message)
      release

/-- Give a block back. -/
def freeBlock (block : Nat) : SessionM Unit := do
  match (← get).store with
  | none => out noStore
  | some store =>
      match Store.free block store with
      | .ok () store => modify ({ · with store := some store })
      | .error why _ => err ("Store error: " ++ why.message)

/-- List the allocated blocks. -/
def listBlocks : SessionM Unit := do
  match (← get).store with
  | none => out noStore
  | some store =>
      for b in store.blocks.filter (!·.free) do
        out s!"{Text.Hex.address b.address} {b.capacity} bytes"

/-- Write the figures of the arena and the store. -/
def showStats : SessionM Unit := do
  let s ← get
  let f := s.arena.stats
  out s!"arena {f.capacity} bytes: {f.forwardUsed} forward, {f.backwardUsed} backward, {f.free} free"
  match s.store with
  | some store => out s!"store {store.freeSpace} bytes free"
  | none => return

/-- Follow a command, and answer whether the session goes on. -/
def obey : Command → SessionM Bool
  | .quit => return false
  | .stats => do showStats; return true
  | .blocks => do listBlocks; return true
  | .save text => do saveText text; return true
  | .load (some block) => do loadBlock block; return true
  | .load none => do out "Usage: :load <block>"; return true
  | .free (some block) => do freeBlock block; return true
  | .free none => do out "Usage: :free <block>"; return true
  | .help => do
      out "Commands: :save <expr>, :load <block>, :free <block>, :blocks, :stats, :quit"
      return true

/-! ### Lines -/

/-- Handle a line of input, and answer whether the session goes on. Inside a value a colon has no
meaning. -/
def enter (line : String) : SessionM Bool := do
  let command := if (← get).reader.isIdle then Command.ofLine? line else none
  match command with
  | some command => obey command
  | none =>
      modify fun s => { s with feed := s.feed.pushLine line }
      if ← drain then
        match ← missing with
        | some text => out ("  ; missing: " ++ text)
        | none => pure ()
      return true

/-- Handle a line of a file. -/
def readLine (line : String) : SessionM Unit := do
  modify fun s => { s with feed := s.feed.pushLine line }
  let _ ← drain

/-- Forget the value in progress. -/
def abandonInput : SessionM Unit := do
  modify fun s => { s with reader := s.reader.reset, printer := s.printer.reset }
  release

/-- Complain of a value that the end of a file left unfinished. -/
def finishFile (path : String) : SessionM Unit := do
  match ← missing with
  | some text =>
      err s!"Incomplete expression at end of {path}, missing: {text}"
      abandonInput
  | none => return

/-! ### Whole inputs -/

/-- The lines of a text, each without its line end, which may have a carriage return in it. -/
def linesOf (text : String) : List String :=
  let strip (line : List Char) : String :=
    match line.reverse with
    | '\x0d' :: rest => String.ofList rest.reverse
    | _ => String.ofList line
  let rec go (line : List Char) : List Char → List String
    | [] => if line.isEmpty then [] else [String.ofList line.reverse]
    | c :: rest => if c = '\n' then strip line.reverse :: go [] rest else go (c :: line) rest
  go [] text.toList

/-- Handle the lines of a file and its end. -/
def readFile (path text : String) : SessionM Unit := do
  for line in linesOf text do
    readLine line
  finishFile path

/-- Handle lines of input, until one ends the session, and answer whether none did. -/
def enterAll : List String → SessionM Bool
  | [] => return true
  | line :: rest => do
      if ← enter line then enterAll rest else return false

/-- A session with the given lines of input, from its banner to its end. -/
def converse (lines : List String) : SessionM Unit := do
  for line in banner do
    out line
  if ← enterAll lines then
    out farewell

end Session

/-- How a failure to start is reported. -/
def StartError.report : StartError → String
  | .settings .malformed => "Error: Json"
  | .settings (.arenaSize size) => s!"Error: ArenaSize({size})"
  | .settings (.maxDepth depth) => s!"Error: MaxDepth({depth})"
  | .store (.invalidSize size) => s!"Error: InvalidSize({size})"
  | .store why => "Error: " ++ why.message

namespace Session

/-- Settings from the text of a file, or the default. -/
def settingsOf : Option String → Except StartError Settings
  | none => .ok {}
  | some text => (Settings.ofText text).mapError .settings

/-- The exit code and all output of a session, given the settings file, the name and text of an
input file, and what is typed where there is no such file. The lines of what is typed are edited
before the session is given them. -/
def complete (settings : Option String) (file : Option (String × String)) (typed : String) :
    Nat × List Line :=
  match settingsOf settings >>= start with
  | .error why => (1, [.err why.report])
  | .ok s =>
      let session : SessionM Unit :=
        match file with
        | some (path, text) => readFile path text
        | none => converse ((linesOf typed).map Typed.lineOf)
      (0, ((session *> takeWritten) s).1)

end Session

end FlatLisp
