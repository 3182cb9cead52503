/-
Module: FlatLisp.Main
Purpose: The command line: a session on standard input, or on the file that is named.
Main exports: main
-/
import FlatLisp.Console.Session

namespace FlatLisp.Console

/-- Write the lines of a session to their streams. -/
def writeLines (lines : List Line) : IO Unit := do
  for line in lines do
    match line with
    | .out text => IO.println text
    | .err text => IO.eprintln text

/-- A line of standard input as it is once edited, without its line end; none at its end. -/
def nextLine (input : IO.FS.Stream) : IO (Option String) := do
  let line ← input.getLine
  return (Session.linesOf line).head?.map Typed.lineOf

/-- Handle the lines of standard input one after the other. -/
partial def converse (input : IO.FS.Stream) (s : Session) : IO Unit := do
  match ← nextLine input with
  | none => IO.println Session.farewell
  | some line =>
      let (goesOn, s) := Session.enter line s
      let (lines, s) := Session.takeWritten s
      writeLines lines
      if goesOn then converse input s

/-- The settings file that the environment names, if it names one. -/
def settingsText : IO (Option String) := do
  match ← IO.getEnv "THINLISP_CONFIG" with
  | some path => return some (← IO.FS.readFile path)
  | none => return none

end FlatLisp.Console

open FlatLisp FlatLisp.Console

/-- A session with the settings of the environment, on the file that the first argument names or
else on standard input. -/
def main (args : List String) : IO UInt32 := do
  match Session.settingsOf (← settingsText) >>= Session.start with
  | .error why =>
      IO.eprintln why.report
      return 1
  | .ok s =>
      match args with
      | path :: _ =>
          let text ← IO.FS.readFile path
          writeLines ((Session.readFile path text *> Session.takeWritten) s).1
      | [] =>
          writeLines (Session.banner.map .out)
          converse (← IO.getStdin) s
      return 0
