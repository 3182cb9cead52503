/-
Module: FlatLisp.Console.Typed
Purpose: The editing of a line while it is typed, before a session is given it: a backspace rubs out the
  cluster that was typed before it.
Main exports: Typed, Typed.press, Typed.lineOf
-/
import FlatLisp.Text.Cluster

namespace FlatLisp

/-- A line that is being typed. -/
structure Typed where
  /-- The characters, the latest first. -/
  text : List Char := []
  /-- The length of each cluster that can be rubbed out, the latest first. -/
  lengths : List Nat := []
deriving DecidableEq, Repr, Inhabited

namespace Typed

def backspace : Char := Char.ofNat 0x08

/-- Lengths are kept in one byte, so this is where they start again from zero. -/
def lengthLimit : Nat := 256

/-- The number of bytes of a cluster, as far as it is kept. -/
def keptLength (cluster : List Char) : Nat :=
  cluster.foldr (fun c total => c.utf8Size + total) 0 % lengthLimit

/-- Rub out the latest `count` bytes, as far as they are whole characters. -/
def rubOut : (count : Nat) → List Char → List Char
  | _, [] => []
  | count, c :: rest => if c.utf8Size ≤ count then rubOut (count - c.utf8Size) rest else c :: rest

/-- The line after one more cluster. A backspace with nothing before it does nothing. -/
def press (line : Typed) (cluster : List Char) : Typed :=
  if cluster = [backspace] then
    match line.lengths with
    | [] => line
    | length :: lengths => ⟨rubOut length line.text, lengths⟩
  else ⟨cluster.reverse ++ line.text, keptLength cluster :: line.lengths⟩

/-- What is left of a typed line once its backspaces have been followed. -/
def lineOf (typed : String) : String :=
  String.ofList ((Text.Cluster.cut typed.toList).foldl press {}).text.reverse

end Typed

end FlatLisp
