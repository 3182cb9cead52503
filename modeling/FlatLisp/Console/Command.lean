/-
Module: FlatLisp.Console.Command
Purpose: The commands of a session, which are lines that begin with a colon.
Main exports: Command, Command.ofLine?, Command.addressOf?
-/
import FlatLisp.Text.Blank

namespace FlatLisp

/-- A command of a session. -/
inductive Command where
  | quit
  | stats
  | blocks
  | save (text : String)
  /-- The block is missing where what is written is no address. -/
  | load (block : Option Nat)
  | free (block : Option Nat)
  | help
deriving DecidableEq, Repr, Inhabited

namespace Command

/-- The value of a digit in base sixteen. -/
def digit? (c : Char) : Option Nat :=
  if '0' ≤ c ∧ c ≤ '9' then some (c.toNat - '0'.toNat)
  else if 'a' ≤ c ∧ c ≤ 'f' then some (c.toNat - 'a'.toNat + 10)
  else if 'A' ≤ c ∧ c ≤ 'F' then some (c.toNat - 'A'.toNat + 10)
  else none

/-- The number that digits in a base spell. -/
def digitsOf? (base : Nat) (digits : List Char) : Option Nat :=
  digits.foldlM
    (fun n c => do
      let d ← digit? c
      if d < base then some (n * base + d) else none) 0

/-- A number in a base, after a plus or not, with one digit at least. -/
def numberOf? (base : Nat) : List Char → Option Nat
  | [] => none
  | '+' :: [] => none
  | '+' :: digits => digitsOf? base digits
  | digits => digitsOf? base digits

/-- The largest address. -/
def maxAddress : Nat := 65535

/-- An address: in base sixteen after `0x`, otherwise in base ten. -/
def addressOf? (text : List Char) : Option Nat := do
  let n ←
    match text with
    | '0' :: 'x' :: digits => numberOf? 16 digits
    | digits => numberOf? 10 digits
  if n ≤ maxAddress then some n else none

/-- The command on a line, if there is one. -/
def ofLine? (line : String) : Option Command :=
  match Text.Blank.trim line.toList with
  | ':' :: command =>
      let (name, rest) := Text.Blank.cut command
      let rest := Text.Blank.trim rest
      let name := String.ofList name
      some <|
        if name = "quit" then .quit
        else if name = "stats" then .stats
        else if name = "blocks" then .blocks
        else if name = "save" then .save (String.ofList rest)
        else if name = "load" then .load (addressOf? rest)
        else if name = "free" then .free (addressOf? rest)
        else .help
  | _ => none

end Command

end FlatLisp
