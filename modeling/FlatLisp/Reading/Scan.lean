/-
Module: FlatLisp.Reading.Scan
Purpose: What the bytes ahead of a reader say, before any of them is consumed: the next token, the
  rest of a symbol, the rest of an integer, the rest of a comment. Each scan stops at the first
  byte that settles it, or where no more bytes have arrived.
Main exports: Glyph, Token, Lead, scanLead, SymbolRun, scanSymbol, IntegerRun, scanInteger,
  scanComment
-/
import FlatLisp.Reading.Rejection
import FlatLisp.Source

namespace FlatLisp.Reading

open Text

/-- What a byte means where a value may begin. -/
inductive Glyph where
  | blank
  | opens
  | closes
  | comment
  | quote
  | sign
  | digit
  /-- Part of a sigil or of a plain symbol. -/
  | other
deriving DecidableEq, Repr, Inhabited

def Glyph.ofByte (c : UInt8) : Glyph :=
  if Ascii.isBlank c then .blank
  else if c = Ascii.openParen then .opens
  else if c = Ascii.closeParen then .closes
  else if c = Ascii.semicolon then .comment
  else if c = Ascii.doubleQuote then .quote
  else if c = Ascii.plus ∨ c = Ascii.minus then .sign
  else if Ascii.isDigit c then .digit
  else .other

/-- A plain symbol ends before this byte. -/
def endsSymbol (c : UInt8) : Bool :=
  Ascii.isBlank c || c == Ascii.closeParen || c == Ascii.semicolon

/-! ### Tokens -/

/-- What the next value is, or what else is next. -/
inductive Token where
  | list (sigil : Sigil)
  | close
  | symbol (sigil : Sigil) (quoted : Bool)
  | integer
  | comment
deriving DecidableEq, Repr, Inhabited

/-- The outcome of looking for a token. -/
inductive Lead where
  /-- The bytes ran out. The run of sigils and sign so far is kept to be read again. -/
  | starved (run : List UInt8)
  /-- A token. The bytes `back` belong to its text and are to be read again. -/
  | accepted (token : Token) (back : List UInt8)
  | rejected (cause : Rejection.Cause) (found : UInt8)
deriving DecidableEq, Repr, Inhabited

/-- A value under `sigil` is allowed `level` quasiquotes deep; `c` shows it. -/
def allowed (level : Int) (sigil : Sigil) (c : UInt8) (token : Token) (back : List UInt8) : Lead :=
  if sigil.isUnquote ∧ level ≤ 0 then .rejected .commaOutsideQuasiquote c
  else .accepted token back

/-- What the byte `c` after the sign `s` makes of both. -/
def leadSigned (level : Int) (sigil : Sigil) (s c : UInt8) : Lead :=
  match Glyph.ofByte c with
  | .digit => if sigil ≠ .bare then .rejected .sigilOnInteger c else .accepted .integer [s, c]
  | .opens =>
      if sigil ≠ .bare then .rejected .unhandledSigil c
      else .accepted (.list (if s = Ascii.plus then .plus else .minus)) []
  | _ => allowed level sigil c (.symbol sigil false) [s, c]

/-- Look for a token after the sigil `sigil`, which the bytes `run` spell. The number in the answer
counts the bytes looked at, `taken` before them included. -/
def scanSigils (level : Int) (sigil : Sigil) (run : List UInt8) (taken : Nat) :
    Source → Nat × Lead
  | [] | none :: _ => (taken, .starved run)
  | some c :: rest =>
      match Glyph.ofByte c with
      | .sign =>
          match rest with
          | [] | none :: _ => (taken + 1, .starved (run ++ [c]))
          | some d :: _ => (taken + 2, leadSigned level sigil c d)
      | .opens => (taken + 1, allowed level sigil c (.list sigil) [])
      | .quote => (taken + 1, allowed level sigil c (.symbol sigil true) [])
      | .digit =>
          (taken + 1,
            if sigil ≠ .bare then .rejected .sigilOnInteger c else .accepted .integer [c])
      | .comment =>
          (taken + 1,
            if sigil ≠ .bare then .rejected .danglingSigil c else .accepted .comment [])
      | .closes =>
          (taken + 1, if sigil ≠ .bare then .rejected .danglingSigil c else .accepted .close [])
      | .blank => (taken + 1, .rejected .danglingSigil c)
      | .other =>
          match sigil.combine c with
          | some longer => scanSigils level longer (run ++ [c]) (taken + 1) rest
          | none =>
              (taken + 1,
                if (Sigil.ofByte? c).isSome then .rejected .unhandledSigil c
                else allowed level sigil c (.symbol sigil false) [c])

/-- Look for a token, blanks skipped. -/
def scanLead (level : Int) (taken : Nat) : Source → Nat × Lead
  | some c :: rest =>
      if Glyph.ofByte c = .blank then scanLead level (taken + 1) rest
      else scanSigils level .bare [] taken (some c :: rest)
  | ahead => scanSigils level .bare [] taken ahead

/-! ### Symbols -/

/-- How a run of symbol characters ends. -/
inductive SymbolRun.Ending where
  | starved
  /-- The symbol is complete; the bytes `back` are not part of it. -/
  | closed (back : List UInt8)
  | tooLong (found : UInt8)
  /-- There is no room for the next character. -/
  | full
deriving DecidableEq, Repr, Inhabited

/-- A run of symbol characters. -/
structure SymbolRun where
  /-- The characters, escapes resolved. -/
  chars : List UInt8
  /-- The number of bytes looked at. -/
  taken : Nat
  /-- A backslash waits for the character that it escapes. -/
  escaped : Bool
  ending : SymbolRun.Ending
deriving DecidableEq, Repr, Inhabited

namespace SymbolRun

def stop (taken : Nat) (escaped : Bool) (ending : Ending) : SymbolRun :=
  ⟨[], taken, escaped, ending⟩

/-- The run with one more byte before it. -/
def after (run : SymbolRun) (chars : List UInt8) : SymbolRun :=
  { run with chars := chars ++ run.chars, taken := run.taken + 1 }

end SymbolRun

/-- The characters of a symbol of which `length` are known, into `room` free bytes. -/
def scanSymbol (quoted : Bool) : (escaped : Bool) → (length room : Nat) → Source → SymbolRun
  | escaped, _, _, [] | escaped, _, _, none :: _ => .stop 0 escaped .starved
  | escaped, length, room, some c :: rest =>
      if !quoted && endsSymbol c then .stop 1 escaped (.closed [c])
      else if quoted && !escaped && c == Ascii.backslash then
        (scanSymbol quoted true length room rest).after []
      else if quoted && !escaped && c == Ascii.doubleQuote then .stop 1 escaped (.closed [])
      else if length = Header.maxSymbol then .stop 1 false (.tooLong c)
      else
        match room with
        | 0 => .stop 1 false .full
        | room + 1 => (scanSymbol quoted false (length + 1) room rest).after [c]

/-! ### Integers -/

/-- How a run of integer characters ends. -/
inductive IntegerRun.Ending where
  | starved
  /-- The integer is complete; the byte `next` is not part of it. -/
  | closed (next : UInt8)
  | overflow (found : UInt8)
deriving DecidableEq, Repr, Inhabited

/-- A run of integer characters. -/
structure IntegerRun where
  magnitude : Nat
  negative : Bool
  /-- A digit was met. -/
  digits : Bool
  /-- The number of bytes looked at. -/
  taken : Nat
  ending : IntegerRun.Ending
deriving DecidableEq, Repr, Inhabited

/-- The digits after a known part of an integer. While the magnitude is zero signs are accepted,
and the last one counts. -/
def scanInteger (magnitude : Nat) (negative digits : Bool) (taken : Nat) : Source → IntegerRun
  | [] | none :: _ => ⟨magnitude, negative, digits, taken, .starved⟩
  | some c :: rest =>
      match Glyph.ofByte c with
      | .sign =>
          if magnitude = 0 then scanInteger 0 (c = Ascii.minus) digits (taken + 1) rest
          else ⟨magnitude, negative, digits, taken + 1, .closed c⟩
      | .digit =>
          let longer := magnitude * 10 + Ascii.digitValue c
          if longer ≤ Header.maxMagnitude then
            scanInteger longer negative true (taken + 1) rest
          else ⟨magnitude, negative, digits, taken + 1, .overflow c⟩
      | _ => ⟨magnitude, negative, digits, taken + 1, .closed c⟩

/-! ### Comments -/

/-- How many bytes of a comment are there, its line end included, and whether that was met. -/
def scanComment (taken : Nat) : Source → Nat × Bool
  | [] | none :: _ => (taken, false)
  | some c :: rest =>
      if c = Ascii.newline then (taken + 1, true) else scanComment (taken + 1) rest

end FlatLisp.Reading
