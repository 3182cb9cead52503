/-
Module: FlatLisp.Proofs.Reading.Grammar
Purpose: How values are written, as a recursive-descent parser over bytes that are all there. It
  knows nothing of arenas, of stalls or of bytes given back: each production is a function of the
  input that is left, and lists are read by calling the parser for values again.
Main exports: Grammar.Result, Grammar.skip, Grammar.value, Grammar.items, Grammar.list,
  Grammar.read, Grammar.readAll
-/
import FlatLisp.Proofs.Cell.Tree
import FlatLisp.Reading.Basic
import FlatLisp.Reading.Scan

namespace FlatLisp

namespace Grammar

open Text
open Reading (endsSymbol)

/-- What a production makes of an input. -/
inductive Result (α : Type) where
  /-- The input begins with this; the bytes `rest` come after it. -/
  | whole (value : α) (rest : List UInt8)
  /-- The input ends too early. -/
  | cut
  /-- The input is wrong at the byte before `left`. -/
  | refused (cause : Rejection.Cause) (found : Option UInt8) (left : List UInt8)
deriving DecidableEq, Repr, Inhabited

def Result.map {α β : Type} (f : α → β) : Result α → Result β
  | .whole value rest => .whole (f value) rest
  | .cut => .cut
  | .refused cause found left => .refused cause found left

/-- Blanks and comments are skipped. `inComment` tells in which of them the input begins. -/
def skip : (inComment : Bool) → List UInt8 → List UInt8
  | _, [] => []
  | true, c :: rest => skip (c != Ascii.newline) rest
  | false, c :: rest =>
      if Ascii.isBlank c then skip false rest
      else if c = Ascii.semicolon then skip true rest
      else c :: rest

/-- The longest sigil that the input begins with, and the input after it. -/
def splitSigil : List UInt8 → Sigil × List UInt8
  | [] => (.bare, [])
  | c :: rest =>
      match Sigil.ofByte? c with
      | none => (.bare, c :: rest)
      | some sigil =>
          match rest with
          | [] => (sigil, [])
          | d :: after =>
              match sigil.combine d with
              | none => (sigil, d :: after)
              | some longer => (longer, after)

def isSign (c : UInt8) : Bool := c == Ascii.plus || c == Ascii.minus

/-- The sigil that a sign is before a list. -/
def ofSign (c : UInt8) : Sigil := if c = Ascii.plus then .plus else .minus

/-! ### Leaves -/

/-- The characters up to a blank, a closing parenthesis or a semicolon, `room` of them at most. -/
def plain (room : Nat) (input : List UInt8) : Result (List UInt8) :=
  let chars := input.takeWhile fun c => !endsSymbol c
  let rest := input.dropWhile fun c => !endsSymbol c
  if room < chars.length then .refused .symbolTooLong chars[room]? (input.drop (room + 1))
  else if rest = [] then .cut
  else .whole chars rest

/-- The characters up to a double quote, `room` of them at most. A backslash takes the byte after it
literally. -/
def quoted : (room : Nat) → List UInt8 → Result (List UInt8)
  | _, [] => .cut
  | room, c :: rest =>
      if c = Ascii.doubleQuote then .whole [] rest
      else if c = Ascii.backslash then
        match room, rest with
        | _, [] => .cut
        | 0, d :: rest => .refused .symbolTooLong (some d) rest
        | room + 1, d :: rest => (quoted room rest).map (d :: ·)
      else
        match room with
        | 0 => .refused .symbolTooLong (some c) rest
        | room + 1 => (quoted room rest).map (c :: ·)

/-- A run of digits. Signs are still accepted while the magnitude is zero, and the last one counts. -/
def integer (negative : Bool) (magnitude : Nat) : List UInt8 → Result Int
  | [] => .cut
  | c :: rest =>
      if isSign c ∧ magnitude = 0 then integer (c = Ascii.minus) 0 rest
      else if Ascii.isDigit c then
        let longer := magnitude * 10 + Ascii.digitValue c
        if longer ≤ Header.maxMagnitude then integer negative longer rest
        else .refused .integerOverflow (some c) rest
      else .whole (if negative then -magnitude else magnitude) (c :: rest)

/-- The symbol that begins with its text. -/
def symbol (sigil : Sigil) (input : List UInt8) : Result Tree :=
  (plain Header.maxSymbol input).map (.symbol sigil false)

/-- The symbol that begins after its double quote. -/
def quotedSymbol (sigil : Sigil) (input : List UInt8) : Result Tree :=
  (quoted Header.maxSymbol input).map (.symbol sigil true)

/-- The integer that begins with its sign or its first digit. -/
def number (input : List UInt8) : Result Tree := (integer false 0 input).map .integer

/-! ### Values -/

/-- A value under `sigil` is allowed `level` quasiquotes deep, if the byte `c` is what shows it. -/
def underSigil {α : Type} (level : Int) (sigil : Sigil) (c : UInt8) (left : List UInt8)
    (result : Result α) : Result α :=
  if sigil.isUnquote ∧ level ≤ 0 then .refused .commaOutsideQuasiquote (some c) left else result

/-- A value, given how a list is read after its opening parenthesis. The input begins with neither a
blank nor a comment nor a closing parenthesis. -/
def value (list : Sigil → List UInt8 → Result Tree) (level : Int) (input : List UInt8) :
    Result Tree :=
  let (sigil, body) := splitSigil input
  match body with
  | [] => .cut
  | c :: rest =>
      if isSign c then
        match rest with
        | [] => .cut
        | d :: after =>
            if d = Ascii.openParen then
              if sigil = .bare then list (ofSign c) after
              else .refused .unhandledSigil (some d) after
            else if Ascii.isDigit d then
              if sigil = .bare then number body
              else .refused .sigilOnInteger (some d) after
            else underSigil level sigil d after (symbol sigil body)
      else if c = Ascii.openParen then underSigil level sigil c rest (list sigil rest)
      else if c = Ascii.doubleQuote then underSigil level sigil c rest (quotedSymbol sigil rest)
      else if Ascii.isDigit c then
        if sigil = .bare then number body
        else .refused .sigilOnInteger (some c) rest
      else if endsSymbol c then .refused .danglingSigil (some c) rest
      else if (Sigil.ofByte? c).isSome then .refused .unhandledSigil (some c) rest
      else underSigil level sigil c rest (symbol sigil body)

/-- Values up to a closing parenthesis, after the `children` that have been read. A child too many is
refused where it ends, with no byte that would show it: the byte by which a plain symbol or an integer
ends comes only after that place. -/
def items (value : List UInt8 → Result Tree) (children : List Tree) (input : List UInt8) :
    Result (List Tree) :=
  match skip false input with
  | [] => .cut
  | c :: rest =>
      if c = Ascii.closeParen then .whole children rest
      else
        match value (c :: rest) with
        | .whole child after =>
            if children.length = Header.maxCount then .refused .listTooLong none after
            -- A value takes a byte at least, so this is always so.
            else if after.length < input.length then items value (children ++ [child]) after
            else .cut
        | .cut => .cut
        | .refused cause found left => .refused cause found left
termination_by input.length

/-- A list after its opening parenthesis, where `depth` more lists may be opened. -/
def list : (depth : Nat) → (level : Int) → Sigil → List UInt8 → Result Tree
  | 0, _, _, input => .refused .tooDeep (some Ascii.openParen) input
  | depth + 1, level, sigil, input =>
      let inner := level + Reader.levelStep sigil
      (items (value (list depth inner) inner) [] input).map (.list sigil)

/-- The first value of an input that begins outside of any list. -/
def read (maxDepth : Nat) (inComment : Bool) (input : List UInt8) : Result Tree :=
  match skip inComment input with
  | [] => .cut
  | c :: rest =>
      if c = Ascii.closeParen then .refused .spuriousClose (some c) rest
      else value (list maxDepth 0) 0 (c :: rest)

/-- All values of an input that begins at `position`, and what is wrong after them, if something
is. -/
def readAll (maxDepth position : Nat) (inComment : Bool) (input : List UInt8) :
    List Tree × Option Rejection :=
  match read maxDepth inComment input with
  | .whole tree rest =>
      if rest.length < input.length then
        let (trees, why) :=
          readAll maxDepth (position + (input.length - rest.length)) false rest
        (tree :: trees, why)
      else ([], none)
  | .cut => ([], none)
  | .refused cause found left =>
      ([], some ⟨cause, position + (input.length - left.length) - 1, found⟩)
termination_by input.length

/-- One step of the production for plain symbols. -/
theorem plain_cons (room : Nat) (c : UInt8) (rest : List UInt8) :
    plain room (c :: rest) =
      if endsSymbol c then .whole [] (c :: rest)
      else
        match room with
        | 0 => .refused .symbolTooLong (some c) rest
        | room + 1 => (plain room rest).map (c :: ·) := by
  unfold plain
  cases hends : endsSymbol c with
  | true => simp [hends]
  | false =>
      cases room with
      | zero => simp [hends]
      | succ room =>
          simp only [List.takeWhile_cons, List.dropWhile_cons, hends, Bool.not_false, if_true,
            List.length_cons, Nat.succ_lt_succ_iff, List.getElem?_cons_succ, List.drop_succ_cons,
            Bool.false_eq_true, if_false]
          split
          · rfl
          · split <;> rfl

@[simp] theorem plain_nil (room : Nat) : plain room [] = .cut := by
  simp [plain]

end Grammar

end FlatLisp
