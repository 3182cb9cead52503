/-
Module: FlatLisp.Proofs.Reading.Parse
Purpose: A read in terms of trees. The state is the list of open lists and the leaf in progress, and
  memory appears only as a number of bytes, which may be without bound. The turns are those of a
  read in an arena, and the scans are shared with it.
Main exports: OpenList, Leaf, Limits, Parse, Parse.turn, Parse.turns, Parse.read
-/
import FlatLisp.Proofs.Cell.Tree
import FlatLisp.Reading.Turn

namespace FlatLisp

/-- A list some of whose children have been read. -/
structure OpenList where
  sigil : Sigil
  children : List Tree
deriving Inhabited

/-- A symbol or integer some of whose bytes have been read. -/
inductive Leaf where
  | symbol (sigil : Sigil) (quoted escaped : Bool) (chars : List UInt8)
  | integer (negative digits : Bool) (magnitude : Nat)
deriving DecidableEq, Repr, Inhabited

/-- What a reader may use: open lists, and memory up to the offset `stop`; none for no bound. -/
structure Limits where
  maxDepth : Nat
  stop : Option Nat

/-- A read in progress. -/
structure Parse where
  /-- The open lists, the innermost first. -/
  lists : List OpenList := []
  leaf : Option Leaf := none
  inComment : Bool := false
  /-- How many bytes have been consumed, as far as 32 bits can tell. -/
  count : UInt32 := 0
  /-- Where the bytes of the value in progress begin. -/
  start : Nat
  /-- The bytes ahead, those given back first. -/
  ahead : Source
deriving Inhabited

/-! ### The bytes of what is unfinished -/

namespace OpenList

def header (o : OpenList) : Header := .list o.children.length o.sigil false

def encode (o : OpenList) : List UInt8 := o.header.encode ++ Tree.encodeAll o.children

/-- The list as it is when it is closed. -/
def tree (o : OpenList) : Tree := .list o.sigil o.children

/-- The list with one more child. -/
def adopt (o : OpenList) (t : Tree) : OpenList := { o with children := o.children ++ [t] }

/-- The bytes of open lists, the outermost of which comes last in the argument and first in
memory. -/
def encodeAll : List OpenList → List UInt8
  | [] => []
  | o :: outer => encodeAll outer ++ o.encode

end OpenList

namespace Leaf

/-- The number that a sign and a magnitude stand for. -/
def signed (negative : Bool) (magnitude : Nat) : Int := if negative then -magnitude else magnitude

def header : Leaf → Header
  | .symbol sigil quoted _ chars => .symbol chars.length sigil quoted false 0
  | .integer negative _ magnitude => .integer (signed negative magnitude)

def chars : Leaf → List UInt8
  | .symbol _ _ _ chars => chars
  | .integer .. => []

def encode (l : Leaf) : List UInt8 := l.header.encode ++ l.chars

/-- The value that the leaf is when it ends here. -/
def tree : Leaf → Tree
  | .symbol sigil quoted _ chars => .symbol sigil quoted chars
  | .integer negative _ magnitude => .integer (signed negative magnitude)

end Leaf

namespace Parse

/-- The bytes of a leaf, if there is one. -/
def leafBytes : Option Leaf → List UInt8
  | none => []
  | some l => l.encode

/-- The bytes of the value in progress, as far as it has been read. -/
def encode (p : Parse) : List UInt8 := OpenList.encodeAll p.lists ++ leafBytes p.leaf

/-- The number of frames in use. -/
def frames (p : Parse) : Nat := p.lists.length + p.leaf.toList.length

/-- Quasiquotes less unquotes among open lists. -/
def levelOf : List OpenList → Int
  | [] => 0
  | o :: outer => levelOf outer + Reader.levelStep o.sigil

/-- The offset after the bytes of the value in progress. -/
def used (p : Parse) : Nat := p.start + p.encode.length

end Parse

/-! ### Memory -/

namespace Limits

/-- The memory that one frame takes, with the mark under it. -/
def frameCost : Nat := Arena.markLength + Reading.Frame.length

/-- The bytes between the cell bytes, which end at `used`, and `frames` frames. -/
def free (stop frames used : Nat) : Nat := stop - frameCost * frames - used

def outOfMemory (requested free : Nat) : ReadError := .fault (.arena (.outOfMemory requested free))

/-- Why a value whose header has `length` bytes cannot be begun, if it cannot. The header, the mark
and the frame are taken one after another, and the first that does not fit is reported. -/
def shortage (l : Limits) (frames used length : Nat) : Option ReadError :=
  match l.stop with
  | none => none
  | some stop =>
      let room := free stop frames used
      if room < length then some (outOfMemory length room)
      else if room - length < Arena.markLength then
        some (outOfMemory Arena.markLength (room - length))
      else if room - length - Arena.markLength < Reading.Frame.length then
        some (outOfMemory Reading.Frame.length (room - length - Arena.markLength))
      else none

/-- How many bytes are set aside for the characters of a symbol that start at `text`. -/
def reserved (l : Limits) (frames text : Nat) : Nat :=
  match l.stop with
  | none => Header.maxSymbol
  | some stop => min Header.maxSymbol (free stop frames text)

/-- The free bytes while `reserved` of them are set aside. -/
def freeBeside (l : Limits) (frames text : Nat) : Nat :=
  match l.stop with
  | none => 0
  | some stop => free stop frames (text + l.reserved frames text)

end Limits

/-! ### Turns -/

/-- What a turn leads to. -/
inductive Parse.Outcome where
  | again (p : Parse)
  /-- The bytes `kept` have arrived and are to be read again. -/
  | starved (kept : List UInt8) (p : Parse)
  | done (t : Tree) (p : Parse)
  | failed (why : ReadError)
deriving Inhabited

namespace Parse

open Reading

/-- The same read with another leaf in progress. -/
def withLeaf (p : Parse) (leaf : Option Leaf) : Parse := { p with leaf }

/-- How many bytes have been consumed. Every 2 ^ 32 bytes the count begins anew. -/
def position (p : Parse) : Nat := p.count.toNat

/-- Take `taken` bytes from those ahead and give `back` back. -/
def consume (p : Parse) (taken : Nat) (back : List UInt8) : Parse :=
  { p with
    count := p.count + .ofNat taken - .ofNat back.length
    ahead := back.map some ++ p.ahead.drop taken }

@[simp] theorem consume_zero (p : Parse) : p.consume 0 [] = p := by
  simp [consume]

/-- Take the `taken` bytes that have arrived, and the stall after them, and keep `kept` of them to
be read again. -/
def starve (p : Parse) (taken : Nat) (kept : List UInt8) : Parse :=
  { p with
    count := p.count + .ofNat taken - .ofNat kept.length
    ahead := kept.map some ++ p.ahead.drop (taken + 1) }

/-- Refuse the input at the byte consumed last. -/
def reject (p : Parse) (cause : Rejection.Cause) (found : Option UInt8) : Outcome :=
  .failed (.rejected ⟨cause, p.position - 1, found⟩)

/-- Count a finished value in the list around it. -/
def complete (p : Parse) (t : Tree) : Outcome :=
  match p.lists with
  | [] => .done t { p with start := p.start + t.encode.length }
  | o :: outer =>
      if o.children.length = Header.maxCount then p.reject .listTooLong none
      else .again { p with lists := o.adopt t :: outer }

/-- Begin a value whose header has `length` bytes, if memory allows for it; `next` is the state
with it begun. -/
def begin (l : Limits) (p : Parse) (length : Nat) (next : Parse) : Outcome :=
  match l.shortage p.frames p.used length with
  | some why => .failed why
  | none => .again next

/-- Act on a token. -/
def accept (l : Limits) (p : Parse) : Token → Outcome
  | .comment => .again { p with inComment := true }
  | .close =>
      match p.lists with
      | [] => p.reject .spuriousClose (some Text.Ascii.closeParen)
      | o :: outer => complete { p with lists := outer } o.tree
  | .list sigil =>
      if l.maxDepth ≤ p.lists.length then p.reject .tooDeep (some Text.Ascii.openParen)
      else p.begin l Header.listLength { p with lists := ⟨sigil, []⟩ :: p.lists }
  | .symbol sigil quoted =>
      p.begin l Header.symbolLength (p.withLeaf (some (.symbol sigil quoted false [])))
  | .integer =>
      p.begin l Header.integerLength (p.withLeaf (some (.integer false false 0)))

@[simp] theorem accept_comment (l : Limits) (p : Parse) :
    p.accept l .comment = .again { p with inComment := true } := rfl

theorem accept_close_nil (l : Limits) {p : Parse} (h : p.lists = []) :
    p.accept l .close = p.reject .spuriousClose (some Text.Ascii.closeParen) := by
  rw [accept, h]

theorem accept_close_cons (l : Limits) {p : Parse} {o : OpenList} {outer : List OpenList}
    (h : p.lists = o :: outer) :
    p.accept l .close = complete { p with lists := outer } o.tree := by
  rw [accept, h]

/-- What a scan of a comment leads to. -/
def afterComment (p : Parse) : Nat × Bool → Outcome
  | (taken, true) => .again { p.consume taken [] with inComment := false }
  | (taken, false) => .starved [] (p.starve taken [])

/-- Skip what is there of a comment. -/
def commentTurn (p : Parse) : Outcome := p.afterComment (scanComment 0 p.ahead)

/-- What a scan for a token leads to. -/
def afterLead (l : Limits) (p : Parse) : Nat × Lead → Outcome
  | (taken, .starved run) => .starved run (p.starve taken run)
  | (taken, .rejected cause found) => (p.consume taken []).reject cause (some found)
  | (taken, .accepted token back) => (p.consume taken back).accept l token

/-- Between the children of a list, or between values. -/
def tokenTurn (l : Limits) (p : Parse) : Outcome :=
  p.afterLead l (scanLead (levelOf p.lists) 0 p.ahead)

/-- Where the characters of the symbol in progress start. -/
def text (p : Parse) : Nat :=
  p.start + (OpenList.encodeAll p.lists).length + Header.symbolLength

/-- What a scan of a symbol leads to that begins with `chars`. -/
def afterSymbol (l : Limits) (p : Parse) (sigil : Sigil) (quoted : Bool) (chars : List UInt8)
    (run : SymbolRun) : Outcome :=
  let longer := chars ++ run.chars
  match run.ending with
  | .starved =>
      .starved []
        ((p.starve run.taken []).withLeaf (some (.symbol sigil quoted run.escaped longer)))
  | .tooLong found => (p.consume run.taken []).reject .symbolTooLong (some found)
  | .full => .failed (Limits.outOfMemory 1 (l.freeBeside p.frames p.text))
  | .closed back =>
      ((p.consume run.taken back).withLeaf none).complete (.symbol sigil quoted longer)

/-- Inside a symbol. -/
def symbolTurn (l : Limits) (p : Parse) (sigil : Sigil) (quoted escaped : Bool)
    (chars : List UInt8) : Outcome :=
  let room := l.reserved p.frames p.text - chars.length
  p.afterSymbol l sigil quoted chars (scanSymbol quoted escaped chars.length room p.ahead)

/-- What a scan of an integer leads to. -/
def afterInteger (p : Parse) (run : IntegerRun) : Outcome :=
  match run.ending with
  | .starved =>
      .starved []
        ((p.starve run.taken []).withLeaf
          (some (.integer run.negative run.digits run.magnitude)))
  | .overflow found => (p.consume run.taken []).reject .integerOverflow (some found)
  | .closed next =>
      ((p.consume run.taken [next]).withLeaf none).complete
        (.integer (Leaf.signed run.negative run.magnitude))

/-- Inside an integer. -/
def integerTurn (p : Parse) (negative digits : Bool) (magnitude : Nat) : Outcome :=
  p.afterInteger (scanInteger magnitude negative digits 0 p.ahead)

/-- Carry the innermost unfinished value on as far as one kind of scan goes. -/
def turn (l : Limits) (p : Parse) : Outcome :=
  if p.inComment then p.commentTurn
  else
    match p.leaf with
    | none => p.tokenTurn l
    | some (.symbol sigil quoted escaped chars) => p.symbolTurn l sigil quoted escaped chars
    | some (.integer negative digits magnitude) => p.integerTurn negative digits magnitude

theorem turn_of_comment {l : Limits} {p : Parse} (hcomment : p.inComment = true) :
    p.turn l = p.commentTurn := by
  rw [turn, if_pos hcomment]

theorem turn_of_token {l : Limits} {p : Parse} (hcomment : p.inComment = false)
    (hleaf : p.leaf = none) : p.turn l = p.tokenTurn l := by
  rw [turn, if_neg (by simp [hcomment]), hleaf]

theorem turn_of_symbol {l : Limits} {p : Parse} {sigil : Sigil} {quoted escaped : Bool}
    {chars : List UInt8} (hcomment : p.inComment = false)
    (hleaf : p.leaf = some (.symbol sigil quoted escaped chars)) :
    p.turn l = p.symbolTurn l sigil quoted escaped chars := by
  rw [turn, if_neg (by simp [hcomment]), hleaf]

theorem turn_of_integer {l : Limits} {p : Parse} {negative digits : Bool} {magnitude : Nat}
    (hcomment : p.inComment = false) (hleaf : p.leaf = some (.integer negative digits magnitude)) :
    p.turn l = p.integerTurn negative digits magnitude := by
  rw [turn, if_neg (by simp [hcomment]), hleaf]

/-- Take at most `fuel` turns, until the bytes run out or a value is complete. -/
def turns (l : Limits) : (fuel : Nat) → Parse → Outcome
  | 0, p => .starved [] p
  | fuel + 1, p =>
      match p.turn l with
      | .again p => turns l fuel p
      | outcome => outcome

/-- Continue reading. -/
def read (l : Limits) (p : Parse) : Outcome := turns l (4 * (p.ahead.length + 2)) p

end Parse

end FlatLisp
