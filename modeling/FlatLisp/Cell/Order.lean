/-
Module: FlatLisp.Cell.Order
Purpose: The order of values: symbols, then integers, then lists. Symbols go by their characters,
  then sigil and quoting; integers by value; lists by sigil, then child by child, the shorter one
  first. Where a value's bytes are makes no difference.
Main exports: Cell.compare, Cell.equal
-/
import FlatLisp.Cell.Counter

namespace FlatLisp.Cell

/-- What is known after comparing two trees: which comes first, or where to go on after both. -/
inductive Verdict where
  | decided (order : Ordering)
  | tied (left right : Place)
deriving DecidableEq, Repr, Inhabited

/-- The lexicographic order of two byte strings. -/
def compareBytes : List UInt8 → List UInt8 → Ordering
  | [], [] => .eq
  | [], _ :: _ => .lt
  | _ :: _, [] => .gt
  | b :: bs, c :: cs => (compareOfLessAndEq b c).then (compareBytes bs cs)

/-- The order of two symbols. -/
def compareSymbols (a : Arena) (ext : External) (left right : Place) : Except Fault Ordering := do
  let leftHeader ← load a ext left
  let rightHeader ← load a ext right
  match leftHeader, rightHeader with
  | .symbol _ leftSigil leftQuoted .., .symbol _ rightSigil rightQuoted .. =>
      let leftText ← symbolText a ext left
      let rightText ← symbolText a ext right
      return (compareBytes leftText rightText).then
        ((Ord.compare leftSigil rightSigil).then
          (Ord.compare leftQuoted.toNat rightQuoted.toNat))
  | _, _ => .error (.corruptCell left (UInt8.ofNat leftHeader.tag))

/-- Compare the children of two open lists, each pair with `children`. The counts are those of
the children left on either side. -/
def compareChildren (children : Place → Place → CellM Verdict) (c : Counter) :
    (left right : Nat) → Place → Place → CellM Verdict
  | left + 1, right + 1, p, q => do
      match ← children p q with
      | .decided order => return .decided order
      | .tied p q =>
          match left, right with
          | 0, 0 =>
              c.pop
              return .tied (c.resumeLeft.getD p) (c.resumeRight.getD q)
          | 0, _ => return .decided .lt
          | _, 0 => return .decided .gt
          | _, _ =>
              Counter.update { c with left, right }
              compareChildren children c left right p q
  | _, _, p, q => return .tied p q

/-- Compare the trees at two places. At most `levels` more pairs of lists may be opened. -/
def compareTrees (ext : External) : (levels below : Nat) → Place → Place → CellM Verdict
  | levels, below, p, q => do
      let left ← consult (load · ext p)
      let right ← consult (load · ext q)
      if left.tag ≠ right.tag then
        return .decided (Ord.compare left.tag right.tag)
      let nextLeft ← consult fun _ => step p left.footprint
      let nextRight ← consult fun _ => step q right.footprint
      match left, right with
      | .symbol .., .symbol .. =>
          match ← consult (compareSymbols · ext p q) with
          | .eq => return .tied nextLeft nextRight
          | order => return .decided order
      | .integer x, .integer y =>
          if x = y then return .tied nextLeft nextRight
          else return .decided (Ord.compare x y)
      | .list leftCount leftSigil leftLinked, .list rightCount rightSigil rightLinked =>
          if leftSigil ≠ rightSigil then
            return .decided (Ord.compare leftSigil rightSigil)
          else if leftCount = 0 ∨ rightCount = 0 then
            if leftCount = rightCount then return .tied nextLeft nextRight
            else return .decided (Ord.compare leftCount rightCount)
          else
            match levels with
            | 0 => throw (.depthExceeded maxNesting)
            | levels + 1 =>
                let c ← Counter.push below leftCount rightCount
                  (if leftLinked then some nextLeft else none)
                  (if rightLinked then some nextRight else none)
                let leftBody ← consult (body · ext p left)
                let rightBody ← consult (body · ext q right)
                compareChildren (compareTrees ext levels c.offset) c leftCount rightCount
                  leftBody rightBody
      | _, _ => throw (.corruptCell p (UInt8.ofNat left.tag))

/-- The order of the values at two places. -/
def compare (ext : External) (p q : Place) : CellM Ordering :=
  Arena.borrow do
    match ← compareTrees ext maxNesting 0 p q with
    | .decided order => return order
    | .tied .. => return .eq

def equal (ext : External) (p q : Place) : CellM Bool := do
  return (← compare ext p q) == .eq

end FlatLisp.Cell
