/-
Module: FlatLisp.Cell.Walk
Purpose: Visiting the cells of a tree in the order in which they are written. A list is visited
  before its children; a linked cell is visited and not entered.
Main exports: Visit, Tour, TourM, Cell.walk, Cell.advance, Cell.treeLength, Cell.countCells
-/
import FlatLisp.Cell.Counter

namespace FlatLisp

/-- A cell as a walk meets it; `depth` is the number of lists open around it. -/
structure Visit where
  place : Place
  header : Header
  depth : Nat
deriving DecidableEq, Repr, Inhabited

/-- The arena that is walked through, and what the visitor keeps. -/
structure Tour (σ : Type) where
  arena : Arena
  seen : σ

/-- A computation on an arena and a visitor's state. -/
abbrev TourM (σ : Type) := EStateM Fault (Tour σ)

instance {σ : Type} : MonadLift CellM (TourM σ) where
  monadLift job := fun ⟨a, seen⟩ =>
    match job a with
    | .ok x a => .ok x ⟨a, seen⟩
    | .error e a => .error e ⟨a, seen⟩

/-- Let the visitor act. -/
def TourM.visit {σ α : Type} (act : EStateM Fault σ α) : TourM σ α := fun ⟨a, seen⟩ =>
  match act seen with
  | .ok x seen => .ok x ⟨a, seen⟩
  | .error e seen => .error e ⟨a, seen⟩

/-- Run a tour from a visitor's first state to its last one. -/
def TourM.run {σ α : Type} (tour : TourM σ α) (seen : σ) : CellM (α × σ) := fun a =>
  match tour ⟨a, seen⟩ with
  | .ok x ⟨a, seen⟩ => .ok (x, seen) a
  | .error e ⟨a, _⟩ => .error e a

namespace Cell

variable {σ : Type}

/-- Walk through the children of an open list, each of them with `child`. -/
def walkChildren (child : Place → TourM σ Place) (c : Counter) : Nat → Place → TourM σ Place
  | 0, p => return p
  | rest + 1, p => do
      let next ← child p
      if rest = 0 then
        c.pop
        return next
      else
        Counter.update { c with left := rest }
        walkChildren child c rest next

/-- Walk through the tree at `p` and answer the place after it. At most `levels` more lists may be
opened. -/
def walkTree (ext : External) (visit : Visit → EStateM Fault σ Unit) :
    (levels depth below : Nat) → Place → TourM σ Place
  | levels, depth, below, p => do
      let header ← consult (load · ext p)
      TourM.visit (visit ⟨p, header, depth⟩)
      let next ← consult fun _ => step p header.footprint
      match header with
      | .list (count + 1) _ false =>
          match levels with
          | 0 => throw (.depthExceeded maxNesting)
          | levels + 1 =>
              let c ← Counter.push below (count + 1) 0 none none
              walkChildren (walkTree ext visit levels (depth + 1) c.offset) c (count + 1) next
      | _ => return next

/-- Visit every cell of the tree at `p`, and answer the place just past the tree. -/
def walk (ext : External) (visit : Visit → EStateM Fault σ Unit) (p : Place) : TourM σ Place :=
  Arena.borrow (walkTree ext visit maxNesting 0 0 p)

/-- The place just past the tree at `p`. -/
def advance (ext : External) (p : Place) : CellM Place := do
  return (← (walk ext (fun _ => pure ()) p).run ()).1

/-- The length of the bytes of the tree at `p`. -/
def treeLength (ext : External) (p : Place) : CellM Nat := do
  return (← advance ext p).offset - p.offset

/-- The number of cells of the tree at `p`, its root included. -/
def countCells (ext : External) (p : Place) : CellM Nat := do
  return (← (walk ext (fun _ => modify (· + 1)) p).run 0).2

end Cell

end FlatLisp
