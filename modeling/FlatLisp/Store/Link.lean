/-
Module: FlatLisp.Store.Link
Purpose: Values in the store: saving the tree of a cell, and linking a cell to a saved tree.
Main exports: Backed, BackedM, Backed.persist, Cell.attach
-/
import FlatLisp.Cell.Walk
import FlatLisp.Store.Basic

namespace FlatLisp

/-- An arena and the store behind it. -/
structure Backed where
  arena : Arena
  store : Store
deriving Inhabited

/-- A computation on an arena and the store behind it. -/
abbrev BackedM := EStateM Fault Backed

instance : MonadLift CellM BackedM where
  monadLift job := fun ⟨a, s⟩ =>
    match job a with
    | .ok x a => .ok x ⟨a, s⟩
    | .error e a => .error e ⟨a, s⟩

instance : MonadLift StoreM BackedM where
  monadLift request := fun ⟨a, s⟩ =>
    match request s with
    | .ok x s => .ok x ⟨a, s⟩
    | .error e s => .error (.store e) ⟨a, s⟩

/-- Save the bytes of the tree at a place of the arena, and answer the block. -/
def Backed.persist (p : Place) : BackedM Nat := do
  match p.space with
  | .store => throw (.store (.badAddress p.offset))
  | .arena =>
      let ext := (← get).store.external
      let length ← Cell.treeLength ext p
      let bytes ← Cell.consult (Cell.fetch · ext p length)
      Store.save bytes

namespace Cell

/-- The header of a cell that is linked to the characters or children of another; integers have
nothing to link to. -/
def linkTo : Header → Option Header
  | .symbol length sigil quoted _ hash => some (.symbol length sigil quoted true hash)
  | .integer _ => none
  | .list count sigil _ => some (.list count sigil true)

/-- Write a cell into the arena that is linked to the value saved in a block. An integer is copied
whole. -/
def attach (ext : External) (block : Nat) : CellM Place := do
  let root : Place := ⟨.store, block + Block.headerLength⟩
  let header ← consult (load · ext root)
  match linkTo header with
  | none =>
      let span ← Arena.alloc .forward header.footprint
      writeHeader span.offset header
      return ⟨.arena, span.offset⟩
  | some linked =>
      let target ← consult (body · ext root header)
      let span ← Arena.alloc .forward (linked.length + Header.addressLength)
      writeHeader span.offset linked
      Arena.writeWord (span.offset + linked.length) target.offset
      return ⟨.arena, span.offset⟩

end Cell

end FlatLisp
