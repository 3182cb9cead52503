/-
Module: FlatLisp.Settings
Purpose: Sizes and ways of writing that a session is started with.
Main exports: Settings, SettingsError, Settings.ofText, Settings.validate, Settings.newArena,
  Settings.newStore
-/
import FlatLisp.Arena.Basic
import FlatLisp.Cell.Counter
import FlatLisp.Json.Parse
import FlatLisp.Printing.Options
import FlatLisp.Reading.Basic
import FlatLisp.Store.Block

namespace FlatLisp

/-- The settings of a session. -/
structure Settings where
  arenaSize : Nat := 4096
  /-- The size of the store; zero for no store. -/
  storeSize : Nat := 2048
  maxDepth : Nat := Reader.defaultDepth
  print : PrintOptions := {}
deriving DecidableEq, Repr, Inhabited

/-- Why settings are refused. -/
inductive SettingsError where
  | malformed
  | arenaSize (size : Nat)
  | maxDepth (depth : Nat)
deriving DecidableEq, Repr, Inhabited

def SettingsError.message : SettingsError → String
  | .malformed => "malformed config"
  | .arenaSize size => s!"arena_size {size} outside {Arena.minCapacity}..={Arena.maxCapacity}"
  | .maxDepth depth => s!"max_depth {depth} outside 1..={Cell.maxNesting}"

namespace Settings

/-- The limits of numbers of one, two and four bytes. -/
def maxByte : Nat := 255

def maxWord : Nat := 65535

def maxQuad : Nat := 4294967295

/-- A field that may be left out. -/
def field {α : Type} (otherwise : α) (read : Json → Option α) : Option Json → Option α
  | none => some otherwise
  | some j => read j

/-- Read how values are written. -/
def printOfJson? (j : Json) : Option PrintOptions := do
  let std : PrintOptions := {}
  match ← j.fields? ["indent", "wrap_after", "explicit_sign"] with
  | [indent, wrapAfter, explicitSign] =>
      return {
        indent := ← field std.indent (Json.natural? maxByte) indent
        wrapAfter := ← field std.wrapAfter (Json.natural? maxWord) wrapAfter
        explicitSign := ← field std.explicitSign Json.boolean? explicitSign }
  | _ => none

/-- Read settings. What is left out is as in the default. -/
def ofJson? (j : Json) : Option Settings := do
  let std : Settings := {}
  match ← j.fields? ["arena_size", "store_size", "max_depth", "print"] with
  | [arenaSize, storeSize, maxDepth, print] =>
      return {
        arenaSize := ← field std.arenaSize (Json.natural? maxQuad) arenaSize
        storeSize := ← field std.storeSize (Json.natural? maxQuad) storeSize
        maxDepth := ← field std.maxDepth (Json.natural? maxByte) maxDepth
        print := ← field std.print printOfJson? print }
  | _ => none

/-- Check that an arena can have the size, and that the nesting can be traversed. -/
def validate (s : Settings) : Except SettingsError Unit :=
  if ¬ (Arena.minCapacity ≤ s.arenaSize ∧ s.arenaSize ≤ Arena.maxCapacity) then
    .error (.arenaSize s.arenaSize)
  else if ¬ (1 ≤ s.maxDepth ∧ s.maxDepth ≤ Cell.maxNesting) then
    .error (.maxDepth s.maxDepth)
  else .ok ()

/-- Read settings from JSON text and check them. -/
def ofText (text : String) : Except SettingsError Settings :=
  match (Json.parse? text).bind ofJson? with
  | none => .error .malformed
  | some s => do
      s.validate
      return s

/-- A fresh arena of the size set. -/
def newArena (s : Settings) : Except SettingsError Arena :=
  (Arena.create s.arenaSize).mapError fun _ => .arenaSize s.arenaSize

/-- A fresh store of the size set, if one is wanted. -/
def newStore (s : Settings) : Except StoreError (Option Store) :=
  if s.storeSize = 0 then .ok none else (Store.create s.storeSize).map some

end Settings

end FlatLisp
