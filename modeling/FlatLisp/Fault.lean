/-
Module: FlatLisp.Fault
Purpose: Failures that are not the input's: exhausted memory, refused requests, damaged cells.
Main exports: Fault, Fault.message, Fault.isExhaustion
-/
import FlatLisp.Arena.Error
import FlatLisp.Place
import FlatLisp.Store.Error

namespace FlatLisp

/-- A failure that is not the input's fault. -/
inductive Fault where
  | arena (cause : ArenaError)
  | store (cause : StoreError)
  /-- The byte at a place begins no cell. -/
  | corruptCell (place : Place) (byte : UInt8)
  /-- The bytes at an offset of the arena are no frame of a suspended job. -/
  | corruptContext (offset : Nat)
  | depthExceeded (levels : Nat)
  | ungetOverflow
  | printerBusy
deriving DecidableEq, Repr, Inhabited

namespace Fault

/-- The wording of each failure. -/
def message : Fault → String
  | .arena cause => "arena: " ++ cause.message
  | .store cause => "store: " ++ cause.message
  | .corruptCell place byte => s!"corrupt cell header {Text.Hex.byte byte} at {place.show}"
  | .corruptContext offset => s!"corrupt reader context at {Text.Hex.address offset}"
  | .depthExceeded levels => s!"tree deeper than {levels} levels"
  | .ungetOverflow => "unget buffer overflow"
  | .printerBusy => "printer already has a job in progress"

/-- The failure is a lack of memory, in the arena or in the store. -/
def isExhaustion : Fault → Bool
  | .arena (.outOfMemory ..) => true
  | .store (.outOfSpace ..) => true
  | _ => false

end Fault

end FlatLisp
