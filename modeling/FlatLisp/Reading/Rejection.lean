/-
Module: FlatLisp.Reading.Rejection
Purpose: Why input is no value, and where.
Main exports: Rejection, Rejection.Cause, Rejection.message, ReadError, ReadError.message
-/
import FlatLisp.Cell.Header
import FlatLisp.Fault

namespace FlatLisp

/-- What is wrong with the input. -/
inductive Rejection.Cause where
  | spuriousClose
  | danglingSigil
  /-- Sigils that cannot stand together. -/
  | unhandledSigil
  | commaOutsideQuasiquote
  | sigilOnInteger
  | symbolTooLong
  | listTooLong
  | integerOverflow
  | tooDeep
deriving DecidableEq, Repr, Inhabited

def Rejection.Cause.message : Rejection.Cause → String
  | .spuriousClose => "unexpected ')'"
  | .danglingSigil => "prefix not followed by a value"
  | .unhandledSigil => "unsupported prefix combination"
  | .commaOutsideQuasiquote => "comma outside quasiquote"
  | .sigilOnInteger => "prefix on an integer"
  | .symbolTooLong => s!"symbol longer than {Header.maxSymbol} characters"
  | .listTooLong => s!"list longer than {Header.maxCount} elements"
  | .integerOverflow => s!"integer magnitude above {Header.maxMagnitude}"
  | .tooDeep => "lists nested too deeply"

/-- Input that is no value. -/
structure Rejection where
  cause : Rejection.Cause
  /-- How many bytes were consumed before the one that shows it. -/
  position : Nat
  /-- The byte that shows it; none where only the number of children does. -/
  found : Option UInt8
deriving DecidableEq, Repr, Inhabited

def Rejection.message (r : Rejection) : String :=
  s!"{r.cause.message} at byte {r.position}"

/-- Why a read fails. -/
inductive ReadError where
  | rejected (why : Rejection)
  | fault (why : Fault)
deriving DecidableEq, Repr, Inhabited

def ReadError.message : ReadError → String
  | .rejected why => "syntax error: " ++ why.message
  | .fault why => why.message

end FlatLisp
