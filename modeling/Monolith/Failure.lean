import Monolith.Defect

/-! # Failures

Why a module cannot be flattened, and the message for each reason. Where code is
rewritten in place, a failure leaves it as far as it has been rewritten.
-/

namespace Monolith

inductive Rejection where
  | noRoot (name : String)
  | rootIsDeclaration (name : String)
  | libraryRoutine (name : String)
  /-- A function that would have to be inlined into itself. -/
  | recursiveInline (name : String) (path : List String)
  | arityMismatch (caller callee : String) (expected found : Nat)
  | varArgInline (caller callee : String)
  | unownedGlobal (name : String)
  | sharedGlobal (name : String) (owners : List String)
  | unsupportedConstantUse (global function : String)
  | malformedInput (defects : List Defect)
  /-- The result has defects; `dump` is its text. -/
  | malformedModule (defects : List Defect) (dump : String)
  deriving DecidableEq

inductive Failure where
  | rejected (reason : Rejection)
  | fault (fault : Fault)
  /-- More calls would have to be inlined than were allowed for. -/
  | budgetExhausted
  deriving DecidableEq

/-- How many defects there are, and the first of them. -/
def defectSummary (defects : List Defect) : String :=
  "(" ++ toString defects.length ++ " problems, first: " ++
    ((defects.head?.map Defect.message).getD "") ++ ")"

namespace Rejection

def message : Rejection → String
  | .noRoot name =>
      "no root function: the module has no designated entry and no function named " ++
        quoted name
  | .rootIsDeclaration name =>
      "root function " ++ quoted name ++ " is a declaration and has no body to flatten into"
  | .libraryRoutine name =>
      "cannot force-inline " ++ quoted name ++
        ": it matches the library routine of the same name"
  | .recursiveInline name path =>
      "cannot force-inline " ++ quoted name ++ ": it calls itself through " ++
        " -> ".intercalate path
  | .arityMismatch caller callee expected found =>
      "call to " ++ quoted callee ++ " in " ++ quoted caller ++ " passes " ++
        toString found ++ " arguments, expected " ++ toString expected
  | .varArgInline caller callee =>
      "cannot inline variadic function " ++ quoted callee ++ " into " ++ quoted caller
  | .unownedGlobal name => "global " ++ quoted name ++ " has no owning function"
  | .sharedGlobal name owners =>
      "global " ++ quoted name ++ " is used by more than one function: " ++
        ", ".intercalate owners
  | .unsupportedConstantUse global function =>
      "global " ++ quoted global ++ " is referenced from a constant aggregate operand in " ++
        quoted function ++ "; only constant expressions can be rewritten to local storage"
  | .malformedInput defects => "input module is malformed " ++ defectSummary defects
  | .malformedModule defects _ =>
      "module is malformed after flattening " ++ defectSummary defects ++
        ". Do not use the inline keyword in your input"

end Rejection

/-- Fails for the given reason. -/
def reject {α : Type} (reason : Rejection) : Except Failure α := .error (.rejected reason)

/-- A computation that may fault, as one that may fail. -/
def faulting {α : Type} (result : Except Fault α) : Except Failure α := result.mapError .fault

/-- A failure in the midst of a change, and what it leaves of the thing that was
being changed. What a fault leaves is no answer either. -/
structure Aborted (α : Type) where
  failure : Failure
  left : α

def Aborted.map {α β : Type} (f : α → β) (aborted : Aborted α) : Aborted β where
  failure := aborted.failure
  left := f aborted.left

/-- A computation that has changed nothing when it fails. -/
def leaving {α β : Type} (left : α) (result : Except Failure β) : Except (Aborted α) β :=
  result.mapError fun failure => { failure, left }

end Monolith
