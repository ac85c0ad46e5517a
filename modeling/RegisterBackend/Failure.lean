import RegisterBackend.CompileError
import RegisterBackend.Machine.Registers

/-!
# Failures of the whole pipeline

A `Failure` is an error of any stage. `Failure.category` sorts the errors of all stages by what went
wrong, whichever stage found it.
-/

namespace RegisterBackend

/-- An error of any stage. -/
inductive Failure where
  | program (error : ProgramError)
  | compile (error : CompileError)
  | machine (error : MachineError)
deriving DecidableEq, Repr

/-- What went wrong. -/
inductive Category where
  | malformedProgram
  | kindMismatch
  | unresolvedSymbol
  | unresolvedLabel
  | unsupportedOperator
  | notImplemented
  | output
deriving DecidableEq, Repr

/-- The category's name. -/
def Category.name : Category → String
  | .malformedProgram => "MalformedProgram"
  | .kindMismatch => "KindMismatch"
  | .unresolvedSymbol => "UnresolvedSymbol"
  | .unresolvedLabel => "UnresolvedLabel"
  | .unsupportedOperator => "UnsupportedOperator"
  | .notImplemented => "NotImplemented"
  | .output => "Output"

/-- What is wrong with a program that is refused. -/
def ProgramError.category : ProgramError → Category
  | .malformed .. | .elementOutOfRange _ | .arityMismatch .. => .malformedProgram
  | .kindMismatch .. | .lengthMismatch .. => .kindMismatch
  | .unknownVariable _ | .unknownFunction _ => .unresolvedSymbol
  | .unsupportedOperator _ => .unsupportedOperator

/-- What is wrong with a program that cannot be compiled. -/
def CompileError.category : CompileError → Category
  | .malformed .. | .listing _ => .malformedProgram
  | .kindMismatch .. => .kindMismatch
  | .unresolvedSymbol _ => .unresolvedSymbol
  | .unsupported .. => .unsupportedOperator
  | .notImplemented _ => .notImplemented
  | .labels _ => .unresolvedLabel
  | .program error => error.category

/-- What went wrong in a run. -/
def MachineError.category : MachineError → Category
  | .unknownRegister _ => .unresolvedSymbol
  | .labels _ => .unresolvedLabel
  | .output _ => .output

namespace Failure

/-- What went wrong. -/
def category : Failure → Category
  | .program error => error.category
  | .compile error => error.category
  | .machine error => error.category

/-- The wording of a failure. -/
def message : Failure → String
  | .program error => error.message
  | .compile error => error.message
  | .machine error => error.message

end Failure

end RegisterBackend
