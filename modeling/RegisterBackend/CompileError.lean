import RegisterBackend.Bytecode.Listing
import RegisterBackend.Program.Error

/-!
# Why a program cannot be compiled

`CompileError` lists the reasons for which constant propagation, lowering or the reading of a
listing stop. The wording of each is in `CompileError.message`.
-/

namespace RegisterBackend

/-- What a node is needed as. -/
inductive Role where
  | statement
  | comparison
  | evaluable
  | variableName
deriving DecidableEq, Repr

/-- The wording of a role. -/
def Role.message : Role → String
  | .statement => "a statement"
  | .comparison => "a comparison"
  | .evaluable => "an evaluatable"
  | .variableName => "a variable"

/-- What the compiler has no code for. -/
inductive Unsupported where
  /-- A constant that is an array. -/
  | arrayConstant
  /-- A variable that is an array. -/
  | arrayVariable (name : String)
  /-- An assignment to an element of an array. -/
  | elementUpdate
  /-- An operation on two arrays. -/
  | arrayArithmetic (op : ArithOp)
  /-- Something put in words by whoever reports it. -/
  | other (text : String)
deriving DecidableEq, Repr

/-- The wording of what is not supported. -/
def Unsupported.message : Unsupported → String
  | .arrayConstant => "array constant has no register form"
  | .arrayVariable name => "array variable '" ++ name ++ "' has no register form"
  | .elementUpdate => "array element update has no register form"
  | .arrayArithmetic op => "array arithmetic '" ++ op.symbol ++ "'"
  | .other text => text

/-- What is planned and does not exist yet. -/
inductive Missing where
  /-- The call of a function. -/
  | call (function : String)
  /-- Something put in words by whoever reports it. -/
  | other (text : String)
deriving DecidableEq, Repr

/-- The wording of what is missing. -/
def Missing.message : Missing → String
  | .call name => "call of '" ++ name ++ "'"
  | .other text => text

/-- A reason for which a program cannot be compiled. -/
inductive CompileError where
  | malformed (node : NodeId) (found : Shape) (expected : Role)
  | kindMismatch (node : NodeId) (lhs rhs : Kind)
  | unresolvedSymbol (name : String)
  | unsupported (node : NodeId) (what : Unsupported)
  | notImplemented (what : Missing)
  | labels (fault : LabelFault)
  | listing (error : ListingError)
  | program (error : ProgramError)
deriving DecidableEq, Repr

/-- The wording of an error. -/
def CompileError.message : CompileError → String
  | .malformed node found expected =>
    "malformed program at " ++ node.render ++ ": found " ++ found.name ++ " where " ++
      expected.message ++ " is required"
  | .kindMismatch node lhs rhs =>
    "kind mismatch at " ++ node.render ++ ": " ++ lhs.name ++ " vs " ++ rhs.name
  | .unresolvedSymbol name => "cannot resolve symbol: " ++ name
  | .unsupported node what => "unsupported operation at " ++ node.render ++ ": " ++ what.message
  | .notImplemented what => "not implemented: " ++ what.message
  | .labels fault => fault.message
  | .listing error => error.message
  | .program error => error.message

end RegisterBackend
