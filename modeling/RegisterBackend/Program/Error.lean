import RegisterBackend.Graph.Node

/-!
# What can be wrong with a program

`ProgramError` lists the reasons for which a program cannot be built or does not pass the check.
The wording of each is in `ProgramError.message`.
-/

namespace RegisterBackend

/-- How a node is out of place. -/
inductive Defect where
  /-- A node that is no statement stands in a block. -/
  | notStatement (found : Shape)
  /-- A condition is not a comparison. -/
  | notComparison (found : Shape)
  /-- The target of an assignment or a parameter is not a variable. -/
  | notVariable (found : Shape)
  /-- An operand has no value. -/
  | notEvaluable (found : Shape)
  /-- An element past the declared end of an array is assigned. -/
  | indexOutOfBounds (index : Nat) (array : String) (length : Nat)
  /-- A defect put in words by whoever reports it. -/
  | other (text : String)
deriving DecidableEq, Repr

/-- The wording of a defect. -/
def Defect.message : Defect → String
  | .notStatement found => found.name ++ " found in statement position"
  | .notComparison found => "expected a Comparison, found " ++ found.name
  | .notVariable found => "expected a Variable, found " ++ found.name
  | .notEvaluable found => "expected an evaluatable, found " ++ found.name
  | .indexOutOfBounds index array length =>
    s!"index {index} out of bounds for '{array}' of length {length}"
  | .other text => text

/-- Where two kinds have to agree. -/
inductive KindContext where
  /-- The operands of an operation. -/
  | operation (op : ArithOp)
  /-- The operands of a comparison. -/
  | comparison
  /-- A parameter and its argument. -/
  | argument (function : String)
  /-- A variable and the value assigned to it. -/
  | assignment (variableName : String)
  /-- A variable of which one element is assigned. -/
  | elementUpdate (variableName : String)
  /-- The value assigned to an element. -/
  | element (variableName : String)
  /-- A place put in words by whoever reports it. -/
  | other (text : String)
deriving DecidableEq, Repr

/-- The wording of a place where kinds have to agree. -/
def KindContext.message : KindContext → String
  | .operation op => "operator '" ++ op.symbol ++ "'"
  | .comparison => "comparison"
  | .argument name => "argument of '" ++ name ++ "'"
  | .assignment name => "assignment to '" ++ name ++ "'"
  | .elementUpdate name => "indexed update of '" ++ name ++ "'"
  | .element name => "element of '" ++ name ++ "'"
  | .other text => text

/-- A reason for which a program is refused. -/
inductive ProgramError where
  | malformed (node : NodeId) (defect : Defect)
  | kindMismatch (context : KindContext) (expected found : Kind)
  | unknownVariable (name : String)
  | unknownFunction (name : String)
  | elementOutOfRange (value : Int64)
  | lengthMismatch (array : String) (expected found : Nat)
  | arityMismatch (function : String) (expected found : Nat)
  | unsupportedOperator (symbol : String)
deriving DecidableEq, Repr

/-- The wording of an error. -/
def ProgramError.message : ProgramError → String
  | .malformed node defect => "malformed program at " ++ node.render ++ ": " ++ defect.message
  | .kindMismatch context expected found =>
    "kind mismatch in " ++ context.message ++ ": expected " ++ expected.name ++ ", found "
      ++ found.name
  | .unknownVariable name => "unknown variable '" ++ name ++ "'"
  | .unknownFunction name => "unknown function '" ++ name ++ "'"
  | .elementOutOfRange value => "array element " ++ value.toInt.repr ++ " out of range (-127, 128)"
  | .lengthMismatch array expected found =>
    s!"array '{array}' declared with length {expected} but given {found} elements"
  | .arityMismatch function expected found =>
    s!"function '{function}' takes {expected} arguments but {found} were given"
  | .unsupportedOperator symbol => "unsupported operator '" ++ symbol ++ "'"

end RegisterBackend
