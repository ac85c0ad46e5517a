import RegisterBackend.Operator
import RegisterBackend.Value

/-!
# Nodes of a program graph

A program is a graph of numbered nodes. A node refers to other nodes by number, so one expression
or statement can stand in several places. Nodes fall into three roles: evaluables (constants,
variables, arithmetic, calls), comparisons, and statements; nothing here enforces the roles, the
program check does.

Node numbers are natural numbers without a bound. Where they have 32 bits, this is exact for graphs
of at most `2 ^ 32` nodes.
-/

namespace RegisterBackend

/-- The number of a node in its graph, without a bound. -/
structure NodeId where
  index : Nat
deriving DecidableEq, Repr

/-- The text of a node number in messages. -/
def NodeId.render (id : NodeId) : String :=
  "#" ++ id.index.repr

/-- A named variable as it occurs in a program. -/
structure Variable where
  name : String
  kind : Kind
  /-- The declared number of elements, where the variable is an array of known length. -/
  length : Option Nat
deriving DecidableEq, Repr

namespace Variable

/-- A scalar variable. -/
def scalar (name : String) : Variable :=
  ⟨name, .scalar, none⟩

/-- An array variable of known length. -/
def array (name : String) (length : Nat) : Variable :=
  ⟨name, .array, some length⟩

end Variable

/-- One node of a program graph. -/
inductive Node where
  /-- A literal. -/
  | constant (value : Literal)
  /-- A variable, read or assigned. -/
  | var (var : Variable)
  /-- An operation on two evaluables. -/
  | arithmetic (op : ArithOp) (lhs rhs : NodeId)
  /-- A call of a function by name. -/
  | call (name : String) (args : List NodeId) (returns : Kind)
  /-- The assignment of an evaluable to a variable. -/
  | assign (target value : NodeId)
  /-- The assignment of one element of an array. -/
  | updateElement (target : NodeId) (index : Nat) (value : NodeId)
  /-- A comparison of two evaluables. -/
  | comparison (op : CompareOp) (lhs rhs : NodeId)
  /-- A two-way branch. -/
  | ifElse (condition : NodeId) (thenBlock elseBlock : List NodeId)
  /-- A loop that tests before each round. -/
  | whileLoop (condition : NodeId) (body : List NodeId)
  /-- The definition of a function. -/
  | functionDef (name : String) (params body : List NodeId) (returns : Kind)
  /-- A line of debug output. -/
  | debug (text : String)
deriving DecidableEq, Repr

/-- The form of a node without its contents. -/
inductive Shape where
  | constant
  | var
  | arithmetic
  | call
  | assign
  | updateElement
  | comparison
  | ifElse
  | whileLoop
  | functionDef
  | debug
deriving DecidableEq, Repr

namespace Shape

/-- The form's name in messages. -/
def name : Shape → String
  | .constant => "Constant"
  | .var => "Variable"
  | .arithmetic => "ArithmeticExpr"
  | .call => "FuncCall"
  | .assign => "AssignVarStmt"
  | .updateElement => "UpdateArrayIndexStmt"
  | .comparison => "Comparison"
  | .ifElse => "IfElseBlock"
  | .whileLoop => "WhileBlock"
  | .functionDef => "FunctionDef"
  | .debug => "InterpreterDebugNode"

/-- Whether nodes of this form may stand in a block. -/
def isStatement : Shape → Bool
  | .assign | .updateElement | .ifElse | .whileLoop | .functionDef | .debug => true
  | .constant | .var | .arithmetic | .call | .comparison => false

end Shape

namespace Node

/-- The form of a node. -/
def shape : Node → Shape
  | .constant _ => .constant
  | .var _ => .var
  | .arithmetic .. => .arithmetic
  | .call .. => .call
  | .assign .. => .assign
  | .updateElement .. => .updateElement
  | .comparison .. => .comparison
  | .ifElse .. => .ifElse
  | .whileLoop .. => .whileLoop
  | .functionDef .. => .functionDef
  | .debug _ => .debug

/-- Whether the node may stand in a block. -/
def isStatement (node : Node) : Bool :=
  node.shape.isStatement

/-- The nodes that a node refers to, in the order of its slots and with repetitions. -/
def children : Node → List NodeId
  | .constant _ | .var _ | .debug _ => []
  | .arithmetic _ lhs rhs | .comparison _ lhs rhs => [lhs, rhs]
  | .call _ args _ => args
  | .assign target value | .updateElement target _ value => [target, value]
  | .ifElse condition thenBlock elseBlock => condition :: (thenBlock ++ elseBlock)
  | .whileLoop condition body => condition :: body
  | .functionDef _ params body _ => params ++ body

end Node

end RegisterBackend
