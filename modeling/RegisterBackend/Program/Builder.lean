import RegisterBackend.Names
import RegisterBackend.Program.Check

/-!
# Building programs

A `Builder` grows a graph node by node and knows which variables and functions have been defined so
far. Each operation of `BuildM` adds the nodes of one expression or statement and returns its
number. An operation that fails leaves the nodes that it had already added.

Variables are scoped by functions. `BuildM.beginFunction` opens a function: its parameters are
defined on top of the variables outside, and `BuildM.endFunction` closes it and restores those. In
between, any operations may run. The function itself can be called from the moment it is opened,
so also in its own body, and it stays known if its body fails. `BuildM.defineFunction` does all of
this around a body.

`Builder.build` makes a program of the graph and checks it as a whole.
-/

namespace RegisterBackend

/-- What is known of a defined variable. -/
structure VariableInfo where
  kind : Kind
  /-- The declared number of elements, where known. -/
  length : Option Nat
deriving DecidableEq, Repr

/-- The kinds of a function's parameters and of its result. -/
structure Signature where
  params : List Kind
  returns : Kind
deriving DecidableEq, Repr

/-- A program under construction. -/
structure Builder where
  graph : Graph
  /-- The variables defined so far. -/
  scope : NameMap VariableInfo
  /-- The functions that can be called. -/
  functions : NameMap Signature

namespace Builder

/-- The builder before the first operation. -/
def empty : Builder :=
  ⟨.empty, ∅, ∅⟩

/-- Whether a variable has been defined. -/
def isDefined (b : Builder) (name : String) : Bool :=
  b.scope.contains name

/-- The program with the given body, if it passes the check. -/
def build (b : Builder) (body : List NodeId) : Except (Stop ProgramError) Program := do
  let program : Program := ⟨b.graph, body⟩
  program.check
  return program

end Builder

/-- What an operation takes as a value. -/
inductive Operand where
  /-- A number. -/
  | number (value : Int64)
  /-- An array given by its elements. -/
  | array (elements : List Int64)
  /-- A variable. -/
  | name (name : String)
  /-- An expression built before. -/
  | node (id : NodeId)
deriving DecidableEq, Repr

/-- Operations on a builder; a failed one keeps the builder as far as it got. -/
abbrev BuildM : Type → Type :=
  EStateM (Stop ProgramError) Builder

/-- A function whose body is being built. -/
structure OpenFunction where
  name : String
  params : List NodeId
  returns : Kind
  /-- The variables defined outside of the function. -/
  outer : NameMap VariableInfo

namespace BuildM

variable {α : Type}

/-- Fails with an error. -/
def reject (e : ProgramError) : BuildM α :=
  throw (.error e)

/-- Runs a read-only computation on the graph. -/
def look (f : Graph → Except (Stop ProgramError) α) : BuildM α := do
  match f (← get).graph with
  | .ok a => return a
  | .error e => throw e

/-- Runs an operation and returns how it ended; what it did to the builder stays. -/
def outcome (m : BuildM α) : BuildM (Except (Stop ProgramError) α) := do
  try
    return .ok (← m)
  catch e =>
    return .error e

/-- Adds a node to the graph. -/
def add (node : Node) : BuildM NodeId := do
  match (← get).graph.add node with
  | .ok (id, graph) =>
    modify fun b => { b with graph := graph }
    return id
  | .error e => throw (.fault e)

/-- Defines a variable. -/
def define (name : String) (info : VariableInfo) : BuildM Unit :=
  modify fun b => { b with scope := b.scope.insert name info }

/-- What is known of a variable, which must be defined. -/
def variableInfo (name : String) : BuildM VariableInfo := do
  match (← get).scope[name]? with
  | some info => return info
  | none => reject (.unknownVariable name)

/-! ## Expressions -/

/-- The node and the kind of an operand. Only an expression built before has a node already. -/
def operand : Operand → BuildM (NodeId × Kind)
  | .number value => return (← add (.constant (.scalar value)), .scalar)
  | .array elements =>
    match Literal.ofElements elements with
    | .ok literal => return (← add (.constant literal), .array)
    | .error value => reject (.elementOutOfRange value)
  | .name name => do
    let info ← variableInfo name
    return (← add (.var ⟨name, info.kind, info.length⟩), info.kind)
  | .node id => do
    match ← look fun g => Stop.ofFault (g.kind? id) with
    | some kind => return (id, kind)
    | none =>
      let node ← look fun g => g.fetch id
      reject (.malformed id (.notEvaluable node.shape))

/-- The operation with a given sign. -/
def arithmetic (symbol : String) (lhs rhs : Operand) : BuildM NodeId := do
  match ArithOp.ofSymbol? symbol with
  | none => reject (.unsupportedOperator symbol)
  | some op =>
    let (left, leftKind) ← operand lhs
    let (right, rightKind) ← operand rhs
    if leftKind = rightKind then
      add (.arithmetic op left right)
    else
      reject (.kindMismatch (.operation op) leftKind rightKind)

/-- An argument for a parameter of a given kind. -/
def argument (function : String) (arg : Operand) (expected : Kind) : BuildM NodeId := do
  let (id, kind) ← operand arg
  if kind = expected then
    return id
  else
    reject (.kindMismatch (.argument function) expected kind)

/-- A call of a function that has been opened or defined. -/
def call (name : String) (args : List Operand) : BuildM NodeId := do
  match (← get).functions[name]? with
  | none => reject (.unknownFunction name)
  | some signature =>
    if signature.params.length = args.length then
      let ids ← (args.zip signature.params).mapM fun (arg, kind) => argument name arg kind
      add (.call name ids signature.returns)
    else
      reject (.arityMismatch name signature.params.length args.length)

/-- A comparison of two values of one kind. -/
def compare (op : CompareOp) (lhs rhs : Operand) : BuildM NodeId := do
  let (left, leftKind) ← operand lhs
  let (right, rightKind) ← operand rhs
  if leftKind = rightKind then
    add (.comparison op left right)
  else
    reject (.kindMismatch .comparison leftKind rightKind)

/-! ## Statements -/

/-- The assignment of a number to a variable, which it defines as a scalar. -/
def setVariable (name : String) (value : Operand) : BuildM NodeId := do
  let (id, kind) ← operand value
  if kind = .scalar then
    let target ← add (.var (.scalar name))
    define name ⟨.scalar, none⟩
    add (.assign target id)
  else
    reject (.kindMismatch (.assignment name) .scalar kind)

/-- The assignment of zero to a variable. -/
def initVariable (name : String) : BuildM NodeId :=
  setVariable name (.number 0)

/-- The assignment of an array, of zeros if no value is given, to a variable, which it defines as
an array of the given length. -/
def setArray (name : String) (length : Nat) (value : Option Operand) : BuildM NodeId := do
  let value := value.getD (.array (List.replicate length 0))
  if let .array elements := value then
    if elements.length ≠ length then
      reject (.lengthMismatch name length elements.length)
  let (id, kind) ← operand value
  if kind = .array then
    let target ← add (.var (.array name length))
    define name ⟨.array, some length⟩
    add (.assign target id)
  else
    reject (.kindMismatch (.assignment name) .array kind)

/-- The assignment of one element of an array. The index is compared with the length of the array
only when the whole program is checked. -/
def updateElement (name : String) (index : Nat) (value : Operand) : BuildM NodeId := do
  let info ← variableInfo name
  if info.kind = .array then
    let (id, kind) ← operand value
    if kind = .scalar then
      let target ← add (.var ⟨name, .array, info.length⟩)
      add (.updateElement target index id)
    else
      reject (.kindMismatch (.element name) .scalar kind)
  else
    reject (.kindMismatch (.elementUpdate name) .array info.kind)

/-- A line of debug output. -/
def debug (text : String) : BuildM NodeId :=
  add (.debug text)

/-! ## Blocks -/

/-- Refuses a condition that is no comparison. -/
def expectCondition (id : NodeId) : BuildM Unit := do
  match ← look fun g => g.fetch id with
  | .comparison .. => return
  | node => reject (.malformed id (.notComparison node.shape))

/-- Refuses a block that holds anything but statements. -/
def expectBlock (block : List NodeId) : BuildM Unit :=
  block.forM fun id => do
    let node ← look fun g => g.fetch id
    if node.isStatement then
      return
    else
      reject (.malformed id (.notStatement node.shape))

/-- A two-way branch. -/
def ifElse (condition : NodeId) (thenBlock elseBlock : List NodeId) : BuildM NodeId := do
  expectCondition condition
  expectBlock thenBlock
  expectBlock elseBlock
  add (.ifElse condition thenBlock elseBlock)

/-- A loop. -/
def whileLoop (condition : NodeId) (body : List NodeId) : BuildM NodeId := do
  expectCondition condition
  expectBlock body
  add (.whileLoop condition body)

/-! ## Functions -/

/-- Adds a parameter and defines it as a variable of unknown length. -/
def parameter (name : String) (kind : Kind) : BuildM NodeId := do
  let id ← add (.var ⟨name, kind, none⟩)
  define name ⟨kind, none⟩
  return id

/-- Opens a function: makes it callable and defines its parameters. -/
def beginFunction (name : String) (params : List (String × Kind)) (returns : Kind) :
    BuildM OpenFunction := do
  let signature : Signature := ⟨params.map (·.2), returns⟩
  modify fun b => { b with functions := b.functions.insert name signature }
  let outer := (← get).scope
  let ids ← params.mapM fun (param, kind) => parameter param kind
  return ⟨name, ids, returns, outer⟩

/-- Closes a function: restores the variables outside of it, and adds its definition if the body
was built and is a block. -/
def endFunction (function : OpenFunction) (body : Except (Stop ProgramError) (List NodeId)) :
    BuildM NodeId := do
  modify fun b => { b with scope := function.outer }
  match body with
  | .error e => throw e
  | .ok block =>
    expectBlock block
    add (.functionDef function.name function.params block function.returns)

/-- The definition of a function with the given body. -/
def defineFunction (name : String) (params : List (String × Kind)) (returns : Kind)
    (body : BuildM (List NodeId)) : BuildM NodeId := do
  let function ← beginFunction name params returns
  endFunction function (← outcome body)

end BuildM

end RegisterBackend
