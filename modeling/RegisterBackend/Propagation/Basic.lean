import RegisterBackend.CompileError
import RegisterBackend.Program.Basic
import RegisterBackend.Propagation.Assigned
import RegisterBackend.Propagation.Knowledge

/-!
# Constant propagation

`Program.propagate` follows a program in order and keeps track of the variables whose value is
known. A read of such a variable becomes a constant, and an operation on two constants becomes its
result. The graph is changed in place: the slot that held the old node refers to a new constant
from then on, and the old node stays in the graph. So where a node is used in several places, a
change made for one of them shows in the others.

* Each branch of an `ifElse` is followed in a frame of its own. The first one starts from what is
  known before the `ifElse`, and the second one from the same, but for the names that the first one
  has made unknown: a name is forgotten in all frames. Behind the `ifElse`, nothing is known of the
  names that either branch may assign.
* The condition and the body of a loop run more than once, so the names that the body may assign
  are forgotten before them, and again behind the loop.
* The body of a function starts from nothing. The names it may assign are noted, and a call of the
  function forgets them.

If the pass stops, the changes made so far stay, open frames are closed, and what was known outside
of a function is known again.
-/

namespace RegisterBackend

/-- How much constant propagation changed. -/
structure PropagationStats where
  /-- The number of operations computed. -/
  folded : Nat
  /-- The number of variables replaced. -/
  substituted : Nat
deriving DecidableEq, Repr

/-- Whether anything was changed. -/
def PropagationStats.changed (s : PropagationStats) : Bool :=
  s.folded > 0 || s.substituted > 0

/-- Constant propagation in progress. -/
structure Propagation where
  graph : Graph
  knowledge : Knowledge
  /-- The names that each function may assign, united over its definitions. -/
  functions : NameMap NameSet
  stats : PropagationStats

namespace Propagation

/-- The name of the pass. -/
def name : String :=
  "constant-propagation"

/-- The state at the beginning of a program. -/
def start (graph : Graph) : Propagation :=
  ⟨graph, .empty, ∅, ⟨0, 0⟩⟩

end Propagation

/-- Steps of constant propagation; a failed one keeps the state as far as it got. -/
abbrev PropagateM : Type → Type :=
  EStateM (Stop CompileError) Propagation

namespace PropagateM

variable {α : Type}

/-- Fails with an error. -/
def reject (e : CompileError) : PropagateM α :=
  throw (.error e)

/-- The node under a number, as it is now. -/
def nodeAt (id : NodeId) : PropagateM Node := do
  match (← get).graph.node? id with
  | some node => return node
  | none => throw (.fault (.dangling id))

/-- Adds a constant to the graph. -/
def addConstant (value : Literal) : PropagateM NodeId := do
  match (← get).graph.add (.constant value) with
  | .ok (id, graph) =>
    modify fun s => { s with graph := graph }
    return id
  | .error e => throw (.fault e)

/-- Exchanges a node, if the new one differs from it. -/
def update (id : NodeId) (old new : Node) : PropagateM Unit := do
  if new = old then
    return
  else
    match (← get).graph.replace id new with
    | .ok graph => modify fun s => { s with graph := graph }
    | .error e => throw (.fault e)

/-- Changes what is known. -/
def modifyKnowledge (f : Knowledge → Knowledge) : PropagateM Unit :=
  modify fun s => { s with knowledge := f s.knowledge }

/-- The names that a block may assign. -/
def assignedIn (depth : Nat) (block : List NodeId) : PropagateM NameSet := do
  let s ← get
  match s.graph.assignedIn s.functions depth block with
  | .ok names => return names
  | .error e => throw (.fault e)

/-- Forgets all that is known of several names. -/
def forget (names : NameSet) : PropagateM Unit :=
  modifyKnowledge (·.invalidateAll names.toList)

/-- Runs steps in a frame of their own, which is closed when they end and when they fail. -/
def inFrame (m : PropagateM α) : PropagateM α := do
  modifyKnowledge (·.openFrame)
  try
    m
  finally
    modifyKnowledge (·.closeFrame)

/-- Runs steps with nothing known; what was known before is known again when they end and when
they fail. -/
def fromNothing (m : PropagateM α) : PropagateM α := do
  let outer := (← get).knowledge
  modifyKnowledge fun _ => .empty
  try
    m
  finally
    modifyKnowledge fun _ => outer

/-! ## Expressions -/

/-- The constant with the result of an operation on two constants, or the operation itself if an
operand is no constant. -/
def collapse (id : NodeId) (op : ArithOp) (lhs rhs : NodeId) : PropagateM NodeId := do
  match ← nodeAt lhs, ← nodeAt rhs with
  | .constant (.scalar a), .constant (.scalar b) =>
    modify fun s => { s with stats := { s.stats with folded := s.stats.folded + 1 } }
    addConstant (.scalar (op.apply a b))
  | .constant (.array _), .constant (.array _) => reject (.unsupported id (.arrayArithmetic op))
  | .constant a, .constant b => reject (.kindMismatch id a.kind b.kind)
  | _, _ => return id

/-- Simplifies an evaluable and returns the node to use in its place. -/
def expr : Nat → NodeId → PropagateM NodeId
  | 0, id => throw (.fault (.cyclic id))
  | depth + 1, id => do
    let node ← nodeAt id
    match node with
    | .constant _ => return id
    | .var var =>
      match (← get).knowledge.lookup var.name with
      | some value =>
        modify fun s => { s with stats := { s.stats with substituted := s.stats.substituted + 1 } }
        addConstant value
      | none => return id
    | .arithmetic op lhs rhs =>
      let left ← expr depth lhs
      let right ← expr depth rhs
      update id node (.arithmetic op left right)
      collapse id op left right
    | .call name args returns =>
      let args ← args.mapM (expr depth)
      update id node (.call name args returns)
      match (← get).functions[name]? with
      | some assigned => forget assigned
      | none => pure ()
      return id
    | _ => reject (.malformed id node.shape .evaluable)

/-- Simplifies the operands of a comparison. -/
def condition (depth : Nat) (id : NodeId) : PropagateM Unit := do
  let node ← nodeAt id
  match node with
  | .comparison op lhs rhs =>
    let left ← expr depth lhs
    let right ← expr depth rhs
    update id node (.comparison op left right)
  | _ => reject (.malformed id node.shape .comparison)

/-! ## Statements -/

/-- The name of the variable that is assigned. -/
def targetName (id : NodeId) : PropagateM String := do
  match ← nodeAt id with
  | .var var => return var.name
  | node => reject (.malformed id node.shape .variableName)

/-- Notes that a name holds the value of a node, if that is a constant, and else that its value is
unknown. -/
def learn (name : String) (value : NodeId) : PropagateM Unit := do
  match ← nodeAt value with
  | .constant literal => modifyKnowledge (·.record name literal)
  | _ => modifyKnowledge (·.invalidate name)

/-- Notes the names that a function may assign, besides those noted before. -/
def noteFunction (name : String) (assigned : NameSet) : PropagateM Unit :=
  modify fun s =>
    let noted := (s.functions.getD name ∅).insertMany assigned.toList
    { s with functions := s.functions.insert name noted }

/-- Simplifies a statement and follows its effect on what is known. -/
def statement : Nat → NodeId → PropagateM Unit
  | 0, id => throw (.fault (.cyclic id))
  | depth + 1, id => do
    let block (ids : List NodeId) : PropagateM Unit := ids.forM (statement depth)
    let node ← nodeAt id
    match node with
    | .assign target value =>
      let name ← targetName target
      let value ← expr depth value
      update id node (.assign target value)
      learn name value
    | .updateElement target index value =>
      let name ← targetName target
      let value ← expr depth value
      update id node (.updateElement target index value)
      modifyKnowledge (·.invalidate name)
    | .ifElse cond thenBlock elseBlock =>
      condition depth cond
      inFrame (block thenBlock)
      inFrame (block elseBlock)
      forget (← assignedIn depth (thenBlock ++ elseBlock))
    | .whileLoop cond body =>
      let assigned ← assignedIn depth body
      forget assigned
      condition depth cond
      inFrame (block body)
      forget assigned
    | .functionDef name _ body _ =>
      noteFunction name (← assignedIn depth body)
      fromNothing (block body)
    | .debug _ => return
    | _ => reject (.malformed id node.shape .statement)

end PropagateM

/-- Propagates constants through a program. The final state holds the changed graph, also after a
failure. -/
def Program.propagate (p : Program) : EStateM.Result (Stop CompileError) Propagation Unit :=
  (p.body.forM (PropagateM.statement p.graph.depth)).run (.start p.graph)

end RegisterBackend
