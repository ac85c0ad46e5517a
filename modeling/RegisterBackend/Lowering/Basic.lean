import RegisterBackend.CompileError
import RegisterBackend.Lowering.Emitter
import RegisterBackend.Program.Basic

/-!
# Lowering

`Program.lower` turns a program into bytecode. The operands of an operation are computed left to
right, each into a register, and an assignment binds its variable to the register of the value; a
value that is itself a variable is copied first, so that no two names share a register. Branches
and loops become labels and jumps, with the bindings settled at the end of each block. Definitions
of functions produce nothing. Arrays and calls have no code.
-/

namespace RegisterBackend

/-- Steps of lowering. -/
abbrev LowerM : Type → Type :=
  EStateM (Stop CompileError) Emitter

namespace LowerM

variable {α : Type}

/-- Fails with an error. -/
def reject (e : CompileError) : LowerM α :=
  throw (.error e)

/-- The node under a number. -/
def nodeAt (g : Graph) (id : NodeId) : LowerM Node :=
  match g.node? id with
  | some node => pure node
  | none => throw (.fault (.dangling id))

/-- Appends an instruction. -/
def emit (i : Instruction) : LowerM Unit :=
  modify (·.emit i)

/-- Ends a block that started with the bindings `entry`. -/
def closeBlock (entry : Bindings) (homes : NameMap Register) : LowerM (NameMap Register) :=
  modifyGet (·.closeBlock entry homes)

end LowerM

namespace Graph

open LowerM

variable (g : Graph)

/-- Computes an evaluable and returns the register of its value. -/
def lowerExpr : Nat → NodeId → LowerM Register
  | 0, id => throw (.fault (.cyclic id))
  | depth + 1, id => do
    match ← nodeAt g id with
    | .constant (.scalar value) => modifyGet (·.load value)
    | .constant (.array _) => reject (.unsupported id .arrayConstant)
    | .var var =>
      if var.kind = .array then
        reject (.unsupported id (.arrayVariable var.name))
      else
        match (← get).bindings.lookup var.name with
        | some r => return r
        | none => reject (.unresolvedSymbol var.name)
    | .arithmetic op lhs rhs =>
      let left ← lowerExpr depth lhs
      let right ← lowerExpr depth rhs
      modifyGet (·.arith op left right)
    | .call name _ _ => reject (.notImplemented (.call name))
    | node => reject (.malformed id node.shape .evaluable)

/-- Computes a comparison and returns the register of its result. -/
def lowerCondition (depth : Nat) (id : NodeId) : LowerM Register := do
  match ← nodeAt g id with
  | .comparison op lhs rhs =>
    let left ← g.lowerExpr depth lhs
    let right ← g.lowerExpr depth rhs
    modifyGet (·.compare op left right)
  | node => reject (.malformed id node.shape .comparison)

/-- The scalar variable that an assignment names. -/
def lowerTarget (id : NodeId) : LowerM Variable := do
  match ← nodeAt g id with
  | .var var =>
    if var.kind = .array then
      reject (.unsupported id (.arrayVariable var.name))
    else
      return var
  | node => reject (.malformed id node.shape .variableName)

/-- Computes the value of an assignment into a register of its own. -/
def lowerValue (depth : Nat) (id : NodeId) : LowerM Register := do
  match ← nodeAt g id with
  | .var _ =>
    let src ← g.lowerExpr depth id
    modifyGet (·.copy src)
  | _ => g.lowerExpr depth id

/-- Produces the code of a branch whose blocks are produced by the given steps. -/
def lowerIfElse (cond : Register) (thenBlock elseBlock : LowerM Unit) : LowerM Unit := do
  let thenLabel ← modifyGet (·.freshLabel)
  let elseLabel ← modifyGet (·.freshLabel)
  let doneLabel ← modifyGet (·.freshLabel)
  emit (.branch true cond thenLabel)
  emit (.jump elseLabel)
  let entry := (← get).bindings
  emit (.label thenLabel)
  thenBlock
  let introduced ← closeBlock entry ∅
  emit (.jump doneLabel)
  modify (·.forget introduced.keys)
  emit (.label elseLabel)
  elseBlock
  discard (closeBlock entry introduced)
  emit (.jump doneLabel)
  emit (.label doneLabel)
  modify (·.adopt introduced)

/-- Produces the code of a loop whose condition and body are produced by the given steps. -/
def lowerWhile (condition : LowerM Register) (body : LowerM Unit) : LowerM Unit := do
  let startLabel ← modifyGet (·.freshLabel)
  let endLabel ← modifyGet (·.freshLabel)
  emit (.label startLabel)
  let cond ← condition
  emit (.branch false cond endLabel)
  let entry := (← get).bindings
  body
  discard (closeBlock entry ∅)
  emit (.jump startLabel)
  emit (.label endLabel)

/-- Produces the code of a statement. -/
def lowerStatement : Nat → NodeId → LowerM Unit
  | 0, id => throw (.fault (.cyclic id))
  | depth + 1, id => do
    match ← nodeAt g id with
    | .assign target value =>
      let var ← g.lowerTarget target
      let r ← g.lowerValue depth value
      modify (·.bind var.name r)
    | .updateElement .. => reject (.unsupported id .elementUpdate)
    | .ifElse condition thenBlock elseBlock =>
      let cond ← g.lowerCondition depth condition
      lowerIfElse cond (thenBlock.forM (lowerStatement depth)) (elseBlock.forM (lowerStatement depth))
    | .whileLoop condition body =>
      lowerWhile (g.lowerCondition depth condition) (body.forM (lowerStatement depth))
    | .functionDef .. => return
    | .debug text => emit (.print text)
    | node => reject (.malformed id node.shape .statement)

end Graph

/-- Produces the code of a program's body. -/
def Program.lowerBody (p : Program) : LowerM Unit :=
  p.body.forM (p.graph.lowerStatement p.graph.depth)

/-- The bytecode of a program, with consistent labels. -/
def Program.lower (p : Program) : Except (Stop CompileError) Bytecode :=
  match p.lowerBody.run .empty with
  | .error e _ => .error e
  | .ok _ emitter =>
    let code := emitter.finish
    match code.checkLabels with
    | .ok _ => .ok code
    | .error fault => .error (.error (.labels fault))

end RegisterBackend
