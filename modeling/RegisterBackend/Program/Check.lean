import RegisterBackend.Program.Basic
import RegisterBackend.Program.Error

/-!
# The program check

`Program.check` accepts a program if every node is in a role it can play and the kinds agree:
blocks hold statements, conditions are comparisons, targets are variables, operands have values of
equal kinds, array constants hold elements in range and as many as declared, and an element that
is assigned lies within its array. The check follows the program in order and reports the first
thing that is wrong. It does not ask whether a variable is assigned before it is read, nor whether
a function that is called exists.
-/

namespace RegisterBackend

/-- Refuses two kinds that differ. -/
def expectKind (context : KindContext) (expected found : Kind) :
    Except (Stop ProgramError) Unit :=
  if found = expected then .ok () else .error (.error (.kindMismatch context expected found))

namespace Graph

variable (g : Graph)

/-- The kind of an evaluable all of whose operands are in order. -/
def checkExpr : Nat → NodeId → Except (Stop ProgramError) Kind
  | 0, id => .error (.fault (.cyclic id))
  | depth + 1, id => do
    match ← g.fetch id with
    | .constant (.scalar _) => return .scalar
    | .constant (.array elements) =>
      match Literal.badElement? (elements.map Int8.toInt64) with
      | some value => throw (.error (.elementOutOfRange value))
      | none => return .array
    | .var var => return var.kind
    | .arithmetic op lhs rhs =>
      let left ← checkExpr depth lhs
      let right ← checkExpr depth rhs
      if left = right then
        return left
      else
        throw (.error (.kindMismatch (.operation op) left right))
    | .call _ args returns =>
      args.forM fun arg => discard (checkExpr depth arg)
      return returns
    | node => throw (.error (.malformed id (.notEvaluable node.shape)))

/-- The variable that an assignment or a parameter names. -/
def checkTarget (id : NodeId) : Except (Stop ProgramError) Variable := do
  match ← g.fetch id with
  | .var var => return var
  | node => throw (.error (.malformed id (.notVariable node.shape)))

/-- Accepts a comparison of two evaluables of one kind. -/
def checkCondition (depth : Nat) (id : NodeId) : Except (Stop ProgramError) Unit := do
  match ← g.fetch id with
  | .comparison _ lhs rhs =>
    let left ← g.checkExpr depth lhs
    let right ← g.checkExpr depth rhs
    if left = right then
      return
    else
      throw (.error (.kindMismatch .comparison left right))
  | node => throw (.error (.malformed id (.notComparison node.shape)))

/-- Refuses an array constant with more or fewer elements than its target declares. -/
def checkLength (target : Variable) (value : NodeId) : Except (Stop ProgramError) Unit := do
  match target.length, ← g.fetch value with
  | some expected, .constant (.array elements) =>
    if elements.length = expected then
      return
    else
      throw (.error (.lengthMismatch target.name expected elements.length))
  | _, _ => return

/-- Refuses an index past the declared end of an array. -/
def checkIndex (id : NodeId) (target : Variable) (index : Nat) :
    Except (Stop ProgramError) Unit :=
  match target.length with
  | some length =>
    if index < length then
      .ok ()
    else
      .error (.error (.malformed id (.indexOutOfBounds index target.name length)))
  | none => .ok ()

/-- Accepts a statement that is in order. -/
def checkStatement : Nat → NodeId → Except (Stop ProgramError) Unit
  | 0, id => .error (.fault (.cyclic id))
  | depth + 1, id => do
    match ← g.fetch id with
    | .assign target value =>
      let var ← g.checkTarget target
      let found ← g.checkExpr depth value
      expectKind (.assignment var.name) var.kind found
      g.checkLength var value
    | .updateElement target index value =>
      let var ← g.checkTarget target
      expectKind (.elementUpdate var.name) .array var.kind
      checkIndex id var index
      let found ← g.checkExpr depth value
      expectKind (.element var.name) .scalar found
    | .ifElse condition thenBlock elseBlock =>
      g.checkCondition depth condition
      thenBlock.forM (checkStatement depth)
      elseBlock.forM (checkStatement depth)
    | .whileLoop condition body =>
      g.checkCondition depth condition
      body.forM (checkStatement depth)
    | .functionDef _ params body _ =>
      params.forM fun param => discard (g.checkTarget param)
      body.forM (checkStatement depth)
    | .debug _ => return
    | node => throw (.error (.malformed id (.notStatement node.shape)))

end Graph

/-- Accepts a program that is in order, and otherwise says what is wrong first. -/
def Program.check (p : Program) : Except (Stop ProgramError) Unit :=
  p.body.forM (p.graph.checkStatement p.graph.depth)

end RegisterBackend
