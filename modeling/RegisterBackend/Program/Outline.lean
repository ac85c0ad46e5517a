import RegisterBackend.Program.Basic

/-!
# Outlines

`Program.outline` writes a program as an indented text, one node or bracket a line. A node that is
used in several places is written out at each of them. A variable shows its kind and an operation
the kind of its left operand, if that has one.
-/

namespace RegisterBackend

/-- One line of an outline. -/
structure OutlineLine where
  indent : Nat
  text : String
deriving DecidableEq, Repr

/-- The text of a line: a tab per level of indentation, and a line end. -/
def OutlineLine.render (line : OutlineLine) : String :=
  "".pushn '\t' line.indent ++ line.text ++ "\n"

namespace Graph

variable (g : Graph)

/-- The parameter names of a function, in order; a parameter that is no variable shows nothing. -/
def parameterNames (params : List NodeId) : Except Fault (List String) :=
  params.mapM fun param => do
    match ← g.node param with
    | .var var => return var.name
    | _ => return ""

/-- The head line of an operation, with the kind of its left operand. -/
def operationHead (lhs : NodeId) : Except Fault String := do
  match ← g.kind? lhs with
  | some kind => return "ArithmeticExpr<" ++ kind.name ++ ">("
  | none => return "ArithmeticExpr("

/-- The lines of a node at a level of indentation. -/
def outlineNode : Nat → Nat → NodeId → Except Fault (List OutlineLine)
  | 0, _, id => .error (.cyclic id)
  | depth + 1, indent, id => do
    let line (text : String) : OutlineLine := ⟨indent, text⟩
    let nodes (level : Nat) (ids : List NodeId) : Except Fault (List OutlineLine) :=
      return (← ids.mapM (outlineNode depth level)).flatten
    let block (title : String) (ids : List NodeId) : Except Fault (List OutlineLine) :=
      return ⟨indent + 1, title⟩ :: (← nodes (indent + 2) ids)
    match ← g.node id with
    | .constant value => return [line ("Constant<" ++ value.kind.name ++ ">(" ++ value.render ++ ")")]
    | .var var => return [line ("Variable<" ++ var.kind.name ++ ">(" ++ var.name ++ ")")]
    | .arithmetic op lhs rhs =>
      let head ← g.operationHead lhs
      return line head :: (← nodes (indent + 1) [lhs]) ++ line op.symbol ::
        (← nodes (indent + 1) [rhs]) ++ [line ")"]
    | .call name args _ =>
      return line ("FuncCall: " ++ name ++ "(") :: (← nodes (indent + 1) args) ++ [line ")"]
    | .assign target value =>
      return line "AssignVarStmt(" :: (← nodes (indent + 1) [target]) ++ line "=" ::
        (← nodes (indent + 1) [value]) ++ [line ")"]
    | .updateElement target index value =>
      return line "UpdateArrayIndexStmt(" :: (← nodes (indent + 1) [target]) ++
        line ("index: " ++ index.repr) :: (← nodes (indent + 1) [value]) ++ [line ")"]
    | .comparison op lhs rhs =>
      let head := match op with
        | .equals => "CompareEquals("
        | .greater => "CompareGreater("
      return line head :: (← nodes (indent + 1) [lhs, rhs]) ++ [line ")"]
    | .ifElse condition thenBlock elseBlock =>
      return line "IfElseBlock(" :: (← block "BooleanCondition:" [condition]) ++
        (← block "true block:" thenBlock) ++ (← block "false block:" elseBlock) ++ [line ")"]
    | .whileLoop condition body =>
      return line "WhileBlock(" :: (← block "BooleanCondition:" [condition]) ++
        (← block "code block:" body) ++ [line ")"]
    | .functionDef name params body returns =>
      let names ← g.parameterNames params
      let head := "FunctionDef: " ++ name ++ "(" ++ ", ".intercalate names ++ ") -> " ++ returns.name
      return line head :: (← block "code block:" body) ++ [line ")"]
    | .debug text =>
      return [line "InterpreterDebugNode(", ⟨indent + 1, "Output:"⟩,
        ⟨indent + 2, "\"" ++ text ++ "\""⟩, line ")"]

end Graph

/-- The lines of a program. -/
def Program.outlineLines (p : Program) : Except Fault (List OutlineLine) :=
  return (← p.body.mapM (p.graph.outlineNode p.graph.depth 0)).flatten

/-- A program as an indented text. -/
def Program.outline (p : Program) : Except Fault String :=
  return String.join ((← p.outlineLines).map (·.render))

end RegisterBackend
