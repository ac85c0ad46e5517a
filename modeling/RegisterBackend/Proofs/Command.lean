import RegisterBackend.Program.Basic

/-!
# Running code as commands

What a program does when it runs is decided by the tree that one gets by following the references
of its graph from the body: an evaluable that stands in several places is computed in each of them,
and the definition of a function does nothing. `Expr`, `Test` and `Command` are these trees for code
without arrays and calls, and `Graph.expr?`, `Graph.test?` and `Graph.command?` read them off a
graph. They have no result where the code has an array or a call, or where a node stands in a place
that it cannot fill. `Program.command?` is the tree of a whole program.

The meaning of evaluables is given relative to a view, which says what each name holds.
-/

namespace RegisterBackend

/-- An evaluable without arrays and calls. -/
inductive Expr where
  | const (value : Int64)
  | var (name : String)
  | arith (op : ArithOp) (lhs rhs : Expr)
deriving DecidableEq, Repr

namespace Expr

/-- The names that are read, from left to right. -/
def names : Expr → List String
  | .const _ => []
  | .var name => [name]
  | .arith _ lhs rhs => lhs.names ++ rhs.names

/-- The value, if every name that is read holds one. -/
def eval (view : String → Option Int64) : Expr → Option Int64
  | .const value => some value
  | .var name => view name
  | .arith op lhs rhs =>
    match lhs.eval view, rhs.eval view with
    | some a, some b => some (op.apply a b)
    | _, _ => none

/-- The value depends on the names that are read only. -/
theorem eval_congr {v w : String → Option Int64} :
    ∀ {e : Expr}, (∀ x ∈ e.names, v x = w x) → e.eval v = e.eval w
  | .const _, _ => rfl
  | .var x, h => h x (by simp [names])
  | .arith op l r, h => by
    have hl : l.eval v = l.eval w := eval_congr fun x hx => h x (by simp [names, hx])
    have hr : r.eval v = r.eval w := eval_congr fun x hx => h x (by simp [names, hx])
    simp only [eval, hl, hr]

/-- There is a value exactly if every name that is read holds one. -/
theorem isSome_eval {v : String → Option Int64} :
    ∀ {e : Expr}, (e.eval v).isSome ↔ ∀ x ∈ e.names, (v x).isSome
  | .const _ => by simp [eval, names]
  | .var x => by simp [eval, names]
  | .arith op l r => by
    have hl := isSome_eval (v := v) (e := l)
    have hr := isSome_eval (v := v) (e := r)
    simp only [names, List.mem_append, or_imp, forall_and, ← hl, ← hr, eval]
    cases l.eval v <;> cases r.eval v <;> simp

end Expr

/-- A comparison of two evaluables without arrays and calls. -/
structure Test where
  op : CompareOp
  lhs : Expr
  rhs : Expr
deriving DecidableEq, Repr

namespace Test

/-- The names that are read, from left to right. -/
def names (t : Test) : List String :=
  t.lhs.names ++ t.rhs.names

/-- Whether the comparison holds, if every name that is read holds a value. -/
def eval (t : Test) (view : String → Option Int64) : Option Bool :=
  match t.lhs.eval view, t.rhs.eval view with
  | some a, some b => some (t.op.holds a b)
  | _, _ => none

/-- The result depends on the names that are read only. -/
theorem eval_congr {t : Test} {v w : String → Option Int64} (h : ∀ x ∈ t.names, v x = w x) :
    t.eval v = t.eval w := by
  have hl : t.lhs.eval v = t.lhs.eval w := Expr.eval_congr fun x hx => h x (by simp [names, hx])
  have hr : t.rhs.eval v = t.rhs.eval w := Expr.eval_congr fun x hx => h x (by simp [names, hx])
  simp only [eval, hl, hr]

/-- There is a result exactly if every name that is read holds a value. -/
theorem isSome_eval {t : Test} {v : String → Option Int64} :
    (t.eval v).isSome ↔ ∀ x ∈ t.names, (v x).isSome := by
  simp only [names, List.mem_append, or_imp, forall_and, ← Expr.isSome_eval, eval]
  cases t.lhs.eval v <;> cases t.rhs.eval v <;> simp

end Test

/-- Statements without arrays and calls. -/
inductive Command where
  | skip
  | seq (first second : Command)
  | assign (name : String) (value : Expr)
  | ifElse (test : Test) (thenBranch elseBranch : Command)
  | whileLoop (test : Test) (body : Command)
  | print (text : String)
deriving DecidableEq, Repr

/-- The targets of the assignments in a command, in the order of the text. -/
def Command.assigned : Command → List String
  | .skip | .print _ => []
  | .seq first second => first.assigned ++ second.assigned
  | .assign name _ => [name]
  | .ifElse _ thenBranch elseBranch => thenBranch.assigned ++ elseBranch.assigned
  | .whileLoop _ body => body.assigned

/-! ## Reading a graph -/

namespace Graph

variable (g : Graph)

/-- The evaluable at a node, along paths of bounded length. -/
def expr? : Nat → NodeId → Option Expr
  | 0, _ => none
  | depth + 1, id =>
    match g.node? id with
    | some (.constant (.scalar value)) => some (.const value)
    | some (.var var) => if var.kind = .array then none else some (.var var.name)
    | some (.arithmetic op lhs rhs) =>
      match expr? depth lhs, expr? depth rhs with
      | some left, some right => some (.arith op left right)
      | _, _ => none
    | _ => none

/-- The comparison at a node. -/
def test? (depth : Nat) (id : NodeId) : Option Test :=
  match g.node? id with
  | some (.comparison op lhs rhs) =>
    match g.expr? depth lhs, g.expr? depth rhs with
    | some left, some right => some ⟨op, left, right⟩
    | _, _ => none
  | _ => none

/-- The name of the scalar variable at a node. -/
def target? (id : NodeId) : Option String :=
  match g.node? id with
  | some (.var var) => if var.kind = .array then none else some var.name
  | _ => none

/-- The statements of a block in sequence, each read by the given function. -/
def block? (read : NodeId → Option Command) : List NodeId → Option Command
  | [] => some .skip
  | id :: ids =>
    match read id, block? read ids with
    | some first, some rest => some (.seq first rest)
    | _, _ => none

/-- The statement at a node, along paths of bounded length. -/
def command? : Nat → NodeId → Option Command
  | 0, _ => none
  | depth + 1, id =>
    match g.node? id with
    | some (.assign target value) =>
      match g.target? target, g.expr? depth value with
      | some name, some value => some (.assign name value)
      | _, _ => none
    | some (.ifElse condition thenBlock elseBlock) =>
      match g.test? depth condition, block? (command? depth) thenBlock,
        block? (command? depth) elseBlock with
      | some test, some thenBranch, some elseBranch => some (.ifElse test thenBranch elseBranch)
      | _, _, _ => none
    | some (.whileLoop condition body) =>
      match g.test? depth condition, block? (command? depth) body with
      | some test, some body => some (.whileLoop test body)
      | _, _ => none
    | some (.functionDef ..) => some .skip
    | some (.debug text) => some (.print text)
    | _ => none

/-- The graph with the given nodes under consecutive numbers. A node that refers to a later one is
left out. -/
def ofNodes (nodes : List Node) : Graph :=
  nodes.foldl (fun g node => match g.add node with
    | .ok (_, g) => g
    | .error _ => g) .empty

end Graph

/-- What a program does when it runs, if that has neither arrays nor calls. -/
def Program.command? (p : Program) : Option Command :=
  Graph.block? (p.graph.command? p.graph.depth) p.body

end RegisterBackend
