import RegisterBackend.Graph.Node

/-!
# Program graphs

A `Graph` holds nodes under consecutive numbers. Next to each node it keeps two edge lists, the
children it refers to and the parents that refer to it, each without repetitions and in the order
in which the edges were made. `add` and `replace` keep the lists in step with the nodes; `addChild`
and `addParent` make single edges.

A node number may lie outside the graph. Every operation that has to look at such a node stops
with `Fault.dangling`. A graph may also have cycles: operations that follow references from node
to node take a bound on the length of a path, `Graph.depth` at the outermost call, and stop with
`Fault.cyclic` when the bound is used up. A path without repetitions has at most `Graph.size` nodes,
so on a graph without cycles that fault does not arise.

A graph may have any number of nodes. With node numbers of 32 bits, a graph of more than `2 ^ 32`
nodes would give two of them the same number; up to that size, numbers of 32 bits and the numbers
here are the same.
-/

namespace RegisterBackend

/-- Why a graph could not be followed. -/
inductive Fault where
  /-- A node number outside the graph. -/
  | dangling (id : NodeId)
  /-- A path longer than the graph, so that some node is its own descendant. -/
  | cyclic (id : NodeId)
deriving DecidableEq, Repr

/-- Why a computation over a graph stopped: the graph could not be followed, or it was followed
and an error of the domain was found. -/
inductive Stop (ε : Type) where
  | fault (why : Fault)
  | error (why : ε)
deriving DecidableEq, Repr

namespace Stop

/-- The same reason with the error seen as one of another domain. -/
def map {ε δ : Type} (f : ε → δ) : Stop ε → Stop δ
  | .fault why => .fault why
  | .error why => .error (f why)

/-- A result that can only have failed by a fault. -/
def ofFault {ε α : Type} (result : Except Fault α) : Except (Stop ε) α :=
  result.mapError .fault

end Stop

/-- A node together with its edges. -/
structure Entry where
  node : Node
  /-- The nodes referred to, each once. -/
  children : List NodeId
  /-- The nodes that refer to this one, each once. -/
  parents : List NodeId
deriving DecidableEq, Repr

/-- A program graph. -/
structure Graph where
  entries : Array Entry
deriving DecidableEq, Repr

/-- Appends a node number that is not yet in the list. -/
def appendNew (ids : List NodeId) (id : NodeId) : List NodeId :=
  if id ∈ ids then ids else ids ++ [id]

namespace Graph

/-- The graph without nodes. -/
def empty : Graph :=
  ⟨#[]⟩

/-- The number of nodes. -/
def size (g : Graph) : Nat :=
  g.entries.size

/-- The entry under a number. -/
def entry? (g : Graph) (id : NodeId) : Option Entry :=
  g.entries[id.index]?

/-- The node under a number. -/
def node? (g : Graph) (id : NodeId) : Option Node :=
  (g.entry? id).map (·.node)

/-- The entry under a number that must lie in the graph. -/
def entry (g : Graph) (id : NodeId) : Except Fault Entry :=
  match g.entry? id with
  | some entry => .ok entry
  | none => .error (.dangling id)

/-- The node under a number that must lie in the graph. -/
def node (g : Graph) (id : NodeId) : Except Fault Node :=
  match g.node? id with
  | some node => .ok node
  | none => .error (.dangling id)

/-- The node under a number, in a computation that can also fail by an error. -/
def fetch {ε : Type} (g : Graph) (id : NodeId) : Except (Stop ε) Node :=
  Stop.ofFault (g.node id)

/-- Exchanges the entry under a number. -/
def put (g : Graph) (id : NodeId) (entry : Entry) : Graph :=
  ⟨g.entries.setIfInBounds id.index entry⟩

/-- A bound on the length of the paths of a graph without cycles. -/
def depth (g : Graph) : Nat :=
  g.size + 1

/-! ## Edges -/

/-- Records a parent of a node. The parent itself need not lie in the graph. -/
def addParent (g : Graph) (child parent : NodeId) : Except Fault Graph := do
  let entry ← g.entry child
  return g.put child { entry with parents := appendNew entry.parents parent }

/-- Strikes a parent of a node. -/
def removeParent (g : Graph) (child parent : NodeId) : Except Fault Graph := do
  let entry ← g.entry child
  return g.put child { entry with parents := entry.parents.filter (· ≠ parent) }

/-- Records an edge on both of its ends. -/
def addChild (g : Graph) (parent child : NodeId) : Except Fault Graph := do
  let entry ← g.entry parent
  (g.put parent { entry with children := appendNew entry.children child }).addParent child parent

/-- Records the edges from a node to each of the listed ones. -/
def addChildren (g : Graph) (parent : NodeId) (children : List NodeId) : Except Fault Graph :=
  children.foldlM (fun g child => g.addChild parent child) g

/-! ## Nodes -/

/-- Adds a node under the next free number, with the edges to its children. -/
def add (g : Graph) (node : Node) : Except Fault (NodeId × Graph) := do
  let id : NodeId := ⟨g.size⟩
  let g ← addChildren ⟨g.entries.push ⟨node, [], []⟩⟩ id node.children
  return (id, g)

/-- Exchanges the node under a number. Its edges become those of the new node: a child that is no
longer referred to loses the parent, and the children are listed in the new node's order. -/
def replace (g : Graph) (id : NodeId) (node : Node) : Except Fault Graph := do
  let entry ← g.entry id
  let dropped := entry.children.filter (· ∉ node.children)
  let g := g.put id { entry with node := node, children := [] }
  let g ← dropped.foldlM (fun g child => g.removeParent child id) g
  g.addChildren id node.children

/-! ## Kinds -/

/-- The kind of an evaluable along a path of bounded length; other nodes have none. The kind of an
operation is that of its left operand. -/
def kindWithin (g : Graph) : Nat → NodeId → Except Fault (Option Kind)
  | 0, id => .error (.cyclic id)
  | depth + 1, id =>
    match g.node? id with
    | none => .error (.dangling id)
    | some (.constant value) => .ok (some value.kind)
    | some (.var var) => .ok (some var.kind)
    | some (.arithmetic _ lhs _) => kindWithin g depth lhs
    | some (.call _ _ returns) => .ok (some returns)
    | some _ => .ok none

/-- The kind of an evaluable; other nodes have none. -/
def kind? (g : Graph) (id : NodeId) : Except Fault (Option Kind) :=
  g.kindWithin g.depth id

end Graph

end RegisterBackend
