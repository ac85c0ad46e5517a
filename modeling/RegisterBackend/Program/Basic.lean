import RegisterBackend.Graph.Reach

/-!
# Programs

A program is a graph together with its body, the list of statements that run in order.
-/

namespace RegisterBackend

/-- A graph and the statements that run. -/
structure Program where
  graph : Graph
  body : List NodeId
deriving DecidableEq, Repr

/-- The number of nodes that can be reached from the body. -/
def Program.reachableCount (p : Program) : Except Fault Nat :=
  return (← p.graph.reach p.body).length

end RegisterBackend
