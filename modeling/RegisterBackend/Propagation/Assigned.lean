import RegisterBackend.Graph.Basic
import RegisterBackend.Names

/-!
# Assigned names

`Graph.addAssigned` collects the names that running a node may assign: the targets of the
assignments in it and, for each call, the names that the called function is known to assign. The
definition of a function assigns nothing; only its calls do.
-/

namespace RegisterBackend

namespace Graph

variable (g : Graph)

/-- Adds the name of a target to a set, if the target is a variable. -/
def addTarget (id : NodeId) (names : NameSet) : Except Fault NameSet := do
  match ← g.node id with
  | .var var => return names.insert var.name
  | _ => return names

/-- Adds the names that a node may assign to a set, given the names that functions assign. -/
def addAssigned (functions : NameMap NameSet) : Nat → NodeId → NameSet → Except Fault NameSet
  | 0, id, _ => .error (.cyclic id)
  | depth + 1, id, names => do
    let addAll (ids : List NodeId) (names : NameSet) : Except Fault NameSet :=
      ids.foldlM (fun names id => addAssigned functions depth id names) names
    match ← g.node id with
    | .assign target value | .updateElement target _ value =>
      addAll [value] (← g.addTarget target names)
    | .ifElse condition thenBlock elseBlock => addAll (condition :: (thenBlock ++ elseBlock)) names
    | .whileLoop condition body => addAll (condition :: body) names
    | .arithmetic _ lhs rhs | .comparison _ lhs rhs => addAll [lhs, rhs] names
    | .call name args _ =>
      let names ← addAll args names
      match functions[name]? with
      | some assigned => return names.insertMany assigned.toList
      | none => return names
    | .functionDef .. | .constant _ | .var _ | .debug _ => return names

/-- The names that running a block may assign. -/
def assignedIn (functions : NameMap NameSet) (depth : Nat) (block : List NodeId) :
    Except Fault NameSet :=
  block.foldlM (fun names id => g.addAssigned functions depth id names) ∅

end Graph

end RegisterBackend
