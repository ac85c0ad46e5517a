import RegisterBackend.Graph.Basic

/-!
# Reachable nodes

`Graph.reach` lists the nodes that can be reached from given ones along references, each once. It
keeps a stack of nodes still to visit, the last one put there on top; a node is expanded the first
time it comes up and skipped afterwards, so the walk ends on graphs with sharing and cycles too:
each expansion leaves one node of the graph fewer that has not been seen.
-/

namespace RegisterBackend.Graph

/-- Fewer elements pass a test that is narrower and fails at one of them. -/
theorem countP_lt_of_imp {α : Type} {p q : α → Bool} {a : α} :
    ∀ {l : List α}, (∀ x ∈ l, p x = true → q x = true) → a ∈ l → q a = true → p a = false →
      l.countP p < l.countP q
  | x :: l, himp, ha, hq, hp => by
    have htail : ∀ y ∈ l, p y = true → q y = true := fun y hy => himp y (List.mem_cons_of_mem _ hy)
    rcases List.mem_cons.1 ha with rfl | ha
    · rw [List.countP_cons_of_neg (by simp [hp]), List.countP_cons_of_pos hq]
      exact Nat.lt_succ_of_le (List.countP_mono_left htail)
    · have hlt := countP_lt_of_imp htail ha hq hp
      have hle : (if p x = true then 1 else 0) ≤ (if q x = true then 1 else 0) := by
        by_cases h : p x = true
        · simp [h, himp x List.mem_cons_self h]
        · simp [h]
      simp only [List.countP_cons]
      omega

/-- The number of nodes that are not in a list. -/
def unseen (g : Graph) (seen : List NodeId) : Nat :=
  (List.range g.size).countP fun i => ⟨i⟩ ∉ seen

/-- Seeing a node of the graph leaves fewer to see. -/
theorem unseen_cons_lt {g : Graph} {seen : List NodeId} {id : NodeId} {node : Node}
    (hnode : g.node? id = some node) (hseen : id ∉ seen) :
    g.unseen (id :: seen) < g.unseen seen := by
  have hlt : id.index < g.size := by
    simp only [node?, entry?, Option.map_eq_some_iff] at hnode
    obtain ⟨entry, hentry, -⟩ := hnode
    exact (Array.getElem?_eq_some_iff.1 hentry).1
  refine countP_lt_of_imp ?_ (List.mem_range.2 hlt) (by simpa using hseen) (by simp)
  intro i _ hi
  simp only [decide_eq_true_eq, List.mem_cons, not_or] at hi ⊢
  exact hi.2

/-- Visits the pending nodes and all that can be reached from them, and adds them to those seen. The
top of the stack comes first. -/
def visit (g : Graph) (seen pending : List NodeId) : Except Fault (List NodeId) :=
  match pending with
  | [] => .ok seen
  | id :: rest =>
    if _hseen : id ∈ seen then
      g.visit seen rest
    else
      match _hnode : g.node? id with
      | none => .error (.dangling id)
      | some node => g.visit (id :: seen) (node.children.reverse ++ rest)
termination_by (g.unseen seen, pending.length)
decreasing_by
  · exact Prod.Lex.right _ (by simp)
  · exact Prod.Lex.left _ _ (unseen_cons_lt _hnode _hseen)

/-- The nodes that can be reached from the given ones, each once. -/
def reach (g : Graph) (roots : List NodeId) : Except Fault (List NodeId) :=
  g.visit [] roots.reverse

end RegisterBackend.Graph
