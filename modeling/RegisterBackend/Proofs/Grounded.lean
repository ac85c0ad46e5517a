import RegisterBackend.Proofs.GraphEdges
import RegisterBackend.Proofs.GraphTrees

/-!
# Paths that end

The functions that follow references from node to node take a bound on the length of a path and stop
when it is used up. A node is `Grounded` if all paths from it stay in the graph and end. Such a path
has no repetitions, so it has at most as many nodes as the graph (`Graph.Grounded.within`), and the
bound that the functions start with is not used up. This holds no matter at which nodes a function
takes a level off the bound.
-/

namespace RegisterBackend.Graph

variable {g : Graph} {id a b c : NodeId} {node : Node} {d e : Nat}

/-- All paths from the node stay in the graph and end. -/
inductive Grounded (g : Graph) : NodeId → Prop
  | intro {id : NodeId} {node : Node} (hnode : g.node? id = some node)
    (hchildren : ∀ c ∈ node.children, Grounded g c) : Grounded g id

/-- All paths from the node stay in the graph and have at most so many nodes. -/
def Within (g : Graph) : Nat → NodeId → Prop
  | 0, _ => False
  | d + 1, id => ∃ node, g.node? id = some node ∧ ∀ c ∈ node.children, Within g d c

namespace Within

/-- Paths of bounded length begin at a node of the graph. -/
theorem exists_node (h : g.Within d id) : ∃ node, g.node? id = some node := by
  cases d with
  | zero => cases h
  | succ d =>
    obtain ⟨node, hnode, -⟩ := h
    exact ⟨node, hnode⟩

/-- From a child, the paths are one node shorter. -/
theorem child (h : g.Within (d + 1) id) (hnode : g.node? id = some node) (hc : c ∈ node.children) :
    g.Within d c := by
  obtain ⟨node', hnode', hchildren⟩ := h
  cases hnode.symm.trans hnode'
  exact hchildren c hc

/-- The bound on the paths can be raised. -/
theorem mono (h : g.Within d id) (hle : d ≤ e) : g.Within e id := by
  induction d generalizing id e with
  | zero => cases h
  | succ d ih =>
    obtain ⟨e, rfl⟩ : ∃ e', e = e' + 1 := ⟨e - 1, by omega⟩
    obtain ⟨node, hnode, hchildren⟩ := h
    exact ⟨node, hnode, fun c hc => ih (hchildren c hc) (by omega)⟩

end Within

namespace Grounded

/-- No path from a grounded node comes back to it. -/
theorem not_cycle (h : g.Grounded a) : ¬ Relation.TransGen g.Child a a := by
  induction h with
  | intro hnode _ ih =>
    intro hcycle
    -- the cycle runs through a child, and so is one of the child
    obtain ⟨c, ⟨node', hnode', hc⟩, hback⟩ := Relation.TransGen.head'_iff.1 hcycle
    cases hnode.symm.trans hnode'
    exact ih c hc (Relation.TransGen.tail' hback ⟨_, hnode, hc⟩)

/-- A path from a grounded node that has come past some nodes and cannot come back to them has the
others left at most. -/
theorem within_of_unseen (h : g.Grounded a) {seen : List NodeId}
    (hseen : ∀ b ∈ seen, ¬ g.Reaches a b) (hle : g.unseen seen ≤ d) : g.Within d a := by
  induction h generalizing seen d with
  | @intro a node hnode hchildren ih =>
    have hlt : g.unseen (a :: seen) < g.unseen seen :=
      unseen_cons_lt hnode fun ha => hseen a ha .refl
    obtain ⟨d, rfl⟩ : ∃ d', d = d' + 1 := ⟨d - 1, by omega⟩
    have hle' : g.unseen (a :: seen) ≤ d := by omega
    refine ⟨node, hnode, fun c hc => ih c hc (fun b hb hreach => ?_) hle'⟩
    rcases List.mem_cons.1 hb with rfl | hb
    · exact (Grounded.intro hnode hchildren).not_cycle (.head' ⟨node, hnode, hc⟩ hreach)
    · exact hseen b hb (.head ⟨node, hnode, hc⟩ hreach)

/-- A path from a grounded node has at most as many nodes as the graph. -/
theorem within (h : g.Grounded a) : g.Within g.size a := by
  refine @within_of_unseen _ _ _ h [] nofun ?_
  exact Nat.le_trans List.countP_le_length (Nat.le_of_eq List.length_range)

end Grounded

/-! ## Collecting names -/

/-- The names that a node may assign can be collected within the bound. -/
theorem exists_addAssigned (functions : NameMap NameSet) (h : g.Within d id) (names : NameSet) :
    ∃ names', g.addAssigned functions d id names = .ok names' := by
  induction d generalizing id names with
  | zero => cases h
  | succ d ih =>
    obtain ⟨node, hnode, hchildren⟩ := h
    have hall : ∀ ids ⊆ node.children, ∀ names, ∃ names',
        ids.foldlM (fun names id => g.addAssigned functions d id names) names = .ok names' := by
      intro ids hids names
      obtain ⟨names', hfold, -⟩ := exists_foldlM_eq_ok (P := fun _ => True) (b := names)
        (fun names _ c hc => (ih (hchildren c (hids hc)) names).imp fun _ h => ⟨h, trivial⟩) trivial
      exact ⟨names', hfold⟩
    -- what is left to do at the node itself
    suffices hself : ∃ names', _ = Except.ok names' by
      obtain ⟨names', hself⟩ := hself
      exact ⟨names', by rw [addAssigned]; exact bind_eq_ok.2 ⟨node, node_eq_ok.2 hnode, hself⟩⟩
    cases node with
    | assign target value | updateElement target index value =>
      obtain ⟨targetNode, htarget⟩ := (hchildren target (by simp [Node.children])).exists_node
      obtain ⟨names₁, hnames₁⟩ : ∃ names₁, g.addTarget target names = .ok names₁ := by
        rw [addTarget, node_eq_ok.2 htarget]
        cases targetNode <;> exact ⟨_, rfl⟩
      obtain ⟨names', hfold⟩ := hall [value] (by simp [Node.children]) names₁
      exact ⟨names', bind_eq_ok.2 ⟨names₁, hnames₁, hfold⟩⟩
    | ifElse | whileLoop | arithmetic | comparison => exact hall _ (List.Subset.refl _) names
    | call name args returns =>
      obtain ⟨names₁, hfold⟩ := hall args (List.Subset.refl _) names
      cases hfunction : functions[name]? with
      | none => exact ⟨names₁, bind_eq_ok.2 ⟨names₁, hfold, by rw [hfunction]; rfl⟩⟩
      | some assigned => exact ⟨_, bind_eq_ok.2 ⟨names₁, hfold, by rw [hfunction]; rfl⟩⟩
    | functionDef | constant | var | debug => exact ⟨names, rfl⟩

/-- The names that a block may assign can be collected within the bound. -/
theorem exists_assignedIn (functions : NameMap NameSet) {block : List NodeId}
    (h : ∀ id ∈ block, g.Within d id) :
    ∃ names, g.assignedIn functions d block = .ok names := by
  obtain ⟨names, hfold, -⟩ := exists_foldlM_eq_ok (P := fun _ => True) (b := (∅ : NameSet))
    (fun names _ c hc => (exists_addAssigned functions (h c hc) names).imp fun _ h => ⟨h, trivial⟩)
    trivial
  exact ⟨names, hfold⟩

end RegisterBackend.Graph
