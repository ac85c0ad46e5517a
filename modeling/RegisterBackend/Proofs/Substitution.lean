import RegisterBackend.Proofs.Grounded

/-!
# Constants in the place of evaluables

A graph is rewritten by putting constants into computed slots. What a constant has to do with what
stood in the slot is left open here: `Graph.Substitutes P` says that the nodes stay but for slots
that have come to hold a constant, and that each such constant may stand for what was there before,
in the sense of a relation `P` between nodes and values. Leaves stay (`Graph.Substitutes.leaf`), and
paths do not become longer (`Graph.Substitutes.within`).

Graphs are rewritten step by step, and the relation is then one to the nodes of the graph before the
step. `Graph.Substitutes.trans` takes two such relations together.
-/

namespace RegisterBackend

/-! ## Nodes without computed slots -/

namespace Node

/-- Whether the node has slots that are computed when the program runs. -/
def computes : Node → Bool
  | .arithmetic .. | .call .. | .assign .. | .updateElement .. | .comparison .. => true
  | _ => false

theorem computes_of_isLeaf {node : Node} (h : node.isLeaf = true) : node.computes = false := by
  cases node <;> first | rfl | cases h

theorem Amends.computes_eq {R : NodeId → NodeId → Prop} {node node' : Node}
    (h : node.Amends R node') : node'.computes = node.computes := by
  cases h <;> rfl

/-- A node without computed slots stays the same. -/
theorem Amends.eq_of_computes {R : NodeId → NodeId → Prop} {node node' : Node}
    (h : node.Amends R node') (hnode : node.computes = false) : node' = node := by
  cases h with
  | same => rfl
  | _ => cases hnode

/-- Two relations between the slots hold together. -/
theorem Amends.and {R S : NodeId → NodeId → Prop} {node node' : Node} (h : node.Amends R node')
    (h' : node.Amends S node') : node.Amends (fun c c' => R c c' ∧ S c c') node' := by
  cases h with
  | same => exact .same
  | arithmetic left right =>
    cases h' with
    | same => exact .same
    | arithmetic left' right' => exact .arithmetic ⟨left, left'⟩ ⟨right, right'⟩
  | call args =>
    cases h' with
    | same => exact .same
    | call args' => exact .call (List.Forall₂.mp (fun _ _ => And.intro) args args')
  | assign value =>
    cases h' with
    | same => exact .same
    | assign value' => exact .assign ⟨value, value'⟩
  | updateElement value =>
    cases h' with
    | same => exact .same
    | updateElement value' => exact .updateElement ⟨value, value'⟩
  | comparison left right =>
    cases h' with
    | same => exact .same
    | comparison left' right' => exact .comparison ⟨left, left'⟩ ⟨right, right'⟩

end Node

/-! ## Rewriting -/

namespace Graph

variable {g g' g₁ g₂ : Graph} {P P₁ : NodeId → Literal → Prop} {id c c' c₁ n : NodeId} {node : Node}

/-- What a slot may refer to when it referred to the first node: still to that, or to a constant
that may stand for it. -/
def Fills (P : NodeId → Literal → Prop) (g' : Graph) (c c' : NodeId) : Prop :=
  c' = c ∨ ∃ l, g'.node? c' = some (.constant l) ∧ P c l

theorem Fills.refl (P : NodeId → Literal → Prop) (g' : Graph) (c : NodeId) : Fills P g' c c :=
  .inl rfl

theorem Fills.imp (h : Fills P g' c c') {Q : NodeId → Literal → Prop} (hPQ : ∀ l, P c l → Q c l) :
    Fills Q g' c c' :=
  Or.imp_right (fun ⟨l, hl, hP⟩ => ⟨l, hl, hPQ l hP⟩) h

/-- The nodes stay, but for computed slots that refer to constants instead. -/
structure Substitutes (P : NodeId → Literal → Prop) (g g' : Graph) : Prop where
  kept : ∀ {n node}, g.node? n = some node →
    ∃ node', g'.node? n = some node' ∧ node.Amends (Fills P g') node'

namespace Substitutes

theorem refl (P : NodeId → Literal → Prop) (g : Graph) : Substitutes P g g :=
  ⟨fun h => ⟨_, h, .same⟩⟩

/-- No nodes are lost. -/
theorem size_le (h : Substitutes P g g') : g.size ≤ g'.size := by
  refine size_le_of_node? fun n hn => ?_
  by_contra hsome
  obtain ⟨node, hnode⟩ := Option.ne_none_iff_exists'.1 hsome
  obtain ⟨node', hnode', -⟩ := h.kept hnode
  cases hn.symm.trans hnode'

/-- A node without computed slots stays. -/
theorem fixed (h : Substitutes P g g') (hfixed : node.computes = false)
    (hnode : g.node? n = some node) : g'.node? n = some node := by
  obtain ⟨node', hnode', hamends⟩ := h.kept hnode
  rw [hnode', hamends.eq_of_computes hfixed]

/-- A node that has no computed slots now was the same one before. -/
theorem eq_of_fixed (h : Substitutes P g g') (hfixed : node.computes = false)
    (hnode : g'.node? n = some node) {node₀ : Node} (hnode₀ : g.node? n = some node₀) :
    node₀ = node := by
  obtain ⟨node', hnode', hamends⟩ := h.kept hnode₀
  cases hnode.symm.trans hnode'
  exact (hamends.eq_of_computes (hamends.computes_eq ▸ hfixed)).symm

theorem leaf (h : Substitutes P g g') (hleaf : node.isLeaf = true) (hnode : g.node? n = some node) :
    g'.node? n = some node :=
  h.fixed (Node.computes_of_isLeaf hleaf) hnode

/-- An operation stays one, with its operands filled. -/
theorem arithmetic (h : Substitutes P g g') {op : ArithOp} {lhs rhs : NodeId}
    (hnode : g.node? n = some (.arithmetic op lhs rhs)) :
    ∃ lhs' rhs', g'.node? n = some (.arithmetic op lhs' rhs') ∧ Fills P g' lhs lhs' ∧
      Fills P g' rhs rhs' := by
  obtain ⟨node', hnode', hamends⟩ := h.kept hnode
  cases hamends with
  | same => exact ⟨lhs, rhs, hnode', .refl P g' lhs, .refl P g' rhs⟩
  | arithmetic left right => exact ⟨_, _, hnode', left, right⟩

/-- A comparison stays one, with its operands filled. -/
theorem comparison (h : Substitutes P g g') {op : CompareOp} {lhs rhs : NodeId}
    (hnode : g.node? n = some (.comparison op lhs rhs)) :
    ∃ lhs' rhs', g'.node? n = some (.comparison op lhs' rhs') ∧ Fills P g' lhs lhs' ∧
      Fills P g' rhs rhs' := by
  obtain ⟨node', hnode', hamends⟩ := h.kept hnode
  cases hamends with
  | same => exact ⟨lhs, rhs, hnode', .refl P g' lhs, .refl P g' rhs⟩
  | comparison left right => exact ⟨_, _, hnode', left, right⟩

/-- A call stays one, with its arguments filled. -/
theorem call (h : Substitutes P g g') {name : String} {args : List NodeId} {returns : Kind}
    (hnode : g.node? n = some (.call name args returns)) :
    ∃ args', g'.node? n = some (.call name args' returns) ∧ List.Forall₂ (Fills P g') args args' := by
  obtain ⟨node', hnode', hamends⟩ := h.kept hnode
  cases hamends with
  | same => exact ⟨args, hnode', List.forall₂_same.2 fun c _ => .refl P g' c⟩
  | call args => exact ⟨_, hnode', args⟩

/-- An assignment keeps its target, and its value is filled. -/
theorem assign (h : Substitutes P g g') {target value : NodeId}
    (hnode : g.node? n = some (.assign target value)) :
    ∃ value', g'.node? n = some (.assign target value') ∧ Fills P g' value value' := by
  obtain ⟨node', hnode', hamends⟩ := h.kept hnode
  cases hamends with
  | same => exact ⟨value, hnode', .refl P g' value⟩
  | assign value => exact ⟨_, hnode', value⟩

/-- The assignment of an element keeps its target and its index, and its value is filled. -/
theorem updateElement (h : Substitutes P g g') {target value : NodeId} {index : Nat}
    (hnode : g.node? n = some (.updateElement target index value)) :
    ∃ value', g'.node? n = some (.updateElement target index value') ∧ Fills P g' value value' := by
  obtain ⟨node', hnode', hamends⟩ := h.kept hnode
  cases hamends with
  | same => exact ⟨value, hnode', .refl P g' value⟩
  | updateElement value => exact ⟨_, hnode', value⟩

/-- What may stand in a slot for two reasons. -/
theorem and {Q : NodeId → Literal → Prop} (h : Substitutes P g g') (h' : Substitutes Q g g') :
    Substitutes (fun c l => P c l ∧ Q c l) g g' := by
  refine ⟨fun {n node} hnode => ?_⟩
  obtain ⟨node', hnode', hamends⟩ := h.kept hnode
  obtain ⟨_, hsame, hamends'⟩ := h'.kept hnode
  cases hnode'.symm.trans hsame
  refine ⟨node', hnode', (hamends.and hamends').mono ?_⟩
  rintro c c' ⟨rfl | ⟨l, hl, hP⟩, hQ⟩
  · exact .refl _ _ _
  · rcases hQ with rfl | ⟨l', hl', hQ⟩
    · exact .refl _ _ _
    · cases hl.symm.trans hl'
      exact .inr ⟨l, hl, hP, hQ⟩

/-- Paths do not become longer. -/
theorem within {d : Nat} (h : Substitutes P g g') (hid : g.Within d id) : g'.Within d id := by
  induction d generalizing id with
  | zero => cases hid
  | succ d ih =>
    obtain ⟨node, hnode, hchildren⟩ := hid
    obtain ⟨node', hnode', hamends⟩ := h.kept hnode
    refine ⟨node', hnode', fun c' hc' => ?_⟩
    obtain ⟨c, hc, hfills⟩ := hamends.exists_of_mem_children (.refl P g') hc'
    rcases hfills with rfl | ⟨l, hl, -⟩
    · exact ih (hchildren c' hc)
    · -- the path to the old child has a node, so there is room for the constant
      obtain ⟨d, rfl⟩ : ∃ d', d = d' + 1 := by
        cases d with
        | zero => exact (hchildren c hc).elim
        | succ d => exact ⟨d, rfl⟩
      exact ⟨_, hl, nofun⟩

/-- A slot that is filled twice has been filled. -/
theorem fills (hback : ∀ l, P₁ c l → P c l)
    (hconst : ∀ {c₁ l₁ l₂}, P c l₁ → g₁.node? c₁ = some (.constant l₁) → P₁ c₁ l₂ → P c l₂)
    (h₂ : Substitutes P₁ g₁ g₂) {c₂ : NodeId} (hc₁ : Fills P g₁ c c₁) (hc₂ : Fills P₁ g₂ c₁ c₂) :
    Fills P g₂ c c₂ := by
  rcases hc₁ with rfl | ⟨l₁, hl₁, hP⟩
  · exact hc₂.imp hback
  · rcases hc₂ with rfl | ⟨l₂, hl₂, hP₁⟩
    · exact .inr ⟨l₁, h₂.leaf rfl hl₁, hP⟩
    · exact .inr ⟨l₂, hl₂, hconst hP hl₁ hP₁⟩

/-- Rewriting in two steps, where the second one is seen from the graph in between. -/
theorem trans (hback : ∀ c l, P₁ c l → P c l)
    (hconst : ∀ {c c₁ l₁ l₂}, P c l₁ → g₁.node? c₁ = some (.constant l₁) → P₁ c₁ l₂ → P c l₂)
    (h₁ : Substitutes P g g₁) (h₂ : Substitutes P₁ g₁ g₂) : Substitutes P g g₂ := by
  refine ⟨fun {n node} hnode => ?_⟩
  obtain ⟨node₁, hnode₁, hamends₁⟩ := h₁.kept hnode
  obtain ⟨node₂, hnode₂, hamends₂⟩ := h₂.kept hnode₁
  exact ⟨node₂, hnode₂, hamends₁.trans hamends₂ (.refl P _) (.refl P₁ _)
    fun _ _ _ => fills (hback _) hconst h₂⟩

/-- A constant may be added. -/
theorem add {l : Literal} (h : g.add (.constant l) = .ok (id, g')) : Substitutes P g g' :=
  ⟨fun hnode => ⟨_, (Rewrites.add (S := fun _ => False) h).1.off not_false hnode, .same⟩⟩

/-- After some rewriting, a node may be exchanged for one whose slots refer to what they referred to
before or to constants that may stand for it. The constants stay. -/
theorem update {old new : Node} (h : Substitutes P g g₁) (hold : g.node? id = some old)
    (hleaf : old.isLeaf = false) (hamends : old.Amends (Fills P g₁) new)
    (hreplace : g₁.replace id new = .ok g₂) :
    Substitutes P g g₂ ∧ ∀ c c', Fills P g₁ c c' → Fills P g₂ c c' := by
  have hnodes := node?_replace hreplace
  have hfills : ∀ c c', Fills P g₁ c c' → Fills P g₂ c c' := by
    refine fun c c' hc => Or.imp_right (fun ⟨l, hl, hP⟩ => ⟨l, ?_, hP⟩) hc
    rw [hnodes, if_neg, hl]
    -- the exchanged node is no leaf, and has not become one
    rintro rfl
    rw [h.eq_of_fixed rfl hl hold] at hleaf
    cases hleaf
  refine ⟨⟨fun {n node} hnode => ?_⟩, hfills⟩
  by_cases hn : n = id
  · subst hn
    cases hold.symm.trans hnode
    exact ⟨new, by rw [hnodes, if_pos rfl], hamends.mono hfills⟩
  · obtain ⟨node₁, hnode₁, hamends₁⟩ := h.kept hnode
    exact ⟨node₁, by rw [hnodes, if_neg hn, hnode₁], hamends₁.mono hfills⟩

end Substitutes

end Graph

end RegisterBackend
