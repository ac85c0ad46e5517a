import RegisterBackend.Proofs.GraphEdges
import RegisterBackend.Proofs.PropagationTraces
import RegisterBackend.Proofs.Unfolding

/-!
# Constant propagation with sharing

Constant propagation comes to a shared node once for each of its uses, and what it makes of the node
for one of them is there for the others. An unfolding has a copy of the node for each use, so there
the uses do not meet. This module compares the two when it makes no difference, because any two
copies of a node are simplified alike (`Unfolding.CopiesAlike`).

The trace that simplifying the unfolding leaves is followed, and the program with sharing is
simplified along with it. At each point, every shared node is as it was in the beginning, or it
already agrees with what becomes of its copies in the end (`Unfolding.Follows`, `Unfolding.Agrees`).
So where propagation comes to a node again, it finds constants where it would have put them
(`Unfolding.Slot`), and it knows the same as in the unfolding.
-/

namespace RegisterBackend

namespace Unfolding

open RegisterBackend.Graph (Rewrites)

/-! ## Copies and what is copied -/

section

variable (π : NodeId → NodeId) (u : Program) (g' : Graph)

/-- Two slots have copies of one node, or constants with the same value. -/
def SlotsAlike (c d : NodeId) : Prop :=
  (¬ g'.IsConstant c ∧ ¬ g'.IsConstant d ∧ π c = π d) ∨
    ∃ l, g'.node? c = some (.constant l) ∧ g'.node? d = some (.constant l)

/-- Any two copies of a node are alike in the graph: they are the same but for what they refer to,
and this is alike too. -/
def CopiesAlike : Prop :=
  ∀ a b, u.Reachable a → u.Reachable b → π a = π b → ∃ node node', g'.node? a = some node ∧
    g'.node? b = some node' ∧ node.Matches (fun c d => π c = π d) (SlotsAlike π g') node'

/-- A slot of the program has what a slot of the unfolding has in the end: the node of which this is
a copy, or the same constant. -/
def Stands (g : Graph) (c y : NodeId) : Prop :=
  (¬ g'.IsConstant c ∧ y = π c) ∨
    ∃ l, g'.node? c = some (.constant l) ∧ g.node? y = some (.constant l)

/-- The node of the program is what its copy is in the end. -/
def Agrees (g : Graph) (a : NodeId) : Prop :=
  u.Reachable a ∧ ∃ node node', g'.node? a = some node ∧ g.node? (π a) = some node' ∧
    node.Matches (fun c y => y = π c) (Stands π g' g) node'

/-- Each node that is copied stays, or is then what its copies are in the end. -/
structure Follows (g g₁ : Graph) : Prop where
  /-- Constants stay. -/
  constant : ∀ {y l}, g.node? y = some (.constant l) → g₁.node? y = some (.constant l)
  node : ∀ {a}, u.Reachable a → g₁.node? (π a) = g.node? (π a) ∨ Agrees π u g' g₁ a

/-- A slot of the program refers to the node of which the slot of the unfolding has a copy in the
beginning, or to the constant that it has in the end. -/
def Slot (g : Graph) (c c' y : NodeId) : Prop :=
  y = π c ∨ ∃ l, g'.node? c' = some (.constant l) ∧ g.node? y = some (.constant l)

/-- An unfolding and a graph that came about by simplifying it, with copies that are alike. -/
structure Simplified (p : Program) : Prop where
  unfolding : Unfolding π u p
  rewrites : Rewrites (fun _ => True) u.graph g'
  alike : CopiesAlike π u g'

end

variable {π : NodeId → NodeId} {u p : Program} {g g' g₁ g₂ : Graph} {a c c' d y : NodeId}
  {node : Node} {l : Literal}

/-- What stands for a slot still does in a graph that keeps the constants. -/
theorem Stands.mono (h : Stands π g' g c y)
    (hconst : ∀ {y l}, g.node? y = some (.constant l) → g₁.node? y = some (.constant l)) :
    Stands π g' g₁ c y :=
  h.imp_right fun ⟨l, hc, hy⟩ => ⟨l, hc, hconst hy⟩

/-- A slot that is filled is still so in a graph that keeps the constants. -/
theorem Slot.mono (h : Slot π g' g c c' y)
    (hconst : ∀ {y l}, g.node? y = some (.constant l) → g₁.node? y = some (.constant l)) :
    Slot π g' g₁ c c' y :=
  h.imp_right fun ⟨l, hc, hy⟩ => ⟨l, hc, hconst hy⟩

namespace Agrees

/-- A node that stays the same agrees with its copy as before, in a graph that keeps the
constants. -/
theorem of_node?_eq (h : Agrees π u g' g a) (hnode : g₁.node? (π a) = g.node? (π a))
    (hconst : ∀ {y l}, g.node? y = some (.constant l) → g₁.node? y = some (.constant l)) :
    Agrees π u g' g₁ a := by
  obtain ⟨ha, node, node', hfinal, hcopied, hmatches⟩ := h
  exact ⟨ha, node, node', hfinal, hnode.trans hcopied,
    hmatches.mono (fun _ _ h => h) fun _ _ h => h.mono hconst⟩

/-- A node that agrees with its copy has the same form, and slots that stand for those of the
copy. -/
theorem exists_matches (h : Agrees π u g' g a) (hfinal : g'.node? a = some node) :
    ∃ node', g.node? (π a) = some node' ∧
      node.Matches (fun c y => y = π c) (Stands π g' g) node' := by
  obtain ⟨-, node₁, node', hnode₁, hcopied, hmatches⟩ := h
  cases hfinal.symm.trans hnode₁
  exact ⟨node', hcopied, hmatches⟩

end Agrees

/-- What stands for a slot is the same constant, if any. -/
theorem Stands.constant_iff (h : Stands π g' g c y)
    (hagrees : ¬ g'.IsConstant c → Agrees π u g' g c) :
    g'.node? c = some (.constant l) ↔ g.node? y = some (.constant l) := by
  rcases h with ⟨hnot, rfl⟩ | ⟨l', hc, hy⟩
  · obtain ⟨-, node, node', hfinal, hcopied, hmatches⟩ := hagrees hnot
    constructor
    · exact fun hc => absurd ⟨l, hc⟩ hnot
    · intro hy
      cases hcopied.symm.trans hy
      cases hmatches
      exact hfinal
  · rw [hc, hy]

/-- What stands for a slot stands for the slots that are alike. -/
theorem SlotsAlike.stands (h : SlotsAlike π g' c d) (hd : Stands π g' g d y) : Stands π g' g c y := by
  rcases h with ⟨hc, hd', hcd⟩ | ⟨l, hc, hd'⟩
  · rcases hd with ⟨-, rfl⟩ | ⟨l, hl, -⟩
    · exact .inl ⟨hc, hcd.symm⟩
    · exact absurd ⟨l, hl⟩ hd'
  · rcases hd with ⟨hnot, -⟩ | ⟨l', hl', hy⟩
    · exact absurd ⟨l, hd'⟩ hnot
    · cases hd'.symm.trans hl'
      exact .inr ⟨l, hc, hy⟩

namespace Follows

theorem refl (g : Graph) : Follows π u g' g g :=
  ⟨fun h => h, fun _ => .inl rfl⟩

/-- What agrees goes on to agree. -/
theorem agrees (h : Follows π u g' g g₁) (ha : Agrees π u g' g a) : Agrees π u g' g₁ a := by
  rcases h.node ha.1 with hsame | hagrees
  · exact ha.of_node?_eq hsame h.constant
  · exact hagrees

/-- Following the unfolding in two stretches is following it. -/
theorem trans (h : Follows π u g' g g₁) (h' : Follows π u g' g₁ g₂) : Follows π u g' g g₂ where
  constant hy := h'.constant (h.constant hy)
  node ha := by
    rcases h'.node ha with hsame' | hagrees
    · rcases h.node ha with hsame | hagrees
      · exact .inl (hsame'.trans hsame)
      · exact .inr (hagrees.of_node?_eq hsame' h'.constant)
    · exact .inr hagrees

end Follows

/-! ## Checking copies -/

/-- Whether two slots have copies of one node, or constants with the same value. -/
def slotsAlike (π : NodeId → NodeId) (g' : Graph) (c d : NodeId) : Bool :=
  match g'.node? c, g'.node? d with
  | some (.constant l), some (.constant l') => l = l'
  | some (.constant _), _ | _, some (.constant _) => false
  | _, _ => π c = π d

/-- The test for slots that are alike decides it. -/
theorem slotsAlike_iff : slotsAlike π g' c d = true ↔ SlotsAlike π g' c d := by
  unfold slotsAlike SlotsAlike Graph.IsConstant
  split
  next => simp_all [eq_comm]
  all_goals simp_all

/-- Whether the copies of each node are alike, for a graph that is as large as the program's. -/
def copiesAlike (π : NodeId → NodeId) (u : Program) (g' : Graph) : Bool :=
  (List.range u.graph.size).all fun i => (List.range u.graph.size).all fun j =>
    π ⟨i⟩ ≠ π ⟨j⟩ || (g'.node? ⟨i⟩).any fun node => (g'.node? ⟨j⟩).any fun node' =>
      node.matchesBy (π · = π ·) (slotsAlike π g') node'

/-- The test over all pairs of nodes shows that copies are alike. -/
theorem copiesAlike_of_check (h : Unfolding π u p) (hcheck : copiesAlike π u g' = true) :
    CopiesAlike π u g' := by
  simp only [copiesAlike, List.all_eq_true, List.mem_range, Bool.or_eq_true, decide_eq_true_eq,
    Option.any_eq_true] at hcheck
  intro a b ha hb hab
  obtain ⟨_, hnode, -⟩ := h.node ha
  obtain ⟨_, hnode', -⟩ := h.node hb
  rcases hcheck _ (Graph.index_lt_of_node? hnode) _ (Graph.index_lt_of_node? hnode') with
    hne | ⟨node, hfinal, node', hfinal', hmatches⟩
  · exact absurd hab hne
  · refine ⟨node, node', hfinal, hfinal', (Node.matches_of_matchesBy hmatches).mono ?_ ?_⟩
    · exact fun c d hcd => of_decide_eq_true hcd
    · exact fun c d hcd => slotsAlike_iff.1 hcd

/-! ## Single steps -/

namespace Simplified

/-- Leaves of the simplified unfolding were there in the beginning. -/
theorem node?_of_leaf (h : Simplified π u g' p) (hc : u.Reachable c)
    (hfinal : g'.node? c = some node) (hleaf : node.isLeaf = true) :
    u.graph.node? c = some node := by
  obtain ⟨node₀, hnode₀, -⟩ := h.unfolding.node hc
  obtain ⟨node₁, hnode₁, hshape⟩ := h.rewrites.kept_shape hnode₀
  cases hfinal.symm.trans hnode₁
  have hsame := h.rewrites.leaf (by rwa [Node.isLeaf, ← hshape]) hnode₀
  cases hfinal.symm.trans hsame
  exact hnode₀

/-- A leaf is what its copies are. -/
theorem copied_leaf (h : Simplified π u g' p) (hg : Follows π u g' p.graph g) (hc : u.Reachable c)
    (hfinal : g'.node? c = some node) (hleaf : node.isLeaf = true) : g.node? (π c) = some node := by
  rcases hg.node hc with hsame | hagrees
  · rw [hsame, h.unfolding.node_of_node? hc (h.node?_of_leaf hc hfinal hleaf),
      Node.map_of_isLeaf hleaf]
  · obtain ⟨node', hcopied, hmatches⟩ := hagrees.exists_matches hfinal
    cases hmatches with
    | constant | var | debug => exact hcopied
    | _ => cases hleaf

/-- A node that is copied stands for each of its copies. -/
theorem stands_copy (h : Simplified π u g' p) (hg : Follows π u g' p.graph g) (hc : u.Reachable c) :
    Stands π g' g c (π c) := by
  by_cases hconst : g'.IsConstant c
  · obtain ⟨l, hl⟩ := hconst
    exact .inr ⟨l, hl, h.copied_leaf hg hc hl rfl⟩
  · exact .inl ⟨hconst, rfl⟩

/-- A node agrees with its copy as long as neither of them has been changed. -/
theorem agrees_of_same (h : Simplified π u g' p) (hg : Follows π u g' p.graph g) (ha : u.Reachable a)
    (hnode : u.graph.node? a = some node) (hfinal : g'.node? a = some node)
    (hsame : g.node? (π a) = p.graph.node? (π a)) : Agrees π u g' g a := by
  refine ⟨ha, node, node.map π, hfinal, hsame.trans (h.unfolding.node_of_node? ha hnode), ?_⟩
  refine (node.matches_map π).mono (fun _ _ h => h) ?_
  rintro c y ⟨hc, rfl⟩
  exact h.stands_copy hg (ha.child ⟨node, hnode, hc⟩)

/-- Leaves are never rewritten, so they agree with their copies throughout. -/
theorem agrees_of_leaf (h : Simplified π u g' p) (hg : Follows π u g' p.graph g) (ha : u.Reachable a)
    (hnode : u.graph.node? a = some node) (hleaf : node.isLeaf = true) : Agrees π u g' g a := by
  rcases hg.node ha with hsame | hagrees
  · exact h.agrees_of_same hg ha hnode (h.rewrites.leaf hleaf hnode) hsame
  · exact hagrees

/-- A node has the form that its copies have in the end. -/
theorem exists_shape_eq (h : Simplified π u g' p) (hg : Follows π u g' p.graph g)
    (ha : u.Reachable a) (hfinal : g'.node? a = some node) :
    ∃ node', g.node? (π a) = some node' ∧ node'.shape = node.shape := by
  rcases hg.node ha with hsame | hagrees
  · obtain ⟨node₀, hnode₀, hmap⟩ := h.unfolding.node ha
    obtain ⟨node₁, hnode₁, hshape⟩ := h.rewrites.kept_shape hnode₀
    cases hfinal.symm.trans hnode₁
    exact ⟨_, hsame.trans hmap, by rw [Node.shape_map, hshape]⟩
  · obtain ⟨node', hcopied, hmatches⟩ := hagrees.exists_matches hfinal
    exact ⟨node', hcopied, hmatches.shape_eq⟩

/-- A constant that is added leaves all other nodes as they are. -/
theorem follows_add (h : Simplified π u g' p) (hg : Follows π u g' p.graph g)
    (hadd : g.add (.constant l) = .ok (y, g₁)) :
    Follows π u g' g g₁ ∧ g₁.node? y = some (.constant l) := by
  obtain ⟨hr, hnew⟩ := Rewrites.add (S := fun _ => False) hadd
  refine ⟨⟨hr.leaf rfl, fun ha => .inl ?_⟩, hnew⟩
  obtain ⟨node, hnode, -⟩ := h.unfolding.node ha
  obtain ⟨node₁, hfinal, -⟩ := h.rewrites.kept hnode
  obtain ⟨node', hcopied, -⟩ := h.exists_shape_eq hg ha hfinal
  rw [hr.off (fun h => h) hcopied, hcopied]

/-- A node that is exchanged for what its copies are in the end agrees with all of them. -/
theorem follows_update (h : Simplified π u g' p) {s t : Propagation} {old new : Node}
    (hs : Follows π u g' p.graph s.graph)
    (hrun : (PropagateM.update (π a) old new).run s = .ok () t) (ha : u.Reachable a)
    (hfinal : g'.node? a = some node) (hleaf : node.isLeaf = false)
    (hold : s.graph.node? (π a) = some old ∨ Agrees π u g' s.graph a)
    (hmatches : node.Matches (fun c y => y = π c) (Stands π g' s.graph) new) :
    Follows π u g' s.graph t.graph ∧ Agrees π u g' t.graph a ∧ t.knowledge = s.knowledge := by
  rcases PropagateM.run_update_ok hrun with ⟨rfl, rfl⟩ | ⟨g₁, hreplace, rfl⟩
  · refine ⟨.refl _, ?_, rfl⟩
    rcases hold with hold | hagrees
    · exact ⟨ha, node, new, hfinal, hold, hmatches⟩
    · exact hagrees
  · have hnodes := Graph.node?_replace hreplace
    have hconst : ∀ {y l}, s.graph.node? y = some (.constant l) →
        g₁.node? y = some (.constant l) := by
      intro y l hy
      rw [hnodes, if_neg, hy]
      rintro rfl
      obtain ⟨node', hcopied, hshape⟩ := h.exists_shape_eq hs ha hfinal
      cases hy.symm.trans hcopied
      rw [Node.isLeaf, ← hshape] at hleaf
      cases hleaf
    -- the node is shared by all its copies, and these are alike in the end
    have hagrees : ∀ b, u.Reachable b → π b = π a → Agrees π u g' g₁ b := by
      intro b hb hba
      obtain ⟨nodeB, nodeA, hfinalB, hfinalA, halike⟩ := h.alike b a hb ha hba
      cases hfinal.symm.trans hfinalA
      refine ⟨hb, nodeB, new, hfinalB, by rw [hnodes, if_pos hba], halike.trans hmatches ?_ ?_⟩
      · rintro c d y hcd rfl
        exact hcd.symm
      · exact fun c d y hcd hy => (hcd.stands hy).mono hconst
    refine ⟨⟨hconst, fun {b} hb => ?_⟩, hagrees a ha rfl, rfl⟩
    by_cases hba : π b = π a
    · exact .inr (hagrees b hb hba)
    · exact .inl (by rw [hnodes, if_neg hba])

/-- A node is as it was in the beginning, or as its copies are in the end. -/
theorem exists_node (h : Simplified π u g' p) (hg : Follows π u g' p.graph g) (ha : u.Reachable a)
    {node₀ : Node} (hnode : u.graph.node? a = some node₀) (hfinal : g'.node? a = some node) :
    ∃ node', g.node? (π a) = some node' ∧
      (node' = node₀.map π ∨ node.Matches (fun c y => y = π c) (Stands π g' g) node') := by
  rcases hg.node ha with hsame | hagrees
  · exact ⟨_, hsame.trans (h.unfolding.node_of_node? ha hnode), .inl rfl⟩
  · obtain ⟨node', hcopied, hmatches⟩ := hagrees.exists_matches hfinal
    exact ⟨node', hcopied, .inr hmatches⟩

end Simplified

/-! ## Slots -/

/-- The slots of a node before it is changed. -/
theorem slots_map {R : NodeId → NodeId → Prop} {ids ids' : List NodeId} (h : List.Forall₂ R ids ids') :
    List.Forall₂ (fun e y => Slot π g' g e.1 e.2 y) (ids.zip ids') (ids.map π) := by
  induction h with
  | nil => exact .nil
  | cons _ _ ih => exact .cons (.inl rfl) ih

/-- The slots of a node when it has been changed. -/
theorem slots_of_stands {k k' : Knowledge} {f : NameMap NameSet} {ids ids' ys : List NodeId}
    (htrace : u.graph.ExprTrace g' f k ids k' ids')
    (hstands : List.Forall₂ (Stands π g' g) ids' ys) :
    List.Forall₂ (fun e y => Slot π g' g e.1 e.2 y) (ids.zip ids') ys := by
  have hslots := htrace.slots
  clear htrace
  induction hslots generalizing ys with
  | nil =>
    cases hstands
    exact .nil
  | cons hc _ ih =>
    cases hstands with
    | cons hy hrest =>
      refine .cons ?_ (ih hrest)
      rcases hy with ⟨hnot, rfl⟩ | hconst
      · rcases hc with rfl | hconst
        · exact .inl rfl
        · exact absurd hconst hnot
      · exact .inr hconst

/-! ## Evaluables -/

/-- Simplifying evaluables has followed the unfolding: what is used in their place stands for what
is used there, and agrees with it all the way down. -/
structure ExprMirror (π : NodeId → NodeId) (u : Program) (g' : Graph) (ids ys : List NodeId)
    (g g₁ : Graph) : Prop where
  follows : Follows π u g' g g₁
  stands : List.Forall₂ (Stands π g' g₁) ids ys
  roots : ∀ c ∈ ids, ¬ g'.IsConstant c → Agrees π u g' g₁ c
  trees : ∀ c ∈ ids, ∀ e, g'.ExprAt (fun _ => True) c e → g'.ExprAt (Agrees π u g' g₁) c e

namespace ExprMirror

variable {ids ys : List NodeId}

theorem nil (g : Graph) : ExprMirror π u g' [] [] g g :=
  ⟨.refl g, .nil, nofun, nofun⟩

/-- What has followed the unfolding still has after more of it was followed. -/
theorem mono (h : ExprMirror π u g' ids ys g g₁) (h' : Follows π u g' g₁ g₂) :
    ExprMirror π u g' ids ys g g₂ where
  follows := h.follows.trans h'
  stands := h.stands.imp fun _ _ hy => hy.mono h'.constant
  roots c hc hnot := h'.agrees (h.roots c hc hnot)
  trees c hc e he := (h.trees c hc e he).mono fun _ => h'.agrees

/-- An evaluable and the others behind it have followed the unfolding if both have. -/
theorem cons (h : ExprMirror π u g' [c] [y] g g₁) (h' : ExprMirror π u g' ids ys g₁ g₂) :
    ExprMirror π u g' (c :: ids) (y :: ys) g g₂ := by
  have hfirst := h.mono h'.follows
  refine ⟨hfirst.follows, .cons (List.forall₂_cons.1 hfirst.stands).1 h'.stands, ?_, ?_⟩
  · exact List.forall_mem_cons.2 ⟨hfirst.roots c List.mem_cons_self, h'.roots⟩
  · exact List.forall_mem_cons.2 ⟨hfirst.trees c List.mem_cons_self, h'.trees⟩

/-- A constant in the place of an evaluable. -/
theorem constant (hfollows : Follows π u g' g g₁) (hc : g'.node? c = some (.constant l))
    (hy : g₁.node? y = some (.constant l)) : ExprMirror π u g' [c] [y] g g₁ where
  follows := hfollows
  stands := .cons (.inr ⟨l, hc, hy⟩) .nil
  roots := by simpa using fun hnot => absurd ⟨l, hc⟩ hnot
  trees := by
    simp only [List.mem_singleton, forall_eq]
    intro e he
    cases he with
    | const node => exact .const node
    | var node | arith node => cases hc.symm.trans node

/-- An evaluable that is used in its own place. -/
theorem of_agrees (hfollows : Follows π u g' g g₁) (hagrees : Agrees π u g' g₁ c)
    (hnot : ¬ g'.IsConstant c)
    (htrees : ∀ e, g'.ExprAt (fun _ => True) c e → g'.ExprAt (Agrees π u g' g₁) c e) :
    ExprMirror π u g' [c] [π c] g g₁ where
  follows := hfollows
  stands := .cons (.inl ⟨hnot, rfl⟩) .nil
  roots := by simpa using fun _ => hagrees
  trees := by simpa using htrees

/-- What is used in the place of two evaluables is the same constant, if any. -/
theorem constant_iff (h : ExprMirror π u g' ids ys g g₁) :
    List.Forall₂ (fun c y => ∀ l, g'.node? c = some (.constant l) ↔ g₁.node? y = some (.constant l))
      ids ys := by
  refine ((List.forall₂_and_left _ _).2 ⟨fun c hc => h.roots c hc, h.stands⟩).imp ?_
  rintro c y ⟨hagrees, hstands⟩ l
  exact hstands.constant_iff hagrees

end ExprMirror

/-- Evaluables of the program are simplified as those of the unfolding are, whatever has been made
of their nodes before. -/
def MirrorsExprs (π : NodeId → NodeId) (u p : Program) (g' : Graph) (f : NameMap NameSet)
    (k : Knowledge) (ids : List NodeId) (k' : Knowledge) (ids' : List NodeId) : Prop :=
  ∀ depth ys ys' s t, (ys.mapM (PropagateM.expr depth)).run s = .ok ys' t →
    List.Forall₂ (fun e y => Slot π g' s.graph e.1 e.2 y) (ids.zip ids') ys →
    Follows π u g' p.graph s.graph → s.knowledge = k → s.functions = f →
      ExprMirror π u g' ids' ys' s.graph t.graph ∧ t.knowledge = k'

/-- An evaluable of the program is simplified as that of the unfolding is. -/
def MirrorsExpr (π : NodeId → NodeId) (u p : Program) (g' : Graph) (f : NameMap NameSet)
    (k : Knowledge) (c : NodeId) (k' : Knowledge) (c' : NodeId) : Prop :=
  ∀ depth y y' s t, (PropagateM.expr (depth + 1) y).run s = .ok y' t → Slot π g' s.graph c c' y →
    Follows π u g' p.graph s.graph → s.knowledge = k → s.functions = f →
      ExprMirror π u g' [c'] [y'] s.graph t.graph ∧ t.knowledge = k'

variable {f : NameMap NameSet} {k k' k₁ : Knowledge} {ids ids' : List NodeId} {s t : Propagation}
  {depth : Nat}

/-- Evaluables are simplified as those of the unfolding are if the first one and the others are. -/
theorem MirrorsExpr.cons (h : MirrorsExpr π u p g' f k c k₁ c')
    (hrest : MirrorsExprs π u p g' f k₁ ids k' ids') :
    MirrorsExprs π u p g' f k (c :: ids) k' (c' :: ids') := by
  intro depth ys ys' s t hrun hslots hs hk hf
  cases hslots with
  | cons hslot hslots =>
    obtain ⟨y', s₁, rest, hy, hys, rfl⟩ := run_mapM_cons_eq_ok.1 hrun
    cases depth with
    | zero => cases hy
    | succ depth =>
      obtain ⟨hfirst, hk₁⟩ := h _ _ _ _ _ hy hslot hs hk hf
      obtain ⟨hmirror, hk'⟩ := hrest _ _ _ _ _ hys
        (hslots.imp fun _ _ hslot => hslot.mono hfirst.follows.constant) (hs.trans hfirst.follows) hk₁
        ((PropagateM.expr_functions hy).trans hf)
      exact ⟨hfirst.cons hmirror, hk'⟩

namespace Simplified

/-- A slot that has its constant already stays. -/
theorem mirror_constant {y' : NodeId} (hrun : (PropagateM.expr (depth + 1) y).run s = .ok y' t)
    (hc : g'.node? c = some (.constant l)) (hy : s.graph.node? y = some (.constant l)) :
    ExprMirror π u g' [c] [y'] s.graph t.graph ∧ t.knowledge = s.knowledge := by
  cases PropagateM.run_expr_ok hrun with
  | constant => exact ⟨.constant (.refl _) hc hy, rfl⟩
  | unknown hnode | known hnode | arithmetic hnode | call hnode => cases hy.symm.trans hnode

/-- When the slots of a node have been simplified as those of its copy, and the node has been
exchanged, it agrees with the copy. -/
theorem slots_mirrored (h : Simplified π u g' p) (hslots : MirrorsExprs π u p g' f k ids k' ids')
    {ys ys' : List NodeId} {old new : Node} {s₁ : Propagation}
    (hrun : (ys.mapM (PropagateM.expr depth)).run s = .ok ys' s₁)
    (hupdate : (PropagateM.update (π a) old new).run s₁ = .ok () t) (ha : u.Reachable a)
    (hold : s.graph.node? (π a) = some old) (hfinal : g'.node? a = some node)
    (hleaf : node.isLeaf = false)
    (hys : List.Forall₂ (fun e y => Slot π g' s.graph e.1 e.2 y) (ids.zip ids') ys)
    (hmatches : ∀ {C : NodeId → NodeId → Prop}, List.Forall₂ C ids' ys' →
      node.Matches (fun c y => y = π c) C new)
    (hs : Follows π u g' p.graph s.graph) (hk : s.knowledge = k) (hf : s.functions = f) :
    ExprMirror π u g' ids' ys' s.graph t.graph ∧ Agrees π u g' t.graph a ∧ t.knowledge = k' ∧
      t.functions = f := by
  obtain ⟨hmirror, hk'⟩ := hslots _ _ _ _ _ hrun hys hs hk hf
  -- were the node exchanged meanwhile, it would agree already
  have hold₁ : s₁.graph.node? (π a) = some old ∨ Agrees π u g' s₁.graph a :=
    (hmirror.follows.node ha).imp_left fun hsame => hsame.trans hold
  obtain ⟨hfollows, hagrees, hk₁⟩ := h.follows_update (hs.trans hmirror.follows) hupdate ha hfinal
    hleaf hold₁ (hmatches hmirror.stands)
  have hf₁ := PropagateM.mapM_functions (fun _ _ _ _ => PropagateM.expr_functions) hrun
  have hf' := PropagateM.run_update_functions hupdate
  exact ⟨hmirror.mono hfollows, hagrees, hk₁.trans hk', (hf'.trans hf₁).trans hf⟩

/-- A constant stays in the program as in the unfolding. -/
theorem constant_mirrored (h : Simplified π u g' p) (hc : u.Reachable c)
    (node : u.graph.node? c = some (.constant l)) : MirrorsExpr π u p g' f k c k c := by
  intro depth y y' s t hrun hslot hs hk hf
  have hfinal := h.rewrites.leaf rfl node
  have hy : s.graph.node? y = some (.constant l) := by
    rcases hslot with rfl | ⟨l', hl', hy⟩
    · exact h.copied_leaf hs hc hfinal rfl
    · cases hfinal.symm.trans hl'
      exact hy
  obtain ⟨hmirror, hk'⟩ := mirror_constant hrun hfinal hy
  exact ⟨hmirror, hk'.trans hk⟩

/-- A variable that is not known stays in the program as in the unfolding. -/
theorem unknown_mirrored (h : Simplified π u g' p) (hc : u.Reachable c) {v : Variable}
    (node : u.graph.node? c = some (.var v)) (lookup : k.lookup v.name = none) :
    MirrorsExpr π u p g' f k c k c := by
  have hfinal := h.rewrites.leaf rfl node
  rintro depth y y' s t hrun (rfl | ⟨l, hl, -⟩) hs rfl hf
  · have hnode := h.copied_leaf hs hc hfinal rfl
    cases PropagateM.run_expr_ok hrun with
    | unknown =>
      refine ⟨.of_agrees (.refl _) (h.agrees_of_leaf hs hc node rfl) ?_ fun e he => ?_, rfl⟩
      · rintro ⟨l, hl⟩
        cases hfinal.symm.trans hl
      · cases he with
        | var node' kind => exact .var node' kind
        | const node' | arith node' => cases hfinal.symm.trans node'
    | known hnode' hlookup =>
      cases hnode.symm.trans hnode'
      cases lookup.symm.trans hlookup
    | constant hnode' | arithmetic hnode' | call hnode' => cases hnode.symm.trans hnode'
  · cases hl.symm.trans hfinal

/-- A variable that is known becomes the same constant in both. -/
theorem known_mirrored (h : Simplified π u g' p) (hc : u.Reachable c) {v : Variable}
    (node : u.graph.node? c = some (.var v)) (lookup : k.lookup v.name = some l)
    (new : g'.node? c' = some (.constant l)) : MirrorsExpr π u p g' f k c k c' := by
  rintro depth y y' s t hrun (rfl | ⟨l', hl', hy⟩) hs rfl hf
  · have hnode := h.copied_leaf hs hc (h.rewrites.leaf rfl node) rfl
    cases PropagateM.run_expr_ok hrun with
    | known hnode' hlookup hadd =>
      cases hnode.symm.trans hnode'
      cases lookup.symm.trans hlookup
      obtain ⟨hfollows, hy'⟩ := h.follows_add hs hadd
      exact ⟨.constant hfollows new hy', rfl⟩
    | unknown hnode' hlookup =>
      cases hnode.symm.trans hnode'
      cases lookup.symm.trans hlookup
    | constant hnode' | arithmetic hnode' | call hnode' => cases hnode.symm.trans hnode'
  · exact mirror_constant hrun hl' hy

/-- The operands of a shared operation are simplified as those of its copy are. -/
theorem arithmetic_mirrored (h : Simplified π u g' p) {op : ArithOp}
    {lhs rhs left right y' : NodeId} (ha : u.Reachable a)
    (node : u.graph.node? a = some (.arithmetic op lhs rhs))
    (final : g'.node? a = some (.arithmetic op left right))
    (operands : u.graph.ExprTrace g' f k [lhs, rhs] k₁ [left, right])
    (ih : MirrorsExprs π u p g' f k [lhs, rhs] k₁ [left, right])
    (hrun : (PropagateM.expr (depth + 1) (π a)).run s = .ok y' t)
    (hs : Follows π u g' p.graph s.graph) (hk : s.knowledge = k) (hf : s.functions = f) :
    ∃ left' right' s₁, ExprMirror π u g' [left, right] [left', right'] s.graph s₁.graph ∧
      Agrees π u g' s₁.graph a ∧ s₁.knowledge = k₁ ∧
      (PropagateM.collapse (π a) op left' right').run s₁ = .ok y' t := by
  have hnode : ∃ y z, s.graph.node? (π a) = some (.arithmetic op y z) ∧
      List.Forall₂ (fun e y => Slot π g' s.graph e.1 e.2 y) ([lhs, rhs].zip [left, right]) [y, z] := by
    obtain ⟨node', hnode', rfl | hmatches⟩ := h.exists_node hs ha node final
    · exact ⟨_, _, hnode', slots_map operands.slots⟩
    · cases hmatches with
      | arithmetic hleft hright =>
        exact ⟨_, _, hnode', slots_of_stands operands
          (.cons hleft (.cons hright .nil))⟩
  obtain ⟨y, z, hnode, hslots⟩ := hnode
  cases PropagateM.run_expr_ok hrun with
  | arithmetic hnode' hleft hright hupdate hcollapse =>
    cases hnode.symm.trans hnode'
    obtain ⟨hmirror, hagrees, hk₁, -⟩ := h.slots_mirrored ih (PropagateM.run_mapM_pair hleft hright)
      hupdate ha hnode final rfl hslots (fun | .cons hl (.cons hr .nil) => .arithmetic hl hr) hs hk hf
    exact ⟨_, _, _, hmirror, hagrees, hk₁, hcollapse⟩
  | constant hnode' | unknown hnode' | known hnode' | call hnode' => cases hnode.symm.trans hnode'

/-- An operation that is computed in the unfolding is computed in the program, as its operands
become the same constants. -/
theorem computed_mirrored (h : Simplified π u g' p) {op : ArithOp}
    {lhs rhs left right : NodeId} {v w : Int64} (hc : u.Reachable c)
    (node : u.graph.node? c = some (.arithmetic op lhs rhs))
    (operands : u.graph.ExprTrace g' f k [lhs, rhs] k₁ [left, right])
    (final : g'.node? c = some (.arithmetic op left right))
    (hleft : g'.node? left = some (.constant (.scalar v)))
    (hright : g'.node? right = some (.constant (.scalar w)))
    (new : g'.node? c' = some (.constant (.scalar (op.apply v w))))
    (ih : MirrorsExprs π u p g' f k [lhs, rhs] k₁ [left, right]) :
    MirrorsExpr π u p g' f k c k₁ c' := by
  rintro depth y y' s t hrun (rfl | ⟨l, hl, hy⟩) hs hk hf
  · obtain ⟨left', right', s₁, hmirror, -, hk₁, hcollapse⟩ :=
      h.arithmetic_mirrored hc node final operands ih hrun hs hk hf
    obtain ⟨hl, hr⟩ : (∀ l, _) ∧ (∀ l, _) := by simpa using hmirror.constant_iff
    have hs₁ := hs.trans hmirror.follows
    rcases PropagateM.run_collapse_ok hcollapse with
      ⟨v', w', g, hv, hw, hadd, rfl, hk', -⟩ | ⟨hnot, -, -⟩
    · cases hleft.symm.trans ((hl _).2 hv)
      cases hright.symm.trans ((hr _).2 hw)
      obtain ⟨hfollows, hy'⟩ := h.follows_add hs₁ hadd
      exact ⟨.constant (hmirror.follows.trans hfollows) new hy', hk'.trans hk₁⟩
    · exact absurd ⟨⟨_, (hl _).1 hleft⟩, ⟨_, (hr _).1 hright⟩⟩ hnot
  · -- the slot has been filled for another use; the operation has no call that could forget a value
    obtain ⟨hmirror, hk'⟩ := mirror_constant hrun hl hy
    have hk₁ := operands.knowledge_eq (by simp [Graph.IsConstant, hleft, hright])
    exact ⟨hmirror, (hk'.trans hk).trans hk₁.symm⟩

/-- An operation that stays in the unfolding stays in the program, as its operands do not both
become constants. -/
theorem stuck_mirrored (h : Simplified π u g' p) {op : ArithOp} {lhs rhs left right : NodeId}
    (hc : u.Reachable c) (node : u.graph.node? c = some (.arithmetic op lhs rhs))
    (operands : u.graph.ExprTrace g' f k [lhs, rhs] k₁ [left, right])
    (final : g'.node? c = some (.arithmetic op left right))
    (stuck : ¬ (g'.IsConstant left ∧ g'.IsConstant right))
    (ih : MirrorsExprs π u p g' f k [lhs, rhs] k₁ [left, right]) :
    MirrorsExpr π u p g' f k c k₁ c := by
  rintro depth y y' s t hrun (rfl | ⟨l, hl, -⟩) hs hk hf
  · obtain ⟨left', right', s₁, hmirror, hagrees, hk₁, hcollapse⟩ :=
      h.arithmetic_mirrored hc node final operands ih hrun hs hk hf
    obtain ⟨hl, hr⟩ : (∀ l, _) ∧ (∀ l, _) := by simpa using hmirror.constant_iff
    rcases PropagateM.run_collapse_ok hcollapse with ⟨v, w, g, hv, hw, -⟩ | ⟨-, rfl, rfl⟩
    · exact absurd ⟨⟨_, (hl _).2 hv⟩, ⟨_, (hr _).2 hw⟩⟩ stuck
    · refine ⟨.of_agrees hmirror.follows hagrees ?_ fun e he => ?_, hk₁⟩
      · rintro ⟨l, hl⟩
        cases final.symm.trans hl
      cases he with
      | arith node' _ hleft hright =>
        cases final.symm.trans node'
        exact .arith final hagrees (hmirror.trees _ (by simp) _ hleft)
          (hmirror.trees _ (by simp) _ hright)
      | const node' | var node' => cases final.symm.trans node'
  · cases hl.symm.trans final

/-- A call stays in both, with the same arguments, and makes the same names unknown. -/
theorem call_mirrored (h : Simplified π u g' p) {name : String} {args args' : List NodeId}
    {returns : Kind} (hc : u.Reachable c) (node : u.graph.node? c = some (.call name args returns))
    (hargs : u.graph.ExprTrace g' f k args k₁ args')
    (final : g'.node? c = some (.call name args' returns))
    (ih : MirrorsExprs π u p g' f k args k₁ args') :
    MirrorsExpr π u p g' f k c (k₁.behindCall f[name]?) c := by
  rintro depth y y' s t hrun (rfl | ⟨l, hl, -⟩) hs hk hf
  · have hnode : ∃ ys, s.graph.node? (π c) = some (.call name ys returns) ∧
        List.Forall₂ (fun e y => Slot π g' s.graph e.1 e.2 y) (args.zip args') ys := by
      obtain ⟨node', hnode', rfl | hmatches⟩ := h.exists_node hs hc node final
      · exact ⟨_, hnode', slots_map hargs.slots⟩
      · cases hmatches with
        | call hstands => exact ⟨_, hnode', slots_of_stands hargs hstands⟩
    obtain ⟨ys, hnode, hslots⟩ := hnode
    cases PropagateM.run_expr_ok hrun with
    | @call _ _ _ _ s₁ s₂ hnode' hrun' hupdate =>
      cases hnode.symm.trans hnode'
      obtain ⟨hmirror, hagrees, hk₁, hf₂⟩ :=
        h.slots_mirrored ih hrun' hupdate hc hnode final rfl hslots .call hs hk hf
      refine ⟨.of_agrees hmirror.follows hagrees ?_ fun e he => ?_, by rw [← hk₁, ← hf₂]⟩
      · rintro ⟨l, hl⟩
        cases final.symm.trans hl
      cases he with
      | const node' | var node' | arith node' => cases final.symm.trans node'
    | constant hnode' | unknown hnode' | known hnode' | arithmetic hnode' =>
      cases hnode.symm.trans hnode'
  · cases hl.symm.trans final

/-- Evaluables of the program are simplified along the trace of the unfolding. -/
theorem exprs_mirrored (h : Simplified π u g' p) (htrace : u.graph.ExprTrace g' f k ids k' ids')
    (hids : ∀ c ∈ ids, u.Reachable c) : MirrorsExprs π u p g' f k ids k' ids' := by
  induction htrace with
  | nil =>
    intro depth ys ys' s t hrun hslots hs hk hf
    cases hslots
    cases hrun
    exact ⟨.nil _, hk⟩
  | constant node _ ih =>
    obtain ⟨hc, hrest⟩ := List.forall_mem_cons.1 hids
    exact (h.constant_mirrored hc node).cons (ih hrest)
  | unknown node lookup _ ih =>
    obtain ⟨hc, hrest⟩ := List.forall_mem_cons.1 hids
    exact (h.unknown_mirrored hc node lookup).cons (ih hrest)
  | known node lookup new _ ih =>
    obtain ⟨hc, hrest⟩ := List.forall_mem_cons.1 hids
    exact (h.known_mirrored hc node lookup new).cons (ih hrest)
  | computed node operands final hleft hright new _ ihoperands ih =>
    obtain ⟨hc, hrest⟩ := List.forall_mem_cons.1 hids
    have hoperands := ihoperands fun c hc' => hc.child ⟨_, node, hc'⟩
    exact (h.computed_mirrored hc node operands final hleft hright new hoperands).cons (ih hrest)
  | arithmetic node operands final stuck _ ihoperands ih =>
    obtain ⟨hc, hrest⟩ := List.forall_mem_cons.1 hids
    have hoperands := ihoperands fun c hc' => hc.child ⟨_, node, hc'⟩
    exact (h.stuck_mirrored hc node operands final stuck hoperands).cons (ih hrest)
  | call node hargs final _ ihargs ih =>
    obtain ⟨hc, hrest⟩ := List.forall_mem_cons.1 hids
    have hargs' := ihargs fun c hc' => hc.child ⟨_, node, hc'⟩
    exact (h.call_mirrored hc node hargs final hargs').cons (ih hrest)

/-- A comparison of the program is simplified along the trace of the unfolding. -/
theorem condition_mirrored (h : Simplified π u g' p) (htrace : u.graph.TestTrace g' f k c k')
    (hc : u.Reachable c) (hrun : (PropagateM.condition depth (π c)).run s = .ok () t)
    (hs : Follows π u g' p.graph s.graph) (hk : s.knowledge = k) (hf : s.functions = f) :
    Follows π u g' s.graph t.graph ∧ t.knowledge = k' ∧ t.functions = f ∧
      ∀ e, g'.TestAt (fun _ => True) c e → g'.TestAt (Agrees π u g' t.graph) c e := by
  obtain ⟨op, lhs, rhs, left, right, node, operands, final⟩ := htrace
  have hnode : ∃ y z, s.graph.node? (π c) = some (.comparison op y z) ∧
      List.Forall₂ (fun e y => Slot π g' s.graph e.1 e.2 y) ([lhs, rhs].zip [left, right]) [y, z] := by
    obtain ⟨node', hnode', rfl | hmatches⟩ := h.exists_node hs hc node final
    · exact ⟨_, _, hnode', slots_map operands.slots⟩
    · cases hmatches with
      | comparison hleft hright =>
        exact ⟨_, _, hnode', slots_of_stands operands
          (.cons hleft (.cons hright .nil))⟩
  obtain ⟨y, z, hnode, hslots⟩ := hnode
  obtain ⟨_, _, _, _, _, s₁, s₂, hnode', hleft, hright, hupdate⟩ := PropagateM.run_condition_ok hrun
  cases hnode.symm.trans hnode'
  have hoperands := h.exprs_mirrored operands fun c' hc' => hc.child ⟨_, node, hc'⟩
  obtain ⟨hmirror, hagrees, hk', hf'⟩ := h.slots_mirrored hoperands
    (PropagateM.run_mapM_pair hleft hright) hupdate hc hnode final rfl hslots
    (fun | .cons hl (.cons hr .nil) => .comparison hl hr) hs hk hf
  refine ⟨hmirror.follows, hk', hf', fun e he => ⟨hagrees, ?_⟩⟩
  obtain ⟨-, lhs', rhs', node', hl, hr⟩ := he
  cases final.symm.trans node'
  exact ⟨left, right, node', hmirror.trees _ (by simp) _ hl, hmirror.trees _ (by simp) _ hr⟩

end Simplified

end Unfolding

end RegisterBackend
