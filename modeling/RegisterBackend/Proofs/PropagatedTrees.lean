import RegisterBackend.Proofs.GraphTrees
import RegisterBackend.Proofs.KnowledgeFrames
import RegisterBackend.Proofs.PropagationSteps
import RegisterBackend.Proofs.Unshared

/-!
# The trees that constant propagation leaves

Constant propagation rewrites a graph while it walks through it. In a program without sharing it
comes to every node once, and what it has rewritten is not below the nodes that it has still to come
to. So a part of the graph is as it was in the beginning until the walk comes to it
(`Graph.Untouched`), and what the walk leaves of it stays. The tree of the part can therefore be
followed from beginning to end: `PropagateM.block_folds` says that the tree of a list of statements
is folded by what is known.
-/

namespace RegisterBackend

namespace Graph

variable {g g' g₀ : Graph} {ids ids' : List NodeId} {id n : NodeId} {node : Node}

/-- The node can be reached from one of the listed ones. -/
def Under (g : Graph) (ids : List NodeId) (n : NodeId) : Prop :=
  ∃ id ∈ ids, g.Reaches id n

theorem Under.mono (hsub : ids ⊆ ids') (h : g.Under ids n) : g.Under ids' n := by
  obtain ⟨id, hid, hn⟩ := h
  exact ⟨id, hsub hid, hn⟩

/-- What is below the references of a node is below the node. -/
theorem Under.of_children (hid : id ∈ ids) (hnode : g.node? id = some node)
    (h : g.Under node.children n) : g.Under ids n := by
  obtain ⟨c, hc, hn⟩ := h
  exact ⟨id, hid, .head ⟨node, hnode, hc⟩ hn⟩

theorem under_self (hid : id ∈ ids) : g.Under ids id :=
  ⟨id, hid, .refl⟩

/-! The nodes of a tree are below its root. -/

/-- The tree of an evaluable consists of nodes below it. -/
theorem ExprAt.under {S : NodeId → Prop} {e : Expr} (h : g.ExprAt S id e) :
    g.ExprAt (g.Under [id]) id e := by
  induction h with
  | const node => exact .const node
  | var node kind => exact .var node kind
  | @arith id op lhs rhs a b node _ _ _ ihl ihr =>
    have hsub : ∀ n, g.Under [lhs, rhs] n → g.Under [id] n :=
      fun _ => .of_children List.mem_cons_self node
    exact .arith node (under_self List.mem_cons_self)
      (ihl.mono fun n h => hsub n (h.mono (by simp)))
      (ihr.mono fun n h => hsub n (h.mono (by simp)))

/-- The tree of a comparison consists of nodes below it. -/
theorem TestAt.under {S : NodeId → Prop} {t : Test} (h : g.TestAt S id t) :
    g.TestAt (g.Under [id]) id t := by
  obtain ⟨-, lhs, rhs, node, hl, hr⟩ := h
  have hsub : ∀ n, g.Under [lhs, rhs] n → g.Under [id] n :=
    fun _ => .of_children List.mem_cons_self node
  exact ⟨under_self List.mem_cons_self, lhs, rhs, node,
    hl.under.mono fun n h => hsub n (h.mono (by simp)),
    hr.under.mono fun n h => hsub n (h.mono (by simp))⟩

/-- The tree of a block consists of nodes below its statements. -/
theorem BlockAt.under {S : NodeId → Prop} {c : Command} (h : g.BlockAt S ids c) :
    g.BlockAt (g.Under ids) ids c := by
  induction h with
  | nil => exact .nil
  | @assign id ids target value x e c node _ htarget hvalue _ ih =>
    have hsub : ∀ n, g.Under [target, value] n → g.Under (id :: ids) n :=
      fun _ => .of_children List.mem_cons_self node
    exact .assign node (under_self List.mem_cons_self) htarget
      (hvalue.under.mono fun n h => hsub n (h.mono (by simp)))
      (ih.mono fun _ => .mono (by simp))
  | @ifElse id ids cond thenBlock elseBlock t a b c node _ test _ _ _ iha ihb ih =>
    have hsub : ∀ n, g.Under (cond :: (thenBlock ++ elseBlock)) n → g.Under (id :: ids) n :=
      fun _ => .of_children List.mem_cons_self node
    exact .ifElse node (under_self List.mem_cons_self)
      (test.under.mono fun n h => hsub n (h.mono (by simp)))
      (iha.mono fun n h => hsub n (h.mono (by simp)))
      (ihb.mono fun n h => hsub n (h.mono (by simp))) (ih.mono fun _ => .mono (by simp))
  | @whileLoop id ids cond body t b c node _ test _ _ ihb ih =>
    have hsub : ∀ n, g.Under (cond :: body) n → g.Under (id :: ids) n :=
      fun _ => .of_children List.mem_cons_self node
    exact .whileLoop node (under_self List.mem_cons_self)
      (test.under.mono fun n h => hsub n (h.mono (by simp)))
      (ihb.mono fun n h => hsub n (h.mono (by simp))) (ih.mono fun _ => .mono (by simp))
  | functionDef node _ _ ih =>
    exact .functionDef node (under_self List.mem_cons_self) (ih.mono fun _ => .mono (by simp))
  | debug node _ ih => exact .debug node (ih.mono fun _ => .mono (by simp))

namespace Separated

/-- What is below two lists that stand apart is a leaf. -/
theorem isLeaf (h : g.Separated (ids ++ ids')) (hn : g.Under ids n) (hn' : g.Under ids' n)
    (hnode : g.node? n = some node) : node.isLeaf = true := by
  obtain ⟨a, ha, han⟩ := hn
  obtain ⟨b, hb, hbn⟩ := hn'
  exact (List.pairwise_append.1 h.apart).2.2 a ha b hb n node han hbn hnode

theorem not_under_children (h : g.Separated ids) (hid : id ∈ ids) (hnode : g.node? id = some node) :
    ¬ g.Under node.children id :=
  fun ⟨_, hc, hback⟩ => h.not_reaches hid hnode hc hback

/-- Rewriting one part of a graph keeps the other. -/
theorem keeps (h : g₀.Separated (ids ++ ids')) (hg : Rewrites (fun _ => True) g₀ g)
    (hr : Rewrites (g₀.Under ids') g g') : Keeps (g₀.Under ids) g g' := by
  intro n node hn hnode
  by_cases hleaf : node.isLeaf = true
  · exact hr.leaf hleaf hnode
  refine hr.off (fun hn' => hleaf ?_) hnode
  cases hnode₀ : g₀.node? n with
  | none =>
    obtain ⟨l, rfl⟩ := hg.fresh hnode₀ hnode
    rfl
  | some node₀ =>
    obtain ⟨node', hnode', hshape⟩ := hg.kept_shape hnode₀
    cases hnode.symm.trans hnode'
    rw [Node.isLeaf, hshape]
    exact h.isLeaf (hn.resolve_right hleaf) hn' hnode₀

end Separated

/-- Two parts that are rewritten one after the other. -/
theorem Rewrites.append {g₁ : Graph} (h : Rewrites (g₀.Under ids) g g₁)
    (h' : Rewrites (g₀.Under ids') g₁ g') : Rewrites (g₀.Under (ids ++ ids')) g g' :=
  (h.mono fun _ => .mono (by simp)).trans (h'.mono fun _ => .mono (by simp))

/-- A graph that has been rewritten, but not below the given nodes, whose parts are apart. -/
structure Untouched (g₀ : Graph) (ids : List NodeId) (g : Graph) : Prop where
  separated : g₀.Separated ids
  rewrites : Rewrites (fun _ => True) g₀ g
  keeps : Keeps (g₀.Under ids) g₀ g

namespace Untouched

theorem node?_eq (h : Untouched g₀ ids g) (hid : id ∈ ids) (hnode : g₀.node? id = some node) :
    g.node? id = some node :=
  h.keeps _ _ (.inl (under_self hid)) hnode

/-- Where nothing was rewritten, nothing was below fewer nodes. -/
theorem sublist (h : Untouched g₀ ids g) (hsub : ids'.Sublist ids) : Untouched g₀ ids' g where
  separated := h.separated.sublist hsub
  rewrites := h.rewrites
  keeps n node hn := h.keeps n node (hn.imp_left (.mono hsub.subset))

/-- Below a node that was not touched, the children were not. -/
theorem children (h : Untouched g₀ ids g) (hid : id ∈ ids) (hnode : g₀.node? id = some node) :
    Untouched g₀ node.children g where
  separated := h.separated.children hid hnode
  rewrites := h.rewrites
  keeps n node' hn := h.keeps n node' (hn.imp_left (.of_children hid hnode))

theorem covers (h : Untouched g₀ ids g) (hid : id ∈ ids) : g.Covers (g₀.Under ids) id := by
  have hcovers : g₀.Covers (g₀.Under ids) id := fun n node hn _ _ => ⟨id, hid, hn.reaches⟩
  exact hcovers.rewrites h.rewrites

/-- When a part has been rewritten, the other one is untouched still. -/
theorem step (h : Untouched g₀ (ids ++ ids') g) (hr : Rewrites (g₀.Under ids) g g') :
    Untouched g₀ ids' g' where
  separated := h.separated.sublist (List.sublist_append_right ids ids')
  rewrites := h.rewrites.trans (hr.mono fun _ _ => trivial)
  keeps n node hn hnode := by
    have hnode' := (h.sublist (List.sublist_append_right ids ids')).keeps n node hn hnode
    by_cases hleaf : node.isLeaf = true
    · exact hr.leaf hleaf hnode'
    · exact hr.off (fun hn' => hleaf (h.separated.isLeaf hn' (hn.resolve_right hleaf) hnode)) hnode'

/-- When what is below a node has been rewritten, the node is untouched still. -/
theorem node_of_rewrites (h : Untouched g₀ ids g) (hid : id ∈ ids) (hnode : g₀.node? id = some node)
    (hr : Rewrites (g₀.Under node.children) g g') : g'.node? id = some node :=
  hr.off (h.separated.not_under_children hid hnode) (h.node?_eq hid hnode)

end Untouched

end Graph

namespace PropagateM

open RegisterBackend.Graph

variable {s t u : Propagation} {g₀ : Graph} {K : Known} {depth : Nat}

/-- An exchange of a node keeps every set that the node is not in, and what is known. -/
theorem update_keeps {S : NodeId → Prop} {id : NodeId} {old new : Node}
    (h : (update id old new).run s = .ok () t) (hold : s.graph.node? id = some old)
    (hleaf : old.isLeaf = false) (hS : ¬ S id) :
    t.graph.node? id = some new ∧ Keeps S s.graph t.graph ∧ t.knowledge = s.knowledge := by
  rcases run_update_ok h with ⟨rfl, rfl⟩ | ⟨g, hreplace, rfl⟩
  · exact ⟨hold, fun _ _ _ hn => hn, rfl⟩
  · have hnodes := node?_replace hreplace
    refine ⟨by rw [hnodes, if_pos rfl], fun n node hn hnode => ?_, rfl⟩
    rw [hnodes, if_neg, hnode]
    rintro rfl
    cases hold.symm.trans hnode
    rcases hn with hn | hn
    · exact hS hn
    · rw [hleaf] at hn
      cases hn

/-! ## Evaluables -/

/-- Simplifying the evaluable at a node folds the given tree. -/
def FoldsTo (g₀ : Graph) (depth : Nat) (id : NodeId) (e : Expr) : Prop :=
  ∀ s t id' K, (expr depth id).run s = .ok id' t → Untouched g₀ [id] s.graph →
    s.knowledge.Knows K →
      t.graph.ExprAt (g₀.Under [id]) id' (e.fold K) ∧ t.knowledge = s.knowledge

/-- Simplifying two operands folds both of their trees. -/
theorem operands_fold {lhs rhs left right : NodeId} {a b : Expr} (hl : FoldsTo g₀ depth lhs a)
    (hr : FoldsTo g₀ depth rhs b) (hg : Untouched g₀ ([lhs] ++ [rhs]) s.graph)
    (hK : s.knowledge.Knows K) (hleft : (expr depth lhs).run s = .ok left t)
    (hright : (expr depth rhs).run t = .ok right u) :
    u.graph.ExprAt (g₀.Under [lhs, rhs]) left (a.fold K) ∧
      u.graph.ExprAt (g₀.Under [lhs, rhs]) right (b.fold K) ∧
      Rewrites (g₀.Under [lhs, rhs]) s.graph u.graph ∧ u.knowledge = s.knowledge := by
  have hg₁ : Untouched g₀ [lhs] s.graph := hg.sublist (List.sublist_append_left _ _)
  obtain ⟨ha, hk₁⟩ := hl _ _ _ _ hleft hg₁ hK
  have hr₁ := (expr_confined depth _ _ _ _ hleft (hg₁.covers List.mem_cons_self)).1
  have hg₂ : Untouched g₀ [rhs] t.graph := hg.step hr₁
  obtain ⟨hb, hk₂⟩ := hr _ _ _ _ hright hg₂ (hk₁ ▸ hK)
  have hr₂ := (expr_confined depth _ _ _ _ hright (hg₂.covers List.mem_cons_self)).1
  have hkeeps : Keeps (g₀.Under [lhs]) t.graph u.graph := hg.separated.keeps hg₂.rewrites hr₂
  have hsub : ∀ n, g₀.Under [lhs] n → g₀.Under [lhs, rhs] n := fun _ => .mono (by simp)
  have hsub' : ∀ n, g₀.Under [rhs] n → g₀.Under [lhs, rhs] n := fun _ => .mono (by simp)
  exact ⟨(ha.congr hkeeps).mono hsub, hb.mono hsub', (hr₁.mono hsub).trans (hr₂.mono hsub'),
    hk₂.trans hk₁⟩

/-- A node that is exchanged once its operands are simplified stands above their folded trees. -/
theorem exchanged_operands {id lhs rhs left right : NodeId} {a b : Expr} {old new : Node}
    {s₁ s₂ : Propagation} (hl : FoldsTo g₀ depth lhs a) (hr : FoldsTo g₀ depth rhs b)
    (hold : g₀.node? id = some old) (hchildren : old.children = [lhs, rhs])
    (hleaf : old.isLeaf = false) (hg : Untouched g₀ [id] s.graph) (hK : s.knowledge.Knows K)
    (hleft : (expr depth lhs).run s = .ok left s₁) (hright : (expr depth rhs).run s₁ = .ok right s₂)
    (hupdate : (update id old new).run s₂ = .ok () t) :
    t.graph.node? id = some new ∧ t.graph.ExprAt (g₀.Under [id]) left (a.fold K) ∧
      t.graph.ExprAt (g₀.Under [id]) right (b.fold K) ∧ t.knowledge = s.knowledge := by
  have hoperands : Untouched g₀ [lhs, rhs] s.graph :=
    hchildren ▸ hg.children List.mem_cons_self hold
  obtain ⟨ha, hb, hrewrites, hk⟩ := operands_fold hl hr hoperands hK hleft hright
  rw [← hchildren] at ha hb hrewrites
  obtain ⟨hnew, hkeeps, hk'⟩ := update_keeps hupdate
    (hg.node_of_rewrites List.mem_cons_self hold hrewrites) hleaf
    (hg.separated.not_under_children List.mem_cons_self hold)
  have hsub : ∀ n, g₀.Under old.children n → g₀.Under [id] n :=
    fun _ => .of_children List.mem_cons_self hold
  exact ⟨hnew, (ha.congr hkeeps).mono hsub, (hb.congr hkeeps).mono hsub, hk'.trans hk⟩

/-- An operation is computed if the trees of both operands are constants. -/
theorem collapse_combines {S : NodeId → Prop} {id lhs rhs id' : NodeId} {op : ArithOp} {a b : Expr}
    (h : (collapse id op lhs rhs).run s = .ok id' t)
    (hnode : s.graph.node? id = some (.arithmetic op lhs rhs)) (hS : S id)
    (ha : s.graph.ExprAt S lhs a) (hb : s.graph.ExprAt S rhs b) :
    t.graph.ExprAt S id' (.combine op a b) ∧ t.knowledge = s.knowledge := by
  rcases run_collapse_ok h with ⟨v, w, g, hv, hw, hadd, rfl, hk, -⟩ | ⟨hnot, rfl, rfl⟩
  · obtain rfl : a = .const v := ExprAt.unique (S := S) (.const hv) ha
    obtain rfl : b = .const w := ExprAt.unique (S := S) (.const hw) hb
    refine ⟨.const ?_, hk⟩
    rw [(node?_add_constant hadd).2, if_pos rfl]
  · refine ⟨?_, rfl⟩
    unfold Expr.combine
    split
    · cases ha with
      | const hv =>
        cases hb with
        | const hw => exact absurd ⟨⟨_, hv⟩, ⟨_, hw⟩⟩ hnot
    · exact .arith hnode hS ha hb

/-- Simplifying an evaluable folds its tree and changes nothing of what is known. -/
theorem expr_folds {id : NodeId} {e : Expr} (he : g₀.ExprAt (fun _ => True) id e) (depth : Nat) :
    FoldsTo g₀ depth id e := by
  induction he generalizing depth with
  | const node =>
    intro s t id' K h hg hK
    have hnode := hg.node?_eq List.mem_cons_self node
    cases depth with
    | zero => cases h
    | succ depth =>
      cases run_expr_ok h with
      | constant => exact ⟨.const hnode, rfl⟩
      | unknown hnode' | known hnode' | arithmetic hnode' | call hnode' =>
        cases hnode.symm.trans hnode'
  | @var id v node kind =>
    intro s t id' K h hg hK
    have hnode := hg.node?_eq List.mem_cons_self node
    cases depth with
    | zero => cases h
    | succ depth =>
      cases run_expr_ok h with
      | unknown hnode' hlookup =>
        cases hnode.symm.trans hnode'
        have hv : K v.name = none := by simpa [hK v.name] using hlookup
        simp only [Expr.fold, hv]
        exact ⟨.var hnode kind, trivial⟩
      | known hnode' hlookup hadd =>
        cases hnode.symm.trans hnode'
        rw [hK v.name, Option.map_eq_some_iff] at hlookup
        obtain ⟨w, hv, rfl⟩ := hlookup
        simp only [Expr.fold, hv]
        refine ⟨.const ?_, trivial⟩
        rw [(node?_add_constant hadd).2, if_pos rfl]
      | constant hnode' | arithmetic hnode' | call hnode' => cases hnode.symm.trans hnode'
  | @arith id op lhs rhs a b node _ _ _ ihl ihr =>
    intro s t id' K h hg hK
    have hnode := hg.node?_eq List.mem_cons_self node
    cases depth with
    | zero => cases h
    | succ depth =>
      cases run_expr_ok h with
      | arithmetic hnode' hleft hright hupdate hcollapse =>
        cases hnode.symm.trans hnode'
        obtain ⟨hnew, ha, hb, hk⟩ := exchanged_operands (ihl depth) (ihr depth) node rfl rfl hg hK
          hleft hright hupdate
        obtain ⟨htree, hk'⟩ :=
          collapse_combines hcollapse hnew (under_self List.mem_cons_self) ha hb
        exact ⟨htree, hk'.trans hk⟩
      | constant hnode' | unknown hnode' | known hnode' | call hnode' =>
        cases hnode.symm.trans hnode'

/-- Simplifying a comparison folds its tree and changes nothing of what is known. -/
theorem condition_folds {id : NodeId} {c : Test} (hc : g₀.TestAt (fun _ => True) id c)
    (h : (condition depth id).run s = .ok () t) (hg : Untouched g₀ [id] s.graph)
    (hK : s.knowledge.Knows K) :
    t.graph.TestAt (g₀.Under [id]) id (c.fold K) ∧ t.knowledge = s.knowledge := by
  obtain ⟨-, lhs, rhs, node, hl, hr⟩ := hc
  obtain ⟨op', lhs', rhs', left, right, s₁, s₂, hnode', hleft, hright, hupdate⟩ := run_condition_ok h
  cases (hg.node?_eq List.mem_cons_self node).symm.trans hnode'
  obtain ⟨hnew, ha, hb, hk⟩ := exchanged_operands (expr_folds hl depth) (expr_folds hr depth) node
    rfl rfl hg hK hleft hright hupdate
  exact ⟨⟨under_self List.mem_cons_self, left, right, hnew, ha, hb⟩, hk⟩

/-! ## Statements -/

/-- The tree of a list of statements is folded by what was known before, and what is known now is
what is known behind the folded tree. -/
def BlockFolds (g₀ : Graph) (ids : List NodeId) (c : Command) (K : Known) (s t : Propagation) :
    Prop :=
  ∃ c' K', t.graph.BlockAt (g₀.Under ids) ids c' ∧ t.knowledge.Knows K' ∧ c.Folds K c' K' ∧
    s.knowledge.Leads t.knowledge

/-- Simplifying statements changes what is below them. -/
theorem block_rewrites {ids : List NodeId} (h : (ids.forM (statement depth)).run s = .ok () t)
    (hg : Untouched g₀ ids s.graph) :
    Rewrites (g₀.Under ids) s.graph t.graph :=
  forM_rewrites (fun _ _ _ => statement_rewrites) h fun _ hid => hg.covers hid

/-- A name is known to hold the value of a tree if that is a constant, and else unknown. -/
theorem learn_knows {S : NodeId → Prop} {x : String} {value : NodeId} {e : Expr}
    (he : s.graph.ExprAt S value e) (hK : s.knowledge.Knows K)
    (h : (learn x value).run s = .ok () t) :
    t.graph = s.graph ∧ t.knowledge.Knows (Function.update K x e.value?) ∧
      s.knowledge.Leads t.knowledge := by
  rcases run_learn_ok h with ⟨l, hl, rfl⟩ | ⟨hnot, rfl⟩
  · cases he with
    | const node =>
      cases hl.symm.trans node
      exact ⟨rfl, hK.record x _, .record _ x _⟩
    | var node | arith node => cases hl.symm.trans node
  · cases he with
    | const node => exact absurd ⟨_, node⟩ hnot
    | var | arith => exact ⟨rfl, hK.invalidate x, .invalidate _ x⟩

/-- When the value of an assignment has been simplified and put into its slot, the statement assigns
the folded value. -/
theorem assigned_folded {id target value value' : NodeId} {x : String} {e : Expr}
    {s₁ s₂ : Propagation} (node : g₀.node? id = some (.assign target value))
    (htarget : g₀.target? target = some x) (he : g₀.ExprAt (fun _ => True) value e)
    (hg : Untouched g₀ [id] s.graph) (hK : s.knowledge.Knows K)
    (hvalue : (expr depth value).run s = .ok value' s₁)
    (hupdate : (update id (.assign target value) (.assign target value')).run s₁ = .ok () s₂) :
    s₂.knowledge = s.knowledge ∧ s₂.graph.ExprAt (g₀.Under [id]) value' (e.fold K) ∧
      s₂.graph.BlockAt (g₀.Under [id]) [id] (.seq (.assign x (e.fold K)) .skip) := by
  have hchildren : Untouched g₀ [target, value] s.graph := hg.children List.mem_cons_self node
  have hg₁ : Untouched g₀ [value] s.graph := hchildren.sublist (by simp)
  have hsub : ∀ n, g₀.Under [value] n → g₀.Under [target, value] n := fun _ => .mono (by simp)
  have hsub' : ∀ n, g₀.Under [target, value] n → g₀.Under [id] n :=
    fun _ => .of_children List.mem_cons_self node
  obtain ⟨htree, hk₁⟩ := expr_folds he depth _ _ _ _ hvalue hg₁ hK
  have hr := (expr_confined depth _ _ _ _ hvalue (hg₁.covers List.mem_cons_self)).1
  obtain ⟨hnew, hkeeps, hk₂⟩ := update_keeps hupdate
    (hg.node_of_rewrites List.mem_cons_self node (hr.mono hsub)) rfl
    (hg.separated.not_under_children List.mem_cons_self node)
  obtain ⟨v, hv, hkind, rfl⟩ := target?_eq_some.1 htarget
  have hv₂ := hkeeps _ _ (.inr rfl) (hr.leaf rfl (hchildren.node?_eq List.mem_cons_self hv))
  have htree₂ := ((htree.mono hsub).congr hkeeps).mono hsub'
  exact ⟨hk₂.trans hk₁, htree₂, .assign hnew (under_self List.mem_cons_self)
    (target?_eq_some.2 ⟨v, hv₂, hkind, rfl⟩) htree₂ .nil⟩

/-- An assignment is folded. -/
theorem assign_folds {id target value value' : NodeId} {x : String} {e : Expr} {v : Variable}
    {s₁ s₂ : Propagation} (node : g₀.node? id = some (.assign target value))
    (htarget : g₀.target? target = some x) (he : g₀.ExprAt (fun _ => True) value e)
    (hg : Untouched g₀ [id] s.graph) (hK : s.knowledge.Knows K)
    (hvar : s.graph.node? target = some (.var v)) (hvalue : (expr depth value).run s = .ok value' s₁)
    (hupdate : (update id (.assign target value) (.assign target value')).run s₁ = .ok () s₂)
    (hlearn : (learn v.name value').run s₂ = .ok () t) :
    BlockFolds g₀ [id] (.seq (.assign x e) .skip) K s t := by
  obtain ⟨hk, htree, hblock⟩ := assigned_folded node htarget he hg hK hvalue hupdate
  obtain ⟨v', hv', -, rfl⟩ := target?_eq_some.1 htarget
  have hchildren : Untouched g₀ [target, value] s.graph := hg.children List.mem_cons_self node
  cases hvar.symm.trans (hchildren.node?_eq List.mem_cons_self hv')
  obtain ⟨hgraph, hknows, hleads⟩ := learn_knows htree (hk ▸ hK) hlearn
  exact ⟨_, _, hgraph ▸ hblock, hknows, .seq .assign .skip, hk ▸ hleads⟩

/-- Simplifying a list of statements folds the given tree. -/
def BlockFoldsTo (g₀ : Graph) (ids : List NodeId) (c : Command) : Prop :=
  ∀ depth s t K, (ids.forM (statement depth)).run s = .ok () t → Untouched g₀ ids s.graph →
    s.knowledge.Knows K → BlockFolds g₀ ids c K s t

/-- Statements are folded one after the other. -/
theorem BlockFoldsTo.cons {id : NodeId} {ids : List NodeId} {c₁ c : Command}
    (hfirst : ∀ depth s t K, StatementRun depth id s t → Untouched g₀ [id] s.graph →
      s.knowledge.Knows K → BlockFolds g₀ [id] (.seq c₁ .skip) K s t)
    (hrest : BlockFoldsTo g₀ ids c) : BlockFoldsTo g₀ (id :: ids) (.seq c₁ c) := by
  intro depth s t K h hg hK
  have hparts : Untouched g₀ ([id] ++ ids) s.graph := hg
  obtain ⟨u, hid, hids⟩ := run_forM_cons_eq_ok.1 h
  have hg₁ : Untouched g₀ [id] s.graph := hparts.sublist (List.sublist_append_left _ _)
  have hg₂ : Untouched g₀ ids u.graph :=
    hparts.step (statement_rewrites hid (hg₁.covers List.mem_cons_self))
  cases depth with
  | zero => cases hid
  | succ depth =>
    obtain ⟨_, K₁, htree₁, hk₁, hfolds₁, hleads₁⟩ := hfirst _ _ _ _ (run_statement_ok hid) hg₁ hK
    obtain ⟨c', K', htree, hk, hfolds, hleads⟩ := hrest _ _ _ _ hids hg₂ hk₁
    cases hfolds₁ with
    | seq hfolds₁ hskip =>
      cases hskip
      have hkeeps := hparts.separated.keeps hg₂.rewrites (block_rewrites hids hg₂)
      have hsub : ∀ n, g₀.Under [id] n → g₀.Under (id :: ids) n := fun _ => .mono (by simp)
      have hsub' : ∀ n, g₀.Under ids n → g₀.Under (id :: ids) n := fun _ => .mono (by simp)
      exact ⟨_, K', ((htree₁.congr hkeeps).mono hsub).cons (htree.mono hsub'), hk,
        .seq hfolds₁ hfolds, hleads₁.trans hleads⟩

/-- A branch is folded. -/
theorem ifElse_folds {id cond : NodeId} {thenBlock elseBlock : List NodeId} {c : Test} {a b : Command}
    {s₁ s₂ s₃ : Propagation} {names : NameSet}
    (node : g₀.node? id = some (.ifElse cond thenBlock elseBlock))
    (hc : g₀.TestAt (fun _ => True) cond c) (ha : BlockFoldsTo g₀ thenBlock a)
    (hb : BlockFoldsTo g₀ elseBlock b) (hg : Untouched g₀ [id] s.graph) (hK : s.knowledge.Knows K)
    (hcond : (condition depth cond).run s = .ok () s₁)
    (hthen : (thenBlock.forM (statement depth)).run
      { s₁ with knowledge := s₁.knowledge.openFrame } = .ok () s₂)
    (helse : (elseBlock.forM (statement depth)).run
      { s₂ with knowledge := s₂.knowledge.closeFrame.openFrame } = .ok () s₃)
    (hassigned : s₃.graph.assignedIn s₃.functions depth (thenBlock ++ elseBlock) = .ok names) :
    BlockFolds g₀ [id] (.seq (.ifElse c a b) .skip) K s
      { s₃ with knowledge := s₃.knowledge.closeFrame.invalidateAll names.toList } := by
  have hparts : Untouched g₀ ([cond] ++ (thenBlock ++ elseBlock)) s.graph :=
    hg.children List.mem_cons_self node
  -- the three parts are rewritten one after the other
  have hg₁ : Untouched g₀ [cond] s.graph := hparts.sublist (List.sublist_append_left _ _)
  obtain ⟨htest, hk₁⟩ := condition_folds hc hcond hg₁ hK
  have hr₁ := condition_rewrites hcond (hg₁.covers List.mem_cons_self)
  have hblocks : Untouched g₀ (thenBlock ++ elseBlock) s₁.graph := hparts.step hr₁
  have hg₂ : Untouched g₀ thenBlock s₁.graph := hblocks.sublist (List.sublist_append_left _ _)
  have hr₂ := block_rewrites hthen hg₂
  have hg₃ : Untouched g₀ elseBlock s₂.graph := hblocks.step hr₂
  have hr₃ := block_rewrites helse hg₃
  -- what is known along the way
  rw [← hk₁] at hK
  obtain ⟨a', K₁, hthen', -, hfoldsA, hleadsA⟩ := ha _ _ _ _ hthen hg₂ hK.openFrame
  obtain ⟨K₂, hK₂, hwithin₂, hleads₂⟩ := hleadsA.frame_knows hK
  obtain ⟨b', K₃, helse', -, hfoldsB, hleadsB⟩ := hb _ _ _ _ helse hg₃ hK₂.openFrame
  obtain ⟨K₄, hK₄, hwithin₄, hleads₄⟩ := hleadsB.frame_knows hK₂
  obtain ⟨K', hK', hwithin', hforgotten⟩ := hK₄.forget names
  -- what has been rewritten first is kept by the rest
  have hsubThen : ∀ n, g₀.Under thenBlock n → g₀.Under (thenBlock ++ elseBlock) n :=
    fun _ => .mono (by simp)
  have hsubElse : ∀ n, g₀.Under elseBlock n → g₀.Under (thenBlock ++ elseBlock) n :=
    fun _ => .mono (by simp)
  have hr₂₃ := hr₂.append hr₃
  have htest := htest.congr (hparts.separated.keeps hblocks.rewrites hr₂₃)
  have hthen' := hthen'.congr (hblocks.separated.keeps hg₃.rewrites hr₃)
  have hnames : ∀ x ∈ a.assigned ++ b.assigned, x ∈ names := by
    rw [← hfoldsA.assigned_eq, ← hfoldsB.assigned_eq]
    exact fun x hx => hthen'.mem_assignedIn_append helse' hassigned hx
  have hsub : ∀ n, g₀.Under (thenBlock ++ elseBlock) n → g₀.Under [id] n := fun _ h =>
    .of_children List.mem_cons_self node (h.mono (by simp [Node.children]))
  have hsub₁ : ∀ n, g₀.Under [cond] n → g₀.Under [id] n := fun _ h =>
    .of_children List.mem_cons_self node (h.mono (by simp [Node.children]))
  have hnode : s₃.graph.node? id = some (.ifElse cond thenBlock elseBlock) :=
    hg.node_of_rewrites List.mem_cons_self node (hr₁.append hr₂₃)
  refine ⟨.seq (.ifElse (c.fold K) a' b') .skip, K', ?_, hK', ?_, ?_⟩
  · exact .ifElse hnode (under_self List.mem_cons_self) (htest.mono hsub₁)
      (hthen'.mono fun n h => hsub n (hsubThen n h)) (helse'.mono fun n h => hsub n (hsubElse n h))
      .nil
  · have hbehind : K'.Within K := hwithin'.trans (hwithin₄.trans hwithin₂)
    exact .seq (.ifElse hfoldsA hwithin₂ hfoldsB hbehind fun x hx => hforgotten x (hnames x hx)) .skip
  · rw [← hk₁]
    exact (hleads₂.trans hleads₄).trans (.invalidateAll _ _)

/-- A loop is folded. -/
theorem whileLoop_folds {id cond : NodeId} {body : List NodeId} {c : Test} {b : Command}
    {s₁ s₂ : Propagation} {names : NameSet} (node : g₀.node? id = some (.whileLoop cond body))
    (hc : g₀.TestAt (fun _ => True) cond c) (htree : g₀.BlockAt (fun _ => True) body b)
    (hb : BlockFoldsTo g₀ body b) (hg : Untouched g₀ [id] s.graph) (hK : s.knowledge.Knows K)
    (hassigned : s.graph.assignedIn s.functions depth body = .ok names)
    (hcond : (condition depth cond).run
      { s with knowledge := s.knowledge.invalidateAll names.toList } = .ok () s₁)
    (hround : (body.forM (statement depth)).run
      { s₁ with knowledge := s₁.knowledge.openFrame } = .ok () s₂) :
    BlockFolds g₀ [id] (.seq (.whileLoop c b) .skip) K s
      { s₂ with knowledge := s₂.knowledge.closeFrame.invalidateAll names.toList } := by
  have hparts : Untouched g₀ ([cond] ++ body) s.graph := hg.children List.mem_cons_self node
  obtain ⟨K₁, hK₁, hwithin₁, hforgotten⟩ := hK.forget names
  have hg₁ : Untouched g₀ [cond] s.graph := hparts.sublist (List.sublist_append_left _ _)
  obtain ⟨htest, hk₁⟩ := condition_folds hc hcond hg₁ hK₁
  have hr₁ := condition_rewrites hcond (hg₁.covers List.mem_cons_self)
  have hg₂ : Untouched g₀ body s₁.graph := hparts.step hr₁
  have hr₂ := block_rewrites hround hg₂
  have hknows₁ : s₁.knowledge.Knows K₁ := hk₁ ▸ hK₁
  obtain ⟨b', K₂, hround', -, hfolds, hleads⟩ := hb _ _ _ _ hround hg₂ hknows₁.openFrame
  obtain ⟨K₃, hK₃, hwithin₃, hleads₃⟩ := hleads.frame_knows hknows₁
  obtain ⟨K', hK', hwithin', -⟩ := hK₃.forget names
  have htest := htest.congr (hparts.separated.keeps hg₂.rewrites hr₂)
  -- the names are collected before the body is rewritten, so from the tree it had then
  have hnames : ∀ x ∈ b.assigned, x ∈ names := by
    have hkeeps := (hparts.sublist (List.sublist_append_right _ _)).keeps
    exact fun x hx => (htree.under.congr hkeeps).mem_of_assigned hx hassigned
  have hsub : ∀ n, g₀.Under body n → g₀.Under [id] n := fun _ h =>
    .of_children List.mem_cons_self node (h.mono (by simp [Node.children]))
  have hsub₁ : ∀ n, g₀.Under [cond] n → g₀.Under [id] n := fun _ h =>
    .of_children List.mem_cons_self node (h.mono (by simp [Node.children]))
  have hnode : s₂.graph.node? id = some (.whileLoop cond body) :=
    hg.node_of_rewrites List.mem_cons_self node (hr₁.append hr₂)
  refine ⟨.seq (.whileLoop (c.fold K₁) b') .skip, K', ?_, hK', ?_, ?_⟩
  · exact .whileLoop hnode (under_self List.mem_cons_self) (htest.mono hsub₁)
      (hround'.mono hsub) .nil
  · exact .seq (.whileLoop hwithin₁ (fun x hx => hforgotten x (hnames x hx)) hfolds
      (hwithin'.trans hwithin₃)) .skip
  · have hforget : s.knowledge.Leads s₁.knowledge := hk₁ ▸ .invalidateAll _ _
    exact (hforget.trans hleads₃).trans (.invalidateAll _ _)

/-- The definition of a function does nothing, whatever its body becomes. -/
theorem functionDef_folds {id : NodeId} {name : String} {params body : List NodeId} {returns : Kind}
    {functions : NameMap NameSet} {s₁ : Propagation}
    (node : g₀.node? id = some (.functionDef name params body returns))
    (hg : Untouched g₀ [id] s.graph) (hK : s.knowledge.Knows K)
    (hbody : (body.forM (statement depth)).run
      { s with knowledge := .empty, functions := functions } = .ok () s₁) :
    BlockFolds g₀ [id] (.seq .skip .skip) K s { s₁ with knowledge := s.knowledge } := by
  have hparts : Untouched g₀ (params ++ body) s.graph := hg.children List.mem_cons_self node
  have hr := block_rewrites hbody (hparts.sublist (List.sublist_append_right _ _))
  have hnode := hg.node_of_rewrites List.mem_cons_self node
    (hr.mono fun _ => .mono (by simp [Node.children]))
  exact ⟨.seq .skip .skip, K, .functionDef hnode (under_self List.mem_cons_self) .nil, hK,
    .seq .skip .skip, .refl _⟩

/-- Simplifying a list of statements folds their tree. -/
theorem block_folds {ids : List NodeId} {c : Command} (h : g₀.BlockAt (fun _ => True) ids c) :
    BlockFoldsTo g₀ ids c := by
  induction h with
  | nil =>
    intro depth s t K h hg hK
    cases h
    exact ⟨.skip, K, .nil, hK, .skip, .refl _⟩
  | assign node _ htarget he _ ih =>
    refine .cons (fun depth s t K hrun hg hK => ?_) ih
    have hnode := hg.node?_eq List.mem_cons_self node
    cases hrun with
    | assign hnode' hvar hvalue hupdate hlearn =>
      cases hnode.symm.trans hnode'
      exact assign_folds node htarget he hg hK hvar hvalue hupdate hlearn
    | updateElement hnode' | ifElse hnode' | whileLoop hnode' | functionDef hnode' | debug hnode' =>
      cases hnode.symm.trans hnode'
  | ifElse node _ test _ _ _ iha ihb ih =>
    refine .cons (fun depth s t K hrun hg hK => ?_) ih
    have hnode := hg.node?_eq List.mem_cons_self node
    cases hrun with
    | ifElse hnode' hcond hthen helse hassigned =>
      cases hnode.symm.trans hnode'
      exact ifElse_folds node test iha ihb hg hK hcond hthen helse hassigned
    | assign hnode' | updateElement hnode' | whileLoop hnode' | functionDef hnode' | debug hnode' =>
      cases hnode.symm.trans hnode'
  | whileLoop node _ test round _ ihb ih =>
    refine .cons (fun depth s t K hrun hg hK => ?_) ih
    have hnode := hg.node?_eq List.mem_cons_self node
    cases hrun with
    | whileLoop hnode' hassigned hcond hround =>
      cases hnode.symm.trans hnode'
      exact whileLoop_folds node test round ihb hg hK hassigned hcond hround
    | assign hnode' | updateElement hnode' | ifElse hnode' | functionDef hnode' | debug hnode' =>
      cases hnode.symm.trans hnode'
  | functionDef node _ _ ih =>
    refine .cons (fun depth s t K hrun hg hK => ?_) ih
    have hnode := hg.node?_eq List.mem_cons_self node
    cases hrun with
    | functionDef hnode' hbody =>
      cases hnode.symm.trans hnode'
      exact functionDef_folds node hg hK hbody
    | assign hnode' | updateElement hnode' | ifElse hnode' | whileLoop hnode' | debug hnode' =>
      cases hnode.symm.trans hnode'
  | debug node _ ih =>
    refine .cons (fun depth s t K hrun hg hK => ?_) ih
    have hnode := hg.node?_eq List.mem_cons_self node
    cases hrun with
    | debug => exact ⟨_, K, .debug hnode .nil, hK, .seq .print .skip, .refl _⟩
    | assign hnode' | updateElement hnode' | ifElse hnode' | whileLoop hnode' | functionDef hnode' =>
      cases hnode.symm.trans hnode'

end PropagateM

end RegisterBackend
