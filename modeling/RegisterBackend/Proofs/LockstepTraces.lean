import RegisterBackend.Proofs.FunctionRecords
import RegisterBackend.Proofs.GraphEdges
import RegisterBackend.Proofs.KnowledgeViews
import RegisterBackend.Proofs.Unfolding

/-!
# Traces side by side

Two programs may have a block in common. When constant propagation comes to the block with the same
knowledge in both, it leaves the same trees there. The numbers of the nodes may differ, since
constants are added for the one program that are not added for the other, so trees are compared
without the numbers (`Graph.Alike`).

It is enough that the tables agree on the names that the block reads: `BlockTrace.alike` follows two
traces of the block step by step, and what is known of these names stays the same in both. The
blocks are free of calls (`Graph.CallFree`). Then evaluables leave what is known as it is, and the
names that a block may assign do not depend on what is noted of functions (`Assigns.mem_iff`).
-/

namespace RegisterBackend

/-! ## Trees without numbers -/

namespace Node

/-- The node without the references to its parts. -/
def label : Node → Node
  | .functionDef name params body returns =>
    .functionDef name params (body.map fun _ => ⟨0⟩) returns
  | node => node.map fun _ => ⟨0⟩

/-- A node that is labelled as a constant is that constant. -/
theorem eq_constant_of_label {node : Node} {l : Literal} (h : node.label = .constant l) :
    node = .constant l := by
  cases node with
  | constant l' => exact h
  | _ => cases h

end Node

namespace Graph

/-- The nodes of the lists have the same trees, one by one, whatever the numbers of the nodes
are. -/
inductive Alike (g g' : Graph) : List NodeId → List NodeId → Prop
  | nil : Alike g g' [] []
  | cons {id id' ids ids' node node'} (hnode : g.node? id = some node)
    (hnode' : g'.node? id' = some node') (hlabel : node'.label = node.label)
    (hparts : Alike g g' node.parts node'.parts) (hrest : Alike g g' ids ids') :
    Alike g g' (id :: ids) (id' :: ids')

variable {g g' g₁ g₁' : Graph} {ids ids' ids₁ ids₁' : List NodeId} {id id' n : NodeId}
  {node node' : Node} {x : String} {S S' : NodeId → Prop}

namespace Alike

/-- Lists that are alike one by one can be put together. -/
theorem append (h : Alike g g' ids ids') (h₁ : Alike g g' ids₁ ids₁') :
    Alike g g' (ids ++ ids₁) (ids' ++ ids₁') := by
  induction h with
  | nil => exact h₁
  | cons hnode hnode' hlabel hparts _ _ ih => exact .cons hnode hnode' hlabel hparts ih

/-- A list is alike in both graphs if each of its members is. -/
theorem of_forall (h : ∀ id ∈ ids, Alike g g' [id] [id]) : Alike g g' ids ids := by
  induction ids with
  | nil => exact .nil
  | cons id ids ih =>
    obtain ⟨hid, hids⟩ := List.forall_mem_cons.1 h
    exact hid.append (ih hids)

/-- The same leaf stands in front of both lists. -/
theorem leaf (hleaf : node.isLeaf = true) (hnode : g.node? id = some node)
    (hnode' : g'.node? id' = some node) (h : Alike g g' ids ids') :
    Alike g g' (id :: ids) (id' :: ids') := by
  refine .cons hnode hnode' rfl ?_ h
  have hparts : node.parts = [] := by
    cases node with
    | constant | var | debug => rfl
    | _ => cases hleaf
  rw [hparts]
  exact .nil

/-- The heads of the lists have the same label. -/
theorem head (h : Alike g g' (id :: ids) (id' :: ids')) :
    ∃ node node', g.node? id = some node ∧ g'.node? id' = some node' ∧ node'.label = node.label := by
  cases h with
  | cons hnode hnode' hlabel => exact ⟨_, _, hnode, hnode', hlabel⟩

/-- Nodes that are alike have parts that are. -/
theorem parts (h : Alike g g' (id :: ids) (id' :: ids')) (hnode : g.node? id = some node)
    (hnode' : g'.node? id' = some node') : Alike g g' node.parts node'.parts := by
  cases h with
  | cons hid hid' _ hparts =>
    cases hnode.symm.trans hid
    cases hnode'.symm.trans hid'
    exact hparts

theorem tail (h : Alike g g' (id :: ids) (id' :: ids')) : Alike g g' ids ids' := by
  cases h with
  | cons _ _ _ _ hrest => exact hrest

/-- Where the one list begins with a constant, the other one begins with the same. -/
theorem constant_iff (h : Alike g g' (id :: ids) (id' :: ids')) {l : Literal} :
    g'.node? id' = some (.constant l) ↔ g.node? id = some (.constant l) := by
  obtain ⟨node, node', hnode, hnode', hlabel⟩ := h.head
  rw [hnode, hnode']
  constructor
  · rintro ⟨⟩
    rw [Node.eq_constant_of_label hlabel.symm]
  · rintro ⟨⟩
    rw [Node.eq_constant_of_label hlabel]

theorem isConstant_iff (h : Alike g g' (id :: ids) (id' :: ids')) :
    g'.IsConstant id' ↔ g.IsConstant id :=
  exists_congr fun _ => h.constant_iff

/-- What is learned from an assignment depends on the tree of the value only. -/
theorem learn {N : String → Prop} {k k' : Knowledge} (h : Alike g g' [id] [id']) (x : String)
    (hk : k.AgreeOn N k') : (k.learn x (g.node? id)).AgreeOn N (k'.learn x (g'.node? id')) := by
  by_cases hconst : g.IsConstant id
  · obtain ⟨l, hl⟩ := hconst
    rw [hl, h.constant_iff.2 hl]
    exact hk.record x l
  · rw [k.learn_eq_invalidate hconst, k'.learn_eq_invalidate (mt h.isConstant_iff.1 hconst)]
    exact hk.invalidate x

end Alike

/-! ## Common parts -/

/-- The graphs have the same nodes below the listed ones. -/
def Same (g g' : Graph) (ids : List NodeId) : Prop :=
  ∀ n, g.Under ids n → g'.node? n = g.node? n

/-- There are no calls below the listed nodes. -/
def CallFree (g : Graph) (ids : List NodeId) : Prop :=
  ∀ n f, g.Under ids n → ¬ g.Calls n f

/-- What runs in the block reads the name. -/
def Reads (g : Graph) (ids : List NodeId) (x : String) : Prop :=
  ∃ n v, g.RunsIn ids n ∧ g.node? n = some (.var v) ∧ v.name = x

/-- What runs in the block assigns the name. -/
def StoresIn (g : Graph) (ids : List NodeId) (x : String) : Prop :=
  ∃ n, g.RunsIn ids n ∧ g.Stores n x

theorem RunsIn.mono (h : g.RunsIn ids n) (hsub : ids ⊆ ids') : g.RunsIn ids' n := by
  obtain ⟨id, hid, hn⟩ := h
  exact ⟨id, hsub hid, hn⟩

/-- What runs in a statement of a block runs in the block. -/
theorem RunsIn.of_inner (h : g.RunsIn node.inner n) (hid : id ∈ ids) (hnode : g.node? id = some node) :
    g.RunsIn ids n := by
  obtain ⟨c, hc, hn⟩ := h
  exact ⟨id, hid, .head ⟨node, hnode, hc⟩ hn⟩

theorem RunsIn.under (h : g.RunsIn ids n) : g.Under ids n := by
  obtain ⟨id, hid, hn⟩ := h
  exact ⟨id, hid, hn.reaches⟩

theorem Reads.mono (h : g.Reads ids x) (hsub : ids ⊆ ids') : g.Reads ids' x := by
  obtain ⟨n, v, hn, hv⟩ := h
  exact ⟨n, v, hn.mono hsub, hv⟩

/-- What a part of a statement reads, the block of the statement reads. -/
theorem Reads.of_inner (h : g.Reads ids' x) (hsub : ids' ⊆ node.inner) (hid : id ∈ ids)
    (hnode : g.node? id = some node) : g.Reads ids x := by
  obtain ⟨n, v, hn, hv⟩ := h
  exact ⟨n, v, (hn.mono hsub).of_inner hid hnode, hv⟩

theorem reads_head {v : Variable} (hnode : g.node? id = some (.var v)) : g.Reads (id :: ids) v.name :=
  ⟨id, v, ⟨id, List.mem_cons_self, .refl⟩, hnode, rfl⟩

/-- What a part of a statement assigns, the block of the statement assigns. -/
theorem StoresIn.of_inner (h : g.StoresIn ids' x) (hsub : ids' ⊆ node.inner) (hid : id ∈ ids)
    (hnode : g.node? id = some node) : g.StoresIn ids x := by
  obtain ⟨n, hn, hx⟩ := h
  exact ⟨n, (hn.mono hsub).of_inner hid hnode, hx⟩

/-- Rewriting does not change which names a block assigns. -/
theorem Rewrites.storesIn_iff (hr : Rewrites S g g₁) : g₁.StoresIn ids x ↔ g.StoresIn ids x := by
  have h : (∃ n, g₁.RunsIn ids n ∧ g₁.Adds (fun _ _ => False) n x) ↔
      ∃ n, g.RunsIn ids n ∧ g.Adds (fun _ _ => False) n x := hr.runsIn_adds
  simpa [Adds, StoresIn] using h

namespace Same

theorem mono (h : g.Same g' ids) (hsub : ids' ⊆ ids) : g.Same g' ids' :=
  fun n hn => h n (hn.mono hsub)

theorem children (h : g.Same g' ids) (hid : id ∈ ids) (hnode : g.node? id = some node) :
    g.Same g' node.children :=
  fun n hn => h n (.of_children hid hnode hn)

theorem node?_eq (h : g.Same g' ids) (hid : id ∈ ids) (hnode : g.node? id = some node) :
    g'.node? id = some node :=
  (h id (under_self hid)).trans hnode

/-- What the second graph has below the nodes, the first one has. -/
theorem under (h : g.Same g' ids) (hn : g'.Under ids n) : g.Under ids n := by
  obtain ⟨id, hid, hpath⟩ := hn
  refine ⟨id, hid, ?_⟩
  induction hpath with
  | refl => exact .refl
  | @tail a b _ hab ih =>
    obtain ⟨node, hnode, hb⟩ := hab
    exact .tail ih ⟨node, (h a ⟨id, hid, ih⟩).symm.trans hnode, hb⟩

theorem symm (h : g.Same g' ids) : g'.Same g ids :=
  fun n hn => (h n (h.under hn)).symm

theorem trans (h : g.Same g₁ ids) (h' : g₁.Same g' ids) : g.Same g' ids :=
  fun n hn => (h' n (h.symm.under hn)).trans (h n hn)

/-- What runs in a block is the same in both graphs. -/
theorem runsIn (h : g.Same g' ids) (hn : g.RunsIn ids n) : g'.RunsIn ids n := by
  obtain ⟨id, hid, hpath⟩ := hn
  refine ⟨id, hid, ?_⟩
  induction hpath with
  | refl => exact .refl
  | @tail a b ha hab ih =>
    obtain ⟨node, hnode, hb⟩ := hab
    exact .tail ih ⟨node, (h a ⟨id, hid, Runs.reaches ha⟩).trans hnode, hb⟩

/-- What a block assigns is the same in both graphs. -/
theorem storesIn (h : g.Same g' ids) (hx : g.StoresIn ids x) : g'.StoresIn ids x := by
  obtain ⟨n, hn, node, target, v, hnode, htarget, hv, rfl⟩ := hx
  obtain ⟨id, hid, hpath⟩ := hn.under
  have hchild : target ∈ node.children := by
    cases node with
    | assign | updateElement =>
      cases htarget
      exact List.mem_cons_self
    | _ => cases htarget
  exact ⟨n, h.runsIn hn, node, target, v, (h n hn.under).trans hnode, htarget,
    (h target ⟨id, hid, .tail hpath ⟨node, hnode, hchild⟩⟩).trans hv, rfl⟩

theorem storesIn_iff (h : g.Same g' ids) : g'.StoresIn ids x ↔ g.StoresIn ids x :=
  ⟨h.symm.storesIn, h.storesIn⟩

theorem callFree (h : g.Same g' ids) (hfree : g.CallFree ids) : g'.CallFree ids := by
  rintro n f hn ⟨node, hnode, hcallee⟩
  exact hfree n f (h.under hn) ⟨node, (h n (h.under hn)).symm.trans hnode, hcallee⟩

end Same

namespace CallFree

theorem mono (h : g.CallFree ids) (hsub : ids' ⊆ ids) : g.CallFree ids' :=
  fun n f hn => h n f (hn.mono hsub)

theorem children (h : g.CallFree ids) (hid : id ∈ ids) (hnode : g.node? id = some node) :
    g.CallFree node.children :=
  fun n f hn => h n f (.of_children hid hnode hn)

/-- There are no calls if no node of the graph is a call. -/
theorem of_nodes (h : ∀ i < g.size, (g.node? ⟨i⟩).bind Node.callee? = none) : g.CallFree ids := by
  rintro n f - ⟨node, hnode, hcallee⟩
  have hnone := h n.index (index_lt_of_node? hnode)
  rw [hnode, Option.bind_some, hcallee] at hnone
  cases hnone

end CallFree

/-- Without calls, the names that a block may assign are those that what runs in it assigns. -/
theorem Assigns.mem_iff {functions : NameMap NameSet} {names : NameSet}
    (h : g.Assigns functions ids names) (hfree : g.CallFree ids) :
    x ∈ names.toList ↔ g.StoresIn ids x := by
  obtain ⟨g₁, depth, hr, hassigned⟩ := h
  rw [Std.TreeSet.mem_toList, mem_assignedIn_iff hassigned, hr.runsIn_adds]
  refine exists_congr fun n => and_congr_right fun hn => or_iff_left ?_
  rintro ⟨f, hcalls, -⟩
  exact hfree n f hn.under hcalls

/-- Without calls, the names that a block assigns can be computed. -/
theorem storesIn_iff_mem (functions : NameMap NameSet) (depth : Nat) (names : List String)
    (h : (g.assignedIn functions depth ids).toOption.map (·.toList) = some names)
    (hfree : g.CallFree ids) : g.StoresIn ids x ↔ x ∈ names := by
  cases hassigned : g.assignedIn functions depth ids with
  | error why =>
    rw [hassigned] at h
    cases h
  | ok assigned =>
    rw [hassigned] at h
    cases h
    have hassigns : g.Assigns functions ids assigned := ⟨g, depth, .refl _ _, hassigned⟩
    exact (hassigns.mem_iff hfree).symm

/-- The listed nodes are a common part of both graphs, without calls, and what runs in it reads only
names of the set. -/
structure Common (g g' : Graph) (N : String → Prop) (ids : List NodeId) : Prop where
  same : g.Same g' ids
  callFree : g.CallFree ids
  reads : ∀ x, g.Reads ids x → N x

namespace Common

variable {N : String → Prop}

theorem mono (h : g.Common g' N ids) (hsub : ids' ⊆ ids) : g.Common g' N ids' :=
  ⟨h.same.mono hsub, h.callFree.mono hsub, fun x hx => h.reads x (hx.mono hsub)⟩

/-- The parts of a common node are common. -/
theorem inner (h : g.Common g' N ids) (hid : id ∈ ids) (hnode : g.node? id = some node)
    (hsub : ids' ⊆ node.inner) : g.Common g' N ids' where
  same := (h.same.children hid hnode).mono (List.Subset.trans hsub node.inner_subset_children)
  callFree := (h.callFree.children hid hnode).mono (List.Subset.trans hsub node.inner_subset_children)
  reads x hx := h.reads x (hx.of_inner hsub hid hnode)

theorem callFree_right (h : g.Common g' N ids) : g'.CallFree ids :=
  h.same.callFree h.callFree

end Common

/-! ## Evaluables -/

namespace ExprTrace

variable {f f' : NameMap NameSet} {k k' k₂ k₂' : Knowledge}

/-- Without calls, simplifying evaluables changes nothing of what is known. -/
theorem knowledge_eq_of_callFree (h : g.ExprTrace g₁ f k ids k₂ ids₁) (hfree : g.CallFree ids) :
    k₂ = k := by
  induction h with
  | nil => rfl
  | constant _ _ ih | known _ _ _ _ ih | unknown _ _ _ ih => exact ih (hfree.mono (by simp))
  | computed node _ _ _ _ _ _ ihoperands ih | arithmetic node _ _ _ _ ihoperands ih =>
    rw [ih (hfree.mono (by simp)), ihoperands (hfree.children List.mem_cons_self node)]
  | call node => exact absurd ⟨_, node, rfl⟩ (hfree _ _ (under_self List.mem_cons_self))

/-- Evaluables that two graphs have in common become alike, if the same is known of the names that
they read. -/
theorem alike {N : String → Prop} (h : g.ExprTrace g₁ f k ids k₂ ids₁)
    (h' : g'.ExprTrace g₁' f' k' ids k₂' ids₁') (hr : Rewrites S g g₁) (hr' : Rewrites S' g' g₁')
    (hc : g.Common g' N ids) (hk : k.AgreeOn N k') : g₁.Alike g₁' ids₁ ids₁' := by
  induction h generalizing k' k₂' ids₁' with
  | nil =>
    cases h'
    exact .nil
  | constant node _ ih =>
    have hnode' := hc.same.node?_eq List.mem_cons_self node
    cases h' with
    | constant _ rest' =>
      exact .leaf rfl (hr.leaf rfl node) (hr'.leaf rfl hnode') (ih rest' (hc.mono (by simp)) hk)
    | unknown node' | known node' | computed node' | arithmetic node' | call node' =>
      cases hnode'.symm.trans node'
  | @unknown _ _ id _ _ v node lookup _ ih =>
    have hnode' := hc.same.node?_eq List.mem_cons_self node
    have hlookup := hk.lookup_eq (hc.reads _ (reads_head node))
    cases h' with
    | unknown _ _ rest' =>
      exact .leaf rfl (hr.leaf rfl node) (hr'.leaf rfl hnode') (ih rest' (hc.mono (by simp)) hk)
    | known node' lookup' =>
      cases hnode'.symm.trans node'
      cases (lookup'.symm.trans hlookup).trans lookup
    | constant node' | computed node' | arithmetic node' | call node' => cases hnode'.symm.trans node'
  | known node lookup new _ ih =>
    have hnode' := hc.same.node?_eq List.mem_cons_self node
    have hlookup := hk.lookup_eq (hc.reads _ (reads_head node))
    cases h' with
    | known node' lookup' new' rest' =>
      cases hnode'.symm.trans node'
      cases (lookup'.symm.trans hlookup).trans lookup
      exact .leaf rfl new new' (ih rest' (hc.mono (by simp)) hk)
    | unknown node' lookup' =>
      cases hnode'.symm.trans node'
      cases (lookup'.symm.trans hlookup).trans lookup
    | constant node' | computed node' | arithmetic node' | call node' => cases hnode'.symm.trans node'
  | computed node operands _ hleft hright new _ ihoperands ih =>
    have hnode' := hc.same.node?_eq List.mem_cons_self node
    have hc₁ := hc.inner List.mem_cons_self node (List.Subset.refl _)
    cases operands.knowledge_eq_of_callFree hc₁.callFree
    cases h' with
    | computed node' operands' _ hleft' hright' new' rest' =>
      cases hnode'.symm.trans node'
      cases operands'.knowledge_eq_of_callFree hc₁.callFree_right
      have hslots := ihoperands operands' hc₁ hk
      cases hleft'.symm.trans (hslots.constant_iff.2 hleft)
      cases hright'.symm.trans (hslots.tail.constant_iff.2 hright)
      exact .leaf rfl new new' (ih rest' (hc.mono (by simp)) hk)
    | arithmetic node' operands' _ stuck' =>
      cases hnode'.symm.trans node'
      have hslots := ihoperands operands' hc₁ hk
      exact absurd ⟨⟨_, hslots.constant_iff.2 hleft⟩, ⟨_, hslots.tail.constant_iff.2 hright⟩⟩ stuck'
    | constant node' | unknown node' | known node' | call node' => cases hnode'.symm.trans node'
  | arithmetic node operands final stuck _ ihoperands ih =>
    have hnode' := hc.same.node?_eq List.mem_cons_self node
    have hc₁ := hc.inner List.mem_cons_self node (List.Subset.refl _)
    cases operands.knowledge_eq_of_callFree hc₁.callFree
    cases h' with
    | computed node' operands' _ hleft' hright' =>
      cases hnode'.symm.trans node'
      have hslots := ihoperands operands' hc₁ hk
      exact absurd ⟨⟨_, hslots.constant_iff.1 hleft'⟩, ⟨_, hslots.tail.constant_iff.1 hright'⟩⟩ stuck
    | arithmetic node' operands' final' _ rest' =>
      cases hnode'.symm.trans node'
      cases operands'.knowledge_eq_of_callFree hc₁.callFree_right
      exact .cons final final' rfl (ihoperands operands' hc₁ hk) (ih rest' (hc.mono (by simp)) hk)
    | constant node' | unknown node' | known node' | call node' => cases hnode'.symm.trans node'
  | call node => exact absurd ⟨_, node, rfl⟩ (hc.callFree _ _ (under_self List.mem_cons_self))

end ExprTrace

/-! ## Statements -/

variable {N : String → Prop} {f f' f₂ f₂' : NameMap NameSet} {k k' k₂ k₂' : Knowledge}

/-- Without calls, simplifying a comparison changes nothing of what is known. -/
theorem TestTrace.knowledge_eq_of_callFree (h : g.TestTrace g₁ f k id k₂) (hfree : g.CallFree [id]) :
    k₂ = k := by
  obtain ⟨op, lhs, rhs, left, right, node, hoperands, -⟩ := h
  exact hoperands.knowledge_eq_of_callFree (hfree.children List.mem_cons_self node)

/-- A condition is simplified alike in both graphs if the tables agree on what it reads. -/
theorem TestTrace.alike (h : g.TestTrace g₁ f k id k₂) (h' : g'.TestTrace g₁' f' k' id k₂')
    (hr : Rewrites S g g₁) (hr' : Rewrites S' g' g₁') (hc : g.Common g' N [id]) (hk : k.AgreeOn N k') :
    g₁.Alike g₁' [id] [id] := by
  obtain ⟨op, lhs, rhs, left, right, node, hoperands, final⟩ := h
  obtain ⟨op', lhs', rhs', left', right', node', hoperands', final'⟩ := h'
  cases (hc.same.node?_eq List.mem_cons_self node).symm.trans node'
  have hslots := hoperands.alike hoperands' hr hr'
    (hc.inner List.mem_cons_self node (List.Subset.refl _)) hk
  exact .cons final final' rfl hslots .nil

/-- The names that a common block may assign are the same in both graphs. -/
theorem Common.assigns_iff (hc : g.Common g' N ids) {names names' : NameSet}
    (h : g.Assigns f ids names) (h' : g'.Assigns f' ids names') :
    x ∈ names'.toList ↔ x ∈ names.toList := by
  rw [h.mem_iff hc.callFree, h'.mem_iff hc.callFree_right, hc.same.storesIn_iff]

/-- Statements that two graphs have in common become alike, if the same is known of the names that
they read, and then the same is known of these names afterwards. -/
theorem BlockTrace.alike (h : g.BlockTrace g₁ k f ids k₂ f₂) (h' : g'.BlockTrace g₁' k' f' ids k₂' f₂')
    (hr : Rewrites S g g₁) (hr' : Rewrites S' g' g₁') (hc : g.Common g' N ids) (hk : k.AgreeOn N k') :
    g₁.Alike g₁' ids ids ∧ k₂.AgreeOn N k₂' := by
  induction h generalizing k' f' k₂' f₂' N with
  | nil =>
    cases h'
    exact ⟨.nil, hk⟩
  | assign node var hvalue final _ ih =>
    have hnode' := hc.same.node?_eq List.mem_cons_self node
    have hvar' := (hc.same.children List.mem_cons_self node).node?_eq List.mem_cons_self var
    have hc₁ := hc.inner List.mem_cons_self node (List.Subset.refl _)
    cases hvalue.knowledge_eq_of_callFree hc₁.callFree
    cases h' with
    | assign node' var' hvalue' final' rest' =>
      cases hnode'.symm.trans node'
      cases hvar'.symm.trans var'
      cases hvalue'.knowledge_eq_of_callFree hc₁.callFree_right
      have hslot := hvalue.alike hvalue' hr hr' hc₁ hk
      obtain ⟨hrest, hk₂⟩ := ih rest' (hc.mono (by simp)) (hslot.learn _ hk)
      exact ⟨.cons final final' rfl (.leaf rfl (hr.leaf rfl var) (hr'.leaf rfl var') hslot) hrest, hk₂⟩
    | updateElement node' | ifElse node' | whileLoop node' | functionDef node' | debug node' =>
      cases hnode'.symm.trans node'
  | updateElement node var hvalue final _ ih =>
    have hnode' := hc.same.node?_eq List.mem_cons_self node
    have hvar' := (hc.same.children List.mem_cons_self node).node?_eq List.mem_cons_self var
    have hc₁ := hc.inner List.mem_cons_self node (List.Subset.refl _)
    cases hvalue.knowledge_eq_of_callFree hc₁.callFree
    cases h' with
    | updateElement node' var' hvalue' final' rest' =>
      cases hnode'.symm.trans node'
      cases hvar'.symm.trans var'
      cases hvalue'.knowledge_eq_of_callFree hc₁.callFree_right
      have hslot := hvalue.alike hvalue' hr hr' hc₁ hk
      obtain ⟨hrest, hk₂⟩ := ih rest' (hc.mono (by simp)) (hk.invalidate _)
      exact ⟨.cons final final' rfl (.leaf rfl (hr.leaf rfl var) (hr'.leaf rfl var') hslot) hrest, hk₂⟩
    | assign node' | ifElse node' | whileLoop node' | functionDef node' | debug node' =>
      cases hnode'.symm.trans node'
  | ifElse node test _ _ hnames final _ ihthen ihelse ih =>
    have hnode' := hc.same.node?_eq List.mem_cons_self node
    have hinner := hc.inner List.mem_cons_self node (List.Subset.refl _)
    have hc₁ := hinner.mono (List.cons_subset_cons _ (List.nil_subset _))
    cases test.knowledge_eq_of_callFree hc₁.callFree
    cases h' with
    | ifElse node' test' hthen' helse' hnames' final' rest' =>
      cases hnode'.symm.trans node'
      cases test'.knowledge_eq_of_callFree hc₁.callFree_right
      have htest := test.alike test' hr hr' hc₁ hk
      obtain ⟨hthen, hk₁⟩ := ihthen hthen' (hinner.mono (by simp [Node.inner])) hk.openFrame
      obtain ⟨helse, hk₂⟩ := ihelse helse' (hinner.mono (by simp [Node.inner])) hk₁.closeFrame.openFrame
      have hblocks := hinner.mono (List.subset_cons_self _ _)
      obtain ⟨hrest, hk₃⟩ := ih rest' (hc.mono (by simp))
        (hk₂.closeFrame.invalidateAll fun x _ => hblocks.assigns_iff hnames hnames')
      exact ⟨.cons final final' rfl (htest.append (hthen.append helse)) hrest, hk₃⟩
    | assign node' | updateElement node' | whileLoop node' | functionDef node' | debug node' =>
      cases hnode'.symm.trans node'
  | whileLoop node hnames test _ final _ ihbody ih =>
    have hnode' := hc.same.node?_eq List.mem_cons_self node
    have hinner := hc.inner List.mem_cons_self node (List.Subset.refl _)
    have hc₁ := hinner.mono (List.cons_subset_cons _ (List.nil_subset _))
    have hbody := hinner.mono (List.subset_cons_self _ _)
    cases test.knowledge_eq_of_callFree hc₁.callFree
    cases h' with
    | whileLoop node' hnames' test' hbody' final' rest' =>
      cases hnode'.symm.trans node'
      cases test'.knowledge_eq_of_callFree hc₁.callFree_right
      have hk₁ := hk.invalidateAll fun x _ => hbody.assigns_iff hnames hnames'
      have htest := test.alike test' hr hr' hc₁ hk₁
      obtain ⟨hround, hk₂⟩ := ihbody hbody' hbody hk₁.openFrame
      obtain ⟨hrest, hk₃⟩ := ih rest' (hc.mono (by simp))
        (hk₂.closeFrame.invalidateAll fun x _ => hbody.assigns_iff hnames hnames')
      exact ⟨.cons final final' rfl (htest.append hround) hrest, hk₃⟩
    | assign node' | updateElement node' | ifElse node' | functionDef node' | debug node' =>
      cases hnode'.symm.trans node'
  | functionDef node _ _ final _ ihbody ih =>
    have hnode' := hc.same.node?_eq List.mem_cons_self node
    -- nothing is known where the body begins, so it does not matter which names it reads
    have hbody : g.Common g' (fun _ => True) _ :=
      ⟨(hc.same.children List.mem_cons_self node).mono (List.subset_append_right _ _),
        (hc.callFree.children List.mem_cons_self node).mono (List.subset_append_right _ _),
        fun _ _ => trivial⟩
    cases h' with
    | functionDef node' _ hbody' final' rest' =>
      cases hnode'.symm.trans node'
      obtain ⟨hrest, hk₂⟩ := ih rest' (hc.mono (by simp)) hk
      exact ⟨.cons final final' rfl (ihbody hbody' hbody (.refl _ _)).1 hrest, hk₂⟩
    | assign node' | updateElement node' | ifElse node' | whileLoop node' | debug node' =>
      cases hnode'.symm.trans node'
  | debug node _ ih =>
    have hnode' := hc.same.node?_eq List.mem_cons_self node
    cases h' with
    | debug node' rest' =>
      obtain ⟨hrest, hk₂⟩ := ih rest' (hc.mono (by simp)) hk
      exact ⟨.leaf rfl (hr.leaf rfl node) (hr'.leaf rfl hnode') hrest, hk₂⟩
    | assign node' | updateElement node' | ifElse node' | whileLoop node' | functionDef node' =>
      cases hnode'.symm.trans node'

end Graph

end RegisterBackend
