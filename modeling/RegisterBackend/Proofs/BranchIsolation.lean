import RegisterBackend.Proofs.PropagationPoints
import RegisterBackend.Proofs.Refolding

/-!
# The two blocks of a branch

Constant propagation simplifies the two blocks of a branch one after the other, each in a frame of
its own. What the first block records is taken back when its frame is closed, so that the second
block begins with what was known before the branch. This module says how far the second block is
rewritten independently of the first one.

There are two ways in which the first block has an effect on the second one. A name that is known
before the branch and that the first block makes unknown (`Graph.Unlearns`) is forgotten in all
frames, and so it is unknown in the second block too; of the other names, the same is known as
before (`BlockTrace.fades`). And a loop around the branch forgets beforehand what is assigned
anywhere in its body. Apart from that, the second block comes out the same whatever the first one is
(`Program.else_block_isolated`): two runs on programs that differ in the first block come to the
branch with the same knowledge, which is followed along the way to the branch
(`Varies.alike_of_trace`). A branch that stands in no block, but below the parameters of a function,
is left as it is in both programs (`Program.alike_of_not_standsIn`).
-/

namespace RegisterBackend

namespace Graph

variable {g g' g₁ g₁' : Graph} {ids ids' : List NodeId} {id n target : NodeId} {node : Node}
  {x : String} {S S' : NodeId → Prop} {v : Variable}

/-! ## Names that become unknown -/

/-- The statement makes the name unknown: it assigns what is no constant, or an element of an array,
or is a branch or a loop in which the name is assigned. -/
def Blurs (g : Graph) (id : NodeId) (x : String) : Prop :=
  match g.node? id with
  | some (.assign _ value) => g.Stores id x ∧ ¬ g.IsConstant value
  | some (.updateElement ..) => g.Stores id x
  | some (.ifElse _ thenBlock elseBlock) => g.StoresIn (thenBlock ++ elseBlock) x
  | some (.whileLoop _ body) => g.StoresIn body x
  | _ => False

/-- One of the statements makes the name unknown. -/
def Unlearns (g : Graph) (ids : List NodeId) (x : String) : Prop :=
  ∃ id ∈ ids, g.Blurs id x

theorem unlearns_cons : g.Unlearns (id :: ids) x ↔ g.Blurs id x ∨ g.Unlearns ids x := by
  simp [Unlearns]

theorem unlearns_append : g.Unlearns (ids ++ ids') x ↔ g.Unlearns ids x ∨ g.Unlearns ids' x := by
  simp [Unlearns, or_and_right, exists_or]

theorem blurs_ifElse {cond : NodeId} (hnode : g.node? id = some (.ifElse cond ids ids'))
    (x : String) : g.Blurs id x ↔ g.StoresIn (ids ++ ids') x := by
  simp only [Blurs, hnode]

theorem blurs_whileLoop {cond : NodeId} (hnode : g.node? id = some (.whileLoop cond ids))
    (x : String) : g.Blurs id x ↔ g.StoresIn ids x := by
  simp only [Blurs, hnode]

theorem not_blurs_functionDef {name : String} {returns : Kind}
    (hnode : g.node? id = some (.functionDef name ids ids' returns)) (x : String) : ¬ g.Blurs id x := by
  simp only [Blurs, hnode, not_false_eq_true]

theorem not_blurs_debug {text : String} (hnode : g.node? id = some (.debug text)) (x : String) :
    ¬ g.Blurs id x := by
  simp only [Blurs, hnode, not_false_eq_true]

theorem stores_iff_target (hnode : g.node? id = some node) (htarget : node.target? = some target)
    (hvar : g.node? target = some (.var v)) : g.Stores id x ↔ v.name = x := by
  simp [Stores, hnode, htarget, hvar]

theorem blurs_assign {value : NodeId} (hnode : g.node? id = some (.assign target value))
    (hvar : g.node? target = some (.var v)) : g.Blurs id x ↔ v.name = x ∧ ¬ g.IsConstant value := by
  simp only [Blurs, hnode, stores_iff_target hnode rfl hvar]

/-- The assignment of an element makes exactly the array unknown. -/
theorem blurs_updateElement {index : Nat} {value : NodeId}
    (hnode : g.node? id = some (.updateElement target index value))
    (hvar : g.node? target = some (.var v)) : g.Blurs id x ↔ v.name = x := by
  simp only [Blurs, hnode, stores_iff_target hnode rfl hvar]

/-- What makes a name unknown assigns it. -/
theorem Unlearns.storesIn (h : g.Unlearns ids x) : g.StoresIn ids x := by
  obtain ⟨id, hid, h⟩ := h
  unfold Blurs at h
  split at h
  next => exact ⟨id, ⟨id, hid, .refl⟩, h.1⟩
  next => exact ⟨id, ⟨id, hid, .refl⟩, h⟩
  next hnode => exact h.of_inner (List.subset_cons_self _ _) hid hnode
  next hnode => exact h.of_inner (List.subset_cons_self _ _) hid hnode
  next => exact h.elim

open Knowledge.View

/-- An assignment makes the name unknown if the value is no constant in the end. -/
theorem fades_learn {k : Knowledge} {value : NodeId} (hframe : (k.view x).later ≠ [])
    (hnode : g.node? id = some (.assign target value)) (hvar : g.node? target = some (.var v)) :
    Fades (g.Blurs id x) (k.view x) ((k.learn v.name (g.node? value)).view x) := by
  have hblurs : g.Blurs id x ↔ v.name = x ∧ ¬ g.IsConstant value := blurs_assign hnode hvar
  by_cases hconst : g.IsConstant value
  · have hnot : ¬ g.Blurs id x := fun h => (hblurs.1 h).2 hconst
    obtain ⟨l, hl⟩ := hconst
    rw [hl, Knowledge.learn, Knowledge.view_record]
    split
    next => exact .record hframe hnot l
    next => exact .refl _ hnot
  · rw [k.learn_eq_invalidate hconst, Knowledge.view_invalidate]
    split
    next hx => exact .forget _ (hblurs.2 ⟨hx, hconst⟩)
    next hx => exact .refl _ fun h => hx (hblurs.1 h).1

/-- The assignment of an element makes the name of the array unknown. -/
theorem fades_update (k : Knowledge) {index : Nat} {value : NodeId}
    (hnode : g.node? id = some (.updateElement target index value))
    (hvar : g.node? target = some (.var v)) :
    Fades (g.Blurs id x) (k.view x) ((k.invalidate v.name).view x) := by
  have hblurs : g.Blurs id x ↔ v.name = x := blurs_updateElement hnode hvar
  rw [Knowledge.view_invalidate]
  split
  next hx => exact .forget _ (hblurs.2 hx)
  next hx => exact .refl _ (mt hblurs.1 hx)

/-- A name fades over a statement and those behind it if it does over each of the two parts. -/
theorem fades_cons {v₀ v₁ w : Knowledge.View} (hframe : v₀.later ≠ [])
    (hstep : Fades (g.Blurs id x) v₀ v₁) (hrest : v₁.later ≠ [] → Fades (g.Unlearns ids x) v₁ w) :
    Fades (g.Unlearns (id :: ids) x) v₀ w :=
  (hstep.trans (hrest (hstep.later_ne hframe))).congr unlearns_cons

/-- A block in a frame makes some names unknown, and leaves what will be known of the other names
behind the frame as it was. -/
theorem BlockTrace.fades {k k₂ : Knowledge} {f f₂ : NameMap NameSet}
    (h : g.BlockTrace g₁ k f ids k₂ f₂) (hr : Rewrites S g g₁) (hfree : g.CallFree ids)
    (hframe : (k.view x).later ≠ []) : Fades (g₁.Unlearns ids x) (k.view x) (k₂.view x) := by
  induction h with
  | nil => exact .refl _ (by simp [Unlearns])
  | assign node var hvalue final _ ih =>
    have hparts := hfree.children List.mem_cons_self node
    cases hvalue.knowledge_eq_of_callFree (hparts.mono (by simp [Node.children]))
    exact fades_cons hframe (fades_learn hframe final (hr.leaf rfl var)) (ih (hfree.mono (by simp)))
  | updateElement node var hvalue final _ ih =>
    have hparts := hfree.children List.mem_cons_self node
    cases hvalue.knowledge_eq_of_callFree (hparts.mono (by simp [Node.children]))
    exact fades_cons hframe (fades_update _ final (hr.leaf rfl var)) (ih (hfree.mono (by simp)))
  | ifElse node test _ _ hnames final _ ihthen ihelse ih =>
    have hparts := hfree.children List.mem_cons_self node
    cases test.knowledge_eq_of_callFree (hparts.mono (by simp [Node.children]))
    have hblurs := (hnames.mem_iff (hparts.mono (by simp [Node.children]))).trans
      (hr.storesIn_iff.symm.trans (blurs_ifElse final x).symm)
    have hthen := Knowledge.rests_closeFrame
      (ihthen (hparts.mono (by simp [Node.children])) (Knowledge.later_openFrame_ne _ x))
    have helse := Knowledge.rests_closeFrame
      (ihelse (hparts.mono (by simp [Node.children])) (Knowledge.later_openFrame_ne _ x))
    have hstep := Knowledge.fades_behind (hthen.trans helse)
      (fun h => (blurs_ifElse final x).2 (unlearns_append.2 h).storesIn) hblurs
    exact fades_cons hframe hstep (ih (hfree.mono (by simp)))
  | whileLoop node hnames test _ final _ ihbody ih =>
    have hparts := hfree.children List.mem_cons_self node
    cases test.knowledge_eq_of_callFree (hparts.mono (by simp [Node.children]))
    have hblurs := (hnames.mem_iff (hparts.mono (by simp [Node.children]))).trans
      (hr.storesIn_iff.symm.trans (blurs_whileLoop final x).symm)
    have hbody := Knowledge.rests_closeFrame
      (ihbody (hparts.mono (by simp [Node.children])) (Knowledge.later_openFrame_ne _ x))
    have hbehind := Knowledge.fades_behind hbody
      (fun h => (blurs_whileLoop final x).2 h.storesIn) hblurs
    -- the names are forgotten twice, before the loop and behind it
    have hstep := ((Knowledge.fades_invalidateAll _ hblurs).trans hbehind).congr or_self_iff.symm
    exact fades_cons hframe hstep (ih (hfree.mono (by simp)))
  | functionDef _ _ _ final _ _ ih =>
    exact fades_cons hframe (.refl _ (not_blurs_functionDef final x)) (ih (hfree.mono (by simp)))
  | debug node _ ih =>
    exact fades_cons hframe (.refl _ (not_blurs_debug (hr.leaf rfl node) x)) (ih (hfree.mono (by simp)))

/-! ## The way to a branch -/

/-- The second statement is the first one or stands in a block of it, at any depth. -/
def Nests (g : Graph) : NodeId → NodeId → Prop :=
  Relation.ReflTransGen fun a b => ∃ node, g.node? a = some node ∧ b ∈ node.nested

/-- The statement is one of the listed ones or stands in a block of one of them. -/
def StandsIn (g : Graph) (ids : List NodeId) (id : NodeId) : Prop :=
  ∃ root ∈ ids, g.Nests root id

theorem Nests.reaches {a b : NodeId} (h : g.Nests a b) : g.Reaches a b :=
  Relation.ReflTransGen.mono
    (fun _ _ ⟨node, hnode, hb⟩ => ⟨node, hnode, node.nested_sublist_children.subset hb⟩) _ _ h

/-- The graphs differ in a branch, which has another block for the case that the condition holds.
There may be more nodes in the second graph. -/
structure Varies (g g' : Graph) (id cond : NodeId) (thenBlock thenBlock' elseBlock : List NodeId) :
    Prop where
  node : g.node? id = some (.ifElse cond thenBlock elseBlock)
  node' : g'.node? id = some (.ifElse cond thenBlock' elseBlock)
  others : ∀ {n node}, n ≠ id → g.node? n = some node → g'.node? n = some node

/-! ## Branches that are not simplified -/

/-- Two graphs that have the nodes of a third one have its trees. -/
theorem Grounded.alike (h : g.Grounded id) (hsame : g.Same g₁ [id]) (hsame' : g.Same g₁' [id]) :
    g₁.Alike g₁' [id] [id] := by
  induction h with
  | @intro id node hnode _ ih =>
    have hid := List.mem_singleton_self id
    refine .cons (hsame.node?_eq hid hnode) (hsame'.node?_eq hid hnode) rfl
      (.of_forall fun c hc => ?_) .nil
    have hc := node.parts_subset_children hc
    have hsub : [c] ⊆ node.children := List.cons_subset.2 ⟨hc, List.nil_subset _⟩
    exact ih c hc ((hsame.children hid hnode).mono hsub) ((hsame'.children hid hnode).mono hsub)

/-- There are no statements below what is simplified as an evaluable. -/
theorem ExprTrace.not_isStatement {k k' : Knowledge} {f : NameMap NameSet}
    (h : g.ExprTrace g₁ f k ids k' ids') (hid : id ∈ ids) (hn : g.Reaches id n)
    (hnode : g.node? n = some node) : node.isStatement = false := by
  induction h generalizing id with
  | nil => cases hid
  | constant node' _ ih | unknown node' _ _ ih | known node' _ _ _ ih =>
    rcases List.mem_cons.1 hid with rfl | hid
    · cases eq_of_reaches_leaf node' rfl hn
      cases hnode.symm.trans node'
      rfl
    · exact ih hid hn
  | computed node' _ _ _ _ _ _ ihparts ih | arithmetic node' _ _ _ _ ihparts ih
  | call node' _ _ _ ihparts ih =>
    rcases List.mem_cons.1 hid with rfl | hid
    · rcases hn.cases_node node' with rfl | ⟨c, hc, hcn⟩
      · cases hnode.symm.trans node'
        rfl
      · exact ihparts hc hcn
    · exact ih hid hn

/-- There are no statements in the condition of a branch or a loop. -/
theorem TestTrace.not_isStatement {k k' : Knowledge} {f : NameMap NameSet}
    (h : g.TestTrace g₁ f k id k') (hn : g.Reaches id n) (hnode : g.node? n = some node) :
    node.isStatement = false := by
  obtain ⟨op, lhs, rhs, left, right, node', hoperands, -⟩ := h
  rcases hn.cases_node node' with rfl | ⟨c, hc, hcn⟩
  · cases hnode.symm.trans node'
    rfl
  · exact hoperands.not_isStatement hc hcn hnode

/-- The statements below those that are simplified stand in their blocks, or below the parameters of
a function. -/
theorem BlockTrace.nests {k k' : Knowledge} {f f' : NameMap NameSet}
    (h : g.BlockTrace g₁ k f ids k' f') (hid : id ∈ ids) (hn : g.Enters id n)
    (hnode : g.node? n = some node) (hstatement : node.isStatement = true) : g.Nests id n := by
  induction h generalizing id with
  | nil => cases hid
  | assign node' var hvalue _ _ ih | updateElement node' var hvalue _ _ ih =>
    rcases List.mem_cons.1 hid with rfl | hid
    · rcases hn.cases_node node' with rfl | ⟨c, hc, hcn⟩
      · exact .refl
      · simp only [Node.parts, Node.children, List.mem_cons, List.not_mem_nil, or_false] at hc
        rcases hc with rfl | rfl
        · cases eq_of_reaches_leaf var rfl (Enters.reaches hcn)
          cases hnode.symm.trans var
          cases hstatement
        · have hnot := hvalue.not_isStatement List.mem_cons_self (Enters.reaches hcn) hnode
          cases hnot.symm.trans hstatement
    · exact ih hid hn
  | ifElse node' test _ _ _ _ _ ihthen ihelse ih =>
    rcases List.mem_cons.1 hid with rfl | hid
    · rcases hn.cases_node node' with rfl | ⟨c, hc, hcn⟩
      · exact .refl
      · rcases List.mem_cons.1 hc with rfl | hc
        · have hnot := test.not_isStatement (Enters.reaches hcn) hnode
          cases hnot.symm.trans hstatement
        · refine .head ⟨_, node', hc⟩ ?_
          rcases List.mem_append.1 hc with hc | hc
          · exact ihthen hc hcn
          · exact ihelse hc hcn
    · exact ih hid hn
  | whileLoop node' _ test _ _ _ ihbody ih =>
    rcases List.mem_cons.1 hid with rfl | hid
    · rcases hn.cases_node node' with rfl | ⟨c, hc, hcn⟩
      · exact .refl
      · rcases List.mem_cons.1 hc with rfl | hc
        · have hnot := test.not_isStatement (Enters.reaches hcn) hnode
          cases hnot.symm.trans hstatement
        · exact .head ⟨_, node', hc⟩ (ihbody hc hcn)
    · exact ih hid hn
  | functionDef node' _ _ _ _ ihbody ih =>
    rcases List.mem_cons.1 hid with rfl | hid
    · rcases hn.cases_node node' with rfl | ⟨c, hc, hcn⟩
      · exact .refl
      · exact .head ⟨_, node', hc⟩ (ihbody hc hcn)
    · exact ih hid hn
  | debug node' _ ih =>
    rcases List.mem_cons.1 hid with rfl | hid
    · cases eq_of_reaches_leaf node' rfl (Enters.reaches hn)
      exact .refl
    · exact ih hid hn

/-- Statements of a program from which a branch is looked for, together with another program in
which the branch is different. -/
structure Searched (g g' : Graph) (ids : List NodeId) : Prop where
  separated : g.Separated ids
  closed : g.Closed ids
  callFree : g.CallFree ids
  callFree' : g'.CallFree ids

namespace Searched

/-- The branch can be looked for among fewer statements. -/
theorem sublist (h : g.Searched g' ids) (hsub : ids'.Sublist ids) : g.Searched g' ids' where
  separated := h.separated.sublist hsub
  closed := h.closed.mono hsub.subset
  callFree := h.callFree.mono hsub.subset
  callFree' := h.callFree'.mono hsub.subset

/-- The branch can be looked for in the blocks of a statement that is the same in both programs. -/
theorem nested (h : g.Searched g' ids) (hid : id ∈ ids) (hnode : g.node? id = some node)
    (hnode' : g'.node? id = some node) : g.Searched g' node.nested where
  separated := (h.separated.children hid hnode).sublist node.nested_sublist_children
  closed := (h.closed.children hid hnode).mono node.nested_sublist_children.subset
  callFree := (h.callFree.children hid hnode).mono node.nested_sublist_children.subset
  callFree' := (h.callFree'.children hid hnode').mono node.nested_sublist_children.subset

end Searched

namespace Varies

variable {cond : NodeId} {thenBlock thenBlock' elseBlock body : List NodeId}
  {k k' k₂ k₃ k₂' k₃' : Knowledge} {f f' f₂ f₃ f₂' f₃' : NameMap NameSet} {N : String → Prop}

/-- Whether two graphs differ in the branch only can be seen from the nodes of the first one. -/
theorem of_nodes (hnode : g.node? id = some (.ifElse cond thenBlock elseBlock))
    (hnode' : g'.node? id = some (.ifElse cond thenBlock' elseBlock))
    (hothers : ∀ i < g.size, (⟨i⟩ : NodeId) ≠ id → g'.node? ⟨i⟩ = g.node? ⟨i⟩) :
    g.Varies g' id cond thenBlock thenBlock' elseBlock where
  node := hnode
  node' := hnode'
  others hne hn := (hothers _ (index_lt_of_node? hn) hne).trans hn

/-- Where the branch is not, the graphs are the same. -/
theorem same (h : g.Varies g' id cond thenBlock thenBlock' elseBlock) (hclosed : g.Closed ids)
    (hnot : ¬ g.Under ids id) : g.Same g' ids := by
  intro n hn
  obtain ⟨node, hnode⟩ := hclosed n hn
  rw [hnode]
  refine h.others ?_ hnode
  rintro rfl
  exact hnot hn

/-- What leads to the branch in the first graph leads to it in the second one. -/
theorem reaches (h : g.Varies g' id cond thenBlock thenBlock' elseBlock) {root : NodeId}
    (hpath : g.Reaches root id) : g'.Reaches root id := by
  induction hpath using Relation.ReflTransGen.head_induction_on with
  | refl => exact .refl
  | @head a b hab _ ih =>
    obtain ⟨node, hnode, hb⟩ := hab
    by_cases hne : a = id
    · subst hne
      exact .refl
    · exact .head ⟨node, h.others hne hnode, hb⟩ ih

/-- In a block of which the branch stands in the second graph, it stands in the first one. -/
theorem nests (h : g.Varies g' id cond thenBlock thenBlock' elseBlock) {root : NodeId}
    (hclosed : g.Closed [root]) (hpath : g'.Nests root id) : g.Nests root id := by
  induction hpath using Relation.ReflTransGen.head_induction_on with
  | refl => exact .refl
  | @head a b hab _ ih =>
    have ha := List.mem_singleton_self a
    by_cases hne : a = id
    · subst hne
      exact .refl
    · obtain ⟨parent, hparent', hb⟩ := hab
      have hparent : g.node? a = some parent := by
        obtain ⟨_, hnode⟩ := hclosed a ⟨a, ha, .refl⟩
        cases hparent'.symm.trans (h.others hne hnode)
        exact hnode
      have hsub : [b] ⊆ parent.children :=
        List.cons_subset.2 ⟨parent.nested_sublist_children.subset hb, List.nil_subset _⟩
      exact .head ⟨parent, hparent, hb⟩ (ih ((hclosed.children ha hparent).mono hsub))

/-- Where one list of statements leads to the branch, another one does not. -/
theorem not_under (h : g.Varies g' id cond thenBlock thenBlock' elseBlock)
    (hsep : g.Separated (ids ++ ids')) (hid : g.Under ids' id) : ¬ g.Under ids id := by
  intro hid'
  cases hsep.isLeaf hid' hid h.node

/-- When the same is known before the branch, the second block becomes alike in both graphs, unless
only one of the first blocks makes a name unknown that was known and that the second block reads. -/
theorem alike_of_branch (h : g.Varies g' id cond thenBlock thenBlock' elseBlock)
    (hr : Rewrites S g g₁) (hr' : Rewrites S' g' g₁') (hs : g.Searched g' ids) (hid : id ∈ ids)
    (hblurs : ∀ x, k.lookup x ≠ none → g.Reads elseBlock x →
      (g₁'.Unlearns thenBlock' x ↔ g₁.Unlearns thenBlock x))
    (hlayered : k.Layered) (hk : k.AgreeOn (g.Reads elseBlock) k')
    (hthen : g.BlockTrace g₁ k.openFrame f thenBlock k₂ f₂)
    (helse : g.BlockTrace g₁ k₂.closeFrame.openFrame f₂ elseBlock k₃ f₃)
    (hthen' : g'.BlockTrace g₁' k'.openFrame f' thenBlock' k₂' f₂')
    (helse' : g'.BlockTrace g₁' k₂'.closeFrame.openFrame f₂' elseBlock k₃' f₃') :
    g₁.Alike g₁' elseBlock elseBlock := by
  have hfree := hs.callFree.children hid h.node
  have hfree' := hs.callFree'.children hid h.node'
  have hnot : ¬ g.Under elseBlock id := fun hn =>
    hs.separated.not_under_children hid h.node (hn.mono (by simp [Node.children]))
  have hclosed := (hs.closed.children hid h.node).mono
    (show elseBlock ⊆ _ by simp [Node.children])
  have hc : g.Common g' (g.Reads elseBlock) elseBlock :=
    { same := h.same hclosed hnot
      callFree := hfree.mono (by simp [Node.children])
      reads := fun _ hx => hx }
  refine (helse.alike helse' hr hr' hc (Knowledge.AgreeOn.openFrame ?_)).1
  intro x hx
  have hfades := hthen.fades hr (hfree.mono (by simp [Node.children])) (k.later_openFrame_ne x)
  have hfades' := hthen'.fades hr' (hfree'.mono (by simp [Node.children])) (k'.later_openFrame_ne x)
  by_cases hlookup : k.lookup x = none
  · -- there is nothing that the first blocks could make unknown
    have hrests := Knowledge.rests_closeFrame hfades
    have hrests' := Knowledge.rests_closeFrame hfades'
    rw [hk x hx] at hrests'
    rw [hrests.eq_of_layered (hlayered x) hlookup, hrests'.eq_of_layered (hlayered x) hlookup]
  · have hiff := hblurs x hlookup hx
    rw [Knowledge.view_closeFrame, Knowledge.view_closeFrame]
    by_cases hun : g₁.Unlearns thenBlock x
    · rw [hfades.fades hun, hfades'.fades (hiff.2 hun), Knowledge.view_openFrame,
        Knowledge.view_openFrame, hk x hx]
    · rw [hfades.stays hun, hfades'.stays (mt hiff.1 hun), Knowledge.view_openFrame,
        Knowledge.view_openFrame, hk x hx]

/-- Statements before the branch leave the same knowledge in both graphs. -/
theorem agreeOn_before (h : g.Varies g' id cond thenBlock thenBlock' elseBlock)
    (hr : Rewrites S g g₁) (hr' : Rewrites S' g' g₁') (hs : g.Searched g' (ids ++ ids'))
    (hid : g.Under ids' id) (hreads : ∀ x, g.Reads ids x → N x)
    (htrace : g.BlockTrace g₁ k f ids k₂ f₂) (htrace' : g'.BlockTrace g₁' k' f' ids k₂' f₂')
    (hk : k.AgreeOn N k') : k₂.AgreeOn N k₂' := by
  have hs₁ := hs.sublist (List.sublist_append_left ids ids')
  have hsame := h.same hs₁.closed (h.not_under hs.separated hid)
  exact (htrace.alike htrace' hr hr' ⟨hsame, hs₁.callFree, hreads⟩ hk).2

/-- Two traces of the same statements come to the one that leads to the branch with the same
knowledge. -/
theorem exists_trace_at (h : g.Varies g' id cond thenBlock thenBlock' elseBlock)
    (hr : Rewrites S g g₁) (hr' : Rewrites S' g' g₁') {root : NodeId} (hroot : root ∈ ids)
    (hpath : g.Nests root id) (hs : g.Searched g' ids) (hreads : ∀ x, g.Reads ids x → N x)
    (hcomes : g.Comes g₁ body ⟨k, f, ids⟩) (htrace : g.BlockTrace g₁ k f ids k₂ f₂)
    (htrace' : g'.BlockTrace g₁' k' f' ids k₂' f₂') (hk : k.AgreeOn N k') :
    ∃ behind k₁ f₁ k₁' f₁', g.Searched g' (root :: behind) ∧
      g.Comes g₁ body ⟨k₁, f₁, root :: behind⟩ ∧ g.BlockTrace g₁ k₁ f₁ (root :: behind) k₂ f₂ ∧
      g'.BlockTrace g₁' k₁' f₁' (root :: behind) k₂' f₂' ∧ k₁.AgreeOn N k₁' := by
  obtain ⟨before, behind, rfl⟩ := List.append_of_mem hroot
  obtain ⟨k₁, f₁, hbefore, hrest⟩ := htrace.append_inv
  obtain ⟨k₁', f₁', hbefore', hrest'⟩ := htrace'.append_inv
  have hid : g.Under (root :: behind) id := ⟨root, List.mem_cons_self, hpath.reaches⟩
  exact ⟨behind, k₁, f₁, k₁', f₁', hs.sublist (List.sublist_append_right _ _),
    Relation.ReflTransGen.trans hcomes (hbefore.moves _), hrest, hrest',
    h.agreeOn_before hr hr' hs hid (fun x hx => hreads x (hx.mono (by simp))) hbefore hbefore' hk⟩

/-- Two traces of the same statements leave the second block of the branch alike. The induction is
on the way from a statement of the list to the branch. -/
theorem alike_of_trace (h : g.Varies g' id cond thenBlock thenBlock' elseBlock)
    (hr : Rewrites S g g₁) (hr' : Rewrites S' g' g₁')
    (hloops : ∀ m c round, g.node? m = some (.whileLoop c round) → g.StandsIn round id →
      ∀ x, g.KnowsAt g₁ body m x → g.Reads round x → (g'.StoresIn round x ↔ g.StoresIn round x))
    (hblurs : ∀ x, g.KnowsAt g₁ body id x → g.Reads elseBlock x →
      (g₁'.Unlearns thenBlock' x ↔ g₁.Unlearns thenBlock x))
    {root : NodeId} (hpath : g.Nests root id) {ids : List NodeId} (hroot : root ∈ ids)
    (hs : g.Searched g' ids) (hreads : ∀ x, g.Reads ids x → N x)
    (hcomes : g.Comes g₁ body ⟨k, f, ids⟩) (htrace : g.BlockTrace g₁ k f ids k₂ f₂)
    (htrace' : g'.BlockTrace g₁' k' f' ids k₂' f₂') (hk : k.AgreeOn N k') :
    g₁.Alike g₁' elseBlock elseBlock := by
  induction hpath using Relation.ReflTransGen.head_induction_on
    generalizing ids k k' f f' k₂ k₂' f₂ f₂' N with
  | refl =>
    have helse : ∀ x, g.Reads elseBlock x → N x := fun x hx =>
      hreads x (hx.of_inner (by simp [Node.inner]) hroot h.node)
    obtain ⟨_, _, _, _, _, hs, hcomes, htrace, htrace', hk⟩ :=
      h.exists_trace_at hr hr' hroot .refl hs hreads hcomes htrace htrace' hk
    obtain ⟨_, _, _, _, hfirst, hsecond, -⟩ := htrace.ifElse_inv hs.callFree h.node
    obtain ⟨_, _, _, _, hfirst', hsecond', -⟩ := htrace'.ifElse_inv hs.callFree' h.node'
    exact h.alike_of_branch hr hr' hs List.mem_cons_self
      (fun x hx => hblurs x ⟨_, _, _, hcomes, hx⟩) hcomes.layered (hk.mono helse) hfirst hsecond hfirst'
      hsecond'
  | @head root b hstep hpath ih =>
    obtain ⟨_, _, _, _, _, hs, hcomes, htrace, htrace', hk⟩ :=
      h.exists_trace_at hr hr' hroot (.head hstep hpath) hs hreads hcomes htrace htrace' hk
    obtain ⟨node, hnode, hb⟩ := hstep
    have hinner : ∀ {ids'}, ids' ⊆ node.inner → ∀ x, g.Reads ids' x → N x := fun hsub x hx =>
      hreads x (hx.of_inner hsub hroot hnode)
    have hne : root ≠ id := by
      rintro rfl
      exact hs.separated.not_reaches List.mem_cons_self hnode
        (node.nested_sublist_children.subset hb) (Nests.reaches hpath)
    have hnode' := h.others hne hnode
    have hnested := hs.nested List.mem_cons_self hnode hnode'
    cases node with
    | ifElse c first second =>
      obtain ⟨_, _, _, _, hfirst, hsecond, hto, hto'⟩ := htrace.ifElse_inv hs.callFree hnode
      obtain ⟨_, _, _, _, hfirst', hsecond', -⟩ := htrace'.ifElse_inv hs.callFree' hnode'
      have hreads₁ : ∀ x, g.Reads first x → N x := hinner (by simp [Node.inner])
      have hreads₂ : ∀ x, g.Reads second x → N x := hinner (by simp [Node.inner])
      rcases List.mem_append.1 hb with hb | hb
      · exact ih hb (hnested.sublist (List.sublist_append_left _ _)) hreads₁ (.tail hcomes hto) hfirst
          hfirst' hk.openFrame
      · have hid : g.Under second id := ⟨b, hb, Nests.reaches hpath⟩
        have hk₁ := h.agreeOn_before hr hr' hnested hid hreads₁ hfirst hfirst' hk.openFrame
        exact ih hb (hnested.sublist (List.sublist_append_right _ _)) hreads₂ (.tail hcomes hto') hsecond
          hsecond' hk₁.closeFrame.openFrame
    | whileLoop c round =>
      obtain ⟨names, _, _, hnames, hround, hto⟩ := htrace.whileLoop_inv hs.callFree hnode
      obtain ⟨names', _, _, hnames', hround', -⟩ := htrace'.whileLoop_inv hs.callFree' hnode'
      -- from here on, the tables need to agree only on what is read in the loop
      have hk₁ : Knowledge.AgreeOn (g.Reads round) _ _ := hk.mono (hinner (List.subset_cons_self _ _))
      refine ih hb hnested (fun _ hx => hx) (.tail hcomes hto) hround hround'
        (hcomes.layered.agreeOn_invalidateAll hk₁ ?_).openFrame
      intro x hx hlookup
      rw [hnames, hnames']
      exact hloops root c round hnode ⟨b, hb, hpath⟩ x ⟨_, _, _, hcomes, hlookup⟩ hx
    | functionDef name params inside returns =>
      obtain ⟨_, _, _, hinside, hto⟩ := htrace.functionDef_inv hnode
      obtain ⟨_, _, _, hinside', -⟩ := htrace'.functionDef_inv hnode'
      exact ih hb hnested (fun _ hx => hx) (.tail hcomes hto) hinside hinside' (.refl _ _)
    | _ => cases hb

end Varies

end Graph

/-! ## Isolation -/

namespace Program

open RegisterBackend.Graph

/-- A run of constant propagation on a program without sharing leaves a trace. -/
theorem traced_of_propagate {p : Program} {s : Propagation} (hbuilt : p.graph.Built)
    (hunshared : p.Unshared) (h : p.propagate = .ok () s) :
    p.graph.BlockTrace s.graph .empty ∅ p.body s.knowledge s.functions :=
  PropagateM.block_traced p.graph s.graph _ p.body _ _ h
    ⟨hunshared.separated, .refl _ _, fun _ _ _ hnode => hnode⟩
    (fun _ hn => (whole_of_propagate hbuilt hunshared h).exists_node hn) (fun _ _ _ hnode => hnode)

/-- What is below a branch that stands in no block is not simplified, and stays as it is. -/
theorem same_of_not_standsIn {p : Program} {s : Propagation} {id cond : NodeId}
    {thenBlock elseBlock : List NodeId} (hbuilt : p.graph.Built) (hunshared : p.Unshared)
    (h : p.propagate = .ok () s) (hid : p.Reachable id)
    (hnode : p.graph.node? id = some (.ifElse cond thenBlock elseBlock))
    (hnot : ¬ p.graph.StandsIn p.body id) : p.graph.Same s.graph [id] := by
  rintro n ⟨_, hmem, hn⟩
  cases List.mem_singleton.1 hmem
  have hr : Rewrites (fun n => ∃ root ∈ p.body, p.graph.Enters root n) p.graph s.graph :=
    PropagateM.forM_rewrites (fun _ _ _ => PropagateM.statement_rewrites) h
      fun root hroot n _ hn _ _ => ⟨root, hroot, hn⟩
  obtain ⟨node, hn'⟩ := (whole_of_propagate hbuilt hunshared h).exists_node (hid.trans hn)
  rw [hn']
  cases hleaf : node.isLeaf with
  | true => exact hr.leaf hleaf hn'
  | false =>
    refine hr.off ?_ hn'
    -- a node below the branch is only entered through the branch, which then stands in a block
    rintro ⟨root, hroot, henters⟩
    have henters := hunshared.enters hroot henters hn' hleaf hid hn
    exact hnot ⟨root, hroot, (traced_of_propagate hbuilt hunshared h).nests hroot henters hnode rfl⟩

/-- A branch that stands in no block is left as it is in both programs. -/
theorem alike_of_not_standsIn {p p' : Program} {s s' : Propagation} {id cond : NodeId}
    {thenBlock thenBlock' elseBlock : List NodeId} (hbuilt : p.graph.Built) (hbuilt' : p'.graph.Built)
    (hunshared : p.Unshared) (hunshared' : p'.Unshared) (hbody : p'.body = p.body)
    (hvaries : p.graph.Varies p'.graph id cond thenBlock thenBlock' elseBlock)
    (hid : p.Reachable id) (hnot : ¬ p.graph.StandsIn p.body id) (h : p.propagate = .ok () s)
    (h' : p'.propagate = .ok () s') : s.graph.Alike s'.graph elseBlock elseBlock := by
  have hwhole := whole_of_propagate hbuilt hunshared h
  have hclosed : ∀ {ids}, (∀ c ∈ ids, p.Reachable c) → p.graph.Closed ids :=
    fun hids _ ⟨c, hc, hn⟩ => hwhole.exists_node ((hids c hc).trans hn)
  have hid' : p'.Reachable id := by
    obtain ⟨root, hroot, hpath⟩ := hid
    exact ⟨root, hbody ▸ hroot, hvaries.reaches hpath⟩
  have hnot' : ¬ p'.graph.StandsIn p'.body id := by
    rintro ⟨root, hroot, hpath⟩
    rw [hbody] at hroot
    refine hnot ⟨root, hroot, hvaries.nests (hclosed fun c hc => ?_) hpath⟩
    exact List.mem_singleton.1 hc ▸ ⟨root, hroot, .refl⟩
  have hmem := List.mem_singleton_self id
  have hsub : ∀ {ids}, elseBlock ⊆ (Node.ifElse cond ids elseBlock).children := by
    simp [Node.children]
  have hchild : ∀ c ∈ elseBlock, p.Reachable c := fun c hc => hid.child ⟨_, hvaries.node, hsub hc⟩
  have hcommon : p.graph.Same p'.graph elseBlock := by
    refine hvaries.same (hclosed hchild) ?_
    rintro ⟨c, hc, hback⟩
    exact hunshared.not_reaches hid ⟨_, hvaries.node, hsub hc⟩ hback
  have hsame := ((same_of_not_standsIn hbuilt hunshared h hid hvaries.node hnot).children hmem
    hvaries.node).mono hsub
  have hsame' := ((same_of_not_standsIn hbuilt' hunshared' h' hid' hvaries.node' hnot').children hmem
    hvaries.node').mono hsub
  refine .of_forall fun c hc => ?_
  have hc' : [c] ⊆ elseBlock := List.cons_subset.2 ⟨hc, List.nil_subset _⟩
  exact (hwhole.grounded (hchild c hc)).alike (hsame.mono hc') ((hcommon.trans hsame').mono hc')

/-- In programs without sharing and without calls, the second block of a branch is rewritten to the
same trees whatever the first one is, with two exceptions. A loop around the branch forgets the
names that its body assigns, so each name that is known before the loop and read in it must be
assigned there with both of the first blocks or with none. And names are forgotten in all frames, so
each name that is known before the branch and read in the second block must become unknown in both
of the first blocks or in none. -/
theorem else_block_isolated {p p' : Program} {s s' : Propagation} {id cond : NodeId}
    {thenBlock thenBlock' elseBlock : List NodeId} (hbuilt : p.graph.Built) (hbuilt' : p'.graph.Built)
    (hunshared : p.Unshared) (hunshared' : p'.Unshared) (hfree : p.graph.CallFree p.body)
    (hfree' : p'.graph.CallFree p'.body) (hbody : p'.body = p.body)
    (hvaries : p.graph.Varies p'.graph id cond thenBlock thenBlock' elseBlock)
    (hid : p.Reachable id) (h : p.propagate = .ok () s) (h' : p'.propagate = .ok () s')
    (hloops : ∀ m c round, p.graph.node? m = some (.whileLoop c round) → p.graph.StandsIn round id →
      ∀ x, p.graph.KnowsAt s.graph p.body m x → p.graph.Reads round x →
        (p'.graph.StoresIn round x ↔ p.graph.StoresIn round x))
    (hblurs : ∀ x, p.graph.KnowsAt s.graph p.body id x → p.graph.Reads elseBlock x →
      (s'.graph.Unlearns thenBlock' x ↔ s.graph.Unlearns thenBlock x)) :
    s.graph.Alike s'.graph elseBlock elseBlock := by
  by_cases hstands : p.graph.StandsIn p.body id
  swap
  · exact alike_of_not_standsIn hbuilt hbuilt' hunshared hunshared' hbody hvaries hid hstands h h'
  obtain ⟨root, hroot, hpath⟩ := hstands
  have htrace := traced_of_propagate hbuilt hunshared h
  have htrace' := traced_of_propagate hbuilt' hunshared' h'
  have hr := PropagateM.forM_statement_rewrites h
  have hr' := PropagateM.forM_statement_rewrites h'
  have hs : p.graph.Searched p'.graph p.body :=
    { separated := hunshared.separated
      closed := fun _ hn => (whole_of_propagate hbuilt hunshared h).exists_node hn
      callFree := hfree
      callFree' := hbody ▸ hfree' }
  rw [hbody] at htrace'
  exact hvaries.alike_of_trace hr hr' hloops hblurs hpath hroot hs (fun _ hx => hx) .refl htrace
    htrace' (.refl _ _)

/-- A branch in a loop, with another block for the case that the condition holds:
`x = 1; w = 2; while c > d do (if a > b then … else (z = x + 1; y = w))`. The statements `w = u` and
`w = 5` may stand in the block. -/
def loopedBranch (thenBlock : List NodeId) : Program :=
  ⟨.ofNodes [.constant (.scalar 1), .var (.scalar "x"), .assign ⟨1⟩ ⟨0⟩,
    .constant (.scalar 2), .var (.scalar "w"), .assign ⟨4⟩ ⟨3⟩,
    .var (.scalar "c"), .var (.scalar "d"), .comparison .greater ⟨6⟩ ⟨7⟩,
    .var (.scalar "a"), .var (.scalar "b"), .comparison .greater ⟨9⟩ ⟨10⟩,
    .var (.scalar "u"), .assign ⟨4⟩ ⟨12⟩, .constant (.scalar 5), .assign ⟨4⟩ ⟨14⟩,
    .constant (.scalar 1), .arithmetic .add ⟨1⟩ ⟨16⟩, .var (.scalar "z"), .assign ⟨18⟩ ⟨17⟩,
    .var (.scalar "y"), .assign ⟨20⟩ ⟨4⟩,
    .ifElse ⟨11⟩ thenBlock [⟨19⟩, ⟨21⟩], .whileLoop ⟨8⟩ [⟨22⟩]],
  [⟨2⟩, ⟨5⟩, ⟨23⟩]⟩

/-- The other block is alike with `w = u` and with `w = 5; w = u`. -/
theorem else_block_isolated_loopedBranch :
    ∃ s s', (loopedBranch [⟨13⟩]).propagate = .ok () s ∧
      (loopedBranch [⟨15⟩, ⟨13⟩]).propagate = .ok () s' ∧ s.stats = ⟨1, 1⟩ ∧
      s.graph.Alike s'.graph [⟨19⟩, ⟨21⟩] [⟨19⟩, ⟨21⟩] := by
  have hbuilt : ∀ thenBlock, (loopedBranch thenBlock).graph.Built := by
    intro thenBlock
    dsimp only [loopedBranch]
    exact built_ofNodes _
  have hfree : ∀ {ids}, (loopedBranch [⟨13⟩]).graph.CallFree ids := .of_nodes (by decide +kernel)
  have hfree' : ∀ {ids}, (loopedBranch [⟨15⟩, ⟨13⟩]).graph.CallFree ids := .of_nodes (by decide +kernel)
  have hvaries : (loopedBranch [⟨13⟩]).graph.Varies (loopedBranch [⟨15⟩, ⟨13⟩]).graph ⟨22⟩ ⟨11⟩ [⟨13⟩]
      [⟨15⟩, ⟨13⟩] [⟨19⟩, ⟨21⟩] :=
    .of_nodes (by decide +kernel) (by decide +kernel) (by decide +kernel)
  have hruns : ∃ u s, (loopedBranch [⟨13⟩]).propagate = .ok u s ∧ s.stats = ⟨1, 1⟩ ∧
      s.graph.node? ⟨13⟩ = some (.assign ⟨4⟩ ⟨12⟩) ∧ s.graph.node? ⟨4⟩ = some (.var (.scalar "w")) ∧
      s.graph.node? ⟨12⟩ = some (.var (.scalar "u")) := by decide +kernel
  have hruns' : ∃ u s, (loopedBranch [⟨15⟩, ⟨13⟩]).propagate = .ok u s ∧
      s.graph.node? ⟨13⟩ = some (.assign ⟨4⟩ ⟨12⟩) ∧ s.graph.node? ⟨4⟩ = some (.var (.scalar "w")) ∧
      s.graph.node? ⟨12⟩ = some (.var (.scalar "u")) ∧
      s.graph.node? ⟨15⟩ = some (.assign ⟨4⟩ ⟨14⟩) := by decide +kernel
  obtain ⟨u, s, h, hstats, h13, h4, h12⟩ := hruns
  obtain ⟨u', s', h', h13', h4', h12', h15'⟩ := hruns'
  refine ⟨s, s', h, h', hstats, ?_⟩
  refine else_block_isolated (hbuilt _) (hbuilt _) (unshared_of_nodup (by decide +kernel))
    (unshared_of_nodup (by decide +kernel)) hfree hfree' rfl hvaries
    ⟨⟨23⟩, by decide, .single ⟨.whileLoop ⟨8⟩ [⟨22⟩], by decide +kernel, by decide⟩⟩ h h' ?_ ?_
  · intro m c round hm _ x _ _
    have hloop : ∀ i < (loopedBranch [⟨13⟩]).graph.size,
        ((loopedBranch [⟨13⟩]).graph.node? ⟨i⟩).map Node.shape = some .whileLoop →
          (loopedBranch [⟨13⟩]).graph.node? ⟨i⟩ = some (.whileLoop ⟨8⟩ [⟨22⟩]) := by decide +kernel
    cases hm.symm.trans (hloop m.index (index_lt_of_node? hm) (by rw [hm]; rfl))
    rw [storesIn_iff_mem ∅ 9 ["w", "y", "z"] (by decide +kernel) hfree,
      storesIn_iff_mem ∅ 9 ["w", "y", "z"] (by decide +kernel) hfree']
  · intro x _ _
    have hu : ¬ s.graph.IsConstant ⟨12⟩ := fun ⟨_, hl⟩ => by cases h12.symm.trans hl
    have hu' : ¬ s'.graph.IsConstant ⟨12⟩ := fun ⟨_, hl⟩ => by cases h12'.symm.trans hl
    simp only [Unlearns, List.mem_cons, List.not_mem_nil, or_false, exists_eq_or_imp, exists_eq_left,
      blurs_assign h13 h4, blurs_assign h13' h4', blurs_assign h15' h4', hu, hu', not_false_eq_true,
      and_true]
    exact or_iff_right_of_imp And.left

/-- A branch whose first block makes a known name unknown, and a branch in a loop whose first block
assigns a name that is known before the loop: `x = 1; w = 1; if a > b then … else (y = x); while c >
d do (if a > b then … else (z = w))`. The statements `x = u` and `w = 5` may stand in the first
blocks. -/
def forgottenNames (first second : List NodeId) : Program :=
  ⟨.ofNodes [.constant (.scalar 1), .var (.scalar "x"), .assign ⟨1⟩ ⟨0⟩,
    .constant (.scalar 1), .var (.scalar "w"), .assign ⟨4⟩ ⟨3⟩,
    .var (.scalar "a"), .var (.scalar "b"), .comparison .greater ⟨6⟩ ⟨7⟩,
    .var (.scalar "u"), .assign ⟨1⟩ ⟨9⟩, .var (.scalar "y"), .assign ⟨11⟩ ⟨1⟩,
    .ifElse ⟨8⟩ first [⟨12⟩],
    .var (.scalar "c"), .var (.scalar "d"), .comparison .greater ⟨14⟩ ⟨15⟩,
    .comparison .greater ⟨6⟩ ⟨7⟩, .constant (.scalar 5), .assign ⟨4⟩ ⟨18⟩,
    .var (.scalar "z"), .assign ⟨20⟩ ⟨4⟩, .ifElse ⟨17⟩ second [⟨21⟩], .whileLoop ⟨16⟩ [⟨22⟩]],
  [⟨2⟩, ⟨5⟩, ⟨13⟩, ⟨23⟩]⟩

/-- With `x = u` in the first block, `y = x` is left as it is, and it becomes `y = 1` with nothing
there. In the loop, the same happens to `z = w` with `w = 5` and with nothing. -/
theorem else_block_of_forgottenNames :
    (∀ p ∈ [forgottenNames [⟨10⟩] [⟨19⟩], forgottenNames [] [⟨19⟩], forgottenNames [⟨10⟩] []],
      p.Unshared ∧ p.graph.CallFree p.body ∧ p.graph.StandsIn p.body ⟨13⟩ ∧
        p.graph.StandsIn p.body ⟨22⟩) ∧
    (forgottenNames [⟨10⟩] [⟨19⟩]).graph.Varies (forgottenNames [] [⟨19⟩]).graph ⟨13⟩ ⟨8⟩ [⟨10⟩] []
      [⟨12⟩] ∧
    (forgottenNames [⟨10⟩] [⟨19⟩]).graph.Varies (forgottenNames [⟨10⟩] []).graph ⟨22⟩ ⟨17⟩ [⟨19⟩] []
      [⟨21⟩] ∧
    ∃ s s₁ s₂, (forgottenNames [⟨10⟩] [⟨19⟩]).propagate = .ok () s ∧
      (forgottenNames [] [⟨19⟩]).propagate = .ok () s₁ ∧
      (forgottenNames [⟨10⟩] []).propagate = .ok () s₂ ∧
      ¬ s.graph.Alike s₁.graph [⟨12⟩] [⟨12⟩] ∧ ¬ s.graph.Alike s₂.graph [⟨21⟩] [⟨21⟩] := by
  have hruns : ∃ u s, (forgottenNames [⟨10⟩] [⟨19⟩]).propagate = .ok u s ∧
      s.graph.node? ⟨12⟩ = some (.assign ⟨11⟩ ⟨1⟩) ∧ s.graph.node? ⟨1⟩ = some (.var (.scalar "x")) ∧
      s.graph.node? ⟨21⟩ = some (.assign ⟨20⟩ ⟨4⟩) ∧
      s.graph.node? ⟨4⟩ = some (.var (.scalar "w")) := by decide +kernel
  have hruns₁ : ∃ u s, (forgottenNames [] [⟨19⟩]).propagate = .ok u s ∧
      s.graph.node? ⟨12⟩ = some (.assign ⟨11⟩ ⟨24⟩) ∧
      s.graph.node? ⟨24⟩ = some (.constant (.scalar 1)) := by decide +kernel
  have hruns₂ : ∃ u s, (forgottenNames [⟨10⟩] []).propagate = .ok u s ∧
      s.graph.node? ⟨21⟩ = some (.assign ⟨20⟩ ⟨24⟩) ∧
      s.graph.node? ⟨24⟩ = some (.constant (.scalar 1)) := by decide +kernel
  obtain ⟨_, s, h, h12, h1, h21, h4⟩ := hruns
  obtain ⟨_, s₁, h₁, h12', hone⟩ := hruns₁
  obtain ⟨_, s₂, h₂, h21', hone'⟩ := hruns₂
  refine ⟨?_, .of_nodes (by decide +kernel) (by decide +kernel) (by decide +kernel),
    .of_nodes (by decide +kernel) (by decide +kernel) (by decide +kernel),
    s, s₁, s₂, h, h₁, h₂, fun hy => ?_, fun hz => ?_⟩
  · have hstands : ∀ {p : Program}, p.body = [⟨2⟩, ⟨5⟩, ⟨13⟩, ⟨23⟩] →
        p.graph.node? ⟨23⟩ = some (.whileLoop ⟨16⟩ [⟨22⟩]) →
          p.graph.StandsIn p.body ⟨13⟩ ∧ p.graph.StandsIn p.body ⟨22⟩ := by
      intro p hbody hnode
      rw [hbody]
      exact ⟨⟨⟨13⟩, by decide, .refl⟩, ⟨23⟩, by decide, .single ⟨_, hnode, by decide⟩⟩
    simp only [List.forall_mem_cons]
    refine ⟨⟨unshared_of_nodup ?_, .of_nodes ?_, hstands rfl ?_⟩,
      ⟨unshared_of_nodup ?_, .of_nodes ?_, hstands rfl ?_⟩,
      ⟨unshared_of_nodup ?_, .of_nodes ?_, hstands rfl ?_⟩, nofun⟩ <;> decide +kernel
  · cases h1.symm.trans ((hy.parts h12 h12').tail.constant_iff.1 hone)
  · cases h4.symm.trans ((hz.parts h21 h21').tail.constant_iff.1 hone')

end Program

end RegisterBackend
