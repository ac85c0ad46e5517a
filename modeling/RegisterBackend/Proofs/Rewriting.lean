import Mathlib.Data.List.Forall2
import Mathlib.Logic.Relation
import RegisterBackend.Graph.Basic
import RegisterBackend.Proofs.Sequencing

/-!
# Changing a graph in place

A graph is rewritten by adding constants and by exchanging nodes. `Graph.Rewrites S` says what this
amounts to when the exchanged nodes are in a set `S`: the other nodes stay, and so do all leaves; an
exchanged node differs from the one before in the slots that are computed, each of which refers to
what it referred to before or to a constant that was added (`Node.Amends`, `Graph.Reslots`). So no
new paths come up in the graph, except to constants (`Rewrites.reaches`). What a changed slot
referred to was `Quiet`: it assigned no names, and so none are lost.

`Graph.Covers S` says that the set has all nodes below a given one that can be exchanged. The
parameters of a function only give names, so there is nothing to be exchanged below them
(`Graph.Enters`). The property is kept by rewriting, so the parts of a graph can be rewritten one
after the other.
-/

namespace RegisterBackend

/-! ## Slots -/

/-- What stands on the right of related lists is related to something on the left. -/
theorem exists_mem_of_forall₂ {α β : Type} {R : α → β → Prop} {as : List α} {bs : List β} {b : β}
    (h : List.Forall₂ R as bs) (hb : b ∈ bs) : ∃ a ∈ as, R a b := by
  induction h with
  | nil => cases hb
  | cons hab _ ih =>
    rcases List.mem_cons.1 hb with rfl | hb
    · exact ⟨_, List.mem_cons_self, hab⟩
    · obtain ⟨a, ha, hab⟩ := ih hb
      exact ⟨a, List.mem_cons_of_mem _ ha, hab⟩

/-- Related lists are related in two steps if their members are. -/
theorem forall₂_trans {α β γ : Type} {R : α → β → Prop} {S : β → γ → Prop} {T : α → γ → Prop}
    (hT : ∀ a b c, R a b → S b c → T a c) {as : List α} {bs : List β} {cs : List γ}
    (h : List.Forall₂ R as bs) (h' : List.Forall₂ S bs cs) : List.Forall₂ T as cs := by
  induction h generalizing cs with
  | nil =>
    cases h'
    exact .nil
  | cons hab _ ih =>
    cases h' with
    | cons hbc hrest => exact .cons (hT _ _ _ hab hbc) (ih hrest)

/-- Whether nodes of this form refer to no other nodes. -/
def Shape.isLeaf : Shape → Bool
  | .constant | .var | .debug => true
  | .arithmetic | .call | .assign | .updateElement | .comparison | .ifElse | .whileLoop
  | .functionDef => false

/-- Whether nodes of this form are constants, variables or operations. -/
def Shape.isQuiet : Shape → Bool
  | .constant | .var | .arithmetic => true
  | .call | .assign | .updateElement | .comparison | .ifElse | .whileLoop | .functionDef
  | .debug => false

/-- Whether the node is a constant, a variable or a line of debug output. -/
def Node.isLeaf (node : Node) : Bool :=
  node.shape.isLeaf

/-- Leaves refer to nothing. -/
theorem Node.children_of_isLeaf {node : Node} (h : node.isLeaf = true) : node.children = [] := by
  cases node with
  | constant | var | debug => rfl
  | _ => cases h

namespace Node

/-- The references to what is simplified with the node: all but the parameters of a function. -/
def parts : Node → List NodeId
  | .functionDef _ _ body _ => body
  | node => node.children

theorem parts_subset_children (node : Node) : node.parts ⊆ node.children := by
  cases node <;> simp [parts, children]

variable {R R' T : NodeId → NodeId → Prop} {node node' node₁ : Node}

/-- The nodes are the same but for the slots that are computed when the program runs, and these are
related one by one. -/
inductive Amends (R : NodeId → NodeId → Prop) : Node → Node → Prop
  | same {node : Node} : Amends R node node
  | arithmetic {op lhs rhs lhs' rhs'} (left : R lhs lhs') (right : R rhs rhs') :
    Amends R (.arithmetic op lhs rhs) (.arithmetic op lhs' rhs')
  | call {name ids ids' returns} (args : List.Forall₂ R ids ids') :
    Amends R (.call name ids returns) (.call name ids' returns)
  | assign {target id id'} (value : R id id') : Amends R (.assign target id) (.assign target id')
  | updateElement {target index id id'} (value : R id id') :
    Amends R (.updateElement target index id) (.updateElement target index id')
  | comparison {op lhs rhs lhs' rhs'} (left : R lhs lhs') (right : R rhs rhs') :
    Amends R (.comparison op lhs rhs) (.comparison op lhs' rhs')

namespace Amends

theorem shape_eq (h : node.Amends R node') : node'.shape = node.shape := by
  cases h <;> rfl

/-- The references of the two nodes are related one by one. -/
theorem children (h : node.Amends R node') (hR : ∀ c, R c c) :
    List.Forall₂ R node.children node'.children := by
  cases h with
  | same => exact List.forall₂_same.2 fun c _ => hR c
  | arithmetic left right | comparison left right => exact .cons left (.cons right .nil)
  | call args => exact args
  | assign value | updateElement value => exact .cons (hR _) (.cons value .nil)

/-- The parts of a node are related one by one when its slots are. -/
theorem parts (h : node.Amends R node') (hR : ∀ c, R c c) :
    List.Forall₂ R node.parts node'.parts := by
  cases h with
  | same => exact List.forall₂_same.2 fun c _ => hR c
  | arithmetic left right | comparison left right => exact .cons left (.cons right .nil)
  | call args => exact args
  | assign value | updateElement value => exact .cons (hR _) (.cons value .nil)

/-- What the other node refers to is related to what the node refers to. -/
theorem exists_of_mem_children (h : node.Amends R node') (hR : ∀ c, R c c) {c' : NodeId}
    (hc' : c' ∈ node'.children) : ∃ c ∈ node.children, R c c' :=
  exists_mem_of_forall₂ (h.children hR) hc'

/-- Slots that are related are so in a weaker way too. -/
theorem mono (h : node.Amends R node') (hRT : ∀ c c', R c c' → T c c') : node.Amends T node' := by
  cases h with
  | same => exact .same
  | arithmetic left right => exact .arithmetic (hRT _ _ left) (hRT _ _ right)
  | call args => exact .call (args.imp hRT)
  | assign value => exact .assign (hRT _ _ value)
  | updateElement value => exact .updateElement (hRT _ _ value)
  | comparison left right => exact .comparison (hRT _ _ left) (hRT _ _ right)

/-- Slots that are exchanged twice have been exchanged. -/
theorem trans (h : node.Amends R node₁) (h' : node₁.Amends R' node') (hR : ∀ c, R c c)
    (hR' : ∀ c, R' c c) (hT : ∀ a b c, R a b → R' b c → T a c) : node.Amends T node' := by
  cases h with
  | same => exact h'.mono fun c c' => hT _ _ _ (hR c)
  | arithmetic left right =>
    cases h' with
    | same => exact .arithmetic (hT _ _ _ left (hR' _)) (hT _ _ _ right (hR' _))
    | arithmetic left' right' => exact .arithmetic (hT _ _ _ left left') (hT _ _ _ right right')
  | call args =>
    cases h' with
    | same => exact .call (args.imp fun _ _ h => hT _ _ _ h (hR' _))
    | call args' => exact .call (forall₂_trans hT args args')
  | assign value =>
    cases h' with
    | same => exact .assign (hT _ _ _ value (hR' _))
    | assign value' => exact .assign (hT _ _ _ value value')
  | updateElement value =>
    cases h' with
    | same => exact .updateElement (hT _ _ _ value (hR' _))
    | updateElement value' => exact .updateElement (hT _ _ _ value value')
  | comparison left right =>
    cases h' with
    | same => exact .comparison (hT _ _ _ left (hR' _)) (hT _ _ _ right (hR' _))
    | comparison left' right' => exact .comparison (hT _ _ _ left left') (hT _ _ _ right right')

end Amends

end Node

namespace Graph

variable {g g' g₁ g₂ : Graph} {id n : NodeId} {node : Node}

/-! ## The nodes of a changed graph -/

/-- Only the entry that is put changes. -/
theorem entry?_put {old new : Entry} (h : g.entry? id = some old) (n : NodeId) :
    Graph.entry? (g.put id new) n = if n = id then some new else g.entry? n := by
  have hlt : id.index < g.entries.size := (Array.getElem?_eq_some_iff.1 h).1
  obtain ⟨i⟩ := id
  obtain ⟨j⟩ := n
  simp only [put, entry?, NodeId.mk.injEq, Array.getElem?_setIfInBounds]
  by_cases hij : j = i
  · subst hij
    have hlt : j < g.entries.size := hlt
    simp [hlt]
  · simp [hij, Ne.symm hij]

/-- Only the node whose entry is put changes. -/
theorem node?_put {old new : Entry} (h : g.entry? id = some old) (n : NodeId) :
    (g.put id new).node? n = if n = id then some new.node else g.node? n := by
  rw [node?, entry?_put h]
  split <;> rfl

/-- An entry can be exchanged for one with the same node. -/
theorem node?_put_of_eq {old new : Entry} (h : g.entry? id = some old) (hnode : new.node = old.node)
    (n : NodeId) : (g.put id new).node? n = g.node? n := by
  rw [node?_put h]
  split
  next hn => rw [hn, node?, h, hnode, Option.map_some]
  next => rfl

theorem entry_eq_ok {e : Entry} : g.entry id = .ok e ↔ g.entry? id = some e := by
  unfold entry
  cases g.entry? id <;> simp

theorem node_eq_ok : g.node id = .ok node ↔ g.node? id = some node := by
  unfold Graph.node
  cases g.node? id <;> simp

/-- A node is fetched exactly if it is there. -/
theorem fetch_eq_ok {ε : Type} :
    (g.fetch id : Except (Stop ε) Node) = .ok node ↔ g.node? id = some node := by
  unfold fetch Graph.node
  cases g.node? id <;> simp [Stop.ofFault, Except.mapError]

/-- Entering a parent keeps the nodes. -/
theorem node?_addParent {child parent : NodeId} (h : g.addParent child parent = .ok g')
    (n : NodeId) : g'.node? n = g.node? n := by
  obtain ⟨entry, hentry, hput⟩ := bind_eq_ok.1 h
  cases hput
  exact node?_put_of_eq (entry_eq_ok.1 hentry) (by rfl) n

/-- Taking out a parent keeps the nodes. -/
theorem node?_removeParent {child parent : NodeId} (h : g.removeParent child parent = .ok g')
    (n : NodeId) : g'.node? n = g.node? n := by
  obtain ⟨entry, hentry, hput⟩ := bind_eq_ok.1 h
  cases hput
  exact node?_put_of_eq (entry_eq_ok.1 hentry) (by rfl) n

/-- An edge that is added apart from the nodes keeps them. -/
theorem node?_addChild {parent child : NodeId} (h : g.addChild parent child = .ok g')
    (n : NodeId) : g'.node? n = g.node? n := by
  obtain ⟨entry, hentry, hadd⟩ := bind_eq_ok.1 h
  rw [node?_addParent hadd]
  exact node?_put_of_eq (entry_eq_ok.1 hentry) (by rfl) n

/-- Edges that are added apart from the nodes keep them. -/
theorem node?_addChildren {parent : NodeId} {children : List NodeId}
    (h : g.addChildren parent children = .ok g') (n : NodeId) : g'.node? n = g.node? n :=
  foldlM_eq_ok (P := fun g' => g'.node? n = g.node? n)
    (fun hb h => (node?_addChild h n).trans hb) rfl h

/-- A constant is added under a number that was not in use, and changes no other node. -/
theorem node?_add_constant {l : Literal} (h : g.add (.constant l) = .ok (id, g')) :
    g.node? id = none ∧ ∀ n, g'.node? n = if n = id then some (.constant l) else g.node? n := by
  cases h
  refine ⟨by simp [node?, entry?, size], fun ⟨i⟩ => ?_⟩
  simp only [node?, entry?, size, NodeId.mk.injEq, Array.getElem?_push]
  split <;> rfl

/-- Exchanging a node changes no other one. -/
theorem node?_replace (h : g.replace id node = .ok g') (n : NodeId) :
    g'.node? n = if n = id then some node else g.node? n := by
  obtain ⟨entry, hentry, h⟩ := bind_eq_ok.1 h
  obtain ⟨g₁, hdropped, hadded⟩ := bind_eq_ok.1 h
  rw [node?_addChildren hadded]
  refine foldlM_eq_ok (P := fun g₂ => g₂.node? n = if n = id then some node else g.node? n)
    (fun hb h => (node?_removeParent h n).trans hb) ?_ hdropped
  exact node?_put (entry_eq_ok.1 hentry) n

/-! ## Paths -/

/-- One node refers to the other. -/
def Child (g : Graph) (a b : NodeId) : Prop :=
  ∃ node, g.node? a = some node ∧ b ∈ node.children

/-- There is a path from one node to the other. -/
def Reaches (g : Graph) : NodeId → NodeId → Prop :=
  Relation.ReflTransGen g.Child

/-- There is a path from one node to the other that does not lead through the parameters of a
function. -/
def Enters (g : Graph) : NodeId → NodeId → Prop :=
  Relation.ReflTransGen fun a b => ∃ node, g.node? a = some node ∧ b ∈ node.parts

theorem Enters.reaches {a b : NodeId} (h : g.Enters a b) : g.Reaches a b :=
  Relation.ReflTransGen.mono
    (fun _ _ ⟨node, hnode, hb⟩ => ⟨node, hnode, node.parts_subset_children hb⟩) _ _ h

/-- A path from a node ends there or leads on through one of its references. -/
theorem Reaches.cases_node (h : g.Reaches id n) (hnode : g.node? id = some node) :
    n = id ∨ ∃ c ∈ node.children, g.Reaches c n := by
  rcases h.cases_head with rfl | ⟨c, ⟨node', hnode', hc⟩, hcn⟩
  · exact .inl rfl
  · cases hnode.symm.trans hnode'
    exact .inr ⟨c, hc, hcn⟩

/-- A path that does not lead through parameters ends at its node or leads on through a part of
it. -/
theorem Enters.cases_node (h : g.Enters id n) (hnode : g.node? id = some node) :
    n = id ∨ ∃ c ∈ node.parts, g.Enters c n := by
  rcases h.cases_head with rfl | ⟨c, ⟨node', hnode', hc⟩, hcn⟩
  · exact .inl rfl
  · cases hnode.symm.trans hnode'
    exact .inr ⟨c, hc, hcn⟩

/-- The node is a constant. -/
def IsConstant (g : Graph) (id : NodeId) : Prop :=
  ∃ l, g.node? id = some (.constant l)

/-- There is no way on from a leaf. -/
theorem eq_of_reaches_leaf {a : NodeId} (hnode : g.node? a = some node) (hleaf : node.isLeaf = true)
    (h : g.Reaches a n) : n = a := by
  rcases h.cases_node hnode with rfl | ⟨b, hb, -⟩
  · rfl
  · rw [Node.children_of_isLeaf hleaf] at hb
    cases hb

/-- There is nothing but constants, variables and operations below the node, so that computing it
assigns no names. -/
def Quiet (g : Graph) (id : NodeId) : Prop :=
  ∀ n node, g.Reaches id n → g.node? n = some node → node.shape.isQuiet = true

theorem Quiet.child {a b : NodeId} (h : g.Quiet a) (hab : g.Child a b) : g.Quiet b :=
  fun n node hn => h n node (.head hab hn)

/-- A node of a quiet form is quiet if its children are. -/
theorem quiet_of_children (hshape : node.shape.isQuiet = true) (hnode : g.node? id = some node)
    (hchildren : ∀ c ∈ node.children, g.Quiet c) : g.Quiet id := by
  intro n node' hn hnode'
  rcases hn.cases_node hnode with rfl | ⟨c, hc, hcn⟩
  · cases hnode.symm.trans hnode'
    exact hshape
  · exact hchildren c hc n node' hcn hnode'

theorem IsConstant.quiet (h : g.IsConstant id) : g.Quiet id := by
  obtain ⟨l, hl⟩ := h
  exact quiet_of_children rfl hl nofun

/-! ## Rewriting -/

/-- What a slot may refer to when it referred to the first node: still to that, or to a constant
that was added for it. There is nothing to be lost with what the slot referred to. -/
def Reslots (g g' : Graph) (c c' : NodeId) : Prop :=
  c' = c ∨ (g.node? c' = none ∧ g'.IsConstant c' ∧ g.Quiet c)

theorem Reslots.refl (g g' : Graph) (c : NodeId) : g.Reslots g' c c :=
  .inl rfl

/-- What adding constants and exchanging nodes of a set does to a graph. -/
structure Rewrites (S : NodeId → Prop) (g g' : Graph) : Prop where
  /-- Nodes outside of the set stay. -/
  off : ∀ {n node}, ¬ S n → g.node? n = some node → g'.node? n = some node
  /-- Leaves stay. -/
  leaf : ∀ {n node}, node.isLeaf = true → g.node? n = some node → g'.node? n = some node
  /-- Slots get new constants at most. -/
  kept : ∀ {n node}, g.node? n = some node →
    ∃ node', g'.node? n = some node' ∧ node.Amends (g.Reslots g') node'
  /-- New nodes are constants. -/
  fresh : ∀ {n node'}, g.node? n = none → g'.node? n = some node' → ∃ l, node' = .constant l

namespace Rewrites

variable {S T : NodeId → Prop}

/-- A graph in which nothing is done is rewritten within every set. -/
theorem refl (S : NodeId → Prop) (g : Graph) : Rewrites S g g where
  off _ h := h
  leaf _ h := h
  kept h := ⟨_, h, .same⟩
  fresh hnone h := by
    rw [hnone] at h
    cases h

theorem mono (h : Rewrites S g g') (hST : ∀ n, S n → T n) : Rewrites T g g' :=
  { h with off := fun hn => h.off fun hS => hn (hST _ hS) }

theorem isConstant (h : Rewrites S g g') (hid : g.IsConstant id) : g'.IsConstant id := by
  obtain ⟨l, hl⟩ := hid
  exact ⟨l, h.leaf rfl hl⟩

/-- An exchanged node keeps its shape. -/
theorem kept_shape (h : Rewrites S g g') (hnode : g.node? n = some node) :
    ∃ node', g'.node? n = some node' ∧ node'.shape = node.shape := by
  obtain ⟨node', hnode', hamends⟩ := h.kept hnode
  exact ⟨node', hnode', hamends.shape_eq⟩

/-- No node is lost. -/
theorem node?_eq_none (h : Rewrites S g g') (hn : g'.node? n = none) : g.node? n = none := by
  cases hnode : g.node? n with
  | none => rfl
  | some node =>
    obtain ⟨node', hnode', -⟩ := h.kept hnode
    rw [hn] at hnode'
    cases hnode'

/-- What assigns no names after rewriting has assigned none before. -/
theorem quiet_of_quiet (h : Rewrites S g g') {c : NodeId} (hc : g'.Quiet c) : g.Quiet c := by
  intro n node hn hnode
  induction hn using Relation.ReflTransGen.head_induction_on with
  | refl =>
    obtain ⟨node', hnode', hshape⟩ := h.kept_shape hnode
    rw [← hshape]
    exact hc n node' .refl hnode'
  | @head a b hab hbn ih =>
    obtain ⟨nodeA, hnodeA, hb⟩ := hab
    obtain ⟨nodeA', hnodeA', hamends⟩ := h.kept hnodeA
    obtain ⟨b', hb', hslot⟩ := exists_mem_of_forall₂ (hamends.children (.refl _ _)).flip hb
    rcases hslot with rfl | ⟨-, -, hquiet⟩
    · exact ih (hc.child ⟨nodeA', hnodeA', hb'⟩)
    · exact hquiet n node hbn hnode

/-- What has been added to one graph is new in the graphs that were rewritten to it. -/
theorem reslots (h₁ : Rewrites S g g₁) (h₂ : Rewrites T g₁ g₂) {c c₁ c₂ : NodeId}
    (hc₁ : g.Reslots g₁ c c₁) (hc₂ : g₁.Reslots g₂ c₁ c₂) : g.Reslots g₂ c c₂ := by
  rcases hc₁ with rfl | ⟨hnone, hconst, hquiet⟩
  · exact hc₂.imp_right fun ⟨hnone, hconst, hquiet⟩ =>
      ⟨h₁.node?_eq_none hnone, hconst, h₁.quiet_of_quiet hquiet⟩
  · rcases hc₂ with rfl | ⟨hnone₂, hconst₂, -⟩
    · exact .inr ⟨hnone, h₂.isConstant hconst, hquiet⟩
    · exact .inr ⟨h₁.node?_eq_none hnone₂, hconst₂, hquiet⟩

/-- What a slot referred to assigns no names, if the slot refers to a constant. -/
theorem quiet_of_reslots (h : Rewrites S g g') {c c' : NodeId} (hc : g.Reslots g₁ c c')
    (hconst : g'.IsConstant c') : g.Quiet c := by
  rcases hc with rfl | ⟨-, -, hquiet⟩
  · exact h.quiet_of_quiet hconst.quiet
  · exact hquiet

/-- Two rewritings within a set are one. -/
theorem trans (h₁ : Rewrites S g g₁) (h₂ : Rewrites S g₁ g₂) : Rewrites S g g₂ where
  off hn h := h₂.off hn (h₁.off hn h)
  leaf hleaf h := h₂.leaf hleaf (h₁.leaf hleaf h)
  kept h := by
    obtain ⟨node₁, hnode₁, hamends₁⟩ := h₁.kept h
    obtain ⟨node₂, hnode₂, hamends₂⟩ := h₂.kept hnode₁
    exact ⟨node₂, hnode₂, hamends₁.trans hamends₂ (.refl _ _) (.refl _ _) fun _ _ _ => h₁.reslots h₂⟩
  fresh {n node₂} hnone h := by
    cases hn : g₁.node? n with
    | none => exact h₂.fresh hn h
    | some node₁ =>
      obtain ⟨l, rfl⟩ := h₁.fresh hnone hn
      rw [h₂.leaf rfl hn] at h
      cases h
      exact ⟨l, rfl⟩

/-- A constant may be added. -/
theorem add {l : Literal} (h : g.add (.constant l) = .ok (id, g')) :
    Rewrites S g g' ∧ g'.node? id = some (.constant l) := by
  obtain ⟨hnone, hnodes⟩ := node?_add_constant h
  have hstay : ∀ {n node}, g.node? n = some node → g'.node? n = some node := by
    intro n node hn
    rw [hnodes, if_neg, hn]
    rintro rfl
    rw [hnone] at hn
    cases hn
  refine ⟨⟨fun _ => hstay, fun _ => hstay, fun hn => ⟨_, hstay hn, .same⟩, ?_⟩,
    by rw [hnodes, if_pos rfl]⟩
  intro n node' hn hn'
  rw [hnodes] at hn'
  split at hn'
  · cases hn'
    exact ⟨l, rfl⟩
  · rw [hn] at hn'
    cases hn'

/-- After some rewriting, a node of the set may be exchanged for one whose slots refer to what they
referred to before or to constants that were added. -/
theorem update {old new : Node} (h : Rewrites S g g₁) (hS : S id) (hold : g.node? id = some old)
    (hleaf : old.isLeaf = false) (hamends : old.Amends (g.Reslots g₁) new)
    (hreplace : g₁.replace id new = .ok g₂) : Rewrites S g g₂ := by
  have hnodes := node?_replace hreplace
  have hconst : ∀ {c}, g₁.IsConstant c → g₂.IsConstant c := by
    rintro c ⟨l, hl⟩
    refine ⟨l, ?_⟩
    rw [hnodes, if_neg, hl]
    -- the exchanged node is no leaf, and has not become one
    rintro rfl
    obtain ⟨node₁, hnode₁, hshape₁⟩ := h.kept_shape hold
    rw [hl] at hnode₁
    cases hnode₁
    rw [Node.isLeaf, ← hshape₁] at hleaf
    cases hleaf
  have hreslots : ∀ c c', g.Reslots g₁ c c' → g.Reslots g₂ c c' :=
    fun c c' hc => hc.imp_right fun ⟨hnone, hc', hquiet⟩ => ⟨hnone, hconst hc', hquiet⟩
  refine ⟨fun {n node} hn hnode => ?_, fun {n node} hl hnode => ?_, fun {n node} hnode => ?_,
    fun {n node'} hnone hnode' => ?_⟩
  · rw [hnodes, if_neg (by rintro rfl; exact hn hS), h.off hn hnode]
  · rw [hnodes, if_neg, h.leaf hl hnode]
    rintro rfl
    rw [hold] at hnode
    cases hnode
    rw [hl] at hleaf
    cases hleaf
  · by_cases hn : n = id
    · subst hn
      rw [hold] at hnode
      cases hnode
      exact ⟨new, by rw [hnodes, if_pos rfl], hamends.mono hreslots⟩
    · obtain ⟨node₁, hnode₁, hamends₁⟩ := h.kept hnode
      exact ⟨node₁, by rw [hnodes, if_neg hn, hnode₁], hamends₁.mono hreslots⟩
  · rw [hnodes, if_neg] at hnode'
    · exact h.fresh hnone hnode'
    · rintro rfl
      rw [hold] at hnone
      cases hnone

/-- The node that a slot refers to is the same as before, or a constant. -/
theorem child (h : Rewrites S g g') {a b : NodeId} (hab : g'.Child a b) :
    g.Child a b ∨ g'.IsConstant b := by
  obtain ⟨node', hnode', hb⟩ := hab
  cases ha : g.node? a with
  | none =>
    obtain ⟨l, rfl⟩ := h.fresh ha hnode'
    cases hb
  | some node =>
    obtain ⟨node'', hnode'', hamends⟩ := h.kept ha
    rw [hnode'] at hnode''
    cases hnode''
    obtain ⟨c, hc, hcb⟩ := hamends.exists_of_mem_children (.refl _ _) hb
    rcases hcb with rfl | ⟨-, hconst, -⟩
    · exact .inl ⟨node, ha, hc⟩
    · exact .inr hconst

/-- New paths lead to constants only. -/
theorem reaches (h : Rewrites S g g') {a : NodeId} (ha : g'.Reaches a n) :
    g.Reaches a n ∨ g'.IsConstant n := by
  induction ha using Relation.ReflTransGen.head_induction_on with
  | refl => exact .inl .refl
  | head hab hbn ih =>
    rcases h.child hab with hab | hb
    · exact ih.imp_left (.head hab)
    · obtain ⟨l, hl⟩ := hb
      rw [eq_of_reaches_leaf hl rfl hbn]
      exact .inr ⟨l, hl⟩

/-- New paths that do not lead through parameters lead to constants only, too. -/
theorem enters (h : Rewrites S g g') {a : NodeId} (ha : g'.Enters a n) :
    g.Enters a n ∨ g'.IsConstant n := by
  induction ha using Relation.ReflTransGen.head_induction_on with
  | refl => exact .inl .refl
  | @head a b hab hbn ih =>
    obtain ⟨node', hnode', hb⟩ := hab
    cases hnode : g.node? a with
    | none =>
      obtain ⟨l, rfl⟩ := h.fresh hnode hnode'
      cases hb
    | some node =>
      obtain ⟨node'', hnode'', hamends⟩ := h.kept hnode
      cases hnode'.symm.trans hnode''
      obtain ⟨c, hc, hcb⟩ := exists_mem_of_forall₂ (hamends.parts (.refl _ _)) hb
      rcases hcb with rfl | ⟨-, ⟨l, hl⟩, -⟩
      · exact ih.imp_left (.head ⟨node, hnode, hc⟩)
      · rw [eq_of_reaches_leaf hl rfl (Enters.reaches hbn)]
        exact .inr ⟨l, hl⟩

/-- What assigns no names before rewriting assigns none afterwards. -/
theorem quiet (h : Rewrites S g g') {c : NodeId} (hc : g.Quiet c) : g'.Quiet c := by
  intro n node' hn hnode'
  rcases h.reaches hn with hn | ⟨l, hl⟩
  · cases hnode : g.node? n with
    | none =>
      obtain ⟨l, rfl⟩ := h.fresh hnode hnode'
      rfl
    | some node =>
      obtain ⟨node'', hnode'', hshape⟩ := h.kept_shape hnode
      cases hnode'.symm.trans hnode''
      rw [hshape]
      exact hc n node hn hnode
  · cases hnode'.symm.trans hl
    rfl

/-- A slot that assigned no names assigns none afterwards. -/
theorem reslots_quiet (h : Rewrites S g g') {c c' : NodeId} (hslot : g.Reslots g' c c')
    (hc : g.Quiet c) : g'.Quiet c' := by
  rcases hslot with rfl | ⟨-, hconst, -⟩
  · exact h.quiet hc
  · exact hconst.quiet

end Rewrites

/-- The set has every node below the given one that is no leaf, but for what is below the parameters
of functions. -/
def Covers (g : Graph) (S : NodeId → Prop) (id : NodeId) : Prop :=
  ∀ n node, g.Enters id n → g.node? n = some node → node.isLeaf = false → S n

namespace Covers

variable {S T : NodeId → Prop}

theorem self (h : g.Covers S id) (hnode : g.node? id = some node) (hleaf : node.isLeaf = false) :
    S id :=
  h id node .refl hnode hleaf

/-- The set of all nodes covers every node. -/
theorem all (g : Graph) (id : NodeId) : g.Covers (fun _ => True) id :=
  fun _ _ _ _ _ => trivial

theorem child {c : NodeId} (h : g.Covers S id) (hnode : g.node? id = some node)
    (hc : c ∈ node.parts) : g.Covers S c :=
  fun n node' hn => h n node' (.head ⟨node, hnode, hc⟩ hn)

/-- Rewriting brings no nodes below others. -/
theorem rewrites (h : g.Covers S id) (hr : Rewrites T g g') : g'.Covers S id := by
  intro n node' hn hnode' hleaf
  have hconst : ¬ g'.IsConstant n := by
    rintro ⟨l, hl⟩
    rw [hnode'] at hl
    cases hl
    cases hleaf
  cases hnode : g.node? n with
  | none =>
    obtain ⟨l, rfl⟩ := hr.fresh hnode hnode'
    cases hleaf
  | some node =>
    obtain ⟨node'', hnode'', hshape⟩ := hr.kept_shape hnode
    rw [hnode'] at hnode''
    cases hnode''
    rw [Node.isLeaf, hshape] at hleaf
    exact h n node ((hr.enters hn).resolve_right hconst) hnode hleaf

end Covers

end Graph

end RegisterBackend
