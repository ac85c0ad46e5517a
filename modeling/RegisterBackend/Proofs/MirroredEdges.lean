import Mathlib.Data.List.Induction
import Mathlib.Data.List.Nodup
import RegisterBackend.Proofs.GraphEdges
import RegisterBackend.Proofs.PropagationInvariants

/-!
# The two edge lists of a graph

An edge is recorded twice, with the children of one node and with the parents of another. The two
records agree (`Graph.Mirrored`) in every graph that is made from the empty one by adding nodes,
making edges and exchanging nodes, whatever the order, and also if nodes refer to themselves or to
each other in a circle. If no edge is made by hand, the children of a node are also those that the
node refers to, each once and in the order of its slots (`Graph.Structural`).

Each operation is described by what it does to the two lists of every node. In between, an exchange
breaks the agreement: it first empties the list of the node, strikes the node from the lists of the
children that it loses, and then makes the new edges. So `Mirrored.replace` compares the graphs
before and after, and not step by step.

Constant propagation changes a graph only by adding constants and exchanging nodes. What these two
keep is kept by the pass, also where it stops (`Program.retains_propagate`).
-/

namespace RegisterBackend

/-- The identity is in the list afterwards, whether it was before or not. -/
theorem mem_appendNew {ids : List NodeId} {id n : NodeId} :
    n ∈ appendNew ids id ↔ n ∈ ids ∨ n = id := by
  unfold appendNew
  split
  next h =>
    constructor
    · exact .inl
    · rintro (hn | rfl)
      · exact hn
      · exact h
  next => simp

/-- An identity that is in the list is not added again. -/
theorem nodup_appendNew {ids : List NodeId} (h : ids.Nodup) (id : NodeId) :
    (appendNew ids id).Nodup := by
  unfold appendNew
  split
  next => exact h
  next hid =>
    rw [List.nodup_append]
    refine ⟨h, List.nodup_singleton id, ?_⟩
    intro a ha b hb hab
    rw [List.mem_singleton.1 hb] at hab
    exact hid (hab ▸ ha)

/-- To append what is new is to keep the first of each. -/
theorem foldl_appendNew (ids : List NodeId) : ids.foldl appendNew [] = ids.eraseDups := by
  induction ids using List.reverseRecOn with
  | nil => rfl
  | append_singleton ids id ih =>
    rw [List.foldl_append, ih, List.eraseDups_append, List.foldl_cons, List.foldl_nil, appendNew]
    by_cases h : id ∈ ids <;> simp [List.removeAll, List.eraseDups_cons, h]

theorem nodup_eraseDups (ids : List NodeId) : ids.eraseDups.Nodup := by
  rw [← foldl_appendNew]
  exact List.foldlRecOn ids _ List.nodup_nil fun _ h id _ => nodup_appendNew h id

namespace Graph

variable {g g' g₁ : Graph} {id n p c parent child : NodeId} {node : Node} {children : List NodeId}

/-- The children recorded with a node. -/
def childrenOf (g : Graph) (id : NodeId) : List NodeId :=
  g.entry? id |>.map (·.children) |>.getD []

/-- The parents recorded with a node. -/
def parentsOf (g : Graph) (id : NodeId) : List NodeId :=
  g.entry? id |>.map (·.parents) |>.getD []

/-- The two records of the edges agree, and none is recorded twice. -/
structure Mirrored (g : Graph) : Prop where
  mem_iff : ∀ p c, c ∈ g.childrenOf p ↔ p ∈ g.parentsOf c
  nodup_childrenOf : ∀ p, (g.childrenOf p).Nodup
  nodup_parentsOf : ∀ c, (g.parentsOf c).Nodup

/-- The children of a node are those that it refers to, in order and without the repetitions. -/
def Structural (g : Graph) : Prop :=
  ∀ p node, g.node? p = some node → g.childrenOf p = node.children.eraseDups

/-! ## The lists of a changed graph -/

/-- Only the children of the node whose entry is exchanged change. -/
theorem childrenOf_put {old new : Entry} (h : g.entry? id = some old) (n : NodeId) :
    (g.put id new).childrenOf n = if n = id then new.children else g.childrenOf n := by
  rw [childrenOf, entry?_put h]
  split <;> rfl

/-- Only the parents of the node whose entry is exchanged change. -/
theorem parentsOf_put {old new : Entry} (h : g.entry? id = some old) (n : NodeId) :
    (g.put id new).parentsOf n = if n = id then new.parents else g.parentsOf n := by
  rw [parentsOf, entry?_put h]
  split <;> rfl

/-- The children of a node are those in its entry. -/
theorem childrenOf_eq {entry : Entry} (h : g.entry? id = some entry) :
    g.childrenOf id = entry.children := by
  rw [childrenOf, h]
  rfl

/-- The parents of a node are those in its entry. -/
theorem parentsOf_eq {entry : Entry} (h : g.entry? id = some entry) :
    g.parentsOf id = entry.parents := by
  rw [parentsOf, h]
  rfl

/-- An entry may be exchanged for one with other parents. -/
theorem edges_put {entry : Entry} (h : g.entry? id = some entry) (f : List NodeId → List NodeId)
    (n : NodeId) :
    (g.put id { entry with parents := f entry.parents }).childrenOf n = g.childrenOf n ∧
      (g.put id { entry with parents := f entry.parents }).parentsOf n =
        if n = id then f (g.parentsOf n) else g.parentsOf n := by
  rw [childrenOf_put h, parentsOf_put h]
  by_cases hn : n = id
  · subst hn
    simp [childrenOf_eq h, parentsOf_eq h]
  · simp [hn]

/-- Entering a parent changes the parents of one node, and no children. -/
theorem edges_addParent (h : g.addParent child parent = .ok g') (n : NodeId) :
    g'.childrenOf n = g.childrenOf n ∧
      g'.parentsOf n = if n = child then appendNew (g.parentsOf n) parent else g.parentsOf n := by
  obtain ⟨entry, hentry, hput⟩ := bind_eq_ok.1 h
  cases hput
  exact edges_put (entry_eq_ok.1 hentry) (appendNew · parent) n

/-- Taking out a parent changes the parents of one node, and no children. -/
theorem edges_removeParent (h : g.removeParent child parent = .ok g') (n : NodeId) :
    g'.childrenOf n = g.childrenOf n ∧
      g'.parentsOf n =
        if n = child then (g.parentsOf n).filter (· ≠ parent) else g.parentsOf n := by
  obtain ⟨entry, hentry, hput⟩ := bind_eq_ok.1 h
  cases hput
  exact edges_put (entry_eq_ok.1 hentry) (·.filter (· ≠ parent)) n

/-- An edge is added at the end of both lists, unless it is there. -/
theorem edges_addChild (h : g.addChild parent child = .ok g') (n : NodeId) :
    g'.childrenOf n = (if n = parent then appendNew (g.childrenOf n) child else g.childrenOf n) ∧
      g'.parentsOf n = if n = child then appendNew (g.parentsOf n) parent else g.parentsOf n := by
  obtain ⟨entry, hentry, hadd⟩ := bind_eq_ok.1 h
  have hentry := entry_eq_ok.1 hentry
  obtain ⟨hchildren, hparents⟩ := edges_addParent hadd n
  have hkeep : (g.put parent { entry with children := appendNew entry.children child }).parentsOf n =
      g.parentsOf n := by
    rw [parentsOf_put hentry]
    split
    next hn => rw [hn, parentsOf_eq hentry]
    next => rfl
  rw [hchildren, hparents, hkeep, childrenOf_put hentry]
  refine ⟨?_, rfl⟩
  split
  next hn => rw [hn, childrenOf_eq hentry]
  next => rfl

/-- The children are appended in their order, but for those that are there already. -/
theorem childrenOf_addChildren (h : g.addChildren parent children = .ok g') (n : NodeId) :
    g'.childrenOf n =
      if n = parent then children.foldl appendNew (g.childrenOf n) else g.childrenOf n := by
  induction children generalizing g with
  | nil =>
    cases h
    simp
  | cons c children ih =>
    rw [addChildren, List.foldlM_cons] at h
    obtain ⟨g₁, hc, hrest⟩ := bind_eq_ok.1 h
    rw [ih hrest, (edges_addChild hc n).1]
    split <;> rfl

/-- The node becomes a parent of each of its new children. -/
theorem mem_parentsOf_addChildren (h : g.addChildren parent children = .ok g') :
    p ∈ g'.parentsOf c ↔ p ∈ g.parentsOf c ∨ c ∈ children ∧ p = parent := by
  induction children generalizing g with
  | nil =>
    cases h
    simp
  | cons d children ih =>
    rw [addChildren, List.foldlM_cons] at h
    obtain ⟨g₁, hd, hrest⟩ := bind_eq_ok.1 h
    rw [ih hrest, (edges_addChild hd c).2]
    by_cases hcd : c = d
    · simp only [hcd, if_true, mem_appendNew, List.mem_cons, true_or, true_and, or_assoc]
      tauto
    · simp [hcd]

/-- No parent is recorded twice, also if a child is named twice. -/
theorem nodup_parentsOf_addChildren (h : g.addChildren parent children = .ok g')
    (hg : ∀ c, (g.parentsOf c).Nodup) : ∀ c, (g'.parentsOf c).Nodup := by
  refine foldlM_eq_ok (P := fun g' : Graph => ∀ c, (g'.parentsOf c).Nodup) ?_ hg h
  intro d g₁ g₂ hg₁ hstep c
  rw [(edges_addChild hstep c).2]
  split
  next => exact nodup_appendNew (hg₁ c) parent
  next => exact hg₁ c

/-- A node without edges may be appended. -/
theorem edges_push (g : Graph) (node : Node) (n : NodeId) :
    childrenOf ⟨g.entries.push ⟨node, [], []⟩⟩ n = g.childrenOf n ∧
      parentsOf ⟨g.entries.push ⟨node, [], []⟩⟩ n = g.parentsOf n := by
  simp only [childrenOf, parentsOf, entry?, Array.getElem?_push]
  split
  next hn => simp [hn]
  next => exact ⟨rfl, rfl⟩

/-- Outside of a graph no edges are recorded. -/
theorem childrenOf_eq_nil (h : g.size ≤ n.index) : g.childrenOf n = [] := by
  rw [childrenOf, entry?, Array.getElem?_eq_none h]
  rfl

theorem parentsOf_eq_nil (h : g.size ≤ n.index) : g.parentsOf n = [] := by
  rw [parentsOf, entry?, Array.getElem?_eq_none h]
  rfl

/-- A new node has the children that it refers to. -/
theorem childrenOf_add (h : g.add node = .ok (id, g')) (n : NodeId) :
    g'.childrenOf n = if n = id then node.children.eraseDups else g.childrenOf n := by
  obtain ⟨g₁, hchildren, hpure⟩ := bind_eq_ok.1 h
  cases hpure
  rw [childrenOf_addChildren hchildren, (edges_push g node n).1]
  split
  next hn =>
    have hnil : g.childrenOf n = [] := childrenOf_eq_nil (hn ▸ Nat.le_refl _)
    rw [hnil, foldl_appendNew]
  next => rfl

/-- What an exchange strikes is struck from the lists of the children that it drops. -/
theorem edges_dropped {dropped : List NodeId}
    (h : dropped.foldlM (fun g child => g.removeParent child id) g = .ok g') :
    (∀ n, g'.childrenOf n = g.childrenOf n) ∧
      ∀ c, g'.parentsOf c =
        if c ∈ dropped then (g.parentsOf c).filter (· ≠ id) else g.parentsOf c := by
  induction dropped generalizing g with
  | nil =>
    cases h
    simp
  | cons d dropped ih =>
    rw [List.foldlM_cons] at h
    obtain ⟨g₁, hd, hrest⟩ := bind_eq_ok.1 h
    obtain ⟨hchildren, hparents⟩ := ih hrest
    refine ⟨fun n => (hchildren n).trans (edges_removeParent hd n).1, fun c => ?_⟩
    rw [hparents, (edges_removeParent hd c).2]
    by_cases hcd : c = d
    · simp [hcd]
    · simp [hcd]

/-- A node that is exchanged has the children that the new node refers to. -/
theorem childrenOf_replace (h : g.replace id node = .ok g') (n : NodeId) :
    g'.childrenOf n = if n = id then node.children.eraseDups else g.childrenOf n := by
  obtain ⟨entry, hentry, h⟩ := bind_eq_ok.1 h
  obtain ⟨g₁, hdropped, hadded⟩ := bind_eq_ok.1 h
  rw [childrenOf_addChildren hadded, (edges_dropped hdropped).1,
    childrenOf_put (entry_eq_ok.1 hentry)]
  split
  next => exact foldl_appendNew _
  next => rfl

/-- Before the new edges are made, a node that is exchanged is struck from the lists of the children
that it loses. -/
theorem parentsOf_replace (h : g.replace id node = .ok g') :
    ∃ g₁ : Graph, g₁.addChildren id node.children = .ok g' ∧
      ∀ c, g₁.parentsOf c = if c ∈ g.childrenOf id ∧ c ∉ node.children
        then (g.parentsOf c).filter (· ≠ id) else g.parentsOf c := by
  obtain ⟨entry, hentry, h⟩ := bind_eq_ok.1 h
  have hentry := entry_eq_ok.1 hentry
  obtain ⟨g₁, hdropped, hadded⟩ := bind_eq_ok.1 h
  refine ⟨g₁, hadded, fun c => ?_⟩
  have hput : (g.put id { entry with node := node, children := [] }).parentsOf c =
      g.parentsOf c := by
    rw [parentsOf_put hentry]
    split
    next hc => rw [hc, parentsOf_eq hentry]
    next => rfl
  rw [(edges_dropped hdropped).2, hput, childrenOf_eq hentry]
  simp only [List.mem_filter, decide_eq_true_eq]

/-! ## Agreement -/

namespace Mirrored

/-- There are no edges in the empty graph. -/
theorem empty : Graph.empty.Mirrored := by
  have hchildren (n) : Graph.empty.childrenOf n = [] := childrenOf_eq_nil (Nat.zero_le _)
  have hparents (n) : Graph.empty.parentsOf n = [] := parentsOf_eq_nil (Nat.zero_le _)
  constructor <;> simp [hchildren, hparents]

/-- Where the records agree, every edge leads to a node of the graph. -/
theorem linked (h : g.Mirrored) : g.Linked := by
  intro entry hentry c hc
  obtain ⟨i, hi, rfl⟩ := Array.mem_iff_getElem.1 hentry
  have hmem : c ∈ g.childrenOf ⟨i⟩ := by
    rwa [childrenOf_eq (Array.getElem?_eq_getElem hi)]
  by_contra hlt
  have hnil : g.parentsOf c = [] := parentsOf_eq_nil (Nat.le_of_not_lt hlt)
  rw [h.mem_iff, hnil] at hmem
  cases hmem

/-- An edge is entered in both records. -/
theorem addChild (h : g.Mirrored) (hadd : g.addChild parent child = .ok g') : g'.Mirrored where
  mem_iff p c := by
    rw [(edges_addChild hadd p).1, (edges_addChild hadd c).2]
    by_cases hp : p = parent <;> by_cases hc : c = child <;> simp [hp, hc, mem_appendNew, h.mem_iff]
  nodup_childrenOf p := by
    rw [(edges_addChild hadd p).1]
    split
    next => exact nodup_appendNew (h.nodup_childrenOf p) child
    next => exact h.nodup_childrenOf p
  nodup_parentsOf c := by
    rw [(edges_addChild hadd c).2]
    split
    next => exact nodup_appendNew (h.nodup_parentsOf c) parent
    next => exact h.nodup_parentsOf c

/-- The edges of a new node are entered in both records. -/
theorem add (h : g.Mirrored) (hadd : g.add node = .ok (id, g')) : g'.Mirrored := by
  obtain ⟨g₁, hchildren, hpure⟩ := bind_eq_ok.1 hadd
  cases hpure
  have hpush : Mirrored ⟨g.entries.push ⟨node, [], []⟩⟩ := by
    constructor
    · intro p c
      rw [(edges_push g node p).1, (edges_push g node c).2]
      exact h.mem_iff p c
    · intro p
      rw [(edges_push g node p).1]
      exact h.nodup_childrenOf p
    · intro c
      rw [(edges_push g node c).2]
      exact h.nodup_parentsOf c
  exact foldlM_eq_ok (P := Mirrored) (fun hg hstep => hg.addChild hstep) hpush hchildren

/-- Exchanging a node takes its old edges out of both records and enters the new ones. -/
theorem replace (h : g.Mirrored) (hreplace : g.replace id node = .ok g') : g'.Mirrored := by
  obtain ⟨g₁, hadded, hstruck⟩ := parentsOf_replace hreplace
  have hnodup : ∀ c, (g₁.parentsOf c).Nodup := by
    intro c
    rw [hstruck]
    split
    next => exact (h.nodup_parentsOf c).filter _
    next => exact h.nodup_parentsOf c
  -- what is left when the dropped children are struck: the node itself only where it is kept
  have hleft (p c : NodeId) : p ∈ g₁.parentsOf c ↔
      p ∈ g.parentsOf c ∧ (p = id → c ∈ node.children) := by
    have hold := h.mem_iff id c
    rw [hstruck]
    split
    next hc => simp [hc.2]
    next hc =>
      refine ⟨fun hp => ⟨hp, ?_⟩, And.left⟩
      rintro rfl
      by_contra hnot
      exact hc ⟨hold.2 hp, hnot⟩
  constructor
  · intro p c
    rw [childrenOf_replace hreplace, mem_parentsOf_addChildren hadded, hleft]
    split
    next hp =>
      subst hp
      simp only [List.mem_eraseDups, forall_const, and_true]
      tauto
    next hp => simp [hp, h.mem_iff]
  · intro p
    rw [childrenOf_replace hreplace]
    split
    next => exact nodup_eraseDups _
    next => exact h.nodup_childrenOf p
  · exact nodup_parentsOf_addChildren hadded hnodup

end Mirrored

namespace Structural

theorem empty : Graph.empty.Structural := by
  intro p node hp
  simp [node?, entry?, Graph.empty] at hp

/-- The children of a new node are those that it refers to. -/
theorem add (h : g.Structural) (hadd : g.add node = .ok (id, g')) : g'.Structural := by
  intro p found hp
  rw [childrenOf_add hadd]
  rw [(node?_add hadd).2] at hp
  split at hp
  next hid =>
    cases hp
    rw [if_pos hid]
  next hid =>
    rw [if_neg hid]
    exact h p found hp

/-- The children of an exchanged node are those that the new one refers to. -/
theorem replace (h : g.Structural) (hreplace : g.replace id node = .ok g') : g'.Structural := by
  intro p found hp
  rw [childrenOf_replace hreplace]
  rw [node?_replace hreplace] at hp
  split at hp
  next hid =>
    cases hp
    rw [if_pos hid]
  next hid =>
    rw [if_neg hid]
    exact h p found hp

end Structural

/-! ## Sequences of changes -/

/-- Edges can be made where both ends are in the graph. -/
theorem exists_addChildren (hparent : parent.index < g.size)
    (hchildren : ∀ c ∈ children, c.index < g.size) :
    ∃ g', g.addChildren parent children = .ok g' := by
  have hstep : ∀ g₁ : Graph, g₁.size = g.size → ∀ c ∈ children,
      ∃ g₂, g₁.addChild parent c = .ok g₂ ∧ g₂.size = g.size := by
    intro g₁ hsize c hc
    obtain ⟨g₂, hadd⟩ := Linked.exists_addChild (hsize ▸ hparent) (hsize ▸ hchildren c hc)
    exact ⟨g₂, hadd, (addChild_eq_ok hadd).2.trans hsize⟩
  obtain ⟨g', hadd, -⟩ := exists_foldlM_eq_ok hstep rfl
  exact ⟨g', hadd⟩

/-- A node can be added if it refers to nodes of the graph or to itself. -/
theorem exists_add (hchildren : ∀ c ∈ node.children, c.index ≤ g.size) :
    ∃ id g', g.add node = .ok (id, g') ∧ g'.size = g.size + 1 := by
  have hsize : size ⟨g.entries.push ⟨node, [], []⟩⟩ = g.size + 1 := Array.size_push _
  have hself : g.size < size ⟨g.entries.push ⟨node, [], []⟩⟩ := hsize ▸ Nat.lt_succ_self _
  have hin : ∀ c ∈ node.children, c.index < size ⟨g.entries.push ⟨node, [], []⟩⟩ :=
    fun c hc => hsize ▸ Nat.lt_succ_of_le (hchildren c hc)
  obtain ⟨g', hadd⟩ : ∃ g', addChildren ⟨g.entries.push ⟨node, [], []⟩⟩ ⟨g.size⟩ node.children =
      .ok g' := exists_addChildren hself hin
  exact ⟨⟨g.size⟩, g', bind_eq_ok.2 ⟨g', hadd, rfl⟩, (addChildren_eq_ok hadd).2.trans hsize⟩

end Graph

/-- One change of a graph. -/
inductive Edit where
  | add (node : Node)
  | addChild (parent child : NodeId)
  | replace (id : NodeId) (node : Node)

namespace Edit

/-- The graph behind a change. -/
def apply (g : Graph) : Edit → Except Fault Graph
  | .add node => (g.add node).map Prod.snd
  | .addChild parent child => g.addChild parent child
  | .replace id node => g.replace id node

/-- The number of nodes behind a change. -/
def sizeAfter (size : Nat) : Edit → Nat
  | .add _ => size + 1
  | .addChild .. | .replace .. => size

/-- The change names nodes of a graph of the given size. A node that is added may name itself. -/
def InRange (size : Nat) : Edit → Prop
  | .add node => ∀ c ∈ node.children, c.index ≤ size
  | .addChild parent child => parent.index < size ∧ child.index < size
  | .replace id node => id.index < size ∧ ∀ c ∈ node.children, c.index < size

/-- Each change names nodes that are there when its turn comes. -/
def AllInRange : Nat → List Edit → Prop
  | _, [] => True
  | size, edit :: edits => edit.InRange size ∧ AllInRange (edit.sizeAfter size) edits

/-- Whether an edge is made apart from the nodes. -/
def isEdge : Edit → Bool
  | .addChild .. => true
  | .add _ | .replace .. => false

/-- A change that names nodes of the graph can be made, and keeps the records in agreement. -/
theorem exists_apply {g : Graph} {edit : Edit} (hin : edit.InRange g.size) (h : g.Mirrored) :
    ∃ g', edit.apply g = .ok g' ∧ g'.size = edit.sizeAfter g.size ∧ g'.Mirrored ∧
      (edit.isEdge = false → g.Structural → g'.Structural) := by
  cases edit with
  | add node =>
    obtain ⟨id, g', hadd, hsize⟩ := Graph.exists_add hin
    refine ⟨g', ?_, hsize, h.add hadd, fun _ hg => hg.add hadd⟩
    rw [apply, hadd]
    rfl
  | addChild parent child =>
    obtain ⟨g', hadd⟩ := Graph.Linked.exists_addChild hin.1 hin.2
    refine ⟨g', hadd, (Graph.addChild_eq_ok hadd).2, h.addChild hadd, ?_⟩
    intro hedge
    cases hedge
  | replace id node =>
    obtain ⟨g', hreplace, -⟩ := h.linked.exists_replace hin.1 hin.2
    exact ⟨g', hreplace, (Graph.replace_eq_ok hreplace).2, h.replace hreplace,
      fun _ hg => hg.replace hreplace⟩

end Edit

/-- The graph behind a sequence of changes. -/
def Graph.edit (g : Graph) (edits : List Edit) : Except Fault Graph :=
  edits.foldlM Edit.apply g

/-- Changes that name nodes of the graph can be made, and keep the records in agreement. -/
theorem Graph.Mirrored.exists_edit {g : Graph} {edits : List Edit} (h : g.Mirrored)
    (hin : Edit.AllInRange g.size edits) :
    ∃ g', g.edit edits = .ok g' ∧ g'.Mirrored ∧
      ((∀ edit ∈ edits, edit.isEdge = false) → g.Structural → g'.Structural) := by
  induction edits generalizing g with
  | nil => exact ⟨g, rfl, h, fun _ hg => hg⟩
  | cons edit edits ih =>
    obtain ⟨hhead, htail⟩ := hin
    obtain ⟨g₁, hstep, hsize, hmirrored, hstructural⟩ := Edit.exists_apply hhead h
    obtain ⟨g', hrest, hmirrored', hstructural'⟩ := ih hmirrored (hsize ▸ htail)
    refine ⟨g', ?_, hmirrored', ?_⟩
    · rw [Graph.edit, List.foldlM_cons, hstep]
      exact hrest
    · intro hnodes hg
      obtain ⟨hnode, hnodes⟩ := List.forall_mem_cons.1 hnodes
      exact hstructural' hnodes (hstructural hnode hg)

/-! ## Constant propagation -/

/-- A property of graphs that adding constants and exchanging nodes keep. -/
structure Graph.Lasting (P : Graph → Prop) : Prop where
  add : ∀ {g g' : Graph} {id l}, P g → g.add (.constant l) = .ok (id, g') → P g'
  replace : ∀ {g g' : Graph} {id node}, P g → g.replace id node = .ok g' → P g'

theorem Graph.lasting_mirrored : Lasting Mirrored :=
  ⟨.add, .replace⟩

theorem Graph.lasting_structural : Lasting Structural :=
  ⟨.add, .replace⟩

/-- The other steps leave the graph. -/
theorem Graph.Lasting.stable {P : Graph → Prop} (hP : Lasting P) :
    Propagation.Stable fun s t => P s.graph → P t.graph where
  refl _ h := h
  trans h₁ h₂ h := h₂ (h₁ h)
  add hadd h := hP.add h hadd
  replace hreplace h := hP.replace h hreplace
  count _ _ h := h
  forget _ _ h := h
  record _ _ _ h := h
  invalidate _ _ h := h
  note _ _ h := h
  frame h := h
  nothing h := h

/-- What adding constants and exchanging nodes keep is kept by constant propagation, whether it ends
or stops. -/
theorem Program.retains_propagate {p : Program} {P : Graph → Prop} (hP : Graph.Lasting P)
    (hp : P p.graph) {s : Propagation}
    (h : p.propagate = .ok () s ∨ ∃ e, p.propagate = .error e s) : P s.graph :=
  tracks_propagate hP.stable h hp

namespace Graph

/-- The two records of the edges agree in every graph that is made from the empty one, and if no
edge was made by hand they are those of the nodes. Constant propagation keeps both, whether it ends
or stops. -/
theorem edges_agree :
    (∀ edits, Edit.AllInRange 0 edits →
      ∃ g, Graph.empty.edit edits = .ok g ∧ g.Mirrored ∧
        ((∀ edit ∈ edits, edit.isEdge = false) → g.Structural)) ∧
    ∀ (p : Program) (s : Propagation), (p.propagate = .ok () s ∨ ∃ e, p.propagate = .error e s) →
      (p.graph.Mirrored → s.graph.Mirrored) ∧ (p.graph.Structural → s.graph.Structural) := by
  constructor
  · intro edits hin
    obtain ⟨g, hg, hmirrored, hstructural⟩ := Mirrored.empty.exists_edit hin
    exact ⟨g, hg, hmirrored, fun hnodes => hstructural hnodes .empty⟩
  · intro p s hend
    constructor
    · intro hp
      exact Program.retains_propagate lasting_mirrored hp hend
    · intro hp
      exact Program.retains_propagate lasting_structural hp hend

/-- A sum that refers to itself, is exchanged for one with the same operand twice, and is
assigned. -/
def tangle : List Edit :=
  [.add (.constant (.scalar 1)), .add (.var (.scalar "x")), .add (.arithmetic .add ⟨2⟩ ⟨0⟩),
    .add (.assign ⟨1⟩ ⟨2⟩), .replace ⟨2⟩ (.arithmetic .add ⟨0⟩ ⟨0⟩)]

/-- The records agree although the node refers to itself for a while, and twice to one operand
later. -/
theorem edges_agree_tangle : ∃ g, Graph.empty.edit tangle = .ok g ∧ g.Mirrored ∧ g.Structural ∧
    ∃ s, (Program.mk g [⟨3⟩]).propagate = .ok () s ∧ s.graph.Mirrored ∧ s.graph.Structural := by
  have hin : Edit.AllInRange 0 tangle := by
    simp [tangle, Edit.AllInRange, Edit.InRange, Edit.sizeAfter, Node.children]
  obtain ⟨g, hg, hmirrored, hstructural⟩ := edges_agree.1 tangle hin
  have hg' := hstructural (by decide)
  have hruns : ((Graph.empty.edit tangle).toOption.map fun g =>
      decide (∃ u s, (Program.mk g [⟨3⟩]).propagate = .ok u s)) = some true := by decide +kernel
  rw [hg] at hruns
  obtain ⟨_, s, hs⟩ := of_decide_eq_true (Option.some.inj hruns)
  obtain ⟨hmirrored', hstructural'⟩ := edges_agree.2 ⟨g, [⟨3⟩]⟩ s (.inl hs)
  exact ⟨g, hg, hmirrored, hg', s, hs, hmirrored' hmirrored, hstructural' hg'⟩

end Graph

end RegisterBackend
