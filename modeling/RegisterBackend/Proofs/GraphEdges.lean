import RegisterBackend.Proofs.Command
import RegisterBackend.Proofs.Rewriting

/-!
# Edges stay in the graph

A graph is made by adding nodes, making edges and exchanging nodes (`Graph.Built`). Each of these
operations stops where a node is missing, so the edges of a graph that has been made lead to nodes
of the graph (`Graph.Linked`). Exchanging a node of such a graph stops only if the new node refers
to one that is missing (`Graph.Linked.exists_replace`).
-/

namespace RegisterBackend

/-- A fold succeeds if each of its steps does where what the steps keep holds. -/
theorem exists_foldlM_eq_ok {ε α β : Type} {f : β → α → Except ε β} {P : β → Prop} :
    ∀ {l : List α} {b : β}, (∀ b, P b → ∀ a ∈ l, ∃ b', f b a = .ok b' ∧ P b') → P b →
      ∃ b', l.foldlM f b = .ok b' ∧ P b'
  | [], b, _, hb => ⟨b, rfl, hb⟩
  | a :: l, b, hf, hb => by
    obtain ⟨b₁, h₁, hb₁⟩ := hf b hb a List.mem_cons_self
    obtain ⟨b₂, h₂, hb₂⟩ :=
      exists_foldlM_eq_ok (fun b hb a ha => hf b hb a (List.mem_cons_of_mem _ ha)) hb₁
    exact ⟨b₂, by rw [List.foldlM_cons, h₁]; exact h₂, hb₂⟩

namespace Graph

variable {g g' : Graph} {id : NodeId} {node : Node}

/-! ## Numbers of nodes -/

theorem size_put (g : Graph) (id : NodeId) (entry : Entry) : (g.put id entry).size = g.size := by
  simp [put, size]

theorem entry?_eq_some_of_lt (h : id.index < g.size) : ∃ entry, g.entry? id = some entry :=
  ⟨g.entries[id.index], Array.getElem?_eq_getElem h⟩

theorem node?_eq_some_of_lt (h : id.index < g.size) : ∃ node, g.node? id = some node := by
  obtain ⟨entry, hentry⟩ := entry?_eq_some_of_lt h
  exact ⟨entry.node, Option.map_eq_some_iff.2 ⟨entry, hentry, rfl⟩⟩

theorem index_lt_of_entry? {entry : Entry} (h : g.entry? id = some entry) : id.index < g.size :=
  (Array.getElem?_eq_some_iff.1 h).1

theorem index_lt_of_node? (h : g.node? id = some node) : id.index < g.size := by
  obtain ⟨entry, hentry, -⟩ := Option.map_eq_some_iff.1 h
  exact index_lt_of_entry? hentry

/-- A graph that has all nodes of another is not smaller. -/
theorem size_le_of_node? (h : ∀ n, g'.node? n = none → g.node? n = none) : g.size ≤ g'.size := by
  by_contra hlt
  have hlast : g.node? ⟨g'.size⟩ = none := h _ (by simp [node?, entry?, size])
  simp only [node?, entry?, size, Option.map_eq_none_iff, Array.getElem?_eq_none_iff] at hlast hlt
  exact hlt hlast

/-- A node is added under the next number, and changes no other one. -/
theorem node?_add (h : g.add node = .ok (id, g')) :
    id.index = g.size ∧ ∀ n, g'.node? n = if n = id then some node else g.node? n := by
  obtain ⟨g₁, hchildren, hpure⟩ := bind_eq_ok.1 h
  cases hpure
  refine ⟨rfl, fun ⟨i⟩ => ?_⟩
  rw [node?_addChildren hchildren]
  simp only [node?, entry?, size, NodeId.mk.injEq, Array.getElem?_push]
  split <;> rfl

/-- A child that can be added is in the graph, and no nodes are added. -/
theorem addChild_eq_ok {parent child : NodeId} (h : g.addChild parent child = .ok g') :
    child.index < g.size ∧ g'.size = g.size := by
  obtain ⟨entry, -, hadd⟩ := bind_eq_ok.1 h
  obtain ⟨childEntry, hchild, hput⟩ := bind_eq_ok.1 hadd
  cases hput
  have hlt := index_lt_of_entry? (entry_eq_ok.1 hchild)
  rw [size_put] at hlt
  exact ⟨hlt, by rw [size_put, size_put]⟩

/-- Edges are made to nodes of the graph only. -/
theorem addChildren_eq_ok {parent : NodeId} {children : List NodeId}
    (h : g.addChildren parent children = .ok g') :
    (∀ c ∈ children, c.index < g.size) ∧ g'.size = g.size := by
  induction children generalizing g with
  | nil =>
    cases h
    exact ⟨nofun, rfl⟩
  | cons c children ih =>
    rw [addChildren, List.foldlM_cons] at h
    obtain ⟨g₁, hc, hrest⟩ := bind_eq_ok.1 h
    obtain ⟨hlt, hsize⟩ := addChild_eq_ok hc
    obtain ⟨hchildren, hsize'⟩ := ih hrest
    rw [hsize] at hchildren hsize'
    exact ⟨List.forall_mem_cons.2 ⟨hlt, hchildren⟩, hsize'⟩

/-- A node that can be put in the place of another refers to nodes of the graph, and no nodes are
added. -/
theorem replace_eq_ok (h : g.replace id node = .ok g') :
    (∀ c ∈ node.children, c.index < g.size) ∧ g'.size = g.size := by
  obtain ⟨entry, -, h⟩ := bind_eq_ok.1 h
  obtain ⟨g₁, hdropped, hadded⟩ := bind_eq_ok.1 h
  have hsize : g₁.size = g.size := by
    refine foldlM_eq_ok (P := fun g₁ : Graph => g₁.size = g.size) (fun hb hstep => ?_) (size_put ..)
      hdropped
    obtain ⟨_, -, hput⟩ := bind_eq_ok.1 hstep
    cases hput
    exact (size_put ..).trans hb
  rw [← hsize]
  exact addChildren_eq_ok hadded

/-! ## Linked graphs -/

/-- Every edge leads to a node of the graph. -/
def Linked (g : Graph) : Prop :=
  ∀ entry ∈ g.entries, ∀ c ∈ entry.children, c.index < g.size

namespace Linked

theorem of_entry? (h : g.Linked) {entry : Entry} (hentry : g.entry? id = some entry) :
    ∀ c ∈ entry.children, c.index < g.size :=
  h entry (Array.mem_of_getElem? hentry)

theorem empty : Graph.empty.Linked := by
  intro entry hentry
  simp [Graph.empty] at hentry

/-- An entry with edges into the graph can be put anywhere. -/
theorem put (h : g.Linked) {entry : Entry} (hentry : ∀ c ∈ entry.children, c.index < g.size) :
    (g.put id entry).Linked := by
  intro old hold c hc
  rw [size_put]
  rcases Array.mem_or_eq_of_mem_setIfInBounds hold with hold | rfl
  · exact h old hold c hc
  · exact hentry c hc

/-- A parent is entered without changing what nodes refer to. -/
theorem addParent (h : g.Linked) {child parent : NodeId} (hadd : g.addParent child parent = .ok g') :
    g'.Linked ∧ g'.size = g.size := by
  obtain ⟨entry, hentry, hput⟩ := bind_eq_ok.1 hadd
  cases hput
  have hchildren := h.of_entry? (entry_eq_ok.1 hentry)
  exact ⟨h.put hchildren, size_put ..⟩

/-- A parent is taken out without changing what nodes refer to. -/
theorem removeParent (h : g.Linked) {child parent : NodeId}
    (hremove : g.removeParent child parent = .ok g') : g'.Linked ∧ g'.size = g.size := by
  obtain ⟨entry, hentry, hput⟩ := bind_eq_ok.1 hremove
  cases hput
  have hchildren := h.of_entry? (entry_eq_ok.1 hentry)
  exact ⟨h.put hchildren, size_put ..⟩

/-- An edge to a node of the graph is added. -/
theorem addChild (h : g.Linked) {parent child : NodeId} (hadd : g.addChild parent child = .ok g') :
    g'.Linked ∧ g'.size = g.size := by
  obtain ⟨entry, hentry, hadd⟩ := bind_eq_ok.1 hadd
  -- the edge is recorded at the child as well, so the child is in the graph
  obtain ⟨childEntry, hchild, -⟩ := bind_eq_ok.1 hadd
  have hlt : child.index < g.size := by
    rw [← size_put g parent]
    exact index_lt_of_entry? (entry_eq_ok.1 hchild)
  have hput : (g.put parent { entry with children := appendNew entry.children child }).Linked := by
    refine h.put fun c hc => ?_
    simp only [appendNew] at hc
    split at hc
    · exact h.of_entry? (entry_eq_ok.1 hentry) c hc
    · rcases List.mem_append.1 hc with hc | hc
      · exact h.of_entry? (entry_eq_ok.1 hentry) c hc
      · rwa [List.mem_singleton.1 hc]
  obtain ⟨hlinked, hsize⟩ := hput.addParent hadd
  exact ⟨hlinked, hsize.trans (size_put ..)⟩

/-- Edges to nodes of the graph are added, one after the other. -/
theorem addChildren (h : g.Linked) {parent : NodeId} {children : List NodeId}
    (hadd : g.addChildren parent children = .ok g') : g'.Linked ∧ g'.size = g.size :=
  foldlM_eq_ok (P := fun g' => g'.Linked ∧ g'.size = g.size)
    (fun ⟨hlinked, hsize⟩ hstep =>
      ⟨(hlinked.addChild hstep).1, (hlinked.addChild hstep).2.trans hsize⟩) ⟨h, rfl⟩ hadd

/-- A new node is only added with edges that lead into the graph. -/
theorem add (h : g.Linked) (hadd : g.add node = .ok (id, g')) : g'.Linked := by
  obtain ⟨g₁, hchildren, hpure⟩ := bind_eq_ok.1 hadd
  cases hpure
  have hpush : Linked ⟨g.entries.push ⟨node, [], []⟩⟩ := by
    intro entry hentry c hc
    rcases Array.mem_push.1 hentry with hentry | rfl
    · have hlt := h entry hentry c hc
      simp only [size, Array.size_push] at hlt ⊢
      omega
    · cases hc
  exact (hpush.addChildren hchildren).1

/-- A node is only replaced by one whose edges lead into the graph. -/
theorem replace (h : g.Linked) (hreplace : g.replace id node = .ok g') : g'.Linked := by
  obtain ⟨entry, hentry, hreplace⟩ := bind_eq_ok.1 hreplace
  obtain ⟨g₁, hdropped, hadded⟩ := bind_eq_ok.1 hreplace
  have hput : (g.put id { entry with node := node, children := [] }).Linked := h.put nofun
  have hlinked : g₁.Linked := foldlM_eq_ok (P := Linked) (fun hl hstep => (hl.removeParent hstep).1)
    hput hdropped
  exact (hlinked.addChildren hadded).1

/-! Operations on a linked graph succeed where the nodes are in the graph. -/

/-- A parent can be entered at every node. -/
theorem exists_addParent {child : NodeId} (hchild : child.index < g.size) (parent : NodeId) :
    ∃ g', g.addParent child parent = .ok g' := by
  obtain ⟨entry, hentry⟩ := entry?_eq_some_of_lt hchild
  exact ⟨_, bind_eq_ok.2 ⟨entry, entry_eq_ok.2 hentry, rfl⟩⟩

/-- A parent can be taken out at every node, whether it is there or not. -/
theorem exists_removeParent {child : NodeId} (hchild : child.index < g.size) (parent : NodeId) :
    ∃ g', g.removeParent child parent = .ok g' := by
  obtain ⟨entry, hentry⟩ := entry?_eq_some_of_lt hchild
  exact ⟨_, bind_eq_ok.2 ⟨entry, entry_eq_ok.2 hentry, rfl⟩⟩

/-- An edge can be added between any two nodes. -/
theorem exists_addChild {parent child : NodeId} (hparent : parent.index < g.size)
    (hchild : child.index < g.size) : ∃ g', g.addChild parent child = .ok g' := by
  obtain ⟨entry, hentry⟩ := entry?_eq_some_of_lt hparent
  rw [← size_put g parent { entry with children := appendNew entry.children child }] at hchild
  obtain ⟨g', hadd⟩ := exists_addParent hchild parent
  exact ⟨g', bind_eq_ok.2 ⟨entry, entry_eq_ok.2 hentry, hadd⟩⟩

/-- A node can be exchanged for one that refers to nodes of the graph. -/
theorem exists_replace (h : g.Linked) (hid : id.index < g.size)
    (hchildren : ∀ c ∈ node.children, c.index < g.size) :
    ∃ g', g.replace id node = .ok g' ∧ g'.Linked := by
  obtain ⟨entry, hentry⟩ := entry?_eq_some_of_lt hid
  have hput : (g.put id { entry with node := node, children := [] }).Linked := h.put nofun
  obtain ⟨g₁, hdropped, hlinked, hsize⟩ : ∃ g₁ : Graph,
      (entry.children.filter (· ∉ node.children)).foldlM (fun g child => g.removeParent child id)
        (g.put id { entry with node := node, children := [] }) = .ok g₁ ∧ g₁.Linked ∧
        g₁.size = g.size := by
    refine exists_foldlM_eq_ok (P := fun g₁ : Graph => g₁.Linked ∧ g₁.size = g.size) ?_
      ⟨hput, size_put ..⟩
    rintro g₁ ⟨hlinked, hsize⟩ c hc
    have hlt : c.index < g₁.size := hsize ▸ h.of_entry? hentry c (List.mem_filter.1 hc).1
    obtain ⟨g₂, hremove⟩ := exists_removeParent hlt id
    obtain ⟨hlinked₂, hsize₂⟩ := hlinked.removeParent hremove
    exact ⟨g₂, hremove, hlinked₂, hsize₂.trans hsize⟩
  obtain ⟨g₂, hadded, hlinked₂, -⟩ : ∃ g₂ : Graph,
      g₁.addChildren id node.children = .ok g₂ ∧ g₂.Linked ∧ g₂.size = g.size := by
    refine exists_foldlM_eq_ok (P := fun g₂ : Graph => g₂.Linked ∧ g₂.size = g.size) ?_
      ⟨hlinked, hsize⟩
    rintro g₂ ⟨hlinked, hsize⟩ c hc
    obtain ⟨g₃, hadd⟩ := exists_addChild (hsize ▸ hid) (hsize ▸ hchildren c hc)
    obtain ⟨hlinked₃, hsize₃⟩ := hlinked.addChild hadd
    exact ⟨g₃, hadd, hlinked₃, hsize₃.trans hsize⟩
  have hreplace : g.replace id node = .ok g₂ :=
    bind_eq_ok.2 ⟨entry, entry_eq_ok.2 hentry, bind_eq_ok.2 ⟨g₁, hdropped, hadded⟩⟩
  exact ⟨g₂, hreplace, hlinked₂⟩

end Linked

/-! ## Graphs that can be made -/

/-- The graph is made by the operations on graphs. -/
inductive Built : Graph → Prop
  | empty : Built .empty
  | add {g g' : Graph} {node id} (h : Built g) (hadd : g.add node = .ok (id, g')) : Built g'
  | addChild {g g' : Graph} {parent child} (h : Built g) (hadd : g.addChild parent child = .ok g') :
    Built g'
  | addParent {g g' : Graph} {child parent} (h : Built g) (hadd : g.addParent child parent = .ok g') :
    Built g'
  | replace {g g' : Graph} {id node} (h : Built g) (hreplace : g.replace id node = .ok g') : Built g'

/-- The edges of a graph that has been made lead to its nodes. -/
theorem Built.linked (h : g.Built) : g.Linked := by
  induction h with
  | empty => exact .empty
  | add _ hadd ih => exact ih.add hadd
  | addChild _ hadd ih => exact (ih.addChild hadd).1
  | addParent _ hadd ih => exact (ih.addParent hadd).1
  | replace _ hreplace ih => exact ih.replace hreplace

/-- What the nodes of a graph that has been made refer to is in the graph. -/
theorem Built.index_lt (h : g.Built) {n c : NodeId} (hnode : g.node? n = some node)
    (hc : c ∈ node.children) : c.index < g.size := by
  induction h generalizing n node with
  | empty => simp [node?, entry?, Graph.empty] at hnode
  | @add g g' new id _ hadd ih =>
    obtain ⟨-, hnodes⟩ := node?_add hadd
    obtain ⟨g₁, hchildren, hpure⟩ := bind_eq_ok.1 hadd
    cases hpure
    obtain ⟨hnew, hsize⟩ := addChildren_eq_ok hchildren
    rw [hsize]
    rw [hnodes] at hnode
    split at hnode
    next =>
      cases hnode
      exact hnew c hc
    next =>
      have hlt := ih hnode hc
      simp only [size, Array.size_push] at hlt ⊢
      omega
  | addChild _ hadd ih =>
    rw [(addChild_eq_ok hadd).2]
    exact ih ((node?_addChild hadd n).symm.trans hnode) hc
  | addParent hbuilt hadd ih =>
    rw [(hbuilt.linked.addParent hadd).2]
    exact ih ((node?_addParent hadd n).symm.trans hnode) hc
  | @replace g g' id new _ hreplace ih =>
    obtain ⟨hnew, hsize⟩ := replace_eq_ok hreplace
    rw [hsize]
    rw [node?_replace hreplace] at hnode
    split at hnode
    next =>
      cases hnode
      exact hnew c hc
    next => exact ih hnode hc

/-- A graph that is given by its nodes is one that the operations make. -/
theorem built_ofNodes (nodes : List Node) : (ofNodes nodes).Built := by
  refine List.foldlRecOn nodes _ .empty fun g hg node _ => ?_
  split
  next hadd => exact hg.add hadd
  next => exact hg

end Graph

end RegisterBackend
