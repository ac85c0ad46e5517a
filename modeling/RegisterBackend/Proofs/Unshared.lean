import Mathlib.Data.List.Nodup
import Mathlib.Logic.ExistsUnique
import RegisterBackend.Program.Basic
import RegisterBackend.Proofs.Rewriting

/-!
# Programs without sharing

A `Slot` is a place that refers to a node: a position of the body of a program, or a position among
the references of a node that can be reached. A program is `Unshared` if every node that is no leaf
stands in one slot only. Leaves may stand in many.

Then the nodes that are no leaves form a forest. A path to a node can be followed backwards in one
way only, so a node is not below itself (`Unshared.not_reaches`), and what is below one slot is not
below another that is neither above nor below it (`Unshared.apart`). `Graph.Separated` collects what
this means for one list of nodes and all that is below it.
-/

namespace RegisterBackend

/-! ## Parts of a graph -/

namespace Graph

variable {g : Graph}

/-- A node with references is no leaf. -/
theorem exists_node_of_child {a b : NodeId} (h : g.Child a b) :
    ∃ node, g.node? a = some node ∧ node.isLeaf = false := by
  obtain ⟨node, hnode, hb⟩ := h
  refine ⟨node, hnode, Bool.eq_false_iff.2 fun hleaf => ?_⟩
  rw [Node.children_of_isLeaf hleaf] at hb
  cases hb

/-- A cycle comes back to its beginning. -/
theorem exists_child_of_cycle {n c : NodeId} (hc : g.Child n c) (hback : g.Reaches c n) :
    ∃ z, g.Reaches n z ∧ g.Child z n := by
  rcases hback.cases_tail with heq | ⟨z, hz, hzn⟩
  · subst heq
    exact ⟨n, .refl, hc⟩
  · exact ⟨z, .head hc hz, hzn⟩

/-- Only leaves can be reached from both nodes. -/
def Apart (g : Graph) (a b : NodeId) : Prop :=
  ∀ n node, g.Reaches a n → g.Reaches b n → g.node? n = some node → node.isLeaf = true

/-- The nodes of a list are apart, and so are the references of every node below them, none of which
leads back. -/
structure Separated (g : Graph) (ids : List NodeId) : Prop where
  apart : ids.Pairwise g.Apart
  below : ∀ id ∈ ids, ∀ n node, g.Reaches id n → g.node? n = some node →
    node.children.Pairwise g.Apart ∧ ∀ c ∈ node.children, ¬ g.Reaches c n

namespace Separated

variable {ids ids' : List NodeId} {id : NodeId} {node : Node}

theorem sublist (h : g.Separated ids) (hsub : ids'.Sublist ids) : g.Separated ids' :=
  ⟨h.apart.sublist hsub, fun id hid => h.below id (hsub.subset hid)⟩

/-- The references of a node below separated ones are separated. -/
theorem children (h : g.Separated ids) (hid : id ∈ ids) (hnode : g.node? id = some node) :
    g.Separated node.children where
  apart := (h.below id hid id node .refl hnode).1
  below _ hc n node' hn := h.below id hid n node' (.head ⟨node, hnode, hc⟩ hn)

theorem not_reaches {c : NodeId} (h : g.Separated ids) (hid : id ∈ ids)
    (hnode : g.node? id = some node) (hc : c ∈ node.children) : ¬ g.Reaches c id :=
  (h.below id hid id node .refl hnode).2 c hc

end Separated

end Graph

/-! ## Slots -/

/-- A place that refers to a node. -/
inductive Slot where
  /-- A position of the body. -/
  | body (position : Nat)
  /-- A position among the references of a node. -/
  | child (parent : NodeId) (position : Nat)
deriving DecidableEq, Repr

namespace Program

variable {p : Program} {a b n : NodeId} {node : Node}

/-- The node can be reached from the body. -/
def Reachable (p : Program) (id : NodeId) : Prop :=
  ∃ root ∈ p.body, p.graph.Reaches root id

/-- A slot of the body, or of a node that can be reached, refers to the node. -/
def Fills (p : Program) : Slot → NodeId → Prop
  | .body i, id => p.body[i]? = some id
  | .child parent i, id =>
    p.Reachable parent ∧ ∃ node, p.graph.node? parent = some node ∧ node.children[i]? = some id

/-- Every node that can be reached and is no leaf stands in exactly one slot. -/
def Unshared (p : Program) : Prop :=
  ∀ id node, p.Reachable id → p.graph.node? id = some node → node.isLeaf = false →
    ∃! slot, p.Fills slot id

theorem Reachable.child (h : p.Reachable a) (hab : p.graph.Child a b) : p.Reachable b := by
  obtain ⟨root, hroot, ha⟩ := h
  exact ⟨root, hroot, ha.tail hab⟩

theorem Reachable.trans (h : p.Reachable a) (hab : p.graph.Reaches a b) : p.Reachable b := by
  obtain ⟨root, hroot, ha⟩ := h
  exact ⟨root, hroot, Relation.ReflTransGen.trans ha hab⟩

/-- A reference of a node that can be reached is a slot. -/
theorem Reachable.exists_fills (h : p.Reachable a) (hab : p.graph.Child a b) :
    ∃ i, p.Fills (.child a i) b := by
  obtain ⟨node, hnode, hb⟩ := hab
  obtain ⟨i, hi⟩ := List.mem_iff_getElem?.1 hb
  exact ⟨i, h, node, hnode, hi⟩

/-- What stands in a slot can be reached. -/
theorem Fills.reachable {slot : Slot} (h : p.Fills slot a) : p.Reachable a := by
  cases slot with
  | body i => exact ⟨a, List.mem_of_getElem? h, .refl⟩
  | child parent i =>
    obtain ⟨hparent, node, hnode, ha⟩ := h
    exact hparent.child ⟨node, hnode, List.mem_of_getElem? ha⟩

namespace Unshared

theorem slot_eq (h : p.Unshared) (hnode : p.graph.node? n = some node) (hleaf : node.isLeaf = false)
    {slot slot' : Slot} (hslot : p.Fills slot n) (hslot' : p.Fills slot' n) : slot = slot' :=
  (h n node hslot.reachable hnode hleaf).unique hslot hslot'

/-- No node is below itself. -/
theorem not_reaches (h : p.Unshared) {c : NodeId} (hn : p.Reachable n) (hc : p.graph.Child n c) :
    ¬ p.graph.Reaches c n := by
  obtain ⟨root, hroot, hpath⟩ := hn
  -- A cycle comes back to each of its nodes through a slot. So the slot through which the path from
  -- the body comes is that one, and the node before it on the path is in the cycle too.
  induction hpath generalizing c with
  | refl =>
    intro hback
    obtain ⟨node, hnode, hleaf⟩ := Graph.exists_node_of_child hc
    obtain ⟨z, hz, hzn⟩ := Graph.exists_child_of_cycle hc hback
    obtain ⟨i, hi⟩ := List.mem_iff_getElem?.1 hroot
    have hbody : p.Fills (.body i) root := hi
    obtain ⟨j, hj⟩ := (hbody.reachable.trans hz).exists_fills hzn
    have heq := h.slot_eq hnode hleaf hbody hj
    cases heq
  | @tail m n hm hmn ih =>
    intro hback
    have hm' : p.Reachable m := ⟨root, hroot, hm⟩
    obtain ⟨node, hnode, hleaf⟩ := Graph.exists_node_of_child hc
    obtain ⟨z, hz, hzn⟩ := Graph.exists_child_of_cycle hc hback
    obtain ⟨i, hi⟩ := hm'.exists_fills hmn
    obtain ⟨j, hj⟩ := ((hm'.child hmn).trans hz).exists_fills hzn
    have heq := h.slot_eq hnode hleaf hi hj
    cases heq
    exact ih hmn hz

/-- What is below one slot is not below another one, if neither slot is below the other. -/
theorem apart (h : p.Unshared) {slot slot' : Slot} (ha : p.Fills slot a) (hb : p.Fills slot' b)
    (hne : slot ≠ slot') (hup : ∀ z i, slot = .child z i → ¬ p.graph.Reaches b z)
    (hup' : ∀ z i, slot' = .child z i → ¬ p.graph.Reaches a z) : p.graph.Apart a b := by
  intro n node han hbn hnode
  by_contra hleaf
  rw [Bool.not_eq_true] at hleaf
  -- the two paths come to the node through the same slot, and so they had already met before it
  induction han generalizing node with
  | refl =>
    rcases hbn.cases_tail with heq | ⟨z, hbz, hza⟩
    · subst heq
      exact hne (h.slot_eq hnode hleaf ha hb)
    · obtain ⟨i, hi⟩ := (hb.reachable.trans hbz).exists_fills hza
      exact hup z i (h.slot_eq hnode hleaf ha hi) hbz
  | @tail m n ham hmn ih =>
    obtain ⟨i, hi⟩ := (ha.reachable.trans ham).exists_fills hmn
    rcases hbn.cases_tail with heq | ⟨z, hbz, hzn⟩
    · subst heq
      exact hup' m i (h.slot_eq hnode hleaf hb hi) ham
    · obtain ⟨j, hj⟩ := (hb.reachable.trans hbz).exists_fills hzn
      have heq := h.slot_eq hnode hleaf hi hj
      cases heq
      obtain ⟨node', hnode', hleaf'⟩ := Graph.exists_node_of_child hmn
      exact ih node' hbz hnode' hleaf'

/-- A path to a node comes through the nodes above it, and does not lead through parameters to them
if it does not on the whole. -/
theorem enters (h : p.Unshared) {root : NodeId} (hroot : root ∈ p.body)
    (hn : p.graph.Enters root n) (hnode : p.graph.node? n = some node) (hleaf : node.isLeaf = false)
    (ha : p.Reachable a) (han : p.graph.Reaches a n) : p.graph.Enters root a := by
  induction han generalizing node with
  | refl => exact hn
  | @tail m n ham hmn ih =>
    obtain ⟨i, hi⟩ := (ha.trans ham).exists_fills hmn
    rcases hn.cases_tail with heq | ⟨z, hz, hzn⟩
    · subst heq
      obtain ⟨j, hj⟩ := List.mem_iff_getElem?.1 hroot
      have hbody : p.Fills (.body j) n := hj
      have heq := h.slot_eq hnode hleaf hbody hi
      cases heq
    · obtain ⟨node', hnode', hpart⟩ := hzn
      have hreach : p.Reachable z := ⟨root, hroot, Graph.Enters.reaches hz⟩
      obtain ⟨j, hj⟩ := hreach.exists_fills ⟨node', hnode', node'.parts_subset_children hpart⟩
      have heq := h.slot_eq hnode hleaf hi hj
      cases heq
      obtain ⟨node'', hnode'', hleaf'⟩ := Graph.exists_node_of_child hmn
      exact ih hz hnode'' hleaf'

/-- The references of a node that can be reached are apart. -/
theorem children_apart (h : p.Unshared) (hn : p.Reachable n) (hnode : p.graph.node? n = some node) :
    node.children.Pairwise p.graph.Apart := by
  rw [List.pairwise_iff_getElem]
  intro i j hi hj hij
  have hchild : ∀ k, (hk : k < node.children.length) →
      p.Fills (.child n k) (node.children.get ⟨k, hk⟩) :=
    fun k hk => ⟨hn, node, hnode, List.getElem?_eq_getElem hk⟩
  have hback : ∀ c ∈ node.children, ¬ p.graph.Reaches c n :=
    fun c hc => h.not_reaches hn ⟨node, hnode, hc⟩
  refine h.apart (hchild i hi) (hchild j hj) (by simp; omega) ?_ ?_
  · rintro z k heq
    cases heq
    exact hback _ (List.getElem_mem hj)
  · rintro z k heq
    cases heq
    exact hback _ (List.getElem_mem hi)

/-- The parts of a program without sharing are apart. -/
theorem separated (h : p.Unshared) : p.graph.Separated p.body where
  apart := by
    rw [List.pairwise_iff_getElem]
    intro i j hi hj hij
    have hbody : ∀ k, (hk : k < p.body.length) → p.Fills (.body k) (p.body.get ⟨k, hk⟩) :=
      fun k hk => List.getElem?_eq_getElem hk
    exact h.apart (hbody i hi) (hbody j hj) (by simp; omega) nofun nofun
  below id hid n node hn hnode := by
    have hreach : p.Reachable n := ⟨id, hid, hn⟩
    exact ⟨h.children_apart hreach hnode, fun c hc => h.not_reaches hreach ⟨node, hnode, hc⟩⟩

end Unshared

/-! ## Checking for sharing -/

/-- The slots of a program and what stands in them, those of nodes that cannot be reached
included. -/
def slots (p : Program) : List (Slot × NodeId) :=
  p.body.zipIdx.map (fun e => (.body e.2, e.1)) ++
    (List.range p.graph.size).flatMap fun i =>
      match p.graph.node? ⟨i⟩ with
      | some node => node.children.zipIdx.map fun e => (.child ⟨i⟩ e.2, e.1)
      | none => []

/-- Whether the node is in the graph and no leaf. -/
def isInner (p : Program) (id : NodeId) : Bool :=
  (p.graph.node? id).any fun node => !node.isLeaf

/-- A slot that can be reached is among all slots. -/
theorem Fills.mem_slots {slot : Slot} (h : p.Fills slot a) : (slot, a) ∈ p.slots := by
  cases slot with
  | body i =>
    have hmem : (a, i) ∈ p.body.zipIdx := List.mem_zipIdx_iff_getElem?.2 h
    exact List.mem_append_left _ (List.mem_map.2 ⟨(a, i), hmem, rfl⟩)
  | child parent i =>
    obtain ⟨-, node, hnode, ha⟩ := h
    have hmem : (a, i) ∈ node.children.zipIdx := List.mem_zipIdx_iff_getElem?.2 ha
    have hlt : parent.index < p.graph.size := by
      simp only [Graph.node?, Graph.entry?, Option.map_eq_some_iff] at hnode
      obtain ⟨entry, hentry, -⟩ := hnode
      exact (Array.getElem?_eq_some_iff.1 hentry).1
    refine List.mem_append_right _ (List.mem_flatMap.2 ⟨parent.index, List.mem_range.2 hlt, ?_⟩)
    simp only [hnode]
    exact List.mem_map.2 ⟨(a, i), hmem, rfl⟩

/-- What can be reached stands in a slot. -/
theorem Reachable.exists_slot (h : p.Reachable a) : ∃ slot, p.Fills slot a := by
  obtain ⟨root, hroot, hpath⟩ := h
  rcases hpath.cases_tail with rfl | ⟨z, hz, hza⟩
  · obtain ⟨i, hi⟩ := List.mem_iff_getElem?.1 hroot
    exact ⟨.body i, hi⟩
  · have hreach : p.Reachable z := ⟨root, hroot, hz⟩
    obtain ⟨i, hi⟩ := hreach.exists_fills hza
    exact ⟨.child z i, hi⟩

/-- There is no sharing if no node but leaves is listed twice. -/
theorem unshared_of_nodup (h : ((p.slots.filter fun e => p.isInner e.2).map (·.2)).Nodup) :
    p.Unshared := by
  intro id node hid hnode hleaf
  obtain ⟨slot, hslot⟩ := hid.exists_slot
  have hinner : p.isInner id = true := by simp [isInner, hnode, hleaf]
  have hmem : ∀ {slot}, p.Fills slot id → (slot, id) ∈ p.slots.filter fun e => p.isInner e.2 :=
    fun hslot => List.mem_filter.2 ⟨hslot.mem_slots, hinner⟩
  refine ⟨slot, hslot, fun slot' hslot' => ?_⟩
  exact congrArg Prod.fst (List.inj_on_of_nodup_map h (hmem hslot') (hmem hslot) rfl)

end Program

end RegisterBackend
