import Mathlib.Data.Set.Card
import Mathlib.Order.Bounds.Basic
import RegisterBackend.Proofs.GraphEdges
import RegisterBackend.Proofs.Unshared

/-!
# Counting the nodes that can be reached

The nodes that can be reached are counted by a walk with a stack. A round of the walk takes the node
on top of the stack. If the node has been seen before, nothing else happens; if not, it is seen now,
and all that it refers to goes onto the stack (`Graph.Round`). So the stack can grow and can hold a
node many times, in particular where nodes are shared or refer to each other in a circle.

Still no walk goes on forever, whatever the graph (`Graph.wellFounded_round`): a round leaves fewer
nodes unseen, or as many and a lower stack. On the way, the nodes seen and the nodes on the stack
can all be reached, the roots are among them, and so is what the nodes seen refer to
(`Graph.Walk.Covers`). When the stack is empty, the nodes seen are therefore the least set that has
the body and, with each node, what the node refers to. `Program.reachableCount_eq_ncard` says that
the walk comes to that point if no reference leads out of the graph, and that the number of the
nodes of this set is returned.
-/

namespace RegisterBackend

open Relation (ReflTransGen)

namespace Graph

variable {g : Graph} {roots seen seen' pending : List NodeId} {id : NodeId}

/-! ## Rounds -/

/-- A walk through a graph at the beginning of a round. -/
structure Walk where
  /-- The nodes that have been seen. -/
  seen : List NodeId
  /-- The stack of nodes still to visit, its top first. -/
  pending : List NodeId

/-- One round of a walk. -/
inductive Round (g : Graph) : Walk → Walk → Prop
  | skip {id seen rest} (hseen : id ∈ seen) : Round g ⟨seen, id :: rest⟩ ⟨seen, rest⟩
  | expand {id seen rest node} (hseen : id ∉ seen) (hnode : g.node? id = some node) :
    Round g ⟨seen, id :: rest⟩ ⟨id :: seen, node.children.reverse ++ rest⟩

/-- No walk goes on forever. -/
theorem wellFounded_round (g : Graph) : WellFounded fun w' w => g.Round w w' := by
  have hlex : WellFounded (Prod.Lex (· < ·) (· < ·) : Nat × Nat → Nat × Nat → Prop) :=
    WellFounded.prod_lex Nat.lt_wfRel.wf Nat.lt_wfRel.wf
  refine Subrelation.wf ?_
    (InvImage.wf (fun w : Walk => (g.unseen w.seen, w.pending.length)) hlex)
  intro w' w hround
  cases hround with
  | skip => exact .right _ (by simp)
  | expand hseen hnode => exact .left _ _ (unseen_cons_lt hnode hseen)

/-- A visit that succeeds is made of rounds, and ends with the stack empty. -/
theorem rounds_of_visit (h : g.visit seen pending = .ok seen') :
    ReflTransGen g.Round ⟨seen, pending⟩ ⟨seen', []⟩ := by
  fun_induction visit g seen pending with
  | case1 seen =>
    cases h
    exact .refl
  | case2 seen id rest hseen ih => exact .head (.skip hseen) (ih h)
  | case3 => cases h
  | case4 seen id rest hseen node hnode ih => exact .head (.expand hseen hnode) (ih h)

/-- A visit succeeds if no reference leads out of the graph. -/
theorem exists_visit (hchildren : ∀ entry ∈ g.entries, ∀ c ∈ entry.node.children, c.index < g.size)
    (hpending : ∀ id ∈ pending, id.index < g.size) (seen : List NodeId) :
    ∃ seen', g.visit seen pending = .ok seen' := by
  fun_induction visit g seen pending with
  | case1 seen => exact ⟨seen, rfl⟩
  | case2 seen id rest hseen ih => exact ih (List.forall_mem_cons.1 hpending).2
  | case3 seen id rest hseen hnode =>
    obtain ⟨entry, hentry⟩ := entry?_eq_some_of_lt (List.forall_mem_cons.1 hpending).1
    rw [node?, hentry] at hnode
    cases hnode
  | case4 seen id rest hseen node hnode ih =>
    obtain ⟨entry, hentry, rfl⟩ := Option.map_eq_some_iff.1 hnode
    refine ih (List.forall_mem_append.2 ⟨fun c hc => ?_, (List.forall_mem_cons.1 hpending).2⟩)
    exact hchildren entry (Array.mem_of_getElem? hentry) c (List.mem_reverse.1 hc)

/-! ## What a walk keeps -/

namespace Walk

variable {w w' : Walk}

/-- The node has been seen or is on the stack. -/
def Has (w : Walk) (id : NodeId) : Prop :=
  id ∈ w.seen ∨ id ∈ w.pending

/-- The walk has seen no node twice and has come to nothing that cannot be reached from the roots;
the roots, and what the nodes seen refer to, have been seen or will be visited. -/
structure Covers (g : Graph) (roots : List NodeId) (w : Walk) : Prop where
  nodup : w.seen.Nodup
  reached : ∀ id, w.Has id → ∃ root ∈ roots, g.Reaches root id
  root : ∀ id ∈ roots, w.Has id
  child : ∀ a ∈ w.seen, ∀ b, g.Child a b → w.Has b

namespace Covers

/-- In the beginning nothing has been seen, and the roots are on the stack. -/
theorem start (g : Graph) (roots : List NodeId) : Covers g roots ⟨[], roots.reverse⟩ where
  nodup := .nil
  reached id hid := ⟨id, by simpa [Has] using hid, .refl⟩
  root id hid := .inr (List.mem_reverse.2 hid)
  child := nofun

/-- A round keeps all of this. -/
theorem round (h : Covers g roots w) (hround : g.Round w w') : Covers g roots w' := by
  cases hround with
  | @skip id seen rest hseen =>
    -- what was on top of the stack has been seen
    have hstill : ∀ a, Has ⟨seen, id :: rest⟩ a → Has ⟨seen, rest⟩ a := by
      rintro a (ha | ha)
      · exact .inl ha
      · rcases List.mem_cons.1 ha with rfl | ha
        · exact .inl hseen
        · exact .inr ha
    exact ⟨h.nodup, fun a ha => h.reached a (ha.imp_right (List.mem_cons_of_mem _)),
      fun a ha => hstill a (h.root a ha), fun a ha b hb => hstill b (h.child a ha b hb)⟩
  | @expand id seen rest node hseen hnode =>
    have hstill : ∀ a, Has ⟨seen, id :: rest⟩ a →
        Has ⟨id :: seen, node.children.reverse ++ rest⟩ a := by
      rintro a (ha | ha)
      · exact .inl (List.mem_cons_of_mem _ ha)
      · rcases List.mem_cons.1 ha with rfl | ha
        · exact .inl List.mem_cons_self
        · exact .inr (List.mem_append_right _ ha)
    obtain ⟨root, hroot, hpath⟩ := h.reached id (.inr List.mem_cons_self)
    refine ⟨List.nodup_cons.2 ⟨hseen, h.nodup⟩, ?_, fun a ha => hstill a (h.root a ha), ?_⟩
    · rintro a (ha | ha)
      · rcases List.mem_cons.1 ha with rfl | ha
        · exact ⟨root, hroot, hpath⟩
        · exact h.reached a (.inl ha)
      · rcases List.mem_append.1 ha with ha | ha
        · exact ⟨root, hroot, hpath.tail ⟨node, hnode, List.mem_reverse.1 ha⟩⟩
        · exact h.reached a (.inr (List.mem_cons_of_mem _ ha))
    · intro a ha b hb
      rcases List.mem_cons.1 ha with rfl | ha
      · obtain ⟨node', hnode', hb⟩ := hb
        cases hnode.symm.trans hnode'
        exact .inr (List.mem_append_left _ (List.mem_reverse.2 hb))
      · exact hstill b (h.child a ha b hb)

/-- What holds of a walk in the beginning holds after any number of rounds. -/
theorem rounds (h : Covers g roots w) (hrounds : ReflTransGen g.Round w w') : Covers g roots w' := by
  induction hrounds with
  | refl => exact h
  | tail _ hround ih => exact ih.round hround

/-- When the stack is empty, what has been seen is what can be reached. -/
theorem mem_seen_iff (h : Covers g roots ⟨seen, []⟩) :
    id ∈ seen ↔ ∃ root ∈ roots, g.Reaches root id := by
  have hseen : ∀ a, Has ⟨seen, []⟩ a → a ∈ seen := fun a ha => ha.resolve_right List.not_mem_nil
  constructor
  · exact fun hid => h.reached id (.inl hid)
  · rintro ⟨root, hroot, hpath⟩
    induction hpath with
    | refl => exact hseen root (h.root root hroot)
    | tail _ hchild ih => exact hseen _ (h.child _ ih _ hchild)

end Covers

end Walk

end Graph

/-! ## Programs -/

namespace Program

variable {p : Program}

/-- The set has the body and, with each node, what the node refers to. -/
def ClosedSet (p : Program) (S : Set NodeId) : Prop :=
  (∀ id ∈ p.body, id ∈ S) ∧
    ∀ id ∈ S, ∀ node, p.graph.node? id = some node → ∀ c ∈ node.children, c ∈ S

/-- What can be reached is the least set that has the body and, with each node, what it refers
to. -/
theorem isLeast_reachable (p : Program) : IsLeast {S | p.ClosedSet S} {id | p.Reachable id} := by
  refine ⟨⟨fun id hid => ⟨id, hid, .refl⟩, fun id hid node hnode c hc => ?_⟩, ?_⟩
  · exact Reachable.child hid ⟨node, hnode, hc⟩
  · rintro S ⟨hbody, hclosed⟩ id ⟨root, hroot, hpath⟩
    induction hpath with
    | refl => exact hbody root hroot
    | tail _ hchild ih =>
      obtain ⟨node, hnode, hc⟩ := hchild
      exact hclosed _ ih node hnode _ hc

/-- If neither the body nor a reference of a node leads out of the graph, the walk from the body
comes to an empty stack, as every walk does, and the number of reachable nodes that is returned is
that of the least set which has the body and, with each node, what the node refers to. Nodes may be
shared, and they may refer to themselves and to each other in circles. -/
theorem reachableCount_eq_ncard (hbody : ∀ id ∈ p.body, id.index < p.graph.size)
    (hchildren : ∀ entry ∈ p.graph.entries, ∀ c ∈ entry.node.children, c.index < p.graph.size) :
    (WellFounded fun w' w => p.graph.Round w w') ∧
    ∃ seen, ReflTransGen p.graph.Round ⟨[], p.body.reverse⟩ ⟨seen, []⟩ ∧
      ∃ S, IsLeast {S | p.ClosedSet S} S ∧ S = {id | id ∈ seen} ∧ S.Finite ∧
        p.reachableCount = .ok S.ncard := by
  have hpending : ∀ id ∈ p.body.reverse, id.index < p.graph.size :=
    fun id hid => hbody id (List.mem_reverse.1 hid)
  obtain ⟨seen, hvisit⟩ := Graph.exists_visit hchildren hpending []
  have hrounds := Graph.rounds_of_visit hvisit
  have hcovers := (Graph.Walk.Covers.start p.graph p.body).rounds hrounds
  have hset : {id | p.Reachable id} = {id | id ∈ seen} := Set.ext fun id => hcovers.mem_seen_iff.symm
  have hcard : {id | id ∈ seen}.ncard = seen.length := by
    rw [← List.coe_toFinset, Set.ncard_coe_finset, List.toFinset_card_of_nodup hcovers.nodup]
  refine ⟨p.graph.wellFounded_round, seen, hrounds, _, p.isLeast_reachable, hset,
    hset ▸ List.finite_toSet seen, ?_⟩
  rw [hset, hcard, reachableCount, Graph.reach, hvisit]
  rfl

/-- A program whose sum refers to itself and to the assignment that it is the value of, with a
constant that is no longer used and a statement that stands in the body twice. -/
def selfReference : Program :=
  ⟨((Graph.ofNodes [.var (.scalar "x"), .constant (.scalar 1), .arithmetic .add ⟨0⟩ ⟨1⟩,
    .assign ⟨0⟩ ⟨2⟩, .debug "unused"]).replace ⟨2⟩ (.arithmetic .add ⟨2⟩ ⟨3⟩)).toOption.getD .empty,
  [⟨3⟩, ⟨2⟩, ⟨3⟩]⟩

/-- Three of the five nodes can be reached, in spite of the cycle and the repetition. -/
theorem reachableCount_eq_ncard_selfReference :
    (∀ id ∈ selfReference.body, id.index < selfReference.graph.size) ∧
    (∀ entry ∈ selfReference.graph.entries, ∀ c ∈ entry.node.children,
      c.index < selfReference.graph.size) ∧
    selfReference.graph.size = 5 ∧ selfReference.reachableCount = .ok 3 ∧
    ∃ S, IsLeast {S | selfReference.ClosedSet S} S ∧ S.Finite ∧ S.ncard = 3 := by
  have hbody : ∀ id ∈ selfReference.body, id.index < selfReference.graph.size := by decide +kernel
  have hchildren : ∀ entry ∈ selfReference.graph.entries, ∀ c ∈ entry.node.children,
      c.index < selfReference.graph.size := by decide +kernel
  have hcount : selfReference.reachableCount = .ok 3 := by cbv
  obtain ⟨-, seen, -, S, hleast, -, hfinite, hncard⟩ := reachableCount_eq_ncard hbody hchildren
  have hthree : S.ncard = 3 := Except.ok.inj (hncard.symm.trans hcount)
  exact ⟨hbody, hchildren, by decide +kernel, hcount, S, hleast, hfinite, hthree⟩

end Program

end RegisterBackend
