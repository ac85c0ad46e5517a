import RegisterBackend.Proofs.FunctionRecords
import RegisterBackend.Proofs.PropagationInvariants

/-!
# What is known behind nested blocks

A statement leaves the frames that are open as they are and works in the innermost one
(`Knowledge.Stays`), at any depth, and also if it fails: each frame that it opens is closed, and the
table that is set aside for the body of a function is put back. So what a branch or a loop records
does not outlive it, and of each name as much is known as before or nothing (`Knowledge.Loses`).
Behind a branch or a loop that succeeds, nothing is known of the names that are assigned in it, and
a definition of a function leaves everything as it was (`Program.knowledge_behind`).
-/

namespace RegisterBackend

namespace Knowledge

variable {k k' : Knowledge}

/-- The frames outside are as before, and what was done in between stays in the innermost one. -/
structure Stays (k k' : Knowledge) : Prop where
  outer : k'.outer = k.outer
  leads : k.Leads k'

/-- Each name is known as before, or not any more. -/
def Loses (k k' : Knowledge) : Prop :=
  ∀ x, k'.lookup x = none ∨ k'.lookup x = k.lookup x

/-- Forgetting names leaves the frames as they are. -/
theorem outer_invalidateAll (k : Knowledge) (names : List String) :
    (k.invalidateAll names).outer = k.outer := by
  unfold invalidateAll
  induction names generalizing k with
  | nil => rfl
  | cons x names ih => exact ih _

theorem Stays.depth_eq (h : k.Stays k') : k'.depth = k.depth := by
  rw [depth, h.outer, depth]

theorem Drops.stays (h : k'.Drops k) : k.Stays k' :=
  ⟨h.outer, h.leads⟩

/-- A table that drops names knows nothing new. -/
theorem Drops.loses (h : k'.Drops k) : k.Loses k' := by
  intro x
  rcases h.values x with hx | hx
  · exact .inl (by rw [lookup, hx, Option.map_none])
  · exact .inr (by rw [lookup, hx, lookup])

/-- Forgetting names makes nothing known. -/
theorem loses_invalidateAll (k : Knowledge) (names : List String) :
    k.Loses (k.invalidateAll names) := by
  intro x
  rw [lookup_invalidateAll]
  split
  next => exact .inl rfl
  next => exact .inr rfl

/-- What is known after two losses was known before both. -/
theorem Loses.trans {k₁ k₂ : Knowledge} (h₁ : k.Loses k₁) (h₂ : k₁.Loses k₂) : k.Loses k₂ := by
  intro x
  rcases h₂ x with hx | hx
  · exact .inl hx
  · rw [hx]
    exact h₁ x

end Knowledge

namespace Propagation

/-- Every step stays in the frame in which it is made. -/
theorem stable_stays : Stable fun s t => s.knowledge.Stays t.knowledge where
  refl _ := ⟨rfl, .refl _⟩
  trans h₁ h₂ := ⟨h₂.outer.trans h₁.outer, h₁.leads.trans h₂.leads⟩
  add _ := ⟨rfl, .refl _⟩
  replace _ := ⟨rfl, .refl _⟩
  count _ _ := ⟨rfl, .refl _⟩
  forget s names := ⟨s.knowledge.outer_invalidateAll names, .invalidateAll _ _⟩
  record s x l := ⟨s.knowledge.outer_record x l, .record _ _ _⟩
  invalidate _ _ := ⟨rfl, .invalidate _ _⟩
  note _ _ := ⟨rfl, .refl _⟩
  frame h := h.leads.drops_closeFrame.stays
  nothing _ := ⟨rfl, .refl _⟩

/-- Simplifying an evaluable makes no value known. -/
theorem steady_loses : Steady fun s t => s.knowledge.Loses t.knowledge where
  refl _ _ := .inr rfl
  trans h₁ h₂ := h₁.trans h₂
  add _ _ := .inr rfl
  replace _ _ := .inr rfl
  count _ _ _ := .inr rfl
  forget s names := s.knowledge.loses_invalidateAll names

end Propagation

namespace PropagateM

open Propagation (stable_stays steady_loses)
open RegisterBackend.Graph (Rewrites)

variable {s t : Propagation} {depth : Nat} {id : NodeId} {x : String}

/-- Steps on a node that is there are steps on that node. -/
theorem meets_nodeAt_bind {α : Type} {E : Stop CompileError → Propagation → Prop}
    {Q : α → Propagation → Prop} {node : Node} {f : Node → PropagateM α}
    (hnode : s.graph.node? id = some node) (h : Meets E (f node) s Q) :
    Meets E (nodeAt id >>= f) s Q :=
  .bind (.of_run_eq_ok (Q := fun n u => n = node ∧ u = s) (run_nodeAt hnode) ⟨rfl, rfl⟩)
    fun _ _ ⟨hn, hu⟩ => hn ▸ hu ▸ h

/-- What a block records in a frame of its own is taken back. -/
theorem tracks_frame_loses (depth : Nat) (ids : List NodeId) :
    Tracks (fun s t => s.knowledge.Loses t.knowledge) (inFrame (ids.forM (statement depth))) :=
  .inFrame (fun h => h.leads.drops_closeFrame.loses)
    (.forM stable_stays.toSteady (tracks_statement stable_stays depth) ids)

/-- A branch or a loop makes no value known. -/
theorem statement_loses (depth : Nat) {node : Node} (hnode : s.graph.node? id = some node)
    (hshape : node.shape = .ifElse ∨ node.shape = .whileLoop) :
    Meets (fun _ t => s.knowledge.Loses t.knowledge) (statement depth id) s
      fun _ t => s.knowledge.Loses t.knowledge := by
  cases depth with
  | zero => exact .throw (steady_loses.refl s)
  | succ depth =>
    refine meets_nodeAt_bind hnode ?_
    have hblock := tracks_frame_loses depth
    cases node with
    | ifElse cond thenBlock elseBlock =>
      exact tracks_ifElse steady_loses hblock cond thenBlock elseBlock s
    | whileLoop cond body => exact tracks_whileLoop steady_loses hblock cond body s
    | _ => rcases hshape with h | h <;> cases h

/-- A definition of a function leaves what is known. -/
theorem statement_functionDef (depth : Nat) {name : String} {params body : List NodeId} {returns : Kind}
    (hnode : s.graph.node? id = some (.functionDef name params body returns)) :
    Meets (fun _ t => t.knowledge = s.knowledge) (statement depth id) s
      fun _ t => t.knowledge = s.knowledge := by
  cases depth with
  | zero => exact .throw rfl
  | succ depth =>
    constructor
    · intro _ t hrun
      cases run_statement_ok hrun with
      | functionDef => rfl
      | assign h | updateElement h | ifElse h | whileLoop h | debug h => cases hnode.symm.trans h
    · intro e t hrun
      cases run_statement_error hrun with
      | here | functionBody => rfl
      | assignValue h | assigned h | learn h | elementValue h | element h | ifCondition h
      | thenBlock h | elseBlock h | branches h | loopCondition h | round h =>
        cases hnode.symm.trans h

/-- Behind a branch or a loop, nothing is known of the names that were collected. -/
theorem lookup_eq_none_of_stores {node : Node} (h : (statement depth id).run s = .ok () t)
    (hnode : s.graph.node? id = some node)
    (hshape : node.shape = .ifElse ∨ node.shape = .whileLoop) {n : NodeId}
    (hn : s.graph.RunsIn node.nested n) (hx : s.graph.Stores n x) : t.knowledge.lookup x = none := by
  cases depth with
  | zero => cases h
  | succ depth =>
    cases run_statement_ok h with
    | @ifElse cond thenBlock elseBlock s₁ s₂ s₃ names hif hcond hthen helse hassigned =>
      cases hnode.symm.trans hif
      -- the names are collected when the blocks have been simplified, which leaves the assignments
      have hall : ∀ {ids : List NodeId} {s t : Propagation},
          (ids.forM (statement depth)).run s = .ok () t →
            Rewrites (fun _ => True) s.graph t.graph := fun h =>
        forM_rewrites (fun _ _ _ => statement_rewrites) h fun _ _ _ _ _ _ _ => trivial
      have hr₁ := condition_rewrites (S := fun _ => True) hcond fun _ _ _ _ _ => trivial
      have hr₂ := hall hthen
      have hr₃ := hall helse
      have hmem : x ∈ names := (Graph.mem_assignedIn_iff hassigned).2
        (((hr₁.trans hr₂).trans hr₃).runsIn_adds.2 ⟨n, hn, .inl hx⟩)
      rw [Knowledge.lookup_invalidateAll, if_pos (Std.TreeSet.mem_toList.2 hmem)]
    | @whileLoop cond body s₁ s₂ names hwhile hassigned =>
      cases hnode.symm.trans hwhile
      have hmem : x ∈ names := (Graph.mem_assignedIn_iff hassigned).2 ⟨n, hn, .inl hx⟩
      rw [Knowledge.lookup_invalidateAll, if_pos (Std.TreeSet.mem_toList.2 hmem)]
    | assign hother | updateElement hother | functionDef hother | debug hother =>
      cases hnode.symm.trans hother
      rcases hshape with h | h <;> cases h

end PropagateM

namespace Program

open PropagateM

/-- What a statement leaves behind, at any depth, whether simplifying it succeeds or fails. As many
frames are open as before. Behind a branch or a loop each name is known as before or not at all, and
not at all if it is assigned in one of the blocks and all succeeded. Behind a definition of a
function everything is known as before. In particular no frame is left open when a program ends or
stops. -/
theorem knowledge_behind :
    (∀ (depth : Nat) (id : NodeId) (node : Node) (s t : Propagation),
      s.graph.node? id = some node →
      ((statement depth id).run s = .ok () t ∨ ∃ e, (statement depth id).run s = .error e t) →
      t.knowledge.depth = s.knowledge.depth ∧
      (node.shape = .ifElse ∨ node.shape = .whileLoop → ∀ x,
        (t.knowledge.lookup x = none ∨ t.knowledge.lookup x = s.knowledge.lookup x) ∧
        ((statement depth id).run s = .ok () t →
          (∃ n, s.graph.RunsIn node.nested n ∧ s.graph.Stores n x) → t.knowledge.lookup x = none)) ∧
      (node.shape = .functionDef → ∀ x, t.knowledge.lookup x = s.knowledge.lookup x)) ∧
    ∀ (p : Program) (s : Propagation), (p.propagate = .ok () s ∨ ∃ e, p.propagate = .error e s) →
      s.knowledge.depth = 1 := by
  constructor
  · intro depth id node s t hnode hend
    refine ⟨?_, fun hshape x => ⟨?_, fun hrun ⟨n, hn, hx⟩ => ?_⟩, fun hshape x => ?_⟩
    · have hmeets := tracks_statement Propagation.stable_stays depth id s
      rcases hend with hok | ⟨e, herror⟩
      · exact (hmeets.ok hok).depth_eq
      · exact (hmeets.error herror).depth_eq
    · have hmeets := statement_loses depth hnode hshape
      rcases hend with hok | ⟨e, herror⟩
      · exact hmeets.ok hok x
      · exact hmeets.error herror x
    · exact lookup_eq_none_of_stores hrun hnode hshape hn hx
    · cases node with
      | functionDef name params body returns =>
        have hmeets := statement_functionDef depth hnode
        rcases hend with hok | ⟨e, herror⟩
        · rw [hmeets.ok hok]
        · rw [hmeets.error herror]
      | _ => cases hshape
  · intro p s hend
    exact (tracks_propagate Propagation.stable_stays hend).depth_eq

/-- A loop that stops in the body of a function, behind a branch with a loop in it:
`x = 1; w = 2; if a > b then (x = 5; while c > d do (w = u)); while e > f do (v = 7; def g() (v = 8;
z = [1] + [2]))`. -/
def stoppedInLoop : Program :=
  ⟨.ofNodes [.constant (.scalar 1), .var (.scalar "x"), .assign ⟨1⟩ ⟨0⟩,
    .constant (.scalar 2), .var (.scalar "w"), .assign ⟨4⟩ ⟨3⟩,
    .var (.scalar "a"), .var (.scalar "b"), .comparison .greater ⟨6⟩ ⟨7⟩,
    .constant (.scalar 5), .var (.scalar "x"), .assign ⟨10⟩ ⟨9⟩,
    .var (.scalar "c"), .var (.scalar "d"), .comparison .greater ⟨12⟩ ⟨13⟩,
    .var (.scalar "u"), .var (.scalar "w"), .assign ⟨16⟩ ⟨15⟩, .whileLoop ⟨14⟩ [⟨17⟩],
    .ifElse ⟨8⟩ [⟨11⟩, ⟨18⟩] [],
    .constant (.array [1]), .constant (.array [2]), .arithmetic .add ⟨20⟩ ⟨21⟩,
    .var (.array "z" 1), .assign ⟨23⟩ ⟨22⟩,
    .var (.scalar "e"), .var (.scalar "f"), .comparison .greater ⟨25⟩ ⟨26⟩,
    .constant (.scalar 7), .var (.scalar "v"), .assign ⟨29⟩ ⟨28⟩,
    .constant (.scalar 8), .var (.scalar "v"), .assign ⟨32⟩ ⟨31⟩,
    .functionDef "g" [] [⟨33⟩, ⟨24⟩] .scalar, .whileLoop ⟨27⟩ [⟨30⟩, ⟨34⟩]],
  [⟨2⟩, ⟨5⟩, ⟨19⟩, ⟨35⟩]⟩

/-- The loop in the branch makes `w` unknown, and nothing is left of `v` when the second loop
stops. -/
theorem knowledge_behind_stoppedInLoop :
    (∃ u s, (([⟨2⟩, ⟨5⟩] : List NodeId).forM (statement 9)).run (.start stoppedInLoop.graph) = .ok u s ∧
      s.graph.node? ⟨19⟩ = some (.ifElse ⟨8⟩ [⟨11⟩, ⟨18⟩] []) ∧
      s.knowledge.lookup "w" = some (.scalar 2) ∧
      ∃ v t, (statement 9 ⟨19⟩).run s = .ok v t ∧ t.knowledge.depth = s.knowledge.depth ∧
        t.knowledge.lookup "w" = none ∧ t.knowledge.lookup "v" = none ∧
        t.graph.node? ⟨35⟩ = some (.whileLoop ⟨27⟩ [⟨30⟩, ⟨34⟩]) ∧
        ∃ e r, (statement 9 ⟨35⟩).run t = .error e r ∧
          e = .error (.unsupported ⟨22⟩ (.arrayArithmetic .add)) ∧
          r.knowledge.depth = t.knowledge.depth ∧ r.knowledge.lookup "v" = none) ∧
    ∃ e s, stoppedInLoop.propagate = .error e s ∧
      e = .error (.unsupported ⟨22⟩ (.arrayArithmetic .add)) ∧ s.knowledge.depth = 1 := by
  have hruns : ∃ u s,
      (([⟨2⟩, ⟨5⟩] : List NodeId).forM (statement 9)).run (.start stoppedInLoop.graph) = .ok u s ∧
      (s.graph.node? ⟨19⟩ = some (.ifElse ⟨8⟩ [⟨11⟩, ⟨18⟩] []) ∧
        s.graph.node? ⟨18⟩ = some (.whileLoop ⟨14⟩ [⟨17⟩]) ∧
        s.graph.node? ⟨17⟩ = some (.assign ⟨16⟩ ⟨15⟩) ∧
        s.graph.node? ⟨16⟩ = some (.var (.scalar "w"))) ∧
      s.knowledge.lookup "w" = some (.scalar 2) ∧ s.knowledge.lookup "v" = none ∧
      ∃ v t, (statement 9 ⟨19⟩).run s = .ok v t ∧
        t.graph.node? ⟨35⟩ = some (.whileLoop ⟨27⟩ [⟨30⟩, ⟨34⟩]) ∧
        ∃ e r, (statement 9 ⟨35⟩).run t = .error e r ∧
          e = .error (.unsupported ⟨22⟩ (.arrayArithmetic .add)) := by decide +kernel
  obtain ⟨u, s, hs, ⟨h19, h18, h17, h16⟩, hw, hv, v, t, ht, h35, e, r, hr, he⟩ := hruns
  obtain ⟨hdepth, hbranch, -⟩ := knowledge_behind.1 9 ⟨19⟩ _ s t h19 (.inl ht)
  obtain ⟨hdepth', hloop, -⟩ := knowledge_behind.1 9 ⟨35⟩ _ t r h35 (.inr ⟨e, hr⟩)
  have hassigned : ∃ n, s.graph.RunsIn [⟨11⟩, ⟨18⟩] n ∧ s.graph.Stores n "w" := by
    refine ⟨⟨17⟩, ⟨⟨18⟩, by decide, .single ⟨_, h18, by decide⟩⟩, ?_⟩
    exact ⟨_, ⟨16⟩, .scalar "w", h17, rfl, h16, rfl⟩
  have hw' := (hbranch (.inl rfl) "w").2 ht hassigned
  have hv' : t.knowledge.lookup "v" = none := (hbranch (.inl rfl) "v").1.elim id (·.trans hv)
  have hv'' : r.knowledge.lookup "v" = none := (hloop (.inr rfl) "v").1.elim id (·.trans hv')
  have hstop : ∃ e s, stoppedInLoop.propagate = .error e s ∧
      e = .error (.unsupported ⟨22⟩ (.arrayArithmetic .add)) := by decide +kernel
  obtain ⟨e', s', hs', he'⟩ := hstop
  exact ⟨⟨u, s, hs, h19, hw, v, t, ht, hdepth, hw', hv', h35, e, r, hr, he, hdepth', hv''⟩,
    e', s', hs', he', knowledge_behind.2 _ _ (.inr ⟨e', hs'⟩)⟩

end Program

end RegisterBackend
