import RegisterBackend.Proofs.StoppedPropagation

/-!
# What holds across constant propagation

Constant propagation goes from one state to the next by few small steps: it adds a constant,
exchanges a node, counts, learns or forgets a value, notes a function, and opens and closes frames.
A relation between states that each of them respects (`Propagation.Stable`) holds between the states
before and after a statement, whether simplifying it succeeds or fails
(`PropagateM.tracks_statement`). Where no value is learned, as in an evaluable or a comparison, less
is asked of the relation (`Propagation.Steady`).
-/

namespace RegisterBackend

namespace Propagation

/-- A relation between states that respects the small steps of simplifying an evaluable. -/
structure Steady (R : Propagation → Propagation → Prop) : Prop where
  refl : ∀ s, R s s
  trans : ∀ {s t u}, R s t → R t u → R s u
  add : ∀ {s l id g}, s.graph.add (.constant l) = .ok (id, g) → R s { s with graph := g }
  replace : ∀ {s id node g}, s.graph.replace id node = .ok g → R s { s with graph := g }
  count : ∀ s stats, R s { s with stats := stats }
  forget : ∀ s names, R s { s with knowledge := s.knowledge.invalidateAll names }

/-- A relation between states that respects all small steps, and frames as a whole. -/
structure Stable (R : Propagation → Propagation → Prop) : Prop extends Steady R where
  record : ∀ s x l, R s { s with knowledge := s.knowledge.record x l }
  invalidate : ∀ s x, R s { s with knowledge := s.knowledge.invalidate x }
  note : ∀ s functions, R s { s with functions := functions }
  frame : ∀ {s t}, R { s with knowledge := s.knowledge.openFrame } t →
    R s { t with knowledge := t.knowledge.closeFrame }
  nothing : ∀ {s t}, R { s with knowledge := .empty } t → R s { t with knowledge := s.knowledge }

end Propagation

namespace PropagateM

open Propagation (Steady Stable)

variable {α β : Type} {R S : Propagation → Propagation → Prop} {m : PropagateM α}

/-- The steps lead from each state to related ones, whether they end or fail. -/
def Tracks (R : Propagation → Propagation → Prop) (m : PropagateM α) : Prop :=
  ∀ s, Meets (fun _ t => R s t) m s fun _ t => R s t

namespace Tracks

theorem pure (hR : Steady R) (a : α) : Tracks R (pure a : PropagateM α) :=
  fun s => .of_run_eq_ok rfl (hR.refl s)

theorem throw (hR : Steady R) (e : Stop CompileError) : Tracks R (throw e : PropagateM α) :=
  fun s => .throw (hR.refl s)

theorem get (hR : Steady R) : Tracks R (get : PropagateM Propagation) :=
  fun s => .of_run_eq_ok rfl (hR.refl s)

theorem modify {f : Propagation → Propagation} (hf : ∀ s, R s (f s)) :
    Tracks R (modify f : PropagateM Unit) :=
  fun s => .modify (hf s)

/-- Steps one after the other lead to related states, also if the second ones fail. -/
theorem bind (hR : Steady R) {f : α → PropagateM β} (hm : Tracks R m) (hf : ∀ a, Tracks R (f a)) :
    Tracks R (m >>= f) := by
  refine fun s => (hm s).bind fun a t ht => ?_
  have hfa := (hf a t).mono fun _ _ hu => hR.trans ht hu
  exact hfa.mono_error fun _ _ hu => hR.trans ht hu

/-- Steps on every element of a list lead to related states if those on each do. -/
theorem forM (hR : Steady R) {f : β → PropagateM Unit} (hf : ∀ b, Tracks R (f b)) :
    ∀ l : List β, Tracks R (l.forM f)
  | [] => pure hR _
  | b :: l => (hf b).bind hR fun _ => forM hR hf l

/-- Steps on every element of a list, with results, lead to related states if those on each do. -/
theorem mapM (hR : Steady R) {f : β → PropagateM α} (hf : ∀ b, Tracks R (f b)) :
    ∀ l : List β, Tracks R (l.mapM f)
  | [] => by
    rw [List.mapM_nil]
    exact pure hR _
  | b :: l => by
    rw [List.mapM_cons]
    exact (hf b).bind hR fun _ => (mapM hR hf l).bind hR fun _ => pure hR _

/-- A frame is closed whether the steps in it end or fail, so one condition on the relations covers
both. -/
theorem inFrame (hframe : ∀ {s t}, R { s with knowledge := s.knowledge.openFrame } t →
    S s { t with knowledge := t.knowledge.closeFrame }) (hm : Tracks R m) :
    Tracks S (inFrame m) := by
  intro s
  constructor
  · intro a t hrun
    obtain ⟨u, hu, rfl⟩ := run_inFrame_ok hrun
    exact hframe ((hm _).ok hu)
  · intro e t hrun
    obtain ⟨u, hu, rfl⟩ := run_inFrame_error hrun
    exact hframe ((hm _).error hu)

/-- Steps that begin with nothing known are tracked, and what was known is put back behind them. -/
theorem fromNothing (hR : Stable R) (hm : Tracks R m) : Tracks R (fromNothing m) := by
  intro s
  constructor
  · intro a t hrun
    obtain ⟨u, hu, rfl⟩ := run_fromNothing_ok hrun
    exact hR.nothing ((hm _).ok hu)
  · intro e t hrun
    obtain ⟨u, hu, rfl⟩ := run_fromNothing_error hrun
    exact hR.nothing ((hm _).error hu)

end Tracks

/-! ## Small steps -/

/-- Looking a node up changes nothing. -/
theorem tracks_nodeAt (hR : Steady R) (id : NodeId) : Tracks R (nodeAt id) := by
  intro s
  constructor
  · intro node t hrun
    obtain ⟨-, rfl⟩ := run_nodeAt_ok hrun
    exact hR.refl s
  · intro e t hrun
    obtain ⟨rfl, -⟩ := run_nodeAt_error hrun
    exact hR.refl s

/-- Adding a constant is one of the small steps. -/
theorem tracks_addConstant (hR : Steady R) (l : Literal) : Tracks R (addConstant l) := by
  intro s
  constructor
  · intro id t hrun
    obtain ⟨g, hadd, rfl⟩ := run_addConstant_ok hrun
    exact hR.add hadd
  · intro e t hrun
    obtain ⟨rfl, -⟩ := run_addConstant_error hrun
    exact hR.refl s

/-- Exchanging a node is one of the small steps, unless the node is the same. -/
theorem tracks_update (hR : Steady R) (id : NodeId) (old new : Node) :
    Tracks R (update id old new) := by
  intro s
  constructor
  · intro _ t hrun
    obtain ⟨-, rfl⟩ | ⟨g, hreplace, rfl⟩ := run_update_ok hrun
    · exact hR.refl s
    · exact hR.replace hreplace
  · intro e t hrun
    obtain ⟨rfl, -⟩ := run_update_error hrun
    exact hR.refl s

/-- Collecting the names that a block assigns changes nothing. -/
theorem tracks_assignedIn (hR : Steady R) (depth : Nat) (block : List NodeId) :
    Tracks R (assignedIn depth block) := by
  intro s
  constructor
  · intro names t hrun
    obtain ⟨-, rfl⟩ := run_assignedIn_ok hrun
    exact hR.refl s
  · intro e t hrun
    obtain ⟨rfl, -⟩ := run_assignedIn_error hrun
    exact hR.refl s

theorem tracks_forget (hR : Steady R) (names : NameSet) : Tracks R (forget names) :=
  .modify fun s => hR.forget s _

/-- An operation on constants adds one and counts it, and one on others changes nothing. -/
theorem tracks_collapse (hR : Steady R) (id : NodeId) (op : ArithOp) (lhs rhs : NodeId) :
    Tracks R (collapse id op lhs rhs) := by
  refine (tracks_nodeAt hR lhs).bind hR fun left => (tracks_nodeAt hR rhs).bind hR fun right => ?_
  split
  next => exact .bind hR (.modify fun s => hR.count s _) fun _ => tracks_addConstant hR _
  next => exact .throw hR _
  next => exact .throw hR _
  next => exact .pure hR _

/-- Looking the name of a target up changes nothing. -/
theorem tracks_targetName (hR : Steady R) (id : NodeId) : Tracks R (targetName id) := by
  refine (tracks_nodeAt hR id).bind hR fun node => ?_
  cases node with
  | var v => exact .pure hR _
  | _ => exact .throw hR _

/-- An assignment records a constant or forgets the name. -/
theorem tracks_learn (hR : Stable R) (name : String) (value : NodeId) :
    Tracks R (learn name value) := by
  refine (tracks_nodeAt hR.toSteady value).bind hR.toSteady fun node => ?_
  split
  next => exact .modify fun s => hR.record s _ _
  next => exact .modify fun s => hR.invalidate s _

/-! ## Nodes -/

/-- Simplifying an evaluable respects every relation that its small steps respect. -/
theorem tracks_expr (hR : Steady R) (depth : Nat) (id : NodeId) : Tracks R (expr depth id) := by
  induction depth generalizing id with
  | zero => exact .throw hR _
  | succ depth ih =>
    refine (tracks_nodeAt hR id).bind hR fun node => ?_
    cases node with
    | constant => exact .pure hR _
    | var v =>
      refine (Tracks.get hR).bind hR fun s => ?_
      split
      next => exact .bind hR (.modify fun s => hR.count s _) fun _ => tracks_addConstant hR _
      next => exact .pure hR _
    | arithmetic op lhs rhs =>
      refine (ih lhs).bind hR fun left => (ih rhs).bind hR fun right => ?_
      exact (tracks_update hR id _ _).bind hR fun _ => tracks_collapse hR id op left right
    | call name args returns =>
      refine (Tracks.mapM hR ih args).bind hR fun args' => ?_
      refine (tracks_update hR id _ _).bind hR fun _ => (Tracks.get hR).bind hR fun s => ?_
      split
      next => exact (tracks_forget hR _).bind hR fun _ => .pure hR _
      next => exact .pure hR _
    | _ => exact .throw hR _

/-- Simplifying a condition respects every relation that its small steps respect. -/
theorem tracks_condition (hR : Steady R) (depth : Nat) (id : NodeId) :
    Tracks R (condition depth id) := by
  refine (tracks_nodeAt hR id).bind hR fun node => ?_
  cases node with
  | comparison op lhs rhs =>
    refine (tracks_expr hR depth lhs).bind hR fun left => ?_
    exact (tracks_expr hR depth rhs).bind hR fun right => tracks_update hR id _ _
  | _ => exact .throw hR _

/-- A branch respects a relation if its two blocks do, each in a frame of its own. -/
theorem tracks_ifElse (hR : Steady R) {depth : Nat} {block : List NodeId → PropagateM Unit}
    (hblock : ∀ ids, Tracks R (inFrame (block ids))) (cond : NodeId)
    (thenBlock elseBlock : List NodeId) : Tracks R (do
      condition depth cond
      inFrame (block thenBlock)
      inFrame (block elseBlock)
      forget (← assignedIn depth (thenBlock ++ elseBlock))) := by
  refine (tracks_condition hR depth cond).bind hR fun _ => (hblock thenBlock).bind hR fun _ => ?_
  refine (hblock elseBlock).bind hR fun _ => ?_
  exact (tracks_assignedIn hR depth _).bind hR fun _ => tracks_forget hR _

/-- A loop respects a relation if its body does, in a frame of its own. -/
theorem tracks_whileLoop (hR : Steady R) {depth : Nat} {block : List NodeId → PropagateM Unit}
    (hblock : ∀ ids, Tracks R (inFrame (block ids))) (cond : NodeId) (body : List NodeId) :
    Tracks R (do
      let assigned ← assignedIn depth body
      forget assigned
      condition depth cond
      inFrame (block body)
      forget assigned) := by
  refine (tracks_assignedIn hR depth body).bind hR fun names => (tracks_forget hR _).bind hR fun _ => ?_
  refine (tracks_condition hR depth cond).bind hR fun _ => (hblock body).bind hR fun _ => ?_
  exact tracks_forget hR _

/-- What respects the small steps holds across a statement. -/
theorem tracks_statement (hR : Stable R) (depth : Nat) (id : NodeId) :
    Tracks R (statement depth id) := by
  have hS := hR.toSteady
  induction depth generalizing id with
  | zero => exact .throw hS _
  | succ depth ih =>
    have hblock (ids : List NodeId) : Tracks R (ids.forM (statement depth)) := .forM hS ih ids
    have hframe (ids : List NodeId) : Tracks R (inFrame (ids.forM (statement depth))) :=
      .inFrame hR.frame (hblock ids)
    refine (tracks_nodeAt hS id).bind hS fun node => ?_
    cases node with
    | assign target value =>
      refine (tracks_targetName hS target).bind hS fun name => ?_
      refine (tracks_expr hS depth value).bind hS fun v => ?_
      exact (tracks_update hS id _ _).bind hS fun _ => tracks_learn hR name v
    | updateElement target index value =>
      refine (tracks_targetName hS target).bind hS fun name => ?_
      refine (tracks_expr hS depth value).bind hS fun v => ?_
      exact (tracks_update hS id _ _).bind hS fun _ => .modify fun s => hR.invalidate s _
    | ifElse cond thenBlock elseBlock => exact tracks_ifElse hS hframe cond thenBlock elseBlock
    | whileLoop cond body => exact tracks_whileLoop hS hframe cond body
    | functionDef name params body returns =>
      refine (tracks_assignedIn hS depth body).bind hS fun names => ?_
      exact .bind hS (.modify fun s => hR.note s _) fun _ => .fromNothing hR (hblock body)
    | debug => exact .pure hS _
    | _ => exact .throw hS _

end PropagateM

/-- What respects the small steps holds between the states before and after a program. -/
theorem Program.tracks_propagate {R : Propagation → Propagation → Prop} (hR : Propagation.Stable R)
    {p : Program} {s : Propagation} (h : p.propagate = .ok () s ∨ ∃ e, p.propagate = .error e s) :
    R (.start p.graph) s := by
  have htracks := PropagateM.Tracks.forM hR.toSteady
    (PropagateM.tracks_statement hR p.graph.depth) p.body (.start p.graph)
  rcases h with hok | ⟨e, herror⟩
  · exact htracks.ok hok
  · exact htracks.error herror

end RegisterBackend
