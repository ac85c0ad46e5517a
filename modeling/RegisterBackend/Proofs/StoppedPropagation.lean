import RegisterBackend.Proofs.PropagationSteps

/-!
# Where constant propagation stops

Constant propagation stops at the first failure and keeps the changes made so far. `ExprStop` and
`StatementStop` say, by the form of the node, how far the steps had come. The small steps at which
the failure comes up change nothing themselves, so what may have changed is still what is below the
node (`PropagateM.statement_stop_rewrites`).

The failure of a small step is one of a program that is not in order (`Disorder`), except at an
operation on two array constants.
-/

namespace RegisterBackend

/-- The failures of a program that is not in order: a reference or a path that leads nowhere, a node
in a role that it cannot have, or operands of two kinds. -/
inductive Disorder : Stop CompileError → Prop
  | fault (why : Fault) : Disorder (.fault why)
  | malformed (node : NodeId) (found : Shape) (expected : Role) :
    Disorder (.error (.malformed node found expected))
  | kindMismatch (node : NodeId) (lhs rhs : Kind) : Disorder (.error (.kindMismatch node lhs rhs))

namespace PropagateM

open RegisterBackend.Graph (Rewrites Covers)

variable {α : Type} {s t : Propagation} {e : Stop CompileError}

/-! ## Small steps -/

/-- Only a node that is not there cannot be looked up. -/
theorem run_nodeAt_error {id : NodeId} (h : (nodeAt id).run s = .error e t) :
    s = t ∧ Disorder e := by
  unfold nodeAt at h
  rcases run_bind_eq_error.1 h with hget | ⟨_, _, hget, h⟩
  · cases hget
  · cases hget
    cases hnode : s.graph.node? id with
    | none =>
      rw [hnode] at h
      cases h
      exact ⟨rfl, .fault _⟩
    | some n => rw [hnode] at h; cases h

/-- A constant that cannot be added leaves the state as it was. -/
theorem run_addConstant_error {l : Literal} (h : (addConstant l).run s = .error e t) :
    s = t ∧ Disorder e := by
  unfold addConstant at h
  rcases run_bind_eq_error.1 h with hget | ⟨_, _, hget, h⟩
  · cases hget
  · cases hget
    cases hadd : s.graph.add (.constant l) with
    | error e =>
      rw [hadd] at h
      cases h
      exact ⟨rfl, .fault _⟩
    | ok r => rw [hadd] at h; cases h

/-- An update fails only for references that lead nowhere, and leaves the state as it was. -/
theorem run_update_error {id : NodeId} {old new : Node}
    (h : (update id old new).run s = .error e t) : s = t ∧ Disorder e := by
  unfold update at h
  split at h
  next => cases h
  next =>
    rcases run_bind_eq_error.1 h with hget | ⟨_, _, hget, h⟩
    · cases hget
    · cases hget
      cases hrep : s.graph.replace id new with
      | error e =>
        rw [hrep] at h
        cases h
        exact ⟨rfl, .fault _⟩
      | ok g => rw [hrep] at h; cases h

/-- The names that a block assigns cannot be collected only if a path leads nowhere or does not
end. -/
theorem run_assignedIn_error {depth : Nat} {block : List NodeId}
    (h : (assignedIn depth block).run s = .error e t) : s = t ∧ Disorder e := by
  unfold assignedIn at h
  rcases run_bind_eq_error.1 h with hget | ⟨_, _, hget, h⟩
  · cases hget
  · cases hget
    cases hassigned : s.graph.assignedIn s.functions depth block with
    | error e =>
      rw [hassigned] at h
      cases h
      exact ⟨rfl, .fault _⟩
    | ok names => rw [hassigned] at h; cases h

/-- A failure in a frame is that of the steps in it, and the frame is closed all the same. -/
theorem run_inFrame_error {m : PropagateM α} (h : (inFrame m).run s = .error e t) :
    ∃ u, m.run { s with knowledge := s.knowledge.openFrame } = .error e u ∧
      t = { u with knowledge := u.knowledge.closeFrame } := by
  unfold inFrame at h
  rcases run_bind_eq_error.1 h with hopen | ⟨_, _, hopen, h⟩
  · cases hopen
  · cases hopen
    exact (run_tryFinally_eq_error (b := ()) fun _ => rfl).1 h

/-- A failure of steps from nothing is that of the steps, and what was known is put back all the
same. -/
theorem run_fromNothing_error {m : PropagateM α} (h : (fromNothing m).run s = .error e t) :
    ∃ u, m.run { s with knowledge := .empty } = .error e u ∧
      t = { u with knowledge := s.knowledge } := by
  unfold fromNothing at h
  rcases run_bind_eq_error.1 h with hget | ⟨_, _, hget, h⟩
  · cases hget
  · cases hget
    rcases run_bind_eq_error.1 h with hopen | ⟨_, _, hopen, h⟩
    · cases hopen
    · cases hopen
      exact (run_tryFinally_eq_error (b := ()) fun _ => rfl).1 h

/-- An operation fails if its operands are two arrays, or not in order. -/
theorem run_collapse_error {id lhs rhs : NodeId} {op : ArithOp}
    (h : (collapse id op lhs rhs).run s = .error e t) : (∃ stats, t = { s with stats := stats }) ∧
      (Disorder e ∨ ∃ left right, s.graph.node? lhs = some (.constant (.array left)) ∧
        s.graph.node? rhs = some (.constant (.array right)) ∧
        e = .error (.unsupported id (.arrayArithmetic op))) := by
  unfold collapse at h
  rcases run_bind_eq_error.1 h with hrun | ⟨left, _, hrun, h⟩
  · obtain ⟨rfl, he⟩ := run_nodeAt_error hrun
    exact ⟨⟨s.stats, rfl⟩, .inl he⟩
  obtain ⟨hleft, rfl⟩ := run_nodeAt_ok hrun
  rcases run_bind_eq_error.1 h with hrun | ⟨right, _, hrun, h⟩
  · obtain ⟨rfl, he⟩ := run_nodeAt_error hrun
    exact ⟨⟨s.stats, rfl⟩, .inl he⟩
  obtain ⟨hright, rfl⟩ := run_nodeAt_ok hrun
  split at h
  next =>
    rcases run_bind_eq_error.1 h with hstats | ⟨_, _, hstats, h⟩
    · cases hstats
    · cases hstats
      obtain ⟨rfl, he⟩ := run_addConstant_error h
      exact ⟨⟨_, rfl⟩, .inl he⟩
  next =>
    cases h
    exact ⟨⟨s.stats, rfl⟩, .inr ⟨_, _, hleft, hright, rfl⟩⟩
  next =>
    cases h
    exact ⟨⟨s.stats, rfl⟩, .inl (.kindMismatch _ _ _)⟩
  next => cases h

/-- Only a target that is no variable has no name. -/
theorem run_targetName_error {id : NodeId} (h : (targetName id).run s = .error e t) :
    s = t ∧ Disorder e := by
  unfold targetName at h
  rcases run_bind_eq_error.1 h with hrun | ⟨node, _, hrun, h⟩
  · exact run_nodeAt_error hrun
  · obtain ⟨-, rfl⟩ := run_nodeAt_ok hrun
    cases node <;> cases h <;> exact ⟨rfl, .malformed _ _ _⟩

/-- Only a value that is not there cannot be learnt. -/
theorem run_learn_error {name : String} {value : NodeId}
    (h : (learn name value).run s = .error e t) : s = t ∧ Disorder e := by
  unfold learn at h
  rcases run_bind_eq_error.1 h with hrun | ⟨node, _, hrun, h⟩
  · exact run_nodeAt_error hrun
  · split at h <;> cases h

/-! ## Nodes -/

/-- How far simplifying two operands had come when one of them failed, or the exchange of the node
that has them. -/
inductive OperandsStop (depth : Nat) (lhs rhs : NodeId) (s : Propagation) :
    Stop CompileError → Propagation → Prop
  | left {e' t'} (hleft : (expr depth lhs).run s = .error e' t') : OperandsStop depth lhs rhs s e' t'
  | right {left s₁ e t} (hleft : (expr depth lhs).run s = .ok left s₁)
    (hright : (expr depth rhs).run s₁ = .error e t) : OperandsStop depth lhs rhs s e t
  | both {left right s₁ s₂ e} (hleft : (expr depth lhs).run s = .ok left s₁)
    (hright : (expr depth rhs).run s₁ = .ok right s₂) (he : Disorder e) :
    OperandsStop depth lhs rhs s e s₂

/-- How far simplifying an evaluable had come when it failed, by the form of the node. -/
inductive ExprStop (depth : Nat) (id : NodeId) (s : Propagation) :
    Stop CompileError → Propagation → Prop
  | here {e stats} (he : Disorder e) : ExprStop depth id s e { s with stats := stats }
  | operands {op lhs rhs e t} (hnode : s.graph.node? id = some (.arithmetic op lhs rhs))
    (hstop : OperandsStop depth lhs rhs s e t) : ExprStop depth id s e t
  | collapse {op lhs rhs left right s₁ s₂ s₃ e stats}
    (hnode : s.graph.node? id = some (.arithmetic op lhs rhs))
    (hleft : (expr depth lhs).run s = .ok left s₁) (hright : (expr depth rhs).run s₁ = .ok right s₂)
    (hupdate : (update id (.arithmetic op lhs rhs) (.arithmetic op left right)).run s₂ = .ok () s₃)
    (hcollapse : (collapse id op left right).run s₃ = .error e { s₃ with stats := stats }) :
    ExprStop depth id s e { s₃ with stats := stats }
  | arg {name args returns e t} (hnode : s.graph.node? id = some (.call name args returns))
    (hargs : (args.mapM (expr depth)).run s = .error e t) : ExprStop depth id s e t
  | args {name args args' returns s₁ e} (hnode : s.graph.node? id = some (.call name args returns))
    (hargs : (args.mapM (expr depth)).run s = .ok args' s₁) (he : Disorder e) :
    ExprStop depth id s e s₁

/-- Simplifying an evaluable without success is one of the cases of `ExprStop`. -/
theorem run_expr_error {depth : Nat} {id : NodeId} (h : (expr (depth + 1) id).run s = .error e t) :
    ExprStop depth id s e t := by
  rw [expr] at h
  rcases run_bind_eq_error.1 h with hrun | ⟨node, _, hrun, h⟩
  · obtain ⟨rfl, he⟩ := run_nodeAt_error hrun
    exact @ExprStop.here _ _ s _ s.stats he
  obtain ⟨hnode, rfl⟩ := run_nodeAt_ok hrun
  cases node with
  | constant l => cases h
  | var v =>
    rcases run_bind_eq_error.1 h with hget | ⟨_, _, hget, h⟩
    · cases hget
    cases hget
    split at h
    next =>
      rcases run_bind_eq_error.1 h with hstats | ⟨_, _, hstats, h⟩
      · cases hstats
      · cases hstats
        obtain ⟨rfl, he⟩ := run_addConstant_error h
        exact .here he
    next => cases h
  | arithmetic op lhs rhs =>
    rcases run_bind_eq_error.1 h with hleft | ⟨left, s₁, hleft, h⟩
    · exact .operands hnode (.left hleft)
    rcases run_bind_eq_error.1 h with hright | ⟨right, s₂, hright, h⟩
    · exact .operands hnode (.right hleft hright)
    rcases run_bind_eq_error.1 h with hupdate | ⟨_, s₃, hupdate, hcollapse⟩
    · obtain ⟨rfl, he⟩ := run_update_error hupdate
      exact .operands hnode (.both hleft hright he)
    · obtain ⟨⟨stats, rfl⟩, -⟩ := run_collapse_error hcollapse
      exact .collapse hnode hleft hright hupdate hcollapse
  | call name args returns =>
    rcases run_bind_eq_error.1 h with hargs | ⟨args', s₁, hargs, h⟩
    · exact .arg hnode hargs
    rcases run_bind_eq_error.1 h with hupdate | ⟨_, s₂, hupdate, h⟩
    · obtain ⟨rfl, he⟩ := run_update_error hupdate
      exact .args hnode hargs he
    rcases run_bind_eq_error.1 h with hget | ⟨_, _, hget, h⟩
    · cases hget
    cases hget
    split at h <;> cases h
  | _ =>
    cases h
    exact @ExprStop.here _ _ s _ s.stats (.malformed _ _ _)

/-- A comparison that failed is as it was, up to its operands. -/
theorem run_condition_error {depth : Nat} {id : NodeId} (h : (condition depth id).run s = .error e t) :
    (s = t ∧ Disorder e) ∨ ∃ op lhs rhs, s.graph.node? id = some (.comparison op lhs rhs) ∧
      OperandsStop depth lhs rhs s e t := by
  unfold condition at h
  rcases run_bind_eq_error.1 h with hrun | ⟨node, _, hrun, h⟩
  · exact .inl (run_nodeAt_error hrun)
  obtain ⟨hnode, rfl⟩ := run_nodeAt_ok hrun
  cases node with
  | comparison op lhs rhs =>
    refine .inr ⟨op, lhs, rhs, hnode, ?_⟩
    rcases run_bind_eq_error.1 h with hleft | ⟨left, s₁, hleft, h⟩
    · exact .left hleft
    rcases run_bind_eq_error.1 h with hright | ⟨right, s₂, hright, hupdate⟩
    · exact .right hleft hright
    · obtain ⟨rfl, he⟩ := run_update_error hupdate
      exact .both hleft hright he
  | _ =>
    cases h
    exact .inl ⟨rfl, .malformed _ _ _⟩

/-- How far simplifying a statement had come when it failed, by the form of the node. -/
inductive StatementStop (depth : Nat) (id : NodeId) (s : Propagation) :
    Stop CompileError → Propagation → Prop
  | here {e : Stop CompileError} (he : Disorder e) : StatementStop depth id s e s
  | assignValue {target value e t} (hnode : s.graph.node? id = some (.assign target value))
    (hvalue : (expr depth value).run s = .error e t) : StatementStop depth id s e t
  | assigned {target value value' s₁ e} (hnode : s.graph.node? id = some (.assign target value))
    (hvalue : (expr depth value).run s = .ok value' s₁) (he : Disorder e) :
    StatementStop depth id s e s₁
  | learn {target value value' s₁ s₂ e} (hnode : s.graph.node? id = some (.assign target value))
    (hvalue : (expr depth value).run s = .ok value' s₁)
    (hupdate : (update id (.assign target value) (.assign target value')).run s₁ = .ok () s₂)
    (he : Disorder e) : StatementStop depth id s e s₂
  | elementValue {target index value e t}
    (hnode : s.graph.node? id = some (.updateElement target index value))
    (hvalue : (expr depth value).run s = .error e t) : StatementStop depth id s e t
  | element {target index value value' s₁ e}
    (hnode : s.graph.node? id = some (.updateElement target index value))
    (hvalue : (expr depth value).run s = .ok value' s₁) (he : Disorder e) :
    StatementStop depth id s e s₁
  | ifCondition {cond thenBlock elseBlock e t}
    (hnode : s.graph.node? id = some (.ifElse cond thenBlock elseBlock))
    (hcond : (condition depth cond).run s = .error e t) : StatementStop depth id s e t
  | thenBlock {cond thenBlock elseBlock s₁ e s₂}
    (hnode : s.graph.node? id = some (.ifElse cond thenBlock elseBlock))
    (hcond : (condition depth cond).run s = .ok () s₁)
    (hthen : (thenBlock.forM (statement depth)).run
      { s₁ with knowledge := s₁.knowledge.openFrame } = .error e s₂) :
    StatementStop depth id s e { s₂ with knowledge := s₂.knowledge.closeFrame }
  | elseBlock {cond thenBlock elseBlock s₁ s₂ e s₃}
    (hnode : s.graph.node? id = some (.ifElse cond thenBlock elseBlock))
    (hcond : (condition depth cond).run s = .ok () s₁)
    (hthen : (thenBlock.forM (statement depth)).run
      { s₁ with knowledge := s₁.knowledge.openFrame } = .ok () s₂)
    (helse : (elseBlock.forM (statement depth)).run
      { s₂ with knowledge := s₂.knowledge.closeFrame.openFrame } = .error e s₃) :
    StatementStop depth id s e { s₃ with knowledge := s₃.knowledge.closeFrame }
  | branches {cond thenBlock elseBlock s₁ s₂ s₃ e}
    (hnode : s.graph.node? id = some (.ifElse cond thenBlock elseBlock))
    (hcond : (condition depth cond).run s = .ok () s₁)
    (hthen : (thenBlock.forM (statement depth)).run
      { s₁ with knowledge := s₁.knowledge.openFrame } = .ok () s₂)
    (helse : (elseBlock.forM (statement depth)).run
      { s₂ with knowledge := s₂.knowledge.closeFrame.openFrame } = .ok () s₃) (he : Disorder e) :
    StatementStop depth id s e { s₃ with knowledge := s₃.knowledge.closeFrame }
  | loopCondition {cond body names e t} (hnode : s.graph.node? id = some (.whileLoop cond body))
    (hassigned : s.graph.assignedIn s.functions depth body = .ok names)
    (hcond : (condition depth cond).run
      { s with knowledge := s.knowledge.invalidateAll names.toList } = .error e t) :
    StatementStop depth id s e t
  | round {cond body names s₁ e s₂} (hnode : s.graph.node? id = some (.whileLoop cond body))
    (hassigned : s.graph.assignedIn s.functions depth body = .ok names)
    (hcond : (condition depth cond).run
      { s with knowledge := s.knowledge.invalidateAll names.toList } = .ok () s₁)
    (hround : (body.forM (statement depth)).run
      { s₁ with knowledge := s₁.knowledge.openFrame } = .error e s₂) :
    StatementStop depth id s e { s₂ with knowledge := s₂.knowledge.closeFrame }
  | functionBody {name params body returns functions e s₁}
    (hnode : s.graph.node? id = some (.functionDef name params body returns))
    (hbody : (body.forM (statement depth)).run
      { s with knowledge := .empty, functions := functions } = .error e s₁) :
    StatementStop depth id s e { s₁ with knowledge := s.knowledge }

/-- Simplifying a statement without success is one of the cases of `StatementStop`. How far the
simplifying had come is read off here once, and used by its cases from here on. -/
theorem run_statement_error {depth : Nat} {id : NodeId}
    (h : (statement (depth + 1) id).run s = .error e t) : StatementStop depth id s e t := by
  rw [statement] at h
  rcases run_bind_eq_error.1 h with hrun | ⟨node, _, hrun, h⟩
  · obtain ⟨rfl, he⟩ := run_nodeAt_error hrun
    exact .here he
  obtain ⟨hnode, rfl⟩ := run_nodeAt_ok hrun
  cases node with
  | assign target value =>
    rcases run_bind_eq_error.1 h with hrun | ⟨name, _, hrun, h⟩
    · obtain ⟨rfl, he⟩ := run_targetName_error hrun
      exact .here he
    obtain ⟨-, rfl⟩ := run_targetName_ok hrun
    rcases run_bind_eq_error.1 h with hvalue | ⟨value', s₁, hvalue, h⟩
    · exact .assignValue hnode hvalue
    rcases run_bind_eq_error.1 h with hupdate | ⟨_, s₂, hupdate, hlearn⟩
    · obtain ⟨rfl, he⟩ := run_update_error hupdate
      exact .assigned hnode hvalue he
    · obtain ⟨rfl, he⟩ := run_learn_error hlearn
      exact .learn hnode hvalue hupdate he
  | updateElement target index value =>
    rcases run_bind_eq_error.1 h with hrun | ⟨name, _, hrun, h⟩
    · obtain ⟨rfl, he⟩ := run_targetName_error hrun
      exact .here he
    obtain ⟨-, rfl⟩ := run_targetName_ok hrun
    rcases run_bind_eq_error.1 h with hvalue | ⟨value', s₁, hvalue, h⟩
    · exact .elementValue hnode hvalue
    rcases run_bind_eq_error.1 h with hupdate | ⟨_, s₂, _, hforget⟩
    · obtain ⟨rfl, he⟩ := run_update_error hupdate
      exact .element hnode hvalue he
    · cases hforget
  | ifElse cond thenBlock elseBlock =>
    rcases run_bind_eq_error.1 h with hcond | ⟨_, s₁, hcond, h⟩
    · exact .ifCondition hnode hcond
    rcases run_bind_eq_error.1 h with hrun | ⟨_, _, hrun, h⟩
    · obtain ⟨s₂, hthen, rfl⟩ := run_inFrame_error hrun
      exact .thenBlock hnode hcond hthen
    obtain ⟨s₂, hthen, rfl⟩ := run_inFrame_ok hrun
    rcases run_bind_eq_error.1 h with hrun | ⟨_, _, hrun, h⟩
    · obtain ⟨s₃, helse, rfl⟩ := run_inFrame_error hrun
      exact .elseBlock hnode hcond hthen helse
    obtain ⟨s₃, helse, rfl⟩ := run_inFrame_ok hrun
    rcases run_bind_eq_error.1 h with hrun | ⟨_, _, _, hforget⟩
    · obtain ⟨rfl, he⟩ := run_assignedIn_error hrun
      exact .branches hnode hcond hthen helse he
    · cases hforget
  | whileLoop cond body =>
    rcases run_bind_eq_error.1 h with hrun | ⟨names, _, hrun, h⟩
    · obtain ⟨rfl, he⟩ := run_assignedIn_error hrun
      exact .here he
    obtain ⟨hassigned, rfl⟩ := run_assignedIn_ok hrun
    rcases run_bind_eq_error.1 h with hforget | ⟨_, _, hforget, h⟩
    · cases hforget
    cases hforget
    rcases run_bind_eq_error.1 h with hcond | ⟨_, s₁, hcond, h⟩
    · exact .loopCondition hnode hassigned hcond
    rcases run_bind_eq_error.1 h with hrun | ⟨_, _, _, hforget⟩
    · obtain ⟨s₂, hround, rfl⟩ := run_inFrame_error hrun
      exact .round hnode hassigned hcond hround
    · cases hforget
  | functionDef name params body returns =>
    rcases run_bind_eq_error.1 h with hrun | ⟨names, _, hrun, h⟩
    · obtain ⟨rfl, he⟩ := run_assignedIn_error hrun
      exact .here he
    obtain ⟨-, rfl⟩ := run_assignedIn_ok hrun
    rcases run_bind_eq_error.1 h with hnote | ⟨_, _, hnote, h⟩
    · cases hnote
    cases hnote
    obtain ⟨s₁, hbody, rfl⟩ := run_fromNothing_error h
    exact .functionBody hnode hbody
  | debug text => cases h
  | _ =>
    cases h
    exact .here (.malformed _ _ _)

/-! ## What may have changed -/

variable {S : NodeId → Prop} {depth : Nat} {id : NodeId}

/-- Steps with results that stop have changed what is below the nodes of the list, if each step does
no more when it succeeds and when it fails. -/
theorem mapM_stop_rewrites {f : NodeId → PropagateM NodeId} (hf : Confined S f)
    (hstop : ∀ {id s t}, (f id).run s = .error e t → s.graph.Covers S id →
      Rewrites S s.graph t.graph) {ids : List NodeId} (h : (ids.mapM f).run s = .error e t)
    (hS : ∀ c ∈ ids, s.graph.Covers S c) : Rewrites S s.graph t.graph := by
  induction ids generalizing s with
  | nil => cases h
  | cons id ids ih =>
    rcases run_mapM_cons_eq_error.1 h with hid | ⟨id', u, hid, hids⟩
    · exact hstop hid (hS id List.mem_cons_self)
    · have hr := (hf _ _ _ _ hid (hS id List.mem_cons_self)).1
      exact hr.trans (ih hids fun c hc => (hS c (List.mem_cons_of_mem _ hc)).rewrites hr)

/-- Operands that stop have changed what is below them, if each one does no more when it fails. -/
theorem OperandsStop.rewrites {lhs rhs : NodeId} (h : OperandsStop depth lhs rhs s e t)
    (hstop : ∀ {id s t e}, (expr depth id).run s = .error e t → s.graph.Covers S id →
      Rewrites S s.graph t.graph) (hS : ∀ c ∈ [lhs, rhs], s.graph.Covers S c) :
    Rewrites S s.graph t.graph := by
  cases h with
  | left hleft => exact hstop hleft (hS lhs List.mem_cons_self)
  | right hleft hright =>
    have hr := (expr_confined depth _ _ _ _ hleft (hS lhs List.mem_cons_self)).1
    exact hr.trans (hstop hright ((hS rhs (by simp)).rewrites hr))
  | both hleft hright => exact ((expr_confined depth).operands hleft hright hS).1

/-- Simplifying an evaluable has changed what is below it when it fails. -/
theorem expr_stop_rewrites (h : (expr depth id).run s = .error e t) (hS : s.graph.Covers S id) :
    Rewrites S s.graph t.graph := by
  induction depth generalizing id s t e with
  | zero =>
    cases h
    exact .refl S _
  | succ depth ih =>
    cases run_expr_error h with
    | here => exact .refl S _
    | operands hnode hstop => exact hstop.rewrites ih fun c hc => hS.child hnode hc
    | collapse hnode hleft hright hupdate =>
      obtain ⟨hr, hleft', hright'⟩ :=
        (expr_confined depth).operands hleft hright fun c hc => hS.child hnode hc
      have hr₃ := update_rewrites hupdate hr (hS.self hnode rfl) hnode rfl (.arithmetic hleft' hright')
      exact hr₃
    | arg hnode hargs =>
      exact mapM_stop_rewrites (expr_confined depth) ih hargs fun c hc => hS.child hnode hc
    | args hnode hargs => exact ((expr_confined depth).mapM hargs fun c hc => hS.child hnode hc).1

/-- Simplifying a comparison has changed what is below it when it fails. -/
theorem condition_stop_rewrites (h : (condition depth id).run s = .error e t)
    (hS : s.graph.Covers S id) : Rewrites S s.graph t.graph := by
  rcases run_condition_error h with ⟨rfl, -⟩ | ⟨op, lhs, rhs, hnode, hstop⟩
  · exact .refl S _
  · exact hstop.rewrites expr_stop_rewrites fun c hc => hS.child hnode hc

/-- Statements that are simplified one after the other have changed what is below them when one of
them fails. -/
theorem forM_stop_rewrites
    (hstop : ∀ {id s t}, (statement depth id).run s = .error e t → s.graph.Covers S id →
      Rewrites S s.graph t.graph) {ids : List NodeId}
    (h : (ids.forM (statement depth)).run s = .error e t) (hS : ∀ id ∈ ids, s.graph.Covers S id) :
    Rewrites S s.graph t.graph := by
  induction ids generalizing s with
  | nil => cases h
  | cons id ids ih =>
    rcases run_forM_cons_eq_error.1 h with hid | ⟨u, hid, hids⟩
    · exact hstop hid (hS id List.mem_cons_self)
    · have hr := statement_rewrites hid (hS id List.mem_cons_self)
      exact hr.trans (ih hids fun c hc => (hS c (List.mem_cons_of_mem _ hc)).rewrites hr)

/-- Simplifying a statement has changed what is below it when it fails. -/
theorem statement_stop_rewrites (h : (statement depth id).run s = .error e t)
    (hS : s.graph.Covers S id) : Rewrites S s.graph t.graph := by
  induction depth generalizing id s t e with
  | zero =>
    cases h
    exact .refl S _
  | succ depth ih =>
    cases run_statement_error h with
    | here => exact .refl S _
    | assignValue hnode hvalue | elementValue hnode hvalue =>
      exact expr_stop_rewrites hvalue (hS.child hnode (by simp [Node.parts, Node.children]))
    | assigned hnode hvalue | element hnode hvalue =>
      exact (expr_confined depth _ _ _ _ hvalue
        (hS.child hnode (by simp [Node.parts, Node.children]))).1
    | learn hnode hvalue hupdate =>
      exact assignment_rewrites hvalue hupdate hS hnode rfl
        (by simp [Node.parts, Node.children]) .assign
    | ifCondition hnode hcond =>
      exact condition_stop_rewrites hcond (hS.child hnode (by simp [Node.parts, Node.children]))
    | thenBlock hnode hcond hthen =>
      have hr₁ := condition_rewrites hcond (hS.child hnode (by simp [Node.parts, Node.children]))
      have hr₂ := forM_stop_rewrites ih hthen fun c hc =>
        (hS.child hnode (by simp [Node.parts, Node.children, hc])).rewrites hr₁
      exact hr₁.trans hr₂
    | elseBlock hnode hcond hthen helse =>
      have hr₁ := condition_rewrites hcond (hS.child hnode (by simp [Node.parts, Node.children]))
      have hr₂ := forM_rewrites (fun _ _ _ => statement_rewrites) hthen fun c hc =>
        (hS.child hnode (by simp [Node.parts, Node.children, hc])).rewrites hr₁
      have hr₃ := forM_stop_rewrites ih helse fun c hc =>
        (hS.child hnode (by simp [Node.parts, Node.children, hc])).rewrites (hr₁.trans hr₂)
      exact (hr₁.trans hr₂).trans hr₃
    | branches hnode hcond hthen helse =>
      have hr₁ := condition_rewrites hcond (hS.child hnode (by simp [Node.parts, Node.children]))
      have hr₂ := forM_rewrites (fun _ _ _ => statement_rewrites) hthen fun c hc =>
        (hS.child hnode (by simp [Node.parts, Node.children, hc])).rewrites hr₁
      have hr₃ := forM_rewrites (fun _ _ _ => statement_rewrites) helse fun c hc =>
        (hS.child hnode (by simp [Node.parts, Node.children, hc])).rewrites (hr₁.trans hr₂)
      exact (hr₁.trans hr₂).trans hr₃
    | loopCondition hnode _ hcond =>
      have hr := condition_stop_rewrites hcond (hS.child hnode (by simp [Node.parts, Node.children]))
      exact hr
    | round hnode _ hcond hround =>
      have hr₁ := condition_rewrites hcond (hS.child hnode (by simp [Node.parts, Node.children]))
      have hr₂ := forM_stop_rewrites ih hround fun c hc =>
        (hS.child hnode (by simp [Node.parts, Node.children, hc])).rewrites hr₁
      exact hr₁.trans hr₂
    | functionBody hnode hbody =>
      have hr := forM_stop_rewrites ih hbody fun c hc =>
        hS.child hnode (by simp [Node.parts, hc])
      exact hr

end PropagateM

end RegisterBackend
