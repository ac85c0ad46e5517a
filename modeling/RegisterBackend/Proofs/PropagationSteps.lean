import RegisterBackend.Proofs.Rewriting
import RegisterBackend.Propagation.Basic

/-!
# The steps of constant propagation

For each of the small steps that constant propagation is made of, this module says what it did if it
succeeded. With this, `PropagateM.statement_rewrites` says which part of the graph simplifying a
statement can change: constants are added, and the nodes that can be reached from the statement are
exchanged, for nodes of the same shape whose slots are as before or hold constants. This needs
nothing of the statement; it also holds of code that cannot be lowered.
-/

namespace RegisterBackend

/-- What is known behind a call of a function, of which it is noted or not what it may assign. -/
def Knowledge.behindCall (k : Knowledge) : Option NameSet → Knowledge
  | some assigned => k.invalidateAll assigned.toList
  | none => k

namespace PropagateM

open RegisterBackend.Graph (Rewrites Covers node?_add_constant quiet_of_children)

variable {α : Type} {s t u : Propagation}

/-! ## Small steps -/

theorem run_get_bind {f : Propagation → PropagateM α} : (get >>= f).run s = (f s).run s :=
  rfl

/-- A node that is there is found, and nothing changes. -/
theorem run_nodeAt {id : NodeId} {node : Node} (h : s.graph.node? id = some node) :
    (nodeAt id).run s = .ok node s := by
  rw [nodeAt, run_get_bind, h]
  rfl

theorem run_update_self (id : NodeId) (node : Node) : (update id node node).run s = .ok () s := by
  rw [update, if_pos rfl]
  rfl

/-- Only a node that is there is found. -/
theorem run_nodeAt_ok {id : NodeId} {node : Node} (h : (nodeAt id).run s = .ok node t) :
    s.graph.node? id = some node ∧ s = t := by
  unfold nodeAt at h
  obtain ⟨_, _, hget, h⟩ := run_bind_eq_ok.1 h
  cases hget
  cases hnode : s.graph.node? id with
  | none => rw [hnode] at h; cases h
  | some n =>
    rw [hnode] at h
    cases h
    exact ⟨rfl, rfl⟩

/-- Adding a constant adds the node, and nothing else. -/
theorem run_addConstant_ok {l : Literal} {id : NodeId} (h : (addConstant l).run s = .ok id t) :
    ∃ g, s.graph.add (.constant l) = .ok (id, g) ∧ t = { s with graph := g } := by
  unfold addConstant at h
  obtain ⟨_, _, hget, h⟩ := run_bind_eq_ok.1 h
  cases hget
  cases hadd : s.graph.add (.constant l) with
  | error e => rw [hadd] at h; cases h
  | ok r =>
    rw [hadd] at h
    cases h
    exact ⟨r.2, rfl, rfl⟩

/-- An update replaces the node, or does nothing if the node is the same. -/
theorem run_update_ok {id : NodeId} {old new : Node} (h : (update id old new).run s = .ok () t) :
    (new = old ∧ s = t) ∨ ∃ g, s.graph.replace id new = .ok g ∧ t = { s with graph := g } := by
  unfold update at h
  split at h
  next he =>
    cases h
    exact .inl ⟨he, rfl⟩
  next =>
    obtain ⟨_, _, hget, h⟩ := run_bind_eq_ok.1 h
    cases hget
    cases hrep : s.graph.replace id new with
    | error e => rw [hrep] at h; cases h
    | ok g =>
      rw [hrep] at h
      cases h
      exact .inr ⟨g, rfl, rfl⟩

/-- The names that a block may assign are those that the graph and the notes on functions give. -/
theorem run_assignedIn_ok {depth : Nat} {block : List NodeId} {names : NameSet}
    (h : (assignedIn depth block).run s = .ok names t) :
    s.graph.assignedIn s.functions depth block = .ok names ∧ s = t := by
  unfold assignedIn at h
  obtain ⟨_, _, hget, h⟩ := run_bind_eq_ok.1 h
  cases hget
  cases hassigned : s.graph.assignedIn s.functions depth block with
  | error e => rw [hassigned] at h; cases h
  | ok names =>
    rw [hassigned] at h
    cases h
    exact ⟨rfl, rfl⟩

/-- Steps in a frame are the steps after the frame was opened, and the frame is closed behind
them. -/
theorem run_inFrame_ok {m : PropagateM α} {a : α} (h : (inFrame m).run s = .ok a t) :
    ∃ u, m.run { s with knowledge := s.knowledge.openFrame } = .ok a u ∧
      t = { u with knowledge := u.knowledge.closeFrame } := by
  unfold inFrame at h
  obtain ⟨_, _, hopen, h⟩ := run_bind_eq_ok.1 h
  cases hopen
  obtain ⟨u, _, hm, hclose⟩ := run_tryFinally_eq_ok.1 h
  cases hclose
  exact ⟨u, hm, rfl⟩

/-- Steps from nothing begin with an empty table, and the former one is put back behind them. -/
theorem run_fromNothing_ok {m : PropagateM α} {a : α} (h : (fromNothing m).run s = .ok a t) :
    ∃ u, m.run { s with knowledge := .empty } = .ok a u ∧ t = { u with knowledge := s.knowledge } := by
  unfold fromNothing at h
  obtain ⟨_, _, hget, h⟩ := run_bind_eq_ok.1 h
  cases hget
  obtain ⟨_, _, hopen, h⟩ := run_bind_eq_ok.1 h
  cases hopen
  obtain ⟨u, _, hm, hclose⟩ := run_tryFinally_eq_ok.1 h
  cases hclose
  exact ⟨u, hm, rfl⟩

/-- An operation on two constants becomes its result, and one with other operands stays. -/
theorem run_collapse_ok {id lhs rhs id' : NodeId} {op : ArithOp}
    (h : (collapse id op lhs rhs).run s = .ok id' t) :
    (∃ a b g, s.graph.node? lhs = some (.constant (.scalar a)) ∧
      s.graph.node? rhs = some (.constant (.scalar b)) ∧
      s.graph.add (.constant (.scalar (op.apply a b))) = .ok (id', g) ∧
      t.graph = g ∧ t.knowledge = s.knowledge ∧ t.functions = s.functions) ∨
    (¬ (s.graph.IsConstant lhs ∧ s.graph.IsConstant rhs) ∧ id' = id ∧ s = t) := by
  unfold collapse at h
  obtain ⟨left, _, hrun, h⟩ := run_bind_eq_ok.1 h
  obtain ⟨hleft, rfl⟩ := run_nodeAt_ok hrun
  obtain ⟨right, _, hrun, h⟩ := run_bind_eq_ok.1 h
  obtain ⟨hright, rfl⟩ := run_nodeAt_ok hrun
  split at h
  next =>
    obtain ⟨_, _, hstats, h⟩ := run_bind_eq_ok.1 h
    cases hstats
    obtain ⟨g, hadd, rfl⟩ := run_addConstant_ok h
    exact .inl ⟨_, _, g, hleft, hright, hadd, rfl, rfl, rfl⟩
  next => cases h
  next => cases h
  next hnot =>
    cases h
    refine .inr ⟨?_, rfl, rfl⟩
    rintro ⟨⟨a, ha⟩, ⟨b, hb⟩⟩
    exact hnot a b (Option.some.inj (hleft.symm.trans ha)) (Option.some.inj (hright.symm.trans hb))

/-- Only a variable has a name to be assigned. -/
theorem run_targetName_ok {id : NodeId} {name : String} (h : (targetName id).run s = .ok name t) :
    (∃ v, s.graph.node? id = some (.var v) ∧ v.name = name) ∧ s = t := by
  unfold targetName at h
  obtain ⟨node, _, hrun, h⟩ := run_bind_eq_ok.1 h
  obtain ⟨hnode, rfl⟩ := run_nodeAt_ok hrun
  cases node with
  | var v =>
    cases h
    exact ⟨⟨v, hnode, rfl⟩, rfl⟩
  | _ => cases h

/-- The value of a name is recorded if it is a constant, and the name is forgotten otherwise. -/
theorem run_learn_ok {name : String} {value : NodeId} (h : (learn name value).run s = .ok () t) :
    (∃ l, s.graph.node? value = some (.constant l) ∧
      t = { s with knowledge := s.knowledge.record name l }) ∨
    (¬ s.graph.IsConstant value ∧ t = { s with knowledge := s.knowledge.invalidate name }) := by
  unfold learn at h
  obtain ⟨node, _, hrun, h⟩ := run_bind_eq_ok.1 h
  obtain ⟨hnode, rfl⟩ := run_nodeAt_ok hrun
  split at h
  next l =>
    cases h
    exact .inl ⟨l, hnode, rfl⟩
  next hnot =>
    cases h
    exact .inr ⟨fun ⟨l, hl⟩ => hnot l (Option.some.inj (hnode.symm.trans hl)), rfl⟩

/-! ## Nodes -/

/-- The names that functions may assign, with those of one more definition. -/
def noted (functions : NameMap NameSet) (name : String) (assigned : NameSet) : NameMap NameSet :=
  functions.insert name ((functions.getD name ∅).insertMany assigned.toList)

/-- What simplifying an evaluable does if it succeeds, by the form of the node. -/
inductive ExprRun (depth : Nat) (id : NodeId) (s : Propagation) : NodeId → Propagation → Prop
  | constant {l} (hnode : s.graph.node? id = some (.constant l)) : ExprRun depth id s id s
  | unknown {v} (hnode : s.graph.node? id = some (.var v))
    (hlookup : s.knowledge.lookup v.name = none) : ExprRun depth id s id s
  | known {v l id' g stats} (hnode : s.graph.node? id = some (.var v))
    (hlookup : s.knowledge.lookup v.name = some l)
    (hadd : s.graph.add (.constant l) = .ok (id', g)) :
    ExprRun depth id s id' { s with graph := g, stats := stats }
  | arithmetic {op lhs rhs left right s₁ s₂ s₃ id' t}
    (hnode : s.graph.node? id = some (.arithmetic op lhs rhs))
    (hleft : (expr depth lhs).run s = .ok left s₁) (hright : (expr depth rhs).run s₁ = .ok right s₂)
    (hupdate : (update id (.arithmetic op lhs rhs) (.arithmetic op left right)).run s₂ = .ok () s₃)
    (hcollapse : (collapse id op left right).run s₃ = .ok id' t) : ExprRun depth id s id' t
  | call {name args args' returns s₁ s₂} (hnode : s.graph.node? id = some (.call name args returns))
    (hargs : (args.mapM (expr depth)).run s = .ok args' s₁)
    (hupdate : (update id (.call name args returns) (.call name args' returns)).run s₁ = .ok () s₂) :
    ExprRun depth id s id { s₂ with knowledge := s₂.knowledge.behindCall s₂.functions[name]? }

/-- Simplifying an evaluable with success is one of the cases of `ExprRun`. -/
theorem run_expr_ok {depth : Nat} {id id' : NodeId} (h : (expr (depth + 1) id).run s = .ok id' t) :
    ExprRun depth id s id' t := by
  rw [expr] at h
  obtain ⟨node, _, hrun, h⟩ := run_bind_eq_ok.1 h
  obtain ⟨hnode, rfl⟩ := run_nodeAt_ok hrun
  cases node with
  | constant l =>
    cases h
    exact .constant hnode
  | var v =>
    obtain ⟨_, _, hget, h⟩ := run_bind_eq_ok.1 h
    cases hget
    split at h
    next l hlookup =>
      obtain ⟨_, _, hstats, h⟩ := run_bind_eq_ok.1 h
      cases hstats
      obtain ⟨g, hadd, rfl⟩ := run_addConstant_ok h
      exact .known hnode hlookup hadd
    next hlookup =>
      cases h
      exact .unknown hnode hlookup
  | arithmetic op lhs rhs =>
    obtain ⟨left, s₁, hleft, h⟩ := run_bind_eq_ok.1 h
    obtain ⟨right, s₂, hright, h⟩ := run_bind_eq_ok.1 h
    obtain ⟨_, s₃, hupdate, hcollapse⟩ := run_bind_eq_ok.1 h
    exact .arithmetic hnode hleft hright hupdate hcollapse
  | call name args returns =>
    obtain ⟨args', s₁, hargs, h⟩ := run_bind_eq_ok.1 h
    obtain ⟨_, s₂, hupdate, h⟩ := run_bind_eq_ok.1 h
    obtain ⟨_, _, hget, h⟩ := run_bind_eq_ok.1 h
    cases hget
    have hcall := ExprRun.call hnode hargs hupdate
    split at h
    next hname =>
      cases h
      rwa [hname] at hcall
    next hname =>
      cases h
      rwa [hname] at hcall
  | _ => cases h

/-- What simplifying a comparison does if it succeeds. -/
theorem run_condition_ok {depth : Nat} {id : NodeId} (h : (condition depth id).run s = .ok () t) :
    ∃ op lhs rhs left right s₁ s₂, s.graph.node? id = some (.comparison op lhs rhs) ∧
      (expr depth lhs).run s = .ok left s₁ ∧ (expr depth rhs).run s₁ = .ok right s₂ ∧
      (update id (.comparison op lhs rhs) (.comparison op left right)).run s₂ = .ok () t := by
  unfold condition at h
  obtain ⟨node, _, hrun, h⟩ := run_bind_eq_ok.1 h
  obtain ⟨hnode, rfl⟩ := run_nodeAt_ok hrun
  cases node with
  | comparison op lhs rhs =>
    obtain ⟨left, s₁, hleft, h⟩ := run_bind_eq_ok.1 h
    obtain ⟨right, s₂, hright, hupdate⟩ := run_bind_eq_ok.1 h
    exact ⟨op, lhs, rhs, left, right, s₁, s₂, hnode, hleft, hright, hupdate⟩
  | _ => cases h

/-- What simplifying a statement does if it succeeds, by the form of the node. -/
inductive StatementRun (depth : Nat) (id : NodeId) (s : Propagation) : Propagation → Prop
  | assign {target value value' v s₁ s₂ t} (hnode : s.graph.node? id = some (.assign target value))
    (htarget : s.graph.node? target = some (.var v))
    (hvalue : (expr depth value).run s = .ok value' s₁)
    (hupdate : (update id (.assign target value) (.assign target value')).run s₁ = .ok () s₂)
    (hlearn : (learn v.name value').run s₂ = .ok () t) : StatementRun depth id s t
  | updateElement {target index value value' v s₁ s₂}
    (hnode : s.graph.node? id = some (.updateElement target index value))
    (hvalue : (expr depth value).run s = .ok value' s₁)
    (hupdate : (update id (.updateElement target index value)
      (.updateElement target index value')).run s₁ = .ok () s₂)
    (htarget : s.graph.node? target = some (.var v)) :
    StatementRun depth id s { s₂ with knowledge := s₂.knowledge.invalidate v.name }
  | ifElse {cond thenBlock elseBlock s₁ s₂ s₃ names}
    (hnode : s.graph.node? id = some (.ifElse cond thenBlock elseBlock))
    (hcond : (condition depth cond).run s = .ok () s₁)
    (hthen : (thenBlock.forM (statement depth)).run
      { s₁ with knowledge := s₁.knowledge.openFrame } = .ok () s₂)
    (helse : (elseBlock.forM (statement depth)).run
      { s₂ with knowledge := s₂.knowledge.closeFrame.openFrame } = .ok () s₃)
    (hassigned : s₃.graph.assignedIn s₃.functions depth (thenBlock ++ elseBlock) = .ok names) :
    StatementRun depth id s
      { s₃ with knowledge := s₃.knowledge.closeFrame.invalidateAll names.toList }
  | whileLoop {cond body s₁ s₂ names} (hnode : s.graph.node? id = some (.whileLoop cond body))
    (hassigned : s.graph.assignedIn s.functions depth body = .ok names)
    (hcond : (condition depth cond).run
      { s with knowledge := s.knowledge.invalidateAll names.toList } = .ok () s₁)
    (hround : (body.forM (statement depth)).run
      { s₁ with knowledge := s₁.knowledge.openFrame } = .ok () s₂) :
    StatementRun depth id s
      { s₂ with knowledge := s₂.knowledge.closeFrame.invalidateAll names.toList }
  | functionDef {name params body returns names s₁}
    (hnode : s.graph.node? id = some (.functionDef name params body returns))
    (hbody : (body.forM (statement depth)).run
      { s with knowledge := .empty, functions := noted s.functions name names } = .ok () s₁)
    (hassigned : s.graph.assignedIn s.functions depth body = .ok names) :
    StatementRun depth id s { s₁ with knowledge := s.knowledge }
  | debug {text} (hnode : s.graph.node? id = some (.debug text)) : StatementRun depth id s s

/-- Simplifying a statement with success is one of the cases of `StatementRun`. What the simplifying
does is read off here once, and used by its cases from here on. -/
theorem run_statement_ok {depth : Nat} {id : NodeId} (h : (statement (depth + 1) id).run s = .ok () t) :
    StatementRun depth id s t := by
  rw [statement] at h
  obtain ⟨node, _, hrun, h⟩ := run_bind_eq_ok.1 h
  obtain ⟨hnode, rfl⟩ := run_nodeAt_ok hrun
  cases node with
  | assign target value =>
    obtain ⟨name, _, hrun, h⟩ := run_bind_eq_ok.1 h
    obtain ⟨⟨v, htarget, rfl⟩, rfl⟩ := run_targetName_ok hrun
    obtain ⟨value', s₁, hvalue, h⟩ := run_bind_eq_ok.1 h
    obtain ⟨_, s₂, hupdate, hlearn⟩ := run_bind_eq_ok.1 h
    exact .assign hnode htarget hvalue hupdate hlearn
  | updateElement target index value =>
    obtain ⟨name, _, hrun, h⟩ := run_bind_eq_ok.1 h
    obtain ⟨⟨v, htarget, rfl⟩, rfl⟩ := run_targetName_ok hrun
    obtain ⟨value', s₁, hvalue, h⟩ := run_bind_eq_ok.1 h
    obtain ⟨_, s₂, hupdate, hforget⟩ := run_bind_eq_ok.1 h
    cases hforget
    exact .updateElement hnode hvalue hupdate htarget
  | ifElse cond thenBlock elseBlock =>
    obtain ⟨_, s₁, hcond, h⟩ := run_bind_eq_ok.1 h
    obtain ⟨_, _, hrun, h⟩ := run_bind_eq_ok.1 h
    obtain ⟨s₂, hthen, rfl⟩ := run_inFrame_ok hrun
    obtain ⟨_, _, hrun, h⟩ := run_bind_eq_ok.1 h
    obtain ⟨s₃, helse, rfl⟩ := run_inFrame_ok hrun
    obtain ⟨names, _, hrun, hforget⟩ := run_bind_eq_ok.1 h
    obtain ⟨hassigned, rfl⟩ := run_assignedIn_ok hrun
    cases hforget
    exact .ifElse hnode hcond hthen helse hassigned
  | whileLoop cond body =>
    obtain ⟨names, _, hrun, h⟩ := run_bind_eq_ok.1 h
    obtain ⟨hassigned, rfl⟩ := run_assignedIn_ok hrun
    obtain ⟨_, _, hforget, h⟩ := run_bind_eq_ok.1 h
    cases hforget
    obtain ⟨_, s₁, hcond, h⟩ := run_bind_eq_ok.1 h
    obtain ⟨_, _, hrun, hforget⟩ := run_bind_eq_ok.1 h
    obtain ⟨s₂, hround, rfl⟩ := run_inFrame_ok hrun
    cases hforget
    exact .whileLoop hnode hassigned hcond hround
  | functionDef name params body returns =>
    obtain ⟨names, _, hrun, h⟩ := run_bind_eq_ok.1 h
    obtain ⟨hassigned, rfl⟩ := run_assignedIn_ok hrun
    obtain ⟨_, _, hnote, h⟩ := run_bind_eq_ok.1 h
    cases hnote
    obtain ⟨s₁, hbody, rfl⟩ := run_fromNothing_ok h
    exact .functionDef hnode hbody hassigned
  | debug text =>
    cases h
    exact .debug hnode
  | _ => cases h

/-! ## What may change -/

variable {S : NodeId → Prop} {g : Graph}

/-- An update of a node of the set that fills its slots rewrites the graph within the set. -/
theorem update_rewrites {id : NodeId} {old new : Node} (h : (update id old new).run s = .ok () t)
    (hr : Rewrites S g s.graph) (hS : S id) (hold : g.node? id = some old)
    (hleaf : old.isLeaf = false) (hamends : old.Amends (g.Reslots s.graph) new) :
    Rewrites S g t.graph := by
  rcases run_update_ok h with ⟨-, rfl⟩ | ⟨g', hreplace, rfl⟩
  · exact hr
  · exact hr.update hS hold hleaf hamends hreplace

/-- Steps on a node that change only nodes of a set, if these are all that can be changed below it,
and that return the node itself or a constant that was added. -/
def Confined (S : NodeId → Prop) (f : NodeId → PropagateM NodeId) : Prop :=
  ∀ id id' s t, (f id).run s = .ok id' t → s.graph.Covers S id →
    Rewrites S s.graph t.graph ∧ s.graph.Reslots t.graph id id'

/-- A list of nodes is gone through within the set, and each result is what a slot may refer to
instead. -/
theorem Confined.mapM {f : NodeId → PropagateM NodeId} (hf : Confined S f) {ids ids' : List NodeId}
    (h : (ids.mapM f).run s = .ok ids' t) (hS : ∀ c ∈ ids, s.graph.Covers S c) :
    Rewrites S s.graph t.graph ∧ List.Forall₂ (s.graph.Reslots t.graph) ids ids' := by
  induction ids generalizing ids' s with
  | nil =>
    cases h
    exact ⟨.refl S _, .nil⟩
  | cons id ids ih =>
    obtain ⟨id', u, rest, hid, hrest, rfl⟩ := run_mapM_cons_eq_ok.1 h
    obtain ⟨hr₁, hid'⟩ := hf _ _ _ _ hid (hS id List.mem_cons_self)
    obtain ⟨hr₂, hrest'⟩ := ih hrest fun c hc => (hS c (List.mem_cons_of_mem _ hc)).rewrites hr₁
    exact ⟨hr₁.trans hr₂, .cons (hr₁.reslots hr₂ hid' (.refl _ _ _))
      (hrest'.imp fun _ _ => hr₁.reslots hr₂ (.refl _ _ _))⟩

/-- Of two operands, both are rewritten within the set, and each result is what a slot may refer to
instead. -/
theorem Confined.operands {f : NodeId → PropagateM NodeId} (hf : Confined S f)
    {lhs rhs left right : NodeId} (hleft : (f lhs).run s = .ok left t)
    (hright : (f rhs).run t = .ok right u) (hS : ∀ c ∈ [lhs, rhs], s.graph.Covers S c) :
    Rewrites S s.graph u.graph ∧ s.graph.Reslots u.graph lhs left ∧
      s.graph.Reslots u.graph rhs right := by
  obtain ⟨hr₁, hleft'⟩ := hf _ _ _ _ hleft (hS lhs List.mem_cons_self)
  obtain ⟨hr₂, hright'⟩ := hf _ _ _ _ hright ((hS rhs (by simp)).rewrites hr₁)
  exact ⟨hr₁.trans hr₂, hr₁.reslots hr₂ hleft' (.refl _ _ _), hr₁.reslots hr₂ (.refl _ _ _) hright'⟩

/-- Simplifying an evaluable changes what is below it, and the node to use in its place is the same
one or a constant. -/
theorem expr_confined (depth : Nat) : Confined S (expr depth) := by
  induction depth with
  | zero => exact fun _ _ _ _ h => nomatch h
  | succ depth ih =>
    intro id id' s t h hS
    cases run_expr_ok h with
    | constant | unknown => exact ⟨.refl S _, .refl _ _ _⟩
    | known hnode _ hadd =>
      obtain ⟨hr, hconst⟩ := Rewrites.add (S := S) hadd
      have hquiet := quiet_of_children rfl hnode nofun
      exact ⟨hr, .inr ⟨(node?_add_constant hadd).1, ⟨_, hconst⟩, hquiet⟩⟩
    | arithmetic hnode hleft hright hupdate hcollapse =>
      obtain ⟨hr₂, hleft', hright'⟩ := ih.operands hleft hright fun c hc => hS.child hnode hc
      have hr₃ := update_rewrites hupdate hr₂ (hS.self hnode rfl) hnode rfl
        (.arithmetic hleft' hright')
      rcases run_collapse_ok hcollapse with ⟨a, b, g, ha, hb, hadd, rfl, -⟩ | ⟨-, rfl, rfl⟩
      · obtain ⟨hr, hconst⟩ := Rewrites.add (S := S) hadd
        have hnone := hr₃.node?_eq_none (node?_add_constant hadd).1
        have hquiet := quiet_of_children rfl hnode fun c hc => by
          rcases List.mem_cons.1 hc with rfl | hc
          · exact hr₃.quiet_of_reslots hleft' ⟨_, ha⟩
          · rw [List.mem_singleton.1 hc]
            exact hr₃.quiet_of_reslots hright' ⟨_, hb⟩
        exact ⟨hr₃.trans hr, .inr ⟨hnone, ⟨_, hconst⟩, hquiet⟩⟩
      · exact ⟨hr₃, .refl _ _ _⟩
    | call hnode hargs hupdate =>
      obtain ⟨hr₁, hargs'⟩ := ih.mapM hargs fun c hc => hS.child hnode hc
      have hr₂ := update_rewrites hupdate hr₁ (hS.self hnode rfl) hnode rfl (.call hargs')
      exact ⟨hr₂, .refl _ _ _⟩

/-- Simplifying a comparison changes what is below it. -/
theorem condition_rewrites {depth : Nat} {id : NodeId} (h : (condition depth id).run s = .ok () t)
    (hS : s.graph.Covers S id) : Rewrites S s.graph t.graph := by
  obtain ⟨op, lhs, rhs, left, right, s₁, s₂, hnode, hleft, hright, hupdate⟩ := run_condition_ok h
  obtain ⟨hr, hleft', hright'⟩ :=
    (expr_confined depth).operands hleft hright fun c hc => hS.child hnode hc
  exact update_rewrites hupdate hr (hS.self hnode rfl) hnode rfl (.comparison hleft' hright')

/-- Simplifying statements one after the other changes what is below them, if simplifying each one
does. -/
theorem forM_rewrites {f : NodeId → PropagateM Unit}
    (hf : ∀ id s t, (f id).run s = .ok () t → s.graph.Covers S id →
      Rewrites S s.graph t.graph) {ids : List NodeId}
    (h : (ids.forM f).run s = .ok () t) (hS : ∀ id ∈ ids, s.graph.Covers S id) :
    Rewrites S s.graph t.graph := by
  induction ids generalizing s with
  | nil =>
    cases h
    exact .refl S _
  | cons id ids ih =>
    obtain ⟨u, hid, hids⟩ := run_forM_cons_eq_ok.1 h
    have hr := hf _ _ _ hid (hS id List.mem_cons_self)
    exact hr.trans (ih hids fun c hc => (hS c (List.mem_cons_of_mem _ hc)).rewrites hr)

/-- Simplifying the value that a statement assigns changes what is below the statement. -/
theorem assignment_rewrites {depth : Nat} {id value value' : NodeId} {old new : Node}
    (hvalue : (expr depth value).run s = .ok value' t) (hupdate : (update id old new).run t = .ok () u)
    (hS : s.graph.Covers S id) (hold : s.graph.node? id = some old) (hleaf : old.isLeaf = false)
    (hmem : value ∈ old.parts)
    (hamends : s.graph.Reslots t.graph value value' → old.Amends (s.graph.Reslots t.graph) new) :
    Rewrites S s.graph u.graph := by
  obtain ⟨hr, hvalue'⟩ := expr_confined depth _ _ _ _ hvalue (hS.child hold hmem)
  exact update_rewrites hupdate hr (hS.self hold hleaf) hold hleaf (hamends hvalue')

/-- Simplifying a statement changes what is below it. -/
theorem statement_rewrites {depth : Nat} {id : NodeId} (h : (statement depth id).run s = .ok () t)
    (hS : s.graph.Covers S id) : Rewrites S s.graph t.graph := by
  induction depth generalizing id s t with
  | zero => cases h
  | succ depth ih =>
    cases run_statement_ok h with
    | assign hnode _ hvalue hupdate hlearn =>
      have hr := assignment_rewrites hvalue hupdate hS hnode rfl
        (by simp [Node.parts, Node.children]) .assign
      rcases run_learn_ok hlearn with ⟨l, -, rfl⟩ | ⟨-, rfl⟩ <;> exact hr
    | updateElement hnode hvalue hupdate =>
      have hr := assignment_rewrites hvalue hupdate hS hnode rfl (by simp [Node.parts, Node.children])
        .updateElement
      exact hr
    | ifElse hnode hcond hthen helse =>
      have hr₁ := condition_rewrites hcond (hS.child hnode (by simp [Node.parts, Node.children]))
      have hr₂ := forM_rewrites (fun _ _ _ => ih) hthen fun c hc =>
        (hS.child hnode (by simp [Node.parts, Node.children, hc])).rewrites hr₁
      have hr₃ := forM_rewrites (fun _ _ _ => ih) helse fun c hc =>
        (hS.child hnode (by simp [Node.parts, Node.children, hc])).rewrites (hr₁.trans hr₂)
      exact (hr₁.trans hr₂).trans hr₃
    | whileLoop hnode _ hcond hround =>
      have hr₁ := condition_rewrites hcond (hS.child hnode (by simp [Node.parts, Node.children]))
      have hr₂ := forM_rewrites (fun _ _ _ => ih) hround fun c hc =>
        (hS.child hnode (by simp [Node.parts, Node.children, hc])).rewrites hr₁
      exact hr₁.trans hr₂
    | functionDef hnode hbody =>
      have hr := forM_rewrites (fun _ _ _ => ih) hbody fun c hc =>
        hS.child hnode (by simp [Node.parts, hc])
      exact hr
    | debug => exact .refl S _

/-- Simplifying statements one after the other rewrites the graph. -/
theorem forM_statement_rewrites {ids : List NodeId} {depth : Nat}
    (h : (ids.forM (statement depth)).run s = .ok () t) :
    Rewrites (fun _ => True) s.graph t.graph :=
  forM_rewrites (fun _ _ _ => statement_rewrites) h fun _ _ => .all _ _

end PropagateM

end RegisterBackend
