import RegisterBackend.Proofs.NodeSharing
import RegisterBackend.Proofs.Substitution

/-!
# Propagating constants again

A second run of constant propagation finds nothing to do (`Program.propagate_again`). Where the
first run has put a constant, the second one comes to that constant; where the first one has left a
variable or an operation, the same is known in the second run, and it is left again.

The first run leaves a trace (`Graph.BlockTrace`), which says what is known and what is noted of
functions at each point. The second run is read off the trace: it starts from the graph in the end
and follows the first one with the same knowledge (`Graph.ExprTrace.rerun`,
`Graph.BlockTrace.rerun`). The names that a block assigns are collected from other nodes than
before, but are the same (`Program.Whole.assignedIn_eq`). All paths of a program without sharing end
(`Program.Whole.grounded`), so that the bound on their length is not used up.
-/

namespace RegisterBackend

/-! ## Steps that change nothing -/

namespace PropagateM

variable {α : Type} {s t : Propagation} {id : NodeId} {node : Node} {depth : Nat}

theorem run_modifyKnowledge (f : Knowledge → Knowledge) :
    (modifyKnowledge f).run s = .ok () { s with knowledge := f s.knowledge } :=
  rfl

theorem run_forget (names : NameSet) :
    (forget names).run s = .ok () { s with knowledge := s.knowledge.invalidateAll names.toList } :=
  rfl

theorem run_noteFunction (name : String) (names : NameSet) :
    (noteFunction name names).run s = .ok () { s with functions := noted s.functions name names } :=
  rfl

/-- The name of a variable is found. -/
theorem run_targetName {v : Variable} (h : s.graph.node? id = some (.var v)) :
    (targetName id).run s = .ok v.name s := by
  rw [targetName, run_bind_ok (run_nodeAt h)]
  rfl

/-- A value that is there can be learnt. -/
theorem run_learn {name : String} (h : s.graph.node? id = some node) :
    (learn name id).run s =
      .ok () { s with knowledge := s.knowledge.learn name (s.graph.node? id) } := by
  rw [learn, run_bind_ok (run_nodeAt h), h]
  cases node <;> rfl

/-- The names that a block may assign are collected if the graph gives them. -/
theorem run_assignedIn {block : List NodeId} {names : NameSet}
    (h : s.graph.assignedIn s.functions depth block = .ok names) :
    (assignedIn depth block).run s = .ok names s := by
  rw [assignedIn, run_get_bind, h]
  rfl

/-- Steps that succeed in an open frame succeed in a frame. -/
theorem run_inFrame {m : PropagateM α} {a : α}
    (h : m.run { s with knowledge := s.knowledge.openFrame } = .ok a t) :
    (inFrame m).run s = .ok a { t with knowledge := t.knowledge.closeFrame } := by
  rw [inFrame, run_bind_ok (run_modifyKnowledge _)]
  exact run_tryFinally_eq_ok.2 ⟨t, (), h, rfl⟩

/-- Steps that succeed from an empty table succeed from nothing. -/
theorem run_fromNothing {m : PropagateM α} {a : α}
    (h : m.run { s with knowledge := .empty } = .ok a t) :
    (fromNothing m).run s = .ok a { t with knowledge := s.knowledge } := by
  rw [fromNothing, run_get_bind, run_bind_ok (run_modifyKnowledge _)]
  exact run_tryFinally_eq_ok.2 ⟨t, (), h, rfl⟩

/-- If the first node stays and then the others do, all of them do. -/
theorem run_mapM_stays {f : NodeId → PropagateM NodeId} {ids : List NodeId} {u : Propagation}
    (hid : (f id).run s = .ok id t) (hids : (ids.mapM f).run t = .ok ids u) :
    ((id :: ids).mapM f).run s = .ok (id :: ids) u :=
  run_mapM_cons_eq_ok.2 ⟨_, _, _, hid, hids, rfl⟩

/-- An operation with an operand that is no constant stays. -/
theorem run_collapse_stuck {op : ArithOp} {lhs rhs : NodeId} {left right : Node}
    (hleft : s.graph.node? lhs = some left) (hright : s.graph.node? rhs = some right)
    (hstuck : ¬ (s.graph.IsConstant lhs ∧ s.graph.IsConstant rhs)) :
    (collapse id op lhs rhs).run s = .ok id s := by
  rw [collapse, run_bind_ok (run_nodeAt hleft), run_bind_ok (run_nodeAt hright)]
  split
  next => exact absurd ⟨⟨_, hleft⟩, ⟨_, hright⟩⟩ hstuck
  next => exact absurd ⟨⟨_, hleft⟩, ⟨_, hright⟩⟩ hstuck
  next => exact absurd ⟨⟨_, hleft⟩, ⟨_, hright⟩⟩ hstuck
  next => rfl

/-- A constant is not simplified. -/
theorem run_expr_constant {l : Literal} (h : s.graph.node? id = some (.constant l)) :
    (expr (depth + 1) id).run s = .ok id s := by
  rw [expr, run_bind_ok (run_nodeAt h)]
  rfl

/-- A variable whose value is not known is not simplified. -/
theorem run_expr_unknown {v : Variable} (h : s.graph.node? id = some (.var v))
    (hlookup : s.knowledge.lookup v.name = none) : (expr (depth + 1) id).run s = .ok id s := by
  rw [expr, run_bind_ok (run_nodeAt h)]
  dsimp only
  rw [run_get_bind, hlookup]
  rfl

/-- If two operands stay as a list, each of them stays. -/
theorem run_pair_stays {f : NodeId → PropagateM NodeId} {lhs rhs : NodeId}
    (h : ([lhs, rhs].mapM f).run s = .ok [lhs, rhs] t) :
    ∃ u, (f lhs).run s = .ok lhs u ∧ (f rhs).run u = .ok rhs t := by
  obtain ⟨_, u, _, hleft, hrest, hcons⟩ := run_mapM_cons_eq_ok.1 h
  cases hcons
  obtain ⟨_, w, _, hright, hnil, hcons⟩ := run_mapM_cons_eq_ok.1 hrest
  cases hcons
  cases hnil
  exact ⟨u, hleft, hright⟩

/-- If a list of one node stays, the node does. -/
theorem run_singleton_stays {f : NodeId → PropagateM NodeId} (h : ([id].mapM f).run s = .ok [id] t) :
    (f id).run s = .ok id t := by
  obtain ⟨_, u, _, hid, hnil, hcons⟩ := run_mapM_cons_eq_ok.1 h
  cases hcons
  cases hnil
  exact hid

/-- An operation whose operands stay, not both of them constants, stays. -/
theorem run_expr_arithmetic {op : ArithOp} {lhs rhs : NodeId} {left right : Node}
    (h : s.graph.node? id = some (.arithmetic op lhs rhs))
    (hoperands : ([lhs, rhs].mapM (expr depth)).run s = .ok [lhs, rhs] t) (hgraph : t.graph = s.graph)
    (hleft : s.graph.node? lhs = some left) (hright : s.graph.node? rhs = some right)
    (hstuck : ¬ (s.graph.IsConstant lhs ∧ s.graph.IsConstant rhs)) :
    (expr (depth + 1) id).run s = .ok id t := by
  obtain ⟨u, hl, hr⟩ := run_pair_stays hoperands
  rw [expr, run_bind_ok (run_nodeAt h)]
  dsimp only
  rw [run_bind_ok hl, run_bind_ok hr, run_bind_ok (run_update_self id _)]
  rw [← hgraph] at hleft hright hstuck
  exact run_collapse_stuck hleft hright hstuck

/-- A call whose arguments stay stays. -/
theorem run_expr_call {name : String} {args : List NodeId} {returns : Kind}
    (h : s.graph.node? id = some (.call name args returns))
    (hargs : (args.mapM (expr depth)).run s = .ok args t) :
    (expr (depth + 1) id).run s =
      .ok id { t with knowledge := t.knowledge.behindCall t.functions[name]? } := by
  rw [expr, run_bind_ok (run_nodeAt h)]
  dsimp only
  rw [run_bind_ok hargs, run_bind_ok (run_update_self id _), run_get_bind]
  cases t.functions[name]? <;> rfl

/-- Simplifying a statement succeeds if its steps do. -/
theorem run_statement_of_steps (h : StatementRun depth id s t) :
    (statement (depth + 1) id).run s = .ok () t := by
  rw [statement]
  dsimp only
  cases h with
  | assign hnode htarget hvalue hupdate hlearn =>
    rw [run_bind_ok (run_nodeAt hnode)]
    dsimp only
    rw [run_bind_ok (run_targetName htarget), run_bind_ok hvalue, run_bind_ok hupdate]
    exact hlearn
  | updateElement hnode hvalue hupdate htarget =>
    rw [run_bind_ok (run_nodeAt hnode)]
    dsimp only
    rw [run_bind_ok (run_targetName htarget), run_bind_ok hvalue, run_bind_ok hupdate]
    exact run_modifyKnowledge _
  | @ifElse _ _ _ _ _ s₃ names hnode hcond hthen helse hassigned =>
    have hcollect := run_assignedIn (s := { s₃ with knowledge := s₃.knowledge.closeFrame }) hassigned
    rw [run_bind_ok (run_nodeAt hnode)]
    dsimp only
    rw [run_bind_ok hcond, run_bind_ok (run_inFrame hthen), run_bind_ok (run_inFrame helse),
      run_bind_ok hcollect]
    exact run_forget names
  | @whileLoop _ _ _ _ names hnode hassigned hcond hround =>
    rw [run_bind_ok (run_nodeAt hnode)]
    dsimp only
    rw [run_bind_ok (run_assignedIn hassigned), run_bind_ok (run_forget names),
      run_bind_ok hcond, run_bind_ok (run_inFrame hround)]
    exact run_forget names
  | functionDef hnode hbody hassigned =>
    rw [run_bind_ok (run_nodeAt hnode)]
    dsimp only
    rw [run_bind_ok (run_assignedIn hassigned), run_bind_ok (run_noteFunction _ _)]
    exact run_fromNothing hbody
  | debug hnode =>
    rw [run_bind_ok (run_nodeAt hnode)]
    rfl

end PropagateM

/-! ## Evaluables -/

namespace Graph

open PropagateM

variable {g g' : Graph} {S : NodeId → Prop} {ids ids' : List NodeId} {id : NodeId} {d : Nat}
  {f f' : NameMap NameSet} {k k' : Knowledge}

/-- Rewriting puts constants into slots. -/
theorem Rewrites.substitutes (h : Rewrites S g g') : Substitutes (fun _ _ => True) g g' := by
  refine ⟨fun hnode => ?_⟩
  obtain ⟨node', hnode', hamends⟩ := h.kept hnode
  refine ⟨node', hnode', hamends.mono fun c c' hslot => ?_⟩
  rcases hslot with rfl | ⟨-, ⟨l, hl⟩, -⟩
  · exact .inl rfl
  · exact .inr ⟨l, hl, trivial⟩

/-- The bound for a list with a member is not used up. -/
theorem Within.cons_cases (h : ∀ c ∈ id :: ids, g.Within d c) :
    ∃ e, d = e + 1 ∧ g.Within (e + 1) id ∧ ∀ c ∈ ids, g.Within (e + 1) c := by
  obtain ⟨hid, hids⟩ := List.forall_mem_cons.1 h
  cases d with
  | zero => cases hid
  | succ d => exact ⟨d, rfl, hid, hids⟩

/-- What is used in the place of evaluables stays when it is simplified from the same knowledge. -/
theorem ExprTrace.rerun (h : g.ExprTrace g' f k ids k' ids') (hr : Rewrites S g g')
    (hd : ∀ c ∈ ids', g'.Within d c) (stats : PropagationStats) :
    (ids'.mapM (expr d)).run ⟨g', k, f, stats⟩ = .ok ids' ⟨g', k', f, stats⟩ := by
  induction h generalizing d with
  | nil => rfl
  | constant node _ ih =>
    obtain ⟨d, rfl, -, hids⟩ := Within.cons_cases hd
    exact run_mapM_stays (run_expr_constant (hr.leaf rfl node)) (ih hids)
  | unknown node lookup _ ih =>
    obtain ⟨d, rfl, -, hids⟩ := Within.cons_cases hd
    exact run_mapM_stays (run_expr_unknown (hr.leaf rfl node) lookup) (ih hids)
  | known _ _ new _ ih =>
    obtain ⟨d, rfl, -, hids⟩ := Within.cons_cases hd
    exact run_mapM_stays (run_expr_constant new) (ih hids)
  | computed _ operands _ hleft hright new _ _ ih =>
    obtain ⟨d, rfl, -, hids⟩ := Within.cons_cases hd
    -- an operation that was computed has called no functions
    have hknowledge := operands.knowledge_eq (by simp [IsConstant, hleft, hright])
    rw [hknowledge] at ih
    exact run_mapM_stays (run_expr_constant new) (ih hids)
  | @arithmetic k k₁ k' id ids ids' op lhs rhs left right _ _ final stuck _ ihoperands ih =>
    obtain ⟨d, rfl, hid, hids⟩ := Within.cons_cases hd
    have hbelow : ∀ c ∈ [left, right], g'.Within d c := fun c hc => hid.child final hc
    obtain ⟨leftNode, hleft⟩ := (hbelow left (by simp)).exists_node
    obtain ⟨rightNode, hright⟩ := (hbelow right (by simp)).exists_node
    exact run_mapM_stays (run_expr_arithmetic final (ihoperands hbelow) rfl hleft hright stuck) (ih hids)
  | call _ _ final _ ihargs ih =>
    obtain ⟨d, rfl, hid, hids⟩ := Within.cons_cases hd
    have hargs := ihargs fun c hc => hid.child final hc
    exact run_mapM_stays (run_expr_call final hargs) (ih hids)

/-- A comparison stays. -/
theorem TestTrace.rerun (h : g.TestTrace g' f k id k') (hr : Rewrites S g g') (hd : g'.Within (d + 1) id)
    (stats : PropagationStats) :
    (condition d id).run ⟨g', k, f, stats⟩ = .ok () ⟨g', k', f, stats⟩ := by
  obtain ⟨op, lhs, rhs, left, right, -, operands, final⟩ := h
  have hoperands := operands.rerun hr (fun c hc => hd.child final hc) stats
  obtain ⟨s, hleft, hright⟩ := run_pair_stays hoperands
  rw [condition, run_bind_ok (run_nodeAt final)]
  dsimp only
  rw [run_bind_ok hleft, run_bind_ok hright]
  exact run_update_self id _

end Graph

/-! ## Programs without sharing -/

/-- No node is shared, and all that can be reached is there. -/
structure Program.Whole (p : Program) : Prop where
  unshared : p.Unshared
  exists_node : ∀ {a}, p.Reachable a → ∃ node, p.graph.node? a = some node

theorem Node.map_id (node : Node) : node.map id = node := by
  cases node <;> simp [Node.map]

namespace Program.Whole

open RegisterBackend.Graph

variable {p : Program} {a : NodeId} {g' : Graph} {S : NodeId → Prop}

/-- All paths end that cannot come back to the nodes seen so far. -/
theorem grounded_of_unseen (h : p.Whole) (seen : List NodeId) (ha : p.Reachable a)
    (hseen : ∀ b ∈ seen, ¬ p.graph.Reaches a b) : p.graph.Grounded a := by
  induction hn : p.graph.unseen seen using Nat.strong_induction_on generalizing seen a with
  | _ n ih =>
    obtain ⟨node, hnode⟩ := h.exists_node ha
    have hlt := unseen_cons_lt hnode fun hmem => hseen a hmem .refl
    refine .intro hnode fun c hc => ?_
    have hchild : p.graph.Child a c := ⟨node, hnode, hc⟩
    have hseen' : ∀ b ∈ a :: seen, ¬ p.graph.Reaches c b := List.forall_mem_cons.2
      ⟨h.unshared.not_reaches ha hchild, fun b hb hcb => hseen b hb (.head hchild hcb)⟩
    exact ih _ (hn ▸ hlt) (a :: seen) (ha.child hchild) hseen' rfl

theorem grounded (h : p.Whole) (ha : p.Reachable a) : p.graph.Grounded a :=
  h.grounded_of_unseen [] ha nofun

/-- All paths end when the program has been rewritten, too. -/
theorem within (h : p.Whole) (hr : Rewrites S p.graph g') (ha : p.Reachable a) :
    g'.Within g'.depth a :=
  (hr.substitutes.within (h.grounded ha).within).mono (Nat.le_succ_of_le hr.substitutes.size_le)

/-- The program is an unfolding of itself. -/
theorem unfolding (h : p.Whole) : Unfolding id p p where
  body := (List.map_id _).symm
  node ha := by
    obtain ⟨node, hnode⟩ := h.exists_node ha
    exact ⟨node, hnode, hnode.trans (by rw [Node.map_id])⟩
  tree := h.unshared

/-- The names that a block assigns are the same when the program has been rewritten. -/
theorem assignedIn_eq (h : p.Whole) (hr : Rewrites (fun _ => True) p.graph g') {f : NameMap NameSet}
    {ids : List NodeId} {names : NameSet} (hnames : p.graph.Assigns f ids names)
    (hids : ∀ c ∈ ids, p.Reachable c) {d : Nat} (hd : ∀ c ∈ ids, g'.Within d c) :
    g'.assignedIn f d ids = .ok names := by
  obtain ⟨names', hnames'⟩ := exists_assignedIn f hd
  rw [hnames', h.unfolding.assigns_eq hnames hr hids (by rwa [List.map_id])]

end Program.Whole

/-! ## Statements -/

namespace Graph

open PropagateM

variable {p : Program} {g' : Graph} {ids : List NodeId} {d : Nat} {f f' : NameMap NameSet}
  {k k' : Knowledge}

/-- The blocks of a statement are below it, in both graphs. -/
theorem block_below {id : NodeId} {node : Node} {block : List NodeId} (hreach : p.Reachable id)
    (hid : g'.Within (d + 1) id) (hnode : p.graph.node? id = some node)
    (hfinal : g'.node? id = some node) (hblock : block ⊆ node.children) :
    (∀ c ∈ block, p.Reachable c) ∧ ∀ c ∈ block, g'.Within d c :=
  ⟨fun _ hc => hreach.child ⟨node, hnode, hblock hc⟩, fun _ hc => hid.child hfinal (hblock hc)⟩

/-- Statements stay when they are simplified from the same knowledge, and then the same is known. -/
theorem BlockTrace.rerun (h : p.graph.BlockTrace g' k f ids k' f') (hp : p.Whole)
    (hr : Rewrites (fun _ => True) p.graph g') (hids : ∀ c ∈ ids, p.Reachable c)
    (hd : ∀ c ∈ ids, g'.Within d c) (stats : PropagationStats) :
    (ids.forM (statement d)).run ⟨g', k, f, stats⟩ = .ok () ⟨g', k', f', stats⟩ := by
  induction h generalizing d with
  | nil => rfl
  | @assign k k₁ k' f f' id ids target value value' v _ var hvalue final _ ih =>
    obtain ⟨d, rfl, hid, hrest⟩ := Within.cons_cases hd
    have hbelow : g'.Within d value' := hid.child final (by simp [Node.children])
    obtain ⟨node, hnode⟩ := hbelow.exists_node
    have hstays := run_singleton_stays (hvalue.rerun hr (by simpa using hbelow) stats)
    have hhead := run_statement_of_steps
      (.assign final (hr.leaf rfl var) hstays (run_update_self id _) (run_learn hnode))
    exact run_forM_cons_eq_ok.2 ⟨_, hhead, ih (List.forall_mem_cons.1 hids).2 hrest⟩
  | @updateElement k k₁ k' f f' id ids target index value value' v _ var hvalue final _ ih =>
    obtain ⟨d, rfl, hid, hrest⟩ := Within.cons_cases hd
    have hbelow : g'.Within d value' := hid.child final (by simp [Node.children])
    have hstays := run_singleton_stays (hvalue.rerun hr (by simpa using hbelow) stats)
    have hhead := run_statement_of_steps
      (.updateElement final hstays (run_update_self id _) (hr.leaf rfl var))
    exact run_forM_cons_eq_ok.2 ⟨_, hhead, ih (List.forall_mem_cons.1 hids).2 hrest⟩
  | @ifElse k k₁ k₂ k₃ k' f f₂ f₃ f' id ids cond thenBlock elseBlock names node test _ _ hnames final _
      ihthen ihelse ih =>
    obtain ⟨d, rfl, hid, hrest⟩ := Within.cons_cases hd
    obtain ⟨hreach, hids⟩ := List.forall_mem_cons.1 hids
    obtain ⟨hreach', hbelow⟩ := block_below hreach hid node final (List.subset_cons_self ..)
    obtain ⟨hreachThen, hreachElse⟩ := List.forall_mem_append.1 hreach'
    obtain ⟨hbelowThen, hbelowElse⟩ := List.forall_mem_append.1 hbelow
    have hcond := test.rerun hr ((hid.child final List.mem_cons_self).mono (Nat.le_succ d)) stats
    have hassigned := hp.assignedIn_eq hr hnames hreach' hbelow
    have hhead := run_statement_of_steps (.ifElse final hcond (ihthen hreachThen hbelowThen)
      (ihelse hreachElse hbelowElse) hassigned)
    exact run_forM_cons_eq_ok.2 ⟨_, hhead, ih hids hrest⟩
  | @whileLoop k k₁ k₂ k' f f₂ f' id ids cond body names node hnames test _ final _ ihbody ih =>
    obtain ⟨d, rfl, hid, hrest⟩ := Within.cons_cases hd
    obtain ⟨hreach, hids⟩ := List.forall_mem_cons.1 hids
    obtain ⟨hreach', hbelow⟩ := block_below hreach hid node final (List.subset_cons_self ..)
    have hassigned := hp.assignedIn_eq hr hnames hreach' hbelow
    have hcond := test.rerun hr ((hid.child final List.mem_cons_self).mono (Nat.le_succ d)) stats
    have hhead := run_statement_of_steps (s := ⟨g', k, f, stats⟩)
      (.whileLoop final hassigned hcond (ihbody hreach' hbelow))
    exact run_forM_cons_eq_ok.2 ⟨_, hhead, ih hids hrest⟩
  | @functionDef k k₁ k' f f₁ f' id ids name params body returns names node hnames _ final _ ihbody ih =>
    obtain ⟨d, rfl, hid, hrest⟩ := Within.cons_cases hd
    obtain ⟨hreach, hids⟩ := List.forall_mem_cons.1 hids
    obtain ⟨hreach', hbelow⟩ := block_below hreach hid node final (List.subset_append_right ..)
    have hassigned := hp.assignedIn_eq hr hnames hreach' hbelow
    have hhead := run_statement_of_steps (s := ⟨g', k, f, stats⟩)
      (.functionDef final (ihbody hreach' hbelow) hassigned)
    exact run_forM_cons_eq_ok.2 ⟨_, hhead, ih hids hrest⟩
  | debug node _ ih =>
    obtain ⟨d, rfl, -, hrest⟩ := Within.cons_cases hd
    exact run_forM_cons_eq_ok.2 ⟨_, run_statement_of_steps (.debug (hr.leaf rfl node)),
      ih (List.forall_mem_cons.1 hids).2 hrest⟩

end Graph

/-! ## Programs -/

namespace PropagateM

open RegisterBackend.Graph (Rewrites)

/-- Only statements can be simplified as statements. -/
theorem isStatement_of_run {id : NodeId} {depth : Nat} {s t : Propagation}
    (h : (statement depth id).run s = .ok () t) :
    ∃ node, s.graph.node? id = some node ∧ node.isStatement = true := by
  cases depth with
  | zero => cases h
  | succ depth => cases run_statement_ok h <;> exact ⟨_, ‹_›, rfl⟩

/-- Statements that are simplified were there before anything was rewritten. -/
theorem exists_node_of_block {ids : List NodeId} {depth : Nat} {s t : Propagation} {g : Graph}
    (h : (ids.forM (statement depth)).run s = .ok () t) (hr : Rewrites (fun _ => True) g s.graph) :
    ∀ id ∈ ids, ∃ node, g.node? id = some node := by
  induction ids generalizing s with
  | nil => exact nofun
  | cons id ids ih =>
    obtain ⟨u, hid, hids⟩ := run_forM_cons_eq_ok.1 h
    have hrest := ih hids (hr.trans (statement_rewrites hid (.all _ _)))
    refine List.forall_mem_cons.2 ⟨?_, hrest⟩
    obtain ⟨node, hnode, hstatement⟩ := isStatement_of_run hid
    cases hold : g.node? id with
    | some old => exact ⟨old, rfl⟩
    | none =>
      -- what has been added is a constant
      obtain ⟨l, rfl⟩ := hr.fresh hold hnode
      cases hstatement

end PropagateM

namespace Program

open RegisterBackend.Graph (Rewrites)

variable {p : Program} {s : Propagation}

/-- A program without sharing through which constants could be propagated refers to nodes of its
graph only. -/
theorem whole_of_propagate (hbuilt : p.graph.Built) (hunshared : p.Unshared)
    (h : p.propagate = .ok () s) : p.Whole where
  unshared := hunshared
  exists_node := by
    rintro a ⟨root, hroot, hpath⟩
    have hstart := PropagateM.exists_node_of_block h (.refl _ _) root hroot
    induction hpath with
    | refl => exact hstart
    | tail _ hchild =>
      obtain ⟨node, hnode, hc⟩ := hchild
      exact Graph.node?_eq_some_of_lt (hbuilt.index_lt hnode hc)

/-- In a program without sharing, constant propagation leaves nothing to do. A second run succeeds,
computes no operation and replaces no variable. It leaves the graph with its edges and the body as
they are, and ends with the knowledge of the first run and the same notes of functions. -/
theorem propagate_again (hbuilt : p.graph.Built) (hunshared : p.Unshared)
    (h : p.propagate = .ok () s) :
    ({ p with graph := s.graph } : Program).propagate = .ok () { s with stats := ⟨0, 0⟩ } ∧
    ({ p with graph := s.graph } : Program).optimize = .ok ⟨0, 0⟩ { p with graph := s.graph } := by
  have hwhole := whole_of_propagate hbuilt hunshared h
  have hr := PropagateM.forM_statement_rewrites h
  have htrace := PropagateM.block_traced p.graph s.graph _ p.body _ _ h
    ⟨hunshared.separated, .refl _ _, fun _ _ _ h => h⟩ (fun _ hn => hwhole.exists_node hn)
    (fun _ _ _ hnode => hnode)
  have hbody : ∀ id ∈ p.body, p.Reachable id := fun id hid => ⟨id, hid, .refl⟩
  have hagain : ({ p with graph := s.graph } : Program).propagate =
      .ok () { s with stats := ⟨0, 0⟩ } :=
    htrace.rerun hwhole hr hbody (fun id hid => hwhole.within hr (hbody id hid)) ⟨0, 0⟩
  refine ⟨hagain, ?_⟩
  rw [optimize, hagain]

/-- A function, an array, a call and a loop, behind assignments of known values:
`def f() (y = 2 + 3); x = 4; a = [1, 2]; a[0] = x; z = x + f(); while (x > y) x = x - 1`. -/
def loopBehindCall : Program :=
  ⟨.ofNodes [.constant (.scalar 2), .constant (.scalar 3), .arithmetic .add ⟨0⟩ ⟨1⟩, .var (.scalar "y"),
    .assign ⟨3⟩ ⟨2⟩, .functionDef "f" [] [⟨4⟩] .scalar,
    .constant (.scalar 4), .var (.scalar "x"), .assign ⟨7⟩ ⟨6⟩,
    .constant (.array [1, 2]), .var (.array "a" 2), .assign ⟨10⟩ ⟨9⟩,
    .var (.scalar "x"), .updateElement ⟨10⟩ 0 ⟨12⟩,
    .call "f" [] .scalar, .arithmetic .add ⟨7⟩ ⟨14⟩, .var (.scalar "z"), .assign ⟨16⟩ ⟨15⟩,
    .comparison .greater ⟨7⟩ ⟨3⟩, .constant (.scalar 1), .arithmetic .sub ⟨7⟩ ⟨19⟩, .assign ⟨7⟩ ⟨20⟩,
    .whileLoop ⟨18⟩ [⟨21⟩]],
  [⟨5⟩, ⟨8⟩, ⟨11⟩, ⟨13⟩, ⟨17⟩, ⟨22⟩]⟩

/-- Propagation changes the program three times, and not at all when it is repeated. -/
theorem propagate_again_loopBehindCall : loopBehindCall.graph.Built ∧ loopBehindCall.Unshared ∧
    ∃ s, loopBehindCall.propagate = .ok () s ∧ s.stats = ⟨1, 2⟩ ∧ s.graph ≠ loopBehindCall.graph ∧
      ({ loopBehindCall with graph := s.graph } : Program).propagate =
        .ok () { s with stats := ⟨0, 0⟩ } ∧
      ({ loopBehindCall with graph := s.graph } : Program).optimize =
        .ok ⟨0, 0⟩ { loopBehindCall with graph := s.graph } := by
  have hbuilt : loopBehindCall.graph.Built := by
    dsimp only [loopBehindCall]
    exact Graph.built_ofNodes _
  have hunshared : loopBehindCall.Unshared := unshared_of_nodup (by decide +kernel)
  have hruns : ∃ u s, loopBehindCall.propagate = .ok u s ∧ s.stats = ⟨1, 2⟩ ∧
      s.graph ≠ loopBehindCall.graph := by decide +kernel
  obtain ⟨u, s, hrun, hstats, hchanged⟩ := hruns
  exact ⟨hbuilt, hunshared, s, hrun, hstats, hchanged, propagate_again hbuilt hunshared hrun⟩

end Program

end RegisterBackend
