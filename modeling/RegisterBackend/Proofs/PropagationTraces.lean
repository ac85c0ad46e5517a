import RegisterBackend.Proofs.PropagatedTrees

/-!
# Traces of constant propagation

In a program without sharing, constant propagation comes to each node once. So all that it does with
a node can be read off two graphs, the one in the beginning and the one in the end, whatever it has
done elsewhere meanwhile. `Graph.ExprTrace` and `Graph.BlockTrace` say what simplifying a list of
evaluables or of statements amounts to in these terms, with what is known and what is noted of
functions on the way. `PropagateM.exprs_traced` and `PropagateM.block_traced` say that simplifying
does leave such a trace; unlike the trees of `PropagateM.block_folds`, traces are there for every
statement that can be simplified, those that cannot be lowered included.
-/

namespace RegisterBackend

/-- What is known behind the assignment of a node to a name. -/
def Knowledge.learn (k : Knowledge) (name : String) : Option Node → Knowledge
  | some (.constant l) => k.record name l
  | _ => k.invalidate name

/-- From a node that is no constant, it is learned that the value is not known. -/
theorem Knowledge.learn_eq_invalidate (k : Knowledge) {g : Graph} {id : NodeId} {name : String}
    (hnot : ¬ g.IsConstant id) : k.learn name (g.node? id) = k.invalidate name := by
  cases hnode : g.node? id with
  | none => rfl
  | some node =>
    cases node with
    | constant l => exact absurd ⟨l, hnode⟩ hnot
    | _ => rfl

namespace Graph

variable {g g' g₀ g₁ : Graph} {S T : NodeId → Prop} {ids ids' : List NodeId} {id c c' : NodeId}
  {node : Node}

/-! ## Traces -/

/-- The names that the statements may assign in a graph that came about by rewriting. -/
def Assigns (g : Graph) (functions : NameMap NameSet) (ids : List NodeId) (names : NameSet) : Prop :=
  ∃ g₁ depth, Rewrites (fun _ => True) g g₁ ∧ g₁.assignedIn functions depth ids = .ok names

/-- What simplifying evaluables one after the other amounts to, where the first graph is the one in
the beginning and the second one that in the end. The lists have the evaluables and what is used in
their place. -/
inductive ExprTrace (g g' : Graph) (functions : NameMap NameSet) :
    Knowledge → List NodeId → Knowledge → List NodeId → Prop
  | nil {k} : ExprTrace g g' functions k [] k []
  | constant {k k' id ids ids' l} (node : g.node? id = some (.constant l))
    (rest : ExprTrace g g' functions k ids k' ids') :
    ExprTrace g g' functions k (id :: ids) k' (id :: ids')
  | unknown {k k' id ids ids' v} (node : g.node? id = some (.var v))
    (lookup : k.lookup v.name = none) (rest : ExprTrace g g' functions k ids k' ids') :
    ExprTrace g g' functions k (id :: ids) k' (id :: ids')
  | known {k k' id id' ids ids' v l} (node : g.node? id = some (.var v))
    (lookup : k.lookup v.name = some l) (new : g'.node? id' = some (.constant l))
    (rest : ExprTrace g g' functions k ids k' ids') :
    ExprTrace g g' functions k (id :: ids) k' (id' :: ids')
  | computed {k k₁ k' id id' ids ids' op lhs rhs left right a b}
    (node : g.node? id = some (.arithmetic op lhs rhs))
    (operands : ExprTrace g g' functions k [lhs, rhs] k₁ [left, right])
    (final : g'.node? id = some (.arithmetic op left right))
    (hleft : g'.node? left = some (.constant (.scalar a)))
    (hright : g'.node? right = some (.constant (.scalar b)))
    (new : g'.node? id' = some (.constant (.scalar (op.apply a b))))
    (rest : ExprTrace g g' functions k₁ ids k' ids') :
    ExprTrace g g' functions k (id :: ids) k' (id' :: ids')
  | arithmetic {k k₁ k' id ids ids' op lhs rhs left right}
    (node : g.node? id = some (.arithmetic op lhs rhs))
    (operands : ExprTrace g g' functions k [lhs, rhs] k₁ [left, right])
    (final : g'.node? id = some (.arithmetic op left right))
    (stuck : ¬ (g'.IsConstant left ∧ g'.IsConstant right))
    (rest : ExprTrace g g' functions k₁ ids k' ids') :
    ExprTrace g g' functions k (id :: ids) k' (id :: ids')
  | call {k k₁ k' id ids ids' name args args' returns}
    (node : g.node? id = some (.call name args returns))
    (hargs : ExprTrace g g' functions k args k₁ args')
    (final : g'.node? id = some (.call name args' returns))
    (rest : ExprTrace g g' functions (k₁.behindCall functions[name]?) ids k' ids') :
    ExprTrace g g' functions k (id :: ids) k' (id :: ids')

/-- What simplifying a comparison amounts to. -/
def TestTrace (g g' : Graph) (functions : NameMap NameSet) (k : Knowledge) (id : NodeId)
    (k' : Knowledge) : Prop :=
  ∃ op lhs rhs left right, g.node? id = some (.comparison op lhs rhs) ∧
    ExprTrace g g' functions k [lhs, rhs] k' [left, right] ∧
    g'.node? id = some (.comparison op left right)

/-- What simplifying statements one after the other amounts to. -/
inductive BlockTrace (g g' : Graph) :
    Knowledge → NameMap NameSet → List NodeId → Knowledge → NameMap NameSet → Prop
  | nil {k f} : BlockTrace g g' k f [] k f
  | assign {k k₁ k' f f' id ids target value value' v}
    (node : g.node? id = some (.assign target value)) (var : g.node? target = some (.var v))
    (hvalue : ExprTrace g g' f k [value] k₁ [value'])
    (final : g'.node? id = some (.assign target value'))
    (rest : BlockTrace g g' (k₁.learn v.name (g'.node? value')) f ids k' f') :
    BlockTrace g g' k f (id :: ids) k' f'
  | updateElement {k k₁ k' f f' id ids target index value value' v}
    (node : g.node? id = some (.updateElement target index value))
    (var : g.node? target = some (.var v)) (hvalue : ExprTrace g g' f k [value] k₁ [value'])
    (final : g'.node? id = some (.updateElement target index value'))
    (rest : BlockTrace g g' (k₁.invalidate v.name) f ids k' f') :
    BlockTrace g g' k f (id :: ids) k' f'
  | ifElse {k k₁ k₂ k₃ k' f f₂ f₃ f' id ids cond thenBlock elseBlock names}
    (node : g.node? id = some (.ifElse cond thenBlock elseBlock)) (test : TestTrace g g' f k cond k₁)
    (hthen : BlockTrace g g' k₁.openFrame f thenBlock k₂ f₂)
    (helse : BlockTrace g g' k₂.closeFrame.openFrame f₂ elseBlock k₃ f₃)
    (hnames : g.Assigns f₃ (thenBlock ++ elseBlock) names)
    (final : g'.node? id = some (.ifElse cond thenBlock elseBlock))
    (rest : BlockTrace g g' (k₃.closeFrame.invalidateAll names.toList) f₃ ids k' f') :
    BlockTrace g g' k f (id :: ids) k' f'
  | whileLoop {k k₁ k₂ k' f f₂ f' id ids cond body names}
    (node : g.node? id = some (.whileLoop cond body)) (hnames : g.Assigns f body names)
    (test : TestTrace g g' f (k.invalidateAll names.toList) cond k₁)
    (hbody : BlockTrace g g' k₁.openFrame f body k₂ f₂)
    (final : g'.node? id = some (.whileLoop cond body))
    (rest : BlockTrace g g' (k₂.closeFrame.invalidateAll names.toList) f₂ ids k' f') :
    BlockTrace g g' k f (id :: ids) k' f'
  | functionDef {k k₁ k' f f₁ f' id ids name params body returns names}
    (node : g.node? id = some (.functionDef name params body returns))
    (hnames : g.Assigns f body names)
    (hbody : BlockTrace g g' .empty (PropagateM.noted f name names) body k₁ f₁)
    (final : g'.node? id = some (.functionDef name params body returns))
    (rest : BlockTrace g g' k f₁ ids k' f') : BlockTrace g g' k f (id :: ids) k' f'
  | debug {k k' f f' id ids text} (node : g.node? id = some (.debug text))
    (rest : BlockTrace g g' k f ids k' f') : BlockTrace g g' k f (id :: ids) k' f'

namespace ExprTrace

variable {functions : NameMap NameSet} {k k' : Knowledge}

/-- What is used in the place of an evaluable is the evaluable itself or a constant. -/
theorem slots (h : ExprTrace g g' functions k ids k' ids') :
    List.Forall₂ (fun c c' => c' = c ∨ g'.IsConstant c') ids ids' := by
  induction h with
  | nil => exact .nil
  | constant _ _ ih | unknown _ _ _ ih | arithmetic _ _ _ _ _ _ ih | call _ _ _ _ _ ih =>
    exact .cons (.inl rfl) ih
  | known _ _ new _ ih | computed _ _ _ _ _ new _ _ ih => exact .cons (.inr ⟨_, new⟩) ih

/-- Evaluables that become constants call no functions, so nothing is forgotten. -/
theorem knowledge_eq (h : ExprTrace g g' functions k ids k' ids')
    (hconst : ∀ c ∈ ids', g'.IsConstant c) : k' = k := by
  induction h with
  | nil => rfl
  | constant _ _ ih | known _ _ _ _ ih => exact ih (List.forall_mem_cons.1 hconst).2
  | unknown _ _ _ ih => exact ih (List.forall_mem_cons.1 hconst).2
  | computed _ _ _ hleft hright _ _ ihoperands ih =>
    rw [ih (List.forall_mem_cons.1 hconst).2]
    exact ihoperands (by simp [IsConstant, hleft, hright])
  | arithmetic _ _ final | call _ _ final =>
    obtain ⟨l, hl⟩ := hconst _ List.mem_cons_self
    cases final.symm.trans hl

end ExprTrace

/-! ## Parts that stay -/

/-- Every node below the listed ones is in the graph. -/
def Closed (g : Graph) (ids : List NodeId) : Prop :=
  ∀ n, g.Under ids n → ∃ node, g.node? n = some node

theorem Closed.mono (h : g.Closed ids) (hsub : ids' ⊆ ids) : g.Closed ids' :=
  fun n hn => h n (hn.mono hsub)

theorem Closed.children (h : g.Closed ids) (hid : id ∈ ids) (hnode : g.node? id = some node) :
    g.Closed node.children :=
  fun n hn => h n (.of_children hid hnode hn)

theorem Keeps.mono (h : Keeps T g g') (hST : ∀ n, S n → T n) : Keeps S g g' :=
  fun n node hn => h n node (hn.imp_left (hST n))

theorem Keeps.trans (h : Keeps S g g₁) (h' : Keeps S g₁ g') : Keeps S g g' :=
  fun n node hn hnode => h' n node hn (h n node hn hnode)

namespace Untouched

/-- A node that was not touched is the same as in the beginning. -/
theorem node?_eq_of_closed (h : Untouched g₀ ids g) (hclosed : g₀.Closed ids) (hid : id ∈ ids) :
    g₀.node? id = g.node? id := by
  obtain ⟨node, hnode⟩ := hclosed id (under_self hid)
  rw [hnode, h.node?_eq hid hnode]

/-- What is used in the place of a node is in the graph, and stays. -/
theorem exists_slot (h : Untouched g₀ ids g) (hclosed : g₀.Closed ids) (hid : id ∈ ids)
    (hr : Rewrites S g g₁) (hslot : g.Reslots g₁ id c) :
    ∃ node, g₁.node? c = some node ∧ (g₀.Under ids c ∨ node.isLeaf = true) := by
  rcases hslot with rfl | ⟨-, ⟨l, hl⟩, -⟩
  · obtain ⟨node, hnode⟩ := hclosed c (under_self hid)
    obtain ⟨node₁, hnode₁, -⟩ := hr.kept (h.node?_eq hid hnode)
    exact ⟨node₁, hnode₁, .inl (under_self hid)⟩
  · exact ⟨_, hl, .inr rfl⟩

/-- When two parts are rewritten one after the other, the first one is in the end as it was in
between. -/
theorem keeps_first (h : Untouched g₀ (ids ++ ids') g) (hr : Rewrites (g₀.Under ids) g g₁)
    {g₂ : Graph} (hr' : Rewrites (g₀.Under ids') g₁ g₂)
    (hfinal : Keeps (g₀.Under (ids ++ ids')) g₂ g') : Keeps (g₀.Under ids) g₁ g' := by
  have hkeeps : Keeps (g₀.Under ids) g₁ g₂ := h.separated.keeps (h.step hr).rewrites hr'
  exact hkeeps.trans (hfinal.mono fun _ => .mono (by simp))

end Untouched

end Graph

namespace PropagateM

open RegisterBackend.Graph

variable {s t u : Propagation} {g₀ g' : Graph} {S : NodeId → Prop} {id : NodeId} {depth : Nat}

/-- Steps on two nodes are steps on the list of both. -/
theorem run_mapM_pair {lhs rhs left right : NodeId} {f : NodeId → PropagateM NodeId}
    (hleft : (f lhs).run s = .ok left t) (hright : (f rhs).run t = .ok right u) :
    ([lhs, rhs].mapM f).run s = .ok [left, right] u :=
  run_mapM_cons_eq_ok.2 ⟨left, t, [right], hleft,
    run_mapM_cons_eq_ok.2 ⟨right, u, [], hright, rfl, rfl⟩, rfl⟩

theorem run_mapM_singleton {id' : NodeId} {f : NodeId → PropagateM NodeId}
    (h : (f id).run s = .ok id' t) : ([id].mapM f).run s = .ok [id'] t :=
  run_mapM_cons_eq_ok.2 ⟨id', t, [], h, rfl, rfl⟩

/-- What an assignment teaches, as one change of the table. -/
theorem run_learn_eq {name : String} {value : NodeId} (h : (learn name value).run s = .ok () t) :
    t = { s with knowledge := s.knowledge.learn name (s.graph.node? value) } := by
  rcases run_learn_ok h with ⟨l, hl, rfl⟩ | ⟨hnot, rfl⟩
  · rw [hl]
    rfl
  · rw [s.knowledge.learn_eq_invalidate hnot]

theorem run_update_functions {old new : Node} (h : (update id old new).run s = .ok () t) :
    t.functions = s.functions := by
  rcases run_update_ok h with ⟨-, rfl⟩ | ⟨g, -, rfl⟩ <;> rfl

/-- The notes on functions stay over a list if they do over each node. -/
theorem mapM_functions {f : NodeId → PropagateM NodeId}
    (hf : ∀ id id' s t, (f id).run s = .ok id' t → t.functions = s.functions) {ids ids' : List NodeId}
    (h : (ids.mapM f).run s = .ok ids' t) : t.functions = s.functions := by
  induction ids generalizing ids' s with
  | nil =>
    cases h
    rfl
  | cons id ids ih =>
    obtain ⟨id', u, rest, hid, hids, -⟩ := run_mapM_cons_eq_ok.1 h
    exact (ih hids).trans (hf _ _ _ _ hid)

/-- Simplifying an evaluable notes nothing of functions. -/
theorem expr_functions {id' : NodeId} (h : (expr depth id).run s = .ok id' t) :
    t.functions = s.functions := by
  induction depth generalizing id id' s t with
  | zero => cases h
  | succ depth ih =>
    cases run_expr_ok h with
    | constant | unknown | known => rfl
    | arithmetic _ hleft hright hupdate hcollapse =>
      have hoperands := ((run_update_functions hupdate).trans (ih hright)).trans (ih hleft)
      rcases run_collapse_ok hcollapse with ⟨_, _, _, -, -, -, -, -, hf⟩ | ⟨-, -, rfl⟩
      · exact hf.trans hoperands
      · exact hoperands
    | call _ hargs hupdate =>
      exact (run_update_functions hupdate).trans (mapM_functions (fun _ _ _ _ => ih) hargs)

/-- Simplifying a comparison notes nothing of functions. -/
theorem condition_functions (h : (condition depth id).run s = .ok () t) :
    t.functions = s.functions := by
  obtain ⟨_, _, _, _, _, s₁, s₂, -, hleft, hright, hupdate⟩ := run_condition_ok h
  exact ((run_update_functions hupdate).trans (expr_functions hright)).trans (expr_functions hleft)

/-- Computing an operation changes no nodes. -/
theorem collapse_keeps {lhs rhs id' : NodeId} {op : ArithOp}
    (h : (collapse id op lhs rhs).run s = .ok id' t) : Keeps S s.graph t.graph := by
  rcases run_collapse_ok h with ⟨_, _, g, -, -, hadd, rfl, -⟩ | ⟨-, -, rfl⟩
  · exact fun n node _ hn => (Rewrites.add (S := fun _ => False) hadd).1.off (fun h => h) hn
  · exact fun n node _ hn => hn

/-! ## Evaluables -/

/-- Simplifying evaluables leaves a trace. -/
def ExprsTraced (g₀ g' : Graph) (depth : Nat) : Prop :=
  ∀ ids ids' s t, (ids.mapM (expr depth)).run s = .ok ids' t → Untouched g₀ ids s.graph →
    g₀.Closed ids → Keeps (g₀.Under ids) t.graph g' →
      ExprTrace g₀ g' s.functions s.knowledge ids t.knowledge ids'

/-- Simplifying the slots of a node, and then exchanging the node, leaves a trace. -/
theorem ExprsTraced.slots (ih : ExprsTraced g₀ g' depth) {ids ids' : List NodeId} {old new : Node}
    {s₁ s₂ : Propagation} (hrun : (ids.mapM (expr depth)).run s = .ok ids' s₁)
    (hupdate : (update id old new).run s₁ = .ok () s₂) (hg : Untouched g₀ [id] s.graph)
    (hclosed : g₀.Closed [id]) (node : g₀.node? id = some old) (hleaf : old.isLeaf = false)
    (hsub : ids.Sublist old.children) (hkeeps : Keeps (g₀.Under [id]) s₂.graph g') :
    ExprTrace g₀ g' s.functions s.knowledge ids s₁.knowledge ids' ∧ s₂.knowledge = s₁.knowledge ∧
      g'.node? id = some new ∧
      List.Forall₂ (fun _ c' => s₂.graph.node? c' = g'.node? c') ids ids' := by
  have hparts : Untouched g₀ ids s.graph := (hg.children List.mem_cons_self node).sublist hsub
  have hclosed' : g₀.Closed ids := (hclosed.children List.mem_cons_self node).mono hsub.subset
  have hbelow : ∀ n, g₀.Under ids n → g₀.Under old.children n := fun _ => .mono hsub.subset
  obtain ⟨hr, hslots⟩ := (expr_confined depth).mapM hrun fun c hc => hparts.covers hc
  obtain ⟨hnew, hkept, hk⟩ := update_keeps hupdate
    (hg.node_of_rewrites List.mem_cons_self node (hr.mono hbelow)) hleaf
    (hg.separated.not_under_children List.mem_cons_self node)
  have hkept' : Keeps (g₀.Under ids) s₁.graph s₂.graph := hkept.mono hbelow
  have hfinal : Keeps (g₀.Under ids) s₂.graph g' :=
    hkeeps.mono fun n hn => .of_children List.mem_cons_self node (hbelow n hn)
  refine ⟨ih _ _ _ _ hrun hparts hclosed' (hkept'.trans hfinal), hk,
    hkeeps _ _ (.inl (under_self List.mem_cons_self)) hnew, ?_⟩
  refine ((List.forall₂_and_left _ _).2 ⟨fun _ hc => hc, hslots⟩).imp ?_
  rintro c c' ⟨hc, hslot⟩
  obtain ⟨n, hn, hstays⟩ := hparts.exists_slot hclosed' hc hr hslot
  rw [hfinal _ _ hstays (hkept' _ _ hstays hn), hkept' _ _ hstays hn]

/-- Simplifying an evaluable leaves a trace, which goes on with what comes behind it. -/
theorem ExprsTraced.cons (ih : ExprsTraced g₀ g' depth) {id' : NodeId}
    (h : (expr (depth + 1) id).run s = .ok id' t) (hg : Untouched g₀ [id] s.graph)
    (hclosed : g₀.Closed [id]) (hkeeps : Keeps (g₀.Under [id]) t.graph g') {ids ids' : List NodeId}
    {k : Knowledge} (rest : ExprTrace g₀ g' s.functions t.knowledge ids k ids') :
    ExprTrace g₀ g' s.functions s.knowledge (id :: ids) k (id' :: ids') := by
  have hsame := hg.node?_eq_of_closed hclosed List.mem_cons_self
  cases run_expr_ok h with
  | constant hnode => exact .constant (hsame.trans hnode) rest
  | unknown hnode hlookup => exact .unknown (hsame.trans hnode) hlookup rest
  | known hnode hlookup hadd =>
    have hnew := hkeeps _ _ (.inr rfl) (Rewrites.add (S := fun _ => True) hadd).2
    exact .known (hsame.trans hnode) hlookup hnew rest
  | @arithmetic op lhs rhs left right s₁ s₂ s₃ _ _ hnode hleft hright hupdate hcollapse =>
    have hkeeps₃ : Keeps (g₀.Under [id]) s₃.graph g' := (collapse_keeps hcollapse).trans hkeeps
    obtain ⟨hoperands, hk, hfinal, hslots⟩ := ih.slots (run_mapM_pair hleft hright) hupdate hg
      hclosed (hsame.trans hnode) rfl (List.Sublist.refl _) hkeeps₃
    obtain ⟨hl, hr⟩ : s₃.graph.node? left = g'.node? left ∧ s₃.graph.node? right = g'.node? right := by
      simpa using hslots
    rcases run_collapse_ok hcollapse with ⟨a, b, g, ha, hb, hadd, hgraph, hk', -⟩ | ⟨hnot, rfl, rfl⟩
    · have hnew := hkeeps id' (.constant (.scalar (op.apply a b))) (.inr rfl)
        (hgraph ▸ (Rewrites.add (S := fun _ => True) hadd).2)
      rw [hk', hk] at rest
      exact .computed (hsame.trans hnode) hoperands hfinal (hl ▸ ha) (hr ▸ hb) hnew rest
    · rw [hk] at rest
      refine .arithmetic (hsame.trans hnode) hoperands hfinal ?_ rest
      rintro ⟨⟨a, ha⟩, ⟨b, hb⟩⟩
      exact hnot ⟨⟨a, hl.trans ha⟩, ⟨b, hr.trans hb⟩⟩
  | call hnode hargs hupdate =>
    obtain ⟨htrace, hk, hfinal, -⟩ := ih.slots hargs hupdate hg hclosed (hsame.trans hnode) rfl
      (List.Sublist.refl _) hkeeps
    have hf := (run_update_functions hupdate).trans
      (mapM_functions (fun _ _ _ _ => expr_functions) hargs)
    simp only [hf, hk] at rest
    exact .call (hsame.trans hnode) htrace hfinal rest

/-- Simplifying a list of evaluables leaves a trace. -/
theorem exprs_traced (g₀ g' : Graph) (depth : Nat) : ExprsTraced g₀ g' depth := by
  induction depth with
  | zero =>
    intro ids ids' s t h hg hclosed hkeeps
    cases ids with
    | nil =>
      cases h
      exact .nil
    | cons id ids =>
      obtain ⟨_, _, _, hid, -⟩ := run_mapM_cons_eq_ok.1 h
      cases hid
  | succ depth ih =>
    intro ids
    induction ids with
    | nil =>
      intro ids' s t h hg hclosed hkeeps
      cases h
      exact .nil
    | cons id ids ihids =>
      intro ids' s t h hg hclosed hkeeps
      obtain ⟨id', u, rest, hid, hids, rfl⟩ := run_mapM_cons_eq_ok.1 h
      have hparts : Untouched g₀ ([id] ++ ids) s.graph := hg
      have hg₁ : Untouched g₀ [id] s.graph := hparts.sublist (List.sublist_append_left _ _)
      have hr₁ := (expr_confined _ _ _ _ _ hid (hg₁.covers List.mem_cons_self)).1
      have hg₂ : Untouched g₀ ids u.graph := hparts.step hr₁
      have hr₂ := ((expr_confined _).mapM hids fun c hc => hg₂.covers hc).1
      have hrest := ihids _ _ _ hids hg₂ (hclosed.mono (by simp))
        (hkeeps.mono fun _ => .mono (by simp))
      exact ih.cons hid hg₁ (hclosed.mono (by simp)) (hparts.keeps_first hr₁ hr₂ hkeeps)
        (expr_functions hid ▸ hrest)

/-- Simplifying a comparison leaves a trace. -/
theorem condition_traced (h : (condition depth id).run s = .ok () t) (hg : Untouched g₀ [id] s.graph)
    (hclosed : g₀.Closed [id]) (hkeeps : Keeps (g₀.Under [id]) t.graph g') :
    TestTrace g₀ g' s.functions s.knowledge id t.knowledge := by
  obtain ⟨op, lhs, rhs, left, right, s₁, s₂, hnode, hleft, hright, hupdate⟩ := run_condition_ok h
  have node := (hg.node?_eq_of_closed hclosed List.mem_cons_self).trans hnode
  obtain ⟨hoperands, hk, hfinal, -⟩ := (exprs_traced g₀ g' depth).slots (run_mapM_pair hleft hright)
    hupdate hg hclosed node rfl (List.Sublist.refl _) hkeeps
  rw [hk]
  exact ⟨op, lhs, rhs, left, right, node, hoperands, hfinal⟩

/-! ## Statements -/

/-- Simplifying statements leaves a trace. -/
def BlockTraced (g₀ g' : Graph) (depth : Nat) : Prop :=
  ∀ ids s t, (ids.forM (statement depth)).run s = .ok () t → Untouched g₀ ids s.graph →
    g₀.Closed ids → Keeps (g₀.Under ids) t.graph g' →
      BlockTrace g₀ g' s.knowledge s.functions ids t.knowledge t.functions

/-- Simplifying a statement leaves a trace, which goes on with what comes behind it. -/
theorem BlockTraced.cons (ih : BlockTraced g₀ g' depth)
    (h : (statement (depth + 1) id).run s = .ok () t) (hg : Untouched g₀ [id] s.graph)
    (hclosed : g₀.Closed [id]) (hkeeps : Keeps (g₀.Under [id]) t.graph g') {ids : List NodeId}
    {k : Knowledge} {f : NameMap NameSet}
    (rest : BlockTrace g₀ g' t.knowledge t.functions ids k f) :
    BlockTrace g₀ g' s.knowledge s.functions (id :: ids) k f := by
  have hsame := hg.node?_eq_of_closed hclosed List.mem_cons_self
  -- the node of a branch, a loop or a definition is what it was, if only what is below it has changed
  have hstays : ∀ {node g}, g₀.node? id = some node → Rewrites (g₀.Under node.children) s.graph g →
      Keeps (g₀.Under [id]) g g' → g'.node? id = some node := fun hnode hr hkeeps =>
    hkeeps _ _ (.inl (under_self List.mem_cons_self)) (hg.node_of_rewrites List.mem_cons_self hnode hr)
  have hbelow : ∀ {node n}, g₀.node? id = some node → g₀.Under node.children n → g₀.Under [id] n :=
    fun hnode => .of_children List.mem_cons_self hnode
  cases run_statement_ok h with
  | @assign target value value' v s₁ s₂ _ hnode htarget hvalue hupdate hlearn =>
    have node := hsame.trans hnode
    cases run_learn_eq hlearn
    obtain ⟨htrace, hk, hfinal, hslots⟩ := (exprs_traced g₀ g' depth).slots (run_mapM_singleton hvalue)
      hupdate hg hclosed node rfl (by simp [Node.children]) hkeeps
    have hvalue' : s₂.graph.node? value' = g'.node? value' := by simpa using hslots
    have hf := (run_update_functions hupdate).trans (expr_functions hvalue)
    have hvar := ((hg.children List.mem_cons_self node).node?_eq_of_closed
      (hclosed.children List.mem_cons_self node) List.mem_cons_self).trans htarget
    simp only [hk, hf, hvalue'] at rest
    exact .assign node hvar htrace hfinal rest
  | @updateElement target index value value' v s₁ s₂ hnode hvalue hupdate htarget =>
    have node := hsame.trans hnode
    obtain ⟨htrace, hk, hfinal, -⟩ := (exprs_traced g₀ g' depth).slots (run_mapM_singleton hvalue)
      hupdate hg hclosed node rfl (by simp [Node.children]) hkeeps
    have hf := (run_update_functions hupdate).trans (expr_functions hvalue)
    have hvar := ((hg.children List.mem_cons_self node).node?_eq_of_closed
      (hclosed.children List.mem_cons_self node) List.mem_cons_self).trans htarget
    simp only [hk, hf] at rest
    exact .updateElement node hvar htrace hfinal rest
  | @ifElse cond thenBlock elseBlock s₁ s₂ s₃ names hnode hcond hthen helse hassigned =>
    have node := hsame.trans hnode
    have hparts : Untouched g₀ ([cond] ++ (thenBlock ++ elseBlock)) s.graph :=
      hg.children List.mem_cons_self node
    have hclosed' : g₀.Closed (cond :: (thenBlock ++ elseBlock)) :=
      hclosed.children List.mem_cons_self node
    have hfinal : Keeps (g₀.Under ([cond] ++ (thenBlock ++ elseBlock))) s₃.graph g' :=
      hkeeps.mono fun _ => hbelow node
    have hfinal' : Keeps (g₀.Under (thenBlock ++ elseBlock)) s₃.graph g' :=
      hfinal.mono fun _ => .mono (by simp)
    have hg₁ : Untouched g₀ [cond] s.graph := hparts.sublist (List.sublist_append_left _ _)
    have hr₁ := condition_rewrites hcond (hg₁.covers List.mem_cons_self)
    have hblocks : Untouched g₀ (thenBlock ++ elseBlock) s₁.graph := hparts.step hr₁
    have hg₂ : Untouched g₀ thenBlock s₁.graph := hblocks.sublist (List.sublist_append_left _ _)
    have hr₂ := block_rewrites hthen hg₂
    have hg₃ : Untouched g₀ elseBlock s₂.graph := hblocks.step hr₂
    have hr₃ := block_rewrites helse hg₃
    have hr₂₃ : Rewrites (g₀.Under (thenBlock ++ elseBlock)) s₁.graph s₃.graph := hr₂.append hr₃
    have htest := condition_traced hcond hg₁ (hclosed'.mono (by simp))
      (hparts.keeps_first hr₁ hr₂₃ hfinal)
    have hthen' := ih _ _ _ hthen hg₂ (hclosed'.mono (by simp)) (hblocks.keeps_first hr₂ hr₃ hfinal')
    have helse' := ih _ _ _ helse hg₃ (hclosed'.mono (by simp))
      (hfinal'.mono fun _ => .mono (by simp))
    have hnames : g₀.Assigns s₃.functions (thenBlock ++ elseBlock) names :=
      ⟨s₃.graph, depth, hg₃.rewrites.trans (hr₃.mono fun _ _ => trivial), hassigned⟩
    rw [condition_functions hcond] at hthen'
    exact .ifElse node htest hthen' helse' hnames (hstays node (hr₁.append hr₂₃) hkeeps) rest
  | @whileLoop cond body s₁ s₂ names hnode hassigned hcond hround =>
    have node := hsame.trans hnode
    have hparts : Untouched g₀ ([cond] ++ body) s.graph := hg.children List.mem_cons_self node
    have hclosed' : g₀.Closed (cond :: body) := hclosed.children List.mem_cons_self node
    have hfinal : Keeps (g₀.Under ([cond] ++ body)) s₂.graph g' := hkeeps.mono fun _ => hbelow node
    have hg₁ : Untouched g₀ [cond] s.graph := hparts.sublist (List.sublist_append_left _ _)
    have hr₁ := condition_rewrites hcond (hg₁.covers List.mem_cons_self)
    have hg₂ : Untouched g₀ body s₁.graph := hparts.step hr₁
    have hr₂ := block_rewrites hround hg₂
    have htest := condition_traced hcond hg₁ (hclosed'.mono (by simp))
      (hparts.keeps_first hr₁ hr₂ hfinal)
    have hbody := ih _ _ _ hround hg₂ (hclosed'.mono (by simp)) (hfinal.mono fun _ => .mono (by simp))
    rw [condition_functions hcond] at hbody
    exact .whileLoop node ⟨s.graph, depth, hg.rewrites, hassigned⟩ htest hbody
      (hstays node (hr₁.append hr₂) hkeeps) rest
  | @functionDef name params body returns names s₁ hnode hbody hassigned =>
    have node := hsame.trans hnode
    have hparts : Untouched g₀ (params ++ body) s.graph := hg.children List.mem_cons_self node
    have hclosed' : g₀.Closed (params ++ body) := hclosed.children List.mem_cons_self node
    have hfinal : Keeps (g₀.Under (params ++ body)) s₁.graph g' := hkeeps.mono fun _ => hbelow node
    have hg₁ : Untouched g₀ body s.graph := hparts.sublist (List.sublist_append_right _ _)
    have hr := block_rewrites hbody hg₁
    have hbody' := ih _ _ _ hbody hg₁ (hclosed'.mono (by simp)) (hfinal.mono fun _ => .mono (by simp))
    exact .functionDef node ⟨s.graph, depth, hg.rewrites, hassigned⟩ hbody'
      (hstays node (hr.mono fun _ => .mono (by simp [Node.children])) hkeeps) rest
  | debug hnode => exact .debug (hsame.trans hnode) rest

/-- Simplifying a list of statements leaves a trace. -/
theorem block_traced (g₀ g' : Graph) (depth : Nat) : BlockTraced g₀ g' depth := by
  induction depth with
  | zero =>
    intro ids s t h hg hclosed hkeeps
    cases ids with
    | nil =>
      cases h
      exact .nil
    | cons id ids =>
      obtain ⟨_, hid, -⟩ := run_forM_cons_eq_ok.1 h
      cases hid
  | succ depth ih =>
    intro ids
    induction ids with
    | nil =>
      intro s t h hg hclosed hkeeps
      cases h
      exact .nil
    | cons id ids ihids =>
      intro s t h hg hclosed hkeeps
      obtain ⟨u, hid, hids⟩ := run_forM_cons_eq_ok.1 h
      have hparts : Untouched g₀ ([id] ++ ids) s.graph := hg
      have hg₁ : Untouched g₀ [id] s.graph := hparts.sublist (List.sublist_append_left _ _)
      have hr₁ := statement_rewrites hid (hg₁.covers List.mem_cons_self)
      have hg₂ : Untouched g₀ ids u.graph := hparts.step hr₁
      have hrest := ihids _ _ hids hg₂ (hclosed.mono (by simp)) (hkeeps.mono fun _ => .mono (by simp))
      exact ih.cons hid hg₁ (hclosed.mono (by simp))
        (hparts.keeps_first hr₁ (block_rewrites hids hg₂) hkeeps) hrest

end PropagateM

end RegisterBackend
