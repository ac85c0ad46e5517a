import RegisterBackend.Proofs.CheckSteps
import RegisterBackend.Proofs.GraphEdges
import RegisterBackend.Proofs.StoppedPropagation

/-!
# Why constant propagation stops

Constant propagation stops for one of two reasons (`Graph.StopsFor`): the program is not in order,
or both operands of an operation are array constants, which it has no result for. It may have put
the constants there itself. The operation is one of the program, at a node that can be reached from
where the propagation started (`Program.propagate_stopsFor`).

A run that does not stop goes past every operation of a program that passes the check, so in the
graph that it leaves no operation has array constants as operands
(`Program.not_foldsArrays_of_propagate`). Each step makes no such operation and keeps the paths to
those that are left (`Graph.Spares`); a node is cleared when the steps on it are done
(`PropagateM.Clears`).
-/

namespace RegisterBackend

namespace Graph

variable {g g₁ g' : Graph} {S : NodeId → Prop} {id c n : NodeId} {e : Stop CompileError}

/-- The node is an operation whose operands are array constants. -/
def FoldsArrays (g : Graph) (n : NodeId) (op : ArithOp) : Prop :=
  ∃ lhs rhs left right, g.node? n = some (.arithmetic op lhs rhs) ∧
    g.node? lhs = some (.constant (.array left)) ∧ g.node? rhs = some (.constant (.array right))

/-- Why simplifying a node of the first graph stops, where the second one is what it leaves: the
program is not in order, or an operation below the node has come to have array constants as
operands. -/
inductive StopsFor (g : Graph) (id : NodeId) (g' : Graph) : Stop CompileError → Prop
  | disorder {e : Stop CompileError} (he : Disorder e) : StopsFor g id g' e
  | arrays {n lhs rhs : NodeId} {op : ArithOp} (hn : g.Reaches id n)
    (hnode : g.node? n = some (.arithmetic op lhs rhs))
    (hfolds : g'.FoldsArrays n op) : StopsFor g id g' (.error (.unsupported n (.arrayArithmetic op)))

/-- What stops at a child of a node stops at the node. -/
theorem StopsFor.of_child (h : g.StopsFor c g' e) {node : Node} (hnode : g.node? id = some node)
    (hc : c ∈ node.children) : g.StopsFor id g' e := by
  cases h with
  | disorder he => exact .disorder he
  | arrays hn hop hfolds => exact .arrays (.head ⟨node, hnode, hc⟩ hn) hop hfolds

/-- What stops after some rewriting stops at an operation that was there from the start. -/
theorem StopsFor.of_rewrites (h : g₁.StopsFor id g' e) (hr : Rewrites S g g₁) :
    g.StopsFor id g' e := by
  cases h with
  | disorder he => exact .disorder he
  | @arrays n op lhs rhs hn hop hfolds =>
    have hnot : ¬ g₁.IsConstant n := fun ⟨l, hl⟩ => nomatch hop.symm.trans hl
    cases hnode : g.node? n with
    | none =>
      obtain ⟨l, hl⟩ := hr.fresh hnode hop
      exact (hnot ⟨l, hl ▸ hop⟩).elim
    | some node =>
      obtain ⟨_, hop', hamends⟩ := hr.kept hnode
      cases hop.symm.trans hop'
      have hn := (hr.reaches hn).resolve_right hnot
      cases hamends with
      | same => exact .arrays hn hnode hfolds
      | arithmetic => exact .arrays hn hnode hfolds

/-- What is a constant after some rewriting was one before, if it was there. -/
theorem Rewrites.isConstant_of {node : Node} (hr : Rewrites S g g') (hnode : g.node? n = some node)
    (hconst : g'.IsConstant n) : g.IsConstant n := by
  obtain ⟨l, hl⟩ := hconst
  obtain ⟨node', hnode', hamends⟩ := hr.kept hnode
  cases hl.symm.trans hnode'
  cases hamends with
  | same => exact ⟨l, hnode⟩

end Graph

namespace PropagateM

open RegisterBackend.Graph (Rewrites Covers StopsFor)

variable {s t u : Propagation} {id : NodeId} {depth : Nat} {e : Stop CompileError}

/-! ## Evaluables -/

theorem expr_rewrites {id' : NodeId} (h : (expr depth id).run s = .ok id' t) :
    Rewrites (fun _ => True) s.graph t.graph :=
  (expr_confined depth _ _ _ _ h (.all _ _)).1

/-- Simplifying a node that turns out to be a constant changes nothing. -/
theorem eq_of_isConstant {id' : NodeId} (h : (expr depth id).run s = .ok id' t) {g : Graph}
    {S : NodeId → Prop} (hr : Rewrites S s.graph g) (hconst : g.IsConstant id) : s = t := by
  cases depth with
  | zero => cases h
  | succ depth =>
    cases run_expr_ok h with
    | constant => rfl
    | unknown hnode | known hnode | arithmetic hnode | call hnode =>
      obtain ⟨l, hl⟩ := hr.isConstant_of hnode hconst
      cases hnode.symm.trans hl

/-- An operation that fails, although it is in order, has come to have array constants as
operands. -/
theorem collapse_stopsFor {op : ArithOp} {lhs rhs left right : NodeId} {s₁ s₂ s₃ : Propagation}
    (hnode : s.graph.node? id = some (.arithmetic op lhs rhs))
    (hleft : (expr depth lhs).run s = .ok left s₁) (hright : (expr depth rhs).run s₁ = .ok right s₂)
    (hupdate : (update id (.arithmetic op lhs rhs) (.arithmetic op left right)).run s₂ = .ok () s₃)
    (hcollapse : (collapse id op left right).run s₃ = .error e t) : s.graph.StopsFor id t.graph e := by
  obtain ⟨⟨stats, rfl⟩, he | ⟨as, bs, has, hbs, rfl⟩⟩ := run_collapse_error hcollapse
  · exact .disorder he
  refine .arrays .refl hnode ⟨left, right, as, bs, ?_, has, hbs⟩
  rcases run_update_ok hupdate with ⟨hsame, rfl⟩ | ⟨g, hreplace, rfl⟩
  · -- both operands were constants from the start, so nothing was changed
    cases hsame
    cases eq_of_isConstant hright (expr_rewrites hright) ⟨_, hbs⟩
    cases eq_of_isConstant hleft (expr_rewrites hleft) ⟨_, has⟩
    exact hnode
  · rw [Graph.node?_replace hreplace, if_pos rfl]

/-- Simplifying nodes one after the other stops for the reason that one of them does. -/
theorem mapM_stopsFor {node : Node} (hstop : ∀ {id s t e}, (expr depth id).run s = .error e t →
      s.graph.StopsFor id t.graph e) (hnode : s.graph.node? id = some node) {ids : List NodeId}
    (hids : ids ⊆ node.children) {s₁ : Propagation} (hr : Rewrites (fun _ => True) s.graph s₁.graph)
    (h : (ids.mapM (expr depth)).run s₁ = .error e t) : s.graph.StopsFor id t.graph e := by
  induction ids generalizing s₁ with
  | nil => cases h
  | cons c ids ih =>
    rcases run_mapM_cons_eq_error.1 h with hc | ⟨c', u, hc, hrest⟩
    · exact ((hstop hc).of_rewrites hr).of_child hnode (hids List.mem_cons_self)
    · exact ih (fun c hc => hids (List.mem_cons_of_mem _ hc)) (hr.trans (expr_rewrites hc)) hrest

/-- What stops at one of two operands stops at the node, also if the first operand was rewritten
before. -/
theorem OperandsStop.stopsFor {lhs rhs : NodeId} {node : Node} (h : OperandsStop depth lhs rhs s e t)
    (hstop : ∀ {id s t e}, (expr depth id).run s = .error e t → s.graph.StopsFor id t.graph e)
    (hnode : s.graph.node? id = some node) (hl : lhs ∈ node.children) (hr : rhs ∈ node.children) :
    s.graph.StopsFor id t.graph e := by
  cases h with
  | left hleft => exact (hstop hleft).of_child hnode hl
  | right hleft hright =>
    exact ((hstop hright).of_rewrites (expr_rewrites hleft)).of_child hnode hr
  | both _ _ he => exact .disorder he

/-- Simplifying an evaluable stops for one of the two reasons. -/
theorem expr_stopsFor (h : (expr depth id).run s = .error e t) : s.graph.StopsFor id t.graph e := by
  induction depth generalizing id s t e with
  | zero =>
    cases h
    exact .disorder (.fault _)
  | succ depth ih =>
    cases run_expr_error h with
    | here he => exact .disorder he
    | operands hnode hstop =>
      exact hstop.stopsFor ih hnode (by simp [Node.children]) (by simp [Node.children])
    | collapse hnode hleft hright hupdate hcollapse =>
      exact collapse_stopsFor hnode hleft hright hupdate hcollapse
    | arg hnode hargs => exact mapM_stopsFor ih hnode (List.Subset.refl _) (.refl _ _) hargs
    | args _ _ he => exact .disorder he

/-- Simplifying a condition stops for one of the two reasons. -/
theorem condition_stopsFor (h : (condition depth id).run s = .error e t) :
    s.graph.StopsFor id t.graph e := by
  rcases run_condition_error h with ⟨-, he⟩ | ⟨op, lhs, rhs, hnode, hstop⟩
  · exact .disorder he
  · exact hstop.stopsFor expr_stopsFor hnode (by simp [Node.children]) (by simp [Node.children])

/-! ## Statements -/

theorem condition_rewrites_all (h : (condition depth id).run s = .ok () t) :
    Rewrites (fun _ => True) s.graph t.graph :=
  condition_rewrites h (.all _ _)

/-- A block stops for the reason that one of its statements does. -/
theorem block_stopsFor {g : Graph} (hstop : ∀ {id s t e},
      (statement depth id).run s = .error e t → s.graph.StopsFor id t.graph e) {ids : List NodeId}
    (h : (ids.forM (statement depth)).run s = .error e t)
    (hr : Rewrites (fun _ => True) g s.graph) : ∃ id ∈ ids, g.StopsFor id t.graph e := by
  induction ids generalizing s with
  | nil => cases h
  | cons c ids ih =>
    rcases run_forM_cons_eq_error.1 h with hc | ⟨u, hc, hrest⟩
    · exact ⟨c, List.mem_cons_self, (hstop hc).of_rewrites hr⟩
    · have hr' := statement_rewrites hc (S := fun _ => True) (.all _ _)
      obtain ⟨id, hid, hstop⟩ := ih hrest (hr.trans hr')
      exact ⟨id, List.mem_cons_of_mem _ hid, hstop⟩

/-- Simplifying a statement stops because the program is not in order, or at an operation below the
statement that has come to have array constants as operands. -/
theorem statement_stopsFor (h : (statement depth id).run s = .error e t) :
    s.graph.StopsFor id t.graph e := by
  induction depth generalizing id s t e with
  | zero =>
    cases h
    exact .disorder (.fault _)
  | succ depth ih =>
    cases run_statement_error h with
    | here he | assigned _ _ he | learn _ _ _ he | element _ _ he | branches _ _ _ _ he =>
      exact .disorder he
    | assignValue hnode hvalue | elementValue hnode hvalue =>
      exact (expr_stopsFor hvalue).of_child hnode (by simp [Node.children])
    | ifCondition hnode hcond =>
      exact (condition_stopsFor hcond).of_child hnode (by simp [Node.children])
    | thenBlock hnode hcond hthen =>
      have hr := condition_rewrites_all hcond
      obtain ⟨c, hc, hstop⟩ := block_stopsFor ih hthen hr
      have hstop := hstop.of_child hnode (by simp [Node.children, hc])
      exact hstop
    | elseBlock hnode hcond hthen helse =>
      have hr₁ := condition_rewrites_all hcond
      have hr₂ := forM_statement_rewrites hthen
      obtain ⟨c, hc, hstop⟩ := block_stopsFor ih helse (hr₁.trans hr₂)
      have hstop := hstop.of_child hnode (by simp [Node.children, hc])
      exact hstop
    | loopCondition hnode _ hcond =>
      have hstop := (condition_stopsFor hcond).of_child hnode (by simp [Node.children])
      exact hstop
    | round hnode _ hcond hround =>
      have hr := condition_rewrites_all hcond
      obtain ⟨c, hc, hstop⟩ := block_stopsFor ih hround hr
      have hstop := hstop.of_child hnode (by simp [Node.children, hc])
      exact hstop
    | functionBody hnode hbody =>
      obtain ⟨c, hc, hstop⟩ := block_stopsFor ih hbody (.refl _ _)
      have hstop := hstop.of_child hnode (by simp [Node.children, hc])
      exact hstop

end PropagateM

/-- Constant propagation of a program stops because the program is not in order, or at an operation
of the program that has come to have array constants as operands. -/
theorem Program.propagate_stopsFor {p : Program} {e : Stop CompileError} {s : Propagation}
    (h : p.propagate = .error e s) : ∃ id ∈ p.body, p.graph.StopsFor id s.graph e :=
  PropagateM.block_stopsFor PropagateM.statement_stopsFor h (.refl _ _)

/-! ## What a propagation that does not stop has gone past -/

namespace Graph

variable {g g₁ g' : Graph} {id m n : NodeId} {op : ArithOp} {node new : Node}

/-- From the first graph to the second one, no operation has come to have array constants as
operands, and the paths to those that have them are still there. The second graph has been made by
the operations on graphs. -/
structure Spares (g g' : Graph) : Prop where
  built : g'.Built
  folds : ∀ {n op}, g'.FoldsArrays n op → g.FoldsArrays n op
  path : ∀ {m n op}, g.Reaches m n → g'.FoldsArrays n op → g'.Reaches m n

/-- No node below the given one in the first graph is an operation on array constants in the
second. -/
def Cleared (g g' : Graph) (id : NodeId) : Prop :=
  ∀ n op, g.Reaches id n → ¬ g'.FoldsArrays n op

namespace Spares

/-- A graph that is left as it is has lost no path. -/
theorem refl (hbuilt : g.Built) : g.Spares g :=
  ⟨hbuilt, fun h => h, fun h _ => h⟩

/-- The path to an operation that is left after both parts was not cut by the first one. -/
theorem trans (h : g.Spares g₁) (h' : g₁.Spares g') : g.Spares g' where
  built := h'.built
  folds hn := h.folds (h'.folds hn)
  path hm hn := h'.path (h.path hm (h'.folds hn)) hn

/-- A constant that is added is the operand of no operation. -/
theorem add {l : Literal} (hbuilt : g.Built) (hadd : g.add (.constant l) = .ok (id, g')) :
    g.Spares g' := by
  obtain ⟨hnone, hnodes⟩ := node?_add_constant hadd
  have hkept : ∀ {n node}, g.node? n = some node → g'.node? n = some node := by
    intro n node hn
    rw [hnodes, if_neg, hn]
    rintro rfl
    cases hnone.symm.trans hn
  refine ⟨hbuilt.add hadd, ?_, fun hm _ => ?_⟩
  · rintro n op ⟨lhs, rhs, left, right, hn, hlhs, hrhs⟩
    have hold : g.node? n = some (.arithmetic op lhs rhs) := by
      rw [hnodes] at hn
      split at hn
      · cases hn
      · exact hn
    have hoperand : ∀ {c node}, c ∈ [lhs, rhs] → g'.node? c = some node → g.node? c = some node := by
      intro c node hc hnode
      rw [hnodes, if_neg] at hnode
      · exact hnode
      · rintro rfl
        obtain ⟨_, hc'⟩ := node?_eq_some_of_lt (hbuilt.index_lt hold hc)
        cases hnone.symm.trans hc'
    exact ⟨lhs, rhs, left, right, hold, hoperand (by simp) hlhs, hoperand (by simp) hrhs⟩
  · exact Relation.ReflTransGen.mono (fun _ _ ⟨node, ha, hb⟩ => ⟨node, hkept ha, hb⟩) _ _ hm

/-- To exchange a node makes no operation on array constants of any other node. -/
theorem folds_of_replace (hreplace : g.replace id new = .ok g') (hleaf : new.isLeaf = false)
    (hne : n ≠ id) (h : g'.FoldsArrays n op) : g.FoldsArrays n op := by
  have hnodes := node?_replace hreplace
  have hconst : ∀ {c l}, g'.node? c = some (.constant l) → g.node? c = some (.constant l) := by
    intro c l hc
    rw [hnodes] at hc
    split at hc
    · cases hc
      cases hleaf
    · exact hc
  obtain ⟨lhs, rhs, left, right, hn, hlhs, hrhs⟩ := h
  rw [hnodes, if_neg hne] at hn
  exact ⟨lhs, rhs, left, right, hn, hconst hlhs, hconst hrhs⟩

/-- A node can be exchanged if there is no operation on array constants below it. -/
theorem replace (hbuilt : g.Built) (hreplace : g.replace id new = .ok g')
    (hleaf : new.isLeaf = false) (hclear : g.Cleared g' id) : g.Spares g' := by
  refine ⟨hbuilt.replace hreplace, fun {n op} hn => ?_, fun {m n op} hm hn => ?_⟩
  · refine folds_of_replace hreplace hleaf ?_ hn
    rintro rfl
    exact hclear _ _ .refl hn
  · induction hm using Relation.ReflTransGen.head_induction_on with
    | refl => exact .refl
    | @head a b hab hbn ih =>
      obtain ⟨node, ha, hb⟩ := hab
      refine .head ⟨node, ?_, hb⟩ ih
      rw [node?_replace hreplace, if_neg, ha]
      rintro rfl
      exact hclear n op (.head ⟨node, ha, hb⟩ hbn) hn

end Spares

namespace Cleared

/-- What has been cleared stays so. -/
theorem trans (h : g.Cleared g₁ id) (h' : g₁.Spares g') : g.Cleared g' id :=
  fun n op hid hn => h n op hid (h'.folds hn)

/-- What will be cleared is so from before, too. -/
theorem of_spares (h : g.Spares g₁) (h' : g₁.Cleared g' id) (hs : g₁.Spares g') : g.Cleared g' id :=
  fun n op hid hn => h' n op (h.path hid (hs.folds hn)) hn

/-- A node that is no operation is cleared if the nodes that it refers to are. -/
theorem of_children (hs : g.Spares g') (hnode : g.node? id = some node)
    (hshape : node.shape ≠ .arithmetic) (hchildren : ∀ c ∈ node.children, g.Cleared g' c) :
    g.Cleared g' id := by
  intro n op hid hn
  rcases hid.cases_node hnode with rfl | ⟨c, hc, hcn⟩
  · obtain ⟨lhs, rhs, _, _, hop, -⟩ := hs.folds hn
    cases hnode.symm.trans hop
    exact hshape rfl
  · exact hchildren c hc n op hcn hn

/-- A leaf is no operation and has nothing below it. -/
theorem of_leaf (hs : g.Spares g') (hnode : g.node? id = some node) (hleaf : node.isLeaf = true) :
    g.Cleared g' id := by
  refine of_children hs hnode ?_ fun c hc => ?_
  · intro hshape
    rw [Node.isLeaf, hshape] at hleaf
    cases hleaf
  · rw [Node.children_of_isLeaf hleaf] at hc
    cases hc

end Cleared

/-- The parameters of the functions that are defined below the node are variables. -/
def NamesParams (g : Graph) (id : NodeId) : Prop :=
  ∀ n name params body returns, g.Reaches id n →
    g.node? n = some (.functionDef name params body returns) →
      ∀ c ∈ params, ∃ v, g.node? c = some (.var v)

/-- The functions below a node that another one refers to are below that one, too. -/
theorem NamesParams.child {c : NodeId} (h : g.NamesParams id) (hnode : g.node? id = some node)
    (hc : c ∈ node.children) : g.NamesParams c :=
  fun n name params body returns hn => h n name params body returns (.head ⟨node, hnode, hc⟩ hn)

/-- Rewriting neither makes a function nor changes a variable. -/
theorem NamesParams.rewrites {S : NodeId → Prop} (h : g.NamesParams id) (hr : Rewrites S g g') :
    g'.NamesParams id := by
  intro n name params body returns hn hnode c hc
  have hn' : g.Reaches id n := by
    rcases hr.reaches hn with hn' | ⟨l, hl⟩
    · exact hn'
    · cases hnode.symm.trans hl
  have hdef : g.node? n = some (.functionDef name params body returns) := by
    cases hold : g.node? n with
    | none =>
      obtain ⟨l, hl⟩ := hr.fresh hold hnode
      cases hl
    | some node =>
      obtain ⟨node', hnode', hamends⟩ := hr.kept hold
      cases hnode.symm.trans hnode'
      cases hamends with
      | same => rfl
  obtain ⟨v, hv⟩ := h n name params body returns hn' hdef c hc
  exact ⟨v, hr.leaf rfl hv⟩

end Graph

namespace PropagateM

open RegisterBackend.Graph (Rewrites Spares Cleared NamesParams)

variable {s t u : Propagation} {id : NodeId} {depth : Nat}

/-- The steps clear the node on which they are made and spare the others. -/
def Clears (s t : Propagation) (id : NodeId) : Prop :=
  s.graph.Spares t.graph ∧ s.graph.Cleared t.graph id

/-- Steps on a node and then on others clear all of them. -/
theorem Clears.cons {ids : List NodeId} (h : Clears s t id)
    (hrest : t.graph.Spares u.graph ∧ ∀ c ∈ ids, t.graph.Cleared u.graph c) :
    s.graph.Spares u.graph ∧ ∀ c ∈ id :: ids, s.graph.Cleared u.graph c := by
  obtain ⟨hs, hc⟩ := h
  obtain ⟨hs', hids⟩ := hrest
  refine ⟨hs.trans hs', List.forall_mem_cons.2 ⟨hc.trans hs', fun c hmem => ?_⟩⟩
  exact .of_spares hs (hids c hmem) hs'

/-- Steps on a list of nodes and then on another one clear the nodes of both. -/
theorem clears_append {ids ids' : List NodeId}
    (h : s.graph.Spares t.graph ∧ ∀ c ∈ ids, s.graph.Cleared t.graph c)
    (h' : t.graph.Spares u.graph ∧ ∀ c ∈ ids', t.graph.Cleared u.graph c) :
    s.graph.Spares u.graph ∧ ∀ c ∈ ids ++ ids', s.graph.Cleared u.graph c := by
  obtain ⟨hs, hids⟩ := h
  obtain ⟨hs', hids'⟩ := h'
  refine ⟨hs.trans hs', List.forall_mem_append.2 ⟨fun c hc => ?_, fun c hc => ?_⟩⟩
  · exact (hids c hc).trans hs'
  · exact .of_spares hs (hids' c hc) hs'

/-- A node that is exchanged when what it refers to has been cleared is cleared, unless it becomes
an operation on array constants. -/
theorem update_clears {old new : Node} {s₁ : Propagation}
    (hupdate : (update id old new).run s₁ = .ok () t) (hnode : s.graph.node? id = some old)
    (hs : s.graph.Spares s₁.graph) (hr : Rewrites (fun _ => True) s.graph s₁.graph)
    (hchildren : ∀ c ∈ old.children, s.graph.Cleared s₁.graph c) (hleaf : new.isLeaf = false)
    (hnew : ∀ op lhs rhs as bs, new = .arithmetic op lhs rhs →
      t.graph.node? lhs = some (.constant (.array as)) →
        t.graph.node? rhs ≠ some (.constant (.array bs))) : Clears s t id := by
  -- below the node there is what has been cleared, and the node itself
  have hbelow : ∀ n op, s.graph.Reaches id n → n ≠ id → ¬ s₁.graph.FoldsArrays n op := by
    intro n op hid hne
    obtain ⟨c, hc, hcn⟩ := (hid.cases_node hnode).resolve_left hne
    exact hchildren c hc n op hcn
  rcases run_update_ok hupdate with ⟨rfl, rfl⟩ | ⟨g, hreplace, rfl⟩
  · refine ⟨hs, fun n op hid hn => ?_⟩
    by_cases hne : n = id
    · subst hne
      obtain ⟨lhs, rhs, as, bs, hop, hlhs, hrhs⟩ := hs.folds hn
      cases hnode.symm.trans hop
      exact hnew op lhs rhs as bs rfl (hr.leaf rfl hlhs) (hr.leaf rfl hrhs)
    · exact hbelow n op hid hne hn
  · have hself : ∀ op, ¬ g.FoldsArrays id op := by
      rintro op ⟨lhs, rhs, as, bs, hop, hlhs, hrhs⟩
      rw [Graph.node?_replace hreplace, if_pos rfl] at hop
      exact hnew op lhs rhs as bs (Option.some.inj hop) hlhs hrhs
    have hclear : ∀ n op, s.graph.Reaches id n → ¬ g.FoldsArrays n op := by
      intro n op hid hn
      by_cases hne : n = id
      · exact hself op (hne ▸ hn)
      · exact hbelow n op hid hne (Spares.folds_of_replace hreplace hleaf hne hn)
    refine ⟨hs.trans (.replace hs.built hreplace hleaf fun n op hid hn => ?_), hclear⟩
    rcases hr.reaches hid with hid | ⟨l, hl⟩
    · exact hclear n op hid hn
    · by_cases hne : n = id
      · exact hself op (hne ▸ hn)
      · obtain ⟨lhs, rhs, _, _, hop, -⟩ := Spares.folds_of_replace hreplace hleaf hne hn
        cases hl.symm.trans hop

/-- To compute an operation is to add a constant, and the operation is none on array constants. -/
theorem collapse_spares {op : ArithOp} {lhs rhs id' : NodeId}
    (h : (collapse id op lhs rhs).run s = .ok id' t) (hbuilt : s.graph.Built) :
    s.graph.Spares t.graph ∧ ∀ as bs, s.graph.node? lhs = some (.constant (.array as)) →
      s.graph.node? rhs ≠ some (.constant (.array bs)) := by
  rcases run_collapse_ok h with ⟨a, b, g, ha, hb, hadd, rfl, -⟩ | ⟨hnot, rfl, rfl⟩
  · refine ⟨.add hbuilt hadd, fun as bs has => ?_⟩
    cases ha.symm.trans has
  · exact ⟨.refl hbuilt, fun as bs has hbs => hnot ⟨⟨_, has⟩, ⟨_, hbs⟩⟩⟩

/-- Two operands that are simplified are cleared. -/
theorem operands_clear {lhs rhs left right : NodeId}
    (hexpr : ∀ {id id' s t}, (expr depth id).run s = .ok id' t → s.graph.Built → Clears s t id)
    (hleft : (expr depth lhs).run s = .ok left t) (hright : (expr depth rhs).run t = .ok right u)
    (hbuilt : s.graph.Built) :
    s.graph.Spares u.graph ∧ ∀ c ∈ [lhs, rhs], s.graph.Cleared u.graph c := by
  have hlhs := hexpr hleft hbuilt
  obtain ⟨hs, hc⟩ := hexpr hright hlhs.1.built
  exact hlhs.cons ⟨hs, List.forall_mem_singleton.2 hc⟩

/-- Evaluables that are simplified one after the other are cleared. -/
theorem mapM_clears
    (hexpr : ∀ {id id' s t}, (expr depth id).run s = .ok id' t → s.graph.Built → Clears s t id)
    {ids ids' : List NodeId} (h : (ids.mapM (expr depth)).run s = .ok ids' t)
    (hbuilt : s.graph.Built) :
    s.graph.Spares t.graph ∧ ∀ c ∈ ids, s.graph.Cleared t.graph c := by
  induction ids generalizing s ids' with
  | nil =>
    cases h
    exact ⟨.refl hbuilt, fun c hc => by cases hc⟩
  | cons id ids ih =>
    obtain ⟨id', u, rest, hid, hrest, rfl⟩ := run_mapM_cons_eq_ok.1 h
    have hfirst := hexpr hid hbuilt
    exact hfirst.cons (ih hrest hfirst.1.built)

/-- An evaluable that is simplified is cleared. -/
theorem expr_clears {id' : NodeId} (h : (expr depth id).run s = .ok id' t) (hbuilt : s.graph.Built) :
    Clears s t id := by
  induction depth generalizing id id' s t with
  | zero => cases h
  | succ depth ih =>
    cases run_expr_ok h with
    | constant hnode | unknown hnode =>
      have hs := Spares.refl hbuilt
      exact ⟨hs, .of_leaf hs hnode rfl⟩
    | known hnode _ hadd =>
      have hs := Spares.add hbuilt hadd
      exact ⟨hs, .of_leaf hs hnode rfl⟩
    | @arithmetic op lhs rhs left right s₁ s₂ s₃ _ _ hnode hleft hright hupdate hcollapse =>
      obtain ⟨hs, hchildren⟩ := operands_clear ih hleft hright hbuilt
      have hr := (expr_rewrites hleft).trans (expr_rewrites hright)
      have hbuilt₃ : s₃.graph.Built := by
        rcases run_update_ok hupdate with ⟨-, rfl⟩ | ⟨g, hreplace, rfl⟩
        · exact hs.built
        · exact hs.built.replace hreplace
      obtain ⟨hlast, hnot⟩ := collapse_spares hcollapse hbuilt₃
      obtain ⟨hs₃, hc₃⟩ := update_clears hupdate hnode hs hr hchildren rfl
        fun op' lhs' rhs' as bs heq has => by
          cases heq
          exact hnot as bs has
      exact ⟨hs₃.trans hlast, hc₃.trans hlast⟩
    | call hnode hargs hupdate =>
      obtain ⟨hs, hchildren⟩ := mapM_clears ih hargs hbuilt
      have hr := ((expr_confined (S := fun _ => True) depth).mapM hargs
        fun _ _ _ _ _ _ _ => trivial).1
      have hclears := update_clears hupdate hnode hs hr hchildren rfl
        fun op lhs rhs as bs heq => by cases heq
      exact hclears

/-- A comparison that is simplified is cleared. -/
theorem condition_clears (h : (condition depth id).run s = .ok () t) (hbuilt : s.graph.Built) :
    Clears s t id := by
  obtain ⟨op, lhs, rhs, left, right, s₁, s₂, hnode, hleft, hright, hupdate⟩ := run_condition_ok h
  obtain ⟨hs, hchildren⟩ := operands_clear expr_clears hleft hright hbuilt
  have hr := (expr_rewrites hleft).trans (expr_rewrites hright)
  exact update_clears hupdate hnode hs hr hchildren rfl fun op' lhs' rhs' as bs heq => by cases heq

/-- A statement that assigns a value to a variable is cleared. -/
theorem assignment_clears {target value value' : NodeId} {old new : Node} {v : Variable}
    (hvalue : (expr depth value).run s = .ok value' t) (hupdate : (update id old new).run t = .ok () u)
    (hnode : s.graph.node? id = some old) (hchildren : old.children = [target, value])
    (htarget : s.graph.node? target = some (.var v)) (hshape : new.shape ≠ .arithmetic)
    (hleaf : new.isLeaf = false) (hbuilt : s.graph.Built) : Clears s u id := by
  obtain ⟨hs, hc⟩ := expr_clears hvalue hbuilt
  refine update_clears hupdate hnode hs (expr_rewrites hvalue) ?_ hleaf
    fun op lhs rhs as bs heq => absurd (heq ▸ rfl) hshape
  rw [hchildren]
  simp only [List.mem_cons, List.not_mem_nil, or_false, forall_eq_or_imp, forall_eq]
  exact ⟨.of_leaf hs htarget rfl, hc⟩

/-- Statements that are simplified one after the other are cleared, if each one is. -/
theorem block_clears
    (hstatement : ∀ {id s t}, (statement depth id).run s = .ok () t → s.graph.Built →
      s.graph.NamesParams id → Clears s t id) {ids : List NodeId}
    (h : (ids.forM (statement depth)).run s = .ok () t) (hbuilt : s.graph.Built)
    (hparams : ∀ c ∈ ids, s.graph.NamesParams c) :
    s.graph.Spares t.graph ∧ ∀ c ∈ ids, s.graph.Cleared t.graph c := by
  induction ids generalizing s with
  | nil =>
    cases h
    exact ⟨.refl hbuilt, fun c hc => by cases hc⟩
  | cons id ids ih =>
    obtain ⟨u, hid, hids⟩ := run_forM_cons_eq_ok.1 h
    obtain ⟨hfirst, hothers⟩ := List.forall_mem_cons.1 hparams
    have hclears := hstatement hid hbuilt hfirst
    have hr := statement_rewrites hid (S := fun _ => True) (.all _ _)
    exact hclears.cons (ih hids hclears.1.built fun c hc => (hothers c hc).rewrites hr)

/-- A statement that is simplified is cleared, with all that it consists of. -/
theorem statement_clears (h : (statement depth id).run s = .ok () t) (hbuilt : s.graph.Built)
    (hparams : s.graph.NamesParams id) : Clears s t id := by
  induction depth generalizing id s t with
  | zero => cases h
  | succ depth ih =>
    cases run_statement_ok h with
    | assign hnode htarget hvalue hupdate hlearn =>
      have hclears :=
        assignment_clears hvalue hupdate hnode rfl htarget (by simp [Node.shape]) rfl hbuilt
      rcases run_learn_ok hlearn with ⟨l, -, rfl⟩ | ⟨-, rfl⟩
      · exact hclears
      · exact hclears
    | updateElement hnode hvalue hupdate htarget =>
      have hclears :=
        assignment_clears hvalue hupdate hnode rfl htarget (by simp [Node.shape]) rfl hbuilt
      exact hclears
    | ifElse hnode hcond hthen helse =>
      have hr₁ := condition_rewrites_all hcond
      have hr₂ := forM_statement_rewrites hthen
      have htest := condition_clears hcond hbuilt
      have hfirst := block_clears ih hthen htest.1.built fun c hc =>
        (hparams.child hnode (by simp [Node.children, hc])).rewrites hr₁
      have hsecond := block_clears ih helse hfirst.1.built fun c hc =>
        (hparams.child hnode (by simp [Node.children, hc])).rewrites (hr₁.trans hr₂)
      obtain ⟨hs, hchildren⟩ := htest.cons (clears_append hfirst hsecond)
      exact ⟨hs, .of_children hs hnode (by simp [Node.shape]) hchildren⟩
    | whileLoop hnode _ hcond hround =>
      have hr₁ := condition_rewrites_all hcond
      have htest := condition_clears hcond hbuilt
      have hbody := block_clears ih hround htest.1.built fun c hc =>
        (hparams.child hnode (by simp [Node.children, hc])).rewrites hr₁
      obtain ⟨hs, hchildren⟩ := htest.cons hbody
      exact ⟨hs, .of_children hs hnode (by simp [Node.shape]) hchildren⟩
    | functionDef hnode hbody =>
      obtain ⟨hs, hc⟩ := block_clears ih hbody hbuilt fun c hc =>
        hparams.child hnode (by simp [Node.children, hc])
      refine ⟨hs, .of_children hs hnode (by simp [Node.shape]) fun c hmem => ?_⟩
      rcases List.mem_append.1 hmem with hmem | hmem
      · obtain ⟨v, hv⟩ := hparams _ _ _ _ _ .refl hnode c hmem
        exact .of_leaf hs hv rfl
      · exact hc c hmem
    | debug hnode =>
      have hs := Spares.refl hbuilt
      exact ⟨hs, .of_leaf hs hnode rfl⟩

end PropagateM

namespace Program

variable {p : Program} {s : Propagation} {id n : NodeId}

/-- In a program that passes the check, the parameters of functions are variables. -/
theorem namesParams_of_check (hcheck : p.check = .ok ()) (hid : id ∈ p.body) :
    p.graph.NamesParams id :=
  fun _ _ _ _ _ hn hnode _ hc => (checked_of_check hcheck ⟨id, hid, hn⟩).isVar_of_param hnode hc

/-- When constant propagation of a program that passes the check has come to its end, no operation
of the program has array constants as operands. -/
theorem not_foldsArrays_of_propagate (hbuilt : p.graph.Built) (hcheck : p.check = .ok ())
    (h : p.propagate = .ok () s) (hn : p.Reachable n) (op : ArithOp) : ¬ s.graph.FoldsArrays n op := by
  obtain ⟨id, hid, hn⟩ := hn
  have hcleared := PropagateM.block_clears PropagateM.statement_clears h hbuilt
    fun c hc => namesParams_of_check hcheck hc
  exact hcleared.2 id hid n op hn

end Program

end RegisterBackend
