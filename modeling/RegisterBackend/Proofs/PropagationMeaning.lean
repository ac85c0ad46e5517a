import RegisterBackend.Proofs.GraphEdges
import RegisterBackend.Proofs.PropagatedTrees
import RegisterBackend.Proofs.Restating
import RegisterBackend.Proofs.ScalarPrograms
import RegisterBackend.Proofs.StoppedPropagation

/-!
# What a program means after constant propagation

Constant propagation does not change what a program without sharing means, also if it stops on the
way (`Program.propagation_keeps_meaning`): the code that is left runs as the code did, and has the
same output and the same final values. If the propagation does not stop, what it knows in the end
are values that the names hold whenever the program comes to its end.

If it does not stop, the code has been folded (`PropagateM.block_folds`). If it stops, it has come
to some statement, and in it to some evaluable. What is before that has been folded, what is behind
it has not been touched, and in between the nodes have been exchanged up to a point from the leaves
upwards. An operation whose operands have been exchanged and one whose operands have not been yet
have the same value where what is known holds, so code of any such form means the same as before
(`PropagateM.block_restates`).
-/

namespace RegisterBackend

/-! ## Parts that have not been touched -/

namespace Graph

variable {g g' g₀ : Graph} {S : NodeId → Prop} {id : NodeId} {ids : List NodeId}

/-- Rewriting takes no nodes away. -/
theorem Rewrites.size_le (h : Rewrites S g g') : g.size ≤ g'.size :=
  size_le_of_node? fun _ => h.node?_eq_none

theorem Untouched.exprAt {e : Expr} (h : Untouched g₀ [id] g) (he : g₀.ExprAt S id e) :
    g.ExprAt (g₀.Under [id]) id e :=
  he.under.congr h.keeps

theorem Untouched.testAt {t : Test} (h : Untouched g₀ [id] g) (ht : g₀.TestAt S id t) :
    g.TestAt (g₀.Under [id]) id t :=
  ht.under.congr h.keeps

theorem Untouched.blockAt {c : Command} (h : Untouched g₀ ids g) (hc : g₀.BlockAt S ids c) :
    g.BlockAt (g₀.Under ids) ids c :=
  hc.under.congr h.keeps

end Graph

namespace PropagateM

open RegisterBackend.Graph

variable {α : Type} {s t : Propagation} {g₀ : Graph} {K : Known} {depth : Nat} {id : NodeId}
  {err : Stop CompileError}

/-- The steps end in the state, whether they succeed or fail. -/
def EndsIn (m : PropagateM α) (s t : Propagation) : Prop :=
  (∃ a, m.run s = .ok a t) ∨ ∃ e, m.run s = .error e t

/-- However simplifying an evaluable ends, it has rewritten what is below it. -/
theorem EndsIn.rewrites {S : NodeId → Prop} (h : EndsIn (expr depth id) s t)
    (hS : s.graph.Covers S id) : Rewrites S s.graph t.graph := by
  rcases h with ⟨id', h⟩ | ⟨e, h⟩
  · exact (expr_confined depth _ _ _ _ h hS).1
  · exact expr_stop_rewrites h hS

/-! ## Evaluables -/

/-- However simplifying the evaluable at a node ends, the tree that the node has then is worth the
same as the given one. -/
def RestatesTo (g₀ : Graph) (depth : Nat) (id : NodeId) (e : Expr) : Prop :=
  ∀ s t K, EndsIn (expr depth id) s t → Untouched g₀ [id] s.graph → s.knowledge.Knows K →
    ∃ e', t.graph.ExprAt (g₀.Under [id]) id e' ∧ e.Restates K e'

/-- Operands that stop have trees that are worth the same as before. -/
theorem operands_restate {lhs rhs : NodeId} {a b : Expr} (hl : g₀.ExprAt (fun _ => True) lhs a)
    (hr : g₀.ExprAt (fun _ => True) rhs b) (hleft : RestatesTo g₀ depth lhs a)
    (hright : RestatesTo g₀ depth rhs b) (hg : Untouched g₀ ([lhs] ++ [rhs]) s.graph)
    (hK : s.knowledge.Knows K) (h : OperandsStop depth lhs rhs s err t) :
    ∃ a' b', t.graph.ExprAt (g₀.Under [lhs, rhs]) lhs a' ∧
      t.graph.ExprAt (g₀.Under [lhs, rhs]) rhs b' ∧ a.Restates K a' ∧ b.Restates K b' ∧
      Rewrites (g₀.Under [lhs, rhs]) s.graph t.graph := by
  have hg₁ : Untouched g₀ [lhs] s.graph := hg.sublist (List.sublist_append_left _ _)
  have hsub : ∀ n, g₀.Under [lhs] n → g₀.Under [lhs, rhs] n := fun _ => .mono (by simp)
  have hsub' : ∀ n, g₀.Under [rhs] n → g₀.Under [lhs, rhs] n := fun _ => .mono (by simp)
  have hbehind : ∀ {left s₁}, (expr depth lhs).run s = .ok left s₁ → EndsIn (expr depth rhs) s₁ t →
      ∃ a' b', t.graph.ExprAt (g₀.Under [lhs, rhs]) lhs a' ∧
        t.graph.ExprAt (g₀.Under [lhs, rhs]) rhs b' ∧ a.Restates K a' ∧ b.Restates K b' ∧
        Rewrites (g₀.Under [lhs, rhs]) s.graph t.graph := by
    intro left s₁ hrun hend
    obtain ⟨a', ha', hrestates⟩ := hleft _ _ _ (.inl ⟨_, hrun⟩) hg₁ hK
    have hk := (expr_folds hl depth _ _ _ _ hrun hg₁ hK).2
    have hr₁ := (expr_confined depth _ _ _ _ hrun (hg₁.covers List.mem_cons_self)).1
    have hg₂ : Untouched g₀ [rhs] s₁.graph := hg.step hr₁
    obtain ⟨b', hb', hrestates'⟩ := hright _ _ _ hend hg₂ (hk ▸ hK)
    have hr₂ := hend.rewrites (hg₂.covers List.mem_cons_self)
    have hkeeps : Keeps (g₀.Under [lhs]) s₁.graph t.graph := hg.separated.keeps hg₂.rewrites hr₂
    exact ⟨a', b', (ha'.congr hkeeps).mono hsub, hb'.mono hsub', hrestates, hrestates',
      (hr₁.mono hsub).trans (hr₂.mono hsub')⟩
  cases h with
  | left hrun =>
    have hend : EndsIn (expr depth lhs) s t := .inr ⟨_, hrun⟩
    obtain ⟨a', ha', hrestates⟩ := hleft _ _ _ hend hg₁ hK
    have hr₁ := hend.rewrites (hg₁.covers List.mem_cons_self)
    have hg₂ : Untouched g₀ [rhs] t.graph := hg.step hr₁
    exact ⟨a', b, ha'.mono hsub, (hg₂.exprAt hr).mono hsub', hrestates, .refl K b, hr₁.mono hsub⟩
  | right hrun hrun' => exact hbehind hrun (.inr ⟨_, hrun'⟩)
  | both hrun hrun' => exact hbehind hrun (.inl ⟨_, hrun'⟩)

/-- An operation has its folded operands from the moment it is exchanged. -/
theorem arithmetic_folds {op : ArithOp} {lhs rhs left right : NodeId} {a b : Expr}
    {s₁ s₂ s₃ : Propagation} (node : g₀.node? id = some (.arithmetic op lhs rhs))
    (hl : g₀.ExprAt (fun _ => True) lhs a) (hr : g₀.ExprAt (fun _ => True) rhs b)
    (hg : Untouched g₀ [id] s.graph) (hK : s.knowledge.Knows K)
    (hleft : (expr depth lhs).run s = .ok left s₁) (hright : (expr depth rhs).run s₁ = .ok right s₂)
    (hupdate : (update id (.arithmetic op lhs rhs) (.arithmetic op left right)).run s₂ = .ok () s₃) :
    s₃.graph.ExprAt (g₀.Under [id]) id (.arith op (a.fold K) (b.fold K)) := by
  obtain ⟨hnew, ha, hb, -⟩ := exchanged_operands (expr_folds hl depth) (expr_folds hr depth) node
    rfl rfl hg hK hleft hright hupdate
  exact .arith hnew (under_self List.mem_cons_self) ha hb

/-- A leaf has the tree that it had. -/
theorem leaf_restates {e : Expr} {node : Node} (he : g₀.ExprAt (fun _ => True) id e)
    (hnode : g₀.node? id = some node) (hleaf : node.isLeaf = true) : RestatesTo g₀ depth id e := by
  intro s t K hend hg hK
  refine ⟨e, ?_, .refl K e⟩
  have hr := hend.rewrites (hg.covers List.mem_cons_self)
  refine (hg.exprAt he).congr fun n node' hn hnode' => ?_
  rcases hn with ⟨root, hroot, hpath⟩ | hleaf'
  · cases List.mem_singleton.1 hroot
    cases eq_of_reaches_leaf hnode hleaf hpath
    cases hnode'.symm.trans (hg.node?_eq List.mem_cons_self hnode)
    exact hr.leaf hleaf hnode'
  · exact hr.leaf hleaf' hnode'

/-- However simplifying an evaluable ends, it is worth the same as before. -/
theorem expr_restates {e : Expr} (he : g₀.ExprAt (fun _ => True) id e) (depth : Nat) :
    RestatesTo g₀ depth id e := by
  induction he generalizing depth with
  | const node => exact leaf_restates (.const node) node rfl
  | var node kind => exact leaf_restates (.var node kind) node rfl
  | @arith id op lhs rhs a b node mem hl hr ihl ihr =>
    intro s t K hend hg hK
    have hnode := hg.node?_eq List.mem_cons_self node
    have hsame := hg.exprAt (.arith node mem hl hr)
    have hfolded := Expr.Restates.arith (.fold K a) (.fold K b) op
    cases depth with
    | zero =>
      rcases hend with ⟨_, h⟩ | ⟨_, h⟩ <;> cases h
      exact ⟨_, hsame, .refl K _⟩
    | succ depth =>
      rcases hend with ⟨id', h⟩ | ⟨err, h⟩
      · cases run_expr_ok h with
        | arithmetic hnode' hleft hright hupdate hcollapse =>
          cases hnode.symm.trans hnode'
          have htree := arithmetic_folds node hl hr hg hK hleft hright hupdate
          rcases run_collapse_ok hcollapse with ⟨_, _, g, -, -, hadd, rfl, -⟩ | ⟨-, -, rfl⟩
          · have hadded := (Rewrites.add (S := fun _ => False) hadd).1
            exact ⟨_, htree.congr fun n node' _ hn => hadded.off (fun h => h) hn, hfolded⟩
          · exact ⟨_, htree, hfolded⟩
        | constant hnode' | unknown hnode' | known hnode' | call hnode' =>
          cases hnode.symm.trans hnode'
      · cases run_expr_error h with
        | here => exact ⟨_, hsame, .refl K _⟩
        | operands hnode' hstop =>
          cases hnode.symm.trans hnode'
          obtain ⟨a', b', ha', hb', hrestates, hrestates', hrewrites⟩ := operands_restate hl hr
            (ihl depth) (ihr depth) (hg.children List.mem_cons_self node) hK hstop
          have hsub : ∀ n, g₀.Under [lhs, rhs] n → g₀.Under [id] n :=
            fun _ => .of_children List.mem_cons_self node
          exact ⟨.arith op a' b', .arith (hg.node_of_rewrites List.mem_cons_self node hrewrites)
            (under_self List.mem_cons_self) (ha'.mono hsub) (hb'.mono hsub),
            hrestates.arith hrestates' op⟩
        | collapse hnode' hleft hright hupdate =>
          cases hnode.symm.trans hnode'
          have htree := arithmetic_folds node hl hr hg hK hleft hright hupdate
          exact ⟨_, htree, hfolded⟩
        | arg hnode' | args hnode' => cases hnode.symm.trans hnode'

/-- A comparison that stops has the same result as before. -/
theorem condition_restates {c : Test} (hc : g₀.TestAt (fun _ => True) id c)
    (h : (condition depth id).run s = .error err t) (hg : Untouched g₀ [id] s.graph)
    (hK : s.knowledge.Knows K) :
    ∃ c', t.graph.TestAt (g₀.Under [id]) id c' ∧ c.Restates K c' := by
  rcases run_condition_error h with ⟨rfl, -⟩ | ⟨op', lhs', rhs', hnode', hstop⟩
  · exact ⟨c, hg.testAt hc, .refl K c⟩
  obtain ⟨op, l, r⟩ := c
  obtain ⟨-, lhs, rhs, node, hl, hr⟩ := hc
  cases (hg.node?_eq List.mem_cons_self node).symm.trans hnode'
  obtain ⟨a', b', ha', hb', hrestates, hrestates', hrewrites⟩ := operands_restate hl hr
    (expr_restates hl depth) (expr_restates hr depth) (hg.children List.mem_cons_self node) hK hstop
  have hsub : ∀ n, g₀.Under [lhs', rhs'] n → g₀.Under [id] n :=
    fun _ => .of_children List.mem_cons_self node
  exact ⟨⟨op, a', b'⟩, ⟨under_self List.mem_cons_self, lhs', rhs',
    hg.node_of_rewrites List.mem_cons_self node hrewrites, ha'.mono hsub, hb'.mono hsub⟩,
    .operands hrestates hrestates' op⟩

/-! ## Statements -/

/-- The statement at a node has a tree that means the same as the given one. -/
def StatementRestated (g₀ : Graph) (id : NodeId) (c : Command) (K : Known) (t : Propagation) : Prop :=
  ∃ c', t.graph.BlockAt (g₀.Under [id]) [id] (.seq c' .skip) ∧ c.Restates K c'

/-- A list of statements has a tree that means the same as the given one when simplifying it
stops. -/
def BlockRestatesTo (g₀ : Graph) (ids : List NodeId) (c : Command) : Prop :=
  ∀ depth s t err K, (ids.forM (statement depth)).run s = .error err t → Untouched g₀ ids s.graph →
    s.knowledge.Knows K → ∃ c', t.graph.BlockAt (g₀.Under ids) ids c' ∧ c.Restates K c'

/-- Statements that stop have changed what is below them. -/
theorem block_stop_rewrites {ids : List NodeId}
    (h : (ids.forM (statement depth)).run s = .error err t) (hg : Untouched g₀ ids s.graph) :
    Rewrites (g₀.Under ids) s.graph t.graph :=
  forM_stop_rewrites statement_stop_rewrites h fun _ hid => hg.covers hid

/-- Of the statements of a list, those before the one that stops are folded, and those behind it
stay as they were. -/
theorem BlockRestatesTo.cons {ids : List NodeId} {c₁ c : Command}
    (hc₁ : g₀.BlockAt (fun _ => True) [id] (.seq c₁ .skip)) (hc : g₀.BlockAt (fun _ => True) ids c)
    (hfirst : ∀ depth s t err K, StatementStop depth id s err t → Untouched g₀ [id] s.graph →
      s.knowledge.Knows K → StatementRestated g₀ id c₁ K t)
    (hrest : BlockRestatesTo g₀ ids c) : BlockRestatesTo g₀ (id :: ids) (.seq c₁ c) := by
  intro depth s t err K h hg hK
  have hparts : Untouched g₀ ([id] ++ ids) s.graph := hg
  have hg₁ : Untouched g₀ [id] s.graph := hparts.sublist (List.sublist_append_left _ _)
  have hsub : ∀ n, g₀.Under [id] n → g₀.Under (id :: ids) n := fun _ => .mono (by simp)
  have hsub' : ∀ n, g₀.Under ids n → g₀.Under (id :: ids) n := fun _ => .mono (by simp)
  rcases run_forM_cons_eq_error.1 h with hid | ⟨u, hid, hids⟩
  · have hg₂ : Untouched g₀ ids t.graph :=
      hparts.step (statement_stop_rewrites hid (hg₁.covers List.mem_cons_self))
    have hrestated : StatementRestated g₀ id c₁ K t := by
      cases depth with
      | zero =>
        cases hid
        exact ⟨c₁, hg₁.blockAt hc₁, .refl K c₁⟩
      | succ depth => exact hfirst _ _ _ _ _ (run_statement_error hid) hg₁ hK
    obtain ⟨c₁', htree, hrestates⟩ := hrestated
    exact ⟨.seq c₁' c, (htree.mono hsub).cons ((hg₂.blockAt hc).mono hsub'), hrestates.seq_left c⟩
  · have hg₂ : Untouched g₀ ids u.graph :=
      hparts.step (statement_rewrites hid (hg₁.covers List.mem_cons_self))
    have hid' : ([id].forM (statement depth)).run s = .ok () u :=
      run_forM_cons_eq_ok.2 ⟨u, hid, rfl⟩
    obtain ⟨_, K₁, htree₁, hk₁, hfolds₁, -⟩ := block_folds hc₁ _ _ _ _ hid' hg₁ hK
    obtain ⟨c', htree, hrestates⟩ := hrest _ _ _ _ _ hids hg₂ hk₁
    have hkeeps := hparts.separated.keeps hg₂.rewrites (block_stop_rewrites hids hg₂)
    cases hfolds₁ with
    | seq hfolds₁ hskip =>
      cases hskip
      exact ⟨_, ((htree₁.congr hkeeps).mono hsub).cons (htree.mono hsub'),
        .seq_right hfolds₁ hrestates⟩

/-- An assignment that stops means the same as before. -/
theorem assign_restates {target value : NodeId} {x : String} {e : Expr}
    (node : g₀.node? id = some (.assign target value)) (htarget : g₀.target? target = some x)
    (he : g₀.ExprAt (fun _ => True) value e) (hg : Untouched g₀ [id] s.graph)
    (hK : s.knowledge.Knows K) (hstop : StatementStop depth id s err t) :
    StatementRestated g₀ id (.assign x e) K t := by
  have hnode := hg.node?_eq List.mem_cons_self node
  have hchildren : Untouched g₀ [target, value] s.graph := hg.children List.mem_cons_self node
  have hg₁ : Untouched g₀ [value] s.graph := hchildren.sublist (by simp)
  have hsub : ∀ n, g₀.Under [value] n → g₀.Under [target, value] n := fun _ => .mono (by simp)
  have hsub' : ∀ n, g₀.Under [target, value] n → g₀.Under [id] n :=
    fun _ => .of_children List.mem_cons_self node
  -- as long as the value is being simplified, the statement refers to the node of the value
  have hbefore : ∀ {t}, EndsIn (expr depth value) s t → StatementRestated g₀ id (.assign x e) K t := by
    intro t hend
    obtain ⟨e', htree, hrestates⟩ := expr_restates he depth _ _ _ hend hg₁ hK
    have hr := hend.rewrites (hg₁.covers List.mem_cons_self)
    obtain ⟨v, hv, hkind, rfl⟩ := target?_eq_some.1 htarget
    have hv' := hr.leaf rfl (hchildren.node?_eq List.mem_cons_self hv)
    exact ⟨.assign v.name e', .assign (hg.node_of_rewrites List.mem_cons_self node (hr.mono hsub))
      (under_self List.mem_cons_self) (target?_eq_some.2 ⟨v, hv', hkind, rfl⟩)
      (htree.mono fun n h => hsub' n (hsub n h)) .nil, .assign hrestates v.name⟩
  cases hstop with
  | here => exact ⟨_, hg.blockAt (.assign node trivial htarget he .nil), .refl K _⟩
  | assignValue hnode' hvalue =>
    cases hnode.symm.trans hnode'
    exact hbefore (.inr ⟨_, hvalue⟩)
  | assigned hnode' hvalue =>
    cases hnode.symm.trans hnode'
    exact hbefore (.inl ⟨_, hvalue⟩)
  | learn hnode' hvalue hupdate =>
    cases hnode.symm.trans hnode'
    obtain ⟨-, -, hblock⟩ := assigned_folded node htarget he hg hK hvalue hupdate
    exact ⟨.assign x (e.fold K), hblock, .assign (.fold K e) x⟩
  | elementValue hnode' | element hnode' | ifCondition hnode' | thenBlock hnode' | elseBlock hnode'
  | branches hnode' | loopCondition hnode' | round hnode' | functionBody hnode' =>
    cases hnode.symm.trans hnode'

/-- However simplifying a list of statements ends, it means the same as before. -/
theorem block_end_restates {ids : List NodeId} {c : Command} (hc : g₀.BlockAt (fun _ => True) ids c)
    (hstop : BlockRestatesTo g₀ ids c) (hend : EndsIn (ids.forM (statement depth)) s t)
    (hg : Untouched g₀ ids s.graph) (hK : s.knowledge.Knows K) :
    ∃ c', t.graph.BlockAt (g₀.Under ids) ids c' ∧ c.Restates K c' ∧
      Rewrites (g₀.Under ids) s.graph t.graph := by
  rcases hend with ⟨_, h⟩ | ⟨_, h⟩
  · obtain ⟨c', K', htree, -, hfolds, -⟩ := block_folds hc _ _ _ _ h hg hK
    exact ⟨c', htree, hfolds.restates, block_rewrites h hg⟩
  · obtain ⟨c', htree, hrestates⟩ := hstop _ _ _ _ _ h hg hK
    exact ⟨c', htree, hrestates, block_stop_rewrites h hg⟩

/-- A branch has the trees of its parts. -/
theorem ifElse_blockAt {cond : NodeId} {thenBlock elseBlock : List NodeId} {c : Test} {a b : Command}
    {g g' : Graph} (node : g₀.node? id = some (.ifElse cond thenBlock elseBlock))
    (hg : Untouched g₀ [id] g) (hr : Rewrites (g₀.Under (cond :: (thenBlock ++ elseBlock))) g g')
    (hc : g'.TestAt (g₀.Under [cond]) cond c) (ha : g'.BlockAt (g₀.Under thenBlock) thenBlock a)
    (hb : g'.BlockAt (g₀.Under elseBlock) elseBlock b) :
    g'.BlockAt (g₀.Under [id]) [id] (.seq (.ifElse c a b) .skip) := by
  have hsub : ∀ n, g₀.Under (cond :: (thenBlock ++ elseBlock)) n → g₀.Under [id] n :=
    fun _ => .of_children List.mem_cons_self node
  exact .ifElse (hg.node_of_rewrites List.mem_cons_self node hr) (under_self List.mem_cons_self)
    (hc.mono fun n h => hsub n (h.mono (by simp))) (ha.mono fun n h => hsub n (h.mono (by simp)))
    (hb.mono fun n h => hsub n (h.mono (by simp))) .nil

/-- A branch that stops means the same as before. -/
theorem ifElse_restates {cond : NodeId} {thenBlock elseBlock : List NodeId} {c : Test} {a b : Command}
    (node : g₀.node? id = some (.ifElse cond thenBlock elseBlock))
    (hc : g₀.TestAt (fun _ => True) cond c) (ha : g₀.BlockAt (fun _ => True) thenBlock a)
    (hb : g₀.BlockAt (fun _ => True) elseBlock b) (hthen : BlockRestatesTo g₀ thenBlock a)
    (helse : BlockRestatesTo g₀ elseBlock b) (hg : Untouched g₀ [id] s.graph)
    (hK : s.knowledge.Knows K) (hstop : StatementStop depth id s err t) :
    StatementRestated g₀ id (.ifElse c a b) K t := by
  have hnode := hg.node?_eq List.mem_cons_self node
  have hparts : Untouched g₀ ([cond] ++ (thenBlock ++ elseBlock)) s.graph :=
    hg.children List.mem_cons_self node
  have hg₁ : Untouched g₀ [cond] s.graph := hparts.sublist (List.sublist_append_left _ _)
  have hsub₁ : ∀ n, g₀.Under [cond] n → g₀.Under (cond :: (thenBlock ++ elseBlock)) n :=
    fun _ => .mono (by simp)
  -- what is known, and what has been touched, once the condition has been simplified
  have hafter : ∀ {s₁}, (condition depth cond).run s = .ok () s₁ →
      s₁.graph.TestAt (g₀.Under [cond]) cond (c.fold K) ∧ s₁.knowledge.Knows K ∧
        Rewrites (g₀.Under [cond]) s.graph s₁.graph ∧
        Untouched g₀ (thenBlock ++ elseBlock) s₁.graph := by
    intro s₁ hcond
    obtain ⟨htest, hk₁⟩ := condition_folds hc hcond hg₁ hK
    have hr₁ := condition_rewrites hcond (hg₁.covers List.mem_cons_self)
    exact ⟨htest, hk₁ ▸ hK, hr₁, hparts.step hr₁⟩
  -- both ends of the second block
  have hlast : ∀ {s₁ s₂ s₃}, (condition depth cond).run s = .ok () s₁ →
      (thenBlock.forM (statement depth)).run { s₁ with knowledge := s₁.knowledge.openFrame } =
        .ok () s₂ →
      EndsIn (elseBlock.forM (statement depth))
        { s₂ with knowledge := s₂.knowledge.closeFrame.openFrame } s₃ →
      StatementRestated g₀ id (.ifElse c a b) K s₃ := by
    intro s₁ s₂ s₃ hcond hrun hend
    obtain ⟨htest, hK₁, hr₁, hblocks⟩ := hafter hcond
    have hg₂ : Untouched g₀ thenBlock s₁.graph := hblocks.sublist (List.sublist_append_left _ _)
    obtain ⟨a', _, htree, -, hfolds, hleads⟩ := block_folds ha _ _ _ _ hrun hg₂ hK₁.openFrame
    obtain ⟨K₂, hK₂, hwithin, -⟩ := hleads.frame_knows hK₁
    have hr₂ := block_rewrites hrun hg₂
    have hg₃ : Untouched g₀ elseBlock s₂.graph := hblocks.step hr₂
    obtain ⟨b', htree', hrestates, hr₃⟩ := block_end_restates hb helse hend hg₃ hK₂.openFrame
    have hr₂₃ := hr₂.append hr₃
    have hkeeps := hparts.separated.keeps hblocks.rewrites hr₂₃
    have hkeeps' := hblocks.separated.keeps hg₃.rewrites hr₃
    exact ⟨.ifElse (c.fold K) a' b', ifElse_blockAt node hg (hr₁.append hr₂₃)
      (htest.congr hkeeps) (htree.congr hkeeps') htree',
      .ifElse (.fold K c) hfolds.restates (hrestates.mono hwithin)⟩
  cases hstop with
  | here => exact ⟨_, hg.blockAt (.ifElse node trivial hc ha hb .nil), .refl K _⟩
  | ifCondition hnode' hcond =>
    cases hnode.symm.trans hnode'
    obtain ⟨c', htest, hrestates⟩ := condition_restates hc hcond hg₁ hK
    have hr₁ := condition_stop_rewrites hcond (hg₁.covers List.mem_cons_self)
    have hblocks : Untouched g₀ (thenBlock ++ elseBlock) t.graph := hparts.step hr₁
    have ha' := (hblocks.sublist (List.sublist_append_left _ _)).blockAt ha
    have hb' := (hblocks.sublist (List.sublist_append_right _ _)).blockAt hb
    exact ⟨.ifElse c' a b, ifElse_blockAt node hg (hr₁.mono hsub₁) htest ha' hb',
      .ifElse hrestates (.refl K a) (.refl K b)⟩
  | thenBlock hnode' hcond hrun =>
    cases hnode.symm.trans hnode'
    obtain ⟨htest, hK₁, hr₁, hblocks⟩ := hafter hcond
    have hg₂ := hblocks.sublist (List.sublist_append_left _ _)
    obtain ⟨a', htree, hrestates, hr₂⟩ :=
      block_end_restates ha hthen (.inr ⟨_, hrun⟩) hg₂ hK₁.openFrame
    have hb' := (hblocks.step hr₂).blockAt hb
    have hsub : ∀ n, g₀.Under thenBlock n → g₀.Under (thenBlock ++ elseBlock) n :=
      fun _ => .mono (by simp)
    have hr₂' := hr₂.mono hsub
    have hkeeps := hparts.separated.keeps hblocks.rewrites hr₂'
    exact ⟨.ifElse (c.fold K) a' b, ifElse_blockAt node hg (hr₁.append hr₂') (htest.congr hkeeps)
      htree hb', .ifElse (.fold K c) hrestates (.refl K b)⟩
  | elseBlock hnode' hcond hrun hrun' =>
    cases hnode.symm.trans hnode'
    have hrestated := hlast hcond hrun (.inr ⟨_, hrun'⟩)
    exact hrestated
  | branches hnode' hcond hrun hrun' =>
    cases hnode.symm.trans hnode'
    have hrestated := hlast hcond hrun (.inl ⟨_, hrun'⟩)
    exact hrestated
  | assignValue hnode' | assigned hnode' | learn hnode' | elementValue hnode' | element hnode'
  | loopCondition hnode' | round hnode' | functionBody hnode' => cases hnode.symm.trans hnode'

/-- A loop that stops means the same as before. -/
theorem whileLoop_restates {cond : NodeId} {body : List NodeId} {c : Test} {b : Command}
    (node : g₀.node? id = some (.whileLoop cond body)) (hc : g₀.TestAt (fun _ => True) cond c)
    (hb : g₀.BlockAt (fun _ => True) body b) (hbody : BlockRestatesTo g₀ body b)
    (hg : Untouched g₀ [id] s.graph) (hK : s.knowledge.Knows K) (hstop : StatementStop depth id s err t) :
    StatementRestated g₀ id (.whileLoop c b) K t := by
  have hnode := hg.node?_eq List.mem_cons_self node
  have hparts : Untouched g₀ ([cond] ++ body) s.graph := hg.children List.mem_cons_self node
  have hg₁ : Untouched g₀ [cond] s.graph := hparts.sublist (List.sublist_append_left _ _)
  have hsub₁ : ∀ n, g₀.Under [cond] n → g₀.Under (cond :: body) n := fun _ => .mono (by simp)
  have hsub₂ : ∀ n, g₀.Under body n → g₀.Under (cond :: body) n := fun _ => .mono (by simp)
  have hsub : ∀ n, g₀.Under (cond :: body) n → g₀.Under [id] n :=
    fun _ => .of_children List.mem_cons_self node
  have htree : ∀ {g c' b'}, Rewrites (g₀.Under (cond :: body)) s.graph g →
      g.TestAt (g₀.Under [cond]) cond c' → g.BlockAt (g₀.Under body) body b' →
        g.BlockAt (g₀.Under [id]) [id] (.seq (.whileLoop c' b') .skip) := by
    intro g c' b' hr hc' hb'
    exact .whileLoop (hg.node_of_rewrites List.mem_cons_self node hr)
      (under_self List.mem_cons_self) (hc'.mono fun n h => hsub n (hsub₁ n h))
      (hb'.mono fun n h => hsub n (hsub₂ n h)) .nil
  -- the names are collected before the body is rewritten, so from the tree it had then
  have hforget : ∀ {names}, s.graph.assignedIn s.functions depth body = .ok names →
      ∃ K₁ : Known, (s.knowledge.invalidateAll names.toList).Knows K₁ ∧ K₁.Within K ∧
        K₁.Ignores b.assigned := by
    intro names hassigned
    obtain ⟨K₁, hK₁, hwithin, hforgotten⟩ := hK.forget names
    have hb' := (hparts.sublist (List.sublist_append_right _ _)).blockAt hb
    exact ⟨K₁, hK₁, hwithin, fun x hx => hforgotten x (hb'.mem_of_assigned hx hassigned)⟩
  cases hstop with
  | here => exact ⟨_, hg.blockAt (.whileLoop node trivial hc hb .nil), .refl K _⟩
  | loopCondition hnode' hassigned hcond =>
    cases hnode.symm.trans hnode'
    obtain ⟨K₁, hK₁, hwithin, hignores⟩ := hforget hassigned
    obtain ⟨c', htest, hrestates⟩ := condition_restates hc hcond hg₁ hK₁
    have hr₁ := condition_stop_rewrites hcond (hg₁.covers List.mem_cons_self)
    have hb' := (hparts.step hr₁).blockAt hb
    exact ⟨.whileLoop c' b, htree (hr₁.mono hsub₁) htest hb',
      .whileLoop hwithin hignores hrestates (.refl K₁ b)⟩
  | @round _ _ _ s₁ _ _ hnode' hassigned hcond hround =>
    cases hnode.symm.trans hnode'
    obtain ⟨K₁, hK₁, hwithin, hignores⟩ := hforget hassigned
    obtain ⟨htest, hk₁⟩ := condition_folds hc hcond hg₁ hK₁
    have hr₁ := condition_rewrites hcond (hg₁.covers List.mem_cons_self)
    have hg₂ := hparts.step hr₁
    have hknows₁ : s₁.knowledge.Knows K₁ := hk₁ ▸ hK₁
    obtain ⟨b', htree', hrestates, hr₂⟩ :=
      block_end_restates hb hbody (.inr ⟨_, hround⟩) hg₂ hknows₁.openFrame
    have hkeeps := hparts.separated.keeps hg₂.rewrites hr₂
    exact ⟨.whileLoop (c.fold K₁) b', htree (hr₁.append hr₂)
      (htest.congr hkeeps) htree', .whileLoop hwithin hignores (.fold K₁ c) hrestates⟩
  | assignValue hnode' | assigned hnode' | learn hnode' | elementValue hnode' | element hnode'
  | ifCondition hnode' | thenBlock hnode' | elseBlock hnode' | branches hnode'
  | functionBody hnode' => cases hnode.symm.trans hnode'

/-- The definition of a function does nothing, however far its body has been simplified. -/
theorem functionDef_restates {name : String} {params body : List NodeId} {returns : Kind}
    (node : g₀.node? id = some (.functionDef name params body returns))
    (hg : Untouched g₀ [id] s.graph) (hstop : StatementStop depth id s err t) :
    StatementRestated g₀ id .skip K t := by
  have hnode := hg.node?_eq List.mem_cons_self node
  cases hstop with
  | here => exact ⟨_, hg.blockAt (S := fun _ => True) (.functionDef node trivial .nil), .refl K _⟩
  | functionBody hnode' hbody =>
    cases hnode.symm.trans hnode'
    have hparts : Untouched g₀ (params ++ body) s.graph := hg.children List.mem_cons_self node
    have hr := block_stop_rewrites hbody (hparts.sublist (List.sublist_append_right _ _))
    have hnode'' := hg.node_of_rewrites List.mem_cons_self node
      (hr.mono fun _ => .mono (by simp [Node.children]))
    exact ⟨.skip, .functionDef hnode'' (under_self List.mem_cons_self) .nil, .refl K _⟩
  | assignValue hnode' | assigned hnode' | learn hnode' | elementValue hnode' | element hnode'
  | ifCondition hnode' | thenBlock hnode' | elseBlock hnode' | branches hnode'
  | loopCondition hnode' | round hnode' => cases hnode.symm.trans hnode'

/-- Simplifying a list of statements keeps its meaning when it stops. -/
theorem block_restates {ids : List NodeId} {c : Command} (h : g₀.BlockAt (fun _ => True) ids c) :
    BlockRestatesTo g₀ ids c := by
  induction h with
  | nil =>
    intro depth s t err K h
    cases h
  | assign node mem htarget he hrest ih =>
    exact .cons (.assign node mem htarget he .nil) hrest
      (fun _ _ _ _ _ hstop hg hK => assign_restates node htarget he hg hK hstop) ih
  | ifElse node mem test ha hb hrest iha ihb ih =>
    exact .cons (.ifElse node mem test ha hb .nil) hrest
      (fun _ _ _ _ _ hstop hg hK => ifElse_restates node test ha hb iha ihb hg hK hstop) ih
  | whileLoop node mem test hb hrest ihb ih =>
    exact .cons (.whileLoop node mem test hb .nil) hrest
      (fun _ _ _ _ _ hstop hg hK => whileLoop_restates node test hb ihb hg hK hstop) ih
  | functionDef node mem hrest ih =>
    exact .cons (.functionDef node mem .nil) hrest
      (fun _ _ _ _ _ hstop hg _ => functionDef_restates node hg hstop) ih
  | debug node hrest ih =>
    refine .cons (.debug node .nil) hrest (fun depth s t err K hstop hg hK => ?_) ih
    have hnode := hg.node?_eq List.mem_cons_self node
    cases hstop with
    | here => exact ⟨_, hg.blockAt (S := fun _ => True) (.debug node .nil), .refl K _⟩
    | assignValue hnode' | assigned hnode' | learn hnode' | elementValue hnode' | element hnode'
    | ifCondition hnode' | thenBlock hnode' | elseBlock hnode' | branches hnode'
    | loopCondition hnode' | round hnode' | functionBody hnode' => cases hnode.symm.trans hnode'

end PropagateM

namespace Program

variable {p : Program} {c : Command} {s : Propagation}

/-- A graph that is as large as a program's has a tree that can be read, if it is no higher than the
program's. -/
theorem command?_of_blockAt (hc : p.command? = some c) {g : Graph} {S : NodeId → Prop} {c' : Command}
    (h : g.BlockAt S p.body c') (hheight : c'.height ≤ c.height) (hsize : p.graph.size ≤ g.size) :
    ({ p with graph := g } : Program).command? = some c' := by
  have hle : c.height ≤ p.graph.size + 1 :=
    Graph.height_of_block? (fun _ _ => Graph.height_of_command?) hc
  have hle' : c'.height ≤ g.size + 1 := by omega
  exact Graph.block?_of_blockAt h hle'

/-- Without sharing, constant propagation that comes to its end folds the tree of a program by what
it knows in the end. -/
theorem propagate_ok_folds (hunshared : p.Unshared) (hc : p.command? = some c)
    (h : p.propagate = .ok () s) :
    ∃ c' K, ({ p with graph := s.graph } : Program).command? = some c' ∧
      c.Folds (fun _ => none) c' K ∧ s.knowledge.Knows K := by
  have htree := Graph.BlockAt.of_program hc
  have huntouched : p.graph.Untouched p.body p.graph :=
    ⟨hunshared.separated, .refl _ _, fun _ _ _ h => h⟩
  obtain ⟨c', K, htree', hknows, hfolds, -⟩ :=
    PropagateM.block_folds htree _ _ _ _ h huntouched .empty
  have hsize : p.graph.size ≤ s.graph.size := (PropagateM.block_rewrites h huntouched).size_le
  exact ⟨c', K, command?_of_blockAt hc htree' hfolds.height_le hsize, hfolds, hknows⟩

/-- Without sharing, constant propagation that stops leaves a tree that means the same. -/
theorem propagate_error_restates (hunshared : p.Unshared) (hc : p.command? = some c)
    {e : Stop CompileError} (h : p.propagate = .error e s) :
    ∃ c', ({ p with graph := s.graph } : Program).command? = some c' ∧
      c.Restates (fun _ => none) c' := by
  have htree := Graph.BlockAt.of_program hc
  have huntouched : p.graph.Untouched p.body p.graph :=
    ⟨hunshared.separated, .refl _ _, fun _ _ _ h => h⟩
  obtain ⟨c', htree', hrestates⟩ :=
    PropagateM.block_restates htree _ _ _ _ _ h huntouched .empty
  have hsize : p.graph.size ≤ s.graph.size := (PropagateM.block_stop_rewrites h huntouched).size_le
  exact ⟨c', command?_of_blockAt hc htree' hrestates.height_le hsize, hrestates⟩

/-- Constant propagation keeps the meaning of a checked program without sharing whose code has
neither arrays nor calls, whether it comes to its end or stops: the program that it leaves runs
alike for every number of rounds, so with the same output, and with the same store in the end. If it
comes to its end, every value that is known then is the one that the name holds whenever the program
terminates. -/
theorem propagation_keeps_meaning (hcheck : p.check = .ok ()) (hunshared : p.Unshared)
    (hscalar : p.ScalarCode) (hend : p.propagate = .ok () s ∨ ∃ e, p.propagate = .error e s) :
    ∃ c c', p.command? = some c ∧ ({ p with graph := s.graph } : Program).command? = some c' ∧
      (∀ fuel, c'.eval fuel .empty = c.eval fuel .empty) ∧
      (∀ st, c'.Terminates st ↔ c.Terminates st) ∧
      (∀ st, c'.ReadsUnassigned st ↔ c.ReadsUnassigned st) ∧ (c'.Diverges ↔ c.Diverges) ∧
      (p.propagate = .ok () s → ∀ x l, s.knowledge.lookup x = some l → ∀ st, c.Terminates st →
        ∃ v, l = .scalar v ∧ st.env x = some v) := by
  obtain ⟨c, hc⟩ := exists_command? hcheck hscalar
  have hleft : ∃ c', ({ p with graph := s.graph } : Program).command? = some c' ∧
      c.Restates (fun _ => none) c' := by
    rcases hend with h | ⟨e, h⟩
    · obtain ⟨c', K, hc', hfolds, -⟩ := propagate_ok_folds hunshared hc h
      exact ⟨c', hc', hfolds.restates⟩
    · exact propagate_error_restates hunshared hc h
  obtain ⟨c', hc', hrestates⟩ := hleft
  refine ⟨c, c', hc, hc', hrestates.eval_empty, hrestates.terminates_iff,
    hrestates.readsUnassigned_iff, hrestates.diverges_iff, fun h x l hl st hst => ?_⟩
  obtain ⟨c'', K, -, hfolds, hknows⟩ := propagate_ok_folds hunshared hc h
  obtain ⟨fuel, hfuel⟩ := hst
  rw [hknows x, Option.map_eq_some_iff] at hl
  obtain ⟨v, hv, rfl⟩ := hl
  exact ⟨v, rfl, (hfolds.eval_eq nofun).2 st hfuel x v hv⟩

/-- A program in which constant propagation stops at an operation on arrays in the body of a
function, when it has already computed a value: `x = 2; y = x + 3; def f() (a = [1, 2]; b = a + a);
while y > x do y = y - x; print "done"`. -/
def stoppedInFunction : Program :=
  ⟨.ofNodes [.constant (.scalar 2), .var (.scalar "x"), .assign ⟨1⟩ ⟨0⟩,
    .constant (.scalar 3), .var (.scalar "y"), .arithmetic .add ⟨1⟩ ⟨3⟩, .assign ⟨4⟩ ⟨5⟩,
    .constant (.array [1, 2]), .var (.array "a" 2), .assign ⟨8⟩ ⟨7⟩,
    .arithmetic .add ⟨8⟩ ⟨8⟩, .var (.array "b" 2), .assign ⟨11⟩ ⟨10⟩,
    .functionDef "f" [] [⟨9⟩, ⟨12⟩] .scalar,
    .comparison .greater ⟨4⟩ ⟨1⟩, .arithmetic .sub ⟨4⟩ ⟨1⟩, .assign ⟨4⟩ ⟨15⟩,
    .whileLoop ⟨14⟩ [⟨16⟩], .debug "done"],
  [⟨2⟩, ⟨6⟩, ⟨13⟩, ⟨17⟩, ⟨18⟩]⟩

/-- Propagation has changed the graph when it stops, and the command still means the same. -/
theorem propagation_keeps_meaning_stoppedInFunction : stoppedInFunction.check = .ok () ∧
    stoppedInFunction.Unshared ∧ stoppedInFunction.ScalarCode ∧
    ∃ e s, stoppedInFunction.propagate = .error e s ∧ s.graph ≠ stoppedInFunction.graph ∧
      ∃ c c', stoppedInFunction.command? = some c ∧
        ({ stoppedInFunction with graph := s.graph } : Program).command? = some c' ∧
        (∀ fuel, c'.eval fuel .empty = c.eval fuel .empty) ∧
        (∀ st, c'.Terminates st ↔ c.Terminates st) ∧
        (∀ st, c'.ReadsUnassigned st ↔ c.ReadsUnassigned st) ∧ (c'.Diverges ↔ c.Diverges) := by
  have hcheck : stoppedInFunction.check = .ok () := by decide +kernel
  have hunshared : stoppedInFunction.Unshared := unshared_of_nodup (by decide +kernel)
  have hscalar : stoppedInFunction.ScalarCode :=
    scalarCode_of_closed ([2, 1, 0, 6, 4, 5, 3, 13, 17, 14, 16, 15, 18].map NodeId.mk)
      (by decide +kernel) (by decide +kernel)
  have hstop : (match stoppedInFunction.propagate with
    | .error _ s => decide (s.graph ≠ stoppedInFunction.graph)
    | .ok .. => false) = true := by decide +kernel
  split at hstop
  next e s hpropagate =>
    obtain ⟨c, c', hc, hc', hruns, hterminates, hreads, hdiverges, -⟩ :=
      propagation_keeps_meaning hcheck hunshared hscalar (.inr ⟨e, hpropagate⟩)
    exact ⟨hcheck, hunshared, hscalar, e, s, hpropagate, of_decide_eq_true hstop, c, c', hc, hc',
      hruns, hterminates, hreads, hdiverges⟩
  next => cases hstop

end Program

end RegisterBackend
