import RegisterBackend.Compile
import RegisterBackend.Proofs.GraphEdges
import RegisterBackend.Proofs.StoppedPropagation

/-!
# What constant propagation changes

Constant propagation leaves the body of a program and adds nothing but constants to its graph. A
node that was there stays as it is, except that the slots for values may refer to new constants
(`Program.propagate_rewrites`). This also holds where the pass stops.

Each constant that is added is counted, as the result of an operation or as the value of a variable.
A slot changes only if a constant has been added for it, so a node is exchanged only if something
has been counted (`Graph.Accounts`). If the pass ends, the graph has therefore grown by what was
counted, and it is the same graph, edges included, exactly if nothing was
(`Program.optimize_effects`).
-/

namespace RegisterBackend

/-- The number of all changes. -/
def PropagationStats.total (c : PropagationStats) : Nat :=
  c.folded + c.substituted

theorem PropagationStats.changed_eq_false_iff (c : PropagationStats) :
    c.changed = false ↔ c.total = 0 := by
  simp [changed, total]

namespace Graph

variable {g g₁ g₂ : Graph} {c c₁ c₂ : PropagationStats}

/-- One node is added. -/
theorem size_add {node : Node} {id : NodeId} (h : g.add node = .ok (id, g₁)) :
    g₁.size = g.size + 1 := by
  obtain ⟨g', hchildren, hpure⟩ := bind_eq_ok.1 h
  cases hpure
  rw [(addChildren_eq_ok hchildren).2]
  exact Array.size_push _

/-- The graph has grown by what was counted in between, and is the same if nothing was. -/
structure Accounts (g : Graph) (c : PropagationStats) (g' : Graph) (c' : PropagationStats) :
    Prop where
  size : g'.size + c.total = g.size + c'.total
  le : c.total ≤ c'.total
  same : c'.total = c.total → g' = g

namespace Accounts

theorem refl (g : Graph) (c : PropagationStats) : Accounts g c g c :=
  ⟨rfl, Nat.le_refl _, fun _ => rfl⟩

/-- What is counted in two stretches accounts for the growth over both. -/
theorem trans (h₁ : Accounts g c g₁ c₁) (h₂ : Accounts g₁ c₁ g₂ c₂) : Accounts g c g₂ c₂ := by
  have hle₁ := h₁.le
  have hle₂ := h₂.le
  have hsize₁ := h₁.size
  have hsize₂ := h₂.size
  refine ⟨by omega, by omega, fun heq => ?_⟩
  rw [h₂.same (by omega), h₁.same (by omega)]

/-- A constant that is added is counted. -/
theorem add {l : Literal} {id : NodeId} (hadd : g.add (.constant l) = .ok (id, g₁))
    (hc : c₁.total = c.total + 1) : Accounts g c g₁ c₁ := by
  have hsize := size_add hadd
  refine ⟨by omega, by omega, fun heq => ?_⟩
  omega

/-- A node is exchanged only for another one, and only if something was counted. -/
theorem update {s t : Propagation} {id : NodeId} {old new : Node}
    (h : Accounts g c s.graph s.stats) (hsame : s.stats.total = c.total → new = old)
    (hrun : (PropagateM.update id old new).run s = .ok () t) : Accounts g c t.graph t.stats := by
  by_cases heq : new = old
  · subst heq
    cases (PropagateM.run_update_self id new).symm.trans hrun
    exact h
  · rcases PropagateM.run_update_ok hrun with ⟨hnew, -⟩ | ⟨g', hreplace, rfl⟩
    · exact absurd hnew heq
    · have hsize := (replace_eq_ok hreplace).2
      exact ⟨hsize ▸ h.size, h.le, fun hc => absurd (hsame hc) heq⟩

end Accounts

end Graph

namespace PropagateM

open RegisterBackend.Graph (Accounts Rewrites)

variable {s t u : Propagation} {depth : Nat} {id id' : NodeId}

/-! ## Evaluables -/

/-- Steps on a node that count what they add, and return the same node if they count nothing. -/
def Counted (f : NodeId → PropagateM NodeId) : Prop :=
  ∀ id id' s t, (f id).run s = .ok id' t → Accounts s.graph s.stats t.graph t.stats ∧
    (t.stats.total = s.stats.total → id' = id)

/-- A list of nodes is gone through one after the other. If nothing is counted, the list is the
same. -/
theorem Counted.mapM {f : NodeId → PropagateM NodeId} (hf : Counted f) {ids ids' : List NodeId}
    (h : (ids.mapM f).run s = .ok ids' t) : Accounts s.graph s.stats t.graph t.stats ∧
      (t.stats.total = s.stats.total → ids' = ids) := by
  induction ids generalizing ids' s with
  | nil =>
    cases h
    exact ⟨.refl _ _, fun _ => rfl⟩
  | cons id ids ih =>
    obtain ⟨id', u, rest, hid, hrest, rfl⟩ := run_mapM_cons_eq_ok.1 h
    obtain ⟨hfirst, hid'⟩ := hf _ _ _ _ hid
    obtain ⟨hthen, hrest'⟩ := ih hrest
    have hle := hfirst.le
    have hle' := hthen.le
    refine ⟨hfirst.trans hthen, fun heq => ?_⟩
    rw [hid' (by omega), hrest' (by omega)]

/-- Of two operands, both stay the same if nothing is counted. -/
theorem Counted.operands {f : NodeId → PropagateM NodeId} (hf : Counted f)
    {lhs rhs left right : NodeId} (hleft : (f lhs).run s = .ok left t)
    (hright : (f rhs).run t = .ok right u) : Accounts s.graph s.stats u.graph u.stats ∧
      (u.stats.total = s.stats.total → left = lhs ∧ right = rhs) := by
  obtain ⟨hfirst, hleft'⟩ := hf _ _ _ _ hleft
  obtain ⟨hthen, hright'⟩ := hf _ _ _ _ hright
  have hle := hfirst.le
  have hle' := hthen.le
  exact ⟨hfirst.trans hthen, fun heq => ⟨hleft' (by omega), hright' (by omega)⟩⟩

/-- The result of an operation is counted. -/
theorem collapse_accounts {op : ArithOp} {lhs rhs : NodeId}
    (h : (collapse id op lhs rhs).run s = .ok id' t) : Accounts s.graph s.stats t.graph t.stats ∧
      (t.stats.total = s.stats.total → id' = id) := by
  unfold collapse at h
  obtain ⟨left, _, hrun, h⟩ := run_bind_eq_ok.1 h
  obtain ⟨-, rfl⟩ := run_nodeAt_ok hrun
  obtain ⟨right, _, hrun, h⟩ := run_bind_eq_ok.1 h
  obtain ⟨-, rfl⟩ := run_nodeAt_ok hrun
  split at h
  next =>
    obtain ⟨_, _, hstats, h⟩ := run_bind_eq_ok.1 h
    cases hstats
    obtain ⟨g, hadd, rfl⟩ := run_addConstant_ok h
    have hcount : (s.stats.folded + 1) + s.stats.substituted = s.stats.total + 1 :=
      Nat.add_right_comm _ _ _
    exact ⟨.add hadd hcount, fun heq => absurd (hcount.symm.trans heq) (Nat.succ_ne_self _)⟩
  next => cases h
  next => cases h
  next =>
    cases h
    exact ⟨.refl _ _, fun _ => rfl⟩

/-- The value of a variable is counted. -/
theorem run_expr_known {v : Variable} {l : Literal} {g : Graph}
    (hnode : s.graph.node? id = some (.var v)) (hlookup : s.knowledge.lookup v.name = some l)
    (hadd : s.graph.add (.constant l) = .ok (id', g)) : (expr (depth + 1) id).run s = .ok id'
      { s with graph := g, stats := { s.stats with substituted := s.stats.substituted + 1 } } := by
  rw [expr, run_bind_ok (run_nodeAt hnode)]
  dsimp only
  rw [run_get_bind, hlookup]
  refine run_bind_eq_ok.2 ⟨(), _, rfl, ?_⟩
  rw [addConstant, run_get_bind, hadd]
  rfl

/-- Simplifying an evaluable counts the constants that it adds, and returns the node itself if it
adds none. -/
theorem expr_counted (depth : Nat) : Counted (expr depth) := by
  induction depth with
  | zero => exact fun _ _ _ _ h => nomatch h
  | succ depth ih =>
    intro id id' s t h
    cases run_expr_ok h with
    | constant | unknown => exact ⟨.refl _ _, fun _ => rfl⟩
    | known hnode hlookup hadd =>
      cases h.symm.trans (run_expr_known hnode hlookup hadd)
      exact ⟨.add hadd rfl, fun heq => absurd heq (Nat.succ_ne_self _)⟩
    | @arithmetic op lhs rhs left right s₁ s₂ s₃ _ _ hnode hleft hright hupdate hcollapse =>
      obtain ⟨hoperands, hsame⟩ := ih.operands hleft hright
      have hnew := hoperands.update (fun heq => by rw [(hsame heq).1, (hsame heq).2]) hupdate
      obtain ⟨hcount, hid'⟩ := collapse_accounts hcollapse
      have hle := hnew.le
      have hle' := hcount.le
      exact ⟨hnew.trans hcount, fun heq => hid' (by omega)⟩
    | call hnode hargs hupdate =>
      obtain ⟨hcount, hsame⟩ := ih.mapM hargs
      have hnew := hcount.update (fun heq => by rw [hsame heq]) hupdate
      exact ⟨hnew, fun _ => rfl⟩

/-! ## Statements -/

/-- Simplifying a condition counts the constants that it adds. -/
theorem condition_accounts (h : (condition depth id).run s = .ok () t) :
    Accounts s.graph s.stats t.graph t.stats := by
  obtain ⟨op, lhs, rhs, left, right, s₁, s₂, -, hleft, hright, hupdate⟩ := run_condition_ok h
  obtain ⟨hoperands, hsame⟩ := (expr_counted depth).operands hleft hright
  exact hoperands.update (fun heq => by rw [(hsame heq).1, (hsame heq).2]) hupdate

/-- Simplifying a block counts what its statements add. -/
theorem forM_accounts
    (hstep : ∀ {id s t}, (statement depth id).run s = .ok () t →
      Accounts s.graph s.stats t.graph t.stats) {ids : List NodeId}
    (h : (ids.forM (statement depth)).run s = .ok () t) :
    Accounts s.graph s.stats t.graph t.stats := by
  induction ids generalizing s with
  | nil =>
    cases h
    exact .refl _ _
  | cons id ids ih =>
    obtain ⟨u, hid, hids⟩ := run_forM_cons_eq_ok.1 h
    exact (hstep hid).trans (ih hids)

/-- A statement counts what it adds. -/
theorem statement_accounts (h : (statement depth id).run s = .ok () t) :
    Accounts s.graph s.stats t.graph t.stats := by
  induction depth generalizing id s t with
  | zero => cases h
  | succ depth ih =>
    cases run_statement_ok h with
    | assign hnode _ hvalue hupdate hlearn =>
      obtain ⟨hcount, hsame⟩ := expr_counted depth _ _ _ _ hvalue
      have hnew := hcount.update (fun heq => by rw [hsame heq]) hupdate
      rcases run_learn_ok hlearn with ⟨l, -, rfl⟩ | ⟨-, rfl⟩ <;> exact hnew
    | updateElement hnode hvalue hupdate =>
      obtain ⟨hcount, hsame⟩ := expr_counted depth _ _ _ _ hvalue
      have hnew := hcount.update (fun heq => by rw [hsame heq]) hupdate
      exact hnew
    | ifElse hnode hcond hthen helse =>
      have h₁ := condition_accounts hcond
      have h₂ := forM_accounts ih hthen
      have h₃ := forM_accounts ih helse
      exact (h₁.trans h₂).trans h₃
    | whileLoop hnode _ hcond hround =>
      have h₁ := condition_accounts hcond
      have h₂ := forM_accounts ih hround
      exact h₁.trans h₂
    | functionDef hnode hbody =>
      have hinner := forM_accounts ih hbody
      exact hinner
    | debug => exact .refl _ _

end PropagateM

/-! ## Programs -/

namespace Program

open RegisterBackend.Graph (Rewrites)

/-- What constant propagation has done to the graph, whether it ends or stops. -/
theorem propagate_rewrites {p : Program} {s : Propagation}
    (h : p.propagate = .ok () s ∨ ∃ e, p.propagate = .error e s) :
    Rewrites (fun _ => True) p.graph s.graph := by
  rcases h with hok | ⟨e, herror⟩
  · exact PropagateM.forM_rewrites (fun _ _ _ => PropagateM.statement_rewrites) hok
      fun _ _ _ _ _ _ _ => trivial
  · exact PropagateM.forM_stop_rewrites PropagateM.statement_stop_rewrites herror
      fun _ _ _ _ _ _ _ => trivial

/-- The graph after constant propagation is that of the pass, and the body is as before. -/
theorem propagate_of_optimize {p p' : Program}
    (h : (∃ stats, p.optimize = .ok stats p') ∨ ∃ e, p.optimize = .error e p') :
    ∃ s, p' = { p with graph := s.graph } ∧
      (p.propagate = .ok () s ∨ ∃ e, p.propagate = .error e s) ∧
      ∀ stats, p.optimize = .ok stats p' → p.propagate = .ok () s ∧ stats = s.stats := by
  unfold optimize at h ⊢
  cases hrun : p.propagate with
  | ok _ s =>
    rw [hrun] at h
    rcases h with ⟨stats, h⟩ | ⟨e, h⟩
    · cases h
      refine ⟨s, rfl, .inl rfl, fun stats h => ?_⟩
      cases h
      exact ⟨rfl, rfl⟩
    · cases h
  | error e s =>
    rw [hrun] at h
    rcases h with ⟨stats, h⟩ | ⟨e, h⟩
    · cases h
    · cases h
      exact ⟨s, rfl, .inr ⟨e, rfl⟩, nofun⟩

/-- What constant propagation changes, whether it ends or stops. The body stays, and all new nodes
are constants. A node that was there is the same one, or it is one of the five sorts of nodes that
hold values and its slots for values are the same or refer to new constants. If the pass ends, the
graph has grown by the number of changes, and it is the same graph exactly if there is none. -/
theorem optimize_effects {p p' : Program}
    (h : (∃ stats, p.optimize = .ok stats p') ∨ ∃ e, p.optimize = .error e p') :
    p'.body = p.body ∧
    (∀ n node, p.graph.node? n = none → p'.graph.node? n = some node → ∃ l, node = .constant l) ∧
    (∀ n node, p.graph.node? n = some node → ∃ node', p'.graph.node? n = some node' ∧
      node.Amends (fun c c' => c' = c ∨ p.graph.node? c' = none ∧ p'.graph.IsConstant c') node' ∧
      (node.shape ∈ [.constant, .var, .debug, .ifElse, .whileLoop, .functionDef] → node' = node)) ∧
    ∀ stats, p.optimize = .ok stats p' →
      p'.graph.size = p.graph.size + (stats.folded + stats.substituted) ∧
      (stats.changed = false ↔ p'.graph = p.graph) := by
  obtain ⟨s, rfl, hend, hok⟩ := propagate_of_optimize h
  have hr := propagate_rewrites hend
  refine ⟨rfl, fun n node hnone hnode => hr.fresh hnone hnode, fun n node hnode => ?_,
    fun stats hstats => ?_⟩
  · obtain ⟨node', hnode', hamends⟩ := hr.kept hnode
    refine ⟨node', hnode', hamends.mono fun c c' hc => ?_, fun hshape => ?_⟩
    · exact hc.imp_right fun ⟨hnone, hconst, _⟩ => ⟨hnone, hconst⟩
    · cases hamends with
      | same => rfl
      | _ => simp [Node.shape] at hshape
  · obtain ⟨hrun, rfl⟩ := hok stats hstats
    have haccounts := PropagateM.forM_accounts PropagateM.statement_accounts hrun
    have hsize : s.graph.size = p.graph.size + s.stats.total := haccounts.size
    refine ⟨hsize, ?_⟩
    rw [PropagationStats.changed_eq_false_iff]
    constructor
    · exact haccounts.same
    · intro hgraph
      have heq : s.graph.size = p.graph.size := congrArg Graph.size hgraph
      omega

/-- Two assignments of one sum, and one of a sum of arrays: `x = 1; y = x + 2; z = x + 2; w = [1] +
[2]`, where the first two sums are one node. -/
def sharedSum (body : List NodeId) : Program :=
  ⟨.ofNodes [.constant (.scalar 1), .var (.scalar "x"), .assign ⟨1⟩ ⟨0⟩,
    .var (.scalar "x"), .constant (.scalar 2), .arithmetic .add ⟨3⟩ ⟨4⟩,
    .var (.scalar "y"), .assign ⟨6⟩ ⟨5⟩, .var (.scalar "z"), .assign ⟨8⟩ ⟨5⟩,
    .constant (.array [1]), .constant (.array [2]), .arithmetic .add ⟨10⟩ ⟨11⟩,
    .var (.array "w" 1), .assign ⟨13⟩ ⟨12⟩],
  body⟩

/-- The sum is computed twice, and each time counted; and the changes made before the pass stops are
of the same sort. -/
theorem optimize_effects_sharedSum :
    (∃ stats p', (sharedSum [⟨2⟩, ⟨7⟩, ⟨9⟩]).optimize = .ok stats p' ∧ stats = ⟨2, 1⟩ ∧
      p'.body = [⟨2⟩, ⟨7⟩, ⟨9⟩] ∧
      p'.graph.size = (sharedSum [⟨2⟩, ⟨7⟩, ⟨9⟩]).graph.size + 3 ∧
      p'.graph ≠ (sharedSum [⟨2⟩, ⟨7⟩, ⟨9⟩]).graph) ∧
    ∃ e p', (sharedSum [⟨2⟩, ⟨7⟩, ⟨14⟩]).optimize = .error e p' ∧
      e = .error (.unsupported ⟨12⟩ (.arrayArithmetic .add)) ∧ p'.body = [⟨2⟩, ⟨7⟩, ⟨14⟩] ∧
      p'.graph.node? ⟨14⟩ = some (.assign ⟨13⟩ ⟨12⟩) ∧
      ∀ n node, (sharedSum [⟨2⟩, ⟨7⟩, ⟨14⟩]).graph.node? n = none → p'.graph.node? n = some node →
        ∃ l, node = .constant l := by
  have hok : ∃ stats p', (sharedSum [⟨2⟩, ⟨7⟩, ⟨9⟩]).optimize = .ok stats p' ∧ stats = ⟨2, 1⟩ := by
    decide +kernel
  have hstop : ∃ e p', (sharedSum [⟨2⟩, ⟨7⟩, ⟨14⟩]).optimize = .error e p' ∧
      e = .error (.unsupported ⟨12⟩ (.arrayArithmetic .add)) ∧
      p'.graph.node? ⟨14⟩ = some (.assign ⟨13⟩ ⟨12⟩) := by decide +kernel
  obtain ⟨stats, p', hp', rfl⟩ := hok
  obtain ⟨e, q, hq, he, hnode⟩ := hstop
  obtain ⟨hbody, -, -, hcount⟩ := optimize_effects (.inl ⟨_, hp'⟩)
  obtain ⟨hsize, hchanged⟩ := hcount _ hp'
  obtain ⟨hbody', hfresh, -⟩ := optimize_effects (.inr ⟨e, hq⟩)
  exact ⟨⟨_, p', hp', rfl, hbody, hsize, fun hsame => nomatch hchanged.2 hsame⟩,
    e, q, hq, he, hbody', hnode, hfresh⟩

end Program

end RegisterBackend
