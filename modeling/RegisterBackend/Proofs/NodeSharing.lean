import RegisterBackend.Proofs.PipelineAgreement
import RegisterBackend.Proofs.SharedPropagation

/-!
# Sharing and the compiled code

A program with sharing and its unfolding, compiled with constant propagation, need not have the same
code: what a shared node becomes for one of its uses is there for the others too, where other values
may be known (`Program.staleSum_differs`). They have the same code if any two copies of a node are
simplified alike in the unfolding (`Program.bytecode_eq_of_copiesAlike`).

The statements of the program are simplified along the trace that the unfolding leaves
(`Unfolding.Simplified.block_mirrored`). In the end the nodes of the program agree with their
copies, and so both have the same tree and are lowered alike.
-/

namespace RegisterBackend

namespace Graph

variable {g : Graph} {S : NodeId → Prop} {id : NodeId} {ids : List NodeId}

/-- The trees of a statement and of the statements behind it. -/
theorem BlockAt.exists_cons {c : Command} (h : g.BlockAt S (id :: ids) c) :
    ∃ c₁ c₂, c = .seq c₁ c₂ ∧ g.BlockAt S [id] (.seq c₁ .skip) ∧ g.BlockAt S ids c₂ := by
  cases h with
  | assign node mem target value rest =>
    exact ⟨_, _, rfl, .assign node mem target value .nil, rest⟩
  | ifElse node mem test thenBranch elseBranch rest =>
    exact ⟨_, _, rfl, .ifElse node mem test thenBranch elseBranch .nil, rest⟩
  | whileLoop node mem test round rest =>
    exact ⟨_, _, rfl, .whileLoop node mem test round .nil, rest⟩
  | functionDef node mem rest => exact ⟨_, _, rfl, .functionDef node mem .nil, rest⟩
  | debug node rest => exact ⟨_, _, rfl, .debug node .nil, rest⟩

end Graph

/-- A list whose elements are images one by one is the image of the list. -/
theorem eq_map_of_forall₂ {π : NodeId → NodeId} {ids ys : List NodeId}
    (h : List.Forall₂ (fun c y => y = π c) ids ys) : ys = ids.map π := by
  induction h with
  | nil => rfl
  | cons hy _ ih => rw [hy, ih, List.map_cons]

/-- A branch, a loop or a definition has no slots that are computed. -/
theorem Node.Amends.eq_of_shape {R : NodeId → NodeId → Prop} {node node' : Node}
    (h : node.Amends R node')
    (hshape : node.shape = .ifElse ∨ node.shape = .whileLoop ∨ node.shape = .functionDef) :
    node' = node := by
  cases h with
  | same => rfl
  | _ => rcases hshape with h | h | h <;> cases h

/-- What is learnt of a name depends on the constant that is assigned, and not on its node. -/
theorem Knowledge.learn_congr (k : Knowledge) (x : String) {a b : Option Node}
    (h : ∀ l, a = some (.constant l) ↔ b = some (.constant l)) : k.learn x a = k.learn x b := by
  unfold learn
  split
  next l =>
    rw [(h l).1 rfl]
  next hnot =>
    split
    next l => exact absurd ((h l).2 rfl) (hnot l)
    next => rfl

namespace Unfolding

open RegisterBackend.Graph (Rewrites)

/-! ## Statements -/

/-- Simplifying statements has followed the unfolding: the nodes of their tree agree with their
copies. -/
structure BlockMirror (π : NodeId → NodeId) (u : Program) (g' : Graph) (ids : List NodeId)
    (g g₁ : Graph) : Prop where
  follows : Follows π u g' g g₁
  trees : ∀ c, g'.BlockAt (fun _ => True) ids c → g'.BlockAt (Agrees π u g' g₁) ids c

/-- Statements of the program are simplified as those of the unfolding are. -/
def MirrorsBlock (π : NodeId → NodeId) (u p : Program) (g' : Graph) (k : Knowledge)
    (f : NameMap NameSet) (ids : List NodeId) (k' : Knowledge) (f' : NameMap NameSet) : Prop :=
  ∀ depth s t, ((ids.map π).forM (PropagateM.statement depth)).run s = .ok () t →
    Follows π u g' p.graph s.graph → Rewrites (fun _ => True) p.graph s.graph →
    s.knowledge = k → s.functions = f →
      BlockMirror π u g' ids s.graph t.graph ∧ t.knowledge = k' ∧ t.functions = f'

/-- A statement of the program is simplified as that of the unfolding is. -/
def MirrorsStatement (π : NodeId → NodeId) (u p : Program) (g' : Graph) (k : Knowledge)
    (f : NameMap NameSet) (id : NodeId) (k' : Knowledge) (f' : NameMap NameSet) : Prop :=
  ∀ depth s t, PropagateM.StatementRun depth (π id) s t → Follows π u g' p.graph s.graph →
    Rewrites (fun _ => True) p.graph s.graph → s.knowledge = k → s.functions = f →
      BlockMirror π u g' [id] s.graph t.graph ∧ t.knowledge = k' ∧ t.functions = f'

variable {π : NodeId → NodeId} {u p : Program} {g g' g₁ : Graph} {id : NodeId} {ids : List NodeId}
  {k k' k₁ : Knowledge} {f f' f₁ : NameMap NameSet} {depth : Nat} {s t : Propagation}

/-- A block is simplified as the unfolding is if its first statement and the others are. -/
theorem MirrorsStatement.cons (h : MirrorsStatement π u p g' k f id k₁ f₁)
    (hrest : MirrorsBlock π u p g' k₁ f₁ ids k' f') :
    MirrorsBlock π u p g' k f (id :: ids) k' f' := by
  intro depth s t hrun hs hr hk hf
  obtain ⟨s₁, hid, hids⟩ := run_forM_cons_eq_ok.1 hrun
  cases depth with
  | zero => cases hid
  | succ depth =>
    obtain ⟨hfirst, hk₁, hf₁⟩ := h _ _ _ (PropagateM.run_statement_ok hid) hs hr hk hf
    have hr₁ := hr.trans (PropagateM.statement_rewrites hid (.all _ _))
    obtain ⟨hmirror, hk', hf'⟩ := hrest _ _ _ hids (hs.trans hfirst.follows) hr₁ hk₁ hf₁
    refine ⟨⟨hfirst.follows.trans hmirror.follows, fun c hc => ?_⟩, hk', hf'⟩
    obtain ⟨c₁, c₂, rfl, hc₁, hc₂⟩ := hc.exists_cons
    exact ((hfirst.trees _ hc₁).mono fun _ => hmirror.follows.agrees).cons (hmirror.trees _ hc₂)

/-- A block and its copies assign the same names. -/
theorem assigns_eq (h : Unfolding π u p) {names names' : NameSet}
    (hnames : u.graph.Assigns f ids names) (hg : Rewrites (fun _ => True) p.graph g)
    (hids : ∀ c ∈ ids, u.Reachable c) (hassigned : g.assignedIn f depth (ids.map π) = .ok names') :
    names = names' := by
  obtain ⟨g₁, d, hg₁, hassigned₁⟩ := hnames
  exact h.assignedIn_eq hg₁ hg hids hassigned₁ hassigned

namespace Simplified

/-- An assignment is simplified as that of the unfolding is: its value becomes the same constant or
stays. -/
theorem assign_mirrored (h : Simplified π u g' p) {target value value' : NodeId} {v : Variable}
    (hid : u.Reachable id) (node : u.graph.node? id = some (.assign target value))
    (var : u.graph.node? target = some (.var v))
    (hvalue : u.graph.ExprTrace g' f k [value] k₁ [value'])
    (final : g'.node? id = some (.assign target value')) :
    MirrorsStatement π u p g' k f id (k₁.learn v.name (g'.node? value')) f := by
  intro depth s t hrun hs hr hk hf
  have hnode : ∃ y, s.graph.node? (π id) = some (.assign (π target) y) ∧
      List.Forall₂ (fun e y => Slot π g' s.graph e.1 e.2 y) ([value].zip [value']) [y] := by
    obtain ⟨node', hnode', rfl | hmatches⟩ := h.exists_node hs hid node final
    · exact ⟨_, hnode', slots_map hvalue.slots⟩
    · cases hmatches with
      | assign htarget hstands =>
        cases htarget
        exact ⟨_, hnode', slots_of_stands hvalue (.cons hstands .nil)⟩
  obtain ⟨y, hnode, hslots⟩ := hnode
  have hchild : ∀ c ∈ [target, value], u.Reachable c := fun c hc => hid.child ⟨_, node, hc⟩
  cases hrun with
  | @assign _ _ y' _ s₁ s₂ _ hnode' htarget hrun' hupdate hlearn =>
    cases hnode.symm.trans hnode'
    cases htarget.symm.trans
      (h.copied_leaf hs (hchild target (by simp)) (h.rewrites.leaf rfl var) rfl)
    have hvalue' := h.exprs_mirrored hvalue fun c hc => hchild c (by simp_all)
    obtain ⟨hmirror, hagrees, hk₁, hf₂⟩ := h.slots_mirrored hvalue'
      (PropagateM.run_mapM_singleton hrun') hupdate hid hnode final rfl hslots
      (fun | .cons hv .nil => .assign rfl hv) hs hk hf
    have hconst : ∀ l, g'.node? value' = some (.constant l) ↔
        s₂.graph.node? y' = some (.constant l) := by simpa using hmirror.constant_iff
    cases PropagateM.run_learn_eq hlearn
    refine ⟨⟨hmirror.follows, fun c hc => ?_⟩, ?_, hf₂⟩
    · cases hc with
      | assign node' _ htarget' htree rest =>
        cases final.symm.trans node'
        cases rest
        exact .assign node' hagrees htarget' (hmirror.trees _ (by simp) _ htree) .nil
      | ifElse node' | whileLoop node' | functionDef node' | debug node' =>
        cases final.symm.trans node'
    · rw [← hk₁]
      exact (s₂.knowledge.learn_congr _ hconst).symm
  | updateElement hnode' | ifElse hnode' | whileLoop hnode' | functionDef hnode' | debug hnode' =>
    cases hnode.symm.trans hnode'

/-- The assignment of an element is simplified as that of the unfolding is, and the array is
forgotten in both. -/
theorem updateElement_mirrored (h : Simplified π u g' p) {target value value' : NodeId} {index : Nat}
    {v : Variable} (hid : u.Reachable id)
    (node : u.graph.node? id = some (.updateElement target index value))
    (var : u.graph.node? target = some (.var v))
    (hvalue : u.graph.ExprTrace g' f k [value] k₁ [value'])
    (final : g'.node? id = some (.updateElement target index value')) :
    MirrorsStatement π u p g' k f id (k₁.invalidate v.name) f := by
  intro depth s t hrun hs hr hk hf
  have hnode : ∃ y, s.graph.node? (π id) = some (.updateElement (π target) index y) ∧
      List.Forall₂ (fun e y => Slot π g' s.graph e.1 e.2 y) ([value].zip [value']) [y] := by
    obtain ⟨node', hnode', rfl | hmatches⟩ := h.exists_node hs hid node final
    · exact ⟨_, hnode', slots_map hvalue.slots⟩
    · cases hmatches with
      | updateElement htarget hstands =>
        cases htarget
        exact ⟨_, hnode', slots_of_stands hvalue (.cons hstands .nil)⟩
  obtain ⟨y, hnode, hslots⟩ := hnode
  have hchild : ∀ c ∈ [target, value], u.Reachable c := fun c hc => hid.child ⟨_, node, hc⟩
  cases hrun with
  | @updateElement _ _ _ y' _ s₁ s₂ hnode' hrun' hupdate htarget =>
    cases hnode.symm.trans hnode'
    cases htarget.symm.trans
      (h.copied_leaf hs (hchild target (by simp)) (h.rewrites.leaf rfl var) rfl)
    have hvalue' := h.exprs_mirrored hvalue fun c hc => hchild c (by simp_all)
    obtain ⟨hmirror, -, hk₁, hf₂⟩ := h.slots_mirrored hvalue' (PropagateM.run_mapM_singleton hrun')
      hupdate hid hnode final rfl hslots (fun | .cons hv .nil => .updateElement rfl hv) hs hk hf
    refine ⟨⟨hmirror.follows, fun c hc => ?_⟩, by rw [hk₁], hf₂⟩
    cases hc with
    | assign node' | ifElse node' | whileLoop node' | functionDef node' | debug node' =>
      cases final.symm.trans node'
  | assign hnode' | ifElse hnode' | whileLoop hnode' | functionDef hnode' | debug hnode' =>
    cases hnode.symm.trans hnode'

/-- The node of a branch, a loop or a definition stays, and agrees with its copies. -/
theorem agrees_of_shape (h : Simplified π u g' p) {node : Node} (hid : u.Reachable id)
    (hnode : u.graph.node? id = some node) (hfinal : g'.node? id = some node)
    (hshape : node.shape = .ifElse ∨ node.shape = .whileLoop ∨ node.shape = .functionDef)
    (hg : Follows π u g' p.graph g) (hr : Rewrites (fun _ => True) p.graph g) :
    g.node? (π id) = some (node.map π) ∧ Agrees π u g' g id := by
  have hmap := h.unfolding.node_of_node? hid hnode
  obtain ⟨node', hnode', hamends⟩ := hr.kept hmap
  obtain rfl : node' = node.map π := hamends.eq_of_shape (by rwa [Node.shape_map])
  exact ⟨hnode', h.agrees_of_same hg hid hnode hfinal (hnode'.trans hmap.symm)⟩

/-- A branch is simplified as that of the unfolding is, if its two blocks are, one after the
other. -/
theorem ifElse_mirrored (h : Simplified π u g' p) {cond : NodeId} {thenBlock elseBlock : List NodeId}
    {k₂ k₃ : Knowledge} {f₂ f₃ : NameMap NameSet} {names : NameSet} (hid : u.Reachable id)
    (node : u.graph.node? id = some (.ifElse cond thenBlock elseBlock))
    (test : u.graph.TestTrace g' f k cond k₁)
    (hthen : MirrorsBlock π u p g' k₁.openFrame f thenBlock k₂ f₂)
    (helse : MirrorsBlock π u p g' k₂.closeFrame.openFrame f₂ elseBlock k₃ f₃)
    (hnames : u.graph.Assigns f₃ (thenBlock ++ elseBlock) names)
    (final : g'.node? id = some (.ifElse cond thenBlock elseBlock)) :
    MirrorsStatement π u p g' k f id (k₃.closeFrame.invalidateAll names.toList) f₃ := by
  intro depth s t hrun hs hr hk hf
  have hchild : ∀ c ∈ cond :: (thenBlock ++ elseBlock), u.Reachable c :=
    fun c hc => hid.child ⟨_, node, hc⟩
  have hnode := (h.agrees_of_shape hid node final (.inl rfl) hs hr).1
  cases hrun with
  | @ifElse _ _ _ s₁ s₂ s₃ names' hnode' hcond hrunThen hrunElse hassigned =>
    cases hnode.symm.trans hnode'
    -- the condition and the blocks are simplified one after the other
    obtain ⟨hfollows₁, hk₁, hf₁, htest⟩ :=
      h.condition_mirrored test (hchild cond (by simp)) hcond hs hk hf
    have hr₁ := hr.trans (PropagateM.condition_rewrites hcond (.all _ _))
    obtain ⟨hmirror₂, hk₂, hf₂⟩ :=
      hthen _ _ _ hrunThen (hs.trans hfollows₁) hr₁ (by rw [hk₁]) hf₁
    have hstep₂ := PropagateM.forM_statement_rewrites hrunThen
    have hr₂ := hr₁.trans hstep₂
    obtain ⟨hmirror₃, hk₃, hf₃⟩ := helse _ _ _ hrunElse
      ((hs.trans hfollows₁).trans hmirror₂.follows) hr₂ (by rw [hk₂]) hf₂
    have hstep₃ := PropagateM.forM_statement_rewrites hrunElse
    have hr₃ := hr₂.trans hstep₃
    -- the same names are forgotten, though the blocks have been rewritten apart
    rw [hf₃, ← List.map_append] at hassigned
    obtain rfl := h.unfolding.assigns_eq hnames hr₃
      (fun c hc => hchild c (List.mem_cons_of_mem _ hc)) hassigned
    have hfollows := (hfollows₁.trans hmirror₂.follows).trans hmirror₃.follows
    refine ⟨⟨hfollows, fun c hc => ?_⟩, by rw [hk₃], hf₃⟩
    cases hc with
    | ifElse node' _ test' hthen' helse' rest =>
      cases final.symm.trans node'
      cases rest
      have hfollows₃ := hmirror₂.follows.trans hmirror₃.follows
      have hagrees := (h.agrees_of_shape hid node final (.inl rfl) (hs.trans hfollows) hr₃).2
      exact .ifElse node' hagrees ((htest _ test').mono fun _ => hfollows₃.agrees)
        ((hmirror₂.trees _ hthen').mono fun _ => hmirror₃.follows.agrees)
        (hmirror₃.trees _ helse') .nil
    | assign node' | whileLoop node' | functionDef node' | debug node' => cases final.symm.trans node'
  | assign hnode' | updateElement hnode' | whileLoop hnode' | functionDef hnode' | debug hnode' =>
    cases hnode.symm.trans hnode'

/-- A loop is simplified as that of the unfolding is, if its body is. The names that are forgotten
before it are the same. -/
theorem whileLoop_mirrored (h : Simplified π u g' p) {cond : NodeId} {body : List NodeId}
    {k₂ : Knowledge} {f₂ : NameMap NameSet} {names : NameSet} (hid : u.Reachable id)
    (node : u.graph.node? id = some (.whileLoop cond body)) (hnames : u.graph.Assigns f body names)
    (test : u.graph.TestTrace g' f (k.invalidateAll names.toList) cond k₁)
    (hbody : MirrorsBlock π u p g' k₁.openFrame f body k₂ f₂)
    (final : g'.node? id = some (.whileLoop cond body)) :
    MirrorsStatement π u p g' k f id (k₂.closeFrame.invalidateAll names.toList) f₂ := by
  intro depth s t hrun hs hr hk hf
  have hchild : ∀ c ∈ cond :: body, u.Reachable c := fun c hc => hid.child ⟨_, node, hc⟩
  have hnode := (h.agrees_of_shape hid node final (.inr (.inl rfl)) hs hr).1
  cases hrun with
  | @whileLoop _ _ s₁ s₂ names' hnode' hassigned hcond hround =>
    cases hnode.symm.trans hnode'
    rw [hf] at hassigned
    obtain rfl := h.unfolding.assigns_eq hnames hr
      (fun c hc => hchild c (List.mem_cons_of_mem _ hc)) hassigned
    obtain ⟨hfollows₁, hk₁, hf₁, htest⟩ :=
      h.condition_mirrored test (hchild cond (by simp)) hcond hs (by rw [hk]) hf
    have hstep₁ := PropagateM.condition_rewrites hcond (.all _ _)
    have hr₁ := hr.trans hstep₁
    obtain ⟨hmirror₂, hk₂, hf₂⟩ :=
      hbody _ _ _ hround (hs.trans hfollows₁) hr₁ (by rw [hk₁]) hf₁
    have hstep₂ := PropagateM.forM_statement_rewrites hround
    have hr₂ := hr₁.trans hstep₂
    have hfollows := hfollows₁.trans hmirror₂.follows
    refine ⟨⟨hfollows, fun c hc => ?_⟩, by rw [hk₂], hf₂⟩
    cases hc with
    | whileLoop node' _ test' hround' rest =>
      cases final.symm.trans node'
      cases rest
      have hagrees := (h.agrees_of_shape hid node final (.inr (.inl rfl)) (hs.trans hfollows) hr₂).2
      exact .whileLoop node' hagrees ((htest _ test').mono fun _ => hmirror₂.follows.agrees)
        (hmirror₂.trees _ hround') .nil
    | assign node' | ifElse node' | functionDef node' | debug node' => cases final.symm.trans node'
  | assign hnode' | updateElement hnode' | ifElse hnode' | functionDef hnode' | debug hnode' =>
    cases hnode.symm.trans hnode'

/-- A function is simplified as that of the unfolding is, if its body is. What is noted for it is
the same. -/
theorem functionDef_mirrored (h : Simplified π u g' p) {name : String} {params body : List NodeId}
    {returns : Kind} {names : NameSet} (hid : u.Reachable id)
    (node : u.graph.node? id = some (.functionDef name params body returns))
    (hnames : u.graph.Assigns f body names)
    (hbody : MirrorsBlock π u p g' .empty (PropagateM.noted f name names) body k₁ f₁)
    (final : g'.node? id = some (.functionDef name params body returns)) :
    MirrorsStatement π u p g' k f id k f₁ := by
  intro depth s t hrun hs hr hk hf
  have hnode := (h.agrees_of_shape hid node final (.inr (.inr rfl)) hs hr).1
  cases hrun with
  | @functionDef _ _ _ _ names' s₁ hnode' hrun' hassigned =>
    cases hnode.symm.trans hnode'
    rw [hf] at hassigned
    obtain rfl := h.unfolding.assigns_eq hnames hr
      (fun c hc => hid.child ⟨_, node, List.mem_append_right _ hc⟩) hassigned
    obtain ⟨hmirror, -, hf₁⟩ := hbody _ _ _ hrun' hs hr rfl (by rw [hf])
    have hstep := PropagateM.forM_statement_rewrites hrun'
    have hr₁ := hr.trans hstep
    refine ⟨⟨hmirror.follows, fun c hc => ?_⟩, hk, hf₁⟩
    cases hc with
    | functionDef node' _ rest =>
      cases rest
      have hagrees :=
        (h.agrees_of_shape hid node final (.inr (.inr rfl)) (hs.trans hmirror.follows) hr₁).2
      exact .functionDef node' hagrees .nil
    | assign node' | ifElse node' | whileLoop node' | debug node' => cases final.symm.trans node'
  | assign hnode' | updateElement hnode' | ifElse hnode' | whileLoop hnode' | debug hnode' =>
    cases hnode.symm.trans hnode'

/-- A line of debug output is simplified nowhere. -/
theorem debug_mirrored (h : Simplified π u g' p) {text : String} (hid : u.Reachable id)
    (node : u.graph.node? id = some (.debug text)) : MirrorsStatement π u p g' k f id k f := by
  intro depth s t hrun hs hr hk hf
  have hfinal := h.rewrites.leaf rfl node
  have hnode := h.copied_leaf hs hid hfinal rfl
  cases hrun with
  | debug =>
    refine ⟨⟨.refl _, fun c hc => ?_⟩, hk, hf⟩
    cases hc with
    | debug node' rest =>
      cases rest
      exact .debug node' .nil
    | assign node' | ifElse node' | whileLoop node' | functionDef node' =>
      cases hfinal.symm.trans node'
  | assign hnode' | updateElement hnode' | ifElse hnode' | whileLoop hnode' | functionDef hnode' =>
    cases hnode.symm.trans hnode'

/-- Statements of the program are simplified along the trace of the unfolding. -/
theorem block_mirrored (h : Simplified π u g' p) (htrace : u.graph.BlockTrace g' k f ids k' f')
    (hids : ∀ c ∈ ids, u.Reachable c) : MirrorsBlock π u p g' k f ids k' f' := by
  induction htrace with
  | nil =>
    intro depth s t hrun hs hr hk hf
    cases hrun
    exact ⟨⟨.refl _, fun c hc => by cases hc; exact .nil⟩, hk, hf⟩
  | assign node var hvalue final _ ih =>
    obtain ⟨hid, hrest⟩ := List.forall_mem_cons.1 hids
    exact (h.assign_mirrored hid node var hvalue final).cons (ih hrest)
  | updateElement node var hvalue final _ ih =>
    obtain ⟨hid, hrest⟩ := List.forall_mem_cons.1 hids
    exact (h.updateElement_mirrored hid node var hvalue final).cons (ih hrest)
  | ifElse node test _ _ hnames final _ ihthen ihelse ih =>
    obtain ⟨hid, hrest⟩ := List.forall_mem_cons.1 hids
    have hthen := ihthen fun c hc => hid.child ⟨_, node, by simp [Node.children, hc]⟩
    have helse := ihelse fun c hc => hid.child ⟨_, node, by simp [Node.children, hc]⟩
    exact (h.ifElse_mirrored hid node test hthen helse hnames final).cons (ih hrest)
  | whileLoop node hnames test _ final _ ihbody ih =>
    obtain ⟨hid, hrest⟩ := List.forall_mem_cons.1 hids
    have hbody := ihbody fun c hc => hid.child ⟨_, node, by simp [Node.children, hc]⟩
    exact (h.whileLoop_mirrored hid node hnames test hbody final).cons (ih hrest)
  | functionDef node hnames _ final _ ihbody ih =>
    obtain ⟨hid, hrest⟩ := List.forall_mem_cons.1 hids
    have hbody := ihbody fun c hc => hid.child ⟨_, node, by simp [Node.children, hc]⟩
    exact (h.functionDef_mirrored hid node hnames hbody final).cons (ih hrest)
  | debug node _ ih =>
    obtain ⟨hid, hrest⟩ := List.forall_mem_cons.1 hids
    exact (h.debug_mirrored hid node).cons (ih hrest)

/-! ## Trees -/

/-- What a copy refers to in the end is a copy or a constant. -/
theorem reachable_or_constant (h : Simplified π u g' p) {a b : NodeId} (ha : u.Reachable a)
    (hab : g'.Child a b) : u.Reachable b ∨ g'.IsConstant b :=
  (h.rewrites.child hab).imp_left ha.child

/-- An evaluable of the program has the tree of what it stands for. -/
theorem exprAt (h : Simplified π u g' p) (hg : Follows π u g' p.graph g) {c y : NodeId} {e : Expr}
    (he : g'.ExprAt (Agrees π u g' g) c e) (hy : Stands π g' g c y)
    (hc : u.Reachable c ∨ g'.IsConstant c) : g.ExprAt (fun _ => True) y e := by
  induction he generalizing y with
  | const node =>
    rcases hy with ⟨hnot, -⟩ | ⟨l, hl, hy⟩
    · exact absurd ⟨_, node⟩ hnot
    · cases node.symm.trans hl
      exact .const hy
  | var node kind =>
    rcases hy with ⟨hnot, rfl⟩ | ⟨l, hl, -⟩
    · exact .var (h.copied_leaf hg (hc.resolve_right hnot) node rfl) kind
    · cases node.symm.trans hl
  | @arith id op lhs rhs a b node hagrees _ _ ihl ihr =>
    have hchild : ∀ c ∈ [lhs, rhs], u.Reachable c ∨ g'.IsConstant c :=
      fun c hc => h.reachable_or_constant hagrees.1 ⟨_, node, hc⟩
    rcases hy with ⟨-, rfl⟩ | ⟨l, hl, -⟩
    · obtain ⟨node', hnode', hmatches⟩ := hagrees.exists_matches node
      cases hmatches with
      | arithmetic hleft hright =>
        exact .arith hnode' trivial (ihl hleft (hchild lhs (by simp)))
          (ihr hright (hchild rhs (by simp)))
    · cases node.symm.trans hl

/-- A comparison has the tree that its copies have. -/
theorem testAt (h : Simplified π u g' p) (hg : Follows π u g' p.graph g) {c : NodeId} {e : Test}
    (he : g'.TestAt (Agrees π u g' g) c e) : g.TestAt (fun _ => True) (π c) e := by
  obtain ⟨hagrees, lhs, rhs, node, hl, hr⟩ := he
  have hchild : ∀ c ∈ [lhs, rhs], u.Reachable c ∨ g'.IsConstant c :=
    fun c hc => h.reachable_or_constant hagrees.1 ⟨_, node, hc⟩
  obtain ⟨node', hnode', hmatches⟩ := hagrees.exists_matches node
  cases hmatches with
  | comparison hleft hright =>
    exact ⟨trivial, _, _, hnode', h.exprAt hg hl hleft (hchild lhs (by simp)),
      h.exprAt hg hr hright (hchild rhs (by simp))⟩

/-- Statements of the program have the tree of their copies, if the nodes of that tree agree. -/
theorem blockAt (h : Simplified π u g' p) (hg : Follows π u g' p.graph g) {c : Command}
    (hc : g'.BlockAt (Agrees π u g' g) ids c)
    (hids : ∀ id ∈ ids, u.Reachable id ∨ g'.IsConstant id) :
    g.BlockAt (fun _ => True) (ids.map π) c := by
  induction hc with
  | nil => exact .nil
  | @assign id ids target value x e c node hagrees htarget hvalue _ ih =>
    obtain ⟨-, hrest⟩ := List.forall_mem_cons.1 hids
    have hchild : ∀ c ∈ [target, value], u.Reachable c ∨ g'.IsConstant c :=
      fun c hc => h.reachable_or_constant hagrees.1 ⟨_, node, hc⟩
    obtain ⟨node', hnode', hmatches⟩ := hagrees.exists_matches node
    cases hmatches with
    | assign hcopied hy =>
      cases hcopied
      obtain ⟨v, hv, hkind, rfl⟩ := Graph.target?_eq_some.1 htarget
      have hreach : u.Reachable target := (hchild target (by simp)).resolve_right
        fun ⟨l, hl⟩ => by cases hv.symm.trans hl
      exact .assign hnode' trivial
        (Graph.target?_eq_some.2 ⟨v, h.copied_leaf hg hreach hv rfl, hkind, rfl⟩)
        (h.exprAt hg hvalue hy (hchild value (by simp))) (ih hrest)
  | ifElse node hagrees test _ _ _ iha ihb ih =>
    obtain ⟨-, hrest⟩ := List.forall_mem_cons.1 hids
    obtain ⟨node', hnode', hmatches⟩ := hagrees.exists_matches node
    cases hmatches with
    | ifElse hcond hthen helse =>
      cases hcond
      cases eq_map_of_forall₂ hthen
      cases eq_map_of_forall₂ helse
      have ha := iha fun c hc =>
        h.reachable_or_constant hagrees.1 ⟨_, node, by simp [Node.children, hc]⟩
      have hb := ihb fun c hc =>
        h.reachable_or_constant hagrees.1 ⟨_, node, by simp [Node.children, hc]⟩
      exact .ifElse hnode' trivial (h.testAt hg test) ha hb (ih hrest)
  | whileLoop node hagrees test _ _ ihb ih =>
    obtain ⟨-, hrest⟩ := List.forall_mem_cons.1 hids
    obtain ⟨node', hnode', hmatches⟩ := hagrees.exists_matches node
    cases hmatches with
    | whileLoop hcond hbody =>
      cases hcond
      cases eq_map_of_forall₂ hbody
      have hb := ihb fun c hc =>
        h.reachable_or_constant hagrees.1 ⟨_, node, by simp [Node.children, hc]⟩
      exact .whileLoop hnode' trivial (h.testAt hg test) hb (ih hrest)
  | functionDef node hagrees _ ih =>
    obtain ⟨-, hrest⟩ := List.forall_mem_cons.1 hids
    obtain ⟨node', hnode', hmatches⟩ := hagrees.exists_matches node
    cases hmatches with
    | functionDef => exact .functionDef hnode' trivial (ih hrest)
  | debug node _ ih =>
    obtain ⟨hid, hrest⟩ := List.forall_mem_cons.1 hids
    have hreach := hid.resolve_right fun ⟨l, hl⟩ => by cases node.symm.trans hl
    exact .debug (h.copied_leaf hg hreach node rfl) (ih hrest)

end Simplified

end Unfolding

namespace Program

variable {π : NodeId → NodeId} {u p u' p' : Program}

open PropagateM in
/-- A program and its unfolding, both compiled with constant propagation, have the same code if any
two copies of a node are alike in the unfolding when it has been simplified. -/
theorem bytecode_eq_of_copiesAlike {cu cp : Compiled} (h : Unfolding π u p)
    (hu : u.compile true = .ok cu u') (hp : p.compile true = .ok cp p')
    (halike : Unfolding.CopiesAlike π u u'.graph) : cp.bytecode = cu.bytecode := by
  obtain ⟨⟨su, hsu, rfl⟩, hlower⟩ := compile_true_eq_ok hu
  obtain ⟨⟨sp, hsp, rfl⟩, hlower'⟩ := compile_true_eq_ok hp
  have hroots : ∀ id ∈ u.body, u.Reachable id := fun id hid => ⟨id, hid, .refl⟩
  have huntouched : u.graph.Untouched u.body u.graph :=
    ⟨h.tree.separated, .refl _ _, fun _ _ _ h => h⟩
  have hclosed : u.graph.Closed u.body := fun n hn => by
    obtain ⟨node, hnode, -⟩ := h.node hn
    exact ⟨node, hnode⟩
  have htrace := block_traced u.graph su.graph _ _ _ _ hsu huntouched hclosed fun _ _ _ h => h
  have hsimplified : Unfolding.Simplified π u su.graph p :=
    ⟨h, forM_statement_rewrites hsu, halike⟩
  -- the program is simplified along with the unfolding
  have hrun : ((u.body.map π).forM (statement p.graph.depth)).run (.start p.graph) = .ok () sp := by
    rw [← h.body]
    exact hsp
  obtain ⟨hmirror, -, -⟩ := hsimplified.block_mirrored htrace hroots _ _ _ hrun (.refl _)
    (.refl _ _) rfl rfl
  -- so both have one tree
  obtain ⟨c, hc, hemitted, hcode, -⟩ := lower_eq_ok hlower
  obtain ⟨c', hc', hemitted', hcode', -⟩ := lower_eq_ok hlower'
  have htree : su.graph.BlockAt (fun _ => True) u.body c :=
    Graph.blockAt_of_block? (fun _ _ => Graph.blockAt_of_command?) hc
  have htree' : sp.graph.BlockAt (fun _ => True) p.body c' :=
    Graph.blockAt_of_block? (fun _ _ => Graph.blockAt_of_command?) hc'
  have hsame := hsimplified.blockAt hmirror.follows (hmirror.trees c htree)
    fun id hid => .inl (hroots id hid)
  rw [← h.body] at hsame
  obtain rfl : c' = c := hsame.unique htree'
  obtain ⟨-, heq⟩ : () = () ∧ _ := EStateM.Result.ok.inj (hemitted.symm.trans hemitted')
  rw [hcode, hcode', heq]

/-- `x = 2; y = x + 3; if x + 3 > 4 then w = y else w = y`, where both sums are one node, and both
blocks hold one statement. -/
def sharedBranch : Program :=
  ⟨.ofNodes [.var (.scalar "x"), .constant (.scalar 2), .assign ⟨0⟩ ⟨1⟩,
    .constant (.scalar 3), .arithmetic .add ⟨0⟩ ⟨3⟩, .var (.scalar "y"), .assign ⟨5⟩ ⟨4⟩,
    .constant (.scalar 4), .comparison .greater ⟨4⟩ ⟨7⟩,
    .var (.scalar "w"), .assign ⟨9⟩ ⟨5⟩, .ifElse ⟨8⟩ [⟨10⟩] [⟨10⟩]],
  [⟨2⟩, ⟨6⟩, ⟨11⟩]⟩

/-- The unfolding of `sharedBranch`, and the node that each node is a copy of. -/
def unfoldedBranch : Program :=
  ⟨.ofNodes [.var (.scalar "x"), .constant (.scalar 2), .assign ⟨0⟩ ⟨1⟩,
    .var (.scalar "x"), .constant (.scalar 3), .arithmetic .add ⟨3⟩ ⟨4⟩,
    .var (.scalar "y"), .assign ⟨6⟩ ⟨5⟩,
    .var (.scalar "x"), .constant (.scalar 3), .arithmetic .add ⟨8⟩ ⟨9⟩, .constant (.scalar 4),
    .comparison .greater ⟨10⟩ ⟨11⟩, .var (.scalar "w"), .var (.scalar "y"), .assign ⟨13⟩ ⟨14⟩,
    .var (.scalar "w"), .var (.scalar "y"), .assign ⟨16⟩ ⟨17⟩, .ifElse ⟨12⟩ [⟨15⟩] [⟨18⟩]],
  [⟨2⟩, ⟨7⟩, ⟨19⟩]⟩

@[inherit_doc unfoldedBranch]
def unfoldedBranch.original (id : NodeId) : NodeId :=
  ⟨[0, 1, 2, 0, 3, 4, 5, 6, 0, 3, 4, 7, 8, 9, 5, 10, 9, 5, 10, 11].getD id.index 12⟩

/-- The copies of the sum and of the statement are simplified alike, so sharing them changes
nothing. -/
theorem bytecode_eq_of_copiesAlike_sharedBranch :
    Unfolding unfoldedBranch.original unfoldedBranch sharedBranch ∧ ¬ sharedBranch.Unshared ∧
    ∃ cu u' cp p', unfoldedBranch.compile true = .ok cu u' ∧ sharedBranch.compile true = .ok cp p' ∧
      Unfolding.CopiesAlike unfoldedBranch.original unfoldedBranch u'.graph ∧
      cp.bytecode = cu.bytecode := by
  have hunfolding : Unfolding unfoldedBranch.original unfoldedBranch sharedBranch :=
    .of_consistsOfCopies (by decide +kernel) (by decide +kernel)
      (unshared_of_nodup (by decide +kernel))
  have hshared : ¬ sharedBranch.Unshared := fun hunshared => by
    have hroot : sharedBranch.Reachable ⟨11⟩ := ⟨⟨11⟩, by decide, .refl⟩
    have hthen : sharedBranch.Fills (.child ⟨11⟩ 1) ⟨10⟩ := ⟨hroot, _, rfl, rfl⟩
    have helse : sharedBranch.Fills (.child ⟨11⟩ 2) ⟨10⟩ := ⟨hroot, _, rfl, rfl⟩
    cases hunshared.slot_eq rfl rfl hthen helse
  have hboth : (match unfoldedBranch.compile true, sharedBranch.compile true with
    | .ok _ u', .ok _ _ => Unfolding.copiesAlike unfoldedBranch.original unfoldedBranch u'.graph
    | _, _ => false) = true := by decide +kernel
  split at hboth
  next cu u' cp p' hu hp =>
    have halike := Unfolding.copiesAlike_of_check hunfolding hboth
    exact ⟨hunfolding, hshared, cu, u', cp, p', hu, hp, halike,
      bytecode_eq_of_copiesAlike hunfolding hu hp halike⟩
  next => cases hboth

/-- `x = 1; y = x + 1; x = 5; z = x + 1`, where both sums are one node. -/
def staleSum : Program :=
  ⟨.ofNodes [.var (.scalar "x"), .constant (.scalar 1), .assign ⟨0⟩ ⟨1⟩,
    .constant (.scalar 1), .arithmetic .add ⟨0⟩ ⟨3⟩, .var (.scalar "y"), .assign ⟨5⟩ ⟨4⟩,
    .constant (.scalar 5), .assign ⟨0⟩ ⟨7⟩, .var (.scalar "z"), .assign ⟨9⟩ ⟨4⟩],
  [⟨2⟩, ⟨6⟩, ⟨8⟩, ⟨10⟩]⟩

/-- The unfolding of `staleSum`, and the node that each node is a copy of. -/
def unfoldedSum : Program :=
  ⟨.ofNodes [.var (.scalar "x"), .constant (.scalar 1), .assign ⟨0⟩ ⟨1⟩,
    .var (.scalar "x"), .constant (.scalar 1), .arithmetic .add ⟨3⟩ ⟨4⟩,
    .var (.scalar "y"), .assign ⟨6⟩ ⟨5⟩,
    .var (.scalar "x"), .constant (.scalar 5), .assign ⟨8⟩ ⟨9⟩,
    .var (.scalar "x"), .constant (.scalar 1), .arithmetic .add ⟨11⟩ ⟨12⟩,
    .var (.scalar "z"), .assign ⟨14⟩ ⟨13⟩],
  [⟨2⟩, ⟨7⟩, ⟨10⟩, ⟨15⟩]⟩

@[inherit_doc unfoldedSum]
def unfoldedSum.original (id : NodeId) : NodeId :=
  ⟨[0, 1, 2, 0, 3, 4, 5, 6, 0, 7, 8, 0, 3, 4, 9, 10].getD id.index 11⟩

/-- In `staleSum` the sum is `2` for its second use as well, and in the unfolding it is `6`. -/
theorem staleSum_differs : Unfolding unfoldedSum.original unfoldedSum staleSum ∧
    ∃ cu u' cp p', unfoldedSum.compile true = .ok cu u' ∧ staleSum.compile true = .ok cp p' ∧
      cu.bytecode.render = "SET REG_0, 1\nSET REG_1, 2\nSET REG_2, 5\nSET REG_3, 6\n" ∧
      cp.bytecode.render = "SET REG_0, 1\nSET REG_1, 2\nSET REG_2, 5\nSET REG_3, 2\n" ∧
      cp.bytecode ≠ cu.bytecode := by
  have hunfolding : Unfolding unfoldedSum.original unfoldedSum staleSum :=
    .of_consistsOfCopies (by decide +kernel) (by decide +kernel)
      (unshared_of_nodup (by decide +kernel))
  have hboth : (match unfoldedSum.compile true, staleSum.compile true with
    | .ok cu _, .ok cp _ => decide
      (cu.bytecode.render = "SET REG_0, 1\nSET REG_1, 2\nSET REG_2, 5\nSET REG_3, 6\n" ∧
        cp.bytecode.render = "SET REG_0, 1\nSET REG_1, 2\nSET REG_2, 5\nSET REG_3, 2\n" ∧
        cp.bytecode ≠ cu.bytecode)
    | _, _ => false) = true := by decide +kernel
  split at hboth
  next cu u' cp p' hu hp =>
    exact ⟨hunfolding, cu, u', cp, p', hu, hp, of_decide_eq_true hboth⟩
  next => cases hboth

end Program

end RegisterBackend
