import RegisterBackend.Proofs.KnowledgeFrames
import RegisterBackend.Proofs.PropagationSteps
import RegisterBackend.Proofs.Substitution
import RegisterBackend.Proofs.Unshared

/-!
# Where array constants come from

Constant propagation computes with numbers only, so an array constant in a slot is one that was
there from the start or the known value of the variable that was there. Values become known by
assignments: `Program.MayHold` follows them from the array constants of a program through the
assignments of one variable to another. `Program.yields_of_propagate` says that constant propagation
puts an array constant only into the place of a variable that may hold it in this sense.
-/

namespace RegisterBackend

open RegisterBackend.Graph (Substitutes)

/-! ## Arrays that variables may hold -/

namespace Program

/-- A variable is assigned a node of the given form, somewhere in the program. -/
def Assigns (p : Program) (v : Variable) (node : Node) : Prop :=
  ∃ id target value, p.Reachable id ∧ p.graph.node? id = some (.assign target value) ∧
    p.graph.node? target = some (.var v) ∧ p.graph.node? value = some node

/-- The elements are those of an array constant that is assigned to the name, or to another one that
is assigned to it. Neither the order of the assignments counts nor whether they run. -/
inductive MayHold (p : Program) : String → List Int8 → Prop
  | literal {v elements} (h : p.Assigns v (.constant (.array elements))) : MayHold p v.name elements
  | copy {v w elements} (h : p.Assigns v (.var w)) (hw : MayHold p w.name elements) :
    MayHold p v.name elements

end Program

/-- What is known of a name is a number, or an array that the name may hold. -/
def Literal.Held (F : String → List Int8 → Prop) (x : String) (l : Literal) : Prop :=
  ∀ elements, l = .array elements → F x elements

/-- A constant may stand in the place of a node: it is a number, or the node is the same array
constant or a variable that may hold it. -/
def Graph.Yields (g : Graph) (F : String → List Int8 → Prop) (c : NodeId) (l : Literal) : Prop :=
  ∀ elements node, l = .array elements → g.node? c = some node →
    node = .constant l ∨ ∃ w, node = .var w ∧ F w.name elements

namespace Graph

variable {g g₁ g₂ : Graph} {F : String → List Int8 → Prop} {c c₁ c₂ : NodeId}

theorem yields_scalar (value : Int64) : g.Yields F c (.scalar value) :=
  nofun

/-- What may stand in the place of a node after some rewriting may do so from the start. -/
theorem Yields.of_substitutes {l : Literal} (h : g₁.Yields F c l)
    (hsub : Substitutes (g.Yields F) g g₁) : g.Yields F c l := by
  intro elements node hl hnode
  obtain ⟨node₁, hnode₁, -⟩ := hsub.kept hnode
  rcases h elements node₁ hl hnode₁ with rfl | ⟨w, rfl, hw⟩
  · exact .inl (hsub.eq_of_fixed rfl hnode₁ hnode)
  · exact .inr ⟨w, hsub.eq_of_fixed rfl hnode₁ hnode, hw⟩

/-- What may stand in the place of a constant may stand where that one may. -/
theorem Yields.of_constant {l l₁ : Literal} (h₁ : g.Yields F c l₁)
    (hc₁ : g₁.node? c₁ = some (.constant l₁)) (h : g₁.Yields F c₁ l) : g.Yields F c l := by
  intro elements node hl hnode
  rcases h elements _ hl hc₁ with hconst | ⟨w, hw, -⟩
  · cases hconst
    exact h₁ elements node hl hnode
  · cases hw

/-- What fills a slot after two rewritings may stand there in the graph before the first. -/
theorem fills_yields (h₁ : Substitutes (g.Yields F) g g₁) (h₂ : Substitutes (g₁.Yields F) g₁ g₂)
    (hc₁ : Fills (g.Yields F) g₁ c c₁) (hc₂ : Fills (g₁.Yields F) g₂ c₁ c₂) :
    Fills (g.Yields F) g₂ c c₂ :=
  h₂.fills (fun _ hl => hl.of_substitutes h₁) Yields.of_constant hc₁ hc₂

theorem substitutes_yields (h₁ : Substitutes (g.Yields F) g g₁)
    (h₂ : Substitutes (g₁.Yields F) g₁ g₂) : Substitutes (g.Yields F) g g₂ :=
  h₁.trans (fun _ _ hl => hl.of_substitutes h₁) Yields.of_constant h₂

end Graph

/-! ## Evaluables -/

/-- What holds of every known value still does behind a call, which only makes names unknown. -/
theorem Knowledge.Each.behindCall {P : String → Literal → Prop} {k : Knowledge} (h : k.Each P)
    (assigned : Option NameSet) : (k.behindCall assigned).Each P := by
  cases assigned with
  | none => exact h
  | some names => exact h.invalidateAll _

namespace PropagateM

variable {g : Graph} {P : NodeId → Literal → Prop} {F : String → List Int8 → Prop}
  {s t u : Propagation} {id : NodeId} {depth : Nat}

/-- Filling the slots of one more node leaves a graph in which slots are filled. -/
theorem update_substitutes {old node new : Node} (h : (update id old new).run s = .ok () t)
    (hsub : Substitutes P g s.graph) (hnode : g.node? id = some node) (hleaf : node.isLeaf = false)
    (hamends : node.Amends (Graph.Fills P s.graph) new) :
    Substitutes P g t.graph ∧ ∀ c c', Graph.Fills P s.graph c c' → Graph.Fills P t.graph c c' := by
  rcases run_update_ok h with ⟨-, rfl⟩ | ⟨g', hreplace, rfl⟩
  · exact ⟨hsub, fun _ _ hc => hc⟩
  · exact hsub.update hnode hleaf hamends hreplace

/-- The slots below a node are filled with what may stand there, and what is known of names is what
they may hold. -/
structure Sources (F : String → List Int8 → Prop) (s t : Propagation) : Prop where
  graph : Substitutes (s.graph.Yields F) s.graph t.graph
  known : t.knowledge.Each (Literal.Held F)

namespace Sources

theorem refl (h : s.knowledge.Each (Literal.Held F)) : Sources F s s :=
  ⟨.refl _ _, h⟩

theorem trans (h₁ : Sources F s t) (h₂ : Sources F t u) : Sources F s u :=
  ⟨Graph.substitutes_yields h₁.graph h₂.graph, h₂.known⟩

end Sources

/-- Steps on a node that fill slots with what may stand there, and return what may stand in the
place of the node. -/
def Sourced (F : String → List Int8 → Prop) (f : NodeId → PropagateM NodeId) : Prop :=
  ∀ id id' s t, (f id).run s = .ok id' t → s.knowledge.Each (Literal.Held F) →
    Sources F s t ∧ Graph.Fills (s.graph.Yields F) t.graph id id'

/-- A list of nodes is gone through one after the other, and each result may stand where its node
does. -/
theorem Sourced.mapM {f : NodeId → PropagateM NodeId} (hf : Sourced F f) {ids ids' : List NodeId}
    (h : (ids.mapM f).run s = .ok ids' t) (hknown : s.knowledge.Each (Literal.Held F)) :
    Sources F s t ∧ List.Forall₂ (Graph.Fills (s.graph.Yields F) t.graph) ids ids' := by
  induction ids generalizing ids' s with
  | nil =>
    cases h
    exact ⟨.refl hknown, .nil⟩
  | cons id ids ih =>
    obtain ⟨id', u, rest, hid, hrest, rfl⟩ := run_mapM_cons_eq_ok.1 h
    obtain ⟨h₁, hid'⟩ := hf _ _ _ _ hid hknown
    obtain ⟨h₂, hrest'⟩ := ih hrest h₁.known
    exact ⟨h₁.trans h₂, .cons (Graph.fills_yields h₁.graph h₂.graph hid' (.refl _ _ _))
      (hrest'.imp fun _ _ => Graph.fills_yields h₁.graph h₂.graph (.refl _ _ _))⟩

/-- Of two operands, the first one's result may stand in its place also after the second was
rewritten. -/
theorem Sourced.operands {f : NodeId → PropagateM NodeId} (hf : Sourced F f)
    {lhs rhs left right : NodeId} (hleft : (f lhs).run s = .ok left t)
    (hright : (f rhs).run t = .ok right u) (hknown : s.knowledge.Each (Literal.Held F)) :
    Sources F s u ∧ Graph.Fills (s.graph.Yields F) u.graph lhs left ∧
      Graph.Fills (s.graph.Yields F) u.graph rhs right := by
  obtain ⟨h₁, hleft'⟩ := hf _ _ _ _ hleft hknown
  obtain ⟨h₂, hright'⟩ := hf _ _ _ _ hright h₁.known
  exact ⟨h₁.trans h₂, Graph.fills_yields h₁.graph h₂.graph hleft' (.refl _ _ _),
    Graph.fills_yields h₁.graph h₂.graph (.refl _ _ _) hright'⟩

theorem run_update_knowledge {old new : Node} (h : (update id old new).run s = .ok () t) :
    t.knowledge = s.knowledge := by
  rcases run_update_ok h with ⟨-, rfl⟩ | ⟨g, -, rfl⟩ <;> rfl

/-- Simplifying an evaluable fills slots with what may stand there. -/
theorem expr_sourced (depth : Nat) : Sourced F (expr depth) := by
  induction depth with
  | zero => exact fun _ _ _ _ h => nomatch h
  | succ depth ih =>
    intro id id' s t h hknown
    cases run_expr_ok h with
    | constant | unknown => exact ⟨.refl hknown, .refl _ _ _⟩
    | @known v l _ g _ hnode hlookup hadd =>
      have hconst := (Graph.Rewrites.add (S := fun _ => False) hadd).2
      refine ⟨⟨.add hadd, hknown⟩, .inr ⟨l, hconst, fun elements node hl hnode' => ?_⟩⟩
      cases hnode.symm.trans hnode'
      exact .inr ⟨v, rfl, hknown.lookup hlookup elements hl⟩
    | arithmetic hnode hleft hright hupdate hcollapse =>
      obtain ⟨h₂, hleft', hright'⟩ := ih.operands hleft hright hknown
      obtain ⟨hsub, -⟩ := update_substitutes hupdate h₂.graph hnode rfl (.arithmetic hleft' hright')
      have h₃ : Sources F s _ := ⟨hsub, run_update_knowledge hupdate ▸ h₂.known⟩
      rcases run_collapse_ok hcollapse with ⟨a, b, g, -, -, hadd, rfl, hknowledge, -⟩ | ⟨-, rfl, rfl⟩
      · have hconst := (Graph.Rewrites.add (S := fun _ => False) hadd).2
        exact ⟨h₃.trans ⟨.add hadd, hknowledge ▸ h₃.known⟩,
          .inr ⟨_, hconst, Graph.yields_scalar _⟩⟩
      · exact ⟨h₃, .refl _ _ _⟩
    | call hnode hargs hupdate =>
      obtain ⟨h₁, hargs'⟩ := ih.mapM hargs hknown
      obtain ⟨hsub, -⟩ := update_substitutes hupdate h₁.graph hnode rfl (.call hargs')
      have hknown₂ := run_update_knowledge hupdate ▸ h₁.known
      refine ⟨⟨hsub, ?_⟩, .refl _ _ _⟩
      exact hknown₂.behindCall _

/-- Simplifying a comparison fills slots with what may stand there. -/
theorem condition_sources (h : (condition depth id).run s = .ok () t)
    (hknown : s.knowledge.Each (Literal.Held F)) : Sources F s t := by
  obtain ⟨op, lhs, rhs, left, right, s₁, s₂, hnode, hleft, hright, hupdate⟩ := run_condition_ok h
  obtain ⟨h₂, hleft', hright'⟩ := (expr_sourced depth).operands hleft hright hknown
  obtain ⟨hsub, -⟩ := update_substitutes hupdate h₂.graph hnode rfl (.comparison hleft' hright')
  exact ⟨hsub, run_update_knowledge hupdate ▸ h₂.known⟩

end PropagateM

/-! ## Statements -/

namespace Program

variable {p : Program} {s t : Propagation} {id : NodeId} {depth : Nat}

/-- The slots of a program are filled with what may stand there, and what is known of names is what
they may hold. -/
structure Yields (p : Program) (s : Propagation) : Prop where
  graph : Substitutes (p.graph.Yields p.MayHold) p.graph s.graph
  known : s.knowledge.Each (Literal.Held p.MayHold)

namespace Yields

theorem sources (h : p.Yields s) (h' : PropagateM.Sources p.MayHold s t) : p.Yields t :=
  ⟨Graph.substitutes_yields h.graph h'.graph, h'.known⟩

theorem withKnowledge (h : p.Yields s) {k : Knowledge} (hk : k.Each (Literal.Held p.MayHold)) :
    p.Yields { s with knowledge := k } :=
  ⟨h.graph, hk⟩

/-- An assignment leaves a name with a value that it may hold. -/
theorem assign {target value value' : NodeId} {v : Variable} {s₁ s₂ : Propagation} (h : p.Yields s)
    (hid : p.Reachable id) (hnodes : ∀ n, p.Reachable n → ∃ node, p.graph.node? n = some node)
    (hnode : s.graph.node? id = some (.assign target value))
    (htarget : s.graph.node? target = some (.var v))
    (hvalue : (PropagateM.expr depth value).run s = .ok value' s₁)
    (hupdate : (PropagateM.update id (.assign target value) (.assign target value')).run s₁ = .ok () s₂)
    (hlearn : (PropagateM.learn v.name value').run s₂ = .ok () t) : p.Yields t := by
  obtain ⟨h₁, hfills⟩ := PropagateM.expr_sourced depth _ _ _ _ hvalue h.known
  -- the assignment as the program has it
  obtain ⟨value₀, hnode₀, hvalue₀⟩ : ∃ value₀, p.graph.node? id = some (.assign target value₀) ∧
      Graph.Fills (p.graph.Yields p.MayHold) s.graph value₀ value := by
    obtain ⟨node₀, hnode₀⟩ := hnodes id hid
    obtain ⟨_, hkept, hamends⟩ := h.graph.kept hnode₀
    cases hnode.symm.trans hkept
    cases hamends with
    | same => exact ⟨value, hnode₀, .refl _ _ _⟩
    | assign hvalue₀ => exact ⟨_, hnode₀, hvalue₀⟩
  have hchild : ∀ c ∈ [target, value₀], ∃ node, p.graph.node? c = some node :=
    fun c hc => hnodes c (hid.child ⟨_, hnode₀, hc⟩)
  obtain ⟨_, htarget₀⟩ := hchild target (by simp)
  obtain ⟨node, hvalue₀'⟩ := hchild value₀ (by simp)
  cases h.graph.eq_of_fixed rfl htarget htarget₀
  obtain ⟨hsub, hkeeps⟩ := PropagateM.update_substitutes hupdate
    (Graph.substitutes_yields h.graph h₁.graph) hnode₀ rfl
    (.assign (Graph.fills_yields h.graph h₁.graph hvalue₀ hfills))
  have hfills₂ := hkeeps _ _ (Graph.fills_yields h.graph h₁.graph hvalue₀ hfills)
  have hknown₂ : s₂.knowledge.Each (Literal.Held p.MayHold) :=
    PropagateM.run_update_knowledge hupdate ▸ h₁.known
  rcases PropagateM.run_learn_ok hlearn with ⟨l, hl, rfl⟩ | ⟨-, rfl⟩
  · refine ⟨hsub, hknown₂.record fun elements helements => ?_⟩
    have hsource : node = .constant l ∨ ∃ w, node = .var w ∧ p.MayHold w.name elements := by
      rcases hfills₂ with rfl | ⟨l', hl', hyields⟩
      · exact .inl (hsub.eq_of_fixed rfl hl hvalue₀')
      · cases hl.symm.trans hl'
        exact hyields elements node helements hvalue₀'
    rcases hsource with rfl | ⟨w, rfl, hw⟩
    · exact .literal ⟨id, target, value₀, hid, hnode₀, htarget₀, helements ▸ hvalue₀'⟩
    · exact .copy ⟨id, target, value₀, hid, hnode₀, htarget₀, hvalue₀'⟩ hw
  · exact ⟨hsub, hknown₂.invalidate _⟩

/-- Blocks leave the names with values that they may hold, if statements do. -/
theorem forM {f : NodeId → PropagateM Unit}
    (hf : ∀ {id s t}, (f id).run s = .ok () t → p.Yields s → p.Reachable id → p.Yields t)
    {ids : List NodeId} (h : (ids.forM f).run s = .ok () t) (hs : p.Yields s)
    (hids : ∀ id ∈ ids, p.Reachable id) : p.Yields t := by
  induction ids generalizing s with
  | nil =>
    cases h
    exact hs
  | cons id ids ih =>
    obtain ⟨u, hid, hrest⟩ := run_forM_cons_eq_ok.1 h
    exact ih hrest (hf hid hs (hids id List.mem_cons_self)) fun c hc =>
      hids c (List.mem_cons_of_mem _ hc)

/-- Statements leave the names with values that they may hold. -/
theorem statement (hnodes : ∀ n, p.Reachable n → ∃ node, p.graph.node? n = some node)
    (h : (PropagateM.statement depth id).run s = .ok () t) (hs : p.Yields s) (hid : p.Reachable id) :
    p.Yields t := by
  induction depth generalizing id s t with
  | zero => cases h
  | succ depth ih =>
    -- blocks are as the program has them
    have hblock : ∀ {node : Node}, s.graph.node? id = some node → node.computes = false →
        ∀ c ∈ node.children, p.Reachable c := by
      intro node hnode hfixed c hc
      obtain ⟨node₀, hnode₀⟩ := hnodes id hid
      cases hs.graph.eq_of_fixed hfixed hnode hnode₀
      exact hid.child ⟨_, hnode₀, hc⟩
    cases PropagateM.run_statement_ok h with
    | assign hnode htarget hvalue hupdate hlearn =>
      exact hs.assign hid hnodes hnode htarget hvalue hupdate hlearn
    | updateElement hnode hvalue hupdate =>
      obtain ⟨h₁, hvalue'⟩ := PropagateM.expr_sourced depth _ _ _ _ hvalue hs.known
      obtain ⟨hsub, -⟩ :=
        PropagateM.update_substitutes hupdate h₁.graph hnode rfl (.updateElement hvalue')
      have hknown := PropagateM.run_update_knowledge hupdate ▸ h₁.known
      exact (hs.sources ⟨hsub, hknown⟩).withKnowledge (hknown.invalidate _)
    | ifElse hnode hcond hthen helse =>
      have hids := hblock hnode rfl
      have h₁ := hs.sources (PropagateM.condition_sources hcond hs.known)
      have h₂ := forM ih hthen (h₁.withKnowledge h₁.known.openFrame) fun c hc =>
        hids c (by simp [Node.children, hc])
      have h₃ := forM ih helse (h₂.withKnowledge h₂.known.closeFrame.openFrame) fun c hc =>
        hids c (by simp [Node.children, hc])
      exact h₃.withKnowledge (h₃.known.closeFrame.invalidateAll _)
    | @whileLoop _ _ _ _ names hnode _ hcond hround =>
      have hids := hblock hnode rfl
      have h₀ := hs.withKnowledge (hs.known.invalidateAll names.toList)
      have h₁ := h₀.sources (PropagateM.condition_sources hcond h₀.known)
      have h₂ := forM ih hround (h₁.withKnowledge h₁.known.openFrame) fun c hc =>
        hids c (by simp [Node.children, hc])
      exact h₂.withKnowledge (h₂.known.closeFrame.invalidateAll _)
    | functionDef hnode hbody =>
      have hids := hblock hnode rfl
      have h₁ := forM ih hbody ⟨hs.graph, .empty⟩ fun c hc => hids c (by simp [Node.children, hc])
      exact h₁.withKnowledge hs.known
    | debug => exact hs

end Yields

/-- Constant propagation puts an array constant only into the place of a variable that may hold
it. -/
theorem yields_of_propagate (hnodes : ∀ n, p.Reachable n → ∃ node, p.graph.node? n = some node)
    (h : p.propagate = .ok () s) : Substitutes (p.graph.Yields p.MayHold) p.graph s.graph := by
  have hstart : p.Yields (.start p.graph) := ⟨.refl _ _, .empty⟩
  exact (hstart.forM (Yields.statement hnodes) h fun id hid => ⟨id, hid, .refl⟩).graph

end Program

end RegisterBackend
