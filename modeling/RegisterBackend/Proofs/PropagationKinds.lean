import RegisterBackend.Proofs.KindChecking
import RegisterBackend.Proofs.KnowledgeFrames
import RegisterBackend.Proofs.StoppedPropagation

/-!
# Constant propagation keeps kinds

Constant propagation puts constants into slots that referred to variables and operations. In a
program that is in order each of them is of the kind of what it stands for: the value that a name is
known to hold is of the kind of the name (`Knowledge.Fits`), and an operation has the kind of its
operands. So the program stays in order, also where a node stands in several places, and simplifying
it can fail only at an operation on arrays (`PropagateM.statement_meets`). It is then in order as
far as it got.
-/

namespace RegisterBackend

open RegisterBackend.Graph (HasKind Refits KeepsKinds Compares InOrder)

/-- What may keep code that is in order from being compiled: there is no code for what it does, or a
name that it reads is not bound. -/
inductive Limitation : Stop CompileError → Prop
  | unsupported (node : NodeId) (what : Unsupported) : Limitation (.error (.unsupported node what))
  | notImplemented (what : Missing) : Limitation (.error (.notImplemented what))
  | unresolvedSymbol (name : String) : Limitation (.error (.unresolvedSymbol name))

/-! ## Known values -/

/-- All values recorded for a name are of its kind. -/
def Knowledge.Fits (κ : String → Kind) (k : Knowledge) : Prop :=
  ∀ x stack, k.values[x]? = some stack → ∀ l ∈ stack.toList, l.kind = κ x

namespace Knowledge.Fits

variable {κ : String → Kind} {k : Knowledge}

theorem empty : Knowledge.empty.Fits κ :=
  Each.empty

theorem lookup (h : k.Fits κ) {x : String} {l : Literal} (hx : k.lookup x = some l) : l.kind = κ x :=
  Each.lookup h hx

theorem record (h : k.Fits κ) {x : String} {l : Literal} (hl : l.kind = κ x) :
    (k.record x l).Fits κ :=
  Each.record (P := fun x l => l.kind = κ x) h hl

theorem invalidate (h : k.Fits κ) (x : String) : (k.invalidate x).Fits κ :=
  Each.invalidate h x

theorem invalidateAll (h : k.Fits κ) (names : List String) : (k.invalidateAll names).Fits κ :=
  Each.invalidateAll h names

theorem openFrame (h : k.Fits κ) : k.openFrame.Fits κ :=
  h

theorem closeFrame (h : k.Fits κ) : k.closeFrame.Fits κ :=
  Each.closeFrame h

end Knowledge.Fits

/-! ## States -/

/-- The edges of the graph lead to its nodes, and known values are of the kinds of their names. -/
structure Propagation.Fits (κ : String → Kind) (s : Propagation) : Prop where
  linked : s.graph.Linked
  known : s.knowledge.Fits κ

/-- The graph was rewritten in order, and what is known fits. -/
structure Propagation.Keeps (κ : String → Kind) (s t : Propagation) : Prop where
  graph : KeepsKinds κ s.graph t.graph
  fits : t.Fits κ

namespace Propagation

variable {κ : String → Kind} {s t u : Propagation}

theorem Fits.keeps (h : s.Fits κ) : s.Keeps κ s :=
  ⟨.refl κ _, h⟩

theorem Keeps.trans (h₁ : s.Keeps κ t) (h₂ : t.Keeps κ u) : s.Keeps κ u :=
  ⟨h₁.graph.trans h₂.graph, h₂.fits⟩

/-- What is known may be changed, as long as it fits. -/
theorem Keeps.withKnowledge (h : s.Keeps κ t) {k : Knowledge} (hk : k.Fits κ) :
    s.Keeps κ { t with knowledge := k } :=
  ⟨h.graph, h.fits.linked, hk⟩

end Propagation

namespace PropagateM

variable {κ : String → Kind} {α : Type} {s t : Propagation} {id : NodeId} {k : Kind} {d : Nat}
  {g₀ : Graph} {E : Stop CompileError → Propagation → Prop}

/-- The failure is a limitation of the compiler, and the graph is in order as far as it was
rewritten. -/
def Limited (κ : String → Kind) (g₀ : Graph) (e : Stop CompileError) (t : Propagation) : Prop :=
  Limitation e ∧ KeepsKinds κ g₀ t.graph

/-! ## Small steps -/

/-- A node that is there can be looked up. -/
theorem nodeAt_bind_meets {node : Node} (h : s.graph.node? id = some node) {f : Node → PropagateM α}
    {Q : α → Propagation → Prop} (hf : Meets E (f node) s Q) : Meets E (nodeAt id >>= f) s Q := by
  refine Meets.bind (Q := fun n t => n = node ∧ t = s) (.of_run_eq_ok (t := s) ?_ ⟨rfl, rfl⟩) ?_
  · unfold nodeAt
    refine run_bind_eq_ok.2 ⟨s, s, rfl, ?_⟩
    rw [h]
    rfl
  · rintro _ _ ⟨rfl, rfl⟩
    exact hf

/-- A constant can always be added, and keeps the graph in order. -/
theorem addConstant_meets (h : s.Keeps κ t) (l : Literal) :
    Meets E (addConstant l) t fun id u => s.Keeps κ u ∧ u.graph.node? id = some (.constant l) where
  ok hrun := by
    obtain ⟨g, hadd, rfl⟩ := run_addConstant_ok hrun
    have hconst := (Graph.Rewrites.add (S := fun _ => False) hadd).2
    exact ⟨⟨h.graph.trans (.add hadd), h.fits.linked.add hadd, h.fits.known⟩, hconst⟩
  error hrun := by cases hrun

/-- A node can be exchanged for one that refers to nodes of the graph. -/
theorem update_meets {old new : Node} (h : s.Keeps κ t) (hold : s.graph.node? id = some old)
    (hleaf : old.isLeaf = false) (hamends : old.Amends (Refits κ s.graph t.graph) new)
    (hchildren : ∀ c ∈ old.children, ∃ node, s.graph.node? c = some node) :
    Meets E (update id old new) t fun _ u =>
      s.Keeps κ u ∧ ∀ c c', Refits κ s.graph t.graph c c' → Refits κ s.graph u.graph c c' := by
  have hnew : ∀ c' ∈ new.children, c'.index < t.graph.size := by
    intro c' hc'
    obtain ⟨c, hc, hrefits⟩ := hamends.exists_of_mem_children (.refl κ _ _) hc'
    rcases hrefits with rfl | ⟨l, hl, -⟩
    · obtain ⟨node, hnode⟩ := hchildren c' hc
      obtain ⟨node', hnode', -⟩ := h.graph.kept hnode
      exact Graph.index_lt_of_node? hnode'
    · exact Graph.index_lt_of_node? hl
  obtain ⟨node', hnode', -⟩ := h.graph.kept hold
  obtain ⟨g, hreplace, hlinked⟩ := h.fits.linked.exists_replace (Graph.index_lt_of_node? hnode') hnew
  unfold update
  split
  · exact .of_run_eq_ok rfl ⟨h, fun _ _ hc => hc⟩
  · obtain ⟨hgraph, hrefits⟩ := h.graph.update hold hleaf hamends hreplace
    refine .of_run_eq_ok (a := ()) (t := { t with graph := g }) ?_
      ⟨⟨hgraph, hlinked, h.fits.known⟩, hrefits⟩
    refine run_bind_eq_ok.2 ⟨t, t, rfl, ?_⟩
    rw [hreplace]
    rfl

theorem modifyKnowledge_meets (h : s.Keeps κ t) {f : Knowledge → Knowledge}
    (hf : (f t.knowledge).Fits κ) : Meets E (modifyKnowledge f) t fun _ u => s.Keeps κ u :=
  .of_run_eq_ok rfl (h.withKnowledge hf)

/-- The names that a block assigns can be collected, as the paths from it are short enough. -/
theorem assignedIn_meets {block : List NodeId} (h : ∀ c ∈ block, s.graph.Within d c)
    {Q : NameSet → Propagation → Prop} (hQ : ∀ names, Q names s) :
    Meets E (assignedIn d block) s Q := by
  obtain ⟨names, hnames⟩ := Graph.exists_assignedIn s.functions h
  refine .of_run_eq_ok (a := names) (t := s) ?_ (hQ names)
  unfold assignedIn
  refine run_bind_eq_ok.2 ⟨s, s, rfl, ?_⟩
  rw [hnames]
  rfl

/-- What steps keep in a frame is kept when the frame is closed, also behind a failure. -/
theorem inFrame_meets {m : PropagateM α} (h : Meets (Limited κ g₀) m
      { t with knowledge := t.knowledge.openFrame } fun _ u => s.Keeps κ u) :
    Meets (Limited κ g₀) (inFrame m) t fun _ u => s.Keeps κ u where
  ok hrun := by
    obtain ⟨u, hm, rfl⟩ := run_inFrame_ok hrun
    exact (h.ok hm).withKnowledge (h.ok hm).fits.known.closeFrame
  error hrun := by
    obtain ⟨u, hm, rfl⟩ := run_inFrame_error hrun
    have hlimited := h.error hm
    exact hlimited

/-- What steps keep that begin with nothing known is kept when the former knowledge is put back. -/
theorem fromNothing_meets {m : PropagateM α} (hfits : t.Fits κ)
    (h : Meets (Limited κ g₀) m { t with knowledge := .empty } fun _ u => s.Keeps κ u) :
    Meets (Limited κ g₀) (fromNothing m) t fun _ u => s.Keeps κ u where
  ok hrun := by
    obtain ⟨u, hm, rfl⟩ := run_fromNothing_ok hrun
    exact (h.ok hm).withKnowledge hfits.known
  error hrun := by
    obtain ⟨u, hm, rfl⟩ := run_fromNothing_error hrun
    have hlimited := h.error hm
    exact hlimited

/-! ## Nodes -/

/-- An operation on two constants of one kind becomes a constant of that kind, unless it is an
operation on arrays. -/
theorem collapse_meets {op : ArithOp} {lhs rhs : NodeId} (hg₀ : KeepsKinds κ g₀ s.graph) (h : s.Fits κ)
    (hleft : s.graph.HasKind κ lhs k) (hright : s.graph.HasKind κ rhs k) :
    Meets (Limited κ g₀) (collapse id op lhs rhs) s fun id' t => s.Keeps κ t ∧
      (id' = id ∨ ∃ l, t.graph.node? id' = some (.constant l) ∧ l.kind = k) := by
  obtain ⟨left, hl⟩ := hleft.grounded.within.exists_node
  obtain ⟨right, hr⟩ := hright.grounded.within.exists_node
  unfold collapse
  refine nodeAt_bind_meets hl (nodeAt_bind_meets hr ?_)
  split
  next a b =>
    have hk : k = .scalar := hleft.unique (.constant hl)
    refine Meets.bind (.modify (Q := fun _ t => s.Keeps κ t) ⟨.refl κ _, h.linked, h.known⟩) ?_
    intro _ u hu
    exact (addConstant_meets hu _).mono fun id' t ⟨ht, hconst⟩ => ⟨ht, .inr ⟨_, hconst, hk.symm⟩⟩
  next => exact .throw ⟨.unsupported _ _, hg₀⟩
  next a b _ hmixed =>
    -- operands of one kind are two scalars or two arrays
    have hkinds : a.kind = b.kind :=
      (hleft.unique (.constant hl)).symm.trans (hright.unique (.constant hr))
    cases a <;> cases b <;> simp_all [Literal.kind]
  next => exact .of_run_eq_ok rfl ⟨h.keeps, .inl rfl⟩

/-- Evaluables keep their kinds, and the node to use in the place of one is of its kind. -/
theorem expr_meets (hg₀ : KeepsKinds κ g₀ s.graph) (h : s.Fits κ) (hwithin : s.graph.Within d id)
    (hid : s.graph.HasKind κ id k) : Meets (Limited κ g₀) (expr d id) s fun id' t =>
      s.Keeps κ t ∧ Refits κ s.graph t.graph id id' := by
  induction d generalizing id k s with
  | zero => cases hwithin
  | succ d ih =>
    have hchildren : ∀ {node}, s.graph.node? id = some node → ∀ c ∈ node.children,
        s.graph.Within d c := fun hnode c hc => hwithin.child hnode hc
    -- the same for an operand, after some rewriting
    have hoperand : ∀ {c k t}, s.Keeps κ t → s.graph.Within d c → s.graph.HasKind κ c k →
        Meets (Limited κ g₀) (expr d c) t fun c' u => s.Keeps κ u ∧ Refits κ s.graph u.graph c c' ∧
          ∀ b b', Refits κ s.graph t.graph b b' → Refits κ s.graph u.graph b b' := by
      intro c k t ht hc hk
      refine (ih (hg₀.trans ht.graph) ht.fits (ht.graph.within hc) (ht.graph.hasKind hk)).mono ?_
      rintro c' u ⟨hu, hc'⟩
      exact ⟨ht.trans hu, ht.graph.refits hu.graph (.refl κ _ _ c) hc',
        fun b b' hb => ht.graph.refits hu.graph hb (.refl κ _ _ b')⟩
    rw [expr]
    cases hid with
    | constant hnode => exact nodeAt_bind_meets hnode (.of_run_eq_ok rfl ⟨h.keeps, .refl κ _ _ _⟩)
    | @var _ v hnode hkind =>
      refine nodeAt_bind_meets hnode (.get_bind ?_)
      split
      next l hlookup =>
        refine Meets.bind (.modify (Q := fun _ t => s.Keeps κ t) ⟨.refl κ _, h.linked, h.known⟩) ?_
        intro _ u hu
        refine (addConstant_meets hu l).mono ?_
        rintro id' t ⟨ht, hconst⟩
        refine ⟨ht, .inr ⟨l, hconst, fun k hk => ?_⟩⟩
        rw [h.known.lookup hlookup, ← hkind]
        exact HasKind.unique (.var hnode hkind) hk
      next => exact .of_run_eq_ok rfl ⟨h.keeps, .refl κ _ _ _⟩
    | @arithmetic _ lhs rhs op _ hnode hleft hright =>
      have hc := hchildren hnode
      refine nodeAt_bind_meets hnode ?_
      refine (hoperand h.keeps (hc lhs (by simp [Node.children])) hleft).bind ?_
      rintro left s₁ ⟨h₁, hl, -⟩
      refine (hoperand h₁ (hc rhs (by simp [Node.children])) hright).bind ?_
      rintro right s₂ ⟨h₂, hr, hl₂⟩
      refine (update_meets h₂ hnode rfl (.arithmetic (hl₂ _ _ hl) hr)
        fun c hmem => (hc c hmem).exists_node).bind ?_
      rintro _ s₃ ⟨h₃, hrefits⟩
      have hleft₃ := (hrefits _ _ (hl₂ _ _ hl)).hasKind hleft (h₃.graph.hasKind hleft)
      have hright₃ := (hrefits _ _ hr).hasKind hright (h₃.graph.hasKind hright)
      refine (collapse_meets (hg₀.trans h₃.graph) h₃.fits hleft₃ hright₃).mono ?_
      rintro id' t ⟨ht, hid'⟩
      refine ⟨h₃.trans ht, hid'.imp_right ?_⟩
      rintro ⟨l, hl, hkind⟩
      refine ⟨l, hl, fun k' hk' => ?_⟩
      exact hkind.trans ((HasKind.arithmetic hnode hleft hright).unique hk')
    | @call _ name args returns kinds hnode hargs =>
      have hc := hchildren hnode
      refine nodeAt_bind_meets hnode ?_
      refine (Meets.mapM (I := fun t => s.Keeps κ t) (R := fun t => Refits κ s.graph t.graph)
        (fun c hmem t ht => hoperand ht (hc c hmem) (hargs c hmem)) h.keeps).bind ?_
      rintro args' s₁ ⟨h₁, hargs', -⟩
      refine (update_meets h₁ hnode rfl (.call hargs')
        fun c hmem => (hc c hmem).exists_node).bind ?_
      rintro _ s₂ ⟨h₂, -⟩
      refine .get_bind ?_
      split
      · exact (modifyKnowledge_meets h₂ (h₂.fits.known.invalidateAll _)).bind fun _ t ht =>
          .of_run_eq_ok rfl ⟨ht, .refl κ _ _ _⟩
      · exact .of_run_eq_ok rfl ⟨h₂, .refl κ _ _ _⟩

/-- Comparisons stay in order. -/
theorem condition_meets (hg₀ : KeepsKinds κ g₀ s.graph) (h : s.Keeps κ t)
    (hwithin : s.graph.Within d id) (hid : s.graph.Compares κ id) :
    Meets (Limited κ g₀) (condition d id) t fun _ u => s.Keeps κ u := by
  have hg₁ := hg₀.trans h.graph
  obtain ⟨op, lhs, rhs, k, hnode, hleft, hright⟩ := h.graph.compares hid
  have hchildren : ∀ c ∈ [lhs, rhs], t.graph.Within d c := fun c hc =>
    ((h.graph.within hwithin).mono (Nat.le_succ d)).child hnode hc
  unfold condition
  refine nodeAt_bind_meets hnode ?_
  refine (expr_meets hg₁ h.fits (hchildren lhs (by simp)) hleft).bind fun left s₁ ⟨h₁, hl⟩ => ?_
  refine (expr_meets (hg₁.trans h₁.graph) h₁.fits (h₁.graph.within (hchildren rhs (by simp)))
    (h₁.graph.hasKind hright)).bind fun right s₂ ⟨h₂, hr⟩ => ?_
  have hl₂ := h₁.graph.refits h₂.graph hl (.refl κ _ _ left)
  have hr₂ := h₁.graph.refits h₂.graph (.refl κ _ _ rhs) hr
  refine (update_meets (h₁.trans h₂) hnode rfl (.comparison hl₂ hr₂)
    fun c hc => (hchildren c hc).exists_node).mono fun _ u ⟨hu, _⟩ => h.trans hu

/-- Simplifying the value that a statement assigns keeps the kinds. -/
theorem assignment_meets {value : NodeId} {old : Node} {new : NodeId → Node}
    (hg₀ : KeepsKinds κ g₀ s.graph) (h : s.Fits κ) (hold : s.graph.node? id = some old)
    (hleaf : old.isLeaf = false)
    (hchildren : ∀ c ∈ old.children, s.graph.Within d c) (hmem : value ∈ old.children)
    (hvalue : s.graph.HasKind κ value k)
    (hamends : ∀ {R : NodeId → NodeId → Prop} {value'}, R value value' → old.Amends R (new value'))
    {f : NodeId → PropagateM Unit}
    (hf : ∀ value' t, s.Keeps κ t → t.graph.HasKind κ value' k →
      Meets (Limited κ g₀) (f value') t fun _ u => s.Keeps κ u) :
    Meets (Limited κ g₀) (do
      let value' ← expr d value
      update id old (new value')
      f value') s fun _ u => s.Keeps κ u := by
  refine (expr_meets hg₀ h (hchildren value hmem) hvalue).bind fun value' s₁ ⟨h₁, hv⟩ => ?_
  refine (update_meets h₁ hold hleaf (hamends hv) fun c hc => (hchildren c hc).exists_node).bind
    fun _ s₂ ⟨h₂, hrefits⟩ => ?_
  exact hf value' s₂ h₂ ((hrefits _ _ hv).hasKind hvalue (h₂.graph.hasKind hvalue))

/-- What is learned of a name is of its kind. -/
theorem learn_meets {x : String} {value : NodeId} (h : s.Keeps κ t)
    (hvalue : t.graph.HasKind κ value k) (hx : k = κ x) :
    Meets E (learn x value) t fun _ u => s.Keeps κ u := by
  obtain ⟨node, hnode⟩ := hvalue.grounded.within.exists_node
  unfold learn
  refine nodeAt_bind_meets hnode ?_
  split
  · have hl := (HasKind.constant hnode).unique hvalue
    exact modifyKnowledge_meets h (h.fits.known.record (hl.trans hx))
  · exact modifyKnowledge_meets h (h.fits.known.invalidate x)

/-- The name of a target that is a variable can be looked up. -/
theorem targetName_bind_meets {target : NodeId} {v : Variable}
    (h : s.graph.node? target = some (.var v)) {f : String → PropagateM α}
    {Q : α → Propagation → Prop} (hf : Meets E (f v.name) s Q) :
    Meets E (targetName target >>= f) s Q := by
  unfold targetName
  rw [bind_assoc]
  exact nodeAt_bind_meets h (by simpa using hf)

/-- Statements stay in order, and simplifying them fails only at an operation on arrays. -/
theorem statement_meets (hg₀ : KeepsKinds κ g₀ s.graph) (h : s.Fits κ) (hwithin : s.graph.Within d id)
    (hid : s.graph.InOrder κ id) :
    Meets (Limited κ g₀) (statement d id) s fun _ t => s.Keeps κ t := by
  induction d generalizing id s with
  | zero => cases hwithin
  | succ d ih =>
    have hchildren : ∀ {node}, s.graph.node? id = some node → ∀ c ∈ node.children,
        s.graph.Within d c := fun hnode c hc => hwithin.child hnode hc
    have hblock : ∀ {ids : List NodeId} {t}, s.Keeps κ t → (∀ c ∈ ids, s.graph.Within d c) →
        (∀ c ∈ ids, s.graph.InOrder κ c) →
        Meets (Limited κ g₀) (ids.forM (statement d)) t fun _ u => s.Keeps κ u :=
      fun ht hids horder => .forM (I := fun u => s.Keeps κ u) (fun c hc u hu =>
        (ih (hg₀.trans hu.graph) hu.fits (hu.graph.within (hids c hc)) (hu.graph.inOrder (horder c hc))).mono
          fun _ v hv => hu.trans hv) ht
    rw [statement]
    cases hid with
    | @assign _ target value v hnode htarget hkind hvalue =>
      refine nodeAt_bind_meets hnode (targetName_bind_meets htarget ?_)
      exact assignment_meets hg₀ h hnode rfl (hchildren hnode) (by simp [Node.children]) hvalue .assign
        fun value' t ht hv => learn_meets ht hv hkind
    | @updateElement _ target value index v hnode htarget hvalue =>
      refine nodeAt_bind_meets hnode (targetName_bind_meets htarget ?_)
      exact assignment_meets hg₀ h hnode rfl (hchildren hnode) (by simp [Node.children]) hvalue
        .updateElement fun value' t ht hv => modifyKnowledge_meets ht (ht.fits.known.invalidate _)
    | @ifElse _ cond thenBlock elseBlock hnode hcond hthen helse =>
      have hc := hchildren hnode
      have hbranch : ∀ c ∈ thenBlock ++ elseBlock, s.graph.Within d c := fun c hmem =>
        hc c (List.mem_cons_of_mem _ hmem)
      refine nodeAt_bind_meets hnode ?_
      refine (condition_meets hg₀ h.keeps (hc cond (by simp [Node.children])) hcond).bind fun _ s₁ h₁ => ?_
      refine (inFrame_meets (hblock (h₁.withKnowledge h₁.fits.known.openFrame)
        (fun c hmem => hbranch c (by simp [hmem])) hthen)).bind fun _ s₂ h₂ => ?_
      refine (inFrame_meets (hblock (h₂.withKnowledge h₂.fits.known.openFrame)
        (fun c hmem => hbranch c (by simp [hmem])) helse)).bind fun _ s₃ h₃ => ?_
      refine (assignedIn_meets (Q := fun _ t => s.Keeps κ t)
        (fun c hmem => h₃.graph.within (hbranch c hmem)) fun _ => h₃).bind fun names s₄ h₄ => ?_
      exact modifyKnowledge_meets h₄ (h₄.fits.known.invalidateAll _)
    | @whileLoop _ cond body hnode hcond hbody =>
      have hc := hchildren hnode
      refine nodeAt_bind_meets hnode ?_
      refine (assignedIn_meets (Q := fun _ t => s.Keeps κ t)
        (fun c hmem => hc c (List.mem_cons_of_mem _ hmem)) fun _ => h.keeps).bind fun names s₁ h₁ => ?_
      refine (modifyKnowledge_meets h₁ (h₁.fits.known.invalidateAll _)).bind fun _ s₂ h₂ => ?_
      refine (condition_meets hg₀ h₂ (hc cond (by simp [Node.children])) hcond).bind fun _ s₃ h₃ => ?_
      refine (inFrame_meets (hblock (h₃.withKnowledge h₃.fits.known.openFrame)
        (fun c hmem => hc c (List.mem_cons_of_mem _ hmem)) hbody)).bind fun _ s₄ h₄ => ?_
      exact modifyKnowledge_meets h₄ (h₄.fits.known.invalidateAll _)
    | @functionDef _ name params body returns hnode hparams hbody =>
      have hc : ∀ c ∈ body, s.graph.Within d c := fun c hmem =>
        hchildren hnode c (List.mem_append_right _ hmem)
      refine nodeAt_bind_meets hnode ?_
      refine (assignedIn_meets (Q := fun _ t => s.Keeps κ t) hc fun _ => h.keeps).bind
        fun names s₁ h₁ => ?_
      refine Meets.bind (.modify (Q := fun _ t => s.Keeps κ t) ⟨h₁.graph, h₁.fits.linked,
        h₁.fits.known⟩) fun _ s₂ h₂ => ?_
      exact fromNothing_meets h₂.fits (hblock (h₂.withKnowledge .empty) hc hbody)
    | debug hnode => exact nodeAt_bind_meets hnode (.of_run_eq_ok rfl h.keeps)

end PropagateM

/-- Constant propagation of a program that is in order keeps it so, also where it fails, which it
does only at an operation on arrays. -/
theorem Program.propagate_keeps {p : Program} {κ : String → Kind} (hlinked : p.graph.Linked)
    (hbody : ∀ id ∈ p.body, p.graph.InOrder κ id) :
    Meets (PropagateM.Limited κ p.graph) (p.body.forM (PropagateM.statement p.graph.depth))
      (.start p.graph) fun _ t => KeepsKinds κ p.graph t.graph := by
  have hstart : (Propagation.start p.graph).Fits κ := ⟨hlinked, .empty⟩
  have hrun := Meets.forM (E := PropagateM.Limited κ p.graph)
    (I := fun t => (Propagation.start p.graph).Keeps κ t)
    (f := PropagateM.statement p.graph.depth) (l := p.body) (fun id hid t ht => ?_) hstart.keeps
  · exact hrun.mono fun _ t ht => ht.graph
  · have hwithin : p.graph.Within p.graph.depth id :=
      (hbody id hid).grounded.within.mono (Nat.le_succ _)
    exact (PropagateM.statement_meets ht.graph ht.fits (ht.graph.within hwithin)
      (ht.graph.inOrder (hbody id hid))).mono fun _ u hu => ht.trans hu

/-- Propagation of a program that is in order fails only at a limitation, and keeps kinds if it does
not. -/
theorem Program.propagate_meets {p : Program} {κ : String → Kind} (hlinked : p.graph.Linked)
    (hbody : ∀ id ∈ p.body, p.graph.InOrder κ id) :
    Meets (fun e _ => Limitation e) (p.body.forM (PropagateM.statement p.graph.depth))
      (.start p.graph) fun _ t => KeepsKinds κ p.graph t.graph :=
  (propagate_keeps hlinked hbody).mono_error fun _ _ h => h.1

end RegisterBackend
