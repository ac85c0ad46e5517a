import Mathlib.Tactic.Choose
import RegisterBackend.Proofs.CheckSteps
import RegisterBackend.Proofs.Substitution

/-!
# Kinds

`Graph.HasKind`, `Graph.Compares` and `Graph.InOrder` say of an evaluable, a comparison and a
statement that its parts are in their roles and that the kinds agree, where each name has one kind.
A program that passes the check is in order, if its variables of one name have one kind
(`Program.inOrder_of_check`), and all of its paths end (`Graph.InOrder.grounded`).

`Graph.KeepsKinds` says that a graph was rewritten such that a computed slot refers to what it
referred to before or to a constant of that kind. What was in order before is so afterwards
(`Graph.KeepsKinds.inOrder`), and no path has become longer (`Graph.KeepsKinds.within`).
-/

namespace RegisterBackend

namespace Graph

variable {g g' g₁ g₂ : Graph} {κ : String → Kind} {id c c' n : NodeId} {node : Node} {k : Kind}

/-! ## Nodes in order -/

/-- The node is an evaluable of a kind, and its operands are in order. -/
inductive HasKind (g : Graph) (κ : String → Kind) : NodeId → Kind → Prop
  | constant {id : NodeId} {l : Literal} (hnode : g.node? id = some (.constant l)) :
    HasKind g κ id l.kind
  | var {id : NodeId} {v : Variable} (hnode : g.node? id = some (.var v))
    (hkind : v.kind = κ v.name) : HasKind g κ id v.kind
  | arithmetic {id lhs rhs : NodeId} {op : ArithOp} {k : Kind}
    (hnode : g.node? id = some (.arithmetic op lhs rhs)) (hleft : HasKind g κ lhs k)
    (hright : HasKind g κ rhs k) : HasKind g κ id k
  | call {id : NodeId} {name : String} {args : List NodeId} {returns : Kind} {kinds : NodeId → Kind}
    (hnode : g.node? id = some (.call name args returns))
    (hargs : ∀ c ∈ args, HasKind g κ c (kinds c)) : HasKind g κ id returns

/-- The node is a comparison of two evaluables of one kind. -/
def Compares (g : Graph) (κ : String → Kind) (id : NodeId) : Prop :=
  ∃ op lhs rhs k, g.node? id = some (.comparison op lhs rhs) ∧ g.HasKind κ lhs k ∧ g.HasKind κ rhs k

/-- The node is a statement that is in order. -/
inductive InOrder (g : Graph) (κ : String → Kind) : NodeId → Prop
  | assign {id target value : NodeId} {v : Variable} (hnode : g.node? id = some (.assign target value))
    (htarget : g.node? target = some (.var v)) (hkind : v.kind = κ v.name)
    (hvalue : g.HasKind κ value v.kind) : InOrder g κ id
  | updateElement {id target value : NodeId} {index : Nat} {v : Variable}
    (hnode : g.node? id = some (.updateElement target index value))
    (htarget : g.node? target = some (.var v)) (hvalue : g.HasKind κ value .scalar) : InOrder g κ id
  | ifElse {id cond : NodeId} {thenBlock elseBlock : List NodeId}
    (hnode : g.node? id = some (.ifElse cond thenBlock elseBlock)) (hcond : g.Compares κ cond)
    (hthen : ∀ c ∈ thenBlock, InOrder g κ c) (helse : ∀ c ∈ elseBlock, InOrder g κ c) : InOrder g κ id
  | whileLoop {id cond : NodeId} {body : List NodeId}
    (hnode : g.node? id = some (.whileLoop cond body)) (hcond : g.Compares κ cond)
    (hbody : ∀ c ∈ body, InOrder g κ c) : InOrder g κ id
  | functionDef {id : NodeId} {name : String} {params body : List NodeId} {returns : Kind}
    (hnode : g.node? id = some (.functionDef name params body returns))
    (hparams : ∀ c ∈ params, ∃ v, g.node? c = some (.var v)) (hbody : ∀ c ∈ body, InOrder g κ c) :
    InOrder g κ id
  | debug {id : NodeId} {text : String} (hnode : g.node? id = some (.debug text)) : InOrder g κ id

/-- A call is in order if each argument has some kind. -/
theorem hasKind_call {name : String} {args : List NodeId} {returns : Kind}
    (hnode : g.node? id = some (.call name args returns))
    (hargs : ∀ c ∈ args, ∃ k, g.HasKind κ c k) : g.HasKind κ id returns := by
  have : Nonempty Kind := ⟨.scalar⟩
  choose! kinds hkinds using hargs
  exact .call hnode hkinds

/-- An evaluable has one kind. -/
theorem HasKind.unique {k' : Kind} (h : g.HasKind κ id k) (h' : g.HasKind κ id k') : k = k' := by
  induction h with
  | constant hnode | var hnode | call hnode =>
    cases h' with
    | constant hnode' | var hnode' | arithmetic hnode' | call hnode' =>
      cases hnode.symm.trans hnode' <;> rfl
  | arithmetic hnode _ _ ihl =>
    cases h' with
    | arithmetic hnode' hleft' =>
      cases hnode.symm.trans hnode'
      exact ihl hleft'
    | constant hnode' | var hnode' | call hnode' => cases hnode.symm.trans hnode'

/-! ## Paths end -/

theorem grounded_of_isLeaf (hnode : g.node? id = some node) (hleaf : node.isLeaf = true) :
    g.Grounded id :=
  .intro hnode (by simp [Node.children_of_isLeaf hleaf])

/-- An evaluable of a kind has no cycle below it. -/
theorem HasKind.grounded (h : g.HasKind κ id k) : g.Grounded id := by
  induction h with
  | constant hnode | var hnode => exact grounded_of_isLeaf hnode rfl
  | arithmetic hnode _ _ ihl ihr => exact .intro hnode (by simp [Node.children, ihl, ihr])
  | call hnode _ ih => exact .intro hnode ih

theorem Compares.grounded (h : g.Compares κ id) : g.Grounded id := by
  obtain ⟨op, lhs, rhs, k, hnode, hleft, hright⟩ := h
  exact .intro hnode (by simp [Node.children, hleft.grounded, hright.grounded])

/-- All paths from a statement that is in order end. -/
theorem InOrder.grounded (h : g.InOrder κ id) : g.Grounded id := by
  induction h with
  | assign hnode htarget _ hvalue | updateElement hnode htarget hvalue =>
    exact .intro hnode (by simp [Node.children, hvalue.grounded, grounded_of_isLeaf htarget rfl])
  | ifElse hnode hcond _ _ iht ihe =>
    refine .intro hnode fun c hc => ?_
    simp only [Node.children, List.mem_cons, List.mem_append] at hc
    rcases hc with rfl | hc | hc
    · exact hcond.grounded
    · exact iht c hc
    · exact ihe c hc
  | whileLoop hnode hcond _ ih =>
    refine .intro hnode fun c hc => ?_
    rcases List.mem_cons.1 hc with rfl | hc
    · exact hcond.grounded
    · exact ih c hc
  | functionDef hnode hparams _ ih =>
    refine .intro hnode fun c hc => ?_
    rcases List.mem_append.1 hc with hc | hc
    · obtain ⟨v, hv⟩ := hparams c hc
      exact grounded_of_isLeaf hv rfl
    · exact ih c hc
  | debug hnode => exact grounded_of_isLeaf hnode rfl

/-! ## What the check accepts -/

/-- The variables below the node have the kinds of their names. -/
def VarsFit (g : Graph) (κ : String → Kind) (id : NodeId) : Prop :=
  ∀ n v, g.Reaches id n → g.node? n = some (.var v) → v.kind = κ v.name

theorem VarsFit.child (h : g.VarsFit κ id) (hnode : g.node? id = some node) (hc : c ∈ node.children) :
    g.VarsFit κ c :=
  fun n v hn => h n v (.head ⟨node, hnode, hc⟩ hn)

/-- An evaluable that passes the check is in order. -/
theorem hasKind_of_checkExpr {d : Nat} (h : g.checkExpr d id = .ok k) (hvars : g.VarsFit κ id) :
    g.HasKind κ id k := by
  induction d generalizing id k with
  | zero => cases h
  | succ d ih =>
    cases checkExpr_eq_ok.1 h with
    | constant hnode => exact .constant hnode
    | var hnode => exact .var hnode (hvars id _ .refl hnode)
    | arithmetic hnode hleft hright =>
      exact .arithmetic hnode (ih hleft (hvars.child hnode (by simp [Node.children])))
        (ih hright (hvars.child hnode (by simp [Node.children])))
    | call hnode hargs =>
      refine hasKind_call hnode fun c hc => ?_
      obtain ⟨k, hk⟩ := hargs c hc
      exact ⟨k, ih hk (hvars.child hnode hc)⟩

/-- A comparison that passes the check is in order. -/
theorem compares_of_checkCondition {d : Nat} (h : g.checkCondition d id = .ok ())
    (hvars : g.VarsFit κ id) : g.Compares κ id := by
  obtain ⟨op, lhs, rhs, k, hnode, hleft, hright⟩ := checkCondition_eq_ok.1 h
  exact ⟨op, lhs, rhs, k, hnode,
    hasKind_of_checkExpr hleft (hvars.child hnode (by simp [Node.children])),
    hasKind_of_checkExpr hright (hvars.child hnode (by simp [Node.children]))⟩

/-- A statement that passes the check is in order. -/
theorem inOrder_of_checkStatement {d : Nat} (h : g.checkStatement d id = .ok ())
    (hvars : g.VarsFit κ id) : g.InOrder κ id := by
  induction d generalizing id with
  | zero => cases h
  | succ d ih =>
    cases statementCheck_of_check h with
    | @assign target _ v hnode htarget hvalue =>
      have hkind := hvars.child hnode (c := target) (by simp [Node.children]) target v .refl htarget
      exact .assign hnode htarget hkind
        (hasKind_of_checkExpr hvalue (hvars.child hnode (by simp [Node.children])))
    | updateElement hnode htarget _ _ hvalue =>
      exact .updateElement hnode htarget
        (hasKind_of_checkExpr hvalue (hvars.child hnode (by simp [Node.children])))
    | ifElse hnode hcond hthen helse =>
      exact .ifElse hnode
        (compares_of_checkCondition hcond (hvars.child hnode (by simp [Node.children])))
        (fun c hc => ih (hthen c hc) (hvars.child hnode (by simp [Node.children, hc])))
        (fun c hc => ih (helse c hc) (hvars.child hnode (by simp [Node.children, hc])))
    | whileLoop hnode hcond hbody =>
      exact .whileLoop hnode
        (compares_of_checkCondition hcond (hvars.child hnode (by simp [Node.children])))
        (fun c hc => ih (hbody c hc) (hvars.child hnode (by simp [Node.children, hc])))
    | functionDef hnode hparams hbody =>
      exact .functionDef hnode hparams fun c hc =>
        ih (hbody c hc) (hvars.child hnode (by simp [Node.children, hc]))
    | debug hnode => exact .debug hnode

/-! ## Rewriting -/

/-- What a slot may refer to when it referred to the first node: still to that, or to a constant of
its kind. -/
def Refits (κ : String → Kind) (g g' : Graph) (c c' : NodeId) : Prop :=
  c' = c ∨ ∃ l, g'.node? c' = some (.constant l) ∧ ∀ k, g.HasKind κ c k → l.kind = k

theorem Refits.refl (κ : String → Kind) (g g' : Graph) (c : NodeId) : Refits κ g g' c c :=
  .inl rfl

/-- What a slot refers to now has the kind of what it referred to. -/
theorem Refits.hasKind (h : Refits κ g g' c c') (hc : g.HasKind κ c k) (hstays : g'.HasKind κ c k) :
    g'.HasKind κ c' k := by
  rcases h with rfl | ⟨l, hl, hkind⟩
  · exact hstays
  · rw [← hkind k hc]
    exact .constant hl

/-- The nodes stay, but for computed slots that refer to constants of their kinds instead. -/
structure KeepsKinds (κ : String → Kind) (g g' : Graph) : Prop where
  kept : ∀ {n node}, g.node? n = some node →
    ∃ node', g'.node? n = some node' ∧ node.Amends (Refits κ g g') node'

namespace KeepsKinds

theorem substitutes (h : KeepsKinds κ g g') :
    Substitutes (fun c l => ∀ k, g.HasKind κ c k → l.kind = k) g g' :=
  ⟨h.kept⟩

theorem refl (κ : String → Kind) (g : Graph) : KeepsKinds κ g g :=
  ⟨fun h => ⟨_, h, .same⟩⟩

theorem leaf (h : KeepsKinds κ g g') (hleaf : node.isLeaf = true) (hnode : g.node? n = some node) :
    g'.node? n = some node :=
  h.substitutes.leaf hleaf hnode

/-- Evaluables keep their kinds. -/
theorem hasKind (h : KeepsKinds κ g g') (hid : g.HasKind κ id k) : g'.HasKind κ id k := by
  induction hid with
  | constant hnode => exact .constant (h.leaf rfl hnode)
  | var hnode hkind => exact .var (h.leaf rfl hnode) hkind
  | arithmetic hnode hleft hright ihl ihr =>
    obtain ⟨lhs', rhs', hnode', left, right⟩ := h.substitutes.arithmetic hnode
    exact .arithmetic hnode' (Refits.hasKind left hleft ihl) (Refits.hasKind right hright ihr)
  | call hnode hargs ih =>
    obtain ⟨args', hnode', hfills⟩ := h.substitutes.call hnode
    refine hasKind_call hnode' fun c' hc' => ?_
    obtain ⟨c, hc, hrefits⟩ := exists_mem_of_forall₂ hfills hc'
    exact ⟨_, Refits.hasKind hrefits (hargs c hc) (ih c hc)⟩

/-- A comparison is still one of two evaluables of one kind. -/
theorem compares (h : KeepsKinds κ g g') (hid : g.Compares κ id) : g'.Compares κ id := by
  obtain ⟨op, lhs, rhs, k, hnode, hleft, hright⟩ := hid
  obtain ⟨lhs', rhs', hnode', left, right⟩ := h.substitutes.comparison hnode
  exact ⟨op, lhs', rhs', k, hnode', Refits.hasKind left hleft (h.hasKind hleft),
    Refits.hasKind right hright (h.hasKind hright)⟩

/-- Statements stay in order. -/
theorem inOrder (h : KeepsKinds κ g g') (hid : g.InOrder κ id) : g'.InOrder κ id := by
  induction hid with
  | assign hnode htarget hkind hvalue =>
    obtain ⟨value', hnode', value⟩ := h.substitutes.assign hnode
    exact .assign hnode' (h.leaf rfl htarget) hkind (Refits.hasKind value hvalue (h.hasKind hvalue))
  | updateElement hnode htarget hvalue =>
    obtain ⟨value', hnode', value⟩ := h.substitutes.updateElement hnode
    exact .updateElement hnode' (h.leaf rfl htarget) (Refits.hasKind value hvalue (h.hasKind hvalue))
  | ifElse hnode hcond _ _ iht ihe =>
    exact .ifElse (h.substitutes.fixed rfl hnode) (h.compares hcond) iht ihe
  | whileLoop hnode hcond _ ih =>
    exact .whileLoop (h.substitutes.fixed rfl hnode) (h.compares hcond) ih
  | functionDef hnode hparams _ ih =>
    exact .functionDef (h.substitutes.fixed rfl hnode)
      (fun c hc => (hparams c hc).imp fun _ => h.leaf rfl) ih
  | debug hnode => exact .debug (h.leaf rfl hnode)

/-- Paths do not become longer. -/
theorem within {d : Nat} (h : KeepsKinds κ g g') (hid : g.Within d id) : g'.Within d id :=
  h.substitutes.within hid

/-- A slot that was filled twice is filled with a constant of the kind that it had first. -/
theorem refits (h₁ : KeepsKinds κ g g₁) (h₂ : KeepsKinds κ g₁ g₂) {c₁ c₂ : NodeId}
    (hc₁ : Refits κ g g₁ c c₁) (hc₂ : Refits κ g₁ g₂ c₁ c₂) : Refits κ g g₂ c c₂ :=
  Substitutes.fills (P := fun c l => ∀ k, g.HasKind κ c k → l.kind = k)
    (fun _ hl k hk => hl k (h₁.hasKind hk))
    (fun h hconst h' k hk => (h' _ (.constant hconst)).trans (h k hk)) h₂.substitutes hc₁ hc₂

/-- Kinds are kept over two rewritings if they are over each. -/
theorem trans (h₁ : KeepsKinds κ g g₁) (h₂ : KeepsKinds κ g₁ g₂) : KeepsKinds κ g g₂ := by
  refine ⟨fun {n node} hnode => ?_⟩
  obtain ⟨node₁, hnode₁, hamends₁⟩ := h₁.kept hnode
  obtain ⟨node₂, hnode₂, hamends₂⟩ := h₂.kept hnode₁
  exact ⟨node₂, hnode₂, hamends₁.trans hamends₂ (.refl κ _ _) (.refl κ _ _) fun _ _ _ => h₁.refits h₂⟩

/-- A constant may be added. -/
theorem add {l : Literal} (h : g.add (.constant l) = .ok (id, g')) : KeepsKinds κ g g' :=
  ⟨(Substitutes.add h).kept⟩

/-- After some rewriting, a node may be exchanged for one whose slots refer to what they referred to
before or to constants of their kinds. The constants stay. -/
theorem update {old new : Node} (h : KeepsKinds κ g g₁) (hold : g.node? id = some old)
    (hleaf : old.isLeaf = false) (hamends : old.Amends (Refits κ g g₁) new)
    (hreplace : g₁.replace id new = .ok g₂) :
    KeepsKinds κ g g₂ ∧ ∀ c c', Refits κ g g₁ c c' → Refits κ g g₂ c c' := by
  obtain ⟨hsub, hrefits⟩ := h.substitutes.update hold hleaf hamends hreplace
  exact ⟨⟨hsub.kept⟩, hrefits⟩

end KeepsKinds

/-- The variables of a graph, those that cannot be reached included. -/
def vars (g : Graph) : List Variable :=
  g.entries.toList.filterMap fun entry => match entry.node with
    | .var v => some v
    | _ => none

/-- The variable of a node is one of those of the graph. -/
theorem mem_vars {v : Variable} (h : g.node? id = some (.var v)) : v ∈ g.vars := by
  obtain ⟨entry, hentry, hnode⟩ := Option.map_eq_some_iff.1 h
  have hmem : entry ∈ g.entries.toList := Array.mem_def.1 (Array.mem_of_getElem? hentry)
  exact List.mem_filterMap.2 ⟨entry, hmem, by rw [hnode]⟩

end Graph

/-! ## Programs -/

namespace Program

variable {p : Program}

/-- Variables of one name that can be reached have one kind. -/
def KindsAgree (p : Program) : Prop :=
  ∀ a b v w, p.Reachable a → p.Reachable b → p.graph.node? a = some (.var v) →
    p.graph.node? b = some (.var w) → v.name = w.name → v.kind = w.kind

theorem kindsAgree_of_vars (h : ∀ v ∈ p.graph.vars, ∀ w ∈ p.graph.vars,
    v.name = w.name → v.kind = w.kind) : p.KindsAgree :=
  fun _ _ v w _ _ hv hw => h v (Graph.mem_vars hv) w (Graph.mem_vars hw)

/-- A program whose variables of one name have one kind gives each name a kind. -/
theorem KindsAgree.exists_varsFit (h : p.KindsAgree) :
    ∃ κ, ∀ id ∈ p.body, p.graph.VarsFit κ id := by
  have hkind : ∀ x, ∃ k, ∀ n v, p.Reachable n → p.graph.node? n = some (.var v) → v.name = x →
      v.kind = k := by
    intro x
    by_cases hx : ∃ n v, p.Reachable n ∧ p.graph.node? n = some (.var v) ∧ v.name = x
    · obtain ⟨n, v, hn, hv, rfl⟩ := hx
      exact ⟨v.kind, fun m w hm hw hname => h m n w v hm hn hw hv hname⟩
    · exact ⟨.scalar, fun n v hn hv hname => absurd ⟨n, v, hn, hv, hname⟩ hx⟩
  choose κ hκ using hkind
  exact ⟨κ, fun id hid n v hn hv => hκ v.name n v ⟨id, hid, hn⟩ hv rfl⟩

/-- The body of a program that passes the check is in order. -/
theorem inOrder_of_check {κ : String → Kind} (h : p.check = .ok ())
    (hvars : ∀ id ∈ p.body, p.graph.VarsFit κ id) : ∀ id ∈ p.body, p.graph.InOrder κ id :=
  fun id hid => Graph.inOrder_of_checkStatement (forM_eq_ok.1 h id hid) (hvars id hid)

end Program

end RegisterBackend
