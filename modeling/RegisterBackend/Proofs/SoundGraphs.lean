import RegisterBackend.Proofs.CheckSteps
import RegisterBackend.Proofs.GraphEdges

/-!
# Graphs in order

In a `Graph.Sound` graph each node refers to earlier ones and fits what it refers to: operands have
values of equal kinds, conditions are comparisons, blocks hold statements. Such a graph grows by
nodes that fit (`Graph.Sound.add`).

The kind of an evaluable is found in two ways. The check looks at all operands, and `Graph.kind?`
follows the left ones. On a sound graph both succeed on every evaluable and agree
(`Graph.Sound.exists_evaluates`, `Graph.Evaluates.kind?`). A statement passes the check, unless an
index or a length is wrong below it (`Graph.Sound.checkStatement`).
-/

namespace RegisterBackend

/-! ## Array literals -/

/-- A number that may stand in an array is stored unchanged. -/
theorem Literal.toInt64_toInt8 {value : Int64} (h : isElement value = true) :
    value.toInt8.toInt64 = value := by
  simp only [isElement, Bool.and_eq_true, decide_eq_true_eq, Int64.le_iff_toInt_le] at h
  have hleast : leastElement.toInt = -126 := by decide
  have hgreatest : greatestElement.toInt = 127 := by decide
  apply Int64.toInt_inj.1
  rw [Int8.toInt_toInt64, Int64.toInt_toInt8]
  exact Int.bmod_eq_of_le (by omega) (by omega)

theorem Literal.badElement?_eq_none {values : List Int64} :
    badElement? values = none ↔ ∀ value ∈ values, isElement value = true := by
  simp [badElement?]

/-- An array literal that could be made has elements in range. -/
theorem Literal.inRange_ofElements {values : List Int64} {l : Literal}
    (h : ofElements values = .ok l) : l.InRange ∧ l.kind = .array := by
  unfold ofElements at h
  split at h
  next => cases h
  next hvalues =>
    cases h
    refine ⟨fun elements helements => ?_, rfl⟩
    cases helements
    rw [badElement?_eq_none] at hvalues ⊢
    intro value hvalue
    obtain ⟨byte, hbyte, rfl⟩ := List.mem_map.1 hvalue
    obtain ⟨given, hgiven, rfl⟩ := List.mem_map.1 hbyte
    rw [toInt64_toInt8 (hvalues given hgiven)]
    exact hvalues given hgiven

/-- Whether nodes of this form have a value. -/
def Shape.isEvaluable : Shape → Bool
  | .constant | .var | .arithmetic | .call => true
  | .assign | .updateElement | .comparison | .ifElse | .whileLoop | .functionDef | .debug => false

namespace Graph

variable {g g' g₁ g₂ : Graph} {id c : NodeId} {node : Node} {k : Kind} {d e : Nat}

/-! ## Graphs with more nodes -/

/-- The other graph has the nodes of the graph under the same numbers. -/
def Extends (g g' : Graph) : Prop :=
  ∀ n node, g.node? n = some node → g'.node? n = some node

theorem Extends.refl (g : Graph) : g.Extends g :=
  fun _ _ h => h

theorem Extends.trans (h : g.Extends g₁) (h₁ : g₁.Extends g₂) : g.Extends g₂ :=
  fun n node hnode => h₁ n node (h n node hnode)

/-- A new node gets a number of its own, so the others stay. -/
theorem extends_add (h : g.add node = .ok (id, g')) : g.Extends g' := by
  obtain ⟨hid, hnodes⟩ := node?_add h
  intro n node' hnode'
  have hlt := index_lt_of_node? hnode'
  rw [hnodes, if_neg, hnode']
  rintro rfl
  omega

/-! ## Evaluables -/

/-- An evaluable that is accepted is so in a graph with more nodes and with a larger bound. -/
theorem checkExpr_mono (hg : g.Extends g') (h : g.checkExpr d id = .ok k) (hle : d ≤ e) :
    g'.checkExpr e id = .ok k := by
  induction d generalizing id k e with
  | zero => cases h
  | succ d ih =>
    obtain ⟨e, rfl⟩ : ∃ e', e = e' + 1 := ⟨e - 1, by omega⟩
    have hle : d ≤ e := by omega
    rw [checkExpr_eq_ok] at h ⊢
    cases h with
    | constant hnode hrange => exact .constant (hg _ _ hnode) hrange
    | var hnode => exact .var (hg _ _ hnode)
    | arithmetic hnode hleft hright =>
      exact .arithmetic (hg _ _ hnode) (ih hleft hle) (ih hright hle)
    | call hnode hargs =>
      exact .call (hg _ _ hnode) fun c hc => (hargs c hc).imp fun _ hk => ih hk hle

/-- The kind found by the check of all operands is the kind found along the left ones. -/
theorem kindWithin_of_checkExpr (h : g.checkExpr d id = .ok k) :
    g.kindWithin d id = .ok (some k) := by
  induction d generalizing id k with
  | zero => cases h
  | succ d ih =>
    cases checkExpr_eq_ok.1 h with
    | constant hnode | var hnode | call hnode => simp only [kindWithin, hnode]
    | arithmetic hnode hleft => simp only [kindWithin, hnode, ih hleft]

/-- The node is accepted as an evaluable of a kind, by a check that goes no deeper than the nodes up
to this one. -/
def Evaluates (g : Graph) (id : NodeId) (k : Kind) : Prop :=
  g.checkExpr (id.index + 1) id = .ok k

namespace Evaluates

theorem extend (h : g.Evaluates id k) (hg : g.Extends g') : g'.Evaluates id k :=
  checkExpr_mono hg h (Nat.le_refl _)

theorem check (h : g.Evaluates id k) (hlt : id.index < d) : g.checkExpr d id = .ok k :=
  checkExpr_mono (.refl g) h hlt

theorem check_depth (h : g.Evaluates id k) : g.checkExpr g.depth id = .ok k := by
  obtain ⟨node, hnode⟩ := exists_node_of_checkExpr h
  exact h.check (Nat.lt_succ_of_lt (index_lt_of_node? hnode))

theorem kind? (h : g.Evaluates id k) : g.kind? id = .ok (some k) :=
  kindWithin_of_checkExpr h.check_depth

end Evaluates

/-! ## Nodes in their roles -/

/-- The node is a comparison. -/
def IsComparison (g : Graph) (id : NodeId) : Prop :=
  ∃ op lhs rhs, g.node? id = some (.comparison op lhs rhs)

/-- The node is a statement. -/
def IsStatement (g : Graph) (id : NodeId) : Prop :=
  ∃ node, g.node? id = some node ∧ node.isStatement = true

/-- The node is a variable. -/
def IsVariable (g : Graph) (id : NodeId) : Prop :=
  ∃ v, g.node? id = some (.var v)

theorem IsComparison.extend (h : g.IsComparison id) (hg : g.Extends g') : g'.IsComparison id := by
  obtain ⟨op, lhs, rhs, hnode⟩ := h
  exact ⟨op, lhs, rhs, hg _ _ hnode⟩

theorem IsStatement.extend (h : g.IsStatement id) (hg : g.Extends g') : g'.IsStatement id :=
  h.imp fun _ ⟨hnode, hrole⟩ => ⟨hg _ _ hnode, hrole⟩

theorem IsVariable.extend (h : g.IsVariable id) (hg : g.Extends g') : g'.IsVariable id :=
  h.imp fun _ => hg _ _

/-- What a node refers to is in the role that it has there, and the kinds agree. -/
def Fits (g : Graph) : Node → Prop
  | .constant l => l.InRange
  | .var _ | .debug _ => True
  | .arithmetic _ lhs rhs | .comparison _ lhs rhs => ∃ k, g.Evaluates lhs k ∧ g.Evaluates rhs k
  | .call _ args _ => ∀ c ∈ args, ∃ k, g.Evaluates c k
  | .assign target value => ∃ v, g.node? target = some (.var v) ∧ g.Evaluates value v.kind
  | .updateElement target _ value =>
    ∃ v, g.node? target = some (.var v) ∧ v.kind = .array ∧ g.Evaluates value .scalar
  | .ifElse condition thenBlock elseBlock =>
    g.IsComparison condition ∧ (∀ c ∈ thenBlock, g.IsStatement c) ∧ ∀ c ∈ elseBlock, g.IsStatement c
  | .whileLoop condition body => g.IsComparison condition ∧ ∀ c ∈ body, g.IsStatement c
  | .functionDef _ params body _ => (∀ c ∈ params, g.IsVariable c) ∧ ∀ c ∈ body, g.IsStatement c

/-- A node that fits still fits when nodes are added. -/
theorem Fits.extend (h : g.Fits node) (hg : g.Extends g') : g'.Fits node := by
  cases node with
  | constant | var | debug => exact h
  | arithmetic | comparison =>
    obtain ⟨k, hleft, hright⟩ := h
    exact ⟨k, hleft.extend hg, hright.extend hg⟩
  | call => exact fun c hc => (h c hc).imp fun _ hk => hk.extend hg
  | assign =>
    obtain ⟨v, htarget, hvalue⟩ := h
    exact ⟨v, hg _ _ htarget, hvalue.extend hg⟩
  | updateElement =>
    obtain ⟨v, htarget, harray, hvalue⟩ := h
    exact ⟨v, hg _ _ htarget, harray, hvalue.extend hg⟩
  | ifElse =>
    obtain ⟨hcond, hthen, helse⟩ := h
    exact ⟨hcond.extend hg, fun c hc => (hthen c hc).extend hg, fun c hc => (helse c hc).extend hg⟩
  | whileLoop =>
    obtain ⟨hcond, hbody⟩ := h
    exact ⟨hcond.extend hg, fun c hc => (hbody c hc).extend hg⟩
  | functionDef =>
    obtain ⟨hparams, hbody⟩ := h
    exact ⟨fun c hc => (hparams c hc).extend hg, fun c hc => (hbody c hc).extend hg⟩

/-- A node that fits refers to nodes of the graph. -/
theorem Fits.exists_node (h : g.Fits node) (hc : c ∈ node.children) : ∃ n, g.node? c = some n := by
  have hstatement : g.IsStatement c → ∃ n, g.node? c = some n := fun h => h.imp fun _ h => h.1
  cases node with
  | constant | var | debug => cases hc
  | arithmetic | comparison =>
    obtain ⟨k, hleft, hright⟩ := h
    simp only [Node.children, List.mem_cons, List.not_mem_nil, or_false] at hc
    rcases hc with rfl | rfl
    · exact exists_node_of_checkExpr hleft
    · exact exists_node_of_checkExpr hright
  | call =>
    obtain ⟨k, hk⟩ := h c hc
    exact exists_node_of_checkExpr hk
  | assign =>
    obtain ⟨v, htarget, hvalue⟩ := h
    simp only [Node.children, List.mem_cons, List.not_mem_nil, or_false] at hc
    rcases hc with rfl | rfl
    · exact ⟨_, htarget⟩
    · exact exists_node_of_checkExpr hvalue
  | updateElement =>
    obtain ⟨v, htarget, -, hvalue⟩ := h
    simp only [Node.children, List.mem_cons, List.not_mem_nil, or_false] at hc
    rcases hc with rfl | rfl
    · exact ⟨_, htarget⟩
    · exact exists_node_of_checkExpr hvalue
  | ifElse =>
    obtain ⟨⟨op, lhs, rhs, hcond⟩, hthen, helse⟩ := h
    simp only [Node.children, List.mem_cons, List.mem_append] at hc
    rcases hc with rfl | hc | hc
    · exact ⟨_, hcond⟩
    · exact hstatement (hthen c hc)
    · exact hstatement (helse c hc)
  | whileLoop =>
    obtain ⟨⟨op, lhs, rhs, hcond⟩, hbody⟩ := h
    rcases List.mem_cons.1 hc with rfl | hc
    · exact ⟨_, hcond⟩
    · exact hstatement (hbody c hc)
  | functionDef =>
    obtain ⟨hparams, hbody⟩ := h
    rcases List.mem_append.1 hc with hc | hc
    · exact (hparams c hc).imp' _ fun _ h => h
    · exact hstatement (hbody c hc)

/-! ## Sound graphs -/

/-- Every node refers to earlier nodes, and fits them. -/
structure Sound (g : Graph) : Prop where
  descends : ∀ {id node}, g.node? id = some node → ∀ c ∈ node.children, c.index < id.index
  fits : ∀ {id node}, g.node? id = some node → g.Fits node

namespace Sound

theorem empty : Graph.empty.Sound where
  descends h := by simp [node?, entry?, Graph.empty] at h
  fits h := by simp [node?, entry?, Graph.empty] at h

/-- A node that fits can be added. -/
theorem add (h : g.Sound) (hfits : g.Fits node) (hadd : g.add node = .ok (id, g')) : g'.Sound := by
  have hextends := extends_add hadd
  obtain ⟨hid, hnodes⟩ := node?_add hadd
  constructor
  · intro n node' hnode' c hc
    rw [hnodes] at hnode'
    split at hnode'
    next hn =>
      cases hnode'
      obtain ⟨child, hchild⟩ := hfits.exists_node hc
      rw [hn, hid]
      exact index_lt_of_node? hchild
    next => exact h.descends hnode' c hc
  · intro n node' hnode'
    rw [hnodes] at hnode'
    split at hnode'
    next =>
      cases hnode'
      exact hfits.extend hextends
    next => exact (h.fits hnode').extend hextends

/-- Paths lead to earlier nodes. -/
theorem index_lt_of_transGen (h : g.Sound) (hpath : Relation.TransGen g.Child id c) :
    c.index < id.index := by
  induction hpath with
  | single hchild =>
    obtain ⟨node, hnode, hc⟩ := hchild
    exact h.descends hnode _ hc
  | tail _ hchild ih =>
    obtain ⟨node, hnode, hc⟩ := hchild
    exact Nat.lt_trans (h.descends hnode _ hc) ih

/-- Every node that has a value is accepted as an evaluable. -/
theorem exists_evaluates (h : g.Sound) (hnode : g.node? id = some node)
    (hshape : node.shape.isEvaluable = true) : ∃ k, g.Evaluates id k := by
  have hfits := h.fits hnode
  have hlt := h.descends hnode
  simp only [Evaluates, checkExpr_eq_ok]
  cases node with
  | constant => exact ⟨_, .constant hnode hfits⟩
  | var => exact ⟨_, .var hnode⟩
  | arithmetic op lhs rhs =>
    obtain ⟨k, hleft, hright⟩ := hfits
    exact ⟨k, .arithmetic hnode (hleft.check (hlt lhs (by simp [Node.children])))
      (hright.check (hlt rhs (by simp [Node.children])))⟩
  | call => exact ⟨_, .call hnode fun c hc => (hfits c hc).imp fun _ hk => hk.check (hlt c hc)⟩
  | _ => cases hshape

/-- A node that has a kind is accepted as an evaluable of this kind. -/
theorem evaluates_of_kind? (h : g.Sound) (hk : g.kind? id = .ok (some k)) : g.Evaluates id k := by
  obtain ⟨node, hnode, hshape⟩ : ∃ node, g.node? id = some node ∧ node.shape.isEvaluable = true := by
    rw [Graph.kind?, depth, kindWithin] at hk
    cases hnode : g.node? id with
    | none => simp [hnode] at hk
    | some node =>
      refine ⟨node, rfl, ?_⟩
      cases node with
      | constant | var | arithmetic | call => rfl
      | _ => simp [hnode] at hk
  obtain ⟨k', hk'⟩ := h.exists_evaluates hnode hshape
  cases hk.symm.trans hk'.kind?
  exact hk'

end Sound

/-! ## What can still be refused -/

/-- What a statement is refused for that was built from nodes in their roles: at some node below, an
element past the declared end of an array is assigned, or an array constant of another length than
declared. -/
inductive Refuses (g : Graph) (root : NodeId) : Stop ProgramError → Prop
  | index {id target value : NodeId} {index length : Nat} {v : Variable} (hpath : g.Reaches root id)
    (hnode : g.node? id = some (.updateElement target index value))
    (htarget : g.node? target = some (.var v)) (hlength : v.length = some length)
    (hpast : length ≤ index) :
    Refuses g root (.error (.malformed id (.indexOutOfBounds index v.name length)))
  | length {id target value : NodeId} {expected : Nat} {elements : List Int8} {v : Variable}
    (hpath : g.Reaches root id) (hnode : g.node? id = some (.assign target value))
    (htarget : g.node? target = some (.var v)) (hlength : v.length = some expected)
    (hvalue : g.node? value = some (.constant (.array elements)))
    (hdiffers : elements.length ≠ expected) :
    Refuses g root (.error (.lengthMismatch v.name expected elements.length))

/-- What is refused below a child of a node is refused below the node. -/
theorem Refuses.parent {why : Stop ProgramError} (h : g.Refuses c why)
    (hnode : g.node? id = some node) (hc : c ∈ node.children) : g.Refuses id why := by
  cases h with
  | index hpath hnode' htarget hlength hpast =>
    exact .index (.head ⟨node, hnode, hc⟩ hpath) hnode' htarget hlength hpast
  | length hpath hnode' htarget hlength hvalue hdiffers =>
    exact .length (.head ⟨node, hnode, hc⟩ hpath) hnode' htarget hlength hvalue hdiffers

/-- An index is refused only if it is past the declared end of the array. -/
theorem checkIndex_orFails {v : Variable} {index : Nat} :
    OrFails (fun why => ∃ length, v.length = some length ∧ length ≤ index ∧
      why = .error (.malformed id (.indexOutOfBounds index v.name length)))
      (checkIndex id v index) := by
  unfold checkIndex
  split
  next length hlength =>
    split
    next => exact .inl rfl
    next hpast => exact .inr ⟨_, rfl, length, hlength, Nat.le_of_not_lt hpast, rfl⟩
  next => exact .inl rfl

namespace Sound

/-- The comparisons of a sound graph are accepted. -/
theorem checkCondition (h : g.Sound) (hid : g.IsComparison id) (hlt : id.index < d) :
    g.checkCondition d id = .ok () := by
  obtain ⟨op, lhs, rhs, hnode⟩ := hid
  obtain ⟨k, hleft, hright⟩ := h.fits hnode
  have hlhs := h.descends hnode lhs (by simp [Node.children])
  have hrhs := h.descends hnode rhs (by simp [Node.children])
  exact checkCondition_eq_ok.2
    ⟨op, lhs, rhs, k, hnode, hleft.check (by omega), hright.check (by omega)⟩

/-- A statement of a sound graph is accepted, unless an index or a length is wrong below it. -/
theorem checkStatement (h : g.Sound) (hid : g.IsStatement id) (hlt : id.index < d) :
    OrFails (g.Refuses id) (g.checkStatement d id) := by
  induction d generalizing id with
  | zero => cases hlt
  | succ d ih =>
    obtain ⟨node, hnode, hrole⟩ := hid
    have hfits := h.fits hnode
    have hlt : ∀ c ∈ node.children, c.index < d := fun c hc =>
      Nat.lt_of_lt_of_le (h.descends hnode c hc) (Nat.le_of_lt_succ hlt)
    -- blocks are checked statement by statement
    have hblock : ∀ block ⊆ node.children, (∀ c ∈ block, g.IsStatement c) →
        OrFails (g.Refuses id) (block.forM (g.checkStatement d)) := fun block hsub hblock =>
      .forM fun c hc => (ih (hblock c hc) (hlt c (hsub hc))).mono fun _ hwhy =>
        hwhy.parent hnode (hsub hc)
    rw [Graph.checkStatement]
    refine .bind_ok (fetch_eq_ok.2 hnode) ?_
    cases node with
    | assign target value =>
      obtain ⟨v, htarget, hvalue⟩ := hfits
      obtain ⟨valueNode, hvalueNode⟩ := exists_node_of_checkExpr hvalue
      refine .bind_ok (checkTarget_eq_ok.2 htarget) ?_
      refine .bind_ok (hvalue.check (hlt value (by simp [Node.children]))) ?_
      refine .bind_ok (expectKind_eq_ok.2 rfl) ?_
      refine (checkLength_orFails hvalueNode).mono ?_
      rintro _ ⟨n, elements, hlength, rfl, hdiffers, rfl⟩
      exact .length .refl hnode htarget hlength hvalueNode hdiffers
    | updateElement target index value =>
      obtain ⟨v, htarget, harray, hvalue⟩ := hfits
      refine .bind_ok (checkTarget_eq_ok.2 htarget) ?_
      refine .bind_ok (expectKind_eq_ok.2 harray) ?_
      refine .bind ?_ (.bind_ok (hvalue.check (hlt value (by simp [Node.children])))
        (.inl (expectKind_eq_ok.2 rfl)))
      refine checkIndex_orFails.mono ?_
      rintro _ ⟨length, hlength, hpast, rfl⟩
      exact .index .refl hnode htarget hlength hpast
    | ifElse condition thenBlock elseBlock =>
      obtain ⟨hcond, hthen, helse⟩ := hfits
      refine .bind_ok (h.checkCondition hcond (hlt condition (by simp [Node.children]))) ?_
      exact .bind (hblock thenBlock (by simp [Node.children]) hthen)
        (hblock elseBlock (by simp [Node.children]) helse)
    | whileLoop condition body =>
      obtain ⟨hcond, hbody⟩ := hfits
      refine .bind_ok (h.checkCondition hcond (hlt condition (by simp [Node.children]))) ?_
      exact hblock body (by simp [Node.children]) hbody
    | functionDef name params body returns =>
      obtain ⟨hparams, hbody⟩ := hfits
      refine .bind_ok (forM_eq_ok.2 fun c hc => ?_) (hblock body (by simp [Node.children]) hbody)
      obtain ⟨v, hv⟩ := hparams c hc
      exact bind_eq_ok.2 ⟨v, checkTarget_eq_ok.2 hv, rfl⟩
    | debug => exact .inl rfl
    | _ => cases hrole

end Sound

end Graph

end RegisterBackend
