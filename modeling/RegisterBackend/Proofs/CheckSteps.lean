import RegisterBackend.Program.Check
import RegisterBackend.Proofs.Rewriting
import RegisterBackend.Proofs.Unshared

/-!
# The steps of the check

`Graph.ExprCheck` and `Graph.StatementCheck` say, by the form of the node, when the check accepts an
evaluable and a statement: what it asks of the node itself, and which parts it checks in turn. A
program that passes the check has only nodes that passed in some role (`Program.checked_of_check`).
-/

namespace RegisterBackend

/-- The elements of an array are numbers that may stand in one. -/
def Literal.InRange (l : Literal) : Prop :=
  ∀ elements, l = .array elements → badElement? (elements.map Int8.toInt64) = none

namespace Graph

variable {g : Graph} {d : Nat} {id : NodeId} {k : Kind}

/-- When an evaluable is accepted, by the form of the node. -/
inductive ExprCheck (g : Graph) (d : Nat) (id : NodeId) : Kind → Prop
  | constant {l} (hnode : g.node? id = some (.constant l)) (hrange : l.InRange) :
    ExprCheck g d id l.kind
  | var {v} (hnode : g.node? id = some (.var v)) : ExprCheck g d id v.kind
  | arithmetic {op lhs rhs k} (hnode : g.node? id = some (.arithmetic op lhs rhs))
    (hleft : g.checkExpr d lhs = .ok k) (hright : g.checkExpr d rhs = .ok k) : ExprCheck g d id k
  | call {name args returns} (hnode : g.node? id = some (.call name args returns))
    (hargs : ∀ c ∈ args, ∃ k, g.checkExpr d c = .ok k) : ExprCheck g d id returns

/-- An evaluable is accepted, with its kind, exactly in the cases that `ExprCheck` lists. -/
theorem checkExpr_eq_ok : g.checkExpr (d + 1) id = .ok k ↔ ExprCheck g d id k := by
  constructor
  · intro h
    rw [checkExpr] at h
    obtain ⟨node, hfetch, h⟩ := bind_eq_ok.1 h
    have hnode := fetch_eq_ok.1 hfetch
    cases node with
    | constant l =>
      cases l with
      | scalar value =>
        cases h
        exact .constant hnode nofun
      | array elements =>
        dsimp only at h
        split at h
        next => cases h
        next hrange =>
          cases h
          refine .constant hnode fun elements' h => ?_
          cases h
          exact hrange
    | var v =>
      cases h
      exact .var hnode
    | arithmetic op lhs rhs =>
      obtain ⟨left, hleft, h⟩ := bind_eq_ok.1 h
      obtain ⟨right, hright, h⟩ := bind_eq_ok.1 h
      split at h
      next heq =>
        cases h
        exact .arithmetic hnode hleft (heq ▸ hright)
      next => cases h
    | call name args returns =>
      obtain ⟨_, hargs, h⟩ := bind_eq_ok.1 h
      cases h
      refine .call hnode fun c hc => ?_
      obtain ⟨k, hk, -⟩ := bind_eq_ok.1 (forM_eq_ok.1 hargs c hc)
      exact ⟨k, hk⟩
    | _ => cases h
  · intro h
    rw [checkExpr]
    cases h with
    | @constant l hnode hrange =>
      refine bind_eq_ok.2 ⟨_, fetch_eq_ok.2 hnode, ?_⟩
      cases l with
      | scalar value => rfl
      | array elements =>
        dsimp only
        rw [hrange elements rfl]
        rfl
    | var hnode => exact bind_eq_ok.2 ⟨_, fetch_eq_ok.2 hnode, rfl⟩
    | arithmetic hnode hleft hright =>
      refine bind_eq_ok.2 ⟨_, fetch_eq_ok.2 hnode, bind_eq_ok.2 ⟨_, hleft, bind_eq_ok.2 ⟨_, hright, ?_⟩⟩⟩
      rw [if_pos rfl]
      rfl
    | call hnode hargs =>
      refine bind_eq_ok.2 ⟨_, fetch_eq_ok.2 hnode, bind_eq_ok.2 ⟨(), forM_eq_ok.2 fun c hc => ?_, rfl⟩⟩
      obtain ⟨k, hk⟩ := hargs c hc
      exact bind_eq_ok.2 ⟨k, hk, rfl⟩

/-- The target of an assignment has to be a variable. -/
theorem checkTarget_eq_ok {v : Variable} : g.checkTarget id = .ok v ↔ g.node? id = some (.var v) := by
  unfold checkTarget
  rw [bind_eq_ok]
  constructor
  · rintro ⟨node, hfetch, h⟩
    cases node with
    | var v =>
      cases h
      exact fetch_eq_ok.1 hfetch
    | _ => cases h
  · exact fun h => ⟨_, fetch_eq_ok.2 h, rfl⟩

/-- A condition is accepted if it compares two evaluables of one kind. -/
theorem checkCondition_eq_ok : g.checkCondition d id = .ok () ↔
    ∃ op lhs rhs k, g.node? id = some (.comparison op lhs rhs) ∧ g.checkExpr d lhs = .ok k ∧
      g.checkExpr d rhs = .ok k := by
  unfold checkCondition
  rw [bind_eq_ok]
  constructor
  · rintro ⟨node, hfetch, h⟩
    cases node with
    | comparison op lhs rhs =>
      obtain ⟨left, hleft, h⟩ := bind_eq_ok.1 h
      obtain ⟨right, hright, h⟩ := bind_eq_ok.1 h
      split at h
      next heq => exact ⟨op, lhs, rhs, left, fetch_eq_ok.1 hfetch, hleft, heq ▸ hright⟩
      next => cases h
    | _ => cases h
  · rintro ⟨op, lhs, rhs, k, hnode, hleft, hright⟩
    refine ⟨_, fetch_eq_ok.2 hnode, bind_eq_ok.2 ⟨k, hleft, bind_eq_ok.2 ⟨k, hright, ?_⟩⟩⟩
    rw [if_pos rfl]
    rfl

/-- A kind passes only where that kind is expected. -/
theorem expectKind_eq_ok {context : KindContext} {expected found : Kind} :
    expectKind context expected found = .ok () ↔ found = expected := by
  unfold expectKind
  split <;> simp_all

/-- An array constant fits the declared length of its target, where there is one. -/
def FitsLength (g : Graph) (v : Variable) (value : NodeId) : Prop :=
  ∀ n elements, v.length = some n → g.node? value = some (.constant (.array elements)) →
    elements.length = n

/-- The length of an array is checked only if the value is a constant and the variable has a
length. -/
theorem checkLength_eq_ok {v : Variable} {value : NodeId} {node : Node}
    (hvalue : g.node? value = some node) : g.checkLength v value = .ok () ↔ g.FitsLength v value := by
  constructor
  · intro h n elements hlength hnode
    obtain ⟨node', hfetch, h⟩ := bind_eq_ok.1 h
    cases (fetch_eq_ok.1 hfetch).symm.trans hnode
    rw [hlength] at h
    dsimp only at h
    split at h
    next heq => exact heq
    next => cases h
  · intro h
    refine bind_eq_ok.2 ⟨node, fetch_eq_ok.2 hvalue, ?_⟩
    split
    next n elements hlength =>
      rw [if_pos (h n elements hlength hvalue)]
      rfl
    next => rfl

/-- A length that is refused is one that differs from the declared one. -/
theorem checkLength_orFails {v : Variable} {value : NodeId} {node : Node}
    (hvalue : g.node? value = some node) :
    OrFails (fun e => ∃ n elements, v.length = some n ∧ node = .constant (.array elements) ∧
      elements.length ≠ n ∧ e = .error (.lengthMismatch v.name n elements.length))
      (g.checkLength v value) := by
  refine .bind_ok (fetch_eq_ok.2 hvalue) ?_
  split
  next n elements hlength =>
    split
    next => exact .inl rfl
    next hdiffers => exact .inr ⟨_, rfl, n, elements, hlength, rfl, hdiffers, rfl⟩
  next => exact .inl rfl

/-- An index has to be below the length of the array, where the variable has one. -/
theorem checkIndex_eq_ok {v : Variable} {index : Nat} :
    checkIndex id v index = .ok () ↔ ∀ n, v.length = some n → index < n := by
  unfold checkIndex
  split
  next n hlength => simp [hlength]
  next hlength => simp [hlength]

/-- When a statement is accepted, by the form of the node. -/
inductive StatementCheck (g : Graph) (d : Nat) (id : NodeId) : Prop
  | assign {target value v} (hnode : g.node? id = some (.assign target value))
    (htarget : g.node? target = some (.var v)) (hvalue : g.checkExpr d value = .ok v.kind)
    (hlength : g.FitsLength v value)
  | updateElement {target index value v} (hnode : g.node? id = some (.updateElement target index value))
    (htarget : g.node? target = some (.var v)) (harray : v.kind = .array)
    (hindex : ∀ n, v.length = some n → index < n) (hvalue : g.checkExpr d value = .ok .scalar)
  | ifElse {cond thenBlock elseBlock} (hnode : g.node? id = some (.ifElse cond thenBlock elseBlock))
    (hcond : g.checkCondition d cond = .ok ())
    (hthen : ∀ c ∈ thenBlock, g.checkStatement d c = .ok ())
    (helse : ∀ c ∈ elseBlock, g.checkStatement d c = .ok ())
  | whileLoop {cond body} (hnode : g.node? id = some (.whileLoop cond body))
    (hcond : g.checkCondition d cond = .ok ()) (hbody : ∀ c ∈ body, g.checkStatement d c = .ok ())
  | functionDef {name params body returns}
    (hnode : g.node? id = some (.functionDef name params body returns))
    (hparams : ∀ c ∈ params, ∃ v, g.node? c = some (.var v))
    (hbody : ∀ c ∈ body, g.checkStatement d c = .ok ())
  | debug {text} (hnode : g.node? id = some (.debug text))

/-- Only nodes that exist are accepted. -/
theorem exists_node_of_checkExpr (h : g.checkExpr d id = .ok k) : ∃ node, g.node? id = some node := by
  cases d with
  | zero => cases h
  | succ d => cases checkExpr_eq_ok.1 h <;> exact ⟨_, ‹_›⟩

/-- A statement that is accepted is one of those that `StatementCheck` lists. -/
theorem statementCheck_of_check (h : g.checkStatement (d + 1) id = .ok ()) :
    StatementCheck g d id := by
  rw [checkStatement] at h
  obtain ⟨node, hfetch, h⟩ := bind_eq_ok.1 h
  have hnode := fetch_eq_ok.1 hfetch
  cases node with
  | assign target value =>
    obtain ⟨v, htarget, h⟩ := bind_eq_ok.1 h
    obtain ⟨found, hvalue, h⟩ := bind_eq_ok.1 h
    obtain ⟨_, hexpect, hlength⟩ := bind_eq_ok.1 h
    cases expectKind_eq_ok.1 hexpect
    obtain ⟨node, hnode'⟩ := exists_node_of_checkExpr hvalue
    exact .assign hnode (checkTarget_eq_ok.1 htarget) hvalue ((checkLength_eq_ok hnode').1 hlength)
  | updateElement target index value =>
    obtain ⟨v, htarget, h⟩ := bind_eq_ok.1 h
    obtain ⟨_, harray, h⟩ := bind_eq_ok.1 h
    obtain ⟨_, hindex, h⟩ := bind_eq_ok.1 h
    obtain ⟨found, hvalue, hexpect⟩ := bind_eq_ok.1 h
    cases expectKind_eq_ok.1 hexpect
    exact .updateElement hnode (checkTarget_eq_ok.1 htarget) (expectKind_eq_ok.1 harray)
      (checkIndex_eq_ok.1 hindex) hvalue
  | ifElse cond thenBlock elseBlock =>
    obtain ⟨_, hcond, h⟩ := bind_eq_ok.1 h
    obtain ⟨_, hthen, helse⟩ := bind_eq_ok.1 h
    exact .ifElse hnode hcond (forM_eq_ok.1 hthen) (forM_eq_ok.1 helse)
  | whileLoop cond body =>
    obtain ⟨_, hcond, hbody⟩ := bind_eq_ok.1 h
    exact .whileLoop hnode hcond (forM_eq_ok.1 hbody)
  | functionDef name params body returns =>
    obtain ⟨_, hparams, hbody⟩ := bind_eq_ok.1 h
    refine .functionDef hnode (fun c hc => ?_) (forM_eq_ok.1 hbody)
    obtain ⟨v, hv, -⟩ := bind_eq_ok.1 (forM_eq_ok.1 hparams c hc)
    exact ⟨v, checkTarget_eq_ok.1 hv⟩
  | debug text => exact .debug hnode
  | _ => cases h

/-! ## Every node -/

/-- The node was accepted in one of the roles that a node can have. -/
inductive Checked (g : Graph) (id : NodeId) : Prop
  | statement {d : Nat} (h : g.checkStatement d id = .ok ())
  | condition {d : Nat} (h : g.checkCondition d id = .ok ())
  | evaluable {d : Nat} {k : Kind} (h : g.checkExpr d id = .ok k)
  | target {v : Variable} (h : g.node? id = some (.var v))

namespace Checked

/-- A node that was accepted in some role exists. -/
theorem exists_node (h : g.Checked id) : ∃ node, g.node? id = some node := by
  cases h with
  | @statement d h =>
    cases d with
    | zero => cases h
    | succ d => cases statementCheck_of_check h <;> exact ⟨_, ‹_›⟩
  | condition h =>
    obtain ⟨op, lhs, rhs, k, hnode, -⟩ := checkCondition_eq_ok.1 h
    exact ⟨_, hnode⟩
  | evaluable h => exact exists_node_of_checkExpr h
  | target h => exact ⟨_, h⟩

/-- An array constant that was accepted has elements in range. -/
theorem inRange {l : Literal} (h : g.Checked id) (hnode : g.node? id = some (.constant l)) :
    l.InRange := by
  cases h with
  | @statement d h =>
    cases d with
    | zero => cases h
    | succ d => cases statementCheck_of_check h <;> cases hnode.symm.trans ‹_›
  | condition h =>
    obtain ⟨op, lhs, rhs, k, hnode', -⟩ := checkCondition_eq_ok.1 h
    cases hnode.symm.trans hnode'
  | @evaluable d k h =>
    cases d with
    | zero => cases h
    | succ d =>
      cases checkExpr_eq_ok.1 h with
      | constant hnode' hrange =>
        cases hnode.symm.trans hnode'
        exact hrange
      | var hnode' | arithmetic hnode' | call hnode' => cases hnode.symm.trans hnode'
  | target h => cases hnode.symm.trans h

/-- The parameters of a function that was accepted are variables. -/
theorem isVar_of_param {name : String} {params body : List NodeId} {returns : Kind} {c : NodeId}
    (h : g.Checked id) (hnode : g.node? id = some (.functionDef name params body returns))
    (hc : c ∈ params) : ∃ v, g.node? c = some (.var v) := by
  cases h with
  | @statement d h =>
    cases d with
    | zero => cases h
    | succ d =>
      cases statementCheck_of_check h with
      | functionDef hnode' hparams =>
        cases hnode.symm.trans hnode'
        exact hparams c hc
      | assign hnode' | updateElement hnode' | ifElse hnode' | whileLoop hnode' | debug hnode' =>
        cases hnode.symm.trans hnode'
  | condition h =>
    obtain ⟨op, lhs, rhs, k, hnode', -⟩ := checkCondition_eq_ok.1 h
    cases hnode.symm.trans hnode'
  | @evaluable d k h =>
    cases d with
    | zero => cases h
    | succ d =>
      cases checkExpr_eq_ok.1 h with
      | constant hnode' | var hnode' | arithmetic hnode' | call hnode' =>
        cases hnode.symm.trans hnode'
  | target h => cases hnode.symm.trans h

/-- What a node refers to was accepted in the role that it has there. -/
theorem child {c : NodeId} (h : g.Checked id) (hc : g.Child id c) : g.Checked c := by
  obtain ⟨node, hnode, hc⟩ := hc
  cases h with
  | @statement d h =>
    cases d with
    | zero => cases h
    | succ d =>
      cases statementCheck_of_check h with
      | assign hnode' htarget hvalue | updateElement hnode' htarget _ _ hvalue =>
        cases hnode.symm.trans hnode'
        simp only [Node.children, List.mem_cons, List.not_mem_nil, or_false] at hc
        rcases hc with rfl | rfl
        · exact .target htarget
        · exact .evaluable hvalue
      | ifElse hnode' hcond hthen helse =>
        cases hnode.symm.trans hnode'
        simp only [Node.children, List.mem_cons, List.mem_append] at hc
        rcases hc with rfl | hc | hc
        · exact .condition hcond
        · exact .statement (hthen c hc)
        · exact .statement (helse c hc)
      | whileLoop hnode' hcond hbody =>
        cases hnode.symm.trans hnode'
        rcases List.mem_cons.1 hc with rfl | hc
        · exact .condition hcond
        · exact .statement (hbody c hc)
      | functionDef hnode' hparams hbody =>
        cases hnode.symm.trans hnode'
        rcases List.mem_append.1 hc with hc | hc
        · obtain ⟨v, hv⟩ := hparams c hc
          exact .target hv
        · exact .statement (hbody c hc)
      | debug hnode' =>
        cases hnode.symm.trans hnode'
        cases hc
  | condition h =>
    obtain ⟨op, lhs, rhs, k, hnode', hleft, hright⟩ := checkCondition_eq_ok.1 h
    cases hnode.symm.trans hnode'
    simp only [Node.children, List.mem_cons, List.not_mem_nil, or_false] at hc
    rcases hc with rfl | rfl
    · exact .evaluable hleft
    · exact .evaluable hright
  | @evaluable d k h =>
    cases d with
    | zero => cases h
    | succ d =>
      cases checkExpr_eq_ok.1 h with
      | constant hnode' | var hnode' =>
        cases hnode.symm.trans hnode'
        cases hc
      | arithmetic hnode' hleft hright =>
        cases hnode.symm.trans hnode'
        simp only [Node.children, List.mem_cons, List.not_mem_nil, or_false] at hc
        rcases hc with rfl | rfl
        · exact .evaluable hleft
        · exact .evaluable hright
      | call hnode' hargs =>
        cases hnode.symm.trans hnode'
        obtain ⟨k, hk⟩ := hargs c hc
        exact .evaluable hk
  | target h =>
    cases hnode.symm.trans h
    cases hc

end Checked

end Graph

/-- Every node of a program that passes the check was accepted in some role. -/
theorem Program.checked_of_check {p : Program} {id : NodeId} (h : p.check = .ok ())
    (hid : p.Reachable id) : p.graph.Checked id := by
  obtain ⟨root, hroot, hpath⟩ := hid
  have hstart : p.graph.Checked root := .statement (forM_eq_ok.1 h root hroot)
  induction hpath with
  | refl => exact hstart
  | tail _ hc ih => exact ih.child hc

end RegisterBackend
