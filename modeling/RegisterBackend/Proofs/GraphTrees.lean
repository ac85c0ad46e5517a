import RegisterBackend.Proofs.Command
import RegisterBackend.Proofs.Rewriting
import RegisterBackend.Propagation.Assigned

/-!
# The trees of a graph

`Graph.ExprAt`, `Graph.TestAt` and `Graph.BlockAt` say that a node, or a list of statements, has a
given tree. They are what the functions `Graph.expr?`, `Graph.test?` and `Graph.command?` compute,
without the bound on the length of paths; a list of nodes has one tree at most (`BlockAt.unique`).

The relations also name a set which has all nodes of the tree that are no leaves. A graph in which
these nodes and the leaves are the same has the same tree there (`BlockAt.congr`).
-/

namespace RegisterBackend

namespace Graph

variable {g g' : Graph} {S T : NodeId → Prop} {id : NodeId} {ids : List NodeId}

/-- The nodes of a set and the leaves are the same in the other graph. -/
def Keeps (S : NodeId → Prop) (g g' : Graph) : Prop :=
  ∀ n node, S n ∨ node.isLeaf = true → g.node? n = some node → g'.node? n = some node

/-! ## Trees -/

/-- The tree of an evaluable. -/
inductive ExprAt (g : Graph) (S : NodeId → Prop) : NodeId → Expr → Prop
  | const {id v} (node : g.node? id = some (.constant (.scalar v))) : ExprAt g S id (.const v)
  | var {id v} (node : g.node? id = some (.var v)) (kind : v.kind ≠ .array) :
    ExprAt g S id (.var v.name)
  | arith {id op lhs rhs a b} (node : g.node? id = some (.arithmetic op lhs rhs)) (mem : S id)
    (left : ExprAt g S lhs a) (right : ExprAt g S rhs b) : ExprAt g S id (.arith op a b)

/-- The tree of a comparison. -/
structure TestAt (g : Graph) (S : NodeId → Prop) (id : NodeId) (t : Test) : Prop where
  mem : S id
  operands : ∃ lhs rhs, g.node? id = some (.comparison t.op lhs rhs) ∧ g.ExprAt S lhs t.lhs ∧
    g.ExprAt S rhs t.rhs

/-- The tree of a list of statements. -/
inductive BlockAt (g : Graph) (S : NodeId → Prop) : List NodeId → Command → Prop
  | nil : BlockAt g S [] .skip
  | assign {id ids target value x e c} (node : g.node? id = some (.assign target value)) (mem : S id)
    (target : g.target? target = some x) (value : g.ExprAt S value e) (rest : BlockAt g S ids c) :
    BlockAt g S (id :: ids) (.seq (.assign x e) c)
  | ifElse {id ids cond thenBlock elseBlock t a b c}
    (node : g.node? id = some (.ifElse cond thenBlock elseBlock)) (mem : S id)
    (test : g.TestAt S cond t) (thenBranch : BlockAt g S thenBlock a)
    (elseBranch : BlockAt g S elseBlock b) (rest : BlockAt g S ids c) :
    BlockAt g S (id :: ids) (.seq (.ifElse t a b) c)
  | whileLoop {id ids cond body t b c} (node : g.node? id = some (.whileLoop cond body)) (mem : S id)
    (test : g.TestAt S cond t) (round : BlockAt g S body b) (rest : BlockAt g S ids c) :
    BlockAt g S (id :: ids) (.seq (.whileLoop t b) c)
  | functionDef {id ids name params body returns c}
    (node : g.node? id = some (.functionDef name params body returns)) (mem : S id)
    (rest : BlockAt g S ids c) : BlockAt g S (id :: ids) (.seq .skip c)
  | debug {id ids text c} (node : g.node? id = some (.debug text)) (rest : BlockAt g S ids c) :
    BlockAt g S (id :: ids) (.seq (.print text) c)

/-- The tree of a statement followed by others. -/
theorem BlockAt.cons {c₁ c : Command} (h : g.BlockAt S [id] (.seq c₁ .skip)) (hc : g.BlockAt S ids c) :
    g.BlockAt S (id :: ids) (.seq c₁ c) := by
  cases h with
  | assign node mem target value => exact .assign node mem target value hc
  | ifElse node mem test thenBranch elseBranch => exact .ifElse node mem test thenBranch elseBranch hc
  | whileLoop node mem test round => exact .whileLoop node mem test round hc
  | functionDef node mem => exact .functionDef node mem hc
  | debug node => exact .debug node hc

/-! ## Same nodes, same trees -/

/-- The tree of an evaluable is the same in a graph that keeps the nodes it consists of. -/
theorem ExprAt.congr {e : Expr} (h : g.ExprAt S id e) (hg : Keeps S g g') : g'.ExprAt S id e := by
  induction h with
  | const node => exact .const (hg _ _ (.inr rfl) node)
  | var node kind => exact .var (hg _ _ (.inr rfl) node) kind
  | arith node mem _ _ ihl ihr => exact .arith (hg _ _ (.inl mem) node) mem ihl ihr

theorem TestAt.congr {t : Test} (h : g.TestAt S id t) (hg : Keeps S g g') : g'.TestAt S id t := by
  obtain ⟨mem, lhs, rhs, node, hl, hr⟩ := h
  exact ⟨mem, lhs, rhs, hg _ _ (.inl mem) node, hl.congr hg, hr.congr hg⟩

/-- A target is a variable that holds a number, and gives its name. -/
theorem target?_eq_some {x : String} :
    g.target? id = some x ↔ ∃ v, g.node? id = some (.var v) ∧ v.kind ≠ .array ∧ v.name = x := by
  unfold target?
  split
  next v hv => simp [hv]
  next hv =>
    constructor
    · nofun
    · rintro ⟨v, hv', -⟩
      exact absurd hv' (hv v)

/-- Variables are leaves, so a target is the same in a graph that keeps leaves. -/
theorem target?_congr {x : String} (h : g.target? id = some x) (hg : Keeps S g g') :
    g'.target? id = some x := by
  obtain ⟨v, hv, hkind⟩ := target?_eq_some.1 h
  exact target?_eq_some.2 ⟨v, hg _ _ (.inr rfl) hv, hkind⟩

/-- The tree of a block is the same in a graph that keeps the nodes it consists of. -/
theorem BlockAt.congr {c : Command} (h : g.BlockAt S ids c) (hg : Keeps S g g') :
    g'.BlockAt S ids c := by
  induction h with
  | nil => exact .nil
  | assign node mem target value _ ih =>
    exact .assign (hg _ _ (.inl mem) node) mem (target?_congr target hg) (value.congr hg) ih
  | ifElse node mem test _ _ _ iha ihb ih =>
    exact .ifElse (hg _ _ (.inl mem) node) mem (test.congr hg) iha ihb ih
  | whileLoop node mem test _ _ ihb ih =>
    exact .whileLoop (hg _ _ (.inl mem) node) mem (test.congr hg) ihb ih
  | functionDef node mem _ ih => exact .functionDef (hg _ _ (.inl mem) node) mem ih
  | debug node _ ih => exact .debug (hg _ _ (.inr rfl) node) ih

/-- A tree within a set of nodes is within every larger set. -/
theorem ExprAt.mono {e : Expr} (h : g.ExprAt S id e) (hST : ∀ n, S n → T n) : g.ExprAt T id e := by
  induction h with
  | const node => exact .const node
  | var node kind => exact .var node kind
  | arith node mem _ _ ihl ihr => exact .arith node (hST _ mem) ihl ihr

theorem TestAt.mono {t : Test} (h : g.TestAt S id t) (hST : ∀ n, S n → T n) : g.TestAt T id t := by
  obtain ⟨mem, lhs, rhs, node, hl, hr⟩ := h
  exact ⟨hST _ mem, lhs, rhs, node, hl.mono hST, hr.mono hST⟩

/-- The tree of a block within a set of nodes is within every larger set. -/
theorem BlockAt.mono {c : Command} (h : g.BlockAt S ids c) (hST : ∀ n, S n → T n) :
    g.BlockAt T ids c := by
  induction h with
  | nil => exact .nil
  | assign node mem target value _ ih => exact .assign node (hST _ mem) target (value.mono hST) ih
  | ifElse node mem test _ _ _ iha ihb ih =>
    exact .ifElse node (hST _ mem) (test.mono hST) iha ihb ih
  | whileLoop node mem test _ _ ihb ih => exact .whileLoop node (hST _ mem) (test.mono hST) ihb ih
  | functionDef node mem _ ih => exact .functionDef node (hST _ mem) ih
  | debug node _ ih => exact .debug node ih

/-! ## One tree at most -/

/-- An evaluable has one tree, whatever sets of nodes it is looked for in. -/
theorem ExprAt.unique {e e' : Expr} (h : g.ExprAt S id e) (h' : g.ExprAt T id e') : e' = e := by
  induction h generalizing e' with
  | const node =>
    cases h' with
    | const node' => cases node.symm.trans node'; rfl
    | var node' | arith node' => cases node.symm.trans node'
  | var node _ =>
    cases h' with
    | var node' => cases node.symm.trans node'; rfl
    | const node' | arith node' => cases node.symm.trans node'
  | arith node _ _ _ ihl ihr =>
    cases h' with
    | arith node' _ hl hr =>
      cases node.symm.trans node'
      rw [ihl hl, ihr hr]
    | const node' | var node' => cases node.symm.trans node'

/-- A comparison has one tree. -/
theorem TestAt.unique {t t' : Test} (h : g.TestAt S id t) (h' : g.TestAt T id t') : t' = t := by
  obtain ⟨op, l, r⟩ := t
  obtain ⟨op', l', r'⟩ := t'
  obtain ⟨-, _, _, node, hl, hr⟩ := h
  obtain ⟨-, _, _, node', hl', hr'⟩ := h'
  cases node.symm.trans node'
  obtain rfl : l' = l := hl.unique hl'
  obtain rfl : r' = r := hr.unique hr'
  rfl

/-- A block has one tree, whatever sets of nodes it is looked for in. -/
theorem BlockAt.unique {c c' : Command} (h : g.BlockAt S ids c) (h' : g.BlockAt T ids c') :
    c' = c := by
  induction h generalizing c' with
  | nil =>
    cases h'
    rfl
  | assign node _ target value _ ih =>
    cases h' with
    | assign node' _ target' value' rest' =>
      cases node.symm.trans node'
      cases target.symm.trans target'
      rw [value.unique value', ih rest']
    | ifElse node' | whileLoop node' | functionDef node' | debug node' =>
      cases node.symm.trans node'
  | ifElse node _ test _ _ _ iha ihb ih =>
    cases h' with
    | ifElse node' _ test' a' b' rest' =>
      cases node.symm.trans node'
      rw [test.unique test', iha a', ihb b', ih rest']
    | assign node' | whileLoop node' | functionDef node' | debug node' =>
      cases node.symm.trans node'
  | whileLoop node _ test _ _ ihb ih =>
    cases h' with
    | whileLoop node' _ test' b' rest' =>
      cases node.symm.trans node'
      rw [test.unique test', ihb b', ih rest']
    | assign node' | ifElse node' | functionDef node' | debug node' => cases node.symm.trans node'
  | functionDef node _ _ ih =>
    cases h' with
    | functionDef _ _ rest' => rw [ih rest']
    | assign node' | ifElse node' | whileLoop node' | debug node' => cases node.symm.trans node'
  | debug node _ ih =>
    cases h' with
    | debug node' rest' =>
      cases node.symm.trans node'
      rw [ih rest']
    | assign node' | ifElse node' | whileLoop node' | functionDef node' =>
      cases node.symm.trans node'

/-! ## The trees that are read -/

/-- The tree that is computed for an evaluable is its tree. -/
theorem exprAt_of_expr? {depth : Nat} {e : Expr} (h : g.expr? depth id = some e) :
    g.ExprAt (fun _ => True) id e := by
  induction depth generalizing id e with
  | zero => cases h
  | succ depth ih =>
    rw [expr?] at h
    split at h
    next node =>
      cases h
      exact .const node
    next node =>
      split at h
      next => cases h
      next hkind =>
        cases h
        exact .var node hkind
    next node =>
      split at h
      next hl hr =>
        cases h
        exact .arith node trivial (ih hl) (ih hr)
      next => cases h
    next => cases h

/-- The tree that is computed for a comparison is its tree. -/
theorem testAt_of_test? {depth : Nat} {t : Test} (h : g.test? depth id = some t) :
    g.TestAt (fun _ => True) id t := by
  unfold test? at h
  split at h
  next node =>
    split at h
    next hl hr =>
      cases h
      exact ⟨trivial, _, _, node, exprAt_of_expr? hl, exprAt_of_expr? hr⟩
    next => cases h
  next => cases h

/-- The tree of a block is put together from those of its statements. -/
theorem blockAt_of_block? {read : NodeId → Option Command}
    (hread : ∀ id c, read id = some c → g.BlockAt S [id] (.seq c .skip)) {c : Command}
    (h : block? read ids = some c) : g.BlockAt S ids c := by
  induction ids generalizing c with
  | nil =>
    cases h
    exact .nil
  | cons id ids ih =>
    simp only [block?] at h
    split at h
    next hfirst hrest =>
      cases h
      exact (hread _ _ hfirst).cons (ih hrest)
    next => cases h

/-- What is read from a graph is its tree. -/
theorem blockAt_of_command? {depth : Nat} {c : Command} (h : g.command? depth id = some c) :
    g.BlockAt (fun _ => True) [id] (.seq c .skip) := by
  induction depth generalizing id c with
  | zero => cases h
  | succ depth ih =>
    rw [command?] at h
    split at h
    next node =>
      split at h
      next htarget hvalue =>
        cases h
        exact .assign node trivial htarget (exprAt_of_expr? hvalue) .nil
      next => cases h
    next node =>
      split at h
      next htest hthen helse =>
        cases h
        exact .ifElse node trivial (testAt_of_test? htest) (blockAt_of_block? (fun _ _ => ih) hthen)
          (blockAt_of_block? (fun _ _ => ih) helse) .nil
      next => cases h
    next node =>
      split at h
      next htest hbody =>
        cases h
        exact .whileLoop node trivial (testAt_of_test? htest)
          (blockAt_of_block? (fun _ _ => ih) hbody) .nil
      next => cases h
    next node =>
      cases h
      exact .functionDef node trivial .nil
    next node =>
      cases h
      exact .debug node .nil
    next => cases h

/-- What is read from a program is the tree of its body. -/
theorem BlockAt.of_program {p : Program} {c : Command} (h : p.command? = some c) :
    p.graph.BlockAt (fun _ => True) p.body c :=
  blockAt_of_block? (fun _ _ => blockAt_of_command?) h

/-! ## Assigned names -/

variable {functions : NameMap NameSet}

/-- A target takes no names out. -/
theorem mem_addTarget_of_mem {names names' : NameSet} {x : String}
    (h : g.addTarget id names = .ok names') (hx : x ∈ names) : x ∈ names' := by
  obtain ⟨node, -, h⟩ := bind_eq_ok.1 h
  cases node with
  | var v =>
    cases h
    exact Std.TreeSet.mem_insert.2 (.inr hx)
  | _ =>
    cases h
    exact hx

/-- The name of a target is among the names that are assigned. -/
theorem mem_addTarget {names names' : NameSet} {x : String}
    (h : g.addTarget id names = .ok names') (hx : g.target? id = some x) : x ∈ names' := by
  obtain ⟨node, hnode, h⟩ := bind_eq_ok.1 h
  obtain ⟨v, hv, -, rfl⟩ := target?_eq_some.1 hx
  cases (node_eq_ok.1 hnode).symm.trans hv
  cases h
  exact Std.TreeSet.mem_insert_self

/-- Collecting the names that a node may assign loses none. -/
theorem mem_addAssigned_of_mem {depth : Nat} {names names' : NameSet} {x : String}
    (h : g.addAssigned functions depth id names = .ok names') (hx : x ∈ names) : x ∈ names' := by
  induction depth generalizing id names names' with
  | zero => cases h
  | succ depth ih =>
    have hall : ∀ {ids : List NodeId} {names names' : NameSet}, x ∈ names →
        ids.foldlM (fun names id => g.addAssigned functions depth id names) names = .ok names' →
          x ∈ names' :=
      foldlM_eq_ok (P := (x ∈ ·)) fun hx h => ih h hx
    rw [addAssigned] at h
    obtain ⟨node, -, h⟩ := bind_eq_ok.1 h
    cases node with
    | assign target value | updateElement target index value =>
      obtain ⟨names₁, htarget, h⟩ := bind_eq_ok.1 h
      exact hall (mem_addTarget_of_mem htarget hx) h
    | ifElse | whileLoop | arithmetic | comparison => exact hall hx h
    | call name args returns =>
      obtain ⟨names₁, hargs, h⟩ := bind_eq_ok.1 h
      have hx₁ := hall hx hargs
      split at h
      · cases h
        exact Std.TreeSet.mem_insertMany_list.2 (.inl hx₁)
      · cases h
        exact hx₁
    | functionDef | constant | var | debug =>
      cases h
      exact hx

/-- Going through statements takes no names out. -/
theorem mem_foldlM_addAssigned_of_mem {depth : Nat} {names names' : NameSet} {x : String}
    (h : ids.foldlM (fun names id => g.addAssigned functions depth id names) names = .ok names')
    (hx : x ∈ names) : x ∈ names' :=
  foldlM_eq_ok (P := (x ∈ ·)) (fun hx h => mem_addAssigned_of_mem h hx) hx h

/-- For an assignment, the target is added first and then what the value assigns by calls. -/
theorem addAssigned_assign_eq_ok {depth : Nat} {names names' : NameSet} {target value : NodeId}
    (h : g.addAssigned functions depth id names = .ok names')
    (hnode : g.node? id = some (.assign target value)) :
    ∃ depth' names₁, g.addTarget target names = .ok names₁ ∧
      [value].foldlM (fun names id => g.addAssigned functions depth' id names) names₁ =
        .ok names' := by
  cases depth with
  | zero => cases h
  | succ depth =>
    rw [addAssigned] at h
    obtain ⟨node', hnode', h⟩ := bind_eq_ok.1 h
    cases (node_eq_ok.1 hnode').symm.trans hnode
    exact ⟨depth, bind_eq_ok.1 h⟩

/-- The names that a branch or a loop may assign are collected from all of its parts. -/
theorem addAssigned_children_eq_ok {depth : Nat} {names names' : NameSet} {node : Node}
    (h : g.addAssigned functions depth id names = .ok names') (hnode : g.node? id = some node)
    (hshape : node.shape = .ifElse ∨ node.shape = .whileLoop) :
    ∃ depth', node.children.foldlM (fun names id => g.addAssigned functions depth' id names) names =
      .ok names' := by
  cases depth with
  | zero => cases h
  | succ depth =>
    rw [addAssigned] at h
    obtain ⟨node', hnode', h⟩ := bind_eq_ok.1 h
    cases (node_eq_ok.1 hnode').symm.trans hnode
    cases node with
    | ifElse | whileLoop => exact ⟨depth, h⟩
    | _ => rcases hshape with h | h <;> cases h

/-- The names that a block may assign include those that its tree assigns. -/
theorem BlockAt.mem_of_assigned {c : Command} (h : g.BlockAt S ids c) {depth : Nat}
    {names names' : NameSet} {x : String} (hx : x ∈ c.assigned)
    (hfold : ids.foldlM (fun names id => g.addAssigned functions depth id names) names = .ok names') :
    x ∈ names' := by
  induction h generalizing depth names names' with
  | nil => cases hx
  | assign node _ target _ _ ih =>
    rw [List.foldlM_cons] at hfold
    obtain ⟨names₁, hfirst, hrest⟩ := bind_eq_ok.1 hfold
    rcases List.mem_append.1 hx with hx | hx
    · cases List.mem_singleton.1 hx
      obtain ⟨depth', names₂, htarget, hvalue⟩ := addAssigned_assign_eq_ok hfirst node
      have hx₂ := mem_addTarget htarget target
      exact mem_foldlM_addAssigned_of_mem hrest (mem_foldlM_addAssigned_of_mem hvalue hx₂)
    · exact ih hx hrest
  | ifElse node _ _ _ _ _ iha ihb ih =>
    rw [List.foldlM_cons] at hfold
    obtain ⟨names₁, hfirst, hrest⟩ := bind_eq_ok.1 hfold
    rcases List.mem_append.1 hx with hx | hx
    · refine mem_foldlM_addAssigned_of_mem hrest ?_
      obtain ⟨depth', hparts⟩ := addAssigned_children_eq_ok hfirst node (.inl rfl)
      simp only [Node.children, List.foldlM_cons, List.foldlM_append] at hparts
      obtain ⟨names₂, -, hparts⟩ := bind_eq_ok.1 hparts
      obtain ⟨names₃, hthen, helse⟩ := bind_eq_ok.1 hparts
      rcases List.mem_append.1 hx with hx | hx
      · exact mem_foldlM_addAssigned_of_mem helse (iha hx hthen)
      · exact ihb hx helse
    · exact ih hx hrest
  | whileLoop node _ _ _ _ ihb ih =>
    rw [List.foldlM_cons] at hfold
    obtain ⟨names₁, hfirst, hrest⟩ := bind_eq_ok.1 hfold
    rcases List.mem_append.1 hx with hx | hx
    · refine mem_foldlM_addAssigned_of_mem hrest ?_
      obtain ⟨depth', hparts⟩ := addAssigned_children_eq_ok hfirst node (.inr rfl)
      simp only [Node.children, List.foldlM_cons] at hparts
      obtain ⟨names₂, -, hbody⟩ := bind_eq_ok.1 hparts
      exact ihb hx hbody
    · exact ih hx hrest
  | functionDef _ _ _ ih | debug _ _ ih =>
    rw [List.foldlM_cons] at hfold
    obtain ⟨names₁, -, hrest⟩ := bind_eq_ok.1 hfold
    exact ih hx hrest

/-- The names that two blocks may assign include those that their trees assign. -/
theorem BlockAt.mem_assignedIn_append {a b : Command} (ha : g.BlockAt S ids a)
    {ids' : List NodeId} (hb : g.BlockAt T ids' b) {depth : Nat} {names : NameSet} {x : String}
    (h : g.assignedIn functions depth (ids ++ ids') = .ok names) (hx : x ∈ a.assigned ++ b.assigned) :
    x ∈ names := by
  rw [assignedIn, List.foldlM_append] at h
  obtain ⟨names₁, hids, hids'⟩ := bind_eq_ok.1 h
  rcases List.mem_append.1 hx with hx | hx
  · exact mem_foldlM_addAssigned_of_mem hids' (ha.mem_of_assigned hx hids)
  · exact hb.mem_of_assigned hx hids'

end Graph

end RegisterBackend
