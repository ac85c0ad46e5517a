import RegisterBackend.Proofs.CompileErrors
import RegisterBackend.Proofs.FoldedArrays
import RegisterBackend.Proofs.PipelineAgreement
import RegisterBackend.Proofs.PropagationMeaning

/-!
# What constant propagation adds to the errors of compiling

A program that can be compiled without constant propagation has a tree. The kinds of its evaluables
are scalar, so what propagation puts in their place are scalar constants, and the tree that it
leaves reads no more names, has as many labels and is no higher (`Command.Thins`). That tree can be
lowered, too (`Program.lower_of_keepsKinds`).

Propagation itself stops at operations on arrays. There are none in a tree, but it also goes into
the bodies of functions, for which no code is made. `Program.compile_optimizing_of_compile` says
that this is the only way in which a program that can be compiled is refused with constant
propagation.
-/

namespace RegisterBackend

/-! ## Trees with constants in the place of evaluables -/

/-- The second evaluable reads no other names and is no higher. -/
structure Expr.Thins (e e' : Expr) : Prop where
  names : e'.names ⊆ e.names
  height_le : e'.height ≤ e.height

namespace Expr.Thins

variable {a a' b b' : Expr}

theorem refl (e : Expr) : e.Thins e :=
  ⟨List.Subset.refl _, Nat.le_refl _⟩

theorem const (e : Expr) (v : Int64) : e.Thins (.const v) :=
  ⟨List.nil_subset _, e.height_pos⟩

/-- An operation is thinned by thinning its operands. -/
theorem arith (ha : a.Thins a') (hb : b.Thins b') (op : ArithOp) :
    (Expr.arith op a b).Thins (.arith op a' b') where
  names := List.append_subset.2
    ⟨List.subset_append_of_subset_left _ ha.names, List.subset_append_of_subset_right _ hb.names⟩
  height_le := Nat.add_le_add_right (max_le_max ha.height_le hb.height_le) 1

end Expr.Thins

/-- The second comparison reads no other names and is no higher. -/
structure Test.Thins (t t' : Test) : Prop where
  names : t'.names ⊆ t.names
  height_le : t'.height ≤ t.height

/-- A comparison is thinned by thinning its operands. -/
theorem Test.Thins.operands {a a' b b' : Expr} (ha : a.Thins a') (hb : b.Thins b') (op : CompareOp) :
    (Test.mk op a b).Thins ⟨op, a', b'⟩ where
  names := (ha.arith hb .add).names
  height_le := max_le_max ha.height_le hb.height_le

/-- The second command assigns the same names, has as many labels, is no higher and reads only names
that are bound if the first one does. -/
structure Command.Thins (c c' : Command) : Prop where
  assigned : c'.assigned = c.assigned
  labels : c'.labels = c.labels
  height_le : c'.height ≤ c.height
  readable : ∀ B, c.Readable B → c'.Readable B

namespace Command.Thins

variable {a a' b b' : Command} {t t' : Test}

theorem refl (c : Command) : c.Thins c :=
  ⟨rfl, rfl, Nat.le_refl _, fun _ h => h⟩

/-- Two commands are thinned one by one, as what is bound between them is the same. -/
theorem seq (ha : a.Thins a') (hb : b.Thins b') : (Command.seq a b).Thins (.seq a' b') where
  assigned := by simp only [Command.assigned, ha.assigned, hb.assigned]
  labels := by simp only [Command.labels, ha.labels, hb.labels]
  height_le := max_le_max ha.height_le hb.height_le
  readable B h := by
    obtain ⟨hfirst, hsecond⟩ := Command.readable_seq.1 h
    refine Command.readable_seq.2 ⟨ha.readable B hfirst, ?_⟩
    rw [Command.mayAssign_congr ha.assigned]
    exact hb.readable _ hsecond

/-- An assignment is thinned by thinning its value. -/
theorem assign {e e' : Expr} (h : e.Thins e') (x : String) :
    (Command.assign x e).Thins (.assign x e') where
  assigned := rfl
  labels := rfl
  height_le := Nat.add_le_add_right h.height_le 1
  readable _ hread := Command.readable_assign.2 fun y hy =>
    Command.readable_assign.1 hread y (h.names hy)

/-- A branch is thinned by thinning its condition and its blocks. -/
theorem ifElse (ht : t.Thins t') (ha : a.Thins a') (hb : b.Thins b') :
    (Command.ifElse t a b).Thins (.ifElse t' a' b') where
  assigned := by simp only [Command.assigned, ha.assigned, hb.assigned]
  labels := by simp only [Command.labels, ha.labels, hb.labels]
  height_le := Nat.add_le_add_right
    (max_le_max ht.height_le (max_le_max ha.height_le hb.height_le)) 1
  readable B h := by
    obtain ⟨htest, hfirst, hsecond⟩ := Command.readable_ifElse.1 h
    exact Command.readable_ifElse.2
      ⟨fun y hy => htest y (ht.names hy), ha.readable B hfirst, hb.readable B hsecond⟩

/-- A loop is thinned by thinning its condition and its body. -/
theorem whileLoop (ht : t.Thins t') (hb : b.Thins b') :
    (Command.whileLoop t b).Thins (.whileLoop t' b') where
  assigned := hb.assigned
  labels := by simp only [Command.labels, hb.labels]
  height_le := Nat.add_le_add_right (max_le_max ht.height_le hb.height_le) 1
  readable B h := by
    obtain ⟨htest, hbody⟩ := Command.readable_whileLoop.1 h
    exact Command.readable_whileLoop.2 ⟨fun y hy => htest y (ht.names hy), hb.readable B hbody⟩

end Command.Thins

namespace Graph

variable {g g' : Graph} {κ : String → Kind} {S T : NodeId → Prop} {id c c' n : NodeId} {node : Node}

/-- What has a tree is scalar. -/
theorem ExprAt.hasKind {e : Expr} (h : g.ExprAt S id e) (hvars : g.VarsFit κ id) :
    g.HasKind κ id .scalar := by
  induction h with
  | const node => exact .constant node
  | @var id v node kind =>
    have hscalar : v.kind = .scalar := by
      cases hk : v.kind with
      | scalar => rfl
      | array => exact absurd hk kind
    exact hscalar ▸ .var node (hvars id v .refl node)
  | arith node _ _ _ ihl ihr =>
    exact .arithmetic node (ihl (hvars.child node (by simp [Node.children])))
      (ihr (hvars.child node (by simp [Node.children])))

/-- A slot with an evaluable that has a tree still holds it, or a constant. -/
theorem Refits.exprAt {e : Expr} (h : Refits κ g g' c c') (he : g.ExprAt S c e)
    (hvars : g.VarsFit κ c) (hstays : ∃ e', g'.ExprAt T c e' ∧ e.Thins e') :
    ∃ e', g'.ExprAt T c' e' ∧ e.Thins e' := by
  rcases h with rfl | ⟨l, hl, hkind⟩
  · exact hstays
  · cases l with
    | scalar v => exact ⟨.const v, .const hl, .const e v⟩
    | array elements => cases hkind _ (he.hasKind hvars)

variable (hkeeps : KeepsKinds κ g g')

include hkeeps

/-- The tree of an evaluable after propagation is a thinner one. -/
theorem ExprAt.thins {e : Expr} (h : g.ExprAt S id e) (hvars : g.VarsFit κ id) :
    ∃ e', g'.ExprAt (fun _ => True) id e' ∧ e.Thins e' := by
  induction h with
  | const node => exact ⟨_, .const (hkeeps.leaf rfl node), .refl _⟩
  | var node kind => exact ⟨_, .var (hkeeps.leaf rfl node) kind, .refl _⟩
  | @arith id op lhs rhs a b node _ left right ihl ihr =>
    have hl := hvars.child node (c := lhs) (by simp [Node.children])
    have hr := hvars.child node (c := rhs) (by simp [Node.children])
    obtain ⟨lhs', rhs', node', hlhs, hrhs⟩ := hkeeps.substitutes.arithmetic node
    obtain ⟨a', left', ha⟩ := Refits.exprAt hlhs left hl (ihl hl)
    obtain ⟨b', right', hb⟩ := Refits.exprAt hrhs right hr (ihr hr)
    exact ⟨.arith op a' b', .arith node' trivial left' right', ha.arith hb op⟩

/-- The tree of a comparison after propagation is a thinner one. -/
theorem TestAt.thins {t : Test} (h : g.TestAt S id t) (hvars : g.VarsFit κ id) :
    ∃ t', g'.TestAt (fun _ => True) id t' ∧ t.Thins t' := by
  obtain ⟨-, lhs, rhs, node, left, right⟩ := h
  have hl := hvars.child node (c := lhs) (by simp [Node.children])
  have hr := hvars.child node (c := rhs) (by simp [Node.children])
  obtain ⟨lhs', rhs', node', hlhs, hrhs⟩ := hkeeps.substitutes.comparison node
  obtain ⟨a', left', ha⟩ := Refits.exprAt hlhs left hl (left.thins hkeeps hl)
  obtain ⟨b', right', hb⟩ := Refits.exprAt hrhs right hr (right.thins hkeeps hr)
  exact ⟨⟨t.op, a', b'⟩, ⟨trivial, lhs', rhs', node', left', right'⟩, .operands ha hb t.op⟩

/-- Constants in the place of evaluables leave a tree that reads no more names. -/
theorem BlockAt.thins {ids : List NodeId} {c : Command} (h : g.BlockAt S ids c)
    (hvars : ∀ id ∈ ids, g.VarsFit κ id) :
    ∃ c', g'.BlockAt (fun _ => True) ids c' ∧ c.Thins c' := by
  induction h with
  | nil => exact ⟨.skip, .nil, .refl _⟩
  | @assign id ids target value x e c node _ htarget hvalue _ ih =>
    obtain ⟨hid, hids⟩ := List.forall_mem_cons.1 hvars
    obtain ⟨c', hc', hc⟩ := ih hids
    have hv := hid.child node (c := value) (by simp [Node.children])
    obtain ⟨value', node', hfills⟩ := hkeeps.substitutes.assign node
    obtain ⟨e', he', he⟩ := Refits.exprAt hfills hvalue hv (hvalue.thins hkeeps hv)
    obtain ⟨v, hvar, hkind⟩ := target?_eq_some.1 htarget
    exact ⟨_, .assign node' trivial (target?_eq_some.2 ⟨v, hkeeps.leaf rfl hvar, hkind⟩) he' hc',
      (Command.Thins.assign he x).seq hc⟩
  | @ifElse id ids cond thenBlock elseBlock t a b c node _ htest _ _ _ iha ihb ih =>
    obtain ⟨hid, hids⟩ := List.forall_mem_cons.1 hvars
    have hchild : ∀ n ∈ cond :: (thenBlock ++ elseBlock), g.VarsFit κ n := fun n => hid.child node
    obtain ⟨c', hc', hc⟩ := ih hids
    obtain ⟨t', ht', ht⟩ := htest.thins hkeeps (hchild cond (by simp))
    obtain ⟨a', ha', ha⟩ := iha fun n hn => hchild n (by simp [hn])
    obtain ⟨b', hb', hb⟩ := ihb fun n hn => hchild n (by simp [hn])
    have node' := hkeeps.substitutes.fixed rfl node
    exact ⟨_, .ifElse node' trivial ht' ha' hb' hc', (Command.Thins.ifElse ht ha hb).seq hc⟩
  | @whileLoop id ids cond body t b c node _ htest _ _ ihb ih =>
    obtain ⟨hid, hids⟩ := List.forall_mem_cons.1 hvars
    have hchild : ∀ n ∈ cond :: body, g.VarsFit κ n := fun n => hid.child node
    obtain ⟨c', hc', hc⟩ := ih hids
    obtain ⟨t', ht', ht⟩ := htest.thins hkeeps (hchild cond (by simp))
    obtain ⟨b', hb', hb⟩ := ihb fun n hn => hchild n (by simp [hn])
    have node' := hkeeps.substitutes.fixed rfl node
    exact ⟨_, .whileLoop node' trivial ht' hb' hc', (Command.Thins.whileLoop ht hb).seq hc⟩
  | functionDef node _ _ ih =>
    obtain ⟨c', hc', hc⟩ := ih (List.forall_mem_cons.1 hvars).2
    have node' := hkeeps.substitutes.fixed rfl node
    exact ⟨_, .functionDef node' trivial hc', (Command.Thins.refl _).seq hc⟩
  | debug node _ ih =>
    obtain ⟨c', hc', hc⟩ := ih (List.forall_mem_cons.1 hvars).2
    exact ⟨_, .debug (hkeeps.leaf rfl node) hc', (Command.Thins.refl _).seq hc⟩

omit hkeeps

/-! ## Nodes of the code that runs -/

/-- The node is part of a tree: as an evaluable, as a comparison or as a statement. -/
inductive HasTree (g : Graph) (id : NodeId) : Prop
  | expr {e : Expr} (h : g.ExprAt (fun _ => True) id e)
  | test {t : Test} (h : g.TestAt (fun _ => True) id t)
  | statement {c : Command} (h : g.BlockAt (fun _ => True) [id] c)

/-- Each statement of a block that has a tree has one. -/
theorem BlockAt.hasTree {ids : List NodeId} {c : Command} (h : g.BlockAt (fun _ => True) ids c)
    (hid : id ∈ ids) : g.HasTree id := by
  induction h with
  | nil => cases hid
  | assign node mem target value _ ih =>
    rcases List.mem_cons.1 hid with rfl | hid
    · exact .statement (.assign node mem target value .nil)
    · exact ih hid
  | ifElse node mem test a b _ _ _ ih =>
    rcases List.mem_cons.1 hid with rfl | hid
    · exact .statement (.ifElse node mem test a b .nil)
    · exact ih hid
  | whileLoop node mem test b _ _ ih =>
    rcases List.mem_cons.1 hid with rfl | hid
    · exact .statement (.whileLoop node mem test b .nil)
    · exact ih hid
  | functionDef node mem _ ih =>
    rcases List.mem_cons.1 hid with rfl | hid
    · exact .statement (.functionDef node mem .nil)
    · exact ih hid
  | debug node _ ih =>
    rcases List.mem_cons.1 hid with rfl | hid
    · exact .statement (.debug node .nil)
    · exact ih hid

/-- What a node of a tree refers to is part of the tree, but for the bodies of functions. -/
theorem HasTree.child (h : g.HasTree id) (hnode : g.node? id = some node)
    (hdef : node.shape ≠ .functionDef) (hc : c ∈ node.children) : g.HasTree c := by
  cases h with
  | expr h =>
    cases h with
    | const node' | var node' =>
      cases hnode.symm.trans node'
      cases hc
    | arith node' _ left right =>
      cases hnode.symm.trans node'
      simp only [Node.children, List.mem_cons, List.not_mem_nil, or_false] at hc
      rcases hc with rfl | rfl
      · exact .expr left
      · exact .expr right
  | test h =>
    obtain ⟨-, lhs, rhs, node', left, right⟩ := h
    cases hnode.symm.trans node'
    simp only [Node.children, List.mem_cons, List.not_mem_nil, or_false] at hc
    rcases hc with rfl | rfl
    · exact .expr left
    · exact .expr right
  | statement h =>
    cases h with
    | assign node' _ target value =>
      cases hnode.symm.trans node'
      simp only [Node.children, List.mem_cons, List.not_mem_nil, or_false] at hc
      rcases hc with rfl | rfl
      · obtain ⟨v, hv, hkind, -⟩ := target?_eq_some.1 target
        exact .expr (.var hv hkind)
      · exact .expr value
    | ifElse node' _ test a b =>
      cases hnode.symm.trans node'
      simp only [Node.children, List.mem_cons, List.mem_append] at hc
      rcases hc with rfl | hc | hc
      · exact .test test
      · exact a.hasTree hc
      · exact b.hasTree hc
    | whileLoop node' _ test b =>
      cases hnode.symm.trans node'
      rcases List.mem_cons.1 hc with rfl | hc
      · exact .test test
      · exact b.hasTree hc
    | functionDef node' =>
      cases hnode.symm.trans node'
      exact absurd rfl hdef
    | debug node' =>
      cases hnode.symm.trans node'
      cases hc

/-- The nodes of code that has a tree are part of it. -/
theorem InCode.hasTree {roots : List NodeId} {c : Command} (h : g.InCode roots n)
    (hroots : g.BlockAt (fun _ => True) roots c) : g.HasTree n := by
  induction h with
  | root hid => exact hroots.hasTree hid
  | child _ hnode hdef hchild ih => exact ih.child hnode hdef hchild

/-- An operation in a tree is scalar. -/
theorem HasTree.hasKind_of_arithmetic (h : g.HasTree id) {op : ArithOp} {lhs rhs : NodeId}
    (hnode : g.node? id = some (.arithmetic op lhs rhs)) (hvars : g.VarsFit κ id) :
    g.HasKind κ id .scalar := by
  cases h with
  | expr h => exact h.hasKind hvars
  | test h =>
    obtain ⟨-, _, _, node', -⟩ := h
    cases hnode.symm.trans node'
  | statement h =>
    cases h with
    | assign node' | ifElse node' | whileLoop node' | functionDef node' | debug node' =>
      cases hnode.symm.trans node'

/-- An operation on array constants is not scalar. -/
theorem FoldsArrays.not_hasKind {op : ArithOp} (h : g.FoldsArrays id op) :
    ¬ g.HasKind κ id .scalar := by
  obtain ⟨lhs, rhs, left, right, hnode, hleft, -⟩ := h
  intro hkind
  generalize hscalar : Kind.scalar = k at hkind
  cases hkind with
  | arithmetic hnode' hlhs =>
    cases hnode.symm.trans hnode'
    cases hscalar.trans (hlhs.unique (.constant hleft))
  | constant hnode' | var hnode' | call hnode' => cases hnode.symm.trans hnode'

end Graph

/-! ## Programs -/

namespace Program

variable {p : Program} {κ : String → Kind}

/-- A program that can be lowered still can with constants in the place of evaluables. -/
theorem lower_of_keepsKinds (hvars : ∀ id ∈ p.body, p.graph.VarsFit κ id) {g : Graph}
    (hkeeps : Graph.KeepsKinds κ p.graph g) {code : Bytecode} (hlower : p.lower = .ok code) :
    ∃ code', ({ p with graph := g } : Program).lower = .ok code' := by
  obtain ⟨c, hc, hrun, hcode, hlabels⟩ := lower_eq_ok hlower
  have htree := Graph.BlockAt.of_program hc
  obtain ⟨c', htree', hthins⟩ := htree.thins hkeeps hvars
  have hc' := command?_of_blockAt hc htree' hthins.height_le hkeeps.substitutes.size_le
  have hreadable :=
    (Command.exists_lower_iff Scope.wf_empty .empty Emitter.binds_empty).1 ⟨_, hrun⟩
  obtain ⟨e', hrun'⟩ :=
    (Command.exists_lower_iff Scope.wf_empty .empty Emitter.binds_empty).2
      (hthins.readable _ hreadable)
  have hlabels' : e'.finish.checkLabels = .ok () := by
    rw [Command.checkLabels_finish_iff hrun', Command.lower_labels hrun', hthins.labels,
      ← Command.lower_labels hrun, ← Command.checkLabels_finish_iff hrun, ← hcode]
    exact hlabels
  exact ⟨e'.finish, by simp [lower, lowerBody_eq hc', hrun', hlabels']⟩

/-- A program that passes the check and is compiled without constant propagation is compiled with
it, too, if its variables of one name have one kind. The one exception is an operation of the
program that is not in the code that runs, so in the body of a function, and that has come to have
array constants as operands: constant propagation stops there. Where the program is compiled, no
operation has come to have such operands, so with one of them in the graph that is left it is
refused. -/
theorem compile_optimizing_of_compile (hbuilt : p.graph.Built) (hcheck : p.check = .ok ())
    (hkinds : p.KindsAgree) (hplain : ∃ compiled q, p.compile false = .ok compiled q) :
    (∃ compiled q, p.compile true = .ok compiled q ∧
        ∀ n op, p.Reachable n → ¬ q.graph.FoldsArrays n op) ∨
      ∃ n op lhs rhs q, p.compile true = .error (.error (.unsupported n (.arrayArithmetic op))) q ∧
        p.Reachable n ∧ p.graph.node? n = some (.arithmetic op lhs rhs) ∧
        ¬ p.graph.InCode p.body n ∧ q.graph.FoldsArrays n op := by
  obtain ⟨κ, hvars⟩ := hkinds.exists_varsFit
  obtain ⟨compiled, q, hplain⟩ := hplain
  obtain ⟨-, hlower⟩ := compileAfter_eq_ok hplain
  have hpropagate := propagate_keeps hbuilt.linked (inOrder_of_check hcheck hvars)
  simp only [compile, optimize, if_true]
  cases hrun : p.propagate with
  | ok u s =>
    obtain ⟨code, hcode⟩ := lower_of_keepsKinds hvars (hpropagate.ok hrun) hlower
    refine .inl ⟨⟨code, some s.stats⟩, { p with graph := s.graph }, ?_,
      fun n op hn => not_foldsArrays_of_propagate hbuilt hcheck hrun hn op⟩
    simp only [compileAfter, hcode]
  | error e s =>
    obtain ⟨hlimit, hkeeps⟩ := hpropagate.error hrun
    obtain ⟨id, hid, hstop⟩ := propagate_stopsFor hrun
    cases hstop with
    | disorder he => cases he <;> cases hlimit
    | @arrays n lhs rhs op hn hnode hfolds =>
      refine .inr ⟨n, op, lhs, rhs, _, rfl, ⟨id, hid, hn⟩, hnode, fun hin => ?_, hfolds⟩
      -- in the code that runs, the operation would be scalar, and would be so still
      obtain ⟨c, hc, -⟩ := lower_eq_ok hlower
      have htree := Graph.BlockAt.of_program hc
      have hscalar := (hin.hasTree htree).hasKind_of_arithmetic hnode
        fun m v hm => hvars id hid m v (hn.trans hm)
      exact hfolds.not_hasKind (hkeeps.hasKind hscalar)

/-- A program with an operation on arrays in a function, one operand of which is not known:
`x = 1; def f(a) (b = a + [2]); y = x + 2; while y > x do y = y - x`. -/
def unknownArray : Program :=
  ⟨.ofNodes [.constant (.scalar 1), .var (.scalar "x"), .assign ⟨1⟩ ⟨0⟩,
    .constant (.array [2]), .var (.array "a" 1), .arithmetic .add ⟨4⟩ ⟨3⟩, .var (.array "b" 1),
    .assign ⟨6⟩ ⟨5⟩, .functionDef "f" [⟨4⟩] [⟨7⟩] .scalar,
    .constant (.scalar 2), .var (.scalar "y"), .arithmetic .add ⟨1⟩ ⟨9⟩, .assign ⟨10⟩ ⟨11⟩,
    .comparison .greater ⟨10⟩ ⟨1⟩, .arithmetic .sub ⟨10⟩ ⟨1⟩, .assign ⟨10⟩ ⟨14⟩,
    .whileLoop ⟨13⟩ [⟨15⟩]],
  [⟨2⟩, ⟨8⟩, ⟨12⟩, ⟨16⟩]⟩

/-- The operation with the unknown operand is left alone, and the program compiles with
propagation. -/
theorem compile_optimizing_of_compile_unknownArray : unknownArray.graph.Built ∧
    unknownArray.check = .ok () ∧ unknownArray.KindsAgree ∧
    (∃ compiled q, unknownArray.compile false = .ok compiled q) ∧
    ∃ compiled q, unknownArray.compile true = .ok compiled q ∧
      ∀ n op, unknownArray.Reachable n → ¬ q.graph.FoldsArrays n op := by
  have hbuilt : unknownArray.graph.Built := by
    dsimp only [unknownArray]
    exact Graph.built_ofNodes _
  have hcheck : unknownArray.check = .ok () := by decide +kernel
  have hkinds : unknownArray.KindsAgree := kindsAgree_of_vars (by decide +kernel)
  have hplain : ∃ compiled q, unknownArray.compile false = .ok compiled q := by decide +kernel
  have hoptimized : ∃ compiled q, unknownArray.compile true = .ok compiled q := by decide +kernel
  refine ⟨hbuilt, hcheck, hkinds, hplain, ?_⟩
  refine (compile_optimizing_of_compile hbuilt hcheck hkinds hplain).resolve_right ?_
  rintro ⟨n, op, lhs, rhs, q, herror, -⟩
  obtain ⟨compiled, q', hok⟩ := hoptimized
  cases hok.symm.trans herror

/-- A program with an operation on array constants in a function that is not called:
`def f() (a = [1] + [1])`. -/
def arraySum : Program :=
  ⟨.ofNodes [.constant (.array [1]), .constant (.array [1]), .arithmetic .add ⟨0⟩ ⟨1⟩,
    .var (.array "a" 1), .assign ⟨3⟩ ⟨2⟩, .functionDef "f" [] [⟨4⟩] .scalar],
  [⟨5⟩]⟩

/-- The program is compiled without constant propagation and refused with it. -/
theorem arraySum_refused : arraySum.graph.Built ∧ arraySum.check = .ok () ∧ arraySum.KindsAgree ∧
    (∃ compiled q, arraySum.compile false = .ok compiled q) ∧
    ∃ q, arraySum.compile true = .error (.error (.unsupported ⟨2⟩ (.arrayArithmetic .add))) q := by
  have hplain : ∃ compiled q, arraySum.compile false = .ok compiled q := by decide +kernel
  have hoptimized : ∃ e q, arraySum.compile true = .error e q ∧
      e = .error (.unsupported ⟨2⟩ (.arrayArithmetic .add)) := by decide +kernel
  obtain ⟨e, q, herror, rfl⟩ := hoptimized
  refine ⟨?_, by decide +kernel, kindsAgree_of_vars (by decide +kernel), hplain, q, herror⟩
  dsimp only [arraySum]
  exact Graph.built_ofNodes _

end Program

end RegisterBackend
