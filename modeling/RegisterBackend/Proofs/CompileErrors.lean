import Mathlib.Algebra.GroupWithZero.Nat
import RegisterBackend.Compile
import RegisterBackend.Proofs.Lowerable
import RegisterBackend.Proofs.PropagationKinds

/-!
# Why a checked program cannot be compiled

A program that passes the check, and whose variables of one name have one kind, is compiled, or it
meets a limitation of the compiler: an array, a call, or a name that is not bound where it is read
(`Program.compile_of_check`). The roles and kinds of the nodes never come up again, and neither do
dangling references, cycles or inconsistent labels.

The labels are consistent as long as their numbers do not overflow. `Program.labelCount` counts the
labels that the branches and loops of a program need, which constant propagation does not change.
-/

namespace RegisterBackend

open RegisterBackend.Graph (HasKind KeepsKinds Compares InOrder)

/-! ## Lowering -/

namespace LowerM

variable {α β : Type}

/-- The steps fail only at a limitation of the compiler. -/
def Limited (m : LowerM α) : Prop :=
  ∀ e, Meets (fun err _ => Limitation err) m e fun _ _ => True

namespace Limited

theorem pure (a : α) : Limited (pure a) :=
  fun _ => .of_run_eq_ok rfl trivial

theorem bind {m : LowerM α} {f : α → LowerM β} (h : Limited m) (hf : ∀ a, Limited (f a)) :
    Limited (m >>= f) :=
  fun e => (h e).bind fun a t _ => hf a t

theorem get : Limited get :=
  fun _ => .of_run_eq_ok rfl trivial

theorem modify (f : Emitter → Emitter) : Limited (modify f) :=
  fun _ => .of_run_eq_ok rfl trivial

theorem modifyGet (f : Emitter → α × Emitter) : Limited (modifyGet f) :=
  fun _ => .of_run_eq_ok rfl trivial

theorem discard_closeBlock (entry : Bindings) (homes : NameMap Register) :
    Limited (discard (closeBlock entry homes)) :=
  fun _ => .of_run_eq_ok rfl trivial

theorem reject {e : CompileError} (h : Limitation (.error e)) : Limited (reject e : LowerM α) :=
  fun _ => .throw h

theorem forM {f : α → LowerM Unit} {l : List α} (hf : ∀ a ∈ l, Limited (f a)) : Limited (l.forM f) :=
  fun _ => .forM (I := fun _ => True) (fun a ha e _ => hf a ha e) trivial

end Limited

end LowerM

namespace Graph

open LowerM

variable {g g' : Graph} {κ : String → Kind} {id : NodeId} {k : Kind} {d : Nat}

/-- An evaluable of a kind is lowered unless a limitation of the compiler is met. -/
theorem lowerExpr_limited (hwithin : g.Within d id) (hid : g.HasKind κ id k) :
    Limited (g.lowerExpr d id) := by
  induction d generalizing id k with
  | zero => cases hwithin
  | succ d ih =>
    rw [lowerExpr]
    cases hid with
    | @constant _ l hnode =>
      rw [nodeAt_eq hnode, pure_bind]
      cases l with
      | scalar value => exact .modifyGet _
      | array elements => exact .reject (.unsupported _ _)
    | @var _ v hnode =>
      rw [nodeAt_eq hnode, pure_bind]
      dsimp only
      split
      · exact .reject (.unsupported _ _)
      · refine .bind .get fun e => ?_
        split
        · exact .pure _
        · exact .reject (.unresolvedSymbol _)
    | @arithmetic _ lhs rhs op _ hnode hleft hright =>
      rw [nodeAt_eq hnode, pure_bind]
      refine .bind (ih (hwithin.child hnode (by simp [Node.children])) hleft) fun left => ?_
      refine .bind (ih (hwithin.child hnode (by simp [Node.children])) hright) fun right => ?_
      exact .modifyGet _
    | call hnode =>
      rw [nodeAt_eq hnode, pure_bind]
      exact .reject (.notImplemented _)

/-- A comparison is lowered unless a limitation of the compiler is met. -/
theorem lowerCondition_limited (hwithin : g.Within d id) (hid : g.Compares κ id) :
    Limited (g.lowerCondition d id) := by
  obtain ⟨op, lhs, rhs, k, hnode, hleft, hright⟩ := hid
  have hwithin := hwithin.mono (Nat.le_succ d)
  unfold lowerCondition
  rw [nodeAt_eq hnode, pure_bind]
  refine .bind (lowerExpr_limited (hwithin.child hnode (by simp [Node.children])) hleft) fun left => ?_
  refine .bind (lowerExpr_limited (hwithin.child hnode (by simp [Node.children])) hright) fun right => ?_
  exact .modifyGet _

/-- The value of an assignment is lowered unless a limitation of the compiler is met. -/
theorem lowerValue_limited (hwithin : g.Within d id) (hid : g.HasKind κ id k) :
    Limited (g.lowerValue d id) := by
  obtain ⟨node, hnode⟩ := hwithin.exists_node
  have hexpr := lowerExpr_limited hwithin hid
  unfold lowerValue
  rw [nodeAt_eq hnode, pure_bind]
  split
  · exact .bind hexpr fun src => .modifyGet _
  · exact hexpr

/-- A branch adds no failures to those of its blocks. -/
theorem lowerIfElse_limited {cond : Register} {a b : LowerM Unit} (ha : Limited a) (hb : Limited b) :
    Limited (lowerIfElse cond a b) := by
  refine .bind (.modifyGet _) fun thenLabel => .bind (.modifyGet _) fun elseLabel => ?_
  refine .bind (.modifyGet _) fun doneLabel => .bind (.modify _) fun _ => .bind (.modify _) fun _ => ?_
  refine .bind .get fun e => .bind (.modify _) fun _ => .bind ha fun _ => ?_
  refine .bind (.modifyGet _) fun introduced => .bind (.modify _) fun _ => .bind (.modify _) fun _ => ?_
  refine .bind (.modify _) fun _ => .bind hb fun _ => ?_
  refine .bind (.discard_closeBlock _ _) fun _ => ?_
  exact .bind (.modify _) fun _ => .bind (.modify _) fun _ => .modify _

/-- A loop adds no failures to those of its condition and its body. -/
theorem lowerWhile_limited {a : LowerM Register} {b : LowerM Unit} (ha : Limited a) (hb : Limited b) :
    Limited (lowerWhile a b) := by
  refine .bind (.modifyGet _) fun startLabel => .bind (.modifyGet _) fun endLabel => ?_
  refine .bind (.modify _) fun _ => .bind ha fun cond => .bind (.modify _) fun _ => ?_
  refine .bind .get fun e => .bind hb fun _ => .bind (.discard_closeBlock _ _) fun _ => ?_
  exact .bind (.modify _) fun _ => .modify _

/-- Lowering a statement that is in order fails only at a limitation of the compiler. -/
theorem lowerStatement_limited (hwithin : g.Within d id) (hid : g.InOrder κ id) :
    Limited (g.lowerStatement d id) := by
  induction d generalizing id with
  | zero => cases hwithin
  | succ d ih =>
    rw [lowerStatement]
    cases hid with
    | @assign _ target value v hnode htarget hkind hvalue =>
      rw [nodeAt_eq hnode, pure_bind]
      refine .bind ?_ fun v => .bind (lowerValue_limited (hwithin.child hnode
        (by simp [Node.children])) hvalue) fun r => .modify _
      unfold lowerTarget
      rw [nodeAt_eq htarget, pure_bind]
      dsimp only
      split
      · exact .reject (.unsupported _ _)
      · exact .pure _
    | updateElement hnode =>
      rw [nodeAt_eq hnode, pure_bind]
      exact .reject (.unsupported _ _)
    | ifElse hnode hcond hthen helse =>
      rw [nodeAt_eq hnode, pure_bind]
      refine .bind (lowerCondition_limited (hwithin.child hnode (by simp [Node.children])) hcond)
        fun cond => lowerIfElse_limited (.forM fun c hc => ?_) (.forM fun c hc => ?_)
      · exact ih (hwithin.child hnode (by simp [Node.children, hc])) (hthen c hc)
      · exact ih (hwithin.child hnode (by simp [Node.children, hc])) (helse c hc)
    | whileLoop hnode hcond hbody =>
      rw [nodeAt_eq hnode, pure_bind]
      refine lowerWhile_limited (lowerCondition_limited (hwithin.child hnode
        (by simp [Node.children])) hcond) (.forM fun c hc => ?_)
      exact ih (hwithin.child hnode (by simp [Node.children, hc])) (hbody c hc)
    | functionDef hnode =>
      rw [nodeAt_eq hnode, pure_bind]
      exact .pure _
    | debug hnode =>
      rw [nodeAt_eq hnode, pure_bind]
      exact .modify _

/-! ## Labels -/

/-- The number of labels that a statement needs, along paths of bounded length: three for a branch
and two for a loop, besides those of the blocks. -/
def labelsIn (g : Graph) : Nat → NodeId → Nat
  | 0, _ => 0
  | depth + 1, id =>
    match g.node? id with
    | some (.ifElse _ thenBlock elseBlock) =>
      3 + (thenBlock.map (labelsIn g depth)).sum + (elseBlock.map (labelsIn g depth)).sum
    | some (.whileLoop _ body) => 2 + (body.map (labelsIn g depth)).sum
    | _ => 0

/-- Rewriting changes no block, and paths that end within two bounds have the same labels. -/
theorem KeepsKinds.labelsIn_eq {d' : Nat} (h : KeepsKinds κ g g') (hid : g.Within d id)
    (hid' : g'.Within d' id) : g'.labelsIn d' id = g.labelsIn d id := by
  induction d generalizing id d' with
  | zero => cases hid
  | succ d ih =>
    obtain ⟨node, hnode, hchildren⟩ := hid
    obtain ⟨node', hnode', hamends⟩ := h.kept hnode
    cases d' with
    | zero => cases hid'
    | succ d' =>
      have hblock : ∀ ids : List NodeId, (∀ c ∈ ids, c ∈ node.children ∧ c ∈ node'.children) →
          (ids.map (g'.labelsIn d')).sum = (ids.map (g.labelsIn d)).sum := by
        intro ids hids
        refine congrArg List.sum (List.map_congr_left fun c hc => ?_)
        exact ih (hchildren c (hids c hc).1) (hid'.child hnode' (hids c hc).2)
      rw [labelsIn, labelsIn, hnode, hnode']
      cases hamends with
      | same =>
        cases node with
        | ifElse cond thenBlock elseBlock =>
          dsimp only
          rw [hblock thenBlock fun c hc => by simp [Node.children, hc],
            hblock elseBlock fun c hc => by simp [Node.children, hc]]
        | whileLoop cond body =>
          dsimp only
          rw [hblock body fun c hc => by simp [Node.children, hc]]
        | _ => rfl
      | _ => rfl

end Graph

/-- The number of labels that the code of a command has. -/
def Command.labels : Command → Nat
  | .skip | .assign .. | .print _ => 0
  | .seq first second => first.labels + second.labels
  | .ifElse _ thenBranch elseBranch => 3 + thenBranch.labels + elseBranch.labels
  | .whileLoop _ body => 2 + body.labels

/-- Lowering a command hands out its labels. -/
theorem Command.lower_labels {c : Command} {e e' : Emitter} (h : c.lower.run e = .ok () e') :
    e'.labels = e.labels + c.labels := by
  induction c generalizing e e' with
  | skip =>
    cases run_lower_skip.1 h
    rfl
  | print text =>
    cases run_lower_print.1 h
    rfl
  | assign x v =>
    obtain ⟨q, e₁, hv, rfl⟩ := run_lower_assign.1 h
    exact (Expr.lowerValue_grows hv).1.labels
  | seq a b iha ihb =>
    obtain ⟨e₁, ha, hb⟩ := run_lower_seq.1 h
    rw [ihb hb, iha ha, labels, Nat.add_assoc]
  | ifElse t a b iha ihb =>
    obtain ⟨cond, e₀, e₁, e₂, ht, ha, hb, rfl⟩ := run_lower_ifElse.1 h
    have hlabels : e₀.labels = e.labels := (Test.lower_grows ht).1.labels
    rw [Emitter.endIf_labels, ihb hb, Emitter.beginElse_labels, iha ha, Emitter.beginThen_labels,
      hlabels, labels]
    omega
  | whileLoop t b ih =>
    obtain ⟨cond, e₁, e₂, ht, hb, rfl⟩ := run_lower_whileLoop.1 h
    have hlabels : e₁.labels = e.labels + 2 := (Test.lower_grows ht).1.labels
    rw [Emitter.endLoop_labels, ih hb, Emitter.beginBody_labels, hlabels, labels]
    omega

namespace Graph

variable {g : Graph}

/-- The tree of a block has the labels of its statements, if their trees have theirs. -/
theorem sum_labelsIn_of_block? {d : Nat}
    (hread : ∀ {id c}, g.command? d id = some c → g.labelsIn d id = c.labels) :
    ∀ {ids : List NodeId} {c : Command}, block? (g.command? d) ids = some c →
      (ids.map (g.labelsIn d)).sum = c.labels
  | [], c, h => by
    cases h
    rfl
  | id :: ids, c, h => by
    simp only [block?] at h
    split at h
    next first rest hfirst hrest =>
      cases h
      rw [List.map_cons, List.sum_cons, hread hfirst, sum_labelsIn_of_block? hread hrest]
      rfl
    next => cases h

/-- The tree of a statement has the labels that the statement needs. -/
theorem labelsIn_of_command? {d : Nat} {id : NodeId} {c : Command} (h : g.command? d id = some c) :
    g.labelsIn d id = c.labels := by
  induction d generalizing id c with
  | zero => cases h
  | succ d ih =>
    rw [command?] at h
    rw [labelsIn]
    split at h
    next hnode =>
      split at h
      next =>
        cases h
        simp only [hnode, Command.labels]
      next => cases h
    next hnode =>
      split at h
      next ha hb =>
        cases h
        simp only [hnode, sum_labelsIn_of_block? ih ha, sum_labelsIn_of_block? ih hb, Command.labels]
      next => cases h
    next hnode =>
      split at h
      next hb =>
        cases h
        simp only [hnode, sum_labelsIn_of_block? ih hb, Command.labels]
      next => cases h
    next hnode =>
      cases h
      simp only [hnode, Command.labels]
    next hnode =>
      cases h
      simp only [hnode, Command.labels]
    next => cases h

end Graph

/-! ## Programs -/

namespace Program

variable {p : Program} {κ : String → Kind}

/-- The number of labels that the code of a program needs. -/
def labelCount (p : Program) : Nat :=
  (p.body.map (p.graph.labelsIn p.graph.depth)).sum

/-- A program that is in order is lowered, or meets a limitation of the compiler. -/
theorem lower_of_inOrder (hbody : ∀ id ∈ p.body, p.graph.InOrder κ id)
    (hlabels : p.labelCount < UInt32.size) :
    (∃ code, p.lower = .ok code) ∨ ∃ e, p.lower = .error e ∧ Limitation e := by
  have hlimited : LowerM.Limited p.lowerBody := .forM fun id hid =>
    Graph.lowerStatement_limited ((hbody id hid).grounded.within.mono (Nat.le_succ _)) (hbody id hid)
  unfold lower
  cases hrun : p.lowerBody.run .empty with
  | error e emitter => exact .inr ⟨e, rfl, (hlimited .empty).error hrun⟩
  | ok u emitter =>
    obtain ⟨c, hc⟩ := Graph.exists_block? (fun _ _ _ => Graph.exists_command?) hrun
    have hlower : c.lower.run .empty = .ok () emitter := lowerBody_eq hc ▸ hrun
    have hcount : p.labelCount = c.labels :=
      Graph.sum_labelsIn_of_block? Graph.labelsIn_of_command? hc
    have hsmall : emitter.labels < UInt32.size := by
      rw [Command.lower_labels hlower, ← hcount]
      exact (Nat.zero_add _).symm ▸ hlabels
    refine .inl ⟨emitter.finish, ?_⟩
    simp only [Command.checkLabels_finish hlower hsmall]

/-- Constant propagation leaves the number of labels as it is. -/
theorem labelCount_of_keepsKinds {g : Graph} (hbody : ∀ id ∈ p.body, p.graph.InOrder κ id)
    (h : KeepsKinds κ p.graph g) : labelCount { p with graph := g } = p.labelCount := by
  refine congrArg List.sum (List.map_congr_left fun id hid => ?_)
  have hid := hbody id hid
  exact h.labelsIn_eq (hid.grounded.within.mono (Nat.le_succ _))
    ((h.inOrder hid).grounded.within.mono (Nat.le_succ _))

/-- A program that passes the check is compiled, with and without constant propagation, or it meets
a limitation of the compiler, if its variables of one name have one kind and its labels do not
overflow. -/
theorem compile_of_check (hbuilt : p.graph.Built) (hcheck : p.check = .ok ()) (hkinds : p.KindsAgree)
    (hlabels : p.labelCount < UInt32.size) (optimizing : Bool) :
    (∃ compiled q, p.compile optimizing = .ok compiled q) ∨
      ∃ e q, p.compile optimizing = .error e q ∧ Limitation e := by
  obtain ⟨κ, hvars⟩ := hkinds.exists_varsFit
  have hbody := inOrder_of_check hcheck hvars
  -- what is left to do for a program that has been simplified or not
  have hafter : ∀ {q : Program} stats, (∀ id ∈ q.body, q.graph.InOrder κ id) →
      q.labelCount < UInt32.size → (∃ compiled q', q.compileAfter stats = .ok compiled q') ∨
        ∃ e q', q.compileAfter stats = .error e q' ∧ Limitation e := by
    intro q stats hq hlabels
    unfold compileAfter
    rcases lower_of_inOrder hq hlabels with ⟨code, hcode⟩ | ⟨e, he, hlimit⟩
    · rw [hcode]
      exact .inl ⟨_, _, rfl⟩
    · rw [he]
      exact .inr ⟨_, _, rfl, hlimit⟩
  cases optimizing with
  | false => exact hafter none hbody hlabels
  | true =>
    have hpropagate := propagate_meets hbuilt.linked hbody
    simp only [compile, optimize, if_true]
    cases hrun : p.propagate with
    | error e s => exact .inr ⟨_, _, rfl, hpropagate.error hrun⟩
    | ok u s =>
      have hkeeps := hpropagate.ok hrun
      refine hafter _ (fun id hid => hkeeps.inOrder (hbody id hid)) ?_
      rwa [labelCount_of_keepsKinds hbody hkeeps]

/-- A program with expressions that stand in several places and with an operation on arrays in a
function that does not run: `x = 1; y = m; def f() (a = [1]; b = n; c = n); while y > m do y = m`,
where `m` is `x + 1` and `n` is `a + a`. -/
def arraysInFunction : Program :=
  ⟨.ofNodes [.constant (.scalar 1), .var (.scalar "x"), .assign ⟨1⟩ ⟨0⟩,
    .arithmetic .add ⟨1⟩ ⟨0⟩, .var (.scalar "y"), .assign ⟨4⟩ ⟨3⟩,
    .constant (.array [1]), .var (.array "a" 1), .assign ⟨7⟩ ⟨6⟩, .arithmetic .add ⟨7⟩ ⟨7⟩,
    .var (.array "b" 1), .assign ⟨10⟩ ⟨9⟩, .var (.array "c" 1), .assign ⟨12⟩ ⟨9⟩,
    .functionDef "f" [] [⟨8⟩, ⟨11⟩, ⟨13⟩] .scalar,
    .comparison .greater ⟨4⟩ ⟨3⟩, .whileLoop ⟨15⟩ [⟨5⟩]],
  [⟨2⟩, ⟨5⟩, ⟨14⟩, ⟨16⟩]⟩

/-- It compiles as it is, and meets a limitation when it is optimized, as propagation comes to the
operation on arrays. -/
theorem compile_of_check_arraysInFunction : arraysInFunction.graph.Built ∧
    arraysInFunction.check = .ok () ∧ arraysInFunction.KindsAgree ∧
    arraysInFunction.labelCount < UInt32.size ∧
    (∃ compiled q, arraysInFunction.compile false = .ok compiled q) ∧
    ∃ e q, arraysInFunction.compile true = .error e q ∧ Limitation e := by
  have hbuilt : arraysInFunction.graph.Built := by
    dsimp only [arraysInFunction]
    exact Graph.built_ofNodes _
  have hcheck : arraysInFunction.check = .ok () := by decide +kernel
  have hkinds : arraysInFunction.KindsAgree := kindsAgree_of_vars (by decide +kernel)
  have hlabels : arraysInFunction.labelCount < UInt32.size := by decide +kernel
  have hplain : (match arraysInFunction.compile false with
    | .ok .. => true
    | .error .. => false) = true := by decide +kernel
  have hoptimized : (match arraysInFunction.compile true with
    | .ok .. => false
    | .error .. => true) = true := by decide +kernel
  refine ⟨hbuilt, hcheck, hkinds, hlabels, ?_, ?_⟩
  · refine (compile_of_check hbuilt hcheck hkinds hlabels false).resolve_right ?_
    rintro ⟨e, q, he, -⟩
    rw [he] at hplain
    cases hplain
  · refine (compile_of_check hbuilt hcheck hkinds hlabels true).resolve_left ?_
    rintro ⟨compiled, q, hok⟩
    rw [hok] at hoptimized
    cases hoptimized

end Program

end RegisterBackend
