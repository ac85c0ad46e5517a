import RegisterBackend.Proofs.CheckSteps
import RegisterBackend.Proofs.Lowerable
import RegisterBackend.Proofs.Simulation

/-!
# Programs without arrays and calls

The check of a program and the reading of its tree follow the references in the same way. Where the
code that runs has neither arrays nor calls (`Program.ScalarCode`; the bodies of functions do not
run), everything that passes the check therefore has a tree (`Program.exists_command?`).

`Program.runs_as_reference` puts this together with what is known of the tree: a program that has
been checked and assigns every name before it reads it can be lowered, and the code does what the
reference semantics says.
-/

namespace RegisterBackend

/-! ## The code that runs -/

/-- The node can be reached from the given ones without going into the definition of a function. -/
inductive Graph.InCode (g : Graph) (roots : List NodeId) : NodeId → Prop where
  | root {id : NodeId} (h : id ∈ roots) : InCode g roots id
  | child {id child : NodeId} {node : Node} (h : InCode g roots id) (hnode : g.node? id = some node)
      (hdef : node.shape ≠ .functionDef) (hchild : child ∈ node.children) : InCode g roots child

/-- The node is neither an array nor a call. -/
def Node.isScalar : Node → Bool
  | .constant (.array _) | .call .. | .updateElement .. => false
  | .var v => v.kind = .scalar
  | _ => true

/-- The code that runs has neither arrays nor calls. -/
def Program.ScalarCode (p : Program) : Prop :=
  ∀ {id node}, p.graph.InCode p.body id → p.graph.node? id = some node → node.isScalar = true

/-! ## The tree of a checked program -/

namespace Graph

variable {g : Graph} {roots : List NodeId} {id : NodeId}

/-- A block has a tree if its statements have. -/
theorem exists_block?_of_forall {read : NodeId → Option Command} :
    ∀ {ids : List NodeId}, (∀ id ∈ ids, ∃ c, read id = some c) → ∃ c, block? read ids = some c
  | [], _ => ⟨.skip, rfl⟩
  | id :: ids, h => by
    obtain ⟨a, ha⟩ := h id (by simp)
    obtain ⟨b, hb⟩ := exists_block?_of_forall fun id hid => h id (List.mem_cons_of_mem _ hid)
    exact ⟨.seq a b, by simp [block?, ha, hb]⟩

/-- A variable that passes as scalar holds no array. -/
theorem kind_ne_array_of_isScalar {v : Variable} (h : (Node.var v).isScalar = true) :
    v.kind ≠ .array := by
  simp only [Node.isScalar, decide_eq_true_eq] at h
  simp [h]

section

variable (hscalar : ∀ {id node}, g.InCode roots id → g.node? id = some node → node.isScalar = true)

include hscalar

/-- A checked evaluable without arrays and calls has a tree. -/
theorem exists_expr?_of_check : ∀ {depth : Nat} {id : NodeId} {kind : Kind},
    g.checkExpr depth id = .ok kind → g.InCode roots id → ∃ e, g.expr? depth id = some e
  | 0, id, kind, h, _ => by cases h
  | depth + 1, id, kind, h, hin => by
    cases checkExpr_eq_ok.1 h with
    | @constant value hnode _ =>
      cases value with
      | scalar v => exact ⟨.const v, by simp only [expr?, hnode]⟩
      | array elements => cases hscalar hin hnode
    | @var v hnode =>
      have hkind := kind_ne_array_of_isScalar (hscalar hin hnode)
      exact ⟨.var v.name, by simp only [expr?, hnode, if_neg hkind]⟩
    | @arithmetic op lhs rhs _ hnode hleft hright =>
      have hchild : ∀ child ∈ [lhs, rhs], g.InCode roots child := fun child =>
        hin.child hnode (by simp [Node.shape])
      obtain ⟨a, ha⟩ := exists_expr?_of_check hleft (hchild lhs (by simp))
      obtain ⟨b, hb⟩ := exists_expr?_of_check hright (hchild rhs (by simp))
      exact ⟨.arith op a b, by simp only [expr?, hnode, ha, hb]⟩
    | call hnode => cases hscalar hin hnode

/-- A checked condition without arrays and calls has a tree. -/
theorem exists_test?_of_check {depth : Nat} (h : g.checkCondition depth id = .ok ())
    (hin : g.InCode roots id) : ∃ t, g.test? depth id = some t := by
  obtain ⟨op, lhs, rhs, k, hnode, hleft, hright⟩ := checkCondition_eq_ok.1 h
  have hchild : ∀ child ∈ [lhs, rhs], g.InCode roots child := fun child =>
    hin.child hnode (by simp [Node.shape])
  obtain ⟨a, ha⟩ := exists_expr?_of_check hscalar hleft (hchild lhs (by simp))
  obtain ⟨b, hb⟩ := exists_expr?_of_check hscalar hright (hchild rhs (by simp))
  exact ⟨⟨op, a, b⟩, by simp only [test?, hnode, ha, hb]⟩

/-- A checked statement without arrays and calls has a tree. -/
theorem exists_command?_of_check : ∀ {depth : Nat} {id : NodeId},
    g.checkStatement depth id = .ok () → g.InCode roots id → ∃ c, g.command? depth id = some c
  | 0, id, h, _ => by cases h
  | depth + 1, id, h, hin => by
    have hblock : ∀ {ids : List NodeId}, (∀ id ∈ ids, g.checkStatement depth id = .ok ()) →
        (∀ id ∈ ids, g.InCode roots id) → ∃ c, block? (g.command? depth) ids = some c :=
      fun hids hmem => exists_block?_of_forall fun id hid =>
        exists_command?_of_check (hids id hid) (hmem id hid)
    cases statementCheck_of_check h with
    | @assign target value v hnode htarget hvalue _ =>
      have hchild : ∀ child ∈ [target, value], g.InCode roots child := fun child =>
        hin.child hnode (by simp [Node.shape])
      have hkind := kind_ne_array_of_isScalar (hscalar (hchild target (by simp)) htarget)
      have hname : g.target? target = some v.name := by simp [target?, htarget, hkind]
      obtain ⟨e, he⟩ := exists_expr?_of_check hscalar hvalue (hchild value (by simp))
      exact ⟨.assign v.name e, by simp only [command?, hnode, hname, he]⟩
    | @ifElse cond thenBlock elseBlock hnode hcond hthen helse =>
      have hchild : ∀ child ∈ cond :: thenBlock ++ elseBlock, g.InCode roots child :=
        fun child => hin.child hnode (by simp [Node.shape])
      obtain ⟨t, ht⟩ := exists_test?_of_check hscalar hcond (hchild cond (by simp))
      obtain ⟨a, ha⟩ := hblock hthen fun id hid => hchild id (by simp [hid])
      obtain ⟨b, hb⟩ := hblock helse fun id hid => hchild id (by simp [hid])
      exact ⟨.ifElse t a b, by simp only [command?, hnode, ht, ha, hb]⟩
    | @whileLoop cond body hnode hcond hbody =>
      have hchild : ∀ child ∈ cond :: body, g.InCode roots child := fun child =>
        hin.child hnode (by simp [Node.shape])
      obtain ⟨t, ht⟩ := exists_test?_of_check hscalar hcond (hchild cond (by simp))
      obtain ⟨b, hb⟩ := hblock hbody fun id hid => hchild id (by simp [hid])
      exact ⟨.whileLoop t b, by simp only [command?, hnode, ht, hb]⟩
    | functionDef hnode => exact ⟨.skip, by simp only [command?, hnode]⟩
    | @debug text hnode => exact ⟨.print text, by simp only [command?, hnode]⟩
    | updateElement hnode => cases hscalar hin hnode

end

end Graph

namespace Program

variable {p : Program}

/-- A checked program without arrays and calls has a tree. -/
theorem exists_command? (hcheck : p.check = .ok ()) (hscalar : p.ScalarCode) :
    ∃ c, p.command? = some c :=
  Graph.exists_block?_of_forall fun id hid =>
    Graph.exists_command?_of_check hscalar (forM_eq_ok.1 hcheck id hid) (.root hid)

/-- A program without arrays and calls anywhere has none in the code that runs. -/
theorem scalarCode_of_forall (h : ∀ entry ∈ p.graph.entries, entry.node.isScalar = true) :
    p.ScalarCode := by
  intro id node _ hnode
  obtain ⟨entry, hentry, rfl⟩ := Option.map_eq_some_iff.1 hnode
  exact h entry (Array.mem_of_getElem? hentry)

/-- There are neither arrays nor calls in the code that runs if there are none in a list that has
the body and, with each node but the definitions of functions, what the node refers to. -/
theorem scalarCode_of_closed (code : List NodeId) (hbody : ∀ id ∈ p.body, id ∈ code)
    (hclosed : ∀ id ∈ code, ∀ node ∈ p.graph.node? id, node.isScalar = true ∧
      (node.shape ≠ .functionDef → ∀ child ∈ node.children, child ∈ code)) : p.ScalarCode := by
  intro id node hin hnode
  have hmem : id ∈ code := by
    clear hnode
    induction hin with
    | root h => exact hbody _ h
    | child _ hnode hdef hchild ih => exact (hclosed _ ih _ hnode).2 hdef _ hchild
  exact (hclosed id hmem node hnode).1

/-- No name is read too early when the program runs. -/
def DefinitelyAssigned (p : Program) : Prop :=
  ∀ c, p.command? = some c → c.DefinitelyAssigned

instance (p : Program) : Decidable p.DefinitelyAssigned :=
  inferInstanceAs (Decidable (∀ c, p.command? = some c → c.DefinitelyAssigned))

/-- A checked program that assigns every name before it reads it can be lowered. -/
theorem exists_lower (hcheck : p.check = .ok ()) (hscalar : p.ScalarCode)
    (hdef : p.DefinitelyAssigned) (hsmall : p.Small) :
    ∃ c, p.command? = some c ∧ c.DefinitelyAssigned ∧ c.lower.run .empty = .ok () p.emitted ∧
      p.emitted.finish.checkLabels = .ok () ∧ p.lower = .ok p.emitted.finish := by
  obtain ⟨c, hc⟩ := exists_command? hcheck hscalar
  obtain ⟨D, hD⟩ := hdef c hc
  obtain ⟨e, he⟩ := Command.lower_of_definite hD Scope.wf_empty .empty Emitter.binds_empty
    (Finset.Subset.refl ∅)
  have hemitted : p.emitted = e := by simp [emitted, lowerBody_eq hc, he]
  rw [← hemitted] at he
  have hlabels := Command.checkLabels_finish he hsmall.2
  exact ⟨c, hc, ⟨D, hD⟩, he, hlabels, by simp [lower, lowerBody_eq hc, he, hlabels]⟩

/-- A checked program without arrays and calls that assigns every name before it reads it can be
lowered. Its code never reads an empty register; it completes exactly if the program terminates,
with the same output, and runs forever exactly if the program does. -/
theorem runs_as_reference {σ : Type} {sink : Sink σ} {start : σ} (hcheck : p.check = .ok ())
    (hscalar : p.ScalarCode) (hdef : p.DefinitelyAssigned) (hsmall : p.Small)
    (haccepts : sink.Accepts start) :
    ∃ c code, p.command? = some c ∧ p.lower = .ok code ∧
      (∀ final, code.CompletesWith sink start final ↔
        ∃ st, c.Terminates st ∧ sink.flush.run (sink.lines start st.lines) = .ok () final) ∧
      (∀ final, ¬ code.FailsWith sink start final) ∧ (∀ st, ¬ c.ReadsUnassigned st) ∧
      (code.RunsForever sink start ↔ c.Diverges) := by
  obtain ⟨c, hc, hdef, hrun, hlabels, hlower⟩ := exists_lower hcheck hscalar hdef hsmall
  have hdup := Bytecode.duplicateLabel?_eq_none hlabels
  have hfollows := hdef.followsReference
  refine ⟨c, _, hc, hlower, fun final => ?_, fun final hfails => ?_, fun st hreads => ?_, ?_⟩
  · rw [Bytecode.completesWith_iff_ends hrun hdup hsmall.1 haccepts]
    exact hfollows.ends_iff (P := fun lines => sink.flush.run (sink.lines start lines) = .ok () final)
  · obtain ⟨m, hstuck, -⟩ :=
      (Bytecode.failsWith_iff_getsStuck hrun hdup hsmall.1 haccepts).1 hfails
    exact hdef.not_getsStuck hstuck
  · obtain ⟨m, hstuck, -⟩ :=
      (hfollows.getsStuck_iff (P := fun _ => True)).2 ⟨st, hreads, trivial⟩
    exact hdef.not_getsStuck hstuck
  · rw [Bytecode.runsForever_iff_goesOn hrun hdup hsmall.1 haccepts, hfollows.goesOn_iff]

/-- A program with a name that both blocks of a branch introduce, before a loop and within it:
`x = 0; if x > 0 then t = 1 else t = 2; while t > x do (if x = 0 then u = t else u = x; x = x + u);
print "done"`. -/
def mergingLoop : Program :=
  ⟨.ofNodes [.constant (.scalar 0), .var (.scalar "x"), .assign ⟨1⟩ ⟨0⟩,
    .var (.scalar "x"), .constant (.scalar 0), .comparison .greater ⟨3⟩ ⟨4⟩,
    .constant (.scalar 1), .var (.scalar "t"), .assign ⟨7⟩ ⟨6⟩,
    .constant (.scalar 2), .var (.scalar "t"), .assign ⟨10⟩ ⟨9⟩, .ifElse ⟨5⟩ [⟨8⟩] [⟨11⟩],
    .var (.scalar "t"), .var (.scalar "x"), .comparison .greater ⟨13⟩ ⟨14⟩,
    .var (.scalar "x"), .constant (.scalar 0), .comparison .equals ⟨16⟩ ⟨17⟩,
    .var (.scalar "t"), .var (.scalar "u"), .assign ⟨20⟩ ⟨19⟩,
    .var (.scalar "x"), .var (.scalar "u"), .assign ⟨23⟩ ⟨22⟩, .ifElse ⟨18⟩ [⟨21⟩] [⟨24⟩],
    .var (.scalar "x"), .var (.scalar "u"), .arithmetic .add ⟨26⟩ ⟨27⟩, .var (.scalar "x"),
    .assign ⟨29⟩ ⟨28⟩, .whileLoop ⟨15⟩ [⟨25⟩, ⟨30⟩], .debug "done"],
  [⟨2⟩, ⟨12⟩, ⟨31⟩, ⟨32⟩]⟩

/-- The correspondence for a program with a branch in a loop, in which all names are assigned before
they are read. -/
theorem runs_as_reference_mergingLoop : mergingLoop.check = .ok () ∧
    mergingLoop.DefinitelyAssigned ∧ mergingLoop.Small ∧
    ∃ c code, mergingLoop.command? = some c ∧ mergingLoop.lower = .ok code ∧
      (∀ final, code.CompletesWith Buffer.sink (.empty none false) final ↔ ∃ st, c.Terminates st ∧
        Buffer.sink.flush.run (Buffer.sink.lines (.empty none false) st.lines) = .ok () final) ∧
      (∀ final, ¬ code.FailsWith Buffer.sink (.empty none false) final) ∧
      (∀ st, ¬ c.ReadsUnassigned st) ∧
      (code.RunsForever Buffer.sink (.empty none false) ↔ c.Diverges) := by
  have hcheck : mergingLoop.check = .ok () := by decide +kernel
  have hscalar : mergingLoop.ScalarCode := scalarCode_of_forall (by decide +kernel)
  have hdef : mergingLoop.DefinitelyAssigned := by decide +kernel
  have hsmall : mergingLoop.Small := ⟨by decide +kernel, by decide +kernel⟩
  exact ⟨hcheck, hdef, hsmall, runs_as_reference hcheck hscalar hdef hsmall (Buffer.accepts rfl)⟩

end Program

end RegisterBackend
