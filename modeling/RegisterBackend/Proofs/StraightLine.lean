import RegisterBackend.Proofs.OptimizedCompilation

/-!
# Straight-line code

A program is straight-line code if its body has only assignments of scalars and lines of debug
output, and the values are evaluables without arrays and calls (`Graph.PlainAt`). If no name is read
before it is assigned, the values can be computed one after the other (`PlainStatement.effects`),
and `Program.compile_straightLine` says that constant propagation does compute all of them: what is
compiled are the effects alone, each assignment as one load of its value into the next register.

Nothing is forgotten on the way, since there are no branches, loops and calls. So before each
statement the names that have been assigned are known with the values they hold, and every
evaluable, however deep, folds to the constant it is worth (`Expr.fold_eq_const`). A name that is
assigned again is then known with its new value. What is left to lower are assignments of constants
(`Effect.exists_run_lower`).
-/

namespace RegisterBackend

/-! ## Statements and effects -/

/-- A statement of straight-line code. -/
inductive PlainStatement where
  | assign (name : String) (value : Expr)
  | print (text : String)
deriving DecidableEq, Repr

/-- What a statement of straight-line code does when it runs. -/
inductive Effect where
  /-- The name receives the value. -/
  | assign (name : String) (value : Int64)
  | print (text : String)
deriving DecidableEq, Repr

namespace PlainStatement

/-- The statements as a command. -/
def sequence : List PlainStatement → Command
  | [] => .skip
  | .assign x e :: rest => .seq (.assign x e) (sequence rest)
  | .print text :: rest => .seq (.print text) (sequence rest)

/-- Every name that is read is one of the given ones or is assigned by an earlier statement. -/
def ReadsAssigned (names : List String) : List PlainStatement → Prop
  | [] => True
  | .assign x e :: rest => (∀ y ∈ e.names, y ∈ names) ∧ ReadsAssigned (x :: names) rest
  | .print _ :: rest => ReadsAssigned names rest

instance : (names : List String) → (statements : List PlainStatement) →
    Decidable (ReadsAssigned names statements)
  | _, [] => .isTrue trivial
  | names, .assign x e :: rest =>
    have := instDecidableReadsAssigned (x :: names) rest
    inferInstanceAs (Decidable ((∀ y ∈ e.names, y ∈ names) ∧ ReadsAssigned (x :: names) rest))
  | names, .print _ :: rest => instDecidableReadsAssigned names rest

/-- What the statements do one after the other, given what the names hold, if every name that is
read holds a value. -/
def effects (view : String → Option Int64) : List PlainStatement → Option (List Effect)
  | [] => some []
  | .assign x e :: rest =>
    match e.eval view with
    | some v => (effects (Function.update view x (some v)) rest).map (.assign x v :: ·)
    | none => none
  | .print text :: rest => (effects view rest).map (.print text :: ·)

/-- If every name is assigned before it is read, all values can be computed. -/
theorem exists_effects {names : List String} {view : String → Option Int64}
    {statements : List PlainStatement} (h : ReadsAssigned names statements)
    (hview : ∀ x ∈ names, (view x).isSome) : ∃ effs, effects view statements = some effs := by
  induction statements generalizing names view with
  | nil => exact ⟨[], rfl⟩
  | cons statement rest ih =>
    cases statement with
    | assign x e =>
      obtain ⟨hreads, hrest⟩ := h
      have hsome : (e.eval view).isSome := Expr.isSome_eval.2 fun y hy => hview y (hreads y hy)
      obtain ⟨v, hv⟩ := Option.isSome_iff_exists.1 hsome
      have hview' : ∀ y ∈ x :: names, (Function.update view x (some v) y).isSome := by
        intro y hy
        by_cases hyx : y = x
        · simp [hyx]
        · rw [Function.update_of_ne hyx]
          exact hview y ((List.mem_cons.1 hy).resolve_left hyx)
      obtain ⟨effs, heffs⟩ := ih hrest hview'
      exact ⟨.assign x v :: effs, by simp only [effects, hv, heffs, Option.map_some]⟩
    | print text =>
      obtain ⟨effs, heffs⟩ := ih h hview
      exact ⟨.print text :: effs, by simp only [effects, heffs, Option.map_some]⟩

end PlainStatement

namespace Effect

/-- The statement that has just this effect. -/
def statement : Effect → PlainStatement
  | .assign x v => .assign x (.const v)
  | .print text => .print text

/-- The code that has the effects: each value is loaded into a register of its own, the first of
which has the given number, and each text is printed. -/
def code (number : Nat) : List Effect → List Instruction
  | [] => []
  | .assign _ v :: rest => .set (.ofIndex number) (.literal v) :: code (number + 1) rest
  | .print text :: rest => .print text :: code number rest

/-- In the code of effects, nothing is computed, copied or jumped to. -/
theorem mem_code {number : Nat} {effs : List Effect} {i : Instruction} (h : i ∈ code number effs) :
    (∃ r v, i = .set r (.literal v)) ∨ ∃ text, i = .print text := by
  induction effs generalizing number with
  | nil => cases h
  | cons eff rest ih =>
    cases eff with
    | assign x v =>
      rcases List.mem_cons.1 h with rfl | h
      · exact .inl ⟨_, v, rfl⟩
      · exact ih h
    | print text =>
      rcases List.mem_cons.1 h with rfl | h
      · exact .inr ⟨text, rfl⟩
      · exact ih h

/-- Statements that only have effects are lowered to the code of the effects, which takes no
labels. -/
theorem exists_run_lower (effs : List Effect) (e : Emitter) :
    ∃ e', (PlainStatement.sequence (effs.map statement)).lower.run e = .ok () e' ∧
      e'.code = e.code ++ (code e.registers effs).toArray ∧ e'.labels = e.labels := by
  induction effs generalizing e with
  | nil => exact ⟨e, rfl, by simp [code], rfl⟩
  | cons eff rest ih =>
    cases eff with
    | assign x v =>
      obtain ⟨e', hrun, hcode, hlabels⟩ := ih ((e.load v).2.bind x (e.load v).1)
      refine ⟨e', Command.run_lower_seq.2 ⟨_, rfl, hrun⟩, ?_, hlabels⟩
      rw [hcode]
      simp [Emitter.bind, Emitter.load, Emitter.emitTo, Emitter.freshRegister, Emitter.emit, code,
        Register.ofIndex]
    | print text =>
      obtain ⟨e', hrun, hcode, hlabels⟩ := ih (e.emit (.print text))
      refine ⟨e', Command.run_lower_seq.2 ⟨_, rfl, hrun⟩, ?_, hlabels⟩
      rw [hcode]
      simp [Emitter.emit, code]

/-- Paths in statements that only have effects have two nodes at most. -/
theorem height_sequence_le (effs : List Effect) :
    (PlainStatement.sequence (effs.map statement)).height ≤ 2 := by
  induction effs with
  | nil => exact Nat.zero_le _
  | cons eff rest ih =>
    cases eff with
    | assign x v => exact max_le (Nat.le_refl _) ih
    | print text => exact max_le (Nat.zero_le _) ih

/-- So they can be read in every graph that has them. -/
theorem height_le_depth {g : Graph} {S : NodeId → Prop} {ids : List NodeId} {effs : List Effect}
    (h : g.BlockAt S ids (PlainStatement.sequence (effs.map statement))) :
    (PlainStatement.sequence (effs.map statement)).height ≤ g.depth := by
  have hle := height_sequence_le effs
  cases effs with
  | nil => exact Nat.zero_le _
  | cons eff rest =>
    -- the first statement is a node, so the graph is not empty
    have hpos : 0 < g.size := by
      cases eff with
      | assign =>
        cases h with
        | assign node => exact Nat.zero_lt_of_lt (Graph.index_lt_of_node? node)
      | print =>
        cases h with
        | debug node => exact Nat.zero_lt_of_lt (Graph.index_lt_of_node? node)
    rw [Graph.depth]
    omega

end Effect

/-! ## Folding -/

/-- An evaluable all of whose names are known folds to its value. -/
theorem Expr.fold_eq_const {K : Known} {e : Expr} {v : Int64} (h : e.eval K = some v) :
    e.fold K = .const v := by
  induction e generalizing v with
  | const w =>
    cases h
    rfl
  | var x =>
    have hx : K x = some v := h
    simp only [fold, hx]
  | arith op l r ihl ihr =>
    simp only [eval] at h
    split at h
    next a b ha hb =>
      cases h
      rw [fold, ihl ha, ihr hb, combine]
    next => cases h

/-- Straight-line code whose values can all be computed folds to its effects. -/
theorem PlainStatement.folds_eq {K K' : Known} {statements : List PlainStatement}
    {effs : List Effect} {c : Command} (heffs : effects K statements = some effs)
    (hfolds : (sequence statements).Folds K c K') : c = sequence (effs.map Effect.statement) := by
  induction statements generalizing K effs c with
  | nil =>
    cases heffs
    cases hfolds
    rfl
  | cons statement rest ih =>
    cases statement with
    | assign x e =>
      cases hfolds with
      | seq first second =>
        cases first
        simp only [effects] at heffs
        split at heffs
        next v hv =>
          obtain ⟨effs', heffs', rfl⟩ := Option.map_eq_some_iff.1 heffs
          rw [Expr.fold_eq_const hv] at second ⊢
          rw [ih heffs' second]
          rfl
        next => cases heffs
    | print text =>
      cases hfolds with
      | seq first second =>
        cases first
        obtain ⟨effs', heffs', rfl⟩ := Option.map_eq_some_iff.1 heffs
        rw [ih heffs' second]
        rfl

/-! ## Straight-line code in a graph -/

namespace Graph

variable {g : Graph} {S : NodeId → Prop} {id n : NodeId} {ids : List NodeId}
  {statements : List PlainStatement}

/-- The node is the assignment of an evaluable without arrays and calls to a scalar variable, or a
line of debug output. -/
inductive PlainAt (g : Graph) : NodeId → PlainStatement → Prop
  | assign {id target value v e} (node : g.node? id = some (.assign target value))
    (var : g.node? target = some (.var v)) (kind : v.kind = .scalar)
    (tree : g.ExprAt (fun _ => True) value e) : PlainAt g id (.assign v.name e)
  | print {id text} (node : g.node? id = some (.debug text)) : PlainAt g id (.print text)

/-- The statements of straight-line code are its tree. -/
theorem PlainAt.blockAt (h : List.Forall₂ g.PlainAt ids statements) :
    g.BlockAt (fun _ => True) ids (PlainStatement.sequence statements) := by
  induction h with
  | nil => exact .nil
  | cons hid _ ih =>
    cases hid with
    | assign node var kind tree =>
      have htarget := target?_eq_some.2 ⟨_, var, by simp [kind], rfl⟩
      exact .assign node trivial htarget tree ih
    | print node => exact .debug node ih

/-- What can be reached from the root of a tree is the root of a tree. -/
theorem ExprAt.of_reaches {e : Expr} (h : g.ExprAt S id e) (hpath : g.Reaches id n) :
    ∃ e', g.ExprAt S n e' := by
  induction hpath with
  | refl => exact ⟨e, h⟩
  | tail _ hchild ih =>
    obtain ⟨node, hnode, hc⟩ := hchild
    obtain ⟨e', he'⟩ := ih
    cases he' with
    | const node' | var node' =>
      cases hnode.symm.trans node'
      cases hc
    | arith node' _ left right =>
      cases hnode.symm.trans node'
      simp only [Node.children, List.mem_cons, List.not_mem_nil, or_false] at hc
      rcases hc with rfl | rfl
      · exact ⟨_, left⟩
      · exact ⟨_, right⟩

/-- What has a tree is scalar where all names are. -/
theorem ExprAt.hasScalarKind {e : Expr} (h : g.ExprAt S id e) :
    g.HasKind (fun _ => .scalar) id .scalar := by
  refine h.hasKind fun n v hpath hnode => ?_
  obtain ⟨e', he'⟩ := h.of_reaches hpath
  cases he' with
  | var node kind =>
    cases hnode.symm.trans node
    cases hv : v.kind with
    | scalar => rfl
    | array => exact absurd hv kind
  | const node | arith node => cases hnode.symm.trans node

/-- Statements of straight-line code are in order when all names hold numbers. -/
theorem PlainAt.inOrder {statement : PlainStatement} (h : g.PlainAt id statement) :
    g.InOrder (fun _ => .scalar) id := by
  cases h with
  | assign node var kind tree => exact .assign node var kind (kind ▸ tree.hasScalarKind)
  | print node => exact .debug node

/-- An operation in straight-line code is scalar. -/
theorem PlainAt.hasKind_of_arithmetic {statement : PlainStatement} (h : g.PlainAt id statement)
    (hpath : g.Reaches id n) {op : ArithOp} {lhs rhs : NodeId}
    (hnode : g.node? n = some (.arithmetic op lhs rhs)) :
    g.HasKind (fun _ => .scalar) n .scalar := by
  rcases hpath.cases_head with rfl | ⟨c, ⟨node', hnode', hc⟩, hpath⟩
  · cases h with
    | assign node | print node => cases hnode.symm.trans node
  · cases h with
    | assign node var kind tree =>
      cases hnode'.symm.trans node
      simp only [Node.children, List.mem_cons, List.not_mem_nil, or_false] at hc
      rcases hc with rfl | rfl
      · have htarget := ExprAt.var (S := fun _ => True) var (by simp [kind])
        obtain ⟨e, he⟩ := htarget.of_reaches hpath
        exact he.hasScalarKind
      · obtain ⟨e, he⟩ := tree.of_reaches hpath
        exact he.hasScalarKind
    | print node =>
      cases hnode'.symm.trans node
      cases hc

end Graph

/-! ## Programs -/

namespace Program

variable {p : Program} {statements : List PlainStatement}

/-- Constant propagation of straight-line code comes to its end. -/
theorem exists_propagate_plain (hbuilt : p.graph.Built)
    (hbody : List.Forall₂ p.graph.PlainAt p.body statements) : ∃ s, p.propagate = .ok () s := by
  have hplain : ∀ id ∈ p.body, ∃ statement, p.graph.PlainAt id statement := by
    intro id hid
    obtain ⟨statement, -, h⟩ := exists_mem_of_forall₂ hbody.flip hid
    exact ⟨statement, h⟩
  have hpropagate := propagate_keeps hbuilt.linked fun id hid =>
    (hplain id hid).elim fun _ h => h.inOrder
  cases hrun : p.propagate with
  | ok u s => exact ⟨s, rfl⟩
  | error e s =>
    obtain ⟨hlimit, hkeeps⟩ := hpropagate.error hrun
    obtain ⟨id, hid, hstop⟩ := propagate_stopsFor hrun
    cases hstop with
    | disorder he => cases he <;> cases hlimit
    | arrays hn hnode hfolds =>
      obtain ⟨statement, h⟩ := hplain id hid
      exact absurd (hkeeps.hasKind (h.hasKind_of_arithmetic hn hnode)) hfolds.not_hasKind

/-- What constant propagation leaves of straight-line code without sharing are its effects. -/
theorem command?_propagate_plain (hunshared : p.Unshared)
    (hbody : List.Forall₂ p.graph.PlainAt p.body statements) {s : Propagation}
    (hrun : p.propagate = .ok () s) {effs : List Effect}
    (heffs : PlainStatement.effects (fun _ => none) statements = some effs) :
    ({ p with graph := s.graph } : Program).command? =
      some (PlainStatement.sequence (effs.map Effect.statement)) := by
  have huntouched : p.graph.Untouched p.body p.graph :=
    ⟨hunshared.separated, .refl _ _, fun _ _ _ h => h⟩
  obtain ⟨c, K, htree, -, hfolds, -⟩ :=
    PropagateM.block_folds (Graph.PlainAt.blockAt hbody) _ _ _ _ hrun huntouched .empty
  cases PlainStatement.folds_eq heffs hfolds
  exact Graph.block?_of_blockAt htree (Effect.height_le_depth htree)

/-- Straight-line code without sharing, in which every name is assigned before it is read, is
compiled to its effects when constants are propagated: in the order of the body, the value of each
assignment is loaded into the next register, the first one being the register with number 0, and
each text is printed. Nothing is left to be computed or copied. -/
theorem compile_straightLine (hbuilt : p.graph.Built) (hunshared : p.Unshared)
    (hbody : List.Forall₂ p.graph.PlainAt p.body statements)
    (hassigned : PlainStatement.ReadsAssigned [] statements) :
    ∃ effs stats q, PlainStatement.effects (fun _ => none) statements = some effs ∧
      p.compile true = .ok ⟨⟨(Effect.code 0 effs).toArray⟩, some stats⟩ q ∧
      ∀ i ∈ Effect.code 0 effs, (∃ r v, i = .set r (.literal v)) ∨ ∃ text, i = .print text := by
  have hnone : ∀ x ∈ [], ((fun _ => none : String → Option Int64) x).isSome := by
    intro x hx
    cases hx
  obtain ⟨effs, heffs⟩ := PlainStatement.exists_effects hassigned hnone
  obtain ⟨s, hrun⟩ := exists_propagate_plain hbuilt hbody
  have hcommand := command?_propagate_plain hunshared hbody hrun heffs
  obtain ⟨e, hlower, hcode, hlabels⟩ := Effect.exists_run_lower effs .empty
  have hcheck : e.finish.checkLabels = .ok () :=
    Command.checkLabels_finish hlower (hlabels ▸ by decide)
  have hcompiled : ({ p with graph := s.graph } : Program).lower = .ok e.finish := by
    simp only [lower, lowerBody_eq hcommand, hlower, hcheck]
  have hfinish : e.finish = ⟨(Effect.code 0 effs).toArray⟩ := by
    simp [Emitter.finish, hcode, Emitter.empty]
  refine ⟨effs, s.stats, { p with graph := s.graph }, heffs, ?_, fun i hi => Effect.mem_code hi⟩
  simp only [compile, if_true, optimize, hrun, compileAfter, hcompiled, hfinish]

/-- A program in which a name is assigned twice, with a value out of range and a copy:
`x = 9223372036854775807; x = x + 1; print wrapped; y = (x - 1) * (x + 3); z = y; print wrapped`. -/
def wrappedSum : Program :=
  ⟨.ofNodes [.constant (.scalar 9223372036854775807), .var (.scalar "x"), .assign ⟨1⟩ ⟨0⟩,
    .constant (.scalar 1), .arithmetic .add ⟨1⟩ ⟨3⟩, .assign ⟨1⟩ ⟨4⟩, .debug "wrapped",
    .constant (.scalar 3), .arithmetic .sub ⟨1⟩ ⟨3⟩, .arithmetic .add ⟨1⟩ ⟨7⟩,
    .arithmetic .mul ⟨8⟩ ⟨9⟩, .var (.scalar "y"), .assign ⟨11⟩ ⟨10⟩, .var (.scalar "z"),
    .assign ⟨13⟩ ⟨11⟩],
  [⟨2⟩, ⟨5⟩, ⟨6⟩, ⟨12⟩, ⟨14⟩, ⟨6⟩]⟩

/-- The statements of the program. -/
def wrappedSumStatements : List PlainStatement :=
  [.assign "x" (.const 9223372036854775807), .assign "x" (.arith .add (.var "x") (.const 1)),
    .print "wrapped",
    .assign "y" (.arith .mul (.arith .sub (.var "x") (.const 1)) (.arith .add (.var "x") (.const 3))),
    .assign "z" (.var "y"), .print "wrapped"]

/-- Each assignment becomes one constant, also the sum that wraps around. -/
theorem compile_straightLine_wrappedSum : wrappedSum.graph.Built ∧ wrappedSum.Unshared ∧
    List.Forall₂ wrappedSum.graph.PlainAt wrappedSum.body wrappedSumStatements ∧
    PlainStatement.ReadsAssigned [] wrappedSumStatements ∧
    ∃ stats q, wrappedSum.compile true = .ok ⟨⟨#[.set ⟨0⟩ (.literal 9223372036854775807),
      .set ⟨1⟩ (.literal (-9223372036854775808)), .print "wrapped", .set ⟨2⟩ (.literal (-3)),
      .set ⟨3⟩ (.literal (-3)), .print "wrapped"]⟩, some stats⟩ q := by
  have hbuilt : wrappedSum.graph.Built := by
    dsimp only [wrappedSum]
    exact Graph.built_ofNodes _
  have hunshared : wrappedSum.Unshared := unshared_of_nodup (by decide +kernel)
  have hplain : List.Forall₂ wrappedSum.graph.PlainAt wrappedSum.body wrappedSumStatements := by
    have hx : wrappedSum.graph.ExprAt (fun _ => True) ⟨1⟩ (.var "x") :=
      .var (v := .scalar "x") rfl (by decide)
    have hy : wrappedSum.graph.ExprAt (fun _ => True) ⟨11⟩ (.var "y") :=
      .var (v := .scalar "y") rfl (by decide)
    have hless : wrappedSum.graph.ExprAt (fun _ => True) ⟨8⟩ (.arith .sub (.var "x") (.const 1)) :=
      .arith rfl trivial hx (.const rfl)
    have hmore : wrappedSum.graph.ExprAt (fun _ => True) ⟨9⟩ (.arith .add (.var "x") (.const 3)) :=
      .arith rfl trivial hx (.const rfl)
    exact .cons (.assign (v := .scalar "x") rfl rfl rfl (.const rfl)) <|
      .cons (.assign (v := .scalar "x") rfl rfl rfl (.arith rfl trivial hx (.const rfl))) <|
      .cons (.print rfl) <|
      .cons (.assign (v := .scalar "y") rfl rfl rfl (.arith rfl trivial hless hmore)) <|
      .cons (.assign (v := .scalar "z") rfl rfl rfl hy) <| .cons (.print rfl) .nil
  have hassigned : PlainStatement.ReadsAssigned [] wrappedSumStatements := by decide +kernel
  obtain ⟨effs, stats, q, heffs, hcompile, -⟩ :=
    compile_straightLine hbuilt hunshared hplain hassigned
  have heffs' : PlainStatement.effects (fun _ => none) wrappedSumStatements =
      some [.assign "x" 9223372036854775807, .assign "x" (-9223372036854775808), .print "wrapped",
        .assign "y" (-3), .assign "z" (-3), .print "wrapped"] := by
    decide +kernel
  cases heffs.symm.trans heffs'
  exact ⟨hbuilt, hunshared, hplain, hassigned, stats, q, hcompile⟩

end Program

end RegisterBackend
