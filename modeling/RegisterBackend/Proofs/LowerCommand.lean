import RegisterBackend.Lowering.Basic
import RegisterBackend.Proofs.Command
import RegisterBackend.Proofs.Sequencing

/-!
# Lowering of commands

Lowering follows the references of a graph and does not change it, so the code it produces is
determined by the tree that the graph unfolds to. `Expr.lower`, `Test.lower` and `Command.lower` are
the same steps on trees. `Graph.lowerStatement_eq` says that the two agree wherever a graph has a
tree, and `Graph.exists_command?` that a statement which can be lowered has one. Together they give
`Program.lower_eq_ok`: a program that can be lowered is a command that can.

The code of a branch and of a loop is laid out around the code of their parts. `Emitter.beginThen`,
`Emitter.beginElse` and `Emitter.endIf` are the emitter before, between and behind the two blocks of
a branch, `Emitter.beginLoop`, `Emitter.beginBody` and `Emitter.endLoop` those of a loop.
-/

namespace RegisterBackend

open LowerM

/-- Computes an evaluable and returns the register of its value. -/
def Expr.lower : Expr → LowerM Register
  | .const value => modifyGet (·.load value)
  | .var name => do
    match (← get).bindings.lookup name with
    | some r => return r
    | none => reject (.unresolvedSymbol name)
  | .arith op lhs rhs => do
    let left ← lhs.lower
    let right ← rhs.lower
    modifyGet (·.arith op left right)

/-- Computes the value of an assignment into a register of its own. -/
def Expr.lowerValue (e : Expr) : LowerM Register := do
  match e with
  | .var _ =>
    let src ← e.lower
    modifyGet (·.copy src)
  | _ => e.lower

/-- Computes a comparison and returns the register of its result. -/
def Test.lower (t : Test) : LowerM Register := do
  let left ← t.lhs.lower
  let right ← t.rhs.lower
  modifyGet (·.compare t.op left right)

/-- Produces the code of a command. -/
def Command.lower : Command → LowerM Unit
  | .skip => pure ()
  | .seq first second => do
    first.lower
    second.lower
  | .assign name value => do
    let r ← value.lowerValue
    modify (·.bind name r)
  | .ifElse test thenBranch elseBranch => do
    let cond ← test.lower
    Graph.lowerIfElse cond thenBranch.lower elseBranch.lower
  | .whileLoop test body => Graph.lowerWhile test.lower body.lower
  | .print text => emit (.print text)

/-! ## The layout of branches and loops -/

/-- The label with a number. -/
def Label.ofIndex (n : Nat) : Label :=
  ⟨UInt32.ofNat n⟩

/-- The register with a number. -/
def Register.ofIndex (n : Nat) : Register :=
  ⟨UInt32.ofNat n⟩

/-- Numbers below the limit have different words. -/
theorem eq_of_ofNat_eq {i j : Nat} (hi : i < UInt32.size) (hj : j < UInt32.size)
    (h : UInt32.ofNat i = UInt32.ofNat j) : i = j := by
  have hnat := congrArg UInt32.toNat h
  rwa [UInt32.toNat_ofNat_of_lt' hi, UInt32.toNat_ofNat_of_lt' hj] at hnat

/-- Numbers below the limit name different labels. -/
theorem Label.ofIndex_inj {i j : Nat} (hi : i < UInt32.size) (hj : j < UInt32.size)
    (h : ofIndex i = ofIndex j) : i = j := by
  injection h with h
  exact eq_of_ofNat_eq hi hj h

/-- Numbers below the limit name different registers. -/
theorem Register.ofIndex_inj {i j : Nat} (hi : i < UInt32.size) (hj : j < UInt32.size)
    (h : ofIndex i = ofIndex j) : i = j := by
  injection h with h
  exact eq_of_ofNat_eq hi hj h

namespace Emitter

/-- The emitter where the first block of a branch begins. -/
def beginThen (e : Emitter) (cond : Register) : Emitter :=
  ((({ e with labels := e.labels + 3 } : Emitter).emit
    (.branch true cond (.ofIndex e.labels))).emit (.jump (.ofIndex (e.labels + 1)))).emit
      (.label (.ofIndex e.labels))

/-- The emitter where the second block of a branch begins, if the first one ended with `e₁`. -/
def beginElse (e e₁ : Emitter) : Emitter :=
  (((e₁.closeBlock e.bindings ∅).2.emit (.jump (.ofIndex (e.labels + 2)))).forget
    (e₁.closeBlock e.bindings ∅).1.keys).emit (.label (.ofIndex (e.labels + 1)))

/-- The emitter behind a branch whose blocks ended with `e₁` and `e₂`. -/
def endIf (e e₁ e₂ : Emitter) : Emitter :=
  (((e₂.closeBlock e.bindings (e₁.closeBlock e.bindings ∅).1).2.emit
    (.jump (.ofIndex (e.labels + 2)))).emit (.label (.ofIndex (e.labels + 2)))).adopt
      (e₁.closeBlock e.bindings ∅).1

/-- The emitter where the condition of a loop begins. -/
def beginLoop (e : Emitter) : Emitter :=
  ({ e with labels := e.labels + 2 } : Emitter).emit (.label (.ofIndex e.labels))

/-- The emitter where the body of a loop begins, if the condition ended with `e₁`. -/
def beginBody (e e₁ : Emitter) (cond : Register) : Emitter :=
  e₁.emit (.branch false cond (.ofIndex (e.labels + 1)))

/-- The emitter behind a loop whose condition and body ended with `e₁` and `e₂`. -/
def endLoop (e e₁ e₂ : Emitter) : Emitter :=
  ((e₂.closeBlock e₁.bindings ∅).2.emit (.jump (.ofIndex e.labels))).emit
    (.label (.ofIndex (e.labels + 1)))

end Emitter

/-- The end of a branch, behind its second block. -/
def LowerM.closeElse (entry : Bindings) (done : Label) (introduced : NameMap Register) :
    LowerM Unit := do
  discard (closeBlock entry introduced)
  emit (.jump done)
  emit (.label done)
  modify (·.adopt introduced)

/-- The middle and the end of a branch, behind its first block. -/
def LowerM.closeThen (entry : Bindings) (otherwise done : Label) (elseBlock : LowerM Unit) :
    LowerM Unit := do
  let introduced ← closeBlock entry ∅
  emit (.jump done)
  modify (·.forget introduced.keys)
  emit (.label otherwise)
  elseBlock
  closeElse entry done introduced

/-- The end of a loop, behind its body. -/
def LowerM.closeBody (entry : Bindings) (start done : Label) : LowerM Unit := do
  discard (closeBlock entry ∅)
  emit (.jump start)
  emit (.label done)

/-- The body of a loop, behind its condition, and its end. -/
def LowerM.enterBody (cond : Register) (start done : Label) (body : LowerM Unit) : LowerM Unit := do
  emit (.branch false cond done)
  let entry := (← get).bindings
  body
  closeBody entry start done

section Layout

variable {cond : Register} {a b : LowerM Unit} {test : LowerM Register} {e e₁ e' : Emitter}
  {err : Stop CompileError}

theorem run_lowerIfElse : (Graph.lowerIfElse cond a b).run e =
    (a >>= fun _ => closeThen e.bindings (.ofIndex (e.labels + 1)) (.ofIndex (e.labels + 2)) b).run
      (e.beginThen cond) := rfl

/-- Behind the first block of a branch, lowering goes on with the second one. -/
theorem run_closeThen :
    (closeThen e.bindings (.ofIndex (e.labels + 1)) (.ofIndex (e.labels + 2)) b).run e₁ =
      (b >>= fun _ => closeElse e.bindings (.ofIndex (e.labels + 2))
        (e₁.closeBlock e.bindings ∅).1).run (e.beginElse e₁) := rfl

theorem run_lowerWhile : (Graph.lowerWhile test b).run e =
    (test >>= fun cond => enterBody cond (.ofIndex e.labels) (.ofIndex (e.labels + 1)) b).run
      e.beginLoop := rfl

theorem run_enterBody : (enterBody cond (.ofIndex e.labels) (.ofIndex (e.labels + 1)) b).run e₁ =
    (b >>= fun _ => closeBody e₁.bindings (.ofIndex e.labels) (.ofIndex (e.labels + 1))).run
      (e.beginBody e₁ cond) := rfl

/-- A branch is lowered exactly if its blocks are, each from where the layout puts it. -/
theorem run_lowerIfElse_eq_ok :
    (Graph.lowerIfElse cond a b).run e = .ok () e' ↔
      ∃ e₁ e₂, a.run (e.beginThen cond) = .ok () e₁ ∧ b.run (e.beginElse e₁) = .ok () e₂ ∧
        e.endIf e₁ e₂ = e' := by
  rw [run_lowerIfElse, run_bind_eq_ok]
  constructor
  · rintro ⟨_, e₁, h₁, h⟩
    rw [run_closeThen, run_bind_eq_ok] at h
    obtain ⟨_, e₂, h₂, h⟩ := h
    injection h with _ h
    exact ⟨e₁, e₂, h₁, h₂, h⟩
  · rintro ⟨e₁, e₂, h₁, h₂, rfl⟩
    refine ⟨(), e₁, h₁, ?_⟩
    rw [run_closeThen, run_bind_ok h₂]
    rfl

/-- Lowering of a branch stops where that of one of its blocks does. -/
theorem run_lowerIfElse_eq_error (h : (Graph.lowerIfElse cond a b).run e = .error err e') :
    a.run (e.beginThen cond) = .error err e' ∨
      ∃ e₁, a.run (e.beginThen cond) = .ok () e₁ ∧ b.run (e.beginElse e₁) = .error err e' := by
  rw [run_lowerIfElse] at h
  rcases run_bind_eq_error.1 h with ha | ⟨_, e₁, ha, h⟩
  · exact .inl ha
  · rw [run_closeThen] at h
    rcases run_bind_eq_error.1 h with hb | ⟨_, e₂, -, h⟩
    · exact .inr ⟨e₁, ha, hb⟩
    · cases h

/-- A loop is lowered exactly if its condition and its body are, each from where the layout puts
it. -/
theorem run_lowerWhile_eq_ok :
    (Graph.lowerWhile test b).run e = .ok () e' ↔
      ∃ cond e₁ e₂, test.run e.beginLoop = .ok cond e₁ ∧
        b.run (e.beginBody e₁ cond) = .ok () e₂ ∧ e.endLoop e₁ e₂ = e' := by
  rw [run_lowerWhile, run_bind_eq_ok]
  constructor
  · rintro ⟨cond, e₁, h₁, h⟩
    rw [run_enterBody, run_bind_eq_ok] at h
    obtain ⟨_, e₂, h₂, h⟩ := h
    injection h with _ h
    exact ⟨cond, e₁, e₂, h₁, h₂, h⟩
  · rintro ⟨cond, e₁, e₂, h₁, h₂, rfl⟩
    refine ⟨cond, e₁, h₁, ?_⟩
    rw [run_enterBody, run_bind_ok h₂]
    rfl

/-- Lowering of a loop stops where that of its condition or of its body does. -/
theorem run_lowerWhile_eq_error (h : (Graph.lowerWhile test b).run e = .error err e') :
    test.run e.beginLoop = .error err e' ∨
      ∃ cond e₁, test.run e.beginLoop = .ok cond e₁ ∧
        b.run (e.beginBody e₁ cond) = .error err e' := by
  rw [run_lowerWhile] at h
  rcases run_bind_eq_error.1 h with ha | ⟨cond, e₁, ha, h⟩
  · exact .inl ha
  · rw [run_enterBody] at h
    rcases run_bind_eq_error.1 h with hb | ⟨_, e₂, -, h⟩
    · exact .inr ⟨cond, e₁, ha, hb⟩
    · cases h

end Layout

namespace Graph

variable {g : Graph}

/-! ## Trees have the code of their nodes -/

/-- A node of the graph is found. -/
theorem nodeAt_eq {id : NodeId} {node : Node} (h : g.node? id = some node) :
    nodeAt g id = pure node := by
  simp only [nodeAt, h]

/-- An evaluable is lowered as its tree. -/
theorem lowerExpr_eq : ∀ {depth : Nat} {id : NodeId} {e : Expr}, g.expr? depth id = some e →
    g.lowerExpr depth id = e.lower
  | 0, _, _, h => by simp [expr?] at h
  | depth + 1, id, e, h => by
    simp only [expr?] at h
    split at h
    next value hnode =>
      cases h
      simp [lowerExpr, nodeAt_eq hnode, Expr.lower]
    next var hnode =>
      split at h
      · cases h
      · next hkind =>
        cases h
        simp only [lowerExpr, nodeAt_eq hnode, pure_bind, if_neg hkind]
        rfl
    next op lhs rhs hnode =>
      split at h
      next left right hl hr =>
        cases h
        simp [lowerExpr, nodeAt_eq hnode, Expr.lower, lowerExpr_eq hl, lowerExpr_eq hr]
      next => cases h
    next => cases h

/-- A comparison is lowered as its tree. -/
theorem lowerCondition_eq {depth : Nat} {id : NodeId} {t : Test} (h : g.test? depth id = some t) :
    g.lowerCondition depth id = t.lower := by
  simp only [test?] at h
  split at h
  next op lhs rhs hnode =>
    split at h
    next left right hl hr =>
      cases h
      simp [lowerCondition, nodeAt_eq hnode, Test.lower, lowerExpr_eq hl, lowerExpr_eq hr]
    next => cases h
  next => cases h

/-- The value of an assignment is lowered as its tree: the two forms of value are told apart in the
graph as in the tree. -/
theorem lowerValue_eq {depth : Nat} {id : NodeId} {e : Expr} (h : g.expr? depth id = some e) :
    g.lowerValue depth id = e.lowerValue := by
  have he := lowerExpr_eq h
  cases depth with
  | zero => simp [expr?] at h
  | succ depth =>
    simp only [expr?] at h
    split at h
    next value hnode =>
      cases h
      simp [lowerValue, nodeAt_eq hnode, Expr.lowerValue, he]
    next var hnode =>
      split at h
      · cases h
      · cases h
        simp [lowerValue, nodeAt_eq hnode, Expr.lowerValue, he]
    next op lhs rhs hnode =>
      split at h
      · cases h
        simp [lowerValue, nodeAt_eq hnode, Expr.lowerValue, he]
      · cases h
    next => cases h

/-- The target of an assignment is the variable of that name. -/
theorem lowerTarget_eq {id : NodeId} {name : String} (h : g.target? id = some name) :
    ∃ var : Variable, var.name = name ∧ g.lowerTarget id = pure var := by
  simp only [target?] at h
  split at h
  next var hnode =>
    split at h
    · cases h
    · next hkind =>
      cases h
      exact ⟨var, rfl, by simp [lowerTarget, nodeAt_eq hnode, hkind]⟩
  next => cases h

/-- A block is lowered as its tree, if its statements are. -/
theorem forM_eq_of_block? {read : NodeId → Option Command} {lower : NodeId → LowerM Unit}
    (hread : ∀ id c, read id = some c → lower id = c.lower) :
    ∀ {ids : List NodeId} {c : Command}, block? read ids = some c → ids.forM lower = c.lower
  | [], c, h => by
    cases h
    rfl
  | id :: ids, c, h => by
    simp only [block?] at h
    split at h
    next first rest hfirst hrest =>
      cases h
      show (lower id >>= fun _ => ids.forM lower) = _
      rw [hread id first hfirst, forM_eq_of_block? hread hrest]
      rfl
    next => cases h

/-- A statement is lowered as its tree. -/
theorem lowerStatement_eq : ∀ {depth : Nat} {id : NodeId} {c : Command},
    g.command? depth id = some c → g.lowerStatement depth id = c.lower
  | 0, _, _, h => by simp [command?] at h
  | depth + 1, id, c, h => by
    have ih : ∀ id c, g.command? depth id = some c → g.lowerStatement depth id = c.lower :=
      fun _ _ => lowerStatement_eq
    simp only [command?] at h
    split at h
    next target value hnode =>
      split at h
      next name e htarget hvalue =>
        cases h
        obtain ⟨var, rfl, hvar⟩ := lowerTarget_eq htarget
        simp [lowerStatement, nodeAt_eq hnode, hvar, lowerValue_eq hvalue, Command.lower]
      next => cases h
    next condition thenBlock elseBlock hnode =>
      split at h
      next test a b htest ha hb =>
        cases h
        simp only [lowerStatement, nodeAt_eq hnode, pure_bind, lowerCondition_eq htest,
          forM_eq_of_block? ih ha, forM_eq_of_block? ih hb, Command.lower]
      next => cases h
    next condition body hnode =>
      split at h
      next test b htest hb =>
        cases h
        simp only [lowerStatement, nodeAt_eq hnode, pure_bind, lowerCondition_eq htest,
          forM_eq_of_block? ih hb, Command.lower]
      next => cases h
    next hnode =>
      cases h
      simp [lowerStatement, nodeAt_eq hnode, Command.lower]
    next text hnode =>
      cases h
      simp [lowerStatement, nodeAt_eq hnode, Command.lower]
    next => cases h

/-! ## What can be lowered has a tree -/

/-- An evaluable that can be lowered has a tree. -/
theorem exists_expr? : ∀ {depth : Nat} {id : NodeId} {e e' : Emitter} {r : Register},
    (g.lowerExpr depth id).run e = .ok r e' → ∃ tree, g.expr? depth id = some tree
  | 0, _, _, _, _, h => by cases h
  | depth + 1, id, e, e', r, h => by
    cases hnode : g.node? id with
    | none =>
      simp only [lowerExpr, nodeAt, hnode] at h
      cases h
    | some node =>
      simp only [lowerExpr, nodeAt_eq hnode, pure_bind] at h
      cases node with
      | constant value =>
        cases value with
        | scalar value => exact ⟨.const value, by simp [expr?, hnode]⟩
        | array elements => cases h
      | var var =>
        by_cases hkind : var.kind = .array
        · simp only [if_pos hkind] at h
          cases h
        · exact ⟨.var var.name, by simp [expr?, hnode, hkind]⟩
      | arithmetic op lhs rhs =>
        simp only [run_bind_eq_ok] at h
        obtain ⟨_, _, hl, _, _, hr, _⟩ := h
        obtain ⟨left, hleft⟩ := exists_expr? hl
        obtain ⟨right, hright⟩ := exists_expr? hr
        exact ⟨.arith op left right, by simp [expr?, hnode, hleft, hright]⟩
      | _ => cases h

/-- A comparison that can be lowered has a tree. -/
theorem exists_test? {depth : Nat} {id : NodeId} {e e' : Emitter} {r : Register}
    (h : (g.lowerCondition depth id).run e = .ok r e') : ∃ tree, g.test? depth id = some tree := by
  cases hnode : g.node? id with
  | none =>
    simp only [lowerCondition, nodeAt, hnode] at h
    cases h
  | some node =>
    simp only [lowerCondition, nodeAt_eq hnode, pure_bind] at h
    cases node with
    | comparison op lhs rhs =>
      simp only [run_bind_eq_ok] at h
      obtain ⟨_, _, hl, _, _, hr, _⟩ := h
      obtain ⟨left, hleft⟩ := exists_expr? hl
      obtain ⟨right, hright⟩ := exists_expr? hr
      exact ⟨⟨op, left, right⟩, by simp [test?, hnode, hleft, hright]⟩
    | _ => cases h

/-- A target that can be lowered is a scalar variable. -/
theorem exists_target? {id : NodeId} {e e' : Emitter} {var : Variable}
    (h : (g.lowerTarget id).run e = .ok var e') : ∃ name, g.target? id = some name := by
  cases hnode : g.node? id with
  | none =>
    simp only [lowerTarget, nodeAt, hnode] at h
    cases h
  | some node =>
    simp only [lowerTarget, nodeAt_eq hnode, pure_bind] at h
    cases node with
    | var var =>
      by_cases hkind : var.kind = .array
      · simp only [if_pos hkind] at h
        cases h
      · exact ⟨var.name, by simp [target?, hnode, hkind]⟩
    | _ => cases h

/-- The value of an assignment that can be lowered has a tree. -/
theorem exists_expr?_of_lowerValue {depth : Nat} {id : NodeId} {e e' : Emitter} {r : Register}
    (h : (g.lowerValue depth id).run e = .ok r e') : ∃ tree, g.expr? depth id = some tree := by
  cases hnode : g.node? id with
  | none =>
    simp only [lowerValue, nodeAt, hnode] at h
    cases h
  | some node =>
    simp only [lowerValue, nodeAt_eq hnode, pure_bind] at h
    cases node with
    | var var =>
      rw [run_bind_eq_ok] at h
      obtain ⟨_, _, h, _⟩ := h
      exact exists_expr? h
    | _ => exact exists_expr? h

/-- A block that can be lowered has a tree, if this holds of its statements. -/
theorem exists_block? {read : NodeId → Option Command} {lower : NodeId → LowerM Unit}
    (hread : ∀ id e e', (lower id).run e = .ok () e' → ∃ c, read id = some c) :
    ∀ {ids : List NodeId} {e e' : Emitter}, (ids.forM lower).run e = .ok () e' →
      ∃ c, block? read ids = some c
  | [], _, _, _ => ⟨.skip, rfl⟩
  | id :: ids, e, e', h => by
    obtain ⟨u, h₁, h₂⟩ := run_forM_cons_eq_ok.1 h
    obtain ⟨first, hfirst⟩ := hread id e u h₁
    obtain ⟨rest, hrest⟩ := exists_block? hread h₂
    exact ⟨.seq first rest, by simp [block?, hfirst, hrest]⟩

/-- A statement that can be lowered has a tree. -/
theorem exists_command? : ∀ {depth : Nat} {id : NodeId} {e e' : Emitter},
    (g.lowerStatement depth id).run e = .ok () e' → ∃ c, g.command? depth id = some c
  | 0, _, _, _, h => by cases h
  | depth + 1, id, e, e', h => by
    have ih : ∀ id e e', (g.lowerStatement depth id).run e = .ok () e' →
        ∃ c, g.command? depth id = some c := fun _ _ _ => exists_command?
    cases hnode : g.node? id with
    | none =>
      simp only [lowerStatement, nodeAt, hnode] at h
      cases h
    | some node =>
      simp only [lowerStatement, nodeAt_eq hnode, pure_bind] at h
      cases node with
      | assign target value =>
        simp only [run_bind_eq_ok] at h
        obtain ⟨_, _, htarget, _, _, hvalue, _⟩ := h
        obtain ⟨name, hname⟩ := exists_target? htarget
        obtain ⟨tree, htree⟩ := exists_expr?_of_lowerValue hvalue
        exact ⟨.assign name tree, by simp [command?, hnode, hname, htree]⟩
      | ifElse condition thenBlock elseBlock =>
        rw [run_bind_eq_ok] at h
        obtain ⟨_, _, hcond, h⟩ := h
        obtain ⟨_, _, ha, hb, -⟩ := run_lowerIfElse_eq_ok.1 h
        obtain ⟨test, htest⟩ := exists_test? hcond
        obtain ⟨a, ha⟩ := exists_block? ih ha
        obtain ⟨b, hb⟩ := exists_block? ih hb
        exact ⟨.ifElse test a b, by simp [command?, hnode, htest, ha, hb]⟩
      | whileLoop condition body =>
        obtain ⟨_, _, _, hcond, hb, -⟩ := run_lowerWhile_eq_ok.1 h
        obtain ⟨test, htest⟩ := exists_test? hcond
        obtain ⟨b, hb⟩ := exists_block? ih hb
        exact ⟨.whileLoop test b, by simp [command?, hnode, htest, hb]⟩
      | functionDef name params body returns => exact ⟨.skip, by simp [command?, hnode]⟩
      | debug text => exact ⟨.print text, by simp [command?, hnode]⟩
      | _ => cases h

end Graph

/-! ## Programs -/

namespace Program

variable {p : Program}

/-- The emitter when lowering of a program ended, whether it succeeded or not. -/
def emitted (p : Program) : Emitter :=
  match p.lowerBody.run .empty with
  | .ok _ e => e
  | .error _ e => e

/-- The numbers of registers and labels do not overflow when the program is lowered. -/
def Small (p : Program) : Prop :=
  p.emitted.registers < UInt32.size ∧ p.emitted.labels < UInt32.size

instance (p : Program) : Decidable p.Small :=
  inferInstanceAs (Decidable (_ ∧ _))

/-- The body of a program is lowered as its tree. -/
theorem lowerBody_eq {c : Command} (h : p.command? = some c) : p.lowerBody = c.lower :=
  Graph.forM_eq_of_block? (fun _ _ => Graph.lowerStatement_eq) h

/-- A program whose body can be lowered is a command that can. -/
theorem lowerBody_eq_ok {e e' : Emitter} (h : p.lowerBody.run e = .ok () e') :
    ∃ c, p.command? = some c ∧ c.lower.run e = .ok () e' := by
  obtain ⟨c, hc⟩ := Graph.exists_block? (fun _ _ _ => Graph.exists_command?) h
  exact ⟨c, hc, by rw [← lowerBody_eq hc, h]⟩

/-- A program that can be lowered is a command that can, and the labels of its code are
consistent. -/
theorem lower_eq_ok {code : Bytecode} (h : p.lower = .ok code) :
    ∃ c, p.command? = some c ∧ c.lower.run .empty = .ok () p.emitted ∧ code = p.emitted.finish ∧
      code.checkLabels = .ok () := by
  unfold lower at h
  cases hrun : p.lowerBody.run .empty with
  | error err e => simp [hrun] at h
  | ok u e =>
    obtain ⟨c, hc, hlower⟩ := lowerBody_eq_ok hrun
    have hemitted : p.emitted = e := by simp [emitted, hrun]
    simp only [hrun] at h
    split at h
    next hlabels =>
      cases h
      exact ⟨c, hc, by rw [hlower, hemitted], by rw [hemitted], hlabels⟩
    next => cases h

end Program

end RegisterBackend
