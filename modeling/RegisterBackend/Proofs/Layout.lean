import RegisterBackend.Proofs.LowerCommand
import RegisterBackend.Proofs.MachineSteps

/-!
# The layout of the code of a command

Lowering appends instructions and hands out registers in order. How many registers a piece of code
takes can be read off its text (`Expr.width`, `Command.width`), and so can the registers in which
the assignments leave their values (`Command.homes`): these are the places of the cells. An emitter
opens a program if the program begins with the code produced so far (`Emitter.Opens`); the
instructions of a finished program are found that way, and so are its labels
(`Bytecode.position?_of_at?`).

The lemmas `Expr.run_lower_arith`, `Command.run_lower_seq` and so on take the lowering of an
evaluable or of a command apart into the lowering of its parts.
-/

namespace RegisterBackend

/-! ## Positions of labels -/

/-- No label is repeated exactly if the labels are distinct and none was seen before. -/
theorem repeatedLabel?_eq_none : ∀ {seen ls : List Label},
    repeatedLabel? seen ls = none ↔ ls.Nodup ∧ ∀ l ∈ ls, l ∉ seen
  | seen, [] => by simp [repeatedLabel?]
  | seen, l :: ls => by
    have ih := @repeatedLabel?_eq_none (l :: seen) ls
    by_cases hl : l ∈ seen
    · simp [repeatedLabel?, hl]
    · simp only [repeatedLabel?, if_neg hl, ih, List.nodup_cons, List.mem_cons, not_or]
      constructor
      · rintro ⟨hnodup, hall⟩
        refine ⟨⟨fun hmem => (hall l hmem).1 rfl, hnodup⟩, ?_⟩
        rintro k (rfl | hk)
        · exact hl
        · exact (hall k hk).2
      · rintro ⟨⟨hnot, hnodup⟩, hall⟩
        refine ⟨hnodup, fun k hk => ⟨?_, hall k (.inr hk)⟩⟩
        rintro rfl
        exact hnot hk

namespace Bytecode

variable {code : Bytecode}

/-- Labels are consistent exactly if none is placed twice and every jump has a place to go. -/
theorem checkLabels_eq_ok : code.checkLabels = .ok () ↔
    code.labels.Nodup ∧ ∀ l ∈ code.jumpTargets, l ∈ code.labels := by
  have hdup : code.duplicateLabel? = none ↔ code.labels.Nodup := by
    simp [duplicateLabel?, repeatedLabel?_eq_none]
  have hunres : code.unresolvedLabel? = none ↔ ∀ l ∈ code.jumpTargets, l ∈ code.labels := by
    simp [unresolvedLabel?]
  rw [← hdup, ← hunres]
  unfold checkLabels
  cases code.duplicateLabel? <;> cases code.unresolvedLabel? <;> simp

/-- Code with consistent labels places no label twice. -/
theorem duplicateLabel?_eq_none (h : code.checkLabels = .ok ()) : code.duplicateLabel? = none := by
  simp [duplicateLabel?, repeatedLabel?_eq_none, (checkLabels_eq_ok.1 h).1]

/-- A label that is not placed twice is found where it is placed. -/
theorem position?_of_at? {l : Label} {k : Nat} (hdup : code.duplicateLabel? = none)
    (hat : code.at? k = some (.label l)) : code.position? l = some k := by
  obtain ⟨hk, hget⟩ := Array.getElem?_eq_some_iff.1 hat
  refine Array.findIdx?_eq_some_iff_getElem.2 ⟨hk, by simp [hget, Instruction.placedLabel?], ?_⟩
  intro j hj
  -- an earlier place of the label would be a second one
  have hnodup : code.labels.Nodup := by
    simpa [duplicateLabel?, repeatedLabel?_eq_none] using hdup
  have hsplit : code.instructions.toList = code.instructions.toList.take k ++
      .label l :: code.instructions.toList.drop (k + 1) := by
    rw [← hget, ← Array.getElem_toList, List.getElem_cons_drop, List.take_append_drop]
  rw [labels, hsplit, List.filterMap_append, List.filterMap_cons] at hnodup
  simp only [Instruction.placedLabel?] at hnodup
  have hnot := (List.nodup_append.1 hnodup).2.2
  simp only [decide_eq_true_eq]
  intro hplaced
  refine hnot l (List.mem_filterMap.2 ⟨code.instructions[j], ?_, hplaced⟩) l (by simp) rfl
  rw [List.mem_take_iff_getElem]
  exact ⟨j, by simp; omega, by simp⟩

end Bytecode

/-! ## Emitters and the programs they open -/

namespace Emitter

variable {e e₁ e₂ : Emitter} {code : Bytecode} {i : Instruction}

/-- The program begins with the code produced so far. -/
def Opens (e : Emitter) (code : Bytecode) : Prop :=
  ∃ rest, code.instructions = e.code ++ rest

/-- The code of one emitter begins with that of another. -/
def Extends (e₁ e : Emitter) : Prop :=
  ∃ rest, e₁.code = e.code ++ rest

theorem Extends.refl (e : Emitter) : e.Extends e :=
  ⟨#[], by simp⟩

/-- Code that is extended twice is extended. -/
theorem Extends.trans (h₂ : e₂.Extends e₁) (h₁ : e₁.Extends e) : e₂.Extends e := by
  obtain ⟨rest₂, h₂⟩ := h₂
  obtain ⟨rest₁, h₁⟩ := h₁
  exact ⟨rest₁ ++ rest₂, by rw [h₂, h₁, Array.append_assoc]⟩

/-- A program that begins with code begins with what that code begins with. -/
theorem Opens.of_extends (h : e₁.Opens code) (h₁ : e₁.Extends e) : e.Opens code := by
  obtain ⟨rest, h⟩ := h
  obtain ⟨rest₁, h₁⟩ := h₁
  exact ⟨rest₁ ++ rest, by rw [h, h₁, Array.append_assoc]⟩

/-- The emitter of a program opens it. -/
theorem opens_finish (e : Emitter) : e.Opens e.finish :=
  ⟨#[], by simp [finish]⟩

@[simp] theorem emit_registers : (e.emit i).registers = e.registers := rfl
@[simp] theorem emit_labels : (e.emit i).labels = e.labels := rfl
@[simp] theorem emit_bindings : (e.emit i).bindings = e.bindings := rfl
@[simp] theorem emit_size : (e.emit i).size = e.size + 1 := by simp [size, emit]

theorem extends_emit (e : Emitter) (i : Instruction) : (e.emit i).Extends e :=
  ⟨#[i], by simp [emit]⟩

/-- The next instruction stands where the code ended. -/
theorem Opens.at? (h : (e.emit i).Opens code) : code.at? e.size = some i := by
  obtain ⟨rest, h⟩ := h
  simp [Bytecode.at?, h, emit, size, Array.getElem?_append]

/-- The emitter after an instruction that writes a fresh register. -/
def define (e : Emitter) (f : Register → Instruction) : Emitter :=
  { (e.emit (f (.ofIndex e.registers))) with registers := e.registers + 1 }

variable {f : Register → Instruction}

@[simp] theorem define_registers : (e.define f).registers = e.registers + 1 := rfl
@[simp] theorem define_labels : (e.define f).labels = e.labels := rfl
@[simp] theorem define_bindings : (e.define f).bindings = e.bindings := rfl
@[simp] theorem define_size : (e.define f).size = e.size + 1 := by simp [size, define, emit]

theorem extends_define (e : Emitter) (f : Register → Instruction) : (e.define f).Extends e :=
  ⟨#[f (.ofIndex e.registers)], by simp [define, emit]⟩

/-- The instruction that writes a fresh register stands where the code ended. -/
theorem Opens.at?_define (h : (e.define f).Opens code) :
    code.at? e.size = some (f (.ofIndex e.registers)) := by
  obtain ⟨rest, h⟩ := h
  simp [Bytecode.at?, h, define, emit, size, Array.getElem?_append]

end Emitter

/-! ## Registers that a piece of code takes -/

/-- The number of registers that an evaluable takes. A name takes none: it is read where it is. -/
def Expr.width : Expr → Nat
  | .const _ => 1
  | .var _ => 0
  | .arith _ lhs rhs => lhs.width + rhs.width + 1

/-- The number of registers that an evaluable takes as the value of an assignment. -/
def Expr.valueWidth : Expr → Nat
  | .var _ => 1
  | e => e.width

/-- The number of registers that a comparison takes. -/
def Test.width (t : Test) : Nat :=
  t.lhs.width + t.rhs.width + 1

/-- The number of registers that a command takes. -/
def Command.width : Command → Nat
  | .skip | .print _ => 0
  | .seq first second => first.width + second.width
  | .assign _ value => value.valueWidth
  | .ifElse test thenBranch elseBranch => test.width + thenBranch.width + elseBranch.width
  | .whileLoop test body => test.width + body.width

/-- The numbers of the registers that hold the values of the assignments, in the order of the text,
if the given number of registers was handed out before. The value is in the last register that an
assignment takes. -/
def Command.homes : Command → Nat → List Nat
  | .skip, _ | .print _, _ => []
  | .seq first second, n => first.homes n ++ second.homes (n + first.width)
  | .assign _ value, n => [n + value.valueWidth - 1]
  | .ifElse test thenBranch elseBranch, n =>
    thenBranch.homes (n + test.width) ++ elseBranch.homes (n + test.width + thenBranch.width)
  | .whileLoop test body, n => body.homes (n + test.width)

/-- The value of an assignment is always in a register of its own. -/
theorem Expr.valueWidth_pos (e : Expr) : 0 < e.valueWidth := by
  cases e <;> simp [valueWidth, width]

namespace Command

/-- The values of the assignments are in registers of the command. -/
theorem mem_homes {c : Command} {n i : Nat} (h : i ∈ c.homes n) : n ≤ i ∧ i < n + c.width := by
  induction c generalizing n with
  | skip | print => simp [homes] at h
  | assign x e =>
    have := e.valueWidth_pos
    simp only [homes, List.mem_singleton] at h
    simp only [width]
    omega
  | seq a b iha ihb =>
    simp only [width]
    rcases List.mem_append.1 h with h | h
    · have := iha h
      omega
    · have := ihb h
      omega
  | ifElse t a b iha ihb =>
    simp only [width]
    rcases List.mem_append.1 h with h | h
    · have := iha h
      omega
    · have := ihb h
      omega
  | whileLoop t b ih =>
    have := ih h
    simp only [width]
    omega

/-- Later assignments have later registers. -/
theorem pairwise_homes (c : Command) (n : Nat) : (c.homes n).Pairwise (· < ·) := by
  induction c generalizing n with
  | skip | print => exact .nil
  | assign => exact List.pairwise_singleton _ _
  | seq a b iha ihb =>
    refine List.pairwise_append.2 ⟨iha n, ihb _, fun i hi j hj => ?_⟩
    have := (mem_homes hi).2
    have := (mem_homes hj).1
    omega
  | ifElse t a b iha ihb =>
    refine List.pairwise_append.2 ⟨iha _, ihb _, fun i hi j hj => ?_⟩
    have := (mem_homes hi).2
    have := (mem_homes hj).1
    omega
  | whileLoop t b ih => exact ih _

end Command

/-! ## Lowering, part by part -/

variable {e e' : Emitter} {r : Register}

namespace Expr

/-- A constant is set into a fresh register. -/
theorem run_lower_const {v : Int64} : (Expr.const v).lower.run e = .ok r e' ↔
    r = .ofIndex e.registers ∧ e' = e.define fun d => .set d (.literal v) := by
  show EStateM.Result.ok (Register.ofIndex e.registers)
    (e.define fun d => .set d (.literal v)) = _ ↔ _
  simp [eq_comm]

/-- A name is read where it is bound, without code. -/
theorem run_lower_var {x : String} : (Expr.var x).lower.run e = .ok r e' ↔
    e.bindings.lookup x = some r ∧ e' = e := by
  cases h : e.bindings.lookup x with
  | none =>
    simp only [lower, EStateM.run_bind, EStateM.run_get, h, reduceCtorEq, false_and, iff_false]
    intro hrun
    cases hrun
  | some q =>
    simp only [lower, EStateM.run_bind, EStateM.run_get, h, Option.some.injEq]
    simp [eq_comm]

/-- The code of an operation is that of its operands and an instruction that writes a fresh
register. -/
theorem run_lower_arith {op : ArithOp} {x y : Expr} : (Expr.arith op x y).lower.run e = .ok r e' ↔
    ∃ a e₁ b e₂, x.lower.run e = .ok a e₁ ∧ y.lower.run e₁ = .ok b e₂ ∧
      r = .ofIndex e₂.registers ∧ e' = e₂.define fun d => .arith op d a b := by
  simp only [lower, run_bind_eq_ok]
  constructor
  · rintro ⟨a, e₁, hx, b, e₂, hy, h⟩
    cases h
    exact ⟨a, e₁, b, e₂, hx, hy, rfl, rfl⟩
  · rintro ⟨a, e₁, b, e₂, hx, hy, rfl, rfl⟩
    exact ⟨a, e₁, hx, b, e₂, hy, rfl⟩

/-- The value of an assignment is a name, which is copied, or is computed. -/
theorem run_lowerValue {x : Expr} : x.lowerValue.run e = .ok r e' ↔
    (∃ y a, x = .var y ∧ e.bindings.lookup y = some a ∧ r = .ofIndex e.registers ∧
      e' = e.define fun d => .set d (.register a)) ∨
    (∀ y, x ≠ .var y) ∧ x.lower.run e = .ok r e' := by
  cases x with
  | const v => simp [lowerValue]
  | arith op x y => simp [lowerValue]
  | var y =>
    simp only [lowerValue, run_bind_eq_ok, run_lower_var]
    constructor
    · rintro ⟨a, _, ⟨ha, rfl⟩, h⟩
      cases h
      exact .inl ⟨y, a, rfl, ha, rfl, rfl⟩
    · rintro (⟨_, a, h, ha, rfl, rfl⟩ | ⟨h, -⟩)
      · cases h
        exact ⟨a, e, ⟨ha, rfl⟩, rfl⟩
      · exact absurd rfl (h y)

end Expr

/-- The code of a comparison is that of its operands and an instruction that writes a fresh
register. -/
theorem Test.run_lower {t : Test} : t.lower.run e = .ok r e' ↔
    ∃ a e₁ b e₂, t.lhs.lower.run e = .ok a e₁ ∧ t.rhs.lower.run e₁ = .ok b e₂ ∧
      r = .ofIndex e₂.registers ∧ e' = e₂.define fun d => .compare t.op d a b := by
  simp only [lower, run_bind_eq_ok]
  constructor
  · rintro ⟨a, e₁, hx, b, e₂, hy, h⟩
    cases h
    exact ⟨a, e₁, b, e₂, hx, hy, rfl, rfl⟩
  · rintro ⟨a, e₁, b, e₂, hx, hy, rfl, rfl⟩
    exact ⟨a, e₁, hx, b, e₂, hy, rfl⟩

namespace Command

theorem run_lower_skip : Command.skip.lower.run e = .ok () e' ↔ e' = e := by
  show EStateM.Result.ok () e = _ ↔ _
  simp [eq_comm]

/-- A line of output is one instruction. -/
theorem run_lower_print {text : String} : (Command.print text).lower.run e = .ok () e' ↔
    e' = e.emit (.print text) := by
  show EStateM.Result.ok () (e.emit (.print text)) = _ ↔ _
  simp [eq_comm]

/-- The code of two commands is that of the one and then that of the other. -/
theorem run_lower_seq {a b : Command} : (Command.seq a b).lower.run e = .ok () e' ↔
    ∃ e₁, a.lower.run e = .ok () e₁ ∧ b.lower.run e₁ = .ok () e' := by
  simp only [lower, run_bind_eq_ok]
  constructor
  · rintro ⟨_, e₁, ha, hb⟩
    exact ⟨e₁, ha, hb⟩
  · rintro ⟨e₁, ha, hb⟩
    exact ⟨(), e₁, ha, hb⟩

/-- After the code of its value, an assignment is a binding. -/
theorem run_lower_assign {x : String} {v : Expr} : (Command.assign x v).lower.run e = .ok () e' ↔
    ∃ q e₁, v.lowerValue.run e = .ok q e₁ ∧ e' = e₁.bind x q := by
  simp only [lower, run_bind_eq_ok]
  constructor
  · rintro ⟨q, e₁, hv, h⟩
    cases h
    exact ⟨q, e₁, hv, rfl⟩
  · rintro ⟨q, e₁, hv, rfl⟩
    exact ⟨q, e₁, hv, rfl⟩

/-- The code of a branch, as the emitters between its parts. -/
theorem run_lower_ifElse {t : Test} {a b : Command} :
    (Command.ifElse t a b).lower.run e = .ok () e' ↔
      ∃ cond e₀ e₁ e₂, t.lower.run e = .ok cond e₀ ∧ a.lower.run (e₀.beginThen cond) = .ok () e₁ ∧
        b.lower.run (e₀.beginElse e₁) = .ok () e₂ ∧ e₀.endIf e₁ e₂ = e' := by
  simp only [lower, run_bind_eq_ok, run_lowerIfElse_eq_ok]
  constructor
  · rintro ⟨cond, e₀, ht, e₁, e₂, h⟩
    exact ⟨cond, e₀, e₁, e₂, ht, h⟩
  · rintro ⟨cond, e₀, e₁, e₂, ht, h⟩
    exact ⟨cond, e₀, ht, e₁, e₂, h⟩

/-- The code of a loop, as the emitters between its parts. -/
theorem run_lower_whileLoop {t : Test} {b : Command} :
    (Command.whileLoop t b).lower.run e = .ok () e' ↔
      ∃ cond e₁ e₂, t.lower.run e.beginLoop = .ok cond e₁ ∧
        b.lower.run (e.beginBody e₁ cond) = .ok () e₂ ∧ e.endLoop e₁ e₂ = e' :=
  run_lowerWhile_eq_ok

end Command

/-! ## What lowering leaves behind -/

namespace Emitter

variable {e₁ e₂ : Emitter} {cond : Register} {w w₁ : Nat}

/-- Code was appended that takes `w` registers and changes nothing else. -/
structure Grows (e e₁ : Emitter) (w : Nat) : Prop where
  registers : e₁.registers = e.registers + w
  labels : e₁.labels = e.labels
  bindings : e₁.bindings = e.bindings
  code : e₁.Extends e

theorem Grows.refl (e : Emitter) : e.Grows e 0 :=
  ⟨rfl, rfl, rfl, .refl e⟩

theorem grows_define (e : Emitter) (f : Register → Instruction) : e.Grows (e.define f) 1 :=
  ⟨rfl, rfl, rfl, extends_define e f⟩

/-- The widths of two pieces of code add up. -/
theorem Grows.trans (h : e.Grows e₁ w) (h₁ : e₁.Grows e₂ w₁) : e.Grows e₂ (w + w₁) where
  registers := by rw [h₁.registers, h.registers, Nat.add_assoc]
  labels := h₁.labels.trans h.labels
  bindings := h₁.bindings.trans h.bindings
  code := h₁.code.trans h.code

@[simp] theorem closeBlock_registers {entry : Bindings} {homes : NameMap Register} :
    (e.closeBlock entry homes).2.registers = e.registers := rfl
@[simp] theorem closeBlock_labels {entry : Bindings} {homes : NameMap Register} :
    (e.closeBlock entry homes).2.labels = e.labels := rfl

theorem extends_closeBlock (e : Emitter) (entry : Bindings) (homes : NameMap Register) :
    (e.closeBlock entry homes).2.Extends e :=
  ⟨(e.bindings.exitBlock entry homes).1.copies.toArray, Array.ext' (by simp [closeBlock])⟩

@[simp] theorem beginThen_registers : (e.beginThen cond).registers = e.registers := rfl
@[simp] theorem beginThen_labels : (e.beginThen cond).labels = e.labels + 3 := rfl
@[simp] theorem beginThen_bindings : (e.beginThen cond).bindings = e.bindings := rfl
@[simp] theorem beginElse_registers : (e.beginElse e₁).registers = e₁.registers := rfl
@[simp] theorem beginElse_labels : (e.beginElse e₁).labels = e₁.labels := rfl
@[simp] theorem endIf_registers : (e.endIf e₁ e₂).registers = e₂.registers := rfl
@[simp] theorem endIf_labels : (e.endIf e₁ e₂).labels = e₂.labels := rfl
@[simp] theorem beginLoop_registers : e.beginLoop.registers = e.registers := rfl
@[simp] theorem beginLoop_labels : e.beginLoop.labels = e.labels + 2 := rfl
@[simp] theorem beginLoop_bindings : e.beginLoop.bindings = e.bindings := rfl
@[simp] theorem beginBody_registers : (e.beginBody e₁ cond).registers = e₁.registers := rfl
@[simp] theorem beginBody_labels : (e.beginBody e₁ cond).labels = e₁.labels := rfl
@[simp] theorem beginBody_bindings : (e.beginBody e₁ cond).bindings = e₁.bindings := rfl
@[simp] theorem endLoop_registers : (e.endLoop e₁ e₂).registers = e₂.registers := rfl
@[simp] theorem endLoop_labels : (e.endLoop e₁ e₂).labels = e₂.labels := rfl

theorem extends_beginThen (e : Emitter) (cond : Register) : (e.beginThen cond).Extends e :=
  (extends_emit _ _).trans ((extends_emit _ _).trans
    (extends_emit ({ e with labels := e.labels + 3 } : Emitter) _))

theorem extends_beginElse (e e₁ : Emitter) : (e.beginElse e₁).Extends e₁ :=
  (extends_emit _ _).trans ((extends_emit (e₁.closeBlock e.bindings ∅).2
    (.jump (.ofIndex (e.labels + 2)))).trans (extends_closeBlock e₁ _ _))

theorem extends_endIf (e e₁ e₂ : Emitter) : (e.endIf e₁ e₂).Extends e₂ :=
  (extends_emit _ (.label (.ofIndex (e.labels + 2)))).trans
    ((extends_emit _ _).trans (extends_closeBlock e₂ _ _))

theorem extends_beginLoop (e : Emitter) : e.beginLoop.Extends e :=
  extends_emit ({ e with labels := e.labels + 2 } : Emitter) _

theorem extends_beginBody (e e₁ : Emitter) (cond : Register) : (e.beginBody e₁ cond).Extends e₁ :=
  extends_emit _ _

theorem extends_endLoop (e e₁ e₂ : Emitter) : (e.endLoop e₁ e₂).Extends e₂ :=
  (extends_emit _ _).trans ((extends_emit _ _).trans (extends_closeBlock e₂ _ _))

/-! ## Where the jumps and the labels of branches and loops are -/

variable {code : Bytecode}

/-- A branch begins with the two jumps to its blocks and the label of the first one. -/
theorem Opens.beginThen (h : (e.beginThen cond).Opens code) :
    code.at? e.size = some (.branch true cond (.ofIndex e.labels)) ∧
      code.at? (e.size + 1) = some (.jump (.ofIndex (e.labels + 1))) ∧
      code.at? (e.size + 2) = some (.label (.ofIndex e.labels)) ∧
      (e.beginThen cond).size = e.size + 3 := by
  have h₂ := h.of_extends (extends_emit _ _)
  have h₁ := h₂.of_extends (extends_emit _ _)
  have hsize : ({ e with labels := e.labels + 3 } : Emitter).size = e.size := rfl
  refine ⟨?_, ?_, ?_, ?_⟩
  · simpa only [hsize] using h₁.at?
  · simpa only [emit_size, hsize] using h₂.at?
  · simpa only [emit_size, hsize] using h.at?
  · simp only [Emitter.beginThen, emit_size, hsize]

/-- Between the blocks of a branch there are the end of the first one, the jump behind the branch
and the label of the second block. -/
theorem Opens.beginElse (h : (e.beginElse e₁).Opens code) :
    (e₁.closeBlock e.bindings ∅).2.Opens code ∧
      code.at? (e₁.closeBlock e.bindings ∅).2.size = some (.jump (.ofIndex (e.labels + 2))) ∧
      code.at? ((e₁.closeBlock e.bindings ∅).2.size + 1) =
        some (.label (.ofIndex (e.labels + 1))) ∧
      (e.beginElse e₁).size = (e₁.closeBlock e.bindings ∅).2.size + 2 := by
  have h₁ : ((e₁.closeBlock e.bindings ∅).2.emit (.jump (.ofIndex (e.labels + 2)))).Opens code :=
    h.of_extends (extends_emit (((e₁.closeBlock e.bindings ∅).2.emit
      (.jump (.ofIndex (e.labels + 2)))).forget (e₁.closeBlock e.bindings ∅).1.keys) _)
  have hsize : (((e₁.closeBlock e.bindings ∅).2.emit (.jump (.ofIndex (e.labels + 2)))).forget
      (e₁.closeBlock e.bindings ∅).1.keys).size = (e₁.closeBlock e.bindings ∅).2.size + 1 :=
    emit_size
  refine ⟨h₁.of_extends (extends_emit _ _), h₁.at?, ?_, ?_⟩
  · rw [← hsize]
    exact h.at?
  · rw [Emitter.beginElse, emit_size, hsize]

/-- A branch ends with the end of its second block and its last label. -/
theorem Opens.endIf (h : (e.endIf e₁ e₂).Opens code) :
    (e₂.closeBlock e.bindings (e₁.closeBlock e.bindings ∅).1).2.Opens code ∧
      code.at? (e₂.closeBlock e.bindings (e₁.closeBlock e.bindings ∅).1).2.size =
        some (.jump (.ofIndex (e.labels + 2))) ∧
      code.at? ((e₂.closeBlock e.bindings (e₁.closeBlock e.bindings ∅).1).2.size + 1) =
        some (.label (.ofIndex (e.labels + 2))) ∧
      (e.endIf e₁ e₂).size =
        (e₂.closeBlock e.bindings (e₁.closeBlock e.bindings ∅).1).2.size + 2 := by
  have h₂ : (((e₂.closeBlock e.bindings (e₁.closeBlock e.bindings ∅).1).2.emit
      (.jump (.ofIndex (e.labels + 2)))).emit (.label (.ofIndex (e.labels + 2)))).Opens code := h
  have h₁ := h₂.of_extends (extends_emit _ _)
  have hsize : (e.endIf e₁ e₂).size = (((e₂.closeBlock e.bindings
      (e₁.closeBlock e.bindings ∅).1).2.emit (.jump (.ofIndex (e.labels + 2)))).emit
        (.label (.ofIndex (e.labels + 2)))).size := rfl
  refine ⟨h₁.of_extends (extends_emit _ _), h₁.at?, ?_, ?_⟩
  · simpa only [emit_size] using h₂.at?
  · rw [hsize, emit_size, emit_size]

/-- A loop begins with its first label. -/
theorem Opens.beginLoop (h : e.beginLoop.Opens code) :
    code.at? e.size = some (.label (.ofIndex e.labels)) ∧ e.beginLoop.size = e.size + 1 :=
  ⟨h.at?, emit_size⟩

/-- Behind the condition of a loop there is the jump behind the loop. -/
theorem Opens.beginBody (h : (e.beginBody e₁ cond).Opens code) :
    code.at? e₁.size = some (.branch false cond (.ofIndex (e.labels + 1))) ∧
      (e.beginBody e₁ cond).size = e₁.size + 1 :=
  ⟨h.at?, emit_size⟩

/-- A loop ends with the end of its body, the jump back and its last label. -/
theorem Opens.endLoop (h : (e.endLoop e₁ e₂).Opens code) :
    (e₂.closeBlock e₁.bindings ∅).2.Opens code ∧
      code.at? (e₂.closeBlock e₁.bindings ∅).2.size = some (.jump (.ofIndex e.labels)) ∧
      code.at? ((e₂.closeBlock e₁.bindings ∅).2.size + 1) =
        some (.label (.ofIndex (e.labels + 1))) ∧
      (e.endLoop e₁ e₂).size = (e₂.closeBlock e₁.bindings ∅).2.size + 2 := by
  have h₁ := h.of_extends (extends_emit _ _)
  refine ⟨h₁.of_extends (extends_emit _ _), h₁.at?, ?_, ?_⟩
  · simpa only [emit_size] using h.at?
  · rw [Emitter.endLoop, emit_size, emit_size]

end Emitter

/-- An evaluable takes the registers of its width. -/
theorem Expr.lower_grows : ∀ {x : Expr} {e e' : Emitter} {r : Register},
    x.lower.run e = .ok r e' → e.Grows e' x.width
  | .const v, e, e', r, h => by
    obtain ⟨-, rfl⟩ := run_lower_const.1 h
    exact e.grows_define _
  | .var x, e, e', r, h => by
    obtain ⟨-, rfl⟩ := run_lower_var.1 h
    exact .refl _
  | .arith op x y, e, e', r, h => by
    obtain ⟨a, e₁, b, e₂, hx, hy, -, rfl⟩ := run_lower_arith.1 h
    exact ((lower_grows hx).trans (lower_grows hy)).trans (e₂.grows_define _)

/-- An evaluable other than a name is in the last register that it takes. -/
theorem Expr.lower_register {x : Expr} (hx : ∀ y, x ≠ .var y) (h : x.lower.run e = .ok r e') :
    0 < x.width ∧ r = .ofIndex (e.registers + x.width - 1) := by
  cases x with
  | const v =>
    obtain ⟨rfl, -⟩ := run_lower_const.1 h
    exact ⟨Nat.one_pos, rfl⟩
  | var y => exact absurd rfl (hx y)
  | arith op x y =>
    obtain ⟨a, e₁, b, e₂, hx, hy, rfl, -⟩ := run_lower_arith.1 h
    have hg := (lower_grows hx).trans (lower_grows hy)
    exact ⟨Nat.succ_pos _, by rw [hg.registers]; rfl⟩

/-- The value of an assignment takes the registers of its width and is in the last of them. -/
theorem Expr.lowerValue_grows {x : Expr} (h : x.lowerValue.run e = .ok r e') :
    e.Grows e' x.valueWidth ∧ r = .ofIndex (e.registers + x.valueWidth - 1) := by
  rcases run_lowerValue.1 h with ⟨y, a, rfl, -, rfl, rfl⟩ | ⟨hx, h⟩
  · exact ⟨e.grows_define _, rfl⟩
  · have hw : x.valueWidth = x.width := by
      cases x with
      | var y => exact absurd rfl (hx y)
      | const | arith => rfl
    rw [hw]
    exact ⟨lower_grows h, (lower_register hx h).2⟩

/-- A comparison takes the registers of its width and is in the last of them. -/
theorem Test.lower_grows {t : Test} (h : t.lower.run e = .ok r e') :
    e.Grows e' t.width ∧ r = .ofIndex (e.registers + t.width - 1) := by
  obtain ⟨a, e₁, b, e₂, hx, hy, rfl, rfl⟩ := run_lower.1 h
  have hg := (Expr.lower_grows hx).trans (Expr.lower_grows hy)
  exact ⟨hg.trans (e₂.grows_define _), by rw [hg.registers]; rfl⟩

/-- A command takes the registers of its width. -/
theorem Command.lower_grows : ∀ {c : Command} {e e' : Emitter}, c.lower.run e = .ok () e' →
    e'.registers = e.registers + c.width ∧ e'.Extends e
  | .skip, e, e', h => by
    cases run_lower_skip.1 h
    exact ⟨rfl, .refl e⟩
  | .print text, e, e', h => by
    cases run_lower_print.1 h
    exact ⟨rfl, e.extends_emit _⟩
  | .assign x v, e, e', h => by
    obtain ⟨q, e₁, hv, rfl⟩ := run_lower_assign.1 h
    have hg := (Expr.lowerValue_grows hv).1
    exact ⟨hg.registers, hg.code⟩
  | .seq a b, e, e', h => by
    obtain ⟨e₁, ha, hb⟩ := run_lower_seq.1 h
    obtain ⟨hra, hca⟩ := lower_grows ha
    obtain ⟨hrb, hcb⟩ := lower_grows hb
    exact ⟨by rw [hrb, hra, width, Nat.add_assoc], hcb.trans hca⟩
  | .ifElse t a b, e, e', h => by
    obtain ⟨cond, e₀, e₁, e₂, ht, ha, hb, rfl⟩ := run_lower_ifElse.1 h
    have hg := (Test.lower_grows ht).1
    obtain ⟨hra, hca⟩ := lower_grows ha
    obtain ⟨hrb, hcb⟩ := lower_grows hb
    refine ⟨?_, ?_⟩
    · simp only [Emitter.endIf_registers, hrb, Emitter.beginElse_registers, hra,
        Emitter.beginThen_registers, hg.registers, width]
      omega
    · exact (e₀.extends_endIf e₁ e₂).trans (hcb.trans ((e₀.extends_beginElse e₁).trans
        (hca.trans ((e₀.extends_beginThen cond).trans hg.code))))
  | .whileLoop t b, e, e', h => by
    obtain ⟨cond, e₁, e₂, ht, hb, rfl⟩ := run_lower_whileLoop.1 h
    have hg := (Test.lower_grows ht).1
    obtain ⟨hrb, hcb⟩ := lower_grows hb
    refine ⟨?_, ?_⟩
    · simp only [Emitter.endLoop_registers, hrb, Emitter.beginBody_registers, hg.registers,
        Emitter.beginLoop_registers, width]
      omega
    · exact (e.extends_endLoop e₁ e₂).trans (hcb.trans ((e.extends_beginBody e₁ cond).trans
        (hg.code.trans e.extends_beginLoop)))

end RegisterBackend
