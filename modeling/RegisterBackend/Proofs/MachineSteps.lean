import RegisterBackend.Machine.Basic
import RegisterBackend.Proofs.Sequencing

/-!
# Runs of the machine, step by step

`Steps code sink n r r'` says that the next `n` instructions lead from the run `r` to the run `r'`.
There is one lemma per instruction that says what it does, with the successor of a run written out
(`Run.proceed`, `Run.print`), and `Blocked` says of a run that its next instruction reads an empty
register.

A run without a ceiling ends as it does under every ceiling that is high enough, and has no result
if it is cut off at every ceiling (`Run.toEnd_of_runFor`, `Run.toEnd_eq_none`). So there are three
things that can become of it. `Bytecode.CompletesWith`, `Bytecode.FailsWith` and
`Bytecode.RunsForever` say this of a program, with the state in which the sink is left, in terms of
ceilings; that they say the same of the run without a ceiling is `Bytecode.completesWith_iff_run`
and the two lemmas behind it. The rest of the last section reads off from the steps of a run which
of the three is the case: a run that leaves the program completes
(`Bytecode.completesWith_iff_of_end`), one that is blocked fails
(`Bytecode.failsWith_iff_of_blocked`), and one that can make any number of steps goes on forever
(`Bytecode.runsForever_of_steps`).
-/

namespace RegisterBackend

variable {σ : Type} {code : Bytecode} {sink : Sink σ}

/-! ## Sinks that take everything -/

/-- The sink takes every sequence of texts, when it is in the given state. -/
def Sink.Accepts (sink : Sink σ) (s : σ) : Prop :=
  ∀ texts : List String, ∃ s', (texts.forM sink.write).run s = .ok ⟨⟩ s'

/-- The state of the sink after an attempt to write a line. -/
def Sink.line (sink : Sink σ) (s : σ) (text : String) : σ :=
  match (sink.writeLine text).run s with
  | .ok _ s' => s'
  | .error _ s' => s'

/-- The state of the sink after attempts to write lines. -/
def Sink.lines (sink : Sink σ) (s : σ) (texts : List String) : σ :=
  texts.foldl sink.line s

/-- The last line is written behind the others. -/
theorem Sink.lines_concat (sink : Sink σ) (s : σ) (texts : List String) (text : String) :
    sink.lines s (texts ++ [text]) = sink.line (sink.lines s texts) text := by
  simp [lines]

namespace Sink.Accepts

variable {s : σ}

/-- A sink that takes everything takes a text and everything after it. -/
theorem run_write (h : sink.Accepts s) (text : String) :
    ∃ s', (sink.write text).run s = .ok () s' ∧ sink.Accepts s' := by
  obtain ⟨_, hfirst⟩ := h [text]
  obtain ⟨s', hwrite, -⟩ := run_forM_cons_eq_ok.1 hfirst
  refine ⟨s', hwrite, fun texts => ?_⟩
  obtain ⟨s₂, hall⟩ := h (text :: texts)
  obtain ⟨s₁, hwrite₁, hrest⟩ := run_forM_cons_eq_ok.1 hall
  rw [hwrite] at hwrite₁
  cases hwrite₁
  exact ⟨s₂, hrest⟩

/-- A sink that takes everything takes a line and everything after it. -/
theorem run_writeLine (h : sink.Accepts s) (text : String) :
    (sink.writeLine text).run s = .ok () (sink.line s text) ∧ sink.Accepts (sink.line s text) := by
  have hok : ∃ s', (sink.writeLine text).run s = .ok () s' ∧ sink.Accepts s' := by
    unfold writeLine
    split
    · exact h.run_write "\n"
    · obtain ⟨s₁, h₁, haccepts⟩ := h.run_write text
      rw [run_bind_ok h₁]
      exact haccepts.run_write "\n"
  obtain ⟨s', hs', haccepts⟩ := hok
  have hline : sink.line s text = s' := by simp only [line, hs']
  rw [hline]
  exact ⟨hs', haccepts⟩

/-- A sink that takes everything takes lines and everything after them. -/
theorem lines (h : sink.Accepts s) (texts : List String) : sink.Accepts (sink.lines s texts) := by
  induction texts generalizing s with
  | nil => exact h
  | cons text texts ih => exact ih (h.run_writeLine text).2

end Sink.Accepts

/-- A buffer without a limit takes everything. -/
theorem Buffer.accepts {b : Buffer} (h : b.limit = none) : Buffer.sink.Accepts b := by
  intro texts
  induction texts generalizing b with
  | nil => exact ⟨b, rfl⟩
  | cons text texts ih =>
    have hroom : b.hasRoom text = true := by simp [hasRoom, h]
    have hwrite : (Buffer.sink.write text).run b = .ok () { b with text := b.text ++ text } := by
      show (write text).run b = _
      simp only [write, EStateM.run_bind, EStateM.run_get, hroom]
      rfl
    obtain ⟨b', hrest⟩ := ih (b := { b with text := b.text ++ text }) h
    exact ⟨b', run_forM_cons_eq_ok.2 ⟨_, hwrite, hrest⟩⟩

/-! ## Registers -/

namespace Registers

variable {rs : Registers} {q d : Register} {v : Int64}

/-- A register that was written holds what was written last. -/
theorem get?_write_self : (rs.write d v).get? d = some v := by
  simp [write, get?]

/-- Writing a register leaves the others alone. -/
theorem get?_write_of_ne (h : q ≠ d) : (rs.write d v).get? q = rs.get? q := by
  have hne : ¬ compare d q = .eq := fun he => h (Std.LawfulEqOrd.eq_of_compare he).symm
  simp [write, get?, Std.TreeMap.getElem?_insert, hne]

/-- No register holds anything at the beginning. -/
theorem get?_empty : empty.get? q = none := by
  simp [empty, get?]

end Registers

/-! ## What an instruction does -/

namespace Run

variable (r : Run σ)

/-- One more instruction has begun. -/
def count : Run σ :=
  { r with steps := r.steps + 1 }

/-- The run after an instruction that changed the registers and went on at the given position. -/
def proceed (registers : Registers) (position : Nat) : Run σ :=
  { r with registers := registers, position := position, steps := r.steps + 1 }

/-- The run after an instruction that printed a line. -/
def print (sink : Sink σ) (text : String) : Run σ :=
  { r with
    output := sink.line r.output text
    position := r.position + 1
    steps := r.steps + 1
    lines := r.lines + 1 }

@[simp] theorem proceed_registers (rs : Registers) (k : Nat) :
    (r.proceed rs k).registers = rs := rfl
@[simp] theorem proceed_position (rs : Registers) (k : Nat) : (r.proceed rs k).position = k := rfl
@[simp] theorem proceed_output (rs : Registers) (k : Nat) :
    (r.proceed rs k).output = r.output := rfl
@[simp] theorem print_registers (text : String) :
    (r.print sink text).registers = r.registers := rfl
@[simp] theorem print_position (text : String) :
    (r.print sink text).position = r.position + 1 := rfl
@[simp] theorem print_output (text : String) :
    (r.print sink text).output = sink.line r.output text := rfl

end Run

namespace RunM

variable {r : Run σ} {q d a b : Register} {v w : Int64} {l : Label} {k : Nat}

/-- A register that holds a value can be read. -/
theorem run_read (h : r.registers.get? q = some v) : (read q : RunM σ Int64).run r = .ok v r := by
  have hread : r.registers.resolve (.register q) = .ok v := by
    simp [Registers.resolve, Registers.read, h]
  simp [read, resolve, hread]

/-- To read an empty register is an error. -/
theorem run_read_error (h : r.registers.get? q = none) :
    (read q : RunM σ Int64).run r = .error (.unknownRegister q) r := by
  have hread : r.registers.resolve (.register q) = .error (.unknownRegister q) := by
    simp [Registers.resolve, Registers.read, h]
  simp only [read, resolve, EStateM.run_bind, EStateM.run_get, hread]
  rfl

/-- A label is found where it is placed. -/
theorem run_goTo (h : code.position? l = some k) :
    (goTo code l : RunM σ Unit).run r = .ok () { r with position := k } := by
  simp only [goTo, h]
  rfl

/-- An instruction counts as a step, does its work and goes on behind itself. -/
theorem run_step {i : Instruction} {r' : Run σ}
    (h : (execute code sink i).run r.count = .ok () r') :
    (step code sink i).run r = .ok () { r' with position := r'.position + 1 } := by
  show (execute code sink i >>= fun _ => modify fun r : Run σ =>
    { r with position := r.position + 1 }).run r.count = _
  rw [run_bind_ok h]
  rfl

/-- An instruction that fails fails the step. -/
theorem run_step_error {i : Instruction} {r' : Run σ} {e : MachineError}
    (h : (execute code sink i).run r.count = .error e r') :
    (step code sink i).run r = .error e r' := by
  show (execute code sink i >>= fun _ => modify fun r : Run σ =>
    { r with position := r.position + 1 }).run r.count = _
  rw [run_bind_error h]

/-- An instruction that first reads an empty register is an error. -/
theorem run_step_read_error {i : Instruction} {f : Int64 → RunM σ Unit}
    (hi : execute code sink i = read q >>= f) (h : r.registers.get? q = none) :
    (step code sink i).run r = .error (.unknownRegister q) r.count := by
  apply run_step_error
  rw [hi]
  exact run_bind_error (run_read_error (r := r.count) h)

theorem run_step_literal :
    (step code sink (.set d (.literal v))).run r =
      .ok () (r.proceed (r.registers.write d v) (r.position + 1)) := rfl

/-- A register that is not empty is copied. -/
theorem run_step_copy (h : r.registers.get? q = some v) :
    (step code sink (.set d (.register q))).run r =
      .ok () (r.proceed (r.registers.write d v) (r.position + 1)) := by
  have hread := run_read (r := r.count) h
  have hexec : (execute code sink (.set d (.register q))).run r.count =
      (write d v).run r.count := run_bind_ok hread
  exact run_step hexec

/-- A jump goes behind its label. -/
theorem run_step_jump (h : code.position? l = some k) :
    (step code sink (.jump l)).run r = .ok () (r.proceed r.registers (k + 1)) := by
  have hexec : (execute code sink (.jump l)).run r.count = (goTo code l).run r.count := rfl
  exact run_step (hexec.trans (run_goTo h))

/-- A branch whose condition is met goes behind its label. -/
theorem run_step_branch_taken {onNonzero : Bool} (hq : r.registers.get? q = some v)
    (hv : (v != 0) = onNonzero) (h : code.position? l = some k) :
    (step code sink (.branch onNonzero q l)).run r = .ok () (r.proceed r.registers (k + 1)) := by
  have hexec : (execute code sink (.branch onNonzero q l)).run r.count =
      (goTo code l).run r.count := by
    show (read q >>= fun x => if (x != 0) = onNonzero then goTo code l else pure ()).run r.count = _
    rw [run_bind_ok (run_read (r := r.count) hq), if_pos hv]
  exact run_step (hexec.trans (run_goTo h))

/-- A branch whose condition is not met goes on with the next instruction. -/
theorem run_step_branch_passed {onNonzero : Bool} (hq : r.registers.get? q = some v)
    (hv : (v != 0) ≠ onNonzero) :
    (step code sink (.branch onNonzero q l)).run r =
      .ok () (r.proceed r.registers (r.position + 1)) := by
  have hexec : (execute code sink (.branch onNonzero q l)).run r.count =
      (pure () : RunM σ Unit).run r.count := by
    show (read q >>= fun x => if (x != 0) = onNonzero then goTo code l else pure ()).run r.count = _
    rw [run_bind_ok (run_read (r := r.count) hq), if_neg hv]
  exact run_step hexec

theorem run_step_label :
    (step code sink (.label l)).run r = .ok () (r.proceed r.registers (r.position + 1)) := rfl

/-- A sink that accepts everything takes the line. -/
theorem run_step_print (h : sink.Accepts r.output) (text : String) :
    (step code sink (.print text)).run r = .ok () (r.print sink text) := by
  have hexec : (execute code sink (.print text)).run r.count = .ok () { r.count with
      output := sink.line r.output text
      lines := r.lines + 1 } := by
    have hline : (sink.writeLine text).run r.count.output = .ok () (sink.line r.output text) :=
      (h.run_writeLine text).1
    simp only [execute, printLine, EStateM.run_bind, EStateM.run_get, hline]
    rfl
  exact run_step hexec

end RunM

/-! ## Sequences of steps -/

/-- The next `n` instructions lead from one run to another. -/
inductive Steps (code : Bytecode) (sink : Sink σ) : Nat → Run σ → Run σ → Prop where
  | refl (r : Run σ) : Steps code sink 0 r r
  | cons {n : Nat} {i : Instruction} {r r₁ r₂ : Run σ} (hat : code.at? r.position = some i)
      (hstep : (RunM.step code sink i).run r = .ok () r₁) (hrest : Steps code sink n r₁ r₂) :
      Steps code sink (n + 1) r r₂

/-- The next instruction reads an empty register. -/
def Blocked (code : Bytecode) (sink : Sink σ) (r : Run σ) : Prop :=
  ∃ i q r', code.at? r.position = some i ∧
    (RunM.step code sink i).run r = .error (.unknownRegister q) r' ∧ r'.output = r.output

namespace Steps

variable {n m : Nat} {r r₁ r₂ : Run σ}

/-- One instruction is a step. -/
theorem single {i : Instruction} (hat : code.at? r.position = some i)
    (hstep : (RunM.step code sink i).run r = .ok () r₁) : Steps code sink 1 r r₁ :=
  .cons hat hstep (.refl r₁)

/-- Steps in sequence. -/
theorem trans (h₁ : Steps code sink n r r₁) (h₂ : Steps code sink m r₁ r₂) :
    Steps code sink (n + m) r r₂ := by
  induction h₁ with
  | refl r => rwa [Nat.zero_add]
  | cons hat hstep _ ih =>
    rw [Nat.succ_add]
    exact .cons hat hstep (ih h₂)

end Steps

namespace RunM

variable {r r' : Run σ} {i : Instruction} {limit : Nat}

/-- A run that has left the program has completed. -/
theorem run_runFor_of_none (h : code.at? r.position = none) :
    (runFor code sink limit).run r = .ok .completed r := by
  cases limit <;> simp [runFor, h]

/-- A run that may not begin another instruction is cut off. -/
theorem run_runFor_zero (h : code.at? r.position = some i) :
    (runFor code sink 0).run r = .ok .stepLimitReached r := by
  simp [runFor, h]

/-- A run that may begin another instruction does so. -/
theorem run_runFor_succ (h : code.at? r.position = some i) :
    (runFor code sink (limit + 1)).run r =
      (step code sink i >>= fun _ => runFor code sink limit).run r := by
  simp [runFor, h]

/-- A run with a ceiling can be continued from where some steps have led. -/
theorem run_runFor_add {n : Nat} (h : Steps code sink n r r') (limit : Nat) :
    (runFor code sink (n + limit)).run r = (runFor code sink limit).run r' := by
  induction h with
  | refl r => rw [Nat.zero_add]
  | cons hat hstep _ ih => rw [Nat.succ_add, run_runFor_succ hat, run_bind_ok hstep, ih]

/-- A run that can make more steps than its ceiling allows is cut off. -/
theorem run_runFor_of_lt {n : Nat} (h : Steps code sink n r r') :
    ∀ {limit : Nat}, limit < n →
      ∃ r₁, (runFor code sink limit).run r = .ok .stepLimitReached r₁ := by
  induction h with
  | refl r => intro limit hlt; exact absurd hlt (Nat.not_lt_zero _)
  | cons hat hstep _ ih =>
    intro limit hlt
    cases limit with
    | zero => exact ⟨_, run_runFor_zero hat⟩
    | succ limit =>
      rw [run_runFor_succ hat, run_bind_ok hstep]
      exact ih (Nat.lt_of_succ_lt_succ hlt)

/-- A blocked run fails if it may begin another instruction. -/
theorem run_runFor_of_blocked (h : Blocked code sink r) :
    ∃ q r', r'.output = r.output ∧ ∀ limit,
      (runFor code sink (limit + 1)).run r = .error (.unknownRegister q) r' := by
  obtain ⟨i, q, r', hat, hstep, hout⟩ := h
  exact ⟨q, r', hout, fun limit => by rw [run_runFor_succ hat, run_bind_error hstep]⟩

/-- A blocked run is cut off if it may not begin another instruction. -/
theorem run_runFor_zero_of_blocked (h : Blocked code sink r) :
    (runFor code sink 0).run r = .ok .stepLimitReached r := by
  obtain ⟨i, q, r', hat, -⟩ := h
  exact run_runFor_zero hat

end RunM

/-! ## Runs without a ceiling -/

namespace Run

open RunM

variable {r r' : Run σ} {i : Instruction} {limit : Nat}
  {result : EStateM.Result MachineError (Run σ) Termination}

theorem toEnd_of_none (h : code.at? r.position = none) :
    r.toEnd code sink = some (.ok .completed r) := by
  rw [toEnd, h]

/-- A run without a ceiling goes on after an instruction that succeeds. -/
theorem toEnd_of_ok (h : code.at? r.position = some i)
    (hstep : (step code sink i).run r = .ok () r') :
    r.toEnd code sink = r'.toEnd code sink := by
  rw [toEnd]
  simp only [h, hstep]

/-- A run without a ceiling ends with the first instruction that fails. -/
theorem toEnd_of_error {e : MachineError} (h : code.at? r.position = some i)
    (hstep : (step code sink i).run r = .error e r') :
    r.toEnd code sink = some (.error e r') := by
  rw [toEnd]
  simp only [h, hstep]

/-- A run without a ceiling is a run with a ceiling that does not cut it off. -/
theorem toEnd_of_runFor (h : (runFor code sink limit).run r = result)
    (hcut : ∀ r', result ≠ .ok .stepLimitReached r') : r.toEnd code sink = some result := by
  induction limit generalizing r with
  | zero =>
    cases hat : code.at? r.position with
    | none => rw [toEnd_of_none hat, ← h, run_runFor_of_none hat]
    | some i => exact absurd (h.symm.trans (run_runFor_zero hat)) (hcut r)
  | succ limit ih =>
    cases hat : code.at? r.position with
    | none => rw [toEnd_of_none hat, ← h, run_runFor_of_none hat]
    | some i =>
      rw [run_runFor_succ hat] at h
      cases hstep : (step code sink i).run r with
      | ok u r₁ =>
        rw [run_bind_ok hstep] at h
        rw [toEnd_of_ok hat hstep, ih h]
      | error e r₁ =>
        rw [run_bind_error hstep] at h
        rw [toEnd_of_error hat hstep, h]

/-- A run without a ceiling that ends does so under some ceiling, which does not cut it off. -/
theorem exists_runFor_of_toEnd (h : r.toEnd code sink = some result) :
    ∃ limit, (runFor code sink limit).run r = result ∧ ∀ r', result ≠ .ok .stepLimitReached r' := by
  refine toEnd.partial_correctness code sink (fun r result => ∃ limit,
    (runFor code sink limit).run r = result ∧ ∀ r', result ≠ .ok .stepLimitReached r')
    (fun loop ih r result h => ?_) r result h
  split at h
  next hat =>
    cases h
    exact ⟨0, run_runFor_of_none hat, fun r' hr' => by cases hr'⟩
  next i hat =>
    split at h
    next u r₁ hstep =>
      obtain ⟨limit, hlimit, hcut⟩ := ih r₁ result h
      exact ⟨limit + 1, by rw [run_runFor_succ hat, run_bind_ok hstep, hlimit], hcut⟩
    next e r₁ hstep =>
      cases h
      exact ⟨1, by rw [run_runFor_succ hat, run_bind_error hstep], fun r' hr' => by cases hr'⟩

/-- A run without a ceiling has no result exactly if it is cut off at every ceiling. -/
theorem toEnd_eq_none : r.toEnd code sink = none ↔
    ∀ limit, ∃ r', (runFor code sink limit).run r = .ok .stepLimitReached r' := by
  constructor
  · intro h limit
    by_contra hcut
    simp only [not_exists] at hcut
    cases h.symm.trans (toEnd_of_runFor rfl hcut)
  · intro h
    by_contra hsome
    obtain ⟨result, hresult⟩ := Option.ne_none_iff_exists'.1 hsome
    obtain ⟨limit, hlimit, hcut⟩ := exists_runFor_of_toEnd hresult
    obtain ⟨r', hr'⟩ := h limit
    exact hcut r' (hlimit.symm.trans hr')

end Run

/-- A run without a ceiling is the same as one with a ceiling that does not cut it off. -/
theorem Machine.runFreely_of_runFor {machine : Machine σ} {limit : Nat}
    (h : ∀ r, (RunM.runFor code sink limit).run (.start machine.output) ≠ .ok .stepLimitReached r) :
    machine.runFreely sink code = some (machine.runWithin sink limit code) := by
  simp only [runFreely, runWithin, Run.toEnd_of_runFor rfl h]
  cases code.duplicateLabel? <;> rfl

/-- Whatever a run ends in, with a ceiling or without, it ends in under some ceiling. -/
theorem Machine.exists_runWithin_of_run {machine : Machine σ} {ceiling : Option Nat}
    {result : EStateM.Result MachineError (Machine σ) Report}
    (h : machine.run sink ceiling code = some result) :
    ∃ limit, machine.runWithin sink limit code = result := by
  cases ceiling with
  | some limit => exact ⟨limit, Option.some.inj h⟩
  | none =>
    change machine.runFreely sink code = some result at h
    unfold runFreely at h
    split at h
    next l hdup =>
      refine ⟨0, ?_⟩
      simp only [runWithin, hdup]
      exact Option.some.inj h
    next hdup =>
      obtain ⟨ended, hended, rfl⟩ := Option.map_eq_some_iff.1 h
      obtain ⟨limit, hlimit, -⟩ := Run.exists_runFor_of_toEnd hended
      refine ⟨limit, ?_⟩
      simp only [runWithin, hdup, hlimit]

/-! ## How a program runs -/

namespace Bytecode

/-- The program comes to its end, and the sink is left in the state `final`. -/
def CompletesWith (code : Bytecode) (sink : Sink σ) (initial final : σ) : Prop :=
  ∃ limit report m, (Machine.new initial).runWithin sink limit code = .ok report m ∧
    report.termination = .completed ∧ m.output = final

/-- The program reads an empty register, and the sink is left in the state `final`. -/
def FailsWith (code : Bytecode) (sink : Sink σ) (initial final : σ) : Prop :=
  ∃ limit q m, (Machine.new initial).runWithin sink limit code = .error (.unknownRegister q) m ∧
    m.output = final

/-- The program is cut off at every ceiling. -/
def RunsForever (code : Bytecode) (sink : Sink σ) (initial : σ) : Prop :=
  code.duplicateLabel? = none ∧
    ∀ limit, ∃ r, (RunM.runFor code sink limit).run (.start initial) = .ok .stepLimitReached r

variable {initial final : σ} {r : Run σ} {n : Nat}

/-- A run ends as its instructions do, up to what happens when the sink is flushed. -/
theorem runWithin_eq (hdup : code.duplicateLabel? = none) (initial : σ) (limit : Nat) :
    (Machine.new initial).runWithin sink limit code =
      match (RunM.runFor code sink limit).run (.start initial) with
      | .error e r => .error e r.machine
      | .ok termination r =>
        match sink.flush.run r.output with
        | .ok _ output => .ok ⟨termination, r.steps, r.lines⟩ ⟨r.registers, output⟩
        | .error reason output => .error (.output reason) ⟨r.registers, output⟩ := by
  simp only [Machine.runWithin, hdup]
  unfold Machine.conclude
  rfl

/-- A run that is cut off neither completes nor reads an empty register. -/
theorem runWithin_of_cutOff {limit : Nat}
    (h : (RunM.runFor code sink limit).run (.start initial) = .ok .stepLimitReached r) :
    (∀ report m, (Machine.new initial).runWithin sink limit code = .ok report m →
      report.termination = .stepLimitReached) ∧
    ∀ q m, (Machine.new initial).runWithin sink limit code ≠ .error (.unknownRegister q) m := by
  cases hdup : code.duplicateLabel? with
  | some l => simp [Machine.runWithin, hdup]
  | none =>
    rw [runWithin_eq hdup, h]
    simp only
    split
    next =>
      refine ⟨fun report m hrun => ?_, fun q m hrun => ?_⟩
      · cases hrun
        rfl
      · cases hrun
    next =>
      refine ⟨fun report m hrun => ?_, fun q m hrun => ?_⟩
      · cases hrun
      · cases hrun

/-- To complete is to complete without a ceiling. -/
theorem completesWith_iff_run : code.CompletesWith sink initial final ↔
    ∃ report m, (Machine.new initial).run sink none code = some (.ok report m) ∧
      m.output = final := by
  constructor
  · rintro ⟨limit, report, m, hrun, hterm, rfl⟩
    refine ⟨report, m, ?_, rfl⟩
    rw [← hrun]
    refine Machine.runFreely_of_runFor fun r hr => ?_
    cases hterm.symm.trans ((runWithin_of_cutOff hr).1 report m hrun)
  · rintro ⟨report, m, hrun, rfl⟩
    change (Machine.new initial).runFreely sink code = some _ at hrun
    unfold Machine.runFreely at hrun
    split at hrun
    next => cases hrun
    next hdup =>
      obtain ⟨ended, hended, hconclude⟩ := Option.map_eq_some_iff.1 hrun
      obtain ⟨limit, hlimit, hcut⟩ := Run.exists_runFor_of_toEnd hended
      refine ⟨limit, report, m, ?_, ?_, rfl⟩
      · simp only [Machine.runWithin, hdup, hlimit, hconclude]
      · cases ended with
        | error e r => cases hconclude
        | ok termination r =>
          simp only [Machine.conclude] at hconclude
          split at hconclude <;> cases hconclude
          cases termination with
          | completed => rfl
          | stepLimitReached => exact absurd rfl (hcut r)

/-- To fail is to fail without a ceiling. -/
theorem failsWith_iff_run : code.FailsWith sink initial final ↔
    ∃ q m, (Machine.new initial).run sink none code = some (.error (.unknownRegister q) m) ∧
      m.output = final := by
  constructor
  · rintro ⟨limit, q, m, hrun, rfl⟩
    refine ⟨q, m, ?_, rfl⟩
    rw [← hrun]
    exact Machine.runFreely_of_runFor fun r hr => (runWithin_of_cutOff hr).2 q m hrun
  · rintro ⟨q, m, hrun, rfl⟩
    obtain ⟨limit, hlimit⟩ := Machine.exists_runWithin_of_run hrun
    exact ⟨limit, q, m, hlimit, rfl⟩

/-- To run forever is to have no result without a ceiling. -/
theorem runsForever_iff_run : code.RunsForever sink initial ↔
    (Machine.new initial).run sink none code = none := by
  simp only [RunsForever, ← Run.toEnd_eq_none, Machine.run, Machine.runFreely, Machine.new]
  cases code.duplicateLabel? <;> simp

/-- If the steps of a run lead out of the program, the run is cut off or completes there. -/
theorem runFor_of_end (h : Steps code sink n (.start initial) r)
    (hend : code.at? r.position = none) (limit : Nat) :
    (∃ r₁, (RunM.runFor code sink limit).run (.start initial) = .ok .stepLimitReached r₁) ∨
      (RunM.runFor code sink limit).run (.start initial) = .ok .completed r := by
  by_cases hlt : limit < n
  · exact .inl (RunM.run_runFor_of_lt h hlt)
  · obtain ⟨k, rfl⟩ := Nat.exists_eq_add_of_le (Nat.le_of_not_lt hlt)
    exact .inr (by rw [RunM.run_runFor_add h, RunM.run_runFor_of_none hend])

/-- If the steps of a run block it, it is cut off or fails there. -/
theorem runFor_of_blocked (h : Steps code sink n (.start initial) r)
    (hblocked : Blocked code sink r) :
    ∃ q r', r'.output = r.output ∧ ∀ limit,
      (∃ r₁, (RunM.runFor code sink limit).run (.start initial) = .ok .stepLimitReached r₁) ∨
        (RunM.runFor code sink limit).run (.start initial) = .error (.unknownRegister q) r' := by
  obtain ⟨q, r', hout, hfail⟩ := RunM.run_runFor_of_blocked hblocked
  refine ⟨q, r', hout, fun limit => ?_⟩
  by_cases hlt : limit < n
  · exact .inl (RunM.run_runFor_of_lt h hlt)
  · obtain ⟨k, rfl⟩ := Nat.exists_eq_add_of_le (Nat.le_of_not_lt hlt)
    rw [RunM.run_runFor_add h]
    cases k with
    | zero => exact .inl ⟨r, RunM.run_runFor_zero_of_blocked hblocked⟩
    | succ k => exact .inr (hfail k)

/-- A run whose steps lead out of the program completes with what the sink holds when it is
flushed. -/
theorem completesWith_iff_of_end (hdup : code.duplicateLabel? = none)
    (h : Steps code sink n (.start initial) r) (hend : code.at? r.position = none) :
    code.CompletesWith sink initial final ↔ sink.flush.run r.output = .ok () final := by
  constructor
  · rintro ⟨limit, report, m, hrun, hterm, rfl⟩
    rw [runWithin_eq hdup] at hrun
    rcases runFor_of_end h hend limit with ⟨r₁, hcut⟩ | hdone
    · rw [hcut] at hrun
      simp only at hrun
      split at hrun <;> cases hrun
      cases hterm
    · rw [hdone] at hrun
      simp only at hrun
      split at hrun
      next hflush =>
        cases hrun
        exact hflush
      next => cases hrun
  · intro hflush
    refine ⟨n, ⟨.completed, r.steps, r.lines⟩, ⟨r.registers, final⟩, ?_, rfl, rfl⟩
    rw [runWithin_eq hdup, ← Nat.add_zero n, RunM.run_runFor_add h, RunM.run_runFor_of_none hend]
    simp only [hflush]

/-- A run that can be cut off at a ceiling only does not complete, and it fails only if it does so
before it is flushed. -/
theorem not_completesWith_of_runFor (hdup : code.duplicateLabel? = none)
    (h : ∀ limit r, (RunM.runFor code sink limit).run (.start initial) ≠ .ok .completed r) :
    ¬ code.CompletesWith sink initial final := by
  rintro ⟨limit, report, m, hrun, hterm, -⟩
  rw [runWithin_eq hdup] at hrun
  split at hrun
  next => cases hrun
  next termination r hr =>
    split at hrun <;> cases hrun
    cases hterm
    exact h limit r hr

/-- The program fails exactly if its instructions do. -/
theorem failsWith_iff (hdup : code.duplicateLabel? = none) :
    code.FailsWith sink initial final ↔ ∃ limit q r,
      (RunM.runFor code sink limit).run (.start initial) = .error (.unknownRegister q) r ∧
        r.output = final := by
  constructor
  · rintro ⟨limit, q, m, hrun, rfl⟩
    rw [runWithin_eq hdup] at hrun
    split at hrun
    next e r hr =>
      cases hrun
      exact ⟨limit, q, r, hr, rfl⟩
    next => split at hrun <;> cases hrun
  · rintro ⟨limit, q, r, hr, rfl⟩
    refine ⟨limit, q, r.machine, ?_, rfl⟩
    rw [runWithin_eq hdup, hr]

/-- A run whose steps block it fails with what the sink holds then. -/
theorem failsWith_iff_of_blocked (hdup : code.duplicateLabel? = none)
    (h : Steps code sink n (.start initial) r) (hblocked : Blocked code sink r) :
    code.FailsWith sink initial final ↔ final = r.output := by
  obtain ⟨q, r', hout, hrun⟩ := runFor_of_blocked h hblocked
  rw [failsWith_iff hdup]
  constructor
  · rintro ⟨limit, q', r₁, hr₁, rfl⟩
    rcases hrun limit with ⟨r₂, hcut⟩ | hfail
    · rw [hcut] at hr₁
      cases hr₁
    · rw [hfail] at hr₁
      cases hr₁
      exact hout
  · rintro rfl
    obtain ⟨q, r', hout, hfail⟩ := RunM.run_runFor_of_blocked hblocked
    exact ⟨n + 1, q, r', by rw [RunM.run_runFor_add h, ← Nat.zero_add 1, hfail], hout⟩

/-- A run that can make any number of steps goes on forever. -/
theorem runsForever_of_steps (hdup : code.duplicateLabel? = none)
    (h : ∀ limit, ∃ n r, limit < n ∧ Steps code sink n (.start initial) r) :
    code.RunsForever sink initial := by
  refine ⟨hdup, fun limit => ?_⟩
  obtain ⟨n, r, hlt, hsteps⟩ := h limit
  exact RunM.run_runFor_of_lt hsteps hlt

/-- A run that leaves the program does not fail. -/
theorem not_failsWith_of_end (hdup : code.duplicateLabel? = none)
    (h : Steps code sink n (.start initial) r) (hend : code.at? r.position = none) :
    ¬ code.FailsWith sink initial final := by
  rw [failsWith_iff hdup]
  rintro ⟨limit, q, r₁, hr₁, -⟩
  rcases runFor_of_end h hend limit with ⟨r₂, hcut⟩ | hdone
  · rw [hcut] at hr₁
    cases hr₁
  · rw [hdone] at hr₁
    cases hr₁

/-- A run that leaves the program does not go on forever. -/
theorem not_runsForever_of_end (h : Steps code sink n (.start initial) r)
    (hend : code.at? r.position = none) : ¬ code.RunsForever sink initial := by
  rintro ⟨-, hforever⟩
  obtain ⟨r₁, hr₁⟩ := hforever n
  rw [← Nat.add_zero n, RunM.run_runFor_add h, RunM.run_runFor_of_none hend] at hr₁
  cases hr₁

/-- A run that is blocked does not complete. -/
theorem not_completesWith_of_blocked (hdup : code.duplicateLabel? = none)
    (h : Steps code sink n (.start initial) r) (hblocked : Blocked code sink r) :
    ¬ code.CompletesWith sink initial final := by
  refine not_completesWith_of_runFor hdup fun limit r₁ hr₁ => ?_
  obtain ⟨q, r', -, hrun⟩ := runFor_of_blocked h hblocked
  rcases hrun limit with ⟨r₂, hcut⟩ | hfail
  · rw [hcut] at hr₁
    cases hr₁
  · rw [hfail] at hr₁
    cases hr₁

/-- A run that is blocked does not go on forever. -/
theorem not_runsForever_of_blocked (h : Steps code sink n (.start initial) r)
    (hblocked : Blocked code sink r) : ¬ code.RunsForever sink initial := by
  rintro ⟨-, hforever⟩
  obtain ⟨q, r', -, hfail⟩ := RunM.run_runFor_of_blocked hblocked
  obtain ⟨r₁, hr₁⟩ := hforever (n + 1)
  rw [RunM.run_runFor_add h, ← Nat.zero_add 1, hfail] at hr₁
  cases hr₁

/-- A run that goes on forever does not complete. -/
theorem RunsForever.not_completesWith (h : code.RunsForever sink initial) :
    ¬ code.CompletesWith sink initial final := by
  refine not_completesWith_of_runFor h.1 fun limit r hr => ?_
  obtain ⟨r₁, hr₁⟩ := h.2 limit
  rw [hr₁] at hr
  cases hr

/-- A run that goes on forever does not fail. -/
theorem RunsForever.not_failsWith (h : code.RunsForever sink initial) :
    ¬ code.FailsWith sink initial final := by
  rw [failsWith_iff h.1]
  rintro ⟨limit, q, r, hr, -⟩
  obtain ⟨r₁, hr₁⟩ := h.2 limit
  rw [hr₁] at hr
  cases hr

end Bytecode

end RegisterBackend
