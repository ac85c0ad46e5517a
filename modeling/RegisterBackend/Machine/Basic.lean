import RegisterBackend.Machine.Registers
import RegisterBackend.Machine.Sink

/-!
# The register machine

A run executes the instructions of a bytecode program in order, from the first one until it leaves
the program at its end. Jumps go to the instruction behind the label. `runFor` executes at most a
given number of instructions and says whether the program had come to its end by then; it is
structurally recursive in that number. `Run.toEnd` goes on until the program has come to its end,
and has no result if it never does.

In a whole run, labels are checked for repetitions, the registers are emptied, the program runs, and
the sink is flushed, whether the program ended or was cut off. `Machine.runWithin` is such a run
with a ceiling, `Machine.runFreely` is one without. `Machine.run` takes the ceiling as an option; it
has a result under every ceiling, and has none without a ceiling exactly if the run does not end.
Steps and lines are counted without a bound.
-/

namespace RegisterBackend

/-- How a run ended. -/
inductive Termination where
  /-- The program came to its end. -/
  | completed
  /-- The run was cut off. -/
  | stepLimitReached
deriving DecidableEq, Repr

/-- What a run that did not fail reports. -/
structure Report where
  termination : Termination
  /-- The number of instructions executed. -/
  steps : Nat
  /-- The number of lines printed. -/
  lines : Nat
deriving DecidableEq, Repr

/-- Whether the program came to its end. -/
def Report.isComplete (r : Report) : Bool :=
  r.termination = .completed

/-- A machine between two runs: the registers as the last one left them, and the output. -/
structure Machine (σ : Type) where
  registers : Registers
  output : σ

/-- A run in progress. -/
structure Run (σ : Type) where
  registers : Registers
  output : σ
  /-- The position of the next instruction. -/
  position : Nat
  /-- The number of instructions begun. -/
  steps : Nat
  /-- The number of lines printed. -/
  lines : Nat

/-- Steps of a run. -/
abbrev RunM (σ : Type) : Type → Type :=
  EStateM MachineError (Run σ)

namespace Run

variable {σ : Type}

/-- The beginning of a run. -/
def start (output : σ) : Run σ :=
  ⟨.empty, output, 0, 0, 0⟩

/-- The machine after a run. -/
def machine (r : Run σ) : Machine σ :=
  ⟨r.registers, r.output⟩

end Run

namespace RunM

variable {σ : Type}

/-- The value of a source. -/
def resolve (src : Source) : RunM σ Int64 := do
  match (← get).registers.resolve src with
  | .ok value => return value
  | .error e => throw e

/-- The value of a register. -/
def read (reg : Register) : RunM σ Int64 :=
  resolve (.register reg)

/-- Writes a register. -/
def write (reg : Register) (value : Int64) : RunM σ Unit :=
  modify fun r => { r with registers := r.registers.write reg value }

/-- Goes to the place of a label. -/
def goTo (code : Bytecode) (l : Label) : RunM σ Unit :=
  match code.position? l with
  | some position => modify fun r => { r with position := position }
  | none => throw (.labels (.unresolved l))

/-- Prints a line. -/
def printLine (sink : Sink σ) (text : String) : RunM σ Unit := do
  match (sink.writeLine text).run (← get).output with
  | .ok _ output => modify fun r => { r with output := output, lines := r.lines + 1 }
  | .error reason output =>
    modify fun r => { r with output := output }
    throw (.output reason)

/-- What an instruction does, the change of the position by one apart. -/
def execute (code : Bytecode) (sink : Sink σ) : Instruction → RunM σ Unit
  | .set dst src => do write dst (← resolve src)
  | .arith op dst lhs rhs => do
    let a ← read lhs
    let b ← read rhs
    write dst (op.apply a b)
  | .compare op dst lhs rhs => do
    let a ← read lhs
    let b ← read rhs
    write dst (op.apply a b)
  | .jump target => goTo code target
  | .branch onNonzero cond target => do
    let value ← read cond
    if (value != 0) = onNonzero then goTo code target
  | .label _ => return
  | .print text => printLine sink text

/-- Executes an instruction. -/
def step (code : Bytecode) (sink : Sink σ) (i : Instruction) : RunM σ Unit := do
  modify fun r => { r with steps := r.steps + 1 }
  execute code sink i
  modify fun r => { r with position := r.position + 1 }

/-- Executes at most the given number of instructions. -/
def runFor (code : Bytecode) (sink : Sink σ) : Nat → RunM σ Termination
  | 0 => do
    match code.at? (← get).position with
    | none => return .completed
    | some _ => return .stepLimitReached
  | limit + 1 => do
    match code.at? (← get).position with
    | none => return .completed
    | some i =>
      step code sink i
      runFor code sink limit

end RunM

/-- Executes instructions until the program has come to its end or one of them fails. -/
def Run.toEnd {σ : Type} (code : Bytecode) (sink : Sink σ) (r : Run σ) :
    Option (EStateM.Result MachineError (Run σ) Termination) :=
  match code.at? r.position with
  | none => some (.ok .completed r)
  | some i =>
    match (RunM.step code sink i).run r with
    | .ok _ next => next |>.toEnd code sink
    | .error e failed => some (.error e failed)
partial_fixpoint

namespace Machine

variable {σ : Type}

/-- A machine that has not run. -/
def new (output : σ) : Machine σ :=
  ⟨.empty, output⟩

/-- What is left of a run: the sink is flushed if no instruction failed. -/
def conclude (sink : Sink σ) :
    EStateM.Result MachineError (Run σ) Termination → EStateM.Result MachineError (Machine σ) Report
  | .error e r => .error e r.machine
  | .ok termination r =>
    match sink.flush.run r.output with
    | .ok _ output => .ok ⟨termination, r.steps, r.lines⟩ ⟨r.registers, output⟩
    | .error reason output => .error (.output reason) ⟨r.registers, output⟩

/-- Runs a program for at most the given number of steps. -/
def runWithin (m : Machine σ) (sink : Sink σ) (limit : Nat) (code : Bytecode) :
    EStateM.Result MachineError (Machine σ) Report :=
  match code.duplicateLabel? with
  | some l => .error (.labels (.duplicate l)) m
  | none => conclude sink ((RunM.runFor code sink limit).run (.start m.output))

/-- Runs a program for as long as it takes. -/
def runFreely (m : Machine σ) (sink : Sink σ) (code : Bytecode) :
    Option (EStateM.Result MachineError (Machine σ) Report) :=
  match code.duplicateLabel? with
  | some l => some (.error (.labels (.duplicate l)) m)
  | none => ((Run.start m.output).toEnd code sink).map (conclude sink)

/-- Runs a program, up to a ceiling if there is one. There is no result if the run never ends. -/
def run (m : Machine σ) (sink : Sink σ) (ceiling : Option Nat) (code : Bytecode) :
    Option (EStateM.Result MachineError (Machine σ) Report) :=
  match ceiling with
  | some limit => some (m.runWithin sink limit code)
  | none => m.runFreely sink code

end Machine

end RegisterBackend
