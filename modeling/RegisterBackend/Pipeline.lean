import RegisterBackend.Compile
import RegisterBackend.Failure
import RegisterBackend.Machine.Basic

/-!
# The pipeline

A pipeline compiles a program and runs the result on a fresh machine, or runs bytecode or a listing
that is already at hand. Its settings say whether to propagate constants and where to cut off a
run. A run that is not cut off may never end, and has no result then.
-/

namespace RegisterBackend

/-- How machines run. -/
structure MachineSettings where
  /-- The greatest number of steps of a run, if there is one. -/
  maxSteps : Option Nat := none
deriving DecidableEq, Repr

namespace MachineSettings

/-- The settings with a ceiling. -/
def withMaxSteps (s : MachineSettings) (steps : Nat) : MachineSettings :=
  { s with maxSteps := some steps }

/-- The settings without a ceiling. -/
def withoutStepLimit (s : MachineSettings) : MachineSettings :=
  { s with maxSteps := none }

end MachineSettings

/-- How a pipeline compiles and runs. -/
structure Pipeline where
  /-- Whether constants are propagated before lowering. -/
  optimize : Bool := true
  /-- The greatest number of steps of a run, if there is one. -/
  maxSteps : Option Nat := none
deriving DecidableEq, Repr

/-- The result with another form of its error. -/
def mapError {ε ε' σ α : Type} (f : ε → ε') : EStateM.Result ε σ α → EStateM.Result ε' σ α
  | .ok a s => .ok a s
  | .error e s => .error (f e) s

/-- What a run of a program produces. -/
structure Execution where
  compiled : Compiled
  report : Report
  registers : Registers

namespace Pipeline

variable {σ : Type}

/-- The pipeline with or without constant propagation. -/
def withOptimize (p : Pipeline) (optimize : Bool) : Pipeline :=
  { p with optimize := optimize }

/-- The pipeline with a ceiling. -/
def withMaxSteps (p : Pipeline) (steps : Nat) : Pipeline :=
  { p with maxSteps := some steps }

/-- The settings of the machines on which the pipeline runs bytecode. -/
def machineSettings (p : Pipeline) : MachineSettings :=
  ⟨p.maxSteps⟩

/-- Runs bytecode on a fresh machine with the given output. There is no result if the run never
ends. -/
def execute (p : Pipeline) (sink : Sink σ) (code : Bytecode) (output : σ) :
    Option (EStateM.Result MachineError σ (Report × Registers)) := do
  match ← (Machine.new output).run sink p.machineSettings.maxSteps code with
  | .ok report m => return .ok (report, m.registers) m.output
  | .error e m => return .error e m.output

/-- Reads a listing and runs it. -/
def executeListing (p : Pipeline) (sink : Sink σ) (listing : String) (output : σ) :
    Option (EStateM.Result Failure σ (Report × Registers)) :=
  match Bytecode.read listing with
  | .error e => some (.error (.compile (.listing e)) output)
  | .ok code => (p.execute sink code output).map (mapError .machine)

/-- Compiles a program and runs the result. The program comes back as compiling left it. -/
def run (p : Pipeline) (sink : Sink σ) (program : Program) (output : σ) :
    Option (EStateM.Result (Stop Failure) (Program × σ) Execution) := do
  match program.compile p.optimize with
  | .error e program => return .error (e.map .compile) (program, output)
  | .ok compiled program =>
    match ← p.execute sink compiled.bytecode output with
    | .ok (report, registers) output => return .ok ⟨compiled, report, registers⟩ (program, output)
    | .error e output => return .error (.error (.machine e)) (program, output)

end Pipeline

end RegisterBackend
