import RegisterBackend.Lowering.Basic
import RegisterBackend.Propagation.Basic

/-!
# Compiling

`Program.compile` lowers a program, after constant propagation if that is asked for. The result
comes with the program as the propagation left it, also if compiling fails.
-/

namespace RegisterBackend

/-- What compiling produces. -/
structure Compiled where
  bytecode : Bytecode
  /-- What constant propagation changed, if it ran. -/
  stats : Option PropagationStats
deriving DecidableEq, Repr

namespace Program

/-- Propagates constants through a program and says how much has changed. -/
def optimize (p : Program) : EStateM.Result (Stop CompileError) Program PropagationStats :=
  match p.propagate with
  | .ok _ s => .ok s.stats { p with graph := s.graph }
  | .error e s => .error e { p with graph := s.graph }

/-- Lowers a program for which constant propagation has or has not run. -/
def compileAfter (stats : Option PropagationStats) (p : Program) :
    EStateM.Result (Stop CompileError) Program Compiled :=
  match p.lower with
  | .ok bytecode => .ok ⟨bytecode, stats⟩ p
  | .error e => .error e p

/-- Compiles a program. -/
def compile (p : Program) (optimizing : Bool) :
    EStateM.Result (Stop CompileError) Program Compiled :=
  if optimizing then
    match p.optimize with
    | .ok stats p => p.compileAfter (some stats)
    | .error e p => .error e p
  else
    p.compileAfter none

end Program

end RegisterBackend
