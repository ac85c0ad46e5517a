import RegisterBackend.Bytecode.Basic
import Std.Data.TreeMap

/-!
# Registers

The registers of the machine are empty until they are written; to read an empty one is an error.
`MachineError` lists the ways in which a run can fail.
-/

namespace RegisterBackend

/-- Why a run failed. -/
inductive MachineError where
  /-- A register was read that had not been written. -/
  | unknownRegister (register : Register)
  /-- A label was placed twice, or a jump had nowhere to go. -/
  | labels (fault : LabelFault)
  /-- The output could not be written, for the given reason. -/
  | output (reason : String)
deriving DecidableEq, Repr

/-- The wording of an error. -/
def MachineError.message : MachineError → String
  | .unknownRegister r =>
    "cannot resolve symbol: " ++ r.render ++ " was read before it was written"
  | .labels fault => fault.message
  | .output reason => "debug output failed: " ++ reason

/-- The registers that have been written, with their values. -/
structure Registers where
  values : Std.TreeMap Register Int64

namespace Registers

/-- All registers are empty. -/
def empty : Registers :=
  ⟨∅⟩

/-- The value of a register, if it has been written. -/
def get? (rs : Registers) (r : Register) : Option Int64 :=
  rs.values[r]?

/-- The value of a register that must have been written. -/
def read (rs : Registers) (r : Register) : Except MachineError Int64 :=
  match rs.get? r with
  | some value => .ok value
  | none => .error (.unknownRegister r)

/-- Writes a register. -/
def write (rs : Registers) (r : Register) (value : Int64) : Registers :=
  ⟨rs.values.insert r value⟩

/-- The value of a source. -/
def resolve (rs : Registers) : Source → Except MachineError Int64
  | .literal value => .ok value
  | .register r => rs.read r

/-- The number of registers that have been written. -/
def size (rs : Registers) : Nat :=
  rs.values.size

/-- The registers that have been written, in order, with their values. -/
def toList (rs : Registers) : List (Register × Int64) :=
  rs.values.toList

/-- The registers that a program can write and that have been written, with their values. -/
def writtenBy (rs : Registers) (code : Bytecode) : List (Register × Int64) :=
  rs.toList.filter fun (r, _) => r ∈ code.destinations

end Registers

end RegisterBackend
