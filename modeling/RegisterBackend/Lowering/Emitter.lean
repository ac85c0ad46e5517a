import RegisterBackend.Bytecode.Basic
import RegisterBackend.Lowering.Bindings

/-!
# The emitter

An `Emitter` holds the code produced so far, the numbers of the next register and the next label,
and the bindings of the variables. An instruction that computes a value writes it into a fresh
register.
-/

namespace RegisterBackend

/-- Code under construction. -/
structure Emitter where
  code : Array Instruction
  /-- The number of registers handed out. -/
  registers : Nat
  /-- The number of labels handed out. -/
  labels : Nat
  bindings : Bindings

namespace Emitter

/-- The emitter before the first instruction. -/
def empty : Emitter :=
  ⟨#[], 0, 0, .empty⟩

/-- The number of instructions. -/
def size (e : Emitter) : Nat :=
  e.code.size

/-- A register that has not been handed out before. -/
def freshRegister (e : Emitter) : Register × Emitter :=
  (⟨UInt32.ofNat e.registers⟩, { e with registers := e.registers + 1 })

/-- A label that has not been handed out before. -/
def freshLabel (e : Emitter) : Label × Emitter :=
  (⟨UInt32.ofNat e.labels⟩, { e with labels := e.labels + 1 })

/-- Appends an instruction. -/
def emit (e : Emitter) (i : Instruction) : Emitter :=
  { e with code := e.code.push i }

/-- Appends an instruction that writes a fresh register, and returns that. -/
def emitTo (e : Emitter) (f : Register → Instruction) : Register × Emitter :=
  let (dst, e) := e.freshRegister
  (dst, e.emit (f dst))

/-- Loads a number. -/
def load (e : Emitter) (value : Int64) : Register × Emitter :=
  e.emitTo fun dst => .set dst (.literal value)

/-- Copies a register. -/
def copy (e : Emitter) (src : Register) : Register × Emitter :=
  e.emitTo fun dst => .set dst (.register src)

/-- Computes an operation. -/
def arith (e : Emitter) (op : ArithOp) (lhs rhs : Register) : Register × Emitter :=
  e.emitTo fun dst => .arith op dst lhs rhs

/-- Computes a comparison. -/
def compare (e : Emitter) (op : CompareOp) (lhs rhs : Register) : Register × Emitter :=
  e.emitTo fun dst => .compare op dst lhs rhs

/-- Gives a name a new register. -/
def bind (e : Emitter) (name : String) (r : Register) : Emitter :=
  { e with bindings := e.bindings.bind name r }

/-- Unbinds names. -/
def forget (e : Emitter) (names : List String) : Emitter :=
  { e with bindings := e.bindings.forget names }

/-- Binds those of the given names that are not bound. -/
def adopt (e : Emitter) (homes : NameMap Register) : Emitter :=
  { e with bindings := e.bindings.adopt homes }

/-- Ends a block that started with the bindings `entry`: appends the copies and returns the names
that the block introduced. -/
def closeBlock (e : Emitter) (entry : Bindings) (homes : NameMap Register) :
    NameMap Register × Emitter :=
  let (exit, bindings) := e.bindings.exitBlock entry homes
  (exit.introduced, { e with code := e.code ++ exit.copies, bindings := bindings })

/-- The code as a program. -/
def finish (e : Emitter) : Bytecode :=
  ⟨e.code⟩

end Emitter

end RegisterBackend
