import RegisterBackend.Operator
import RegisterBackend.Text.Quoted

/-!
# Instructions of the register machine

The machine has numbered registers and labels. An instruction loads or copies a value, computes or
compares, jumps to a label, marks one, or prints a line. `Instruction.render` is the text of an
instruction in a listing.
-/

namespace RegisterBackend

/-- The number of a register. -/
structure Register where
  number : UInt32
deriving DecidableEq, Repr

namespace Register

/-- The text of a register. -/
def render (r : Register) : String :=
  "REG_" ++ r.number.toNat.repr

/-- Registers are ordered by their numbers. -/
instance : Ord Register :=
  ⟨fun a b => compare a.number b.number⟩

/-- The order of registers is transitive. -/
instance : Std.TransOrd Register where
  eq_swap {a b} := Std.OrientedOrd.eq_swap (a := a.number) (b := b.number)
  isLE_trans {a b c} := Std.TransOrd.isLE_trans (a := a.number) (b := b.number) (c := c.number)

/-- Registers that are neither greater nor smaller are equal. -/
instance : Std.LawfulEqOrd Register where
  compare_self {a} := Std.ReflOrd.compare_self (a := a.number)
  eq_of_compare {a b} h := by
    cases a; cases b; exact congrArg _ (Std.LawfulEqOrd.eq_of_compare h)

end Register

/-- The number of a label. -/
structure Label where
  number : UInt32
deriving DecidableEq, Repr

/-- The text of a label. -/
def Label.render (l : Label) : String :=
  "LABEL_" ++ l.number.toNat.repr

/-- Where a value to be stored comes from. -/
inductive Source where
  | literal (value : Int64)
  | register (register : Register)
deriving DecidableEq, Repr

/-- The text of a source. -/
def Source.render : Source → String
  | .literal value => value.toInt.repr
  | .register r => r.render

/-- One instruction. -/
inductive Instruction where
  /-- Stores a literal or a copy. -/
  | set (dst : Register) (src : Source)
  /-- Stores the result of an operation. -/
  | arith (op : ArithOp) (dst lhs rhs : Register)
  /-- Stores one if a comparison holds and zero if not. -/
  | compare (op : CompareOp) (dst lhs rhs : Register)
  /-- Goes on behind a label. -/
  | jump (target : Label)
  /-- Goes on behind a label if a register is not zero, or if it is zero. -/
  | branch (onNonzero : Bool) (cond : Register) (target : Label)
  /-- Marks a place that can be jumped to. -/
  | label (label : Label)
  /-- Prints a line. -/
  | print (text : String)
deriving DecidableEq, Repr

/-- The form of an instruction without its operands. -/
inductive Opcode where
  | set
  | arith (op : ArithOp)
  | compare (op : CompareOp)
  | jump
  | branch (onNonzero : Bool)
  | label
  | print
deriving DecidableEq, Repr

namespace Opcode

/-- All forms: data, arithmetic, comparison, control, output. -/
def all : List Opcode :=
  [.set, .arith .add, .arith .sub, .arith .mul, .compare .equals, .compare .greater, .jump,
    .branch true, .branch false, .label, .print]

/-- The mnemonic of a form. -/
def name : Opcode → String
  | .set => "SET"
  | .arith .add => "ADD"
  | .arith .sub => "SUB"
  | .arith .mul => "MUL"
  | .compare .equals => "CMP_EQ"
  | .compare .greater => "CMP_GT"
  | .jump => "JMP"
  | .branch true => "CHK_JMP"
  | .branch false => "NCHK_JMP"
  | .label => "LABEL"
  | .print => "DEBUG_PRINT"

/-- The form with a given mnemonic. -/
def ofName? (name : String) : Option Opcode :=
  all.find? fun op => op.name = name

/-- Whether instructions of this form can jump. -/
def isJump : Opcode → Bool
  | .jump | .branch _ => true
  | _ => false

end Opcode

namespace Instruction

/-- The form of an instruction. -/
def opcode : Instruction → Opcode
  | .set .. => .set
  | .arith op .. => .arith op
  | .compare op .. => .compare op
  | .jump _ => .jump
  | .branch onNonzero .. => .branch onNonzero
  | .label _ => .label
  | .print _ => .print

/-- The register that an instruction writes. -/
def destination? : Instruction → Option Register
  | .set dst _ | .arith _ dst _ _ | .compare _ dst _ _ => some dst
  | _ => none

/-- The label that an instruction can jump to. -/
def jumpTarget? : Instruction → Option Label
  | .jump target | .branch _ _ target => some target
  | _ => none

/-- The label that an instruction marks. -/
def placedLabel? : Instruction → Option Label
  | .label l => some l
  | _ => none

/-- The text of an instruction's operands. -/
def renderOperands : Instruction → String
  | .set dst src => dst.render ++ ", " ++ src.render
  | .arith _ dst lhs rhs | .compare _ dst lhs rhs =>
    dst.render ++ ", " ++ lhs.render ++ ", " ++ rhs.render
  | .jump target | .label target => target.render
  | .branch _ cond target => cond.render ++ ", " ++ target.render
  | .print text => String.ofList (Text.quote text.toList)

/-- The text of an instruction: the mnemonic and the operands. -/
def render (i : Instruction) : String :=
  i.opcode.name ++ " " ++ i.renderOperands

end Instruction

end RegisterBackend
