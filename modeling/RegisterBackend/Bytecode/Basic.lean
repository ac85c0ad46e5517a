import RegisterBackend.Bytecode.Instruction

/-!
# Bytecode

A bytecode program is a sequence of instructions. Its labels are consistent if no label is placed
twice and every jump has a place to go; `Bytecode.checkLabels` reports the first label placed again
and, if there is none, the first jump that leads nowhere.
-/

namespace RegisterBackend

/-- A sequence of instructions. -/
structure Bytecode where
  instructions : Array Instruction
deriving DecidableEq, Repr

/-- What is wrong with the labels of a bytecode program. -/
inductive LabelFault where
  /-- A jump to a label that is not placed. -/
  | unresolved (label : Label)
  /-- A label that is placed twice. -/
  | duplicate (label : Label)
deriving DecidableEq, Repr

/-- The wording of a fault of labels. -/
def LabelFault.message : LabelFault → String
  | .unresolved l => "unresolved label: " ++ l.render
  | .duplicate l => "duplicate label: " ++ l.render

/-- The first label of a list that is equal to an earlier one. -/
def repeatedLabel? (seen : List Label) : List Label → Option Label
  | [] => none
  | l :: ls => if l ∈ seen then some l else repeatedLabel? (l :: seen) ls

/-- What is left of a sequence of forms after taking away, in order, those that occur in another
sequence. -/
def unmatchedOpcodes : List Opcode → List Opcode → List Opcode
  | [], _ => []
  | expected, [] => expected
  | e :: expected, a :: actual =>
    if e = a then unmatchedOpcodes expected actual else unmatchedOpcodes (e :: expected) actual

namespace Bytecode

/-- The number of instructions. -/
def size (code : Bytecode) : Nat :=
  code.instructions.size

/-- The instruction at a position. -/
def at? (code : Bytecode) (position : Nat) : Option Instruction :=
  code.instructions[position]?

/-- The forms of the instructions, in order. -/
def opcodes (code : Bytecode) : List Opcode :=
  code.instructions.toList.map (·.opcode)

/-- The number of instructions of a form. -/
def count (code : Bytecode) (op : Opcode) : Nat :=
  code.opcodes.count op

/-- The registers that are written, in the order of the instructions. -/
def destinations (code : Bytecode) : List Register :=
  code.instructions.toList.filterMap (·.destination?)

/-! ## Labels -/

/-- The labels that are placed, in order. -/
def labels (code : Bytecode) : List Label :=
  code.instructions.toList.filterMap (·.placedLabel?)

/-- The labels that are jumped to, in order. -/
def jumpTargets (code : Bytecode) : List Label :=
  code.instructions.toList.filterMap (·.jumpTarget?)

/-- The position of the instruction that places a label. -/
def position? (code : Bytecode) (l : Label) : Option Nat :=
  code.instructions.findIdx? fun i => i.placedLabel? = some l

/-- The first label that is placed again. -/
def duplicateLabel? (code : Bytecode) : Option Label :=
  repeatedLabel? [] code.labels

/-- The first jump target that is not placed. -/
def unresolvedLabel? (code : Bytecode) : Option Label :=
  code.jumpTargets.find? (· ∉ code.labels)

/-- Refuses labels that are placed twice or jumped to and not placed. -/
def checkLabels (code : Bytecode) : Except LabelFault Unit :=
  match code.duplicateLabel?, code.unresolvedLabel? with
  | some l, _ => .error (.duplicate l)
  | none, some l => .error (.unresolved l)
  | none, none => .ok ()

/-! ## Expectations -/

/-- The forms of an expected sequence that the program does not have in this order. -/
def missingOpcodes (code : Bytecode) (expected : List Opcode) : List Opcode :=
  unmatchedOpcodes expected code.opcodes

/-- A list of mnemonics in brackets and quotes. -/
def renderOpcodes (ops : List Opcode) : String :=
  "[" ++ ", ".intercalate (ops.map fun op => "\"" ++ op.name ++ "\"") ++ "]"

/-- What to say of forms that are missing. -/
def missingReport (code : Bytecode) (missing : List Opcode) : String :=
  "Missing opcodes in sequence.\nExpected to find: " ++ renderOpcodes missing ++
    "\nActual bytecode:  " ++ renderOpcodes code.opcodes

end Bytecode

end RegisterBackend
