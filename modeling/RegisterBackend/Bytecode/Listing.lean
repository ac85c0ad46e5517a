import RegisterBackend.Bytecode.Basic
import RegisterBackend.Text.Blank
import RegisterBackend.Text.Numeral

/-!
# Listings

A listing is bytecode as a text, one instruction a line. `Bytecode.render` writes it and
`Bytecode.read` reads it. The reader ignores blank lines, blanks at the ends of a line and blanks
around operands; the mnemonic ends at the first space. It reports the first line that is not an
instruction, counting from one and counting blank lines too.
-/

namespace RegisterBackend

/-- Why a line is not an instruction. -/
inductive ListingFault where
  | unknownOpcode (name : String)
  | operandCount (expected found : Nat)
  | notRegister (text : String)
  | notLabel (text : String)
  | notSource (text : String)
  | notText (text : String) (fault : Text.QuoteFault)
  /-- A fault put in words by whoever reports it. -/
  | other (text : String)
deriving DecidableEq, Repr

/-- The wording of a fault. -/
def ListingFault.message : ListingFault → String
  | .unknownOpcode name => "unknown opcode '" ++ name ++ "'"
  | .operandCount expected found => s!"expected {expected} operands, found {found}"
  | .notRegister text => "expected a register, found '" ++ text ++ "'"
  | .notLabel text => "expected a label, found '" ++ text ++ "'"
  | .notSource text => "expected a literal or register, found '" ++ text ++ "'"
  | .notText text .unquoted => "expected quoted text, found '" ++ text ++ "'"
  | .notText _ (.unknownEscape c) => "unknown escape '\\" ++ c.toString ++ "'"
  | .notText _ .danglingEscape => "dangling escape at end of text"
  | .other text => text

/-- Where a listing cannot be read, and why. -/
structure ListingError where
  /-- The number of the line, counted from one. -/
  line : Nat
  fault : ListingFault
deriving DecidableEq, Repr

/-- The wording of a listing error. -/
def ListingError.message (e : ListingError) : String :=
  "invalid listing at line " ++ e.line.repr ++ ": " ++ e.fault.message

/-! ## Operands -/

/-- The register that a text denotes. -/
def Register.read (cs : List Char) : Except ListingFault Register :=
  match (Text.dropStart? "REG_".toList cs).bind Text.readUInt32? with
  | some number => .ok ⟨number⟩
  | none => .error (.notRegister (String.ofList cs))

/-- The label that a text denotes. -/
def Label.read (cs : List Char) : Except ListingFault Label :=
  match (Text.dropStart? "LABEL_".toList cs).bind Text.readUInt32? with
  | some number => .ok ⟨number⟩
  | none => .error (.notLabel (String.ofList cs))

/-- The source that a text denotes; what starts like a register must be one. -/
def Source.read (cs : List Char) : Except ListingFault Source :=
  if (Text.dropStart? "REG_".toList cs).isSome then
    (Register.read cs).map .register
  else
    match Text.readInt64? cs with
    | some value => .ok (.literal value)
    | none => .error (.notSource (String.ofList cs))

/-- The operands of an instruction, divided by commas. -/
def splitOperands (cs : List Char) : List (List Char) :=
  (Text.splitAt ',' cs).map Text.trim

/-! ## Lines -/

namespace Instruction

/-- The instruction of a form with the operands in a text. -/
def readOperands (op : Opcode) (cs : List Char) : Except ListingFault Instruction :=
  match op with
  | .print =>
    let text := Text.trim cs
    match Text.unquote text with
    | .ok content => .ok (.print (String.ofList content))
    | .error fault => .error (.notText (String.ofList text) fault)
  | .set =>
    match splitOperands cs with
    | [dst, src] => return .set (← Register.read dst) (← Source.read src)
    | operands => .error (.operandCount 2 operands.length)
  | .arith op =>
    match splitOperands cs with
    | [dst, lhs, rhs] =>
      return .arith op (← Register.read dst) (← Register.read lhs) (← Register.read rhs)
    | operands => .error (.operandCount 3 operands.length)
  | .compare op =>
    match splitOperands cs with
    | [dst, lhs, rhs] =>
      return .compare op (← Register.read dst) (← Register.read lhs) (← Register.read rhs)
    | operands => .error (.operandCount 3 operands.length)
  | .jump =>
    match splitOperands cs with
    | [target] => return .jump (← Label.read target)
    | operands => .error (.operandCount 1 operands.length)
  | .branch onNonzero =>
    match splitOperands cs with
    | [cond, target] => return .branch onNonzero (← Register.read cond) (← Label.read target)
    | operands => .error (.operandCount 2 operands.length)
  | .label =>
    match splitOperands cs with
    | [target] => return .label (← Label.read target)
    | operands => .error (.operandCount 1 operands.length)

/-- The instruction on a line without blanks at its ends. -/
def read (line : List Char) : Except ListingFault Instruction :=
  let (name, operands) := Text.cutAt ' ' line
  match Opcode.ofName? (String.ofList name) with
  | some op => readOperands op operands
  | none => .error (.unknownOpcode (String.ofList name))

end Instruction

/-- The instructions on the lines of a listing, the first of which has the given number. -/
def readLines (number : Nat) : List (List Char) → Except ListingError (List Instruction)
  | [] => .ok []
  | raw :: lines =>
    let line := Text.trim raw
    if line = [] then
      readLines (number + 1) lines
    else
      match Instruction.read line with
      | .error fault => .error ⟨number, fault⟩
      | .ok i => (readLines (number + 1) lines).map (i :: ·)

namespace Bytecode

/-- The listing of a program. -/
def render (code : Bytecode) : String :=
  String.join (code.instructions.toList.map fun i => i.render ++ "\n")

/-- The program of a listing. -/
def read (listing : String) : Except ListingError Bytecode :=
  (readLines 1 (Text.splitAt '\n' listing.toList)).map fun is => ⟨is.toArray⟩

end Bytecode

end RegisterBackend
