/-!
# Arithmetic and comparison

The operators of the graph and of the machine are the same. Arithmetic is that of 64-bit words:
a result that does not fit wraps around.
-/

namespace RegisterBackend

/-- A binary operator on numbers. -/
inductive ArithOp where
  | add
  | sub
  | mul
deriving DecidableEq, Repr

namespace ArithOp

/-- The sign of an operator. -/
def symbol : ArithOp → String
  | .add => "+"
  | .sub => "-"
  | .mul => "*"

/-- The operator with a given sign. -/
def ofSymbol? : String → Option ArithOp
  | "+" => some .add
  | "-" => some .sub
  | "*" => some .mul
  | _ => none

/-- The value of an operation, reduced to 64 bits. -/
def apply : ArithOp → Int64 → Int64 → Int64
  | .add, a, b => a + b
  | .sub, a, b => a - b
  | .mul, a, b => a * b

end ArithOp

/-- A comparison of two numbers. -/
inductive CompareOp where
  | equals
  | greater
deriving DecidableEq, Repr

namespace CompareOp

/-- Whether the comparison holds. -/
def holds : CompareOp → Int64 → Int64 → Bool
  | .equals, a, b => a == b
  | .greater, a, b => a > b

/-- The comparison's result as a machine word: one if it holds and zero if not. -/
def apply (op : CompareOp) (a b : Int64) : Int64 :=
  if op.holds a b then 1 else 0

end CompareOp

end RegisterBackend
