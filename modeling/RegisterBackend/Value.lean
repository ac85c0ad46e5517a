/-!
# Kinds and literals

A value is a scalar, a 64-bit word, or an array of small integers. `Kind` tells the two apart and
`Literal` is a value written down in a program. An array literal is made by `Literal.ofElements`,
which admits the elements from `Literal.leastElement` to `Literal.greatestElement` only; a literal
that was not made there may hold any byte, so the program check looks again.
-/

namespace RegisterBackend

/-- What sort of value an expression has. -/
inductive Kind where
  | scalar
  | array
deriving DecidableEq, Repr

/-- The kind's name in messages and outlines. -/
def Kind.name : Kind → String
  | .scalar => "Scalar"
  | .array => "Array"

/-- A value written down in a program. -/
inductive Literal where
  | scalar (value : Int64)
  | array (elements : List Int8)
deriving DecidableEq, Repr

namespace Literal

/-- The kind of a literal. -/
def kind : Literal → Kind
  | .scalar _ => .scalar
  | .array _ => .array

/-- The number of a scalar literal. -/
def asScalar? : Literal → Option Int64
  | .scalar value => some value
  | .array _ => none

/-- The text of a literal: a decimal number, or the elements in brackets. -/
def render : Literal → String
  | .scalar value => value.toInt.repr
  | .array elements => "[" ++ ", ".intercalate (elements.map (·.toInt.repr)) ++ "]"

/-- The least number an array may hold. -/
def leastElement : Int64 := -126

/-- The greatest number an array may hold. -/
def greatestElement : Int64 := 127

/-- Whether a number may stand in an array. -/
def isElement (value : Int64) : Bool :=
  leastElement ≤ value && value ≤ greatestElement

/-- The first number that may not stand in an array. -/
def badElement? (values : List Int64) : Option Int64 :=
  values.find? fun value => !isElement value

/-- An array literal of the given numbers, or the first of them that may not stand in one. -/
def ofElements (values : List Int64) : Except Int64 Literal :=
  match badElement? values with
  | some value => .error value
  | none => .ok (.array (values.map Int64.toInt8))

end Literal

end RegisterBackend
