/-!
# Decimal numerals

Reading of decimal numbers as they stand in a listing: at least one of the digits 0 to 9, leading
zeros allowed, and an optional sign in front. A number that does not fit its word is refused.
-/

namespace RegisterBackend.Text

/-- The number that a text of digits denotes. -/
def readDigits? (cs : List Char) : Option Nat :=
  if cs ≠ [] ∧ cs.all Char.isDigit then some (Nat.ofDigitChars 10 cs 0) else none

/-- The unsigned 32-bit number that a text denotes. It may be signed by a plus. -/
def readUInt32? (cs : List Char) : Option UInt32 :=
  let digits := match cs with
    | '+' :: rest => rest
    | _ => cs
  match readDigits? digits with
  | some n => if n < UInt32.size then some (UInt32.ofNat n) else none
  | none => none

/-- The integer that a text denotes. It may be signed by a plus or a minus. -/
def readInt? : List Char → Option Int
  | '-' :: digits => (readDigits? digits).map fun n => -(n : Int)
  | '+' :: digits => (readDigits? digits).map Int.ofNat
  | digits => (readDigits? digits).map Int.ofNat

/-- The signed 64-bit number that a text denotes. -/
def readInt64? (cs : List Char) : Option Int64 :=
  match readInt? cs with
  | some i =>
    if Int64.minValue.toInt ≤ i ∧ i ≤ Int64.maxValue.toInt then some (Int64.ofInt i) else none
  | none => none

end RegisterBackend.Text
