/-!
# Stacks that are never empty

The tables of the propagation pass and of the lowering keep, per name, the values that the name
held in the enclosing blocks, the innermost first. A name without a value has no stack at all, so
a stack has a top by construction.
-/

namespace RegisterBackend

/-- A stack with at least one element. -/
structure Stack (α : Type) where
  /-- The newest element. -/
  top : α
  /-- The older elements, newest first. -/
  below : List α
deriving DecidableEq, Repr

namespace Stack

variable {α : Type}

/-- The stack of one element. -/
def singleton (a : α) : Stack α :=
  ⟨a, []⟩

/-- The number of elements. -/
def size (s : Stack α) : Nat :=
  s.below.length + 1

/-- The elements, newest first. -/
def toList (s : Stack α) : List α :=
  s.top :: s.below

/-- Puts an element on top. -/
def push (a : α) (s : Stack α) : Stack α :=
  ⟨a, s.top :: s.below⟩

/-- Puts an element on top of a stack that may be missing. -/
def pushOn (a : α) : Option (Stack α) → Stack α
  | none => singleton a
  | some s => s.push a

/-- Exchanges the newest element. -/
def setTop (a : α) (s : Stack α) : Stack α :=
  { s with top := a }

/-- Takes the newest element off; nothing is left of a stack of one element. -/
def pop? (s : Stack α) : Option (Stack α) :=
  match s.below with
  | [] => none
  | a :: rest => some ⟨a, rest⟩

/-- Keeps the oldest `n` elements of a stack given by its top and the rest, and at least one. -/
def keepOldest (n : Nat) : α → List α → Stack α
  | a, [] => ⟨a, []⟩
  | a, b :: rest => if rest.length + 2 ≤ n then ⟨a, b :: rest⟩ else keepOldest n b rest

/-- Cuts a stack down to its oldest `n` elements; the oldest one stays in any case. -/
def truncate (s : Stack α) (n : Nat) : Stack α :=
  keepOldest n s.top s.below

end Stack

end RegisterBackend
