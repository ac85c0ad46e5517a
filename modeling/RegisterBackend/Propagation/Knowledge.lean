import RegisterBackend.Names
import RegisterBackend.Stack
import RegisterBackend.Value

/-!
# Known values

`Knowledge` tells which variables are known to hold which value at a point of a program. Blocks
nest: `openFrame` starts a frame at the beginning of a block and `closeFrame` takes back, at its
end, what has been recorded since. `invalidate` forgets a variable for good, in the enclosing blocks
too.

Each name has a stack of values, one for each frame that recorded it, and each frame has the set of
the names it recorded. A frame may list a name whose values have been forgotten in an inner frame;
there is then nothing to take back.
-/

namespace RegisterBackend

/-- The values known at a point of a program. -/
structure Knowledge where
  /-- The known values of each name, the innermost first. -/
  values : NameMap (Stack Literal)
  /-- The names recorded in the innermost frame. -/
  inner : NameSet
  /-- The names recorded in the enclosing frames, from the inside out. -/
  outer : List NameSet

namespace Knowledge

/-- Nothing is known and no block is open. -/
def empty : Knowledge :=
  ⟨∅, ∅, []⟩

/-- The value that a name is known to hold. -/
def lookup (k : Knowledge) (name : String) : Option Literal :=
  k.values[name]?.map (·.top)

/-- The number of frames, that of the whole program included. -/
def depth (k : Knowledge) : Nat :=
  k.outer.length + 1

/-- Records the value of a name. In one frame, a later record takes the place of an earlier one. -/
def record (k : Knowledge) (name : String) (value : Literal) : Knowledge :=
  match k.values[name]? with
  | some stack =>
    if k.inner.contains name then
      { k with values := k.values.insert name (stack.setTop value) }
    else
      { k with values := k.values.insert name (stack.push value), inner := k.inner.insert name }
  | none =>
    { k with values := k.values.insert name (.singleton value), inner := k.inner.insert name }

/-- Forgets all that is known of a name. -/
def invalidate (k : Knowledge) (name : String) : Knowledge :=
  { k with values := k.values.erase name, inner := k.inner.erase name }

/-- Forgets all that is known of several names. -/
def invalidateAll (k : Knowledge) (names : List String) : Knowledge :=
  names.foldl invalidate k

/-- Starts a frame. -/
def openFrame (k : Knowledge) : Knowledge :=
  { k with inner := ∅, outer := k.inner :: k.outer }

/-- Ends the innermost frame and takes back what it recorded. The outermost frame does not end. -/
def closeFrame (k : Knowledge) : Knowledge :=
  match k.outer with
  | [] => k
  | frame :: frames =>
    let values := k.values.filterMap fun name stack =>
      if k.inner.contains name then stack.pop? else some stack
    ⟨values, frame, frames⟩

end Knowledge

end RegisterBackend
