import Std.Data.TreeMap
import Std.Data.TreeSet

/-!
# Tables keyed by name

Tables and sets of variable and function names. Both are walked in the order of the names, which
compares code points, so whatever is computed from them does not depend on how they were filled.
-/

namespace RegisterBackend

/-- A finite table from names to values. -/
abbrev NameMap (α : Type) : Type :=
  Std.TreeMap String α

/-- A finite set of names. -/
abbrev NameSet : Type :=
  Std.TreeSet String

end RegisterBackend
