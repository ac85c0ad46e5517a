import RegisterBackend.Bytecode.Instruction
import RegisterBackend.Names
import RegisterBackend.Stack

/-!
# Which register holds which variable

Every assignment puts its value into a fresh register, so a name owns a stack of registers, the
newest of which holds its value. Code behind a block must find each value in one register, whichever
way it was reached. `Bindings.exitBlock` sees to that when a block ends, given the bindings at its
start:

* a name that was bound before the block goes back to the register it had, which takes over the
  newest value if the block assigned the name;
* a name that the block introduced is left with one register, its home. The home is prescribed by
  the other branch, if that has introduced the name too, and is the newest register otherwise.

The values are moved by copies, in the order of the names.
-/

namespace RegisterBackend

/-- The registers of each bound name. -/
structure Bindings where
  owned : NameMap (Stack Register)

/-- What is left to do when a block ends. -/
structure BlockExit where
  /-- The copies that bring values into their registers. -/
  copies : List Instruction
  /-- The names that the block introduced, with their homes. -/
  introduced : NameMap Register

namespace Bindings

/-- No name is bound. -/
def empty : Bindings :=
  ⟨∅⟩

/-- The register that holds a name's value. -/
def lookup (b : Bindings) (name : String) : Option Register :=
  b.owned[name]?.map (·.top)

/-- The number of registers that a name owns. -/
def depth (b : Bindings) (name : String) : Nat :=
  match b.owned[name]? with
  | some stack => stack.size
  | none => 0

/-- Gives a name a new register. -/
def bind (b : Bindings) (name : String) (r : Register) : Bindings :=
  ⟨b.owned.insert name (Stack.pushOn r b.owned[name]?)⟩

/-- Unbinds names. -/
def forget (b : Bindings) (names : List String) : Bindings :=
  ⟨names.foldl (fun owned name => owned.erase name) b.owned⟩

/-- The register that has to hold a name's value behind a block, given the bindings at its start,
the prescribed homes and the register that holds the value now. -/
def home (entry : Bindings) (homes : NameMap Register) (name : String) (now : Register) :
    Register :=
  match entry.lookup name with
  | some before => before
  | none => homes.getD name now

/-- The registers of a name behind a block. -/
def settle (entry : Bindings) (homes : NameMap Register) (name : String)
    (stack : Stack Register) : Stack Register :=
  match entry.owned[name]? with
  | some before => stack.truncate before.size
  | none => .singleton (homes.getD name stack.top)

/-- Ends a block that started with the bindings `entry`. -/
def exitBlock (b entry : Bindings) (homes : NameMap Register) : BlockExit × Bindings :=
  let copies := b.owned.toList.filterMap fun (name, stack) =>
    let dst := entry.home homes name stack.top
    if dst = stack.top then none else some (.set dst (.register stack.top))
  let introduced := b.owned.filterMap fun name stack =>
    if entry.owned.contains name then none else some (homes.getD name stack.top)
  (⟨copies, introduced⟩, ⟨b.owned.map (settle entry homes)⟩)

/-- Binds those of the given names that are not bound. -/
def adopt (b : Bindings) (homes : NameMap Register) : Bindings :=
  homes.foldl (fun b name r => if (b.lookup name).isNone then b.bind name r else b) b

end Bindings

end RegisterBackend
