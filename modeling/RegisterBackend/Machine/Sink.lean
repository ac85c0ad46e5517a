/-!
# Sinks for output

A `Sink` takes the text that a run prints. It says what a write and a flush do to its state and when
they fail. `Buffer` keeps the text in memory; it can be given room for a number of bytes only, and
it can be told to refuse to be flushed.
-/

namespace RegisterBackend

/-- Something that takes output, with states of type `σ`. A failure is described in words and
leaves a state, too. -/
structure Sink (σ : Type) where
  write : String → EStateM String σ Unit
  flush : EStateM String σ Unit

/-- Writes a line: first its text, if it has one, and then the line end. -/
def Sink.writeLine {σ : Type} (sink : Sink σ) (text : String) : EStateM String σ Unit := do
  if text = "" then
    sink.write "\n"
  else
    sink.write text
    sink.write "\n"

/-- Output kept in memory. -/
structure Buffer where
  text : String
  /-- The number of bytes that there is room for. -/
  limit : Option Nat
  refusesFlush : Bool
deriving DecidableEq, Repr

namespace Buffer

/-- An empty buffer. -/
def empty (limit : Option Nat) (refusesFlush : Bool) : Buffer :=
  ⟨"", limit, refusesFlush⟩

/-- The number of bytes written. -/
def byteSize (b : Buffer) : Nat :=
  b.text.utf8ByteSize

/-- Whether there is room for a text. -/
def hasRoom (b : Buffer) (text : String) : Bool :=
  match b.limit with
  | some limit => b.byteSize + text.utf8ByteSize ≤ limit
  | none => true

/-- Appends a text as a whole or, if there is no room for it, not at all. -/
def write (text : String) : EStateM String Buffer Unit := do
  if (← get).hasRoom text then
    modify fun b => { b with text := b.text ++ text }
  else
    throw "sink full"

/-- Has nothing to do; fails if the buffer was told to refuse. -/
def flush : EStateM String Buffer Unit := do
  if (← get).refusesFlush then throw "flush refused"

/-- The buffer as a sink. -/
def sink : Sink Buffer :=
  ⟨write, flush⟩

end Buffer

end RegisterBackend
