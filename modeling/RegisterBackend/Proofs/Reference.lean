import Mathlib.Data.Finset.Basic
import Mathlib.Logic.Function.Basic
import RegisterBackend.Proofs.Command

/-!
# The reference semantics

A command runs over a store, which says what each name has been assigned, and prints lines. To read
a name that has not been assigned is an error; the run is then stuck. `Command.eval` runs a command
with a bound on the rounds of each loop. A run that needs more rounds is cut off and tells how far
it got, so a command runs forever if it is cut off at every bound.

`Command.definite` is a check that no name is read before it is assigned. It follows the text with
the set of names that have been assigned on every path. Of a branch it also asks that a name which
may be assigned in both of its blocks, and was not assigned before, is assigned on every path
through the second one.
-/

namespace RegisterBackend

/-- How a run with a bound on its loops ended. -/
inductive Outcome (α : Type) where
  /-- The run came to its end. -/
  | done (state : α)
  /-- The run is stuck. -/
  | stuck (state : α)
  /-- The run was cut off. -/
  | cutOff (state : α)

namespace Outcome

variable {α : Type}

/-- Continues a run that came to its end. -/
def andThen : Outcome α → (α → Outcome α) → Outcome α
  | .done a, next => next a
  | .stuck a, _ => .stuck a
  | .cutOff a, _ => .cutOff a

@[simp] theorem done_andThen (a : α) (next : α → Outcome α) :
    (Outcome.done a).andThen next = next a := rfl
@[simp] theorem stuck_andThen (a : α) (next : α → Outcome α) :
    (Outcome.stuck a).andThen next = .stuck a := rfl
@[simp] theorem cutOff_andThen (a : α) (next : α → Outcome α) :
    (Outcome.cutOff a).andThen next = .cutOff a := rfl

/-- Repeats a body as long as a test holds, for at most the given number of rounds. -/
def repeatWhile (test : α → Option Bool) (body : α → Outcome α) : Nat → α → Outcome α
  | 0, a => .cutOff a
  | rounds + 1, a =>
    match test a with
    | some true => (body a).andThen (repeatWhile test body rounds)
    | some false => .done a
    | none => .stuck a

/-- A loop that comes to its end keeps what each of its rounds keeps. -/
theorem repeatWhile_done {test : α → Option Bool} {body : α → Outcome α} {P : α → Prop}
    (hbody : ∀ {a b}, P a → body a = .done b → P b) :
    ∀ {rounds : Nat} {a b : α}, P a → repeatWhile test body rounds a = .done b → P b
  | 0, _, _, _, h => by cases h
  | rounds + 1, a, b, ha, h => by
    simp only [repeatWhile] at h
    split at h
    · cases hb : body a with
      | done c =>
        rw [hb, done_andThen] at h
        exact repeatWhile_done hbody (hbody ha hb) h
      | stuck c => rw [hb] at h; cases h
      | cutOff c => rw [hb] at h; cases h
    · cases h
      exact ha
    · cases h

/-- Two loops run alike if their tests and bodies do, where what the rounds keep holds. -/
theorem repeatWhile_congr {test test' : α → Option Bool} {body body' : α → Outcome α} {P : α → Prop}
    (h : ∀ a, P a → test' a = test a ∧ body' a = body a ∧ ∀ b, body a = .done b → P b) :
    ∀ {rounds : Nat} {a : α}, P a → repeatWhile test' body' rounds a = repeatWhile test body rounds a
  | 0, _, _ => rfl
  | rounds + 1, a, ha => by
    obtain ⟨htest, hbody, hkeep⟩ := h a ha
    simp only [repeatWhile, htest, hbody]
    cases hb : body a with
    | done b => simp only [done_andThen, repeatWhile_congr h (hkeep b hb)]
    | stuck b => rfl
    | cutOff b => rfl

/-- The state in which a run came to its end. -/
def done? : Outcome α → Option α
  | .done a => some a
  | .stuck _ | .cutOff _ => none

/-- `done?` has a result exactly if the run came to its end. -/
theorem done?_eq_some {o : Outcome α} {a : α} : o.done? = some a ↔ o = .done a := by
  cases o <;> simp [done?]

/-- A run in sequence came to its end exactly if both parts did. -/
theorem andThen_eq_done {o : Outcome α} {next : α → Outcome α} {b : α} :
    o.andThen next = .done b ↔ ∃ a, o = .done a ∧ next a = .done b := by
  cases o <;> simp

end Outcome

/-- What the names have been assigned, and the lines printed. -/
structure Store where
  env : String → Option Int64
  lines : List String

namespace Store

/-- Nothing has been assigned or printed. -/
def empty : Store :=
  ⟨fun _ => none, []⟩

/-- Assigns a name. -/
def assign (st : Store) (name : String) (value : Int64) : Store :=
  { st with env := Function.update st.env name (some value) }

/-- Prints a line. -/
def print (st : Store) (text : String) : Store :=
  { st with lines := st.lines ++ [text] }

end Store

namespace Command

/-- Runs a command with a bound on the rounds of each loop. -/
def eval (fuel : Nat) : Command → Store → Outcome Store
  | .skip, st => .done st
  | .seq first second, st => (first.eval fuel st).andThen (second.eval fuel)
  | .assign name value, st =>
    match value.eval st.env with
    | some v => .done (st.assign name v)
    | none => .stuck st
  | .ifElse test thenBranch elseBranch, st =>
    match test.eval st.env with
    | some true => thenBranch.eval fuel st
    | some false => elseBranch.eval fuel st
    | none => .stuck st
  | .whileLoop test body, st =>
    Outcome.repeatWhile (fun st => test.eval st.env) (body.eval fuel) fuel st
  | .print text, st => .done (st.print text)

/-- The command comes to its end with a final store. -/
def Terminates (c : Command) (st : Store) : Prop :=
  ∃ fuel, c.eval fuel .empty = .done st

/-- The command reads a name that has not been assigned, when the store is the given one. -/
def ReadsUnassigned (c : Command) (st : Store) : Prop :=
  ∃ fuel, c.eval fuel .empty = .stuck st

/-- The command runs forever. -/
def Diverges (c : Command) : Prop :=
  ∀ fuel, ∃ st, c.eval fuel .empty = .cutOff st

/-! ## Definite assignment -/

/-- The names that have been assigned on every path behind a command, given those before it, or
nothing if a name may be read too early. -/
def definite : Command → Finset String → Option (Finset String)
  | .skip, D | .print _, D => some D
  | .seq first second, D => (first.definite D).bind second.definite
  | .assign name value, D => if ∀ x ∈ value.names, x ∈ D then some (insert name D) else none
  | .ifElse test thenBranch elseBranch, D =>
    match thenBranch.definite D, elseBranch.definite D with
    | some D₁, some D₂ =>
      if (∀ x ∈ test.names, x ∈ D) ∧
          (∀ x ∈ thenBranch.assigned, x ∈ elseBranch.assigned → x ∉ D → x ∈ D₂) then
        some (D₁ ∩ D₂)
      else
        none
    | _, _ => none
  | .whileLoop test body, D =>
    match body.definite D with
    | some _ => if ∀ x ∈ test.names, x ∈ D then some D else none
    | none => none

/-- No name is read too early. -/
def DefinitelyAssigned (c : Command) : Prop :=
  ∃ D, c.definite ∅ = some D

instance (c : Command) : Decidable c.DefinitelyAssigned :=
  decidable_of_iff ((c.definite ∅).isSome = true) Option.isSome_iff_exists

end Command

end RegisterBackend
