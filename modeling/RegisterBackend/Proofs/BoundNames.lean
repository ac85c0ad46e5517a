import Mathlib.Data.Finset.Basic
import Mathlib.Data.Set.Basic
import RegisterBackend.Proofs.Placement

/-!
# Names that are bound where they are read

Lowering of a command reads the names of the text in order: the left operand before the right one,
the condition before the blocks, the first block before the second. Which names are bound at a read
can be told from the text, too. `Command.mayAssign` follows the text with the set of names that some
assignment before has as its target, on whatever path, and `Command.mentions` lists the reads, each
with the set at its place.

Lowering succeeds if every name that is read is in the set at its place, and otherwise stops at the
first one that is not (`Command.lower_resolves`). A table of stacks that is saved, cut back, thinned
out between the blocks of a branch and filled up behind them comes to nothing more than this set. So
a command can be lowered exactly if it is readable (`Command.exists_lower_iff`).
-/

namespace RegisterBackend

open LowerM

/-! ## Reads in the text -/

/-- A name that is read, with the names that may have been assigned before. -/
structure Mention where
  name : String
  assigned : Finset String
deriving DecidableEq

/-- The name may have been assigned. -/
def Mention.Bound (m : Mention) : Prop :=
  m.name ∈ m.assigned

instance (m : Mention) : Decidable m.Bound :=
  inferInstanceAs (Decidable (m.name ∈ m.assigned))

/-- The first read of a name that cannot have been assigned. -/
def firstUnbound? (ms : List Mention) : Option Mention :=
  ms.find? fun m => ¬ m.Bound

theorem firstUnbound?_append {ms ns : List Mention} :
    firstUnbound? (ms ++ ns) = (firstUnbound? ms).or (firstUnbound? ns) :=
  List.find?_append

theorem firstUnbound?_eq_none {ms : List Mention} :
    firstUnbound? ms = none ↔ ∀ m ∈ ms, m.Bound := by
  simp [firstUnbound?]

namespace Command

/-- The names that may have been assigned behind a command. Those that a block assigns are among
them, whether the block is run or not. -/
def mayAssign : Command → Finset String → Finset String
  | .skip, B | .print _, B => B
  | .seq first second, B => second.mayAssign (first.mayAssign B)
  | .assign name _, B => insert name B
  | .ifElse _ thenBranch elseBranch, B =>
    B ∪ thenBranch.assigned.toFinset ∪ elseBranch.assigned.toFinset
  | .whileLoop _ body, B => B ∪ body.assigned.toFinset

/-- The names that a command reads, in the order of the text. -/
def mentions : Command → Finset String → List Mention
  | .skip, _ | .print _, _ => []
  | .seq first second, B => first.mentions B ++ second.mentions (first.mayAssign B)
  | .assign _ value, B => value.names.map (⟨·, B⟩)
  | .ifElse test thenBranch elseBranch, B =>
    test.names.map (⟨·, B⟩) ++ (thenBranch.mentions B ++ elseBranch.mentions B)
  | .whileLoop test body, B => test.names.map (⟨·, B⟩) ++ body.mentions B

/-- Behind a command, the names that it assigns may have been assigned besides those before. -/
theorem mem_mayAssign {c : Command} {B : Finset String} {x : String} :
    x ∈ c.mayAssign B ↔ x ∈ B ∨ x ∈ c.assigned := by
  induction c generalizing B with
  | skip | print => simp [mayAssign, assigned]
  | assign y v => simp [mayAssign, assigned, or_comm]
  | seq a b iha ihb => simp [mayAssign, assigned, iha, ihb, or_assoc]
  | ifElse t a b => simp [mayAssign, assigned]
  | whileLoop t b => simp [mayAssign, assigned]

/-- Which names may have been assigned behind a command depends on what it assigns only. -/
theorem mayAssign_congr {c c' : Command} {B : Finset String} (h : c'.assigned = c.assigned) :
    c'.mayAssign B = c.mayAssign B := by
  ext x
  rw [mem_mayAssign, mem_mayAssign, h]

end Command

/-! ## Steps that read names -/

/-- The steps read the listed names one after the other: they succeed if all are bound, and
otherwise they stop at the first one that is not. -/
def Resolves {α : Type} (m : LowerM α) (e : Emitter) (ms : List Mention) : Prop :=
  (firstUnbound? ms = none → ∃ a e', m.run e = .ok a e') ∧
    ∀ r, firstUnbound? ms = some r →
      ∃ e', m.run e = .error (.error (.unresolvedSymbol r.name)) e'

namespace Resolves

variable {α β : Type} {m : LowerM α} {e : Emitter} {ms ns : List Mention}

/-- Steps that succeed read no name that is not bound. -/
theorem of_ok {a : α} {e' : Emitter} (h : m.run e = .ok a e') : Resolves m e [] := by
  refine ⟨fun _ => ⟨a, e', h⟩, ?_⟩
  intro r hr
  cases hr

theorem modifyGet (f : Emitter → α × Emitter) : Resolves (modifyGet f) e [] :=
  of_ok rfl

/-- Steps one after the other read what the first ones read and then what the others do. -/
theorem bind {f : α → LowerM β} (h : Resolves m e ms)
    (hf : ∀ a e', m.run e = .ok a e' → Resolves (f a) e' ns) :
    Resolves (m >>= f) e (ms ++ ns) := by
  obtain ⟨hok, herror⟩ := h
  rw [Resolves, firstUnbound?_append]
  cases hms : firstUnbound? ms with
  | none =>
    obtain ⟨a, e', ha⟩ := hok hms
    rw [Option.none_or, run_bind_ok ha]
    exact hf a e' ha
  | some r =>
    obtain ⟨e', he⟩ := herror r hms
    rw [Option.some_or]
    constructor
    · intro hnone
      cases hnone
    · rintro _ ⟨⟩
      exact ⟨e', run_bind_error he⟩

/-- A last step that reads nothing may follow. -/
theorem andThen {f : α → LowerM β} (h : Resolves m e ms) (hf : ∀ a e', Resolves (f a) e' []) :
    Resolves (m >>= f) e ms := by
  rw [← List.append_nil ms]
  exact h.bind fun a e' _ => hf a e'

/-- Steps that read names succeed exactly if all of them are bound. -/
theorem exists_run_iff (h : Resolves m e ms) :
    (∃ a e', m.run e = .ok a e') ↔ ∀ r ∈ ms, r.Bound := by
  obtain ⟨hok, herror⟩ := h
  refine ⟨?_, fun hall => hok (firstUnbound?_eq_none.2 hall)⟩
  rintro ⟨a, e', hrun⟩
  refine firstUnbound?_eq_none.1 ?_
  cases hfirst : firstUnbound? ms with
  | none => rfl
  | some r =>
    obtain ⟨_, herr⟩ := herror r hfirst
    cases hrun.symm.trans herr

theorem of_run_eq {m' : LowerM α} {e' : Emitter} (h : m.run e = m'.run e')
    (hm' : Resolves m' e' ms) : Resolves m e ms := by
  rwa [Resolves, h]

end Resolves

/-- The names of a set are those that are bound. -/
def Emitter.Binds (e : Emitter) (B : Finset String) : Prop :=
  ∀ x, (e.bindings.lookup x).isSome ↔ x ∈ B

/-- Which names are bound depends on the bindings alone. -/
theorem Emitter.Binds.congr {e e' : Emitter} {B : Finset String} (h : e.Binds B)
    (he : e'.bindings = e.bindings) : e'.Binds B := by
  intro x
  rw [he]
  exact h x

theorem Emitter.binds_empty : Emitter.empty.Binds ∅ := by
  intro x
  simp [Emitter.empty, Bindings.empty, Bindings.lookup]

/-- An evaluable is lowered by reading its names. -/
theorem Expr.lower_resolves {x : Expr} {e : Emitter} {B : Finset String} (hB : e.Binds B) :
    Resolves x.lower e (x.names.map (⟨·, B⟩)) := by
  induction x generalizing e with
  | const v => exact .modifyGet _
  | var y =>
    have hy := hB y
    cases hlookup : e.bindings.lookup y with
    | some r =>
      have hmem : y ∈ B := by
        rw [← hy, hlookup]
        rfl
      have hrun : (Expr.var y).lower.run e = .ok r e := run_lower_var.2 ⟨hlookup, rfl⟩
      simp [Resolves, hrun, names, firstUnbound?, Mention.Bound, hmem]
    | none =>
      have hmem : y ∉ B := by
        rw [← hy, hlookup]
        exact Bool.false_ne_true
      have hrun : (Expr.var y).lower.run e = .error (.error (.unresolvedSymbol y)) e := by
        simp only [lower, EStateM.run_bind, EStateM.run_get, hlookup]
        rfl
      simp [Resolves, hrun, names, firstUnbound?, Mention.Bound, hmem]
  | arith op x y ihx ihy =>
    rw [names, List.map_append, lower]
    refine (ihx hB).bind fun a e₁ hx => ?_
    have hB₁ := hB.congr (lower_grows hx).bindings
    exact (ihy hB₁).andThen fun _ _ => .modifyGet _

/-- The value of an assignment is lowered by reading its names. -/
theorem Expr.lowerValue_resolves {x : Expr} {e : Emitter} {B : Finset String} (hB : e.Binds B) :
    Resolves x.lowerValue e (x.names.map (⟨·, B⟩)) := by
  cases x with
  | const v => exact lower_resolves hB
  | arith op x y => exact lower_resolves hB
  | var y => exact (lower_resolves hB).andThen fun _ _ => .modifyGet _

/-- A comparison is lowered by reading its names. -/
theorem Test.lower_resolves {t : Test} {e : Emitter} {B : Finset String} (hB : e.Binds B) :
    Resolves t.lower e (t.names.map (⟨·, B⟩)) := by
  rw [names, List.map_append, lower]
  refine (Expr.lower_resolves hB).bind fun a e₁ hx => ?_
  have hB₁ := hB.congr (Expr.lower_grows hx).bindings
  exact (Expr.lower_resolves hB₁).andThen fun _ _ => .modifyGet _

/-- A branch is lowered by reading the names of its blocks, each from where the layout puts it. -/
theorem Resolves.lowerIfElse {cond : Register} {a b : LowerM Unit} {e : Emitter}
    {ms ns : List Mention} (ha : Resolves a (e.beginThen cond) ms)
    (hb : ∀ e₁, a.run (e.beginThen cond) = .ok () e₁ → Resolves b (e.beginElse e₁) ns) :
    Resolves (Graph.lowerIfElse cond a b) e (ms ++ ns) := by
  refine .of_run_eq run_lowerIfElse (ha.bind fun _ e₁ h₁ => ?_)
  exact .of_run_eq run_closeThen ((hb e₁ h₁).andThen fun _ _ => .of_ok rfl)

/-- A loop is lowered by reading the names of its condition and of its body. -/
theorem Resolves.lowerWhile {a : LowerM Register} {b : LowerM Unit} {e : Emitter}
    {ms ns : List Mention} (ha : Resolves a e.beginLoop ms)
    (hb : ∀ cond e₁, a.run e.beginLoop = .ok cond e₁ → Resolves b (e.beginBody e₁ cond) ns) :
    Resolves (Graph.lowerWhile a b) e (ms ++ ns) := by
  refine .of_run_eq run_lowerWhile (ha.bind fun cond e₁ h₁ => ?_)
  exact .of_run_eq run_enterBody ((hb cond e₁ h₁).andThen fun _ _ => .of_ok rfl)

/-! ## Scopes -/

/-- The names that are found somewhere. -/
def Scope.bound (s : Scope) : Set String :=
  {x | (s.cell x).isSome}

/-- The names that are found somewhere are those that are bound. -/
theorem Placed.isSome_lookup_iff {F : List Nat} {s : Scope} {e : Emitter} (h : Placed F s e)
    (hs : s.WF) {x : String} : (e.bindings.lookup x).isSome ↔ x ∈ s.bound := by
  show _ ↔ (s.cell x).isSome
  cases hx : s.cell x with
  | none => simp [h.lookup_of_none hx]
  | some k =>
    obtain ⟨i, -, -, hi⟩ := h.lookup_of_some hs hx
    simp [hi]

/-- Behind a command, the names that it assigns are bound besides those that were before. -/
theorem Command.bound_after (c : Command) (s : Scope) :
    (c.after s).bound = s.bound ∪ {x | x ∈ c.assigned} := by
  ext x
  constructor
  · intro hx
    by_cases hmem : x ∈ c.assigned
    · exact .inr hmem
    · refine .inl ?_
      show (s.cell x).isSome
      rw [← after_cell_of_not_mem hmem]
      exact hx
  · rintro (hx | hx)
    · exact isSome_after_cell hx
    · exact isSome_after_cell_of_mem hx s

/-! ## Commands -/

namespace Command

variable {F : List Nat} {s : Scope} {e e₀ e₁ : Emitter} {t : Test} {cond : Register}
  {B : Finset String}

/-- The first block of a branch begins with the bindings before it. -/
theorem placed_beginThen (ht : t.lower.run e = .ok cond e₀) (hp : Placed F s e) :
    Placed F s (e₀.beginThen cond) :=
  (hp.test ht).mono _ (Nat.le_refl _) rfl

/-- The second block of a branch begins with the bindings before it, too. -/
theorem placed_beginElse {a : Command} (ht : t.lower.run e = .ok cond e₀)
    (ha : a.lower.run (e₀.beginThen cond) = .ok () e₁) (hs : s.WF) (hp : Placed F s e) :
    Placed (F ++ a.homes e₀.registers) ⟨(a.after s).next, s.cell⟩ (e₀.beginElse e₁) := by
  obtain ⟨hp₁, habove⟩ := placed_after ha hs (placed_beginThen ht hp)
  exact .beginElse hs hp.length (hp.test ht) hp₁ habove

/-- The body of a loop begins with the bindings before it. -/
theorem placed_beginBody (ht : t.lower.run e.beginLoop = .ok cond e₁) (hp : Placed F s e) :
    Placed F s (e.beginBody e₁ cond) :=
  (hp.loopTest ht).mono _ (Nat.le_refl _) rfl

/-- Behind a command, the names that may have been assigned are those that are bound. -/
theorem binds_after {c : Command} (h : c.lower.run e = .ok () e₁) (hs : s.WF) (hp : Placed F s e)
    (hB : e.Binds B) : e₁.Binds (c.mayAssign B) := by
  intro x
  have hbound : x ∈ s.bound ↔ x ∈ B := (hp.isSome_lookup_iff hs).symm.trans (hB x)
  rw [(placed_after h hs hp).1.isSome_lookup_iff (wf_after hs), bound_after, mem_mayAssign, ← hbound]
  exact Iff.rfl

/-- A command is lowered by reading its names. -/
theorem lower_resolves {c : Command} (hs : s.WF) (hp : Placed F s e) (hB : e.Binds B) :
    Resolves c.lower e (c.mentions B) := by
  induction c generalizing F s e B with
  | skip => exact .of_ok rfl
  | print text => exact .of_ok rfl
  | assign x v => exact (Expr.lowerValue_resolves hB).andThen fun _ _ => .of_ok rfl
  | seq a b iha ihb =>
    refine (iha hs hp hB).bind fun _ e₁ ha => ?_
    exact ihb (wf_after hs) (placed_after ha hs hp).1 (binds_after ha hs hp hB)
  | ifElse t a b iha ihb =>
    refine (Test.lower_resolves hB).bind fun cond e₀ ht => ?_
    have hB₀ := hB.congr (Test.lower_grows ht).1.bindings
    refine .lowerIfElse (iha hs (placed_beginThen ht hp) (hB₀.congr rfl)) fun e₁ ha => ?_
    have hp₁ := placed_beginElse ht ha hs hp
    have hnext := hs.mono (a.next_le_after s)
    -- the second block is lowered with the names that were bound before the branch
    have hB₁ : (e₀.beginElse e₁).Binds B := by
      intro x
      rw [hp₁.isSome_lookup_iff hnext, ← hB x, hp.isSome_lookup_iff hs]
      exact Iff.rfl
    exact ihb hnext hp₁ hB₁
  | whileLoop t b ih =>
    refine .lowerWhile (Test.lower_resolves (hB.congr rfl)) fun cond e₁ ht => ?_
    have hB₁ : e₁.Binds B := hB.congr (Test.lower_grows ht).1.bindings
    exact ih hs (placed_beginBody ht hp) (hB₁.congr rfl)

/-! ## Readable commands -/

/-- With the names of a set bound before it, a command reads only names that are bound. -/
def Readable (c : Command) (B : Finset String) : Prop :=
  ∀ m ∈ c.mentions B, m.Bound

theorem readable_skip : Command.skip.Readable B := by
  simp [Readable, mentions]

theorem readable_print (text : String) : (Command.print text).Readable B := by
  simp [Readable, mentions]

theorem readable_assign {x : String} {v : Expr} :
    (Command.assign x v).Readable B ↔ ∀ y ∈ v.names, y ∈ B := by
  simp [Readable, mentions, Mention.Bound]

theorem readable_seq {a b : Command} :
    (Command.seq a b).Readable B ↔ a.Readable B ∧ b.Readable (a.mayAssign B) := by
  simp [Readable, mentions, or_imp, forall_and]

theorem readable_ifElse {a b : Command} : (Command.ifElse t a b).Readable B ↔
    (∀ y ∈ t.names, y ∈ B) ∧ a.Readable B ∧ b.Readable B := by
  simp [Readable, mentions, Mention.Bound, or_imp, forall_and]

theorem readable_whileLoop {b : Command} : (Command.whileLoop t b).Readable B ↔
    (∀ y ∈ t.names, y ∈ B) ∧ b.Readable B := by
  simp [Readable, mentions, Mention.Bound, or_imp, forall_and]

/-- A command can be lowered exactly if it reads only names that are bound. -/
theorem exists_lower_iff {c : Command} (hs : s.WF) (hp : Placed F s e) (hB : e.Binds B) :
    (∃ e', c.lower.run e = .ok () e') ↔ c.Readable B := by
  rw [Readable, ← (lower_resolves hs hp hB).exists_run_iff]
  exact ⟨fun ⟨e', h⟩ => ⟨(), e', h⟩, fun ⟨_, e', h⟩ => ⟨e', h⟩⟩

end Command

end RegisterBackend
