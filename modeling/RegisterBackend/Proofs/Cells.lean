import RegisterBackend.Proofs.Reference

/-!
# Where the values of names are kept

Lowering gives every assignment of the text a place of its own, and decides at each point of the
text in which place a name is found. This module describes a run with these places and without
registers, labels and jumps. The places are cells, numbered in the order of the assignments in the
text; a `Scope` says in which cell each name is found, and `Command.after` how a command changes
that:

* an assignment puts its value into its own cell, where the name is found from then on;
* behind a block, a name that was found somewhere before the block is found there again. A name that
  a block introduced stays where the block left it, and where both blocks of a branch introduced it,
  where the first one did.

`Command.exec` runs a command. At the end of a block the values are moved to where they are found
behind it (`Memory.settle`). A run is stuck if it has to read or to move a value and the cell is
empty.

Cells keep their contents when they are not in use, and come back into use when a loop comes round.
So what a name is found to hold need not be what it was last assigned. To tell these apart, each
value carries the serial number of the assignment that made it, and the memory also notes what each
name was assigned last. Neither is looked at by a run.
-/

namespace RegisterBackend

/-! ## Scopes -/

/-- In which cell each name is found, and the number of the next cell. -/
structure Scope where
  next : Nat
  cell : String → Option Nat

namespace Scope

/-- No name is found anywhere. -/
def empty : Scope :=
  ⟨0, fun _ => none⟩

/-- A scope looks up used cells only, and no two names in one cell. -/
structure WF (s : Scope) : Prop where
  lt_next : ∀ {x k}, s.cell x = some k → k < s.next
  inj : ∀ {x y k}, s.cell x = some k → s.cell y = some k → x = y

/-- A name found in one of two places; the first one counts. -/
def join (f g : String → Option Nat) (x : String) : Option Nat :=
  (f x).or (g x)

theorem join_of_some {f g : String → Option Nat} {x : String} {k : Nat} (h : f x = some k) :
    join f g x = some k := by
  rw [join, h, Option.some_or]

theorem wf_empty : empty.WF :=
  ⟨nofun, nofun⟩

/-- More cells may be in use than names are found in. -/
theorem WF.mono {s : Scope} (h : s.WF) {n : Nat} (hn : s.next ≤ n) : Scope.WF ⟨n, s.cell⟩ :=
  ⟨fun hx => Nat.lt_of_lt_of_le (h.lt_next hx) hn, h.inj⟩

end Scope

/-- Where names are found behind a command. -/
def Command.after : Command → Scope → Scope
  | .skip, s | .print _, s => s
  | .seq first second, s => second.after (first.after s)
  | .assign name _, s => ⟨s.next + 1, Function.update s.cell name (some s.next)⟩
  | .ifElse _ thenBranch elseBranch, s =>
    let s₁ := thenBranch.after s
    let s₂ := elseBranch.after ⟨s₁.next, s.cell⟩
    ⟨s₂.next, Scope.join s.cell (Scope.join s₁.cell s₂.cell)⟩
  | .whileLoop _ body, s =>
    let s₁ := body.after s
    ⟨s₁.next, Scope.join s.cell s₁.cell⟩

namespace Command

/-- Every assignment of the text takes one cell. -/
theorem after_next (c : Command) (s : Scope) : (c.after s).next = s.next + c.assigned.length := by
  induction c generalizing s with
  | skip | print => rfl
  | assign => rfl
  | seq a b iha ihb => simp only [after, assigned, iha, ihb, List.length_append]; omega
  | ifElse t a b iha ihb => simp only [after, assigned, iha, ihb, List.length_append]; omega
  | whileLoop t b ih => simp only [after, assigned, ih]

/-- The cells in use stay in use. -/
theorem next_le_after (c : Command) (s : Scope) : s.next ≤ (c.after s).next := by
  rw [after_next]
  exact Nat.le_add_right _ _

/-- Behind a command, a name is found where it was before or in a cell of the command. -/
theorem after_cell (c : Command) (s : Scope) (x : String) :
    (c.after s).cell x = s.cell x ∨
      ∃ k, (c.after s).cell x = some k ∧ s.next ≤ k ∧ k < (c.after s).next := by
  induction c generalizing s with
  | skip | print => exact .inl rfl
  | assign y e =>
    by_cases hx : x = y
    · subst hx
      exact .inr ⟨s.next, by simp [after], Nat.le_refl _, Nat.lt_succ_self _⟩
    · exact .inl (by simp [after, hx])
  | seq a b iha ihb =>
    have ha := a.next_le_after s
    have hb := b.next_le_after (a.after s)
    rcases ihb (a.after s) with h | ⟨k, h, hle, hlt⟩
    · rcases iha s with h' | ⟨k, h', hle, hlt⟩
      · exact .inl (h.trans h')
      · exact .inr ⟨k, h.trans h', hle, Nat.lt_of_lt_of_le hlt hb⟩
    · exact .inr ⟨k, h, Nat.le_trans ha hle, hlt⟩
  | ifElse t a b iha ihb =>
    have ha := a.next_le_after s
    have hb := b.next_le_after ⟨(a.after s).next, s.cell⟩
    cases hx : s.cell x with
    | some k => exact .inl (by simp [after, Scope.join, hx])
    | none =>
      rcases iha s with h | ⟨k, h, hle, hlt⟩
      · rw [hx] at h
        rcases ihb ⟨(a.after s).next, s.cell⟩ with h' | ⟨k, h', hle, hlt⟩
        · exact .inl (by simp only [hx] at h'; simp [after, Scope.join, hx, h, h'])
        · exact .inr ⟨k, by simp [after, Scope.join, hx, h, h'], Nat.le_trans ha hle, hlt⟩
      · exact .inr ⟨k, by simp [after, Scope.join, hx, h], hle, Nat.lt_of_lt_of_le hlt hb⟩
  | whileLoop t b ih =>
    cases hx : s.cell x with
    | some k => exact .inl (by simp [after, Scope.join, hx])
    | none =>
      rcases ih s with h | ⟨k, h, hle, hlt⟩
      · exact .inl (by rw [hx] at h; simp [after, Scope.join, hx, h])
      · exact .inr ⟨k, by simp [after, Scope.join, hx, h], hle, hlt⟩

/-- A name that a command does not assign is found where it was before. -/
theorem after_cell_of_not_mem {c : Command} {x : String} (hx : x ∉ c.assigned) (s : Scope) :
    (c.after s).cell x = s.cell x := by
  induction c generalizing s with
  | skip | print => rfl
  | assign y e =>
    have hne : x ≠ y := by simpa [assigned] using hx
    simp [after, hne]
  | seq a b iha ihb =>
    simp only [assigned, List.mem_append, not_or] at hx
    exact (ihb hx.2 _).trans (iha hx.1 s)
  | ifElse t a b iha ihb =>
    simp only [assigned, List.mem_append, not_or] at hx
    cases h : s.cell x <;> simp [after, Scope.join, h, iha hx.1, ihb hx.2]
  | whileLoop t b ih =>
    simp only [assigned] at hx
    cases h : s.cell x <;> simp [after, Scope.join, h, ih hx]

/-- A name that is found somewhere stays to be found. -/
theorem isSome_after_cell {c : Command} {x : String} {s : Scope} (hx : (s.cell x).isSome) :
    ((c.after s).cell x).isSome := by
  rcases c.after_cell s x with h | ⟨k, h, -⟩
  · rw [h]; exact hx
  · simp [h]

/-- Behind a command, the names that it assigns are found. -/
theorem isSome_after_cell_of_mem {c : Command} {x : String} (hx : x ∈ c.assigned) (s : Scope) :
    ((c.after s).cell x).isSome := by
  induction c generalizing s with
  | skip | print => simp [assigned] at hx
  | assign y e =>
    have hxy : x = y := by simpa [assigned] using hx
    simp [after, hxy]
  | seq a b iha ihb =>
    rcases List.mem_append.1 hx with ha | hb
    · exact isSome_after_cell (c := b) (iha ha s)
    · exact ihb hb _
  | ifElse t a b iha ihb =>
    rcases List.mem_append.1 hx with ha | hb
    · have := iha ha s
      cases h : s.cell x <;> simp [after, Scope.join, h, this]
    · have := ihb hb ⟨(a.after s).next, s.cell⟩
      cases h : s.cell x <;> simp [after, Scope.join, h, this]
  | whileLoop t b ih =>
    have := ih hx s
    cases h : s.cell x <;> simp [after, Scope.join, h, this]

end Command

/-- A scope can be extended by the names that another one finds in newer cells. -/
theorem Scope.WF.join {s s₁ : Scope} (h : s.WF) (h₁ : s₁.WF) (hnext : s.next ≤ s₁.next)
    (hnew : ∀ {x k}, s.cell x = none → s₁.cell x = some k → s.next ≤ k) :
    Scope.WF ⟨s₁.next, Scope.join s.cell s₁.cell⟩ := by
  have key : ∀ {x k}, Scope.join s.cell s₁.cell x = some k →
      s.cell x = some k ∨ (s₁.cell x = some k ∧ s.next ≤ k) := by
    intro x k hx
    cases hs : s.cell x with
    | some j => exact .inl (by simpa [Scope.join, hs] using hx)
    | none =>
      have hx₁ : s₁.cell x = some k := by simpa [Scope.join, hs] using hx
      exact .inr ⟨hx₁, hnew hs hx₁⟩
  refine ⟨fun {x k} hx => ?_, fun {x y k} hx hy => ?_⟩
  · rcases key hx with hx | ⟨hx, -⟩
    · exact Nat.lt_of_lt_of_le (h.lt_next hx) hnext
    · exact h₁.lt_next hx
  · rcases key hx with hx | ⟨hx, hk⟩ <;> rcases key hy with hy | ⟨hy, hk'⟩
    · exact h.inj hx hy
    · exact absurd (h.lt_next hx) (by omega)
    · exact absurd (h.lt_next hy) (by omega)
    · exact h₁.inj hx hy

/-- A command finds the names that it introduces in cells of its own. -/
theorem Command.next_le_of_after_cell {c : Command} {s : Scope} {x : String} {k : Nat}
    (hx : s.cell x = none) (hk : (c.after s).cell x = some k) : s.next ≤ k := by
  rcases c.after_cell s x with h | ⟨j, h, hj, -⟩
  · rw [h, hx] at hk; cases hk
  · rw [h] at hk; cases hk; exact hj

/-- Commands keep scopes in order. -/
theorem Command.wf_after {c : Command} {s : Scope} (h : s.WF) : (c.after s).WF := by
  induction c generalizing s with
  | skip | print => exact h
  | assign x e =>
    have hfresh : ∀ y, s.cell y ≠ some s.next := fun y hy => Nat.lt_irrefl _ (h.lt_next hy)
    refine ⟨fun {y k} hy => ?_, fun {y z k} hy hz => ?_⟩
    · by_cases hyx : y = x
      · subst hyx
        simp only [after, Function.update_self, Option.some.injEq] at hy ⊢
        omega
      · simp only [after, Function.update_of_ne hyx] at hy ⊢
        exact Nat.lt_succ_of_lt (h.lt_next hy)
    · by_cases hyx : y = x <;> by_cases hzx : z = x
      · exact hyx.trans hzx.symm
      · simp only [after, hyx, Function.update_self, Function.update_of_ne hzx] at hy hz
        exact absurd (hz.trans hy.symm) (hfresh z)
      · simp only [after, hzx, Function.update_self, Function.update_of_ne hyx] at hy hz
        exact absurd (hy.trans hz.symm) (hfresh y)
      · simp only [after, Function.update_of_ne hyx, Function.update_of_ne hzx] at hy hz
        exact h.inj hy hz
  | seq a b iha ihb => exact ihb (iha h)
  | ifElse t a b iha ihb =>
    have ha := a.next_le_after s
    have hb := b.next_le_after ⟨(a.after s).next, s.cell⟩
    -- the second block starts from the names found before the branch, so what it introduces is
    -- in newer cells than what the first block left
    have hj := (iha h).join (ihb (h.mono ha)) hb fun {x k} hx hk => by
      have hsx : s.cell x = none := by
        rcases a.after_cell s x with h' | ⟨j, h', -⟩ <;> rw [h'] at hx
        · exact hx
        · cases hx
      exact next_le_of_after_cell (s := ⟨(a.after s).next, s.cell⟩) hsx hk
    refine h.join hj (Nat.le_trans ha hb) fun {x k} hx hk => ?_
    cases hx₁ : (a.after s).cell x with
    | some j =>
      have hjk : j = k := by simpa [Scope.join, hx₁] using hk
      exact hjk ▸ next_le_of_after_cell hx hx₁
    | none =>
      have hk₂ : (b.after ⟨(a.after s).next, s.cell⟩).cell x = some k := by
        simpa [Scope.join, hx₁] using hk
      exact Nat.le_trans ha (next_le_of_after_cell (s := ⟨(a.after s).next, s.cell⟩) hx hk₂)
  | whileLoop t b ih => exact h.join (ih h) (b.next_le_after s) next_le_of_after_cell

/-- Names that were assigned in a block and are to be moved home behind it. Homes are cells that
were in use before the block, and a name that is not at home or has none is in a newer cell. -/
structure Homing (names : List String) (home now : String → Option Nat) (next : Nat) : Prop where
  inj : ∀ {x y k}, home x = some k → home y = some k → x = y
  old : ∀ {x k}, home x = some k → k < next
  fresh : ∀ {x k}, home x = none → now x = some k → next ≤ k
  new : ∀ {x k k'}, home x = some k → now x = some k' → k ≠ k' → next ≤ k' ∧ x ∈ names
  isSome_now : ∀ {x}, x ∈ names → (now x).isSome

/-- The names that a block assigned can be moved home, if homes are given to the names found before
the block and perhaps to others. -/
theorem Command.homing {c : Command} {s t : Scope} (ht : t.WF) (hnext : t.next ≤ s.next)
    (hsub : ∀ {x k}, s.cell x = some k → t.cell x = some k) :
    Homing c.assigned t.cell (c.after s).cell s.next where
  inj := ht.inj
  old hk := Nat.lt_of_lt_of_le (ht.lt_next hk) hnext
  fresh {x k} hx hk := by
    refine next_le_of_after_cell (s := s) ?_ hk
    cases hs : s.cell x with
    | none => rfl
    | some j => rw [hsub hs] at hx; cases hx
  new {x k k'} hk hk' hne := by
    have hmoved : (c.after s).cell x ≠ s.cell x := by
      intro he
      rw [he] at hk'
      exact hne (Option.some.inj (hk.symm.trans (hsub hk')))
    constructor
    · rcases c.after_cell s x with h | ⟨j, h, hj, -⟩
      · exact absurd h hmoved
      · rw [h] at hk'
        cases hk'
        exact hj
    · by_contra hx
      exact hmoved (after_cell_of_not_mem hx s)
  isSome_now hx := isSome_after_cell_of_mem hx s

/-! ## Memory -/

/-- A value with the serial number of the assignment that made it. -/
structure Stamped where
  value : Int64
  serial : Nat
deriving DecidableEq, Repr

/-- The contents of the cells, what each name was assigned last, the number of assignments made, and
the lines printed. -/
structure Memory where
  cells : Nat → Option Stamped
  latest : String → Option Stamped
  clock : Nat
  lines : List String

namespace Memory

/-- All cells are empty. -/
def empty : Memory :=
  ⟨fun _ => none, fun _ => none, 0, []⟩

/-- Assigns a name, in the given cell. -/
def assign (m : Memory) (cell : Nat) (name : String) (value : Int64) : Memory :=
  { m with
    cells := Function.update m.cells cell (some ⟨value, m.clock⟩)
    latest := Function.update m.latest name (some ⟨value, m.clock⟩)
    clock := m.clock + 1 }

/-- Prints a line. -/
def print (m : Memory) (text : String) : Memory :=
  { m with lines := m.lines ++ [text] }

/-- What is found in the cell of a name. -/
def found (m : Memory) (s : Scope) (name : String) : Option Stamped :=
  (s.cell name).bind m.cells

/-- The value that is found in the cell of a name. -/
def view (m : Memory) (s : Scope) (name : String) : Option Int64 :=
  (m.found s name).map (·.value)

/-- Whether a name can be moved home from the cell where it is now. There is nothing to do for a
name without a home and for one that is there already. -/
def canMove (m : Memory) (home now : String → Option Nat) (name : String) : Bool :=
  match home name with
  | none => true
  | some k => now name = some k || ((now name).bind m.cells).isSome

/-- Moves names home from the cells where they are now. -/
def move (m : Memory) (names : List String) (home now : String → Option Nat) : Memory :=
  { m with
    cells := fun k =>
      match names.find? fun x => home x = some k with
      | some x => (now x).bind m.cells
      | none => m.cells k }

/-- Moves names home, if there is something to move in each case. -/
def settle (names : List String) (home now : String → Option Nat) (m : Memory) : Outcome Memory :=
  if names.all (m.canMove home now) then .done (m.move names home now) else .stuck m

/-- Moving leaves a cell alone that is nobody's home. -/
theorem move_cells_of_ne {m : Memory} {names : List String} {home now : String → Option Nat}
    {k : Nat} (h : ∀ x ∈ names, home x ≠ some k) : (m.move names home now).cells k = m.cells k := by
  have hfind : names.find? (fun x => home x = some k) = none :=
    List.find?_eq_none.2 fun x hx => by simpa using h x hx
  simp only [move, hfind]

/-- Moving fills the home of a name from where the name is now. -/
theorem move_cells_home {m : Memory} {names : List String} {home now : String → Option Nat}
    {k : Nat} {x : String} (hx : x ∈ names) (hk : home x = some k)
    (huniq : ∀ y, home y = some k → y = x) :
    (m.move names home now).cells k = (now x).bind m.cells := by
  have hfind : names.find? (fun x => home x = some k) = some x := by
    cases hf : names.find? (fun x => home x = some k) with
    | none => exact absurd hk (by simpa using List.find?_eq_none.1 hf x hx)
    | some y => rw [huniq y (by simpa using List.find?_some hf)]
  simp only [move, hfind]

/-- A name is found to hold the same when it has been moved home, or has stayed where it was if it
has no home. -/
theorem move_found {m : Memory} {names : List String} {home now : String → Option Nat} {next : Nat}
    (H : Homing names home now next) {x : String} (hx : (now x).isSome) :
    ((home x).or (now x)).bind (m.move names home now).cells = (now x).bind m.cells := by
  obtain ⟨k', hk'⟩ := Option.isSome_iff_exists.1 hx
  cases hk : home x with
  | none =>
    -- the cell is too new to be somebody's home
    rw [Option.none_or, hk', Option.bind_some, Option.bind_some]
    refine move_cells_of_ne fun y _ hy => ?_
    have hold := H.old hy
    have hfresh := H.fresh hk hk'
    omega
  | some k =>
    rw [Option.some_or, Option.bind_some]
    by_cases hmem : x ∈ names
    · exact move_cells_home hmem hk fun y hy => H.inj hy hk
    · have hkk : k = k' := by
        by_contra hne
        exact hmem (H.new hk hk' hne).2
      rw [hk', ← hkk, Option.bind_some]
      refine move_cells_of_ne fun y hy hyk => hmem ?_
      rw [← H.inj hyk hk]
      exact hy

/-- Moving names does not empty a cell, if there is something to move in each case. -/
theorem isSome_move_cells {m : Memory} {names : List String} {home now : String → Option Nat}
    {k : Nat} (hcan : ∀ x ∈ names, m.canMove home now x = true) (hk : (m.cells k).isSome) :
    ((m.move names home now).cells k).isSome := by
  simp only [move]
  cases hf : names.find? fun x => home x = some k with
  | none => exact hk
  | some x =>
    have hx : home x = some k := by simpa using List.find?_some hf
    have hcan := hcan x (List.mem_of_find?_eq_some hf)
    simp only [canMove, hx, Bool.or_eq_true, decide_eq_true_eq] at hcan
    rcases hcan with hnow | hsome
    · simpa [hnow] using hk
    · exact hsome

/-- What settling does when it succeeds. -/
theorem settle_eq_done {names : List String} {home now : String → Option Nat} {m m' : Memory} :
    settle names home now m = .done m' ↔
      (∀ x ∈ names, m.canMove home now x = true) ∧ m' = m.move names home now := by
  unfold settle
  split
  next h =>
    simp only [List.all_eq_true] at h
    constructor
    · intro he
      cases he
      exact ⟨h, rfl⟩
    · rintro ⟨-, rfl⟩
      rfl
  next h =>
    simp only [List.all_eq_true] at h
    constructor
    · intro he
      cases he
    · intro he
      exact absurd he.1 h

end Memory

/-! ## Runs -/

namespace Command

/-- Runs a command whose names are found as the scope says, with a bound on the rounds of each
loop. -/
def exec (fuel : Nat) : Command → Scope → Memory → Outcome Memory
  | .skip, _, m => .done m
  | .seq first second, s, m => (first.exec fuel s m).andThen (second.exec fuel (first.after s))
  | .assign name value, s, m =>
    match value.eval (m.view s) with
    | some v => .done (m.assign s.next name v)
    | none => .stuck m
  | .ifElse test thenBranch elseBranch, s, m =>
    let s₁ := thenBranch.after s
    let s₂ := elseBranch.after ⟨s₁.next, s.cell⟩
    match test.eval (m.view s) with
    | some true =>
      (thenBranch.exec fuel s m).andThen (Memory.settle thenBranch.assigned s.cell s₁.cell)
    | some false =>
      (elseBranch.exec fuel ⟨s₁.next, s.cell⟩ m).andThen
        (Memory.settle elseBranch.assigned (Scope.join s.cell s₁.cell) s₂.cell)
    | none => .stuck m
  | .whileLoop test body, s, m =>
    Outcome.repeatWhile (fun m => test.eval (m.view s))
      (fun m => (body.exec fuel s m).andThen
        (Memory.settle body.assigned s.cell (body.after s).cell)) fuel m
  | .print text, _, m => .done (m.print text)

/-- A command changes its own cells, and among the others those in which the names that it assigns
were found. -/
theorem exec_cells {fuel : Nat} {c : Command} {s : Scope} {m m' : Memory} {k : Nat}
    (h : c.exec fuel s m = .done m') (hk : k < s.next)
    (hs : ∀ x ∈ c.assigned, s.cell x ≠ some k) : m'.cells k = m.cells k := by
  induction c generalizing s m m' with
  | skip | print =>
    cases h
    rfl
  | assign x e =>
    simp only [exec] at h
    split at h
    · cases h
      simp [Memory.assign, Nat.ne_of_lt hk]
    · cases h
  | seq a b iha ihb =>
    simp only [assigned, List.mem_append, or_imp, forall_and] at hs
    obtain ⟨m₁, h₁, h₂⟩ := Outcome.andThen_eq_done.1 h
    have hb : ∀ x ∈ b.assigned, (a.after s).cell x ≠ some k := by
      intro x hx he
      rcases a.after_cell s x with h' | ⟨j, h', hj, -⟩
      · exact hs.2 x hx (h'.symm.trans he)
      · rw [h'] at he
        cases he
        omega
    rw [ihb h₂ (Nat.lt_of_lt_of_le hk (a.next_le_after s)) hb, iha h₁ hk hs.1]
  | ifElse t a b iha ihb =>
    simp only [assigned, List.mem_append, or_imp, forall_and] at hs
    simp only [exec] at h
    split at h
    · obtain ⟨m₁, h₁, h₂⟩ := Outcome.andThen_eq_done.1 h
      obtain ⟨-, rfl⟩ := Memory.settle_eq_done.1 h₂
      rw [Memory.move_cells_of_ne hs.1, iha h₁ hk hs.1]
    · obtain ⟨m₁, h₁, h₂⟩ := Outcome.andThen_eq_done.1 h
      obtain ⟨-, rfl⟩ := Memory.settle_eq_done.1 h₂
      have hhome : ∀ x ∈ b.assigned, Scope.join s.cell (a.after s).cell x ≠ some k := by
        intro x hx he
        cases hsx : s.cell x with
        | some j => exact hs.2 x hx (by simpa [Scope.join, hsx] using he)
        | none =>
          have hka : (a.after s).cell x = some k := by simpa [Scope.join, hsx] using he
          exact absurd (next_le_of_after_cell hsx hka) (by omega)
      rw [Memory.move_cells_of_ne hhome,
        ihb h₁ (Nat.lt_of_lt_of_le hk (a.next_le_after s)) hs.2]
    · cases h
  | whileLoop t b ih =>
    simp only [assigned] at hs
    refine Outcome.repeatWhile_done (P := fun m₁ => m₁.cells k = m.cells k) ?_ rfl h
    intro m₁ m₂ hm₁ h₁
    obtain ⟨m₃, h₃, h₂⟩ := Outcome.andThen_eq_done.1 h₁
    obtain ⟨-, rfl⟩ := Memory.settle_eq_done.1 h₂
    rw [Memory.move_cells_of_ne hs, ih h₃ hk hs, hm₁]

/-- A name that a command does not assign is found to hold what it did before. -/
theorem found_after_exec {fuel : Nat} {c : Command} {s : Scope} {m m' : Memory} {x : String}
    (h : c.exec fuel s m = .done m') (hs : s.WF) (hx : x ∉ c.assigned) :
    m'.found (c.after s) x = m.found s x := by
  unfold Memory.found
  rw [after_cell_of_not_mem hx]
  cases hk : s.cell x with
  | none => rfl
  | some k =>
    refine exec_cells h (hs.lt_next hk) fun y hy he => hx ?_
    rw [hs.inj hk he]
    exact hy

/-- A command runs to its end on the cells, with a final memory. -/
def Ends (c : Command) (m : Memory) : Prop :=
  ∃ fuel, c.exec fuel .empty .empty = .done m

/-- A command gets stuck on the cells, when the memory is the given one. -/
def GetsStuck (c : Command) (m : Memory) : Prop :=
  ∃ fuel, c.exec fuel .empty .empty = .stuck m

/-- A command runs forever on the cells. -/
def GoesOn (c : Command) : Prop :=
  ∀ fuel, ∃ m, c.exec fuel .empty .empty = .cutOff m

/-- A command on the cells runs forever, or ends, or gets stuck. -/
theorem goesOn_or (c : Command) : c.GoesOn ∨ (∃ m, c.Ends m) ∨ ∃ m, c.GetsStuck m := by
  by_cases h : c.GoesOn
  · exact .inl h
  · obtain ⟨fuel, hfuel⟩ := not_forall.1 h
    cases he : c.exec fuel .empty .empty with
    | done m => exact .inr (.inl ⟨m, fuel, he⟩)
    | stuck m => exact .inr (.inr ⟨m, fuel, he⟩)
    | cutOff m => exact absurd ⟨m, he⟩ hfuel

end Command

end RegisterBackend
