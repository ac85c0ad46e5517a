import RegisterBackend.Proofs.Cells

/-!
# What happens during a run

A run on the cells reads names when it evaluates something, and moves names home at the end of each
block. `Command.events` lists this in the order in which it happens. An event blocks the run if a
cell that it needs is empty (`Event.Blocks`); a run is stuck exactly if one of its events blocks it
(`Command.isStuck_exec`).

An event is faithful if names are found to hold what they were assigned last, and if there is
something to move in each case. As long as this is so, a run on the cells does the same as the
reference semantics (`Command.exec_inStep`).
-/

namespace RegisterBackend

/-! ## Events -/

/-- Something that a run on the cells does with names. -/
inductive Event where
  /-- Names are read, in the given scope and memory. -/
  | read (names : List String) (s : Scope) (m : Memory)
  /-- At the end of a block, names are moved home from the cells where they are. Where names were
  found before the block is noted as well. -/
  | settle (names : List String) (entry home now : String → Option Nat) (m : Memory)

namespace Event

/-- A cell is empty that the event needs. -/
def Blocks : Event → Prop
  | .read names s m => ∃ x ∈ names, m.found s x = none
  | .settle names _ home now m => ∃ x ∈ names, m.canMove home now x = false

/-- Names hold what they were assigned last when they are read, and can be moved when they are
moved. -/
def Faithful : Event → Prop
  | .read names s m => ∀ x ∈ names, m.found s x = m.latest x
  | .settle names _ home now m => ∀ x ∈ names, m.canMove home now x = true

end Event

/-- What happens behind a run that came to its end. -/
def Outcome.trace {α ε : Type} (o : Outcome α) (next : α → List ε) : List ε :=
  match o with
  | .done a => next a
  | _ => []

/-- What happens in a loop. -/
def Outcome.traceWhile {α ε : Type} (test : α → Option Bool) (body : α → Outcome α)
    (testEvents bodyEvents : α → List ε) : Nat → α → List ε
  | 0, _ => []
  | rounds + 1, a =>
    testEvents a ++
      match test a with
      | some true =>
        bodyEvents a ++ (body a).trace (traceWhile test body testEvents bodyEvents rounds)
      | _ => []

namespace Command

/-- What happens when a command is run. -/
def events (fuel : Nat) : Command → Scope → Memory → List Event
  | .skip, _, _ | .print _, _, _ => []
  | .seq first second, s, m =>
    first.events fuel s m ++ (first.exec fuel s m).trace (second.events fuel (first.after s))
  | .assign _ value, s, m => [.read value.names s m]
  | .ifElse test thenBranch elseBranch, s, m =>
    let s₁ := thenBranch.after s
    let s₂ := elseBranch.after ⟨s₁.next, s.cell⟩
    .read test.names s m ::
      match test.eval (m.view s) with
      | some true => thenBranch.events fuel s m ++
          (thenBranch.exec fuel s m).trace fun m =>
            [.settle thenBranch.assigned s.cell s.cell s₁.cell m]
      | some false => elseBranch.events fuel ⟨s₁.next, s.cell⟩ m ++
          (elseBranch.exec fuel ⟨s₁.next, s.cell⟩ m).trace fun m =>
            [.settle elseBranch.assigned s.cell (Scope.join s.cell s₁.cell) s₂.cell m]
      | none => []
  | .whileLoop test body, s, m =>
    Outcome.traceWhile (fun m => test.eval (m.view s))
      (fun m => (body.exec fuel s m).andThen
        (Memory.settle body.assigned s.cell (body.after s).cell))
      (fun m => [.read test.names s m])
      (fun m => body.events fuel s m ++ (body.exec fuel s m).trace fun m =>
        [.settle body.assigned s.cell s.cell (body.after s).cell m]) fuel m

end Command

/-! ## Blocked runs -/

namespace Outcome

variable {α ε : Type} {o : Outcome α} {P : ε → Prop}

/-- The run is stuck. -/
def IsStuck (o : Outcome α) : Prop :=
  ∃ a, o = .stuck a

@[simp] theorem isStuck_stuck (a : α) : (Outcome.stuck a).IsStuck := ⟨a, rfl⟩
@[simp] theorem not_isStuck_done (a : α) : ¬ (Outcome.done a).IsStuck := nofun
@[simp] theorem not_isStuck_cutOff (a : α) : ¬ (Outcome.cutOff a).IsStuck := nofun

/-- A run in sequence is stuck if one of its parts is. -/
theorem isStuck_andThen {next : α → Outcome α} :
    (o.andThen next).IsStuck ↔ o.IsStuck ∨ ∃ a, o = .done a ∧ (next a).IsStuck := by
  cases o <;> simp

/-- What happens in sequence happens in one of the parts. -/
theorem exists_mem_append_trace {l : List ε} {next : α → List ε} :
    (∃ ev ∈ l ++ o.trace next, P ev) ↔
      (∃ ev ∈ l, P ev) ∨ ∃ a, o = .done a ∧ ∃ ev ∈ next a, P ev := by
  simp only [List.mem_append, or_and_right, exists_or]
  cases o <;> simp [trace]

/-- What happens in sequence is what happens in the parts. -/
theorem forall_mem_append_trace {l : List ε} {next : α → List ε} :
    (∀ ev ∈ l ++ o.trace next, P ev) ↔
      (∀ ev ∈ l, P ev) ∧ ∀ a, o = .done a → ∀ ev ∈ next a, P ev := by
  simp only [List.mem_append, or_imp, forall_and]
  cases o <;> simp [trace]

/-- What holds of the events of each round of a loop holds of all its events, as long as the rounds
keep the state in order. -/
theorem forall_mem_traceWhile {test : α → Option Bool} {body : α → Outcome α}
    {testEvents bodyEvents : α → List ε} {Q : α → Prop}
    (htest : ∀ a, Q a → ∀ ev ∈ testEvents a, P ev)
    (hbody : ∀ a, Q a → (∀ ev ∈ bodyEvents a, P ev) ∧ ∀ b, body a = .done b → Q b) :
    ∀ (rounds : Nat) (a : α), Q a →
      ∀ ev ∈ traceWhile test body testEvents bodyEvents rounds a, P ev
  | 0, _, _, _, hev => by simp [traceWhile] at hev
  | rounds + 1, a, ha, ev, hev => by
    rcases List.mem_append.1 hev with hev | hev
    · exact htest a ha ev hev
    · split at hev
      · refine forall_mem_append_trace.2 ⟨(hbody a ha).1, fun b hb => ?_⟩ ev hev
        exact forall_mem_traceWhile htest hbody rounds b ((hbody a ha).2 b hb)
      · cases hev

/-- A loop is stuck exactly if one of its events blocks it, if this holds of its test and its
body. -/
theorem isStuck_repeatWhile {test : α → Option Bool} {body : α → Outcome α}
    {testEvents bodyEvents : α → List ε}
    (htest : ∀ a, test a = none ↔ ∃ ev ∈ testEvents a, P ev)
    (hbody : ∀ a, (body a).IsStuck ↔ ∃ ev ∈ bodyEvents a, P ev) : ∀ (rounds : Nat) (a : α),
    (repeatWhile test body rounds a).IsStuck ↔
      ∃ ev ∈ traceWhile test body testEvents bodyEvents rounds a, P ev
  | 0, a => by simp [repeatWhile, traceWhile]
  | rounds + 1, a => by
    have ih := isStuck_repeatWhile htest hbody rounds
    simp only [repeatWhile, traceWhile, List.mem_append, or_and_right, exists_or, ← htest]
    cases h : test a with
    | none => simp
    | some c =>
      cases c with
      | false => simp
      | true =>
        simp only [reduceCtorEq, false_or, isStuck_andThen, hbody, ih]
        rw [← exists_mem_append_trace]

end Outcome

namespace Event

variable {names : List String} {s : Scope} {m : Memory} {home now : String → Option Nat}

/-- A name is found to hold something exactly if its cell does. -/
theorem isSome_view {x : String} : (m.view s x).isSome ↔ m.found s x ≠ none := by
  rw [Memory.view, Option.isSome_map, Option.isSome_iff_ne_none]

/-- Reading blocks an evaluation that has no value. -/
theorem blocks_read {α : Type} {o : Option α} (h : o.isSome ↔ ∀ x ∈ names, (m.view s x).isSome) :
    (Event.read names s m).Blocks ↔ o = none := by
  simp only [isSome_view] at h
  rw [← not_iff_not, ← ne_eq, ← Option.isSome_iff_ne_none, h]
  simp [Blocks]

/-- Moving names home is stuck exactly if it blocks. -/
theorem isStuck_settle (entry : String → Option Nat) :
    (Memory.settle names home now m).IsStuck ↔ (Event.settle names entry home now m).Blocks := by
  unfold Memory.settle Blocks
  split
  next h =>
    simp only [List.all_eq_true] at h
    simpa using h
  next h =>
    simp only [List.all_eq_true] at h
    simpa using h

end Event

/-- A block is stuck exactly if one of its events blocks it, if this holds of its command. -/
theorem Command.isStuck_block {fuel : Nat} {c : Command} {s : Scope} {m : Memory}
    {names : List String} {entry home now : String → Option Nat}
    (hc : (c.exec fuel s m).IsStuck ↔ ∃ ev ∈ c.events fuel s m, ev.Blocks) :
    ((c.exec fuel s m).andThen (Memory.settle names home now)).IsStuck ↔
      ∃ ev ∈ c.events fuel s m ++ (c.exec fuel s m).trace (fun m => [.settle names entry home now m]),
        ev.Blocks := by
  rw [Outcome.isStuck_andThen, hc, Outcome.exists_mem_append_trace]
  simp only [Event.isStuck_settle entry, List.mem_singleton, exists_eq_left]

/-- A run on the cells is stuck exactly if one of its events blocks it. -/
theorem Command.isStuck_exec {fuel : Nat} {c : Command} {s : Scope} {m : Memory} :
    (c.exec fuel s m).IsStuck ↔ ∃ ev ∈ c.events fuel s m, ev.Blocks := by
  induction c generalizing s m with
  | skip | print => simp [exec, events]
  | assign x v =>
    have hread := Event.blocks_read (Expr.isSome_eval (v := m.view s) (e := v))
    simp only [exec, events, List.mem_singleton, exists_eq_left, hread]
    cases v.eval (m.view s) <;> simp
  | seq a b iha ihb =>
    simp only [exec, events, Outcome.isStuck_andThen, iha, ihb, Outcome.exists_mem_append_trace]
  | ifElse t a b iha ihb =>
    have hread := Event.blocks_read (Test.isSome_eval (t := t) (v := m.view s))
    simp only [exec, events, List.mem_cons, exists_eq_or_imp, hread]
    cases h : t.eval (m.view s) with
    | none => simp
    | some c =>
      cases c with
      | true =>
        simp only [reduceCtorEq, false_or]
        exact isStuck_block iha
      | false =>
        simp only [reduceCtorEq, false_or]
        exact isStuck_block ihb
  | whileLoop t b ih =>
    refine Outcome.isStuck_repeatWhile (fun m => ?_) (fun m => isStuck_block ih) fuel m
    have hread := Event.blocks_read (Test.isSome_eval (t := t) (v := m.view s))
    simp [hread]

/-! ## Faithful runs -/

/-- The two runs ended in the same way, in related states. -/
inductive Outcome.InStep {α β : Type} (R : α → β → Prop) : Outcome α → Outcome β → Prop where
  | done {a : α} {b : β} (h : R a b) : InStep R (.done a) (.done b)
  | stuck {a : α} {b : β} (h : R a b) : InStep R (.stuck a) (.stuck b)
  | cutOff {a : α} {b : β} (h : R a b) : InStep R (.cutOff a) (.cutOff b)

namespace Outcome

variable {α β ε : Type} {R : α → β → Prop}

/-- Runs in sequence stay in step. -/
theorem InStep.andThen {o : Outcome α} {o' : Outcome β} {f : α → Outcome α} {g : β → Outcome β}
    (h : InStep R o o') (hnext : ∀ a b, o = .done a → R a b → InStep R (f a) (g b)) :
    InStep R (o.andThen f) (o'.andThen g) := by
  cases h with
  | done hab => exact hnext _ _ rfl hab
  | stuck hab => exact .stuck hab
  | cutOff hab => exact .cutOff hab

/-- One of the runs may do something more that the other does not see. -/
theorem InStep.andThen_left {o : Outcome α} {o' : Outcome β} {f : α → Outcome α}
    (h : InStep R o o') (hnext : ∀ a b, o = .done a → R a b → ∃ a', f a = .done a' ∧ R a' b) :
    InStep R (o.andThen f) o' := by
  cases h with
  | done hab =>
    obtain ⟨a', ha', hR⟩ := hnext _ _ rfl hab
    rw [done_andThen, ha']
    exact .done hR
  | stuck hab => exact .stuck hab
  | cutOff hab => exact .cutOff hab

/-- Loops stay in step, if their tests agree and their bodies stay in step whenever what happens is
of the given kind. -/
theorem InStep.repeatWhile {test : α → Option Bool} {body : α → Outcome α}
    {test' : β → Option Bool} {body' : β → Outcome β} {testEvents bodyEvents : α → List ε}
    {P : ε → Prop}
    (htest : ∀ a b, R a b → (∀ ev ∈ testEvents a, P ev) → test a = test' b)
    (hbody : ∀ a b, R a b → (∀ ev ∈ bodyEvents a, P ev) → InStep R (body a) (body' b)) :
    ∀ {rounds : Nat} {a : α} {b : β}, R a b →
      (∀ ev ∈ traceWhile test body testEvents bodyEvents rounds a, P ev) →
      InStep R (Outcome.repeatWhile test body rounds a) (Outcome.repeatWhile test' body' rounds b)
  | 0, a, b, hab, _ => .cutOff hab
  | rounds + 1, a, b, hab, h => by
    simp only [traceWhile, List.mem_append, or_imp, forall_and] at h
    have htest' := htest a b hab h.1
    simp only [Outcome.repeatWhile, ← htest']
    cases hta : test a with
    | none => exact .stuck hab
    | some c =>
      cases c with
      | false => exact .done hab
      | true =>
        simp only [hta] at h
        obtain ⟨hevents, hrest⟩ := forall_mem_append_trace.1 (by simpa using h.2)
        exact (hbody a b hab hevents).andThen fun a' b' ha' hab' =>
          InStep.repeatWhile htest hbody hab' (hrest a' ha')

end Outcome

/-- What the names were assigned last and the lines printed are those of the store. -/
structure Memory.Tracks (m : Memory) (st : Store) : Prop where
  latest : ∀ x, (m.latest x).map (·.value) = st.env x
  lines : m.lines = st.lines

namespace Memory.Tracks

variable {m : Memory} {st : Store} {s : Scope}

theorem empty : Memory.empty.Tracks .empty :=
  ⟨fun _ => rfl, rfl⟩

/-- A name that is found to hold what it was assigned last holds what the store says. -/
theorem view_eq (h : m.Tracks st) {x : String} (hx : m.found s x = m.latest x) :
    m.view s x = st.env x := by
  rw [Memory.view, hx, h.latest]

/-- Moving names leaves what they were assigned last alone. -/
theorem move (h : m.Tracks st) (names : List String) (home now : String → Option Nat) :
    (m.move names home now).Tracks st :=
  ⟨h.latest, h.lines⟩

/-- An assignment, whatever its cell, keeps memory and store in step. -/
theorem assign (h : m.Tracks st) (cell : Nat) (x : String) (v : Int64) :
    (m.assign cell x v).Tracks (st.assign x v) := by
  refine ⟨fun y => ?_, h.lines⟩
  by_cases hy : y = x
  · subst hy
    simp [Memory.assign, Store.assign]
  · simp [Memory.assign, Store.assign, hy, h.latest]

theorem print (h : m.Tracks st) (text : String) : (m.print text).Tracks (st.print text) :=
  ⟨h.latest, by simp [Memory.print, Store.print, h.lines]⟩

end Memory.Tracks

/-- A faithful block does the same as its command in the reference semantics. -/
theorem Command.block_inStep {fuel : Nat} {c : Command} {s : Scope} {m : Memory} {st : Store}
    {names : List String} {entry home now : String → Option Nat}
    (hc : (∀ ev ∈ c.events fuel s m, ev.Faithful) →
      Outcome.InStep Memory.Tracks (c.exec fuel s m) (c.eval fuel st))
    (hevents : ∀ ev ∈ c.events fuel s m ++
      (c.exec fuel s m).trace (fun m => [.settle names entry home now m]), ev.Faithful) :
    Outcome.InStep Memory.Tracks
      ((c.exec fuel s m).andThen (Memory.settle names home now)) (c.eval fuel st) := by
  obtain ⟨hfirst, hlast⟩ := Outcome.forall_mem_append_trace.1 hevents
  refine (hc hfirst).andThen_left fun m' st' hm' hR => ?_
  have hmove : ∀ x ∈ names, m'.canMove home now x = true :=
    hlast m' hm' (.settle names entry home now m') (by simp)
  exact ⟨_, Memory.settle_eq_done.2 ⟨hmove, rfl⟩, hR.move names home now⟩

/-- A run on the cells whose events are faithful does the same as the reference semantics. -/
theorem Command.exec_inStep {fuel : Nat} {c : Command} {s : Scope} {m : Memory} {st : Store}
    (hR : m.Tracks st) (h : ∀ ev ∈ c.events fuel s m, ev.Faithful) :
    Outcome.InStep Memory.Tracks (c.exec fuel s m) (c.eval fuel st) := by
  induction c generalizing s m st with
  | skip => exact .done hR
  | print text => exact .done (hR.print text)
  | assign x v =>
    have hread : ∀ y ∈ v.names, m.found s y = m.latest y :=
      h (.read v.names s m) (by simp [events])
    have heval : v.eval (m.view s) = v.eval st.env :=
      Expr.eval_congr fun y hy => hR.view_eq (hread y hy)
    simp only [exec, eval, heval]
    cases v.eval st.env with
    | none => exact .stuck hR
    | some a => exact .done (hR.assign _ x a)
  | seq a b iha ihb =>
    obtain ⟨ha, hb⟩ := Outcome.forall_mem_append_trace.1 h
    exact (iha hR ha).andThen fun m' st' hm' hR' => ihb hR' (hb m' hm')
  | ifElse t a b iha ihb =>
    have hread : ∀ y ∈ t.names, m.found s y = m.latest y :=
      h (.read t.names s m) (by simp [events])
    have heval : t.eval (m.view s) = t.eval st.env :=
      Test.eval_congr fun y hy => hR.view_eq (hread y hy)
    simp only [events, List.mem_cons, forall_eq_or_imp] at h
    simp only [exec, eval, ← heval]
    cases hc : t.eval (m.view s) with
    | none => exact .stuck hR
    | some c =>
      simp only [hc] at h
      cases c with
      | true => exact block_inStep (iha hR) h.2
      | false => exact block_inStep (ihb hR) h.2
  | whileLoop t b ih =>
    refine Outcome.InStep.repeatWhile (fun m st hR hread => ?_)
      (fun m st hR hevents => block_inStep (ih hR) hevents) hR h
    have hread' : ∀ y ∈ t.names, m.found s y = m.latest y :=
      hread (.read t.names s m) (by simp)
    exact Test.eval_congr fun y hy => hR.view_eq (hread' y hy)

/-- Whatever the bound on the loops, the command does the same on the cells as in the reference
semantics. -/
def Command.FollowsReference (c : Command) : Prop :=
  ∀ fuel, Outcome.InStep Memory.Tracks (c.exec fuel .empty .empty) (c.eval fuel .empty)

namespace Command.FollowsReference

variable {c : Command} {P : List String → Prop}

/-- A command that follows the reference semantics ends exactly if it does there. -/
theorem ends_iff (h : c.FollowsReference) :
    (∃ m, c.Ends m ∧ P m.lines) ↔ ∃ st, c.Terminates st ∧ P st.lines := by
  constructor
  · rintro ⟨m, ⟨fuel, hm⟩, hP⟩
    have hstep := h fuel
    rw [hm] at hstep
    generalize hst : c.eval fuel .empty = o at hstep
    cases hstep with
    | done hR => exact ⟨_, ⟨fuel, hst⟩, hR.lines ▸ hP⟩
  · rintro ⟨st, ⟨fuel, hst⟩, hP⟩
    have hstep := h fuel
    rw [hst] at hstep
    generalize hm : c.exec fuel .empty .empty = o at hstep
    cases hstep with
    | done hR => exact ⟨_, ⟨fuel, hm⟩, hR.lines ▸ hP⟩

/-- A command that follows the reference semantics gets stuck exactly if it reads an unassigned name
there. -/
theorem getsStuck_iff (h : c.FollowsReference) :
    (∃ m, c.GetsStuck m ∧ P m.lines) ↔ ∃ st, c.ReadsUnassigned st ∧ P st.lines := by
  constructor
  · rintro ⟨m, ⟨fuel, hm⟩, hP⟩
    have hstep := h fuel
    rw [hm] at hstep
    generalize hst : c.eval fuel .empty = o at hstep
    cases hstep with
    | stuck hR => exact ⟨_, ⟨fuel, hst⟩, hR.lines ▸ hP⟩
  · rintro ⟨st, ⟨fuel, hst⟩, hP⟩
    have hstep := h fuel
    rw [hst] at hstep
    generalize hm : c.exec fuel .empty .empty = o at hstep
    cases hstep with
    | stuck hR => exact ⟨_, ⟨fuel, hm⟩, hR.lines ▸ hP⟩

/-- A command that follows the reference semantics runs forever exactly if it does there. -/
theorem goesOn_iff (h : c.FollowsReference) : c.GoesOn ↔ c.Diverges := by
  refine forall_congr' fun fuel => ?_
  have hstep := h fuel
  generalize c.exec fuel .empty .empty = o, c.eval fuel .empty = o' at hstep
  cases hstep <;> simp

end Command.FollowsReference

end RegisterBackend
