import RegisterBackend.Proofs.Events

/-!
# Names that are assigned before they are read

The check `Command.definite` follows the text with a set of names. The invariant of a run on the
cells is `Memory.Assigned`: the names of the set are found to hold what they were assigned last. It
is kept because a name of the set that is not at home at the end of a block is in a cell that the
block has filled (`Command.isSome_rebound`), and because of the names that the second block of a
branch has to move to where the first one introduced them, those outside the set are asked to be
assigned on every path.

So no event of a run blocks it and all are faithful (`Command.regular_of_definite`), and the run
does the same as the reference semantics (`Command.DefinitelyAssigned.followsReference`).
-/

namespace RegisterBackend

/-! ## The check -/

namespace Command

variable {t : Test} {a b : Command} {D D' : Finset String}

/-- A branch assigns what both blocks assign, and needs what its condition reads. A name that both
blocks assign must be assigned before it or within the second block on every path. -/
theorem definite_ifElse : (ifElse t a b).definite D = some D' ↔
    ∃ D₁ D₂, a.definite D = some D₁ ∧ b.definite D = some D₂ ∧ (∀ x ∈ t.names, x ∈ D) ∧
      (∀ x ∈ a.assigned, x ∈ b.assigned → x ∉ D → x ∈ D₂) ∧ D' = D₁ ∩ D₂ := by
  simp only [definite]
  cases ha : a.definite D with
  | none => simp
  | some D₁ =>
    cases hb : b.definite D with
    | none => simp
    | some D₂ =>
      simp only [Option.some.injEq, exists_and_left, exists_eq_left', Option.ite_none_right_eq_some,
        and_assoc, eq_comm (a := D')]

/-- A loop assigns nothing for certain, and its body is looked at with the names from before it. -/
theorem definite_whileLoop : (whileLoop t a).definite D = some D' ↔
    ∃ D₁, a.definite D = some D₁ ∧ (∀ x ∈ t.names, x ∈ D) ∧ D' = D := by
  simp only [definite]
  cases a.definite D with
  | none => simp
  | some D₁ => simp [eq_comm (a := D')]

/-- Names that have been assigned stay so. -/
theorem subset_of_definite {c : Command} (h : c.definite D = some D') : D ⊆ D' := by
  induction c generalizing D D' with
  | skip | print =>
    cases h
    exact subset_rfl
  | assign x v =>
    simp only [definite, Option.ite_none_right_eq_some, Option.some.injEq] at h
    rw [← h.2]
    exact Finset.subset_insert x D
  | seq a b iha ihb =>
    obtain ⟨D₁, ha, hb⟩ := Option.bind_eq_some_iff.1 h
    exact (iha ha).trans (ihb hb)
  | ifElse t a b iha ihb =>
    obtain ⟨D₁, D₂, ha, hb, -, -, rfl⟩ := definite_ifElse.1 h
    exact Finset.subset_inter (iha ha) (ihb hb)
  | whileLoop t b ih =>
    obtain ⟨D₁, -, -, rfl⟩ := definite_whileLoop.1 h
    exact subset_rfl

end Command

/-! ## Filled cells -/

namespace Command

variable {fuel : Nat} {c : Command} {s : Scope} {m m' : Memory}

/-- A cell that is filled stays filled. -/
theorem isSome_exec_cells {k : Nat} (h : c.exec fuel s m = .done m') (hk : (m.cells k).isSome) :
    (m'.cells k).isSome := by
  induction c generalizing s m m' with
  | skip | print =>
    cases h
    exact hk
  | assign x v =>
    simp only [exec] at h
    split at h
    · cases h
      by_cases hks : k = s.next
      · simp [Memory.assign, hks]
      · simpa [Memory.assign, hks] using hk
    · cases h
  | seq a b iha ihb =>
    obtain ⟨m₁, h₁, h₂⟩ := Outcome.andThen_eq_done.1 h
    exact ihb h₂ (iha h₁ hk)
  | ifElse t a b iha ihb =>
    simp only [exec] at h
    split at h
    · obtain ⟨m₁, h₁, h₂⟩ := Outcome.andThen_eq_done.1 h
      obtain ⟨hcan, rfl⟩ := Memory.settle_eq_done.1 h₂
      exact Memory.isSome_move_cells hcan (iha h₁ hk)
    · obtain ⟨m₁, h₁, h₂⟩ := Outcome.andThen_eq_done.1 h
      obtain ⟨hcan, rfl⟩ := Memory.settle_eq_done.1 h₂
      exact Memory.isSome_move_cells hcan (ihb h₁ hk)
    · cases h
  | whileLoop t b ih =>
    refine Outcome.repeatWhile_done (P := fun m => (m.cells k).isSome) ?_ hk h
    intro m₁ m₂ hm₁ h₁
    obtain ⟨m₃, h₃, h₂⟩ := Outcome.andThen_eq_done.1 h₁
    obtain ⟨hcan, rfl⟩ := Memory.settle_eq_done.1 h₂
    exact Memory.isSome_move_cells hcan (ih h₃ hm₁)

/-- Where a name that was found before is found in another cell, that cell is filled. -/
theorem isSome_rebound {x : String} {k : Nat} (h : c.exec fuel s m = .done m')
    (hx : (s.cell x).isSome) (hk : (c.after s).cell x = some k) (hne : s.cell x ≠ some k) :
    (m'.cells k).isSome := by
  induction c generalizing s m m' with
  | skip | print => exact absurd hk hne
  | assign y v =>
    simp only [exec] at h
    split at h
    · cases h
      by_cases hxy : x = y
      · subst hxy
        have hks : k = s.next := by simpa [after, eq_comm] using hk
        simp [Memory.assign, hks]
      · exact absurd (by simpa [after, hxy] using hk) hne
    · cases h
  | seq a b iha ihb =>
    obtain ⟨m₁, h₁, h₂⟩ := Outcome.andThen_eq_done.1 h
    by_cases hmid : (a.after s).cell x = some k
    · exact isSome_exec_cells h₂ (iha h₁ hx hmid hne)
    · exact ihb h₂ (isSome_after_cell hx) hk hmid
  -- behind a block the name is where it was before it
  | ifElse t a b iha ihb =>
    obtain ⟨j, hj⟩ := Option.isSome_iff_exists.1 hx
    exact absurd (by simpa [after, Scope.join, hj] using hk) hne
  | whileLoop t b ih =>
    obtain ⟨j, hj⟩ := Option.isSome_iff_exists.1 hx
    exact absurd (by simpa [after, Scope.join, hj] using hk) hne

end Command

/-! ## The invariant -/

/-- The names of the set hold what they were assigned last, and have been assigned. -/
def Memory.Assigned (m : Memory) (s : Scope) (D : Finset String) : Prop :=
  ∀ x ∈ D, m.found s x = m.latest x ∧ (m.found s x).isSome

/-- An event that is faithful and does not block. -/
def Event.Regular (ev : Event) : Prop :=
  ev.Faithful ∧ ¬ ev.Blocks

namespace Memory.Assigned

variable {m : Memory} {s s' : Scope} {D D' : Finset String}

theorem mono (h : m.Assigned s D') (hD : D ⊆ D') : m.Assigned s D :=
  fun x hx => h x (hD hx)

/-- The names of the set are found somewhere. -/
theorem isSome_cell (h : m.Assigned s D) {x : String} (hx : x ∈ D) : (s.cell x).isSome := by
  have hfound := (h x hx).2
  unfold Memory.found at hfound
  cases hk : s.cell x with
  | none => simp [hk] at hfound
  | some k => rfl

/-- The invariant looks only at where the names of the set are found. -/
theorem congr (h : m.Assigned s D) (hs : ∀ x ∈ D, s'.cell x = s.cell x) : m.Assigned s' D := by
  intro x hx
  have hfound : m.found s' x = m.found s x := by rw [Memory.found, hs x hx, ← Memory.found]
  rw [hfound]
  exact h x hx

/-- To read names of the set is a regular event. -/
theorem regular_read (h : m.Assigned s D) {names : List String} (hnames : ∀ x ∈ names, x ∈ D) :
    (Event.read names s m).Regular := by
  refine ⟨fun x hx => (h x (hnames x hx)).1, ?_⟩
  rintro ⟨x, hx, hnone⟩
  have hsome := (h x (hnames x hx)).2
  rw [hnone] at hsome
  cases hsome

/-- An assignment to a new cell makes the name one of those that are assigned. -/
theorem assign (h : m.Assigned s D) (hs : s.WF) (x : String) (v : Int64) :
    (m.assign s.next x v).Assigned ⟨s.next + 1, Function.update s.cell x (some s.next)⟩
      (insert x D) := by
  intro y hy
  by_cases hyx : y = x
  · subst hyx
    simp [Memory.found, Memory.assign]
  · have hyD : y ∈ D := (Finset.mem_insert.1 hy).resolve_left hyx
    obtain ⟨k, hk⟩ := Option.isSome_iff_exists.1 (h.isSome_cell hyD)
    have hne : k ≠ s.next := Nat.ne_of_lt (hs.lt_next hk)
    have hold := h y hyD
    simp only [Memory.found, hk, Option.bind_some] at hold
    simpa [Memory.found, Memory.assign, hyx, hk, hne] using hold

end Memory.Assigned

namespace Command

variable {fuel : Nat} {c : Command} {s t : Scope} {m : Memory} {D D' : Finset String}

/-- At the end of a block names can be moved home, if those that were not found before the block
have been assigned. -/
theorem canMove_of_assigned {m' : Memory} {x : String} (h : c.exec fuel s m = .done m')
    (hD : m'.Assigned (c.after s) D') (hsub : ∀ {x k}, s.cell x = some k → t.cell x = some k)
    (hhome : (t.cell x).isSome → (s.cell x).isSome ∨ x ∈ D') :
    m'.canMove t.cell (c.after s).cell x = true := by
  unfold Memory.canMove
  cases hk : t.cell x with
  | none => rfl
  | some k =>
    rcases hhome (by simp [hk]) with hs | hxD
    · obtain ⟨k', hk'⟩ := Option.isSome_iff_exists.1 (isSome_after_cell (c := c) hs)
      by_cases hne : k' = k
      · simp [hk', hne]
      · have hold : s.cell x ≠ some k' := by
          intro he
          exact hne (Option.some.inj ((hsub he).symm.trans hk))
        simp [hk', isSome_rebound h hs hk' hold]
    · have hfound := (hD x hxD).2
      unfold Memory.found at hfound
      simp [hfound]

/-- Where the names of a set have been assigned, the command runs without hindrance, and leaves the
names of another set assigned. -/
def Regular (fuel : Nat) (c : Command) (s : Scope) (D D' : Finset String) : Prop :=
  ∀ m : Memory, m.Assigned s D → (∀ ev ∈ c.events fuel s m, ev.Regular) ∧
    ∀ m', c.exec fuel s m = .done m' → m'.Assigned (c.after s) D'

/-- A block is regular if its command is. -/
theorem Regular.block (hc : c.Regular fuel s D D') (ht : t.WF) (hnext : t.next ≤ s.next)
    (hsub : ∀ {x k}, s.cell x = some k → t.cell x = some k)
    (hhome : ∀ x ∈ c.assigned, (t.cell x).isSome → (s.cell x).isSome ∨ x ∈ D')
    (hD : m.Assigned s D) :
    (∀ ev ∈ c.events fuel s m ++
        (c.exec fuel s m).trace (fun m => [.settle c.assigned s.cell t.cell (c.after s).cell m]),
      ev.Regular) ∧
    ∀ m', (c.exec fuel s m).andThen (Memory.settle c.assigned t.cell (c.after s).cell) = .done m' →
      m'.Assigned ⟨(c.after s).next, Scope.join t.cell (c.after s).cell⟩ D' := by
  obtain ⟨hevents, hdone⟩ := hc m hD
  constructor
  · refine Outcome.forall_mem_append_trace.2 ⟨hevents, fun m₁ h₁ ev hev => ?_⟩
    rw [List.mem_singleton.1 hev]
    have hcan : ∀ x ∈ c.assigned, m₁.canMove t.cell (c.after s).cell x = true := fun x hx =>
      canMove_of_assigned h₁ (hdone m₁ h₁) hsub (hhome x hx)
    refine ⟨hcan, ?_⟩
    rintro ⟨x, hx, hfalse⟩
    rw [hcan x hx] at hfalse
    cases hfalse
  · intro m' h
    obtain ⟨m₁, h₁, h₂⟩ := Outcome.andThen_eq_done.1 h
    obtain ⟨-, rfl⟩ := Memory.settle_eq_done.1 h₂
    intro x hx
    have hfound : (m₁.move c.assigned t.cell (c.after s).cell).found
        ⟨(c.after s).next, Scope.join t.cell (c.after s).cell⟩ x = m₁.found (c.after s) x :=
      Memory.move_found (homing ht hnext hsub) ((hdone m₁ h₁).isSome_cell hx)
    rw [hfound]
    exact hdone m₁ h₁ x hx

/-- A branch is regular if its blocks are, and if the second one assigns the names that it moves to
where the first one introduced them. -/
theorem Regular.ifElse {test : Test} {a b : Command} {D₁ D₂ : Finset String} (hs : s.WF)
    (ha : a.Regular fuel s D D₁) (hb : b.Regular fuel ⟨(a.after s).next, s.cell⟩ D D₂)
    (hnames : ∀ x ∈ test.names, x ∈ D)
    (hboth : ∀ x ∈ a.assigned, x ∈ b.assigned → x ∉ D → x ∈ D₂) :
    (Command.ifElse test a b).Regular fuel s D (D₁ ∩ D₂) := by
  intro m hD
  have hjoin : Scope.WF ⟨(a.after s).next, Scope.join s.cell (a.after s).cell⟩ :=
    hs.join (wf_after hs) (a.next_le_after s) next_le_of_after_cell
  have hhome : ∀ x ∈ b.assigned, (Scope.join s.cell (a.after s).cell x).isSome →
      (s.cell x).isSome ∨ x ∈ D₂ := by
    intro x hx hhome
    cases hsx : s.cell x with
    | some k => exact .inl rfl
    | none =>
      refine .inr (hboth x ?_ hx fun hxD => ?_)
      · by_contra hxa
        simp [Scope.join, hsx, after_cell_of_not_mem hxa] at hhome
      · have hsome := hD.isSome_cell hxD
        simp [hsx] at hsome
  have hthen := ha.block hs (Nat.le_refl _) id (fun x _ hx => .inl hx) hD
  have helse := hb.block (m := m) hjoin (Nat.le_refl _) Scope.join_of_some hhome
    (hD.congr fun _ _ => rfl)
  simp only [events, exec, List.mem_cons, forall_eq_or_imp]
  have hread := hD.regular_read hnames
  cases hc : test.eval (m.view s) with
  | none =>
    refine ⟨⟨hread, fun ev hev => ?_⟩, fun m' he => ?_⟩
    · cases hev
    · cases he
  | some c =>
    cases c with
    | true =>
      refine ⟨⟨hread, hthen.1⟩, fun m' he => ?_⟩
      refine ((hthen.2 m' he).mono Finset.inter_subset_left).congr fun x hx => ?_
      have hsome := (hthen.2 m' he).isSome_cell (Finset.mem_inter.1 hx).1
      obtain ⟨k, hk⟩ := Option.isSome_iff_exists.1 hsome
      simp only [after, Scope.join] at hk ⊢
      rw [← Option.or_assoc, hk, Option.some_or]
    | false =>
      refine ⟨⟨hread, helse.1⟩, fun m' he => ?_⟩
      refine ((helse.2 m' he).mono Finset.inter_subset_right).congr fun x _ => ?_
      simp only [after, Scope.join, Option.or_assoc]

/-- A loop is regular if its body is. -/
theorem Regular.whileLoop {test : Test} {b : Command} (hs : s.WF) (hb : b.Regular fuel s D D')
    (hsub : D ⊆ D') (hnames : ∀ x ∈ test.names, x ∈ D) :
    (Command.whileLoop test b).Regular fuel s D D := by
  intro m hD
  have hround := fun (m : Memory) (hD : m.Assigned s D) =>
    hb.block hs (Nat.le_refl _) id (fun x _ hx => .inl hx) hD
  have hkeep : ∀ m : Memory, m.Assigned s D → ∀ m', (b.exec fuel s m).andThen
      (Memory.settle b.assigned s.cell (b.after s).cell) = .done m' → m'.Assigned s D := by
    intro m hD m' he
    refine (((hround m hD).2 m' he).mono hsub).congr fun x hx => ?_
    obtain ⟨k, hk⟩ := Option.isSome_iff_exists.1 (hD.isSome_cell hx)
    rw [hk]
    exact (Scope.join_of_some hk).symm
  refine ⟨?_, fun m' he => ?_⟩
  · refine Outcome.forall_mem_traceWhile (Q := fun m => m.Assigned s D) (fun m hD ev hev => ?_)
      (fun m hD => ⟨(hround m hD).1, hkeep m hD⟩) fuel m hD
    rw [List.mem_singleton.1 hev]
    exact hD.regular_read hnames
  · have hD' : m'.Assigned s D := Outcome.repeatWhile_done (P := fun m => m.Assigned s D)
      (fun hD he => hkeep _ hD _ he) hD he
    refine hD'.congr fun x hx => ?_
    obtain ⟨k, hk⟩ := Option.isSome_iff_exists.1 (hD.isSome_cell hx)
    rw [hk]
    exact Scope.join_of_some hk

/-- A command that passes the check is regular. -/
theorem regular_of_definite (h : c.definite D = some D') (hs : s.WF) :
    c.Regular fuel s D D' := by
  induction c generalizing s D D' with
  | skip =>
    cases h
    exact fun m hD => ⟨nofun, fun m' he => by cases he; exact hD⟩
  | print text =>
    cases h
    exact fun m hD => ⟨nofun, fun m' he => by cases he; exact hD⟩
  | assign x v =>
    simp only [definite, Option.ite_none_right_eq_some, Option.some.injEq] at h
    obtain ⟨hnames, rfl⟩ := h
    refine fun m hD => ⟨fun ev hev => ?_, fun m' he => ?_⟩
    · rw [List.mem_singleton.1 hev]
      exact hD.regular_read hnames
    · simp only [exec] at he
      split at he
      · cases he
        exact hD.assign hs x _
      · cases he
  | seq a b iha ihb =>
    obtain ⟨D₁, ha, hb⟩ := Option.bind_eq_some_iff.1 h
    intro m hD
    obtain ⟨hevents, hdone⟩ := iha ha hs m hD
    have hrest := fun m₁ h₁ => ihb hb (wf_after hs) m₁ (hdone m₁ h₁)
    refine ⟨Outcome.forall_mem_append_trace.2 ⟨hevents, fun m₁ h₁ => (hrest m₁ h₁).1⟩, ?_⟩
    intro m' he
    obtain ⟨m₁, h₁, h₂⟩ := Outcome.andThen_eq_done.1 he
    exact (hrest m₁ h₁).2 m' h₂
  | ifElse t a b iha ihb =>
    obtain ⟨D₁, D₂, ha, hb, hnames, hboth, rfl⟩ := definite_ifElse.1 h
    exact .ifElse hs (iha ha hs) (ihb hb (hs.mono (a.next_le_after s))) hnames hboth
  | whileLoop t b ih =>
    obtain ⟨D₁, hb, hnames, rfl⟩ := definite_whileLoop.1 h
    exact .whileLoop hs (ih hb hs) (subset_of_definite hb) hnames

/-- A command that passes the check does the same on the cells as in the reference semantics. -/
theorem DefinitelyAssigned.followsReference (h : c.DefinitelyAssigned) : c.FollowsReference := by
  obtain ⟨D, hD⟩ := h
  intro fuel
  have hregular : c.Regular fuel .empty ∅ D := regular_of_definite hD Scope.wf_empty
  exact exec_inStep .empty fun ev hev => ((hregular .empty nofun).1 ev hev).1

/-- A command that passes the check does not get stuck. -/
theorem DefinitelyAssigned.not_getsStuck (h : c.DefinitelyAssigned) : ¬ c.GetsStuck m := by
  rintro ⟨fuel, hstuck⟩
  obtain ⟨D, hD⟩ := h
  have hregular : c.Regular fuel .empty ∅ D := regular_of_definite hD Scope.wf_empty
  obtain ⟨ev, hev, hblocks⟩ := isStuck_exec.1 ⟨m, hstuck⟩
  exact ((hregular .empty nofun).1 ev hev).2 hblocks

end Command

end RegisterBackend
