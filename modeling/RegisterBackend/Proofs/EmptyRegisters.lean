import RegisterBackend.Proofs.ScalarPrograms

/-!
# When code reads an empty register

Code reads registers for two purposes: to evaluate something, and to move the names of a block home
at its end. Names that were found before the block are always there to be moved, since a cell that
such a name has been given in the block is filled when it is given. What may be missing is a name
that both blocks of a branch introduce. Behind the branch it is found where the first block left it,
so the second one copies it there, whether it has been assigned on the way taken or not.
`Event.Gap` describes these two cases, and `Command.blocks_iff_gap` says that they are all.

So code may fail although the program reads no unassigned name (`Program.branchGap_fails`).
`Program.failure_justified_iff` says of which programs this is not true, and that a program whose
events are faithful fails exactly where it reads an unassigned name.
-/

namespace RegisterBackend

/-- Something is missing that an event needs: a name is read whose cell is empty, or a block has to
move a name that it introduced to where another block did, and the cell in which it left the name is
empty. -/
def Event.Gap : Event → Prop
  | .read names s m => ∃ x ∈ names, m.found s x = none
  | .settle names entry home now m =>
    ∃ x ∈ names, entry x = none ∧ (home x).isSome ∧ (now x).bind m.cells = none

namespace Command

variable {fuel : Nat} {c : Command} {s t : Scope} {m : Memory}

/-- At the end of a block, only a name that was not found before the block can be missing. -/
theorem settle_blocks_iff {m₁ : Memory} (h : c.exec fuel s m = .done m₁)
    (H : Homing c.assigned t.cell (c.after s).cell s.next)
    (hsub : ∀ {x k}, s.cell x = some k → t.cell x = some k) :
    (Event.settle c.assigned s.cell t.cell (c.after s).cell m₁).Blocks ↔
      (Event.settle c.assigned s.cell t.cell (c.after s).cell m₁).Gap := by
  refine exists_congr fun x => and_congr_right fun _ => ?_
  unfold Memory.canMove
  constructor
  · intro hx
    cases hk : t.cell x with
    | none => simp [hk] at hx
    | some k =>
      simp only [hk, Bool.or_eq_false_iff, decide_eq_false_iff_not, Option.isSome_eq_false_iff,
        Option.isNone_iff_eq_none] at hx
      refine ⟨?_, rfl, hx.2⟩
      by_contra hs
      obtain ⟨j, hj⟩ := Option.ne_none_iff_exists'.1 hs
      obtain ⟨k', hk'⟩ := Option.isSome_iff_exists.1 (isSome_after_cell (c := c) (s := s) (x := x)
        (by simp [hj]))
      have hne : s.cell x ≠ some k' := by
        rw [hj, ← hsub hj, hk, ← hk']
        exact fun he => hx.1 he.symm
      have hsome := isSome_rebound h (by simp [hj]) hk' hne
      have hempty : m₁.cells k' = none := by simpa [hk'] using hx.2
      rw [hempty] at hsome
      cases hsome
  · rintro ⟨hs, hhome, hempty⟩
    obtain ⟨k, hk⟩ := Option.isSome_iff_exists.1 hhome
    have hne : (c.after s).cell x ≠ some k := by
      intro he
      have hnew := next_le_of_after_cell hs he
      have hold := H.old hk
      omega
    simp [hk, hne, hempty]

/-- An event of a run blocks it exactly if there is a gap. -/
theorem blocks_iff_gap (hs : s.WF) : ∀ ev ∈ c.events fuel s m, (ev.Blocks ↔ ev.Gap) := by
  induction c generalizing s m with
  | skip | print =>
    intro ev hev
    cases hev
  | assign x v =>
    intro ev hev
    rw [List.mem_singleton.1 hev]
    rfl
  | seq a b iha ihb =>
    exact Outcome.forall_mem_append_trace.2 ⟨iha hs, fun m₁ _ => ihb (wf_after hs)⟩
  | ifElse t a b iha ihb =>
    simp only [events, List.mem_cons, forall_eq_or_imp]
    refine ⟨Iff.rfl, ?_⟩
    split
    · refine Outcome.forall_mem_append_trace.2 ⟨iha hs, fun m₁ h₁ ev hev => ?_⟩
      rw [List.mem_singleton.1 hev]
      exact settle_blocks_iff h₁ (homing hs (Nat.le_refl _) id) id
    · refine Outcome.forall_mem_append_trace.2
        ⟨ihb (hs.mono (a.next_le_after s)), fun m₁ h₁ ev hev => ?_⟩
      rw [List.mem_singleton.1 hev]
      have hjoin : Scope.WF ⟨(a.after s).next, Scope.join s.cell (a.after s).cell⟩ :=
        hs.join (wf_after hs) (a.next_le_after s) next_le_of_after_cell
      exact settle_blocks_iff h₁ (homing hjoin (Nat.le_refl _) Scope.join_of_some)
        Scope.join_of_some
    · intro ev hev
      cases hev
  | whileLoop t b ih =>
    refine Outcome.forall_mem_traceWhile (Q := fun _ => True) (fun m _ ev hev => ?_)
      (fun m _ => ⟨?_, fun _ _ => trivial⟩) fuel m trivial
    · rw [List.mem_singleton.1 hev]
      rfl
    · refine Outcome.forall_mem_append_trace.2 ⟨ih hs, fun m₁ h₁ ev hev => ?_⟩
      rw [List.mem_singleton.1 hev]
      exact settle_blocks_iff h₁ (homing hs (Nat.le_refl _) id) id

/-- A faithful run that gets stuck reads an unassigned name, and has printed what was to be
printed. -/
theorem readsUnassigned_of_faithful (h : ∀ ev ∈ c.events fuel .empty .empty, ev.Faithful)
    (hstuck : c.exec fuel .empty .empty = .stuck m) :
    ∃ st, c.ReadsUnassigned st ∧ m.lines = st.lines := by
  have hstep := exec_inStep .empty h
  rw [hstuck] at hstep
  generalize hst : c.eval fuel .empty = o at hstep
  cases hstep with
  | stuck hR => exact ⟨_, ⟨fuel, hst⟩, hR.lines⟩

/-- A command gets stuck on the cells exactly if there is a gap somewhere in its run. -/
theorem getsStuck_iff_gap :
    (∃ m, c.GetsStuck m) ↔ ∃ fuel, ∃ ev ∈ c.events fuel .empty .empty, ev.Gap := by
  have hstuck : (∃ m, c.GetsStuck m) ↔ ∃ fuel, (c.exec fuel .empty .empty).IsStuck :=
    exists_comm
  rw [hstuck]
  refine exists_congr fun fuel => isStuck_exec.trans (exists_congr fun ev => ?_)
  exact and_congr_right fun hev => blocks_iff_gap Scope.wf_empty ev hev

end Command

namespace Program

variable {p : Program} {code : Bytecode} {σ : Type} {sink : Sink σ} {start : σ}

/-- Code fails exactly if there is a gap in the run. If the events up to there are faithful, the gap
is that the program reads an unassigned name, and the code fails with the output of the program so
far. A program all of whose events are faithful fails exactly where it reads an unassigned name. -/
theorem failure_justified_iff (hlower : p.lower = .ok code) (hsmall : p.Small)
    (haccepts : sink.Accepts start) :
    ∃ c, p.command? = some c ∧
      ((∃ final, code.FailsWith sink start final) ↔
        ∃ fuel, ∃ ev ∈ c.events fuel .empty .empty, ev.Gap) ∧
      (∀ fuel, (∀ ev ∈ c.events fuel .empty .empty, ev.Faithful) →
        ∀ ev ∈ c.events fuel .empty .empty, ev.Gap →
          ∃ st, c.ReadsUnassigned st ∧ code.FailsWith sink start (sink.lines start st.lines)) ∧
      ((∀ fuel, ∀ ev ∈ c.events fuel .empty .empty, ev.Faithful) →
        ∀ final, code.FailsWith sink start final ↔
          ∃ st, c.ReadsUnassigned st ∧ final = sink.lines start st.lines) := by
  obtain ⟨c, hc, hrun, rfl, hlabels⟩ := lower_eq_ok hlower
  have hdup := Bytecode.duplicateLabel?_eq_none hlabels
  have hfails : ∀ final, p.emitted.finish.FailsWith sink start final ↔
      ∃ m, c.GetsStuck m ∧ final = sink.lines start m.lines := fun _ =>
    Bytecode.failsWith_iff_getsStuck hrun hdup hsmall.1 haccepts
  have hgap : (∃ final, p.emitted.finish.FailsWith sink start final) ↔
      ∃ fuel, ∃ ev ∈ c.events fuel .empty .empty, ev.Gap := by
    rw [← Command.getsStuck_iff_gap]
    simp only [hfails]
    exact ⟨fun ⟨_, m, hm, _⟩ => ⟨m, hm⟩, fun ⟨m, hm⟩ => ⟨_, m, hm, rfl⟩⟩
  refine ⟨c, hc, hgap, fun fuel hfaithful ev hev hgap => ?_, fun hfaithful final => ?_⟩
  · obtain ⟨m, hm⟩ := Command.isStuck_exec.2
      ⟨ev, hev, (Command.blocks_iff_gap Scope.wf_empty ev hev).2 hgap⟩
    obtain ⟨st, hst, hlines⟩ := Command.readsUnassigned_of_faithful hfaithful hm
    exact ⟨st, hst, (hfails _).2 ⟨m, ⟨fuel, hm⟩, by rw [hlines]⟩⟩
  · have hfollows : c.FollowsReference := fun fuel =>
      Command.exec_inStep .empty (hfaithful fuel)
    rw [hfails]
    exact hfollows.getsStuck_iff (P := fun lines => final = sink.lines start lines)

/-- `x = 0; if x > 0 then t = 1 else (if x > 0 then t = 2)`. -/
def branchGap : Program :=
  ⟨.ofNodes [.constant (.scalar 0), .var (.scalar "x"), .assign ⟨1⟩ ⟨0⟩,
    .var (.scalar "x"), .constant (.scalar 0), .comparison .greater ⟨3⟩ ⟨4⟩,
    .constant (.scalar 2), .var (.scalar "t"), .assign ⟨7⟩ ⟨6⟩, .ifElse ⟨5⟩ [⟨8⟩] [],
    .var (.scalar "x"), .constant (.scalar 0), .comparison .greater ⟨10⟩ ⟨11⟩,
    .constant (.scalar 1), .var (.scalar "t"), .assign ⟨14⟩ ⟨13⟩, .ifElse ⟨12⟩ [⟨15⟩] [⟨9⟩]],
  [⟨2⟩, ⟨16⟩]⟩

/-- The equivalence for a program whose code fails although no unassigned name is read. -/
theorem failure_justified_iff_branchGap : branchGap.Small ∧ ∃ c, branchGap.command? = some c ∧
    ((∃ final, branchGap.emitted.finish.FailsWith Buffer.sink (.empty none false) final) ↔
      ∃ fuel, ∃ ev ∈ c.events fuel .empty .empty, ev.Gap) ∧
    (∀ fuel, (∀ ev ∈ c.events fuel .empty .empty, ev.Faithful) →
      ∀ ev ∈ c.events fuel .empty .empty, ev.Gap →
        ∃ st, c.ReadsUnassigned st ∧ branchGap.emitted.finish.FailsWith Buffer.sink
          (.empty none false) (Buffer.sink.lines (.empty none false) st.lines)) ∧
    ((∀ fuel, ∀ ev ∈ c.events fuel .empty .empty, ev.Faithful) →
      ∀ final, branchGap.emitted.finish.FailsWith Buffer.sink (.empty none false) final ↔
        ∃ st, c.ReadsUnassigned st ∧
          final = Buffer.sink.lines (.empty none false) st.lines) := by
  have hlower : branchGap.lower = .ok branchGap.emitted.finish := by decide +kernel
  have hsmall : branchGap.Small := ⟨by decide +kernel, by decide +kernel⟩
  exact ⟨hsmall, failure_justified_iff hlower hsmall (Buffer.accepts rfl)⟩

/-- A checked program that reads no unassigned name may fail. -/
theorem branchGap_fails : ∃ c code, branchGap.check = .ok () ∧ branchGap.command? = some c ∧
    branchGap.lower = .ok code ∧
    code.FailsWith Buffer.sink (.empty none false) (.empty none false) ∧
    (∃ st, c.Terminates st) ∧ ∀ st, ¬ c.ReadsUnassigned st := by
  have hrun : (match (Machine.new (Buffer.empty none false)).runWithin Buffer.sink 20
      branchGap.emitted.finish with
    | .error (.unknownRegister _) m => decide (m.output = .empty none false)
    | _ => false) = true := by decide +kernel
  have heval : ∀ fuel, ∃ st, (Command.seq (.assign "x" (.const 0)) (.seq
      (.ifElse ⟨.greater, .var "x", .const 0⟩ (.seq (.assign "t" (.const 1)) .skip)
        (.seq (.ifElse ⟨.greater, .var "x", .const 0⟩ (.seq (.assign "t" (.const 2)) .skip) .skip)
          .skip)) .skip)).eval fuel .empty = .done st := fun fuel => ⟨_, rfl⟩
  refine ⟨_, branchGap.emitted.finish, by decide +kernel, by decide +kernel, by decide +kernel,
    ?_, ⟨(heval 0).choose, 0, (heval 0).choose_spec⟩, ?_⟩
  · split at hrun
    next q m h => exact ⟨20, q, m, h, by simpa using hrun⟩
    next => cases hrun
  · rintro st ⟨fuel, hst⟩
    obtain ⟨st', hst'⟩ := heval fuel
    rw [hst'] at hst
    cases hst

end Program

end RegisterBackend
