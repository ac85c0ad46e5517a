import RegisterBackend.Proofs.Lowerable

/-!
# Labels in lowered code and in runs of the machine

Code that lowering produces carries the labels that were handed out, each in one place, and its
jumps lead to them. The check of labels and the machine agree on all bytecode, lowered or not: both
refuse the label that is the first to be placed again (`FirstRepeat`), and the machine has nothing
else to say of the labels of code that the check accepts.

The latter is a fact about the steps of a run. `Instruction.FailsWith` lists what can go wrong at an
instruction, `RunM.run_execute_error` shows that nothing else does, and `RunM.run_runFor_error` that
a run fails only as one of its instructions does.
-/

namespace RegisterBackend

/-! ## The label that is placed again -/

/-- The label is the first one of the list that is equal to an earlier one. -/
def FirstRepeat (ls : List Label) (l : Label) : Prop :=
  ∃ before after, ls = before ++ l :: after ∧ before.Nodup ∧ l ∈ before

/-- The label that is reported is equal to an earlier one or to one seen before, and the labels
in front of it are not. -/
theorem repeatedLabel?_eq_some {l : Label} {seen ls : List Label} :
    repeatedLabel? seen ls = some l ↔ ∃ before after, ls = before ++ l :: after ∧
      before.Nodup ∧ (∀ k ∈ before, k ∉ seen) ∧ (l ∈ before ∨ l ∈ seen) := by
  induction ls generalizing seen with
  | nil => simp [repeatedLabel?]
  | cons k ls ih =>
    by_cases hk : k ∈ seen
    · rw [repeatedLabel?, if_pos hk, Option.some_inj]
      constructor
      · rintro rfl
        exact ⟨[], ls, rfl, .nil, by simp, .inr hk⟩
      · rintro ⟨before, after, heq, -, hnot, -⟩
        cases before with
        | nil => exact (List.cons.inj heq).1
        | cons b before =>
          obtain ⟨rfl, -⟩ := List.cons.inj heq
          exact absurd hk (hnot k (.head _))
    · rw [repeatedLabel?, if_neg hk, ih]
      constructor
      · rintro ⟨before, after, rfl, hnodup, hnot, hl⟩
        simp only [List.mem_cons, not_or] at hnot hl
        refine ⟨k :: before, after, rfl, List.nodup_cons.2 ⟨fun h => (hnot k h).1 rfl, hnodup⟩,
          ?_, ?_⟩
        · rintro j (_ | ⟨_, hj⟩)
          · exact hk
          · exact (hnot j hj).2
        · rcases hl with hl | rfl | hl
          · exact .inl (.tail _ hl)
          · exact .inl (.head _)
          · exact .inr hl
      · rintro ⟨before, after, heq, hnodup, hnot, hl⟩
        cases before with
        | nil =>
          obtain ⟨rfl, -⟩ := List.cons.inj heq
          exact absurd (hl.resolve_left List.not_mem_nil) hk
        | cons b before =>
          obtain ⟨rfl, rfl⟩ := List.cons.inj heq
          obtain ⟨hnew, hnodup⟩ := List.nodup_cons.1 hnodup
          refine ⟨before, after, rfl, hnodup, fun j hj => ?_, ?_⟩
          · rw [List.mem_cons, not_or]
            exact ⟨fun h => hnew (h ▸ hj), hnot j (.tail _ hj)⟩
          · rw [List.mem_cons] at hl ⊢
            tauto

namespace Bytecode

variable {code : Bytecode} {l : Label}

/-- The label that is placed again is the first such label. -/
theorem duplicateLabel?_eq_some : code.duplicateLabel? = some l ↔ FirstRepeat code.labels l := by
  simp [duplicateLabel?, repeatedLabel?_eq_some, FirstRepeat]

/-- The check of labels reports the first label that is placed again. -/
theorem checkLabels_eq_duplicate :
    code.checkLabels = .error (.duplicate l) ↔ FirstRepeat code.labels l := by
  rw [← duplicateLabel?_eq_some]
  unfold checkLabels
  cases code.duplicateLabel? <;> cases code.unresolvedLabel? <;> simp

/-- A label that is placed is found. -/
theorem position?_ne_none (h : l ∈ code.labels) : code.position? l ≠ none := by
  obtain ⟨i, hi, hplaced⟩ := List.mem_filterMap.1 h
  intro hnone
  have hnot := Array.findIdx?_eq_none_iff.1 hnone i (Array.mem_toList_iff.1 hi)
  simp [hplaced] at hnot

end Bytecode

/-! ## What can go wrong in a run -/

/-- The errors that an instruction can end with: it reads an empty register, it jumps to a label
that is not placed, or the sink refuses its line. -/
inductive Instruction.FailsWith (code : Bytecode) (i : Instruction) : MachineError → Prop where
  | register (q : Register) : FailsWith code i (.unknownRegister q)
  | target {l : Label} (hjump : i.jumpTarget? = some l) (hnone : code.position? l = none) :
    FailsWith code i (.labels (.unresolved l))
  | output (reason : String) : FailsWith code i (.output reason)

namespace RunM

variable {σ : Type} {code : Bytecode} {sink : Sink σ} {i : Instruction} {r r' : Run σ}
  {e : MachineError} {l : Label}

/-- Only an empty register cannot be read. -/
theorem run_resolve_error {src : Source} (h : (resolve src : RunM σ Int64).run r = .error e r') :
    ∃ q, e = .unknownRegister q := by
  cases src with
  | literal v => cases h
  | register q =>
    cases hq : r.registers.get? q with
    | some v =>
      have hread : (resolve (.register q) : RunM σ Int64).run r = .ok v r := run_read hq
      rw [hread] at h
      cases h
    | none =>
      have hread : (resolve (.register q) : RunM σ Int64).run r = .error (.unknownRegister q) r :=
        run_read_error hq
      rw [hread] at h
      cases h
      exact ⟨q, rfl⟩

/-- A value that is read and used goes wrong in the reading or in the use. -/
theorem run_resolve_bind_error {α : Type} {src : Source} {f : Int64 → RunM σ α}
    (h : (resolve src >>= f).run r = .error e r') :
    (∃ q, e = .unknownRegister q) ∨ ∃ v r₁, (f v).run r₁ = .error e r' := by
  rcases run_bind_eq_error.1 h with h | ⟨v, r₁, -, h⟩
  · exact .inl (run_resolve_error h)
  · exact .inr ⟨v, r₁, h⟩

/-- Only a label that is not placed cannot be gone to. -/
theorem run_goTo_error (h : (goTo code l : RunM σ Unit).run r = .error e r') :
    e = .labels (.unresolved l) ∧ code.position? l = none := by
  cases hpos : code.position? l with
  | some k =>
    rw [run_goTo hpos] at h
    cases h
  | none =>
    simp only [goTo, hpos] at h
    cases h
    exact ⟨rfl, rfl⟩

/-- Only a sink that refuses the line keeps it from being printed. -/
theorem run_printLine_error {text : String} (h : (printLine sink text).run r = .error e r') :
    ∃ reason, e = .output reason := by
  simp only [printLine, EStateM.run_bind, EStateM.run_get] at h
  split at h
  next => cases h
  next reason output _ =>
    cases h
    exact ⟨reason, rfl⟩

/-- What can go wrong at an instruction. -/
theorem run_execute_error (h : (execute code sink i).run r = .error e r') : i.FailsWith code e := by
  -- arithmetic and comparisons read two registers and cannot go wrong after that
  have hbinary : ∀ {a b d : Register} {f : Int64 → Int64 → Int64},
      (read a >>= fun x => read b >>= fun y => write d (f x y)).run r = .error e r' →
        i.FailsWith code e := by
    intro a b d f h
    rcases run_resolve_bind_error h with ⟨q, rfl⟩ | ⟨x, r₁, h⟩
    · exact .register q
    rcases run_resolve_bind_error h with ⟨q, rfl⟩ | ⟨y, r₂, h⟩
    · exact .register q
    cases h
  cases i with
  | set d src =>
    rcases run_resolve_bind_error h with ⟨q, rfl⟩ | ⟨v, r₁, h⟩
    · exact .register q
    · cases h
  | arith op d a b => exact hbinary h
  | compare op d a b => exact hbinary h
  | jump l =>
    obtain ⟨rfl, hnone⟩ := run_goTo_error h
    exact .target rfl hnone
  | branch onNonzero q l =>
    rcases run_resolve_bind_error h with ⟨q, rfl⟩ | ⟨v, r₁, h⟩
    · exact .register q
    · split at h
      · obtain ⟨rfl, hnone⟩ := run_goTo_error h
        exact .target rfl hnone
      · cases h
  | label l => cases h
  | print text =>
    obtain ⟨reason, rfl⟩ := run_printLine_error h
    exact .output reason

/-- A step fails as its instruction does. -/
theorem run_step_eq_error (h : (step code sink i).run r = .error e r') : i.FailsWith code e := by
  cases hexec : (execute code sink i).run r.count with
  | ok u r₁ =>
    rw [run_step hexec] at h
    cases h
  | error e₁ r₁ =>
    rw [run_step_error hexec] at h
    cases h
    exact run_execute_error hexec

/-- A run fails as one of the instructions of the program does. -/
theorem run_runFor_error {limit : Nat} (h : (runFor code sink limit).run r = .error e r') :
    ∃ i ∈ code.instructions.toList, i.FailsWith code e := by
  induction limit generalizing r with
  | zero =>
    cases hat : code.at? r.position with
    | none =>
      rw [run_runFor_of_none hat] at h
      cases h
    | some i =>
      rw [run_runFor_zero hat] at h
      cases h
  | succ limit ih =>
    cases hat : code.at? r.position with
    | none =>
      rw [run_runFor_of_none hat] at h
      cases h
    | some i =>
      rw [run_runFor_succ hat] at h
      rcases run_bind_eq_error.1 h with h | ⟨_, r₁, -, h⟩
      · exact ⟨i, Array.mem_toList_iff.2 (Array.mem_of_getElem? hat), run_step_eq_error h⟩
      · exact ih h

end RunM

namespace Machine

variable {σ : Type} {m m' : Machine σ} {sink : Sink σ} {code : Bytecode} {limit : Nat}
  {ceiling : Option Nat} {fault : LabelFault}

/-- A run complains about labels if the first of them is placed again, and at a jump to a label that
is not placed. -/
theorem runWithin_labels (h : m.runWithin sink limit code = .error (.labels fault) m') :
    (∃ l, fault = .duplicate l ∧ FirstRepeat code.labels l) ∨
      ∃ l, fault = .unresolved l ∧ l ∈ code.jumpTargets ∧ l ∉ code.labels := by
  unfold runWithin at h
  split at h
  next l hdup =>
    cases h
    exact .inl ⟨l, rfl, Bytecode.duplicateLabel?_eq_some.1 hdup⟩
  next =>
    unfold conclude at h
    split at h
    next e r hrun =>
      cases h
      obtain ⟨i, hi, hfail⟩ := RunM.run_runFor_error hrun
      cases hfail with
      | target hjump hnone =>
        exact .inr ⟨_, rfl, List.mem_filterMap.2 ⟨i, hi, hjump⟩, fun hmem =>
          Bytecode.position?_ne_none hmem hnone⟩
    next => split at h <;> cases h

/-- A run refuses the first label that is placed again, whatever its ceiling. -/
theorem run_eq_duplicate {l : Label} :
    (∃ m', m.run sink ceiling code = some (.error (.labels (.duplicate l)) m')) ↔
      FirstRepeat code.labels l := by
  constructor
  · rintro ⟨m', h⟩
    obtain ⟨limit, hlimit⟩ := exists_runWithin_of_run h
    rcases runWithin_labels hlimit with ⟨k, heq, hfirst⟩ | ⟨k, heq, -⟩
    · cases heq
      exact hfirst
    · cases heq
  · intro hfirst
    have hdup := Bytecode.duplicateLabel?_eq_some.2 hfirst
    refine ⟨m, ?_⟩
    cases ceiling <;> simp only [run, runFreely, runWithin, hdup]

/-- A run has nothing to say of labels that are consistent. -/
theorem run_ne_labels (h : code.checkLabels = .ok ()) :
    m.run sink ceiling code ≠ some (.error (.labels fault) m') := by
  obtain ⟨hnodup, htargets⟩ := Bytecode.checkLabels_eq_ok.1 h
  intro hrun
  obtain ⟨limit, hlimit⟩ := exists_runWithin_of_run hrun
  rcases runWithin_labels hlimit with ⟨l, -, before, after, hlabels, -, hmem⟩ | ⟨l, -, hjump, hnot⟩
  · rw [hlabels, List.nodup_append] at hnodup
    exact hnodup.2.2 l hmem l (.head _) rfl
  · exact hnot (htargets l hjump)

end Machine

/-! ## The labels of lowered code -/

namespace Program

/-- Labels are consistent. If the walk over a program succeeds and hands out numbers of labels that
do not overflow, the labels that are placed are those that were handed out, each in one place, the
jumps lead to them, and the check accepts the code. For any code, the check and the machine refuse
the same label that is placed again, and a run of code that the check accepts does not end at a
label, whatever its ceiling and also without one. -/
theorem labels_consistent :
    (∀ (p : Program) (e : Emitter), p.lowerBody.run .empty = .ok () e → e.labels < UInt32.size →
      e.finish.labels.Perm ((List.range e.labels).map .ofIndex) ∧
        (∀ l ∈ e.finish.jumpTargets, l ∈ e.finish.labels) ∧
        e.finish.checkLabels = .ok () ∧ p.lower = .ok e.finish) ∧
    ∀ (code : Bytecode) {σ : Type} (m : Machine σ) (sink : Sink σ) (ceiling : Option Nat),
      (∀ l, (code.checkLabels = .error (.duplicate l) ↔ FirstRepeat code.labels l) ∧
        (code.checkLabels = .error (.duplicate l) ↔
          ∃ m', m.run sink ceiling code = some (.error (.labels (.duplicate l)) m'))) ∧
      (code.checkLabels = .ok () →
        ∀ fault m', m.run sink ceiling code ≠ some (.error (.labels fault) m')) := by
  refine ⟨fun p e hrun hsmall => ?_, fun code σ m sink ceiling => ⟨fun l => ⟨?_, ?_⟩, ?_⟩⟩
  · obtain ⟨c, -, hlower⟩ := lowerBody_eq_ok hrun
    obtain ⟨hperm, htargets⟩ := Command.perm_labels_finish hlower
    have hcheck := Command.checkLabels_finish hlower hsmall
    refine ⟨hperm, htargets, hcheck, ?_⟩
    simp only [lower, hrun, hcheck]
  · exact Bytecode.checkLabels_eq_duplicate
  · rw [Bytecode.checkLabels_eq_duplicate]
    exact Machine.run_eq_duplicate.symm
  · intro hcheck fault m'
    exact Machine.run_ne_labels hcheck

/-- A loop around a branch: `x = 1; while x > x do (if x == x then x = 1 else print "no")`. -/
def branchInLoop : Program :=
  ⟨.ofNodes [.constant (.scalar 1), .var (.scalar "x"), .assign ⟨1⟩ ⟨0⟩,
    .comparison .equals ⟨1⟩ ⟨1⟩, .debug "no", .ifElse ⟨3⟩ [⟨2⟩] [⟨4⟩],
    .comparison .greater ⟨1⟩ ⟨1⟩, .whileLoop ⟨6⟩ [⟨5⟩]],
  [⟨2⟩, ⟨7⟩]⟩

/-- The five labels of the loop and its branch are placed once each, and the machine finds no fault
with them. -/
theorem labels_consistent_branchInLoop :
    branchInLoop.lowerBody.run .empty = .ok () branchInLoop.emitted ∧
    branchInLoop.emitted.labels = 5 ∧
    branchInLoop.emitted.finish.labels.Perm ((List.range 5).map .ofIndex) ∧
    (∀ l ∈ branchInLoop.emitted.finish.jumpTargets, l ∈ branchInLoop.emitted.finish.labels) ∧
    branchInLoop.emitted.finish.checkLabels = .ok () ∧
    ∀ ceiling fault m', (Machine.new (Buffer.empty none false)).run Buffer.sink ceiling
      branchInLoop.emitted.finish ≠ some (.error (.labels fault) m') := by
  have hok : branchInLoop.lower = .ok branchInLoop.emitted.finish := by decide +kernel
  have hcount : branchInLoop.emitted.labels = 5 := by decide +kernel
  have hrun : branchInLoop.lowerBody.run .empty = .ok () branchInLoop.emitted := by
    obtain ⟨c, hc, hlower, -⟩ := lower_eq_ok hok
    rw [lowerBody_eq hc]
    exact hlower
  generalize branchInLoop.emitted = e at hrun hcount ⊢
  obtain ⟨hperm, htargets, hcheck, -⟩ := labels_consistent.1 branchInLoop e hrun
    (by rw [hcount]; decide)
  rw [hcount] at hperm
  refine ⟨hrun, hcount, hperm, htargets, hcheck, fun ceiling => ?_⟩
  exact (labels_consistent.2 e.finish (.new (.empty none false)) Buffer.sink ceiling).2 hcheck

end Program

end RegisterBackend
