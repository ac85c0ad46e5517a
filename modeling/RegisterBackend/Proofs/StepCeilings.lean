import RegisterBackend.Proofs.MachineSteps

/-!
# Runs with a ceiling

A ceiling cuts a run off and has no other effect. `RunM.Ends` says in terms of the steps of the run
without a ceiling how one with a ceiling ends: it leaves the program, it comes to a step that fails,
or it is cut off after as many steps as are allowed. A run with a higher ceiling makes the same
steps and perhaps more, so it ends in the same way, or goes on from where the other one was cut off
(`Machine.ceiling_truncates`). Without a ceiling it may go on from there forever, and has no result
then.

What a run has printed when it goes on stays printed, since an instruction changes the output only
by writing lines to the sink (`RunM.step_meets`).
-/

namespace RegisterBackend

variable {σ : Type} {code : Bytecode} {sink : Sink σ}

/-! ## Output -/

namespace Sink

variable {s : σ} {text : σ → String}

/-- The sink takes every sequence of texts, when it is in the given state, and can be flushed after
it. -/
def AcceptsAll (sink : Sink σ) (s : σ) : Prop :=
  ∀ texts : List String, ∃ s₁ s₂, (texts.forM sink.write).run s = .ok ⟨⟩ s₁ ∧
    sink.flush.run s₁ = .ok () s₂

/-- The function tells what has been written to the sink. -/
structure Transcribes (sink : Sink σ) (text : σ → String) : Prop where
  write : ∀ {s s' t}, (sink.write t).run s = .ok () s' → text s' = text s ++ t
  flush : ∀ {s s'}, sink.flush.run s = .ok () s' → text s' = text s

namespace AcceptsAll

/-- A sink that accepts everything accepts every sequence of texts. -/
theorem accepts (h : sink.AcceptsAll s) : sink.Accepts s := by
  intro texts
  obtain ⟨s₁, -, hwrites, -⟩ := h texts
  exact ⟨s₁, hwrites⟩

/-- A sink that accepts everything can be flushed at once. -/
theorem run_flush (h : sink.AcceptsAll s) : ∃ s', sink.flush.run s = .ok () s' := by
  obtain ⟨s₁, s₂, hwrites, hflush⟩ := h []
  cases hwrites
  exact ⟨s₂, hflush⟩

/-- A sink that accepts everything still does after it has taken a text. -/
theorem of_write {t : String} {s' : σ} (h : sink.AcceptsAll s)
    (hwrite : (sink.write t).run s = .ok () s') : sink.AcceptsAll s' := by
  intro texts
  obtain ⟨s₁, s₂, hwrites, hflush⟩ := h (t :: texts)
  obtain ⟨s₃, hwrite', hrest⟩ := run_forM_cons_eq_ok.1 hwrites
  cases hwrite.symm.trans hwrite'
  exact ⟨s₁, s₂, hrest, hflush⟩

/-- A line is written as its text and the line end. -/
theorem line (h : sink.AcceptsAll s) (t : String) :
    sink.AcceptsAll (sink.line s t) ∧
      ∀ {text}, sink.Transcribes text → text (sink.line s t) = text s ++ (t ++ "\n") := by
  have hline := (h.accepts.run_writeLine t).1
  generalize sink.line s t = s' at hline ⊢
  unfold writeLine at hline
  split at hline
  next hempty =>
    exact ⟨h.of_write hline, fun htext => by simp [htext.write hline, hempty]⟩
  next =>
    obtain ⟨_, s₁, hfirst, hsecond⟩ := run_bind_eq_ok.1 hline
    refine ⟨(h.of_write hfirst).of_write hsecond, fun htext => ?_⟩
    rw [htext.write hsecond, htext.write hfirst, String.append_assoc]

/-- What has been written stays when lines are written behind it. -/
theorem lines (h : sink.AcceptsAll s) (texts : List String) :
    sink.AcceptsAll (sink.lines s texts) ∧
      ∀ {text}, sink.Transcribes text → ∃ more, text (sink.lines s texts) = text s ++ more := by
  induction texts generalizing s with
  | nil => exact ⟨h, fun _ => ⟨"", by simp [Sink.lines]⟩⟩
  | cons t texts ih =>
    obtain ⟨hline, happended⟩ := h.line t
    obtain ⟨hlines, hmore⟩ := ih hline
    refine ⟨hlines, fun htext => ?_⟩
    obtain ⟨more, heq⟩ := hmore htext
    exact ⟨t ++ "\n" ++ more, heq.trans (by rw [happended htext, String.append_assoc])⟩

end AcceptsAll

end Sink

/-- A buffer without a limit that does not refuse to be flushed takes everything. -/
theorem Buffer.acceptsAll {b : Buffer} (hlimit : b.limit = none) (hflush : b.refusesFlush = false) :
    Buffer.sink.AcceptsAll b := by
  intro texts
  induction texts generalizing b with
  | nil =>
    refine ⟨b, b, rfl, ?_⟩
    show flush.run b = _
    simp only [flush, EStateM.run_bind, EStateM.run_get, hflush]
    rfl
  | cons t texts ih =>
    have hroom : b.hasRoom t = true := by simp [hasRoom, hlimit]
    have hwrite : (Buffer.sink.write t).run b = .ok () { b with text := b.text ++ t } := by
      show (write t).run b = _
      simp only [write, EStateM.run_bind, EStateM.run_get, hroom]
      rfl
    obtain ⟨b₁, b₂, hrest, hlast⟩ := ih (b := { b with text := b.text ++ t }) hlimit hflush
    exact ⟨b₁, b₂, run_forM_cons_eq_ok.2 ⟨_, hwrite, hrest⟩, hlast⟩

/-- A buffer has the text that was written to it. -/
theorem Buffer.transcribes : Buffer.sink.Transcribes Buffer.text where
  write {b b' t} h := by
    change (Buffer.write t).run b = _ at h
    unfold Buffer.write at h
    obtain ⟨_, _, hget, h⟩ := run_bind_eq_ok.1 h
    cases hget
    split at h
    next =>
      cases h
      rfl
    next => cases h
  flush {b b'} h := by
    change Buffer.flush.run b = _ at h
    unfold Buffer.flush at h
    obtain ⟨_, _, hget, h⟩ := run_bind_eq_ok.1 h
    cases hget
    split at h
    next => cases h
    next =>
      cases h
      rfl

/-! ## What an instruction does to the output -/

/-- The second run has begun so many instructions more and printed some lines more. -/
structure Run.Advances (sink : Sink σ) (n : Nat) (r r' : Run σ) : Prop where
  steps : r'.steps = r.steps + n
  output : ∃ texts, r'.output = sink.lines r.output texts

namespace Run.Advances

variable {n m : Nat} {r r₁ r₂ : Run σ}

theorem of_eq (hsteps : r₁.steps = r.steps + n) (houtput : r₁.output = r.output) :
    r.Advances sink n r₁ :=
  ⟨hsteps, [], houtput⟩

/-- Instructions and lines of two stretches add up. -/
theorem trans (h : r.Advances sink n r₁) (h' : r₁.Advances sink m r₂) :
    r.Advances sink (n + m) r₂ := by
  obtain ⟨texts, htexts⟩ := h.output
  obtain ⟨texts', htexts'⟩ := h'.output
  refine ⟨by rw [h'.steps, h.steps, Nat.add_assoc], texts ++ texts', ?_⟩
  rw [htexts', htexts, Sink.lines, Sink.lines, Sink.lines, List.foldl_append]

/-- The sink of a run that has advanced takes everything still, and has what was written before. -/
theorem acceptsAll (h : r.Advances sink n r₁) (haccepts : sink.AcceptsAll r.output) :
    sink.AcceptsAll r₁.output ∧
      ∀ {text}, sink.Transcribes text → ∃ more, text r₁.output = text r.output ++ more := by
  obtain ⟨texts, htexts⟩ := h.output
  rw [htexts]
  exact haccepts.lines texts

end Run.Advances

namespace RunM

variable {r r' : Run σ} {i : Instruction}

/-- The steps, whether they fail or not, begin no instruction and only print. -/
abbrev Prints {α : Type} (sink : Sink σ) (m : RunM σ α) (r : Run σ) : Prop :=
  Meets (fun _ r' => r.Advances sink 0 r') m r fun _ r' => r.Advances sink 0 r'

/-- To read a value changes nothing. -/
theorem resolve_bind_prints {α : Type} (src : Source) {f : Int64 → RunM σ α}
    (h : ∀ v, (f v).Prints sink r) : (resolve src >>= f).Prints sink r := by
  refine Meets.bind (Q := fun _ r' => r' = r) (.get_bind ?_) fun v _ hr => hr ▸ h v
  cases r.registers.resolve src with
  | ok v => exact .of_run_eq_ok rfl rfl
  | error e => exact .throw (.of_eq rfl rfl)

theorem write_prints (d : Register) (v : Int64) : (write d v).Prints sink r :=
  .modify (.of_eq rfl rfl)

/-- A jump prints nothing, whether its label is found or not. -/
theorem goTo_prints (l : Label) : (goTo code l).Prints sink r := by
  unfold goTo
  split
  next => exact .modify (.of_eq rfl rfl)
  next => exact .throw (.of_eq rfl rfl)

/-- A line of output prints one line, or the part of it that the sink took. -/
theorem printLine_prints (text : String) : (printLine sink text).Prints sink r := by
  have hline : ∀ s', s' = sink.line r.output text → ∀ r' : Run σ, r'.steps = r.steps →
      r'.output = s' → r.Advances sink 0 r' := fun s' hs' r' hsteps houtput =>
    ⟨hsteps, [text], by rw [houtput, hs']; rfl⟩
  refine .get_bind ?_
  cases hwrite : (sink.writeLine text).run r.output with
  | ok u s' => exact .modify (hline s' (by simp [Sink.line, hwrite]) _ rfl rfl)
  | error reason s' =>
    refine Meets.bind (Q := fun _ r' => r' = { r with output := s' }) (.modify rfl) ?_
    rintro _ _ rfl
    exact .throw (hline s' (by simp [Sink.line, hwrite]) _ rfl rfl)

/-- An instruction prints at most a line, whether it fails or not. -/
theorem execute_prints (code : Bytecode) (i : Instruction) (r : Run σ) :
    (execute code sink i).Prints sink r := by
  cases i with
  | set d src => exact resolve_bind_prints src fun v => write_prints d v
  | arith op d a b | compare op d a b =>
    exact resolve_bind_prints _ fun v => resolve_bind_prints _ fun w => write_prints d _
  | jump l => exact goTo_prints l
  | branch onNonzero q l =>
    refine resolve_bind_prints _ fun v => ?_
    split
    next => exact goTo_prints l
    next => exact .of_run_eq_ok rfl (.of_eq rfl rfl)
  | label l => exact .of_run_eq_ok rfl (.of_eq rfl rfl)
  | print text => exact printLine_prints text

/-- An instruction counts as one, also if it fails, and changes the output by printing only. -/
theorem step_meets (code : Bytecode) (sink : Sink σ) (i : Instruction) (r : Run σ) :
    Meets (fun _ r' => r.Advances sink 1 r') (step code sink i) r
      fun _ r' => r.Advances sink 1 r' := by
  have hcount : r.Advances sink 1 r.count := .of_eq rfl rfl
  refine Meets.bind (Q := fun _ r' => r' = r.count) (.modify rfl) ?_
  rintro _ _ rfl
  refine ((execute_prints code i r.count).mono_error fun _ _ h => hcount.trans h).bind
    fun _ r₁ hr₁ => ?_
  exact .modify ((hcount.trans hr₁).trans (m := 0) (.of_eq rfl rfl))

end RunM

/-- Steps count as instructions and change the output by printing only. -/
theorem Steps.advances {n : Nat} {r r' : Run σ} (h : Steps code sink n r r') :
    r.Advances sink n r' := by
  induction h with
  | refl r => exact .of_eq rfl rfl
  | @cons n i r r₁ r₂ hat hstep _ ih =>
    rw [Nat.add_comm]
    exact ((RunM.step_meets code sink i r).ok hstep).trans ih

/-! ## How a run with a ceiling ends -/

namespace RunM

variable {limit : Nat} {r : Run σ}

/-- How a run with a ceiling ends, in terms of its steps. -/
inductive Ends (code : Bytecode) (sink : Sink σ) (limit : Nat) (r : Run σ) :
    EStateM.Result MachineError (Run σ) Termination → Prop
  /-- It leaves the program. -/
  | completed {n r'} (hle : n ≤ limit) (hsteps : Steps code sink n r r')
    (hend : code.at? r'.position = none) : Ends code sink limit r (.ok .completed r')
  /-- It may make no more steps and is still in the program. -/
  | cutOff {r' i} (hsteps : Steps code sink limit r r') (hat : code.at? r'.position = some i) :
    Ends code sink limit r (.ok .stepLimitReached r')
  /-- A step fails. -/
  | failed {n r₁ r' i e} (hlt : n < limit) (hsteps : Steps code sink n r r₁)
    (hat : code.at? r₁.position = some i) (hstep : (step code sink i).run r₁ = .error e r') :
    Ends code sink limit r (.error e r')

/-- A run with a ceiling ends in one of the ways that `Ends` lists, by induction on the ceiling. -/
theorem runFor_ends (code : Bytecode) (sink : Sink σ) (limit : Nat) (r : Run σ) :
    Ends code sink limit r ((runFor code sink limit).run r) := by
  induction limit generalizing r with
  | zero =>
    cases hat : code.at? r.position with
    | none =>
      rw [run_runFor_of_none hat]
      exact .completed (Nat.le_refl 0) (.refl r) hat
    | some i =>
      rw [run_runFor_zero hat]
      exact .cutOff (.refl r) hat
  | succ limit ih =>
    cases hat : code.at? r.position with
    | none =>
      rw [run_runFor_of_none hat]
      exact .completed (Nat.zero_le _) (.refl r) hat
    | some i =>
      rw [run_runFor_succ hat]
      cases hstep : (step code sink i).run r with
      | error e r' =>
        rw [run_bind_error hstep]
        exact .failed (Nat.zero_lt_succ limit) (.refl r) hat hstep
      | ok u r₁ =>
        rw [run_bind_ok hstep]
        have hrest := ih r₁
        generalize (runFor code sink limit).run r₁ = result at hrest ⊢
        cases hrest with
        | completed hle hsteps hend =>
          exact .completed (Nat.succ_le_succ hle) (.cons hat hstep hsteps) hend
        | cutOff hsteps hat' => exact .cutOff (.cons hat hstep hsteps) hat'
        | failed hlt hsteps hat' hstep' =>
          exact .failed (Nat.succ_lt_succ hlt) (.cons hat hstep hsteps) hat' hstep'

/-- A run that is not cut off ends in the same way under a higher ceiling. -/
theorem Ends.runFor_eq {result : EStateM.Result MachineError (Run σ) Termination} {limit' : Nat}
    (h : Ends code sink limit r result) (hle : limit ≤ limit')
    (hcut : ∀ r', result ≠ .ok .stepLimitReached r') : (runFor code sink limit').run r = result := by
  cases h with
  | @completed n r' hn hsteps hend =>
    obtain ⟨k, rfl⟩ := Nat.exists_eq_add_of_le (Nat.le_trans hn hle)
    rw [run_runFor_add hsteps, run_runFor_of_none hend]
  | cutOff => exact absurd rfl (hcut _)
  | @failed n r₁ r' i e hn hsteps hat hstep =>
    obtain ⟨k, rfl⟩ := Nat.exists_eq_add_of_lt (Nat.lt_of_lt_of_le hn hle)
    rw [Nat.add_assoc, run_runFor_add hsteps, run_runFor_succ hat, run_bind_error hstep]

end RunM

namespace Machine

variable {machine final : Machine σ} {limit limit' : Nat} {report : Report} {r : Run σ}

/-- A run in which no instruction fails reports what it did, if the sink can be flushed. -/
theorem runWithin_of_run_ok (hdup : code.duplicateLabel? = none) {termination : Termination} {s : σ}
    (hrun : (RunM.runFor code sink limit).run (.start machine.output) = .ok termination r)
    (hflush : sink.flush.run r.output = .ok () s) :
    machine.runWithin sink limit code = .ok ⟨termination, r.steps, r.lines⟩ ⟨r.registers, s⟩ := by
  simp only [runWithin, hdup, hrun, conclude, hflush]

/-- A run in which an instruction fails leaves the machine as it was at that instruction. -/
theorem runWithin_of_run_error (hdup : code.duplicateLabel? = none) {e : MachineError}
    (hrun : (RunM.runFor code sink limit).run (.start machine.output) = .error e r) :
    machine.runWithin sink limit code = .error e r.machine := by
  simp only [runWithin, hdup, hrun, conclude]

/-- The ceiling does not cut off the run. -/
def NotCutOff (machine : Machine σ) (sink : Sink σ) (limit : Nat) (code : Bytecode) : Prop :=
  ∀ report final, machine.runWithin sink limit code = .ok report final →
    report.termination ≠ .stepLimitReached

/-- The instructions of a run that is not cut off come to an end. -/
theorem NotCutOff.runFor_ne (h : machine.NotCutOff sink limit code)
    (haccepts : sink.AcceptsAll machine.output) (hdup : code.duplicateLabel? = none) (r' : Run σ) :
    (RunM.runFor code sink limit).run (.start machine.output) ≠ .ok .stepLimitReached r' := by
  intro hrun
  have hends := RunM.runFor_ends code sink limit (.start machine.output)
  rw [hrun] at hends
  cases hends with
  | cutOff hsteps =>
    obtain ⟨s, hflush⟩ := (hsteps.advances.acceptsAll haccepts).1.run_flush
    exact h _ _ (runWithin_of_run_ok hdup hrun hflush) rfl

/-- A run that is not cut off is the same under a higher ceiling, and without a ceiling. -/
theorem NotCutOff.run_eq (h : machine.NotCutOff sink limit code)
    (haccepts : sink.AcceptsAll machine.output) {ceiling : Option Nat}
    (hle : ∀ limit' ∈ ceiling, limit ≤ limit') :
    machine.run sink ceiling code = some (machine.runWithin sink limit code) := by
  cases hdup : code.duplicateLabel? with
  | some l => cases ceiling <;> simp only [run, runFreely, runWithin, hdup]
  | none =>
    have hcut := h.runFor_ne haccepts hdup
    cases ceiling with
    | none => exact runFreely_of_runFor hcut
    | some limit' =>
      have hsame := (RunM.runFor_ends code sink limit (.start machine.output)).runFor_eq
        (hle limit' rfl) hcut
      simp only [run, runWithin, hdup, hsame]

/-- A run is cut off exactly if the steps that it may make leave it in the program. -/
theorem runWithin_cutOff_iff (haccepts : sink.AcceptsAll machine.output) :
    (machine.runWithin sink limit code = .ok report final ∧
        report.termination = .stepLimitReached) ↔
      code.duplicateLabel? = none ∧ ∃ r i s, Steps code sink limit (.start machine.output) r ∧
        code.at? r.position = some i ∧ sink.flush.run r.output = .ok () s ∧
        report = ⟨.stepLimitReached, limit, r.lines⟩ ∧ final = ⟨r.registers, s⟩ := by
  constructor
  · rintro ⟨h, hterm⟩
    cases hdup : code.duplicateLabel? with
    | some l => simp [runWithin, hdup] at h
    | none =>
      have hends := RunM.runFor_ends code sink limit (.start machine.output)
      cases hrun : (RunM.runFor code sink limit).run (.start machine.output) with
      | error e r' => cases h.symm.trans (runWithin_of_run_error hdup hrun)
      | ok termination r' =>
        rw [hrun] at hends
        cases hends with
        | completed _ hsteps =>
          obtain ⟨s, hflush⟩ := (hsteps.advances.acceptsAll haccepts).1.run_flush
          cases h.symm.trans (runWithin_of_run_ok hdup hrun hflush)
          cases hterm
        | @cutOff _ i hsteps hat =>
          obtain ⟨s, hflush⟩ := (hsteps.advances.acceptsAll haccepts).1.run_flush
          cases h.symm.trans (runWithin_of_run_ok hdup hrun hflush)
          have hcount : r'.steps = limit := by simpa [Run.start] using hsteps.advances.steps
          exact ⟨rfl, r', i, s, hsteps, hat, hflush, by rw [hcount], rfl⟩
  · rintro ⟨hdup, r, i, s, hsteps, hat, hflush, rfl, rfl⟩
    have hrun : (RunM.runFor code sink limit).run (.start machine.output) = .ok .stepLimitReached r := by
      rw [← Nat.add_zero limit, RunM.run_runFor_add hsteps, RunM.run_runFor_zero hat]
    have hcount : r.steps = limit := by simpa [Run.start] using hsteps.advances.steps
    have hok := runWithin_of_run_ok hdup hrun hflush
    rw [hcount] at hok
    exact ⟨hok, rfl⟩

/-- Of a run that is over: it has executed more instructions than given or failed, and a text that
begins with the given one has been written. -/
def EndsBeyond (text : σ → String) (steps : Nat) (printed : String) :
    EStateM.Result MachineError (Machine σ) Report → Prop
  | .ok report final => steps < report.steps ∧ ∃ more, text final.output = printed ++ more
  | .error _ final => ∃ more, text final.output = printed ++ more

/-- The run of a program goes on behind the given number of instructions, when the given text has
been written: it is over later, or it executes any number of instructions and is never over. -/
def GoesBeyond (machine : Machine σ) (sink : Sink σ) (ceiling : Option Nat) (code : Bytecode)
    (text : σ → String) (steps : Nat) (printed : String) : Prop :=
  match machine.run sink ceiling code with
  | some result => EndsBeyond text steps printed result
  | none => ∀ n, ∃ r, Steps code sink (steps + n) (.start machine.output) r ∧
      ∃ more, text r.output = printed ++ more

/-- A run that does not fail and makes more steps ends beyond the steps made before. -/
theorem endsBeyond_of_run_ok {text : σ → String} (htext : sink.Transcribes text)
    (hdup : code.duplicateLabel? = none) (haccepts : sink.AcceptsAll r.output) {n : Nat} {r' : Run σ}
    {termination : Termination} (hpos : 0 < n) (hadvances : r.Advances sink n r')
    (hrun : (RunM.runFor code sink limit).run (.start machine.output) = .ok termination r') :
    EndsBeyond text r.steps (text r.output) (machine.runWithin sink limit code) := by
  obtain ⟨haccepts', hmore⟩ := hadvances.acceptsAll haccepts
  obtain ⟨more, hmore⟩ := hmore htext
  obtain ⟨s, hflush⟩ := haccepts'.run_flush
  rw [runWithin_of_run_ok hdup hrun hflush]
  have hlt : r.steps < r'.steps := by
    rw [hadvances.steps]
    omega
  exact ⟨hlt, more, (htext.flush hflush).trans hmore⟩

/-- From where a run is cut off, one with a higher ceiling goes on. -/
theorem runWithin_endsBeyond {text : σ → String} (haccepts : sink.AcceptsAll machine.output)
    (htext : sink.Transcribes text) (hdup : code.duplicateLabel? = none) {i : Instruction}
    (hsteps : Steps code sink limit (.start machine.output) r) (hat : code.at? r.position = some i)
    (hlt : limit < limit') :
    EndsBeyond text r.steps (text r.output) (machine.runWithin sink limit' code) := by
  obtain ⟨k, rfl⟩ := Nat.exists_eq_add_of_lt hlt
  have haccepts' := (hsteps.advances.acceptsAll haccepts).1
  have hends := RunM.runFor_ends code sink (k + 1) r
  rw [← RunM.run_runFor_add hsteps (k + 1)] at hends
  cases hrun : (RunM.runFor code sink (limit + (k + 1))).run (.start machine.output) with
  | error e r' =>
    rw [hrun] at hends
    cases hends with
    | failed _ hrest _ hstep =>
      have hadvances := hrest.advances.trans ((RunM.step_meets code sink _ _).error hstep)
      rw [Nat.add_assoc, runWithin_of_run_error hdup hrun]
      exact (hadvances.acceptsAll haccepts').2 htext
  | ok termination r' =>
    rw [hrun] at hends
    cases hends with
    | @completed n _ _ hrest hend =>
      -- the run was still in the program, so it has made a step to leave it
      have hpos : 0 < n := by
        rcases Nat.eq_zero_or_pos n with rfl | hpos
        · cases hrest
          cases hat.symm.trans hend
        · exact hpos
      exact endsBeyond_of_run_ok htext hdup haccepts' hpos hrest.advances hrun
    | cutOff hrest =>
      exact endsBeyond_of_run_ok htext hdup haccepts' (Nat.zero_lt_succ k) hrest.advances hrun

/-- A run without a ceiling that ends does so under every ceiling that is high enough. -/
theorem exists_forall_runWithin {result : EStateM.Result MachineError (Machine σ) Report}
    (h : machine.runFreely sink code = some result) :
    ∃ limit, ∀ limit', limit ≤ limit' → machine.runWithin sink limit' code = result := by
  unfold runFreely at h
  split at h
  next l hdup =>
    cases h
    exact ⟨0, fun limit' _ => by simp only [runWithin, hdup]⟩
  next hdup =>
    obtain ⟨ended, hended, rfl⟩ := Option.map_eq_some_iff.1 h
    obtain ⟨limit, hlimit, hcut⟩ := Run.exists_runFor_of_toEnd hended
    have hends := RunM.runFor_ends code sink limit (.start machine.output)
    rw [hlimit] at hends
    exact ⟨limit, fun limit' hle => by simp only [runWithin, hdup, hends.runFor_eq hle hcut]⟩

/-- From where a run is cut off, one without a ceiling goes on. -/
theorem runFreely_goesBeyond {text : σ → String} (haccepts : sink.AcceptsAll machine.output)
    (htext : sink.Transcribes text) (hdup : code.duplicateLabel? = none) {i : Instruction}
    (hsteps : Steps code sink limit (.start machine.output) r)
    (hat : code.at? r.position = some i) :
    machine.GoesBeyond sink none code text r.steps (text r.output) := by
  have hcount : r.steps = limit := by simpa [Run.start] using hsteps.advances.steps
  unfold GoesBeyond
  split
  next result hresult =>
    -- the run ends under a ceiling that is higher than the one that cuts it off
    obtain ⟨limit', hlimit'⟩ := exists_forall_runWithin hresult
    rw [← hlimit' (limit' + (limit + 1)) (Nat.le_add_right _ _)]
    exact runWithin_endsBeyond haccepts htext hdup hsteps hat (by omega)
  next hnone =>
    intro n
    have hforever : (Run.start machine.output).toEnd code sink = none := by
      simpa only [run, runFreely, hdup, Option.map_eq_none_iff] using hnone
    obtain ⟨r', hr'⟩ := Run.toEnd_eq_none.1 hforever (limit + n)
    rw [RunM.run_runFor_add hsteps] at hr'
    have hends := RunM.runFor_ends code sink n r
    rw [hr'] at hends
    cases hends with
    | cutOff hrest =>
      refine ⟨r', hcount ▸ hsteps.trans hrest, ?_⟩
      exact (hrest.advances.acceptsAll (hsteps.advances.acceptsAll haccepts).1).2 htext

/-- A ceiling truncates a run and has no other effect. Let the sink take all that is written and be
flushed without failing, and let one ceiling be as high as another one or absent. A run that fails
or completes under the lower ceiling is the same under the higher one. A run that is cut off has
executed exactly as many instructions as it may; if the ceilings are not the same, the run under the
higher ceiling executes more, or fails, and what it prints begins with what the other one printed.
Without a ceiling this may be a run that does not end. A run is cut off exactly if as many steps of
the run without a ceiling do not fail and leave it in the program. -/
theorem ceiling_truncates {text : σ → String} (machine : Machine σ)
    (haccepts : sink.AcceptsAll machine.output) (htext : sink.Transcribes text) (code : Bytecode)
    (low : UInt64) (high : Option UInt64) (hle : ∀ n ∈ high, low ≤ n) :
    (∀ e final, machine.run sink (some low.toNat) code = some (.error e final) →
      machine.run sink (high.map UInt64.toNat) code = some (.error e final)) ∧
    (∀ report final, machine.run sink (some low.toNat) code = some (.ok report final) →
      (report.termination = .completed →
        machine.run sink (high.map UInt64.toNat) code = some (.ok report final)) ∧
      (report.termination = .stepLimitReached → report.steps = low.toNat ∧
        (high = some low ∨ machine.GoesBeyond sink (high.map UInt64.toNat) code text low.toNat
          (text final.output)))) ∧
    ((∃ report final, machine.run sink (some low.toNat) code = some (.ok report final) ∧
        report.termination = .stepLimitReached) ↔
      code.duplicateLabel? = none ∧ ∃ r, Steps code sink low.toNat (.start machine.output) r ∧
        (code.at? r.position).isSome) := by
  have hlow : machine.run sink (some low.toNat) code = some (machine.runWithin sink low.toNat code) :=
    rfl
  have hle' : ∀ limit ∈ high.map UInt64.toNat, low.toNat ≤ limit := by
    intro limit hlimit
    obtain ⟨n, hn, rfl⟩ := Option.map_eq_some_iff.1 hlimit
    exact UInt64.le_iff_toNat_le.1 (hle n hn)
  simp only [hlow, Option.some.injEq]
  refine ⟨fun e final h => ?_, fun report final h => ⟨fun hterm => ?_, fun hterm => ?_⟩, ?_⟩
  · have hends : machine.NotCutOff sink low.toNat code := fun report' final' h' => by
      cases h.symm.trans h'
    rw [hends.run_eq haccepts hle', h]
  · have hends : machine.NotCutOff sink low.toNat code := fun report' final' h' => by
      cases h.symm.trans h'
      simp [hterm]
    rw [hends.run_eq haccepts hle', h]
  · obtain ⟨hdup, r, i, s, hsteps, hat, hflush, rfl, rfl⟩ :=
      (runWithin_cutOff_iff haccepts).1 ⟨h, hterm⟩
    refine ⟨rfl, or_iff_not_imp_left.2 fun hne => ?_⟩
    have hcount : r.steps = low.toNat := by simpa [Run.start] using hsteps.advances.steps
    rw [htext.flush hflush, ← hcount]
    cases high with
    | none => exact runFreely_goesBeyond haccepts htext hdup hsteps hat
    | some n =>
      have hlt : low.toNat < n.toNat := by
        refine Nat.lt_of_le_of_ne (hle' n.toNat rfl) fun heq => hne ?_
        rw [UInt64.toNat_inj.1 heq]
      exact runWithin_endsBeyond haccepts htext hdup hsteps hat hlt
  · simp only [runWithin_cutOff_iff haccepts, Option.isSome_iff_exists]
    constructor
    · rintro ⟨report, final, hdup, r, i, s, hsteps, hat, -⟩
      exact ⟨hdup, r, hsteps, i, hat⟩
    · rintro ⟨hdup, r, hsteps, i, hat⟩
      obtain ⟨s, hflush⟩ := (hsteps.advances.acceptsAll haccepts).1.run_flush
      exact ⟨_, _, hdup, r, i, s, hsteps, hat, hflush, rfl, rfl⟩

/-- Code that prints a line in every round of a loop that does not end. -/
def ticking : Bytecode :=
  ⟨#[.label ⟨0⟩, .print "tick", .jump ⟨0⟩]⟩

/-- Every instruction of the code leads to another one. -/
theorem ticking_step (haccepts : sink.Accepts r.output) (hr : r.position < 3) :
    ∃ i r', ticking.at? r.position = some i ∧ (RunM.step ticking sink i).run r = .ok () r' ∧
      r'.position < 3 ∧ sink.Accepts r'.output := by
  obtain hposition | hposition | hposition : r.position = 0 ∨ r.position = 1 ∨ r.position = 2 := by
    omega
  · refine ⟨.label ⟨0⟩, _, by rw [hposition]; rfl, RunM.run_step_label, ?_, haccepts⟩
    show r.position + 1 < 3
    omega
  · refine ⟨.print "tick", _, by rw [hposition]; rfl, RunM.run_step_print haccepts _, ?_,
      (haccepts.run_writeLine _).2⟩
    show r.position + 1 < 3
    omega
  · have htarget : ticking.position? ⟨0⟩ = some 0 := by decide +kernel
    refine ⟨.jump ⟨0⟩, _, by rw [hposition]; rfl, RunM.run_step_jump htarget, ?_, haccepts⟩
    show 0 + 1 < 3
    omega

/-- The loop can make any number of steps, from anywhere in it. -/
theorem ticking_steps (haccepts : sink.Accepts r.output) (hr : r.position < 3) (n : Nat) :
    ∃ r', Steps ticking sink n r r' := by
  induction n generalizing r with
  | zero => exact ⟨r, .refl r⟩
  | succ n ih =>
    obtain ⟨i, r₁, hat, hstep, hr₁, haccepts₁⟩ := ticking_step haccepts hr
    obtain ⟨r', hrest⟩ := ih haccepts₁ hr₁
    exact ⟨r', .cons hat hstep hrest⟩

/-- Without a ceiling, the code runs forever. -/
theorem run_ticking (haccepts : sink.Accepts machine.output) :
    machine.run sink none ticking = none := by
  have hdup : ticking.duplicateLabel? = none := by decide
  have hforever : (Run.start machine.output).toEnd ticking sink = none := by
    refine Run.toEnd_eq_none.2 fun limit => ?_
    obtain ⟨r', hsteps⟩ :=
      ticking_steps (r := .start machine.output) haccepts (Nat.succ_pos 2) (limit + 1)
    exact RunM.run_runFor_of_lt hsteps (Nat.lt_succ_self limit)
  simp only [run, runFreely, hdup, hforever, Option.map_none]

/-- The run of the code is cut off after five steps, has no result without a ceiling, and then makes
any number of steps behind these five. -/
theorem ceiling_truncates_ticking : Buffer.sink.AcceptsAll (.empty none false) ∧
    Buffer.sink.Transcribes Buffer.text ∧
    (∃ report final, (Machine.new (.empty none false)).run Buffer.sink (some 5) ticking =
      some (.ok report final) ∧ report = ⟨.stepLimitReached, 5, 2⟩ ∧
      final.output.text = "tick\ntick\n") ∧
    (∃ r, Steps ticking Buffer.sink 5 (.start (.empty none false)) r ∧
      (ticking.at? r.position).isSome) ∧
    (Machine.new (.empty none false)).run Buffer.sink none ticking = none ∧
    ∀ n, ∃ r, Steps ticking Buffer.sink (5 + n) (.start (.empty none false)) r ∧
      ∃ more, r.output.text = "tick\ntick\n" ++ more := by
  have haccepts : Buffer.sink.AcceptsAll (.empty none false) := Buffer.acceptsAll rfl rfl
  have hcut : ∃ report final, (Machine.new (.empty none false)).runWithin Buffer.sink 5 ticking =
      .ok report final ∧ report = ⟨.stepLimitReached, 5, 2⟩ ∧
      final.output.text = "tick\ntick\n" := by decide +kernel
  have hnone : (Machine.new (.empty none false)).run Buffer.sink none ticking = none :=
    run_ticking haccepts.accepts
  obtain ⟨report, final, hrun, rfl, htext⟩ := hcut
  have hsome : (Machine.new (.empty none false)).run Buffer.sink (some 5) ticking =
      some (.ok ⟨.stepLimitReached, 5, 2⟩ final) := congrArg some hrun
  obtain ⟨-, hends, hiff⟩ := ceiling_truncates (.new (.empty none false)) haccepts
    Buffer.transcribes ticking 5 none (by simp)
  refine ⟨haccepts, Buffer.transcribes, ⟨_, final, hsome, rfl, htext⟩, ?_, hnone, ?_⟩
  · exact (hiff.1 ⟨_, final, hsome, rfl⟩).2
  · obtain ⟨-, hsame | hgoes⟩ := (hends _ final hsome).2 rfl
    · cases hsame
    · simp only [GoesBeyond, Option.map_none, hnone] at hgoes
      rwa [htext] at hgoes

end Machine

end RegisterBackend
