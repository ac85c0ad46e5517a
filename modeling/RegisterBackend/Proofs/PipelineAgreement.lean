import RegisterBackend.Compile
import RegisterBackend.Proofs.PropagatedTrees
import RegisterBackend.Proofs.Simulation

/-!
# Compiling with and without constant propagation

A program without sharing (`Program.Unshared`) may be compiled with or without constant propagation:
the two codes complete with the same output, fail with the same output or run forever, as
`Program.pipelines_agree` says. Registers are numbered differently, and nothing is asked about names
being assigned before they are read; if one code reads an empty register, so does the other, after
the same output.

The argument goes through the cells. Propagation folds the tree of the program
(`Program.exists_folds`), and a folded tree runs on the cells exactly as the tree does. Each code
does on the registers what its tree does on the cells.

With sharing this fails: propagation exchanges a node for all of its uses, also those where less is
known.
-/

namespace RegisterBackend

namespace Program

variable {p p' : Program} {c : Command}

/-- What is compiled is the lowered program, and the program itself stays. -/
theorem compileAfter_eq_ok {stats : Option PropagationStats} {compiled : Compiled}
    (h : p.compileAfter stats = .ok compiled p') : p = p' ∧ p.lower = .ok compiled.bytecode := by
  unfold compileAfter at h
  split at h
  next hlower =>
    cases h
    exact ⟨rfl, hlower⟩
  next => cases h

/-- What compiling with constant propagation does if it succeeds. -/
theorem compile_true_eq_ok {compiled : Compiled} (h : p.compile true = .ok compiled p') :
    (∃ s, p.propagate = .ok () s ∧ p' = { p with graph := s.graph }) ∧
      p'.lower = .ok compiled.bytecode := by
  cases hpropagate : p.propagate with
  | error e s =>
    simp only [compile, if_true, optimize, hpropagate] at h
    cases h
  | ok u s =>
    simp only [compile, if_true, optimize, hpropagate] at h
    obtain ⟨rfl, hlower⟩ := compileAfter_eq_ok h
    exact ⟨⟨s, rfl, rfl⟩, hlower⟩

/-- Without sharing, constant propagation folds the tree of a program. -/
theorem exists_folds (hunshared : p.Unshared) (hc : p.command? = some c) {s : Propagation}
    (h : p.propagate = .ok () s) {c' : Command}
    (hc' : ({ p with graph := s.graph } : Program).command? = some c') :
    ∃ K, c.Folds (fun _ => none) c' K := by
  have htree := Graph.BlockAt.of_program hc
  have htree' := Graph.BlockAt.of_program hc'
  have huntouched : p.graph.Untouched p.body p.graph :=
    ⟨hunshared.separated, .refl _ _, fun _ _ _ h => h⟩
  obtain ⟨c'', K, htree'', -, hfolds, -⟩ :=
    PropagateM.block_folds htree _ _ _ _ h huntouched .empty
  rw [htree''.unique htree']
  exact ⟨K, hfolds⟩

end Program

namespace Command.Folds

variable {c c' : Command} {K : Known}

/-- From the beginning of a program, a folded command runs as the command does. -/
theorem exec_empty (h : c.Folds (fun _ => none) c' K) (fuel : Nat) :
    c'.exec fuel .empty .empty = c.exec fuel .empty .empty :=
  (h.exec_eq Scope.wf_empty nofun).1

theorem ends_iff (h : c.Folds (fun _ => none) c' K) (m : Memory) : c'.Ends m ↔ c.Ends m := by
  simp only [Ends, h.exec_empty]

theorem getsStuck_iff (h : c.Folds (fun _ => none) c' K) (m : Memory) :
    c'.GetsStuck m ↔ c.GetsStuck m := by
  simp only [GetsStuck, h.exec_empty]

theorem goesOn_iff (h : c.Folds (fun _ => none) c' K) : c'.GoesOn ↔ c.GoesOn := by
  simp only [GoesOn, h.exec_empty]

end Command.Folds

namespace Program

variable {p plainProgram optimizedProgram : Program} {plain optimized : Compiled} {σ : Type}
  {sink : Sink σ} {start : σ}

/-- The codes of a program without sharing, compiled with and without constant propagation, complete
with the same output, fail with the same output, or both run forever. -/
theorem pipelines_agree (hunshared : p.Unshared) (hplain : p.compile false = .ok plain plainProgram)
    (hoptimized : p.compile true = .ok optimized optimizedProgram) (hsmall : plainProgram.Small)
    (hsmall' : optimizedProgram.Small) (haccepts : sink.Accepts start) :
    (∀ final, plain.bytecode.CompletesWith sink start final ↔
      optimized.bytecode.CompletesWith sink start final) ∧
    (∀ final, plain.bytecode.FailsWith sink start final ↔
      optimized.bytecode.FailsWith sink start final) ∧
    (plain.bytecode.RunsForever sink start ↔ optimized.bytecode.RunsForever sink start) := by
  obtain ⟨rfl, hlower⟩ := compileAfter_eq_ok hplain
  obtain ⟨⟨s, hpropagate, rfl⟩, hlower'⟩ := compile_true_eq_ok hoptimized
  obtain ⟨c, hc, hrun, hcode, hlabels⟩ := lower_eq_ok hlower
  obtain ⟨c', hc', hrun', hcode', hlabels'⟩ := lower_eq_ok hlower'
  obtain ⟨K, hfolds⟩ := exists_folds hunshared hc hpropagate hc'
  rw [hcode] at hlabels ⊢
  rw [hcode'] at hlabels' ⊢
  have hdup := Bytecode.duplicateLabel?_eq_none hlabels
  have hdup' := Bytecode.duplicateLabel?_eq_none hlabels'
  refine ⟨fun final => ?_, fun final => ?_, ?_⟩
  · rw [Bytecode.completesWith_iff_ends hrun hdup hsmall.1 haccepts,
      Bytecode.completesWith_iff_ends hrun' hdup' hsmall'.1 haccepts]
    simp only [hfolds.ends_iff]
  · rw [Bytecode.failsWith_iff_getsStuck hrun hdup hsmall.1 haccepts,
      Bytecode.failsWith_iff_getsStuck hrun' hdup' hsmall'.1 haccepts]
    simp only [hfolds.getsStuck_iff]
  · rw [Bytecode.runsForever_iff_goesOn hrun hdup hsmall.1 haccepts,
      Bytecode.runsForever_iff_goesOn hrun' hdup' hsmall'.1 haccepts, hfolds.goesOn_iff]

/-- A program in which known values are used in a loop and in a branch, and which reads a name that
has not been assigned: `x = 2; y = x + 3; def f() (x = 9);
while y > x do (y = y - x; if x = 3 then z = x * x); print "done"; y = x + z`. -/
def foldedRounds : Program :=
  ⟨.ofNodes [.constant (.scalar 2), .var (.scalar "x"), .assign ⟨1⟩ ⟨0⟩,
    .constant (.scalar 3), .var (.scalar "y"), .arithmetic .add ⟨1⟩ ⟨3⟩, .assign ⟨4⟩ ⟨5⟩,
    .constant (.scalar 9), .assign ⟨1⟩ ⟨7⟩, .functionDef "f" [] [⟨8⟩] .scalar,
    .comparison .greater ⟨4⟩ ⟨1⟩, .arithmetic .sub ⟨4⟩ ⟨1⟩, .assign ⟨4⟩ ⟨11⟩,
    .comparison .equals ⟨1⟩ ⟨3⟩, .var (.scalar "z"), .arithmetic .mul ⟨1⟩ ⟨1⟩, .assign ⟨14⟩ ⟨15⟩,
    .ifElse ⟨13⟩ [⟨16⟩] [], .whileLoop ⟨10⟩ [⟨12⟩, ⟨17⟩], .debug "done",
    .arithmetic .add ⟨1⟩ ⟨14⟩, .assign ⟨4⟩ ⟨20⟩],
  [⟨2⟩, ⟨6⟩, ⟨9⟩, ⟨18⟩, ⟨19⟩, ⟨21⟩]⟩

/-- The equivalences for a program whose two bytecodes differ. -/
theorem pipelines_agree_foldedRounds : foldedRounds.Unshared ∧
    ∃ plain plainProgram optimized optimizedProgram,
      foldedRounds.compile false = .ok plain plainProgram ∧
      foldedRounds.compile true = .ok optimized optimizedProgram ∧
      plainProgram.Small ∧ optimizedProgram.Small ∧ plain.bytecode ≠ optimized.bytecode ∧
      (∀ final, plain.bytecode.CompletesWith Buffer.sink (.empty none false) final ↔
        optimized.bytecode.CompletesWith Buffer.sink (.empty none false) final) ∧
      (∀ final, plain.bytecode.FailsWith Buffer.sink (.empty none false) final ↔
        optimized.bytecode.FailsWith Buffer.sink (.empty none false) final) ∧
      (plain.bytecode.RunsForever Buffer.sink (.empty none false) ↔
        optimized.bytecode.RunsForever Buffer.sink (.empty none false)) := by
  have hunshared : foldedRounds.Unshared := unshared_of_nodup (by decide +kernel)
  have hboth : (match foldedRounds.compile false, foldedRounds.compile true with
    | .ok plain plainProgram, .ok optimized optimizedProgram =>
      decide (plainProgram.Small ∧ optimizedProgram.Small ∧ plain.bytecode ≠ optimized.bytecode)
    | _, _ => false) = true := by decide +kernel
  split at hboth
  next plain plainProgram optimized optimizedProgram hplain hoptimized =>
    obtain ⟨hsmall, hsmall', hne⟩ := of_decide_eq_true hboth
    exact ⟨hunshared, plain, plainProgram, optimized, optimizedProgram, hplain, hoptimized, hsmall,
      hsmall', hne, pipelines_agree hunshared hplain hoptimized hsmall hsmall'
        (Buffer.accepts rfl)⟩
  next => cases hboth

end Program

end RegisterBackend
