import RegisterBackend.Proofs.BoundNames
import RegisterBackend.Proofs.CompileErrors
import RegisterBackend.Proofs.ScalarPrograms

/-!
# The first name that is not bound

`Program.lower_eq_first_unbound` says of a checked program without arrays and calls that lowering
succeeds exactly if every name that is read may have been assigned before, and otherwise stops at
the first one that cannot. The names that are read are listed in the order of the text, each with
the names that some assignment before has as its target (`Command.mentions`).
-/

namespace RegisterBackend

namespace Program

variable {p : Program}

/-- A checked program without arrays and calls is lowered exactly if every name that it reads may
have been assigned before, and otherwise lowering stops at the first one that cannot. -/
theorem lower_eq_first_unbound (hcheck : p.check = .ok ()) (hscalar : p.ScalarCode)
    (hlabels : p.labelCount < UInt32.size) :
    ∃ c, p.command? = some c ∧
      ((∃ code, p.lower = .ok code) ↔ ∀ m ∈ c.mentions ∅, m.name ∈ m.assigned) ∧
      ∀ m, (c.mentions ∅).find? (fun m => m.name ∉ m.assigned) = some m →
        p.lower = .error (.error (.unresolvedSymbol m.name)) := by
  obtain ⟨c, hc⟩ := exists_command? hcheck hscalar
  have hresolves := Command.lower_resolves (c := c) Scope.wf_empty .empty Emitter.binds_empty
  have hfirst : ∀ m, firstUnbound? (c.mentions ∅) = some m →
      p.lower = .error (.error (.unresolvedSymbol m.name)) := by
    intro m hm
    obtain ⟨e, he⟩ := hresolves.2 m hm
    rw [lower, lowerBody_eq hc, he]
  refine ⟨c, hc, ⟨?_, ?_⟩, hfirst⟩
  · rintro ⟨code, hcode⟩
    refine firstUnbound?_eq_none.1 ?_
    cases hm : firstUnbound? (c.mentions ∅) with
    | none => rfl
    | some m =>
      rw [hfirst m hm] at hcode
      cases hcode
  · intro hall
    obtain ⟨_, e, he⟩ := hresolves.exists_run_iff.2 hall
    have hcount : p.labelCount = c.labels :=
      Graph.sum_labelsIn_of_block? Graph.labelsIn_of_command? hc
    have hsmall : e.labels < UInt32.size := by
      rw [Command.lower_labels he, ← hcount]
      exact (Nat.zero_add _).symm ▸ hlabels
    refine ⟨e.finish, ?_⟩
    simp only [lower, lowerBody_eq hc, he, Command.checkLabels_finish he hsmall]

/-- A program that reads two names which are assigned on some path only, and then two which are not
assigned before: `x = 0; if x > 0 then t = 1; while x > t do (u = t; x = v + w); x = u`. -/
def readTooEarly : Program :=
  ⟨.ofNodes [.constant (.scalar 0), .var (.scalar "x"), .assign ⟨1⟩ ⟨0⟩,
    .comparison .greater ⟨1⟩ ⟨0⟩, .constant (.scalar 1), .var (.scalar "t"), .assign ⟨5⟩ ⟨4⟩,
    .ifElse ⟨3⟩ [⟨6⟩] [], .comparison .greater ⟨1⟩ ⟨5⟩, .var (.scalar "u"), .assign ⟨9⟩ ⟨5⟩,
    .var (.scalar "v"), .var (.scalar "w"), .arithmetic .add ⟨11⟩ ⟨12⟩, .assign ⟨1⟩ ⟨13⟩,
    .whileLoop ⟨8⟩ [⟨10⟩, ⟨14⟩], .assign ⟨1⟩ ⟨9⟩],
  [⟨2⟩, ⟨7⟩, ⟨15⟩, ⟨16⟩]⟩

/-- Of the two names that cannot have been assigned, the one that comes first in the text is
reported. -/
theorem lower_eq_first_unbound_readTooEarly : readTooEarly.check = .ok () ∧
    readTooEarly.labelCount < UInt32.size ∧
    readTooEarly.lower = .error (.error (.unresolvedSymbol "v")) := by
  have hcheck : readTooEarly.check = .ok () := by decide +kernel
  have hscalar : readTooEarly.ScalarCode := scalarCode_of_forall (by decide +kernel)
  have hlabels : readTooEarly.labelCount < UInt32.size := by decide +kernel
  refine ⟨hcheck, hlabels, ?_⟩
  obtain ⟨c, hc, -, hfirst⟩ := lower_eq_first_unbound hcheck hscalar hlabels
  have hfind : ∃ m, (readTooEarly.command?.bind fun c =>
      (c.mentions ∅).find? fun m => m.name ∉ m.assigned) = some m ∧ m.name = "v" :=
    ⟨⟨"v", {"u", "x", "t"}⟩, by decide +kernel, rfl⟩
  obtain ⟨m, hm, hname⟩ := hfind
  rw [hc] at hm
  rw [hfirst m hm, hname]

end Program

end RegisterBackend
