import Mathlib.Data.List.Perm.Basic
import RegisterBackend.Proofs.OwnedRegisters

/-!
# The copies at the end of a block

The copies that end a block are made one after the other, but amount to one simultaneous move, and
the order in which they are made does not matter. The reason is that names own different registers:
the register that a value is moved to is owned by the name of the value, or is its home, so it is
neither read nor written by the copy for another name (`Bindings.home_ne_lookup`,
`Bindings.home_inj`).

`Bindings.exitBlock_reconciles` puts this together with what the end of a block does to the stacks,
for every way in which bindings may change in a block, and adds that names own different registers
wherever lowering gets to. Both have a limit (`Bindings.boundHome_unwritten_and_register_shared`). A
home is only for a name that was not bound before the block; the home of another one is not written.
And register numbers have 32 bits, so beyond that many registers the first ones are handed out
again.
-/

namespace RegisterBackend

namespace Bindings

variable {b entry : Bindings} {homes : NameMap Register} {x y : String} {q r d : Register}

/-- Behind a block, the value of a name is in the register that it has to be in. -/
theorem lookup_exitBlock_home (habove : b.Above entry) (hx : b.lookup x = some q) :
    (b.exitBlock entry homes).2.lookup x = some (entry.home homes x q) := by
  rw [lookup_exitBlock habove, hx, home_eq]
  cases entry.lookup x <;> rfl

/-- The register that a value has to be in is owned by its name, or is the name's home. -/
theorem owns_home (habove : b.Above entry) (hx : b.lookup x = some q) :
    b.Owns x (entry.home homes x q) ∨ homes[x]? = some (entry.home homes x q) :=
  owns_exitBlock habove (owns_of_lookup (lookup_exitBlock_home habove hx))

/-- The values of two names have to be in two registers. -/
theorem home_inj (habove : b.Above entry) (hapart : b.Apart) (hspare : b.Spare homes)
    (hx : b.lookup x = some q) (hy : b.lookup y = some r)
    (h : entry.home homes x q = entry.home homes y r) : x = y := by
  have hx' : (b.exitBlock entry homes).2.Owns x (entry.home homes x q) :=
    owns_of_lookup (lookup_exitBlock_home habove hx)
  have hy' : (b.exitBlock entry homes).2.Owns y (entry.home homes y r) :=
    owns_of_lookup (lookup_exitBlock_home habove hy)
  exact hapart.exitBlock habove hspare x y _ hx' (h ▸ hy')

/-- No value is moved to where that of another name is. -/
theorem home_ne_lookup (habove : b.Above entry) (hapart : b.Apart) (hspare : b.Spare homes)
    (hx : b.lookup x = some q) (hmoved : entry.home homes x q ≠ q) (hy : b.lookup y = some r) :
    entry.home homes x q ≠ r := by
  intro hr
  have hown : b.Owns y (entry.home homes x q) := hr ▸ owns_of_lookup hy
  have hxy : y = x := by
    rcases owns_home habove hx with hx' | hx'
    · exact hapart y x _ hown hx'
    · exact hspare.owner x y _ hx' hown
  rw [hxy, hx] at hy
  exact hmoved (hr.trans (Option.some.inj hy).symm)

/-! ## Executing the copies -/

/-- What the copies do to the registers: those that names had before the block, and the homes of the
names that the block introduced, take over the values of the names, and the others stay as they
are. -/
structure Settles (entry b : Bindings) (homes : NameMap Register) (before after : Registers) :
    Prop where
  bound : ∀ x d q, entry.lookup x = some d → b.lookup x = some q → after.get? d = before.get? q
  introduced : ∀ (x : String) (d q : Register), entry.lookup x = none → homes[x]? = some d →
    b.lookup x = some q → after.get? d = before.get? q
  other : ∀ d : Register, (∀ x, entry.lookup x ≠ some d) →
    (∀ x : String, entry.lookup x = none → (b.lookup x).isSome → homes[x]? ≠ some d) →
    after.get? d = before.get? d

/-- Moves that bring the value of every name where it has to be, and nothing else, settle the
registers. -/
theorem settles_of_moves {ms : List (Register × Register)} {before after : Registers}
    (habove : b.Above entry) (hapart : b.Apart) (hspare : b.Spare homes)
    (hms : ms.Perm (b.moves entry homes))
    (hmoved : ∀ m ∈ ms, after.get? m.1 = before.get? m.2)
    (hrest : ∀ d, (∀ m ∈ ms, m.1 ≠ d) → after.get? d = before.get? d) :
    Settles entry b homes before after := by
  have hhome (x : String) (q : Register) (hx : b.lookup x = some q) :
      after.get? (entry.home homes x q) = before.get? q := by
    by_cases hne : entry.home homes x q = q
    · rw [hne]
      refine hrest q ?_
      rintro ⟨d, r⟩ hm hd
      obtain ⟨y, hy, rfl, hmoves⟩ := mem_moves.1 (hms.mem_iff.1 hm)
      exact home_ne_lookup habove hapart hspare hy hmoves hx hd
    · exact hmoved _ (hms.mem_iff.2 (mem_moves.2 ⟨x, hx, rfl, hne⟩))
  constructor
  · intro x d q hd hq
    have heq := hhome x q hq
    rwa [home_eq, hd, Option.getD_some] at heq
  · intro x d q hnone hd hq
    have heq := hhome x q hq
    rwa [home_eq, hnone, hd, Option.getD_none, Option.getD_some] at heq
  · intro d hentry hhomes
    refine hrest d ?_
    rintro ⟨d', r⟩ hm hd
    obtain ⟨x, hx, rfl, hne⟩ := mem_moves.1 (hms.mem_iff.1 hm)
    -- a value is moved to where the name had it before the block, or to the home of the name
    rw [home_eq] at hd hne
    cases hbefore : entry.lookup x with
    | some q =>
      rw [hbefore, Option.getD_some] at hd
      exact hentry x (hd ▸ hbefore)
    | none =>
      rw [hbefore, Option.getD_none] at hd hne
      cases hhome : homes[x]? with
      | some q =>
        rw [hhome, Option.getD_some] at hd
        exact hhomes x hbefore (by rw [hx]; rfl) (hd ▸ hhome)
      | none =>
        rw [hhome, Option.getD_none] at hne
        exact hne rfl

/-- The copies in another order are those of the moves in another order. -/
theorem exists_moves_of_perm {copies : List Instruction}
    (h : copies.Perm (b.exitBlock entry homes).1.copies) :
    ∃ ms : List (Register × Register),
      copies = ms.map (fun m => .set m.1 (.register m.2)) ∧ ms.Perm (b.moves entry homes) := by
  rw [copies_exitBlock] at h
  have heq : List.Forall₂ (fun i m => i = Instruction.set m.1 (.register m.2))
      ((b.moves entry homes).map fun m => .set m.1 (.register m.2)) (b.moves entry homes) :=
    List.forall₂_map_left_iff.2 (List.forall₂_same.2 fun _ _ => rfl)
  obtain ⟨ms, hrel, hms⟩ := List.perm_comp_forall₂ h heq
  refine ⟨ms, ?_, hms⟩
  rw [← List.forall₂_eq_eq_eq]
  exact List.forall₂_map_right_iff.2 hrel

/-- The copies at the end of a block, in any order and wherever they stand in the code, settle the
registers, if there is something in what they read. -/
theorem copies_settle {σ : Type} {code : Bytecode} {sink : Sink σ} {run : Run σ}
    {copies : List Instruction} (habove : b.Above entry) (hapart : b.Apart) (hspare : b.Spare homes)
    (hcopies : copies.Perm (b.exitBlock entry homes).1.copies)
    (hat : ∀ j i, copies[j]? = some i → code.at? (run.position + j) = some i)
    (hset : ∀ i ∈ copies, ∀ q ∈ i.sources, (run.registers.get? q).isSome) :
    ∃ k run', Steps code sink k run run' ∧ run'.position = run.position + copies.length ∧
      run'.output = run.output ∧ Settles entry b homes run.registers run'.registers := by
  obtain ⟨ms, rfl, hms⟩ := exists_moves_of_perm hcopies
  have hdistinct : (b.moves entry homes).Pairwise fun m n => m.1 ≠ n.1 :=
    pairwise_moves fun x y q r hx hy _ _ => home_inj habove hapart hspare hx hy
  have hpairwise : ms.Pairwise fun m n => m.1 ≠ n.1 :=
    hms.symm.pairwise hdistinct fun h => h.symm
  -- no copy reads what another one writes, so the order does not matter
  have hunread : ∀ m ∈ ms, ∀ n ∈ ms, m.1 ≠ n.2 := by
    rintro ⟨d, q⟩ hm ⟨d', r⟩ hn
    obtain ⟨x, hx, rfl, hmoved⟩ := mem_moves.1 (hms.mem_iff.1 hm)
    obtain ⟨y, hy, -, -⟩ := mem_moves.1 (hms.mem_iff.1 hn)
    exact home_ne_lookup habove hapart hspare hx hmoved hy
  have hat' : ∀ (j : Nat) (m : Register × Register), ms[j]? = some m →
      code.at? (run.position + j) = some (.set m.1 (.register m.2)) := by
    intro j m hm
    exact hat j _ (by rw [List.getElem?_map, hm]; rfl)
  obtain ⟨k, run', hsteps, houtput, h⟩ := @Steps.moves σ code sink _ _ hat' hpairwise hunread
  rcases h with ⟨hposition, hmoved, hrest⟩ | ⟨⟨m, hm, hempty⟩, -⟩
  · refine ⟨k, run', hsteps, ?_, houtput, ?_⟩
    · rw [hposition, List.length_map]
    · exact settles_of_moves habove hapart hspare hms (fun m hm => (hmoved m hm).2) hrest
  · have hsome := hset _ (List.mem_map_of_mem hm) m.2 List.mem_cons_self
    rw [hempty] at hsome
    cases hsome

/-! ## Reconciliation -/

/-- The end of a block leaves the bindings and the registers as the code behind it expects them. -/
structure Reconciled (entry b : Bindings) (homes : NameMap Register) : Prop where
  /-- A name that was bound before the block has its stack again. -/
  bound : ∀ (x : String) (s : Stack Register), entry.owned[x]? = some s →
    (b.exitBlock entry homes).2.owned[x]? = some s
  /-- Any other name has one register and is among those that the block introduced. -/
  introduced : ∀ (x : String) (s : Stack Register), entry.owned[x]? = none →
    (b.exitBlock entry homes).2.owned[x]? = some s →
    s = .singleton s.top ∧ (b.exitBlock entry homes).1.introduced[x]? = some s.top
  /-- The names that are bound are those that were bound at the end of the block. -/
  names : ∀ x : String,
    ((b.exitBlock entry homes).2.lookup x).isSome ↔ (b.lookup x).isSome
  /-- The copies settle the registers, in whatever order they are made. -/
  copies : ∀ {σ : Type} {code : Bytecode} {sink : Sink σ} {run : Run σ} {copies : List Instruction},
    copies.Perm (b.exitBlock entry homes).1.copies →
    (∀ j i, copies[j]? = some i → code.at? (run.position + j) = some i) →
    (∀ i ∈ copies, ∀ q ∈ i.sources, (run.registers.get? q).isSome) →
    ∃ k run', Steps code sink k run run' ∧ run'.position = run.position + copies.length ∧
      run'.output = run.output ∧ Settles entry b homes run.registers run'.registers
  /-- No register is in the stacks of two names. -/
  apart : (b.exitBlock entry homes).2.Apart

/-- Behind a block, a name that was not bound before it has one register. -/
theorem introduced_owned {s : Stack Register} (hx : entry.owned[x]? = none)
    (hs : (b.exitBlock entry homes).2.owned[x]? = some s) :
    s = .singleton s.top ∧ (b.exitBlock entry homes).1.introduced[x]? = some s.top := by
  rw [owned_exitBlock_of_unbound hx] at hs
  obtain ⟨t, ht, rfl⟩ := Option.map_eq_some_iff.1 hs
  refine ⟨rfl, ?_⟩
  rw [introduced_exitBlock, lookup_eq_none.2 hx, lookup, ht]
  rfl

/-- The end of a block binds no name and gives up none. -/
theorem isSome_lookup_exitBlock (habove : b.Above entry) :
    ((b.exitBlock entry homes).2.lookup x).isSome ↔ (b.lookup x).isSome := by
  rw [lookup_exitBlock habove]
  cases hs : entry.owned[x]? with
  | some s =>
    obtain ⟨t, ht, -⟩ := habove x s hs
    simp [lookup, hs, ht]
  | none => simp [lookup, hs]

/-- The end of a block reconciles the bindings with those at its beginning, whatever happened in the
block; and wherever lowering of a program gets to, names own different registers. -/
theorem exitBlock_reconciles :
    (∀ (entry b : Bindings) (homes : NameMap Register), entry.Apart → entry.Block b →
      b.Spare homes → Reconciled entry b homes) ∧
    ∀ (p : Program) (e : Emitter), p.Reaches e → e.registers ≤ UInt32.size → e.bindings.Apart := by
  constructor
  · intro entry b homes hentry hblock hspare
    have habove := hblock.above
    have hapart := hblock.apart hentry
    constructor
    · intro x s hs
      exact owned_exitBlock_of_bound habove hs
    · intro x s hx hs
      exact introduced_owned hx hs
    · intro x
      exact isSome_lookup_exitBlock habove
    · intro σ code sink run copies
      exact copies_settle habove hapart hspare
    · exact hapart.exitBlock habove hspare
  · intro p e hreaches hsmall
    exact hreaches.apart hsmall

theorem not_owns_of_forall (h : ∀ p ∈ b.owned.toList, r ∉ p.2.toList) : ¬ b.Owns x r := by
  rintro ⟨s, hs, hr⟩
  exact h (x, s) (Std.TreeMap.mem_toList_iff_getElem?_eq_some.2 hs) hr

/-- A home for one name is spare if no name owns it. -/
theorem spare_insert (h : ∀ y, ¬ b.Owns y r) : b.Spare ((∅ : NameMap Register).insert x r) := by
  have hhome (y : String) (q : Register)
      (hy : ((∅ : NameMap Register).insert x r)[y]? = some q) : x = y ∧ r = q := by
    simpa [Std.TreeMap.getElem?_insert] using hy
  constructor
  · intro y z q hy hz
    exact (hhome y q hy).1.symm.trans (hhome z q hz).1
  · intro y z q hy hz
    obtain ⟨-, rfl⟩ := hhome y q hy
    exact absurd hz (h z)

/-- One name before a block. -/
def oneName : Bindings :=
  Bindings.empty.bind "x" ⟨0⟩

/-- Two names before a block. -/
def twoNames : Bindings :=
  (Bindings.empty.bind "x" ⟨0⟩).bind "y" ⟨1⟩

/-- The end of a block that binds `x` twice, `y` once, and `t` in a block within. -/
def rebound : Bindings :=
  let inner := (twoNames.bind "x" ⟨2⟩).bind "t" ⟨3⟩
  ((inner.exitBlock (twoNames.bind "x" ⟨2⟩) ∅).2.bind "y" ⟨4⟩).bind "x" ⟨5⟩

/-- At the end of a block that rebinds two names and binds a new one, all three are moved to their
homes. -/
theorem exitBlock_reconciles_rebound :
    twoNames.Apart ∧ twoNames.Block rebound ∧
    rebound.Spare ((∅ : NameMap Register).insert "t" ⟨6⟩) ∧
    (rebound.exitBlock twoNames ((∅ : NameMap Register).insert "t" ⟨6⟩)).1.copies =
      [.set ⟨6⟩ (.register ⟨3⟩), .set ⟨0⟩ (.register ⟨5⟩), .set ⟨1⟩ (.register ⟨4⟩)] ∧
    Reconciled twoNames rebound ((∅ : NameMap Register).insert "t" ⟨6⟩) ∧
    Program.mergingLoop.Reaches Program.mergingLoop.emitted ∧
    Program.mergingLoop.emitted.bindings.Apart := by
  have hapart : twoNames.Apart := by
    refine (apart_empty.bind fun y => not_owns_empty).bind fun y => ?_
    exact not_owns_of_forall (by decide +kernel)
  have hblock : twoNames.Block rebound := by
    have hx : twoNames.Block (twoNames.bind "x" ⟨2⟩) :=
      .bind (.enter _) fun y => not_owns_of_forall (by decide +kernel)
    have ht : (twoNames.bind "x" ⟨2⟩).Block ((twoNames.bind "x" ⟨2⟩).bind "t" ⟨3⟩) :=
      .bind (.enter _) fun y => not_owns_of_forall (by decide +kernel)
    refine .bind (.bind (.nested hx ht) fun y => ?_) fun y => ?_
    · exact not_owns_of_forall (by decide +kernel)
    · exact not_owns_of_forall (by decide +kernel)
  have hspare : rebound.Spare ((∅ : NameMap Register).insert "t" ⟨6⟩) :=
    spare_insert fun y => not_owns_of_forall (by decide +kernel)
  have hreaches : Program.mergingLoop.Reaches Program.mergingLoop.emitted := by
    have hok : Program.mergingLoop.lower = .ok Program.mergingLoop.emitted.finish := by
      decide +kernel
    obtain ⟨c, hc, hlower, -⟩ := Program.lower_eq_ok hok
    exact .inr (.inl (Program.lowerBody_eq hc ▸ hlower))
  refine ⟨hapart, hblock, hspare, by decide +kernel, ?_, hreaches, ?_⟩
  · exact exitBlock_reconciles.1 _ _ _ hapart hblock hspare
  · exact exitBlock_reconciles.2 _ _ hreaches (by decide +kernel)

end Bindings

/-! ## Registers that are handed out again -/

/-- A statement that assigns a number takes one register for it. -/
theorem Graph.run_lowerStatement_const {g : Graph} {depth : Nat} {id : NodeId} {x : String} {v : Int64}
    (h : g.command? depth id = some (.assign x (.const v))) (e : Emitter) :
    (g.lowerStatement depth id).run e = .ok () ((e.load v).2.bind x (e.load v).1) := by
  rw [lowerStatement_eq h]
  rfl

/-- To assign a number again and again takes a register each time, and gives up none. -/
theorem Graph.exists_run_replicate {g : Graph} {depth : Nat} {id : NodeId} {x : String} {v : Int64}
    (h : g.command? depth id = some (.assign x (.const v))) (n : Nat) (e : Emitter) :
    ∃ e₁ : Emitter, e₁.registers = e.registers + n ∧
      (∀ y r, e.bindings.Owns y r → e₁.bindings.Owns y r) ∧
      ∀ ids e', (ids.forM (g.lowerStatement depth)).run e₁ = .ok () e' →
        ((List.replicate n id ++ ids).forM (g.lowerStatement depth)).run e = .ok () e' := by
  induction n generalizing e with
  | zero => exact ⟨e, rfl, fun _ _ hy => hy, fun _ _ hrest => hrest⟩
  | succ n ih =>
    obtain ⟨e₁, hregisters, howns, hruns⟩ := ih ((e.load v).2.bind x (e.load v).1)
    refine ⟨e₁, ?_, fun y r hy => ?_, fun ids e' hrest => ?_⟩
    · rw [hregisters, Nat.add_comm n 1, ← Nat.add_assoc]
      rfl
    · exact howns y r (Bindings.owns_bind.2 (.inl hy))
    · exact run_forM_cons_eq_ok.2 ⟨_, run_lowerStatement_const h e, hruns ids e' hrest⟩

namespace Program

/-- The statements `x = 0` and `y = 0`. -/
def zeroAssignments : Graph :=
  .ofNodes [.constant (.scalar 0), .var (.scalar "x"), .assign ⟨1⟩ ⟨0⟩, .var (.scalar "y"),
    .assign ⟨3⟩ ⟨0⟩]

/-- A program that assigns `x` again and again and then `y`: `x = 0; …; x = 0; y = 0`. -/
def assignedAgain (n : Nat) : Program :=
  ⟨zeroAssignments, List.replicate n ⟨2⟩ ++ [⟨4⟩]⟩

/-- The first register stays with `x`, and `y` takes the one behind those of `x`. -/
theorem exists_lowerBody_assignedAgain (n : Nat) :
    ∃ e, (assignedAgain (n + 1)).lowerBody.run .empty = .ok () e ∧ e.registers = n + 2 ∧
      e.bindings.Owns "x" (.ofIndex 0) ∧ e.bindings.Owns "y" (.ofIndex (n + 1)) := by
  have hx : zeroAssignments.command? zeroAssignments.depth ⟨2⟩ = some (.assign "x" (.const 0)) := by
    decide +kernel
  have hy : zeroAssignments.command? zeroAssignments.depth ⟨4⟩ = some (.assign "y" (.const 0)) := by
    decide +kernel
  have hfirst := Graph.run_lowerStatement_const hx .empty
  obtain ⟨e, hcount, howns, hruns⟩ :=
    Graph.exists_run_replicate hx n ((Emitter.empty.load 0).2.bind "x" (Emitter.empty.load 0).1)
  have hregisters : e.registers = n + 1 := by
    rw [hcount, Nat.add_comm n 1]
    rfl
  have hlast : ([⟨4⟩].forM (zeroAssignments.lowerStatement zeroAssignments.depth)).run e =
      .ok () ((e.load 0).2.bind "y" (e.load 0).1) :=
    run_forM_cons_eq_ok.2 ⟨_, Graph.run_lowerStatement_const hy e, rfl⟩
  refine ⟨_, run_forM_cons_eq_ok.2 ⟨_, hfirst, hruns _ _ hlast⟩, congrArg Nat.succ hregisters, ?_, ?_⟩
  · exact Bindings.owns_bind.2 (.inl (howns _ _ (Bindings.owns_bind.2 (.inr ⟨rfl, rfl⟩))))
  · rw [← hregisters]
    exact Bindings.owns_bind.2 (.inr ⟨rfl, rfl⟩)

end Program

/-- A home of a name that was bound before the block gets no copy. And when all registers have been
handed out, the first one is handed out again, so that two names own it. -/
theorem Bindings.boundHome_unwritten_and_register_shared :
    (∃ homes : NameMap Register, homes["x"]? = some ⟨9⟩ ∧ oneName.Apart ∧
      oneName.Block (oneName.bind "x" ⟨1⟩) ∧ (oneName.bind "x" ⟨1⟩).Spare homes ∧
      ((oneName.bind "x" ⟨1⟩).exitBlock oneName homes).1.copies = [.set ⟨0⟩ (.register ⟨1⟩)]) ∧
    ∃ e, (Program.assignedAgain UInt32.size).Reaches e ∧ e.registers = UInt32.size + 1 ∧
      ¬ e.bindings.Apart := by
  constructor
  · refine ⟨(∅ : NameMap Register).insert "x" ⟨9⟩, by decide +kernel, ?_, ?_, ?_, by decide +kernel⟩
    · exact apart_empty.bind fun y => not_owns_empty
    · exact .bind (.enter _) fun y => not_owns_of_forall (by decide +kernel)
    · exact spare_insert fun y => not_owns_of_forall (by decide +kernel)
  · obtain ⟨e, hrun, hregisters, hx, hy⟩ :=
      Program.exists_lowerBody_assignedAgain (UInt32.size - 1)
    refine ⟨e, .inr (.inl hrun), hregisters, fun hapart => ?_⟩
    exact absurd (hapart "x" "y" _ hx hy) (by decide)

end RegisterBackend
