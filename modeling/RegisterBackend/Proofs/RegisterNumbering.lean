import Mathlib.Data.Finset.Card
import Mathlib.Data.Nat.Find
import RegisterBackend.Proofs.BoundNames
import RegisterBackend.Proofs.Readings
import RegisterBackend.Proofs.ScalarPrograms

/-!
# How the code numbers its registers

A register is written for the first time by the instruction that computes its value, and the
registers are numbered in the order of these instructions. Besides them only the copies at the end
of a block write registers, and these go from a newer register to an older one.
`Bytecode.Disciplined` says this of finished code, in terms of the registers that the instructions
before a position write.

It is proved of the code as it grows. `Numbered` counts the registers along a list of instructions:
an instruction either writes the register whose number is the count, or is a copy between registers
that were counted, or writes none. A copy at the end of a block goes down because the name was bound
before the block, or was introduced by the block before it, and the value that is copied was
assigned in the block (`Command.lt_of_mem_moves`).
-/

namespace RegisterBackend

/-! ## Code that numbers its registers -/

namespace Bytecode

/-- The registers written before a position. -/
def writtenBefore (code : Bytecode) (k : Nat) : List Register :=
  (code.instructions.toList.take k).filterMap (·.destination?)

/-- The instruction at a position writes a register. -/
def Writes (code : Bytecode) (k : Nat) (d : Register) : Prop :=
  ∃ i, code.at? k = some i ∧ i.destination? = some d

/-- The instruction at a position writes the register that is numbered next, and reads smaller
ones. -/
def Defines (code : Bytecode) (k : Nat) (d : Register) : Prop :=
  ∃ i, code.at? k = some i ∧ i.destination? = some d ∧
    d.number.toNat = (code.writtenBefore k).toFinset.card ∧ ∀ q ∈ i.sources, q.number < d.number

/-- The instruction at a position copies a register to a smaller one, and both were written
before. -/
def Reconciles (code : Bytecode) (k : Nat) (d : Register) : Prop :=
  ∃ q, code.at? k = some (.set d (.register q)) ∧ d.number < q.number ∧
    d ∈ code.writtenBefore k ∧ q ∈ code.writtenBefore k

/-- Every write is that of the next register or a copy from a newer register to an older one, and
every test is of a register that was written. -/
structure Disciplined (code : Bytecode) : Prop where
  write : ∀ k d, code.Writes k d → code.Defines k d ∨ code.Reconciles k d
  test : ∀ k onNonzero cond target, code.at? k = some (.branch onNonzero cond target) →
    cond ∈ code.writtenBefore k

variable {code : Bytecode} {k : Nat} {d : Register}

/-- A register was written before a position if an instruction before it writes it. -/
theorem mem_writtenBefore : d ∈ code.writtenBefore k ↔ ∃ j < k, code.Writes j d := by
  simp only [writtenBefore, List.mem_filterMap, List.mem_take_iff_getElem, Writes, at?]
  constructor
  · rintro ⟨i, ⟨j, hj, rfl⟩, hd⟩
    have hlt : j < code.instructions.size := by
      rw [← Array.length_toList]
      omega
    exact ⟨j, by omega, _, Array.getElem?_eq_getElem hlt, by simpa using hd⟩
  · rintro ⟨j, hj, i, hi, hd⟩
    obtain ⟨hlt, rfl⟩ := Array.getElem?_eq_some_iff.1 hi
    exact ⟨_, ⟨j, by rw [Array.length_toList]; omega, rfl⟩, by simpa using hd⟩

/-- A register is a destination if some instruction writes it. -/
theorem mem_destinations : d ∈ code.destinations ↔ ∃ k, code.Writes k d := by
  simp only [destinations, List.mem_filterMap, Writes, at?, Array.mem_toList_iff,
    Array.mem_iff_getElem?]
  constructor
  · rintro ⟨i, ⟨k, hk⟩, hd⟩
    exact ⟨k, i, hk, hd⟩
  · rintro ⟨k, i, hk, hd⟩
    exact ⟨i, ⟨k, hk⟩, hd⟩

/-- A register is written by one instruction that is no copy back, if every other one is, and if
what is numbered next was not written. -/
theorem existsUnique_writes (h : code.Disciplined)
    (hnew : ∀ k d, code.Defines k d → d ∉ code.writtenBefore k) (hd : d ∈ code.destinations) :
    ∃! k, code.Writes k d ∧ ¬ code.Reconciles k d := by
  classical
  have hex := mem_destinations.1 hd
  refine ⟨Nat.find hex, ⟨Nat.find_spec hex, ?_⟩, ?_⟩
  · -- a copy back goes to a register that was written, and this is the first write
    rintro ⟨_, -, -, hbefore, -⟩
    obtain ⟨j, hj, hwrites⟩ := mem_writtenBefore.1 hbefore
    exact Nat.find_min hex hj hwrites
  · rintro k ⟨hwrites, hnot⟩
    have hdefines := (h.write k d hwrites).resolve_right hnot
    by_contra hne
    have hlt : Nat.find hex < k := Nat.lt_of_le_of_ne (Nat.find_min' hex hwrites) (Ne.symm hne)
    exact hnew k d hdefines (mem_writtenBefore.2 ⟨_, hlt, Nat.find_spec hex⟩)

end Bytecode

/-! ## Counting registers -/

/-- The register has a number below the given one. -/
def Register.Below (n : Nat) (r : Register) : Prop :=
  ∃ j < n, r = .ofIndex j

theorem Register.Below.mono {n m : Nat} {r : Register} (h : r.Below n) (hnm : n ≤ m) : r.Below m := by
  obtain ⟨j, hj, rfl⟩ := h
  exact ⟨j, Nat.lt_of_lt_of_le hj hnm, rfl⟩

theorem Register.toNat_ofIndex {j : Nat} (h : j < UInt32.size) : (ofIndex j).number.toNat = j :=
  UInt32.toNat_ofNat_of_lt' h

/-- Below the limit, the registers are those of the numbers. -/
theorem Register.below_iff {n : Nat} (hn : n ≤ UInt32.size) {r : Register} :
    r.Below n ↔ r.number.toNat < n := by
  constructor
  · rintro ⟨j, hj, rfl⟩
    rwa [toNat_ofIndex (Nat.lt_of_lt_of_le hj hn)]
  · intro h
    exact ⟨r.number.toNat, h, by rw [ofIndex, UInt32.ofNat_toNat]⟩

/-- What an instruction makes of the number of registers written before it. -/
inductive Instruction.Counts : Nat → Instruction → Nat → Prop
  | define {n : Nat} {i : Instruction} (hdst : i.destination? = some (.ofIndex n))
    (hsrc : ∀ q ∈ i.sources, q.Below n) : Counts n i (n + 1)
  | copy {n a b : Nat} (hab : a < b) (hb : b < n) :
    Counts n (.set (.ofIndex a) (.register (.ofIndex b))) n
  | other {n : Nat} {i : Instruction} (hdst : i.destination? = none)
    (hsrc : ∀ q ∈ i.sources, q.Below n) : Counts n i n

/-- The number of written registers does not go down. -/
theorem Instruction.Counts.le {n m : Nat} {i : Instruction} (h : i.Counts n m) : n ≤ m := by
  cases h with
  | define => exact Nat.le_succ n
  | copy | other => exact Nat.le_refl n

/-- The instructions write as many registers, numbered in order. -/
inductive Numbered : List Instruction → Nat → Prop
  | nil : Numbered [] 0
  | snoc {is : List Instruction} {i : Instruction} {n m : Nat} (h : Numbered is n)
    (hi : i.Counts n m) : Numbered (is ++ [i]) m

namespace Numbered

variable {is : List Instruction} {n : Nat}

/-- The registers written are those counted. -/
theorem mem_written (h : Numbered is n) {d : Register} :
    d ∈ is.filterMap (·.destination?) ↔ d.Below n := by
  induction h with
  | nil => simp [Register.Below]
  | @snoc is i n m h hi ih =>
    rw [List.filterMap_append, List.mem_append, ih]
    cases hi with
    | define hdst =>
      simp only [List.filterMap_cons, hdst, List.filterMap_nil, List.mem_singleton]
      constructor
      · rintro (hd | rfl)
        · exact hd.mono (Nat.le_succ n)
        · exact ⟨n, Nat.lt_succ_self n, rfl⟩
      · rintro ⟨j, hj, rfl⟩
        rcases Nat.lt_succ_iff_lt_or_eq.1 hj with hj | rfl
        · exact .inl ⟨j, hj, rfl⟩
        · exact .inr rfl
    | copy hab hb =>
      simp only [List.filterMap_cons, Instruction.destination?, List.filterMap_nil,
        List.mem_singleton, or_iff_left_iff_imp]
      rintro rfl
      exact ⟨_, Nat.lt_trans hab hb, rfl⟩
    | other hdst => simp [hdst]

/-- As many registers are written as are counted. -/
theorem card_written (h : Numbered is n) (hn : n ≤ UInt32.size) :
    (is.filterMap (·.destination?)).toFinset.card = n := by
  have hset : (is.filterMap (·.destination?)).toFinset =
      (Finset.range n).image Register.ofIndex := by
    ext d
    rw [List.mem_toFinset, h.mem_written, Finset.mem_image]
    constructor
    · rintro ⟨j, hj, rfl⟩
      exact ⟨j, Finset.mem_range.2 hj, rfl⟩
    · rintro ⟨j, hj, rfl⟩
      exact ⟨j, Finset.mem_range.1 hj, rfl⟩
  rw [hset, Finset.card_image_of_injOn, Finset.card_range]
  intro a ha b hb hab
  have ha := Finset.mem_range.1 ha
  have hb := Finset.mem_range.1 hb
  exact Register.ofIndex_inj (Nat.lt_of_lt_of_le ha hn) (Nat.lt_of_lt_of_le hb hn) hab

/-- Each instruction is counted behind those before it. -/
theorem exists_counts (h : Numbered is n) {k : Nat} {i : Instruction} (hk : is[k]? = some i) :
    ∃ a b, Numbered (is.take k) a ∧ i.Counts a b ∧ b ≤ n := by
  induction h with
  | nil => simp at hk
  | @snoc is j n m h hj ih =>
    have hlen : k < is.length ∨ k = is.length := by
      have hlt := (List.getElem?_eq_some_iff.1 hk).1
      rw [List.length_append, List.length_singleton] at hlt
      omega
    rcases hlen with hlt | rfl
    · rw [List.getElem?_append_left hlt] at hk
      obtain ⟨a, b, ha, hab, hb⟩ := ih hk
      rw [List.take_append_of_le_length (Nat.le_of_lt hlt)]
      exact ⟨a, b, ha, hab, Nat.le_trans hb hj.le⟩
    · rw [List.getElem?_concat_length] at hk
      cases hk
      rw [List.take_left]
      exact ⟨n, m, h, hj, Nat.le_refl m⟩

end Numbered

namespace Bytecode

variable {code : Bytecode} {n : Nat}

/-- Numbered code is disciplined. -/
theorem disciplined_of_numbered (h : Numbered code.instructions.toList n) (hn : n ≤ UInt32.size) :
    code.Disciplined := by
  constructor
  · rintro k d ⟨i, hat, hd⟩
    have hk : code.instructions.toList[k]? = some i := by rwa [Array.getElem?_toList]
    obtain ⟨a, b, hbefore, hcounts, hb⟩ := h.exists_counts hk
    have ha : a ≤ UInt32.size := Nat.le_trans hcounts.le (Nat.le_trans hb hn)
    cases hcounts with
    | define hdst hsrc =>
      have hda : d = .ofIndex a := Option.some.inj (hd.symm.trans hdst)
      subst hda
      have hlt : a < UInt32.size := Nat.lt_of_lt_of_le (Nat.lt_of_succ_le hb) hn
      refine .inl ⟨i, hat, hd, ?_, ?_⟩
      · rw [Register.toNat_ofIndex hlt]
        exact (hbefore.card_written ha).symm
      · intro q hq
        have hqa := (Register.below_iff ha).1 (hsrc q hq)
        rwa [UInt32.lt_iff_toNat_lt, Register.toNat_ofIndex hlt]
    | @copy x y hxy hy =>
      cases hd
      refine .inr ⟨.ofIndex y, hat, ?_, ?_, ?_⟩
      · rw [UInt32.lt_iff_toNat_lt, Register.toNat_ofIndex (by omega), Register.toNat_ofIndex (by omega)]
        exact hxy
      · exact hbefore.mem_written.2 ⟨x, Nat.lt_trans hxy hy, rfl⟩
      · exact hbefore.mem_written.2 ⟨y, hy, rfl⟩
    | other hdst =>
      rw [hdst] at hd
      cases hd
  · intro k onNonzero cond target hat
    have hk : code.instructions.toList[k]? = some (.branch onNonzero cond target) := by
      rwa [Array.getElem?_toList]
    obtain ⟨a, b, hbefore, hcounts, -⟩ := h.exists_counts hk
    have hcond : cond.Below a := by
      cases hcounts with
      | define hdst => cases hdst
      | other _ hsrc => exact hsrc cond List.mem_cons_self
    exact hbefore.mem_written.2 hcond

/-- In numbered code, the register that is numbered next was not written. -/
theorem not_mem_writtenBefore (h : Numbered code.instructions.toList n) (hn : n ≤ UInt32.size)
    {k : Nat} {d : Register} (hd : code.Defines k d) : d ∉ code.writtenBefore k := by
  obtain ⟨i, hat, -, hcard, -⟩ := hd
  have hk : code.instructions.toList[k]? = some i := by rwa [Array.getElem?_toList]
  obtain ⟨a, b, hbefore, hcounts, hb⟩ := h.exists_counts hk
  have ha : a ≤ UInt32.size := Nat.le_trans hcounts.le (Nat.le_trans hb hn)
  have hda : d.number.toNat = a := hcard.trans (hbefore.card_written ha)
  intro hmem
  have hlt := (Register.below_iff ha).1 (hbefore.mem_written.1 hmem)
  omega

end Bytecode

/-! ## The emitter -/

namespace Emitter

variable {e e₁ e₂ : Emitter} {i : Instruction} {cond : Register}

/-- The code is numbered by the registers that were handed out. -/
def Numbered (e : Emitter) : Prop :=
  RegisterBackend.Numbered e.code.toList e.registers

theorem Numbered.empty : Emitter.empty.Numbered :=
  .nil

/-- An instruction that writes nothing and reads registers in use keeps the code numbered. -/
theorem Numbered.emit (h : e.Numbered) (hdst : i.destination? = none)
    (hsrc : ∀ q ∈ i.sources, q.Below e.registers) : (e.emit i).Numbered := by
  rw [Numbered, Emitter.emit, Array.toList_push]
  exact .snoc h (.other hdst hsrc)

/-- An instruction that writes the next register and reads registers in use keeps the code
numbered. -/
theorem Numbered.define (h : e.Numbered) {f : Register → Instruction}
    (hdst : (f (.ofIndex e.registers)).destination? = some (.ofIndex e.registers))
    (hsrc : ∀ q ∈ (f (.ofIndex e.registers)).sources, q.Below e.registers) :
    (e.define f).Numbered := by
  rw [Numbered, Emitter.define, Emitter.emit, Array.toList_push]
  exact .snoc h (.define hdst hsrc)

/-- The end of a block copies registers down. -/
theorem Numbered.closeBlock (h : e.Numbered) {entry : Bindings} {homes : NameMap Register}
    (hmoves : ∀ m ∈ e.bindings.moves entry homes,
      ∃ a b, m = (.ofIndex a, .ofIndex b) ∧ a < b ∧ b < e.registers) :
    (e.closeBlock entry homes).2.Numbered := by
  have hcode : (e.closeBlock entry homes).2.code.toList = e.code.toList ++
      (e.bindings.moves entry homes).map fun m => .set m.1 (.register m.2) := by
    simp [Emitter.closeBlock, Bindings.copies_exitBlock]
  rw [Numbered, hcode, closeBlock_registers]
  generalize e.bindings.moves entry homes = ms at hmoves
  induction ms using List.reverseRecOn with
  | nil => rwa [List.map_nil, List.append_nil]
  | append_singleton ms m ih =>
    obtain ⟨a, b, rfl, hab, hb⟩ := hmoves m (by simp)
    rw [List.map_append, ← List.append_assoc]
    exact .snoc (ih fun m' hm' => hmoves m' (List.mem_append_left _ hm')) (.copy hab hb)

/-- The beginning of a branch only tests its condition. -/
theorem Numbered.beginThen (h : e.Numbered) (hcond : cond.Below e.registers) :
    (e.beginThen cond).Numbered := by
  have h₀ : Numbered { e with labels := e.labels + 3 } := h
  refine .emit (.emit (.emit h₀ rfl ?_) rfl nofun) rfl nofun
  intro q hq
  rw [List.mem_singleton.1 hq]
  exact hcond

theorem Numbered.beginLoop (h : e.Numbered) : e.beginLoop.Numbered := by
  have h₀ : Numbered { e with labels := e.labels + 2 } := h
  exact .emit h₀ rfl nofun

/-- The beginning of a body only tests the condition of the loop. -/
theorem Numbered.beginBody (h : e₁.Numbered) (hcond : cond.Below e₁.registers) :
    (e.beginBody e₁ cond).Numbered := by
  refine h.emit rfl ?_
  intro q hq
  rw [List.mem_singleton.1 hq]
  exact hcond

/-- Between the two blocks of a branch, nothing is written but the copies at the end of the
first. -/
theorem Numbered.beginElse (h : (e₁.closeBlock e.bindings ∅).2.Numbered) :
    (e.beginElse e₁).Numbered := by
  have hjump := h.emit (i := .jump (.ofIndex (e.labels + 2))) rfl nofun
  have hforget : (((e₁.closeBlock e.bindings ∅).2.emit (.jump (.ofIndex (e.labels + 2)))).forget
      (e₁.closeBlock e.bindings ∅).1.keys).Numbered := hjump
  exact hforget.emit rfl nofun

/-- At the end of a branch, nothing is written but the copies at the end of the second block. -/
theorem Numbered.endIf
    (h : (e₂.closeBlock e.bindings (e₁.closeBlock e.bindings ∅).1).2.Numbered) :
    (e.endIf e₁ e₂).Numbered := by
  have hjump := h.emit (i := .jump (.ofIndex (e.labels + 2))) rfl nofun
  exact hjump.emit (i := .label (.ofIndex (e.labels + 2))) rfl nofun

theorem Numbered.endLoop (h : (e₂.closeBlock e₁.bindings ∅).2.Numbered) :
    (e.endLoop e₁ e₂).Numbered :=
  .emit (.emit h rfl nofun) rfl nofun

end Emitter

/-! ## Evaluables -/

variable {e e' : Emitter} {r : Register}

/-- Every name is bound to a register that was handed out. -/
def Emitter.BindsBelow (e : Emitter) : Prop :=
  ∀ x q, e.bindings.lookup x = some q → q.Below e.registers

/-- Names that are bound to the places of cells are bound to registers that were handed out. -/
theorem Placed.bindsBelow {F : List Nat} {s : Scope} (h : Placed F s e) (hs : s.WF) :
    e.BindsBelow := by
  intro x q hx
  obtain ⟨k, i, -, hi, -, rfl⟩ := h.of_lookup hs hx
  exact ⟨i, h.lt i hi, rfl⟩

/-- Code that binds no names keeps them bound to registers that were handed out. -/
theorem Emitter.BindsBelow.grows {w : Nat} (h : e.BindsBelow) (hg : e.Grows e' w) :
    e'.BindsBelow := by
  intro x q hx
  rw [hg.bindings] at hx
  exact (h x q hx).mono (by rw [hg.registers]; omega)

/-- An instruction that writes a fresh register and reads two that were handed out is numbered. -/
theorem Emitter.Numbered.binary {f : Register → Instruction} {a b : Register} (h : e.Numbered)
    (hdst : ∀ d, (f d).destination? = some d) (hsrc : ∀ d, (f d).sources = [a, b])
    (ha : a.Below e.registers) (hb : b.Below e.registers) :
    (e.define f).Numbered ∧ (Register.ofIndex e.registers).Below (e.define f).registers := by
  refine ⟨h.define (hdst _) ?_, ⟨e.registers, Nat.lt_succ_self _, rfl⟩⟩
  intro q hq
  rw [hsrc] at hq
  rcases List.mem_pair.1 hq with rfl | rfl
  · exact ha
  · exact hb

/-- The code of an evaluable is numbered, and its value is in a register that was handed out. -/
theorem Expr.lower_numbered {x : Expr} (h : x.lower.run e = .ok r e') (hn : e.Numbered)
    (hb : e.BindsBelow) : e'.Numbered ∧ r.Below e'.registers := by
  induction x generalizing e e' r with
  | const v =>
    obtain ⟨rfl, rfl⟩ := run_lower_const.1 h
    exact ⟨hn.define rfl nofun, ⟨e.registers, Nat.lt_succ_self _, rfl⟩⟩
  | var y =>
    obtain ⟨hy, rfl⟩ := run_lower_var.1 h
    exact ⟨hn, hb y r hy⟩
  | arith op x y ihx ihy =>
    obtain ⟨a, e₁, b, e₂, hx, hy, rfl, rfl⟩ := run_lower_arith.1 h
    obtain ⟨hn₁, ha⟩ := ihx hx hn hb
    obtain ⟨hn₂, hb₂⟩ := ihy hy hn₁ (hb.grows (lower_grows hx))
    have ha₂ := ha.mono (m := e₂.registers) (by rw [(lower_grows hy).registers]; omega)
    exact hn₂.binary (fun _ => rfl) (fun _ => rfl) ha₂ hb₂

/-- The code of the value of an assignment is numbered. -/
theorem Expr.lowerValue_numbered {x : Expr} (h : x.lowerValue.run e = .ok r e') (hn : e.Numbered)
    (hb : e.BindsBelow) : e'.Numbered := by
  rcases run_lowerValue.1 h with ⟨y, a, -, hy, -, rfl⟩ | ⟨-, h⟩
  · refine hn.define rfl ?_
    intro q hq
    rw [List.mem_singleton.1 hq]
    exact hb y a hy
  · exact (lower_numbered h hn hb).1

/-- The code of a comparison is numbered, and its result is in a register that was handed out. -/
theorem Test.lower_numbered {t : Test} (h : t.lower.run e = .ok r e') (hn : e.Numbered)
    (hb : e.BindsBelow) : e'.Numbered ∧ r.Below e'.registers := by
  obtain ⟨a, e₁, b, e₂, hx, hy, rfl, rfl⟩ := run_lower.1 h
  obtain ⟨hn₁, ha⟩ := Expr.lower_numbered hx hn hb
  obtain ⟨hn₂, hb₂⟩ := Expr.lower_numbered hy hn₁ (hb.grows (Expr.lower_grows hx))
  have ha₂ := ha.mono (m := e₂.registers) (by rw [(Expr.lower_grows hy).registers]; omega)
  exact hn₂.binary (fun _ => rfl) (fun _ => rfl) ha₂ hb₂

/-! ## Commands -/

namespace Command

variable {F : List Nat} {s t : Scope} {entry : Bindings} {homes : NameMap Register}

/-- The end of a block copies a register that the block took to one that was handed out before, if
the homes are the places of cells that were in use then. -/
theorem lt_of_mem_moves {c : Command} (h : c.lower.run e = .ok () e') (hs : s.WF)
    (hp : Placed F s e) (ht : t.WF) (hnext : t.next ≤ s.next)
    (hsub : ∀ {x k}, s.cell x = some k → t.cell x = some k)
    (hhome : ∀ x q, entry.home homes x q = ((t.cell x).bind (place F)).getD q)
    {m : Register × Register} (hm : m ∈ e'.bindings.moves entry homes) :
    ∃ a b, m = (.ofIndex a, .ofIndex b) ∧ a < b ∧ b < e'.registers := by
  obtain ⟨d, q⟩ := m
  obtain ⟨x, hx, rfl, hne⟩ := Bindings.mem_moves.1 hm
  have hp' := (placed_after h hs hp).1
  obtain ⟨k', b, hk', hb, hbk, rfl⟩ := hp'.of_lookup (wf_after hs) hx
  rw [hhome] at hne ⊢
  cases hk : t.cell x with
  | none =>
    rw [hk] at hne
    exact absurd rfl hne
  | some k =>
    have hkF : k < F.length := by
      rw [hp.length]
      exact Nat.lt_of_lt_of_le (ht.lt_next hk) hnext
    obtain ⟨a, ha, hak, hplace⟩ := exists_place hkF
    simp only [hk, Option.bind_some, hplace, Option.getD_some] at hne ⊢
    refine ⟨a, b, rfl, ?_, hp'.lt b hb⟩
    have hkk' : k ≠ k' := by
      rintro rfl
      rw [List.getElem?_append_left hkF, hak] at hbk
      cases hbk
      exact hne rfl
    -- the name was assigned in the block, so it is in a register of the block
    have hnew : F.length ≤ k' := hp.length ▸ ((homing ht hnext hsub).new hk hk' hkk').1
    rw [List.getElem?_append_right hnew] at hbk
    have hhomes := (mem_homes (List.mem_of_getElem? hbk)).1
    exact Nat.lt_of_lt_of_le (hp.lt a ha) hhomes

/-- The code at the end of a block without prescribed homes is numbered. -/
theorem closeBlock_numbered {c : Command} (h : c.lower.run e = .ok () e') (hs : s.WF)
    (hp : Placed F s e) (hentry : entry = e.bindings) (hn : e'.Numbered) :
    (e'.closeBlock entry ∅).2.Numbered := by
  refine hn.closeBlock fun m hm => lt_of_mem_moves h hs hp hs (Nat.le_refl _) (fun hk => hk) ?_ hm
  intro x q
  rw [Bindings.home_eq, hentry, hp.lookup]
  simp

/-- The code at the end of the second block of a branch is numbered. -/
theorem closeElse_numbered {a b : Command} {e₀ e₁ e₂ : Emitter} {cond : Register}
    (ha : a.lower.run (e₀.beginThen cond) = .ok () e₁)
    (hb : b.lower.run (e₀.beginElse e₁) = .ok () e₂) (hs : s.WF) (hp : Placed F s e₀)
    (hp₁ : Placed (F ++ a.homes e₀.registers) ⟨(a.after s).next, s.cell⟩ (e₀.beginElse e₁))
    (hn : e₂.Numbered) :
    (e₂.closeBlock e₀.bindings (e₁.closeBlock e₀.bindings ∅).1).2.Numbered := by
  have hnext := a.next_le_after s
  have hwf : Scope.WF ⟨(a.after s).next, Scope.join s.cell (a.after s).cell⟩ :=
    hs.join (wf_after hs) hnext next_le_of_after_cell
  have hp' := (placed_after ha hs (hp.mono (e₀.beginThen cond) (Nat.le_refl _) rfl)).1
  refine hn.closeBlock fun m hm =>
    lt_of_mem_moves hb (hs.mono hnext) hp₁ hwf (Nat.le_refl _) ?_ ?_ hm
  · intro x k hk
    exact Scope.join_of_some hk
  · intro x q
    have hcells : s.next ≤ (F ++ a.homes e₀.registers).length := hp₁.length ▸ hnext
    rw [Bindings.home_eq, introduced_closeBlock, bind_join _ _ _ _
      fun k hk => hs.isSome_place hcells hk, hs.bind_place_append hp.length, ← hp.lookup]
    rw [Emitter.beginThen_registers] at hp'
    rw [← hp'.lookup]
    cases e₀.bindings.lookup x <;> simp

/-- The code of a command is numbered. -/
theorem lower_numbered {c : Command} (h : c.lower.run e = .ok () e') (hs : s.WF) (hp : Placed F s e)
    (hn : e.Numbered) : e'.Numbered := by
  induction c generalizing F s e e' with
  | skip =>
    cases run_lower_skip.1 h
    exact hn
  | print text =>
    cases run_lower_print.1 h
    exact hn.emit rfl nofun
  | assign x v =>
    obtain ⟨q, e₁, hv, rfl⟩ := run_lower_assign.1 h
    have hn₁ := Expr.lowerValue_numbered hv hn (hp.bindsBelow hs)
    exact hn₁
  | seq a b iha ihb =>
    obtain ⟨e₁, ha, hb⟩ := run_lower_seq.1 h
    exact ihb hb (wf_after hs) (placed_after ha hs hp).1 (iha ha hs hp hn)
  | ifElse t a b iha ihb =>
    obtain ⟨cond, e₀, e₁, e₂, ht, ha, hb, rfl⟩ := run_lower_ifElse.1 h
    obtain ⟨hn₀, hcond⟩ := Test.lower_numbered ht hn (hp.bindsBelow hs)
    have hp₀ := placed_beginThen ht hp
    have hp₁ := placed_beginElse ht ha hs hp
    have hn₁ := iha ha hs hp₀ (hn₀.beginThen hcond)
    have hclosed : (e₁.closeBlock e₀.bindings ∅).2.Numbered :=
      closeBlock_numbered ha hs hp₀ rfl hn₁
    have hn₂ := ihb hb (hs.mono (a.next_le_after s)) hp₁ hclosed.beginElse
    exact (closeElse_numbered ha hb hs (hp.test ht) hp₁ hn₂).endIf
  | whileLoop t b ih =>
    obtain ⟨cond, e₁, e₂, ht, hb, rfl⟩ := run_lower_whileLoop.1 h
    have hp₀ : Placed F s e.beginLoop := hp.mono _ (Nat.le_refl _) rfl
    obtain ⟨hn₁, hcond⟩ := Test.lower_numbered ht hn.beginLoop (hp₀.bindsBelow hs)
    have hp₁ := placed_beginBody ht hp
    have hn₂ := ih hb hs hp₁ (hn₁.beginBody hcond)
    exact (closeBlock_numbered hb hs hp₁ rfl hn₂).endLoop

end Command

/-! ## Programs -/

namespace Program

/-- The code of a program numbers its registers in the order in which they are first written. Every
other write is a copy from a newer register to an older one, so each register has one instruction
that computes its value. -/
theorem lower_disciplined {p : Program} {code : Bytecode} (h : p.lower = .ok code)
    (hsmall : p.emitted.registers ≤ UInt32.size) :
    code.Disciplined ∧ (∀ d, d ∈ code.destinations ↔ d.number.toNat < p.emitted.registers) ∧
      ∀ d ∈ code.destinations, ∃! k, code.Writes k d ∧ ¬ code.Reconciles k d := by
  obtain ⟨c, -, hlower, rfl, -⟩ := lower_eq_ok h
  have hn : Numbered p.emitted.finish.instructions.toList p.emitted.registers :=
    Command.lower_numbered hlower Scope.wf_empty .empty .empty
  have hdisciplined := Bytecode.disciplined_of_numbered hn hsmall
  refine ⟨hdisciplined, ?_, ?_⟩
  · intro d
    rw [Bytecode.destinations, hn.mem_written, Register.below_iff hsmall]
  · intro d hd
    exact Bytecode.existsUnique_writes hdisciplined
      (fun k d => Bytecode.not_mem_writtenBefore hn hsmall) hd

/-- The fourth register is written at the end of a block as well, and defined once all the same. -/
theorem lower_disciplined_mergingLoop :
    mergingLoop.lower = .ok mergingLoop.emitted.finish ∧ mergingLoop.emitted.registers = 11 ∧
      mergingLoop.emitted.finish.Disciplined ∧
      ∃! k, mergingLoop.emitted.finish.Writes k (.ofIndex 3) ∧
        ¬ mergingLoop.emitted.finish.Reconciles k (.ofIndex 3) := by
  have hok : mergingLoop.lower = .ok mergingLoop.emitted.finish := by decide +kernel
  have hcount : mergingLoop.emitted.registers = 11 := by decide +kernel
  obtain ⟨hdisciplined, hdense, hunique⟩ := lower_disciplined hok (by rw [hcount]; decide)
  refine ⟨hok, hcount, hdisciplined, hunique _ ((hdense _).2 ?_)⟩
  rw [hcount]
  decide

end Program

end RegisterBackend
