import RegisterBackend.Proofs.RegisterNumbering

/-!
# No register is owned by two names

A name owns the registers of its stack. Values can only be moved between blocks one by one if no
register is owned by two names (`Bindings.Apart`). A name that is given a register which nobody owns
keeps the names apart, and so does the end of a block, where a name is left with registers that it
owned or with a home that nobody else owns (`Bindings.Spare`).

Lowering hands out each register once, so what a command adds to the stacks was handed out while the
command was lowered (`Bindings.Advances`). This is why the names stay apart between and behind the
blocks of a branch: the homes that the first block prescribes were handed out in that block, and the
second block adds newer registers. Registers are numbered by words, so all of this holds as long as
no more of them have been handed out than there are words.

`Graph.Passes` relates the beginning of a run to each of its points: the beginning of every
statement, the beginning and the end of every block, and the place where the run ends or stops.
Between these points the bindings stay the same (`LowerM.KeepsBindings`).
-/

namespace RegisterBackend

namespace Bindings

variable {b b' b₁ b₂ entry : Bindings} {homes : NameMap Register} {x y : String} {q r : Register}

/-! ## Owners -/

/-- The register is in the stack of the name. -/
def Owns (b : Bindings) (x : String) (r : Register) : Prop :=
  ∃ s : Stack Register, b.owned[x]? = some s ∧ r ∈ s.toList

/-- No register is in the stacks of two names. -/
def Apart (b : Bindings) : Prop :=
  ∀ x y r, b.Owns x r → b.Owns y r → x = y

/-- The homes are distinct, and none is in the stack of another name. -/
structure Spare (b : Bindings) (homes : NameMap Register) : Prop where
  distinct : ∀ (x y : String) (r : Register), homes[x]? = some r → homes[y]? = some r → x = y
  owner : ∀ (x y : String) (r : Register), homes[x]? = some r → b.Owns y r → y = x

theorem owns_of_lookup (h : b.lookup x = some r) : b.Owns x r := by
  obtain ⟨s, hs, rfl⟩ := Option.map_eq_some_iff.1 h
  exact ⟨s, hs, List.mem_cons_self⟩

/-- A name that is not bound owns nothing. -/
theorem not_owns_of_lookup (h : b.lookup x = none) : ¬ b.Owns x r := by
  rintro ⟨s, hs, -⟩
  rw [lookup_eq_none.1 h] at hs
  cases hs

theorem not_owns_empty : ¬ Bindings.empty.Owns x r := by
  rintro ⟨s, hs, -⟩
  simp [Bindings.empty] at hs

/-- What a name owned before, it owns as long as its stack is not cut down. -/
theorem Above.owns (h : b.Above entry) (hx : entry.Owns x r) : b.Owns x r := by
  obtain ⟨s, hs, hr⟩ := hx
  obtain ⟨t, ht, hst⟩ := h x s hs
  exact ⟨t, ht, hst.subset hr⟩

theorem owns_congr (h : b.owned[x]? = b'.owned[x]?) : b.Owns x r ↔ b'.Owns x r := by
  rw [Owns, Owns, h]

/-- The name that is given a register owns it, too. -/
theorem owns_bind : (b.bind x r).Owns y q ↔ b.Owns y q ∨ y = x ∧ q = r := by
  by_cases hy : y = x
  · subst hy
    cases hs : b.owned[y]? with
    | none => simp [Owns, bind, hs, Stack.pushOn, Stack.singleton, Stack.toList]
    | some s => simp [Owns, bind, hs, Stack.pushOn, Stack.push, Stack.toList, or_comm]
  · have hne : x ≠ y := fun he => hy he.symm
    simp [Owns, bind, Std.TreeMap.getElem?_insert, hne, hy]

/-- Behind a block, a name owns what it owned at its end, or its home. -/
theorem owns_exitBlock (habove : b.Above entry) (h : (b.exitBlock entry homes).2.Owns x r) :
    b.Owns x r ∨ homes[x]? = some r := by
  obtain ⟨s, hs, hr⟩ := h
  cases hx : entry.owned[x]? with
  | some t =>
    rw [owned_exitBlock_of_bound habove hx] at hs
    cases hs
    exact .inl (habove.owns ⟨_, hx, hr⟩)
  | none =>
    rw [owned_exitBlock_of_unbound hx] at hs
    obtain ⟨t, ht, rfl⟩ := Option.map_eq_some_iff.1 hs
    rw [Stack.singleton, Stack.toList, List.mem_singleton] at hr
    cases hhome : homes[x]? with
    | none =>
      rw [hhome, Option.getD_none] at hr
      exact .inl ⟨t, ht, hr ▸ List.mem_cons_self⟩
    | some q =>
      rw [hhome, Option.getD_some] at hr
      exact .inr (congrArg some hr.symm)

/-- A name owns what it owned before it was adopted, or its home. -/
theorem owns_adopt (h : (b.adopt homes).Owns x r) : b.Owns x r ∨ homes[x]? = some r := by
  have hfold : ∀ (l : List (String × Register)) (b : Bindings),
      (l.foldl (fun b p => if (b.lookup p.1).isNone then b.bind p.1 p.2 else b) b).Owns x r →
        b.Owns x r ∨ (x, r) ∈ l := by
    intro l
    induction l with
    | nil => exact fun _ => .inl
    | cons p l ih =>
      intro b h
      rcases ih _ h with hown | hmem
      · dsimp only at hown
        split at hown
        · rcases owns_bind.1 hown with hown | ⟨rfl, rfl⟩
          · exact .inl hown
          · exact .inr List.mem_cons_self
        · exact .inl hown
      · exact .inr (List.mem_cons_of_mem _ hmem)
  rw [adopt, Std.TreeMap.foldl_eq_foldl_toList] at h
  rcases hfold _ _ h with hown | hmem
  · exact .inl hown
  · exact .inr (Std.TreeMap.mem_toList_iff_getElem?_eq_some.1 hmem)

/-- Between the blocks of a branch, names own what they owned before it. -/
theorem owns_forget_exitBlock (habove : b.Above entry) :
    ((b.exitBlock entry ∅).2.forget (b.exitBlock entry ∅).1.introduced.keys).Owns x r ↔
      entry.Owns x r :=
  owns_congr (owned_forget_exitBlock habove)

/-! ## Names that stay apart -/

theorem apart_empty : Bindings.empty.Apart :=
  fun _ _ _ h => absurd h not_owns_empty

theorem Apart.of_owns (h : b.Apart) (hsub : ∀ x r, b'.Owns x r → b.Owns x r) : b'.Apart :=
  fun x y r hx hy => h x y r (hsub x r hx) (hsub y r hy)

/-- A register that nobody owns can be given to a name. -/
theorem Apart.bind (h : b.Apart) (hr : ∀ y, ¬ b.Owns y r) : (b.bind x r).Apart := by
  intro y z q hy hz
  rcases owns_bind.1 hy with hy' | ⟨hyx, hqr⟩ <;> rcases owns_bind.1 hz with hz' | ⟨hzx, hqr'⟩
  · exact h y z q hy' hz'
  · exact absurd (hqr' ▸ hy') (hr y)
  · exact absurd (hqr ▸ hz') (hr z)
  · exact hyx.trans hzx.symm

/-- No homes are needed where no name is new. -/
theorem spare_empty (b : Bindings) : b.Spare ∅ := by
  constructor
  · intro x y r hx
    simp at hx
  · intro x y r hx
    simp at hx

/-- Names that own more only by their homes stay apart. -/
theorem Apart.of_spare (h : b.Apart) (hspare : b.Spare homes)
    (hsub : ∀ x r, b'.Owns x r → b.Owns x r ∨ homes[x]? = some r) : b'.Apart := by
  intro x y r hx hy
  rcases hsub x r hx with hx | hx <;> rcases hsub y r hy with hy | hy
  · exact h x y r hx hy
  · exact hspare.owner y x r hy hx
  · exact (hspare.owner x y r hx hy).symm
  · exact hspare.distinct x y r hx hy

theorem Apart.exitBlock (h : b.Apart) (habove : b.Above entry) (hspare : b.Spare homes) :
    (b.exitBlock entry homes).2.Apart :=
  h.of_spare hspare fun _ _ => owns_exitBlock habove

theorem Apart.adopt (h : b.Apart) (hspare : b.Spare homes) : (b.adopt homes).Apart :=
  h.of_spare hspare fun _ _ => owns_adopt

/-- What is a home before the end of a block is one behind it. -/
theorem Spare.exitBlock (h : b.Spare homes) (habove : b.Above entry) :
    (b.exitBlock entry homes).2.Spare homes := by
  refine ⟨h.distinct, fun x y r hx hy => ?_⟩
  rcases owns_exitBlock habove hy with hy | hy
  · exact h.owner x y r hx hy
  · exact h.distinct y x r hy hx

/-! ## Blocks -/

/-- What the bindings may become in a block: names are given registers that nobody owns, and blocks
within the block begin and end. -/
inductive Block : Bindings → Bindings → Prop
  | enter (entry : Bindings) : Block entry entry
  | bind {entry b : Bindings} {x : String} {r : Register} (h : Block entry b)
    (hr : ∀ y, ¬ b.Owns y r) : Block entry (b.bind x r)
  | nested {entry b inner : Bindings} (h : Block entry b) (hinner : Block b inner) :
    Block entry (inner.exitBlock b ∅).2

/-- In a block, names keep the registers that they owned before. -/
theorem Block.above (h : Block entry b) : b.Above entry := by
  induction h with
  | enter entry => exact .refl entry
  | bind _ _ ih => exact (above_bind _ _ _).trans ih
  | @nested entry b inner _ _ ih ihinner =>
    have hexit : (inner.exitBlock b ∅).2.Above b :=
      above_of_owned fun x s hs => owned_exitBlock_of_bound ihinner hs
    exact hexit.trans ih

/-- In a block, names stay apart. -/
theorem Block.apart (h : Block entry b) (hentry : entry.Apart) : b.Apart := by
  induction h with
  | enter => exact hentry
  | bind _ hr ih => exact (ih hentry).bind hr
  | nested _ hinner ih ihinner =>
    exact (ihinner (ih hentry)).exitBlock hinner.above (spare_empty _)

/-! ## Registers that are handed out -/

/-- Names own registers that were handed out, and no two of them the same. -/
structure Tidy (n : Nat) (b : Bindings) : Prop where
  below : ∀ x r, b.Owns x r → r.Below n
  apart : b.Apart

/-- Names kept the registers that they owned when `n` registers had been handed out, and what they
own besides was handed out later. -/
structure Advances (n m : Nat) (b b' : Bindings) : Prop where
  above : b'.Above b
  origin : ∀ x r, b'.Owns x r → b.Owns x r ∨ ∃ i, n ≤ i ∧ i < m ∧ r = .ofIndex i

variable {n m k : Nat}

theorem Tidy.mono (h : b.Tidy n) (hnm : n ≤ m) : b.Tidy m :=
  ⟨fun x r hx => (h.below x r hx).mono hnm, h.apart⟩

/-- A register that has not been handed out is owned by nobody. -/
theorem Tidy.not_owns (h : b.Tidy n) {i : Nat} (hni : n ≤ i) (hi : i < UInt32.size) :
    ¬ b.Owns x (.ofIndex i) := by
  intro hx
  obtain ⟨j, hj, hij⟩ := h.below x _ hx
  have := Register.ofIndex_inj hi (by omega) hij
  omega

theorem Advances.refl (n m : Nat) (b : Bindings) : Advances n m b b :=
  ⟨.refl b, fun _ _ => .inl⟩

/-- Names keep what they own over two stretches of code. -/
theorem Advances.trans (h : Advances n m b b₁) (h₁ : Advances m k b₁ b₂) (hnm : n ≤ m) (hmk : m ≤ k) :
    Advances n k b b₂ := by
  refine ⟨h₁.above.trans h.above, fun x r hx => ?_⟩
  rcases h₁.origin x r hx with hx | ⟨i, hmi, hik, rfl⟩
  · rcases h.origin x r hx with hx | ⟨i, hni, him, rfl⟩
    · exact .inl hx
    · exact .inr ⟨i, hni, by omega, rfl⟩
  · exact .inr ⟨i, by omega, hik, rfl⟩

/-- Bindings that have advanced are tidy if no register came to two names. -/
theorem Advances.tidy (h : Advances n m b b') (hb : b.Tidy n) (hnm : n ≤ m) (hapart : b'.Apart) :
    b'.Tidy m := by
  refine ⟨fun x r hx => ?_, hapart⟩
  rcases h.origin x r hx with hx | ⟨i, -, hi, rfl⟩
  · exact (hb.below x r hx).mono hnm
  · exact ⟨i, hi, rfl⟩

/-! ### Branches -/

/-- The homes that the first block of a branch prescribes were handed out in it. -/
theorem introduced_origin (h₁ : Advances n m entry b₁)
    (hx : (b₁.exitBlock entry ∅).1.introduced[x]? = some r) :
    b₁.Owns x r ∧ ∃ i, n ≤ i ∧ i < m ∧ r = .ofIndex i := by
  rw [introduced_exitBlock] at hx
  split at hx
  next => cases hx
  next hnone =>
    have hunbound : entry.lookup x = none := by simpa using hnone
    have hlookup : b₁.lookup x = some r := by simpa using hx
    have howns := owns_of_lookup hlookup
    exact ⟨howns, (h₁.origin x r howns).resolve_left (not_owns_of_lookup hunbound)⟩

/-- Between the blocks of a branch, names are apart as before it. -/
theorem tidy_between (hentry : entry.Tidy n) (h₁ : Advances n m entry b₁) (hnm : n ≤ m) :
    ((b₁.exitBlock entry ∅).2.forget (b₁.exitBlock entry ∅).1.introduced.keys).Tidy m := by
  have howns (x r) := @owns_forget_exitBlock b₁ entry x r h₁.above
  refine ⟨fun x r hx => ?_, hentry.apart.of_owns fun x r => (howns x r).1⟩
  exact (hentry.below x r ((howns x r).1 hx)).mono hnm

/-- The homes that the first block of a branch prescribes are owned by nobody at the end of the
second. -/
theorem spare_introduced (hentry : entry.Tidy n) (h₁ : Advances n m entry b₁) (hapart₁ : b₁.Apart)
    (h₂ : Advances m k ((b₁.exitBlock entry ∅).2.forget
      (b₁.exitBlock entry ∅).1.introduced.keys) b₂)
    (hmk : m ≤ k) (hk : k ≤ UInt32.size) : b₂.Spare (b₁.exitBlock entry ∅).1.introduced := by
  constructor
  · intro x y r hx hy
    exact hapart₁ x y r (introduced_origin h₁ hx).1 (introduced_origin h₁ hy).1
  · intro x y r hx hy
    obtain ⟨-, i, hni, him, rfl⟩ := introduced_origin h₁ hx
    rcases h₂.origin y _ hy with hy | ⟨j, hmj, hjk, hij⟩
    · exact absurd ((owns_forget_exitBlock h₁.above).1 hy) (hentry.not_owns hni (by omega))
    · have := Register.ofIndex_inj (by omega) (by omega) hij
      omega

end Bindings

/-! ## Commands -/

open Bindings

variable {e e₀ e₁ e₂ e' : Emitter}

/-- Names own registers that the emitter has handed out, and no two of them the same. -/
def Emitter.Tidy (e : Emitter) : Prop :=
  e.bindings.Tidy e.registers

theorem Emitter.tidy_empty : Emitter.empty.Tidy :=
  ⟨fun _ _ h => absurd h not_owns_empty, apart_empty⟩

theorem Emitter.Tidy.grows {w : Nat} (h : e.Tidy) (hg : e.Grows e₁ w) : e₁.Tidy := by
  rw [Emitter.Tidy, hg.bindings, hg.registers]
  exact Bindings.Tidy.mono h (Nat.le_add_right _ _)

namespace Command

/-- What an assignment adds to the stack of its name was handed out for its value. -/
theorem assign_advances {x : String} {v : Expr} {q : Register} (hv : v.lowerValue.run e = .ok q e₁)
    (he : e.Tidy) (hsmall : e₁.registers ≤ UInt32.size) :
    Advances e.registers e₁.registers e.bindings (e₁.bindings.bind x q) ∧
      (e₁.bindings.bind x q).Apart := by
  obtain ⟨hg, rfl⟩ := Expr.lowerValue_grows hv
  have hpos := v.valueWidth_pos
  have hregisters := hg.registers
  rw [hg.bindings]
  refine ⟨⟨above_bind _ _ _, fun y r hy => ?_⟩, he.apart.bind fun y => ?_⟩
  · rcases owns_bind.1 hy with hy | ⟨-, rfl⟩
    · exact .inl hy
    · exact .inr ⟨e.registers + v.valueWidth - 1, by omega, by omega, rfl⟩
  · exact Bindings.Tidy.not_owns he (by omega) (by omega)

/-- The names are apart where the blocks of a branch end and behind the branch. -/
theorem branch_advances (he₀ : e₀.Tidy)
    (h₁ : Advances e₀.registers e₁.registers e₀.bindings e₁.bindings) (hapart₁ : e₁.bindings.Apart)
    (h₂ : Advances e₁.registers e₂.registers (e₀.beginElse e₁).bindings e₂.bindings)
    (hapart₂ : e₂.bindings.Apart) (hle₁ : e₀.registers ≤ e₁.registers)
    (hle₂ : e₁.registers ≤ e₂.registers) (hsmall : e₂.registers ≤ UInt32.size) :
    (e₂.closeBlock e₀.bindings (e₁.closeBlock e₀.bindings ∅).1).2.Tidy ∧
      Advances e₀.registers e₂.registers e₀.bindings (e₀.endIf e₁ e₂).bindings ∧
      (e₀.endIf e₁ e₂).bindings.Apart := by
  have hspare := spare_introduced he₀ h₁ hapart₁ h₂ hle₂ hsmall
  have habove : e₂.bindings.Above e₀.bindings := h₂.above.trans (above_beginElse h₁.above)
  have hexit := hapart₂.exitBlock habove hspare
  -- what a name owns behind the second block is older than the branch, or was handed out in a block
  have horigin (x : String) (r : Register)
      (hx : e₂.bindings.Owns x r ∨ (e₁.closeBlock e₀.bindings ∅).1[x]? = some r) :
      e₀.bindings.Owns x r ∨ ∃ i, e₀.registers ≤ i ∧ i < e₂.registers ∧ r = .ofIndex i := by
    rcases hx with hx | hx
    · rcases h₂.origin x r hx with hx | ⟨i, hi, hi', rfl⟩
      · exact .inl ((owns_forget_exitBlock h₁.above).1 hx)
      · exact .inr ⟨i, by omega, hi', rfl⟩
    · obtain ⟨-, i, hi, hi', rfl⟩ := introduced_origin h₁ hx
      exact .inr ⟨i, hi, by omega, rfl⟩
  have hclosed : Advances e₀.registers e₂.registers e₀.bindings
      (e₂.bindings.exitBlock e₀.bindings (e₁.closeBlock e₀.bindings ∅).1).2 := by
    refine ⟨above_of_owned fun x s hs => owned_exitBlock_of_bound habove hs, fun x r hx => ?_⟩
    exact horigin x r (owns_exitBlock habove hx)
  refine ⟨hclosed.tidy he₀ (Nat.le_trans hle₁ hle₂) hexit, ?_, ?_⟩
  · refine ⟨above_endIf habove, fun x r hx => ?_⟩
    rcases owns_adopt hx with hx | hx
    · exact hclosed.origin x r hx
    · exact horigin x r (.inr hx)
  · exact hexit.adopt (hspare.exitBlock habove)

/-- The names are apart where a block without prescribed homes ends. -/
theorem block_advances (h : Advances e₀.registers e₁.registers e₀.bindings e₁.bindings)
    (hapart : e₁.bindings.Apart) :
    Advances e₀.registers e₁.registers e₀.bindings (e₁.closeBlock e₀.bindings ∅).2.bindings ∧
      (e₁.closeBlock e₀.bindings ∅).2.bindings.Apart := by
  refine ⟨⟨above_of_owned fun x s hs => owned_exitBlock_of_bound h.above hs, fun x r hx => ?_⟩, ?_⟩
  · rcases owns_exitBlock h.above hx with hx | hx
    · exact h.origin x r hx
    · simp at hx
  · exact hapart.exitBlock h.above (spare_empty _)

/-- What a command adds to the stacks of names was handed out while it was lowered, and the names
stay apart. -/
theorem lower_advances {c : Command} (h : c.lower.run e = .ok () e') (he : e.Tidy)
    (hsmall : e'.registers ≤ UInt32.size) :
    Advances e.registers e'.registers e.bindings e'.bindings ∧ e'.bindings.Apart := by
  induction c generalizing e e' with
  | skip =>
    cases run_lower_skip.1 h
    exact ⟨.refl _ _ _, he.apart⟩
  | print text =>
    cases run_lower_print.1 h
    exact ⟨.refl _ _ _, he.apart⟩
  | assign x v =>
    obtain ⟨q, e₁, hv, rfl⟩ := run_lower_assign.1 h
    exact assign_advances hv he hsmall
  | seq a b iha ihb =>
    obtain ⟨e₁, ha, hb⟩ := run_lower_seq.1 h
    have hle₁ := (lower_grows ha).1
    have hle₂ := (lower_grows hb).1
    obtain ⟨h₁, hapart₁⟩ := iha ha he (by omega)
    obtain ⟨h₂, hapart₂⟩ := ihb hb (h₁.tidy he (by omega) hapart₁) hsmall
    exact ⟨h₁.trans h₂ (by omega) (by omega), hapart₂⟩
  | ifElse t a b iha ihb =>
    obtain ⟨cond, e₀, e₁, e₂, ht, ha, hb, rfl⟩ := run_lower_ifElse.1 h
    have hg := (Test.lower_grows ht).1
    have he₀ := he.grows hg
    have hle₀ := hg.registers
    have hle₁ := (lower_grows ha).1
    have hle₂ := (lower_grows hb).1
    rw [Emitter.beginThen_registers] at hle₁
    rw [Emitter.beginElse_registers] at hle₂
    rw [Emitter.endIf_registers] at hsmall
    obtain ⟨h₁, hapart₁⟩ := iha ha he₀ (by omega)
    have hbetween := tidy_between he₀ h₁ (by omega)
    obtain ⟨h₂, hapart₂⟩ := ihb hb hbetween hsmall
    obtain ⟨-, hadvances, hapart⟩ :=
      branch_advances he₀ h₁ hapart₁ h₂ hapart₂ (by omega) (by omega) hsmall
    have htest : Advances e.registers e₀.registers e.bindings e₀.bindings :=
      hg.bindings ▸ .refl _ _ _
    have hall := htest.trans hadvances (by omega) (by omega)
    exact ⟨hall, hapart⟩
  | whileLoop t b ih =>
    obtain ⟨cond, e₁, e₂, ht, hb, rfl⟩ := run_lower_whileLoop.1 h
    have hg := (Test.lower_grows ht).1
    have he₁ : e₁.Tidy := Emitter.Tidy.grows (e := e.beginLoop) he hg
    have hle₁ := hg.registers
    have hle₂ := (lower_grows hb).1
    rw [Emitter.beginLoop_registers] at hle₁
    rw [Emitter.beginBody_registers] at hle₂
    rw [Emitter.endLoop_registers] at hsmall
    obtain ⟨h₂, hapart₂⟩ := ih hb he₁ hsmall
    obtain ⟨hadvances, hapart⟩ := block_advances h₂ hapart₂
    have htest : Advances e.registers e₁.registers e.bindings e₁.bindings :=
      hg.bindings ▸ .refl _ _ _
    have hall := htest.trans hadvances (by omega) (by omega)
    exact ⟨hall, hapart⟩

end Command

/-! ## Steps that leave the bindings alone -/

namespace LowerM

variable {α β : Type} {m : LowerM α}

/-- The bindings are the same as before, and no register was taken back. -/
def Still (e t : Emitter) : Prop :=
  t.bindings = e.bindings ∧ e.registers ≤ t.registers

/-- The steps leave the bindings alone, whether they end or stop. -/
def KeepsBindings (m : LowerM α) : Prop :=
  ∀ e, Meets (fun _ t => Still e t) m e fun _ t => Still e t

theorem Still.refl (e : Emitter) : Still e e :=
  ⟨rfl, Nat.le_refl _⟩

theorem Still.trans (h : Still e e₁) (h₁ : Still e₁ e₂) : Still e e₂ :=
  ⟨h₁.1.trans h.1, Nat.le_trans h.2 h₁.2⟩

theorem Still.tidy (h : Still e e₁) (he : e.Tidy) : e₁.Tidy := by
  rw [Emitter.Tidy, h.1]
  exact Bindings.Tidy.mono he h.2

namespace KeepsBindings

theorem pure (a : α) : KeepsBindings (pure a : LowerM α) :=
  fun e => .of_run_eq_ok rfl (.refl e)

theorem throw (err : Stop CompileError) : KeepsBindings (throw err : LowerM α) :=
  fun e => .throw (.refl e)

theorem get : KeepsBindings (get : LowerM Emitter) :=
  fun e => .of_run_eq_ok rfl (.refl e)

theorem emitTo (f : Emitter → Register → Instruction) :
    KeepsBindings (modifyGet fun e => e.emitTo (f e) : LowerM Register) :=
  fun _ => .of_run_eq_ok rfl ⟨rfl, Nat.le_succ _⟩

/-- Steps one after the other leave the bindings alone if each of them does. -/
theorem bind {f : α → LowerM β} (hm : KeepsBindings m) (hf : ∀ a, KeepsBindings (f a)) :
    KeepsBindings (m >>= f) := by
  intro e
  refine (hm e).bind fun a t ht => ?_
  exact ((hf a t).mono fun _ u hu => ht.trans hu).mono_error fun _ u hu => ht.trans hu

end KeepsBindings

end LowerM

namespace Graph

open LowerM

variable {g : Graph} {depth : Nat} {id : NodeId} {ids a b : List NodeId} {cond : Register}
  {err : Stop CompileError}

/-- Looking a node up leaves the bindings alone. -/
theorem nodeAt_keepsBindings (g : Graph) (id : NodeId) : KeepsBindings (nodeAt g id) := by
  unfold nodeAt
  split
  next => exact .pure _
  next => exact .throw _

/-- The code of an evaluable binds no names. -/
theorem lowerExpr_keepsBindings (g : Graph) (depth : Nat) (id : NodeId) :
    KeepsBindings (g.lowerExpr depth id) := by
  induction depth generalizing id with
  | zero => exact .throw _
  | succ depth ih =>
    refine (nodeAt_keepsBindings g id).bind fun node => ?_
    cases node with
    | constant value =>
      cases value with
      | scalar value => exact .emitTo _
      | array elements => exact .throw _
    | var v =>
      dsimp only
      split
      next => exact .throw _
      next =>
        refine KeepsBindings.get.bind fun e => ?_
        split
        next => exact .pure _
        next => exact .throw _
    | arithmetic op lhs rhs =>
      exact (ih lhs).bind fun left => (ih rhs).bind fun right => .emitTo _
    | _ => exact .throw _

/-- The code of a condition binds no names. -/
theorem lowerCondition_keepsBindings (g : Graph) (depth : Nat) (id : NodeId) :
    KeepsBindings (g.lowerCondition depth id) := by
  refine (nodeAt_keepsBindings g id).bind fun node => ?_
  cases node with
  | comparison op lhs rhs =>
    refine (lowerExpr_keepsBindings g depth lhs).bind fun left => ?_
    exact (lowerExpr_keepsBindings g depth rhs).bind fun right => .emitTo _
  | _ => exact .throw _

/-- Finding the target of an assignment binds no names yet. -/
theorem lowerTarget_keepsBindings (g : Graph) (id : NodeId) : KeepsBindings (g.lowerTarget id) := by
  refine (nodeAt_keepsBindings g id).bind fun node => ?_
  cases node with
  | var v =>
    dsimp only
    split
    next => exact .throw _
    next => exact .pure _
  | _ => exact .throw _

/-- The code of the value of an assignment binds no names yet. -/
theorem lowerValue_keepsBindings (g : Graph) (depth : Nat) (id : NodeId) :
    KeepsBindings (g.lowerValue depth id) := by
  refine (nodeAt_keepsBindings g id).bind fun node => ?_
  split
  next => exact (lowerExpr_keepsBindings g depth id).bind fun src => .emitTo _
  next => exact lowerExpr_keepsBindings g depth id

/-! ## The points of a run -/

/-- The statement is a branch, and its condition was lowered. -/
def AtBranch (g : Graph) (depth : Nat) (id : NodeId) (e : Emitter) (cond : Register) (e₀ : Emitter)
    (a b : List NodeId) : Prop :=
  ∃ condition, g.node? id = some (.ifElse condition a b) ∧
    (g.lowerCondition depth condition).run e = .ok cond e₀

/-- The statement is a loop, and its condition was lowered. -/
def AtLoop (g : Graph) (depth : Nat) (id : NodeId) (e : Emitter) (cond : Register) (e₁ : Emitter)
    (body : List NodeId) : Prop :=
  ∃ condition, g.node? id = some (.whileLoop condition body) ∧
    (g.lowerCondition depth condition).run e.beginLoop = .ok cond e₁

/-- Lowering a block from one emitter passes through another: at the beginning of a statement, at
the beginning or at the end of a block in one of its statements, or behind its last statement. -/
inductive Passes (g : Graph) : Nat → List NodeId → Emitter → Emitter → Prop
  | here {depth : Nat} {ids : List NodeId} {e : Emitter} : Passes g depth ids e e
  | next {depth : Nat} {id : NodeId} {ids : List NodeId} {e e₁ e' : Emitter}
    (hfirst : (g.lowerStatement depth id).run e = .ok () e₁) (h : Passes g depth ids e₁ e') :
    Passes g depth (id :: ids) e e'
  | inThen {depth : Nat} {id : NodeId} {ids a b : List NodeId} {cond : Register} {e e₀ e' : Emitter}
    (hat : g.AtBranch depth id e cond e₀ a b) (h : Passes g depth a (e₀.beginThen cond) e') :
    Passes g (depth + 1) (id :: ids) e e'
  | closeThen {depth : Nat} {id : NodeId} {ids a b : List NodeId} {cond : Register}
    {e e₀ e₁ : Emitter} (hat : g.AtBranch depth id e cond e₀ a b)
    (ha : (a.forM (g.lowerStatement depth)).run (e₀.beginThen cond) = .ok () e₁) :
    Passes g (depth + 1) (id :: ids) e (e₁.closeBlock e₀.bindings ∅).2
  | inElse {depth : Nat} {id : NodeId} {ids a b : List NodeId} {cond : Register}
    {e e₀ e₁ e' : Emitter} (hat : g.AtBranch depth id e cond e₀ a b)
    (ha : (a.forM (g.lowerStatement depth)).run (e₀.beginThen cond) = .ok () e₁)
    (h : Passes g depth b (e₀.beginElse e₁) e') : Passes g (depth + 1) (id :: ids) e e'
  | closeElse {depth : Nat} {id : NodeId} {ids a b : List NodeId} {cond : Register}
    {e e₀ e₁ e₂ : Emitter} (hat : g.AtBranch depth id e cond e₀ a b)
    (ha : (a.forM (g.lowerStatement depth)).run (e₀.beginThen cond) = .ok () e₁)
    (hb : (b.forM (g.lowerStatement depth)).run (e₀.beginElse e₁) = .ok () e₂) :
    Passes g (depth + 1) (id :: ids) e
      (e₂.closeBlock e₀.bindings (e₁.closeBlock e₀.bindings ∅).1).2
  | inBody {depth : Nat} {id : NodeId} {ids body : List NodeId} {cond : Register}
    {e e₁ e' : Emitter} (hat : g.AtLoop depth id e cond e₁ body)
    (h : Passes g depth body (e.beginBody e₁ cond) e') : Passes g (depth + 1) (id :: ids) e e'
  | closeBody {depth : Nat} {id : NodeId} {ids body : List NodeId} {cond : Register}
    {e e₁ e₂ : Emitter} (hat : g.AtLoop depth id e cond e₁ body)
    (hbody : (body.forM (g.lowerStatement depth)).run (e.beginBody e₁ cond) = .ok () e₂) :
    Passes g (depth + 1) (id :: ids) e (e₂.closeBlock e₁.bindings ∅).2

theorem AtBranch.still (h : g.AtBranch depth id e cond e₀ a b) : Still e e₀ := by
  obtain ⟨condition, -, hcond⟩ := h
  exact (lowerCondition_keepsBindings g depth condition e).ok hcond

theorem AtLoop.still (h : g.AtLoop depth id e cond e₁ a) : Still e e₁ := by
  obtain ⟨condition, -, hcond⟩ := h
  exact (lowerCondition_keepsBindings g depth condition e.beginLoop).ok hcond

/-- A statement that was lowered is a command. -/
theorem exists_lower_statement (h : (g.lowerStatement depth id).run e = .ok () e') :
    ∃ c : Command, c.lower.run e = .ok () e' := by
  obtain ⟨c, hc⟩ := exists_command? h
  exact ⟨c, lowerStatement_eq hc ▸ h⟩

/-- A block that was lowered is a command. -/
theorem exists_lower_block (h : (ids.forM (g.lowerStatement depth)).run e = .ok () e') :
    ∃ c : Command, c.lower.run e = .ok () e' := by
  obtain ⟨c, hc⟩ := exists_block? (fun _ _ _ => exists_command?) h
  exact ⟨c, forM_eq_of_block? (fun _ _ => lowerStatement_eq) hc ▸ h⟩

/-- Registers are never taken back while a block is lowered. -/
theorem registers_le_of_block (h : (ids.forM (g.lowerStatement depth)).run e = .ok () e') :
    e.registers ≤ e'.registers := by
  obtain ⟨c, hc⟩ := exists_lower_block h
  rw [(Command.lower_grows hc).1]
  exact Nat.le_add_right _ _

/-- Along a run registers are handed out and none is taken back. -/
theorem Passes.registers_le (h : g.Passes depth ids e e') : e.registers ≤ e'.registers := by
  induction h with
  | here => exact Nat.le_refl _
  | next hfirst _ ih =>
    obtain ⟨c, hc⟩ := exists_lower_statement hfirst
    have hle := (Command.lower_grows hc).1
    omega
  | inThen hat _ ih => exact Nat.le_trans hat.still.2 ih
  | closeThen hat ha =>
    have hle := registers_le_of_block ha
    exact Nat.le_trans hat.still.2 hle
  | inElse hat ha _ ih =>
    have hle := registers_le_of_block ha
    exact Nat.le_trans hat.still.2 (Nat.le_trans hle ih)
  | closeElse hat ha hb =>
    have hle₁ := registers_le_of_block ha
    have hle₂ := registers_le_of_block hb
    exact Nat.le_trans hat.still.2 (Nat.le_trans hle₁ hle₂)
  | inBody hat _ ih => exact Nat.le_trans hat.still.2 ih
  | closeBody hat hbody =>
    have hle := registers_le_of_block hbody
    exact Nat.le_trans hat.still.2 hle

/-- What a block adds to the stacks of names was handed out while it was lowered. -/
theorem block_lowered (h : (ids.forM (g.lowerStatement depth)).run e = .ok () e') (he : e.Tidy)
    (hsmall : e'.registers ≤ UInt32.size) :
    Advances e.registers e'.registers e.bindings e'.bindings ∧ e'.bindings.Apart := by
  obtain ⟨c, hc⟩ := exists_lower_block h
  exact Command.lower_advances hc he hsmall

/-- At every point of a run that starts with names apart, names are apart. -/
theorem Passes.tidy (h : g.Passes depth ids e e') (he : e.Tidy)
    (hsmall : e'.registers ≤ UInt32.size) : e'.Tidy := by
  induction h with
  | here => exact he
  | next hfirst h ih =>
    obtain ⟨c, hc⟩ := exists_lower_statement hfirst
    have hle := (Command.lower_grows hc).1
    have hle' := h.registers_le
    obtain ⟨hadvances, hapart⟩ := Command.lower_advances hc he (by omega)
    exact ih (hadvances.tidy he (by omega) hapart) hsmall
  | inThen hat _ ih => exact ih (hat.still.tidy he) hsmall
  | closeThen hat ha =>
    have he₀ := hat.still.tidy he
    have hle := registers_le_of_block ha
    obtain ⟨h₁, hapart₁⟩ := block_lowered ha he₀ hsmall
    obtain ⟨hadvances, hapart⟩ := Command.block_advances h₁ hapart₁
    exact hadvances.tidy he₀ hle hapart
  | inElse hat ha h ih =>
    have he₀ := hat.still.tidy he
    have hle₁ := registers_le_of_block ha
    have hle₂ := h.registers_le
    obtain ⟨h₁, -⟩ := block_lowered ha he₀ (Nat.le_trans hle₂ hsmall)
    have hbetween := tidy_between he₀ h₁ hle₁
    exact ih hbetween hsmall
  | closeElse hat ha hb =>
    have he₀ := hat.still.tidy he
    have hle₁ := registers_le_of_block ha
    have hle₂ := registers_le_of_block hb
    obtain ⟨h₁, hapart₁⟩ := block_lowered ha he₀ (Nat.le_trans hle₂ hsmall)
    have hbetween := tidy_between he₀ h₁ hle₁
    obtain ⟨h₂, hapart₂⟩ := block_lowered hb hbetween hsmall
    exact (Command.branch_advances he₀ h₁ hapart₁ h₂ hapart₂ hle₁ hle₂ hsmall).1
  | inBody hat _ ih => exact ih (hat.still.tidy he) hsmall
  | closeBody hat hbody =>
    have he₁ := hat.still.tidy he
    obtain ⟨h₂, hapart₂⟩ := block_lowered hbody he₁ hsmall
    obtain ⟨hadvances, hapart⟩ := Command.block_advances h₂ hapart₂
    have hle := registers_le_of_block hbody
    exact hadvances.tidy he₁ hle hapart

/-! ## The end of a run -/

/-- Lowering that succeeds passes through its end. -/
theorem passes_of_ok (h : (ids.forM (g.lowerStatement depth)).run e = .ok () e') :
    g.Passes depth ids e e' := by
  induction ids generalizing e with
  | nil =>
    cases h
    exact .here
  | cons id ids ih =>
    obtain ⟨e₁, hfirst, hrest⟩ := run_forM_cons_eq_ok.1 h
    exact .next hfirst (ih hrest)

/-- Lowering stops at the end of steps that leave the bindings of a point alone. -/
def StopsAt (g : Graph) (depth : Nat) (ids : List NodeId) (e t : Emitter) : Prop :=
  ∃ e', g.Passes depth ids e e' ∧ Still e' t

theorem StopsAt.of_still {t : Emitter} (h : Still e t) : g.StopsAt depth ids e t :=
  ⟨e, .here, h⟩

/-- A block stops where one of its statements does. -/
theorem block_stopsAt {t : Emitter}
    (hstatement : ∀ id ids e, (g.lowerStatement depth id).run e = .error err t →
      g.StopsAt depth (id :: ids) e t)
    (h : (ids.forM (g.lowerStatement depth)).run e = .error err t) : g.StopsAt depth ids e t := by
  induction ids generalizing e with
  | nil => cases h
  | cons id ids ih =>
    rcases run_forM_cons_eq_error.1 h with hfirst | ⟨e₁, hfirst, hrest⟩
    · exact hstatement id ids e hfirst
    · obtain ⟨e', hpasses, hstill⟩ := ih hrest
      exact ⟨e', .next hfirst hpasses, hstill⟩

/-- Lowering of a statement stops at a point of the run, as far as the bindings go. -/
theorem statement_stopsAt {t : Emitter} (h : (g.lowerStatement depth id).run e = .error err t) :
    g.StopsAt depth (id :: ids) e t := by
  induction depth generalizing id ids e with
  | zero =>
    cases h
    exact .of_still (.refl _)
  | succ depth ih =>
    have hblock (ids : List NodeId) (e : Emitter)
        (h : (ids.forM (g.lowerStatement depth)).run e = .error err t) :
        g.StopsAt depth ids e t := block_stopsAt (fun _ _ _ => ih) h
    rw [lowerStatement] at h
    cases hnode : g.node? id with
    | none =>
      simp only [nodeAt, hnode] at h
      cases h
      exact .of_still (.refl _)
    | some node =>
      rw [nodeAt_eq hnode, pure_bind] at h
      cases node with
      | assign target value =>
        rcases run_bind_eq_error.1 h with htarget | ⟨v, e₁, htarget, h⟩
        · exact .of_still ((lowerTarget_keepsBindings g target e).error htarget)
        · have hstill := (lowerTarget_keepsBindings g target e).ok htarget
          rcases run_bind_eq_error.1 h with hvalue | ⟨_, _, -, h⟩
          · exact .of_still (hstill.trans ((lowerValue_keepsBindings g depth value e₁).error hvalue))
          · cases h
      | ifElse condition a b =>
        rcases run_bind_eq_error.1 h with hcond | ⟨cond, e₀, hcond, h⟩
        · exact .of_still ((lowerCondition_keepsBindings g depth condition e).error hcond)
        · have hat : g.AtBranch depth id e cond e₀ a b := ⟨condition, hnode, hcond⟩
          rcases run_lowerIfElse_eq_error h with ha | ⟨e₁, ha, hb⟩
          · obtain ⟨e', hpasses, hstill⟩ := hblock _ _ ha
            exact ⟨e', .inThen hat hpasses, hstill⟩
          · obtain ⟨e', hpasses, hstill⟩ := hblock _ _ hb
            exact ⟨e', .inElse hat ha hpasses, hstill⟩
      | whileLoop condition body =>
        rcases run_lowerWhile_eq_error h with hcond | ⟨cond, e₁, hcond, hbody⟩
        · have hstill := (lowerCondition_keepsBindings g depth condition e.beginLoop).error hcond
          exact .of_still hstill
        · have hat : g.AtLoop depth id e cond e₁ body := ⟨condition, hnode, hcond⟩
          obtain ⟨e', hpasses, hstill⟩ := hblock _ _ hbody
          exact ⟨e', .inBody hat hpasses, hstill⟩
      | functionDef => cases h
      | debug => cases h
      | _ =>
        cases h
        exact .of_still (.refl _)

end Graph

namespace Program

/-- Lowering the program passes through an emitter, or ends or stops there. -/
def Reaches (p : Program) (e : Emitter) : Prop :=
  p.graph.Passes p.graph.depth p.body .empty e ∨ p.lowerBody.run .empty = .ok () e ∨
    ∃ err, p.lowerBody.run .empty = .error err e

/-- No register is owned by two names, at any point of lowering a program and where it ends. -/
theorem Reaches.apart {p : Program} (h : p.Reaches e) (hsmall : e.registers ≤ UInt32.size) :
    e.bindings.Apart := by
  rcases h with hpasses | hok | ⟨err, herror⟩
  · exact (hpasses.tidy Emitter.tidy_empty hsmall).apart
  · exact ((Graph.passes_of_ok hok).tidy Emitter.tidy_empty hsmall).apart
  · obtain ⟨e', hpasses, hstill⟩ := Graph.block_stopsAt
      (fun _ _ _ => Graph.statement_stopsAt) herror
    have htidy := hpasses.tidy Emitter.tidy_empty (Nat.le_trans hstill.2 hsmall)
    exact (hstill.tidy htidy).apart

end Program

end RegisterBackend
