import RegisterBackend.Proofs.BlockExit
import RegisterBackend.Proofs.Cells
import RegisterBackend.Proofs.Layout

/-!
# The registers of the cells

A list of register numbers places the cells: cell `k` is the register at index `k` of the list. The
bindings of an emitter agree with a scope if every name is bound to the place of the cell in which
it is found (`Placed`). `Command.placed_after` says that lowering keeps this, with the homes of the
command as the places of its cells.
-/

namespace RegisterBackend

/-- The register of a cell. -/
def place (F : List Nat) (k : Nat) : Option Register :=
  F[k]?.map .ofIndex

/-- More places do not change those that there are. -/
theorem place_append {F : List Nat} {k : Nat} (h : k < F.length) (G : List Nat) :
    place (F ++ G) k = place F k := by
  simp [place, List.getElem?_append_left h]

/-- Every cell that a list of places has an entry for has a register. -/
theorem exists_place {F : List Nat} {k : Nat} (h : k < F.length) :
    ∃ i ∈ F, F[k]? = some i ∧ place F k = some (.ofIndex i) :=
  ⟨F[k], List.getElem_mem h, List.getElem?_eq_getElem h, by
    simp [place, List.getElem?_eq_getElem h]⟩

/-- Every name is bound to the place of the cell in which it is found, and the cells in use are
placed in registers that have been handed out. -/
structure Placed (F : List Nat) (s : Scope) (e : Emitter) : Prop where
  length : F.length = s.next
  lt : ∀ i ∈ F, i < e.registers
  lookup : ∀ x, e.bindings.lookup x = (s.cell x).bind (place F)

namespace Placed

variable {F : List Nat} {s : Scope} {e : Emitter} {x : String}

/-- Nothing is bound at the beginning. -/
theorem empty : Placed [] .empty .empty where
  length := rfl
  lt := nofun
  lookup x := by simp [Emitter.empty, Bindings.empty, Bindings.lookup, Scope.empty]

/-- A name that is found nowhere is not bound. -/
theorem lookup_of_none (h : Placed F s e) (hx : s.cell x = none) : e.bindings.lookup x = none := by
  rw [h.lookup, hx, Option.bind_none]

/-- A name that is found in a cell is bound to its place. -/
theorem lookup_of_some (h : Placed F s e) (hs : s.WF) {k : Nat} (hx : s.cell x = some k) :
    ∃ i ∈ F, F[k]? = some i ∧ e.bindings.lookup x = some (.ofIndex i) := by
  obtain ⟨i, hi, hk, hplace⟩ := exists_place (F := F) (by rw [h.length]; exact hs.lt_next hx)
  exact ⟨i, hi, hk, by rw [h.lookup, hx, Option.bind_some, hplace]⟩

/-- A bound name is found in the cell of its register. -/
theorem of_lookup (h : Placed F s e) (hs : s.WF) {q : Register}
    (hx : e.bindings.lookup x = some q) :
    ∃ k i, s.cell x = some k ∧ i ∈ F ∧ F[k]? = some i ∧ q = .ofIndex i := by
  cases hk : s.cell x with
  | none =>
    rw [h.lookup_of_none hk] at hx
    cases hx
  | some k =>
    obtain ⟨i, hi, hik, hlookup⟩ := h.lookup_of_some hs hk
    rw [hlookup] at hx
    cases hx
    exact ⟨k, i, rfl, hi, hik, rfl⟩

/-- Handing out registers keeps the places of the cells. -/
theorem mono (h : Placed F s e) (e₁ : Emitter) (hreg : e.registers ≤ e₁.registers)
    (hbind : e₁.bindings = e.bindings) : Placed F s e₁ where
  length := h.length
  lt i hi := Nat.lt_of_lt_of_le (h.lt i hi) hreg
  lookup x := by rw [hbind, h.lookup]

end Placed

/-- A name found in a cell in use is found in the same register with more cells in use. -/
theorem Scope.WF.bind_place_append {s : Scope} (hs : s.WF) {F : List Nat} (h : F.length = s.next)
    (G : List Nat) (x : String) : (s.cell x).bind (place (F ++ G)) = (s.cell x).bind (place F) := by
  cases hx : s.cell x with
  | none => rfl
  | some k => exact place_append (by rw [h]; exact hs.lt_next hx) G

variable {F : List Nat} {s : Scope} {e e₁ e₂ : Emitter}

/-- A comparison keeps the places of the cells. -/
theorem Placed.test (h : Placed F s e) {t : Test} {cond : Register}
    (ht : t.lower.run e = .ok cond e₁) : Placed F s e₁ := by
  have hg := (Test.lower_grows ht).1
  exact h.mono e₁ (by rw [hg.registers]; omega) hg.bindings

/-- The comparison of a loop keeps the places of the cells. -/
theorem Placed.loopTest (h : Placed F s e) {t : Test} {cond : Register}
    (ht : t.lower.run e.beginLoop = .ok cond e₁) : Placed F s e₁ :=
  (h.mono e.beginLoop (Nat.le_refl _) rfl).test ht

/-- Between the blocks of a branch, names are found as before it. -/
theorem Placed.beginElse (hs : s.WF) (hlen : F.length = s.next) {G : List Nat} {s₁ : Scope}
    (h : Placed F s e) (h₁ : Placed (F ++ G) s₁ e₁) (habove : e₁.bindings.Above e.bindings) :
    Placed (F ++ G) ⟨s₁.next, s.cell⟩ (e.beginElse e₁) where
  length := h₁.length
  lt := h₁.lt
  lookup x := by
    have howned : (e.beginElse e₁).bindings.owned[x]? = e.bindings.owned[x]? :=
      Bindings.owned_forget_exitBlock habove
    have hlookup : (e.beginElse e₁).bindings.lookup x = e.bindings.lookup x := by
      rw [Bindings.lookup, howned, Bindings.lookup]
    rw [hlookup, h.lookup, hs.bind_place_append hlen]

/-- The bindings between the blocks of a branch are above those before it. -/
theorem above_beginElse (habove : e₁.bindings.Above e.bindings) :
    (e.beginElse e₁).bindings.Above e.bindings :=
  Bindings.above_of_owned fun _ _ hx => (Bindings.owned_forget_exitBlock habove).trans hx

/-- The names that the first block of a branch introduced, with their registers. -/
theorem introduced_closeBlock (x : String) : (e₁.closeBlock e.bindings ∅).1[x]? =
    if (e.bindings.lookup x).isSome then none else e₁.bindings.lookup x := by
  have h := Bindings.introduced_exitBlock e₁.bindings e.bindings ∅ x
  simp only [Std.TreeMap.getElem?_emptyc, Option.getD_none, Option.map_id'] at h
  exact h

/-- Behind a branch, names are found as before it, or else as behind the first block, or else as
behind the second. -/
theorem lookup_endIf (habove : e₂.bindings.Above e.bindings) (x : String) :
    (e.endIf e₁ e₂).bindings.lookup x = (e.bindings.lookup x).or
      ((e₁.bindings.lookup x).or (e₂.bindings.lookup x)) := by
  have h : (e.endIf e₁ e₂).bindings.lookup x =
      ((e₂.bindings.exitBlock e.bindings (e₁.closeBlock e.bindings ∅).1).2.adopt
        (e₁.closeBlock e.bindings ∅).1).lookup x := rfl
  rw [h, Bindings.lookup_adopt, Bindings.lookup_exitBlock habove, introduced_closeBlock]
  cases e.bindings.lookup x <;> cases e₁.bindings.lookup x <;> cases e₂.bindings.lookup x <;> simp

/-- The bindings behind a branch are above those before it. -/
theorem above_endIf (habove : e₂.bindings.Above e.bindings) :
    (e.endIf e₁ e₂).bindings.Above e.bindings :=
  Bindings.above_of_owned fun _ _ hx =>
    Bindings.owned_adopt (Bindings.owned_exitBlock_of_bound habove hx)

/-- Behind a loop, names are found as before it, or else as behind the body. -/
theorem lookup_endLoop (habove : e₂.bindings.Above e₁.bindings) (x : String) :
    (e.endLoop e₁ e₂).bindings.lookup x =
      (e₁.bindings.lookup x).or (e₂.bindings.lookup x) := by
  have h : (e.endLoop e₁ e₂).bindings.lookup x =
      (e₂.bindings.exitBlock e₁.bindings ∅).2.lookup x := rfl
  rw [h, Bindings.lookup_exitBlock habove]
  simp

/-- The bindings behind a loop are above those before it. -/
theorem above_endLoop (habove : e₂.bindings.Above e₁.bindings) :
    (e.endLoop e₁ e₂).bindings.Above e₁.bindings :=
  Bindings.above_of_owned fun _ _ hx => Bindings.owned_exitBlock_of_bound habove hx

/-- A name is found as one scope says, or else as another one does. -/
theorem bind_join (f g : String → Option Nat) (p : Nat → Option Register) (x : String)
    (hf : ∀ k, f x = some k → (p k).isSome) :
    (Scope.join f g x).bind p = ((f x).bind p).or ((g x).bind p) := by
  unfold Scope.join
  cases hx : f x with
  | none => simp
  | some k =>
    obtain ⟨r, hr⟩ := Option.isSome_iff_exists.1 (hf k hx)
    simp [hr]

/-- The cells in which names are found have registers. -/
theorem Scope.WF.isSome_place (hs : s.WF) (h : s.next ≤ F.length) {x : String} {k : Nat}
    (hx : s.cell x = some k) : (place F k).isSome := by
  obtain ⟨i, -, -, hplace⟩ := exists_place (F := F) (Nat.lt_of_lt_of_le (hs.lt_next hx) h)
  simp [hplace]

/-- Lowering a command keeps names bound to the places of their cells, and the registers that names
owned before. -/
theorem Command.placed_after {c : Command} {e e' : Emitter} {F : List Nat} {s : Scope}
    (hlower : c.lower.run e = .ok () e') (hs : s.WF) (h : Placed F s e) :
    Placed (F ++ c.homes e.registers) (c.after s) e' ∧ e'.bindings.Above e.bindings := by
  induction c generalizing e e' F s with
  | skip =>
    cases run_lower_skip.1 hlower
    exact ⟨by simpa [homes, after] using h, .refl _⟩
  | print text =>
    cases run_lower_print.1 hlower
    refine ⟨?_, .refl _⟩
    rw [homes, List.append_nil]
    exact h.mono _ (Nat.le_refl _) rfl
  | assign x v =>
    obtain ⟨q, e₁, hv, rfl⟩ := run_lower_assign.1 hlower
    obtain ⟨hg, hq⟩ := Expr.lowerValue_grows hv
    have hpos := v.valueWidth_pos
    refine ⟨⟨?_, ?_, ?_⟩, ?_⟩
    · simp [homes, after, h.length]
    · intro i hi
      simp only [homes, List.mem_append, List.mem_singleton] at hi
      show i < e₁.registers
      rw [hg.registers]
      rcases hi with hi | rfl
      · exact Nat.lt_of_lt_of_le (h.lt i hi) (Nat.le_add_right _ _)
      · omega
    · intro y
      show (e₁.bindings.bind x q).lookup y = _
      rw [Bindings.lookup_bind, hg.bindings]
      by_cases hy : y = x
      · subst hy
        simp [after, place, homes, hq, ← h.length]
      · rw [if_neg hy, h.lookup]
        simp only [after, Function.update_of_ne hy]
        exact (hs.bind_place_append h.length _ y).symm
    · rw [← hg.bindings]
      exact Bindings.above_bind _ _ _
  | seq a b iha ihb =>
    obtain ⟨e₁, ha, hb⟩ := run_lower_seq.1 hlower
    obtain ⟨hpa, habove⟩ := iha ha hs h
    obtain ⟨hpb, habove'⟩ := ihb hb (wf_after hs) hpa
    rw [(lower_grows ha).1, List.append_assoc] at hpb
    exact ⟨hpb, habove'.trans habove⟩
  | ifElse t a b iha ihb =>
    obtain ⟨cond, e₀, e₁, e₂, ht, ha, hb, rfl⟩ := run_lower_ifElse.1 hlower
    have hg := (Test.lower_grows ht).1
    have h₀ := h.test ht
    obtain ⟨h₁, habove₁⟩ := iha ha hs (h₀.mono (e₀.beginThen cond) (Nat.le_refl _) rfl)
    have hnext := a.next_le_after s
    obtain ⟨h₂, habove₂⟩ := ihb hb (hs.mono hnext)
      (Placed.beginElse hs h.length h₀ h₁ habove₁)
    have habove : e₂.bindings.Above e₀.bindings := habove₂.trans (above_beginElse habove₁)
    have hreg₁ : (e₀.beginElse e₁).registers = e.registers + t.width + a.width := by
      simp [(lower_grows ha).1, hg.registers]
    simp only [Emitter.beginThen_registers, hg.registers] at h₁
    simp only [hreg₁, Emitter.beginThen_registers, hg.registers, List.append_assoc] at h₂
    refine ⟨⟨h₂.length, h₂.lt, fun x => ?_⟩, hg.bindings ▸ above_endIf habove⟩
    have hlen₁ := h₁.length
    have hlen₂ := h₂.length
    have hnext₂ := b.next_le_after ⟨(a.after s).next, s.cell⟩
    have hcells : (s.next ≤ (F ++ (a.homes (e.registers + t.width) ++
        b.homes (e.registers + t.width + a.width))).length) := by
      rw [hlen₂]
      exact Nat.le_trans hnext hnext₂
    rw [lookup_endIf habove, h₀.lookup, h₁.lookup, h₂.lookup]
    simp only [after, homes]
    rw [bind_join _ _ _ _ fun k hk => hs.isSome_place hcells hk,
      bind_join _ _ _ _ fun k hk => (wf_after hs).isSome_place (by rw [hlen₂]; exact hnext₂) hk,
      hs.bind_place_append h.length, ← List.append_assoc,
      (wf_after hs).bind_place_append hlen₁]
  | whileLoop t b ih =>
    obtain ⟨cond, e₁, e₂, ht, hb, rfl⟩ := run_lower_whileLoop.1 hlower
    have hg := (Test.lower_grows ht).1
    have h₁ := h.loopTest ht
    obtain ⟨h₂, habove⟩ := ih hb hs (h₁.mono (e.beginBody e₁ cond) (Nat.le_refl _) rfl)
    rw [Emitter.beginBody_bindings] at habove
    simp only [Emitter.beginBody_registers, hg.registers, Emitter.beginLoop_registers] at h₂
    refine ⟨⟨h₂.length, h₂.lt, fun x => ?_⟩, ?_⟩
    · have hcells : s.next ≤ (F ++ b.homes (e.registers + t.width)).length := by
        rw [h₂.length]
        exact b.next_le_after s
      rw [lookup_endLoop habove, h₁.lookup, h₂.lookup]
      simp only [after, homes]
      rw [bind_join _ _ _ _ fun k hk => hs.isSome_place hcells hk,
        hs.bind_place_append h.length]
    · have := above_endLoop (e := e) habove
      rwa [hg.bindings] at this

end RegisterBackend
