import RegisterBackend.Proofs.BoundNames
import RegisterBackend.Proofs.DefiniteAssignment

/-!
# Commands that can be lowered

A command that passes the check for definite assignment reads only names that are bound, since the
names of the set that the check carries are (`Command.readable_of_definite`). So it can be lowered
(`Command.lower_of_definite`).

The labels of the code are consistent: a command places each of the labels that are handed out for
it once (`Command.laysOut`) and jumps to no others. So as long as the numbers of labels do not
overflow, the check of the labels accepts the code (`Command.checkLabels_finish`).
-/

namespace RegisterBackend

/-! ## Names that are bound -/

namespace Command

/-- The check takes no other names for assigned than those that were before and those that the
command assigns. -/
theorem mem_of_definite {c : Command} {D D' : Finset String} (h : c.definite D = some D')
    {x : String} (hx : x ∈ D') : x ∈ D ∨ x ∈ c.assigned := by
  induction c generalizing D D' with
  | skip | print =>
    cases h
    exact .inl hx
  | assign y v =>
    simp only [definite, Option.ite_none_right_eq_some, Option.some.injEq] at h
    rw [← h.2, Finset.mem_insert] at hx
    exact hx.elim (fun hxy => .inr (by simp [assigned, hxy])) .inl
  | seq a b iha ihb =>
    obtain ⟨D₁, ha, hb⟩ := Option.bind_eq_some_iff.1 h
    rcases ihb hb hx with hx | hx
    · exact (iha ha hx).imp_right fun hx => List.mem_append_left _ hx
    · exact .inr (List.mem_append_right _ hx)
  | ifElse t a b iha ihb =>
    obtain ⟨D₁, D₂, ha, -, -, -, rfl⟩ := definite_ifElse.1 h
    exact (iha ha (Finset.mem_inter.1 hx).1).imp_right fun hx => List.mem_append_left _ hx
  | whileLoop t b ih =>
    obtain ⟨D₁, -, -, rfl⟩ := definite_whileLoop.1 h
    exact .inl hx

/-- A command that passes the check reads only names that are bound, if those of the set that the
check begins with are. -/
theorem readable_of_definite {c : Command} {D D' B : Finset String}
    (h : c.definite D = some D') (hD : D ⊆ B) : c.Readable B := by
  induction c generalizing D D' B with
  | skip => exact readable_skip
  | print text => exact readable_print text
  | assign x v =>
    simp only [definite, Option.ite_none_right_eq_some] at h
    exact readable_assign.2 fun y hy => hD (h.1 y hy)
  | seq a b iha ihb =>
    obtain ⟨D₁, ha, hb⟩ := Option.bind_eq_some_iff.1 h
    refine readable_seq.2 ⟨iha ha hD, ihb hb fun x hx => mem_mayAssign.2 ?_⟩
    exact (mem_of_definite ha hx).imp_left fun hx => hD hx
  | ifElse t a b iha ihb =>
    obtain ⟨D₁, D₂, ha, hb, hnames, -, -⟩ := definite_ifElse.1 h
    exact readable_ifElse.2 ⟨fun y hy => hD (hnames y hy), iha ha hD, ihb hb hD⟩
  | whileLoop t b ih =>
    obtain ⟨D₁, hb, hnames, -⟩ := definite_whileLoop.1 h
    exact readable_whileLoop.2 ⟨fun y hy => hD (hnames y hy), ih hb hD⟩

/-- A command that passes the check can be lowered. -/
theorem lower_of_definite {c : Command} {D D' B : Finset String} {F : List Nat} {s : Scope}
    {e : Emitter} (h : c.definite D = some D') (hs : s.WF) (hp : Placed F s e) (hB : e.Binds B)
    (hD : D ⊆ B) : ∃ e', c.lower.run e = .ok () e' :=
  (exists_lower_iff hs hp hB).2 (readable_of_definite h hD)

end Command

/-! ## Labels -/

namespace Emitter

variable {e e₁ e₂ : Emitter} {p p₁ t t₁ : List Nat}

/-- Code was appended that places the labels with the numbers in one list and jumps to those with
the numbers in another. -/
structure Places (e e₁ : Emitter) (placed targets : List Nat) : Prop where
  labels : e₁.finish.labels = e.finish.labels ++ placed.map .ofIndex
  jumpTargets : e₁.finish.jumpTargets = e.finish.jumpTargets ++ targets.map .ofIndex

theorem labels_emit (e : Emitter) (i : Instruction) :
    (e.emit i).finish.labels = e.finish.labels ++ i.placedLabel?.toList := by
  cases h : i.placedLabel? <;> simp [Bytecode.labels, finish, emit, h]

theorem jumpTargets_emit (e : Emitter) (i : Instruction) :
    (e.emit i).finish.jumpTargets = e.finish.jumpTargets ++ i.jumpTarget?.toList := by
  cases h : i.jumpTarget? <;> simp [Bytecode.jumpTargets, finish, emit, h]

namespace Places

theorem refl (e : Emitter) : e.Places e [] [] :=
  ⟨by simp, by simp⟩

/-- The labels of two pieces of code are those of the one and those of the other. -/
theorem trans (h : e.Places e₁ p t) (h₁ : e₁.Places e₂ p₁ t₁) :
    e.Places e₂ (p ++ p₁) (t ++ t₁) where
  labels := by rw [h₁.labels, h.labels, List.map_append, List.append_assoc]
  jumpTargets := by rw [h₁.jumpTargets, h.jumpTargets, List.map_append, List.append_assoc]

/-- Instructions without labels place none and jump to none. -/
theorem of_append {l : List Instruction} (hcode : e₁.code = e.code ++ l)
    (hl : ∀ i ∈ l, i.placedLabel? = none ∧ i.jumpTarget? = none) : e.Places e₁ [] [] where
  labels := by
    have hnone : l.filterMap (·.placedLabel?) = [] :=
      List.filterMap_eq_nil_iff.2 fun i hi => (hl i hi).1
    simp [Bytecode.labels, finish, hcode, hnone]
  jumpTargets := by
    have hnone : l.filterMap (·.jumpTarget?) = [] :=
      List.filterMap_eq_nil_iff.2 fun i hi => (hl i hi).2
    simp [Bytecode.jumpTargets, finish, hcode, hnone]

/-- One more label is placed. -/
theorem emit_label (h : e.Places e₁ p t) (n : Nat) :
    e.Places (e₁.emit (.label (.ofIndex n))) (p ++ [n]) t where
  labels := by simp [labels_emit, h.labels, Instruction.placedLabel?]
  jumpTargets := by simp [jumpTargets_emit, h.jumpTargets, Instruction.jumpTarget?]

/-- One more jump is made. -/
theorem emit_jump (h : e.Places e₁ p t) (n : Nat) :
    e.Places (e₁.emit (.jump (.ofIndex n))) p (t ++ [n]) where
  labels := by simp [labels_emit, h.labels, Instruction.placedLabel?]
  jumpTargets := by simp [jumpTargets_emit, h.jumpTargets, Instruction.jumpTarget?]

/-- One more jump is made, on a condition. -/
theorem emit_branch (h : e.Places e₁ p t) (onNonzero : Bool) (cond : Register) (n : Nat) :
    e.Places (e₁.emit (.branch onNonzero cond (.ofIndex n))) p (t ++ [n]) where
  labels := by simp [labels_emit, h.labels, Instruction.placedLabel?]
  jumpTargets := by simp [jumpTargets_emit, h.jumpTargets, Instruction.jumpTarget?]

/-- An instruction that writes a fresh register places no label and makes no jump. -/
theorem define (e : Emitter) (f : Register → Instruction)
    (hlabel : (f (.ofIndex e.registers)).placedLabel? = none)
    (htarget : (f (.ofIndex e.registers)).jumpTarget? = none) : e.Places (e.define f) [] [] :=
  of_append (l := [f (.ofIndex e.registers)]) (by simp [Emitter.define, emit])
    fun i hi => by rw [List.mem_singleton.1 hi]; exact ⟨hlabel, htarget⟩

/-- The end of a block has no labels. -/
theorem closeBlock (h : e.Places e₁ p t) (entry : Bindings) (homes : NameMap Register) :
    e.Places (e₁.closeBlock entry homes).2 p t := by
  have hcopies : e₁.Places (e₁.closeBlock entry homes).2 [] [] := by
    refine of_append (l := (e₁.bindings.exitBlock entry homes).1.copies) rfl fun i hi => ?_
    rw [Bindings.copies_exitBlock] at hi
    obtain ⟨m, -, rfl⟩ := List.mem_map.1 hi
    exact ⟨rfl, rfl⟩
  simpa using h.trans hcopies

end Places

/-- A branch takes three labels, and places the first one before its first block. -/
theorem places_beginThen (e : Emitter) (cond : Register) :
    e.Places (e.beginThen cond) [e.labels] [e.labels, e.labels + 1] :=
  have h := (((Places.refl e).emit_branch true cond e.labels).emit_jump (e.labels + 1)).emit_label
    e.labels
  ⟨h.labels, h.jumpTargets⟩

/-- Behind the first block is a jump to the end, and then the second label. -/
theorem places_beginElse (e e₁ : Emitter) :
    e₁.Places (e.beginElse e₁) [e.labels + 1] [e.labels + 2] :=
  have h := (((Places.refl e₁).closeBlock e.bindings ∅).emit_jump (e.labels + 2)).emit_label
    (e.labels + 1)
  ⟨h.labels, h.jumpTargets⟩

/-- Behind the second block is a jump to the end, and then the third label. -/
theorem places_endIf (e e₁ e₂ : Emitter) :
    e₂.Places (e.endIf e₁ e₂) [e.labels + 2] [e.labels + 2] :=
  have h := (((Places.refl e₂).closeBlock e.bindings (e₁.closeBlock e.bindings ∅).1).emit_jump
    (e.labels + 2)).emit_label (e.labels + 2)
  ⟨h.labels, h.jumpTargets⟩

theorem places_beginLoop (e : Emitter) : e.Places e.beginLoop [e.labels] [] :=
  have h := (Places.refl e).emit_label e.labels
  ⟨h.labels, h.jumpTargets⟩

theorem places_beginBody (e e₁ : Emitter) (cond : Register) :
    e₁.Places (e.beginBody e₁ cond) [] [e.labels + 1] :=
  (Places.refl e₁).emit_branch false cond (e.labels + 1)

theorem places_endLoop (e e₁ e₂ : Emitter) :
    e₂.Places (e.endLoop e₁ e₂) [e.labels + 1] [e.labels] :=
  (((Places.refl e₂).closeBlock e₁.bindings ∅).emit_jump e.labels).emit_label (e.labels + 1)

end Emitter

/-- Evaluables have no labels. -/
theorem Expr.lower_places : ∀ {x : Expr} {e e' : Emitter} {r : Register},
    x.lower.run e = .ok r e' → e.Places e' [] []
  | .const v, e, e', r, h => by
    obtain ⟨-, rfl⟩ := run_lower_const.1 h
    exact .define e _ rfl rfl
  | .var x, e, e', r, h => by
    obtain ⟨-, rfl⟩ := run_lower_var.1 h
    exact .refl _
  | .arith op x y, e, e', r, h => by
    obtain ⟨a, e₁, b, e₂, hx, hy, -, rfl⟩ := run_lower_arith.1 h
    exact ((lower_places hx).trans (lower_places hy)).trans (.define e₂ _ rfl rfl)

/-- Values of assignments have no labels. -/
theorem Expr.lowerValue_places {x : Expr} {e e' : Emitter} {r : Register}
    (h : x.lowerValue.run e = .ok r e') : e.Places e' [] [] := by
  rcases run_lowerValue.1 h with ⟨y, a, rfl, -, rfl, rfl⟩ | ⟨-, h⟩
  · exact .define e _ rfl rfl
  · exact lower_places h

/-- Comparisons have no labels. -/
theorem Test.lower_places {t : Test} {e e' : Emitter} {r : Register}
    (h : t.lower.run e = .ok r e') : e.Places e' [] [] := by
  obtain ⟨a, e₁, b, e₂, hx, hy, rfl, rfl⟩ := run_lower.1 h
  exact ((Expr.lower_places hx).trans (Expr.lower_places hy)).trans (.define e₂ _ rfl rfl)

/-- The labels handed out for a piece of code are those that it places, each once, and it jumps to
no others. -/
def Emitter.LaysOut (e e₁ : Emitter) : Prop :=
  ∃ n placed targets, e.Places e₁ placed targets ∧ e₁.labels = e.labels + n ∧
    placed.Perm (List.range' e.labels n) ∧ ∀ i ∈ targets, i ∈ placed

namespace Command

variable {e e' : Emitter}

/-- A branch places its three labels around those of its blocks. -/
theorem laysOut_ifElse {t : Test} {cond : Register} {e₀ e₁ e₂ : Emitter}
    (ht : t.lower.run e = .ok cond e₀) (ha : (e₀.beginThen cond).LaysOut e₁)
    (hb : (e₀.beginElse e₁).LaysOut e₂) : e.LaysOut (e₀.endIf e₁ e₂) := by
  obtain ⟨n₁, p₁, t₁, hp₁, hn₁, hperm₁, ht₁⟩ := ha
  obtain ⟨n₂, p₂, t₂, hp₂, hn₂, hperm₂, ht₂⟩ := hb
  have hlabels : e₀.labels = e.labels := (Test.lower_grows ht).1.labels
  have hp := (((((Test.lower_places ht).trans (e₀.places_beginThen cond)).trans hp₁).trans
    (e₀.places_beginElse e₁)).trans hp₂).trans (e₀.places_endIf e₁ e₂)
  simp only [Emitter.beginThen_labels, Emitter.beginElse_labels, hlabels] at hn₁ hn₂ hperm₁ hperm₂ hp
  refine ⟨3 + (n₁ + n₂), _, _, hp, ?_, ?_, ?_⟩
  · rw [Emitter.endIf_labels, hn₂, hn₁]
    omega
  · rw [← List.range'_append_1, ← List.range'_append_1]
    have hblocks : (p₁ ++ p₂).Perm
        (List.range' (e.labels + 3) n₁ ++ List.range' (e.labels + 3 + n₁) n₂) := by
      rw [hn₁] at hperm₂
      exact hperm₁.append hperm₂
    refine .trans ?_ (hblocks.append_left [e.labels, e.labels + 1, e.labels + 2])
    refine List.perm_iff_count.2 fun i => ?_
    simp only [List.count_append, List.count_cons, List.count_nil]
    omega
  · intro i hi
    simp only [List.mem_append, List.mem_cons, List.not_mem_nil] at hi ⊢
    have := ht₁ i
    have := ht₂ i
    tauto

/-- A loop places its two labels around those of its body. -/
theorem laysOut_whileLoop {t : Test} {cond : Register} {e₁ e₂ : Emitter}
    (ht : t.lower.run e.beginLoop = .ok cond e₁) (hb : (e.beginBody e₁ cond).LaysOut e₂) :
    e.LaysOut (e.endLoop e₁ e₂) := by
  obtain ⟨n, p, t', hp, hn, hperm, ht'⟩ := hb
  have hlabels : e₁.labels = e.labels + 2 := (Test.lower_grows ht).1.labels
  have hp := (((e.places_beginLoop.trans (Test.lower_places ht)).trans
    (e.places_beginBody e₁ cond)).trans hp).trans (e.places_endLoop e₁ e₂)
  simp only [Emitter.beginBody_labels, hlabels] at hn hperm
  refine ⟨2 + n, _, _, hp, ?_, ?_, ?_⟩
  · rw [Emitter.endLoop_labels, hn]
    omega
  · rw [← List.range'_append_1]
    refine .trans ?_ (hperm.append_left [e.labels, e.labels + 1])
    refine List.perm_iff_count.2 fun i => ?_
    simp only [List.count_append, List.count_cons, List.count_nil]
    omega
  · intro i hi
    simp only [List.mem_append, List.mem_cons, List.not_mem_nil] at hi ⊢
    have := ht' i
    tauto

/-- A command places the labels that are handed out for it. -/
theorem laysOut {c : Command} (h : c.lower.run e = .ok () e') : e.LaysOut e' := by
  induction c generalizing e e' with
  | skip =>
    cases run_lower_skip.1 h
    exact ⟨0, [], [], .refl _, rfl, .nil, nofun⟩
  | print text =>
    cases run_lower_print.1 h
    refine ⟨0, [], [], ?_, rfl, .nil, nofun⟩
    exact .of_append (l := [.print text]) (by simp [Emitter.emit])
      fun i hi => by rw [List.mem_singleton.1 hi]; exact ⟨rfl, rfl⟩
  | assign x v =>
    obtain ⟨q, e₁, hv, rfl⟩ := run_lower_assign.1 h
    have hp := Expr.lowerValue_places hv
    exact ⟨0, [], [], ⟨hp.labels, hp.jumpTargets⟩, (Expr.lowerValue_grows hv).1.labels, .nil, nofun⟩
  | seq a b iha ihb =>
    obtain ⟨e₁, ha, hb⟩ := run_lower_seq.1 h
    obtain ⟨n₁, p₁, t₁, hp₁, hn₁, hperm₁, ht₁⟩ := iha ha
    obtain ⟨n₂, p₂, t₂, hp₂, hn₂, hperm₂, ht₂⟩ := ihb hb
    refine ⟨n₁ + n₂, p₁ ++ p₂, t₁ ++ t₂, hp₁.trans hp₂, by omega, ?_, fun i hi => ?_⟩
    · rw [← List.range'_append_1, ← hn₁]
      exact hperm₁.append hperm₂
    · exact List.mem_append.2 ((List.mem_append.1 hi).imp (ht₁ i) (ht₂ i))
  | ifElse t a b iha ihb =>
    obtain ⟨cond, e₀, e₁, e₂, ht, ha, hb, rfl⟩ := run_lower_ifElse.1 h
    exact laysOut_ifElse ht (iha ha) (ihb hb)
  | whileLoop t b ih =>
    obtain ⟨cond, e₁, e₂, ht, hb, rfl⟩ := run_lower_whileLoop.1 h
    exact laysOut_whileLoop ht (ih hb)

/-- The labels in the code of a command are those that were handed out, each in one place, and the
jumps lead to them. -/
theorem perm_labels_finish {c : Command} (h : c.lower.run .empty = .ok () e) :
    e.finish.labels.Perm ((List.range e.labels).map .ofIndex) ∧
      ∀ l ∈ e.finish.jumpTargets, l ∈ e.finish.labels := by
  obtain ⟨n, p, t, hp, hn, hperm, ht⟩ := laysOut h
  have hlabels : e.finish.labels = p.map .ofIndex := hp.labels
  have htargets : e.finish.jumpTargets = t.map .ofIndex := hp.jumpTargets
  have hcount : e.labels = n := by
    rw [hn]
    exact Nat.zero_add n
  rw [hlabels, htargets, hcount, List.range_eq_range']
  exact ⟨hperm.map _, fun l hl => List.map_subset _ ht hl⟩

/-- The labels of the code of a command are consistent exactly if their numbers do not overflow. -/
theorem checkLabels_finish_iff {c : Command} (h : c.lower.run .empty = .ok () e) :
    e.finish.checkLabels = .ok () ↔ e.labels ≤ UInt32.size := by
  obtain ⟨hperm, htargets⟩ := perm_labels_finish h
  rw [Bytecode.checkLabels_eq_ok, hperm.nodup_iff]
  constructor
  · rintro ⟨hnodup, -⟩
    by_contra hlarge
    -- the first number after the overflow stands for the same label as zero
    have hzero : (0 : Nat) = UInt32.size := by
      refine List.inj_on_of_nodup_map hnodup ?_ ?_ rfl
      · exact List.mem_range.2 (by omega)
      · exact List.mem_range.2 (by omega)
    exact absurd hzero (by decide)
  · intro hle
    refine ⟨List.nodup_range.map_on fun i hi j hj hij => ?_, htargets⟩
    rw [List.mem_range] at hi hj
    exact Label.ofIndex_inj (by omega) (by omega) hij

/-- The labels of the code of a command are consistent, if their numbers do not overflow. -/
theorem checkLabels_finish {c : Command} (h : c.lower.run .empty = .ok () e)
    (hsmall : e.labels < UInt32.size) : e.finish.checkLabels = .ok () :=
  (checkLabels_finish_iff h).2 hsmall.le

end Command

end RegisterBackend
