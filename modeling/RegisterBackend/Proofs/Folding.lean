import RegisterBackend.Proofs.Cells

/-!
# Using known values

At a point of a program, some names are known to hold some values. `Expr.fold` replaces the reads of
such names by the values and computes what has become constant; `Command.Folds` says what a command
may become when this is done all the way through it, and what is known behind it:

* an assignment makes its target known if its value has become constant, and unknown if not;
* a block of a branch may use what is known before the branch, and behind the branch nothing is known
  of the names that either block assigns;
* the test and the body of a loop may use only what is known of the names that the body does not
  assign.

The relation leaves open how much of this knowledge is used: at the beginning and at the end of a
block any of it may be dropped.

The result is that a folded command runs on the cells exactly as the command does (`Folds.exec_eq`).
What is known is a fact about cells and not about the last assignments, so nothing is asked about
names being assigned before they are read.
-/

namespace RegisterBackend

/-- What is known of names at a point of a program. -/
abbrev Known : Type :=
  String → Option Int64

namespace Known

/-- Every value that is known is the one that is found. -/
def Holds (K : Known) (s : Scope) (m : Memory) : Prop :=
  ∀ x v, K x = some v → m.view s x = some v

/-- One knows no more than the other. -/
def Within (K K' : Known) : Prop :=
  ∀ x v, K x = some v → K' x = some v

/-- Nothing is known of any of the names. -/
def Ignores (K : Known) (names : List String) : Prop :=
  ∀ x ∈ names, K x = none

theorem Within.trans {K K₁ K₂ : Known} (h : K.Within K₁) (h₁ : K₁.Within K₂) : K.Within K₂ :=
  fun x v hx => h₁ x v (h x v hx)

theorem Holds.mono {K K' : Known} {s : Scope} {m : Memory} (h : K'.Holds s m) (hK : K.Within K') :
    K.Holds s m :=
  fun x v hx => h x v (hK x v hx)

/-- Knowing nothing of the names that a command assigns, one knows the same behind it. -/
theorem Holds.after_exec {K : Known} {c : Command} {s : Scope} {m m' : Memory} {fuel : Nat}
    (h : K.Holds s m) (hs : s.WF) (hK : K.Ignores c.assigned)
    (hexec : c.exec fuel s m = .done m') : K.Holds (c.after s) m' := by
  intro x v hx
  have hmem : x ∉ c.assigned := by
    intro hmem
    rw [hK x hmem] at hx
    cases hx
  rw [Memory.view, Command.found_after_exec hexec hs hmem]
  exact h x v hx

/-- Knowing nothing of the names that a block assigns, one knows the same when the block has settled
in the scope that it began in. -/
theorem Holds.after_block {K : Known} {c : Command} {s : Scope} {m m' : Memory} {fuel : Nat}
    {now : String → Option Nat} (h : K.Holds s m) (hs : s.WF) (hK : K.Ignores c.assigned)
    (hexec : (c.exec fuel s m).andThen (Memory.settle c.assigned s.cell now) = .done m') :
    K.Holds s m' := by
  obtain ⟨m₁, h₁, h₂⟩ := Outcome.andThen_eq_done.1 hexec
  obtain ⟨-, rfl⟩ := Memory.settle_eq_done.1 h₂
  intro x v hx
  have hview := h x v hx
  cases hk : s.cell x with
  | none => simp [Memory.view, Memory.found, hk] at hview
  | some k =>
    have hne : ∀ y ∈ c.assigned, s.cell y ≠ some k := by
      intro y hy he
      rw [hs.inj hk he, hK y hy] at hx
      cases hx
    simp only [Memory.view, Memory.found, hk, Option.bind_some] at hview ⊢
    rw [Memory.move_cells_of_ne hne, Command.exec_cells h₁ (hs.lt_next hk) hne]
    exact hview

end Known

/-! ## Evaluables -/

namespace Expr

/-- The value of a constant. -/
def value? : Expr → Option Int64
  | .const v => some v
  | _ => none

/-- An operation, computed if both of its operands are constants. -/
def combine (op : ArithOp) : Expr → Expr → Expr
  | .const a, .const b => .const (op.apply a b)
  | lhs, rhs => .arith op lhs rhs

/-- Uses what is known. -/
def fold (K : Known) : Expr → Expr
  | .const v => .const v
  | .var x =>
    match K x with
    | some v => .const v
    | none => .var x
  | .arith op lhs rhs => combine op (lhs.fold K) (rhs.fold K)

theorem value?_eq_some {e : Expr} {v : Int64} : e.value? = some v ↔ e = .const v := by
  cases e <;> simp [value?]

/-- Computing an operation does not change its value. -/
theorem eval_combine (op : ArithOp) (lhs rhs : Expr) (view : String → Option Int64) :
    (combine op lhs rhs).eval view = (arith op lhs rhs).eval view := by
  unfold combine
  split <;> rfl

/-- Using what is known does not change the value. -/
theorem eval_fold {K : Known} {view : String → Option Int64}
    (h : ∀ x v, K x = some v → view x = some v) (e : Expr) : (e.fold K).eval view = e.eval view := by
  induction e with
  | const v => rfl
  | var x =>
    unfold fold
    split
    next v hv => exact (h x v hv).symm
    next => rfl
  | arith op l r ihl ihr =>
    rw [fold, eval_combine]
    simp only [eval, ihl, ihr]

end Expr

/-- Uses what is known in both operands. -/
def Test.fold (K : Known) (t : Test) : Test :=
  ⟨t.op, t.lhs.fold K, t.rhs.fold K⟩

/-- Using what is known does not change the result of a test. -/
theorem Test.eval_fold {K : Known} {view : String → Option Int64}
    (h : ∀ x v, K x = some v → view x = some v) (t : Test) : (t.fold K).eval view = t.eval view := by
  simp only [Test.eval, Test.fold, Expr.eval_fold h]

/-! ## Commands -/

namespace Command

/-- What a command may become by using what is known before it, and what is known behind it. -/
inductive Folds : Known → Command → Command → Known → Prop
  | skip {K} : Folds K .skip .skip K
  | print {K text} : Folds K (.print text) (.print text) K
  | seq {K K₁ K₂ a a' b b'} (first : Folds K a a' K₁) (second : Folds K₁ b b' K₂) :
    Folds K (.seq a b) (.seq a' b') K₂
  | assign {K x e} :
    Folds K (.assign x e) (.assign x (e.fold K)) (Function.update K x (e.fold K).value?)
  | ifElse {K K₁ K₂ K₃ K' t a a' b b'} (thenBranch : Folds K a a' K₁)
    (within : K₂.Within K) (elseBranch : Folds K₂ b b' K₃)
    (behind : K'.Within K) (ignores : K'.Ignores (a.assigned ++ b.assigned)) :
    Folds K (.ifElse t a b) (.ifElse (t.fold K) a' b') K'
  | whileLoop {K K₁ K₂ K' t b b'} (within : K₁.Within K) (ignores : K₁.Ignores b.assigned)
    (body : Folds K₁ b b' K₂) (behind : K'.Within K₁) :
    Folds K (.whileLoop t b) (.whileLoop (t.fold K₁) b') K'

namespace Folds

/-- A folded command assigns the same names. -/
theorem assigned_eq {K K' : Known} {c c' : Command} (h : Folds K c c' K') :
    c'.assigned = c.assigned := by
  induction h with
  | skip | print | assign => rfl
  | seq _ _ iha ihb => simp only [Command.assigned, iha, ihb]
  | ifElse _ _ _ _ _ iha ihb => simp only [Command.assigned, iha, ihb]
  | whileLoop _ _ _ _ ih => simp only [Command.assigned, ih]

/-- Behind a folded command, names are found in the same cells. -/
theorem after_eq {K K' : Known} {c c' : Command} (h : Folds K c c' K') (s : Scope) :
    c'.after s = c.after s := by
  induction h generalizing s with
  | skip | print | assign => rfl
  | seq _ _ iha ihb => simp only [Command.after, iha, ihb]
  | ifElse _ _ _ _ _ iha ihb => simp only [Command.after, iha, ihb]
  | whileLoop _ _ _ _ ih => simp only [Command.after, ih]

/-- A folded command runs exactly as the command does, and what is known behind it holds. -/
theorem exec_eq {K K' : Known} {c c' : Command} (h : Folds K c c' K') {fuel : Nat} {s : Scope}
    {m : Memory} (hs : s.WF) (hK : K.Holds s m) :
    c'.exec fuel s m = c.exec fuel s m ∧
      ∀ m', c.exec fuel s m = .done m' → K'.Holds (c.after s) m' := by
  induction h generalizing s m with
  | skip | print =>
    refine ⟨rfl, fun m' hm => ?_⟩
    cases hm
    exact hK
  | seq first second iha ihb =>
    rename_i K K₁ K₂ a a' b b'
    obtain ⟨ha, ha'⟩ := iha hs hK
    simp only [Command.exec, Command.after, ha, first.after_eq]
    cases hm : a.exec fuel s m with
    | done m₁ => exact ihb (wf_after hs) (ha' m₁ hm)
    | stuck m₁ =>
      refine ⟨rfl, fun m' hm => ?_⟩
      cases hm
    | cutOff m₁ =>
      refine ⟨rfl, fun m' hm => ?_⟩
      cases hm
  | assign =>
    rename_i K x e
    refine ⟨by simp only [Command.exec, Expr.eval_fold hK], fun m' hm => ?_⟩
    simp only [Command.exec] at hm
    split at hm
    next v hv =>
      cases hm
      intro y w hy
      by_cases hyx : y = x
      · subst hyx
        rw [Function.update_self, Expr.value?_eq_some] at hy
        rw [← Expr.eval_fold hK, hy] at hv
        cases hv
        simp [Memory.view, Memory.found, Memory.assign, Command.after]
      · rw [Function.update_of_ne hyx] at hy
        have hview := hK y w hy
        -- the new cell is nobody's before the assignment
        cases hk : s.cell y with
        | none => simp [Memory.view, Memory.found, hk] at hview
        | some k =>
          have hne : k ≠ s.next := Nat.ne_of_lt (hs.lt_next hk)
          simpa [Memory.view, Memory.found, Memory.assign, Command.after, hyx, hk, hne]
            using hview
    next => cases hm
  | ifElse thenBranch within elseBranch behind ignores iha ihb =>
    rename_i K K₁ K₂ K₃ K' t a a' b b'
    refine ⟨?_, fun m' hm => ?_⟩
    · have hs' : Scope.WF ⟨(a.after s).next, s.cell⟩ := hs.mono (a.next_le_after s)
      have hb := (ihb hs' (hK.mono within)).1
      simp only [Command.exec, Test.eval_fold hK, (iha hs hK).1, thenBranch.after_eq,
        elseBranch.after_eq, thenBranch.assigned_eq, elseBranch.assigned_eq, hb]
    · exact (hK.mono behind).after_exec hs ignores hm
  | whileLoop within ignores body behind ih =>
    rename_i K K₁ K₂ K' t b b'
    have hK₁ := hK.mono within
    refine ⟨?_, fun m' hm => ?_⟩
    · simp only [Command.exec, body.after_eq, body.assigned_eq]
      refine Outcome.repeatWhile_congr (P := K₁.Holds s) (fun m₁ hm₁ => ⟨?_, ?_, ?_⟩) hK₁
      · exact Test.eval_fold hm₁ t
      · rw [(ih hs hm₁).1]
      · exact fun m₂ hm₂ => hm₁.after_block hs ignores hm₂
    · refine (hK₁.after_exec hs ?_ hm).mono behind
      exact ignores

end Folds

end Command

end RegisterBackend
