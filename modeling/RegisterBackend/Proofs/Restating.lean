import RegisterBackend.Proofs.Folding
import RegisterBackend.Proofs.GraphTrees

/-!
# Code that means the same where some values are known

Under the reference semantics a command that has been folded runs as the command does, from every
store in which the values that were used are the ones that the names hold, and what is known behind
it holds in the final store (`Command.Folds.eval_eq`).

When folding stops on the way, some parts of the code have been folded and others not.
`Command.Restates K c c'` says of two commands what is left of the above: they run alike where `K`
holds. It says also that `c'` is no higher than `c`, so that a graph with the tree `c'` can be read
along paths as short as one with the tree `c` (`Graph.block?_of_blockAt`).
-/

namespace RegisterBackend

/-- Every value that is known is the one that the name holds. -/
def Known.HoldsIn (K : Known) (view : String → Option Int64) : Prop :=
  ∀ x v, K x = some v → view x = some v

theorem Known.HoldsIn.mono {K K' : Known} {view : String → Option Int64} (h : K'.HoldsIn view)
    (hK : K.Within K') : K.HoldsIn view :=
  fun x v hx => h x v (hK x v hx)

/-! ## Heights -/

/-- The length of the longest path in a tree. -/
def Expr.height : Expr → Nat
  | .const _ | .var _ => 1
  | .arith _ lhs rhs => max lhs.height rhs.height + 1

/-- The length of the longest path below a comparison. -/
def Test.height (t : Test) : Nat :=
  max t.lhs.height t.rhs.height

/-- The length of the longest path from a statement of a command. -/
def Command.height : Command → Nat
  | .skip | .print _ => 0
  | .seq first second => max first.height second.height
  | .assign _ value => value.height + 1
  | .ifElse test thenBranch elseBranch =>
    max test.height (max thenBranch.height elseBranch.height) + 1
  | .whileLoop test body => max test.height body.height + 1

theorem Expr.height_pos (e : Expr) : 0 < e.height := by
  cases e <;> simp [height]

theorem Test.height_pos (t : Test) : 0 < t.height :=
  Nat.lt_of_lt_of_le t.lhs.height_pos (Nat.le_max_left _ _)

/-- Folding an evaluable makes it no higher. -/
theorem Expr.height_fold_le (K : Known) (e : Expr) : (e.fold K).height ≤ e.height := by
  induction e with
  | const v => exact Nat.le_refl _
  | var x =>
    unfold fold
    split <;> exact Nat.le_refl _
  | arith op l r ihl ihr =>
    have hcombine : ∀ a b : Expr, (combine op a b).height ≤ max a.height b.height + 1 := by
      intro a b
      unfold combine
      split <;> simp [height]
    have hle := hcombine (l.fold K) (r.fold K)
    simp only [fold, height]
    omega

/-- Folding a test makes it no higher. -/
theorem Test.height_fold_le (K : Known) (t : Test) : (t.fold K).height ≤ t.height := by
  have hl := t.lhs.height_fold_le K
  have hr := t.rhs.height_fold_le K
  simp only [height, fold]
  omega

/-! ## Evaluables and tests -/

/-- The other evaluable has the same value wherever what is known holds, and is no higher. -/
structure Expr.Restates (K : Known) (e e' : Expr) : Prop where
  eval_eq : ∀ {view}, K.HoldsIn view → e'.eval view = e.eval view
  height_le : e'.height ≤ e.height

namespace Expr.Restates

variable {K : Known} {a a' b b' : Expr}

theorem refl (K : Known) (e : Expr) : e.Restates K e :=
  ⟨fun _ => rfl, Nat.le_refl _⟩

theorem fold (K : Known) (e : Expr) : e.Restates K (e.fold K) :=
  ⟨fun hK => eval_fold hK e, e.height_fold_le K⟩

/-- An operation is restated by restating its operands. -/
theorem arith (ha : a.Restates K a') (hb : b.Restates K b') (op : ArithOp) :
    (Expr.arith op a b).Restates K (.arith op a' b') where
  eval_eq hK := by simp only [eval, ha.eval_eq hK, hb.eval_eq hK]
  height_le := by
    have hl := ha.height_le
    have hr := hb.height_le
    simp only [height]
    omega

end Expr.Restates

/-- The other test has the same result wherever what is known holds, and is no higher. -/
structure Test.Restates (K : Known) (t t' : Test) : Prop where
  eval_eq : ∀ {view}, K.HoldsIn view → t'.eval view = t.eval view
  height_le : t'.height ≤ t.height

namespace Test.Restates

theorem refl (K : Known) (t : Test) : t.Restates K t :=
  ⟨fun _ => rfl, Nat.le_refl _⟩

theorem fold (K : Known) (t : Test) : t.Restates K (t.fold K) :=
  ⟨fun hK => eval_fold hK t, t.height_fold_le K⟩

/-- A test is restated by restating its operands. -/
theorem operands {K : Known} {a a' b b' : Expr} (ha : a.Restates K a') (hb : b.Restates K b')
    (op : CompareOp) : Test.Restates K ⟨op, a, b⟩ ⟨op, a', b'⟩ where
  eval_eq hK := by simp only [eval, ha.eval_eq hK, hb.eval_eq hK]
  height_le := by
    have hl := ha.height_le
    have hr := hb.height_le
    simp only [height]
    omega

end Test.Restates

/-! ## Commands -/

namespace Command

/-- A run that comes to its end leaves the names that the command does not assign. -/
theorem eval_env {c : Command} {fuel : Nat} {st st' : Store} (h : c.eval fuel st = .done st')
    {x : String} (hx : x ∉ c.assigned) : st'.env x = st.env x := by
  induction c generalizing st st' with
  | skip | print =>
    cases h
    rfl
  | seq a b iha ihb =>
    obtain ⟨st₁, ha, hb⟩ := Outcome.andThen_eq_done.1 h
    simp only [assigned, List.mem_append, not_or] at hx
    exact (ihb hb hx.2).trans (iha ha hx.1)
  | assign y e =>
    simp only [eval] at h
    split at h
    · cases h
      exact Function.update_of_ne (by simpa [assigned] using hx) _ _
    · cases h
  | ifElse t a b iha ihb =>
    simp only [assigned, List.mem_append, not_or] at hx
    simp only [eval] at h
    split at h
    · exact iha h hx.1
    · exact ihb h hx.2
    · cases h
  | whileLoop t b ih =>
    exact Outcome.repeatWhile_done (P := fun st' => st'.env x = st.env x)
      (fun hst h => (ih h hx).trans hst) rfl h

/-- Knowing nothing of the names that a command assigns, one knows the same behind it. -/
theorem holdsIn_eval {K : Known} {c : Command} {fuel : Nat} {st st' : Store} (hK : K.HoldsIn st.env)
    (hignores : K.Ignores c.assigned) (h : c.eval fuel st = .done st') : K.HoldsIn st'.env := by
  intro x v hx
  have hmem : x ∉ c.assigned := by
    intro hmem
    rw [hignores x hmem] at hx
    cases hx
  rw [eval_env h hmem]
  exact hK x v hx

/-- The other command runs alike from every store in which what is known holds, and is no higher. -/
structure Restates (K : Known) (c c' : Command) : Prop where
  eval_eq : ∀ {fuel st}, K.HoldsIn st.env → c'.eval fuel st = c.eval fuel st
  height_le : c'.height ≤ c.height

namespace Folds

variable {K K' : Known} {c c' : Command}

/-- A folded command runs exactly as the command does, and what is known behind it holds. -/
theorem eval_eq (h : Folds K c c' K') {fuel : Nat} {st : Store} (hK : K.HoldsIn st.env) :
    c'.eval fuel st = c.eval fuel st ∧ ∀ st', c.eval fuel st = .done st' → K'.HoldsIn st'.env := by
  induction h generalizing st with
  | skip | print =>
    refine ⟨rfl, fun st' hst => ?_⟩
    cases hst
    exact hK
  | @seq K K₁ K₂ a a' b b' _ _ iha ihb =>
    obtain ⟨ha, ha'⟩ := iha hK
    simp only [eval, ha]
    cases hst : a.eval fuel st with
    | done st₁ => exact ihb (ha' st₁ hst)
    | stuck st₁ | cutOff st₁ =>
      refine ⟨rfl, fun st' hst => ?_⟩
      cases hst
  | @assign K x e =>
    refine ⟨by simp only [eval, Expr.eval_fold hK], fun st' hst => ?_⟩
    simp only [eval] at hst
    split at hst
    next v hv =>
      cases hst
      intro y w hy
      by_cases hyx : y = x
      · subst hyx
        rw [Function.update_self, Expr.value?_eq_some] at hy
        rw [← Expr.eval_fold hK, hy] at hv
        cases hv
        exact Function.update_self ..
      · rw [Function.update_of_ne hyx] at hy
        exact (Function.update_of_ne hyx _ _).trans (hK y w hy)
    next => cases hst
  | @ifElse K K₁ K₂ K₃ K' t a a' b b' _ within _ behind ignores iha ihb =>
    have hignores : K'.Ignores (Command.ifElse t a b).assigned := ignores
    refine ⟨?_, fun st' hst => holdsIn_eval (hK.mono behind) hignores hst⟩
    simp only [eval, Test.eval_fold hK, (iha hK).1, (ihb (hK.mono within)).1]
  | @whileLoop K K₁ K₂ K' t b b' within ignores _ behind ih =>
    have hK₁ := hK.mono within
    have hignores : K₁.Ignores (Command.whileLoop t b).assigned := ignores
    refine ⟨?_, fun st' hst => (holdsIn_eval hK₁ hignores hst).mono behind⟩
    exact Outcome.repeatWhile_congr (P := fun st => K₁.HoldsIn st.env)
      (fun st₁ hst₁ => ⟨Test.eval_fold hst₁ t, (ih hst₁).1, fun _ => holdsIn_eval hst₁ ignores⟩) hK₁

/-- Folding a command makes it no higher. -/
theorem height_le (h : Folds K c c' K') : c'.height ≤ c.height := by
  induction h with
  | skip | print => exact Nat.le_refl _
  | seq _ _ iha ihb =>
    simp only [height]
    omega
  | @assign K x e => exact Nat.succ_le_succ (e.height_fold_le K)
  | @ifElse K _ _ _ _ t _ _ _ _ _ _ _ _ _ iha ihb =>
    have ht := t.height_fold_le K
    simp only [height]
    omega
  | @whileLoop _ K₁ _ _ t _ _ _ _ _ _ ih =>
    have ht := t.height_fold_le K₁
    simp only [height]
    omega

theorem restates (h : Folds K c c' K') : c.Restates K c' :=
  ⟨fun hK => (h.eval_eq hK).1, h.height_le⟩

end Folds

namespace Restates

variable {K K₁ : Known} {a a' b b' c c' : Command} {t t' : Test}

theorem refl (K : Known) (c : Command) : c.Restates K c :=
  ⟨fun _ => rfl, Nat.le_refl _⟩

theorem mono (h : c.Restates K₁ c') (hK : K₁.Within K) : c.Restates K c' :=
  ⟨fun hst => h.eval_eq (hst.mono hK), h.height_le⟩

/-- An assignment is restated by restating its value. -/
theorem assign {e e' : Expr} (h : e.Restates K e') (x : String) :
    (Command.assign x e).Restates K (.assign x e') where
  eval_eq hK := by simp only [eval, h.eval_eq hK]
  height_le := Nat.succ_le_succ h.height_le

/-- The first of two commands is restated. -/
theorem seq_left (h : a.Restates K a') (b : Command) : (seq a b).Restates K (.seq a' b) where
  eval_eq hK := by simp only [eval, h.eval_eq hK]
  height_le := by
    have hle := h.height_le
    simp only [height]
    omega

/-- The first of two commands is folded, and the second one restated by what is known behind it. -/
theorem seq_right (ha : Folds K a a' K₁) (hb : b.Restates K₁ b') :
    (seq a b).Restates K (.seq a' b') where
  eval_eq {fuel st} hK := by
    have heq : a'.eval fuel st = a.eval fuel st := (ha.eval_eq hK).1
    have hbehind : ∀ st', a.eval fuel st = .done st' → K₁.HoldsIn st'.env := (ha.eval_eq hK).2
    simp only [eval, heq]
    cases hst : a.eval fuel st with
    | done st₁ => exact hb.eval_eq (hbehind st₁ hst)
    | stuck st₁ | cutOff st₁ => rfl
  height_le := by
    have hle := ha.height_le
    have hle' := hb.height_le
    simp only [height]
    omega

/-- A branch is restated by restating its test and both blocks, with what is known before it. -/
theorem ifElse (ht : t.Restates K t') (ha : a.Restates K a') (hb : b.Restates K b') :
    (Command.ifElse t a b).Restates K (.ifElse t' a' b') where
  eval_eq hK := by simp only [eval, ht.eval_eq hK, ha.eval_eq hK, hb.eval_eq hK]
  height_le := by
    have ht := ht.height_le
    have ha := ha.height_le
    have hb := hb.height_le
    simp only [height]
    omega

/-- A loop may use what is known of the names that its body does not assign. -/
theorem whileLoop (within : K₁.Within K) (ignores : K₁.Ignores b.assigned) (ht : t.Restates K₁ t')
    (hb : b.Restates K₁ b') : (Command.whileLoop t b).Restates K (.whileLoop t' b') where
  eval_eq {fuel st} hK := by
    simp only [eval]
    exact Outcome.repeatWhile_congr (P := fun st => K₁.HoldsIn st.env)
      (fun st hst => ⟨ht.eval_eq hst, hb.eval_eq hst, fun _ => holdsIn_eval hst ignores⟩)
      (hK.mono within)
  height_le := by
    have ht := ht.height_le
    have hb := hb.height_le
    simp only [height]
    omega

/-! From the beginning of a program, a restated command runs as the command does. -/

theorem eval_empty (h : c.Restates (fun _ => none) c') (fuel : Nat) :
    c'.eval fuel .empty = c.eval fuel .empty :=
  h.eval_eq nofun

theorem terminates_iff (h : c.Restates (fun _ => none) c') (st : Store) :
    c'.Terminates st ↔ c.Terminates st := by
  simp only [Terminates, h.eval_empty]

theorem readsUnassigned_iff (h : c.Restates (fun _ => none) c') (st : Store) :
    c'.ReadsUnassigned st ↔ c.ReadsUnassigned st := by
  simp only [ReadsUnassigned, h.eval_empty]

theorem diverges_iff (h : c.Restates (fun _ => none) c') : c'.Diverges ↔ c.Diverges := by
  simp only [Diverges, h.eval_empty]

end Restates

end Command

/-! ## Reading trees along short paths -/

namespace Graph

variable {g : Graph} {S : NodeId → Prop} {id : NodeId} {ids : List NodeId} {depth : Nat}

/-- A tree that is read down to some depth is no higher. -/
theorem height_of_expr? {e : Expr} (h : g.expr? depth id = some e) : e.height ≤ depth := by
  induction depth generalizing id e with
  | zero => cases h
  | succ depth ih =>
    rw [expr?] at h
    split at h
    next =>
      cases h
      simp [Expr.height]
    next =>
      split at h
      next => cases h
      next =>
        cases h
        simp [Expr.height]
    next =>
      split at h
      next hl hr =>
        cases h
        have hl := ih hl
        have hr := ih hr
        simp only [Expr.height]
        omega
      next => cases h
    next => cases h

/-- A test that is read down to some depth is no higher. -/
theorem height_of_test? {t : Test} (h : g.test? depth id = some t) : t.height ≤ depth := by
  unfold test? at h
  split at h
  next =>
    split at h
    next hl hr =>
      cases h
      exact Nat.max_le.2 ⟨height_of_expr? hl, height_of_expr? hr⟩
    next => cases h
  next => cases h

/-- A block is no higher than its statements. -/
theorem height_of_block? {read : NodeId → Option Command}
    (hread : ∀ id c, read id = some c → c.height ≤ depth) {c : Command}
    (h : block? read ids = some c) : c.height ≤ depth := by
  induction ids generalizing c with
  | nil =>
    cases h
    exact Nat.zero_le _
  | cons id ids ih =>
    simp only [block?] at h
    split at h
    next hfirst hrest =>
      cases h
      exact Nat.max_le.2 ⟨hread _ _ hfirst, ih hrest⟩
    next => cases h

/-- A tree that is read along paths of bounded length is no higher than the bound. -/
theorem height_of_command? {c : Command} (h : g.command? depth id = some c) : c.height ≤ depth := by
  induction depth generalizing id c with
  | zero => cases h
  | succ depth ih =>
    rw [command?] at h
    split at h
    next =>
      split at h
      next htarget hvalue =>
        cases h
        exact Nat.succ_le_succ (height_of_expr? hvalue)
      next => cases h
    next =>
      split at h
      next htest hthen helse =>
        cases h
        have ht := height_of_test? htest
        have ha := height_of_block? (fun _ _ => ih) hthen
        have hb := height_of_block? (fun _ _ => ih) helse
        simp only [Command.height]
        omega
      next => cases h
    next =>
      split at h
      next htest hbody =>
        cases h
        have ht := height_of_test? htest
        have hb := height_of_block? (fun _ _ => ih) hbody
        simp only [Command.height]
        omega
      next => cases h
    next =>
      cases h
      exact Nat.zero_le _
    next =>
      cases h
      exact Nat.zero_le _
    next => cases h

/-- The tree of an evaluable is read if the depth is at least its height. -/
theorem expr?_of_exprAt {e : Expr} (h : g.ExprAt S id e) (hd : e.height ≤ depth) :
    g.expr? depth id = some e := by
  induction h generalizing depth with
  | const node =>
    obtain ⟨depth, rfl⟩ := Nat.exists_eq_succ_of_ne_zero (Nat.ne_of_gt hd)
    simp [expr?, node]
  | var node kind =>
    obtain ⟨depth, rfl⟩ := Nat.exists_eq_succ_of_ne_zero (Nat.ne_of_gt hd)
    simp [expr?, node, kind]
  | arith node _ _ _ ihl ihr =>
    cases depth with
    | zero => simp [Expr.height] at hd
    | succ depth =>
      have hd := Nat.max_le.1 (Nat.le_of_succ_le_succ hd)
      simp [expr?, node, ihl hd.1, ihr hd.2]

/-- The tree of a test is read if the depth is at least its height. -/
theorem test?_of_testAt {t : Test} (h : g.TestAt S id t) (hd : t.height ≤ depth) :
    g.test? depth id = some t := by
  obtain ⟨op, l, r⟩ := t
  obtain ⟨-, lhs, rhs, node, hl, hr⟩ := h
  have hd := Nat.max_le.1 hd
  simp [test?, node, expr?_of_exprAt hl hd.1, expr?_of_exprAt hr hd.2]

theorem block?_cons {read : NodeId → Option Command} {a b : Command} (ha : read id = some a)
    (hb : block? read ids = some b) : block? read (id :: ids) = some (.seq a b) := by
  simp [block?, ha, hb]

/-- A tree that is no higher than the bound can be read along paths of that length. -/
theorem block?_of_blockAt {c : Command} (h : g.BlockAt S ids c) (hd : c.height ≤ depth + 1) :
    block? (g.command? (depth + 1)) ids = some c := by
  induction h generalizing depth with
  | nil => rfl
  | assign node _ target value _ ih =>
    obtain ⟨hd₁, hd₂⟩ := Nat.max_le.1 hd
    refine block?_cons ?_ (ih hd₂)
    simp [command?, node, target, expr?_of_exprAt value (Nat.le_of_succ_le_succ hd₁)]
  | @ifElse id ids cond thenBlock elseBlock t a b c node _ test _ _ _ iha ihb ih =>
    obtain ⟨hd₁, hd₂⟩ := Nat.max_le.1 hd
    obtain ⟨ht, hblocks⟩ := Nat.max_le.1 (Nat.le_of_succ_le_succ hd₁)
    obtain ⟨ha, hb⟩ := Nat.max_le.1 hblocks
    -- a test has operands, so the paths are long enough for the statements of the blocks
    have hpos := t.height_pos
    refine block?_cons ?_ (ih hd₂)
    cases depth with
    | zero => omega
    | succ depth =>
      rw [command?]
      simp only [node, test?_of_testAt test ht, iha ha, ihb hb]
  | @whileLoop id ids cond body t b c node _ test _ _ ihb ih =>
    obtain ⟨hd₁, hd₂⟩ := Nat.max_le.1 hd
    obtain ⟨ht, hb⟩ := Nat.max_le.1 (Nat.le_of_succ_le_succ hd₁)
    have hpos := t.height_pos
    refine block?_cons ?_ (ih hd₂)
    cases depth with
    | zero => omega
    | succ depth =>
      rw [command?]
      simp only [node, test?_of_testAt test ht, ihb hb]
  | functionDef node _ _ ih =>
    exact block?_cons (by simp [command?, node]) (ih (Nat.max_le.1 hd).2)
  | debug node _ ih => exact block?_cons (by simp [command?, node]) (ih (Nat.max_le.1 hd).2)

end Graph

end RegisterBackend
