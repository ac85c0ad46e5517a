import RegisterBackend.Proofs.Simulation
import RegisterBackend.Proofs.Events

/-!
# What the code reads, name by name

`Command.readings` lists the names that are read when a command is run, one by one and in the order
in which the machine reads them. An operation reads those of its operands that are names when both
operands have been computed, and nothing is read behind a name that has no value. Each reading comes
with the scope and the memory at that point, and is marked if it is made in a loop that carries the
name: the loop assigns the name, and nothing before the loop does.

`Command.observed` says where in a run of the code a reading is made: the machine comes to an
instruction that reads the register of the cell in which the name is found, and the registers of all
cells then hold what the memory says.
-/

namespace RegisterBackend

/-! ## The order in which names are read -/

/-- The name that an operand is, if it is one. -/
def Expr.operand : Expr → List String
  | .var x => [x]
  | _ => []

/-- The names that are read to compute an evaluable. A name by itself is read where it is used. -/
def Expr.reads : Expr → List String
  | .const _ | .var _ => []
  | .arith _ lhs rhs => lhs.reads ++ rhs.reads ++ (lhs.operand ++ rhs.operand)

/-- The names that are read to compute the value of an assignment. -/
def Expr.valueReads (e : Expr) : List String :=
  e.reads ++ e.operand

/-- The names that are read to compute a comparison. -/
def Test.reads (t : Test) : List String :=
  t.lhs.reads ++ t.rhs.reads ++ (t.lhs.operand ++ t.rhs.operand)

/-- The names that are read in sequence, up to the first one without a value. -/
def readUpTo (v : String → Option Int64) : List String → List String
  | [] => []
  | x :: xs => x :: if (v x).isSome then readUpTo v xs else []

/-- Of two sequences, the second is read if all names of the first have values. -/
theorem mem_readUpTo_append {v : String → Option Int64} {y : String} :
    ∀ {l₁ l₂ : List String}, y ∈ readUpTo v (l₁ ++ l₂) →
      y ∈ readUpTo v l₁ ∨ (∀ x ∈ l₁, (v x).isSome) ∧ y ∈ readUpTo v l₂
  | [], l₂, h => .inr ⟨nofun, h⟩
  | x :: l₁, l₂, h => by
    simp only [List.cons_append, readUpTo, List.mem_cons] at h ⊢
    rcases h with rfl | h
    · exact .inl (.inl rfl)
    · split at h
      next hx =>
        rcases mem_readUpTo_append h with h | ⟨hall, h⟩
        · exact .inl (.inr (by simpa [hx] using h))
        · refine .inr ⟨?_, h⟩
          rintro z (rfl | hz)
          · exact hx
          · exact hall z hz
      next => cases h

/-- What is read is one of the names. -/
theorem mem_of_mem_readUpTo {v : String → Option Int64} {y : String} :
    ∀ {l : List String}, y ∈ readUpTo v l → y ∈ l
  | x :: l, h => by
    simp only [readUpTo, List.mem_cons] at h ⊢
    rcases h with rfl | h
    · exact .inl rfl
    · split at h
      · exact .inr (mem_of_mem_readUpTo h)
      · cases h

/-- The names of an evaluable are those that are read to compute it, and itself if it is one. -/
theorem Expr.mem_names {y : String} : ∀ {e : Expr}, y ∈ e.names ↔ y ∈ e.reads ∨ y ∈ e.operand
  | .const _ => by simp [names, reads, operand]
  | .var x => by simp [names, reads, operand]
  | .arith op l r => by
    simp only [names, reads, operand, List.mem_append, mem_names (e := l), mem_names (e := r),
      List.not_mem_nil, or_false]
    tauto

/-! ## The instructions that read -/

/-- The registers that an instruction reads, in order. -/
def Instruction.sources : Instruction → List Register
  | .set _ (.register src) => [src]
  | .arith _ _ lhs rhs | .compare _ _ lhs rhs => [lhs, rhs]
  | .branch _ cond _ => [cond]
  | _ => []

variable {σ : Type} {code : Bytecode} {sink : Sink σ}

/-- The next instruction of the run reads the register. It comes to that if what it reads before is
not empty. -/
def Run.ReadsNext (code : Bytecode) (r : Run σ) (q : Register) : Prop :=
  ∃ i before after, code.at? r.position = some i ∧ i.sources = before ++ q :: after ∧
    ∀ p ∈ before, (r.registers.get? p).isSome

/-- Code that changes few registers changes no more than that. -/
theorem Frame.mono {lo mid hi : Nat} {r r' : Run σ} (h : Frame lo mid r r') (hle : mid ≤ hi) :
    Frame lo hi r r' :=
  ⟨h.output, fun i hi32 hi' => h.registers i hi32 (by omega)⟩

variable {v : String → Option Int64} {e e' e₁ e₂ : Emitter}

/-- The code between two emitters reads the names in sequence from the registers that they are bound
to, and before it writes its last register. -/
def ReadsInOrder (code : Bytecode) (sink : Sink σ) (v : String → Option Int64) (e e' : Emitter)
    (names : List String) : Prop :=
  ∀ r : Run σ, r.position = e.size → Views e r v → ∀ y ∈ readUpTo v names,
    ∃ q n r', e.bindings.lookup y = some q ∧ Steps code sink n r r' ∧
      Frame e.registers (e'.registers - 1) r r' ∧ r'.ReadsNext code q

/-- If everything that is read has a value, the code of an evaluable runs to its end. -/
theorem Expr.computed (sink : Sink σ) {x : Expr} {q : Register} {r : Run σ}
    (h : x.lower.run e = .ok q e') (hopens : e'.Opens code) (hsmall : e'.registers ≤ UInt32.size)
    (hpos : r.position = e.size) (hview : Views e r v) (hall : ∀ y ∈ x.reads, (v y).isSome) :
    ∃ n r', Steps code sink n r r' ∧ Frame e.registers e'.registers r r' ∧
      r'.position = e'.size ∧ r'.registers.get? q = x.eval v := by
  by_cases hx : ∃ y, x = .var y
  · obtain ⟨y, rfl⟩ := hx
    obtain ⟨hy, rfl⟩ := run_lower_var.1 h
    exact ⟨0, r, .refl r, .refl _ _ _, hpos, (hview y q hy).2⟩
  · obtain ⟨-, n, r', hsteps, hframe, hdone⟩ :=
      (computes_delivers (v := v) h hopens hsmall).1 r hpos hview
    rcases hdone with ⟨hpos', hval⟩ | ⟨hnone, -⟩
    · exact ⟨n, r', hsteps, hframe, hpos', hval⟩
    · have hsome : (x.eval v).isSome := isSome_eval.2 fun y hy => by
        rcases mem_names.1 hy with hy | hy
        · exact hall y hy
        · cases x with
          | var z => exact absurd ⟨z, rfl⟩ hx
          | const | arith => cases hy
      rw [hnone] at hsome
      cases hsome

/-- An operation reads what its operands read, and then the operands. -/
theorem ReadsInOrder.binary {x y : Expr} {a b : Register} {f : Register → Instruction}
    (hx : x.lower.run e = .ok a e₁) (hy : y.lower.run e₁ = .ok b e₂)
    (hopens : (e₂.define f).Opens code) (hsmall : e₂.registers ≤ UInt32.size)
    (hf : ∀ d, (f d).sources = [a, b]) (hrx : ReadsInOrder code sink v e e₁ x.reads)
    (hry : ReadsInOrder code sink v e₁ e₂ y.reads) :
    ReadsInOrder code sink v e (e₂.define f) (x.reads ++ y.reads ++ (x.operand ++ y.operand)) := by
  intro r hpos hview z hz
  have hg := Expr.lower_grows hx
  have hg' := Expr.lower_grows hy
  have hreg := hg.registers
  have hreg' := hg'.registers
  have hdefine : (e₂.define f).registers = e₂.registers + 1 := rfl
  have hopens₂ := hopens.of_extends (e₂.extends_define _)
  rw [List.append_assoc] at hz
  rcases mem_readUpTo_append hz with hz | ⟨hallx, hz⟩
  · obtain ⟨q, n, r', hq, hsteps, hframe, hnext⟩ := hrx r hpos hview z hz
    exact ⟨q, n, r', hq, hsteps, hframe.mono (by omega), hnext⟩
  obtain ⟨n₁, r₁, hsteps₁, hframe₁, hpos₁, hval₁⟩ :=
    Expr.computed sink hx (hopens₂.of_extends hg'.code) (by omega) hpos hview hallx
  have hview₁ := hview.grows hg hframe₁ (by omega)
  rcases mem_readUpTo_append hz with hz | ⟨hally, hz⟩
  · obtain ⟨q, n, r', hq, hsteps, hframe, hnext⟩ := hry r₁ hpos₁ hview₁ z hz
    rw [hg.bindings] at hq
    exact ⟨q, n₁ + n, r', hq, hsteps₁.trans hsteps,
      hframe₁.trans (hframe.mono (by omega)) (by omega) (by omega), hnext⟩
  obtain ⟨n₂, r₂, hsteps₂, hframe₂, hpos₂, hval₂⟩ :=
    Expr.computed sink hy hopens₂ hsmall hpos₁ hview₁ hally
  have hat : code.at? r₂.position = some (f (.ofIndex e₂.registers)) := by
    rw [hpos₂, hopens.at?_define]
  have hframe : Frame e.registers ((e₂.define f).registers - 1) r r₂ :=
    hframe₁.trans hframe₂ (by omega) (by omega)
  rcases mem_readUpTo_append hz with hz | ⟨hop, hz⟩
  · -- the left operand is the name
    cases x with
    | var w =>
      have hzw : z = w := by simpa [Expr.operand] using mem_of_mem_readUpTo hz
      obtain ⟨hw, -⟩ := Expr.run_lower_var.1 hx
      exact ⟨a, n₁ + n₂, r₂, hzw ▸ hw, hsteps₁.trans hsteps₂, hframe,
        _, [], [b], hat, hf _, nofun⟩
    | const | arith => cases hz
  · -- the right operand is the name, and the left one has been computed
    cases y with
    | var w =>
      have hzw : z = w := by simpa [Expr.operand] using mem_of_mem_readUpTo hz
      obtain ⟨hw, -⟩ := Expr.run_lower_var.1 hy
      rw [hg.bindings] at hw
      refine ⟨b, n₁ + n₂, r₂, hzw ▸ hw, hsteps₁.trans hsteps₂, hframe,
        _, [a], [], hat, hf _, fun p hp => ?_⟩
      have hcomputes : Computes code sink v e e₁ a (x.eval v) :=
        (Expr.computes_delivers hx (hopens₂.of_extends hg'.code) (by omega)).1
      obtain ⟨i, hi, rfl⟩ := (hcomputes r hpos hview).1
      rw [List.mem_singleton.1 hp, hframe₂.registers i (by omega) (.inl hi), hval₁,
        Expr.isSome_eval]
      intro u hu
      rcases Expr.mem_names.1 hu with hu | hu
      · exact hallx u hu
      · exact hop u hu
    | const | arith => cases hz

/-- The code of an evaluable reads its names in order. -/
theorem Expr.readsInOrder : ∀ {x : Expr} {e e' : Emitter} {q : Register},
    x.lower.run e = .ok q e' → e'.Opens code → e'.registers ≤ UInt32.size →
    ReadsInOrder code sink v e e' x.reads
  | .const _, _, _, _, _, _, _ => fun _ _ _ _ hz => by cases hz
  | .var _, _, _, _, _, _, _ => fun _ _ _ _ hz => by cases hz
  | .arith op x y, e, e', q, h, hopens, hsmall => by
    obtain ⟨a, e₁, b, e₂, hx, hy, rfl, rfl⟩ := run_lower_arith.1 h
    rw [Emitter.define_registers] at hsmall
    have hg' := lower_grows hy
    have hreg' := hg'.registers
    have hopens₂ := hopens.of_extends (e₂.extends_define _)
    exact .binary hx hy hopens (by omega) (fun _ => rfl)
      (readsInOrder hx (hopens₂.of_extends hg'.code) (by omega))
      (readsInOrder hy hopens₂ (by omega))

/-- The code of an assignment's value reads its names in order. -/
theorem Expr.readsInOrder_value {x : Expr} {q : Register} (h : x.lowerValue.run e = .ok q e')
    (hopens : e'.Opens code) (hsmall : e'.registers ≤ UInt32.size) :
    ReadsInOrder code sink v e e' x.valueReads := by
  rcases run_lowerValue.1 h with ⟨y, a, rfl, ha, rfl, rfl⟩ | ⟨hx, h⟩
  · intro r hpos hview z hz
    have hzy : z = y := by simpa [valueReads, reads, operand] using mem_of_mem_readUpTo hz
    have hat : code.at? r.position = some (.set (.ofIndex e.registers) (.register a)) := by
      rw [hpos, hopens.at?_define]
    exact ⟨a, 0, r, hzy ▸ ha, .refl r, .refl _ _ _, _, [], [], hat, rfl, nofun⟩
  · have hoperand : x.operand = [] := by
      cases x with
      | var y => exact absurd rfl (hx y)
      | const | arith => rfl
    rw [valueReads, hoperand, List.append_nil]
    exact readsInOrder h hopens hsmall

/-- The code of a comparison reads its names in order. -/
theorem Test.readsInOrder {t : Test} {q : Register} (h : t.lower.run e = .ok q e')
    (hopens : e'.Opens code) (hsmall : e'.registers ≤ UInt32.size) :
    ReadsInOrder code sink v e e' t.reads := by
  obtain ⟨a, e₁, b, e₂, hx, hy, rfl, rfl⟩ := run_lower.1 h
  rw [Emitter.define_registers] at hsmall
  have hg' := Expr.lower_grows hy
  have hreg' := hg'.registers
  have hopens₂ := hopens.of_extends (e₂.extends_define _)
  exact .binary hx hy hopens (by omega) (fun _ => rfl)
    (Expr.readsInOrder hx (hopens₂.of_extends hg'.code) (by omega))
    (Expr.readsInOrder hy hopens₂ (by omega))

/-! ## Readings -/

/-- A name that is read, and the scope and the memory at that point. -/
structure Reading where
  name : String
  /-- The reading is made in a loop that assigns the name, and nothing before the loop does. -/
  carried : Bool
  scope : Scope
  memory : Memory

namespace Reading

/-- What is found in the cell of the name. -/
def found (rd : Reading) : Option Stamped :=
  rd.memory.found rd.scope rd.name

/-- What the name was assigned last. -/
def latest (rd : Reading) : Option Stamped :=
  rd.memory.latest rd.name

end Reading

/-- The readings of names in sequence, up to the first one without a value. -/
def Memory.readings (names carried : List String) (s : Scope) (m : Memory) : List Reading :=
  (readUpTo (m.view s) names).map fun x => ⟨x, x ∈ carried, s, m⟩

/-- The readings that are made when a command is run. The names that are assigned somewhere before
the command in the text are given, and those that are carried by the loops around it. -/
def Command.readings (fuel : Nat) :
    Command → (earlier carried : List String) → Scope → Memory → List Reading
  | .skip, _, _, _, _ | .print _, _, _, _, _ => []
  | .seq first second, earlier, carried, s, m =>
    first.readings fuel earlier carried s m ++ (first.exec fuel s m).trace
      (second.readings fuel (earlier ++ first.assigned) carried (first.after s))
  | .assign _ value, _, carried, s, m => m.readings value.valueReads carried s
  | .ifElse test thenBranch elseBranch, earlier, carried, s, m =>
    m.readings test.reads carried s ++
      match test.eval (m.view s) with
      | some true => thenBranch.readings fuel earlier carried s m
      | some false => elseBranch.readings fuel (earlier ++ thenBranch.assigned) carried
          ⟨(thenBranch.after s).next, s.cell⟩ m
      | none => []
  | .whileLoop test body, earlier, carried, s, m =>
    let carried := carried ++ body.assigned.filter (· ∉ earlier)
    Outcome.traceWhile (fun m => test.eval (m.view s))
      (fun m => (body.exec fuel s m).andThen
        (Memory.settle body.assigned s.cell (body.after s).cell))
      (fun m => m.readings test.reads carried s)
      (fun m => body.readings fuel earlier carried s m) fuel m

variable {F : List Nat} {start : σ}

/-- The reading is made by the next instruction of the run, from the given register. -/
structure Reading.IsAt (rd : Reading) (code : Bytecode) (sink : Sink σ) (F : List Nat) (start : σ)
    (r : Run σ) (q : Register) : Prop where
  cell : (rd.scope.cell rd.name).bind (place F) = some q
  reads : r.ReadsNext code q
  memory : Matches F sink start rd.memory r

/-- The register from which a name is read holds what is found in its cell. -/
theorem Reading.IsAt.get? {rd : Reading} {r : Run σ} {q : Register}
    (h : rd.IsAt code sink F start r q) : r.registers.get? q = rd.found.map (·.value) := by
  obtain ⟨k, hk, hq⟩ := Option.bind_eq_some_iff.1 h.cell
  rw [h.memory.get?_place hq, Reading.found, Memory.found, hk, Option.bind_some]

/-- The reading is made in the course of the run. -/
def Reading.Made (rd : Reading) (code : Bytecode) (sink : Sink σ) (F : List Nat) (start : σ)
    (r : Run σ) : Prop :=
  ∃ n r' q, Steps code sink n r r' ∧ rd.IsAt code sink F start r' q

/-- A reading that is made later is made. -/
theorem Reading.Made.of_steps {rd : Reading} {r r₁ : Run σ} {n : Nat}
    (hsteps : Steps code sink n r r₁) (h : rd.Made code sink F start r₁) :
    rd.Made code sink F start r := by
  obtain ⟨k, r', q, hsteps', hat⟩ := h
  exact ⟨n + k, r', q, hsteps.trans hsteps', hat⟩

variable {s : Scope} {pre rest : List Nat} {m : Memory} {r : Run σ} {fuel : Nat}

/-- Names that code reads in order are read from the registers of their cells. -/
theorem ReadsInOrder.made (T : Target code sink F start) {names : List String}
    (h : ReadsInOrder code sink (m.view s) e e' names) (hs : s.WF) (hplaced : Placed pre s e)
    (hF : F = pre ++ rest) (hrest : ∀ i ∈ rest, e'.registers - 1 ≤ i)
    (hpos : r.position = e.size) (hm : Matches F sink start m r) (carried : List String) :
    ∀ rd ∈ m.readings names carried s, rd.Made code sink F start r := by
  intro rd hrd
  obtain ⟨y, hy, rfl⟩ := List.mem_map.1 hrd
  have hview : Views e r (m.view s) := (hF ▸ hm).views hs hplaced
  obtain ⟨q, n, r', hq, hsteps, hframe, hnext⟩ := h r hpos hview y hy
  have hm' : Matches F sink start m r' := hm.frame T hframe fun i hi => by
    rw [hF] at hi
    rcases List.mem_append.1 hi with hi | hi
    · exact .inl (hplaced.lt i hi)
    · exact .inr (hrest i hi)
  refine ⟨n, r', q, hsteps, ⟨?_, hnext, hm'⟩⟩
  rw [hF, ← hq, hplaced.lookup, hs.bind_place_append hplaced.length]

/-- The code of a command makes its readings. -/
def Command.Observed (code : Bytecode) (sink : Sink σ) (F : List Nat) (start : σ) (fuel : Nat)
    (c : Command) : Prop :=
  ∀ {e e' s pre post}, Site code F c e e' s pre post → ∀ {m r}, r.position = e.size →
    Matches F sink start m r → ∀ (earlier carried : List String),
      ∀ rd ∈ c.readings fuel earlier carried s m, rd.Made code sink F start r

namespace Command

/-- The code of an assignment makes the readings of its value. -/
theorem observed_assign (T : Target code sink F start) (x : String) (v : Expr) :
    Observed code sink F start fuel (.assign x v) := by
  intro e e' s pre post h m r hpos hm earlier carried
  obtain ⟨q, e₁, hv, rfl⟩ := run_lower_assign.1 h.lowered
  have hreg := (Expr.lowerValue_grows hv).1.registers
  have hpos' := v.valueWidth_pos
  have hsmall : e₁.registers ≤ UInt32.size := h.small
  refine (Expr.readsInOrder_value hv h.opens hsmall).made T h.wf h.placed h.places ?_ hpos hm carried
  intro i hi
  rcases List.mem_append.1 hi with hi | hi
  · have hhome : i = e.registers + v.valueWidth - 1 := by simpa [homes] using hi
    omega
  · have hlater : e₁.registers ≤ i := h.later i hi
    omega

/-- The code of two commands makes the readings of the first, and those of the second if it comes to
them. -/
theorem observed_seq {a b : Command} (hsim : Simulated code sink F start fuel a)
    (ha : Observed code sink F start fuel a) (hb : Observed code sink F start fuel b) :
    Observed code sink F start fuel (.seq a b) := by
  intro e e' s pre post h m r hpos hm earlier carried
  obtain ⟨e₁, hsa, hsb⟩ := h.seq
  refine Outcome.forall_mem_append_trace.2 ⟨ha hsa hpos hm earlier carried, fun m₁ h₁ rd hrd => ?_⟩
  have hrun := hsim hsa hpos hm
  rw [h₁] at hrun
  obtain ⟨n, r₁, hsteps, hpos₁, hm₁⟩ := hrun
  exact .of_steps hsteps (hb hsb hpos₁ hm₁ _ carried rd hrd)

/-- The code of a branch makes the readings of its condition and then those of the block that is
taken. -/
theorem observed_ifElse (T : Target code sink F start) {t : Test} {a b : Command}
    (ha : Observed code sink F start fuel a) (hb : Observed code sink F start fuel b) :
    Observed code sink F start fuel (.ifElse t a b) := by
  intro e e' s pre post h m r hpos hm earlier carried rd hrd
  obtain ⟨cond, e₀, e₁, e₂, ht, rfl, hplaced, hsa, hsb⟩ := h.ifElse
  have hopens₁ := hsa.opens.of_extends (lower_grows hsa.lowered).2
  have hreg := (lower_grows hsa.lowered).1
  have hsmall := hsa.small
  rw [Emitter.beginThen_registers] at hreg
  rcases List.mem_append.1 hrd with hrd | hrd
  · refine (Test.readsInOrder ht (hopens₁.of_extends (e₀.extends_beginThen cond)) (by omega)).made T
      h.wf h.placed hsa.places ?_ hpos hm carried rd hrd
    intro i hi
    rcases List.mem_append.1 hi with hi | hi
    · have hhome : e₀.registers ≤ i := (mem_homes hi).1
      omega
    · have hlater := hsa.later i hi
      omega
  · obtain ⟨n, r₀, hsteps, hm₀, h₀⟩ := enters_block T h ht hsa hsb hpos hm
    rcases h₀ with ⟨hc, hpos₀⟩ | ⟨hc, hpos₀⟩ | ⟨hc, -⟩ <;> simp only [hc] at hrd
    · exact .of_steps hsteps (ha hsa hpos₀ hm₀ _ carried rd hrd)
    · exact .of_steps hsteps (hb hsb hpos₀ hm₀ _ carried rd hrd)
    · cases hrd

/-- The rounds of a loop make their readings. -/
theorem observed_rounds (T : Target code sink F start) {t : Test} {b : Command} {cond : Register}
    (hsim : Simulated code sink F start fuel b) (hb : Observed code sink F start fuel b)
    {e e₁ e₂ : Emitter} {post : List Nat}
    (h : Site code F (.whileLoop t b) e (e.endLoop e₁ e₂) s pre post)
    (ht : t.lower.run e.beginLoop = .ok cond e₁)
    (hsb : Site code F b (e.beginBody e₁ cond) e₂ s pre post) (earlier carried : List String)
    {rounds : Nat} (hpos : r.position = e.beginLoop.size) (hm : Matches F sink start m r) :
    ∀ rd ∈ Outcome.traceWhile (fun m => t.eval (m.view s))
        (fun m => (b.exec fuel s m).andThen
          (Memory.settle b.assigned s.cell (b.after s).cell))
        (fun m => m.readings t.reads carried s)
        (fun m => b.readings fuel earlier carried s m) rounds m,
      rd.Made code sink F start r := by
  induction rounds generalizing m r with
  | zero => exact nofun
  | succ rounds ih =>
    intro rd hrd
    have hopens₁ := hsb.opens.of_extends (lower_grows hsb.lowered).2
    have hreg := (lower_grows hsb.lowered).1
    have hsmall := hsb.small
    rw [Emitter.beginBody_registers] at hreg
    rcases List.mem_append.1 hrd with hrd | hrd
    · refine (Test.readsInOrder ht (hopens₁.of_extends (e.extends_beginBody e₁ cond))
        (by omega)).made T h.wf (h.placed.mono e.beginLoop (Nat.le_refl _) rfl) hsb.places ?_ hpos
          hm carried rd hrd
      intro i hi
      rcases List.mem_append.1 hi with hi | hi
      · have hhome : e₁.registers ≤ i := (mem_homes hi).1
        omega
      · have hlater := hsb.later i hi
        omega
    · obtain ⟨n, r₀, hsteps, hm₀, h₀⟩ := enters_body T h ht hsb hpos hm
      rcases h₀ with ⟨hc, -, hpos₀⟩ | ⟨hc, hpos₀⟩ | ⟨hc, -⟩ <;> simp only [hc] at hrd
      · refine .of_steps hsteps (Outcome.forall_mem_append_trace.2
          ⟨hb hsb hpos₀ hm₀ earlier carried, fun m₁ h₁ => ?_⟩ rd hrd)
        have hround := simulated_round T hsim h ht hsb hpos₀ hm₀
        rw [h₁] at hround
        obtain ⟨n₁, r₁, hsteps₁, hpos₁, hm₁⟩ := hround
        exact fun rd hrd => .of_steps hsteps₁ (ih hpos₁ hm₁ rd hrd)
      · cases hrd
      · cases hrd

/-- The code of a loop makes the readings of its condition and its body, round after round. -/
theorem observed_whileLoop (T : Target code sink F start) {t : Test} {b : Command}
    (hsim : Simulated code sink F start fuel b) (hb : Observed code sink F start fuel b) :
    Observed code sink F start fuel (.whileLoop t b) := by
  intro e e' s pre post h m r hpos hm earlier carried rd hrd
  obtain ⟨cond, e₁, e₂, ht, rfl, hplaced, hsb⟩ := h.whileLoop
  obtain ⟨r₁, hgo, hpos₁, hm₁⟩ := enters_loop ht hsb hpos hm
  exact .of_steps hgo (observed_rounds T hsim hb h ht hsb earlier _ hpos₁ hm₁ rd hrd)

/-- The code of a command makes its readings. -/
theorem observed (T : Target code sink F start) (c : Command) :
    Observed code sink F start fuel c := by
  induction c with
  | skip | print => exact fun _ _ _ _ _ _ _ _ hrd => by cases hrd
  | assign x v => exact observed_assign T x v
  | seq a b iha ihb => exact observed_seq (simulated T a) iha ihb
  | ifElse t a b iha ihb => exact observed_ifElse T iha ihb
  | whileLoop t b ih => exact observed_whileLoop T (simulated T b) ih

end Command

end RegisterBackend
