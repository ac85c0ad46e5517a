import RegisterBackend.Proofs.Layout

/-!
# Straight pieces of code

The code of an evaluable, of a comparison and of the end of a block runs from its first instruction
to its last, or stops at a read of an empty register. For an evaluable this is `Expr.computes`: the
code leads to its own end with the value in the register that lowering returned, and if there is no
value, either the register is empty or the run is blocked. Registers that were handed out earlier or
will be handed out later are left alone (`Frame`).

The copies at the end of a block are made one after the other. As none of them writes what another
one reads, they amount to one simultaneous move (`Steps.moves`).
-/

namespace RegisterBackend

variable {σ : Type} {code : Bytecode} {sink : Sink σ}

/-! ## What stays as it is -/

/-- Nothing was printed, and only registers with numbers from `lo` up to `hi` were written. -/
structure Frame (lo hi : Nat) (r r' : Run σ) : Prop where
  output : r'.output = r.output
  registers : ∀ i, i < UInt32.size → i < lo ∨ hi ≤ i →
    r'.registers.get? (.ofIndex i) = r.registers.get? (.ofIndex i)

namespace Frame

variable {lo mid hi : Nat} {r r₁ r₂ : Run σ}

theorem refl (lo hi : Nat) (r : Run σ) : Frame lo hi r r :=
  ⟨rfl, fun _ _ _ => rfl⟩

/-- Two stretches of code that write adjacent ranges of registers write the range of both. -/
theorem trans (h₁ : Frame lo mid r r₁) (h₂ : Frame mid hi r₁ r₂) (hlo : lo ≤ mid)
    (hhi : mid ≤ hi) : Frame lo hi r r₂ where
  output := h₂.output.trans h₁.output
  registers i hi32 hi' := by
    rw [h₂.registers i hi32 (by omega), h₁.registers i hi32 (by omega)]

/-- Writing a register of the range. -/
theorem write {j k : Nat} {v : Int64} (hlo : lo ≤ j) (hhi : j < hi) (hj : j < UInt32.size) :
    Frame lo hi r (r.proceed (r.registers.write (.ofIndex j) v) k) where
  output := rfl
  registers i hi32 hi' := by
    apply Registers.get?_write_of_ne
    intro he
    have := Register.ofIndex_inj hi32 hj he
    omega

end Frame

/-! ## Blocked runs -/

section Blocked

variable {r : Run σ} {d a b : Register}

/-- An operation is blocked if an operand is empty. -/
theorem blocked_of_binary {i : Instruction} {f : Int64 → Int64 → RunM σ Unit}
    (hat : code.at? r.position = some i)
    (hi : RunM.execute code sink i = RunM.read a >>= fun x => RunM.read b >>= f x)
    (h : r.registers.get? a = none ∨ r.registers.get? b = none) : Blocked code sink r := by
  cases ha : r.registers.get? a with
  | none => exact ⟨i, a, r.count, hat, RunM.run_step_read_error hi ha, rfl⟩
  | some x =>
    have hb : r.registers.get? b = none := by simpa [ha] using h
    refine ⟨i, b, r.count, hat, RunM.run_step_error ?_, rfl⟩
    rw [hi, run_bind_ok (RunM.run_read (r := r.count) ha)]
    exact run_bind_error (RunM.run_read_error (r := r.count) hb)

/-- A copy is blocked if its source is empty. -/
theorem blocked_of_copy (hat : code.at? r.position = some (.set d (.register a)))
    (h : r.registers.get? a = none) : Blocked code sink r :=
  ⟨_, a, r.count, hat, RunM.run_step_read_error rfl h, rfl⟩

end Blocked

/-! ## Evaluables -/

/-- The names that the emitter has bound are bound to registers that were handed out, and these hold
what the view says. -/
def Views (e : Emitter) (r : Run σ) (v : String → Option Int64) : Prop :=
  ∀ x q, e.bindings.lookup x = some q →
    (∃ i < e.registers, q = .ofIndex i) ∧ r.registers.get? q = v x

/-- The code between two emitters computes a value into a register, or is blocked if there is
none. -/
def Computes (code : Bytecode) (sink : Sink σ) (v : String → Option Int64) (e e' : Emitter)
    (q : Register) (value : Option Int64) : Prop :=
  ∀ r : Run σ, r.position = e.size → Views e r v → (∃ i < e'.registers, q = .ofIndex i) ∧
    ∃ n r', Steps code sink n r r' ∧ Frame e.registers e'.registers r r' ∧
      (r'.position = e'.size ∧ r'.registers.get? q = value ∨
        value = none ∧ Blocked code sink r')

/-- The code between two emitters computes a value into a register of its own, and is blocked if
there is none. -/
def Delivers (code : Bytecode) (sink : Sink σ) (v : String → Option Int64) (e e' : Emitter)
    (q : Register) (value : Option Int64) : Prop :=
  ∀ r : Run σ, r.position = e.size → Views e r v → (∃ i < e'.registers, q = .ofIndex i) ∧
    ∃ n r', Steps code sink n r r' ∧ Frame e.registers e'.registers r r' ∧
      (r'.position = e'.size ∧ (∃ a, value = some a ∧ r'.registers.get? q = some a) ∨
        value = none ∧ Blocked code sink r')

variable {v : String → Option Int64} {e e₁ e₂ : Emitter}

/-- Code that delivers a value in a register of its own computes it. -/
theorem Delivers.computes {q : Register} {value : Option Int64}
    (h : Delivers code sink v e e₁ q value) : Computes code sink v e e₁ q value := by
  intro r hpos hview
  obtain ⟨hlt, n, r', hsteps, hframe, h⟩ := h r hpos hview
  refine ⟨hlt, n, r', hsteps, hframe, ?_⟩
  rcases h with ⟨hpos', a, rfl, ha⟩ | hblocked
  · exact .inl ⟨hpos', ha⟩
  · exact .inr hblocked

/-- What is bound can be read behind code that hands out registers and binds nothing. -/
theorem Views.grows {r r₁ : Run σ} {w : Nat} (h : Views e r v) (hg : e.Grows e₁ w)
    (hframe : Frame e.registers e₁.registers r r₁) (hsmall : e.registers ≤ UInt32.size) :
    Views e₁ r₁ v := by
  intro x q hx
  rw [hg.bindings] at hx
  obtain ⟨⟨i, hi, rfl⟩, hv⟩ := h x q hx
  refine ⟨⟨i, by rw [hg.registers]; omega, rfl⟩, ?_⟩
  rw [hframe.registers i (by omega) (.inl hi), hv]

/-- The value of an operation on two values that may be missing. -/
def combine (op : Int64 → Int64 → Int64) : Option Int64 → Option Int64 → Option Int64
  | some a, some b => some (op a b)
  | _, _ => none

/-- An operation is computed from its operands. -/
theorem Delivers.binary {a b : Register} {va vb : Option Int64} {f : Register → Instruction}
    {op : Int64 → Int64 → Int64} {w w' : Nat} (ha : Computes code sink v e e₁ a va)
    (hb : Computes code sink v e₁ e₂ b vb) (hg : e.Grows e₁ w) (hg' : e₁.Grows e₂ w')
    (hopens : (e₂.define f).Opens code) (hsmall : e₂.registers < UInt32.size)
    (hf : ∀ d, RunM.execute code sink (f d) = RunM.read a >>= fun x => RunM.read b >>= fun y =>
      RunM.write d (op x y)) :
    Delivers code sink v e (e₂.define f) (.ofIndex e₂.registers) (combine op va vb) := by
  intro r hpos hview
  have hreg := hg.registers
  have hreg' := hg'.registers
  obtain ⟨⟨i, hi, rfl⟩, n₁, r₁, hsteps₁, hframe₁, h₁⟩ := ha r hpos hview
  refine ⟨⟨e₂.registers, Nat.lt_succ_self _, rfl⟩, ?_⟩
  have hmono : e₂.registers ≤ (e₂.define f).registers := Nat.le_succ _
  rcases h₁ with ⟨hpos₁, hval₁⟩ | ⟨rfl, hblocked⟩
  · have hview₁ := hview.grows hg hframe₁ (by omega)
    obtain ⟨-, n₂, r₂, hsteps₂, hframe₂, h₂⟩ := hb r₁ hpos₁ hview₁
    have hframe := hframe₁.trans hframe₂ (by omega) (by omega)
    -- the left operand is still there when the right one has been computed
    have hval₁' : r₂.registers.get? (.ofIndex i) = va := by
      rw [hframe₂.registers i (by omega) (.inl hi), hval₁]
    rcases h₂ with ⟨hpos₂, hval₂⟩ | ⟨rfl, hblocked⟩
    · have hat : code.at? r₂.position = some (f (.ofIndex e₂.registers)) := by
        rw [hpos₂, hopens.at?_define]
      cases va with
      | none =>
        refine ⟨n₁ + n₂, r₂, hsteps₁.trans hsteps₂,
          hframe.trans (.refl _ _ _) (by omega) hmono, .inr ⟨rfl, ?_⟩⟩
        exact blocked_of_binary hat (hf _) (.inl hval₁')
      | some x =>
        cases vb with
        | none =>
          refine ⟨n₁ + n₂, r₂, hsteps₁.trans hsteps₂,
            hframe.trans (.refl _ _ _) (by omega) hmono, .inr ⟨rfl, ?_⟩⟩
          exact blocked_of_binary hat (hf _) (.inr hval₂)
        | some y =>
          have hexec : (RunM.execute code sink (f (.ofIndex e₂.registers))).run r₂.count =
              (RunM.write (.ofIndex e₂.registers) (op x y)).run r₂.count := by
            rw [hf, run_bind_ok (RunM.run_read (r := r₂.count) hval₁'),
              run_bind_ok (RunM.run_read (r := r₂.count) hval₂)]
          have hlast : Frame e₂.registers (e₂.define f).registers r₂
              (r₂.proceed (r₂.registers.write (.ofIndex e₂.registers) (op x y))
                (r₂.position + 1)) :=
            .write (Nat.le_refl _) (Nat.lt_succ_self _) hsmall
          refine ⟨n₁ + n₂ + 1, _, (hsteps₁.trans hsteps₂).trans (.single hat (RunM.run_step hexec)),
            hframe.trans hlast (by omega) hmono,
            .inl ⟨?_, op x y, rfl, Registers.get?_write_self⟩⟩
          show r₂.position + 1 = _
          rw [hpos₂, Emitter.define_size]
    · refine ⟨n₁ + n₂, r₂, hsteps₁.trans hsteps₂,
        hframe.trans (.refl _ _ _) (by omega) hmono, .inr ⟨?_, hblocked⟩⟩
      cases va <;> rfl
  · refine ⟨n₁, r₁, hsteps₁, hframe₁.trans (.refl _ _ _) (by omega) ?_, .inr ⟨rfl, hblocked⟩⟩
    rw [Emitter.define_registers]
    omega

/-- A number is computed by loading it. -/
theorem Delivers.literal {a : Int64} (hopens : (e.define fun d => .set d (.literal a)).Opens code)
    (hsmall : e.registers < UInt32.size) :
    Delivers code sink v e (e.define fun d => .set d (.literal a)) (.ofIndex e.registers)
      (some a) := by
  intro r hpos hview
  refine ⟨⟨e.registers, Nat.lt_succ_self _, rfl⟩, 1, _,
    .single (by rw [hpos, hopens.at?_define]) RunM.run_step_literal,
    .write (Nat.le_refl _) (Nat.lt_succ_self _) hsmall,
    .inl ⟨?_, a, rfl, Registers.get?_write_self⟩⟩
  show r.position + 1 = _
  rw [hpos, Emitter.define_size]

/-- The value of a bound name is computed by copying it. -/
theorem Delivers.copy {x : String} {a : Register} (hx : e.bindings.lookup x = some a)
    (hopens : (e.define fun d => .set d (.register a)).Opens code)
    (hsmall : e.registers < UInt32.size) :
    Delivers code sink v e (e.define fun d => .set d (.register a)) (.ofIndex e.registers)
      (v x) := by
  intro r hpos hview
  refine ⟨⟨e.registers, Nat.lt_succ_self _, rfl⟩, ?_⟩
  have hat : code.at? r.position = some (.set (.ofIndex e.registers) (.register a)) := by
    rw [hpos, hopens.at?_define]
  obtain ⟨-, hval⟩ := hview x a hx
  cases hv : v x with
  | none =>
    exact ⟨0, r, .refl r, .refl _ _ _, .inr ⟨rfl, blocked_of_copy hat (hval.trans hv)⟩⟩
  | some w =>
    refine ⟨1, _, .single hat (RunM.run_step_copy (hval.trans hv)),
      .write (Nat.le_refl _) (Nat.lt_succ_self _) hsmall,
      .inl ⟨?_, w, rfl, Registers.get?_write_self⟩⟩
    show r.position + 1 = _
    rw [hpos, Emitter.define_size]

/-- The code of an evaluable computes its value, into a register of its own unless it is a name. -/
theorem Expr.computes_delivers : ∀ {x : Expr} {e e' : Emitter} {q : Register},
    x.lower.run e = .ok q e' → e'.Opens code → e'.registers ≤ UInt32.size →
    Computes code sink v e e' q (x.eval v) ∧
      ((∀ y, x ≠ .var y) → Delivers code sink v e e' q (x.eval v))
  | .const a, e, e', q, h, hopens, hsmall => by
    obtain ⟨rfl, rfl⟩ := run_lower_const.1 h
    have hd : Delivers code sink v e _ (.ofIndex e.registers) (some a) := .literal hopens hsmall
    exact ⟨hd.computes, fun _ => hd⟩
  | .var x, e, e', q, h, hopens, hsmall => by
    obtain ⟨hx, rfl⟩ := run_lower_var.1 h
    refine ⟨fun r hpos hview => ?_, fun hne => absurd rfl (hne x)⟩
    obtain ⟨hlt, hval⟩ := hview x q hx
    exact ⟨hlt, 0, r, .refl r, .refl _ _ _, .inl ⟨hpos, hval⟩⟩
  | .arith op x y, e, e', q, h, hopens, hsmall => by
    obtain ⟨a, e₁, b, e₂, hx, hy, rfl, rfl⟩ := run_lower_arith.1 h
    rw [Emitter.define_registers] at hsmall
    have hg := lower_grows hx
    have hg' := lower_grows hy
    have hreg := hg.registers
    have hreg' := hg'.registers
    have hopens₂ := hopens.of_extends (e₂.extends_define _)
    have heval : (Expr.arith op x y).eval v = combine op.apply (x.eval v) (y.eval v) := by
      simp only [eval]
      cases x.eval v <;> cases y.eval v <;> rfl
    have hd : Delivers code sink v e (e₂.define fun d => .arith op d a b) (.ofIndex e₂.registers)
        ((Expr.arith op x y).eval v) := by
      rw [heval]
      exact .binary (computes_delivers hx (hopens₂.of_extends hg'.code) (by omega)).1
        (computes_delivers hy hopens₂ (by omega)).1 hg hg' hopens (by omega) fun _ => rfl
    exact ⟨hd.computes, fun _ => hd⟩

/-- The code of an assignment's value computes it into a register of its own. -/
theorem Expr.delivers_value {x : Expr} {e e' : Emitter} {q : Register}
    (h : x.lowerValue.run e = .ok q e') (hopens : e'.Opens code)
    (hsmall : e'.registers ≤ UInt32.size) : Delivers code sink v e e' q (x.eval v) := by
  rcases run_lowerValue.1 h with ⟨y, a, rfl, ha, rfl, rfl⟩ | ⟨hx, h⟩
  · exact .copy ha hopens hsmall
  · exact (computes_delivers h hopens hsmall).2 hx

/-- The code of a comparison computes one or zero. -/
theorem Test.delivers {t : Test} {e e' : Emitter} {q : Register} (h : t.lower.run e = .ok q e')
    (hopens : e'.Opens code) (hsmall : e'.registers ≤ UInt32.size) :
    Delivers code sink v e e' q ((t.eval v).map fun b => if b then 1 else 0) := by
  obtain ⟨a, e₁, b, e₂, hx, hy, rfl, rfl⟩ := run_lower.1 h
  rw [Emitter.define_registers] at hsmall
  have hg := Expr.lower_grows hx
  have hg' := Expr.lower_grows hy
  have hreg := hg.registers
  have hreg' := hg'.registers
  have hopens₂ := hopens.of_extends (e₂.extends_define _)
  have heval : ((t.eval v).map fun b => if b then (1 : Int64) else 0) =
      combine t.op.apply (t.lhs.eval v) (t.rhs.eval v) := by
    simp only [eval]
    cases t.lhs.eval v <;> cases t.rhs.eval v <;> rfl
  rw [heval]
  exact .binary (Expr.computes_delivers hx (hopens₂.of_extends hg'.code) (by omega)).1
    (Expr.computes_delivers hy hopens₂ (by omega)).1 hg hg' hopens (by omega) fun _ => rfl

/-! ## Copies -/

/-- Copies none of which writes what another one reads or writes amount to one move. -/
theorem Steps.moves : ∀ {ms : List (Register × Register)} {r : Run σ},
    (∀ (j : Nat) (m : Register × Register), ms[j]? = some m →
      code.at? (r.position + j) = some (.set m.1 (.register m.2))) →
    ms.Pairwise (fun m n => m.1 ≠ n.1) → (∀ m ∈ ms, ∀ n ∈ ms, m.1 ≠ n.2) →
    ∃ k r', Steps code sink k r r' ∧ r'.output = r.output ∧
      ((r'.position = r.position + ms.length ∧
          (∀ m ∈ ms, (r.registers.get? m.2).isSome ∧
            r'.registers.get? m.1 = r.registers.get? m.2) ∧
          ∀ q, (∀ m ∈ ms, m.1 ≠ q) → r'.registers.get? q = r.registers.get? q) ∨
        (∃ m ∈ ms, r.registers.get? m.2 = none) ∧ Blocked code sink r')
  | [], r, _, _, _ =>
    ⟨0, r, .refl r, rfl, .inl ⟨rfl, fun _ h => (List.not_mem_nil h).elim, fun _ _ => rfl⟩⟩
  | m :: ms, r, hat, hdst, hsrc => by
    have hat₀ : code.at? r.position = some (.set m.1 (.register m.2)) := hat 0 m rfl
    obtain ⟨hm, hms⟩ := List.pairwise_cons.1 hdst
    cases hv : r.registers.get? m.2 with
    | none =>
      exact ⟨0, r, .refl r, rfl, .inr ⟨⟨m, List.mem_cons_self, hv⟩, blocked_of_copy hat₀ hv⟩⟩
    | some w =>
      let r₁ := r.proceed (r.registers.write m.1 w) (r.position + 1)
      have hstep : Steps code sink 1 r r₁ := .single hat₀ (RunM.run_step_copy hv)
      -- what the other copies read has not been written
      have hread : ∀ n ∈ ms, r₁.registers.get? n.2 = r.registers.get? n.2 := fun n hn =>
        Registers.get?_write_of_ne
          (hsrc m List.mem_cons_self n (List.mem_cons_of_mem _ hn)).symm
      obtain ⟨k, r', hsteps, hout, h⟩ := Steps.moves (r := r₁)
        (fun j n hn => by
          have := hat (j + 1) n (by simpa using hn)
          rwa [Nat.add_comm j 1, ← Nat.add_assoc] at this)
        hms fun a ha b hb =>
          hsrc a (List.mem_cons_of_mem _ ha) b (List.mem_cons_of_mem _ hb)
      refine ⟨1 + k, r', hstep.trans hsteps, hout, ?_⟩
      rcases h with ⟨hpos, hmoved, hrest⟩ | ⟨⟨n, hn, hnone⟩, hblocked⟩
      · refine .inl ⟨?_, ?_, ?_⟩
        · rw [hpos, List.length_cons]
          show r.position + 1 + ms.length = _
          omega
        · intro n hn
          rcases List.mem_cons.1 hn with rfl | hn
          · refine ⟨by simp [hv], ?_⟩
            rw [hrest _ fun a ha => (hm a ha).symm, hv]
            exact Registers.get?_write_self
          · obtain ⟨hsome, heq⟩ := hmoved n hn
            rw [hread n hn] at hsome heq
            exact ⟨hsome, heq⟩
        · intro q hq
          rw [hrest q fun a ha => hq a (List.mem_cons_of_mem _ ha)]
          exact Registers.get?_write_of_ne (hq m List.mem_cons_self).symm
      · rw [hread n hn] at hnone
        exact .inr ⟨⟨n, List.mem_cons_of_mem _ hn, hnone⟩, hblocked⟩

end RegisterBackend
