import Mathlib.Data.List.Forall2

/-!
# Steps in sequence

The passes are written as steps on a state that stop at the first failure and keep the state as it
was then. The laws here take a sequence that has succeeded apart into its steps, and a sequence that
has stopped into the steps before the failure and the step that failed. `Meets` says something of
both ends of a sequence, and its laws follow the sequence.

How a run without unknowns ends can be decided.
-/

namespace RegisterBackend

variable {ε σ α β : Type}

/-- A sequence of two computations succeeds exactly if the first does and the second does with its
result. -/
theorem bind_eq_ok {x : Except ε α} {f : α → Except ε β} {b : β} :
    x >>= f = .ok b ↔ ∃ a, x = .ok a ∧ f a = .ok b := by
  cases x <;> simp [bind, Except.bind]

/-- A fold that succeeds keeps what each of its steps keeps. -/
theorem foldlM_eq_ok {f : β → α → Except ε β} {P : β → Prop}
    (hf : ∀ {b a b'}, P b → f b a = .ok b' → P b') :
    ∀ {l : List α} {b b' : β}, P b → l.foldlM f b = .ok b' → P b'
  | [], _, _, hb, h => by
    cases h
    exact hb
  | a :: l, b, b', hb, h => by
    rw [List.foldlM_cons] at h
    obtain ⟨b₁, h₁, h₂⟩ := bind_eq_ok.1 h
    exact foldlM_eq_ok hf (hf hb h₁) h₂

/-- Folds over related lists that succeed have the same result if their steps have. -/
theorem foldlM_eq_of_forall₂ {γ : Type} {f : β → α → Except ε β} {g : β → γ → Except ε β}
    {R : α → γ → Prop}
    (hfg : ∀ a c b b₁ b₂, R a c → f b a = .ok b₁ → g b c = .ok b₂ → b₁ = b₂)
    {as : List α} {cs : List γ} (h : List.Forall₂ R as cs) {b b₁ b₂ : β}
    (h₁ : as.foldlM f b = .ok b₁) (h₂ : cs.foldlM g b = .ok b₂) : b₁ = b₂ := by
  induction h generalizing b with
  | nil =>
    cases h₁
    cases h₂
    rfl
  | cons hac _ ih =>
    rw [List.foldlM_cons] at h₁ h₂
    obtain ⟨d₁, hd₁, hrest₁⟩ := bind_eq_ok.1 h₁
    obtain ⟨d₂, hd₂, hrest₂⟩ := bind_eq_ok.1 h₂
    cases hfg _ _ _ _ _ hac hd₁ hd₂
    exact ih hrest₁ hrest₂

/-- A list of computations without results succeeds exactly if each of them does. -/
theorem forM_eq_ok {f : α → Except ε Unit} :
    ∀ {l : List α}, l.forM f = .ok () ↔ ∀ a ∈ l, f a = .ok ()
  | [] => by simp [pure, Except.pure]
  | a :: l => by
    show (f a >>= fun _ => l.forM f) = .ok () ↔ _
    rw [bind_eq_ok, List.forall_mem_cons, ← forM_eq_ok]
    exact ⟨fun ⟨_, ha, hl⟩ => ⟨ha, hl⟩, fun ⟨ha, hl⟩ => ⟨_, ha, hl⟩⟩

/-- The computation succeeds, or fails with an error that has a property. -/
def OrFails (Q : ε → Prop) (x : Except ε Unit) : Prop :=
  x = .ok () ∨ ∃ e, x = .error e ∧ Q e

namespace OrFails

variable {Q R : ε → Prop}

theorem mono {x : Except ε Unit} (h : OrFails Q x) (hQR : ∀ e, Q e → R e) : OrFails R x :=
  h.imp_right fun ⟨e, he, hQ⟩ => ⟨e, he, hQR e hQ⟩

/-- What comes first succeeds, so only what comes behind it may fail. -/
theorem bind_ok {x : Except ε α} {f : α → Except ε Unit} {a : α} (hx : x = .ok a)
    (h : OrFails Q (f a)) : OrFails Q (x >>= f) := by
  rw [hx]
  exact h

/-- Two computations one after the other fail as one of them does. -/
theorem bind {x : Except ε Unit} {f : Unit → Except ε Unit} (hx : OrFails Q x)
    (h : OrFails Q (f ())) : OrFails Q (x >>= f) := by
  rcases hx with hx | ⟨e, hx, hQ⟩
  · exact bind_ok hx h
  · rw [hx]
    exact .inr ⟨e, rfl, hQ⟩

/-- A computation on every element of a list fails as one of its steps does. -/
theorem forM {f : α → Except ε Unit} :
    ∀ {l : List α}, (∀ a ∈ l, OrFails Q (f a)) → OrFails Q (l.forM f)
  | [], _ => .inl rfl
  | a :: _, h =>
    bind (h a List.mem_cons_self) (forM fun b hb => h b (List.mem_cons_of_mem _ hb))

end OrFails

/-- A sequence of two steps succeeds exactly if the first does and the second does after it. -/
theorem run_bind_eq_ok {x : EStateM ε σ α} {f : α → EStateM ε σ β} {s t : σ} {b : β} :
    (x >>= f).run s = .ok b t ↔ ∃ a u, x.run s = .ok a u ∧ (f a).run u = .ok b t := by
  rw [EStateM.run_bind]
  cases hx : x.run s with
  | ok a u =>
    constructor
    · intro h
      exact ⟨a, u, rfl, h⟩
    · rintro ⟨a', u', he, h⟩
      injection he with ha hu
      rw [ha, hu]
      exact h
  | error e u => simp

/-- A failed step fails the sequence. -/
theorem run_bind_error {x : EStateM ε σ α} {f : α → EStateM ε σ β} {s t : σ} {e : ε}
    (h : x.run s = .error e t) : (x >>= f).run s = .error e t := by
  rw [EStateM.run_bind, h]

/-- A successful step hands its result and its state to the next one. -/
theorem run_bind_ok {x : EStateM ε σ α} {f : α → EStateM ε σ β} {s t : σ} {a : α}
    (h : x.run s = .ok a t) : (x >>= f).run s = (f a).run t := by
  rw [EStateM.run_bind, h]

/-- What a list of steps does when it succeeds: the first step, and then the others. -/
theorem run_forM_cons_eq_ok {f : α → EStateM ε σ PUnit} {a : α} {l : List α} {s t : σ} :
    ((a :: l).forM f).run s = .ok ⟨⟩ t ↔
      ∃ u, (f a).run s = .ok ⟨⟩ u ∧ (l.forM f).run u = .ok ⟨⟩ t := by
  show (f a >>= fun _ => l.forM f).run s = .ok ⟨⟩ t ↔ _
  rw [run_bind_eq_ok]
  constructor
  · rintro ⟨_, u, h₁, h₂⟩
    exact ⟨u, h₁, h₂⟩
  · rintro ⟨u, h₁, h₂⟩
    exact ⟨⟨⟩, u, h₁, h₂⟩

/-- A list of steps with results succeeds exactly if the first does and the others do after it. -/
theorem run_mapM_cons_eq_ok {f : α → EStateM ε σ β} {a : α} {l : List α} {s t : σ} {bs : List β} :
    ((a :: l).mapM f).run s = .ok bs t ↔
      ∃ b u bs', (f a).run s = .ok b u ∧ (l.mapM f).run u = .ok bs' t ∧ bs = b :: bs' := by
  rw [List.mapM_cons, run_bind_eq_ok]
  constructor
  · rintro ⟨b, u, hb, hrest⟩
    obtain ⟨bs', v, hbs', hpure⟩ := run_bind_eq_ok.1 hrest
    cases hpure
    exact ⟨b, u, bs', hb, hbs', rfl⟩
  · rintro ⟨b, u, bs', hb, hbs', rfl⟩
    exact ⟨b, u, hb, run_bind_eq_ok.2 ⟨bs', t, hbs', rfl⟩⟩

/-- Steps with a last one that is made in any case succeed exactly if they do and the last one does
after them. -/
theorem run_tryFinally_eq_ok {x : EStateM ε σ α} {last : EStateM ε σ β} {s t : σ} {a : α} :
    (tryFinally x last).run s = .ok a t ↔ ∃ u b, x.run s = .ok a u ∧ last.run u = .ok b t := by
  have hboth : ∀ p : α × β, (tryFinally' x fun _ => last).run s = .ok p t ↔
      ∃ u, x.run s = .ok p.1 u ∧ last.run u = .ok p.2 t := by
    intro p
    simp only [tryFinally', EStateM.run]
    cases x s with
    | ok a u => cases hl : last u <;> grind
    | error e u => cases hl : last u <;> grind
  rw [tryFinally, map_eq_pure_bind, run_bind_eq_ok]
  constructor
  · rintro ⟨p, v, hp, hpure⟩
    cases hpure
    obtain ⟨u, hx, hlast⟩ := (hboth p).1 hp
    exact ⟨u, p.2, hx, hlast⟩
  · rintro ⟨u, b, hx, hlast⟩
    exact ⟨(a, b), t, (hboth (a, b)).2 ⟨u, hx, hlast⟩, rfl⟩

/-! ## Failures -/

/-- A sequence of two steps fails exactly if the first does, or succeeds and the second fails after
it. -/
theorem run_bind_eq_error {x : EStateM ε σ α} {f : α → EStateM ε σ β} {s t : σ} {e : ε} :
    (x >>= f).run s = .error e t ↔
      x.run s = .error e t ∨ ∃ a u, x.run s = .ok a u ∧ (f a).run u = .error e t := by
  rw [EStateM.run_bind]
  cases hx : x.run s with
  | ok a u =>
    constructor
    · intro h
      exact .inr ⟨a, u, rfl, h⟩
    · rintro (h | ⟨a', u', he, h⟩)
      · cases h
      · injection he with ha hu
        rw [ha, hu]
        exact h
  | error e' u => simp

/-- A list of steps fails at the first one or behind it. -/
theorem run_forM_cons_eq_error {f : α → EStateM ε σ PUnit} {a : α} {l : List α} {s t : σ} {e : ε} :
    ((a :: l).forM f).run s = .error e t ↔ (f a).run s = .error e t ∨
      ∃ u, (f a).run s = .ok ⟨⟩ u ∧ (l.forM f).run u = .error e t := by
  show (f a >>= fun _ => l.forM f).run s = .error e t ↔ _
  rw [run_bind_eq_error]
  constructor
  · rintro (h | ⟨_, u, h₁, h₂⟩)
    · exact .inl h
    · exact .inr ⟨u, h₁, h₂⟩
  · rintro (h | ⟨u, h₁, h₂⟩)
    · exact .inl h
    · exact .inr ⟨⟨⟩, u, h₁, h₂⟩

/-- A list of steps with results fails at the first one or behind it. -/
theorem run_mapM_cons_eq_error {f : α → EStateM ε σ β} {a : α} {l : List α} {s t : σ} {e : ε} :
    ((a :: l).mapM f).run s = .error e t ↔ (f a).run s = .error e t ∨
      ∃ b u, (f a).run s = .ok b u ∧ (l.mapM f).run u = .error e t := by
  rw [List.mapM_cons, run_bind_eq_error]
  refine or_congr_right (exists_congr fun b => exists_congr fun u => and_congr_right fun _ => ?_)
  rw [run_bind_eq_error]
  constructor
  · rintro (h | ⟨_, _, _, h⟩)
    · exact h
    · cases h
  · exact .inl

/-- Steps with a last one that is made in any case and cannot fail stop exactly if they do. -/
theorem run_tryFinally_eq_error {x : EStateM ε σ α} {last : EStateM ε σ β} {f : σ → σ} {b : β}
    (hlast : ∀ u, last.run u = .ok b (f u)) {s t : σ} {e : ε} :
    (tryFinally x last).run s = .error e t ↔ ∃ u, x.run s = .error e u ∧ t = f u := by
  have hboth : (tryFinally' x fun _ => last).run s = .error e t ↔
      ∃ u, x.run s = .error e u ∧ t = f u := by
    simp only [tryFinally', EStateM.run] at hlast ⊢
    cases x s <;> simp [hlast, eq_comm, and_comm]
  rw [tryFinally, map_eq_pure_bind, run_bind_eq_error, ← hboth]
  constructor
  · rintro (h | ⟨_, _, _, h⟩)
    · exact h
    · cases h
  · exact .inl

/-! ## Both ends -/

/-- If the steps succeed, the result and the state have a property, and if they fail, the error and
the state have one. -/
structure Meets (E : ε → σ → Prop) (x : EStateM ε σ α) (s : σ) (Q : α → σ → Prop) : Prop where
  ok : ∀ {a t}, x.run s = .ok a t → Q a t
  error : ∀ {e t}, x.run s = .error e t → E e t

namespace Meets

variable {E : ε → σ → Prop} {s : σ}

/-- Steps that are known to succeed. -/
theorem of_run_eq_ok {x : EStateM ε σ α} {Q : α → σ → Prop} {a : α} {t : σ} (h : x.run s = .ok a t)
    (hQ : Q a t) : Meets E x s Q where
  ok h' := by
    cases h.symm.trans h'
    exact hQ
  error h' := nomatch h.symm.trans h'

/-- Steps that fail at once. -/
theorem throw {e : ε} {Q : α → σ → Prop} (h : E e s) : Meets E (throw e : EStateM ε σ α) s Q where
  ok h' := nomatch h'
  error h' := by
    cases h'
    exact h

theorem modify {f : σ → σ} {Q : Unit → σ → Prop} (h : Q () (f s)) :
    Meets E (modify f : EStateM ε σ Unit) s Q :=
  of_run_eq_ok rfl h

/-- Less may be said of the result. -/
theorem mono {x : EStateM ε σ α} {Q R : α → σ → Prop} (h : Meets E x s Q)
    (hQR : ∀ a t, Q a t → R a t) : Meets E x s R where
  ok h' := hQR _ _ (h.ok h')
  error h' := h.error h'

/-- Less may be said of the failure. -/
theorem mono_error {F : ε → σ → Prop} {x : EStateM ε σ α} {Q : α → σ → Prop} (h : Meets E x s Q)
    (hEF : ∀ e t, E e t → F e t) : Meets F x s Q where
  ok h' := h.ok h'
  error h' := hEF _ _ (h.error h')

/-- The second steps begin with what the first ones establish, and a failure of either counts. -/
theorem bind {x : EStateM ε σ α} {f : α → EStateM ε σ β} {Q : α → σ → Prop} {R : β → σ → Prop}
    (h : Meets E x s Q) (hf : ∀ a t, Q a t → Meets E (f a) t R) : Meets E (x >>= f) s R where
  ok h' := by
    obtain ⟨a, t, hx, hfa⟩ := run_bind_eq_ok.1 h'
    exact (hf a t (h.ok hx)).ok hfa
  error h' := by
    rcases run_bind_eq_error.1 h' with hx | ⟨a, t, hx, hfa⟩
    · exact h.error hx
    · exact (hf a t (h.ok hx)).error hfa

/-- Reading the state changes nothing. -/
theorem get_bind {f : σ → EStateM ε σ α} {Q : α → σ → Prop} (h : Meets E (f s) s Q) :
    Meets E (get >>= f) s Q :=
  bind (Q := fun r t => r = s ∧ t = s) (of_run_eq_ok rfl ⟨rfl, rfl⟩) fun _ _ ⟨hr, ht⟩ =>
    hr ▸ ht ▸ h

/-- What each step keeps is kept by all of them. -/
theorem forM {f : α → EStateM ε σ Unit} {I : σ → Prop} :
    ∀ {l : List α} {s : σ}, (∀ a ∈ l, ∀ s, I s → Meets E (f a) s fun _ t => I t) → I s →
      Meets E (l.forM f) s fun _ t => I t
  | [], s, _, hs => of_run_eq_ok rfl hs
  | a :: l, s, hf, hs => by
    have ha := hf a List.mem_cons_self s hs
    exact ha.bind fun _ t ht => forM (fun b hb => hf b (List.mem_cons_of_mem _ hb)) ht

/-- Steps with results keep what each of them keeps, and the results are related to what they are
made of, if the steps after them leave them so. -/
theorem mapM {f : α → EStateM ε σ β} {I : σ → Prop} {R : σ → α → β → Prop} :
    ∀ {l : List α} {s : σ},
      (∀ a ∈ l, ∀ s, I s → Meets E (f a) s fun b t =>
        I t ∧ R t a b ∧ ∀ a' b', R s a' b' → R t a' b') → I s →
      Meets E (l.mapM f) s fun bs t =>
        I t ∧ List.Forall₂ (R t) l bs ∧ ∀ a' b', R s a' b' → R t a' b'
  | [], s, _, hs => of_run_eq_ok rfl ⟨hs, .nil, fun _ _ h => h⟩
  | a :: l, s, hf, hs => by
    rw [List.mapM_cons]
    refine (hf a List.mem_cons_self s hs).bind fun b t ⟨ht, hb, hst⟩ => ?_
    refine (mapM (fun c hc => hf c (List.mem_cons_of_mem _ hc)) ht).bind fun bs u ⟨hu, hbs, htu⟩ => ?_
    exact of_run_eq_ok rfl ⟨hu, .cons (htu a b hb) hbs, fun a' b' h => htu a' b' (hst a' b' h)⟩

end Meets

/-! ## Ends that are computed -/

/-- Whether a run succeeds with a result and a state of a given sort is decided by the run. -/
instance decidableExistsOk {r : EStateM.Result ε σ α} {Q : α → σ → Prop}
    [∀ a s, Decidable (Q a s)] : Decidable (∃ a s, r = .ok a s ∧ Q a s) :=
  match r with
  | .ok a s => decidable_of_iff (Q a s) (by simp)
  | .error _ _ => .isFalse (by simp)

instance decidableExistsOk_any {r : EStateM.Result ε σ α} : Decidable (∃ a s, r = .ok a s) :=
  decidable_of_iff (∃ a s, r = .ok a s ∧ True) (by simp)

/-- Whether a run stops with an error and a state of a given sort is decided by the run. -/
instance decidableExistsError {r : EStateM.Result ε σ α} {Q : ε → σ → Prop}
    [∀ e s, Decidable (Q e s)] : Decidable (∃ e s, r = .error e s ∧ Q e s) :=
  match r with
  | .ok _ _ => .isFalse (by simp)
  | .error e s => decidable_of_iff (Q e s) (by simp)

end RegisterBackend
