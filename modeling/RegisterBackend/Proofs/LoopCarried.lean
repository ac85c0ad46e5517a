import Mathlib.Data.List.NodupEquivFin
import RegisterBackend.Program.Check
import RegisterBackend.Proofs.Readings

/-!
# Names that a loop carries

What a name holds when it is read is what was assigned to it last, as long as it is read where it
was assigned last. A loop can bring it about that this is not so: a name that is first assigned in
the loop has one cell for each of its assignments in the text, a reading looks in the cell of the
assignment before it in the text, and in a later round that cell may be older than the one which was
assigned last. Nothing is moved at the end of a round for such a name, since it was not found
anywhere before the loop.

`Memory.History` keeps account of this: a cell belongs to one name, and what it holds was assigned
to that name, either last or before that. A reading is stale (`Reading.Stale`) if the cell does not
hold what was assigned last. `Program.reading_latest_iff` says that the code reads the value that
was assigned last exactly if the reading is not stale or the same value had been assigned before,
and that a name with one assignment in the text is never stale. `Program.staleLoop_prints` is a
program with a stale reading.
-/

namespace RegisterBackend

/-! ## Cells belong to names -/

/-- Names are found in cells of their own. The list says to which name each cell belongs. -/
def Scope.Owns (s : Scope) (N : List String) : Prop :=
  ∀ x k, s.cell x = some k → N[k]? = some x

/-- The parts of a list that begins with two lists. -/
theorem prefix_drop_of_append {α : Type} {l₁ l₂ l : List α} {n : Nat} (h : l₁ ++ l₂ <+: l.drop n) :
    l₁ <+: l.drop n ∧ l₂ <+: l.drop (n + l₁.length) := by
  obtain ⟨t, ht⟩ := h
  refine ⟨⟨l₂ ++ t, by rw [← ht, List.append_assoc]⟩, ⟨t, ?_⟩⟩
  rw [← List.drop_drop, ← ht, List.append_assoc, List.drop_left]

namespace Command

variable {N : List String} {s : Scope}

/-- Behind a command names are found in cells of their own, if the cells of the command belong to
the names that it assigns. -/
theorem owns_after {c : Command} (hN : c.assigned <+: N.drop s.next) (ho : s.Owns N) :
    (c.after s).Owns N := by
  induction c generalizing s with
  | skip | print => exact ho
  | assign y v =>
    intro x k hk
    by_cases hx : x = y
    · subst hx
      obtain ⟨t, ht⟩ := hN
      have hks : k = s.next := by simpa [after, eq_comm] using hk
      have h0 : (N.drop s.next)[0]? = some x := by rw [← ht]; rfl
      simpa [hks] using h0
    · exact ho x k (by simpa [after, hx] using hk)
  | seq a b iha ihb =>
    obtain ⟨ha, hb⟩ := prefix_drop_of_append hN
    exact ihb (by rw [after_next]; exact hb) (iha ha ho)
  | ifElse t a b iha ihb =>
    obtain ⟨ha, hb⟩ := prefix_drop_of_append hN
    have ho₁ := iha ha ho
    have ho₂ := ihb (s := ⟨(a.after s).next, s.cell⟩) (by rw [after_next]; exact hb) ho
    intro x k hk
    simp only [after, Scope.join, Option.or_eq_some_iff] at hk
    rcases hk with hk | ⟨-, hk | ⟨-, hk⟩⟩
    · exact ho x k hk
    · exact ho₁ x k hk
    · exact ho₂ x k hk
  | whileLoop t b ih =>
    intro x k hk
    simp only [after, Scope.join, Option.or_eq_some_iff] at hk
    rcases hk with hk | ⟨-, hk⟩
    · exact ho x k hk
    · exact ih hN ho x k hk

end Command

/-! ## What cells hold -/

/-- What a cell holds was assigned to its name, last or before that. The only cell of a name holds
what was assigned last. -/
structure Memory.History (N : List String) (m : Memory) : Prop where
  clock : ∀ {x b}, m.latest x = some b → b.serial < m.clock
  older : ∀ {k a}, m.cells k = some a → ∃ x b, N[k]? = some x ∧ m.latest x = some b ∧
    a.serial ≤ b.serial ∧ (a.serial = b.serial → a = b)
  only : ∀ {k x}, N[k]? = some x → (∀ j, N[j]? = some x → j = k) → m.cells k = m.latest x

namespace Memory.History

variable {N : List String} {m : Memory} {s : Scope}

theorem empty : Memory.empty.History N :=
  ⟨nofun, nofun, fun _ _ => rfl⟩

theorem print (h : m.History N) (text : String) : (m.print text).History N :=
  ⟨h.clock, h.older, h.only⟩

/-- An assignment is the last one of its name. -/
theorem assign (h : m.History N) {n : Nat} {x : String} (hn : N[n]? = some x) (v : Int64) :
    (m.assign n x v).History N where
  clock {y b} hb := by
    by_cases hy : y = x
    · subst hy
      simp only [Memory.assign, Function.update_self, Option.some.injEq] at hb ⊢
      rw [← hb]
      exact Nat.lt_succ_self _
    · simp only [Memory.assign, Function.update_of_ne hy] at hb ⊢
      exact Nat.lt_succ_of_lt (h.clock hb)
  older {k a} ha := by
    by_cases hk : k = n
    · subst hk
      simp only [Memory.assign, Function.update_self, Option.some.injEq] at ha
      exact ⟨x, a, hn, by simp [Memory.assign, ha], Nat.le_refl _, fun _ => rfl⟩
    · simp only [Memory.assign, Function.update_of_ne hk] at ha
      obtain ⟨y, b, hy, hb, hle, heq⟩ := h.older ha
      by_cases hyx : y = x
      · have hlt := h.clock hb
        refine ⟨x, ⟨v, m.clock⟩, hyx ▸ hy, by simp [Memory.assign], ?_, fun hser => ?_⟩
        · show a.serial ≤ m.clock
          omega
        · have : a.serial = m.clock := hser
          omega
      · exact ⟨y, b, hy, by simpa [Memory.assign, hyx] using hb, hle, heq⟩
  only {k y} hy huniq := by
    by_cases hk : k = n
    · subst hk
      have hyx : y = x := Option.some.inj (hy.symm.trans hn)
      simp [Memory.assign, hyx]
    · have hyx : y ≠ x := by
        rintro rfl
        exact hk (huniq n hn).symm
      simp [Memory.assign, hk, hyx, h.only hy huniq]

/-- Names are moved from cell to cell of their own. -/
theorem move (h : m.History N) {names : List String} {home now : String → Option Nat}
    (hhome : ∀ x k, home x = some k → N[k]? = some x)
    (hnow : ∀ x k, now x = some k → N[k]? = some x) (hsome : ∀ {x}, x ∈ names → (now x).isSome) :
    (m.move names home now).History N where
  clock := h.clock
  older {k a} ha := by
    simp only [Memory.move] at ha
    cases hf : names.find? fun x => home x = some k with
    | none => exact h.older (by simpa [hf] using ha)
    | some x =>
      have hx : home x = some k := by simpa using List.find?_some hf
      simp only [hf, Option.bind_eq_some_iff] at ha
      obtain ⟨k', hk', ha⟩ := ha
      obtain ⟨y, b, hy, hrest⟩ := h.older ha
      have hyx : y = x := Option.some.inj (hy.symm.trans (hnow x k' hk'))
      subst hyx
      exact ⟨y, b, hhome y k hx, hrest⟩
  only {k x} hx huniq := by
    have hkeep : (m.move names home now).cells k = m.cells k := by
      simp only [Memory.move]
      cases hf : names.find? fun x => home x = some k with
      | none => rfl
      | some y =>
        have hy : home y = some k := by simpa using List.find?_some hf
        have hyx : y = x := Option.some.inj ((hhome y k hy).symm.trans hx)
        obtain ⟨k', hk'⟩ := Option.isSome_iff_exists.1 (hsome (List.mem_of_find?_eq_some hf))
        have hkk : k' = k := huniq k' (hyx ▸ hnow y k' hk')
        simp [hk', hkk]
    rw [hkeep]
    exact h.only hx huniq

end Memory.History

namespace Command

variable {N : List String} {fuel : Nat} {c : Command} {s : Scope} {m m' : Memory}

/-- A block keeps cells to their names if its command does. -/
theorem history_block {home : String → Option Nat} (hN : c.assigned <+: N.drop s.next)
    (ho : s.Owns N) (hhome : ∀ x k, home x = some k → N[k]? = some x)
    (hc : ∀ m', c.exec fuel s m = .done m' → m'.History N)
    (h : (c.exec fuel s m).andThen (Memory.settle c.assigned home (c.after s).cell) = .done m') :
    m'.History N := by
  obtain ⟨m₁, h₁, h₂⟩ := Outcome.andThen_eq_done.1 h
  obtain ⟨-, rfl⟩ := Memory.settle_eq_done.1 h₂
  exact (hc m₁ h₁).move hhome (owns_after hN ho) fun hx => isSome_after_cell_of_mem hx s

/-- Behind the first block of a branch, homes are cells of their names. -/
theorem owns_join {a : Command} (ha : a.assigned <+: N.drop s.next) (ho : s.Owns N) :
    ∀ x k, Scope.join s.cell (a.after s).cell x = some k → N[k]? = some x := by
  intro x k hk
  simp only [Scope.join, Option.or_eq_some_iff] at hk
  rcases hk with hk | ⟨-, hk⟩
  · exact ho x k hk
  · exact owns_after ha ho x k hk

/-- A run keeps cells to their names. -/
theorem history_exec (hN : c.assigned <+: N.drop s.next) (ho : s.Owns N) (hm : m.History N)
    (h : c.exec fuel s m = .done m') : m'.History N := by
  induction c generalizing s m m' with
  | skip =>
    cases h
    exact hm
  | print text =>
    cases h
    exact hm.print text
  | assign x v =>
    simp only [exec] at h
    split at h
    · cases h
      obtain ⟨t, ht⟩ := hN
      have h0 : (N.drop s.next)[0]? = some x := by rw [← ht]; rfl
      exact hm.assign (by simpa using h0) _
    · cases h
  | seq a b iha ihb =>
    obtain ⟨ha, hb⟩ := prefix_drop_of_append hN
    obtain ⟨m₁, h₁, h₂⟩ := Outcome.andThen_eq_done.1 h
    exact ihb (by rw [after_next]; exact hb) (owns_after ha ho) (iha ha ho hm h₁) h₂
  | ifElse t a b iha ihb =>
    obtain ⟨ha, hb⟩ := prefix_drop_of_append hN
    simp only [exec] at h
    split at h
    · exact history_block ha ho ho (fun m₁ => iha ha ho hm) h
    · have hb' : b.assigned <+: N.drop (Scope.mk (a.after s).next s.cell).next := by
        rw [after_next]
        exact hb
      exact history_block hb' ho (owns_join ha ho) (fun m₁ => ihb hb' ho hm) h
    · cases h
  | whileLoop t b ih =>
    refine Outcome.repeatWhile_done (P := fun m => m.History N) ?_ hm h
    intro m₁ m₂ hm₁ h₁
    exact history_block (c := b) hN ho ho (fun m₃ => ih hN ho hm₁) h₁

/-- At every reading cells are kept to their names. -/
theorem history_readings (hN : c.assigned <+: N.drop s.next) (ho : s.Owns N) (hm : m.History N)
    (earlier carried : List String) :
    ∀ rd ∈ c.readings fuel earlier carried s m, rd.memory.History N ∧ rd.scope.Owns N := by
  have hnames : ∀ {names carried} {m : Memory} {s : Scope}, s.Owns N → m.History N →
      ∀ rd ∈ m.readings names carried s, rd.memory.History N ∧ rd.scope.Owns N := by
    intro names carried m s ho hm rd hrd
    obtain ⟨y, -, rfl⟩ := List.mem_map.1 hrd
    exact ⟨hm, ho⟩
  induction c generalizing s m earlier carried with
  | skip | print => exact nofun
  | assign x v => exact hnames ho hm
  | seq a b iha ihb =>
    obtain ⟨ha, hb⟩ := prefix_drop_of_append hN
    refine Outcome.forall_mem_append_trace.2 ⟨iha ha ho hm earlier carried, fun m₁ h₁ => ?_⟩
    exact ihb (by rw [after_next]; exact hb) (owns_after ha ho) (history_exec ha ho hm h₁) _ carried
  | ifElse t a b iha ihb =>
    obtain ⟨ha, hb⟩ := prefix_drop_of_append hN
    intro rd hrd
    rcases List.mem_append.1 hrd with hrd | hrd
    · exact hnames ho hm rd hrd
    · split at hrd
      · exact iha ha ho hm _ carried rd hrd
      · have hb' : b.assigned <+: N.drop (Scope.mk (a.after s).next s.cell).next := by
          rw [after_next]
          exact hb
        exact ihb hb' ho hm _ carried rd hrd
      · cases hrd
  | whileLoop t b ih =>
    refine Outcome.forall_mem_traceWhile (Q := fun m => m.History N) (fun m hm => hnames ho hm)
      (fun m hm => ⟨ih hN ho hm _ _, fun m' h' => ?_⟩) fuel m hm
    exact history_block (c := b) hN ho ho (fun m₃ => history_exec hN ho hm) h'

end Command

/-! ## Stale readings -/

/-- An element that occurs once occurs in one place. -/
theorem eq_of_count_eq_one {N : List String} {x : String} {j k : Nat} (h : N.count x = 1)
    (hj : N[j]? = some x) (hk : N[k]? = some x) : j = k := by
  obtain ⟨hjlt, hjx⟩ := List.getElem?_eq_some_iff.1 hj
  obtain ⟨hklt, hkx⟩ := List.getElem?_eq_some_iff.1 hk
  have hnot : ¬ N.Duplicate x := by
    rw [List.duplicate_iff_two_le_count]
    omega
  rw [List.duplicate_iff_exists_distinct_get] at hnot
  rcases Nat.lt_trichotomy j k with hlt | rfl | hgt
  · exact absurd ⟨⟨j, hjlt⟩, ⟨k, hklt⟩, hlt, hjx.symm, hkx.symm⟩ hnot
  · rfl
  · exact absurd ⟨⟨k, hklt⟩, ⟨j, hjlt⟩, hgt, hkx.symm, hjx.symm⟩ hnot

/-- The name has been assigned something that is not found in its cell: the cell is empty, or it
holds what was assigned earlier. -/
def Reading.Stale (rd : Reading) : Prop :=
  ∃ b, rd.latest = some b ∧ ∀ a, rd.found = some a → a.serial < b.serial

instance (rd : Reading) : Decidable rd.Stale :=
  inferInstanceAs (Decidable (∃ b ∈ rd.latest, ∀ a ∈ rd.found, a.serial < b.serial))

/-- The cell holds what was assigned earlier, and the same value was assigned last. -/
def Reading.Repeats (rd : Reading) : Prop :=
  ∃ a b, rd.found = some a ∧ rd.latest = some b ∧ a.serial < b.serial ∧ a.value = b.value

namespace Reading

variable {rd : Reading} {N : List String}

/-- The assignment that was made last is found exactly if the reading is not stale. -/
theorem found_eq_latest_iff (hm : rd.memory.History N) (ho : rd.scope.Owns N) :
    rd.found = rd.latest ↔ ¬ rd.Stale := by
  constructor
  · rintro heq ⟨b, hb, hstale⟩
    exact Nat.lt_irrefl _ (hstale b (heq.trans hb))
  · intro hstale
    cases hf : rd.found with
    | none =>
      cases hl : rd.latest with
      | none => rfl
      | some b => exact absurd ⟨b, hl, fun a ha => by rw [hf] at ha; cases ha⟩ hstale
    | some a =>
      obtain ⟨k, hk, ha⟩ := Option.bind_eq_some_iff.1 (show rd.memory.found _ _ = some a from hf)
      obtain ⟨x, b, hx, hb, hle, heq⟩ := hm.older ha
      have hname : x = rd.name := Option.some.inj (hx.symm.trans (ho _ _ hk))
      rw [hname] at hb
      have hl : rd.latest = some b := hb
      by_cases hser : a.serial = b.serial
      · rw [hl, heq hser]
      · refine absurd ⟨b, hl, fun a' ha' => ?_⟩ hstale
        rw [hf] at ha'
        cases ha'
        exact Nat.lt_of_le_of_ne hle hser

/-- The value that was assigned last is found exactly if the reading is not stale, or if the value
is the same as that of the earlier assignment. -/
theorem value_eq_iff (hm : rd.memory.History N) (ho : rd.scope.Owns N) :
    rd.found.map (·.value) = rd.latest.map (·.value) ↔ ¬ rd.Stale ∨ rd.Repeats := by
  constructor
  · intro heq
    by_cases hstale : rd.Stale
    · obtain ⟨b, hb, hser⟩ := hstale
      rw [hb] at heq
      obtain ⟨a, ha, hval⟩ := Option.map_eq_some_iff.1 heq
      exact .inr ⟨a, b, ha, hb, hser a ha, hval⟩
    · exact .inl hstale
  · rintro (hstale | ⟨a, b, ha, hb, -, hval⟩)
    · rw [(found_eq_latest_iff hm ho).2 hstale]
    · rw [ha, hb, Option.map_some, Option.map_some, hval]

/-- A name with one assignment in the text is never stale where it is found. -/
theorem not_stale_of_count (hm : rd.memory.History N) (ho : rd.scope.Owns N)
    (hcell : (rd.scope.cell rd.name).isSome) (hcount : N.count rd.name = 1) : ¬ rd.Stale := by
  obtain ⟨k, hk⟩ := Option.isSome_iff_exists.1 hcell
  rw [← found_eq_latest_iff hm ho, found, Memory.found, hk, Option.bind_some]
  exact hm.only (ho _ _ hk) fun j hj => eq_of_count_eq_one hcount hj (ho _ _ hk)

end Reading

namespace Program

variable {p : Program} {code : Bytecode} {σ : Type} {sink : Sink σ} {start : σ}

/-- When a name is read, in a loop that carries it or elsewhere, the machine comes to an instruction
that reads the register of the name. This holds the value that the name was assigned last exactly if
the reading is not stale, or if the earlier assignment that it finds was one of the same value. A
name with one assignment in the text is never stale. -/
theorem reading_latest_iff (hlower : p.lower = .ok code) (hsmall : p.Small)
    (haccepts : sink.Accepts start) :
    ∃ c, p.command? = some c ∧
      ∀ fuel, ∀ rd ∈ c.readings fuel [] [] .empty .empty,
        rd.Made code sink (c.homes 0) start (.start start) ∧
        (∀ n r q, Steps code sink n (.start start) r →
          rd.IsAt code sink (c.homes 0) start r q →
            (r.registers.get? q = rd.latest.map (·.value) ↔ ¬ rd.Stale ∨ rd.Repeats)) ∧
        (c.assigned.count rd.name = 1 → ¬ rd.Stale) := by
  obtain ⟨c, hc, hrun, rfl, hlabels⟩ := lower_eq_ok hlower
  have hdup := Bytecode.duplicateLabel?_eq_none hlabels
  obtain ⟨T, hsite, hm⟩ := Command.site_program hrun hdup hsmall.1 start haccepts
  refine ⟨c, hc, fun fuel rd hrd => ?_⟩
  have hmade := Command.observed T c hsite rfl hm [] [] rd hrd
  have hN : c.assigned <+: c.assigned.drop Scope.empty.next := List.prefix_rfl
  obtain ⟨hhistory, howns⟩ := Command.history_readings hN nofun .empty [] [] rd hrd
  refine ⟨hmade, fun n r q _ hat => ?_, fun hcount => ?_⟩
  · rw [hat.get?]
    exact Reading.value_eq_iff hhistory howns
  · obtain ⟨n, r, q, -, hat⟩ := hmade
    obtain ⟨k, hk, -⟩ := Option.bind_eq_some_iff.1 hat.cell
    exact Reading.not_stale_of_count hhistory howns (by simp [hk]) hcount

/-- `i = 0; while 2 > i do (if i = 0 then t = 1; y = t; t = 2; i = i + 1);
if y = 2 then print "fresh" else print "stale"`. -/
def staleLoop : Program :=
  ⟨.ofNodes [.constant (.scalar 0), .var (.scalar "i"), .assign ⟨1⟩ ⟨0⟩,
    .constant (.scalar 2), .var (.scalar "i"), .comparison .greater ⟨3⟩ ⟨4⟩,
    .var (.scalar "i"), .constant (.scalar 0), .comparison .equals ⟨6⟩ ⟨7⟩,
    .constant (.scalar 1), .var (.scalar "t"), .assign ⟨10⟩ ⟨9⟩, .ifElse ⟨8⟩ [⟨11⟩] [],
    .var (.scalar "t"), .var (.scalar "y"), .assign ⟨14⟩ ⟨13⟩,
    .constant (.scalar 2), .var (.scalar "t"), .assign ⟨17⟩ ⟨16⟩,
    .var (.scalar "i"), .constant (.scalar 1), .arithmetic .add ⟨19⟩ ⟨20⟩, .var (.scalar "i"),
    .assign ⟨22⟩ ⟨21⟩, .whileLoop ⟨5⟩ [⟨12⟩, ⟨15⟩, ⟨18⟩, ⟨23⟩],
    .var (.scalar "y"), .constant (.scalar 2), .comparison .equals ⟨25⟩ ⟨26⟩,
    .debug "fresh", .debug "stale", .ifElse ⟨27⟩ [⟨28⟩] [⟨29⟩]],
  [⟨2⟩, ⟨24⟩, ⟨30⟩]⟩

/-- The equivalence for a loop whose second round reads what the branch bound in the first. -/
theorem reading_latest_iff_staleLoop : staleLoop.Small ∧
    ∃ c, staleLoop.command? = some c ∧
      ∀ fuel, ∀ rd ∈ c.readings fuel [] [] .empty .empty,
        rd.Made staleLoop.emitted.finish Buffer.sink (c.homes 0) (.empty none false)
          (.start (.empty none false)) ∧
        (∀ n r q, Steps staleLoop.emitted.finish Buffer.sink n (.start (.empty none false)) r →
          rd.IsAt staleLoop.emitted.finish Buffer.sink (c.homes 0) (.empty none false) r q →
            (r.registers.get? q = rd.latest.map (·.value) ↔ ¬ rd.Stale ∨ rd.Repeats)) ∧
        (c.assigned.count rd.name = 1 → ¬ rd.Stale) := by
  have hlower : staleLoop.lower = .ok staleLoop.emitted.finish := by decide +kernel
  have hsmall : staleLoop.Small := ⟨by decide +kernel, by decide +kernel⟩
  exact ⟨hsmall, reading_latest_iff hlower hsmall (Buffer.accepts rfl)⟩

/-- A loop may read a name that it carries and find an earlier value of it. The program then prints
something else than it should. -/
theorem staleLoop_prints : ∃ c code, staleLoop.check = .ok () ∧ staleLoop.command? = some c ∧
    staleLoop.lower = .ok code ∧
    (∃ fuel, ∃ rd ∈ c.readings fuel [] [] .empty .empty, rd.carried = true ∧ rd.Stale ∧
      rd.found.map (·.value) ≠ rd.latest.map (·.value)) ∧
    code.CompletesWith Buffer.sink (.empty none false) ⟨"stale\n", none, false⟩ ∧
    ∃ st, c.Terminates st ∧ st.lines = ["fresh"] := by
  have hrun : (match (Machine.new (Buffer.empty none false)).runWithin Buffer.sink 50
      staleLoop.emitted.finish with
    | .ok report m => decide (report.termination = .completed) &&
        decide (m.output = ⟨"stale\n", none, false⟩)
    | _ => false) = true := by decide +kernel
  obtain ⟨c, hc⟩ : ∃ c, staleLoop.command? = some c :=
    Option.isSome_iff_exists.1 (by decide +kernel)
  have hstale : ∀ c ∈ staleLoop.command?, ∃ rd ∈ c.readings 3 [] [] .empty .empty,
      rd.carried = true ∧ rd.Stale ∧ rd.found.map (·.value) ≠ rd.latest.map (·.value) := by
    decide +kernel
  have heval : ∀ c ∈ staleLoop.command?,
      (c.eval 3 .empty).done?.map (·.lines) = some ["fresh"] := by decide +kernel
  refine ⟨c, staleLoop.emitted.finish, by decide +kernel, hc, by decide +kernel,
    ⟨3, hstale c hc⟩, ?_, ?_⟩
  · split at hrun
    next report m h =>
      simp only [Bool.and_eq_true, decide_eq_true_eq] at hrun
      exact ⟨50, report, m, h, hrun.1, hrun.2⟩
    next => cases hrun
  · obtain ⟨st, hst, hlines⟩ := Option.map_eq_some_iff.1 (heval c hc)
    exact ⟨st, ⟨3, Outcome.done?_eq_some.1 hst⟩, hlines⟩

end Program

end RegisterBackend
