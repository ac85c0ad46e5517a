import RegisterBackend.Proofs.Evaluation
import RegisterBackend.Proofs.Placement

/-!
# The machine runs the cells

The bytecode of a command does on the registers what `Command.exec` does on the cells. The cells of
the whole program are placed by a list of register numbers, which stays the same throughout a run,
so that a loop comes back to the same registers in each round. A run of the machine matches a memory
if every register of a cell holds what the cell holds, and the sink has taken the lines (`Matches`).

`Simulates` says of a run of the machine what an outcome on the cells calls for: the end of a
command is reached with a matching run, or the run is blocked when the cells are stuck, or the run
makes as many steps as the bound on the loops if it was cut off by that. `Command.simulated` is the
simulation, by induction on the command, with one lemma per form of command. The last section draws
the conclusion for whole programs: they complete, fail and run forever exactly if the command ends,
gets stuck and runs forever on the cells.
-/

namespace RegisterBackend

variable {σ : Type} {code : Bytecode} {sink : Sink σ} {F : List Nat} {start : σ}

/-- What the simulation asks of a program, a sink and the places of the cells. -/
structure Target (code : Bytecode) (sink : Sink σ) (F : List Nat) (start : σ) : Prop where
  labels : code.duplicateLabel? = none
  accepts : sink.Accepts start
  sorted : F.Pairwise (· < ·)
  small : ∀ i ∈ F, i < UInt32.size

/-- The registers of the cells hold what the cells hold, and the sink has taken the lines. -/
structure Matches (F : List Nat) (sink : Sink σ) (start : σ) (m : Memory) (r : Run σ) : Prop where
  cells : ∀ k i, F[k]? = some i → r.registers.get? (.ofIndex i) = (m.cells k).map (·.value)
  output : r.output = sink.lines start m.lines

/-- The machine does what an outcome on the cells calls for: it reaches the given position with a
matching run, or it is blocked, or it makes at least the given number of steps. -/
def Simulates (code : Bytecode) (sink : Sink σ) (F : List Nat) (start : σ) (least : Nat) (r : Run σ)
    (position : Nat) : Outcome Memory → Prop
  | .done m => ∃ n r', Steps code sink n r r' ∧ r'.position = position ∧ Matches F sink start m r'
  | .stuck m => ∃ n r', Steps code sink n r r' ∧ Blocked code sink r' ∧
      r'.output = sink.lines start m.lines
  | .cutOff _ => ∃ n r', Steps code sink n r r' ∧ least ≤ n

/-! ## Places and matching runs -/

/-- Different cells are in different registers. -/
theorem Target.index_inj (T : Target code sink F start) {j k i : Nat} (hj : F[j]? = some i)
    (hk : F[k]? = some i) : j = k :=
  (List.getElem?_inj (List.getElem?_eq_some_iff.1 hj).1
    (T.sorted.imp fun h => Nat.ne_of_lt h)).1 (hj.trans hk.symm)

/-- Registers of cells are the same only if the cells are. -/
theorem Target.place_inj (T : Target code sink F start) {j k : Nat} {q : Register}
    (hj : place F j = some q) (hk : place F k = some q) : j = k := by
  obtain ⟨i, hi, rfl⟩ := Option.map_eq_some_iff.1 hj
  obtain ⟨i', hi', he⟩ := Option.map_eq_some_iff.1 hk
  have := Register.ofIndex_inj (T.small _ (List.mem_of_getElem? hi'))
    (T.small _ (List.mem_of_getElem? hi)) he
  subst this
  exact T.index_inj hi hi'

namespace Matches

variable {m : Memory} {r r' : Run σ}

/-- The register of a cell holds what the cell holds. -/
theorem get?_place (h : Matches F sink start m r) {k : Nat} {q : Register}
    (hk : place F k = some q) : r.registers.get? q = (m.cells k).map (·.value) := by
  obtain ⟨i, hi, rfl⟩ := Option.map_eq_some_iff.1 hk
  exact h.cells k i hi

/-- Code that writes no register of a cell and prints nothing keeps a run matching. -/
theorem frame {lo hi : Nat} (T : Target code sink F start) (h : Matches F sink start m r)
    (hframe : Frame lo hi r r') (hF : ∀ i ∈ F, i < lo ∨ hi ≤ i) : Matches F sink start m r' where
  cells k i hk := by
    have hmem := List.mem_of_getElem? hk
    rw [hframe.registers i (T.small i hmem) (hF i hmem), h.cells k i hk]
  output := hframe.output.trans h.output

/-- A run that differs in its position and its counters only matches as well. -/
theorem of_eq (h : Matches F sink start m r) (hregs : r'.registers = r.registers)
    (hout : r'.output = r.output) : Matches F sink start m r' where
  cells k i hk := by rw [hregs, h.cells k i hk]
  output := hout.trans h.output

/-- Names are read from the registers that they are bound to. -/
theorem views {G : List Nat} {s : Scope} {e : Emitter} (h : Matches (F ++ G) sink start m r)
    (hs : s.WF) (hplaced : Placed F s e) : Views e r (m.view s) := by
  intro x q hx
  obtain ⟨k, i, hk, hi, hik, rfl⟩ := hplaced.of_lookup hs hx
  refine ⟨⟨i, hplaced.lt i hi, rfl⟩, ?_⟩
  have hik' : (F ++ G)[k]? = some i := by
    rw [List.getElem?_append_left (List.getElem?_eq_some_iff.1 hik).1, hik]
  rw [h.cells k i hik']
  simp [Memory.view, Memory.found, hk]

end Matches

/-! ## Outcomes in sequence -/

namespace Simulates

variable {least : Nat} {r r₁ : Run σ} {position : Nat}

/-- Steps may come first. -/
theorem prepend {n least' : Nat} {o : Outcome Memory}
    (h : Simulates code sink F start least r₁ position o) (hsteps : Steps code sink n r r₁)
    (hle : least' ≤ n + least) :
    Simulates code sink F start least' r position o := by
  cases o with
  | done m =>
    obtain ⟨k, r', hsteps', h⟩ := h
    exact ⟨n + k, r', hsteps.trans hsteps', h⟩
  | stuck m =>
    obtain ⟨k, r', hsteps', h⟩ := h
    exact ⟨n + k, r', hsteps.trans hsteps', h⟩
  | cutOff m =>
    obtain ⟨k, r', hsteps', hk⟩ := h
    exact ⟨n + k, r', hsteps.trans hsteps', by omega⟩

/-- Steps may come first, and need not be counted. -/
theorem of_steps {n : Nat} {o : Outcome Memory} (hsteps : Steps code sink n r r₁)
    (h : Simulates code sink F start least r₁ position o) :
    Simulates code sink F start least r position o :=
  h.prepend hsteps (Nat.le_add_left _ _)

/-- What comes behind is done behind. -/
theorem andThen {position' : Nat} {o : Outcome Memory} {next : Memory → Outcome Memory}
    (h : Simulates code sink F start least r position o)
    (hnext : ∀ m r', r'.position = position → Matches F sink start m r' →
      Simulates code sink F start least r' position' (next m)) :
    Simulates code sink F start least r position' (o.andThen next) := by
  cases o with
  | done m =>
    obtain ⟨n, r', hsteps, hpos, hm⟩ := h
    exact of_steps hsteps (hnext m r' hpos hm)
  | stuck m => exact h
  | cutOff m => exact h

/-- A jump may come behind. -/
theorem append {position' : Nat} {o : Outcome Memory}
    (h : Simulates code sink F start least r position o)
    (hjump : ∀ r' : Run σ, r'.position = position →
      Steps code sink 1 r' (r'.proceed r'.registers position')) :
    Simulates code sink F start least r position' o := by
  cases o with
  | done m =>
    obtain ⟨n, r', hsteps, hpos, hm⟩ := h
    exact ⟨n + 1, _, hsteps.trans (hjump r' hpos), rfl, hm.of_eq rfl rfl⟩
  | stuck m => exact h
  | cutOff m => exact h

/-- A command that does nothing is at its end. -/
theorem done_self {m : Memory} (hpos : r.position = position) (hm : Matches F sink start m r) :
    Simulates code sink F start least r position (.done m) :=
  ⟨0, r, .refl r, hpos, hm⟩

end Simulates

/-! ## The end of a block -/

/-- Moves from register to register bring names home if they are those of the names that are not at
home, each from where the name is to where it has to be. -/
def BringsHome (F : List Nat) (home now : String → Option Nat) (ms : List (Register × Register)) :
    Prop :=
  ∀ d q, (d, q) ∈ ms ↔ ∃ x k k', home x = some k ∧ now x = some k' ∧ k ≠ k' ∧
    place F k = some d ∧ place F k' = some q

/-- The copies at the end of a block bring names home, given where names are bound. -/
theorem bringsHome_moves (T : Target code sink F start) {e : Emitter} {entry : Bindings}
    {homes : NameMap Register} {home now : String → Option Nat}
    (hlookup : ∀ x, e.bindings.lookup x = (now x).bind (place F))
    (hhome : ∀ x q, entry.home homes x q = ((home x).bind (place F)).getD q)
    (hplaces : ∀ x k, home x = some k → (place F k).isSome) :
    BringsHome F home now (e.bindings.moves entry homes) := by
  intro d q
  rw [Bindings.mem_moves]
  constructor
  · rintro ⟨x, hx, rfl, hne⟩
    rw [hlookup, Option.bind_eq_some_iff] at hx
    obtain ⟨k', hk', hq⟩ := hx
    rw [hhome] at hne ⊢
    cases hk : home x with
    | none => simp [hk] at hne
    | some k =>
      obtain ⟨d, hd⟩ := Option.isSome_iff_exists.1 (hplaces x k hk)
      simp only [hk, Option.bind_some, hd, Option.getD_some] at hne ⊢
      refine ⟨x, k, k', hk, hk', ?_, hd, hq⟩
      rintro rfl
      rw [hd] at hq
      cases hq
      exact hne rfl
  · rintro ⟨x, k, k', hk, hk', hne, hd, hq⟩
    refine ⟨x, by rw [hlookup, hk', Option.bind_some, hq], ?_, ?_⟩
    · rw [hhome, hk, Option.bind_some, hd, Option.getD_some]
    · rintro rfl
      exact hne (T.place_inj hd hq)

/-- No two names that are not at home are moved to one register. -/
theorem pairwise_moves_of_homing (T : Target code sink F start) {b entry : Bindings}
    {homes : NameMap Register} {names : List String} {home now : String → Option Nat} {next : Nat}
    (hhome : ∀ x q, entry.home homes x q = ((home x).bind (place F)).getD q)
    (hplaces : ∀ x k, home x = some k → (place F k).isSome)
    (H : Homing names home now next) :
    (b.moves entry homes).Pairwise fun m n => m.1 ≠ n.1 := by
  have hregister : ∀ x q, entry.home homes x q ≠ q →
      ∃ k, home x = some k ∧ place F k = some (entry.home homes x q) := by
    intro x q hne
    rw [hhome] at hne ⊢
    cases hk : home x with
    | none => simp [hk] at hne
    | some k =>
      obtain ⟨d, hd⟩ := Option.isSome_iff_exists.1 (hplaces x k hk)
      exact ⟨k, rfl, by simp [hd]⟩
  refine Bindings.pairwise_moves fun x y q q' _ _ hxq hyq he => ?_
  obtain ⟨k, hk, hd⟩ := hregister x q hxq
  obtain ⟨j, hj, hd'⟩ := hregister y q' hyq
  rw [he] at hd
  rw [T.place_inj hd hd'] at hk
  exact H.inj hk hj

/-- The copies at the end of a block stand behind the code of the block. -/
theorem at?_of_closeBlock {e : Emitter} {entry : Bindings} {homes : NameMap Register}
    (hopens : (e.closeBlock entry homes).2.Opens code) {j : Nat} {p : Register × Register}
    (hp : (e.bindings.moves entry homes)[j]? = some p) :
    code.at? (e.size + j) = some (.set p.1 (.register p.2)) := by
  obtain ⟨rest, h⟩ := hopens
  have hj := (List.getElem?_eq_some_iff.1 hp).1
  have hcode : code.instructions.toList = e.code.toList ++
      ((e.bindings.moves entry homes).map (fun m => .set m.1 (.register m.2)) ++ rest.toList) := by
    rw [h, Array.toList_append]
    simp [Emitter.closeBlock, Bindings.copies_exitBlock]
  have hsize : e.size = e.code.toList.length := by simp [Emitter.size]
  rw [Bytecode.at?, ← Array.getElem?_toList, hcode, hsize,
    List.getElem?_append_right (Nat.le_add_right _ _), Nat.add_sub_cancel_left,
    List.getElem?_append_left (by simpa using hj), List.getElem?_map, hp]
  rfl

/-- The copies end where the block does. -/
theorem size_closeBlock (e : Emitter) (entry : Bindings) (homes : NameMap Register) :
    (e.closeBlock entry homes).2.size = e.size + (e.bindings.moves entry homes).length := by
  simp only [Emitter.closeBlock, Emitter.size, Bindings.copies_exitBlock]
  rw [← Array.length_toList, Array.toList_appendList]
  simp

section BringsHome

variable {home now : String → Option Nat} {names : List String} {next : Nat}
  {ms : List (Register × Register)} {m : Memory} {r r' : Run σ}

/-- No move that brings a name home reads what another one writes. -/
theorem BringsHome.apart (T : Target code sink F start) (H : Homing names home now next)
    (hms : BringsHome F home now ms) : ∀ a ∈ ms, ∀ b ∈ ms, a.1 ≠ b.2 := by
  rintro ⟨d, q⟩ ha ⟨d', q'⟩ hb rfl
  obtain ⟨x, k, -, hk, -, -, hd, -⟩ := (hms _ _).1 ha
  obtain ⟨y, j, j', hj, hj', hne, -, hq⟩ := (hms _ _).1 hb
  have hold := H.old hk
  have hnew := (H.new hj hj' hne).1
  have heq := T.place_inj hd hq
  omega

/-- Names can be brought home if the sources of the moves are not empty. -/
theorem BringsHome.canMove (H : Homing names home now next) (hms : BringsHome F home now ms)
    (hplaces : ∀ x k, home x = some k → (place F k).isSome)
    (hnow : ∀ x k, now x = some k → (place F k).isSome) (hm : Matches F sink start m r)
    (hsome : ∀ p ∈ ms, (r.registers.get? p.2).isSome) {x : String} (hx : x ∈ names) :
    m.canMove home now x = true := by
  obtain ⟨k', hk'⟩ := Option.isSome_iff_exists.1 (H.isSome_now hx)
  unfold Memory.canMove
  cases hk : home x with
  | none => rfl
  | some k =>
    by_cases hkk : k' = k
    · simp [hk', hkk]
    · obtain ⟨d, hd⟩ := Option.isSome_iff_exists.1 (hplaces x k hk)
      obtain ⟨q, hq⟩ := Option.isSome_iff_exists.1 (hnow x k' hk')
      have hsrc := hsome (d, q) ((hms d q).2 ⟨x, k, k', hk, hk', fun h => hkk h.symm, hd, hq⟩)
      rw [hm.get?_place hq] at hsrc
      simpa [hk'] using Or.inr hsrc

/-- Names cannot be brought home if the source of a move is empty. -/
theorem BringsHome.settle_stuck (H : Homing names home now next) (hms : BringsHome F home now ms)
    (hm : Matches F sink start m r) {p : Register × Register} (hp : p ∈ ms)
    (hnone : r.registers.get? p.2 = none) : Memory.settle names home now m = .stuck m := by
  obtain ⟨x, k, k', hk, hk', hne, -, hq⟩ := (hms p.1 p.2).1 hp
  rw [hm.get?_place hq, Option.map_eq_none_iff] at hnone
  unfold Memory.settle
  rw [if_neg]
  intro hall
  have hcan := List.all_eq_true.1 hall x (H.new hk hk' hne).2
  have hne' : ¬ k' = k := fun h => hne h.symm
  simp [Memory.canMove, hk, hk', hnone, hne'] at hcan

/-- The moves do on the registers what moving the names does on the cells. -/
theorem BringsHome.move (T : Target code sink F start) (H : Homing names home now next)
    (hms : BringsHome F home now ms) (hnow : ∀ x k, now x = some k → (place F k).isSome)
    (hm : Matches F sink start m r)
    (hmoved : ∀ p ∈ ms, r'.registers.get? p.1 = r.registers.get? p.2)
    (hrest : ∀ q, (∀ p ∈ ms, p.1 ≠ q) → r'.registers.get? q = r.registers.get? q)
    (hout : r'.output = r.output) : Matches F sink start (m.move names home now) r' where
  output := hout.trans hm.output
  cells j i hi := by
    have hj : place F j = some (.ofIndex i) := by simp [place, hi]
    by_cases hex : ∃ x ∈ names, home x = some j
    · obtain ⟨x, hx, hk⟩ := hex
      obtain ⟨k', hk'⟩ := Option.isSome_iff_exists.1 (H.isSome_now hx)
      rw [Memory.move_cells_home hx hk fun y hy => H.inj hy hk, hk', Option.bind_some]
      by_cases hne : j = k'
      · -- a name that is at home is not moved, and no other one goes there
        subst hne
        rw [hrest, hm.cells j i hi]
        rintro ⟨d, q⟩ hdq rfl
        obtain ⟨y, k, k', hy, hy', hne, hd, -⟩ := (hms _ _).1 hdq
        cases T.place_inj hd hj
        cases H.inj hy hk
        exact hne (Option.some.inj (hk'.symm.trans hy'))
      · obtain ⟨q, hq⟩ := Option.isSome_iff_exists.1 (hnow x k' hk')
        rw [hmoved _ ((hms (.ofIndex i) q).2 ⟨x, j, k', hk, hk', hne, hj, hq⟩)]
        exact hm.get?_place hq
    · rw [Memory.move_cells_of_ne fun x hx hk => hex ⟨x, hx, hk⟩, hrest, hm.cells j i hi]
      rintro ⟨d, q⟩ hdq rfl
      obtain ⟨y, k, k', hy, hy', hne, hd, -⟩ := (hms _ _).1 hdq
      cases T.place_inj hd hj
      exact hex ⟨y, (H.new hy hy' hne).2, hy⟩

end BringsHome

/-- The copies at the end of a block move the names home. -/
theorem settle_simulated (T : Target code sink F start) {e : Emitter} {entry : Bindings}
    {homes : NameMap Register} {names : List String} {home now : String → Option Nat}
    {next least : Nat} (hopens : (e.closeBlock entry homes).2.Opens code)
    (hlookup : ∀ x, e.bindings.lookup x = (now x).bind (place F))
    (hhome : ∀ x q, entry.home homes x q = ((home x).bind (place F)).getD q)
    (hplaces : ∀ x k, home x = some k → (place F k).isSome)
    (hnow : ∀ x k, now x = some k → (place F k).isSome)
    (H : Homing names home now next) {m : Memory} {r : Run σ} (hpos : r.position = e.size)
    (hm : Matches F sink start m r) :
    Simulates code sink F start least r (e.closeBlock entry homes).2.size
      (Memory.settle names home now m) := by
  have hms := bringsHome_moves T hlookup hhome hplaces
  have hdst : (e.bindings.moves entry homes).Pairwise fun a b => a.1 ≠ b.1 :=
    pairwise_moves_of_homing T hhome hplaces H
  obtain ⟨k, r', hsteps, hout, h⟩ := @Steps.moves σ code sink
    (e.bindings.moves entry homes) r (fun j p hp => hpos ▸ at?_of_closeBlock hopens hp) hdst
    (hms.apart T H)
  rcases h with ⟨hpos', hmoved, hrest⟩ | ⟨⟨p, hp, hnone⟩, hblocked⟩
  · have hcan : ∀ x ∈ names, m.canMove home now x = true := fun x hx =>
      hms.canMove H hplaces hnow hm (fun p hp => (hmoved p hp).1) hx
    rw [Memory.settle_eq_done.2 ⟨hcan, rfl⟩]
    exact ⟨k, r', hsteps, by rw [hpos', hpos, size_closeBlock],
      hms.move T H hnow hm (fun p hp => (hmoved p hp).2) hrest hout⟩
  · rw [hms.settle_stuck H hm hp hnone]
    exact ⟨k, r', hsteps, hblocked, hout.trans hm.output⟩

/-! ## Where a command stands -/

/-- The code between two emitters is that of a command which stands in a given scope, and the places
of its cells come between those before and those behind it. -/
structure Site (code : Bytecode) (F : List Nat) (c : Command) (e e' : Emitter) (s : Scope)
    (pre post : List Nat) : Prop where
  lowered : c.lower.run e = .ok () e'
  opens : e'.Opens code
  small : e'.registers ≤ UInt32.size
  wf : s.WF
  placed : Placed pre s e
  places : F = pre ++ (c.homes e.registers ++ post)
  later : ∀ i ∈ post, e'.registers ≤ i

namespace Site

variable {e e' : Emitter} {s : Scope} {pre post : List Nat}

/-- Names are bound to the places of their cells where the command begins. -/
theorem lookup_begin {c : Command} (h : Site code F c e e' s pre post) (x : String) :
    e.bindings.lookup x = (s.cell x).bind (place F) := by
  rw [h.placed.lookup, h.places, h.wf.bind_place_append h.placed.length]

/-- Names are bound to the places of their cells where the command ends. -/
theorem lookup_end {c : Command} (h : Site code F c e e' s pre post) (x : String) :
    e'.bindings.lookup x = ((c.after s).cell x).bind (place F) := by
  have hend := (Command.placed_after h.lowered h.wf h.placed).1
  rw [hend.lookup, h.places, ← List.append_assoc,
    (Command.wf_after h.wf).bind_place_append hend.length]

/-- The cells of a scope within the command have places. -/
theorem isSome_place {c : Command} (h : Site code F c e e' s pre post) {k : Nat}
    (hk : k < (c.after s).next) : (place F k).isSome := by
  have hend := (Command.placed_after h.lowered h.wf h.placed).1
  have hlen := hend.length
  obtain ⟨i, -, -, hplace⟩ := exists_place (F := F) (k := k) (by
    rw [h.places, ← List.append_assoc, List.length_append]
    omega)
  simp [hplace]

/-- The parts of a sequence. -/
theorem seq {a b : Command} (h : Site code F (.seq a b) e e' s pre post) :
    ∃ e₁, Site code F a e e₁ s pre (b.homes e₁.registers ++ post) ∧
      Site code F b e₁ e' (a.after s) (pre ++ a.homes e.registers) post := by
  obtain ⟨e₁, ha, hb⟩ := Command.run_lower_seq.1 h.lowered
  obtain ⟨hra, -⟩ := Command.lower_grows ha
  obtain ⟨hrb, hcb⟩ := Command.lower_grows hb
  have hsmall := h.small
  have hplaces := h.places
  simp only [Command.homes, ← hra, List.append_assoc] at hplaces
  refine ⟨e₁, ⟨ha, h.opens.of_extends hcb, by omega, h.wf, h.placed, hplaces, ?_⟩,
    ⟨hb, h.opens, hsmall, Command.wf_after h.wf, (Command.placed_after ha h.wf h.placed).1, ?_,
      h.later⟩⟩
  · intro i hi
    rcases List.mem_append.1 hi with hi | hi
    · exact (Command.mem_homes hi).1
    · have := h.later i hi
      omega
  · rw [hplaces, List.append_assoc]

/-- The parts of a branch. -/
theorem ifElse {t : Test} {a b : Command} (h : Site code F (.ifElse t a b) e e' s pre post) :
    ∃ cond e₀ e₁ e₂, t.lower.run e = .ok cond e₀ ∧ e' = e₀.endIf e₁ e₂ ∧ Placed pre s e₀ ∧
      Site code F a (e₀.beginThen cond) e₁ s pre
        (b.homes (e₀.beginElse e₁).registers ++ post) ∧
      Site code F b (e₀.beginElse e₁) e₂ ⟨(a.after s).next, s.cell⟩
        (pre ++ a.homes e₀.registers) post := by
  obtain ⟨cond, e₀, e₁, e₂, ht, ha, hb, rfl⟩ := Command.run_lower_ifElse.1 h.lowered
  have hg := (Test.lower_grows ht).1
  obtain ⟨hra, hca⟩ := Command.lower_grows ha
  obtain ⟨hrb, hcb⟩ := Command.lower_grows hb
  have hsmall := h.small
  have hlater := h.later
  rw [Emitter.endIf_registers] at hsmall hlater
  have hra' : (e₀.beginElse e₁).registers = e.registers + t.width + a.width := by
    simp [hra, hg.registers]
  have hplaces := h.places
  simp only [Command.homes, List.append_assoc] at hplaces
  rw [← hra', ← hg.registers] at hplaces
  have h₀ := h.placed.test ht
  have h₀' := h₀.mono (e₀.beginThen cond) (Nat.le_refl _) rfl
  obtain ⟨h₁, habove⟩ := Command.placed_after ha h.wf h₀'
  have hopens₂ := h.opens.of_extends (e₀.extends_endIf e₁ e₂)
  have hopens₁ := hopens₂.of_extends (hcb.trans (e₀.extends_beginElse e₁))
  have hle : (e₀.beginElse e₁).registers = e₁.registers := rfl
  refine ⟨cond, e₀, e₁, e₂, ht, rfl, h₀,
    ⟨ha, hopens₁, by omega, h.wf, h₀', by rw [hplaces]; rfl, ?_⟩,
    ⟨hb, hopens₂, hsmall, h.wf.mono (a.next_le_after s),
      Placed.beginElse h.wf h.placed.length h₀ h₁ habove, ?_, hlater⟩⟩
  · intro i hi
    rcases List.mem_append.1 hi with hi | hi
    · exact (Command.mem_homes hi).1
    · have := hlater i hi
      omega
  · rw [hplaces, List.append_assoc]

/-- The parts of a loop. -/
theorem whileLoop {t : Test} {b : Command} (h : Site code F (.whileLoop t b) e e' s pre post) :
    ∃ cond e₁ e₂, t.lower.run e.beginLoop = .ok cond e₁ ∧ e' = e.endLoop e₁ e₂ ∧
      Placed pre s e₁ ∧ Site code F b (e.beginBody e₁ cond) e₂ s pre post := by
  obtain ⟨cond, e₁, e₂, ht, hb, rfl⟩ := Command.run_lower_whileLoop.1 h.lowered
  have hg := (Test.lower_grows ht).1
  have hplaces := h.places
  simp only [Command.homes] at hplaces
  rw [← e.beginLoop_registers, ← hg.registers] at hplaces
  have h₁ := h.placed.loopTest ht
  exact ⟨cond, e₁, e₂, ht, rfl, h₁, ⟨hb, h.opens.of_extends (e.extends_endLoop e₁ e₂), h.small,
    h.wf, h₁.mono (e.beginBody e₁ cond) (Nat.le_refl _) rfl, hplaces, h.later⟩⟩

end Site

/-! ## Commands -/

/-- The code of a command, wherever it stands, does on the registers what the command does on the
cells. -/
def Command.Simulated (code : Bytecode) (sink : Sink σ) (F : List Nat) (start : σ) (fuel : Nat)
    (c : Command) : Prop :=
  ∀ {e e' s pre post}, Site code F c e e' s pre post → ∀ {m r}, r.position = e.size →
    Matches F sink start m r → Simulates code sink F start fuel r e'.size (c.exec fuel s m)

variable {e e' : Emitter} {s : Scope} {pre rest : List Nat} {m : Memory} {r : Run σ} {fuel : Nat}

/-- The code of a comparison computes it from the cells, and leaves the cells alone. -/
theorem Test.simulated (T : Target code sink F start) {t : Test} {cond : Register}
    (ht : t.lower.run e = .ok cond e') (hopens : e'.Opens code) (hsmall : e'.registers ≤ UInt32.size)
    (hs : s.WF) (hplaced : Placed pre s e) (hF : F = pre ++ rest)
    (hrest : ∀ i ∈ rest, e'.registers ≤ i) (hpos : r.position = e.size)
    (hm : Matches F sink start m r) :
    ∃ n r', Steps code sink n r r' ∧ Matches F sink start m r' ∧
      ((∃ b : Bool, t.eval (m.view s) = some b ∧ r'.position = e'.size ∧
          r'.registers.get? cond = some (if b then 1 else 0)) ∨
        t.eval (m.view s) = none ∧ Blocked code sink r') := by
  have hview : Views e r (m.view s) := (hF ▸ hm).views hs hplaced
  obtain ⟨-, n, r', hsteps, hframe, h⟩ :=
    Test.delivers (v := m.view s) ht hopens hsmall r hpos hview
  have hm' : Matches F sink start m r' := hm.frame T hframe fun i hi => by
    rw [hF] at hi
    rcases List.mem_append.1 hi with hi | hi
    · exact .inl (hplaced.lt i hi)
    · exact .inr (hrest i hi)
  refine ⟨n, r', hsteps, hm', ?_⟩
  rcases h with ⟨hpos', a, ha, hcond⟩ | ⟨hnone, hblocked⟩
  · obtain ⟨b, hb, rfl⟩ := Option.map_eq_some_iff.1 ha
    exact .inl ⟨b, hb, hpos', hcond⟩
  · exact .inr ⟨Option.map_eq_none_iff.1 hnone, hblocked⟩

namespace Command

/-- There is no code for a command that does nothing. -/
theorem simulated_skip : Simulated code sink F start fuel .skip := by
  intro e e' s pre post h m r hpos hm
  cases run_lower_skip.1 h.lowered
  exact .done_self hpos hm

/-- The code of a line of output prints it. -/
theorem simulated_print (T : Target code sink F start) (text : String) :
    Simulated code sink F start fuel (.print text) := by
  intro e e' s pre post h m r hpos hm
  cases run_lower_print.1 h.lowered
  have hat : code.at? r.position = some (.print text) := by rw [hpos, h.opens.at?]
  have haccepts : sink.Accepts r.output := by
    rw [hm.output]
    exact T.accepts.lines _
  refine ⟨1, _, .single hat (RunM.run_step_print haccepts text), ?_, ⟨hm.cells, ?_⟩⟩
  · rw [Run.print_position, hpos, Emitter.emit_size]
  · rw [Run.print_output, hm.output, Memory.print, Sink.lines_concat]

/-- The code of an assignment computes the value into the register that is the place of the new
cell, or is blocked if the value is missing. -/
theorem simulated_assign (T : Target code sink F start) (x : String) (v : Expr) :
    Simulated code sink F start fuel (.assign x v) := by
  intro e e' s pre post h m r hpos hm
  obtain ⟨q, e₁, hv, rfl⟩ := run_lower_assign.1 h.lowered
  obtain ⟨hg, rfl⟩ := Expr.lowerValue_grows hv
  have hreg := hg.registers
  have hpos' := v.valueWidth_pos
  have hopens : e₁.Opens code := h.opens
  have hsmall : e₁.registers ≤ UInt32.size := h.small
  have hlater : ∀ i ∈ post, e₁.registers ≤ i := h.later
  have hview : Views e r (m.view s) := (h.places ▸ hm).views h.wf h.placed
  obtain ⟨-, n, r', hsteps, hframe, h'⟩ :=
    Expr.delivers_value (v := m.view s) hv hopens hsmall r hpos hview
  rcases h' with ⟨hpos', a, ha, hq⟩ | ⟨hnone, hblocked⟩
  · simp only [exec, ha]
    refine ⟨n, r', hsteps, hpos', ⟨fun k i hk => ?_, hframe.output.trans hm.output⟩⟩
    -- the cell of the assignment is the only one in a register of the command
    have hcell := h.placed.length
    have hhome : (.assign x v : Command).homes e.registers = [e.registers + v.valueWidth - 1] := rfl
    by_cases hks : k = s.next
    · subst hks
      rw [h.places, hhome, ← hcell] at hk
      simp only [List.getElem?_append_right (Nat.le_refl _), Nat.sub_self, List.cons_append,
        List.getElem?_cons_zero, Option.some.injEq] at hk
      subst hk
      simp [Memory.assign, hq]
    · have hout : i < e.registers ∨ e₁.registers ≤ i := by
        rw [h.places, hhome] at hk
        rcases Nat.lt_or_gt_of_ne hks with hlt | hgt
        · rw [List.getElem?_append_left (by omega)] at hk
          exact .inl (h.placed.lt i (List.mem_of_getElem? hk))
        · rw [List.getElem?_append_right (by omega),
            List.getElem?_append_right (by simp; omega)] at hk
          exact .inr (hlater i (List.mem_of_getElem? hk))
      rw [hframe.registers i (T.small i (List.mem_of_getElem? hk)) hout, hm.cells k i hk]
      simp [Memory.assign, hks]
  · simp only [exec, hnone]
    exact ⟨n, r', hsteps, hblocked, hframe.output.trans hm.output⟩

/-- The code of two commands does what the first one does and, if that ends, what the second one
does. -/
theorem simulated_seq {a b : Command} (ha : Simulated code sink F start fuel a)
    (hb : Simulated code sink F start fuel b) : Simulated code sink F start fuel (.seq a b) := by
  intro e e' s pre post h m r hpos hm
  obtain ⟨e₁, hsa, hsb⟩ := h.seq
  exact (ha hsa hpos hm).andThen fun m' r' hpos' hm' => hb hsb hpos' hm'

/-- The end of the first block of a branch, and of the body of a loop, brings the names home that
were found before. -/
theorem settle_block (T : Target code sink F start) {c : Command} {post : List Nat}
    (h : Site code F c e e' s pre post) (entry : Bindings) (hentry : entry = e.bindings)
    (hopens : (e'.closeBlock entry ∅).2.Opens code) (hpos : r.position = e'.size)
    (hm : Matches F sink start m r) :
    Simulates code sink F start fuel r (e'.closeBlock entry ∅).2.size
      (Memory.settle c.assigned s.cell (c.after s).cell m) := by
  refine settle_simulated T hopens h.lookup_end ?_ ?_ ?_
    (homing h.wf (Nat.le_refl _) fun hk => hk) hpos hm
  · intro x q
    rw [Bindings.home_eq, hentry, h.lookup_begin]
    simp
  · intro x k hk
    exact h.isSome_place (Nat.lt_of_lt_of_le (h.wf.lt_next hk) (c.next_le_after s))
  · intro x k hk
    exact h.isSome_place ((wf_after h.wf).lt_next hk)

/-- The end of the second block of a branch brings the names home that were found before the branch
or behind its first block. -/
theorem settle_else (T : Target code sink F start) {a b : Command} {e₀ e₁ e₂ : Emitter}
    {post post' pre' : List Nat} {cond : Register} (hs : s.WF)
    (ha : Site code F a (e₀.beginThen cond) e₁ s pre post)
    (hb : Site code F b (e₀.beginElse e₁) e₂ ⟨(a.after s).next, s.cell⟩ pre' post')
    (hopens : (e₂.closeBlock e₀.bindings (e₁.closeBlock e₀.bindings ∅).1).2.Opens code)
    (hpos : r.position = e₂.size) (hm : Matches F sink start m r) :
    Simulates code sink F start fuel r
      (e₂.closeBlock e₀.bindings (e₁.closeBlock e₀.bindings ∅).1).2.size
      (Memory.settle b.assigned (Scope.join s.cell (a.after s).cell)
        (b.after ⟨(a.after s).next, s.cell⟩).cell m) := by
  have hwf : Scope.WF ⟨(a.after s).next, Scope.join s.cell (a.after s).cell⟩ :=
    hs.join (wf_after hs) (a.next_le_after s) next_le_of_after_cell
  have hnext := b.next_le_after ⟨(a.after s).next, s.cell⟩
  refine settle_simulated T hopens hb.lookup_end ?_ ?_ ?_
    (homing (s := ⟨(a.after s).next, s.cell⟩) hwf (Nat.le_refl _) fun hk => ?_) hpos hm
  · intro x q
    have hbefore : e₀.bindings.lookup x = (s.cell x).bind (place F) := ha.lookup_begin x
    rw [Bindings.home_eq, introduced_closeBlock, hbefore, ha.lookup_end, bind_join _ _ _ _
      fun k hk => ha.isSome_place (Nat.lt_of_lt_of_le (hs.lt_next hk) (a.next_le_after s))]
    cases (s.cell x).bind (place F) <;> simp
  · intro x k hk
    exact hb.isSome_place (Nat.lt_of_lt_of_le (hwf.lt_next hk) hnext)
  · intro x k hk
    exact hb.isSome_place ((wf_after hb.wf).lt_next hk)
  · have hk' : s.cell _ = some _ := hk
    simp only [Scope.join, hk', Option.some_or]

/-- From the beginning of a branch the machine goes to the beginning of one of its blocks, or is
blocked. -/
theorem enters_block (T : Target code sink F start) {t : Test} {a b : Command} {cond : Register}
    {e₀ e₁ e₂ : Emitter} {post post₁ post₂ pre₂ : List Nat}
    (h : Site code F (.ifElse t a b) e (e₀.endIf e₁ e₂) s pre post)
    (ht : t.lower.run e = .ok cond e₀) (hsa : Site code F a (e₀.beginThen cond) e₁ s pre post₁)
    (hsb : Site code F b (e₀.beginElse e₁) e₂ ⟨(a.after s).next, s.cell⟩ pre₂ post₂)
    (hpos : r.position = e.size) (hm : Matches F sink start m r) :
    ∃ n r', Steps code sink n r r' ∧ Matches F sink start m r' ∧
      (t.eval (m.view s) = some true ∧ r'.position = (e₀.beginThen cond).size ∨
        t.eval (m.view s) = some false ∧ r'.position = (e₀.beginElse e₁).size ∨
        t.eval (m.view s) = none ∧ Blocked code sink r') := by
  obtain ⟨-, -, helseLabel, helse⟩ :=
    (hsb.opens.of_extends (lower_grows hsb.lowered).2).beginElse
  have hopens₁ := hsa.opens.of_extends (lower_grows hsa.lowered).2
  obtain ⟨hbranch, hjump, hthenLabel, hthen⟩ := hopens₁.beginThen
  have htarget := fun k l (hat : code.at? k = some (.label l)) =>
    Bytecode.position?_of_at? T.labels hat
  have hreg := (lower_grows hsa.lowered).1
  have hsmall := hsa.small
  rw [Emitter.beginThen_registers] at hreg
  obtain ⟨n, r₀, hsteps, hm₀, h₀⟩ := Test.simulated T ht
    (hopens₁.of_extends (e₀.extends_beginThen cond)) (by omega) h.wf h.placed hsa.places
    (fun i hi => by
      rcases List.mem_append.1 hi with hi | hi
      · exact (mem_homes hi).1
      · have := hsa.later i hi
        omega) hpos hm
  rcases h₀ with ⟨c, hc, hpos₀, hcond⟩ | ⟨hnone, hblocked⟩
  · cases c with
    | true =>
      have hgo : Steps code sink 1 r₀ (r₀.proceed r₀.registers (e₀.size + 2 + 1)) :=
        .single (by rw [hpos₀, hbranch])
          (RunM.run_step_branch_taken hcond (by decide) (htarget _ _ hthenLabel))
      exact ⟨n + 1, _, hsteps.trans hgo, hm₀.of_eq rfl rfl,
        .inl ⟨hc, by rw [Run.proceed_position, hthen]⟩⟩
    | false =>
      have hpass : Steps code sink 1 r₀ (r₀.proceed r₀.registers (r₀.position + 1)) :=
        .single (by rw [hpos₀, hbranch]) (RunM.run_step_branch_passed hcond (by decide))
      have hgo := hpass.trans (.single (by rw [Run.proceed_position, hpos₀, hjump])
        (RunM.run_step_jump (htarget _ _ helseLabel)))
      exact ⟨n + 2, _, hsteps.trans hgo, hm₀.of_eq rfl rfl,
        .inr (.inl ⟨hc, by rw [Run.proceed_position, helse]⟩)⟩
  · exact ⟨n, r₀, hsteps, hm₀, .inr (.inr ⟨hnone, hblocked⟩)⟩

/-- The code of a branch does what the block does that is taken, and then moves the names to their
homes. -/
theorem simulated_ifElse (T : Target code sink F start) {t : Test} {a b : Command}
    (ha : Simulated code sink F start fuel a) (hb : Simulated code sink F start fuel b) :
    Simulated code sink F start fuel (.ifElse t a b) := by
  intro e e' s pre post h m r hpos hm
  obtain ⟨cond, e₀, e₁, e₂, ht, rfl, hplaced, hsa, hsb⟩ := h.ifElse
  obtain ⟨hopens₃, hdone, hdoneLabel, hsize⟩ := h.opens.endIf
  obtain ⟨hopens₂, hskip, -, -⟩ := (hsb.opens.of_extends (lower_grows hsb.lowered).2).beginElse
  have hjump : code.position? (.ofIndex (e₀.labels + 2)) = some _ :=
    Bytecode.position?_of_at? T.labels hdoneLabel
  obtain ⟨n, r₀, hsteps, hm₀, h₀⟩ := enters_block T h ht hsa hsb hpos hm
  refine .of_steps hsteps ?_
  rcases h₀ with ⟨hc, hpos₀⟩ | ⟨hc, hpos₀⟩ | ⟨hc, hblocked⟩
  · simp only [exec, hc]
    refine ((ha hsa hpos₀ hm₀).andThen fun m' r' hpos' hm' =>
      settle_block T hsa e₀.bindings rfl hopens₂ hpos' hm').append fun r' hpos' => ?_
    rw [hsize]
    exact .single (by rw [hpos', hskip]) (RunM.run_step_jump hjump)
  · simp only [exec, hc]
    refine ((hb hsb hpos₀ hm₀).andThen fun m' r' hpos' hm' =>
      settle_else T h.wf hsa hsb hopens₃ hpos' hm').append fun r' hpos' => ?_
    rw [hsize]
    exact .single (by rw [hpos', hdone]) (RunM.run_step_jump hjump)
  · simp only [exec, hc]
    exact ⟨0, r₀, .refl r₀, hblocked, hm₀.output⟩

/-- From the condition of a loop the machine goes to the beginning of the body or behind the loop,
or is blocked. To enter the body takes at least one step. -/
theorem enters_body (T : Target code sink F start) {t : Test} {b : Command} {cond : Register}
    {e₁ e₂ : Emitter} {post : List Nat}
    (h : Site code F (.whileLoop t b) e (e.endLoop e₁ e₂) s pre post)
    (ht : t.lower.run e.beginLoop = .ok cond e₁)
    (hsb : Site code F b (e.beginBody e₁ cond) e₂ s pre post)
    (hpos : r.position = e.beginLoop.size) (hm : Matches F sink start m r) :
    ∃ n r', Steps code sink n r r' ∧ Matches F sink start m r' ∧
      (t.eval (m.view s) = some true ∧ 1 ≤ n ∧ r'.position = (e.beginBody e₁ cond).size ∨
        t.eval (m.view s) = some false ∧ r'.position = (e.endLoop e₁ e₂).size ∨
        t.eval (m.view s) = none ∧ Blocked code sink r') := by
  obtain ⟨-, -, hendLabel, hsize⟩ := h.opens.endLoop
  have hopens₁ := hsb.opens.of_extends (lower_grows hsb.lowered).2
  obtain ⟨hbranch, hbody⟩ := hopens₁.beginBody
  have hreg := (lower_grows hsb.lowered).1
  have hsmall := hsb.small
  rw [Emitter.beginBody_registers] at hreg
  obtain ⟨n, r₀, hsteps, hm₀, h₀⟩ := Test.simulated T ht
    (hopens₁.of_extends (e.extends_beginBody e₁ cond)) (by omega) h.wf
    (h.placed.mono e.beginLoop (Nat.le_refl _) rfl) hsb.places
    (fun i hi => by
      rcases List.mem_append.1 hi with hi | hi
      · exact (mem_homes hi).1
      · have := hsb.later i hi
        omega) hpos hm
  rcases h₀ with ⟨c, hc, hpos₀, hcond⟩ | ⟨hnone, hblocked⟩
  · cases c with
    | true =>
      have hgo : Steps code sink 1 r₀ (r₀.proceed r₀.registers (r₀.position + 1)) :=
        .single (by rw [hpos₀, hbranch]) (RunM.run_step_branch_passed hcond (by decide))
      exact ⟨n + 1, _, hsteps.trans hgo, hm₀.of_eq rfl rfl,
        .inl ⟨hc, Nat.le_add_left _ _, by rw [Run.proceed_position, hpos₀, hbody]⟩⟩
    | false =>
      have hgo : Steps code sink 1 r₀ (r₀.proceed r₀.registers _) :=
        .single (by rw [hpos₀, hbranch]) (RunM.run_step_branch_taken hcond (by decide)
          (Bytecode.position?_of_at? T.labels hendLabel))
      exact ⟨n + 1, _, hsteps.trans hgo, hm₀.of_eq rfl rfl,
        .inr (.inl ⟨hc, by rw [Run.proceed_position, hsize]⟩)⟩
  · exact ⟨n, r₀, hsteps, hm₀, .inr (.inr ⟨hnone, hblocked⟩)⟩

/-- The body of a loop leads back to the condition. -/
theorem simulated_round (T : Target code sink F start) {t : Test} {b : Command} {cond : Register}
    (hb : Simulated code sink F start fuel b) {e₁ e₂ : Emitter} {post : List Nat}
    (h : Site code F (.whileLoop t b) e (e.endLoop e₁ e₂) s pre post)
    (ht : t.lower.run e.beginLoop = .ok cond e₁)
    (hsb : Site code F b (e.beginBody e₁ cond) e₂ s pre post)
    (hpos : r.position = (e.beginBody e₁ cond).size) (hm : Matches F sink start m r) :
    Simulates code sink F start fuel r e.beginLoop.size ((b.exec fuel s m).andThen
      (Memory.settle b.assigned s.cell (b.after s).cell)) := by
  obtain ⟨hopens₂, hback, -, -⟩ := h.opens.endLoop
  have hopens₁ := hsb.opens.of_extends (lower_grows hsb.lowered).2
  obtain ⟨hstartLabel, hbegin⟩ := ((hopens₁.of_extends (e.extends_beginBody e₁ cond)).of_extends
    (Test.lower_grows ht).1.code).beginLoop
  refine ((hb hsb hpos hm).andThen fun m' r' hpos' hm' =>
    settle_block T hsb e₁.bindings rfl hopens₂ hpos' hm').append fun r' hpos' => ?_
  rw [hbegin]
  exact .single (by rw [hpos', hback])
    (RunM.run_step_jump (Bytecode.position?_of_at? T.labels hstartLabel))

/-- The rounds of a loop, from where its condition begins. -/
theorem simulated_rounds (T : Target code sink F start) {t : Test} {b : Command} {cond : Register}
    (hb : Simulated code sink F start fuel b) {e₁ e₂ : Emitter} {post : List Nat}
    (h : Site code F (.whileLoop t b) e (e.endLoop e₁ e₂) s pre post)
    (ht : t.lower.run e.beginLoop = .ok cond e₁)
    (hsb : Site code F b (e.beginBody e₁ cond) e₂ s pre post) {rounds : Nat} (hle : rounds ≤ fuel)
    (hpos : r.position = e.beginLoop.size) (hm : Matches F sink start m r) :
    Simulates code sink F start rounds r (e.endLoop e₁ e₂).size
      (Outcome.repeatWhile (fun m => t.eval (m.view s))
        (fun m => (b.exec fuel s m).andThen
          (Memory.settle b.assigned s.cell (b.after s).cell)) rounds m) := by
  induction rounds generalizing m r with
  | zero => exact ⟨0, r, .refl r, Nat.le_refl _⟩
  | succ rounds ih =>
    obtain ⟨n, r₀, hsteps, hm₀, h₀⟩ := enters_body T h ht hsb hpos hm
    rcases h₀ with ⟨hc, hn, hpos₀⟩ | ⟨hc, hpos₀⟩ | ⟨hc, hblocked⟩
    · simp only [Outcome.repeatWhile, hc]
      have hround := simulated_round T hb h ht hsb hpos₀ hm₀
      have hrounds : Simulates code sink F start rounds r₀ _ _ :=
        (hround.prepend (.refl _) (by omega)).andThen
          fun m' r' hpos' hm' => ih (Nat.le_of_succ_le hle) hpos' hm'
      -- the step that enters the body counts for the round
      exact hrounds.prepend hsteps (by omega)
    · simp only [Outcome.repeatWhile, hc]
      exact ⟨n, r₀, hsteps, hpos₀, hm₀⟩
    · simp only [Outcome.repeatWhile, hc]
      exact ⟨n, r₀, hsteps, hblocked, hm₀.output⟩

/-- A loop begins with a label, behind which its condition begins. -/
theorem enters_loop {t : Test} {b : Command} {cond : Register} {e₁ e₂ : Emitter} {post : List Nat}
    (ht : t.lower.run e.beginLoop = .ok cond e₁)
    (hsb : Site code F b (e.beginBody e₁ cond) e₂ s pre post)
    (hpos : r.position = e.size) (hm : Matches F sink start m r) :
    ∃ r', Steps code sink 1 r r' ∧ r'.position = e.beginLoop.size ∧ Matches F sink start m r' := by
  have hopens₁ := hsb.opens.of_extends (lower_grows hsb.lowered).2
  obtain ⟨hstartLabel, hbegin⟩ := ((hopens₁.of_extends (e.extends_beginBody e₁ cond)).of_extends
    (Test.lower_grows ht).1.code).beginLoop
  have hgo : Steps code sink 1 r (r.proceed r.registers (r.position + 1)) :=
    .single (by rw [hpos, hstartLabel]) RunM.run_step_label
  exact ⟨_, hgo, by rw [Run.proceed_position, hpos, hbegin], hm.of_eq rfl rfl⟩

/-- The code of a loop does what its rounds do, from the label at its beginning. -/
theorem simulated_whileLoop (T : Target code sink F start) {t : Test} {b : Command}
    (hb : Simulated code sink F start fuel b) :
    Simulated code sink F start fuel (.whileLoop t b) := by
  intro e e' s pre post h m r hpos hm
  obtain ⟨cond, e₁, e₂, ht, rfl, hplaced, hsb⟩ := h.whileLoop
  obtain ⟨r₁, hgo, hpos₁, hm₁⟩ := enters_loop ht hsb hpos hm
  exact .of_steps hgo (simulated_rounds T hb h ht hsb (Nat.le_refl _) hpos₁ hm₁)

/-- The code of a command does on the registers what the command does on the cells. -/
theorem simulated (T : Target code sink F start) (c : Command) :
    Simulated code sink F start fuel c := by
  induction c with
  | skip => exact simulated_skip
  | print text => exact simulated_print T text
  | assign x v => exact simulated_assign T x v
  | seq a b iha ihb => exact simulated_seq iha ihb
  | ifElse t a b iha ihb => exact simulated_ifElse T iha ihb
  | whileLoop t b ih => exact simulated_whileLoop T ih

end Command

/-! ## Programs -/

/-- The code of a command, as a program of its own, is a place where the command stands. -/
theorem Command.site_program {c : Command} {e : Emitter} (hlower : c.lower.run .empty = .ok () e)
    (hlabels : e.finish.duplicateLabel? = none) (hsmall : e.registers < UInt32.size)
    (start : σ) (haccepts : sink.Accepts start) :
    Target e.finish sink (c.homes 0) start ∧
      Site e.finish (c.homes 0) c .empty e .empty [] [] ∧
      Matches (c.homes 0) sink start .empty (.start start) := by
  have hwidth : e.registers = c.width := by
    rw [(lower_grows hlower).1]
    exact Nat.zero_add _
  refine ⟨⟨hlabels, haccepts, c.pairwise_homes 0, fun i hi => ?_⟩,
    ⟨hlower, e.opens_finish, Nat.le_of_lt hsmall, Scope.wf_empty, .empty,
      by simp [Emitter.empty], nofun⟩, ⟨fun k i _ => Registers.get?_empty, rfl⟩⟩
  have := (mem_homes hi).2
  omega

/-- The code of a command, as a program of its own, does on the registers what the command does on
the cells. -/
theorem Command.simulated_program {c : Command} {e : Emitter} (hlower : c.lower.run .empty = .ok () e)
    (hlabels : e.finish.duplicateLabel? = none) (hsmall : e.registers < UInt32.size)
    (start : σ) (haccepts : sink.Accepts start) (fuel : Nat) :
    Simulates e.finish sink (c.homes 0) start fuel (.start start) e.size
      (c.exec fuel .empty .empty) := by
  obtain ⟨T, hsite, hm⟩ := site_program hlower hlabels hsmall start haccepts
  exact simulated T c hsite rfl hm

namespace Bytecode

variable {c : Command} {e : Emitter} {final : σ}

/-- Behind the code of a program there is nothing. -/
theorem at?_size_finish (e : Emitter) : e.finish.at? e.size = none := by
  simp [at?, Emitter.finish, Emitter.size]

variable (hlower : c.lower.run .empty = .ok () e) (hlabels : e.finish.duplicateLabel? = none)
  (hsmall : e.registers < UInt32.size) (haccepts : sink.Accepts start)

include hlower hlabels hsmall haccepts

/-- If the command ends on the cells, the run leads out of the program. -/
theorem steps_of_ends {m : Memory} (h : c.Ends m) : ∃ n r,
    Steps e.finish sink n (.start start) r ∧ e.finish.at? r.position = none ∧
      r.output = sink.lines start m.lines := by
  obtain ⟨fuel, hfuel⟩ := h
  have hsim := Command.simulated_program hlower hlabels hsmall start haccepts fuel
  rw [hfuel] at hsim
  obtain ⟨n, r, hsteps, hpos, hm⟩ := hsim
  exact ⟨n, r, hsteps, by rw [hpos, at?_size_finish], hm.output⟩

/-- If the command gets stuck on the cells, the run is blocked. -/
theorem steps_of_getsStuck {m : Memory} (h : c.GetsStuck m) : ∃ n r,
    Steps e.finish sink n (.start start) r ∧ Blocked e.finish sink r ∧
      r.output = sink.lines start m.lines := by
  obtain ⟨fuel, hfuel⟩ := h
  have hsim := Command.simulated_program hlower hlabels hsmall start haccepts fuel
  rw [hfuel] at hsim
  exact hsim

/-- If the command runs forever on the cells, so does the program. -/
theorem runsForever_of_goesOn (h : c.GoesOn) : e.finish.RunsForever sink start := by
  refine runsForever_of_steps hlabels fun limit => ?_
  obtain ⟨m, hm⟩ := h (limit + 1)
  have hsim := Command.simulated_program hlower hlabels hsmall start haccepts (limit + 1)
  rw [hm] at hsim
  obtain ⟨n, r, hsteps, hn⟩ := hsim
  exact ⟨n, r, hn, hsteps⟩

/-- The program completes exactly if the command ends on the cells. -/
theorem completesWith_iff_ends : e.finish.CompletesWith sink start final ↔
    ∃ m, c.Ends m ∧ sink.flush.run (sink.lines start m.lines) = .ok () final := by
  constructor
  · intro h
    rcases c.goesOn_or with hgo | ⟨m, hends⟩ | ⟨m, hstuck⟩
    · exact absurd h
        (runsForever_of_goesOn hlower hlabels hsmall haccepts hgo).not_completesWith
    · obtain ⟨n, r, hsteps, hend, hout⟩ := steps_of_ends hlower hlabels hsmall haccepts hends
      exact ⟨m, hends, hout ▸ (completesWith_iff_of_end hlabels hsteps hend).1 h⟩
    · obtain ⟨n, r, hsteps, hblocked, -⟩ :=
        steps_of_getsStuck hlower hlabels hsmall haccepts hstuck
      exact absurd h (not_completesWith_of_blocked hlabels hsteps hblocked)
  · rintro ⟨m, hends, hflush⟩
    obtain ⟨n, r, hsteps, hend, hout⟩ := steps_of_ends hlower hlabels hsmall haccepts hends
    exact (completesWith_iff_of_end hlabels hsteps hend).2 (hout ▸ hflush)

/-- The program fails exactly if the command gets stuck on the cells. -/
theorem failsWith_iff_getsStuck : e.finish.FailsWith sink start final ↔
    ∃ m, c.GetsStuck m ∧ final = sink.lines start m.lines := by
  constructor
  · intro h
    rcases c.goesOn_or with hgo | ⟨m, hends⟩ | ⟨m, hstuck⟩
    · exact absurd h (runsForever_of_goesOn hlower hlabels hsmall haccepts hgo).not_failsWith
    · obtain ⟨n, r, hsteps, hend, -⟩ := steps_of_ends hlower hlabels hsmall haccepts hends
      exact absurd h (not_failsWith_of_end hlabels hsteps hend)
    · obtain ⟨n, r, hsteps, hblocked, hout⟩ :=
        steps_of_getsStuck hlower hlabels hsmall haccepts hstuck
      exact ⟨m, hstuck, hout ▸ (failsWith_iff_of_blocked hlabels hsteps hblocked).1 h⟩
  · rintro ⟨m, hstuck, rfl⟩
    obtain ⟨n, r, hsteps, hblocked, hout⟩ :=
      steps_of_getsStuck hlower hlabels hsmall haccepts hstuck
    exact (failsWith_iff_of_blocked hlabels hsteps hblocked).2 hout.symm

/-- The program runs forever exactly if the command does on the cells. -/
theorem runsForever_iff_goesOn : e.finish.RunsForever sink start ↔ c.GoesOn := by
  constructor
  · intro h
    rcases c.goesOn_or with hgo | ⟨m, hends⟩ | ⟨m, hstuck⟩
    · exact hgo
    · obtain ⟨n, r, hsteps, hend, -⟩ := steps_of_ends hlower hlabels hsmall haccepts hends
      exact absurd h (not_runsForever_of_end hsteps hend)
    · obtain ⟨n, r, hsteps, hblocked, -⟩ :=
        steps_of_getsStuck hlower hlabels hsmall haccepts hstuck
      exact absurd h (not_runsForever_of_blocked hsteps hblocked)
  · exact runsForever_of_goesOn hlower hlabels hsmall haccepts

end Bytecode

end RegisterBackend
