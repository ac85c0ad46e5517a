import RegisterBackend.Lowering.Emitter

/-!
# The bindings behind a block

While a block is lowered, the names bound before it keep the registers that they owned
(`Bindings.Above`). So the end of the block finds these registers again (`Stack.truncate_size`), and
the bindings behind the block can be given name by name: `Bindings.lookup_exitBlock` for a single
block and `Bindings.owned_forget_exitBlock`, `Bindings.lookup_adopt` for what a branch does between
and behind its blocks. The copies that the end of a block consists of are a list of moves from
register to register (`Bindings.moves`), one for each name whose value is not where it has to be.
-/

namespace RegisterBackend

/-! ## Stacks -/

namespace Stack

variable {α : Type}

/-- Keeping the oldest elements gives back a stack that elements were put upon. -/
theorem keepOldest_size {s : Stack α} : ∀ {a : α} {l : List α}, s.toList <:+ a :: l →
    keepOldest s.size a l = s
  | a, [], h => by
    obtain ⟨top, below⟩ := s
    rcases List.suffix_cons_iff.1 h with h | h
    · cases h
      rfl
    · simp [toList] at h
  | a, b :: rest, h => by
    rcases List.suffix_cons_iff.1 h with h | h
    · obtain ⟨top, below⟩ := s
      cases h
      simp [keepOldest, size]
    · have hlen := h.length_le
      have hlt : ¬ rest.length + 2 ≤ s.size := by
        simp only [toList, List.length_cons] at hlen
        simp only [size]
        omega
      rw [keepOldest, if_neg hlt]
      exact keepOldest_size h

/-- Cutting a stack down gives back one that elements were put upon. -/
theorem truncate_size {s t : Stack α} (h : s.toList <:+ t.toList) : t.truncate s.size = s :=
  keepOldest_size h

end Stack

namespace Bindings

variable {b entry : Bindings} {homes : NameMap Register} {x : String}

/-- A name is bound exactly if it owns registers. -/
theorem lookup_eq_none : b.lookup x = none ↔ b.owned[x]? = none := by
  simp [lookup]

/-- The names bound in `entry` own the registers that they owned there, and perhaps newer ones. -/
def Above (b entry : Bindings) : Prop :=
  ∀ (x : String) (s : Stack Register), entry.owned[x]? = some s →
    ∃ t : Stack Register, b.owned[x]? = some t ∧ s.toList <:+ t.toList

theorem Above.refl (b : Bindings) : b.Above b :=
  fun _ s h => ⟨s, h, List.suffix_refl _⟩

/-- Names keep what they own over two stretches of code. -/
theorem Above.trans {b₁ b₂ : Bindings} (h₂ : b₂.Above b₁) (h₁ : b₁.Above b) : b₂.Above b := by
  intro x s hs
  obtain ⟨t, ht, hst⟩ := h₁ x s hs
  obtain ⟨u, hu, htu⟩ := h₂ x t ht
  exact ⟨u, hu, hst.trans htu⟩

/-- Bindings that give every name the registers that it owned before are above those. -/
theorem above_of_owned
    (h : ∀ (x : String) (s : Stack Register), entry.owned[x]? = some s → b.owned[x]? = some s) :
    b.Above entry :=
  fun x s hs => ⟨s, h x s hs, List.suffix_refl _⟩

/-! ## Binding, unbinding and adopting -/

/-- A new register holds the name's value. -/
theorem lookup_bind (b : Bindings) (x y : String) (r : Register) :
    (b.bind x r).lookup y = if y = x then some r else b.lookup y := by
  by_cases hy : y = x
  · subst hy
    cases h : b.owned[y]? <;> simp [bind, lookup, h, Stack.pushOn, Stack.singleton, Stack.push]
  · have hne : x ≠ y := fun he => hy he.symm
    simp [bind, lookup, Std.TreeMap.getElem?_insert, hy, hne]

/-- A new register is put on top of those that the name owns. -/
theorem above_bind (b : Bindings) (x : String) (r : Register) : (b.bind x r).Above b := by
  intro y s hs
  by_cases hy : y = x
  · subst hy
    refine ⟨s.push r, ?_, List.suffix_cons _ _⟩
    simp [bind, hs, Stack.pushOn]
  · have hne : x ≠ y := fun he => hy he.symm
    exact ⟨s, by simp [bind, Std.TreeMap.getElem?_insert, hne, hs], List.suffix_refl _⟩

/-- Unbinding takes the given names away and leaves the others alone. -/
theorem owned_forget (b : Bindings) (names : List String) :
    (b.forget names).owned[x]? = if x ∈ names then none else b.owned[x]? := by
  simp only [forget]
  generalize b.owned = owned
  induction names generalizing owned with
  | nil => simp
  | cons y names ih =>
    rw [List.foldl_cons, ih, Std.TreeMap.getElem?_erase]
    by_cases hx : x ∈ names
    · simp [hx]
    · by_cases hy : y = x
      · simp [hy]
      · have hne : x ≠ y := fun he => hy he.symm
        simp [hx, hy, hne]

/-- Adopting names leaves those alone that are bound. -/
theorem owned_adopt {s : Stack Register} (h : b.owned[x]? = some s) :
    (b.adopt homes).owned[x]? = some s := by
  rw [adopt, Std.TreeMap.foldl_eq_foldl_toList]
  generalize homes.toList = l
  induction l generalizing b with
  | nil => exact h
  | cons p l ih =>
    rw [List.foldl_cons]
    apply ih
    split
    next hnone =>
      have hne : p.1 ≠ x := by
        rintro rfl
        simp [lookup, h] at hnone
      simp [bind, Std.TreeMap.getElem?_insert, hne, h]
    next => exact h

/-- Along a table, each entry binds its name if that is not bound. -/
theorem lookup_foldl_bind (x : String) : ∀ (l : List (String × Register)) (b : Bindings),
    (l.foldl (fun b p => if (b.lookup p.1).isNone then b.bind p.1 p.2 else b) b).lookup x =
      (b.lookup x).or ((l.find? fun p => p.1 = x).map (·.2))
  | [], b => by simp
  | p :: l, b => by
    rw [List.foldl_cons, lookup_foldl_bind x l]
    by_cases hp : p.1 = x
    · cases hb : b.lookup x <;> simp [hp, hb, lookup_bind]
    · have hne : ¬ x = p.1 := fun he => hp he.symm
      cases hb : b.lookup p.1 <;> simp [hp, hne, lookup_bind]

/-- Adopting names binds those that are not bound. -/
theorem lookup_adopt (b : Bindings) (homes : NameMap Register) (x : String) :
    (b.adopt homes).lookup x = (b.lookup x).or homes[x]? := by
  have hfind : (homes.toList.find? fun p => p.1 = x).map (·.2) = homes[x]? := by
    ext r
    rw [Option.map_eq_some_iff]
    constructor
    · rintro ⟨⟨y, q⟩, hf, rfl⟩
      have hy : y = x := by simpa using List.find?_some hf
      rw [← hy]
      exact Std.TreeMap.mem_toList_iff_getElem?_eq_some.1 (List.mem_of_find?_eq_some hf)
    · intro hr
      have hmem := Std.TreeMap.mem_toList_iff_getElem?_eq_some.2 hr
      cases hf : homes.toList.find? fun p => p.1 = x with
      | none => simpa using List.find?_eq_none.1 hf _ hmem
      | some p =>
        obtain ⟨y, q⟩ := p
        have hy : y = x := by simpa using List.find?_some hf
        have hq := Std.TreeMap.mem_toList_iff_getElem?_eq_some.1 (List.mem_of_find?_eq_some hf)
        rw [hy, hr] at hq
        cases hq
        exact ⟨(y, r), rfl, rfl⟩
  rw [adopt, Std.TreeMap.foldl_eq_foldl_toList, lookup_foldl_bind, hfind]

/-! ## The end of a block -/

/-- Behind a block, a name that was bound before it owns the registers that it owned then. -/
theorem owned_exitBlock_of_bound (habove : b.Above entry) {s : Stack Register}
    (hs : entry.owned[x]? = some s) : (b.exitBlock entry homes).2.owned[x]? = some s := by
  obtain ⟨t, ht, hst⟩ := habove x s hs
  simp [exitBlock, ht, settle, hs, Stack.truncate_size hst]

/-- Behind a block, a name that was not bound before it is left with its home. -/
theorem owned_exitBlock_of_unbound (hs : entry.owned[x]? = none) :
    (b.exitBlock entry homes).2.owned[x]? =
      b.owned[x]?.map fun s => .singleton (homes[x]?.getD s.top) := by
  simp only [exitBlock, Std.TreeMap.getElem?_map]
  cases b.owned[x]? with
  | none => rfl
  | some t => simp [settle, hs, Std.TreeMap.getD_eq_getD_getElem?]

/-- Where the values of names are behind a block. -/
theorem lookup_exitBlock (habove : b.Above entry) :
    (b.exitBlock entry homes).2.lookup x =
      (entry.lookup x).or ((b.lookup x).map fun r => homes[x]?.getD r) := by
  cases hs : entry.owned[x]? with
  | some s => simp [lookup, owned_exitBlock_of_bound habove hs, hs]
  | none =>
    rw [lookup, owned_exitBlock_of_unbound hs, lookup_eq_none.2 hs, Option.none_or, lookup]
    cases b.owned[x]? <;> rfl

/-- The names that a block introduced are those that were not bound before it. -/
theorem introduced_exitBlock (b entry : Bindings) (homes : NameMap Register) (x : String) :
    (b.exitBlock entry homes).1.introduced[x]? =
      if (entry.lookup x).isSome then none else (b.lookup x).map fun r => homes[x]?.getD r := by
  simp only [exitBlock, Std.TreeMap.getElem?_filterMap', lookup, Option.isSome_map,
    Std.TreeMap.contains_eq_isSome_getElem?, Std.TreeMap.getD_eq_getD_getElem?]
  cases b.owned[x]? <;> cases entry.owned[x]? <;> simp

/-- Between the blocks of a branch, every name owns the registers that it owned before. -/
theorem owned_forget_exitBlock (habove : b.Above entry) :
    ((b.exitBlock entry ∅).2.forget (b.exitBlock entry ∅).1.introduced.keys).owned[x]? =
      entry.owned[x]? := by
  have hintro := introduced_exitBlock b entry ∅ x
  simp only [owned_forget, Std.TreeMap.mem_keys, Std.TreeMap.mem_iff_isSome_getElem?, hintro]
  cases hs : entry.owned[x]? with
  | some s => simp [lookup, hs, owned_exitBlock_of_bound habove hs]
  | none =>
    rw [owned_exitBlock_of_unbound hs]
    cases hb : b.owned[x]? <;> simp [lookup, hs, hb]

/-! ## The copies at the end of a block -/

/-- The moves that the end of a block consists of, each with its target and its source. -/
def moves (b entry : Bindings) (homes : NameMap Register) : List (Register × Register) :=
  b.owned.toList.filterMap fun (name, stack) =>
    if entry.home homes name stack.top = stack.top then none
    else some (entry.home homes name stack.top, stack.top)

/-- The copies are the moves, in order. -/
theorem copies_exitBlock : (b.exitBlock entry homes).1.copies =
    (b.moves entry homes).map fun m => .set m.1 (.register m.2) := by
  simp only [exitBlock, moves, List.map_filterMap]
  congr 1
  funext p
  split <;> rfl

/-- Where a value has to be behind a block. -/
theorem home_eq (entry : Bindings) (homes : NameMap Register) (x : String) (now : Register) :
    entry.home homes x now = (entry.lookup x).getD (homes[x]?.getD now) := by
  unfold home
  cases entry.lookup x <;> simp [Std.TreeMap.getD_eq_getD_getElem?]

/-- The moves are those of the names whose value is not where it has to be. -/
theorem mem_moves {d q : Register} : (d, q) ∈ b.moves entry homes ↔
    ∃ x, b.lookup x = some q ∧ d = entry.home homes x q ∧ d ≠ q := by
  simp only [moves, List.mem_filterMap, Prod.exists]
  constructor
  · rintro ⟨x, s, hmem, h⟩
    split at h
    next => cases h
    next hne =>
      cases h
      have hs := Std.TreeMap.mem_toList_iff_getElem?_eq_some.1 hmem
      exact ⟨x, by simp [lookup, hs], rfl, hne⟩
  · rintro ⟨x, hx, rfl, hne⟩
    obtain ⟨s, hs, rfl⟩ := Option.map_eq_some_iff.1 hx
    exact ⟨x, s, Std.TreeMap.mem_toList_iff_getElem?_eq_some.2 hs, by rw [if_neg hne]⟩

/-- No two moves have one target, if no two names that are not at home have one home. -/
theorem pairwise_moves (hinj : ∀ x y q r, b.lookup x = some q → b.lookup y = some r →
    entry.home homes x q ≠ q → entry.home homes y r ≠ r →
    entry.home homes x q = entry.home homes y r → x = y) :
    (b.moves entry homes).Pairwise fun m n => m.1 ≠ n.1 := by
  unfold moves
  rw [List.pairwise_filterMap]
  refine Std.TreeMap.distinct_keys_toList.imp_of_mem ?_
  rintro ⟨x, s⟩ ⟨y, t⟩ hx hy hne m hm n hn he
  have hs := Std.TreeMap.mem_toList_iff_getElem?_eq_some.1 hx
  have ht := Std.TreeMap.mem_toList_iff_getElem?_eq_some.1 hy
  simp only at hm hn hne
  split at hm <;> split at hn <;> cases hm <;> cases hn
  next hsx hty =>
    have hxy := hinj x y s.top t.top (by simp [lookup, hs]) (by simp [lookup, ht]) hsx hty he
    exact hne (by simp [hxy])

end Bindings

end RegisterBackend
