import RegisterBackend.Proofs.Folding
import RegisterBackend.Propagation.Knowledge

/-!
# What is known behind a frame

A frame of `Knowledge` is opened at the beginning of a block and closed at its end. Whatever is
recorded and forgotten in between, and whatever frames are opened and closed, the frame leaves the
names of which nothing was forgotten as they were, and of the others nothing is known
(`Leads.drops_closeFrame`). To see this, one follows what the stack of a name can be while the frame
is open: as it was, or gone, or with one value on top of either (`FrameOf`).

`Knowledge.Knows` connects a table with scalar values to the function from names to values that
folding works with.
-/

namespace RegisterBackend.Knowledge

/-! ## Looking up -/

/-- A name that is recorded has the new value, and the others have those from before. -/
theorem lookup_record (k : Knowledge) (x : String) (l : Literal) (y : String) :
    (k.record x l).lookup y = if x = y then some l else k.lookup y := by
  unfold record
  split
  · split <;> by_cases h : x = y <;>
      simp [lookup, Std.TreeMap.getElem?_insert, h, Stack.setTop, Stack.push]
  · by_cases h : x = y <;> simp [lookup, Std.TreeMap.getElem?_insert, h, Stack.singleton]

theorem lookup_invalidate (k : Knowledge) (x y : String) :
    (k.invalidate x).lookup y = if x = y then none else k.lookup y := by
  by_cases h : x = y <;> simp [lookup, invalidate, Std.TreeMap.getElem?_erase, h]

/-- Names that are forgotten have no value, and the others have those from before. -/
theorem lookup_invalidateAll (k : Knowledge) (names : List String) (y : String) :
    (k.invalidateAll names).lookup y = if y ∈ names then none else k.lookup y := by
  unfold invalidateAll
  induction names generalizing k with
  | nil => simp
  | cons x names ih =>
    rw [List.foldl_cons, ih, lookup_invalidate]
    by_cases hy : y ∈ names
    · simp [hy]
    · by_cases hx : x = y
      · simp [hx]
      · simp [hy, hx, Ne.symm hx]

/-- A record is made in the innermost frame. -/
theorem outer_record (k : Knowledge) (x : String) (l : Literal) :
    (k.record x l).outer = k.outer := by
  unfold record
  split
  · split <;> rfl
  · rfl

/-- The innermost frame has recorded the name, and what it had recorded before. -/
theorem mem_inner_record {k : Knowledge} {x y : String} {l : Literal} :
    y ∈ (k.record x l).inner ↔ x = y ∨ y ∈ k.inner := by
  unfold record
  split
  · split
    next hx =>
      rw [iff_or_self]
      rintro rfl
      exact Std.TreeSet.contains_iff_mem.1 hx
    next => simp [Std.TreeSet.mem_insert]
  · simp [Std.TreeSet.mem_insert]

/-- The values of other names are not touched, in any frame. -/
theorem values_record_of_ne {k : Knowledge} {x y : String} {l : Literal} (h : x ≠ y) :
    (k.record x l).values[y]? = k.values[y]? := by
  unfold record
  split
  · split <;> simp [Std.TreeMap.getElem?_insert, h]
  · simp [Std.TreeMap.getElem?_insert, h]

/-- A record goes on top of what a frame outside has recorded, and in the place of what its own
frame has. -/
theorem values_record_self (k : Knowledge) (x : String) (l : Literal) :
    ∃ stack, (k.record x l).values[x]? = some stack ∧
      stack.pop? = if x ∈ k.inner then k.values[x]?.bind Stack.pop? else k.values[x]? := by
  unfold record
  split
  next stack hstack =>
    split
    next hx => exact ⟨stack.setTop l, by simp, by simp_all [Stack.setTop, Stack.pop?]⟩
    next hx => exact ⟨stack.push l, by simp, by simp_all [Stack.push, Stack.pop?]⟩
  next hnone => exact ⟨.singleton l, by simp, by simp [Stack.singleton, Stack.pop?, hnone]⟩

/-- The names known to hold scalars hold the given ones, and no other name is known. -/
def Knows (k : Knowledge) (K : Known) : Prop :=
  ∀ x, k.lookup x = (K x).map .scalar

namespace Knows

variable {k : Knowledge} {K : Known}

theorem empty : Knowledge.empty.Knows fun _ => none := by
  intro x
  simp [Knowledge.empty, lookup]

theorem openFrame (h : k.Knows K) : k.openFrame.Knows K :=
  h

/-- A scalar that is recorded becomes the one that the name is known to hold. -/
theorem record (h : k.Knows K) (x : String) (v : Int64) :
    (k.record x (.scalar v)).Knows (Function.update K x (some v)) := by
  intro y
  rw [lookup_record]
  split
  next hxy => simp [hxy]
  next hxy => rw [Function.update_of_ne (Ne.symm hxy), h y]

/-- A name that is forgotten is not known. -/
theorem invalidate (h : k.Knows K) (x : String) :
    (k.invalidate x).Knows (Function.update K x none) := by
  intro y
  rw [lookup_invalidate]
  split
  next hxy => simp [hxy]
  next hxy => rw [Function.update_of_ne (Ne.symm hxy), h y]

/-- Names that are forgotten are not known. -/
theorem invalidateAll (h : k.Knows K) (names : List String) :
    (k.invalidateAll names).Knows fun x => if x ∈ names then none else K x := by
  intro y
  rw [lookup_invalidateAll, h y]
  by_cases hy : y ∈ names <;> simp [hy]

end Knows

/-! ## Frames -/

/-- One table is the other with everything forgotten of some names. -/
structure Drops (k' k : Knowledge) : Prop where
  inner : k'.inner = k.inner
  outer : k'.outer = k.outer
  values : ∀ x : String, k'.values[x]? = none ∨ k'.values[x]? = k.values[x]?

/-- A table in a frame that was opened on another one. -/
structure FrameOf (base k : Knowledge) : Prop where
  outer : k.outer = base.inner :: base.outer
  /-- Below a value recorded in the frame is what was there before, or nothing. -/
  recorded : ∀ (x : String) (stack : Stack Literal), x ∈ k.inner → k.values[x]? = some stack →
    stack.pop? = none ∨ stack.pop? = base.values[x]?
  /-- The other names have the values they had before, or none. -/
  kept : ∀ x : String, x ∉ k.inner → k.values[x]? = none ∨ k.values[x]? = base.values[x]?

/-- Steps that stay in the frame they start in. -/
def Leads (k k' : Knowledge) : Prop :=
  ∀ base, FrameOf base k → FrameOf base k'

/-- A frame that has just been opened has recorded nothing. -/
theorem frameOf_openFrame (k : Knowledge) : FrameOf k k.openFrame where
  outer := rfl
  recorded x _ hx _ := by simp [openFrame] at hx
  kept _ _ := .inr rfl

/-- Closing a frame takes back what was recorded in it. -/
theorem FrameOf.drops_closeFrame {base k : Knowledge} (h : FrameOf base k) :
    k.closeFrame.Drops base := by
  unfold closeFrame
  rw [h.outer]
  refine ⟨rfl, rfl, fun x => ?_⟩
  simp only [Std.TreeMap.getElem?_filterMap', Std.TreeSet.contains_iff_mem]
  cases hx : k.values[x]? with
  | none => exact .inl rfl
  | some stack =>
    by_cases hmem : x ∈ k.inner
    · simpa [hmem] using h.recorded x stack hmem hx
    · simpa [hmem, hx] using h.kept x hmem

/-- Whatever is done in a frame, closing it leaves the names as they were or forgotten. -/
theorem Leads.drops_closeFrame {k k' : Knowledge} (h : k.openFrame.Leads k') :
    k'.closeFrame.Drops k :=
  (h k (frameOf_openFrame k)).drops_closeFrame

/-- What is known when some names have been forgotten. -/
theorem Drops.knows {k k' : Knowledge} {K : Known} (h : k'.Drops k) (hk : k.Knows K) :
    ∃ K' : Known, k'.Knows K' ∧ K'.Within K := by
  refine ⟨fun x => if k'.values[x]? = none then none else K x, fun x => ?_, fun x v hx => ?_⟩
  · by_cases hx : k'.values[x]? = none
    · simp [lookup, hx]
    · simp only [if_neg hx]
      rw [← hk x, lookup, lookup, (h.values x).resolve_left hx]
  · dsimp only at hx
    split at hx
    · cases hx
    · exact hx

namespace Leads

theorem refl (k : Knowledge) : k.Leads k :=
  fun _ h => h

theorem trans {k k₁ k₂ : Knowledge} (h₁ : k.Leads k₁) (h₂ : k₁.Leads k₂) : k.Leads k₂ :=
  fun base h => h₂ base (h₁ base h)

/-- A record stays in the frame, as the value from before can be restored when it is closed. -/
theorem record (k : Knowledge) (x : String) (l : Literal) : k.Leads (k.record x l) := by
  intro base h
  refine ⟨(outer_record k x l).trans h.outer, fun y stack hy hstack => ?_, fun y hy => ?_⟩
  · by_cases hxy : x = y
    · subst hxy
      obtain ⟨stack', hstack', hpop⟩ := values_record_self k x l
      obtain rfl : stack' = stack := Option.some.inj (hstack'.symm.trans hstack)
      rw [hpop]
      by_cases hx : x ∈ k.inner
      · rw [if_pos hx]
        cases hs : k.values[x]? with
        | none => exact .inl rfl
        | some s => exact h.recorded x s hx hs
      · rw [if_neg hx]
        exact h.kept x hx
    · rw [values_record_of_ne hxy] at hstack
      exact h.recorded y stack ((mem_inner_record.1 hy).resolve_left hxy) hstack
  · rw [mem_inner_record, not_or] at hy
    rw [values_record_of_ne hy.1]
    exact h.kept y hy.2

/-- A name is forgotten in the frames around it too, which drops what is known there. -/
theorem invalidate (k : Knowledge) (x : String) : k.Leads (k.invalidate x) := by
  intro base h
  refine ⟨h.outer, fun y s hy hs => ?_, fun y hy => ?_⟩
  · simp only [Knowledge.invalidate, Std.TreeSet.mem_erase] at hy
    simp only [Knowledge.invalidate, Std.TreeMap.getElem?_erase, if_neg hy.1] at hs
    exact h.recorded y s hy.2 hs
  · simp only [Knowledge.invalidate, Std.TreeMap.getElem?_erase]
    by_cases hxy : compare x y = .eq
    · exact .inl (by rw [if_pos hxy])
    · rw [if_neg hxy]
      exact h.kept y fun hmem => hy (Std.TreeSet.mem_erase.2 ⟨hxy, hmem⟩)

/-- Forgetting several names stays in the frame. -/
theorem invalidateAll (k : Knowledge) (names : List String) : k.Leads (k.invalidateAll names) := by
  unfold Knowledge.invalidateAll
  induction names generalizing k with
  | nil => exact refl k
  | cons x names ih => exact (invalidate k x).trans (ih _)

end Leads

/-- Forgetting names of which a frame knows stays in the frame. -/
theorem Drops.leads {k k' : Knowledge} (h : k'.Drops k) : k.Leads k' := by
  intro base hf
  refine ⟨h.outer.trans hf.outer, fun x stack hx hs => ?_, fun x hx => ?_⟩
  · rw [h.inner] at hx
    rcases h.values x with hv | hv
    · rw [hv] at hs; cases hs
    · exact hf.recorded x stack hx (hv.symm.trans hs)
  · rw [h.inner] at hx
    rcases h.values x with hv | hv
    · exact .inl hv
    · rw [hv]
      exact hf.kept x hx

/-- What is known behind a frame: no more than before it. -/
theorem Leads.frame_knows {k k' : Knowledge} {K : Known} (h : k.openFrame.Leads k')
    (hK : k.Knows K) :
    ∃ K' : Known, k'.closeFrame.Knows K' ∧ K'.Within K ∧ k.Leads k'.closeFrame := by
  obtain ⟨K', hknows, hwithin⟩ := h.drops_closeFrame.knows hK
  exact ⟨K', hknows, hwithin, h.drops_closeFrame.leads⟩

/-- What is known when the names of a set have been forgotten. -/
theorem Knows.forget {k : Knowledge} {K : Known} (h : k.Knows K) (names : NameSet) :
    ∃ K' : Known, (k.invalidateAll names.toList).Knows K' ∧ K'.Within K ∧
      ∀ x ∈ names, K' x = none := by
  refine ⟨_, h.invalidateAll names.toList, fun x v hx => ?_, fun x hx => ?_⟩
  · dsimp only at hx
    split at hx
    · cases hx
    · exact hx
  · exact if_pos (Std.TreeSet.mem_toList.2 hx)

/-! ## All recorded values -/

/-- All values recorded for a name, in any frame, have a property. -/
def Each (P : String → Literal → Prop) (k : Knowledge) : Prop :=
  ∀ x stack, k.values[x]? = some stack → ∀ l ∈ stack.toList, P x l

namespace Each

variable {P : String → Literal → Prop} {k : Knowledge}

theorem empty : Knowledge.empty.Each P := by
  intro x stack h
  simp [Knowledge.empty] at h

theorem lookup (h : k.Each P) {x : String} {l : Literal} (hx : k.lookup x = some l) : P x l := by
  obtain ⟨stack, hstack, rfl⟩ := Option.map_eq_some_iff.1 hx
  exact h x stack hstack _ List.mem_cons_self

/-- A value with the property may be recorded. -/
theorem record (h : k.Each P) {x : String} {l : Literal} (hl : P x l) : (k.record x l).Each P := by
  intro y stack hstack
  by_cases hxy : x = y
  · subst hxy
    unfold Knowledge.record at hstack
    split at hstack
    next old hold =>
      have hbelow := h x old hold
      simp only [Stack.toList, List.forall_mem_cons] at hbelow
      split at hstack <;> simp only [Std.TreeMap.getElem?_insert_self, Option.some.injEq] at hstack <;>
        subst hstack <;> simp only [Stack.toList, Stack.setTop, Stack.push, List.forall_mem_cons]
      · exact ⟨hl, hbelow.2⟩
      · exact ⟨hl, hbelow⟩
    next =>
      simp only [Std.TreeMap.getElem?_insert_self, Option.some.injEq] at hstack
      subst hstack
      simpa [Stack.toList, Stack.singleton] using hl
  · rw [values_record_of_ne hxy] at hstack
    exact h y stack hstack

/-- Forgetting a name leaves values that were there before. -/
theorem invalidate (h : k.Each P) (x : String) : (k.invalidate x).Each P := by
  intro y stack hstack
  simp only [Knowledge.invalidate, Std.TreeMap.getElem?_erase] at hstack
  split at hstack
  · cases hstack
  · exact h y stack hstack

/-- Forgetting several names leaves values that were there before. -/
theorem invalidateAll (h : k.Each P) (names : List String) : (k.invalidateAll names).Each P := by
  unfold Knowledge.invalidateAll
  induction names generalizing k with
  | nil => exact h
  | cons x names ih => exact ih (h.invalidate x)

theorem openFrame (h : k.Each P) : k.openFrame.Each P :=
  h

/-- Closing a frame leaves values that were there before. -/
theorem closeFrame (h : k.Each P) : k.closeFrame.Each P := by
  unfold Knowledge.closeFrame
  split
  · exact h
  · intro x stack hstack
    simp only [Std.TreeMap.getElem?_filterMap'] at hstack
    obtain ⟨old, hold, hstack⟩ := Option.bind_eq_some_iff.1 hstack
    have hall := h x old hold
    split at hstack
    · -- what is left of a stack was in it
      unfold Stack.pop? at hstack
      split at hstack
      · cases hstack
      · next hbelow =>
        cases hstack
        rw [Stack.toList, hbelow] at hall
        exact fun l hl => hall l (List.mem_cons_of_mem _ hl)
    · cases hstack
      exact hall

end Each

end RegisterBackend.Knowledge
