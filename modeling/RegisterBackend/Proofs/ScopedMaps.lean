import RegisterBackend.Proofs.KnowledgeFrames

/-!
# Known values as nested maps

The plain way to keep what is known in nested blocks is a map for each open block (`ScopedMaps`): a
value is recorded in the innermost map, looked up from the inside out, and forgotten in all of them,
and at the end of a block its map is dropped. `Knowledge` has a stack of values for each name
instead, and of the maps only the names that were recorded in each frame.

The two agree after any steps (`Knowledge.agrees_with_scopedMaps`), although a frame may go on
listing a name that has been forgotten in an inner frame. `Knowledge.Tracks` says why this does no
harm: such a name is known in none of the frames outside of it, so there is no value that closing
the frame could take off by mistake.
-/

namespace RegisterBackend

/-- The known values, one map for each open block. -/
structure ScopedMaps where
  /-- The maps, that of the innermost block on top. -/
  maps : Stack (NameMap Literal)

namespace ScopedMaps

/-- Nothing is known and no block is open. -/
def empty : ScopedMaps :=
  ⟨.singleton ∅⟩

/-- The value of a name in the innermost map that has one. -/
def lookup (m : ScopedMaps) (name : String) : Option Literal :=
  m.maps.toList.findSome? (·[name]?)

/-- The number of maps. -/
def depth (m : ScopedMaps) : Nat :=
  m.maps.size

/-- Writes a value into the innermost map. -/
def record (m : ScopedMaps) (name : String) (value : Literal) : ScopedMaps :=
  ⟨m.maps.setTop (m.maps.top.insert name value)⟩

/-- Removes a name from every map. -/
def invalidate (m : ScopedMaps) (name : String) : ScopedMaps :=
  ⟨m.maps.top.erase name, m.maps.below.map (·.erase name)⟩

/-- Removes several names from every map. -/
def invalidateAll (m : ScopedMaps) (names : List String) : ScopedMaps :=
  names.foldl invalidate m

/-- Starts an empty map. -/
def openFrame (m : ScopedMaps) : ScopedMaps :=
  ⟨m.maps.push ∅⟩

/-- Drops the innermost map, unless it is the only one. -/
def closeFrame (m : ScopedMaps) : ScopedMaps :=
  ⟨m.maps.pop?.getD m.maps⟩

end ScopedMaps

/-- A step that changes what is known. -/
inductive KnowledgeStep where
  | record (name : String) (value : Literal)
  | invalidate (name : String)
  | invalidateAll (names : List String)
  | openFrame
  | closeFrame
deriving DecidableEq, Repr

namespace KnowledgeStep

/-- A step on the table of stacks. -/
def onTable : KnowledgeStep → Knowledge → Knowledge
  | record name value, k => k.record name value
  | invalidate name, k => k.invalidate name
  | invalidateAll names, k => k.invalidateAll names
  | openFrame, k => k.openFrame
  | closeFrame, k => k.closeFrame

/-- A step on the maps. -/
def onMaps : KnowledgeStep → ScopedMaps → ScopedMaps
  | record name value, m => m.record name value
  | invalidate name, m => m.invalidate name
  | invalidateAll names, m => m.invalidateAll names
  | openFrame, m => m.openFrame
  | closeFrame, m => m.closeFrame

end KnowledgeStep

/-- The table of stacks after some steps. -/
def Knowledge.after (steps : List KnowledgeStep) : Knowledge :=
  steps.foldl (fun k step => step.onTable k) .empty

/-- The maps after some steps. -/
def ScopedMaps.after (steps : List KnowledgeStep) : ScopedMaps :=
  steps.foldl (fun m step => step.onMaps m) .empty

namespace Knowledge

/-! ## Stacks as lists -/

/-- The known values of a name, the innermost first. -/
def known (k : Knowledge) (x : String) : List Literal :=
  k.values[x]?.elim [] Stack.toList

theorem lookup_eq_head? (k : Knowledge) (x : String) : k.lookup x = (k.known x).head? := by
  unfold lookup known
  cases k.values[x]? <;> rfl

theorem known_empty (x : String) : Knowledge.empty.known x = [] := by
  simp [known, empty]

theorem known_record_of_ne {k : Knowledge} {x y : String} {l : Literal} (h : x ≠ y) :
    (k.record x l).known y = k.known y := by
  simp only [known, values_record_of_ne h]

/-- A record goes on top of what the frames outside know, in the place of what its own frame
knows. -/
theorem known_record_self (k : Knowledge) (x : String) (l : Literal) :
    (k.record x l).known x = l :: if x ∈ k.inner then (k.known x).tail else k.known x := by
  unfold record known
  split
  next stack hstack =>
    split
    next hx => simp [hstack, Std.TreeSet.contains_iff_mem.1 hx, Stack.setTop, Stack.toList]
    next hx => simp [hstack, mt Std.TreeSet.contains_iff_mem.2 hx, Stack.push, Stack.toList]
  next hnone => simp [hnone, Stack.singleton, Stack.toList]

theorem known_invalidate (k : Knowledge) (x y : String) :
    (k.invalidate x).known y = if x = y then [] else k.known y := by
  by_cases h : x = y <;> simp [known, invalidate, Std.TreeMap.getElem?_erase, h]

theorem elim_pop? (stack : Stack Literal) : stack.pop?.elim [] Stack.toList = stack.below := by
  unfold Stack.pop?
  split <;> simp_all [Stack.toList]

/-- Closing a frame takes one value off each name that the frame lists. -/
theorem known_closeFrame {k : Knowledge} {frame : NameSet} {frames : List NameSet}
    (h : k.outer = frame :: frames) (x : String) :
    k.closeFrame.known x = if x ∈ k.inner then (k.known x).tail else k.known x := by
  simp only [closeFrame, h, known, Std.TreeMap.getElem?_filterMap', Std.TreeSet.contains_iff_mem]
  cases k.values[x]? with
  | none => simp
  | some stack =>
    by_cases hx : x ∈ k.inner
    · simp [hx, elim_pop?, Stack.toList]
    · simp [hx]

/-! ## What the frames know of a name -/

/-- What the frames and the maps have of a name, both from the inside out, with its values. The
frames list the names that the maps have, and perhaps more. -/
inductive Tracks (x : String) : List NameSet → List (NameMap Literal) → List Literal → Prop
  | nil : Tracks x [] [] []
  | recorded {frame frames map maps l ls} (hframe : x ∈ frame) (hmap : map[x]? = some l)
    (rest : Tracks x frames maps ls) : Tracks x (frame :: frames) (map :: maps) (l :: ls)
  | unrecorded {frame frames map maps ls} (hframe : x ∉ frame) (hmap : map[x]? = none)
    (rest : Tracks x frames maps ls) : Tracks x (frame :: frames) (map :: maps) ls
  /-- A name that is listed and has been forgotten is unknown in the frames outside, too. -/
  | forgotten {frame frames map maps} (hframe : x ∈ frame) (hmap : map[x]? = none)
    (rest : Tracks x frames maps []) : Tracks x (frame :: frames) (map :: maps) []

namespace Tracks

variable {x y : String} {frame frame' : NameSet} {frames : List NameSet} {map map' : NameMap Literal}
  {maps : List (NameMap Literal)} {l : Literal} {ls : List Literal}

/-- There are as many frames as maps. -/
theorem length_eq (h : Tracks x frames maps ls) : frames.length = maps.length := by
  induction h with
  | nil => rfl
  | recorded _ _ _ ih | unrecorded _ _ _ ih | forgotten _ _ _ ih => simp [ih]

/-- The innermost map that has the name has its first value. -/
theorem findSome?_eq (h : Tracks x frames maps ls) : maps.findSome? (·[x]?) = ls.head? := by
  induction h with
  | nil => rfl
  | recorded _ hmap => simp [hmap]
  | unrecorded _ hmap _ ih | forgotten _ hmap _ ih => simpa [hmap] using ih

/-- Only what the innermost frame and map have of the name matters. -/
theorem head_congr (h : Tracks x (frame :: frames) (map :: maps) ls)
    (hframe' : x ∈ frame' ↔ x ∈ frame) (hmap' : map'[x]? = map[x]?) :
    Tracks x (frame' :: frames) (map' :: maps) ls := by
  cases h with
  | recorded hframe hmap rest => exact .recorded (hframe'.2 hframe) (hmap'.trans hmap) rest
  | unrecorded hframe hmap rest => exact .unrecorded (mt hframe'.1 hframe) (hmap'.trans hmap) rest
  | forgotten hframe hmap rest => exact .forgotten (hframe'.2 hframe) (hmap'.trans hmap) rest

/-- A value recorded in the innermost frame. -/
theorem record (h : Tracks x (frame :: frames) (map :: maps) ls) (hframe' : x ∈ frame')
    (hmap' : map'[x]? = some l) :
    Tracks x (frame' :: frames) (map' :: maps) (l :: if x ∈ frame then ls.tail else ls) := by
  cases h with
  | recorded hframe _ rest | forgotten hframe _ rest =>
    rw [if_pos hframe]
    exact .recorded hframe' hmap' rest
  | unrecorded hframe _ rest =>
    rw [if_neg hframe]
    exact .recorded hframe' hmap' rest

/-- What is left of the values when the innermost frame is closed. -/
theorem close (h : Tracks x (frame :: frames) (map :: maps) ls) :
    Tracks x frames maps (if x ∈ frame then ls.tail else ls) := by
  cases h with
  | recorded hframe _ rest | forgotten hframe _ rest => rwa [if_pos hframe]
  | unrecorded hframe _ rest => rwa [if_neg hframe]

/-- A name that is removed from all maps has no values, whatever frames go on listing it. -/
theorem erase_self (h : Tracks x frames maps ls) : Tracks x frames (maps.map (·.erase x)) [] := by
  induction h with
  | nil => exact .nil
  | recorded hframe _ _ ih | forgotten hframe _ _ ih => exact .forgotten hframe (by simp) ih
  | unrecorded hframe _ _ ih => exact .unrecorded hframe (by simp) ih

/-- Removing another name from the maps does not matter. -/
theorem erase_of_ne (h : Tracks y frames maps ls) (hne : x ≠ y) :
    Tracks y frames (maps.map (·.erase x)) ls := by
  induction h with
  | nil => exact .nil
  | recorded hframe hmap _ ih =>
    exact .recorded hframe (by simpa [Std.TreeMap.getElem?_erase, hne] using hmap) ih
  | unrecorded hframe hmap _ ih =>
    exact .unrecorded hframe (by simpa [Std.TreeMap.getElem?_erase, hne] using hmap) ih
  | forgotten hframe hmap _ ih =>
    exact .forgotten hframe (by simpa [Std.TreeMap.getElem?_erase, hne] using hmap) ih

/-- The innermost frame need not list a name that is not in its map, if no other frame knows it. -/
theorem unlist (h : Tracks x (frame :: frames) (map :: maps) []) (hframe' : x ∉ frame') :
    Tracks x (frame' :: frames) (map :: maps) [] := by
  cases h with
  | unrecorded _ hmap rest | forgotten _ hmap rest => exact .unrecorded hframe' hmap rest

end Tracks

/-! ## Steps -/

/-- The stacks of a table have the values that the maps have. -/
def Follows (k : Knowledge) (m : ScopedMaps) : Prop :=
  ∀ x, Tracks x (k.inner :: k.outer) m.maps.toList (k.known x)

namespace Follows

variable {k : Knowledge} {m : ScopedMaps}

/-- In the beginning there is one frame and one map, both without names. -/
theorem empty : Knowledge.empty.Follows .empty := by
  intro x
  rw [known_empty]
  exact .unrecorded (by simp [Knowledge.empty]) (by simp [ScopedMaps.empty, Stack.singleton]) .nil

/-- A record in the innermost frame is one in the innermost map. -/
theorem record (h : k.Follows m) (x : String) (l : Literal) :
    (k.record x l).Follows (m.record x l) := by
  intro y
  rw [outer_record]
  by_cases hxy : x = y
  · subst hxy
    rw [known_record_self]
    exact (h x).record (mem_inner_record.2 (.inl rfl)) (by simp [ScopedMaps.record, Stack.setTop])
  · rw [known_record_of_ne hxy]
    refine (h y).head_congr (by simp [mem_inner_record, hxy]) ?_
    simp [ScopedMaps.record, Stack.setTop, Std.TreeMap.getElem?_insert, hxy]

/-- Dropping the stack of a name removes it from every map, and what the frames still list does not
matter. -/
theorem invalidate (h : k.Follows m) (x : String) : (k.invalidate x).Follows (m.invalidate x) := by
  intro y
  rw [known_invalidate]
  by_cases hxy : x = y
  · subst hxy
    rw [if_pos rfl]
    exact (h x).erase_self.unlist (by simp [Knowledge.invalidate])
  · rw [if_neg hxy]
    exact ((h y).erase_of_ne hxy).head_congr (by simp [Knowledge.invalidate, hxy]) rfl

/-- Dropping several stacks removes the names from every map. -/
theorem invalidateAll (h : k.Follows m) (names : List String) :
    (k.invalidateAll names).Follows (m.invalidateAll names) := by
  unfold Knowledge.invalidateAll ScopedMaps.invalidateAll
  induction names generalizing k m with
  | nil => exact h
  | cons x names ih => exact ih (h.invalidate x)

theorem openFrame (h : k.Follows m) : k.openFrame.Follows m.openFrame :=
  fun x => .unrecorded (by simp [Knowledge.openFrame])
    (by simp [ScopedMaps.openFrame, Stack.push]) (h x)

/-- Taking one value off the stack of each listed name drops the innermost map. -/
theorem closeFrame (h : k.Follows m) : k.closeFrame.Follows m.closeFrame := by
  obtain ⟨⟨map, maps⟩⟩ := m
  -- one of the frames and one of the maps is not closed, so there are as many of the others
  have hlength : k.outer.length = maps.length := by simpa [Stack.toList] using (h "").length_eq
  cases houter : k.outer with
  | nil =>
    obtain rfl : maps = [] := by simpa [houter] using hlength.symm
    have hsame : k.closeFrame = k := by simp [Knowledge.closeFrame, houter]
    rw [hsame]
    exact h
  | cons frame frames =>
    obtain ⟨map', maps', rfl⟩ : ∃ map' maps', maps = map' :: maps' :=
      List.exists_cons_of_length_eq_add_one (by rw [← hlength, houter, List.length_cons])
    intro x
    have hx : Tracks x (k.inner :: frame :: frames) (map :: map' :: maps') (k.known x) :=
      houter ▸ h x
    rw [known_closeFrame houter]
    simpa [Knowledge.closeFrame, houter, ScopedMaps.closeFrame, Stack.pop?, Stack.toList] using hx.close

/-- A step keeps the stacks in agreement with the maps. -/
theorem step (h : k.Follows m) (step : KnowledgeStep) :
    (step.onTable k).Follows (step.onMaps m) := by
  cases step with
  | record name value => exact h.record name value
  | invalidate name => exact h.invalidate name
  | invalidateAll names => exact h.invalidateAll names
  | openFrame => exact h.openFrame
  | closeFrame => exact h.closeFrame

/-- The table follows the maps through any number of steps. -/
theorem foldl (h : k.Follows m) (steps : List KnowledgeStep) :
    (steps.foldl (fun k step => step.onTable k) k).Follows
      (steps.foldl (fun m step => step.onMaps m) m) := by
  induction steps generalizing k m with
  | nil => exact h
  | cons step steps ih => exact ih (h.step step)

theorem lookup_eq (h : k.Follows m) (x : String) : k.lookup x = m.lookup x := by
  rw [lookup_eq_head?, ScopedMaps.lookup, (h x).findSome?_eq]

theorem depth_eq (h : k.Follows m) : k.depth = m.depth := by
  simpa [depth, ScopedMaps.depth, Stack.size, Stack.toList] using (h "").length_eq

end Follows

/-- After any steps, the table of stacks knows the same values as one map per open block does, and
has as many frames as there are maps. -/
theorem agrees_with_scopedMaps (steps : List KnowledgeStep) :
    (∀ name, (Knowledge.after steps).lookup name = (ScopedMaps.after steps).lookup name) ∧
      (Knowledge.after steps).depth = (ScopedMaps.after steps).depth := by
  have h : (Knowledge.after steps).Follows (ScopedMaps.after steps) := Follows.empty.foldl steps
  exact ⟨h.lookup_eq, h.depth_eq⟩

/-- A name that is forgotten in an inner block stays listed outside, and is recorded there again. -/
example : ((Knowledge.after [.record "x" (.scalar 5), .openFrame, .invalidate "x",
    .record "x" (.scalar 7), .closeFrame]).lookup "x" = none) ∧
    (Knowledge.after [.record "x" (.scalar 5), .openFrame, .invalidate "x",
      .record "x" (.scalar 7), .closeFrame, .record "x" (.scalar 9)]).lookup "x" =
      some (.scalar 9) := by
  decide +kernel

end Knowledge

end RegisterBackend
