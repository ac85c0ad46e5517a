import RegisterBackend.Proofs.KnowledgeFrames

/-!
# What is known of one name

The steps on a table of known values treat each name apart from the others. `Knowledge.View` is what
a table tells of one name: what is known now, and what will be known when the open frames are closed
one after the other. Each step on the table is one on the view of its name and leaves the other
views (`view_record`, `view_invalidate`), or is the same step on every view (`view_openFrame`,
`view_closeFrame`). So tables that agree on some names still do so when the same is done to both
(`AgreeOn`).

To record a value changes only what is known now. To forget a name changes what will be known behind
all open frames. So what a block does in a frame of its own leaves the view behind the frame as it
was, or nothing is known any more (`View.Fades`). What is not known in a frame is not known in the
frames around it (`Layered`), so that it makes no difference whether a name is forgotten that is not
known.
-/

namespace RegisterBackend.Knowledge

/-! ## Views -/

/-- What a table tells of one name. -/
structure View where
  /-- What is known now. -/
  now : Option Literal
  /-- What will be known when the frames are closed, from the inside out. -/
  later : List (Option Literal)

namespace View

/-- A value is recorded. -/
def record (v : View) (value : Literal) : View :=
  { v with now := some value }

/-- The name is forgotten. -/
def forget (v : View) : View :=
  ⟨none, v.later.map fun _ => none⟩

/-- A frame is opened. -/
def openFrame (v : View) : View :=
  ⟨v.now, v.now :: v.later⟩

/-- The innermost frame is closed, unless it is the outermost. -/
def closeFrame (v : View) : View :=
  match v.later with
  | [] => v
  | now :: later => ⟨now, later⟩

end View

/-- What the values tell in each of the enclosing frames, where it is given which frames recorded
one of them. -/
def unwind (values : Option (Stack Literal)) : List Bool → List (Option Literal)
  | [] => []
  | recorded :: frames =>
    values.map (·.top) :: unwind (if recorded then values.bind Stack.pop? else values) frames

/-- What the table tells of a name. -/
def view (k : Knowledge) (x : String) : View :=
  ⟨k.lookup x, unwind (if k.inner.contains x then k.values[x]?.bind Stack.pop? else k.values[x]?)
    (k.outer.map (·.contains x))⟩

/-! ## Steps -/

variable {k k' : Knowledge} {N M : String → Prop} {names names' : List String}

/-- Without values, nothing is known in any frame. -/
theorem unwind_none (values : Option (Stack Literal)) (frames : List Bool) :
    unwind none frames = (unwind values frames).map fun _ => none := by
  induction frames generalizing values with
  | nil => rfl
  | cons recorded frames ih => simp [unwind, ← ih]

/-- A record changes the view of its own name only. -/
theorem view_record (k : Knowledge) (y : String) (l : Literal) (x : String) :
    (k.record y l).view x = if y = x then (k.view x).record l else k.view x := by
  by_cases hyx : y = x
  · subst hyx
    rw [if_pos rfl]
    unfold record View.record view lookup
    cases hvalues : k.values[y]? with
    | none => simp [Stack.singleton, Stack.pop?]
    | some stack =>
      cases hinner : k.inner.contains y <;> simp [hinner, Stack.setTop, Stack.push, Stack.pop?]
  · rw [if_neg hyx, view, lookup, values_record_of_ne hyx, outer_record, view, lookup]
    have hinner : (k.record y l).inner.contains x = k.inner.contains x := by
      rw [Bool.eq_iff_iff, Std.TreeSet.contains_iff_mem, Std.TreeSet.contains_iff_mem, mem_inner_record]
      simp [hyx]
    rw [hinner]

/-- Forgetting a name changes the view of that name only. -/
theorem view_invalidate (k : Knowledge) (y x : String) :
    (k.invalidate y).view x = if y = x then (k.view x).forget else k.view x := by
  by_cases hyx : y = x
  · subst hyx
    simp only [if_pos, View.forget, view]
    rw [← unwind_none]
    simp [lookup, invalidate]
  · simp [view, lookup, invalidate, hyx, Std.TreeMap.getElem?_erase, Std.TreeSet.contains_erase]

/-- Forgetting several names changes the views of those names only. -/
theorem view_invalidateAll (k : Knowledge) (names : List String) (x : String) :
    (k.invalidateAll names).view x = if x ∈ names then (k.view x).forget else k.view x := by
  unfold invalidateAll
  induction names generalizing k with
  | nil => simp
  | cons y names ih =>
    rw [List.foldl_cons, ih, view_invalidate]
    by_cases hyx : y = x
    · subst hyx
      simp [View.forget]
    · simp [hyx, Ne.symm hyx]

theorem view_openFrame (k : Knowledge) (x : String) : k.openFrame.view x = (k.view x).openFrame := by
  simp [view, lookup, openFrame, View.openFrame, unwind]

/-- Closing a frame closes one in the view of every name. -/
theorem view_closeFrame (k : Knowledge) (x : String) : k.closeFrame.view x = (k.view x).closeFrame := by
  unfold closeFrame View.closeFrame
  cases houter : k.outer with
  | nil => simp [view, houter, unwind]
  | cons frame frames =>
    simp only [view, lookup, houter, List.map_cons, unwind, Std.TreeMap.getElem?_filterMap']
    cases k.values[x]? with
    | none => simp
    | some stack => cases k.inner.contains x <;> simp

/-! ## Tables that agree -/

/-- The tables tell the same of the names of a set. -/
def AgreeOn (N : String → Prop) (k k' : Knowledge) : Prop :=
  ∀ x, N x → k'.view x = k.view x

namespace AgreeOn

theorem refl (N : String → Prop) (k : Knowledge) : AgreeOn N k k :=
  fun _ _ => rfl

theorem mono (h : AgreeOn N k k') (hMN : ∀ x, M x → N x) : AgreeOn M k k' :=
  fun x hx => h x (hMN x hx)

theorem lookup_eq (h : AgreeOn N k k') {x : String} (hx : N x) : k'.lookup x = k.lookup x :=
  congrArg View.now (h x hx)

/-- Tables that agree still do after the same record in both. -/
theorem record (h : AgreeOn N k k') (y : String) (l : Literal) :
    AgreeOn N (k.record y l) (k'.record y l) := by
  intro x hx
  rw [view_record, view_record, h x hx]

theorem invalidate (h : AgreeOn N k k') (y : String) : AgreeOn N (k.invalidate y) (k'.invalidate y) := by
  intro x hx
  rw [view_invalidate, view_invalidate, h x hx]

/-- Tables that agree still do if the lists that are forgotten agree on the names of the set. -/
theorem invalidateAll (h : AgreeOn N k k') (hnames : ∀ x, N x → (x ∈ names' ↔ x ∈ names)) :
    AgreeOn N (k.invalidateAll names) (k'.invalidateAll names') := by
  intro x hx
  rw [view_invalidateAll, view_invalidateAll, h x hx]
  simp only [hnames x hx]

theorem openFrame (h : AgreeOn N k k') : AgreeOn N k.openFrame k'.openFrame := by
  intro x hx
  rw [view_openFrame, view_openFrame, h x hx]

theorem closeFrame (h : AgreeOn N k k') : AgreeOn N k.closeFrame k'.closeFrame := by
  intro x hx
  rw [view_closeFrame, view_closeFrame, h x hx]

end AgreeOn

/-! ## Frames -/

namespace View

variable {v v' w : View} {P Q : Prop}

theorem forget_forget (v : View) : v.forget.forget = v.forget := by
  simp [forget]

/-- What is recorded in a frame is taken back. -/
theorem closeFrame_record (hv : v.later ≠ []) (l : Literal) :
    (v.record l).closeFrame = v.closeFrame := by
  obtain ⟨now, later⟩ := v
  cases later with
  | nil => exact absurd rfl hv
  | cons => rfl

/-- What is forgotten in a frame does not come back. -/
theorem closeFrame_forget (v : View) : v.forget.closeFrame = v.closeFrame.forget := by
  obtain ⟨now, later⟩ := v
  cases later <;> rfl

/-- The view is as before, or nothing is known any more, which needs the condition. -/
def Rests (P : Prop) (v v' : View) : Prop :=
  v' = v ∨ P ∧ v' = v.forget

/-- A view at rest over two stretches is at rest over both, and needs the condition of one to be
lost. -/
theorem Rests.trans (h : Rests P v v') (h' : Rests Q v' w) : Rests (P ∨ Q) v w := by
  rcases h with rfl | ⟨hP, rfl⟩
  · exact h'.imp_right fun ⟨hQ, hw⟩ => ⟨.inr hQ, hw⟩
  · rcases h' with rfl | ⟨-, rfl⟩
    · exact .inr ⟨.inl hP, rfl⟩
    · exact .inr ⟨.inl hP, forget_forget v⟩

/-- In a frame, the name is forgotten if the condition holds, and recorded at most if it does
not. -/
structure Fades (P : Prop) (v v' : View) : Prop where
  frames : v'.later.length = v.later.length
  fades : P → v'.closeFrame = v.closeFrame.forget
  stays : ¬ P → v'.closeFrame = v.closeFrame

namespace Fades

theorem refl (v : View) (hP : ¬ P) : Fades P v v :=
  ⟨rfl, fun h => absurd h hP, fun _ => rfl⟩

/-- A name fades over two stretches if it does over each, under one condition or the other. -/
theorem trans (h : Fades P v v') (h' : Fades Q v' w) : Fades (P ∨ Q) v w where
  frames := h'.frames.trans h.frames
  fades hPQ := by
    by_cases hQ : Q
    · rw [h'.fades hQ]
      by_cases hP : P
      · rw [h.fades hP, forget_forget]
      · rw [h.stays hP]
    · rw [h'.stays hQ, h.fades (hPQ.resolve_right hQ)]
  stays hPQ := by
    rw [not_or] at hPQ
    rw [h'.stays hPQ.2, h.stays hPQ.1]

theorem congr (h : Fades P v v') (hPQ : Q ↔ P) : Fades Q v v' :=
  ⟨h.frames, fun hQ => h.fades (hPQ.1 hQ), fun hQ => h.stays fun hP => hQ (hPQ.2 hP)⟩

theorem record (hv : v.later ≠ []) (hP : ¬ P) (l : Literal) : Fades P v (v.record l) :=
  ⟨rfl, fun h => absurd h hP, fun _ => closeFrame_record hv l⟩

theorem forget (v : View) (hP : P) : Fades P v v.forget :=
  ⟨List.length_map _, fun _ => closeFrame_forget v, fun h => absurd hP h⟩

theorem later_ne (h : Fades P v v') (hv : v.later ≠ []) : v'.later ≠ [] := by
  rw [← List.length_pos_iff, h.frames]
  exact List.length_pos_iff.2 hv

end Fades

end View

/-! Blocks have frames of their own. -/

open View

variable {P Q : Prop} {x : String}

theorem later_openFrame_ne (k : Knowledge) (x : String) : (k.openFrame.view x).later ≠ [] := by
  rw [view_openFrame]
  exact List.cons_ne_nil _ _

/-- What a block does in a frame of its own leaves what is known as it was, or not known any
more. -/
theorem rests_closeFrame (h : Fades P (k.openFrame.view x) (k'.view x)) :
    Rests P (k.view x) (k'.closeFrame.view x) := by
  rw [view_openFrame] at h
  rw [view_closeFrame]
  by_cases hP : P
  · exact .inr ⟨hP, h.fades hP⟩
  · exact .inl (h.stays hP)

/-- Forgetting a list of names makes a name fade exactly if it is in the list. -/
theorem fades_invalidateAll (k : Knowledge) (hnames : x ∈ names ↔ Q) :
    Fades Q (k.view x) ((k.invalidateAll names).view x) := by
  rw [view_invalidateAll]
  split
  next hx => exact .forget _ (hnames.1 hx)
  next hx => exact .refl _ (mt hnames.2 hx)

/-- The names that a block assigns are forgotten behind it, whatever was done to them there. -/
theorem fades_behind (hk : Rests P (k.view x) (k'.view x)) (hPQ : P → Q) (hnames : x ∈ names ↔ Q) :
    Fades Q (k.view x) ((k'.invalidateAll names).view x) := by
  rcases hk with hk | ⟨hP, hk⟩
  · rw [← hk]
    exact fades_invalidateAll k' hnames
  · have hforget : (k'.invalidateAll names).view x = (k.view x).forget := by
      rw [view_invalidateAll, if_pos (hnames.2 (hPQ hP)), hk, forget_forget]
    rw [hforget]
    exact .forget _ (hPQ hP)

/-! ## Layers -/

namespace View

variable {v v' : View} {P : Prop}

/-- What is not known in a frame is not known in the frames around it. -/
def Layered (v : View) : Prop :=
  (v.now :: v.later).Pairwise fun a b => a = none → b = none

namespace Layered

theorem record (h : v.Layered) (l : Literal) : (v.record l).Layered :=
  List.pairwise_cons.2 ⟨fun _ _ => nofun, h.of_cons⟩

theorem forget (v : View) : v.forget.Layered := by
  simp [View.forget, Layered, List.pairwise_replicate]

/-- A new frame knows what the one around it knows. -/
theorem openFrame (h : v.Layered) : v.openFrame.Layered := by
  refine List.pairwise_cons.2 ⟨?_, h⟩
  rintro b (_ | ⟨_, hb⟩)
  · exact id
  · exact List.rel_of_pairwise_cons h hb

/-- The frames that are left are layered as before. -/
theorem closeFrame (h : v.Layered) : v.closeFrame.Layered := by
  obtain ⟨now, later⟩ := v
  cases later with
  | nil => exact h
  | cons => exact h.of_cons

/-- There is nothing to forget of a name that is not known. -/
theorem forget_eq (h : v.Layered) (hnow : v.now = none) : v.forget = v := by
  obtain ⟨now, later⟩ := v
  cases hnow
  have hlater : later.map (fun _ => none) = later.map id :=
    List.map_congr_left fun b hb => (List.rel_of_pairwise_cons h hb rfl).symm
  rw [View.forget, hlater, List.map_id]

end Layered

/-- A view in which nothing is known has nothing to lose, in any frame. -/
theorem Rests.eq_of_layered (h : Rests P v v') (hv : v.Layered) (hnow : v.now = none) : v' = v := by
  rcases h with h | ⟨-, h⟩
  · exact h
  · rw [h, hv.forget_eq hnow]

end View

/-- Of each name, what is not known in a frame is not known in the frames around it. -/
def Layered (k : Knowledge) : Prop :=
  ∀ x, (k.view x).Layered

namespace Layered

theorem empty : Knowledge.empty.Layered :=
  fun _ => List.pairwise_singleton _ _

/-- A record makes more known in the innermost frame only. -/
theorem record (h : k.Layered) (y : String) (l : Literal) : (k.record y l).Layered := by
  intro x
  rw [view_record]
  split
  next => exact (h x).record l
  next => exact h x

/-- What is forgotten is forgotten in every frame. -/
theorem invalidateAll (h : k.Layered) (names : List String) : (k.invalidateAll names).Layered := by
  intro x
  rw [view_invalidateAll]
  split
  next => exact .forget _
  next => exact h x

/-- Opening a frame keeps the frames layered. -/
theorem openFrame (h : k.Layered) : k.openFrame.Layered := by
  intro x
  rw [view_openFrame]
  exact (h x).openFrame

/-- Closing a frame keeps the frames layered. -/
theorem closeFrame (h : k.Layered) : k.closeFrame.Layered := by
  intro x
  rw [view_closeFrame]
  exact (h x).closeFrame

/-- Only names that are known need to be forgotten in both tables or in none. -/
theorem agreeOn_invalidateAll (hk : k.Layered) (h : AgreeOn N k k')
    (hnames : ∀ x, N x → k.lookup x ≠ none → (x ∈ names' ↔ x ∈ names)) :
    AgreeOn N (k.invalidateAll names) (k'.invalidateAll names') := by
  intro x hx
  rw [view_invalidateAll, view_invalidateAll, h x hx]
  by_cases hlookup : k.lookup x = none
  · rw [(hk x).forget_eq hlookup, ite_self, ite_self]
  · simp only [hnames x hx hlookup]

end Layered

end RegisterBackend.Knowledge
