import RegisterBackend.Proofs.LockstepTraces

/-!
# Points of a run of constant propagation

A trace says what simplifying a list of statements amounts to from beginning to end. This module
looks into it: constant propagation goes from one point of the program to the next, past a statement
or into one of its blocks (`Graph.Moves`), and at each point something is known (`Graph.KnowsAt`). A
trace of statements leads past them (`BlockTrace.moves`), and to the blocks of the first one
(`BlockTrace.ifElse_inv`, `BlockTrace.whileLoop_inv`, `BlockTrace.functionDef_inv`).

What is known at any point is layered (`Comes.layered`): a name that is not known in a block is not
known around it either.
-/

namespace RegisterBackend

namespace Knowledge.Layered

variable {k : Knowledge}

/-- A call forgets names in every frame. -/
theorem behindCall (h : k.Layered) (assigned : Option NameSet) : (k.behindCall assigned).Layered := by
  cases assigned with
  | none => exact h
  | some names => exact h.invalidateAll _

/-- An assignment records its name in the innermost frame or forgets it in all. -/
theorem learn (h : k.Layered) (x : String) (g : Graph) (id : NodeId) :
    (k.learn x (g.node? id)).Layered := by
  by_cases hconst : g.IsConstant id
  · obtain ⟨l, hl⟩ := hconst
    rw [hl]
    exact h.record x l
  · rw [k.learn_eq_invalidate hconst]
    exact h.invalidateAll [x]

end Knowledge.Layered

namespace Graph

variable {g g₁ : Graph} {ids ids' : List NodeId} {id : NodeId}

/-! ## Points -/

/-- A point in a block: what is known and what is noted of functions there, and the statements that
are still to come. -/
structure Point where
  knowledge : Knowledge
  functions : NameMap NameSet
  ids : List NodeId

/-- From one point to the next: past the statement, or to the beginning of one of its blocks. The
first graph is the one in the beginning and the second one that in the end. -/
inductive Moves (g g₁ : Graph) : Point → Point → Prop
  | past {k k₁ f f₁ id ids} (first : g.BlockTrace g₁ k f [id] k₁ f₁) :
    Moves g g₁ ⟨k, f, id :: ids⟩ ⟨k₁, f₁, ids⟩
  | toThen {k k₁ f id ids cond thenBlock elseBlock}
    (node : g.node? id = some (.ifElse cond thenBlock elseBlock)) (test : g.TestTrace g₁ f k cond k₁) :
    Moves g g₁ ⟨k, f, id :: ids⟩ ⟨k₁.openFrame, f, thenBlock⟩
  | toElse {k k₁ k₂ f f₂ id ids cond thenBlock elseBlock}
    (node : g.node? id = some (.ifElse cond thenBlock elseBlock)) (test : g.TestTrace g₁ f k cond k₁)
    (hthen : g.BlockTrace g₁ k₁.openFrame f thenBlock k₂ f₂) :
    Moves g g₁ ⟨k, f, id :: ids⟩ ⟨k₂.closeFrame.openFrame, f₂, elseBlock⟩
  | toRound {k k₁ f id ids cond body names} (node : g.node? id = some (.whileLoop cond body))
    (hnames : g.Assigns f body names)
    (test : g.TestTrace g₁ f (k.invalidateAll names.toList) cond k₁) :
    Moves g g₁ ⟨k, f, id :: ids⟩ ⟨k₁.openFrame, f, body⟩
  | toBody {k f id ids name params body returns names}
    (node : g.node? id = some (.functionDef name params body returns))
    (hnames : g.Assigns f body names) :
    Moves g g₁ ⟨k, f, id :: ids⟩ ⟨.empty, PropagateM.noted f name names, body⟩

/-- Constant propagation of a body comes to the point. -/
def Comes (g g₁ : Graph) (body : List NodeId) : Point → Prop :=
  Relation.ReflTransGen (g.Moves g₁) ⟨.empty, ∅, body⟩

/-- The value of the name is known when constant propagation comes to the statement. -/
def KnowsAt (g g₁ : Graph) (body : List NodeId) (id : NodeId) (x : String) : Prop :=
  ∃ k f ids, g.Comes g₁ body ⟨k, f, id :: ids⟩ ∧ k.lookup x ≠ none

/-- A trace of two lists of statements is one of the first list and then one of the second. -/
theorem BlockTrace.append_inv {k k₂ : Knowledge} {f f₂ : NameMap NameSet}
    (h : g.BlockTrace g₁ k f (ids ++ ids') k₂ f₂) :
    ∃ k₁ f₁, g.BlockTrace g₁ k f ids k₁ f₁ ∧ g.BlockTrace g₁ k₁ f₁ ids' k₂ f₂ := by
  induction ids generalizing k f with
  | nil => exact ⟨k, f, .nil, h⟩
  | cons id ids ih =>
    cases h with
    | assign node var hvalue final rest =>
      obtain ⟨k₁, f₁, h₁, h₂⟩ := ih rest
      exact ⟨k₁, f₁, .assign node var hvalue final h₁, h₂⟩
    | updateElement node var hvalue final rest =>
      obtain ⟨k₁, f₁, h₁, h₂⟩ := ih rest
      exact ⟨k₁, f₁, .updateElement node var hvalue final h₁, h₂⟩
    | ifElse node test hthen helse hnames final rest =>
      obtain ⟨k₁, f₁, h₁, h₂⟩ := ih rest
      exact ⟨k₁, f₁, .ifElse node test hthen helse hnames final h₁, h₂⟩
    | whileLoop node hnames test hbody final rest =>
      obtain ⟨k₁, f₁, h₁, h₂⟩ := ih rest
      exact ⟨k₁, f₁, .whileLoop node hnames test hbody final h₁, h₂⟩
    | functionDef node hnames hbody final rest =>
      obtain ⟨k₁, f₁, h₁, h₂⟩ := ih rest
      exact ⟨k₁, f₁, .functionDef node hnames hbody final h₁, h₂⟩
    | debug node rest =>
      obtain ⟨k₁, f₁, h₁, h₂⟩ := ih rest
      exact ⟨k₁, f₁, .debug node h₁, h₂⟩

/-- Statements that are simplified lead to the point behind them. -/
theorem BlockTrace.moves {k k₂ : Knowledge} {f f₂ : NameMap NameSet}
    (h : g.BlockTrace g₁ k f ids k₂ f₂) (ids' : List NodeId) :
    Relation.ReflTransGen (g.Moves g₁) ⟨k, f, ids ++ ids'⟩ ⟨k₂, f₂, ids'⟩ := by
  induction ids generalizing k f with
  | nil =>
    cases h
    exact .refl
  | cons id ids ih =>
    have hsplit : g.BlockTrace g₁ k f ([id] ++ ids) k₂ f₂ := h
    obtain ⟨k₁, f₁, hfirst, hrest⟩ := hsplit.append_inv
    exact .head (.past hfirst) (ih hrest)

/-! ## Layers -/

/-- Simplifying evaluables forgets names at most, so the frames stay layered. -/
theorem ExprTrace.layered {k k₂ : Knowledge} {f : NameMap NameSet}
    (h : g.ExprTrace g₁ f k ids k₂ ids') (hk : k.Layered) : k₂.Layered := by
  induction h with
  | nil => exact hk
  | constant _ _ ih | unknown _ _ _ ih | known _ _ _ _ ih => exact ih hk
  | computed _ _ _ _ _ _ _ ihoperands ih | arithmetic _ _ _ _ _ ihoperands ih =>
    exact ih (ihoperands hk)
  | call _ _ _ _ ihargs ih => exact ih ((ihargs hk).behindCall _)

/-- Simplifying a comparison keeps the frames layered. -/
theorem TestTrace.layered {k k₂ : Knowledge} {f : NameMap NameSet} (h : g.TestTrace g₁ f k id k₂)
    (hk : k.Layered) : k₂.Layered := by
  obtain ⟨_, _, _, _, _, -, hoperands, -⟩ := h
  exact hoperands.layered hk

/-- Simplifying statements keeps the frames layered. -/
theorem BlockTrace.layered {k k₂ : Knowledge} {f f₂ : NameMap NameSet}
    (h : g.BlockTrace g₁ k f ids k₂ f₂) (hk : k.Layered) : k₂.Layered := by
  induction h with
  | nil => exact hk
  | assign _ _ hvalue _ _ ih => exact ih ((hvalue.layered hk).learn _ _ _)
  | updateElement _ _ hvalue _ _ ih => exact ih ((hvalue.layered hk).invalidateAll [_])
  | ifElse _ test _ _ _ _ _ ihthen ihelse ih =>
    have hthen := ihthen (test.layered hk).openFrame
    have helse := ihelse hthen.closeFrame.openFrame
    exact ih (helse.closeFrame.invalidateAll _)
  | whileLoop _ _ test _ _ _ ihbody ih =>
    have hbody := ihbody (test.layered (hk.invalidateAll _)).openFrame
    exact ih (hbody.closeFrame.invalidateAll _)
  | functionDef _ _ _ _ _ _ ih | debug _ _ ih => exact ih hk

/-- The frames are layered at the next point if they are at this one. -/
theorem Moves.layered {a b : Point} (h : g.Moves g₁ a b) (ha : a.knowledge.Layered) :
    b.knowledge.Layered := by
  cases h with
  | past first => exact first.layered ha
  | toThen _ test => exact (test.layered ha).openFrame
  | toElse _ test hthen => exact (hthen.layered (test.layered ha).openFrame).closeFrame.openFrame
  | toRound _ _ test => exact (test.layered (ha.invalidateAll _)).openFrame
  | toBody => exact .empty

/-- The frames are layered wherever propagation comes to. -/
theorem Comes.layered {a : Point} (h : g.Comes g₁ ids a) : a.knowledge.Layered := by
  induction h with
  | refl => exact .empty
  | tail _ hstep ih => exact hstep.layered ih

/-! ## Blocks

Where there are no calls, simplifying a condition changes nothing of what is known, so that the
blocks begin with what is known at the statement. -/

section Inversion

variable {k k₂ : Knowledge} {f f₂ : NameMap NameSet} {cond : NodeId}

/-- From a branch, propagation comes to the beginning of each block, with its own frame open. -/
theorem BlockTrace.ifElse_inv {thenBlock elseBlock : List NodeId}
    (h : g.BlockTrace g₁ k f (id :: ids) k₂ f₂) (hfree : g.CallFree (id :: ids))
    (hnode : g.node? id = some (.ifElse cond thenBlock elseBlock)) :
    ∃ k₁ f₁ k₃ f₃, g.BlockTrace g₁ k.openFrame f thenBlock k₁ f₁ ∧
      g.BlockTrace g₁ k₁.closeFrame.openFrame f₁ elseBlock k₃ f₃ ∧
      g.Moves g₁ ⟨k, f, id :: ids⟩ ⟨k.openFrame, f, thenBlock⟩ ∧
      g.Moves g₁ ⟨k, f, id :: ids⟩ ⟨k₁.closeFrame.openFrame, f₁, elseBlock⟩ := by
  have hparts := hfree.children List.mem_cons_self hnode
  cases h with
  | ifElse node test hthen helse =>
    cases hnode.symm.trans node
    cases test.knowledge_eq_of_callFree (hparts.mono (by simp [Node.children]))
    exact ⟨_, _, _, _, hthen, helse, .toThen node test, .toElse node test hthen⟩
  | assign node | updateElement node | whileLoop node | functionDef node | debug node =>
    cases hnode.symm.trans node

/-- From a loop, propagation comes to its body after what the body assigns was forgotten. -/
theorem BlockTrace.whileLoop_inv {body : List NodeId} (h : g.BlockTrace g₁ k f (id :: ids) k₂ f₂)
    (hfree : g.CallFree (id :: ids)) (hnode : g.node? id = some (.whileLoop cond body)) :
    ∃ names k₁ f₁, (∀ x, x ∈ names ↔ g.StoresIn body x) ∧
      g.BlockTrace g₁ (k.invalidateAll names).openFrame f body k₁ f₁ ∧
      g.Moves g₁ ⟨k, f, id :: ids⟩ ⟨(k.invalidateAll names).openFrame, f, body⟩ := by
  have hparts := hfree.children List.mem_cons_self hnode
  cases h with
  | whileLoop node hnames test hbody =>
    cases hnode.symm.trans node
    cases test.knowledge_eq_of_callFree (hparts.mono (by simp [Node.children]))
    exact ⟨_, _, _, fun _ => hnames.mem_iff (hparts.mono (by simp [Node.children])), hbody,
      .toRound node hnames test⟩
  | assign node | updateElement node | ifElse node | functionDef node | debug node =>
    cases hnode.symm.trans node

/-- From a function, propagation comes to its body with nothing known. -/
theorem BlockTrace.functionDef_inv {name : String} {params body : List NodeId} {returns : Kind}
    (h : g.BlockTrace g₁ k f (id :: ids) k₂ f₂)
    (hnode : g.node? id = some (.functionDef name params body returns)) :
    ∃ f₁ k₁ f₃, g.BlockTrace g₁ .empty f₁ body k₁ f₃ ∧
      g.Moves g₁ ⟨k, f, id :: ids⟩ ⟨.empty, f₁, body⟩ := by
  cases h with
  | functionDef node hnames hbody =>
    cases hnode.symm.trans node
    exact ⟨_, _, _, hbody, .toBody node hnames⟩
  | assign node | updateElement node | ifElse node | whileLoop node | debug node =>
    cases hnode.symm.trans node

end Inversion

end Graph

end RegisterBackend
