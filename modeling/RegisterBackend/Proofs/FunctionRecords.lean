import RegisterBackend.Program.Builder
import RegisterBackend.Proofs.PropagationTraces

/-!
# What is noted of functions

When constant propagation comes to the definition of a function, it notes the names that the body
may assign. A call in the body counts with what is noted of the called function *at that time*. This
module says what is noted in the end, in terms of the program before it is rewritten.

`Graph.Runs` is the walk of the collector: the nodes that run as a part of a node. Rewriting does
not change which assignments and calls are on it (`Rewrites.runsIn_adds`), so what is collected can
be read off the program. `Program.definitions` lists the functions in the order in which they are
come to, and `Graph.Noting` follows the table of functions along that list. In the end a name is
noted for a function if there is a chain of calls to an assignment of the name, in which every
function is defined before the one that calls it (`Graph.Noted`). A body that defines a function and
calls it shows that these are not all names that a call may assign (`Program.MayWrite`).
-/

namespace RegisterBackend

/-! ## What runs -/

namespace Node

/-- The nodes that run as parts of the node. A target is not run, and the body of a function is not
run where it is defined. -/
def inner : Node → List NodeId
  | .assign _ value | .updateElement _ _ value => [value]
  | .ifElse condition thenBlock elseBlock => condition :: (thenBlock ++ elseBlock)
  | .whileLoop condition body => condition :: body
  | .arithmetic _ lhs rhs | .comparison _ lhs rhs => [lhs, rhs]
  | .call _ args _ => args
  | .functionDef .. | .constant _ | .var _ | .debug _ => []

/-- The target of an assignment. -/
def target? : Node → Option NodeId
  | .assign target _ | .updateElement target _ _ => some target
  | _ => none

/-- The function that a call calls. -/
def callee? : Node → Option String
  | .call name _ _ => some name
  | _ => none

variable {node node' : Node} {R : NodeId → NodeId → Prop}

theorem inner_subset_children (node : Node) : node.inner ⊆ node.children := by
  cases node <;> simp [inner, children]

/-- The parts of a node that run are related one by one when its slots are. -/
theorem Amends.inner (h : node.Amends R node') (hR : ∀ c, R c c) :
    List.Forall₂ R node.inner node'.inner := by
  cases h with
  | same => exact List.forall₂_same.2 fun c _ => hR c
  | arithmetic left right | comparison left right => exact .cons left (.cons right .nil)
  | call args => exact args
  | assign value | updateElement value => exact .cons value .nil

theorem Amends.target?_eq (h : node.Amends R node') : node'.target? = node.target? := by
  cases h <;> rfl

theorem Amends.callee?_eq (h : node.Amends R node') : node'.callee? = node.callee? := by
  cases h <;> rfl

end Node

/-- The name is noted for the function. -/
def Records (functions : NameMap NameSet) (f x : String) : Prop :=
  x ∈ functions.getD f ∅

namespace Graph

variable {g g' : Graph} {a b n id : NodeId} {node : Node} {ids : List NodeId} {x : String}
  {known : String → String → Prop}

/-- The second node runs as a part of the first one. -/
def Runs (g : Graph) : NodeId → NodeId → Prop :=
  Relation.ReflTransGen fun a b => ∃ node, g.node? a = some node ∧ b ∈ node.inner

/-- The node runs as a part of the block. -/
def RunsIn (g : Graph) (block : List NodeId) (n : NodeId) : Prop :=
  ∃ id ∈ block, g.Runs id n

/-- The node assigns the name, or an element of the array with the name. -/
def Stores (g : Graph) (n : NodeId) (x : String) : Prop :=
  ∃ node target v, g.node? n = some node ∧ node.target? = some target ∧
    g.node? target = some (.var v) ∧ v.name = x

/-- The node calls the function. -/
def Calls (g : Graph) (n : NodeId) (f : String) : Prop :=
  ∃ node, g.node? n = some node ∧ node.callee? = some f

/-- The node assigns the name, itself or by a call, where it is given what functions assign. -/
def Adds (g : Graph) (known : String → String → Prop) (n : NodeId) (x : String) : Prop :=
  g.Stores n x ∨ ∃ f, g.Calls n f ∧ known f x

theorem Runs.reaches (h : g.Runs a b) : g.Reaches a b :=
  Relation.ReflTransGen.mono
    (fun _ _ ⟨node, hnode, hb⟩ => ⟨node, hnode, node.inner_subset_children hb⟩) _ _ h

/-- What runs as a part of a node is the node or runs as a part of what the node is made of. -/
theorem exists_runs_iff {P : NodeId → Prop} (hnode : g.node? id = some node) :
    (∃ n, g.Runs id n ∧ P n) ↔ P id ∨ ∃ c ∈ node.inner, ∃ n, g.Runs c n ∧ P n := by
  constructor
  · rintro ⟨n, hn, hP⟩
    rcases hn.cases_head with rfl | ⟨c, ⟨node', hnode', hc⟩, hcn⟩
    · exact .inl hP
    · cases hnode.symm.trans hnode'
      exact .inr ⟨c, hc, n, hcn, hP⟩
  · rintro (hP | ⟨c, hc, n, hn, hP⟩)
    · exact ⟨id, .refl, hP⟩
    · exact ⟨n, .head ⟨node, hnode, hc⟩ hn, hP⟩

/-- For a node that is there, adding a name is a matter of its target or of the function that it
calls. -/
theorem adds_iff (hnode : g.node? n = some node) : g.Adds known n x ↔
    (∃ target v, node.target? = some target ∧ g.node? target = some (.var v) ∧ v.name = x) ∨
      ∃ f, node.callee? = some f ∧ known f x := by
  simp [Adds, Stores, Calls, hnode]

/-- What assigns a name is an assignment or a call. -/
theorem Adds.exists_loud (h : g.Adds known n x) :
    ∃ node, g.node? n = some node ∧ node.shape.isQuiet = false := by
  rcases h with ⟨node, target, v, hnode, htarget, -⟩ | ⟨f, ⟨node, hnode, hcallee⟩, -⟩
  · refine ⟨node, hnode, ?_⟩
    cases node with
    | assign | updateElement => rfl
    | _ => cases htarget
  · refine ⟨node, hnode, ?_⟩
    cases node with
    | call => rfl
    | _ => cases hcallee

/-! ## What is collected -/

/-- A name is collected from a list if it was there or comes from one of the members. -/
theorem mem_foldlM {P : NodeId → Prop} {step : NameSet → NodeId → Except Fault NameSet}
    {names names' : NameSet}
    (hstep : ∀ {names names' id}, step names id = .ok names' → (x ∈ names' ↔ x ∈ names ∨ P id))
    (h : ids.foldlM step names = .ok names') : x ∈ names' ↔ x ∈ names ∨ ∃ id ∈ ids, P id := by
  induction ids generalizing names with
  | nil =>
    cases h
    simp
  | cons id ids ih =>
    rw [List.foldlM_cons] at h
    obtain ⟨names₁, hfirst, hrest⟩ := bind_eq_ok.1 h
    rw [ih hrest, hstep hfirst]
    simp only [List.mem_cons, exists_eq_or_imp]
    exact or_assoc

/-- A target adds its name if it is a variable, and nothing else. -/
theorem mem_addTarget_iff {target : NodeId} {names names' : NameSet}
    (h : g.addTarget target names = .ok names') :
    x ∈ names' ↔ x ∈ names ∨ ∃ v, g.node? target = some (.var v) ∧ v.name = x := by
  obtain ⟨node, hnode, h⟩ := bind_eq_ok.1 h
  rw [node_eq_ok] at hnode
  cases node with
  | var v =>
    cases h
    simp [hnode, Std.TreeSet.mem_insert, or_comm]
  | _ =>
    cases h
    simp [hnode]

/-- The collector adds the names that are assigned by what runs, itself or by calls. -/
theorem mem_addAssigned_iff {functions : NameMap NameSet} {depth : Nat} {names names' : NameSet}
    (h : g.addAssigned functions depth id names = .ok names') :
    x ∈ names' ↔ x ∈ names ∨ ∃ n, g.Runs id n ∧ g.Adds (Records functions) n x := by
  induction depth generalizing id names names' with
  | zero => cases h
  | succ depth ih =>
    have hall : ∀ {ids : List NodeId} {names names' : NameSet},
        ids.foldlM (fun names id => g.addAssigned functions depth id names) names = .ok names' →
          (x ∈ names' ↔ x ∈ names ∨
            ∃ id ∈ ids, ∃ n, g.Runs id n ∧ g.Adds (Records functions) n x) :=
      mem_foldlM ih
    rw [addAssigned] at h
    obtain ⟨node, hnode, h⟩ := bind_eq_ok.1 h
    rw [node_eq_ok] at hnode
    rw [exists_runs_iff hnode, adds_iff hnode]
    cases node with
    | assign target value | updateElement target index value =>
      obtain ⟨names₁, htarget, h⟩ := bind_eq_ok.1 h
      rw [hall h, mem_addTarget_iff htarget]
      simp [Node.target?, Node.callee?, Node.inner, or_assoc]
    | ifElse | whileLoop | arithmetic | comparison =>
      rw [hall h]
      simp [Node.target?, Node.callee?, Node.inner]
    | call name args returns =>
      obtain ⟨names₁, hargs, h⟩ := bind_eq_ok.1 h
      split at h
      next assigned hname =>
        cases h
        rw [Std.TreeSet.mem_insertMany_list, hall hargs, or_right_comm, or_assoc]
        simp [Node.target?, Node.callee?, Node.inner, Records, Std.TreeMap.getD_eq_getD_getElem?, hname]
      next hname =>
        cases h
        rw [hall hargs]
        simp [Node.target?, Node.callee?, Node.inner, Records, Std.TreeMap.getD_eq_getD_getElem?, hname]
    | functionDef | constant | var | debug =>
      cases h
      simp [Node.target?, Node.callee?, Node.inner]

/-- The names that a block may assign are those that are assigned by what runs in it. -/
theorem mem_assignedIn_iff {functions : NameMap NameSet} {depth : Nat} {names : NameSet}
    (h : g.assignedIn functions depth ids = .ok names) :
    x ∈ names ↔ ∃ n, g.RunsIn ids n ∧ g.Adds (Records functions) n x := by
  have hfold : x ∈ names ↔ x ∈ (∅ : NameSet) ∨
      ∃ id ∈ ids, ∃ n, g.Runs id n ∧ g.Adds (Records functions) n x :=
    mem_foldlM (fun h => mem_addAssigned_iff h) h
  rw [hfold]
  simp only [Std.TreeSet.not_mem_emptyc, false_or, RunsIn]
  constructor
  · rintro ⟨id, hid, n, hn, hx⟩
    exact ⟨n, ⟨id, hid, hn⟩, hx⟩
  · rintro ⟨n, ⟨id, hid, hn⟩, hx⟩
    exact ⟨id, hid, n, hn, hx⟩

/-! ## Rewriting -/

namespace Rewrites

variable {S : NodeId → Prop}

/-- A node that is no constant was there before, up to its slots. -/
theorem exists_amends (h : Rewrites S g g') (hnode : g'.node? n = some node)
    (hconst : ∀ l, node ≠ .constant l) :
    ∃ node₀, g.node? n = some node₀ ∧ node₀.Amends (g.Reslots g') node := by
  cases hnode₀ : g.node? n with
  | none =>
    obtain ⟨l, rfl⟩ := h.fresh hnode₀ hnode
    exact absurd rfl (hconst l)
  | some node₀ =>
    obtain ⟨node', hnode', hamends⟩ := h.kept hnode₀
    cases hnode.symm.trans hnode'
    exact ⟨node₀, rfl, hamends⟩

/-- Assignments have the same target before and after rewriting. -/
theorem stores_iff (h : Rewrites S g g') : g'.Stores n x ↔ g.Stores n x := by
  constructor
  · rintro ⟨node, target, v, hnode, htarget, hv, rfl⟩
    obtain ⟨node₀, hnode₀, hamends⟩ := h.exists_amends hnode (by rintro l rfl; cases htarget)
    obtain ⟨var₀, hvar₀, hvar⟩ := h.exists_amends hv nofun
    cases hvar with
    | same => exact ⟨node₀, target, v, hnode₀, hamends.target?_eq ▸ htarget, hvar₀, rfl⟩
  · rintro ⟨node₀, target, v, hnode₀, htarget, hv, rfl⟩
    obtain ⟨node, hnode, hamends⟩ := h.kept hnode₀
    exact ⟨node, target, v, hnode, hamends.target?_eq.trans htarget, h.leaf rfl hv, rfl⟩

/-- Calls are of the same function before and after rewriting. -/
theorem calls_iff (h : Rewrites S g g') {f : String} : g'.Calls n f ↔ g.Calls n f := by
  constructor
  · rintro ⟨node, hnode, hcallee⟩
    obtain ⟨node₀, hnode₀, hamends⟩ := h.exists_amends hnode (by rintro l rfl; cases hcallee)
    exact ⟨node₀, hnode₀, hamends.callee?_eq ▸ hcallee⟩
  · rintro ⟨node₀, hnode₀, hcallee⟩
    obtain ⟨node, hnode, hamends⟩ := h.kept hnode₀
    exact ⟨node, hnode, hamends.callee?_eq.trans hcallee⟩

theorem adds_iff (h : Rewrites S g g') : g'.Adds known n x ↔ g.Adds known n x := by
  simp only [Adds, h.stores_iff, h.calls_iff]

/-- What runs after rewriting ran before, or is a constant. -/
theorem runs (h : Rewrites S g g') (hn : g'.Runs a n) : g.Runs a n ∨ g'.IsConstant n := by
  induction hn using Relation.ReflTransGen.head_induction_on with
  | refl => exact .inl .refl
  | @head a b hab hbn ih =>
    obtain ⟨node, hnode, hb⟩ := hab
    obtain ⟨node₀, hnode₀, hamends⟩ := h.exists_amends hnode (by rintro l rfl; cases hb)
    obtain ⟨c, hc, rfl | ⟨-, ⟨l, hl⟩, -⟩⟩ := exists_mem_of_forall₂ (hamends.inner (.refl _ _)) hb
    · exact ih.imp_left (.head ⟨node₀, hnode₀, hc⟩)
    · rw [eq_of_reaches_leaf hl rfl (Runs.reaches hbn)]
      exact .inr ⟨l, hl⟩

/-- What runs before rewriting and is not quiet runs afterwards. -/
theorem runs_of_loud (h : Rewrites S g g') (hn : g.Runs a n) (hnode : g.node? n = some node)
    (hloud : node.shape.isQuiet = false) : g'.Runs a n := by
  induction hn using Relation.ReflTransGen.head_induction_on with
  | refl => exact .refl
  | @head a b hab hbn ih =>
    obtain ⟨node₀, hnode₀, hb⟩ := hab
    obtain ⟨node', hnode', hamends⟩ := h.kept hnode₀
    obtain ⟨b', hb', hslot⟩ := exists_mem_of_forall₂ (hamends.inner (.refl _ _)).flip hb
    rcases hslot with rfl | ⟨-, -, hquiet⟩
    · exact .head ⟨node', hnode', hb'⟩ ih
    · -- a slot that was exchanged has nothing but quiet nodes below it
      rw [hquiet n node (Runs.reaches hbn) hnode] at hloud
      cases hloud

/-- The names that what runs in a block assigns are the same before and after rewriting. -/
theorem runsIn_adds (h : Rewrites S g g') :
    (∃ n, g'.RunsIn ids n ∧ g'.Adds known n x) ↔ ∃ n, g.RunsIn ids n ∧ g.Adds known n x := by
  constructor
  · rintro ⟨n, ⟨id, hid, hn⟩, hx⟩
    obtain ⟨node, hnode, hloud⟩ := hx.exists_loud
    refine ⟨n, ⟨id, hid, (h.runs hn).resolve_right ?_⟩, h.adds_iff.1 hx⟩
    rintro ⟨l, hl⟩
    cases hnode.symm.trans hl
    cases hloud
  · rintro ⟨n, ⟨id, hid, hn⟩, hx⟩
    obtain ⟨node, hnode, hloud⟩ := hx.exists_loud
    exact ⟨n, ⟨id, hid, h.runs_of_loud hn hnode hloud⟩, h.adds_iff.2 hx⟩

end Rewrites

end Graph

/-! ## The order of the definitions -/

/-- The function that a node defines, with its body. -/
def Node.defined : Node → List (String × List NodeId)
  | .functionDef name _ body _ => [(name, body)]
  | _ => []

/-- The statements of the blocks of a node. -/
def Node.nested : Node → List NodeId
  | .ifElse _ thenBlock elseBlock => thenBlock ++ elseBlock
  | .whileLoop _ body | .functionDef _ _ body _ => body
  | _ => []

/-- The statements of the blocks are among the children, in their order. -/
theorem Node.nested_sublist_children (node : Node) : node.nested.Sublist node.children := by
  cases node with
  | ifElse | whileLoop => exact List.sublist_cons_self _ _
  | functionDef => exact List.sublist_append_right _ _
  | _ => exact List.nil_sublist _

namespace Graph

variable {g g₀ : Graph} {S : NodeId → Prop}

/-- The functions that are defined in a statement, in the order in which the statement is followed:
the function itself before those in its body. -/
def definitions (g : Graph) : Nat → NodeId → List (String × List NodeId)
  | 0, _ => []
  | depth + 1, id =>
    match g.node? id with
    | some node => node.defined ++ node.nested.flatMap (g.definitions depth)
    | none => []

/-- The definitions are the same before and after rewriting. -/
theorem Rewrites.definitions_eq (h : Rewrites S g₀ g) {id : NodeId} {node : Node} {depth : Nat}
    (hnode : g.node? id = some node) : g₀.definitions (depth + 1) id =
      node.defined ++ node.nested.flatMap (g₀.definitions depth) := by
  cases hnode₀ : g₀.node? id with
  | none =>
    obtain ⟨l, rfl⟩ := h.fresh hnode₀ hnode
    simp [definitions, hnode₀, Node.defined, Node.nested]
  | some node₀ =>
    obtain ⟨node', hnode', hamends⟩ := h.kept hnode₀
    cases hnode.symm.trans hnode'
    have hsame : node.defined = node₀.defined ∧ node.nested = node₀.nested := by
      cases hamends <;> exact ⟨rfl, rfl⟩
    rw [hsame.1, hsame.2]
    simp [definitions, hnode₀]

/-- The table of functions before and after definitions have been come to, one after the other. -/
inductive Noting (g : Graph) :
    NameMap NameSet → List (String × List NodeId) → NameMap NameSet → Prop
  | nil {functions} : Noting g functions [] functions
  | cons {functions functions' f body defs names}
    (hnames : ∀ x, x ∈ names ↔ ∃ n, g.RunsIn body n ∧ g.Adds (Records functions) n x)
    (hrest : Noting g (PropagateM.noted functions f names) defs functions') :
    Noting g functions ((f, body) :: defs) functions'

/-- Definitions that are come to later add to the table that the earlier ones left. -/
theorem Noting.append {functions functions₁ functions₂ : NameMap NameSet}
    {defs defs' : List (String × List NodeId)} (h : g.Noting functions defs functions₁)
    (h' : g.Noting functions₁ defs' functions₂) : g.Noting functions (defs ++ defs') functions₂ := by
  induction h with
  | nil => exact h'
  | cons hnames _ ih => exact .cons hnames (ih h')

end Graph

namespace PropagateM

open RegisterBackend.Graph (Rewrites Noting)

variable {g₀ : Graph} {s t : Propagation} {depth : Nat}

/-- The table of functions follows the definitions in a block if it does so in statements. -/
theorem forM_noting
    (hstep : ∀ {id s t}, (statement depth id).run s = .ok () t →
      Rewrites (fun _ => True) g₀ s.graph → g₀.Noting s.functions (g₀.definitions depth id) t.functions)
    {ids : List NodeId} (h : (ids.forM (statement depth)).run s = .ok () t)
    (hr : Rewrites (fun _ => True) g₀ s.graph) :
    g₀.Noting s.functions (ids.flatMap (g₀.definitions depth)) t.functions := by
  induction ids generalizing s with
  | nil =>
    cases h
    exact .nil
  | cons id ids ih =>
    obtain ⟨u, hid, hids⟩ := run_forM_cons_eq_ok.1 h
    have hr' := statement_rewrites hid fun _ _ _ _ _ => trivial
    exact (hstep hid hr).append (ih hids (hr.trans hr'))

/-- The table of functions follows the definitions in a statement. -/
theorem statement_noting {id : NodeId} (h : (statement depth id).run s = .ok () t)
    (hr : Rewrites (fun _ => True) g₀ s.graph) :
    g₀.Noting s.functions (g₀.definitions depth id) t.functions := by
  induction depth generalizing id s t with
  | zero => cases h
  | succ depth ih =>
    cases run_statement_ok h with
    | assign hnode _ hvalue hupdate hlearn =>
      have hf : t.functions = s.functions := by
        rw [← expr_functions hvalue, ← run_update_functions hupdate]
        rcases run_learn_ok hlearn with ⟨l, -, rfl⟩ | ⟨-, rfl⟩ <;> rfl
      rw [hr.definitions_eq hnode, hf]
      exact .nil
    | updateElement hnode hvalue hupdate =>
      have hf := (run_update_functions hupdate).trans (expr_functions hvalue)
      rw [hr.definitions_eq hnode]
      show g₀.Noting s.functions [] _
      rw [hf]
      exact .nil
    | @ifElse cond thenBlock elseBlock s₁ s₂ s₃ names hnode htest hthen helse =>
      have hr₁ := hr.trans (condition_rewrites htest fun _ _ _ _ _ => trivial)
      have hblock := forM_rewrites (S := fun _ => True) (fun _ _ _ => statement_rewrites) hthen
        fun _ _ _ _ _ _ _ => trivial
      have hr₂ := hr₁.trans hblock
      rw [hr.definitions_eq hnode, ← condition_functions htest]
      show g₀.Noting s₁.functions ((thenBlock ++ elseBlock).flatMap _) s₃.functions
      rw [List.flatMap_append]
      have hnoting := forM_noting ih hthen hr₁
      have hnoting' := forM_noting ih helse hr₂
      exact hnoting.append hnoting'
    | @whileLoop cond body s₁ s₂ names hnode _ htest hround =>
      have hf := condition_functions htest
      have hcond := condition_rewrites (S := fun _ => True) htest fun _ _ _ _ _ => trivial
      have hr₁ := hr.trans hcond
      rw [hr.definitions_eq hnode]
      show g₀.Noting _ (body.flatMap _) s₂.functions
      have hnoting := forM_noting ih hround hr₁
      rwa [hf] at hnoting
    | @functionDef name params body returns names s₁ hnode hbody hassigned =>
      rw [hr.definitions_eq hnode]
      refine .cons (fun x => ?_) (forM_noting ih hbody hr)
      rw [Graph.mem_assignedIn_iff hassigned]
      exact hr.runsIn_adds
    | debug hnode =>
      rw [hr.definitions_eq hnode]
      exact .nil

end PropagateM

/-! ## What is noted in the end -/

namespace Graph

variable {g : Graph} {defs earlier later : List (String × List NodeId)} {f h x : String}
  {body : List NodeId}

/-- The name is noted for the function when these definitions have been come to: the body assigns
it, or calls a function for which it was noted before. -/
inductive Noted (g : Graph) : List (String × List NodeId) → String → String → Prop
  | assigns {defs f body n x} (hdef : (f, body) ∈ defs) (hn : g.RunsIn body n)
    (hx : g.Stores n x) : Noted g defs f x
  | calls {earlier f body later n h x} (hn : g.RunsIn body n) (hcall : g.Calls n h)
    (hx : Noted g earlier h x) : Noted g (earlier ++ (f, body) :: later) f x

/-- What is noted stays noted when further definitions are come to. -/
theorem Noted.append (hx : g.Noted defs f x) (more : List (String × List NodeId)) :
    g.Noted (defs ++ more) f x := by
  cases hx with
  | assigns hdef hn hx => exact .assigns (List.mem_append_left _ hdef) hn hx
  | calls hn hcall hx =>
    rw [List.append_assoc, List.cons_append]
    exact .calls hn hcall hx

/-- What is noted with one more definition. -/
theorem noted_concat : g.Noted (defs ++ [(h, body)]) f x ↔
    g.Noted defs f x ∨ f = h ∧ ∃ n, g.RunsIn body n ∧ g.Adds (g.Noted defs) n x := by
  constructor
  · generalize hall : defs ++ [(h, body)] = all
    rintro (@⟨_, _, _, n, _, hdef, hn, hx⟩ | @⟨earlier, _, body', later, n, k, _, hn, hcall, hx⟩)
    · subst hall
      rcases List.mem_append.1 hdef with hdef | hdef
      · exact .inl (.assigns hdef hn hx)
      · cases List.mem_singleton.1 hdef
        exact .inr ⟨rfl, n, hn, .inl hx⟩
    · rcases List.eq_nil_or_concat later with rfl | ⟨later, last, rfl⟩
      · obtain ⟨rfl, hlast⟩ := List.append_inj' hall rfl
        cases hlast
        exact .inr ⟨rfl, n, hn, .inr ⟨k, hcall, hx⟩⟩
      · rw [List.concat_eq_append, ← List.cons_append, ← List.append_assoc] at hall
        obtain ⟨rfl, -⟩ := List.append_inj' hall rfl
        exact .inl (.calls hn hcall hx)
  · rintro (hx | ⟨rfl, n, hn, hx | ⟨k, hcall, hx⟩⟩)
    · exact hx.append _
    · exact .assigns (List.mem_append_right _ List.mem_cons_self) hn hx
    · exact .calls hn hcall hx

/-- What is noted for a function that is not defined from some point on was noted before. -/
theorem Noted.of_append (hx : g.Noted (earlier ++ later) f x) (hf : f ∉ later.map Prod.fst) :
    g.Noted earlier f x := by
  induction later using List.reverseRecOn with
  | nil => rwa [List.append_nil] at hx
  | append_singleton later last ih =>
    simp only [List.map_append, List.mem_append, List.map_cons, List.map_nil, List.mem_singleton,
      not_or] at hf
    rw [← List.append_assoc] at hx
    exact ih ((noted_concat.1 hx).resolve_right fun hlast => hf.2 hlast.1) hf.1

end Graph

/-- What is noted with one more definition. -/
theorem records_noted {functions : NameMap NameSet} {f h x : String} {names : NameSet} :
    Records (PropagateM.noted functions h names) f x ↔ Records functions f x ∨ f = h ∧ x ∈ names := by
  unfold Records PropagateM.noted
  rw [Std.TreeMap.getD_insert]
  by_cases hf : f = h
  · subst hf
    simp
  · have hne : compare h f ≠ .eq := fun heq => hf (Std.LawfulEqOrd.eq_of_compare heq).symm
    simp [hf, hne]

namespace Graph.Noting

variable {g : Graph} {functions functions' : NameMap NameSet} {defs : List (String × List NodeId)}

/-- A function is in the table if it was there or is defined. -/
theorem mem_iff (h : g.Noting functions defs functions') (f : String) :
    f ∈ functions' ↔ f ∈ functions ∨ f ∈ defs.map Prod.fst := by
  induction h with
  | nil => simp
  | cons _ _ ih =>
    rw [ih, PropagateM.noted, Std.TreeMap.mem_insert, Std.LawfulEqOrd.compare_eq_iff_eq,
      List.map_cons, List.mem_cons, or_comm (a := _ = f), or_assoc, eq_comm]

/-- The table has what the definitions say, if it had what those before them say. -/
theorem records_iff (h : g.Noting functions defs functions')
    {earlier : List (String × List NodeId)}
    (hearlier : ∀ f x, Records functions f x ↔ g.Noted earlier f x) (f x : String) :
    Records functions' f x ↔ g.Noted (earlier ++ defs) f x := by
  induction h generalizing earlier with
  | nil => rw [hearlier, List.append_nil]
  | @cons functions _ k body defs names hnames _ ih =>
    have hstep : ∀ f x, Records (PropagateM.noted functions k names) f x ↔
        g.Noted (earlier ++ [(k, body)]) f x := by
      intro f x
      have hknown : Records functions = g.Noted earlier := funext₂ fun f x => propext (hearlier f x)
      rw [records_noted, noted_concat, hnames, hknown]
    rw [ih hstep, List.append_assoc, List.singleton_append]

end Graph.Noting

namespace Program

variable {p : Program} {s : Propagation}

/-- The functions that a program defines, in the order in which it is followed. -/
def definitions (p : Program) : List (String × List NodeId) :=
  p.body.flatMap (p.graph.definitions p.graph.depth)

/-- A call of the function may assign the name: the body assigns it, or calls a function that
may. -/
inductive MayWrite (p : Program) : String → String → Prop
  | assigns {f body n x} (hdef : (f, body) ∈ p.definitions) (hn : p.graph.RunsIn body n)
    (hx : p.graph.Stores n x) : MayWrite p f x
  | calls {f body n h x} (hdef : (f, body) ∈ p.definitions) (hn : p.graph.RunsIn body n)
    (hcall : p.graph.Calls n h) (hx : MayWrite p h x) : MayWrite p f x

/-- No body calls another function that is defined after the body begins. -/
def CallsBackward (p : Program) : Prop :=
  ∀ earlier f body later, p.definitions = earlier ++ (f, body) :: later →
    ∀ n h, p.graph.RunsIn body n → p.graph.Calls n h → h ≠ f → h ∉ later.map Prod.fst

/-- What is noted for a function is something that a call of it may assign. -/
theorem mayWrite_of_noted {defs : List (String × List NodeId)} {f x : String}
    (hx : p.graph.Noted defs f x) (hdefs : defs ⊆ p.definitions) : p.MayWrite f x := by
  induction hx with
  | assigns hdef hn hx => exact .assigns (hdefs hdef) hn hx
  | @calls earlier f body later n h x hn hcall _ ih =>
    have hdef : (f, body) ∈ p.definitions := hdefs (List.mem_append_right _ List.mem_cons_self)
    exact .calls hdef hn hcall (ih fun d hd => hdefs (List.mem_append_left _ hd))

/-- What a call may assign is noted, if no body calls a function that is defined later. -/
theorem noted_of_mayWrite (hback : p.CallsBackward) {f x : String} (hx : p.MayWrite f x) :
    p.graph.Noted p.definitions f x := by
  induction hx with
  | assigns hdef hn hx => exact .assigns hdef hn hx
  | @calls f body n h x hdef hn hcall _ ih =>
    by_cases hself : h = f
    · rwa [hself] at ih
    · obtain ⟨earlier, later, hsplit⟩ := List.append_of_mem hdef
      have hlater := hback earlier f body later hsplit n h hn hcall hself
      rw [hsplit] at ih ⊢
      refine .calls hn hcall (ih.of_append ?_)
      simpa [hself] using hlater

/-- Constant propagation that succeeds knows exactly the functions that the program defines. For
each of them it has noted the names that are assigned through calls of functions defined before
their callers. These are all names that a call may assign, if no body calls a function that is
defined after the body begins. -/
theorem records_of_propagate (hrun : p.propagate = .ok () s) :
    (∀ f, f ∈ s.functions ↔ f ∈ p.definitions.map Prod.fst) ∧
    (∀ f x, Records s.functions f x ↔ p.graph.Noted p.definitions f x) ∧
    (p.CallsBackward → ∀ f x, Records s.functions f x ↔ p.MayWrite f x) := by
  have hnoting : p.graph.Noting ∅ p.definitions s.functions :=
    PropagateM.forM_noting PropagateM.statement_noting hrun (.refl _ _)
  have hnone : ∀ f x, Records ∅ f x ↔ p.graph.Noted [] f x := by
    refine fun f x => ⟨fun h => by simp [Records] at h, fun h => ?_⟩
    generalize hnil : ([] : List (String × List NodeId)) = defs at h
    cases h with
    | assigns hdef => cases hnil ▸ hdef
    | calls => simp at hnil
  have hrecords : ∀ f x, Records s.functions f x ↔ p.graph.Noted p.definitions f x :=
    hnoting.records_iff hnone
  refine ⟨fun f => by simp [hnoting.mem_iff], hrecords, fun hback f x => ?_⟩
  rw [hrecords]
  exact ⟨fun h => mayWrite_of_noted h (List.Subset.refl _), noted_of_mayWrite hback⟩

/-- A function is defined before the one that calls it: `def g() (y = 1); def f() (r = g())`. -/
def helperBefore : Program :=
  ⟨.ofNodes [.constant (.scalar 1), .var (.scalar "y"), .assign ⟨1⟩ ⟨0⟩,
    .functionDef "g" [] [⟨2⟩] .scalar, .call "g" [] .scalar, .var (.scalar "r"), .assign ⟨5⟩ ⟨4⟩,
    .functionDef "f" [] [⟨6⟩] .scalar],
  [⟨3⟩, ⟨7⟩]⟩

/-- With the helper defined first, what it assigns is noted for the function that calls it. -/
theorem records_of_propagate_helperBefore : helperBefore.CallsBackward ∧
    helperBefore.MayWrite "f" "y" ∧
    ∃ s, helperBefore.propagate = .ok () s ∧ "f" ∈ s.functions ∧ Records s.functions "f" "y" := by
  have hdefs : helperBefore.definitions = [("g", [⟨2⟩]), ("f", [⟨6⟩])] := by decide +kernel
  have hassign : helperBefore.graph.node? ⟨2⟩ = some (.assign ⟨1⟩ ⟨0⟩) := by decide +kernel
  have hconst : helperBefore.graph.node? ⟨0⟩ = some (.constant (.scalar 1)) := by decide +kernel
  have hback : helperBefore.CallsBackward := by
    intro earlier f body later hsplit n h hn hcall _
    rw [hdefs] at hsplit
    rcases earlier with _ | ⟨_, _ | ⟨_, earlier⟩⟩
    · -- there is no call in the body of the first function
      cases hsplit
      obtain ⟨id, hid, hrun⟩ := hn
      cases List.mem_singleton.1 hid
      obtain hP := (Graph.exists_runs_iff (P := (helperBefore.graph.Calls · h)) hassign).1
        ⟨n, hrun, hcall⟩
      simp [Graph.Calls, hassign, hconst, Node.callee?, Node.inner,
        Graph.exists_runs_iff hconst] at hP
    · cases hsplit
      exact List.not_mem_nil
    · simp at hsplit
  have hmay : helperBefore.MayWrite "f" "y" := by
    have hf : ("f", [⟨6⟩]) ∈ helperBefore.definitions := by simp [hdefs]
    refine .calls (n := ⟨4⟩) (h := "g") hf ⟨⟨6⟩, List.mem_cons_self, ?_⟩ ?_ ?_
    · exact .single ⟨.assign ⟨5⟩ ⟨4⟩, by decide +kernel, List.mem_cons_self⟩
    · exact ⟨.call "g" [] .scalar, by decide +kernel, rfl⟩
    · exact .assigns (n := ⟨2⟩) (hdefs ▸ List.mem_cons_self) ⟨⟨2⟩, List.mem_cons_self, .refl⟩
        ⟨_, ⟨1⟩, .scalar "y", hassign, rfl, by decide +kernel, rfl⟩
  have hends : ∃ u s, helperBefore.propagate = .ok u s := by decide +kernel
  obtain ⟨u, s, hrun⟩ := hends
  obtain ⟨hmem, -, hrecords⟩ := records_of_propagate hrun
  refine ⟨hback, hmay, s, hrun, (hmem "f").2 ?_, (hrecords hback "f" "y").2 hmay⟩
  rw [hdefs]
  decide

/-- A function that defines another one in its body and calls it: `def f() (def g() (y = 1); r =
g())`.
-/
def helperInside : BuildM (List NodeId) := do
  let f ← BuildM.defineFunction "f" [] .scalar do
    let g ← BuildM.defineFunction "g" [] .scalar do
      return [← BuildM.setVariable "y" (.number 1)]
    let call ← BuildM.call "g" []
    return [g, ← BuildM.setVariable "r" (.node call)]
  return [f]

@[inherit_doc helperInside]
def helperInsideProgram : Program :=
  ⟨.ofNodes [.constant (.scalar 1), .var (.scalar "y"), .assign ⟨1⟩ ⟨0⟩,
    .functionDef "g" [] [⟨2⟩] .scalar, .call "g" [] .scalar, .var (.scalar "r"), .assign ⟨5⟩ ⟨4⟩,
    .functionDef "f" [] [⟨3⟩, ⟨6⟩] .scalar],
  [⟨7⟩]⟩

/-- What the inner function assigns is not noted for the outer one, which calls it. -/
theorem helperInside_not_recorded :
    (∃ body b, helperInside.run .empty = .ok body b ∧ b.build body = .ok helperInsideProgram) ∧
    (helperInsideProgram.definitions.map Prod.fst).Nodup ∧
    ∃ s, helperInsideProgram.propagate = .ok () s ∧ "f" ∈ s.functions ∧
      helperInsideProgram.MayWrite "f" "y" ∧ ¬ Records s.functions "f" "y" := by
  have hdefs : helperInsideProgram.definitions = [("f", [⟨3⟩, ⟨6⟩]), ("g", [⟨2⟩])] := by
    decide +kernel
  have hmay : helperInsideProgram.MayWrite "f" "y" := by
    refine .calls (n := ⟨4⟩) (h := "g") (hdefs ▸ List.mem_cons_self) ⟨⟨6⟩, by decide, ?_⟩ ?_ ?_
    · exact .single ⟨.assign ⟨5⟩ ⟨4⟩, by decide +kernel, List.mem_cons_self⟩
    · exact ⟨.call "g" [] .scalar, by decide +kernel, rfl⟩
    · have hg : ("g", [⟨2⟩]) ∈ helperInsideProgram.definitions := by simp [hdefs]
      exact .assigns (n := ⟨2⟩) hg ⟨⟨2⟩, List.mem_cons_self, .refl⟩
        ⟨.assign ⟨1⟩ ⟨0⟩, ⟨1⟩, .scalar "y", by decide +kernel, rfl, by decide +kernel, rfl⟩
  have hrun : ∃ u s, helperInsideProgram.propagate = .ok u s ∧
      "f" ∈ s.functions ∧ "y" ∉ s.functions.getD "f" ∅ := by decide +kernel
  obtain ⟨u, s, hs, hmem, hnot⟩ := hrun
  refine ⟨by decide +kernel, ?_, s, hs, hmem, hmay, hnot⟩
  rw [hdefs]
  decide

end Program

end RegisterBackend
