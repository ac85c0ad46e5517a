import RegisterBackend.Proofs.BuilderClients

/-!
# Operations that fail

An operation of the builder looks at what it is given before it defines a variable, so one that is
refused leaves the variables as they were, with their kinds and lengths, and the nodes too
(`Builder.refused_operation`). It may leave nodes that it had already added.

This also holds of the definition of a function, whatever its body did before it failed: the
variables outside come back. But the function itself can be called from the moment it is opened, and
it can still be called when its body has been refused. `BuildM.Begins` lists the functions that a
client opens, with their signatures. These are what is written into the table of functions, in this
order (`BuildM.Begins.gains`), and none of it is taken back. So an operation that is refused leaves
the table as it was exactly if each function that it has opened had the same signature before.
-/

namespace RegisterBackend

/-- The builder has been given nodes and variables at most. -/
structure Builder.Widens (b t : Builder) : Prop where
  nodes : b.graph.Extends t.graph
  functions : t.functions = b.functions

/-- The builder has been given nodes at most. -/
structure Builder.Spares (b t : Builder) : Prop extends Builder.Widens b t where
  scope : t.scope = b.scope

theorem Builder.Widens.trans {b t u : Builder} (h : b.Widens t) (h' : t.Widens u) : b.Widens u :=
  ⟨h.nodes.trans h'.nodes, h'.functions.trans h.functions⟩

theorem Builder.Spares.refl (b : Builder) : b.Spares b :=
  ⟨⟨.refl _, rfl⟩, rfl⟩

theorem Builder.Spares.trans {b t u : Builder} (h : b.Spares t) (h' : t.Spares u) : b.Spares u :=
  ⟨h.toWidens.trans h'.toWidens, h'.scope.trans h.scope⟩

namespace BuildM

variable {α β : Type} {b : Builder}

/-! ## Steps that add nodes -/

/-- The steps add nodes at most, whether they end or fail. -/
def AddsNodes (m : BuildM α) : Prop :=
  ∀ b, Meets (fun _ t => b.Spares t) m b fun _ t => b.Spares t

namespace AddsNodes

theorem pure (a : α) : AddsNodes (pure a) :=
  fun b => .of_run_eq_ok rfl (.refl b)

theorem throw (e : Stop ProgramError) : AddsNodes (throw e : BuildM α) :=
  fun b => .throw (.refl b)

theorem reject (e : ProgramError) : AddsNodes (reject e : BuildM α) :=
  throw _

/-- Two operations one after the other add nodes at most if both do, wherever they fail. -/
theorem bind {m : BuildM α} {f : α → BuildM β} (hm : AddsNodes m) (hf : ∀ a, AddsNodes (f a)) :
    AddsNodes (m >>= f) := by
  refine fun b => (hm b).bind fun a t ht => ?_
  have hfa := (hf a t).mono fun _ _ hu => ht.trans hu
  exact hfa.mono_error fun _ _ hu => ht.trans hu

theorem get_bind {f : Builder → BuildM β} (hf : ∀ b, AddsNodes (f b)) : AddsNodes (get >>= f) :=
  fun b => .get_bind (hf b b)

/-- A question to the graph adds nothing, also if it is refused. -/
theorem look (f : Graph → Except (Stop ProgramError) α) : AddsNodes (look f) := by
  refine get_bind fun b => ?_
  split
  next => exact pure _
  next => exact throw _

/-- Adding a node adds a node at most: a reference that leads out of the graph leaves the builder as
it was. -/
theorem add (node : Node) : AddsNodes (add node) := by
  refine fun b => .get_bind ?_
  split
  next id g hadd => exact .of_run_eq_ok rfl ⟨⟨Graph.extends_add hadd, rfl⟩, rfl⟩
  next => exact .throw (.refl b)

/-- An operation on every element of a list adds nodes at most if it does so on each. -/
theorem mapM {f : β → BuildM α} (hf : ∀ x, AddsNodes (f x)) : ∀ l : List β, AddsNodes (l.mapM f)
  | [] => by
    rw [List.mapM_nil]
    exact pure _
  | x :: l => by
    rw [List.mapM_cons]
    exact (hf x).bind fun _ => (mapM hf l).bind fun _ => pure _

theorem forM {f : β → BuildM Unit} (hf : ∀ x, AddsNodes (f x)) : ∀ l : List β, AddsNodes (l.forM f)
  | [] => pure _
  | x :: l => (hf x).bind fun _ => forM hf l

end AddsNodes

/-- Looking a variable up adds nothing. -/
theorem addsNodes_variableInfo (name : String) : AddsNodes (variableInfo name) := by
  refine .get_bind fun b => ?_
  split
  next => exact .pure _
  next => exact .reject _

/-- An operand that is named or given as a literal becomes a node, and nothing else changes. -/
theorem addsNodes_operand (o : Operand) : AddsNodes (operand o) := by
  cases o with
  | number value => exact (AddsNodes.add _).bind fun _ => .pure _
  | array elements =>
    simp only [operand]
    split
    next => exact (AddsNodes.add _).bind fun _ => .pure _
    next => exact .reject _
  | name name =>
    exact (addsNodes_variableInfo name).bind fun _ => (AddsNodes.add _).bind fun _ => .pure _
  | node id =>
    refine (AddsNodes.look _).bind fun kind => ?_
    cases kind with
    | some kind => exact .pure _
    | none => exact (AddsNodes.look _).bind fun _ => .reject _

/-- Two operands are put into a node if they are of one kind. -/
theorem addsNodes_operands (lhs rhs : Operand) (node : NodeId → NodeId → Node)
    (refusal : Kind → Kind → ProgramError) :
    AddsNodes (operand lhs >>= fun l => operand rhs >>= fun r =>
      if l.2 = r.2 then add (node l.1 r.1) else reject (refusal l.2 r.2)) := by
  refine (addsNodes_operand lhs).bind fun left => (addsNodes_operand rhs).bind fun right => ?_
  split
  next => exact .add _
  next => exact .reject _

/-- An arithmetic node adds nodes at most, also with an unknown symbol or operands of two kinds. -/
theorem addsNodes_arithmetic (symbol : String) (lhs rhs : Operand) :
    AddsNodes (arithmetic symbol lhs rhs) := by
  unfold arithmetic
  split
  next => exact .reject _
  next op _ => exact addsNodes_operands lhs rhs (.arithmetic op) _

theorem addsNodes_compare (op : CompareOp) (lhs rhs : Operand) : AddsNodes (compare op lhs rhs) :=
  addsNodes_operands lhs rhs (.comparison op) _

/-- An argument adds nodes at most, also if it is of the wrong kind. -/
theorem addsNodes_argument (function : String) (arg : Operand) (expected : Kind) :
    AddsNodes (argument function arg expected) := by
  refine (addsNodes_operand arg).bind fun r => ?_
  dsimp only
  split
  next => exact .pure _
  next => exact .reject _

/-- A call adds nodes at most, also of an unknown function or with the wrong number of arguments. -/
theorem addsNodes_call (name : String) (args : List Operand) : AddsNodes (call name args) := by
  refine .get_bind fun b => ?_
  split
  next => exact .reject _
  next signature =>
    split
    next =>
      refine .bind (.mapM (fun arg => ?_) _) fun _ => .add _
      exact addsNodes_argument name arg.1 arg.2
    next => exact .reject _

/-- The assignment of an element adds nodes at most, as the array has been defined before. -/
theorem addsNodes_updateElement (name : String) (index : Nat) (value : Operand) :
    AddsNodes (updateElement name index value) := by
  refine (addsNodes_variableInfo name).bind fun info => ?_
  split
  next =>
    refine (addsNodes_operand value).bind fun r => ?_
    dsimp only
    split
    next => exact (AddsNodes.add _).bind fun _ => .add _
    next => exact .reject _
  next => exact .reject _

/-- Asking whether a node is a comparison adds nothing. -/
theorem addsNodes_expectCondition (id : NodeId) : AddsNodes (expectCondition id) := by
  refine (AddsNodes.look _).bind fun node => ?_
  split
  next => exact .pure _
  next => exact .reject _

/-- Asking whether nodes are statements adds nothing. -/
theorem addsNodes_expectBlock (block : List NodeId) : AddsNodes (expectBlock block) := by
  refine .forM (fun id => (AddsNodes.look _).bind fun node => ?_) block
  split
  next => exact .pure _
  next => exact .reject _

/-- A branch adds a node at most, and none with a wrong condition or block. -/
theorem addsNodes_ifElse (condition : NodeId) (thenBlock elseBlock : List NodeId) :
    AddsNodes (ifElse condition thenBlock elseBlock) := by
  refine (addsNodes_expectCondition condition).bind fun _ => ?_
  refine (addsNodes_expectBlock thenBlock).bind fun _ => ?_
  exact (addsNodes_expectBlock elseBlock).bind fun _ => .add _

theorem addsNodes_whileLoop (condition : NodeId) (body : List NodeId) :
    AddsNodes (whileLoop condition body) :=
  (addsNodes_expectCondition condition).bind fun _ => (addsNodes_expectBlock body).bind fun _ => .add _

/-! ## Steps that define variables -/

/-- The steps add nodes and define variables at most, and add nodes at most if they are refused. -/
def Heeds (m : BuildM α) : Prop :=
  ∀ b, Meets (fun e t => b.Widens t ∧ ∀ why, e = .error why → b.Spares t) m b fun _ t => b.Widens t

/-- Steps that add nodes at most define no variable, so they define none when they are refused. -/
theorem AddsNodes.heeds {m : BuildM α} (h : AddsNodes m) : Heeds m := by
  intro b
  have hb := (h b).mono fun _ _ ht => ht.toWidens
  exact hb.mono_error fun _ _ ht => ⟨ht.toWidens, fun _ _ => ht⟩

/-- Variables may be defined after steps that add nodes at most, if nothing is refused later. -/
theorem AddsNodes.bind_heeds {m : BuildM α} {f : α → BuildM β} (hm : AddsNodes m)
    (hf : ∀ a, Heeds (f a)) : Heeds (m >>= f) := by
  intro b
  have hb := (hm b).mono_error (F := fun e t => b.Widens t ∧ ∀ why, e = .error why → b.Spares t)
    fun _ _ ht => ⟨ht.toWidens, fun _ _ => ht⟩
  refine hb.bind fun a t ht => ?_
  have hfa := (hf a t).mono fun _ _ hu => ht.toWidens.trans hu
  exact hfa.mono_error fun _ _ ⟨hu, hrefused⟩ =>
    ⟨ht.toWidens.trans hu, fun why hwhy => ht.trans (hrefused why hwhy)⟩

/-- A node that cannot be added is not refused: it refers to one that is missing. -/
theorem run_add_error {node : Node} {e : Stop ProgramError} {t : Builder}
    (h : (add node).run b = .error e t) : ∃ why, e = .fault why ∧ t = b := by
  unfold add at h
  rcases run_bind_eq_error.1 h with hget | ⟨_, _, hget, h⟩
  · cases hget
  cases hget
  split at h
  next => cases h
  next why _ =>
    cases h
    exact ⟨why, rfl, rfl⟩

/-- A variable is defined when all that could be refused has been looked at. -/
theorem heeds_define_add (name : String) (info : VariableInfo) (node : Node) :
    Heeds (define name info >>= fun _ => add node) := by
  intro b
  have hdefine : Meets (fun e t => b.Widens t ∧ ∀ why, e = .error why → b.Spares t)
      (define name info) b fun _ t => b.Widens t := .modify ⟨.refl _, rfl⟩
  refine hdefine.bind fun _ t ht => ?_
  constructor
  · intro id u hrun
    exact ht.trans ((AddsNodes.add node t).ok hrun).toWidens
  · intro e u hrun
    obtain ⟨fault, rfl, rfl⟩ := run_add_error hrun
    exact ⟨ht, nofun⟩

/-- An operand is assigned to a variable if it has the right kind. -/
theorem heeds_assignment (value : Operand) (v : Variable) (info : VariableInfo)
    (refusal : Kind → ProgramError) :
    Heeds (operand value >>= fun r =>
      if r.2 = v.kind then add (.var v) >>= fun target => define v.name info >>= fun _ =>
        add (.assign target r.1)
      else reject (refusal r.2)) := by
  refine (addsNodes_operand value).bind_heeds fun r => ?_
  split
  next => exact (AddsNodes.add _).bind_heeds fun _ => heeds_define_add _ _ _
  next => exact (AddsNodes.reject _).heeds

theorem heeds_setVariable (name : String) (value : Operand) : Heeds (setVariable name value) :=
  heeds_assignment value (.scalar name) _ _

/-- An array is defined after everything that may be refused has been looked at. -/
theorem heeds_setArray (name : String) (length : Nat) (value : Option Operand) :
    Heeds (setArray name length value) := by
  unfold setArray
  extract_lets value rest
  have hrest : Heeds (rest ()) := heeds_assignment value (.array name length) _ _
  clear_value rest value
  split
  next elements =>
    split
    next => exact (AddsNodes.reject _).bind_heeds fun _ => hrest
    next => exact hrest
  next => exact hrest

/-! ## Functions -/

/-- Parameters can always be added. -/
theorem exists_run_parameters (params : List (String × Kind)) (b : Builder) :
    ∃ ids t, (params.mapM fun (param, kind) => parameter param kind).run b = .ok ids t ∧
      b.Widens t := by
  induction params generalizing b with
  | nil => exact ⟨[], b, rfl, (Builder.Spares.refl b).toWidens⟩
  | cons param params ih =>
    obtain ⟨id, t, hrun⟩ : ∃ id t, (parameter param.1 param.2).run b = .ok id t := ⟨_, _, rfl⟩
    have hadd : Heeds (parameter param.1 param.2) := by
      refine (AddsNodes.add _).bind_heeds fun id b => ?_
      exact .bind (.modify ⟨.refl _, rfl⟩) fun _ t ht => .of_run_eq_ok rfl ht
    obtain ⟨ids, u, hrest, hu⟩ := ih t
    exact ⟨id :: ids, u, run_mapM_cons_eq_ok.2 ⟨id, t, ids, hrun, hrest, rfl⟩,
      ((hadd b).ok hrun).trans hu⟩

/-- A function can always be opened. It is written into the table of functions, and the variables
outside are kept for later. -/
theorem exists_run_beginFunction (name : String) (params : List (String × Kind)) (returns : Kind)
    (b : Builder) : ∃ function t, (beginFunction name params returns).run b = .ok function t ∧
      function.outer = b.scope ∧ b.graph.Extends t.graph ∧
      t.functions = b.functions.insert name ⟨params.map (·.2), returns⟩ := by
  obtain ⟨ids, t, hparams, ht⟩ := exists_run_parameters params
    { b with functions := b.functions.insert name ⟨params.map (·.2), returns⟩ }
  refine ⟨⟨name, ids, returns, b.scope⟩, t, ?_, rfl, ht.nodes, ht.functions⟩
  refine run_bind_eq_ok.2 ⟨(), _, rfl, run_bind_eq_ok.2 ⟨_, _, rfl, ?_⟩⟩
  exact run_bind_eq_ok.2 ⟨ids, t, hparams, rfl⟩

/-- However a function is closed, the variables outside come back and the other functions stay. -/
theorem endFunction_meets (function : OpenFunction) (body : Except (Stop ProgramError) (List NodeId))
    (b : Builder) : Meets (fun _ t => t.scope = function.outer ∧ b.Widens t)
      (endFunction function body) b fun _ t => t.scope = function.outer ∧ b.Widens t := by
  have hclosed : b.Widens { b with scope := function.outer } := ⟨.refl _, rfl⟩
  refine .bind (.modify (Q := fun _ t => t = { b with scope := function.outer }) rfl) fun _ t ht => ?_
  subst ht
  cases body with
  | error e => exact .throw ⟨rfl, hclosed⟩
  | ok block =>
    have hblock : AddsNodes (expectBlock block >>= fun _ =>
        add (.functionDef function.name function.params block function.returns)) :=
      (addsNodes_expectBlock block).bind fun _ => .add _
    have hmeets := (hblock { b with scope := function.outer }).mono fun _ _ hu =>
      And.intro hu.scope (hclosed.trans hu.toWidens)
    exact hmeets.mono_error fun _ _ hu => ⟨hu.scope, hclosed.trans hu.toWidens⟩

end BuildM

/-! ## Clients -/

/-- An operation of the builder that opens no function. -/
inductive Operation where
  | arithmetic (symbol : String) (lhs rhs : Operand)
  | call (name : String) (args : List Operand)
  | compare (op : CompareOp) (lhs rhs : Operand)
  | setVariable (name : String) (value : Operand)
  | initVariable (name : String)
  | setArray (name : String) (length : Nat) (value : Option Operand)
  | updateElement (name : String) (index : Nat) (value : Operand)
  | debug (text : String)
  | ifElse (condition : NodeId) (thenBlock elseBlock : List NodeId)
  | whileLoop (condition : NodeId) (body : List NodeId)

/-- Applies an operation. -/
def Operation.apply : Operation → BuildM NodeId
  | arithmetic symbol lhs rhs => BuildM.arithmetic symbol lhs rhs
  | call name args => BuildM.call name args
  | compare op lhs rhs => BuildM.compare op lhs rhs
  | setVariable name value => BuildM.setVariable name value
  | initVariable name => BuildM.initVariable name
  | setArray name length value => BuildM.setArray name length value
  | updateElement name index value => BuildM.updateElement name index value
  | debug text => BuildM.debug text
  | ifElse condition thenBlock elseBlock => BuildM.ifElse condition thenBlock elseBlock
  | whileLoop condition body => BuildM.whileLoop condition body

/-- Each operation adds nodes and variables at most, and no variable if it is refused. -/
theorem Operation.heeds_apply (op : Operation) : op.apply.Heeds := by
  cases op with
  | arithmetic symbol lhs rhs => exact (BuildM.addsNodes_arithmetic symbol lhs rhs).heeds
  | call name args => exact (BuildM.addsNodes_call name args).heeds
  | compare op lhs rhs => exact (BuildM.addsNodes_compare op lhs rhs).heeds
  | setVariable name value => exact BuildM.heeds_setVariable name value
  | initVariable name => exact BuildM.heeds_setVariable name (.number 0)
  | setArray name length value => exact BuildM.heeds_setArray name length value
  | updateElement name index value => exact (BuildM.addsNodes_updateElement name index value).heeds
  | debug text => exact (BuildM.AddsNodes.add (.debug text)).heeds
  | ifElse condition thenBlock elseBlock =>
    exact (BuildM.addsNodes_ifElse condition thenBlock elseBlock).heeds
  | whileLoop condition body => exact (BuildM.addsNodes_whileLoop condition body).heeds

/-- The table of functions after some have been opened, the later ones on top. -/
def Signature.enter (functions : NameMap Signature) (heads : List (String × Signature)) :
    NameMap Signature :=
  heads.foldl (fun functions head => functions.insert head.1 head.2) functions

/-- A function has the signature it was opened with last, or else the one from before. -/
theorem Signature.getElem?_enter (functions : NameMap Signature) (heads : List (String × Signature))
    (x : String) : (enter functions heads)[x]? = (heads.reverse.lookup x).or functions[x]? := by
  induction heads generalizing functions with
  | nil => rfl
  | cons head heads ih =>
    obtain ⟨name, signature⟩ := head
    have hhead : (functions.insert name signature)[x]? =
        (List.lookup x [(name, signature)]).or functions[x]? := by
      by_cases hx : x = name
      · simp [hx]
      · simp [Std.TreeMap.getElem?_insert, List.lookup_cons, beq_false_of_ne hx, Ne.symm hx]
    rw [List.reverse_cons, List.lookup_append, Option.or_assoc, ← hhead]
    exact ih _

/-- The builder has been given nodes and variables, and functions with the given heads, in this
order. -/
structure Builder.Gains (heads : List (String × Signature)) (b t : Builder) : Prop where
  nodes : b.graph.Extends t.graph
  functions : t.functions = Signature.enter b.functions heads

theorem Builder.Widens.gains {b t : Builder} (h : b.Widens t) : Builder.Gains [] b t :=
  ⟨h.nodes, h.functions⟩

/-- Functions opened in two stretches are opened in the order of the stretches. -/
theorem Builder.Gains.trans {heads heads' : List (String × Signature)} {b t u : Builder}
    (h : Builder.Gains heads b t) (h' : Builder.Gains heads' t u) :
    Builder.Gains (heads ++ heads') b u where
  nodes := h.nodes.trans h'.nodes
  functions := by rw [h'.functions, h.functions, Signature.enter, Signature.enter, Signature.enter,
    List.foldl_append]

namespace BuildM

variable {α β : Type} {b : Builder}

/-- The functions that a client opens, with their signatures, in the order in which they are
opened. -/
inductive Begins : {α : Type} → BuildM α → Builder → List (String × Signature) → Prop
  | pure {α : Type} (a : α) (b : Builder) : Begins (pure a) b []
  | throw {α : Type} (e : Stop ProgramError) (b : Builder) : Begins (throw e : BuildM α) b []
  | get (b : Builder) : Begins get b []
  | bind_ok {α β : Type} {m : BuildM α} {f : α → BuildM β} {b t : Builder} {a : α}
    {heads heads' : List (String × Signature)} (hm : Begins m b heads) (hrun : m.run b = .ok a t)
    (hf : Begins (f a) t heads') : Begins (m >>= f) b (heads ++ heads')
  | bind_error {α β : Type} {m : BuildM α} {f : α → BuildM β} {b t : Builder} {e : Stop ProgramError}
    {heads : List (String × Signature)} (hm : Begins m b heads) (hrun : m.run b = .error e t) :
    Begins (m >>= f) b heads
  | outcome {α : Type} {m : BuildM α} {b : Builder} {heads : List (String × Signature)}
    (hm : Begins m b heads) : Begins (outcome m) b heads
  | operation (op : Operation) (b : Builder) : Begins op.apply b []
  | defineFunction {name : String} {params : List (String × Kind)} {returns : Kind}
    {body : BuildM (List NodeId)} {b t : Builder} {function : OpenFunction}
    {heads : List (String × Signature)}
    (hopen : (beginFunction name params returns).run b = .ok function t)
    (hbody : Begins body t heads) :
    Begins (defineFunction name params returns body) b
      ((name, ⟨params.map (·.2), returns⟩) :: heads)

theorem leaves_of_run_ok {m : BuildM α} {a : α} {t : Builder} (h : m.run b = .ok a t) :
    m.leaves b = t := by
  rw [leaves, h]

theorem leaves_of_run_error {m : BuildM α} {e : Stop ProgramError} {t : Builder}
    (h : m.run b = .error e t) : m.leaves b = t := by
  rw [leaves, h]

theorem leaves_bind {m : BuildM α} {f : α → BuildM β} {a : α} {t : Builder}
    (h : m.run b = .ok a t) : (m >>= f).leaves b = (f a).leaves t := by
  rw [leaves, run_bind_ok h, leaves]

/-- Catching a failure does not change what is left. -/
theorem leaves_outcome (m : BuildM α) (b : Builder) : (outcome m).leaves b = m.leaves b := by
  cases h : m.run b with
  | ok a t => rw [leaves_of_run_ok (run_outcome_ok h), leaves_of_run_ok h]
  | error e t => rw [leaves_of_run_ok (run_outcome_error h), leaves_of_run_error h]

/-- What is caught always succeeds, with what the operation left. -/
theorem exists_run_outcome (m : BuildM α) (b : Builder) :
    ∃ r, (outcome m).run b = .ok r (m.leaves b) := by
  cases h : m.run b with
  | ok a t => exact ⟨_, leaves_of_run_ok h ▸ run_outcome_ok h⟩
  | error e t => exact ⟨_, leaves_of_run_error h ▸ run_outcome_error h⟩

/-- What is true of the builder at both ends is true of what is left. -/
theorem leaves_of_meets {m : BuildM α} {P : Builder → Prop}
    (h : Meets (fun _ t => P t) m b fun _ t => P t) : P (m.leaves b) := by
  cases hrun : m.run b with
  | ok a t => exact leaves_of_run_ok hrun ▸ h.ok hrun
  | error e t => exact leaves_of_run_error hrun ▸ h.error hrun

theorem Heeds.widens_leaves {m : BuildM α} (h : Heeds m) (b : Builder) : b.Widens (m.leaves b) :=
  leaves_of_meets ((h b).mono_error fun _ _ ht => ht.1)

/-- The definition of a function leaves the variables outside, and what its body has left else. -/
theorem leaves_defineFunction {name : String} {params : List (String × Kind)} {returns : Kind}
    (body : BuildM (List NodeId)) {function : OpenFunction} {t : Builder}
    (hopen : (beginFunction name params returns).run b = .ok function t) :
    ((defineFunction name params returns body).leaves b).scope = function.outer ∧
      (body.leaves t).Widens ((defineFunction name params returns body).leaves b) := by
  obtain ⟨r, hbody⟩ := exists_run_outcome body t
  rw [defineFunction, leaves_bind hopen, leaves_bind hbody]
  exact leaves_of_meets (endFunction_meets function r _)

/-- A client writes the functions that it opens into the table, and takes none of them back. -/
theorem Begins.gains {m : BuildM α} {heads : List (String × Signature)} (h : Begins m b heads) :
    Builder.Gains heads b (m.leaves b) := by
  induction h with
  | pure | throw | get => exact (Builder.Spares.refl _).toWidens.gains
  | bind_ok _ hrun _ ihm ihf =>
    rw [leaves_bind hrun]
    rw [leaves_of_run_ok hrun] at ihm
    exact ihm.trans ihf
  | bind_error _ hrun ih =>
    rw [leaves_of_run_error (run_bind_eq_error.2 (.inl hrun))]
    rwa [leaves_of_run_error hrun] at ih
  | outcome _ ih => rwa [leaves_outcome]
  | operation op b => exact (op.heeds_apply.widens_leaves b).gains
  | @defineFunction name params returns body b t function heads hopen _ ih =>
    obtain ⟨function', t', hopen', -, hnodes, hfunctions⟩ :=
      exists_run_beginFunction name params returns b
    cases hopen.symm.trans hopen'
    have hopened : Builder.Gains [(name, ⟨params.map (·.2), returns⟩)] b t := ⟨hnodes, hfunctions⟩
    have hclosed := (leaves_defineFunction body hopen).2.gains
    simpa using hopened.trans (ih.trans hclosed)

/-- A client opens some functions. -/
theorem Client.exists_begins {m : BuildM α} (h : Client m) (b : Builder) : ∃ heads, Begins m b heads := by
  induction h generalizing b with
  | pure => exact ⟨_, .pure _ b⟩
  | throw => exact ⟨_, .throw _ b⟩
  | @bind α β m f _ _ ihm ihf =>
    obtain ⟨heads, hm⟩ := ihm b
    cases hrun : m.run b with
    | ok a t =>
      obtain ⟨heads', hf⟩ := ihf a t
      exact ⟨_, .bind_ok hm hrun hf⟩
    | error e t => exact ⟨_, .bind_error hm hrun⟩
  | get => exact ⟨_, .get b⟩
  | outcome _ ih =>
    obtain ⟨heads, hm⟩ := ih b
    exact ⟨_, .outcome hm⟩
  | arithmetic symbol lhs rhs => exact ⟨_, .operation (.arithmetic symbol lhs rhs) b⟩
  | call name args => exact ⟨_, .operation (.call name args) b⟩
  | compare op lhs rhs => exact ⟨_, .operation (.compare op lhs rhs) b⟩
  | setVariable name value => exact ⟨_, .operation (.setVariable name value) b⟩
  | initVariable name => exact ⟨_, .operation (.initVariable name) b⟩
  | setArray name length value => exact ⟨_, .operation (.setArray name length value) b⟩
  | updateElement name index value => exact ⟨_, .operation (.updateElement name index value) b⟩
  | debug text => exact ⟨_, .operation (.debug text) b⟩
  | ifElse condition thenBlock elseBlock =>
    exact ⟨_, .operation (.ifElse condition thenBlock elseBlock) b⟩
  | whileLoop condition body => exact ⟨_, .operation (.whileLoop condition body) b⟩
  | defineFunction name params returns _ ih =>
    obtain ⟨function, t, hopen, -⟩ := exists_run_beginFunction name params returns b
    obtain ⟨heads, hbody⟩ := ih t
    exact ⟨_, .defineFunction hopen hbody⟩

end BuildM

namespace Builder

open BuildM

/-- An operation that is refused leaves the variables and the nodes, and the functions unless it is
the definition of a function. The definition of a function leaves the functions that it has opened,
so the table is as before exactly if each of them had the same signature before. -/
theorem refused_operation {b t : Builder} {why : ProgramError} :
    (∀ op : Operation, op.apply.run b = .error (.error why) t →
      t.scope = b.scope ∧ t.functions = b.functions ∧ b.graph.Extends t.graph) ∧
    ∀ (name : String) (params : List (String × Kind)) (returns : Kind) (body : BuildM (List NodeId)),
      body.Client → (defineFunction name params returns body).run b = .error (.error why) t →
      t.scope = b.scope ∧ b.graph.Extends t.graph ∧
      ∃ heads, Begins (defineFunction name params returns body) b heads ∧
        (∀ x : String, t.functions[x]? = (heads.reverse.lookup x).or b.functions[x]?) ∧
        ((∀ x : String, t.functions[x]? = b.functions[x]?) ↔ ∀ x signature,
          heads.reverse.lookup x = some signature → b.functions[x]? = some signature) := by
  constructor
  · intro op hrun
    have hspares := (op.heeds_apply b).error hrun |>.2 why rfl
    exact ⟨hspares.scope, hspares.functions, hspares.nodes⟩
  · intro name params returns body hbody hrun
    have hclient := Client.defineFunction name params returns hbody
    obtain ⟨heads, hheads⟩ := hclient.exists_begins b
    obtain ⟨function, u, hopen, houter, -⟩ := exists_run_beginFunction name params returns b
    have hscope := (leaves_defineFunction body hopen).1
    have hgains := hheads.gains
    rw [leaves_of_run_error hrun] at hscope hgains
    have hfunctions (x : String) : t.functions[x]? = (heads.reverse.lookup x).or b.functions[x]? := by
      rw [hgains.functions, Signature.getElem?_enter]
    refine ⟨hscope.trans houter, hgains.nodes, heads, hheads, hfunctions, ?_⟩
    constructor
    · intro hsame x signature hlast
      rw [← hsame x, hfunctions x, hlast, Option.some_or]
    · intro hknown x
      rw [hfunctions x]
      cases hlast : heads.reverse.lookup x with
      | none => rw [Option.none_or]
      | some signature => rw [Option.some_or, hknown x signature hlast]

/-- A function of one parameter, and a variable. -/
def oneFunction : BuildM Unit := do
  let _ ← defineFunction "f" [("n", .scalar)] .scalar (return [])
  let _ ← setVariable "x" (.number 1)

/-- A body that defines a variable and a function before it fails. -/
def failsLate : BuildM (List NodeId) := do
  let x ← setArray "x" 2 none
  let g ← defineFunction "g" [] .array (return [])
  let _ ← arithmetic "+" (.name "missing") (.number 1)
  return [x, g]

theorem failsLate_client : failsLate.Client :=
  .bind (.setArray ..) fun _ => .bind (.defineFunction _ _ _ (.pure _)) fun _ =>
    .bind (.arithmetic ..) fun _ => .pure _

/-- Defined again by a body that fails, the function takes no parameter any more, and the one inside
is left beside it. -/
theorem refused_operation_failsLate :
    ∃ a b, oneFunction.run .empty = .ok a b ∧
      (∃ e t, (Operation.setArray "x" 2 (some (.number 5))).apply.run b = .error e t ∧
        e = .error (.kindMismatch (.assignment "x") .array .scalar) ∧
        t.scope = b.scope ∧ t.functions = b.functions ∧ b.graph.Extends t.graph) ∧
      failsLate.Client ∧
      ∃ e t, (defineFunction "f" [] .scalar failsLate).run b = .error e t ∧
        e = .error (.unknownVariable "missing") ∧ t.scope = b.scope ∧ b.graph.Extends t.graph ∧
        b.functions["f"]? = some ⟨[.scalar], .scalar⟩ ∧ t.functions["f"]? = some ⟨[], .scalar⟩ ∧
        b.functions["g"]? = none ∧ t.functions["g"]? = some ⟨[], .array⟩ ∧
        ∃ heads, Begins (defineFunction "f" [] .scalar failsLate) b heads ∧
          ¬ ∀ x signature, heads.reverse.lookup x = some signature →
            b.functions[x]? = some signature := by
  have hruns : ∃ a b, oneFunction.run .empty = .ok a b ∧
      (∃ e t, (Operation.setArray "x" 2 (some (.number 5))).apply.run b = .error e t ∧
        e = .error (.kindMismatch (.assignment "x") .array .scalar)) ∧
      ∃ e t, (defineFunction "f" [] .scalar failsLate).run b = .error e t ∧
        e = .error (.unknownVariable "missing") ∧
        b.functions["f"]? = some ⟨[.scalar], .scalar⟩ ∧ t.functions["f"]? = some ⟨[], .scalar⟩ ∧
        b.functions["g"]? = none ∧ t.functions["g"]? = some ⟨[], .array⟩ := by decide +kernel
  obtain ⟨a, b, hb, ⟨_, t, ht, rfl⟩, _, u, hu, rfl, hf, hf', hg, hg'⟩ := hruns
  obtain ⟨hscope, hnodes, heads, hheads, -, hiff⟩ :=
    refused_operation.2 "f" [] .scalar failsLate failsLate_client hu
  refine ⟨a, b, hb, ⟨_, t, ht, rfl, refused_operation.1 _ ht⟩, failsLate_client, _, u, hu, rfl,
    hscope, hnodes, hf, hf', hg, hg', heads, hheads, fun hknown => ?_⟩
  cases hg.symm.trans ((hiff.2 hknown "g").symm.trans hg')

/-- A function whose body has been refused can be called, and could not be called before. -/
theorem call_of_refused_definition :
    (∃ e b, (call "f" []).run .empty = .error e b ∧ e = .error (.unknownFunction "f")) ∧
    ∃ e b, (defineFunction "f" [] .scalar do
        return [← arithmetic "+" (.name "x") (.number 1)]).run .empty = .error e b ∧
      e = .error (.unknownVariable "x") ∧ ∃ id t, (call "f" []).run b = .ok id t := by
  decide +kernel

end Builder

end RegisterBackend
