import RegisterBackend.Program.Builder
import RegisterBackend.Proofs.SoundGraphs

/-!
# What can be built

A client of the builder works on it by its operations only (`BuildM.Client`). It may look at the
builder, go on after an operation that has failed, and define functions whose bodies are clients in
turn. The builder looks at the kinds and roles of what it is given before it adds a node, so each
operation keeps the nodes and leaves a sound graph, also if it fails (`BuildM.Builds`), and so does
a client (`BuildM.Client.builds`).

What the builder does not look at is whether an index is below the length of an array and whether an
array has the length that is declared, nor what stands in the body of a program in the end. So a
program is refused for these reasons only (`Builder.client_leaves_sound`).
-/

namespace RegisterBackend

/-! ## Operations -/

/-- The other graph is sound and has the nodes of the graph. -/
structure Graph.Grows (g g' : Graph) : Prop where
  sound : g'.Sound
  keeps : g.Extends g'

theorem Graph.Sound.grows {g : Graph} (h : g.Sound) : g.Grows g :=
  ⟨h, .refl g⟩

theorem Graph.Grows.trans {g g₁ g₂ : Graph} (h : g.Grows g₁) (h₁ : g₁.Grows g₂) : g.Grows g₂ :=
  ⟨h₁.sound, h.keeps.trans h₁.keeps⟩

namespace BuildM

variable {α β : Type} {b : Builder}

/-- An operation that succeeds has its result as the outcome. -/
theorem run_outcome_ok {m : BuildM α} {a : α} {t : Builder} (h : m.run b = .ok a t) :
    (outcome m).run b = .ok (.ok a) t := by
  simp only [outcome, EStateM.run, tryCatch, tryCatchThe, MonadExceptOf.tryCatch, EStateM.tryCatch,
    bind, EStateM.bind] at h ⊢
  rw [h]
  rfl

/-- An operation that fails has its error as the outcome, and keeps what it did before. -/
theorem run_outcome_error {m : BuildM α} {e : Stop ProgramError} {t : Builder}
    (h : m.run b = .error e t) : (outcome m).run b = .ok (.error e) t := by
  simp only [outcome, EStateM.run, tryCatch, tryCatchThe, MonadExceptOf.tryCatch, EStateM.tryCatch,
    bind, EStateM.bind] at h ⊢
  rw [h]
  rfl

/-- The operation keeps the nodes and leaves a sound graph, also if it fails. If it does not, its
result has a property in that graph. -/
def Builds (m : BuildM α) (b : Builder) (Q : α → Graph → Prop) : Prop :=
  Meets (fun _ t => b.graph.Grows t.graph) m b fun a t => b.graph.Grows t.graph ∧ Q a t.graph

namespace Builds

variable {Q : α → Graph → Prop} {R : β → Graph → Prop}

theorem pure {a : α} (hb : b.graph.Sound) (hQ : Q a b.graph) : Builds (pure a) b Q :=
  Meets.of_run_eq_ok rfl ⟨hb.grows, hQ⟩

theorem throw {e : Stop ProgramError} (hb : b.graph.Sound) : Builds (throw e) b Q :=
  Meets.throw hb.grows

theorem reject {e : ProgramError} (hb : b.graph.Sound) : Builds (reject e) b Q :=
  throw hb

/-- Less may be said of the result. -/
theorem mono {m : BuildM α} {R : α → Graph → Prop} (h : Builds m b Q)
    (hQR : ∀ a g, b.graph.Grows g → Q a g → R a g) : Builds m b R where
  ok hrun := ⟨(h.ok hrun).1, hQR _ _ (h.ok hrun).1 (h.ok hrun).2⟩
  error := h.error

/-- The second operation begins with the graph that the first one leaves, and may use what is said
of it. -/
theorem bind {m : BuildM α} {f : α → BuildM β} (h : Builds m b Q)
    (hf : ∀ a t, b.graph.Grows t.graph → Q a t.graph → Builds (f a) t R) :
    Builds (m >>= f) b R := by
  refine Meets.bind h fun a t ⟨hgrows, hQ⟩ => ?_
  have hfa := hf a t hgrows hQ
  constructor
  · intro c u hrun
    obtain ⟨hgrows', hR⟩ := hfa.ok hrun
    exact ⟨hgrows.trans hgrows', hR⟩
  · intro e u hrun
    exact hgrows.trans (hfa.error hrun)

/-- What does not touch the graph can be done first. -/
theorem modify_bind {f : Builder → Builder} {m : Unit → BuildM β} (hf : (f b).graph = b.graph)
    (h : Builds (m ()) (f b) R) : Builds (modify f >>= m) b R := by
  unfold Builds at h
  rw [hf] at h
  exact Meets.bind (Q := fun _ t => t = f b) (.modify rfl) fun _ _ ht => ht ▸ h

theorem get_bind {f : Builder → BuildM β} (h : Builds (f b) b R) : Builds (get >>= f) b R :=
  Meets.get_bind h

/-- A question to the graph leaves it as it is. -/
theorem look {f : Graph → Except (Stop ProgramError) α} (hb : b.graph.Sound)
    (hf : ∀ a, f b.graph = .ok a → Q a b.graph) : Builds (look f) b Q := by
  refine get_bind ?_
  split
  next a ha => exact pure hb (hf a ha)
  next => exact throw hb

/-- A node that fits can be added, and is found under the identity that is returned. -/
theorem add {node : Node} (hb : b.graph.Sound) (hfits : b.graph.Fits node) :
    Builds (add node) b fun id g => g.node? id = some node := by
  refine get_bind ?_
  split
  next id g hadd =>
    refine Meets.of_run_eq_ok rfl ⟨⟨hb.add hfits hadd, Graph.extends_add hadd⟩, ?_⟩
    show g.node? id = some node
    rw [(Graph.node?_add hadd).2, if_pos rfl]
  next => exact throw hb

/-- A node that fits is added as the last step. -/
theorem node {node : Node} (hb : b.graph.Sound) (hfits : b.graph.Fits node) :
    Builds (BuildM.add node) b fun _ _ => True :=
  (add hb hfits).mono fun _ _ _ _ => trivial

/-- The results of several steps keep a property that is kept in graphs with more nodes. -/
theorem mapM {f : α → BuildM β} {R : Graph → β → Prop} {l : List α}
    (hR : ∀ {g g' : Graph} {a}, g.Extends g' → R g a → R g' a)
    (hf : ∀ a t, t.graph.Sound → Builds (f a) t fun r g => R g r) (hb : b.graph.Sound) :
    Builds (l.mapM f) b fun rs g => ∀ r ∈ rs, R g r := by
  induction l generalizing b with
  | nil => exact pure hb nofun
  | cons a l ih =>
    rw [List.mapM_cons]
    refine bind (hf a b hb) fun r t ht hr => bind (ih ht.sound) fun rs u hu hrs => pure hu.sound ?_
    exact List.forall_mem_cons.2 ⟨hR hu.keeps hr, hrs⟩

/-- What several steps establish stays, if it is kept in graphs with more nodes. -/
theorem forM {f : α → BuildM Unit} {R : Graph → α → Prop} {l : List α}
    (hR : ∀ {g g' : Graph} {a}, g.Extends g' → R g a → R g' a)
    (hf : ∀ a t, t.graph.Sound → Builds (f a) t fun _ g => R g a) (hb : b.graph.Sound) :
    Builds (l.forM f) b fun _ g => ∀ a ∈ l, R g a := by
  induction l generalizing b with
  | nil => exact pure hb nofun
  | cons a l ih =>
    show Builds (f a >>= fun _ => l.forM f) b _
    refine bind (hf a b hb) fun _ t ht ha => ?_
    exact (ih ht.sound).mono fun _ g hg hl => List.forall_mem_cons.2 ⟨hR hg.keeps ha, hl⟩

/-- An operation that is caught leaves what it left. -/
theorem outcome {m : BuildM α} (h : Builds m b Q) :
    Builds (outcome m) b fun r g => ∀ a, r = .ok a → Q a g := by
  cases hm : m.run b with
  | ok a t =>
    obtain ⟨hgrows, hQ⟩ := h.ok hm
    refine Meets.of_run_eq_ok (run_outcome_ok hm) ⟨hgrows, fun a' ha' => ?_⟩
    cases ha'
    exact hQ
  | error e t => exact Meets.of_run_eq_ok (run_outcome_error hm) ⟨h.error hm, nofun⟩

end Builds

/-! ### Expressions -/

/-- Looking a variable up leaves the graph as it is. -/
theorem variableInfo_builds (hb : b.graph.Sound) (name : String) :
    Builds (variableInfo name) b fun _ _ => True := by
  refine .get_bind ?_
  split
  next => exact .pure hb trivial
  next => exact .reject hb

/-- An operand is an evaluable of the kind that comes with it. -/
theorem operand_builds (hb : b.graph.Sound) (o : Operand) :
    Builds (operand o) b fun r g => g.Evaluates r.1 r.2 := by
  cases o with
  | number value =>
    refine .bind (.add hb nofun) fun id t ht hid => .pure ht.sound ?_
    exact Graph.checkExpr_eq_ok.2 (.constant hid nofun)
  | array elements =>
    simp only [operand]
    split
    next l hl =>
      obtain ⟨hrange, hkind⟩ := Literal.inRange_ofElements hl
      refine .bind (.add hb hrange) fun id t ht hid => .pure ht.sound ?_
      have hid : t.graph.Evaluates id l.kind := Graph.checkExpr_eq_ok.2 (.constant hid hrange)
      rwa [hkind] at hid
    next => exact .reject hb
  | name name =>
    refine .bind (variableInfo_builds hb name) fun info t ht _ => ?_
    refine .bind (.add ht.sound trivial) fun id u hu hid => .pure hu.sound ?_
    exact Graph.checkExpr_eq_ok.2 (.var hid)
  | node id =>
    refine .bind (Q := fun k g => ∀ kind, k = some kind → g.Evaluates id kind)
      (.look hb fun k hk kind hkind => ?_) fun k t ht hk => ?_
    · subst hkind
      cases hfound : b.graph.kind? id with
      | ok found =>
        rw [hfound] at hk
        cases hk
        exact hb.evaluates_of_kind? hfound
      | error e =>
        rw [hfound] at hk
        cases hk
    · cases k with
      | some kind => exact .pure ht.sound (hk kind rfl)
      | none =>
        refine .bind (Q := fun _ _ => True) (.look ht.sound fun _ _ => trivial) fun _ u hu _ => ?_
        exact .reject hu.sound

/-- Two operands of one kind stand in a node that takes such. -/
theorem operands_builds (hb : b.graph.Sound) (lhs rhs : Operand) {node : NodeId → NodeId → Node}
    {refusal : Kind → Kind → ProgramError}
    (hfits : ∀ {g : Graph} {k left right}, g.Evaluates left k → g.Evaluates right k →
      g.Fits (node left right)) :
    Builds (operand lhs >>= fun l => operand rhs >>= fun r =>
      if l.2 = r.2 then add (node l.1 r.1) else reject (refusal l.2 r.2)) b fun _ _ => True := by
  refine .bind (operand_builds hb lhs) fun l t ht hleft => ?_
  refine .bind (operand_builds ht.sound rhs) fun r u hu hright => ?_
  split
  next heq =>
    rw [← heq] at hright
    exact .node hu.sound (hfits (hleft.extend hu.keeps) hright)
  next => exact .reject hu.sound

/-- An arithmetic node is made of two operands of one kind. -/
theorem arithmetic_builds (hb : b.graph.Sound) (symbol : String) (lhs rhs : Operand) :
    Builds (arithmetic symbol lhs rhs) b fun _ _ => True := by
  unfold arithmetic
  split
  next => exact .reject hb
  next => exact operands_builds hb lhs rhs fun hleft hright => ⟨_, hleft, hright⟩

theorem compare_builds (hb : b.graph.Sound) (op : CompareOp) (lhs rhs : Operand) :
    Builds (compare op lhs rhs) b fun _ _ => True :=
  operands_builds hb lhs rhs fun hleft hright => ⟨_, hleft, hright⟩

/-- An argument is an evaluable. -/
theorem argument_builds (hb : b.graph.Sound) (function : String) (arg : Operand) (expected : Kind) :
    Builds (argument function arg expected) b fun id g => ∃ k, g.Evaluates id k := by
  refine .bind (operand_builds hb arg) fun r t ht hr => ?_
  obtain ⟨id, kind⟩ := r
  dsimp only at hr ⊢
  split
  next => exact .pure ht.sound ⟨kind, hr⟩
  next => exact .reject ht.sound

/-- A call is made of arguments that are evaluables. -/
theorem call_builds (hb : b.graph.Sound) (name : String) (args : List Operand) :
    Builds (call name args) b fun _ _ => True := by
  refine .get_bind ?_
  split
  next => exact .reject hb
  next signature =>
    split
    next =>
      refine .bind (.mapM (R := fun g id => ∃ k, g.Evaluates id k)
        (fun hg ⟨k, hk⟩ => ⟨k, hk.extend hg⟩)
        (fun a t ht => argument_builds ht name a.1 a.2) hb) fun ids t ht hids => ?_
      exact .node ht.sound hids
    next => exact .reject hb

/-! ### Statements -/

/-- An operand is assigned to a variable of its kind, which is defined first. -/
theorem assignment_builds (hb : b.graph.Sound) (value : Operand) (v : Variable) (info : VariableInfo)
    (refusal : Kind → ProgramError) :
    Builds (operand value >>= fun r =>
      if r.2 = v.kind then add (.var v) >>= fun target => define v.name info >>= fun _ =>
        add (.assign target r.1)
      else reject (refusal r.2)) b fun _ _ => True := by
  refine .bind (operand_builds hb value) fun r t ht hr => ?_
  split
  next hkind =>
    rw [hkind] at hr
    refine .bind (.add ht.sound trivial) fun target u hu htarget => .modify_bind rfl ?_
    exact .node hu.sound ⟨v, htarget, hr.extend hu.keeps⟩
  next => exact .reject ht.sound

theorem setVariable_builds (hb : b.graph.Sound) (name : String) (value : Operand) :
    Builds (setVariable name value) b fun _ _ => True :=
  assignment_builds hb value (.scalar name) _ _

/-- An array is assigned a constant or an operand, and its variable is defined first. -/
theorem setArray_builds (hb : b.graph.Sound) (name : String) (length : Nat)
    (value : Option Operand) : Builds (setArray name length value) b fun _ _ => True := by
  unfold setArray
  extract_lets value rest
  have hrest : Builds (rest ()) b fun _ _ => True :=
    assignment_builds hb value (.array name length) _ _
  clear_value rest value
  split
  next elements =>
    split
    next => exact .bind (Q := fun _ _ => False) (.reject hb) fun _ _ _ h => h.elim
    next => exact hrest
  next => exact hrest

/-- An element is assigned an operand that is an evaluable. -/
theorem updateElement_builds (hb : b.graph.Sound) (name : String) (index : Nat) (value : Operand) :
    Builds (updateElement name index value) b fun _ _ => True := by
  refine .bind (variableInfo_builds hb name) fun info t ht _ => ?_
  split
  next =>
    refine .bind (operand_builds ht.sound value) fun r u hu hr => ?_
    obtain ⟨id, kind⟩ := r
    dsimp only at hr ⊢
    split
    next hkind =>
      subst hkind
      refine .bind (.add hu.sound trivial) fun target w hw htarget => ?_
      exact .node hw.sound ⟨_, htarget, rfl, hr.extend hw.keeps⟩
    next => exact .reject hu.sound
  next => exact .reject ht.sound

/-! ### Blocks -/

/-- What passes as a condition is a comparison. -/
theorem expectCondition_builds (hb : b.graph.Sound) (id : NodeId) :
    Builds (expectCondition id) b fun _ g => g.IsComparison id := by
  refine .bind (Q := fun node g => g.node? id = some node)
    (.look hb fun node hnode => Graph.fetch_eq_ok.1 hnode) fun node t ht hnode => ?_
  split
  next => exact .pure ht.sound ⟨_, _, _, hnode⟩
  next => exact .reject ht.sound

/-- What passes as a block consists of statements. -/
theorem expectBlock_builds (hb : b.graph.Sound) (block : List NodeId) :
    Builds (expectBlock block) b fun _ g => ∀ id ∈ block, g.IsStatement id := by
  refine .forM (R := Graph.IsStatement) (fun hg hid => hid.extend hg) (fun id t ht => ?_) hb
  refine .bind (Q := fun node g => g.node? id = some node)
    (.look ht fun node hnode => Graph.fetch_eq_ok.1 hnode) fun node u hu hnode => ?_
  split
  next hrole => exact .pure hu.sound ⟨node, hnode, hrole⟩
  next => exact .reject hu.sound

/-- A branch is made only of a comparison and two blocks of statements. -/
theorem ifElse_builds (hb : b.graph.Sound) (condition : NodeId) (thenBlock elseBlock : List NodeId) :
    Builds (ifElse condition thenBlock elseBlock) b fun _ _ => True := by
  refine .bind (expectCondition_builds hb condition) fun _ t ht hcond => ?_
  refine .bind (expectBlock_builds ht.sound thenBlock) fun _ u hu hthen => ?_
  refine .bind (expectBlock_builds hu.sound elseBlock) fun _ w hw helse => ?_
  have hcond := hcond.extend (hu.trans hw).keeps
  have hthen := fun c hc => (hthen c hc).extend hw.keeps
  exact .node hw.sound ⟨hcond, hthen, helse⟩

/-- A loop is made only of a comparison and a block of statements. -/
theorem whileLoop_builds (hb : b.graph.Sound) (condition : NodeId) (body : List NodeId) :
    Builds (whileLoop condition body) b fun _ _ => True := by
  refine .bind (expectCondition_builds hb condition) fun _ t ht hcond => ?_
  refine .bind (expectBlock_builds ht.sound body) fun _ u hu hbody => ?_
  exact .node hu.sound ⟨hcond.extend hu.keeps, hbody⟩

/-! ### Functions -/

/-- The node of a parameter is a variable. -/
theorem parameter_builds (hb : b.graph.Sound) (name : String) (kind : Kind) :
    Builds (parameter name kind) b fun id g => g.IsVariable id := by
  refine .bind (.add hb trivial) fun id t ht hid => .modify_bind rfl ?_
  exact .pure ht.sound ⟨_, hid⟩

/-- The parameters of a function that is opened are variables, and stay so while nodes are added. -/
theorem beginFunction_builds (hb : b.graph.Sound) (name : String) (params : List (String × Kind))
    (returns : Kind) : Builds (beginFunction name params returns) b fun function g =>
      ∀ id ∈ function.params, g.IsVariable id := by
  refine .modify_bind rfl (.get_bind ?_)
  refine .bind (.mapM (R := Graph.IsVariable) (fun hg hid => hid.extend hg)
    (fun param t ht => parameter_builds ht param.1 param.2) hb) fun ids t ht hids => ?_
  exact .pure ht.sound hids

/-- A function is made of parameters that are variables and a body that consists of statements, and
a failed body makes none. -/
theorem endFunction_builds (hb : b.graph.Sound) {function : OpenFunction}
    (hparams : ∀ id ∈ function.params, b.graph.IsVariable id)
    (body : Except (Stop ProgramError) (List NodeId)) :
    Builds (endFunction function body) b fun _ _ => True := by
  refine .modify_bind rfl ?_
  cases body with
  | error e => exact .throw hb
  | ok block =>
    refine .bind (expectBlock_builds (b := { b with scope := function.outer }) hb block)
      fun _ t ht hblock => ?_
    exact .node ht.sound ⟨fun id hid => (hparams id hid).extend ht.keeps, hblock⟩

/-- A function definition builds if its body does, from whatever graph the body begins with. -/
theorem defineFunction_builds (hb : b.graph.Sound) (name : String) (params : List (String × Kind))
    (returns : Kind) {body : BuildM (List NodeId)}
    (hbody : ∀ t : Builder, t.graph.Sound → Builds body t fun _ _ => True) :
    Builds (defineFunction name params returns body) b fun _ _ => True := by
  refine .bind (beginFunction_builds hb name params returns) fun function t ht hparams => ?_
  refine .bind (hbody t ht.sound).outcome fun block u hu _ => ?_
  exact endFunction_builds hu.sound (fun id hid => (hparams id hid).extend hu.keeps) block

/-! ## Clients -/

/-- The computation works on the builder by its operations only. -/
inductive Client : {α : Type} → BuildM α → Prop
  | pure {α : Type} (a : α) : Client (pure a)
  | throw {α : Type} (e : Stop ProgramError) : Client (throw e : BuildM α)
  | bind {α β : Type} {m : BuildM α} {f : α → BuildM β} (hm : Client m) (hf : ∀ a, Client (f a)) :
    Client (m >>= f)
  /-- A client may look at the builder. -/
  | get : Client get
  /-- A client may go on after a failure. -/
  | outcome {α : Type} {m : BuildM α} (hm : Client m) : Client (outcome m)
  | arithmetic (symbol : String) (lhs rhs : Operand) : Client (arithmetic symbol lhs rhs)
  | call (name : String) (args : List Operand) : Client (call name args)
  | compare (op : CompareOp) (lhs rhs : Operand) : Client (compare op lhs rhs)
  | setVariable (name : String) (value : Operand) : Client (setVariable name value)
  | initVariable (name : String) : Client (initVariable name)
  | setArray (name : String) (length : Nat) (value : Option Operand) :
    Client (setArray name length value)
  | updateElement (name : String) (index : Nat) (value : Operand) :
    Client (updateElement name index value)
  | debug (text : String) : Client (debug text)
  | ifElse (condition : NodeId) (thenBlock elseBlock : List NodeId) :
    Client (ifElse condition thenBlock elseBlock)
  | whileLoop (condition : NodeId) (body : List NodeId) : Client (whileLoop condition body)
  | defineFunction (name : String) (params : List (String × Kind)) (returns : Kind)
    {body : BuildM (List NodeId)} (hbody : Client body) :
    Client (defineFunction name params returns body)

/-- A client keeps the nodes and leaves a sound graph. -/
theorem Client.builds {m : BuildM α} (h : Client m) (hb : b.graph.Sound) :
    Builds m b fun _ _ => True := by
  induction h generalizing b with
  | pure => exact .pure hb trivial
  | throw => exact .throw hb
  | bind _ _ ihm ihf => exact .bind (ihm hb) fun a t ht _ => ihf a ht.sound
  | get => exact Meets.of_run_eq_ok rfl ⟨hb.grows, trivial⟩
  | outcome _ ih => exact (ih hb).outcome.mono fun _ _ _ _ => trivial
  | arithmetic symbol lhs rhs => exact arithmetic_builds hb symbol lhs rhs
  | call name args => exact call_builds hb name args
  | compare op lhs rhs => exact compare_builds hb op lhs rhs
  | setVariable name value => exact setVariable_builds hb name value
  | initVariable name => exact setVariable_builds hb name (.number 0)
  | setArray name length value => exact setArray_builds hb name length value
  | updateElement name index value => exact updateElement_builds hb name index value
  | debug => exact .node hb trivial
  | ifElse condition thenBlock elseBlock => exact ifElse_builds hb condition thenBlock elseBlock
  | whileLoop condition body => exact whileLoop_builds hb condition body
  | defineFunction name params returns _ ih =>
    exact defineFunction_builds hb name params returns fun t ht => ih ht

/-- The builder after a computation, whether it has succeeded or failed. -/
def leaves (m : BuildM α) (b : Builder) : Builder :=
  match m.run b with
  | .ok _ t | .error _ t => t

/-- The graph is sound after an operation that builds, also after a failure. -/
theorem Builds.leaves {m : BuildM α} {Q : α → Graph → Prop} (h : Builds m b Q) :
    (m.leaves b).graph.Sound := by
  unfold BuildM.leaves
  split
  next hrun => exact (h.ok hrun).1.sound
  next hrun => exact (h.error hrun).sound

end BuildM

/-! ## Programs -/

namespace Builder

variable {b : Builder} {body : List NodeId}

/-- What a program of existing nodes is refused for: a node of its body is no statement, or an index
or a length is wrong below one. -/
inductive Refuses (b : Builder) (body : List NodeId) : Stop ProgramError → Prop
  | role {id : NodeId} {node : Node} (hid : id ∈ body) (hnode : b.graph.node? id = some node)
    (hrole : node.isStatement = false) :
    Refuses b body (.error (.malformed id (.notStatement node.shape)))
  | below {root : NodeId} {why : Stop ProgramError} (hroot : root ∈ body)
    (hwhy : b.graph.Refuses root why) : Refuses b body why

/-- A node of the body that is no statement is refused, with its shape. -/
theorem checkStatement_of_not_isStatement {g : Graph} {d : Nat} {id : NodeId} {node : Node}
    (hnode : g.node? id = some node) (hrole : node.isStatement = false) :
    g.checkStatement (d + 1) id = .error (.error (.malformed id (.notStatement node.shape))) := by
  rw [Graph.checkStatement, Graph.fetch_eq_ok.2 hnode]
  cases node with
  | constant | var | arithmetic | call | comparison => rfl
  | _ => cases hrole

/-- A sound graph makes a program, unless the program is refused for one of the three reasons. -/
theorem build_of_sound (h : b.graph.Sound) (hbody : ∀ id ∈ body, id.index < b.graph.size) :
    b.build body = .ok ⟨b.graph, body⟩ ∨ ∃ why, b.build body = .error why ∧ b.Refuses body why := by
  have hcheck : OrFails (b.Refuses body) (Program.check ⟨b.graph, body⟩) := by
    refine .forM fun id hid => ?_
    have hlt := hbody id hid
    obtain ⟨node, hnode⟩ := Graph.node?_eq_some_of_lt hlt
    cases hrole : node.isStatement with
    | true =>
      have hstatement := h.checkStatement ⟨node, hnode, hrole⟩ (Nat.lt_succ_of_lt hlt)
      exact hstatement.mono fun _ hwhy => .below hid hwhy
    | false => exact .inr ⟨_, checkStatement_of_not_isStatement hnode hrole, .role hid hnode hrole⟩
  simp only [build]
  rcases hcheck with hok | ⟨why, herror, hwhy⟩
  · rw [hok]
    exact .inl rfl
  · rw [herror]
    exact .inr ⟨why, rfl, hwhy⟩

/-- Whatever a client does with an empty builder, it leaves a graph without cycles, whose nodes
refer to earlier ones. All of its evaluables pass the check, which finds the kind that the builder
goes by. And a program of its nodes is built, or refused for one of three reasons: its body holds a
node that is no statement, an index is not below the declared length of its array, or an array
constant has not the declared length. -/
theorem client_leaves_sound {α : Type} {m : BuildM α} (hm : m.Client) (hb : m.leaves .empty = b) :
    (∀ id c, b.graph.Child id c → c.index < id.index) ∧
    (∀ id, ¬ Relation.TransGen b.graph.Child id id) ∧
    (∀ id node, b.graph.node? id = some node → node.shape.isEvaluable = true →
      ∃ k, b.graph.checkExpr b.graph.depth id = .ok k ∧ b.graph.kind? id = .ok (some k)) ∧
    ∀ body, (∀ id ∈ body, id.index < b.graph.size) →
      b.build body = .ok ⟨b.graph, body⟩ ∨
        ∃ why, b.build body = .error why ∧ b.Refuses body why := by
  subst hb
  have hsound := (hm.builds (b := .empty) Graph.Sound.empty).leaves
  refine ⟨fun id c hchild => ?_, fun id hcycle => ?_, fun id node hnode hshape => ?_,
    fun body hbody => ?_⟩
  · exact hsound.index_lt_of_transGen (.single hchild)
  · exact Nat.lt_irrefl _ (hsound.index_lt_of_transGen hcycle)
  · obtain ⟨k, hk⟩ := hsound.exists_evaluates hnode hshape
    exact ⟨k, hk.check_depth, hk.kind?⟩
  · exact build_of_sound hsound hbody

/-- A client that goes on after a failure, names a parameter like a variable outside, and leaves an
index and a length for the check to find. -/
def pastTheEnd : BuildM (List NodeId) := do
  let zeros ← BuildM.setArray "a" 2 none
  let _ ← (BuildM.arithmetic "+" (.name "a") (.number 1)).outcome
  let f ← BuildM.defineFunction "f" [("a", .scalar)] .scalar do
    let twice ← BuildM.arithmetic "*" (.name "a") (.number 2)
    return [← BuildM.setVariable "a" (.node twice)]
  let result ← BuildM.call "f" [.number 3]
  let element ← BuildM.updateElement "a" 2 (.node result)
  let copy ← BuildM.setArray "b" 3 (some (.node ⟨0⟩))
  return [zeros, f, element, copy]

/-- It works by operations only, and catches one of them. -/
theorem pastTheEnd_client : pastTheEnd.Client :=
  .bind (.setArray ..) fun _ => .bind (.outcome (.arithmetic ..)) fun _ =>
    .bind (.defineFunction _ _ _ (.bind (.arithmetic ..) fun _ => .bind (.setVariable ..) fun _ =>
      .pure _)) fun _ =>
    .bind (.call ..) fun _ => .bind (.updateElement ..) fun _ => .bind (.setArray ..) fun _ => .pure _

/-- The three reasons come up, and there is no fourth one. -/
theorem client_leaves_sound_pastTheEnd :
    pastTheEnd.Client ∧ ∃ body b, pastTheEnd.leaves .empty = b ∧
      (b.build [⟨2⟩, ⟨11⟩] = .ok ⟨b.graph, [⟨2⟩, ⟨11⟩]⟩ ∧
        b.build [⟨2⟩, ⟨8⟩] = .error (.error (.malformed ⟨8⟩ (.notStatement .arithmetic))) ∧
        b.build body = .error (.error (.malformed ⟨15⟩ (.indexOutOfBounds 2 "a" 2))) ∧
        b.build [⟨17⟩] = .error (.error (.lengthMismatch "b" 3 2))) ∧
      (∀ id, ¬ Relation.TransGen b.graph.Child id id) ∧
      ∀ body, (∀ id ∈ body, id.index < b.graph.size) → b.build body = .ok ⟨b.graph, body⟩ ∨
        ∃ why, b.build body = .error why ∧ b.Refuses body why := by
  have hrun : ∃ body b, pastTheEnd.run .empty = .ok body b ∧
      b.build [⟨2⟩, ⟨11⟩] = .ok ⟨b.graph, [⟨2⟩, ⟨11⟩]⟩ ∧
      b.build [⟨2⟩, ⟨8⟩] = .error (.error (.malformed ⟨8⟩ (.notStatement .arithmetic))) ∧
      b.build body = .error (.error (.malformed ⟨15⟩ (.indexOutOfBounds 2 "a" 2))) ∧
      b.build [⟨17⟩] = .error (.error (.lengthMismatch "b" 3 2)) := by decide +kernel
  obtain ⟨body, b, hrun, hbuilds⟩ := hrun
  have hleaves : pastTheEnd.leaves .empty = b := by rw [BuildM.leaves, hrun]
  obtain ⟨-, hacyclic, -, hbuild⟩ := client_leaves_sound pastTheEnd_client hleaves
  exact ⟨pastTheEnd_client, body, b, hleaves, hbuilds, hacyclic, hbuild⟩

end Builder

end RegisterBackend
