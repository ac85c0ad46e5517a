import Mathlib.Data.List.Forall2
import RegisterBackend.Proofs.Unshared
import RegisterBackend.Propagation.Assigned

/-!
# Unfolded programs

A program without sharing can be laid over one with sharing: each of its nodes is a copy of a node
of the other program, and what a copy refers to are copies of what the node refers to. `Unfolding π
u p` says that `u` is an unfolding of `p` in this way, where `π` takes each copy to the node it is a
copy of. Only what can be reached counts, and leaves need not be copied.

`Node.Matches` compares single nodes up to their references. Both programs may be rewritten apart
from each other (`Graph.Rewrites`), and then a copy and its node need no longer match; but a part of
one program and the same part of the other one still assign the same names
(`Unfolding.assignedIn_eq`), because a slot that has been changed had assigned none.
-/

namespace RegisterBackend

/-! ## Nodes with other references -/

namespace Node

/-- The node with its references renamed. -/
def map (π : NodeId → NodeId) : Node → Node
  | .constant l => .constant l
  | .var v => .var v
  | .arithmetic op lhs rhs => .arithmetic op (π lhs) (π rhs)
  | .call name args returns => .call name (args.map π) returns
  | .assign target value => .assign (π target) (π value)
  | .updateElement target index value => .updateElement (π target) index (π value)
  | .comparison op lhs rhs => .comparison op (π lhs) (π rhs)
  | .ifElse cond thenBlock elseBlock => .ifElse (π cond) (thenBlock.map π) (elseBlock.map π)
  | .whileLoop cond body => .whileLoop (π cond) (body.map π)
  | .functionDef name params body returns => .functionDef name (params.map π) (body.map π) returns
  | .debug text => .debug text

/-- The nodes are the same but for what they refer to. References that are computed when the program
runs are related by `C`, and the other ones by `F`. -/
inductive Matches (F C : NodeId → NodeId → Prop) : Node → Node → Prop
  | constant {l} : Matches F C (.constant l) (.constant l)
  | var {v} : Matches F C (.var v) (.var v)
  | arithmetic {op lhs rhs lhs' rhs'} (left : C lhs lhs') (right : C rhs rhs') :
    Matches F C (.arithmetic op lhs rhs) (.arithmetic op lhs' rhs')
  | call {name ids ids' returns} (args : List.Forall₂ C ids ids') :
    Matches F C (.call name ids returns) (.call name ids' returns)
  | assign {x id x' id'} (target : F x x') (value : C id id') :
    Matches F C (.assign x id) (.assign x' id')
  | updateElement {x index id x' id'} (target : F x x') (value : C id id') :
    Matches F C (.updateElement x index id) (.updateElement x' index id')
  | comparison {op lhs rhs lhs' rhs'} (left : C lhs lhs') (right : C rhs rhs') :
    Matches F C (.comparison op lhs rhs) (.comparison op lhs' rhs')
  | ifElse {cond thenIds elseIds cond' thenIds' elseIds'} (test : F cond cond')
    (thenBlock : List.Forall₂ F thenIds thenIds') (elseBlock : List.Forall₂ F elseIds elseIds') :
    Matches F C (.ifElse cond thenIds elseIds) (.ifElse cond' thenIds' elseIds')
  | whileLoop {cond ids cond' ids'} (test : F cond cond') (body : List.Forall₂ F ids ids') :
    Matches F C (.whileLoop cond ids) (.whileLoop cond' ids')
  | functionDef {name paramIds ids paramIds' ids' returns} (params : List.Forall₂ F paramIds paramIds')
    (body : List.Forall₂ F ids ids') :
    Matches F C (.functionDef name paramIds ids returns) (.functionDef name paramIds' ids' returns)
  | debug {text} : Matches F C (.debug text) (.debug text)

variable {π : NodeId → NodeId} {R F C F' C' : NodeId → NodeId → Prop} {node node' node₁ : Node}

@[simp] theorem shape_map (π : NodeId → NodeId) (node : Node) : (node.map π).shape = node.shape := by
  cases node <;> rfl

@[simp] theorem children_map (π : NodeId → NodeId) (node : Node) :
    (node.map π).children = node.children.map π := by
  cases node <;> simp [map, children]

/-- A leaf has nothing to be renamed. -/
theorem map_of_isLeaf (h : node.isLeaf = true) : node.map π = node := by
  cases node with
  | constant | var | debug => rfl
  | _ => cases h

theorem forall₂_map (π : NodeId → NodeId) (ids : List NodeId) :
    List.Forall₂ (fun c c' => c' = π c) ids (ids.map π) :=
  List.forall₂_map_right_iff.2 (List.forall₂_same.2 fun _ _ => rfl)

/-- A node matches the one with its references renamed. -/
theorem matches_map (π : NodeId → NodeId) (node : Node) :
    node.Matches (fun c c' => c' = π c) (fun c c' => c ∈ node.children ∧ c' = π c) (node.map π) := by
  cases node with
  | call _ args => exact .call ((List.forall₂_and_left _ _).2 ⟨fun _ hc => hc, forall₂_map π args⟩)
  | ifElse _ thenIds elseIds => exact .ifElse rfl (forall₂_map π thenIds) (forall₂_map π elseIds)
  | whileLoop _ ids => exact .whileLoop rfl (forall₂_map π ids)
  | functionDef _ params ids => exact .functionDef (forall₂_map π params) (forall₂_map π ids)
  | _ => constructor <;> simp [children]

/-- A node of which slots are exchanged matches what it becomes. -/
theorem Amends.matches (h : node.Amends R node') (hR : ∀ c, R c c) :
    node.Matches (fun c c' => c ∈ node.children ∧ c' = c)
      (fun c c' => c ∈ node.children ∧ R c c') node' := by
  have hsame : ∀ ids : List NodeId, ids ⊆ node.children →
      List.Forall₂ (fun c c' => c ∈ node.children ∧ c' = c) ids ids :=
    fun ids hids => List.forall₂_same.2 fun c hc => ⟨hids hc, rfl⟩
  cases h with
  | arithmetic left right => constructor <;> simp_all [Node.children]
  | comparison left right => constructor <;> simp_all [Node.children]
  | call args => exact .call ((List.forall₂_and_left _ _).2 ⟨fun _ hc => hc, args⟩)
  | assign value => constructor <;> simp_all [Node.children]
  | updateElement value => constructor <;> simp_all [Node.children]
  | same =>
    cases node with
    | call => exact .call (List.forall₂_same.2 fun c hc => ⟨hc, hR c⟩)
    | ifElse =>
      exact .ifElse ⟨List.mem_cons_self, rfl⟩ (hsame _ (by simp [Node.children]))
        (hsame _ (by simp [Node.children]))
    | whileLoop => exact .whileLoop ⟨List.mem_cons_self, rfl⟩ (hsame _ (by simp [Node.children]))
    | functionDef =>
      exact .functionDef (hsame _ (by simp [Node.children])) (hsame _ (by simp [Node.children]))
    | _ => constructor <;> simp [Node.children, hR]

namespace Matches

theorem shape_eq (h : node.Matches F C node') : node'.shape = node.shape := by
  cases h <;> rfl

/-- Matching can be read in the other direction. -/
theorem flip (h : node.Matches F C node') :
    node'.Matches (fun c' c => F c c') (fun c' c => C c c') node := by
  cases h with
  | constant => exact .constant
  | var => exact .var
  | debug => exact .debug
  | arithmetic left right => exact .arithmetic left right
  | comparison left right => exact .comparison left right
  | call args => exact .call args.flip
  | assign target value => exact .assign target value
  | updateElement target value => exact .updateElement target value
  | ifElse test thenBlock elseBlock => exact .ifElse test thenBlock.flip elseBlock.flip
  | whileLoop test body => exact .whileLoop test body.flip
  | functionDef params body => exact .functionDef params.flip body.flip

/-- Nodes that match do so for weaker relations too. -/
theorem mono (h : node.Matches F C node') (hF : ∀ c c', F c c' → F' c c')
    (hC : ∀ c c', C c c' → C' c c') : node.Matches F' C' node' := by
  cases h with
  | constant => exact .constant
  | var => exact .var
  | debug => exact .debug
  | arithmetic left right => exact .arithmetic (hC _ _ left) (hC _ _ right)
  | comparison left right => exact .comparison (hC _ _ left) (hC _ _ right)
  | call args => exact .call (args.imp hC)
  | assign target value => exact .assign (hF _ _ target) (hC _ _ value)
  | updateElement target value => exact .updateElement (hF _ _ target) (hC _ _ value)
  | ifElse test thenBlock elseBlock =>
    exact .ifElse (hF _ _ test) (thenBlock.imp hF) (elseBlock.imp hF)
  | whileLoop test body => exact .whileLoop (hF _ _ test) (body.imp hF)
  | functionDef params body => exact .functionDef (params.imp hF) (body.imp hF)

/-- Nodes match in two steps if their references do. -/
theorem trans {F'' C'' : NodeId → NodeId → Prop} (h : node.Matches F C node₁)
    (h' : node₁.Matches F' C' node') (hF : ∀ a b c, F a b → F' b c → F'' a c)
    (hC : ∀ a b c, C a b → C' b c → C'' a c) : node.Matches F'' C'' node' := by
  cases h with
  | constant => cases h'; exact .constant
  | var => cases h'; exact .var
  | debug => cases h'; exact .debug
  | arithmetic left right =>
    cases h' with
    | arithmetic left' right' => exact .arithmetic (hC _ _ _ left left') (hC _ _ _ right right')
  | comparison left right =>
    cases h' with
    | comparison left' right' => exact .comparison (hC _ _ _ left left') (hC _ _ _ right right')
  | call args =>
    cases h' with
    | call args' => exact .call (forall₂_trans hC args args')
  | assign target value =>
    cases h' with
    | assign target' value' => exact .assign (hF _ _ _ target target') (hC _ _ _ value value')
  | updateElement target value =>
    cases h' with
    | updateElement target' value' =>
      exact .updateElement (hF _ _ _ target target') (hC _ _ _ value value')
  | ifElse test thenBlock elseBlock =>
    cases h' with
    | ifElse test' thenBlock' elseBlock' =>
      exact .ifElse (hF _ _ _ test test') (forall₂_trans hF thenBlock thenBlock')
        (forall₂_trans hF elseBlock elseBlock')
  | whileLoop test body =>
    cases h' with
    | whileLoop test' body' => exact .whileLoop (hF _ _ _ test test') (forall₂_trans hF body body')
  | functionDef params body =>
    cases h' with
    | functionDef params' body' =>
      exact .functionDef (forall₂_trans hF params params') (forall₂_trans hF body body')

end Matches

/-- Whether the nodes match, for relations that can be computed. -/
def matchesBy (F C : NodeId → NodeId → Bool) : Node → Node → Bool
  | .constant l, .constant l' => l = l'
  | .var v, .var v' => v = v'
  | .arithmetic op lhs rhs, .arithmetic op' lhs' rhs' => op = op' && C lhs lhs' && C rhs rhs'
  | .call name ids returns, .call name' ids' returns' =>
    name = name' && decide (List.Forall₂ (C · ·) ids ids') && returns = returns'
  | .assign x id, .assign x' id' => F x x' && C id id'
  | .updateElement x i id, .updateElement x' i' id' => F x x' && i = i' && C id id'
  | .comparison op lhs rhs, .comparison op' lhs' rhs' => op = op' && C lhs lhs' && C rhs rhs'
  | .ifElse cond a b, .ifElse cond' a' b' =>
    F cond cond' && decide (List.Forall₂ (F · ·) a a') && decide (List.Forall₂ (F · ·) b b')
  | .whileLoop cond a, .whileLoop cond' a' => F cond cond' && decide (List.Forall₂ (F · ·) a a')
  | .functionDef name a b returns, .functionDef name' a' b' returns' =>
    name = name' && decide (List.Forall₂ (F · ·) a a') && decide (List.Forall₂ (F · ·) b b') &&
      returns = returns'
  | .debug text, .debug text' => text = text'
  | _, _ => false

/-- Nodes match if the test says so. -/
theorem matches_of_matchesBy {F C : NodeId → NodeId → Bool} (h : node.matchesBy F C node' = true) :
    node.Matches (F · ·) (C · ·) node' := by
  revert h
  fun_cases matchesBy F C node node' with
  | case12 => exact nofun
  | case1 | case2 | case11 =>
    intro h
    cases of_decide_eq_true h
    constructor
  | _ =>
    simp only [Bool.and_eq_true, decide_eq_true_eq, and_imp]
    intros
    subst_vars
    constructor <;> assumption

end Node

/-! ## Unfoldings -/

/-- The one program is a tree whose nodes are copies of the nodes of the other one, where the given
function takes a copy to what it is a copy of. -/
structure Unfolding (π : NodeId → NodeId) (u p : Program) : Prop where
  /-- The body consists of copies. -/
  body : p.body = u.body.map π
  /-- A copy refers to copies. -/
  node : ∀ {a}, u.Reachable a →
    ∃ node, u.graph.node? a = some node ∧ p.graph.node? (π a) = some (node.map π)
  /-- Each use has its own copy. -/
  tree : u.Unshared

namespace Unfolding

variable {π : NodeId → NodeId} {u p : Program} {a c n : NodeId} {node : Node}

/-- Whether every node of the one program is a copy of a node of the other one, and refers to nodes
that are there. -/
def consistsOfCopies (π : NodeId → NodeId) (u p : Program) : Bool :=
  u.body.all (·.index < u.graph.size) &&
    (List.range u.graph.size).all fun i => (u.graph.node? ⟨i⟩).any fun node =>
      p.graph.node? (π ⟨i⟩) = some (node.map π) && node.children.all (·.index < u.graph.size)

/-- A tree that passes the test for copies is an unfolding. -/
theorem of_consistsOfCopies (hbody : p.body = u.body.map π) (h : consistsOfCopies π u p = true)
    (htree : u.Unshared) : Unfolding π u p := by
  simp only [consistsOfCopies, Bool.and_eq_true, List.all_eq_true, decide_eq_true_eq, List.mem_range,
    Option.any_eq_true] at h
  obtain ⟨hroots, hnodes⟩ := h
  have hlt : ∀ {a}, u.Reachable a → a.index < u.graph.size := by
    rintro a ⟨root, hroot, hpath⟩
    induction hpath with
    | refl => exact hroots root hroot
    | tail _ hab ih =>
      obtain ⟨node, hnode, hb⟩ := hab
      obtain ⟨node', hnode', -, hchildren⟩ := hnodes _ ih
      cases hnode.symm.trans hnode'
      exact hchildren _ hb
  refine ⟨hbody, fun ha => ?_, htree⟩
  obtain ⟨node, hnode, hmap, -⟩ := hnodes _ (hlt ha)
  exact ⟨node, hnode, hmap⟩

/-- The node of which another is a copy is that one with its references renamed. -/
theorem node_of_node? (h : Unfolding π u p) (ha : u.Reachable a)
    (hnode : u.graph.node? a = some node) : p.graph.node? (π a) = some (node.map π) := by
  obtain ⟨node', hnode', hmap⟩ := h.node ha
  cases hnode.symm.trans hnode'
  exact hmap

/-- The path below a copy leads to copies of what is below the node. -/
theorem reaches_map (h : Unfolding π u p) (hc : u.Reachable c) (hca : u.graph.Reaches c a) :
    p.graph.Reaches (π c) (π a) := by
  induction hca with
  | refl => exact .refl
  | tail hcb hba ih =>
    obtain ⟨node, hnode, ha⟩ := hba
    have hmap := h.node_of_node? (hc.trans hcb) hnode
    exact ih.tail ⟨_, hmap, by simpa using ⟨_, ha, rfl⟩⟩

/-- What is below a node has a copy below each copy of the node. -/
theorem exists_of_reaches (h : Unfolding π u p) (hc : u.Reachable c)
    (hcn : p.graph.Reaches (π c) n) : ∃ a, u.graph.Reaches c a ∧ π a = n := by
  induction hcn with
  | refl => exact ⟨c, .refl, rfl⟩
  | tail _ hmn ih =>
    obtain ⟨b, hcb, rfl⟩ := ih
    obtain ⟨node', hnode', hn⟩ := hmn
    obtain ⟨node, hnode, hmap⟩ := h.node (hc.trans hcb)
    cases hnode'.symm.trans hmap
    obtain ⟨a, ha, rfl⟩ := List.mem_map.1 (Node.children_map π node ▸ hn)
    exact ⟨a, hcb.tail ⟨node, hnode, ha⟩, rfl⟩

/-- A node assigns nothing exactly if its copies do not. -/
theorem quiet_iff (h : Unfolding π u p) (hc : u.Reachable c) :
    p.graph.Quiet (π c) ↔ u.graph.Quiet c := by
  constructor
  · intro hquiet a node hca hnode
    have hmap := h.node_of_node? (hc.trans hca) hnode
    simpa using hquiet _ _ (h.reaches_map hc hca) hmap
  · intro hquiet n node' hcn hnode'
    obtain ⟨a, hca, rfl⟩ := h.exists_of_reaches hc hcn
    obtain ⟨node, hnode, hmap⟩ := h.node (hc.trans hca)
    cases hnode'.symm.trans hmap
    simpa using hquiet a node hca hnode

end Unfolding

/-! ## Assigned names -/

namespace Graph

variable {g : Graph} {functions : NameMap NameSet} {id : NodeId} {depth : Nat} {names names' : NameSet}

/-- What is quiet assigns no names. -/
theorem addAssigned_of_quiet (hquiet : g.Quiet id)
    (h : g.addAssigned functions depth id names = .ok names') : names' = names := by
  induction depth generalizing id names names' with
  | zero => cases h
  | succ depth ih =>
    rw [addAssigned] at h
    obtain ⟨node, hnode, h⟩ := bind_eq_ok.1 h
    rw [node_eq_ok] at hnode
    have hshape := hquiet id node .refl hnode
    cases node with
    | constant | var =>
      cases h
      rfl
    | arithmetic op lhs rhs =>
      have hl := hquiet.child ⟨_, hnode, List.mem_cons_self⟩
      have hr := hquiet.child ⟨_, hnode, List.mem_cons_of_mem _ List.mem_cons_self⟩
      simp only [List.foldlM_cons, List.foldlM_nil] at h
      obtain ⟨names₁, hleft, h⟩ := bind_eq_ok.1 h
      obtain ⟨names₂, hright, h⟩ := bind_eq_ok.1 h
      cases h
      rw [ih hr hright, ih hl hleft]
    | _ => cases hshape

end Graph

namespace Unfolding

open RegisterBackend.Graph (Rewrites node_eq_ok)

variable {π : NodeId → NodeId} {u p : Program} {g g' : Graph} {S T : NodeId → Prop}
  {functions : NameMap NameSet} {names names₁ names₂ : NameSet}

/-- Copies and nodes that have been rewritten apart match, up to slots that were changed in the one
program or the other. -/
theorem matches_of_rewrites (h : Unfolding π u p) (hg : Rewrites S u.graph g)
    (hg' : Rewrites T p.graph g') {a : NodeId} (ha : u.Reachable a) :
    ∃ node node', g.node? a = some node ∧ g'.node? (π a) = some node' ∧
      node.Matches (fun x y => u.Reachable x ∧ y = π x)
        (fun x y => ∃ c, u.Reachable c ∧ u.graph.Reslots g c x ∧ p.graph.Reslots g' (π c) y)
        node' := by
  obtain ⟨node₀, hnode₀, hmap⟩ := h.node ha
  obtain ⟨node, hnode, hamends⟩ := hg.kept hnode₀
  obtain ⟨node', hnode', hamends'⟩ := hg'.kept hmap
  have hreach : ∀ c ∈ node₀.children, u.Reachable c := fun c hc => ha.child ⟨_, hnode₀, hc⟩
  have hcopy : node.Matches (fun x y => u.Reachable x ∧ y = π x)
      (fun x y => ∃ c, u.Reachable c ∧ u.graph.Reslots g c x ∧ y = π c) (node₀.map π) := by
    refine (hamends.matches (.refl _ _)).flip.trans (node₀.matches_map π) ?_ ?_
    · rintro x c y ⟨hc, rfl⟩ rfl
      exact ⟨hreach _ hc, rfl⟩
    · rintro x c y ⟨hc, hx⟩ ⟨-, rfl⟩
      exact ⟨c, hreach c hc, hx, rfl⟩
  refine ⟨node, node', hnode, hnode', hcopy.trans (hamends'.matches (.refl _ _)) ?_ ?_⟩
  · rintro x y z ⟨hx, rfl⟩ ⟨-, rfl⟩
    exact ⟨hx, rfl⟩
  · rintro x y z ⟨c, hc, hx, rfl⟩ ⟨-, hz⟩
    exact ⟨c, hc, hx, hz⟩

/-- A target and its copy add the same name, however far both graphs were rewritten. -/
theorem addTarget_eq (h : Unfolding π u p) (hg : Rewrites S u.graph g) (hg' : Rewrites T p.graph g')
    {a : NodeId} (ha : u.Reachable a) (h₁ : g.addTarget a names = .ok names₁)
    (h₂ : g'.addTarget (π a) names = .ok names₂) : names₁ = names₂ := by
  obtain ⟨node, node', hnode, hnode', hmatches⟩ := h.matches_of_rewrites hg hg' ha
  obtain ⟨node₁, hnode₁, h₁⟩ := bind_eq_ok.1 h₁
  obtain ⟨node₂, hnode₂, h₂⟩ := bind_eq_ok.1 h₂
  cases (node_eq_ok.1 hnode₁).symm.trans hnode
  cases (node_eq_ok.1 hnode₂).symm.trans hnode'
  cases hmatches <;> cases h₁ <;> cases h₂ <;> rfl

/-- A copy and its node assign the same names, also when both programs have been rewritten. -/
theorem addAssigned_eq (h : Unfolding π u p) (hg : Rewrites S u.graph g)
    (hg' : Rewrites T p.graph g') {a : NodeId} {d e : Nat} (ha : u.Reachable a)
    (h₁ : g.addAssigned functions d a names = .ok names₁)
    (h₂ : g'.addAssigned functions e (π a) names = .ok names₂) : names₁ = names₂ := by
  induction d generalizing a e names names₁ names₂ with
  | zero => cases h₁
  | succ d ih =>
    cases e with
    | zero => cases h₂
    | succ e =>
      obtain ⟨node, node', hnode, hnode', hmatches⟩ := h.matches_of_rewrites hg hg' ha
      rw [Graph.addAssigned] at h₁ h₂
      obtain ⟨node₁, hnode₁, h₁⟩ := bind_eq_ok.1 h₁
      obtain ⟨node₂, hnode₂, h₂⟩ := bind_eq_ok.1 h₂
      cases (node_eq_ok.1 hnode₁).symm.trans hnode
      cases (node_eq_ok.1 hnode₂).symm.trans hnode'
      have hslot : ∀ x y names names₁ names₂,
          (∃ c, u.Reachable c ∧ u.graph.Reslots g c x ∧ p.graph.Reslots g' (π c) y) →
          g.addAssigned functions d x names = .ok names₁ →
          g'.addAssigned functions e y names = .ok names₂ → names₁ = names₂ := by
        rintro x y names names₁ names₂ ⟨c, hc, hx, hy⟩ h₁ h₂
        -- if the slot has been changed in one of the programs, it assigns nothing in both
        by_cases hquiet : u.graph.Quiet c
        · rw [Graph.addAssigned_of_quiet (hg.reslots_quiet hx hquiet) h₁,
            Graph.addAssigned_of_quiet (hg'.reslots_quiet hy ((h.quiet_iff hc).2 hquiet)) h₂]
        · rcases hx with rfl | ⟨-, -, hx⟩
          · rcases hy with rfl | ⟨-, -, hy⟩
            · exact ih hc h₁ h₂
            · exact absurd ((h.quiet_iff hc).1 hy) hquiet
          · exact absurd hx hquiet
      have hslots : ∀ {xs ys names names₁ names₂}, List.Forall₂
            (fun x y => ∃ c, u.Reachable c ∧ u.graph.Reslots g c x ∧ p.graph.Reslots g' (π c) y)
            xs ys →
          xs.foldlM (fun names id => g.addAssigned functions d id names) names = .ok names₁ →
          ys.foldlM (fun names id => g'.addAssigned functions e id names) names = .ok names₂ →
            names₁ = names₂ :=
        fun hxs => foldlM_eq_of_forall₂ hslot hxs
      have hcopy : ∀ x y, u.Reachable x ∧ y = π x →
          ∃ c, u.Reachable c ∧ u.graph.Reslots g c x ∧ p.graph.Reslots g' (π c) y :=
        fun x y ⟨hx, hy⟩ => ⟨x, hx, .refl _ _ _, .inl hy⟩
      cases hmatches with
      | constant | var | debug | functionDef =>
        cases h₁
        cases h₂
        rfl
      | arithmetic left right | comparison left right =>
        exact hslots (.cons left (.cons right .nil)) h₁ h₂
      | call args =>
        obtain ⟨m₁, hm₁, h₁⟩ := bind_eq_ok.1 h₁
        obtain ⟨m₂, hm₂, h₂⟩ := bind_eq_ok.1 h₂
        cases hslots args hm₁ hm₂
        exact Except.ok.inj (h₁.symm.trans h₂)
      | assign target value | updateElement target value =>
        obtain ⟨m₁, hm₁, h₁⟩ := bind_eq_ok.1 h₁
        obtain ⟨m₂, hm₂, h₂⟩ := bind_eq_ok.1 h₂
        obtain ⟨ht, rfl⟩ := target
        cases h.addTarget_eq hg hg' ht hm₁ hm₂
        exact hslots (.cons value .nil) h₁ h₂
      | ifElse test thenBlock elseBlock =>
        have hblocks := (List.rel_append thenBlock elseBlock).imp hcopy
        exact hslots (.cons (hcopy _ _ test) hblocks) h₁ h₂
      | whileLoop test body =>
        exact hslots (.cons (hcopy _ _ test) (body.imp hcopy)) h₁ h₂

/-- The same parts of both programs assign the same names, also when both have been rewritten. -/
theorem assignedIn_eq (h : Unfolding π u p) (hg : Rewrites S u.graph g) (hg' : Rewrites T p.graph g')
    {d e : Nat} {ids : List NodeId} (hids : ∀ a ∈ ids, u.Reachable a)
    (h₁ : g.assignedIn functions d ids = .ok names₁)
    (h₂ : g'.assignedIn functions e (ids.map π) = .ok names₂) : names₁ = names₂ := by
  have hcopies : List.Forall₂ (fun a b => u.Reachable a ∧ b = π a) ids (ids.map π) :=
    (List.forall₂_and_left _ _).2 ⟨hids, Node.forall₂_map π ids⟩
  refine foldlM_eq_of_forall₂ ?_ hcopies h₁ h₂
  rintro a b names names₁ names₂ ⟨ha, rfl⟩ h₁ h₂
  exact h.addAssigned_eq hg hg' ha h₁ h₂

end Unfolding

end RegisterBackend
