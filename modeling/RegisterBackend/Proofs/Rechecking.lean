import RegisterBackend.Proofs.ArrayValues
import RegisterBackend.Proofs.PropagationKinds

/-!
# Checking a program again

Constant propagation puts constants into slots, and the check asks more of a constant than of what
was there before: the elements of an array have to be in range, and as many as the target of an
assignment declares. The elements are in range because all arrays come from constants that passed
the check. The lengths need not agree, since an array variable can be assigned to another one of any
declared length: when its value is known, the assignment is one of a constant and is refused. This
is the only reason why a program that passed the check does not pass it again
(`Program.check_of_propagate`).
-/

namespace RegisterBackend

namespace Graph

variable {g g' : Graph} {P : NodeId → Literal → Prop} {κ : String → Kind} {id c c' : NodeId}
  {k : Kind} {d d' : Nat}

/-- The constants that come into slots are of the kinds that the check finds there, and in range. -/
def Agreeable (P : NodeId → Literal → Prop) (κ : String → Kind) (g : Graph) : Prop :=
  ∀ {c l d k}, P c l → g.VarsFit κ c → g.checkExpr d c = .ok k → l.kind = k ∧ l.InRange

/-- An assignment of an array constant that came into its slot, and that has not as many elements as
the target declares. The error is the one that the check reports there. -/
inductive Clashes (P : NodeId → Literal → Prop) (g : Graph) (id : NodeId) : Stop ProgramError → Prop
  | intro {n target value : NodeId} {v : Variable} {length : Nat} {elements : List Int8}
    (hn : g.Reaches id n) (hnode : g.node? n = some (.assign target value))
    (htarget : g.node? target = some (.var v)) (hlength : v.length = some length)
    (hfits : g.FitsLength v value) (hvalue : P value (.array elements))
    (hdiffers : elements.length ≠ length) :
    Clashes P g id (.error (.lengthMismatch v.name length elements.length))

/-- A clash below a child of a node is one below the node. -/
theorem Clashes.of_child {e : Stop ProgramError} (h : Clashes P g c e) (hc : g.Child id c) :
    Clashes P g id e := by
  cases h with
  | intro hn hnode htarget hlength hfits hvalue hdiffers =>
    exact .intro (.head hc hn) hnode htarget hlength hfits hvalue hdiffers

namespace Substitutes

/-- What comes into a slot is accepted there, if what was there before still is. -/
theorem checkExpr_fills (hP : Agreeable P κ g) (hc : Fills P g' c c') (hvars : g.VarsFit κ c)
    (hcheck : g.checkExpr d c = .ok k) (hstays : g'.checkExpr d' c = .ok k) :
    g'.checkExpr d' c' = .ok k := by
  rcases hc with rfl | ⟨l, hl, hPl⟩
  · exact hstays
  · obtain ⟨rfl, hrange⟩ := hP hPl hvars hcheck
    cases d' with
    | zero => cases hstays
    | succ d' => exact checkExpr_eq_ok.2 (.constant hl hrange)

/-- Evaluables are accepted again. -/
theorem checkExpr (h : Substitutes P g g') (hP : Agreeable P κ g) (hcheck : g.checkExpr d id = .ok k)
    (hvars : g.VarsFit κ id) (hd : d ≤ d') : g'.checkExpr d' id = .ok k := by
  induction d generalizing id k d' with
  | zero => cases hcheck
  | succ d ih =>
    obtain ⟨d', rfl⟩ := Nat.exists_eq_add_of_le' (Nat.le_of_add_left_le hd)
    have hslot : ∀ {c c' k node}, g.node? id = some node → c ∈ node.children → Fills P g' c c' →
        g.checkExpr d c = .ok k → g'.checkExpr d' c' = .ok k := fun hnode hmem hc hcheck =>
      have hvars := hvars.child hnode hmem
      checkExpr_fills hP hc hvars hcheck (ih hcheck hvars (Nat.le_of_succ_le_succ hd))
    refine checkExpr_eq_ok.2 ?_
    cases checkExpr_eq_ok.1 hcheck with
    | constant hnode hrange => exact .constant (h.leaf rfl hnode) hrange
    | var hnode => exact .var (h.leaf rfl hnode)
    | arithmetic hnode hleft hright =>
      obtain ⟨lhs', rhs', hnode', left, right⟩ := h.arithmetic hnode
      exact .arithmetic hnode' (hslot hnode (by simp [Node.children]) left hleft)
        (hslot hnode (by simp [Node.children]) right hright)
    | call hnode hargs =>
      obtain ⟨args', hnode', hfills⟩ := h.call hnode
      refine .call hnode' fun c' hc' => ?_
      obtain ⟨c, hc, hfill⟩ := exists_mem_of_forall₂ hfills hc'
      obtain ⟨k, hk⟩ := hargs c hc
      exact ⟨k, hslot hnode hc hfill hk⟩

/-- Conditions are accepted again. -/
theorem checkCondition (h : Substitutes P g g') (hP : Agreeable P κ g)
    (hcheck : g.checkCondition d id = .ok ()) (hvars : g.VarsFit κ id) (hd : d ≤ d') :
    g'.checkCondition d' id = .ok () := by
  obtain ⟨op, lhs, rhs, k, hnode, hleft, hright⟩ := checkCondition_eq_ok.1 hcheck
  obtain ⟨lhs', rhs', hnode', left, right⟩ := h.comparison hnode
  have hvarsLeft : g.VarsFit κ lhs := hvars.child hnode (by simp [Node.children])
  have hvarsRight : g.VarsFit κ rhs := hvars.child hnode (by simp [Node.children])
  exact checkCondition_eq_ok.2 ⟨op, lhs', rhs', k, hnode',
    checkExpr_fills hP left hvarsLeft hleft (h.checkExpr hP hleft hvarsLeft hd),
    checkExpr_fills hP right hvarsRight hright (h.checkExpr hP hright hvarsRight hd)⟩

/-- Statements are accepted again, or an assignment of an array constant that came there is
refused. -/
theorem checkStatement (h : Substitutes P g g') (hP : Agreeable P κ g)
    (hcheck : g.checkStatement d id = .ok ()) (hvars : g.VarsFit κ id) (hd : d ≤ d') :
    OrFails (Clashes P g id) (g'.checkStatement d' id) := by
  induction d generalizing id d' with
  | zero => cases hcheck
  | succ d ih =>
    obtain ⟨d', rfl⟩ := Nat.exists_eq_add_of_le' (Nat.le_of_add_left_le hd)
    have hd := Nat.le_of_succ_le_succ hd
    have hblock : ∀ {ids node}, g.node? id = some node → ids ⊆ node.children →
        (∀ c ∈ ids, g.checkStatement d c = .ok ()) →
        OrFails (Clashes P g id) (ids.forM (g'.checkStatement d')) := fun hnode hsub hids =>
      .forM fun c hc => (ih (hids c hc) (hvars.child hnode (hsub hc)) hd).mono fun e he =>
        he.of_child ⟨_, hnode, hsub hc⟩
    have hslot : ∀ {c c' k node}, g.node? id = some node → c ∈ node.children → Fills P g' c c' →
        g.checkExpr d c = .ok k → g'.checkExpr d' c' = .ok k := fun hnode hmem hc hcheck =>
      have hvars := hvars.child hnode hmem
      checkExpr_fills hP hc hvars hcheck (h.checkExpr hP hcheck hvars hd)
    rw [Graph.checkStatement]
    cases statementCheck_of_check hcheck with
    | assign hnode htarget hvalue hlength =>
      obtain ⟨value', hnode', hfill⟩ := h.assign hnode
      have hvalue' := hslot hnode (by simp [Node.children]) hfill hvalue
      obtain ⟨node', hvalueNode⟩ := exists_node_of_checkExpr hvalue'
      refine .bind_ok (fetch_eq_ok.2 hnode') (.bind_ok (checkTarget_eq_ok.2 (h.leaf rfl htarget)) ?_)
      refine .bind_ok hvalue' (.bind_ok (expectKind_eq_ok.2 rfl) ?_)
      refine (checkLength_orFails hvalueNode).mono ?_
      rintro e ⟨n, elements, hn, rfl, hdiffers, rfl⟩
      refine .intro .refl hnode htarget hn hlength ?_ hdiffers
      rcases hfill with rfl | ⟨l, hl, hPl⟩
      · -- a constant that was there from the start has the length that is declared
        obtain ⟨node, hv⟩ := exists_node_of_checkExpr hvalue
        cases h.eq_of_fixed rfl hvalueNode hv
        exact (hdiffers (hlength n elements hn hv)).elim
      · cases hl.symm.trans hvalueNode
        exact hPl
    | updateElement hnode htarget harray hindex hvalue =>
      obtain ⟨value', hnode', hfill⟩ := h.updateElement hnode
      refine .bind_ok (fetch_eq_ok.2 hnode') (.bind_ok (checkTarget_eq_ok.2 (h.leaf rfl htarget)) ?_)
      refine .bind_ok (expectKind_eq_ok.2 harray) (.bind_ok (checkIndex_eq_ok.2 hindex) ?_)
      refine .bind_ok (hslot hnode (by simp [Node.children]) hfill hvalue) ?_
      exact .inl (expectKind_eq_ok.2 rfl)
    | ifElse hnode hcond hthen helse =>
      have hcond' := h.checkCondition hP hcond (hvars.child hnode (by simp [Node.children])) hd
      refine .bind_ok (fetch_eq_ok.2 (h.fixed rfl hnode)) (.bind_ok hcond' ?_)
      exact .bind (hblock hnode (by simp [Node.children]) hthen)
        (hblock hnode (by simp [Node.children]) helse)
    | whileLoop hnode hcond hbody =>
      have hcond' := h.checkCondition hP hcond (hvars.child hnode (by simp [Node.children])) hd
      refine .bind_ok (fetch_eq_ok.2 (h.fixed rfl hnode)) (.bind_ok hcond' ?_)
      exact hblock hnode (by simp [Node.children]) hbody
    | functionDef hnode hparams hbody =>
      refine .bind_ok (fetch_eq_ok.2 (h.fixed rfl hnode)) (.bind_ok (a := ()) ?_ ?_)
      · refine forM_eq_ok.2 fun c hc => ?_
        obtain ⟨v, hv⟩ := hparams c hc
        exact bind_eq_ok.2 ⟨v, checkTarget_eq_ok.2 (h.leaf rfl hv), rfl⟩
      · exact hblock hnode (by simp [Node.children]) hbody
    | debug hnode => exact .bind_ok (fetch_eq_ok.2 (h.leaf rfl hnode)) (.inl rfl)

end Substitutes

end Graph

/-! ## Programs -/

namespace Program

variable {p : Program} {s : Propagation}

/-- An array that a variable may hold is as long as declared by the variables that it is assigned
to. -/
def LengthsAgree (p : Program) : Prop :=
  ∀ v w length elements, p.Assigns v (.var w) → v.length = some length →
    p.MayHold w.name elements → elements.length = length

/-- The variables that are assigned and what they are assigned, in nodes that cannot be reached as
well. -/
def assignments (p : Program) : List (Variable × Node) :=
  p.graph.entries.toList.filterMap fun entry => match entry.node with
    | .assign target value => match p.graph.node? target, p.graph.node? value with
      | some (.var v), some node => some (v, node)
      | _, _ => none
    | _ => none

/-- An assignment that can be reached is among all assignments. -/
theorem Assigns.mem_assignments {v : Variable} {node : Node} (h : p.Assigns v node) :
    (v, node) ∈ p.assignments := by
  obtain ⟨id, target, value, -, hnode, htarget, hvalue⟩ := h
  obtain ⟨entry, hentry, hnode⟩ := Option.map_eq_some_iff.1 hnode
  have hmem : entry ∈ p.graph.entries.toList := Array.mem_def.1 (Array.mem_of_getElem? hentry)
  refine List.mem_filterMap.2 ⟨entry, hmem, ?_⟩
  simp only [hnode, htarget, hvalue]

/-- The elements that a name may hold have passed the check, as those of some constant. -/
theorem MayHold.inRange (hcheck : p.check = .ok ()) {x : String} {elements : List Int8}
    (h : p.MayHold x elements) : (Literal.array elements).InRange := by
  induction h with
  | literal h =>
    obtain ⟨id, target, value, hid, hnode, -, hvalue⟩ := h
    exact (checked_of_check hcheck (hid.child ⟨_, hnode, by simp [Node.children]⟩)).inRange hvalue
  | copy _ _ ih => exact ih

/-- What constant propagation puts into slots is of the kinds that are found there, and in range. -/
theorem agreeable_of_check {κ : String → Kind} (hcheck : p.check = .ok ()) :
    Graph.Agreeable (fun c l => (∀ k, p.graph.HasKind κ c k → l.kind = k) ∧
      p.graph.Yields p.MayHold c l) κ p.graph := by
  rintro c l d k ⟨hkind, hyields⟩ hvars hc
  refine ⟨hkind k (Graph.hasKind_of_checkExpr hc hvars), fun elements hl => ?_⟩
  obtain ⟨node, hnode⟩ := Graph.exists_node_of_checkExpr hc
  rcases hyields elements node hl hnode with rfl | ⟨w, rfl, hw⟩
  · exact (Graph.Checked.evaluable hc).inRange hnode elements hl
  · exact hw.inRange hcheck elements rfl

/-- A program that passes the check passes it again after constant propagation, if its variables of
one name have one kind and arrays are assigned to variables of their length. The only error that can
come up is about a variable that is assigned an array of another length by way of a variable. -/
theorem check_of_propagate (hbuilt : p.graph.Built) (hcheck : p.check = .ok ()) (hkinds : p.KindsAgree)
    (hrun : p.propagate = .ok () s) :
    (p.LengthsAgree → check { p with graph := s.graph } = .ok ()) ∧
    (check { p with graph := s.graph } = .ok () ∨
      ∃ v w length elements, p.Assigns v (.var w) ∧ v.length = some length ∧
        p.MayHold w.name elements ∧ elements.length ≠ length ∧
        check { p with graph := s.graph } =
          .error (.error (.lengthMismatch v.name length elements.length))) := by
  obtain ⟨κ, hvars⟩ := hkinds.exists_varsFit
  have hkeeps := (propagate_meets hbuilt.linked (inOrder_of_check hcheck hvars)).ok hrun
  have hyields := yields_of_propagate (fun n hn => (checked_of_check hcheck hn).exists_node) hrun
  have hsub := hkeeps.substitutes.and hyields
  have hmain : check { p with graph := s.graph } = .ok () ∨
      ∃ v w length elements, p.Assigns v (.var w) ∧ v.length = some length ∧
        p.MayHold w.name elements ∧ elements.length ≠ length ∧
        check { p with graph := s.graph } =
          .error (.error (.lengthMismatch v.name length elements.length)) := by
    have hagain : OrFails (fun e => ∃ id ∈ p.body, Graph.Clashes _ p.graph id e)
        (check { p with graph := s.graph }) := .forM fun id hid =>
      (hsub.checkStatement (agreeable_of_check hcheck) (forM_eq_ok.1 hcheck id hid) (hvars id hid)
        (Nat.succ_le_succ hsub.size_le)).mono fun e he => ⟨id, hid, he⟩
    refine hagain.imp_right ?_
    rintro ⟨e, he, id, hid, hclash⟩
    cases hclash with
    | @intro n target value v length elements hn hnode htarget hlength hfits hvalue hdiffers =>
      have hreach : p.Reachable n := ⟨id, hid, hn⟩
      have hchild : p.Reachable value := hreach.child ⟨_, hnode, by simp [Node.children]⟩
      obtain ⟨node, hvalueNode⟩ := (checked_of_check hcheck hchild).exists_node
      rcases hvalue.2 elements node rfl hvalueNode with rfl | ⟨w, rfl, hw⟩
      · exact (hdiffers (hfits length elements hlength hvalueNode)).elim
      · exact ⟨v, w, length, elements, ⟨n, target, value, hreach, hnode, htarget, hvalueNode⟩, hlength,
          hw, hdiffers, he⟩
  refine ⟨fun hlengths => hmain.resolve_right ?_, hmain⟩
  rintro ⟨v, w, length, elements, hassigns, hlength, hw, hdiffers, -⟩
  exact hdiffers (hlengths v w length elements hassigns hlength hw)

/-- Arrays of one length that are passed on, also out of a function that does not run:
`a = [1, 2]; b = a; def f() (c = b; a = c); d = b`, where `b` is one node in its two uses. -/
def passedOn : Program :=
  ⟨.ofNodes [.constant (.array [1, 2]), .var (.array "a" 2), .assign ⟨1⟩ ⟨0⟩,
    .var (.array "b" 2), .assign ⟨3⟩ ⟨1⟩, .var (.array "c" 2), .assign ⟨5⟩ ⟨3⟩, .assign ⟨1⟩ ⟨5⟩,
    .functionDef "f" [] [⟨6⟩, ⟨7⟩] .scalar, .var (.array "d" 2), .assign ⟨9⟩ ⟨3⟩],
  [⟨2⟩, ⟨4⟩, ⟨8⟩, ⟨10⟩]⟩

/-- The arrays come into the slots of other assignments, and the check passes again. -/
theorem check_of_propagate_passedOn : passedOn.graph.Built ∧ passedOn.check = .ok () ∧
    passedOn.KindsAgree ∧ passedOn.LengthsAgree ∧
    ∃ s, passedOn.propagate = .ok () s ∧ s.graph ≠ passedOn.graph ∧
      check { passedOn with graph := s.graph } = .ok () := by
  have hbuilt : passedOn.graph.Built := by
    dsimp only [passedOn]
    exact Graph.built_ofNodes _
  have hcheck : passedOn.check = .ok () := by decide +kernel
  have hkinds : passedOn.KindsAgree := kindsAgree_of_vars (by decide +kernel)
  have hassigned : ∀ a ∈ passedOn.assignments, a.1.length = some 2 ∧
    (a.2 = .constant (.array [1, 2]) ∨ a.2.shape = .var) := by decide +kernel
  have hholds : ∀ {x elements}, passedOn.MayHold x elements → elements = [1, 2] := by
    intro x elements h
    induction h with
    | literal h =>
      rcases (hassigned _ h.mem_assignments).2 with heq | hshape
      · cases heq
        rfl
      · cases hshape
    | copy _ _ ih => exact ih
  have hlengths : passedOn.LengthsAgree := by
    intro v w length elements hassigns hlength hw
    rw [hholds hw]
    exact Option.some.inj ((hassigned _ hassigns.mem_assignments).1.symm.trans hlength)
  have hends : ∃ u s, passedOn.propagate = .ok u s ∧ s.graph ≠ passedOn.graph := by decide +kernel
  obtain ⟨u, s, hrun, hchanged⟩ := hends
  exact ⟨hbuilt, hcheck, hkinds, hlengths, s, hrun, hchanged,
    (check_of_propagate hbuilt hcheck hkinds hrun).1 hlengths⟩

/-- An array that is assigned to a variable of another length: `a = [1, 2]; b = a`, where `b` has
three elements. -/
def shortIntoLong : Program :=
  ⟨.ofNodes [.constant (.array [1, 2]), .var (.array "a" 2), .assign ⟨1⟩ ⟨0⟩,
    .var (.array "b" 3), .assign ⟨3⟩ ⟨1⟩], [⟨2⟩, ⟨4⟩]⟩

/-- The check does not compare the lengths of two variables, but it does once the constant stands in
the slot. -/
theorem shortIntoLong_refused : shortIntoLong.graph.Built ∧ shortIntoLong.check = .ok () ∧
    shortIntoLong.KindsAgree ∧ ∃ s, shortIntoLong.propagate = .ok () s ∧
      check { shortIntoLong with graph := s.graph } = .error (.error (.lengthMismatch "b" 3 2)) := by
  have hends : ∃ u s, shortIntoLong.propagate = .ok u s ∧
      check { shortIntoLong with graph := s.graph } = .error (.error (.lengthMismatch "b" 3 2)) := by
    decide +kernel
  obtain ⟨u, s, hrun, hrefused⟩ := hends
  refine ⟨?_, by decide +kernel, kindsAgree_of_vars (by decide +kernel), s, hrun, hrefused⟩
  dsimp only [shortIntoLong]
  exact Graph.built_ofNodes _

end Program

end RegisterBackend
