/-
  What is shown where, in programs of functions.

  A program is `Plain` if it is tree-shaped and has no structures, neither of its own nor
  borrowed.  A name then stands for a statement before, for an input of a function around,
  or for a function around itself; all of these are bound to values when the program runs
  (`Shows`).

  `functionsAround` lists the functions around a node, the nearest first.

  Main statements: `Plain.shows_statement` and `Plain.shows_part`, what is shown to the
  statements of a block and to the parts of a function.
-/
import Arbor.Proofs.Program.Basis
import Arbor.Proofs.Program.Shape

namespace Arbor.Program

variable (p : Program)

/-! ## Programs without structures -/

/-- A tree-shaped program over the basis without structures, which borrows none, and whose
    type variables are type variables. -/
structure Plain : Prop where
  tree : p.TreeShaped
  basis : p.OverBasis
  structures : ∀ id ∈ p.tree.nodes, ¬p.IsStructure id
  borrows : ∀ id ∈ p.tree.nodes, ∀ n d, p.node? id = some (.borrow n) →
    p.borrowed n ≠ some (.structureDef d)
  typeVariables : ∀ id ∈ p.tree.nodes, ∀ v ∈ p.typeVariables id,
    ∃ ns, p.node? v = some (.typeVariable ns)

/-- Whether a node may be in a program without structures. -/
def isPlainAt (id : NodeId) : Bool :=
  match p.node? id with
  | some (.structureDefinition ..) => false
  | some (.borrow n) => !(p.borrowed n matches some (.structureDef _))
  | some (.functionDefinition _ vs ..) =>
    ((p.arena.list vs).all fun v => p.node? v matches some (.typeVariable _))
  | _ => true

/-- A name stands for a definition that is bound to a value when the program runs. -/
def Stands (n : Name) (user x : NodeId) : Prop :=
  p.resolve n user = some (.bind x) ∨ p.resolve n user = some (.function x)

/-- Some name stands for the definition. -/
def Shows (user x : NodeId) : Prop := ∃ n, p.Stands n user x

/-- Whether the node is a function, with or without a body. -/
def isFunction (id : NodeId) : Bool :=
  (p.node? id).any fun n => n.isAbstractFunction || n.isImplementedFunction

/-- The functions around a node, the nearest first. -/
def functionsAround (id : NodeId) : List NodeId := (p.tree.ancestors id).filter p.isFunction

/-- The node is a named value or a function. -/
def Binds (id : NodeId) : Prop :=
  (∃ ns type value, p.node? id = some (.bind ns type value)) ∨ p.IsFunction id

variable {p}

theorem isFunction_iff {id : NodeId} : p.isFunction id = true ↔ p.IsFunction id := by
  unfold isFunction IsFunction
  cases hn : p.node? id with
  | none => simp
  | some n =>
    cases n with
    | functionDefinition ns vs is output body =>
      cases body <;> simp [Node.isAbstractFunction, Node.isImplementedFunction]
    | _ => simp [Node.isAbstractFunction, Node.isImplementedFunction]

theorem binds_of_classify {id x : NodeId}
    (h : p.classify id = some (.bind x) ∨ p.classify id = some (.function x)) :
    id = x ∧ p.Binds x := by
  rcases h with h | h
  · obtain ⟨rfl, ns, type, value, hn⟩ := bind_of_classify h
    exact ⟨rfl, .inl ⟨ns, type, value, hn⟩⟩
  · obtain ⟨rfl, hn⟩ := function_of_classify h
    exact ⟨rfl, .inr hn⟩

/-- Only functions and structures have inputs. -/
theorem inputs_eq_nil {id : NodeId} (hf : ¬p.IsFunction id) (hs : ¬p.IsStructure id) :
    p.inputs id = [] := by
  have hlist : p.inputList id = .empty := by
    unfold inputList
    split
    · next ns vs is output body hn => exact absurd ⟨ns, vs, is, output, body, hn⟩ hf
    · next ns fs vs is body hn => exact absurd ⟨ns, fs, vs, is, body, hn⟩ hs
    · rfl
  rw [inputs, hlist]
  simp [Arena.list, NodeRange.empty]

theorem inputs_subset_children {id x : NodeId} (h : x ∈ p.inputs id) :
    x ∈ p.arena.children id := by
  unfold inputs inputList at h
  split at h
  · next ns vs is output body hn =>
    rw [Arena.children_eq hn, Arena.childrenOf_functionDefinition]
    simp [h]
  · next ns fs vs is body hn =>
    rw [Arena.children_eq hn, Arena.childrenOf_structureDefinition]
    simp [h]
  · simp [Arena.list, NodeRange.empty] at h

/-- What holds of the root and passes on to children holds of every node of the program. -/
theorem TreeShaped.induct (h : p.TreeShaped) {P : NodeId → Prop} (root : P p.root)
    (child : ∀ id ∈ p.tree.nodes, P id → ∀ c ∈ p.arena.children id, P c) :
    ∀ id ∈ p.tree.nodes, P id := by
  obtain ⟨rank, hrank⟩ := h.acyclic
  have below (n : Nat) : ∀ top ∈ p.tree.nodes, rank top = n → P top →
      ∀ id ∈ p.arena.preorder top, P id := by
    induction n using Nat.strongRecOn with
    | _ n ih =>
      rintro top htop rfl hP id hid
      rw [Arena.preorder_eq ⟨rank, hrank⟩] at hid
      rcases List.mem_cons.1 hid with rfl | hid
      · exact hP
      · obtain ⟨c, hc, hid⟩ := List.mem_flatMap.1 hid
        exact ih (rank c) (hrank top c hc) c (h.child_mem htop hc) rfl (child top htop hP c hc) id hid
  intro id hid
  rw [h.nodes_eq] at hid
  exact below _ p.root h.root_mem rfl root id hid

/-- A program is plain if all its nodes may be in one. -/
theorem TreeShaped.plain (h : p.TreeShaped) (hb : p.OverBasis)
    (hall : p.tree.nodes.all p.isPlainAt) : p.Plain := by
  have hat (id : NodeId) (hid : id ∈ p.tree.nodes) : p.isPlainAt id = true :=
    List.all_eq_true.1 hall id hid
  refine ⟨h, hb, fun id hid => ?_, fun id hid n d hn hd => ?_, fun id hid v hv => ?_⟩
  · rintro ⟨ns, fs, vs, is, body, hn⟩
    have := hat id hid
    simp [isPlainAt, hn] at this
  · have := hat id hid
    simp [isPlainAt, hn, hd] at this
  · have hid' := hat id hid
    unfold Program.typeVariables at hv
    split at hv
    · next ns vs is output body hn =>
      simp only [isPlainAt, hn, List.all_eq_true] at hid'
      have hv := hid' v hv
      split at hv
      · next ns' hn' => exact ⟨ns', hn'⟩
      · cases hv
    · next ns fs vs is body hn => simp [isPlainAt, hn] at hid'
    · cases hv

namespace Plain

variable (h : p.Plain)
include h

/-! ## What is shown to children -/

/-- No name stands for a structure. -/
theorem resolve_ne_structure (n : Name) (d : NodeId) :
    ∀ id ∈ p.tree.nodes, p.resolve n id ≠ some (.structureDef d) := by
  refine h.tree.induct ?_ fun id hid ih c hc => ?_
  · rw [h.tree.resolve_root]
    nofun
  · rw [h.tree.resolve_child hid hc]
    intro hd
    rcases Option.or_eq_some_iff.1 hd with hd | ⟨-, hd⟩
    · have inside {x : NodeId} (hx : x ∈ p.arena.children id)
          (hnamed : p.definitionNamed n x = some (.structureDef d)) : False := by
        have hclassify := classify_of_definitionNamed hnamed
        unfold classify at hclassify
        split at hclassify <;> cases hclassify
        next ns fs vs is body hn =>
          exact h.structures _ (h.tree.child_mem hid hx) ⟨ns, fs, vs, is, body, hn⟩
      unfold definitionInScope at hd
      split at hd
      · next ss hn =>
        have hchildren : p.arena.children id = p.arena.list ss := by
          rw [Arena.children_eq hn, Arena.childrenOf_block]
        rcases named_of_visibleInBlock hd with ⟨k, x, -, hx, hnamed⟩ | ⟨-, hnamed⟩
        · exact inside (hchildren ▸ List.mem_of_mem_take hx) hnamed
        · exact inside hc hnamed
      · next ns vs is output body hn =>
        obtain ⟨x, hx, hnamed⟩ := named_of_firstNamed hd
        refine inside ?_ hnamed
        rw [Arena.children_eq hn, Arena.childrenOf_functionDefinition]
        simp only [List.flatMap_cons, List.flatMap_nil, List.append_nil, List.mem_append] at hx
        rcases hx with hx | hx <;> simp [hx]
      · next ns fs vs is body hn => exact h.structures id hid ⟨ns, fs, vs, is, body, hn⟩
      · next borrows main hn =>
        split at hd
        · next hb =>
          unfold borrowsName at hb
          obtain ⟨b, hb, hbn⟩ := List.any_eq_true.1 hb
          have hbc : b ∈ p.arena.children id := by
            rw [Arena.children_eq hn, Arena.childrenOf_program]
            simp [hb]
          exact h.borrows b (h.tree.child_mem hid hbc) n d (eq_of_beq hbn) hd
        · cases hd
      · cases hd
    · exact ih hd

theorem not_shows_root (x : NodeId) : ¬p.Shows p.root x := by
  rintro ⟨n, hn⟩
  unfold Stands at hn
  rw [h.tree.resolve_root] at hn
  rcases hn with hn | hn <;> cases hn

/-- What a child is shown is shown by its parent, or to its parent. -/
theorem shows_child {id c x : NodeId} (hid : id ∈ p.tree.nodes) (hc : c ∈ p.arena.children id)
    (hx : p.Shows c x) :
    (∃ n, p.definitionInScope id c n = some (.bind x) ∨
      p.definitionInScope id c n = some (.function x)) ∨ p.Shows id x := by
  obtain ⟨n, hn⟩ := hx
  unfold Stands at hn
  rw [h.tree.resolve_child hid hc] at hn
  cases hd : p.definitionInScope id c n with
  | none =>
    rw [hd, Option.none_or] at hn
    exact .inr ⟨n, hn⟩
  | some d =>
    rw [hd, Option.some_or, ← hd] at hn
    exact .inl ⟨n, hn⟩

/-- A node that is no block and no function shows nothing of its own. -/
theorem shows_child_plain {id c x : NodeId} (hid : id ∈ p.tree.nodes)
    (hc : c ∈ p.arena.children id) (hb : ∀ ss, p.node? id ≠ some (.block ss))
    (hf : ¬p.IsFunction id) (hx : p.Shows c x) : p.Shows id x := by
  rcases h.shows_child hid hc hx with ⟨n, hn⟩ | hx
  · exfalso
    unfold definitionInScope at hn
    split at hn
    · next ss hn' => exact hb ss hn'
    · next ns vs is output body hn' => exact hf ⟨ns, vs, is, output, body, hn'⟩
    · next ns fs vs is body hn' => exact h.structures id hid ⟨ns, fs, vs, is, body, hn'⟩
    · unfold borrowed at hn
      split at hn
      · split at hn <;> rcases hn with hn | hn <;> cases hn
      · rcases hn with hn | hn <;> cases hn
    · rcases hn with hn | hn <;> cases hn
  · exact hx

/-- A statement is shown the named values and functions before it, and itself if it is a
    function. -/
theorem shows_statement {id c x : NodeId} {ss : NodeRange} {before after : List NodeId}
    (hid : id ∈ p.tree.nodes) (hn : p.node? id = some (.block ss))
    (hss : p.arena.list ss = before ++ c :: after) (hx : p.Shows c x) :
    (x ∈ before ∧ p.Binds x) ∨ (x = c ∧ p.IsFunction c) ∨ p.Shows id x := by
  have hchildren : p.arena.children id = p.arena.list ss := by
    rw [Arena.children_eq hn, Arena.childrenOf_block]
  have hc : c ∈ p.arena.children id := by rw [hchildren, hss]; simp
  rcases h.shows_child hid hc hx with ⟨n, hd⟩ | hx
  · have hscope : p.definitionInScope id c n = p.visibleInBlock ss c n := by
      unfold definitionInScope
      rw [hn]
    rw [hscope] at hd
    have named {d : Definition} (hd : p.visibleInBlock ss c n = some d)
        (hdx : d = .bind x ∨ d = .function x) :
        (x ∈ before ∧ p.Binds x) ∨ (x = c ∧ p.IsFunction c) := by
      have binds {y : NodeId} (hy : p.definitionNamed n y = some d) : y = x ∧ p.Binds x := by
        refine binds_of_classify ?_
        rw [classify_of_definitionNamed hy]
        exact hdx.imp (congrArg some) (congrArg some)
      rcases named_of_visibleInBlock hd with ⟨k, y, hk, hy, hyd⟩ | ⟨hself, hyd⟩
      · obtain ⟨rfl, hb⟩ := binds hyd
        have hnodup := h.tree.nodup_children hid
        rw [hchildren, hss] at hnodup
        have hkb : k = before.length := by
          rw [hss] at hk
          obtain ⟨hlt, -⟩ := List.getElem?_eq_some_iff.1 hk
          exact (List.getElem?_inj hlt hnodup).1 (by rw [hk]; simp)
        rw [hss, hkb, List.take_left] at hy
        exact .inl ⟨hy, hb⟩
      · obtain ⟨rfl, hb⟩ := binds hyd
        refine .inr ⟨rfl, ?_⟩
        unfold namesItself at hself
        split at hself
        · next ns vs is output body hn' => exact ⟨ns, vs, is, output, body, hn'⟩
        · next ns fs vs is body hn' =>
          exact absurd ⟨ns, fs, vs, is, body, hn'⟩ (h.structures _ (h.tree.child_mem hid hc))
        · cases hself
    rcases hd with hd | hd
    · rcases named hd (.inl rfl) with hb | hs
      · exact .inl hb
      · exact .inr (.inl hs)
    · rcases named hd (.inr rfl) with hb | hs
      · exact .inl hb
      · exact .inr (.inl hs)
  · exact .inr (.inr hx)

/-- The parts of a function are shown its inputs, and what the function is shown. -/
theorem shows_part {d c x : NodeId} (hd : d ∈ p.tree.nodes) (hf : p.IsFunction d)
    (hc : c ∈ p.arena.children d) (hx : p.Shows c x) : x ∈ p.inputs d ∨ p.Shows d x := by
  obtain ⟨ns, vs, is, output, body, hn⟩ := hf
  rcases h.shows_child hd hc hx with ⟨n, hdx⟩ | hx
  · refine .inl ?_
    have hscope : p.definitionInScope d c n = p.firstNamed n [is, vs] := by
      unfold definitionInScope
      rw [hn]
    rw [hscope] at hdx
    have named {e : Definition} (he : p.firstNamed n [is, vs] = some e)
        (hex : e = .bind x ∨ e = .function x) : x ∈ p.inputs d := by
      obtain ⟨y, hy, hye⟩ := named_of_firstNamed he
      have hclassify := classify_of_definitionNamed hye
      have hyx : y = x := (binds_of_classify (hclassify ▸ hex.imp (congrArg some) (congrArg some))).1
      subst hyx
      rw [List.flatMap_cons, List.flatMap_cons, List.flatMap_nil, List.append_nil,
        List.mem_append] at hy
      rcases hy with hy | hy
      · simpa [inputs, inputList, hn] using hy
      · obtain ⟨ns', hv⟩ := h.typeVariables d hd y (by simpa [Program.typeVariables, hn] using hy)
        unfold classify at hclassify
        rw [hv] at hclassify
        cases hclassify
        rcases hex with hex | hex <;> cases hex
    rcases hdx with hdx | hdx
    · exact named hdx (.inl rfl)
    · exact named hdx (.inr rfl)
  · exact .inr hx

/-! ## Functions around nodes -/

theorem functionsAround_root : p.functionsAround p.root = [] := by
  rw [functionsAround, h.tree.ancestors_root]
  rfl

theorem functionsAround_child {id c : NodeId} (hid : id ∈ p.tree.nodes)
    (hc : c ∈ p.arena.children id) (hf : ¬p.IsFunction id) :
    p.functionsAround c = p.functionsAround id := by
  rw [functionsAround, h.tree.ancestors_child hid hc, List.filter_cons_of_neg]
  · rfl
  · exact fun e => hf (isFunction_iff.1 e)

theorem functionsAround_part {d c : NodeId} (hd : d ∈ p.tree.nodes) (hf : p.IsFunction d)
    (hc : c ∈ p.arena.children d) : p.functionsAround c = d :: p.functionsAround d := by
  rw [functionsAround, h.tree.ancestors_child hd hc, List.filter_cons_of_pos (isFunction_iff.2 hf)]
  rfl

end Plain

end Arbor.Program
