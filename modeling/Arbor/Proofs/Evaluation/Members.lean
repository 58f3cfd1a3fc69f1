/-
  Members of instances.

  An instance begins with its inputs, and the statements of its structure bind what they name in
  the same scope.  So it binds all named values of its own, and to read one of them gives what is
  bound.  The blocks of its interfaces are not evaluated: a named value that is a member by an
  interface alone is looked for around the instance.

  An operation enters the function that is the member of its left operand, unless the operator is
  one of the two that have to see a truth value before their right operand.

  * `Program.OwnValue p d b`: the node `b` is an input of the structure, or a named value of its
    block;
  * `Program.Creates p c s s' v`: what the call of a structure makes of the scopes.

  Main statements: `creates_openCall`, `Creates.propertyValue_own` and
  `Creates.propertyValue_inherited`, data members; `evaluate_operation`, operators.
-/
import Arbor.Proofs.Evaluation.Extent
import Arbor.Proofs.Machine.Sound

namespace Arbor

theorem Scopes.Grows.own? {s s' : Scopes} (h : s.Grows s') {id : ScopeId} {d : NodeId}
    (hd : (s.own? id d).isSome) : (s'.own? id d).isSome := by
  unfold Scopes.own? at hd ⊢
  cases hs : s.get? id with
  | none =>
    rw [hs] at hd
    cases hd
  | some scope =>
    rw [hs] at hd
    obtain ⟨scope', hs', -, hkeeps⟩ := h.scope id scope hs
    rw [hs']
    exact hkeeps d hd

namespace Program

/-! ## What an instance binds -/

/-- An input of a structure, or a named value of its block. -/
def OwnValue (p : Program) (d b : NodeId) : Prop :=
  b ∈ p.inputs d ∨ b ∈ p.statements d ∧ ∃ ns type value, p.node? b = some (.bind ns type value)

/-- The call of a structure turns the scopes `s` into `s'`, and gives an instance with a scope of
    its own. -/
structure Creates (p : Program) (c : Call) (s s' : Scopes) (v : Value) : Prop where
  value : v = .instanceOf c.definition ⟨s.size⟩
  around : s'.parent? ⟨s.size⟩ = c.closure
  /-- It binds its own values, -/
  binds : ∀ b, p.OwnValue c.definition b → (s'.own? ⟨s.size⟩ b).isSome
  /-- and nothing that is not below its structure. -/
  others : ∀ b, b ∉ p.inputs c.definition →
    (∀ x ∈ p.statements c.definition, b ∉ p.arena.preorder x) → s'.own? ⟨s.size⟩ b = none

variable {p : Program} {room : Nat} {env : Env} {s s' : Scopes} {v : Value}

/-- A named value is bound when it was evaluated. -/
theorem own?_of_evaluate (ha : p.arena.Acyclic) {b ns : NodeId} {type value : Option NodeId}
    (hn : p.node? b = some (.bind ns type value)) (hscope : env.scope.index < s.size)
    (h : (p.evaluate room env b).on s = (.ok v, s')) : (s'.own? env.scope b).isSome := by
  rw [evaluate_eq ha] at h
  simp only [evaluateNode, hn] at h
  cases value with
  | none => cases h
  | some value =>
    have hgrows := grows_evaluate ha room env value s
    rw [Eval.on_bind] at h
    revert h hgrows
    rcases (p.evaluate room env value).on s with ⟨e | w, s₁⟩
    · nofun
    intro h hgrows
    cases h
    rw [Scopes.own?_define _ (Nat.lt_of_lt_of_le hscope hgrows.size), if_pos ⟨rfl, rfl⟩]
    rfl

/-- The named values among statements are bound when these were evaluated. -/
theorem own?_of_inOrder (ha : p.arena.Acyclic) {ids : List NodeId} {vs : List Value}
    (hscope : env.scope.index < s.size)
    (h : (Eval.inOrder (p.evaluate room env) ids).on s = (.ok vs, s')) :
    ∀ b ∈ ids, (∃ ns type value, p.node? b = some (.bind ns type value)) →
      (s'.own? env.scope b).isSome := by
  induction ids generalizing s vs with
  | nil => nofun
  | cons id ids ih =>
    unfold Eval.inOrder at h
    rw [Eval.on_bind] at h
    have hgrows := grows_evaluate ha room env id s
    cases hfirst : (p.evaluate room env id).on s with
    | mk first s₁ =>
    rw [hfirst] at h hgrows
    cases first with
    | error e => cases h
    | ok w =>
      dsimp only at h
      rw [Eval.on_bind] at h
      have hkeeps : Eval.Grows (Eval.inOrder (p.evaluate room env) ids) :=
        Eval.compositional_grows.inOrder fun c _ => grows_evaluate ha room env c
      replace hkeeps := hkeeps s₁
      have hscope₁ := Nat.lt_of_lt_of_le hscope hgrows.size
      cases hrest : (Eval.inOrder (p.evaluate room env) ids).on s₁ with
      | mk rest s₂ =>
      rw [hrest] at h hkeeps
      cases rest with
      | error e => cases h
      | ok ws =>
        cases h
        intro b hb hbind
        rcases List.mem_cons.1 hb with rfl | hb
        · obtain ⟨ns, type, value, hn⟩ := hbind
          exact hkeeps.own? (own?_of_evaluate ha hn hscope hfirst)
        · exact ih hscope₁ hrest b hb hbind

/-- The call of a structure evaluates its statements in a new scope. -/
theorem inOrder_of_openCall {evaluate : Env → NodeId → Eval Value} {c : Call} {ns : NodeId}
    {fs vs is : NodeRange} {body : Option NodeId}
    (hd : p.node? c.definition = some (.structureDefinition ns fs vs is body))
    (h : (p.openCall evaluate env c).on s = (.ok v, s')) :
    v = .instanceOf c.definition ⟨s.size⟩ ∧ ∃ scope ws, p.callScope c = .ok scope ∧
      (Eval.inOrder (evaluate (env.inside c ⟨s.size⟩)) (p.statements c.definition)).on
        (s.add scope).2 = (.ok ws, s') := by
  rw [openCall_eq] at h
  cases hcall : p.callScope c with
  | error e =>
    rw [hcall] at h
    cases h
  | ok scope =>
  rw [hcall] at h
  dsimp only at h
  rw [Eval.on_bind, Eval.on_modifyGet] at h
  have hid : (s.add scope).1 = ⟨s.size⟩ := rfl
  unfold evaluateBody at h
  rw [hd] at h
  dsimp only at h
  rw [Eval.on_bind, hid] at h
  cases hrun : (Eval.inOrder (evaluate (env.inside c ⟨s.size⟩)) (p.statements c.definition)).on
      (s.add scope).2 with
  | mk result s₁ =>
  rw [hrun] at h
  cases result with
  | error e => cases h
  | ok ws =>
    cases h
    exact ⟨rfl, scope, ws, rfl, hrun⟩

/-- **What the call of a structure creates.** -/
theorem creates_openCall (ha : p.arena.Acyclic) {c : Call} {ns : NodeId} {fs vs is : NodeRange}
    {body : Option NodeId}
    (hd : p.node? c.definition = some (.structureDefinition ns fs vs is body))
    (h : (p.openCall (p.evaluate room) env c).on s = (.ok v, s')) : p.Creates c s s' v := by
  obtain ⟨hv, scope, ws, hcall, hrun⟩ := inOrder_of_openCall hd h
  obtain ⟨hparent, hinputs, -⟩ := callScope_ok hcall
  let inside := env.inside c ⟨s.size⟩
  have hsize : inside.scope.index + 1 = (s.add scope).2.size := (Scopes.size_add s scope).symm
  have hscope : inside.scope.index < (s.add scope).2.size := Nat.lt_of_succ_le (Nat.le_of_eq hsize)
  -- The statements bind in the scope of the instance, and only what is below them.
  have hgrows : Eval.Grows (Eval.inOrder (p.evaluate room inside) (p.statements c.definition)) :=
    Eval.compositional_grows.inOrder fun x _ => grows_evaluate ha room inside x
  have hspares : Eval.Spares
      (fun id d => ∃ x ∈ p.statements c.definition, id = inside.scope ∧ d ∈ p.arena.preorder x)
      (inside.scope.index + 1)
      (Eval.inOrder (p.evaluate room inside) (p.statements c.definition)) :=
    (Eval.compositional_spares _ _).inOrder fun x hx =>
      (spares_evaluate ha room inside x).mono fun _ _ hid => ⟨x, hx, hid⟩
  replace hgrows := hgrows (s.add scope).2
  replace hspares := hspares (s.add scope).2 (Nat.le_of_eq hsize)
  rw [hrun] at hgrows hspares
  refine ⟨hv, ?_, fun b hb => ?_, fun b hb hbelow => ?_⟩
  · exact (hspares.parent _ hscope).trans ((Scopes.parent?_add_new s scope).trans hparent)
  · rcases hb with hb | ⟨hb, hbind⟩
    · refine hgrows.own? ?_
      rw [← hinputs b, ← Scopes.own?_add_new s scope] at hb
      exact hb
    · exact own?_of_inOrder ha hscope hrun b hb hbind
  · have hnone : scope.bindings.get? b = none := by
      rw [← Option.not_isSome_iff_eq_none, hinputs b]
      exact hb
    have hsame := hspares.own inside.scope b hscope fun ⟨x, hx, _, hx'⟩ => hbelow x hx hx'
    exact hsame.trans ((Scopes.own?_add_new s scope b).trans hnone)

/-! ## Data members -/

/-- A named value that is found in the structure itself is one of its own. -/
theorem ownValue_of_ownMember {d b : NodeId} {n : Name}
    (h : p.ownMember n d = some (.bind b)) : p.OwnValue d b := by
  unfold ownMember at h
  rw [firstNamed_eq] at h
  obtain ⟨x, hx, hdefines⟩ := List.exists_of_findSome?_eq_some h
  have hnode : x = b ∧ ∃ ns type value, p.node? b = some (.bind ns type value) := by
    unfold definitionNamed classify at hdefines
    cases hn : p.node? x with
    | none =>
      rw [hn] at hdefines
      cases hdefines
    | some node =>
      rw [hn] at hdefines
      cases node <;> simp at hdefines
      obtain ⟨-, rfl⟩ := hdefines
      exact ⟨rfl, _, _, _, hn⟩
  obtain ⟨rfl, hbind⟩ := hnode
  rw [List.flatMap_cons, List.flatMap_singleton, List.mem_append] at hx
  exact hx.imp id fun hx => ⟨hx, hbind⟩

section
variable {c : Call} {b id : NodeId} {n : Name} {s'' : Scopes}

/-- **A data member of its own** is read at any later time, and gives what is bound. -/
theorem Creates.propertyValue_own (h : p.Creates c s s' v) (hlater : s'.Grows s'')
    (hn : p.ownMember n c.definition = some (.bind b)) :
    ∃ w, s''.own? ⟨s.size⟩ b = some w ∧ p.propertyValue s'' id v n = w := by
  obtain ⟨w, hw⟩ := Option.isSome_iff_exists.1
    (hlater.own? (h.binds b (ownValue_of_ownMember hn)))
  refine ⟨w, hw, ?_⟩
  have hmember : p.member c.definition n = some (.bind b) := by
    unfold member
    rw [hn]
  unfold propertyValue
  rw [h.value]
  dsimp only
  rw [hmember]
  dsimp only
  rw [Scopes.lookup_of_own? hw, Option.getD_some]

/-- **A data member by an interface alone** is looked for around the instance; where it is not
    found, there is no value to read. -/
theorem Creates.propertyValue_inherited (h : p.Creates c s s' v)
    (hn : p.member c.definition n = some (.bind b)) (hinput : b ∉ p.inputs c.definition)
    (hbelow : ∀ x ∈ p.statements c.definition, b ∉ p.arena.preorder x) :
    p.propertyValue s' id v n =
      (c.closure.bind fun parent =>
        if parent.index < s.size then s'.lookup parent b else none).getD
          (.exception ⟨.name n, id⟩) := by
  unfold propertyValue
  rw [h.value]
  dsimp only
  rw [hn]
  dsimp only
  rw [Scopes.lookup_eq, h.others b hinput hbelow, h.around, Option.none_or]

end

/-! ## Operators -/

/-- **An operation on an instance** enters the member that is named by the operator, unless the
    operator has to see a truth value first. -/
theorem evaluate_operation (ha : p.arena.Acyclic) {o l r d f : NodeId} {op : Name}
    {scope : ScopeId} (hn : p.node? o = some (.binaryOperation l op r))
    (hleft : (p.evaluate room env l).on s = (.ok (.instanceOf d scope), s'))
    (hmember : p.member d op = some (.function f))
    (hbody : (p.node? f).any Node.isAbstractFunction = false) :
    (p.evaluate room env o).on s =
      if op.isShortCircuit then (.error (.raised ⟨.expectedBoolean, o⟩), s')
      else (p.evaluate room env r >>= fun w =>
        p.invoke room env ⟨o, f, some scope, some (.instanceOf d scope), [w]⟩).on s' := by
  rw [evaluate_eq ha]
  simp only [evaluateNode, hn]
  rw [Eval.on_bind_ok hleft]
  cases hshort : op.isShortCircuit with
  | true => rfl
  | false =>
    have hmethod : p.method? (.instanceOf d scope) op =
        some (.method f (some scope) (.instanceOf d scope)) := by
      unfold method?
      dsimp only
      rw [hmember]
    have hcall (w : Value) : p.call (p.invoke room env) o (some op)
        (.method f (some scope) (.instanceOf d scope)) [w] =
          p.invoke room env ⟨o, f, some scope, some (.instanceOf d scope), [w]⟩ := by
      unfold call
      dsimp only
      rw [hbody, if_neg Bool.false_ne_true]
    dsimp only
    unfold evaluateNode.operate
    simp only [hmethod, hcall]
    rfl

end Program

end Arbor
