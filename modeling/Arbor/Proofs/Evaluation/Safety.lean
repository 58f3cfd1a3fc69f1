/-
  Type safety.

  The evaluation of a node with a type is safe: it gives a value of the type, divides by
  zero or runs out of room.  The proof is by induction on the room for calls, and for one
  room on the depth of the rules that give the type; the scopes stay typed all along.

  Main statements: `safe_evaluate`, and `run_safe`, the run of a program of the fragment
  without fatal conflicts.
-/
import Arbor.Proofs.Conflict.Typed
import Arbor.Proofs.Evaluation.Refinement
import Arbor.Proofs.Evaluation.Typed

namespace Arbor

variable {p : Program} {base : Nat} {s s' : Scopes}

/-! ## What evaluations need and give -/

/-- The node can be evaluated in the surroundings: in no method, and in a scope that holds
    all that it can name. -/
structure Env.Ready (p : Program) (base : Nat) (s : Scopes) (env : Env) (id : NodeId) : Prop where
  this : env.this = none
  above : base ≤ env.scope.index
  below : env.scope.index < s.size
  covers : s.Covers p env.scope id

theorem Env.Ready.grows {env : Env} {id : NodeId} (h : env.Ready p base s id)
    (hs : s.Grows s') : env.Ready p base s' id :=
  ⟨h.this, h.above, Nat.lt_of_lt_of_le h.below hs.size, h.covers.grows hs⟩

/-- The value is of the type and anchored. -/
def Meets (p : Program) (base : Nat) (t : Ty) (v : Value) (s : Scopes) : Prop :=
  v.Conforms t ∧ v.Anchored p base s

theorem Meets.grows {t : Ty} {v : Value} (h : Meets p base t v s) (hs : s.Grows s') :
    Meets p base t v s' := ⟨h.1, h.2.grows hs⟩

theorem meets_primitive {v : Value} {q : Primitive} (h : v.primitive? = some q) :
    Meets p base (.primitive q) v s :=
  ⟨Value.conforms_primitive.2 h, Value.anchored_of_primitive? h⟩

/-- What a call needs to give values of the type. -/
structure Call.Typed (p : Program) (base : Nat) (s : Scopes) (c : Call) (t : Ty) : Prop where
  returns : p.Returns p.HasType c.definition t
  inputs : ∃ values, p.inputValues (p.inputs c.definition) c.arguments = .ok values ∧
    values.map Prod.fst = p.inputs c.definition ∧
    ∀ e ∈ values, ∃ q, p.Takes p.HasType e.1 q ∧ e.2.primitive? = some q
  kind : (c.this = none ∧ (Value.function c.definition c.closure).Anchored p base s) ∨
    ∃ r, c.this = some r ∧ (Value.method c.definition c.closure r).Anchored p base s

/-- Calls give values of the types that are returned. -/
def Invokes (p : Program) (base : Nat) (invoke : Call → Eval Value) : Prop :=
  ∀ s c t, s.Typed p base → c.Typed p base s t → Safe p base (invoke c) s (Meets p base t)

/-- What the evaluation of a node gives: a value of its type, which is found from the scope
    if the node is a definition. -/
def Evaluates (p : Program) (base : Nat) (env : Env) (id : NodeId) (t : Ty) (v : Value)
    (s : Scopes) : Prop :=
  Meets p base t v s ∧ ((p.classify id).isSome → (s.lookup env.scope id).isSome)

/-! ## Calls -/

/-- Inputs that are given what they accept get values of their types. -/
theorem inputValues_of_given : ∀ {inputs arguments : List NodeId} {values : List Value},
    p.Given p.HasType inputs arguments →
    List.Forall₂ (fun a v => ∀ u, p.HasType a u → v.Conforms u) arguments values →
    ∃ bound, p.inputValues inputs values = .ok bound ∧ bound.map Prod.fst = inputs ∧
      ∀ e ∈ bound, ∃ q, p.Takes p.HasType e.1 q ∧ e.2.primitive? = some q
  | [], [], _, _, .nil => ⟨[], rfl, rfl, fun e he => by cases he⟩
  | input :: inputs, a :: arguments, v :: values, ⟨⟨q, t, hq, ht, hw⟩, hrest⟩, .cons hv hvs => by
    obtain ⟨bound, hb, hfst, hbound⟩ := inputValues_of_given hrest hvs
    refine ⟨(input, v) :: bound, ?_, by rw [List.map_cons, hfst], fun e he => ?_⟩
    · rw [Program.inputValues, hb]
      rfl
    · rcases List.mem_cons.1 he with rfl | he
      · exact ⟨q, hq, (hv t ht).within hw⟩
      · exact hbound e he
  | input :: inputs, [], _, ⟨⟨q, v, hq, hv, hvq⟩, hrest⟩, .nil => by
    obtain ⟨bound, hb, hfst, hbound⟩ := inputValues_of_given hrest .nil
    refine ⟨(input, v) :: bound, ?_, by rw [List.map_cons, hfst], fun e he => ?_⟩
    · rw [Program.inputValues, hv]
      simp only [hb]
      rfl
    · rcases List.mem_cons.1 he with rfl | he
      · exact ⟨q, hq, hvq⟩
      · exact hbound e he

/-- A call of a value of a function type with arguments of the types that it takes. -/
theorem safe_call {invoke : Call → Eval Value} (hb : p.OverBasis)
    (hinvoke : Invokes p base invoke) {id f : NodeId} {name : Option Name} {callee : Value}
    {inputs : List NodeId} {arguments : List Value} {t : Ty} (hs : s.Typed p base)
    (hcallee : Meets p base (.function f) callee s)
    (hgiven : p.Given p.HasType (p.inputs f) inputs)
    (hargs : List.Forall₂ (fun a v => ∀ u, p.HasType a u → v.Conforms u) inputs arguments)
    (ht : p.Returns p.HasType f t) :
    Safe p base (p.call invoke id name callee arguments) s (Meets p base t) := by
  have hinputs := inputValues_of_given hgiven hargs
  obtain ⟨hconforms, ha⟩ := hcallee
  have hf := Value.conforms_function.1 hconforms
  cases callee with
  | function d closure =>
    cases hf
    have habstract : ((p.node? f).any Node.isAbstractFunction) = false := by
      obtain ⟨⟨-, ns, vs, is, body, hn⟩, -⟩ := ha
      rw [hn]
      rfl
    have hcall : p.call invoke id name (.function f closure) arguments =
        invoke ⟨id, f, closure, none, arguments⟩ := by
      unfold Program.call
      simp only [habstract, Bool.false_eq_true, if_false]
    rw [hcall]
    exact hinvoke s _ t hs ⟨ht, hinputs, .inl ⟨rfl, ha⟩⟩
  | method d closure receiver =>
    cases hf
    have habstract : ((p.node? f).any Node.isAbstractFunction) = false := by
      obtain ⟨-, q, n, -, hfn⟩ := ha
      obtain ⟨op, input, body, hm⟩ := hb.method hfn
      obtain ⟨ns, vs, is, out, hn, -⟩ := hm.function
      rw [hn]
      rfl
    have hcall : p.call invoke id name (.method f closure receiver) arguments =
        invoke ⟨id, f, closure, some receiver, arguments⟩ := by
      unfold Program.call
      simp only [habstract, Bool.false_eq_true, if_false]
    rw [hcall]
    exact hinvoke s _ t hs ⟨ht, hinputs, .inr ⟨receiver, rfl, ha⟩⟩
  | _ => cases hf

/-! ## Nodes -/

section
variable {invoke : Call → Eval Value} {env : Env} {sub : NodeId → Eval Value}

/-- A node that defines nothing gives what its value meets. -/
theorem Meets.evaluates {id : NodeId} {t : Ty} {v : Value} (h : Meets p base t v s)
    (hid : p.classify id = none) : Evaluates p base env id t v s :=
  ⟨h, fun hd => by rw [hid] at hd; cases hd⟩

/-- A definition that is bound to a value of its type gives the value. -/
theorem safe_define {id : NodeId} {t : Ty} {v : Value} (hs : s.Typed p base)
    (hready : env.Ready p base s id) (ht : p.HasType id t) (hv : Meets p base t v s) :
    Safe p base (Eval.define env.scope id v) s (Evaluates p base env id t) := by
  have hgrows := Scopes.grows_define s env.scope id v
  refine ⟨hgrows, hs.define hv.2 ht hv.1, hv.grows hgrows, fun _ => ?_⟩
  have hown : (s.define env.scope id v).own? env.scope id = some v := by
    rw [Scopes.own?_define s hready.below, if_pos ⟨rfl, rfl⟩]
  show ((s.define env.scope id v).lookup env.scope id).isSome
  rw [Scopes.lookup_of_own? hown]
  rfl

theorem safe_literal {id : NodeId} {t : Ty} {v : Value} (hv : p.literal? id = some v)
    (ht : p.HasType id t) (hs : s.Typed p base) :
    Safe p base (p.evaluateNode invoke env sub id) s (Evaluates p base env id t) := by
  obtain ⟨q, rfl, hq⟩ := Program.primitive?_of_literal hv ht
  unfold Program.literal? at hv
  unfold Program.evaluateNode
  split at hv
  · next hn =>
    cases hv
    rw [hn]
    exact safe_pure hs ((meets_primitive hq).evaluates (by unfold Program.classify; rw [hn]))
  · next hn =>
    cases hv
    rw [hn]
    exact safe_pure hs ((meets_primitive hq).evaluates (by unfold Program.classify; rw [hn]))
  · next hn =>
    cases hv
    rw [hn]
    exact safe_pure hs ((meets_primitive hq).evaluates (by unfold Program.classify; rw [hn]))
  · cases hv

theorem safe_reference {id : NodeId} {n : Name} {t : Ty} (hn : p.node? id = some (.reference n))
    (ht : p.HasType id t) (hs : s.Typed p base) (hready : env.Ready p base s id) :
    Safe p base (p.evaluateNode invoke env sub id) s (Evaluates p base env id t) := by
  have hdefines : p.classify id = none := by unfold Program.classify; rw [hn]
  obtain ⟨d, v, hv, hmeets⟩ : ∃ d v, p.nameValue env s id n = v ∧ s.lookup env.scope d = some v ∧
      Meets p base t v s := by
    have hrule := Program.hasType_iff.1 ht
    unfold Program.Rule at hrule
    rw [hn] at hrule
    dsimp only at hrule
    split at hrule
    · next b hd =>
      obtain ⟨v, hv⟩ := Option.isSome_iff_exists.1 (hready.covers n _ hd)
      refine ⟨b, v, ?_, hv, hs.lookup hready.above hv hrule⟩
      unfold Program.nameValue
      rw [hd]
      simp only [hv, Option.getD_some]
    · next f hd =>
      obtain ⟨rfl, hf, hself⟩ := hrule
      have hne : f ∉ id :: p.tree.ancestors id := by
        intro hmem
        rcases List.mem_cons.1 hmem with rfl | hmem
        · obtain ⟨ns, vs, is, output, body, hfn⟩ := Program.function_of_resolve hd
          rw [hn] at hfn
          cases hfn
        · exact hself hmem
      obtain ⟨v, hv⟩ := Option.isSome_iff_exists.1 (hready.covers n _ hd hne)
      refine ⟨f, v, ?_, hv, hs.lookup hready.above hv hf⟩
      unfold Program.nameValue
      rw [hd]
      simp only [hv, Option.getD_some]
    · exact hrule.elim
  unfold Program.evaluateNode
  rw [hn]
  refine (safe_get hs).bind fun s₀ s₁ _ _ h => ?_
  obtain ⟨rfl, rfl⟩ := h
  rw [hv]
  exact safe_give hs hmeets.2.2 (hmeets.2.evaluates hdefines)

variable (base s) in
/-- The method of a primitive value. -/
theorem meets_method {v : Value} {q : Primitive} {n : Name} {f : NodeId}
    (hv : v.primitive? = some q) (hf : p.basis.function? q n = some f) :
    p.method? v n = some (.method f none v) ∧
      Meets p base (.function f) (.method f none v) s := by
  refine ⟨?_, Value.conforms_function.2 rfl, rfl, q, n, hv, hf⟩
  cases v with
  | bool | number | text =>
    simp only [Program.method?, Program.primitiveMethod?, hv, Option.bind_some, hf, Option.map_some]
  | _ => cases hv

theorem safe_property {id receiver : NodeId} {n : Name} {t : Ty}
    (hn : p.node? id = some (.propertyReference receiver n)) (ht : p.HasType id t)
    (hr : ∀ u, p.HasType receiver u →
      Safe p base (sub receiver) s (Evaluates p base env receiver u)) :
    Safe p base (p.evaluateNode invoke env sub id) s (Evaluates p base env id t) := by
  have hdefines : p.classify id = none := by unfold Program.classify; rw [hn]
  have hrule := Program.hasType_iff.1 ht
  unfold Program.Rule at hrule
  rw [hn] at hrule
  obtain ⟨q, f, hq, hf, rfl⟩ := hrule
  unfold Program.evaluateNode
  rw [hn]
  refine (hr _ hq).bind fun v s₁ _ hs₁ hv => ?_
  refine (safe_get hs₁).bind fun s₂ s₃ _ _ h => ?_
  obtain ⟨rfl, rfl⟩ := h
  have hvq := Value.conforms_primitive.1 hv.1.1
  obtain ⟨hmethod, hmeets⟩ := meets_method base s₃ hvq hf
  have hvalue : p.propertyValue s₃ id v n = .method f none v := by
    cases v with
    | bool | number | text =>
      simp only [Program.propertyValue, hmethod, Option.getD_some]
    | _ => cases hvq
  rw [hvalue]
  exact safe_give hs₁ hmeets.2 (hmeets.evaluates hdefines)

theorem safe_conditional {id condition yes no : NodeId} {t : Ty}
    (hn : p.node? id = some (.conditional condition yes no)) (ht : p.HasType id t)
    (hsub : ∀ c ∈ [condition, yes, no], ∀ u s', p.HasType c u → s.Grows s' → s'.Typed p base →
      Safe p base (sub c) s' (Evaluates p base env c u)) (hs : s.Typed p base) :
    Safe p base (p.evaluateNode invoke env sub id) s (Evaluates p base env id t) := by
  have hdefines : p.classify id = none := by unfold Program.classify; rw [hn]
  have hrule := Program.hasType_iff.1 ht
  unfold Program.Rule at hrule
  rw [hn] at hrule
  obtain ⟨c, u, v, hc, hw, hu, hv, rfl⟩ := hrule
  unfold Program.evaluateNode
  rw [hn]
  refine (hsub condition (by simp) c s hc (.refl s) hs).bind fun b s₁ hg₁ hs₁ hb => ?_
  have hbool := hb.1.1.within hw
  have hyes := hsub yes (by simp) u s₁ hu hg₁ hs₁
  have hno := hsub no (by simp) v s₁ hv hg₁ hs₁
  cases b with
  | bool b =>
    cases b with
    | true =>
      refine hyes.mono fun w s₂ _ hw => Meets.evaluates ⟨?_, hw.1.2⟩ hdefines
      exact hw.1.1.join_left hu.known hv.known
    | false =>
      refine hno.mono fun w s₂ _ hw => Meets.evaluates ⟨?_, hw.1.2⟩ hdefines
      exact hw.1.1.join_right hu.known hv.known
  | _ => cases hbool

theorem safe_bind {id ns value : NodeId} {type : Option NodeId} {t : Ty}
    (hn : p.node? id = some (.bind ns type (some value))) (ht : p.HasType id t)
    (hv : ∀ u, p.HasType value u → Safe p base (sub value) s (Evaluates p base env value u))
    (hready : env.Ready p base s id) :
    Safe p base (p.evaluateNode invoke env sub id) s (Evaluates p base env id t) := by
  have hvalue : Safe p base (sub value) s (Meets p base t) := by
    have hrule := Program.hasType_iff.1 ht
    unfold Program.Rule at hrule
    rw [hn] at hrule
    cases type with
    | none => exact (hv t hrule).mono fun v s' _ h => h.1
    | some type =>
      obtain ⟨q, -, rfl, hw⟩ := hrule
      obtain ⟨u, hu, hw⟩ := hw value rfl
      exact (hv u hu).mono fun v s' _ h => meets_primitive (h.1.1.within hw)
  unfold Program.evaluateNode
  rw [hn]
  refine hvalue.bind fun v s₁ hg₁ hs₁ hmeets => ?_
  exact safe_define hs₁ (hready.grows hg₁) ht hmeets

/-- The method of an operator gives values of the type of its operation. -/
theorem returns_method (ha : p.arena.Acyclic) {q : Primitive} {n : Name} {f : NodeId}
    {op : NativeOp} {input body : NodeId} {t : Ty} (hm : p.Method q n f op input body)
    (ht : p.Returns p.HasType f t) : t = .primitive op.output := by
  obtain ⟨ns, vs, is, out, hn, -, -, hout⟩ := hm.function
  unfold Program.Returns at ht
  rw [hn] at ht
  obtain ⟨-, r, hr, rfl⟩ := ht
  rw [← hr, Program.typeGiven_of_primitive ha hout]

theorem safe_operation (ha : p.arena.Acyclic) (hb : p.OverBasis) (hinvoke : Invokes p base invoke)
    {id left right : NodeId} {op : Name} {t : Ty}
    (hn : p.node? id = some (.binaryOperation left op right)) (ht : p.HasType id t)
    (hsub : ∀ c ∈ [left, right], ∀ u s', p.HasType c u → s.Grows s' → s'.Typed p base →
      Safe p base (sub c) s' (Evaluates p base env c u)) (hs : s.Typed p base) :
    Safe p base (p.evaluateNode invoke env sub id) s (Evaluates p base env id t) := by
  have hdefines : p.classify id = none := by unfold Program.classify; rw [hn]
  have hrule := Program.hasType_iff.1 ht
  unfold Program.Rule at hrule
  rw [hn] at hrule
  obtain ⟨q, f, hq, hf, hgiven, hreturns⟩ := hrule
  -- The call of the method on the right operand.
  have hoperate (l : Value) (s' : Scopes) (hg : s.Grows s') (hs' : s'.Typed p base)
      (hl : l.primitive? = some q) :
      Safe p base (Program.evaluateNode.operate p invoke sub id op l right) s'
        (Evaluates p base env id t) := by
    obtain ⟨u, hu⟩ := hgiven.typed right (List.mem_singleton_self _)
    unfold Program.evaluateNode.operate
    refine (hsub right (by simp) u s' hu hg hs').bind fun r s₁ _ hs₁ hr => ?_
    obtain ⟨hmethod, hmeets⟩ := meets_method base s₁ hl hf
    rw [hmethod]
    refine (safe_call hb hinvoke hs₁ hmeets hgiven (.cons (fun w hw => ?_) .nil) hreturns).mono
      fun v s₂ _ hv => hv.evaluates hdefines
    rw [hw.unique hu]
    exact hr.1.1
  unfold Program.evaluateNode
  rw [hn]
  refine (hsub left (by simp) _ s hq (.refl s) hs).bind fun l s₁ hg₁ hs₁ hl => ?_
  have hlq := Value.conforms_primitive.1 hl.1.1
  cases hshort : op.isShortCircuit with
  | false => exact hoperate l s₁ hg₁ hs₁ hlq
  | true =>
    obtain ⟨mop, input, body, hm⟩ := hb.method hf
    obtain ⟨hreceiver, houtput⟩ := hm.shortCircuit hshort
    have hqb : q = .boolean := hm.receiver.symm.trans hreceiver
    subst hqb
    cases l with
    | bool b =>
      dsimp only
      split
      · have htb : t = .primitive .boolean := by rw [returns_method ha hm hreturns, houtput]
        rw [htb]
        exact safe_pure hs₁ ((meets_primitive hlq).evaluates hdefines)
      · exact hoperate (.bool b) s₁ hg₁ hs₁ hlq
    | _ => cases hlq

theorem safe_evaluateCall (hb : p.OverBasis) (hinvoke : Invokes p base invoke)
    {id function : NodeId} {is : NodeRange} {t : Ty}
    (hn : p.node? id = some (.evaluate function is)) (ht : p.HasType id t)
    (hsub : ∀ c ∈ function :: p.arena.list is, ∀ u s', p.HasType c u → s.Grows s' →
      s'.Typed p base → Safe p base (sub c) s' (Evaluates p base env c u))
    (hs : s.Typed p base) :
    Safe p base (p.evaluateNode invoke env sub id) s (Evaluates p base env id t) := by
  have hdefines : p.classify id = none := by unfold Program.classify; rw [hn]
  have hrule := Program.hasType_iff.1 ht
  unfold Program.Rule at hrule
  rw [hn] at hrule
  obtain ⟨f, hf, hgiven, hreturns⟩ := hrule
  unfold Program.evaluateNode
  rw [hn]
  refine (hsub function List.mem_cons_self _ s hf (.refl s) hs).bind fun callee s₁ hg₁ hs₁ hc => ?_
  have hargs : Safe p base (Eval.inOrder sub (p.arena.list is)) s₁ fun vs _ =>
      List.Forall₂ (fun a v => ∀ u, p.HasType a u → v.Conforms u) (p.arena.list is) vs :=
    safe_inOrder (P := fun a v _ => ∀ u, p.HasType a u → v.Conforms u) (D := fun _ _ => True)
      (fun _ _ _ _ _ h => h) (fun _ _ _ _ _ => trivial) s₁ [] hs₁ (fun _ _ => trivial)
      fun k a hk s' hg hs' _ => by
        have ha := List.mem_of_getElem? hk
        obtain ⟨u, hu⟩ := hgiven.typed a ha
        refine (hsub a (List.mem_cons_of_mem _ ha) u s' hu (hg₁.trans hg) hs').mono
          fun v s'' _ hv => ⟨fun w hw => ?_, trivial⟩
        rw [hw.unique hu]
        exact hv.1.1
  refine hargs.bind fun arguments s₂ hg₂ hs₂ ha => ?_
  exact (safe_call hb hinvoke hs₂ (hc.1.grows hg₂) hgiven ha hreturns).mono
    fun v s₃ _ hv => hv.evaluates hdefines

theorem getLast?_of_forall₂ {α β : Type} {R : α → β → Prop} {as : List α} {bs : List β}
    (h : List.Forall₂ R as bs) {a : α} (ha : as.getLast? = some a) :
    ∃ b, bs.getLast? = some b ∧ R a b := by
  induction h with
  | nil => cases ha
  | @cons a' b as bs hab hrest ih =>
    cases hrest with
    | nil =>
      cases ha
      exact ⟨b, rfl, hab⟩
    | cons _ _ =>
      rw [List.getLast?_cons_cons] at ha ⊢
      exact ih ha

/-- What a block shows to a statement is found after the statements before it. -/
theorem covers_statement (hp : p.TreeShaped) {id c : NodeId} {ss : NodeRange} {k : Nat}
    (hn : p.node? id = some (.block ss)) (hx : id ∈ p.tree.nodes) {scope : ScopeId}
    (h : s.Covers p scope id) (hk : (p.arena.list ss)[k]? = some c)
    (hbefore : ∀ b ∈ (p.arena.list ss).take k, (p.classify b).isSome →
      (s.lookup scope b).isSome) : s.Covers p scope c := by
  have hchildren : p.arena.children id = p.arena.list ss := by
    rw [Arena.children_eq hn, Arena.childrenOf_block]
  refine h.child hp hx (hchildren ▸ List.mem_of_getElem? hk) fun n d hd => ?_
  unfold Program.definitionInScope at hd
  rw [hn] at hd
  rcases Program.named_of_visibleInBlock hd with ⟨j, b, hj, hb, hnamed⟩ | ⟨hself, hnamed⟩
  · have hnodup : (p.arena.list ss).Nodup := hchildren ▸ hp.nodup_children hx
    have hjk : j = k := (List.getElem?_inj (List.getElem?_eq_some_iff.1 hj).1 hnodup).1
      (hj.trans hk.symm)
    subst hjk
    have hclassify := Program.classify_of_definitionNamed hnamed
    have hfound := hbefore b hb (by rw [hclassify]; rfl)
    cases d with
    | bind e =>
      rw [← (Program.bind_of_classify hclassify).1]
      exact hfound
    | function e =>
      rw [← (Program.function_of_classify hclassify).1]
      exact fun _ => hfound
    | _ => exact trivial
  · have hclassify := Program.classify_of_definitionNamed hnamed
    cases d with
    | bind e =>
      obtain ⟨rfl, ns, type, value, he⟩ := Program.bind_of_classify hclassify
      unfold Program.namesItself at hself
      rw [he] at hself
      cases hself
    | function e =>
      rw [(Program.function_of_classify hclassify).1]
      exact fun hf => absurd List.mem_cons_self hf
    | _ => exact trivial

theorem safe_block (hp : p.TreeShaped) {id : NodeId} {ss : NodeRange} {t : Ty}
    (hn : p.node? id = some (.block ss)) (hx : id ∈ p.tree.nodes) (ht : p.HasType id t)
    (hs : s.Typed p base) (hready : env.Ready p base s id)
    (hsub : ∀ c ∈ p.arena.list ss, ∀ u s', p.HasType c u → s'.Typed p base →
      env.Ready p base s' c → Safe p base (sub c) s' (Evaluates p base env c u)) :
    Safe p base (p.evaluateNode invoke env sub id) s (Evaluates p base env id t) := by
  have hdefines : p.classify id = none := by unfold Program.classify; rw [hn]
  have hrule := Program.hasType_iff.1 ht
  unfold Program.Rule at hrule
  rw [hn] at hrule
  obtain ⟨hss, last, hlast, hlt⟩ := hrule
  unfold Program.evaluateNode
  rw [hn]
  have hvalues : Safe p base (Eval.inOrder sub (p.arena.list ss)) s fun vs s' =>
      List.Forall₂ (fun c v => ∀ u, p.HasType c u → Meets p base u v s') (p.arena.list ss) vs :=
    safe_inOrder (P := fun c v s => ∀ u, p.HasType c u → Meets p base u v s)
      (D := fun c s => (p.classify c).isSome → (s.lookup env.scope c).isSome)
      (fun c v s₁ s₂ hg h u hu => (h u hu).grows hg) (fun c s₁ s₂ hg h hc => hg.lookup (h hc))
      s [] hs (fun c hc => by cases hc) fun k c hk s' hg hs' hD => by
        have hc := List.mem_of_getElem? hk
        obtain ⟨u, hu⟩ := hss c hc
        have hready' := hready.grows hg
        have hchild : env.Ready p base s' c :=
          ⟨hready'.this, hready'.above, hready'.below,
            covers_statement hp hn hx hready'.covers hk hD⟩
        refine (hsub c hc u s' hu hs' hchild).mono fun v s'' _ hv => ⟨fun w hw => ?_, hv.2⟩
        rw [hw.unique hu]
        exact hv.1
  refine hvalues.bind fun values s₁ _ hs₁ hvs => ?_
  obtain ⟨v, hv, hmeets⟩ := getLast?_of_forall₂ hvs hlast
  rw [hv]
  exact safe_pure hs₁ ((hmeets t hlt).evaluates hdefines)

theorem safe_function {id ns body : NodeId} {vs is : NodeRange} {t : Ty}
    (hn : p.node? id = some (.functionDefinition ns vs is none (some body)))
    (he : p.Expression id) (hx : id ∈ p.tree.nodes) (ht : p.HasType id t) (hs : s.Typed p base)
    (hready : env.Ready p base s id) :
    Safe p base (p.evaluateNode invoke env sub id) s (Evaluates p base env id t) := by
  have hrule := Program.hasType_iff.1 ht
  unfold Program.Rule at hrule
  rw [hn] at hrule
  obtain ⟨rfl, -⟩ := hrule
  have hnode : p.evaluateNode invoke env sub id =
      Eval.define env.scope id (.function id (some env.scope)) := by
    unfold Program.evaluateNode
    rw [hn, hready.this]
    rfl
  rw [hnode]
  refine safe_define hs hready ht ⟨Value.conforms_function.2 rfl, ?_⟩
  exact ⟨⟨ht, ns, vs, is, body, hn⟩, he, hx, env.scope, rfl, hready.above, hready.below,
    hready.covers⟩

end

/-! ## Bodies -/

/-- The scope of a call with bound inputs. -/
theorem callScope_of_inputValues {c : Call} {values : List (NodeId × Value)}
    (h : p.inputValues (p.inputs c.definition) c.arguments = .ok values) :
    p.callScope c = .ok ⟨values.foldl (fun t (input, v) => t.insert input v) .empty, c.closure⟩ := by
  unfold Program.callScope
  rw [h]

/-- The evaluation of what is called goes on in the new scope. -/
theorem safe_opened {evaluate : Env → NodeId → Eval Value} {env : Env} {c : Call} {t : Ty}
    {ns body : NodeId} {vs is : NodeRange} {output : Option NodeId} {scope : Scope}
    (hscope : p.callScope c = .ok scope)
    (hn : p.node? c.definition = some (.functionDefinition ns vs is output (some body)))
    (h : Safe p base (evaluate (env.inside c ⟨s.size⟩) body) (s.add scope).2 (Meets p base t)) :
    Safe p base (p.openCall evaluate env c) s (Meets p base t) := by
  have hgrows := Scopes.grows_add s scope
  unfold Program.openCall
  rw [hscope]
  have hadd : Eval.on (modifyGet fun scopes => scopes.add scope : Eval ScopeId) s =
      (.ok ⟨s.size⟩, (s.add scope).2) := rfl
  unfold Safe at h ⊢
  dsimp only
  rw [Eval.on_bind, hadd]
  dsimp only
  rw [hn]
  exact ⟨hgrows.trans h.1, h.2⟩

/-- The new scope of a call is typed. -/
theorem typed_callScope (hs : s.Typed p base) {values : List (NodeId × Value)}
    {closure : Option ScopeId} (hclosure : ∀ c, closure = some c → base ≤ c.index)
    (hvalues : ∀ e ∈ values, ∃ q, p.Takes p.HasType e.1 q ∧ e.2.primitive? = some q) :
    (s.add ⟨values.foldl (fun t (input, v) => t.insert input v) .empty, closure⟩).2.Typed p base := by
  refine hs.add hclosure fun d v hv => ?_
  rcases Program.get?_foldl_insert hv with h | h
  · cases h
  · obtain ⟨q, hq, hvq⟩ := hvalues _ h
    exact ⟨Value.anchored_of_primitive? hvq, .primitive q, hq.2, Value.conforms_primitive.2 hvq⟩

/-- The body of a closure is evaluated where its inputs are bound. -/
theorem ready_body (hp : p.TreeShaped) {env : Env} {c : Call} {k : ScopeId} {ns body : NodeId}
    {vs is : NodeRange} {values : List (NodeId × Value)} (hs : s.Typed p base)
    (hthis : c.this = none) (hclosure : c.closure = some k) (hk : k.index < s.size)
    (hn : p.node? c.definition = some (.functionDefinition ns vs is none (some body)))
    (hvs : p.arena.list vs = []) (hx : c.definition ∈ p.tree.nodes)
    (hcovers : s.Covers p k c.definition) (hfst : values.map Prod.fst = p.inputs c.definition) :
    (env.inside c ⟨s.size⟩).Ready p base
      (s.add ⟨values.foldl (fun t (input, v) => t.insert input v) .empty, c.closure⟩).2 body := by
  generalize hscope : (⟨values.foldl (fun t (input, v) => t.insert input v) .empty, c.closure⟩ : Scope)
    = scope
  have hgrows := Scopes.grows_add s scope
  have hget : (s.add scope).2.get? ⟨s.size⟩ = some scope := by
    rw [Scopes.get?_add, if_pos rfl]
  refine ⟨hthis, hs.size, by rw [Scopes.size_add]; exact Nat.lt_succ_self _, ?_⟩
  show Scopes.Covers p _ ⟨s.size⟩ body
  have hparent (d : NodeId) (hd : ((s.add scope).2.lookup k d).isSome) :
      ((s.add scope).2.lookup ⟨s.size⟩ d).isSome :=
    Scopes.lookup_of_parent hget (by rw [← hscope]; exact hclosure) hk hd
  have houter : (s.add scope).2.Covers p ⟨s.size⟩ c.definition := by
    intro n d hd
    have hholds := (hcovers.grows hgrows) n d hd
    cases d with
    | bind b => exact hparent b hholds
    | function f => exact fun hf => hparent f (hholds hf)
    | _ => exact trivial
  refine houter.child hp hx (by rw [Arena.children_eq hn]; simp) fun n d hd => ?_
  unfold Program.definitionInScope at hd
  rw [hn] at hd
  obtain ⟨i, hi, hnamed⟩ := Program.named_of_firstNamed hd
  have hi : i ∈ p.inputs c.definition := by
    unfold Program.inputs Program.inputList
    rw [hn]
    simpa [hvs] using hi
  have hbound : ((s.add scope).2.lookup ⟨s.size⟩ i).isSome := by
    rw [← hfst] at hi
    obtain ⟨v, hv⟩ := Option.isSome_iff_exists.1
      (Program.isSome_get?_foldl_insert (t := .empty) (.inr hi))
    have hown : (s.add scope).2.own? ⟨s.size⟩ i = some v := by
      rw [Scopes.own?_add, if_pos rfl, ← hscope]
      exact hv
    rw [Scopes.lookup_of_own? hown]
    rfl
  have hclassify := Program.classify_of_definitionNamed hnamed
  cases d with
  | bind b =>
    rw [← (Program.bind_of_classify hclassify).1]
    exact hbound
  | function f =>
    rw [← (Program.function_of_classify hclassify).1]
    exact fun _ => hbound
  | _ => exact trivial

/-- The body of a primitive method gives a value of the declared type or divides by zero. -/
theorem safe_native (ha : p.arena.Acyclic) {room : Nat} {env : Env} {q : Primitive} {n : Name}
    {f input body : NodeId} {op : NativeOp} {r v : Value} (hm : p.Method q n f op input body)
    (hs : s.Typed p base) (hf : env.definition = some f) (hthis : env.this = some r)
    (hr : r.primitive? = some q) (hv : s.lookup env.scope input = some v)
    (hvq : v.primitive? = some op.receiver) :
    Safe p base (p.evaluate room env body) s (Meets p base (.primitive op.output)) := by
  obtain ⟨ns, vs, is, out, hn, -, his, -⟩ := hm.function
  have hhead : (env.definition.bind fun d => (p.inputs d).head?).bind (s.lookup env.scope) =
      some v := by
    unfold Program.inputs Program.inputList
    rw [hf, Option.bind_some, hn]
    simp only [his, List.head?_cons, Option.bind_some, hv]
  rw [Program.evaluate_eq ha]
  unfold Program.evaluateNode
  rw [hm.body]
  refine (safe_get hs).bind fun s₀ s₁ _ _ h => ?_
  obtain ⟨rfl, rfl⟩ := h
  rcases op.apply_typed (hr.trans (by rw [hm.receiver])) hvq with happly | ⟨u, happly, hu⟩
  · have hvalue : p.operationValue env s₁ body op = .exception ⟨.divisionByZero, env.creator⟩ := by
      unfold Program.operationValue
      rw [hthis, hhead]
      simp only [happly]
    rw [hvalue]
    exact safe_raise hs (.inl rfl)
  · have hvalue : p.operationValue env s₁ body op = u := by
      unfold Program.operationValue
      rw [hthis, hhead]
      simp only [happly]
    rw [hvalue]
    exact safe_give hs (Value.anchored_of_primitive? hu) (meets_primitive hu)

/-! ## All nodes -/

/-- Nodes of the fragment with types are evaluated safely. -/
def EvaluatesAll (p : Program) (base : Nat) (evaluate : Env → NodeId → Eval Value) : Prop :=
  ∀ env id t s, p.Expression id → id ∈ p.tree.nodes → p.HasType id t → s.Typed p base →
    env.Ready p base s id → Safe p base (evaluate env id) s (Evaluates p base env id t)

/-- Calls are safe if what they evaluate is. -/
theorem safe_openCall (hp : p.TreeShaped) (hb : p.OverBasis) {room : Nat} {env : Env}
    (h : EvaluatesAll p base (p.evaluate room)) :
    Invokes p base (p.openCall (p.evaluate room) env) := by
  intro s c t hs hc
  obtain ⟨values, hvalues, hfst, hbound⟩ := hc.inputs
  have hscope := callScope_of_inputValues hvalues
  have hreturns := hc.returns
  rcases hc.kind with ⟨hthis, ⟨hft, ns, vs, is, body, hn⟩, he, hx, k, hk, hbase, hlt, hcovers⟩ |
    ⟨r, hthis, hclosure, q, n, hr, hf⟩
  · have hrule := Program.hasType_iff.1 hft
    unfold Program.Rule at hrule
    rw [hn] at hrule
    obtain ⟨-, hvs, -⟩ := hrule
    unfold Program.Returns at hreturns
    rw [hn] at hreturns
    have hbody : p.Expression body := by
      cases he with
      | function hn' _ _ hbody =>
        rw [hn] at hn'
        cases hn'
        exact hbody
      | boolean hn' | number hn' | text hn' | reference hn' | property hn' | operation hn'
      | conditional hn' | evaluate hn' | block hn' | bind hn' =>
        rw [hn] at hn'
        cases hn'
    refine safe_opened hscope hn ((h _ body t _ hbody ?_ hreturns ?_ ?_).mono fun v s' _ hv => hv.1)
    · exact hp.child_mem hx (by rw [Arena.children_eq hn]; simp)
    · exact typed_callScope hs (fun c' hc' => by rw [hk] at hc'; cases hc'; exact hbase) hbound
    · exact ready_body hp hs hthis hk hlt hn hvs hx hcovers hfst
  · obtain ⟨op, input, body, hm⟩ := hb.method hf
    obtain ⟨ns, vs, is, out, hn, -, his, -⟩ := hm.function
    have hinputs : p.inputs c.definition = [input] := by
      unfold Program.inputs Program.inputList
      rw [hn]
      exact his
    rw [returns_method hp.acyclic hm hreturns]
    -- The only input is bound, to a value of the type that the operation takes.
    rw [hinputs] at hfst
    obtain ⟨v, rfl⟩ : ∃ v, values = [(input, v)] := by
      cases values with
      | nil => cases hfst
      | cons e rest =>
        cases rest with
        | nil => cases hfst; exact ⟨e.2, rfl⟩
        | cons e' rest => cases hfst
    obtain ⟨q', hq', hvq⟩ := hbound (input, v) (List.mem_singleton_self _)
    have hreceiver : q' = op.receiver := by
      obtain ⟨ns', type, hinput, htype⟩ := hm.input
      have hrule := Program.hasType_iff.1 hq'.2
      unfold Program.Rule at hrule
      rw [hinput] at hrule
      obtain ⟨q'', hq'', hqq, -⟩ := hrule
      cases hqq
      rw [Program.typeGiven_of_primitive hp.acyclic htype] at hq''
      cases hq''
      rfl
    rw [hreceiver] at hvq
    refine safe_opened hscope hn (safe_native hp.acyclic hm ?_ rfl hthis hr (v := v) ?_ hvq)
    · exact typed_callScope hs (fun c' hc' => by rw [hclosure] at hc'; cases hc') hbound
    · refine Scopes.lookup_of_own? ?_
      show Scopes.own? _ ⟨s.size⟩ input = some v
      rw [Scopes.own?_add, if_pos rfl]
      simp

/-- Nodes are evaluated safely if calls are. -/
theorem safe_expression (hp : p.TreeShaped) (hb : p.OverBasis) {room : Nat} {env : Env}
    (hinvoke : Invokes p base (p.invoke room env)) {id : NodeId} (he : p.Expression id) :
    ∀ t s, id ∈ p.tree.nodes → p.HasType id t → s.Typed p base → env.Ready p base s id →
      Safe p base (p.evaluate room env id) s (Evaluates p base env id t) := by
  -- Induction on the expression; each part is ready wherever the whole is.
  have part {x c : NodeId} (hx : x ∈ p.tree.nodes) (hc : c ∈ p.arena.children x)
      (hd : ∀ n, p.definitionInScope x c n = none) {s s' : Scopes} (hg : s.Grows s')
      (hready : env.Ready p base s x) : c ∈ p.tree.nodes ∧ env.Ready p base s' c := by
    have hready := hready.grows hg
    refine ⟨hp.child_mem hx hc, hready.this, hready.above, hready.below, ?_⟩
    exact hready.covers.child hp hx hc fun n d h => by rw [hd n] at h; cases h
  induction he with
  | boolean hn | number hn | text hn =>
    intro t s _ ht hs _
    rw [Program.evaluate_eq hp.acyclic]
    exact safe_literal (by unfold Program.literal?; rw [hn]) ht hs
  | reference hn _ =>
    intro t s _ ht hs hready
    rw [Program.evaluate_eq hp.acyclic]
    exact safe_reference hn ht hs hready
  | @property id receiver n hn _ ih =>
    intro t s hx ht hs hready
    rw [Program.evaluate_eq hp.acyclic]
    obtain ⟨hmem, hr⟩ := part (c := receiver) hx (by rw [Arena.children_eq hn]; simp)
      (fun _ => by unfold Program.definitionInScope; rw [hn]) (.refl s) hready
    exact safe_property hn ht fun u hu => ih u s hmem hu hs hr
  | @operation id left op right hn _ _ ihl ihr =>
    intro t s hx ht hs hready
    rw [Program.evaluate_eq hp.acyclic]
    refine safe_operation hp.acyclic hb hinvoke hn ht (fun c hc u s' hu hg hs' => ?_) hs
    obtain ⟨hmem, hr⟩ := part (c := c) hx (by rw [Arena.children_eq hn]; simpa using hc)
      (fun _ => by unfold Program.definitionInScope; rw [hn]) hg hready
    rcases List.mem_cons.1 hc with rfl | hc
    · exact ihl u s' hmem hu hs' hr
    · obtain rfl := List.mem_singleton.1 hc
      exact ihr u s' hmem hu hs' hr
  | @conditional id condition yes no hn _ _ _ ihc ihy ihn =>
    intro t s hx ht hs hready
    rw [Program.evaluate_eq hp.acyclic]
    refine safe_conditional hn ht (fun c hc u s' hu hg hs' => ?_) hs
    obtain ⟨hmem, hr⟩ := part (c := c) hx (by rw [Arena.children_eq hn]; simpa using hc)
      (fun _ => by unfold Program.definitionInScope; rw [hn]) hg hready
    rcases List.mem_cons.1 hc with rfl | hc
    · exact ihc u s' hmem hu hs' hr
    rcases List.mem_cons.1 hc with rfl | hc
    · exact ihy u s' hmem hu hs' hr
    · obtain rfl := List.mem_singleton.1 hc
      exact ihn u s' hmem hu hs' hr
  | @evaluate id function is hn _ _ ihf ihis =>
    intro t s hx ht hs hready
    rw [Program.evaluate_eq hp.acyclic]
    refine safe_evaluateCall hb hinvoke hn ht (fun c hc u s' hu hg hs' => ?_) hs
    obtain ⟨hmem, hr⟩ := part (c := c) hx (by rw [Arena.children_eq hn]; simpa using hc)
      (fun _ => by unfold Program.definitionInScope; rw [hn]) hg hready
    rcases List.mem_cons.1 hc with rfl | hc
    · exact ihf u s' hmem hu hs' hr
    · exact ihis c hc u s' hmem hu hs' hr
  | @block id ss hn _ _ ih =>
    intro t s hx ht hs hready
    rw [Program.evaluate_eq hp.acyclic]
    refine safe_block hp hn hx ht hs hready fun c hc u s' hu hs' hr => ih c hc u s' ?_ hu hs' hr
    exact hp.child_mem hx (by rw [Arena.children_eq hn, Arena.childrenOf_block]; exact hc)
  | @bind id ns type value hn _ _ ih =>
    intro t s hx ht hs hready
    rw [Program.evaluate_eq hp.acyclic]
    obtain ⟨hmem, hr⟩ := part (c := value) hx (by rw [Arena.children_eq hn]; simp)
      (fun _ => by unfold Program.definitionInScope; rw [hn]) (.refl s) hready
    exact safe_bind hn ht (fun u hu => ih u s hmem hu hs hr) hready
  | function hn hvs his hbody _ =>
    intro t s hx ht hs hready
    rw [Program.evaluate_eq hp.acyclic]
    exact safe_function hn (.function hn hvs his hbody) hx ht hs hready

/-- **Expressions with types are evaluated safely**, with any room for calls. -/
theorem safe_evaluate (hp : p.TreeShaped) (hb : p.OverBasis) (room : Nat) :
    EvaluatesAll p base (p.evaluate room) := by
  induction room with
  | zero =>
    intro env id t s he hx ht hs hready
    have hinvoke : Invokes p base (p.invoke 0 env) := fun s c t hs _ => safe_raise hs (.inr rfl)
    exact safe_expression hp hb hinvoke he t s hx ht hs hready
  | succ room ih =>
    intro env id t s he hx ht hs hready
    have hinvoke : Invokes p base (p.invoke (room + 1) env) := safe_openCall hp hb ih
    exact safe_expression hp hb hinvoke he t s hx ht hs hready

/-! ## Runs -/

/-- The evaluation of a program with a type gives a value of the type, divides by zero or
    runs out of room. -/
theorem safe_evaluateProgram (hp : p.TreeShaped) (hb : p.OverBasis) (hf : p.InFragment) {t : Ty}
    (ht : p.HasType p.root t) (maxDepth : Nat) (streams : Table StreamId Value) (s : Scopes) :
    Safe p s.size (p.evaluateProgram maxDepth streams) s (Meets p s.size t) := by
  obtain ⟨borrows, main, hroot, hborrows, hmain⟩ := hf
  have hmem : main ∈ p.arena.children p.root := by
    rw [Arena.children_eq hroot]
    simp
  have hmain_type : p.HasType main t := by
    have hrule := Program.hasType_iff.1 ht
    unfold Program.Rule at hrule
    rwa [hroot] at hrule
  have hadd : Safe p s.size (modifyGet fun scopes => scopes.create none : Eval ScopeId) s
      fun id s' => id = ⟨s.size⟩ ∧ s'.size = s.size + 1 := by
    refine ⟨Scopes.grows_add s _, (s.typed_size p).add (fun c hc => by cases hc) ?_, rfl,
      Scopes.size_add s _⟩
    intro d v hv
    cases hv
  unfold Program.evaluateProgram
  refine hadd.bind fun scope s₁ _ hs₁ hscope => ?_
  obtain ⟨rfl, hsize⟩ := hscope
  rw [Program.evaluate_eq hp.acyclic]
  unfold Program.evaluateNode
  rw [hroot]
  refine (safe_evaluate hp hb _ _ main t s₁ hmain (hp.child_mem hp.root_mem hmem) hmain_type hs₁
    ⟨rfl, Nat.le_refl _, by rw [hsize]; exact Nat.lt_succ_self _, ?_⟩).mono fun v s' _ hv => hv.1
  -- Nothing can be named in the block that the root does not show it.
  intro n d hd
  rw [hp.resolve_child hp.root_mem hmem, hp.resolve_root] at hd
  unfold Program.definitionInScope at hd
  rw [hroot] at hd
  simp [Program.borrowsName, hborrows] at hd

/-- **Type safety.**  The run of a program of the fragment without fatal conflicts ends, if
    it may take the steps that it needs, with a value of the type of the program, with a
    division by zero or for want of room. -/
theorem Machine.run_safe (hp : p.TreeShaped) (hb : p.OverBasis) (hf : p.InFragment)
    (hc : Program.hasFatal (p.check.run .empty).1 = false) (maxDepth : Nat) (m : Machine)
    (hpending : m.pending = []) :
    ∃ n v, ((∃ e, v = .exception e ∧ (e.kind = .divisionByZero ∨ e.kind = .full)) ∨
        v.Conforms ((p.typeOf p.root).run .empty).1 ∧
          v.Conforms ((p.typeOf p.root).run (p.check.run .empty).2).1) ∧
      ∀ steps : Option Nat, (∀ limit, steps = some limit → n ≤ limit) →
        ((m.start p).run p ⟨maxDepth, steps⟩).1 = .ok v := by
  obtain ⟨t, ht⟩ := Program.typed_of_check hp hb hf hc
  obtain ⟨-, hright, hcomputing⟩ :=
    Program.finds_check (p := p) .empty (Memo.right_empty p) rfl
  have hfresh := (Program.finds_typeOf_eq ht .empty (Memo.right_empty p) rfl).1
  have hchecked := (Program.finds_typeOf_eq ht _ hright hcomputing).1
  obtain ⟨n, -, hruns⟩ := exists_steps hp.acyclic maxDepth m hpending
  have hfree (steps : Option Nat) (hsteps : ∀ limit, steps = some limit → n ≤ limit) :
      steps.filter (· < n) = none := by
    rw [Option.filter_eq_none_iff]
    intro limit hlimit
    simpa using hsteps limit hlimit
  have hsafe := safe_evaluateProgram hp hb hf ht maxDepth m.streams m.store.scopes
  obtain ⟨-, -, hres⟩ := hsafe
  rcases hr : (p.evaluateProgram maxDepth m.streams).on m.store.scopes with ⟨(e | c) | v, s'⟩
  · rw [hr] at hres
    refine ⟨n, .exception e, .inl ⟨e, rfl, hres⟩, fun steps hsteps => ?_⟩
    have hagrees := hruns steps (hfree steps hsteps)
    rw [hr] at hagrees
    exact hagrees.1
  · rw [hr] at hres
    exact hres.elim
  · rw [hr] at hres
    refine ⟨n, v, .inr ⟨?_, ?_⟩, fun steps hsteps => ?_⟩
    · show v.Conforms (p.typeOf p.root .empty).1
      rw [hfresh]
      exact hres.1
    · show v.Conforms (p.typeOf p.root (p.check .empty).2).1
      rw [hchecked]
      exact hres.1
    · have hagrees := hruns steps (hfree steps hsteps)
      rw [hr] at hagrees
      exact hagrees.1

/-! ## A program that calls a function -/

/-- A program that calls a function and chooses between values of two types. -/
def chosen : Program :=
  .built (do
    let x ← Build.input "x" (← Build.numberType)
    let double ← Build.function "double" [x] none
      (← Build.binary (← Build.reference "x") "+" (← Build.reference "x"))
    let three ← Build.number 0x4008000000000000
    let choice ← Build.conditional (← Build.boolean true)
      (← Build.evaluate (← Build.reference "double") [three]) (← Build.text "many")
    Build.program [] [double, choice])
    none

theorem overBasis_chosen : chosen.OverBasis where
  basis := by
    unfold chosen
    exact Program.basis_built _ _
  arena := Arena.extends_of_isPrefix (by decide +kernel) (by decide +kernel)

theorem treeShaped_chosen : chosen.TreeShaped :=
  Program.treeShaped_built (by decide +kernel)

theorem inFragment_chosen : chosen.InFragment := by
  have hnodes :
      (chosen.node? chosen.root = some (.program ⟨42, 0⟩ ⟨124⟩) ∧
        chosen.node? ⟨124⟩ = some (.block ⟨40, 2⟩) ∧
        chosen.node? ⟨117⟩ = some (.functionDefinition ⟨116⟩ ⟨38, 0⟩ ⟨38, 1⟩ none (some ⟨114⟩)) ∧
        chosen.node? ⟨114⟩ = some (.binaryOperation ⟨112⟩ .add ⟨113⟩)) ∧
      (chosen.node? ⟨111⟩ = some (.bind ⟨110⟩ (some ⟨108⟩) none) ∧
        chosen.node? ⟨108⟩ = some Primitive.number.node) ∧
      (chosen.node? ⟨112⟩ = some (.reference ⟨12⟩) ∧
        chosen.resolve ⟨12⟩ ⟨112⟩ = some (.bind ⟨111⟩) ∧
        chosen.node? ⟨113⟩ = some (.reference ⟨12⟩) ∧
        chosen.resolve ⟨12⟩ ⟨113⟩ = some (.bind ⟨111⟩) ∧
        chosen.node? ⟨120⟩ = some (.reference ⟨13⟩) ∧
        chosen.resolve ⟨13⟩ ⟨120⟩ = some (.function ⟨117⟩) ∧
        chosen.tree.ancestors ⟨120⟩ = [⟨121⟩, ⟨123⟩, ⟨124⟩, ⟨125⟩]) ∧
      (chosen.node? ⟨123⟩ = some (.conditional ⟨119⟩ ⟨121⟩ ⟨122⟩) ∧
        chosen.node? ⟨119⟩ = some (.booleanLiteral true) ∧
        chosen.node? ⟨121⟩ = some (.evaluate ⟨120⟩ ⟨39, 1⟩) ∧
        chosen.node? ⟨118⟩ = some (.numberLiteral 0x4008000000000000) ∧
        chosen.node? ⟨122⟩ = some (.textLiteral ⟨14⟩)) ∧
      chosen.arena.list ⟨42, 0⟩ = [] ∧ chosen.arena.list ⟨40, 2⟩ = [⟨117⟩, ⟨123⟩] ∧
        chosen.arena.list ⟨38, 0⟩ = [] ∧ chosen.arena.list ⟨38, 1⟩ = [⟨111⟩] ∧
        chosen.arena.list ⟨39, 1⟩ = [⟨118⟩] := by
    decide +kernel
  obtain ⟨⟨hroot, hmain, hdouble, hbody⟩, ⟨hinput, htype⟩, ⟨hx, hxr, hy, hyr, hcallee, hcr, hca⟩,
    ⟨hchoice, hyes, hcall, hthree, hmany⟩, hborrows, hss, hvs, his, hargs⟩ := hnodes
  have hleft : chosen.Expression ⟨112⟩ := .reference hx fun f h => by rw [hxr] at h; cases h
  have hright : chosen.Expression ⟨113⟩ := .reference hy fun f h => by rw [hyr] at h; cases h
  have hfunction : chosen.Expression ⟨117⟩ := by
    refine .function hdouble hvs (fun i hi => ?_) (.operation hbody hleft hright)
    rw [his] at hi
    obtain rfl := List.mem_singleton.1 hi
    exact ⟨_, _, none, hinput, ⟨.number, htype⟩, fun v hv => by cases hv⟩
  have hcallee : chosen.Expression ⟨120⟩ := by
    refine .reference hcallee fun f h => ?_
    rw [hcr] at h
    cases h
    rw [hca]
    decide
  have hchosen : chosen.Expression ⟨123⟩ := by
    refine .conditional hchoice (.boolean hyes) (.evaluate hcall hcallee fun a ha => ?_) (.text hmany)
    rw [hargs] at ha
    obtain rfl := List.mem_singleton.1 ha
    exact .number hthree
  refine ⟨_, _, hroot, hborrows, .block hmain (by rw [hss]; exact List.cons_ne_nil _ _) fun s hs => ?_⟩
  rw [hss] at hs
  rcases List.mem_cons.1 hs with rfl | hs
  · exact hfunction
  · obtain rfl := List.mem_singleton.1 hs
    exact hchosen

theorem Machine.run_safe_chosen :
    Program.hasFatal (chosen.check.run .empty).1 = false ∧
      ∃ n v, ((∃ e, v = .exception e ∧ (e.kind = .divisionByZero ∨ e.kind = .full)) ∨
          v.Conforms ((chosen.typeOf chosen.root).run .empty).1 ∧
            v.Conforms ((chosen.typeOf chosen.root).run (chosen.check.run .empty).2).1) ∧
        ∀ steps : Option Nat, (∀ limit, steps = some limit → n ≤ limit) →
          (((Machine.initial default).start chosen).run chosen ⟨defaultMaxDepth, steps⟩).1 = .ok v := by
  have hchecked : Program.hasFatal (chosen.check.run .empty).1 = false := by decide +kernel
  exact ⟨hchecked, Machine.run_safe treeShaped_chosen overBasis_chosen inFragment_chosen hchecked
    defaultMaxDepth (.initial default) rfl⟩

end Arbor
