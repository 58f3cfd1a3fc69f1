/-
  Checked programs of the fragment have types.

  In a program without fatal conflicts each expression of the fragment has a type.  The
  proof goes through a program in the order of evaluation: the parts of an expression and
  all that it can name have types, so its check was made with these types, and as it found
  nothing fatal, the rule for the expression applies.

  Main statement: `typed_of_check`.
-/
import Arbor.Proofs.Conflict.Checked
import Arbor.Proofs.Renaming.Relation
import Arbor.Proofs.Typing.Fragment

namespace Arbor

namespace Program

variable {p : Program} {K : List NodeId}

/-! ## What a primitive type accepts -/

section
variable {compatible : NodeId → NodeId → Typing Bool} {Callable : NodeId → Prop} {q : Primitive}

theorem finds_acceptsBy_simple {t : Ty} (ht : t.Simple Callable) :
    p.Finds K (p.acceptsBy compatible (.primitive q) t) fun b => b = true → t = .primitive q := by
  cases t with
  | primitive r =>
    unfold acceptsBy
    refine finds_pure fun h => ?_
    rw [of_decide_eq_true h]
  | function f =>
    unfold acceptsBy
    exact finds_pure fun h => by cases h
  | _ => exact ht.elim

theorem finds_acceptsEachBy_simple {ts : List Ty} (hts : ∀ t ∈ ts, t.Simple Callable) :
    p.Finds K (p.acceptsEachBy compatible (.primitive q) ts)
      fun b => b = true → ∀ t ∈ ts, t = .primitive q := by
  induction ts with
  | nil =>
    unfold acceptsEachBy
    exact finds_pure fun _ t ht => by cases ht
  | cons t ts ih =>
    unfold acceptsEachBy
    refine (finds_acceptsBy_simple (hts t List.mem_cons_self)).bind fun b hb => ?_
    split
    · next hb' =>
      refine (ih fun u hu => hts u (List.mem_cons_of_mem _ hu)).mono fun c hc hc' u hu => ?_
      rcases List.mem_cons.1 hu with rfl | hu
      · exact hb hb'
      · exact hc hc' u hu
    · exact finds_pure fun h => by cases h

/-- A known type that a primitive type accepts has only values of that type. -/
theorem finds_accepts_primitive {t : Ty} (ht : t.Known Callable) (q : Primitive) :
    p.Finds K (p.accepts (.primitive q) t) fun b => b = true → t.Within q := by
  unfold accepts
  have simple {a : Ty} (ha : a.parts = [a]) (hs : a.Known Callable) :
      p.Finds K (p.acceptsBy p.functionsCompatible (.primitive q) a)
        fun b => b = true → a.Within q := by
    refine (finds_acceptsBy_simple (hs a ?_)).mono fun b hb hb' => ?_
    · rw [ha]
      exact List.mem_singleton_self a
    · rw [hb hb']
      exact Ty.within_primitive q
  cases t with
  | union members =>
    unfold acceptsBy
    exact finds_acceptsEachBy_simple ht
  | _ => exact simple rfl ht

end

/-! ## Checks of expressions with types -/

section

/-- The type of a node that has one is found. -/
theorem finds_typeOf_eq {id : NodeId} {t : Ty} (ht : p.HasType id t) :
    p.Finds [] (p.typeOf id) (· = t) :=
  (finds_typeOf id).mono fun _ hu => hu t ht

/-- A method by a name on a known type is one of a primitive type. -/
theorem method_of_definitionInType {Callable : NodeId → Prop} {t : Ty} {n : Name}
    {d : Definition} (ht : t.Known Callable) (h : p.definitionInType t n = some d) :
    ∃ q f, t = .primitive q ∧ p.basis.function? q n = some f ∧ d = .function f := by
  unfold definitionInType at h
  split at h
  · exact (ht _ (List.mem_singleton_self _)).elim
  · next q =>
    obtain ⟨f, hf, rfl⟩ := Option.map_eq_some_iff.1 h
    exact ⟨q, f, rfl, hf, rfl⟩
  · cases h

/-- The value of a literal is of the type of the literal. -/
theorem primitive?_of_literal {id : NodeId} {v : Value} {t : Ty} (hv : p.literal? id = some v)
    (ht : p.HasType id t) : ∃ q, t = .primitive q ∧ v.primitive? = some q := by
  have ht := hasType_iff.1 ht
  unfold literal? at hv
  unfold Rule at ht
  split at hv
  · next hn => rw [hn] at ht; cases hv; exact ⟨_, ht, rfl⟩
  · next hn => rw [hn] at ht; cases hv; exact ⟨_, ht, rfl⟩
  · next hn => rw [hn] at ht; cases hv; exact ⟨_, ht, rfl⟩
  · cases hv

/-- An input that is not required has a default of its type. -/
theorem Takes.default {input : NodeId} {q : Primitive} (h : p.Takes p.HasType input q)
    (hr : p.isRequired input = false) :
    ∃ v, p.defaultValue? input = some v ∧ v.primitive? = some q := by
  obtain ⟨⟨ns, type, value, hn, hliteral⟩, ht⟩ := h
  have ht := hasType_iff.1 ht
  unfold Rule at ht
  unfold isRequired at hr
  unfold defaultValue?
  rw [hn] at ht hr ⊢
  cases value with
  | none => cases hr
  | some value =>
    obtain ⟨r, -, hq, hvalue⟩ := ht
    cases hq
    obtain ⟨u, hu, hw⟩ := hvalue value rfl
    obtain ⟨v, hv⟩ := Option.isSome_iff_exists.1 (hliteral value rfl)
    obtain ⟨r, rfl, hr⟩ := primitive?_of_literal hv hu
    cases hw _ (List.mem_singleton_self _)
    exact ⟨v, hv, hr⟩

/-- What is expected at an input is its declared type. -/
theorem finds_inputType {f input : NodeId} {q : Primitive} {index : Nat} (receiver : Option Ty)
    (args : List Ty) (hf : ∀ i ∈ p.inputs f, ∃ q, p.Takes p.HasType i q)
    (hi : (p.inputs f)[index]? = some input) (hq : p.Takes p.HasType input q) :
    p.Finds [] (p.inputType f index receiver args) (· = .primitive q) := by
  obtain ⟨n, hn⟩ := exists_depth (P := fun n i => ∃ q, p.Takes (p.HasTypeIn n) i q)
    (fun hle ⟨q, hq⟩ => ⟨q, hq.mono fun _ _ => HasTypeIn.le hle⟩) fun i hi => by
      obtain ⟨q, hb, k, hk⟩ := hf i hi
      exact ⟨k, q, hb, hk⟩
  obtain ⟨r, hr⟩ := hn input (List.mem_of_getElem? hi)
  cases hq.2.unique ⟨n, hr.2⟩
  exact finds_inputTypeBy_eq (fun id t ht => finds_typeOf_eq ⟨n, ht⟩) receiver args hn hi hr

/-- An input is given an argument that it accepts, or else has a default. -/
def Supplied (p : Program) (input : NodeId) : Option NodeId → Prop
  | some a => ∃ q t, p.Takes p.HasType input q ∧ p.HasType a t ∧ t.Within q
  | none => ∃ q v, p.Takes p.HasType input q ∧ p.defaultValue? input = some v ∧
      v.primitive? = some q

theorem given_of_supplied : ∀ {inputs arguments : List NodeId},
    arguments.length ≤ inputs.length →
    (∀ (i : Nat) input, inputs[i]? = some input → p.Supplied input arguments[i]?) →
    p.Given p.HasType inputs arguments
  | [], [], _, _ => trivial
  | input :: _, _ :: _, hle, h =>
    ⟨h 0 input rfl, given_of_supplied (Nat.le_of_succ_le_succ hle) fun i => h (i + 1)⟩
  | input :: _, [], _, h =>
    ⟨h 0 input rfl, given_of_supplied (Nat.zero_le _) fun i j hj => h (i + 1) j hj⟩

section
variable {f : NodeId} (hf : ∀ i ∈ p.inputs f, ∃ q, p.Takes p.HasType i q)
include hf

theorem finds_givenConflicts_eq {input argument : NodeId} {q : Primitive} {index : Nat}
    {receiver : Option Ty} {types : List Ty} {t : Ty} (hi : (p.inputs f)[index]? = some input)
    (hq : p.Takes p.HasType input q) (ht : t.Known p.Callable) :
    p.Finds [] (p.givenConflicts f receiver types index input argument t)
      fun cs => hasFatal cs = false → t.Within q := by
  refine (finds_inputType receiver types hf hi hq).bind fun expected he => ?_
  subst he
  refine (finds_accepts_primitive ht q).bind fun b hb => ?_
  split
  · next h => exact finds_pure fun _ => hb h
  · exact finds_pure fun h => by cases h

theorem finds_inputConflicts_eq {caller input : NodeId} {index : Nat} {receiver : Option Ty}
    {arguments : List NodeId} {types : List Ty} (hi : (p.inputs f)[index]? = some input)
    (hts : List.Forall₂ p.HasType arguments types) :
    p.Finds [] (p.inputConflicts caller f receiver (arguments.zip types) index input)
      fun cs => hasFatal cs = false → p.Supplied input arguments[index]? := by
  obtain ⟨q, hq⟩ := hf input (List.mem_of_getElem? hi)
  obtain ⟨hlen, hzip⟩ := List.forall₂_iff_zip.1 hts
  unfold inputConflicts
  split
  · next argument t hat =>
    have ht : p.HasType argument t := hzip (List.mem_of_getElem? hat)
    rw [(List.getElem?_zip_eq_some.1 hat).1]
    exact (finds_givenConflicts_eq hf hi hq ht.known).mono fun cs hcs hc =>
      ⟨q, t, hq, ht, hcs hc⟩
  · next hat =>
    have hnone : arguments[index]? = none := by
      rw [List.getElem?_eq_none_iff, List.length_zip] at hat
      rw [List.getElem?_eq_none_iff]
      omega
    rw [hnone]
    cases hr : p.isRequired input with
    | true => exact finds_pure fun h => by cases h
    | false =>
      refine finds_pure fun _ => ?_
      obtain ⟨v, hv, hvq⟩ := hq.default hr
      exact ⟨q, v, hq, hv, hvq⟩

/-- A call without fatal conflicts gives the inputs what they accept. -/
theorem finds_callConflicts_eq {caller : NodeId} {receiver : Option Ty} {arguments : List NodeId}
    (hargs : ∀ a ∈ arguments, ∃ t, p.HasType a t) :
    p.Finds [] (p.callConflicts caller f receiver arguments)
      fun cs => hasFatal cs = false → p.Given p.HasType (p.inputs f) arguments := by
  unfold callConflicts
  dsimp only
  refine (finds_mapM (P := p.HasType) fun a ha => ?_).bind fun types hts => ?_
  · obtain ⟨t, ht⟩ := hargs a ha
    exact (finds_typeOf_eq ht).mono fun u hu => by rw [hu]; exact ht
  refine Finds.bind (finds_mapM (P := fun (c : NodeId × Nat) cs =>
    hasFatal cs = false → p.Supplied c.1 arguments[c.2]?) ?_) fun found hfound => finds_pure ?_
  · intro c hc
    exact finds_inputConflicts_eq hf (List.mem_zipIdx_iff_getElem?.1 hc) hts
  · intro h
    rw [hasFatal_append, Bool.or_eq_false_iff] at h
    obtain ⟨hinputs, hsurplus⟩ := h
    refine given_of_supplied ?_ fun i input hi => ?_
    · unfold surplusConflicts at hsurplus
      split at hsurplus
      · next he =>
        have := congrArg List.length (List.isEmpty_iff.1 he)
        rw [List.length_drop, List.length_nil] at this
        omega
      · cases hsurplus
    · obtain ⟨cs, hcs, hsupplied⟩ :=
        List.rel_exists hfound (List.mk_mem_zipIdx_iff_getElem?.2 hi)
      refine hsupplied ?_
      unfold hasFatal at hinputs ⊢
      rw [List.any_eq_false] at hinputs ⊢
      exact fun c hc => hinputs c (List.mem_flatten_of_mem hcs hc)

end

end

/-! ## Functions that can be called -/

theorem typeGiven_of_primitive (h : p.arena.Acyclic) {id : NodeId} {q : Primitive}
    (hn : p.node? id = some q.node) : p.typeGiven id = .primitive q := by
  rw [typeGiven_eq h, typeGivenBy, hn]
  cases q with
  | _ => rfl

section
variable (ha : p.arena.Acyclic)
include ha

/-- A declared input has its declared type, if its default is clean. -/
theorem IsInput.takes {id : NodeId} (h : p.IsInput id) (hclean : p.Clean id) :
    ∃ q, p.Takes p.HasType id q := by
  obtain ⟨ns, type, value, hn, ⟨q, hq⟩, hliteral⟩ := h
  have hq := typeGiven_of_primitive ha hq
  refine ⟨q, ⟨ns, type, value, hn, hliteral⟩, hasType_iff.2 ?_⟩
  unfold Rule
  rw [hn]
  refine ⟨q, hq, rfl, fun v hv => ?_⟩
  subst hv
  obtain ⟨w, hw⟩ := Option.isSome_iff_exists.1 (hliteral v rfl)
  obtain ⟨t, ht⟩ : ∃ t, p.HasType v t := by
    unfold literal? at hw
    split at hw
    · next hv => exact ⟨_, hasType_iff.2 (by unfold Rule; rw [hv])⟩
    · next hv => exact ⟨_, hasType_iff.2 (by unfold Rule; rw [hv])⟩
    · next hv => exact ⟨_, hasType_iff.2 (by unfold Rule; rw [hv])⟩
    · cases hw
  refine ⟨t, ht, ?_⟩
  obtain ⟨cs, hcs, hf⟩ := hclean.found (Q := fun cs => hasFatal cs = false → t.Within q) <| by
    unfold conflictsOf
    rw [hn]
    refine (finds_typeOf_eq ht).bind fun u hu => ?_
    subst hu
    rw [hq]
    refine (finds_accepts_primitive ht.known q).bind fun b hb => ?_
    split
    · next h => exact finds_pure fun _ => hb h
    · exact finds_pure fun h => by cases h
  exact hcs hf

variable (hb : p.OverBasis)
include hb

/-- A function that can be called takes inputs of primitive types, and gives values of a
    type. -/
theorem Callable.signature {f : NodeId} (hf : p.Callable f) :
    (∀ i ∈ p.inputs f, ∃ q, p.Takes p.HasType i q) ∧ ∃ t, p.Returns p.HasType f t := by
  rcases hf with ⟨ht, ns, vs, is, body, hn⟩ | ⟨q, n, hf⟩
  · have hrule := hasType_iff.1 ht
    unfold Rule at hrule
    rw [hn] at hrule
    obtain ⟨-, -, his, u, hu⟩ := hrule
    refine ⟨?_, u, ?_⟩
    · unfold inputs inputList
      rw [hn]
      exact his
    · unfold Returns
      rw [hn]
      exact hu
  · obtain ⟨op, input, body, hm⟩ := hb.method hf
    obtain ⟨ns, vs, is, out, hn, -, his, hout⟩ := hm.function
    obtain ⟨ns', type, hinput, htype⟩ := hm.input
    refine ⟨fun i hi => ?_, .primitive op.output, ?_⟩
    · unfold inputs inputList at hi
      rw [hn] at hi
      simp only [his] at hi
      obtain rfl := List.mem_singleton.1 hi
      refine ⟨op.receiver, ⟨ns', type, none, hinput, fun v hv => by cases hv⟩, hasType_iff.2 ?_⟩
      unfold Rule
      rw [hinput]
      exact ⟨op.receiver, typeGiven_of_primitive ha htype, rfl, fun v hv => by cases hv⟩
    · unfold Returns
      rw [hn]
      exact ⟨⟨q, n, hf⟩, op.output, typeGiven_of_primitive ha hout, rfl⟩

end

/-! ## Types of clean expressions -/

section
variable (hp : p.TreeShaped) (hb : p.OverBasis) (hclean : ∀ id ∈ p.tree.nodes, p.Clean id)
include hp hb hclean

omit hp hb in
theorem typed_reference {id : NodeId} {n : Name} (hn : p.node? id = some (.reference n))
    (hself : ∀ f, p.resolve n id = some (.function f) → f ∉ p.tree.ancestors id)
    (hx : p.Placed id) : ∃ t, p.HasType id t := by
  obtain ⟨cs, hcs, hf⟩ := (hclean id hx.mem).found
    (Q := fun cs => hasFatal cs = false → (p.resolve n id).isSome) <| by
      unfold conflictsOf
      rw [hn]
      dsimp only
      split
      · next h =>
        refine finds_pure fun _ => ?_
        simpa [isReceiver, hx.outside] using h
      · exact finds_pure fun h => by cases h
  obtain ⟨d, hd⟩ := Option.isSome_iff_exists.1 (hcs hf)
  have htyped := hx.typed n d hd
  cases d with
  | bind b =>
    obtain ⟨t, ht⟩ := htyped
    refine ⟨t, hasType_iff.2 ?_⟩
    unfold Rule
    rw [hn]
    dsimp only
    rw [hd]
    exact ht
  | function f =>
    obtain ⟨ns, vs, is, output, body, hfn⟩ := function_of_resolve hd
    have hne : f ∉ id :: p.tree.ancestors id := by
      intro hmem
      rcases List.mem_cons.1 hmem with rfl | hmem
      · rw [hn] at hfn
        cases hfn
      · exact hself f hd hmem
    refine ⟨.function f, hasType_iff.2 ?_⟩
    unfold Rule
    rw [hn]
    dsimp only
    rw [hd]
    exact ⟨rfl, htyped hne, hself f hd⟩
  | _ => exact htyped.elim

omit hp hb in
theorem typed_property {id receiver : NodeId} {n : Name} {t : Ty}
    (hn : p.node? id = some (.propertyReference receiver n)) (hx : id ∈ p.tree.nodes)
    (ht : p.HasType receiver t) : ∃ t, p.HasType id t := by
  obtain ⟨cs, hcs, hf⟩ := (hclean id hx).found
    (Q := fun cs => hasFatal cs = false → (p.definitionInType t n).isSome) <| by
      unfold conflictsOf
      rw [hn]
      refine (finds_typeOf_eq ht).bind fun u hu => ?_
      subst hu
      split
      · next h => exact finds_pure fun _ => h.resolve_left ht.known.ne_unknown
      · exact finds_pure fun h => by cases h
  obtain ⟨d, hd⟩ := Option.isSome_iff_exists.1 (hcs hf)
  obtain ⟨q, f, rfl, hf, rfl⟩ := method_of_definitionInType ht.known hd
  refine ⟨.function f, hasType_iff.2 ?_⟩
  unfold Rule
  rw [hn]
  exact ⟨q, f, ht, hf, rfl⟩

theorem typed_operation {id left right : NodeId} {op : Name} {t u : Ty}
    (hn : p.node? id = some (.binaryOperation left op right)) (hx : id ∈ p.tree.nodes)
    (ht : p.HasType left t) (hu : p.HasType right u) : ∃ t, p.HasType id t := by
  obtain ⟨cs, hcs, hf⟩ := (hclean id hx).found
    (Q := fun cs => hasFatal cs = false → ∃ q f, t = .primitive q ∧
      p.basis.function? q op = some f ∧ p.Given p.HasType (p.inputs f) [right]) <| by
      unfold conflictsOf
      rw [hn]
      refine (finds_typeOf_eq ht).bind fun t' ht' => ?_
      subst ht'
      rw [if_neg ht.known.ne_unknown]
      split
      · exact finds_pure fun h => by cases h
      · next f hf =>
        unfold operatorFunction at hf
        split at hf
        · next hd =>
          cases hf
          obtain ⟨q, f, rfl, hf, hd⟩ := method_of_definitionInType ht.known hd
          cases hd
          obtain ⟨mop, input, body, hm⟩ := hb.method hf
          obtain ⟨ns, vs, is, out, hfn, -, his, -⟩ := hm.function
          have hinputs : p.inputs f = [input] := by
            unfold inputs inputList
            rw [hfn]
            exact his
          have hcallable : p.Callable f := .inr ⟨q, op, hf⟩
          have hsig := (hcallable.signature hp.acyclic hb).1
          obtain ⟨r, hr⟩ := hsig input (by rw [hinputs]; exact List.mem_singleton_self _)
          refine Finds.bind (Q := fun cs => hasFatal cs = false → u.Within r) ?_
            fun cs hcs => finds_pure fun h => ?_
          · unfold operandConflicts
            rw [hinputs]
            refine (finds_typeOf_eq hu).bind fun u' hu' => ?_
            subst hu'
            exact finds_givenConflicts_eq hsig (by rw [hinputs]; rfl) hr hu.known
          · rw [hasFatal_append, Bool.or_eq_false_iff] at h
            refine ⟨q, f, rfl, hf, ?_⟩
            rw [hinputs]
            exact ⟨⟨r, u, hr, hu, hcs h.2⟩, trivial⟩
        · cases hf
  obtain ⟨q, f, rfl, hfn, hgiven⟩ := hcs hf
  have hcallable : p.Callable f := .inr ⟨q, op, hfn⟩
  obtain ⟨-, v, hv⟩ := hcallable.signature hp.acyclic hb
  refine ⟨v, hasType_iff.2 ?_⟩
  unfold Rule
  rw [hn]
  exact ⟨q, f, ht, hfn, hgiven, hv⟩

omit hp hb in
theorem typed_conditional {id condition yes no : NodeId} {t u v : Ty}
    (hn : p.node? id = some (.conditional condition yes no)) (hx : id ∈ p.tree.nodes)
    (ht : p.HasType condition t) (hu : p.HasType yes u) (hv : p.HasType no v) :
    ∃ t, p.HasType id t := by
  obtain ⟨cs, hcs, hf⟩ := (hclean id hx).found
    (Q := fun cs => hasFatal cs = false → t.Within .boolean) <| by
      unfold conflictsOf
      rw [hn]
      refine (finds_typeOf_eq ht).bind fun t' ht' => ?_
      subst ht'
      refine (finds_accepts_primitive ht.known .boolean).bind fun b hb => ?_
      split
      · next h => exact finds_pure fun _ => hb h
      · exact finds_pure fun h => by cases h
  refine ⟨u.join v, hasType_iff.2 ?_⟩
  unfold Rule
  rw [hn]
  exact ⟨t, u, v, ht, hcs hf, hu, hv, rfl⟩

theorem typed_evaluate {id function : NodeId} {is : NodeRange} {t : Ty}
    (hn : p.node? id = some (.evaluate function is)) (hx : id ∈ p.tree.nodes)
    (ht : p.HasType function t) (hargs : ∀ a ∈ p.arena.list is, ∃ u, p.HasType a u) :
    ∃ t, p.HasType id t := by
  obtain ⟨cs, hcs, hf⟩ := (hclean id hx).found
    (Q := fun cs => hasFatal cs = false → ∃ f, t = .function f ∧ p.Callable f ∧
      p.Given p.HasType (p.inputs f) (p.arena.list is)) <| by
      unfold conflictsOf
      rw [hn]
      refine (finds_typeOf_eq ht).bind fun t' ht' => ?_
      subst ht'
      split
      · next f =>
        have hcallable : p.Callable f := ht.known _ (List.mem_singleton_self _)
        refine Finds.bind ((p.compositional_finds []).receiverTypeBy
          (fun id => (finds_typeOf id).any) function) fun receiver _ => ?_
        refine (finds_callConflicts_eq (hcallable.signature hp.acyclic hb).1 hargs).mono
          fun cs hcs h => ?_
        exact ⟨f, rfl, hcallable, hcs h⟩
      · exact (ht.known _ (List.mem_singleton_self _)).elim
      · exact absurd rfl ht.known.ne_unknown
      · exact finds_pure fun h => by cases h
  obtain ⟨f, rfl, hcallable, hgiven⟩ := hcs hf
  obtain ⟨-, v, hv⟩ := hcallable.signature hp.acyclic hb
  refine ⟨v, hasType_iff.2 ?_⟩
  unfold Rule
  rw [hn]
  exact ⟨f, ht, hgiven, hv⟩

omit hb in
theorem typed_bind {id ns value : NodeId} {type : Option NodeId} {t : Ty}
    (hn : p.node? id = some (.bind ns type (some value))) (hx : id ∈ p.tree.nodes)
    (htype : ∀ t, type = some t → p.IsPrimitiveType t) (ht : p.HasType value t) :
    ∃ t, p.HasType id t := by
  cases type with
  | none =>
    refine ⟨t, hasType_iff.2 ?_⟩
    unfold Rule
    rw [hn]
    exact ht
  | some type =>
    obtain ⟨q, hq⟩ := htype type rfl
    have hq := typeGiven_of_primitive hp.acyclic hq
    obtain ⟨cs, hcs, hf⟩ := (hclean id hx).found
      (Q := fun cs => hasFatal cs = false → t.Within q) <| by
        unfold conflictsOf
        rw [hn]
        refine (finds_typeOf_eq ht).bind fun u hu => ?_
        subst hu
        rw [hq]
        refine (finds_accepts_primitive ht.known q).bind fun b hb => ?_
        split
        · next h => exact finds_pure fun _ => hb h
        · exact finds_pure fun h => by cases h
    refine ⟨.primitive q, hasType_iff.2 ?_⟩
    unfold Rule
    rw [hn]
    refine ⟨q, hq, rfl, fun v hv => ?_⟩
    cases hv
    exact ⟨t, ht, hcs hf⟩

omit hp hb hclean in
/-- What an expression shows to itself is a function, which it may not name. -/
theorem Expression.typed_self {id : NodeId} {n : Name} {d : Definition} (h : p.Expression id)
    (hself : p.namesItself id = true) (hd : p.definitionNamed n id = some d) : p.Typed id d := by
  have hc := classify_of_definitionNamed hd
  unfold namesItself at hself
  unfold classify at hc
  cases h with
  | function hn =>
    rw [hn] at hc
    cases hc
    exact fun hf => absurd List.mem_cons_self hf
  | boolean hn | number hn | text hn | reference hn | property hn | operation hn
  | conditional hn | evaluate hn | block hn | bind hn =>
    rw [hn] at hself
    cases hself

omit hb hclean in
/-- The statements of a block have types, one after another, if each has a type when those
    before it have. -/
theorem typed_statements {id : NodeId} {ss : NodeRange} (hn : p.node? id = some (.block ss))
    (hx : p.Placed id) (hss : ∀ s ∈ p.arena.list ss, p.Expression s)
    (h : ∀ s ∈ p.arena.list ss, p.Placed s → ∃ t, p.HasType s t) :
    ∀ s ∈ p.arena.list ss, ∃ t, p.HasType s t := by
  have hchildren : p.arena.children id = p.arena.list ss := by
    rw [Arena.children_eq hn, Arena.childrenOf_block]
  have hnodup : (p.arena.list ss).Nodup := hchildren ▸ hp.nodup_children hx.mem
  -- Induction on the number of statements before.
  have before (k : Nat) : ∀ s ∈ (p.arena.list ss).take k, ∃ t, p.HasType s t := by
    induction k with
    | zero => intro s hs; cases hs
    | succ k ih =>
      intro s hs
      rw [List.take_add_one, List.mem_append] at hs
      rcases hs with hs | hs
      · exact ih s hs
      have hk : (p.arena.list ss)[k]? = some s := by simpa using hs
      have hmem : s ∈ p.arena.list ss := List.mem_of_getElem? hk
      refine h s hmem (hx.child hp (hchildren ▸ hmem) (by rw [hn]; rfl) fun n d hd => ?_)
      unfold definitionInScope at hd
      rw [hn] at hd
      rcases named_of_visibleInBlock hd with ⟨j, i, hj, hi, hnamed⟩ | ⟨hself, hnamed⟩
      · have hjk : j = k := (List.getElem?_inj (List.getElem?_eq_some_iff.1 hj).1 hnodup).1
          (hj.trans hk.symm)
        subst hjk
        obtain ⟨t, ht⟩ := ih i hi
        exact typed_of_named ht hnamed
      · exact (hss s hmem).typed_self hself hnamed
  intro s hs
  refine before (p.arena.list ss).length s ?_
  rwa [List.take_length]

omit hb in
theorem typed_function {id ns body : NodeId} {vs is : NodeRange}
    (hn : p.node? id = some (.functionDefinition ns vs is none (some body)))
    (hvs : p.arena.list vs = []) (his : ∀ i ∈ p.arena.list is, p.IsInput i) (hx : p.Placed id)
    (h : p.Placed body → ∃ t, p.HasType body t) : p.HasType id (.function id) := by
  have hchildren : p.arena.children id = ns :: (p.arena.list is ++ [body]) := by
    rw [Arena.children_eq hn, Arena.childrenOf_functionDefinition, hvs]
    rfl
  have htakes (i : NodeId) (hi : i ∈ p.arena.list is) : ∃ q, p.Takes p.HasType i q := by
    refine (his i hi).takes hp.acyclic (hclean i (hp.child_mem hx.mem ?_))
    rw [hchildren]
    exact List.mem_cons_of_mem _ (List.mem_append_left _ hi)
  obtain ⟨t, ht⟩ := h <| by
    refine hx.child hp (by rw [hchildren]; simp) (by rw [hn]; rfl) fun n d hd => ?_
    unfold definitionInScope at hd
    rw [hn] at hd
    obtain ⟨i, hi, hnamed⟩ := named_of_firstNamed hd
    have hi : i ∈ p.arena.list is := by simpa [hvs] using hi
    obtain ⟨q, hq⟩ := htakes i hi
    exact typed_of_named hq.2 hnamed
  refine hasType_iff.2 ?_
  unfold Rule
  rw [hn]
  exact ⟨rfl, hvs, htakes, t, ht⟩

/-- **An expression in its place has a type** if all nodes of the program are clean. -/
theorem Expression.typed {id : NodeId} (h : p.Expression id) (hx : p.Placed id) :
    ∃ t, p.HasType id t := by
  induction h with
  | boolean hn => exact ⟨_, hasType_iff.2 (by unfold Rule; rw [hn])⟩
  | number hn => exact ⟨_, hasType_iff.2 (by unfold Rule; rw [hn])⟩
  | text hn => exact ⟨_, hasType_iff.2 (by unfold Rule; rw [hn])⟩
  | reference hn hself => exact typed_reference hclean hn hself hx
  | @property id receiver n hn _ ih =>
    have hchild : p.Placed receiver :=
      hx.plain hp (by rw [Arena.children_eq hn]; simp) (by rw [hn]; rfl)
        fun _ => by unfold definitionInScope; rw [hn]
    obtain ⟨t, ht⟩ := ih hchild
    exact typed_property hclean hn hx.mem ht
  | @operation id left op right hn _ _ ihl ihr =>
    have hchild (c : NodeId) (hc : c ∈ [left, right]) : p.Placed c :=
      hx.plain hp (by rw [Arena.children_eq hn]; simpa using hc) (by rw [hn]; rfl)
        fun _ => by unfold definitionInScope; rw [hn]
    obtain ⟨t, ht⟩ := ihl (hchild left (by simp))
    obtain ⟨u, hu⟩ := ihr (hchild right (by simp))
    exact typed_operation hp hb hclean hn hx.mem ht hu
  | @conditional id condition yes no hn _ _ _ ihc ihy ihn =>
    have hchild (c : NodeId) (hc : c ∈ [condition, yes, no]) : p.Placed c :=
      hx.plain hp (by rw [Arena.children_eq hn]; simpa using hc) (by rw [hn]; rfl)
        fun _ => by unfold definitionInScope; rw [hn]
    obtain ⟨t, ht⟩ := ihc (hchild condition (by simp))
    obtain ⟨u, hu⟩ := ihy (hchild yes (by simp))
    obtain ⟨v, hv⟩ := ihn (hchild no (by simp))
    exact typed_conditional hclean hn hx.mem ht hu hv
  | @evaluate id function is hn _ _ ihf ihis =>
    have hchild (c : NodeId) (hc : c ∈ function :: p.arena.list is) : p.Placed c :=
      hx.plain hp (by rw [Arena.children_eq hn]; simpa using hc) (by rw [hn]; rfl)
        fun _ => by unfold definitionInScope; rw [hn]
    obtain ⟨t, ht⟩ := ihf (hchild function List.mem_cons_self)
    exact typed_evaluate hp hb hclean hn hx.mem ht
      fun a ha => ihis a ha (hchild a (List.mem_cons_of_mem _ ha))
  | @block id ss hn hne hss ih =>
    have htyped := typed_statements hp hn hx hss ih
    have hlast := List.getLast?_eq_some_getLast hne
    obtain ⟨t, ht⟩ := htyped _ (List.getLast_mem hne)
    refine ⟨t, hasType_iff.2 ?_⟩
    unfold Rule
    rw [hn]
    exact ⟨htyped, _, hlast, ht⟩
  | @bind id ns type value hn htype _ ih =>
    have hchild : p.Placed value :=
      hx.plain hp (by rw [Arena.children_eq hn]; simp) (by rw [hn]; rfl)
        fun _ => by unfold definitionInScope; rw [hn]
    obtain ⟨t, ht⟩ := ih hchild
    exact typed_bind hp hclean hn hx.mem htype ht
  | function hn hvs his _ ih => exact ⟨_, typed_function hp hclean hn hvs his hx ih⟩

end

/-- **A program of the fragment without fatal conflicts has a type.** -/
theorem typed_of_check (hp : p.TreeShaped) (hb : p.OverBasis) (hf : p.InFragment)
    (hc : hasFatal (p.check.run .empty).1 = false) : ∃ t, p.HasType p.root t := by
  obtain ⟨borrows, main, hroot, hborrows, hmain⟩ := hf
  have hclean := clean_of_check (Memo.right_empty p) rfl hc
  obtain ⟨t, ht⟩ := hmain.typed hp hb hclean (placed_main hp hroot hborrows)
  refine ⟨t, hasType_iff.2 ?_⟩
  unfold Rule
  rw [hroot]
  exact ht

end Program

end Arbor
