/-
  Operators and calls of members.

  An operation and the call of the member that its operator names, over the same operands, are
  checked by rules of their own: an operator looks at the first two inputs of its function alone,
  and a call at every input.  They come to the same as long as required inputs come first.  The
  two ask for the types of the operands in different orders, which makes no difference unless the
  guard of the analysis cuts one of these questions short.

  * `Memo.AtRest p m`: nothing is being computed, and only plain types are remembered;
  * `Typing.Plainly p x a`: from such memos the analysis `x` finds `a`, and leaves such a memo;
  * `Typing.Agree p x y`: from such memos two analyses answer alike;
  * `Program.SpellsOut p o c l op r`: the operation `o` and the call `c` are those two.

  Main statements: `SpellsOut.hasPlainType_call`, the two are of one type, and
  `SpellsOut.agree_hasFatal`, a fatal conflict is found in both or in neither.
-/
import Arbor.Proofs.Conflict.Checked
import Arbor.Proofs.Typing.Transparency

namespace Arbor

/-! ## Contexts at rest -/

/-- Nothing is being computed, and only plain types are remembered. -/
structure Memo.AtRest (p : Program) (m : Memo) : Prop where
  idle : m.computing = []
  grounded : m.Grounded p

namespace Memo.AtRest

variable {p : Program} {m m' : Memo}

theorem alike (h : m.AtRest p) (h' : m'.AtRest p) : m.Alike p m' := by
  refine ⟨h.idle.trans h'.idle.symm, h.grounded.faithful, h'.grounded.faithful, fun id hid => ?_⟩
  have unknown {m : Memo} (h : m.AtRest p) : m.types.get? id = none := by
    cases hget : m.types.get? id with
    | none => rfl
    | some t => exact absurd ⟨t, h.grounded id t hget⟩ hid
  rw [unknown h, unknown h']

theorem adds (h : m.AtRest p) (hm : m.Adds p m') : m'.AtRest p := by
  refine ⟨hm.computing.trans h.idle, fun id t ht => ?_⟩
  rcases hm.types id with he | ⟨u, hu, hget⟩
  · exact h.grounded id t (he ▸ ht)
  · rw [hget] at ht
    cases ht
    exact hu

end Memo.AtRest

theorem Program.Quietly.atRest {p : Program} {m : Memo} (h : p.Quietly m) : m.AtRest p :=
  ⟨h.queried.idle, h.grounded⟩

namespace Typing

variable {p : Program} {α β : Type} {x y : Typing α} {a : α}

/-- From a context at rest the analysis finds the answer, and leaves such a context. -/
def Plainly (p : Program) (x : Typing α) (a : α) : Prop :=
  ∀ m : Memo, m.AtRest p → (x m).1 = a ∧ (x m).2.AtRest p

/-- Two analyses answer alike in contexts at rest. -/
def Agree (p : Program) (x y : Typing α) : Prop :=
  ∀ m m' : Memo, m.AtRest p → m'.AtRest p → (x m).1 = (y m').1

theorem plainly_typeOf {id : NodeId} {t : Ty} (h : p.HasPlainType id t) :
    (p.typeOf id).Plainly p t := by
  intro m hm
  obtain ⟨n, hn⟩ := h
  have hfound := Program.finds_plainType p.room_nil hn nofun hm.idle hm.grounded.faithful
  exact ⟨hfound.answer, hm.adds hfound.adds⟩

theorem Agree.symm (h : x.Agree p y) : y.Agree p x := fun m m' hm hm' => (h m' m hm' hm).symm

theorem Agree.map (h : x.Agree p y) (f : α → β) : (f <$> x).Agree p (f <$> y) :=
  fun m m' hm hm' => congrArg f (h m m' hm hm')

theorem Together.agree (h : x.Together p []) : x.Agree p x :=
  fun m m' hm hm' => (h m m' (hm.alike hm') hm.idle).1

/-- An analysis goes on from what it finds. -/
theorem Plainly.agree {next : α → Typing β} {y : Typing β} (hx : x.Plainly p a)
    (hnext : (next a).Agree p y) : (x >>= next).Agree p y := by
  intro m m' hm hm'
  obtain ⟨hanswer, hrest⟩ := hx m hm
  have hbind : (x >>= next) m = next a (x m).2 := by
    rw [← hanswer]
    rfl
  rw [hbind]
  exact hnext _ _ hrest hm'

end Typing

namespace Program

open Typing

/-! ## Operations and calls of members -/

/-- The operation `o` and the call `c` of the member that its operator names, over the same
    operands. -/
structure SpellsOut (p : Program) (o c l : NodeId) (op : Name) (r : NodeId) : Prop where
  operation : p.node? o = some (.binaryOperation l op r)
  call : ∃ member is, p.node? c = some (.evaluate member is) ∧ p.arena.list is = [r] ∧
    p.node? member = some (.propertyReference l op)

/-- The types that the two ask for, by plain recursion to a depth: those of the operands, and
    what the function gives. -/
structure PlainOperation (p : Program) (n : Nat) (l r f : NodeId) (receiver given t : Ty) :
    Prop where
  left : p.plainType n l = some receiver
  right : p.plainType n r = some given
  output : p.outputTypeBy (p.plainType n) f (some receiver) [given] = some t

variable {p : Program} {o c l r f : NodeId} {op : Name} {receiver given t : Ty} {n : Nat}

theorem hasPlainType_iff {id : NodeId} :
    p.HasPlainType id t ↔ ∃ n, p.computeTypeBy (p.plainType n) id = some t := by
  constructor
  · rintro ⟨_ | n, h⟩
    · cases h
    · exact ⟨n, h⟩
  · rintro ⟨n, h⟩
    exact ⟨n + 1, h⟩

/-- The output type of a call is found by deeper recursion as well. -/
theorem outputTypeBy_succ {args : List Ty} {receiver : Option Ty}
    (h : p.outputTypeBy (p.plainType n) f receiver args = some t) :
    p.outputTypeBy (p.plainType (n + 1)) f receiver args = some t := by
  rw [← run_outputTypeBy] at h ⊢
  exact Dialogue.run_mono (fun _ _ => plainType_succ) h

/-! ## What is found on the way -/

theorem definitionInType_of_operatorFunction (hf : p.operatorFunction receiver op = some f) :
    p.definitionInType receiver op = some (.function f) := by
  unfold operatorFunction at hf
  split at hf
  · next d hd =>
    rw [hd, Option.some.inj hf]
  · cases hf

/-! ## Inputs after the first -/

/-- What is wrong with an input that a call does not give. -/
def missingConflicts (p : Program) (caller definition input : NodeId) : List Conflict :=
  if p.isRequired input then [⟨.missingInput definition input, [caller], [input]⟩] else []

theorem hasFatal_missingConflicts (caller : NodeId) (inputs : List NodeId) :
    hasFatal (inputs.flatMap (p.missingConflicts caller f)) = inputs.any p.isRequired := by
  unfold hasFatal
  rw [List.any_flatMap]
  congr 1
  funext input
  unfold missingConflicts
  split
  · next hrequired => exact hrequired.symm
  · next hoptional => exact (eq_false_of_ne_true hoptional).symm

theorem mapM_inputConflicts (caller : NodeId) (receiver : Option Ty) (argument : NodeId × Ty)
    (inputs : List NodeId) (k : Nat) :
    (inputs.zipIdx (k + 1)).mapM (fun c => p.inputConflicts caller f receiver [argument] c.2 c.1) =
      (pure (inputs.map (p.missingConflicts caller f)) : Typing _) := by
  induction inputs generalizing k with
  | nil => rfl
  | cons input inputs ih =>
    have hone : p.inputConflicts caller f receiver [argument] (k + 1) input =
        pure (p.missingConflicts caller f input) := by
      unfold inputConflicts missingConflicts
      split
      · next hgiven => cases hgiven
      · split <;> rfl
    rw [List.zipIdx_cons, List.mapM_cons, ih]
    simp only [hone, pure_bind, List.map_cons]

/-- A call with one argument is checked at the first input, and for the others that it lacks. -/
theorem callConflicts_one (caller : NodeId) (receiver : Option Ty) {first : NodeId}
    {rest : List NodeId} (hinputs : p.inputs f = first :: rest) :
    p.callConflicts caller f receiver [r] = do
      let given ← p.typeOf r
      let found ← p.givenConflicts f receiver [given] 0 first r given
      return found ++ rest.flatMap (p.missingConflicts caller f) := by
  unfold callConflicts
  rw [hinputs]
  simp only [List.mapM_cons, List.mapM_nil, List.zipIdx_cons, bind_assoc, pure_bind,
    List.zip_cons_cons, List.zip_nil_right, mapM_inputConflicts]
  refine bind_congr fun given => bind_congr fun found => ?_
  simp [surplusConflicts, List.flatMap_def]

/-- What is wrong with the inputs after one of them is wrong with the list, and so is that it is
    required after an optional one. -/
theorem inputListConflictsAfter_cons (p : Program) (seen : List Name) (optional : Bool) (i : NodeId)
    (inputs : List NodeId) : ∃ seen',
      p.inputListConflictsAfter seen' (optional || !p.isRequired i) inputs ⊆
          p.inputListConflictsAfter seen optional (i :: inputs) ∧
        (optional = true → p.isRequired i = true →
          ⟨.requiredAfterOptional, [i], []⟩ ∈
            p.inputListConflictsAfter seen optional (i :: inputs)) := by
  rw [inputListConflictsAfter]
  split
  next seen' found _ =>
  refine ⟨seen', ?_⟩
  cases hi : p.isRequired i with
  | true => cases optional <;> simp
  | false => simp

/-- Required inputs come first. -/
def RequiredFirst (p : Program) (inputs : List NodeId) : Prop :=
  ∀ k ∈ p.inputListConflicts inputs, k.kind ≠ .requiredAfterOptional

/-- Inputs after an optional one are optional. -/
theorem all_optional {seen : List Name} {inputs : List NodeId}
    (h : ∀ k ∈ p.inputListConflictsAfter seen true inputs, k.kind ≠ .requiredAfterOptional) :
    ∀ i ∈ inputs, p.isRequired i = false := by
  induction inputs generalizing seen with
  | nil => nofun
  | cons i inputs ih =>
    obtain ⟨seen', hrest, hfirst⟩ := p.inputListConflictsAfter_cons seen true i inputs
    refine List.forall_mem_cons.2 ⟨?_, ih fun k hk => h k (hrest hk)⟩
    cases hi : p.isRequired i with
    | false => rfl
    | true => exact absurd rfl (h _ (hfirst rfl hi))

/-- If the second input is optional, so are those after it. -/
theorem RequiredFirst.optional {first : NodeId} {rest : List NodeId}
    (h : p.RequiredFirst (first :: rest)) (hsecond : rest.head?.filter p.isRequired = none) :
    rest.any p.isRequired = false := by
  cases rest with
  | nil => rfl
  | cons second rest =>
    have hsecond : p.isRequired second = false := by simpa [Option.filter] using hsecond
    obtain ⟨seen, hafter, -⟩ := p.inputListConflictsAfter_cons [] false first (second :: rest)
    obtain ⟨seen', hrest, -⟩ :=
      p.inputListConflictsAfter_cons seen (false || !p.isRequired first) second rest
    rw [hsecond, Bool.not_false, Bool.or_true] at hrest
    rw [List.any_eq_false]
    simpa [hsecond] using all_optional fun k hk => h k (hafter (hrest hk))

/-- The member that is called is the function of the operator. -/
theorem plainType_member {member : NodeId}
    (hmember : p.node? member = some (.propertyReference l op))
    (hl : p.plainType n l = some receiver) (hf : p.operatorFunction receiver op = some f) :
    p.plainType (n + 1) member = some (.function f) := by
  have hcompute : p.computeTypeBy (p.plainType n) member = some (.function f) := by
    unfold computeTypeBy
    rw [hmember]
    refine Option.bind_eq_some_iff.2 ⟨receiver, hl, ?_⟩
    rw [definitionInType_of_operatorFunction hf]
    rfl
  exact hcompute

namespace SpellsOut

variable (h : p.SpellsOut o c l op r)

section
include h

/-- The type of the operation is found after that of the left operand. -/
theorem exists_receiver (ht : p.HasPlainType o t) : ∃ receiver, p.HasPlainType l receiver := by
  obtain ⟨n, hn⟩ := hasPlainType_iff.1 ht
  unfold computeTypeBy at hn
  rw [h.operation] at hn
  obtain ⟨u, hu, -⟩ := Option.bind_eq_some_iff.1 hn
  exact ⟨u, n, hu⟩

/-- What plain recursion asks for on the way to the type of the operation. -/
theorem plainOperation (ht : p.HasPlainType o t) (hl : p.HasPlainType l receiver)
    (hf : p.operatorFunction receiver op = some f) :
    ∃ n given, p.PlainOperation n l r f receiver given t := by
  obtain ⟨n, hn⟩ := hasPlainType_iff.1 ht
  unfold computeTypeBy at hn
  rw [h.operation] at hn
  obtain ⟨u, hu, hn⟩ := Option.bind_eq_some_iff.1 hn
  obtain rfl : receiver = u := hl.unique ⟨n, hu⟩
  rw [hf] at hn
  obtain ⟨given, hgiven, hn⟩ := Option.bind_eq_some_iff.1 hn
  exact ⟨n, given, hu, hgiven, hn⟩

end

variable (hop : p.PlainOperation n l r f receiver given t)
  (hf : p.operatorFunction receiver op = some f)
include h hop hf

/-- The operation has the type that its function gives. -/
theorem hasPlainType_operation : p.HasPlainType o t := by
  refine hasPlainType_iff.2 ⟨n, ?_⟩
  unfold computeTypeBy
  rw [h.operation]
  refine Option.bind_eq_some_iff.2 ⟨receiver, hop.left, ?_⟩
  rw [hf]
  exact Option.bind_eq_some_iff.2 ⟨given, hop.right, hop.output⟩

/-- **The call has the type of the operation**. -/
theorem hasPlainType_call : p.HasPlainType c t := by
  obtain ⟨member, is, hc, his, hmember⟩ := h.call
  refine hasPlainType_iff.2 ⟨n + 1, ?_⟩
  unfold computeTypeBy
  rw [hc]
  dsimp only
  rw [his]
  refine Option.bind_eq_some_iff.2 ⟨[given], ?_, ?_⟩
  · rw [List.mapM_cons, plainType_succ hop.right]
    rfl
  refine Option.bind_eq_some_iff.2 ⟨.function f, plainType_member hmember hop.left hf, ?_⟩
  refine Option.bind_eq_some_iff.2 ⟨some receiver, ?_, outputTypeBy_succ hop.output⟩
  unfold receiverTypeBy
  rw [hmember]
  dsimp only
  rw [plainType_succ hop.left]
  rfl

/-- What is checked of the operation, given the type of its left operand. -/
theorem agree_operation {y : Typing Bool}
    (hy : (hasFatal <$> p.operandConflicts o f receiver r).Agree p y) :
    (hasFatal <$> p.conflictsOf o).Agree p y := by
  have hknown : receiver ≠ .unknown := by
    rintro rfl
    cases hf
  unfold conflictsOf
  rw [h.operation]
  unfold operationConflicts
  rw [map_bind]
  refine (plainly_typeOf ⟨n, hop.left⟩).agree ?_
  rw [if_neg hknown, hf]
  have horder (cs : List Conflict) : hasFatal
      ((if p.mixesOperators l op then [⟨.orderOfOperations, [o], [l]⟩] else []) ++ cs) =
        hasFatal cs := by
    rw [hasFatal_append]
    split <;> rfl
  dsimp only
  rw [map_bind]
  simp only [map_pure, horder]
  rw [bind_pure_comp]
  exact hy

/-- What is checked of the call, given the types of what is called. -/
theorem agree_call {y : Typing Bool}
    (hy : (hasFatal <$> p.callConflicts c f (some receiver) [r]).Agree p y) :
    (hasFatal <$> p.conflictsOf c).Agree p y := by
  obtain ⟨member, is, hc, his, hmember⟩ := h.call
  unfold conflictsOf
  rw [hc]
  dsimp only
  rw [his]
  unfold evaluateConflicts
  rw [map_bind]
  refine (plainly_typeOf ⟨n + 1, plainType_member hmember hop.left hf⟩).agree ?_
  dsimp only
  rw [map_bind]
  unfold receiverTypeBy
  rw [hmember]
  dsimp only
  rw [map_eq_pure_bind, bind_assoc]
  refine (plainly_typeOf ⟨n, hop.left⟩).agree ?_
  rw [pure_bind]
  exact hy

omit h hf in
/-- What is checked of the right operand and of the one argument. -/
theorem agree_right (hfirst : p.RequiredFirst (p.inputs f)) :
    (hasFatal <$> p.operandConflicts o f receiver r).Agree p
      (hasFatal <$> p.callConflicts c f (some receiver) [r]) := by
  have hright : p.HasPlainType r given := ⟨n, hop.right⟩
  unfold operandConflicts
  cases hinputs : p.inputs f with
  | nil =>
    unfold callConflicts
    rw [hinputs]
    refine Agree.symm ?_
    dsimp only
    rw [List.mapM_cons, List.mapM_nil, bind_assoc, map_bind]
    exact (plainly_typeOf hright).agree fun _ _ _ _ => rfl
  | cons first rest =>
    rw [callConflicts_one c _ hinputs, map_bind]
    dsimp only
    cases hsecond : rest.head?.filter p.isRequired with
    | some second =>
      -- The operator stops at the second input, and the call finds it missing as well.
      obtain ⟨hhead, hrequired⟩ := Option.filter_eq_some_iff.1 hsecond
      have hmissing : hasFatal (rest.flatMap (p.missingConflicts c f)) = true := by
        rw [hasFatal_missingConflicts]
        exact List.any_eq_true.2 ⟨second, List.mem_of_head? hhead, hrequired⟩
      intro m m' _ _
      show true = hasFatal (_ ++ rest.flatMap (p.missingConflicts c f))
      rw [hasFatal_append, hmissing, Bool.or_true]
    | none =>
      have hmissing : hasFatal (rest.flatMap (p.missingConflicts c f)) = false := by
        rw [hasFatal_missingConflicts]
        exact (hinputs ▸ hfirst).optional hsecond
      have hfound (cs : List Conflict) :
          hasFatal (cs ++ rest.flatMap (p.missingConflicts c f)) = hasFatal cs := by
        rw [hasFatal_append, hmissing, Bool.or_false]
      have hgiven : (p.givenConflicts f (some receiver) [given] 0 first r given).Together p [] :=
        (compositional_together p []).givenConflicts together_typeOf _ _ _ _ _ _ _
      dsimp only
      rw [map_bind]
      refine (plainly_typeOf hright).agree ((plainly_typeOf hright).agree ?_).symm
      rw [map_bind]
      simp only [map_pure, hfound]
      rw [bind_pure_comp]
      exact hgiven.agree.map hasFatal

/-- **A fatal conflict is found in both or in neither**, if the function takes required inputs
    first. -/
theorem agree_hasFatal (hfirst : p.RequiredFirst (p.inputs f)) :
    (hasFatal <$> p.conflictsOf o).Agree p (hasFatal <$> p.conflictsOf c) :=
  h.agree_operation hop hf (h.agree_call hop hf (agree_right hop hfirst).symm).symm

end SpellsOut

end Program

end Arbor
