/-
  The types of generic definitions, with their variables replaced.

  A type variable stands in a type by itself, in the type arguments of instances, or in a union.
  Substitution replaces those that it reaches through type arguments, and leaves unions as they
  are.  Only an inferred type has unions, that of a choice between two branches, so a generic
  member with a declared type has all variables replaced, and one whose type is inferred may keep
  some.

  * `Ty.Mentions v t`: the variable occurs in the type, at any depth;
  * `Ty.Exposed v t`, `Ty.Sheltered v t`: it occurs outside of all unions, or in one;
  * `Ty.instantiate f t`: the type with every variable replaced.

  Main statements: `mentions_substitute`, the variables that are left; `substitute_eq`, nothing is
  left out where no variable is in a union; `ground_outputType`, `ground_member`, what is left of
  the variables of a structure in the type of a call, and of a member that is read.
-/
import Arbor.Proofs.Typing.Transparency

namespace Arbor

/-! ## Variables in types -/

namespace Ty

/-- The variable occurs in the type. -/
inductive Mentions (v : NodeId) : Ty → Prop
  | self : Mentions v (.typeVar v)
  | arg (d : NodeId) {args : List Ty} {t : Ty} : t ∈ args → Mentions v t →
      Mentions v (.instanceOf d args)
  | member {members : List Ty} {t : Ty} : t ∈ members → Mentions v t → Mentions v (.union members)

/-- The variable occurs outside of all unions. -/
inductive Exposed (v : NodeId) : Ty → Prop
  | self : Exposed v (.typeVar v)
  | arg (d : NodeId) {args : List Ty} {t : Ty} : t ∈ args → Exposed v t →
      Exposed v (.instanceOf d args)

/-- The variable occurs in a union. -/
inductive Sheltered (v : NodeId) : Ty → Prop
  | member {members : List Ty} {t : Ty} : t ∈ members → Mentions v t → Sheltered v (.union members)
  | arg (d : NodeId) {args : List Ty} {t : Ty} : t ∈ args → Sheltered v t →
      Sheltered v (.instanceOf d args)

/-- No variable occurs in the type. -/
def Ground (t : Ty) : Prop := ∀ v, ¬t.Mentions v

mutual

/-- The type with every variable replaced. -/
def instantiate (f : NodeId → Ty) : Ty → Ty
  | .typeVar v => f v
  | .instanceOf d args => .instanceOf d (instantiateAll f args)
  | .union members => .union (instantiateAll f members)
  | t => t

/-- Each of several types with every variable replaced. -/
def instantiateAll (f : NodeId → Ty) : List Ty → List Ty
  | [] => []
  | t :: ts => instantiate f t :: instantiateAll f ts

end

variable {f : NodeId → Ty}

theorem instantiateAll_eq (f : NodeId → Ty) (ts : List Ty) :
    instantiateAll f ts = ts.map (instantiate f) := by
  induction ts with
  | nil => rfl
  | cons t ts ih => rw [instantiateAll, ih, List.map_cons]

/-- What mentions no variable stays as it is. -/
theorem Ground.instantiate : ∀ {t : Ty}, t.Ground → t.instantiate f = t
  | .typeVar v, h => absurd .self (h v)
  | .instanceOf d args, h => by
    rw [Ty.instantiate, instantiateAll_eq, List.map_congr_left fun t ht =>
      Ground.instantiate fun v hv => h v (.arg d ht hv), List.map_id']
  | .union members, h => by
    rw [Ty.instantiate, instantiateAll_eq, List.map_congr_left fun t ht =>
      Ground.instantiate fun v hv => h v (.member ht hv), List.map_id']
  | .primitive _, _ | .definition _, _ | .function _, _ | .never, _ | .unknown, _ => rfl
termination_by t => sizeOf t

end Ty

namespace Program

open Ty

/-! ## What substitution leaves -/

section
variable {p : Program} {receiver : Option Ty} {bindings : Bindings} {v : NodeId} {t : Ty}

theorem substituteAll_eq (ts : List Ty) :
    p.substituteAll receiver bindings ts = ts.map (p.substitute receiver bindings) := by
  induction ts with
  | nil => rfl
  | cons t ts ih => rw [substituteAll, ih, List.map_cons]

/-- **The variables that substitution leaves** are those in unions, and those of what it puts in
    the place of the others. -/
theorem mentions_substitute : ∀ {t : Ty}, (p.substitute receiver bindings t).Mentions v ↔
    t.Sheltered v ∨ ∃ w, t.Exposed w ∧ (p.valueOfVariable receiver bindings w).Mentions v
  | .typeVar w => by
    rw [substitute]
    constructor
    · exact fun h => .inr ⟨w, .self, h⟩
    · rintro (h | ⟨w', hw, h⟩)
      · cases h
      · cases hw
        exact h
  | .instanceOf d args => by
    rw [substitute, substituteAll_eq]
    constructor
    · intro h
      cases h with
      | arg _ ht h =>
        obtain ⟨t, hmem, rfl⟩ := List.mem_map.1 ht
        rcases mentions_substitute.1 h with h | ⟨w, hw, h⟩
        · exact .inl (.arg d hmem h)
        · exact .inr ⟨w, .arg d hmem hw, h⟩
    · rintro (h | ⟨w, hw, h⟩)
      · cases h with
        | arg _ ht h => exact .arg d (List.mem_map_of_mem ht) (mentions_substitute.2 (.inl h))
      · cases hw with
        | arg _ ht hw =>
          exact .arg d (List.mem_map_of_mem ht) (mentions_substitute.2 (.inr ⟨w, hw, h⟩))
  | .union members => by
    simp only [substitute]
    constructor
    · intro h
      cases h with
      | member ht h => exact .inl (.member ht h)
    · rintro (h | ⟨w, hw, -⟩)
      · cases h with
        | member ht h => exact .member ht h
      · cases hw
  | .primitive _ | .definition _ | .function _ | .never | .unknown => by
    simp only [substitute]
    exact iff_of_false nofun (by rintro (h | ⟨w, hw, -⟩) <;> contradiction)
termination_by t => sizeOf t

/-- **Substitution replaces every variable** of a type in which none is in a union. -/
theorem substitute_eq : ∀ {t : Ty}, (∀ v, ¬t.Sheltered v) →
    p.substitute receiver bindings t = t.instantiate (p.valueOfVariable receiver bindings)
  | .typeVar v, _ => by rw [substitute, Ty.instantiate]
  | .instanceOf d args, h => by
    rw [substitute, substituteAll_eq, Ty.instantiate, instantiateAll_eq,
      List.map_congr_left fun t ht => substitute_eq fun v hv => h v (.arg d ht hv)]
  | .union members, h => by
    have hground : (Ty.union members).Ground := fun v hv => by
      cases hv with
      | member ht hv => exact h v (.member ht hv)
    rw [hground.instantiate]
    simp only [substitute]
  | .primitive _, _ | .definition _, _ | .function _, _ | .never, _ | .unknown, _ => by
    simp only [substitute, Ty.instantiate]
termination_by t => sizeOf t

/-! ## What is put in the place of variables -/

/-- Something stands for the variable: what a call binds, or a type argument of the receiver. -/
def HasValue (p : Program) (receiver : Option Ty) (bindings : Bindings) (v : NodeId) : Prop :=
  (bindings.lookup v).isSome ∨ ∃ d args, receiver = some (.instanceOf d args) ∧
    args.length = (p.typeVariables d).length ∧ v ∈ p.typeVariables d

/-- The type arguments of the receiver mention no variable. -/
def GroundArguments (receiver : Option Ty) : Prop :=
  ∀ d args, receiver = some (.instanceOf d args) → ∀ t ∈ args, t.Ground

/-- What stands for a variable that something stands for mentions none. -/
theorem ground_valueOfVariable (hreceiver : GroundArguments receiver)
    (hbindings : ∀ b ∈ bindings, b.2.Ground) (hv : p.HasValue receiver bindings v) :
    (p.valueOfVariable receiver bindings v).Ground := by
  unfold valueOfVariable
  cases hlookup : bindings.lookup v with
  | some t =>
    obtain ⟨before, after, rfl, -⟩ := List.lookup_eq_some_iff.1 hlookup
    exact hbindings (v, t) (by simp)
  | none =>
    rcases hv with hv | ⟨d, args, rfl, hlength, hv⟩
    · rw [hlookup] at hv
      cases hv
    · obtain ⟨i, hi⟩ := Option.isSome_iff_exists.1 (List.isSome_idxOf?.2 hv)
      have hlt : i < args.length := by
        obtain ⟨hi, -⟩ := List.idxOf?_eq_some_iff.1 hi
        exact hlength ▸ hi
      simp only [hi, Option.bind_some, List.getElem?_eq_getElem hlt]
      exact hreceiver d args rfl _ (List.getElem_mem hlt)

/-- **No variable is left** if and only if none was in a union, where something without variables
    stands for all others. -/
theorem ground_substitute_iff (hreceiver : GroundArguments receiver)
    (hbindings : ∀ b ∈ bindings, b.2.Ground)
    (hvalues : ∀ v, t.Exposed v → p.HasValue receiver bindings v) :
    (p.substitute receiver bindings t).Ground ↔ ∀ v, ¬t.Sheltered v := by
  refine forall_congr' fun v => not_congr (mentions_substitute.trans (or_iff_left ?_))
  rintro ⟨w, hw, hv⟩
  exact ground_valueOfVariable hreceiver hbindings (hvalues w hw) v hv

end

/-! ## Calls and members -/

section
variable {p : Program} {f d r id : NodeId} {receiver : Option Ty} {inputs args : List Ty} {n : Name}
  {t : Ty} {m : Memo}

/-- What holds at first and is kept by every step holds in the end. -/
theorem foldlM_induct {α γ : Type} {Q : α → Prop} {step : α → γ → Typing α} {cs : List γ} {a : α}
    (ha : Q a) (h : ∀ c ∈ cs, ∀ a m, Q a → Q (step a c m).1) : Q (cs.foldlM step a m).1 := by
  induction cs generalizing a m with
  | nil => exact ha
  | cons c cs ih =>
    rw [List.forall_mem_cons] at h
    rw [List.foldlM_cons]
    exact ih (m := (step a c m).2) (h.1 a m ha) h.2

/-- What a call binds are types of what it is given. -/
theorem mem_of_infer (typeOf : NodeId → Typing Ty) :
    ∀ b ∈ (p.inferBy typeOf f inputs m).1, b.2 ∈ inputs := by
  unfold inferBy
  refine foldlM_induct (Q := fun bindings : Bindings => ∀ b ∈ bindings, b.2 ∈ inputs) nofun ?_
  rintro ⟨input, arg⟩ hc bindings m hbindings
  have harg : arg ∈ inputs := (List.of_mem_zip hc).2
  have hadded (v : NodeId) : ∀ b ∈ bindings ++ [(v, arg)], b.2 ∈ inputs :=
    List.forall_mem_append.2 ⟨hbindings, List.forall_mem_singleton.2 harg⟩
  simp only [bind, StateT.bind]
  generalize p.bindTypeBy typeOf input m = r
  obtain ⟨t, m⟩ := r
  dsimp only
  split
  · split
    · exact hadded _
    · exact hbindings
  · exact hbindings

/-- **What a call leaves of the variables**: none, if and only if none was in a union of what the
    function gives, where something without variables stands for all others. -/
theorem ground_outputType_iff (f : NodeId) (m : Memo) (hreceiver : GroundArguments receiver)
    (hinputs : ∀ t ∈ inputs, t.Ground)
    (hvalues : ∀ v, (p.output f (p.inferBy p.typeOf f inputs m).2).1.Exposed v →
      p.HasValue receiver (p.inferBy p.typeOf f inputs m).1 v) :
    (p.outputType f receiver inputs m).1.Ground ↔
      ∀ v, ¬(p.output f (p.inferBy p.typeOf f inputs m).2).1.Sheltered v :=
  ground_substitute_iff hreceiver (fun b hb => hinputs b.2 (mem_of_infer p.typeOf b hb)) hvalues

/-- Types that are written down have no unions. -/
theorem not_sheltered_typeGiven (p : Program) (id v : NodeId) : ¬(p.typeGiven id).Sheltered v := by
  have hunroll (k : Nat) (id : NodeId) :
      ¬(unroll Ty.unknown p.typeGivenBy k id).Sheltered v := by
    induction k generalizing id with
    | zero => exact nofun
    | succ k ih =>
      unfold unroll typeGivenBy
      split
      · exact nofun
      · exact nofun
      · exact nofun
      · split
        · intro h
          cases h with
          | arg _ ht h =>
            obtain ⟨c, -, rfl⟩ := List.mem_map.1 ht
            exact ih c h
        · exact nofun
        · exact nofun
      · exact nofun
  exact hunroll _ id

/-- **A call of a function that declares what it gives** has the declared type with every variable
    replaced, and no variable is left. -/
theorem outputType_of_declared {ns : NodeId} {vs is : NodeRange} {output : NodeId}
    {body : Option NodeId} (hf : p.node? f = some (.functionDefinition ns vs is (some output) body))
    (m : Memo) (hreceiver : GroundArguments receiver) (hinputs : ∀ t ∈ inputs, t.Ground)
    (hvalues : ∀ v, (p.typeGiven output).Exposed v →
      p.HasValue receiver (p.inferBy p.typeOf f inputs m).1 v) :
    (p.outputType f receiver inputs m).1 = (p.typeGiven output).instantiate
        (p.valueOfVariable receiver (p.inferBy p.typeOf f inputs m).1) ∧
      (p.outputType f receiver inputs m).1.Ground := by
  have houtput : p.output f = pure (p.typeGiven output) := by
    unfold Program.output outputBy
    rw [hf]
  have hnone := p.not_sheltered_typeGiven output
  have hcall : (p.outputType f receiver inputs m).1 = p.substitute receiver
      (p.inferBy p.typeOf f inputs m).1 (p.output f (p.inferBy p.typeOf f inputs m).2).1 := rfl
  refine ⟨?_, (ground_outputType_iff f m hreceiver hinputs ?_).2 ?_⟩
  · rw [hcall, houtput]
    exact substitute_eq hnone
  · rw [houtput]
    exact hvalues
  · rw [houtput]
    exact hnone

/-- The plain type of what a name stands for. -/
def HasDefinitionType (p : Program) (e : Definition) (t : Ty) : Prop :=
  ∃ k, p.definitionTypeBy (p.plainType k) e = some t

/-- A member that is read has the type of its definition, substituted for the receiver. -/
theorem HasPlainType.member {u : Ty} {e : Definition}
    (hn : p.node? id = some (.propertyReference r n)) (hid : p.HasPlainType id t)
    (hr : p.HasPlainType r u) (he : p.definitionInType u n = some e) :
    ∃ s, p.HasDefinitionType e s ∧ t = p.substitute (some u) [] s := by
  obtain ⟨k, hk⟩ := hid
  cases k with
  | zero => cases hk
  | succ k =>
    rw [plainType, computeTypeBy, hn] at hk
    obtain ⟨u', hu', hk⟩ := Option.bind_eq_some_iff.1 hk
    obtain rfl := HasPlainType.unique ⟨k, hu'⟩ hr
    rw [he] at hk
    obtain ⟨s, hs, hk⟩ := Option.bind_eq_some_iff.1 hk
    exact ⟨s, ⟨k, hs⟩, (Option.some.inj hk).symm⟩

/-- **What a member that is read leaves of the variables** of the structure: none, if and only if
    none was in a union of the type of its definition. -/
theorem ground_member_iff {e : Definition} (hn : p.node? id = some (.propertyReference r n))
    (hid : p.HasPlainType id t) (hr : p.HasPlainType r (.instanceOf d args))
    (he : p.definitionInType (.instanceOf d args) n = some e)
    (hlength : args.length = (p.typeVariables d).length) (hargs : ∀ t ∈ args, t.Ground) :
    ∃ s, p.HasDefinitionType e s ∧
      ((∀ v, s.Exposed v → v ∈ p.typeVariables d) → (t.Ground ↔ ∀ v, ¬s.Sheltered v)) := by
  obtain ⟨s, hs, rfl⟩ := HasPlainType.member hn hid hr he
  refine ⟨s, hs, fun hvars => ground_substitute_iff ?_ nofun fun v hv => ?_⟩
  · rintro d args ⟨⟩
    exact hargs
  · exact .inr ⟨d, args, rfl, hlength, hvars v hv⟩

end

/-- A generic structure with a member that gives what the structure holds, or else a number. -/
def boxes : Program :=
  .built (do
    let variable_ ← Build.typeVariable "T"
    let item ← Build.input "item" (← Build.nameType "T" [])
    let known ← Build.input "known" (← Build.booleanType)
    let choice ← Build.conditional (← Build.reference "known") (← Build.reference "item")
      (← Build.number 0x3FF0000000000000)
    let get ← Build.function "get" [known] none choice
    let box ← Build.genericStructure "box" [variable_] [] [item] [get]
    Build.program [] [box]) none

/-- The variable of the structure is left in the type of the call, beside the number. -/
example : (boxes.outputType ⟨125⟩ (some (.instanceOf ⟨129⟩ [.primitive .text]))
      [.primitive .boolean] .empty).1 = .union [.typeVar ⟨110⟩, .primitive .number] := by
  decide +kernel

end Program

end Arbor
