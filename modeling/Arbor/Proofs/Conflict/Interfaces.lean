/-
  Structures and the interfaces that they declare.

  A structure that implements anything owes the abstract functions of its interfaces.  If
  no fatal conflict is found in it, each of them is implemented by one of its functions,
  which shares an alias with it and stands in for it whenever that is asked again.

  A member is found by the alias that is used.  Under an alias that the two share, a call
  reaches the implementing function, unless an input or an earlier statement of the
  structure has that alias as well.  Under any other alias of the abstract function, a call
  reaches whatever has that one, be it the abstract function itself.

  * `Foremost p id g n`: the definition `g` is the first one of the structure named `n`.

  Main statements: `implemented_of_owed`, what a structure without fatal conflicts owes, and
  `answers_interfaces`, what its members are under the aliases of its interfaces.
-/
import Arbor.Machine.Call
import Arbor.Proofs.Program.Basis
import Arbor.Proofs.Typing.Analyses

namespace Arbor.Program

variable {p : Program} {id f g i : NodeId} {n : Name} {m : Memo}

/-! ## What a structure owes -/

theorem mem_owedFunctions (hdeclared : p.declaredInterfaces id ≠ [])
    (himplemented : p.implementedFunctions id ≠ []) (hi : i ∈ p.interfaces id)
    (hf : f ∈ p.abstractFunctions i) : (i, f) ∈ p.owedFunctions id := by
  unfold owedFunctions
  rw [List.isEmpty_eq_false_iff.2 hdeclared, List.isEmpty_eq_false_iff.2 himplemented]
  exact List.mem_flatMap.2 ⟨i, hi, List.mem_map.2 ⟨f, hf, rfl⟩⟩

/-- Only structures declare interfaces. -/
theorem conflictsOf_of_declared (hdeclared : p.declaredInterfaces id ≠ []) :
    p.conflictsOf id = p.structureConflicts id := by
  unfold declaredInterfaces at hdeclared
  unfold conflictsOf
  split at hdeclared
  · next h => rw [h]
  · exact absurd rfl hdeclared

/-- **What is owed is implemented** by a function of the structure, if no fatal conflict is
    found in it, and is found to be whenever that is asked again. -/
theorem implemented_of_owed (hm : m.computing = []) (howed : (i, f) ∈ p.owedFunctions id)
    (hclean : hasFatal (p.structureConflicts id m).1 = false) :
    ∃ g ∈ p.implementedFunctions id,
      (p.implementsFunction g f).Settled true (p.structureConflicts id m).2 := by
  let owes (c : NodeId × NodeId) : Typing (List Conflict) := do
    if ← (p.implementedFunctions id).anyM (p.implementsFunction · c.2) then
      return []
    else
      return [⟨.unimplemented c.1 c.2, [id], [c.2]⟩]
  have himplements (g : NodeId) : (p.implementsFunction g f).Settles :=
    Typing.compositional_settles.implementsFunction settles_typeOf g f
  have howes (c : NodeId × NodeId) : (owes c).Settles := by
    refine Typing.compositional_settles.bind (Typing.compositional_settles.anyM fun g =>
      Typing.compositional_settles.implementsFunction settles_typeOf g c.2) fun b => ?_
    split
    · exact Typing.compositional_settles.answer _
    · exact Typing.compositional_settles.answer _
  obtain ⟨m₁, hm₁, hmem, hlast⟩ := Typing.exists_of_mem_mapM howes howed hm
  -- The conflicts of the function are among those of the structure.
  have hnone : hasFatal (owes (i, f) m₁).1 = false := by
    have hall : hasFatal ((p.owedFunctions id).mapM owes m).1.flatten = false := by
      have hsplit : hasFatal (p.structureConflicts id m).1 =
          hasFatal (_ ++ ((p.owedFunctions id).mapM owes m).1.flatten) := rfl
      rw [hsplit] at hclean
      unfold hasFatal at hclean ⊢
      rw [List.any_append, Bool.or_eq_false_iff] at hclean
      exact hclean.2
    unfold hasFatal at hall ⊢
    rw [List.any_eq_false] at hall ⊢
    exact fun c hc => hall c (List.mem_flatten.2 ⟨_, hmem, hc⟩)
  have htrue : ((p.implementedFunctions id).anyM (p.implementsFunction · f) m₁).1 = true := by
    cases hany : ((p.implementedFunctions id).anyM (p.implementsFunction · f) m₁).1 with
    | true => rfl
    | false =>
      have hone : (owes (i, f) m₁).1 = [⟨.unimplemented i f, [id], [f]⟩] := by
        show (ite (((p.implementedFunctions id).anyM (p.implementsFunction · f) m₁).1 = true)
          (pure []) (pure [⟨.unimplemented i f, [id], [f]⟩] : Typing (List Conflict)) _).1 = _
        rw [hany]
        rfl
      rw [hone] at hnone
      cases hnone
  obtain ⟨g, hg, hsettled⟩ := Typing.exists_of_anyM himplements hm₁ htrue
  refine ⟨g, hg, hsettled.mono ?_⟩
  have hsame : (owes (i, f) m₁).2 =
      ((p.implementedFunctions id).anyM (p.implementsFunction · f) m₁).2 := by
    show (ite (((p.implementedFunctions id).anyM (p.implementsFunction · f) m₁).1 = true)
      (pure []) (pure [⟨.unimplemented i f, [id], [f]⟩] : Typing (List Conflict)) _).2 = _
    rw [htrue]
    rfl
  rw [hsame] at hlast
  exact hlast

/-- A function that implements another shares an alias with it, and can stand in for it. -/
theorem Settled.implementsFunction (h : (p.implementsFunction g f).Settled true m) :
    (∃ n, n ∈ p.names f ∧ n ∈ p.names g) ∧ (p.functionsCompatible f g).Settled true m := by
  unfold Program.implementsFunction at h
  by_cases hname : (p.names f).any (p.hasName g) = true
  · rw [if_pos hname] at h
    obtain ⟨n, hn, hgn⟩ := List.any_eq_true.1 hname
    exact ⟨⟨n, hn, by simpa [hasName] using hgn⟩, h⟩
  · rw [if_neg hname] at h
    cases h m (.refl m)

/-! ## Members by alias -/

/-- No input of the structure, and no statement before the definition, has the name. -/
def Foremost (p : Program) (id g : NodeId) (n : Name) : Prop :=
  ∀ d ∈ p.inputs id ++ (p.statements id).takeWhile (· ≠ g), p.definitionNamed n d = none

/-- A list goes up to the first place of an item, and on from there. -/
theorem eq_takeWhile_append {l : List NodeId} (h : g ∈ l) :
    ∃ rest, l = l.takeWhile (· ≠ g) ++ g :: rest := by
  induction l with
  | nil => cases h
  | cons x l ih =>
    by_cases hx : x = g
    · exact ⟨l, by simp [hx]⟩
    · obtain ⟨rest, hrest⟩ := ih ((List.mem_cons.1 h).resolve_left fun e => hx e.symm)
      refine ⟨rest, ?_⟩
      rw [List.takeWhile_cons_of_pos (by simpa using hx), List.cons_append, ← hrest]

/-- The foremost definition with a name is the member with that name. -/
theorem Foremost.member (h : p.Foremost id g n) (hg : g ∈ p.statements id) {d : Definition}
    (hd : p.definitionNamed n g = some d) : p.member id n = some d := by
  have hown : p.ownMember n id = some d := by
    obtain ⟨rest, hrest⟩ := eq_takeWhile_append hg
    have hsplit : p.inputs id ++ p.statements id =
        (p.inputs id ++ (p.statements id).takeWhile (· ≠ g)) ++ g :: rest := by
      rw [List.append_assoc, ← hrest]
    have hlists : [p.inputList id, p.statementList id].flatMap p.arena.list =
        p.inputs id ++ p.statements id := by
      rw [List.flatMap_cons, List.flatMap_cons, List.flatMap_nil, List.append_nil]
      rfl
    unfold ownMember
    rw [firstNamed_eq, hlists, hsplit]
    exact List.findSome?_eq_some_iff.2 ⟨_, g, rest, rfl, hd, h⟩
  unfold Program.member
  rw [hown]

theorem definitionNamed_of_implemented (hg : g ∈ p.implementedFunctions id)
    (hn : n ∈ p.names g) : p.definitionNamed n g = some (.function g) := by
  have hfunction := (List.mem_filter.1 hg).2
  have hclassify : p.classify g = some (.function g) := by
    unfold classify
    cases hnode : p.node? g with
    | none => rw [hnode] at hfunction; cases hfunction
    | some node => rw [hnode] at hfunction; cases node <;> first | rfl | cases hfunction
  unfold definitionNamed
  rw [hclassify]
  simp [hasName, hn]

/-- A function with a body is opened by a call. -/
theorem callAction_of_implemented (hg : g ∈ p.implementedFunctions id) (creator : NodeId)
    (name : Option Name) (scope : Option ScopeId) (receiver : Value) (arguments : List Value) :
    p.callAction creator name (.method g scope receiver) arguments =
      .call ⟨creator, g, scope, some receiver, arguments⟩ := by
  have hfunction := (List.mem_filter.1 hg).2
  have hbody : (p.node? g).any Node.isAbstractFunction = false := by
    cases hnode : p.node? g with
    | none => rfl
    | some node =>
      rw [hnode] at hfunction
      cases node <;> first | rfl | cases hfunction | skip
      next ns vs is output body => cases body <;> first | rfl | cases hfunction
  unfold callAction
  dsimp only
  rw [hbody]
  rfl

/-! ## Interfaces -/

/-- **A structure without fatal conflicts answers its interfaces.**  For every abstract
    function of an interface, the structure has a function with a body that shares an alias
    with it and is compatible with it, when this is asked after the analysis as well.  Under
    every alias that the two share, it is the member of the structure and what a call of an
    instance opens, unless an input or an earlier statement has that alias too. -/
theorem answers_interfaces (hm : m.computing = []) (hdeclared : p.declaredInterfaces id ≠ [])
    (himplemented : p.implementedFunctions id ≠ [])
    (hclean : hasFatal (p.conflictsOf id m).1 = false) :
    ∀ i ∈ p.interfaces id, ∀ f ∈ p.abstractFunctions i, ∃ g ∈ p.implementedFunctions id,
      (∃ n, n ∈ p.names f ∧ n ∈ p.names g) ∧
      (∀ m', (p.conflictsOf id m).2.Grows m' → (p.functionsCompatible f g m').1 = true) ∧
      ∀ n ∈ p.names f, n ∈ p.names g → p.Foremost id g n →
        p.member id n = some (.function g) ∧
        ∀ scopes scope node creator arguments,
          let receiver := Value.instanceOf id scope
          p.propertyValue scopes node receiver n = .method g (some scope) receiver ∧
          p.callAction creator (some n) (.method g (some scope) receiver) arguments =
            .call ⟨creator, g, some scope, some receiver, arguments⟩ := by
  intro i hi f hf
  rw [conflictsOf_of_declared hdeclared] at hclean ⊢
  have howed := mem_owedFunctions hdeclared himplemented hi hf
  obtain ⟨g, hg, hsettled⟩ := implemented_of_owed hm howed hclean
  obtain ⟨hshared, hcompatible⟩ := Settled.implementsFunction hsettled
  refine ⟨g, hg, hshared, hcompatible, fun n _ hn hforemost => ?_⟩
  have hmember := hforemost.member (List.mem_filter.1 hg).1 (definitionNamed_of_implemented hg hn)
  refine ⟨hmember, fun scopes scope node creator arguments => ⟨?_, ?_⟩⟩
  · unfold propertyValue
    dsimp only
    rw [hmember]
  · exact callAction_of_implemented hg _ _ _ _ _

/-! ## A structure that carries one of two aliases -/

/-- The interface of `host` has a function named `hello` and `hi`, and the structure that
    implements it calls it `hi`. -/
def host : Program :=
  .built (do
    let names ← Build.names ["hello", "hi"]
    let hello ← Build.add (.functionDefinition names .empty .empty (some (← Build.textType)) none)
    let greets ← Build.structureDef "greets" [] [] [hello]
    let hi ← Build.function "hi" [] (some (← Build.textType)) (← Build.text "hi there")
    Build.program [] [greets, ← Build.structureDef "host" ["greets"] [] [hi]]) none

/-- No fatal conflict is found in the structure of `host`, which declares an interface. -/
theorem clean_host :
    host.declaredInterfaces ⟨126⟩ ≠ [] ∧ host.implementedFunctions ⟨126⟩ = [⟨121⟩] ∧
      hasFatal (host.conflictsOf ⟨126⟩ .empty).1 = false ∧
      host.interfaces ⟨126⟩ = [⟨116⟩] ∧ host.abstractFunctions ⟨116⟩ = [⟨112⟩] := by
  decide +kernel

/-- The structure of `host` answers its interface by its function, which is its member named
    `hi`. -/
theorem answers_interfaces_host :
    hasFatal (host.conflictsOf ⟨126⟩ .empty).1 = false ∧
    ∃ n ∈ host.names ⟨112⟩, host.textOf n = "hi" ∧
      (∀ m', (host.conflictsOf ⟨126⟩ .empty).2.Grows m' →
        (host.functionsCompatible ⟨112⟩ ⟨121⟩ m').1 = true) ∧
      host.member ⟨126⟩ n = some (.function ⟨121⟩) := by
  obtain ⟨hdeclared, himplemented, hclean, hinterfaces, habstract⟩ := clean_host
  obtain ⟨g, hg, -, hcompatible, hmembers⟩ := answers_interfaces (p := host) (m := .empty) rfl
    hdeclared (by rw [himplemented]; nofun) hclean ⟨116⟩ (by rw [hinterfaces]; exact .head _)
    ⟨112⟩ (by rw [habstract]; exact .head _)
  obtain rfl : g = ⟨121⟩ := List.mem_singleton.1 (himplemented ▸ hg)
  obtain ⟨htext, hnamed, hown, hforemost⟩ : host.textOf ⟨13⟩ = "hi" ∧
      (⟨13⟩ : Name) ∈ host.names ⟨112⟩ ∧ (⟨13⟩ : Name) ∈ host.names ⟨121⟩ ∧
      host.inputs ⟨126⟩ ++ (host.statements ⟨126⟩).takeWhile (· ≠ ⟨121⟩) = [] := by
    decide +kernel
  have hfirst : host.Foremost ⟨126⟩ ⟨121⟩ ⟨13⟩ := by
    unfold Foremost
    rw [hforemost]
    nofun
  exact ⟨hclean, ⟨13⟩, hnamed, htext, hcompatible, (hmembers ⟨13⟩ hnamed hown hfirst).1⟩

/-- An alias that the implementing function lacks is not answered: the member of the
    structure of `host` named `hello` is the abstract function itself. -/
theorem unanswered_alias :
    ¬∀ (p : Program) (id : NodeId) (m : Memo), m.computing = [] → p.declaredInterfaces id ≠ [] →
      p.implementedFunctions id ≠ [] → hasFatal (p.conflictsOf id m).1 = false →
      ∀ i ∈ p.interfaces id, ∀ f ∈ p.abstractFunctions i, ∀ n ∈ p.names f,
        ∃ g, p.member id n = some (.function g) ∧
          (p.node? g).any Node.isImplementedFunction = true ∧
          (p.functionsCompatible f g (p.conflictsOf id m).2).1 = true := by
  intro h
  obtain ⟨hdeclared, himplemented, hclean, hinterfaces, habstract⟩ := clean_host
  obtain ⟨hnamed, hmember, hbody⟩ : (⟨12⟩ : Name) ∈ host.names ⟨112⟩ ∧
      host.member ⟨126⟩ ⟨12⟩ = some (.function ⟨112⟩) ∧
      (host.node? ⟨112⟩).any Node.isImplementedFunction = false := by
    decide +kernel
  obtain ⟨g, hg, hfunction, -⟩ := h host ⟨126⟩ .empty rfl hdeclared
    (by rw [himplemented]; nofun) hclean ⟨116⟩ (by rw [hinterfaces]; exact .head _) ⟨112⟩
    (by rw [habstract]; exact .head _) ⟨12⟩ hnamed
  rw [hmember] at hg
  cases hg
  rw [hbody] at hfunction
  cases hfunction

end Arbor.Program
