/-
  Conflicts of renamed programs.

  Related nodes have the same conflicts, about related nodes and types, and so renamed
  programs have: the same conflicts in the same order, told in the same words.

  Main statements: `renamed_check` and `explainInEnglish_eq`.
-/
import Arbor.Conflict.Check
import Arbor.Conflict.English
import Arbor.Proofs.Renaming.Acceptance

namespace Arbor

open List (Forall₂)

section
variable (R : NodeId → NodeId → Prop)

/-- The same is wrong, with related nodes and types. -/
inductive ConflictKind.Renamed : ConflictKind → ConflictKind → Prop
  | notAFunction (n : Option Name) {t u : Ty} : t.Renamed R u →
      ConflictKind.Renamed (.notAFunction n t) (.notAFunction n u)
  | unexpectedInputs {f g : NodeId} : R f g →
      ConflictKind.Renamed (.unexpectedInputs f) (.unexpectedInputs g)
  | missingInput {f g i j : NodeId} : R f g → R i j →
      ConflictKind.Renamed (.missingInput f i) (.missingInput g j)
  | incompatibleInput {i j : NodeId} {t u t' u' : Ty} : R i j → t.Renamed R u → t'.Renamed R u' →
      ConflictKind.Renamed (.incompatibleInput i t t') (.incompatibleInput j u u')
  | orderOfOperations : ConflictKind.Renamed .orderOfOperations .orderOfOperations
  | disallowedInputs : ConflictKind.Renamed .disallowedInputs .disallowedInputs
  | implemented : ConflictKind.Renamed .implemented .implemented
  | unimplemented {i j f g : NodeId} : R i j → R f g →
      ConflictKind.Renamed (.unimplemented i f) (.unimplemented j g)
  | notAnInterface : ConflictKind.Renamed .notAnInterface .notAnInterface
  | unknownName (n : Name) : ConflictKind.Renamed (.unknownName n) (.unknownName n)
  | unknownBorrow (n : Name) : ConflictKind.Renamed (.unknownBorrow n) (.unknownBorrow n)
  | duplicateInputNames (n : Name) :
      ConflictKind.Renamed (.duplicateInputNames n) (.duplicateInputNames n)
  | requiredAfterOptional : ConflictKind.Renamed .requiredAfterOptional .requiredAfterOptional
  | incompatibleBind {t u t' u' : Ty} : t.Renamed R u → t'.Renamed R u' →
      ConflictKind.Renamed (.incompatibleBind t t') (.incompatibleBind u u')
  | expectedBooleanCondition {t u : Ty} : t.Renamed R u →
      ConflictKind.Renamed (.expectedBooleanCondition t) (.expectedBooleanCondition u)
  | notInstantiable {d e : NodeId} : R d e →
      ConflictKind.Renamed (.notInstantiable d) (.notInstantiable e)
  | unknownTypeName (n : Name) : ConflictKind.Renamed (.unknownTypeName n) (.unknownTypeName n)
  | duplicateAliases (n : Name) : ConflictKind.Renamed (.duplicateAliases n) (.duplicateAliases n)
  | caseSensitive (n m : Name) : ConflictKind.Renamed (.caseSensitive n m) (.caseSensitive n m)
  | unparsable : ConflictKind.Renamed .unparsable .unparsable

/-- The same is wrong at related nodes. -/
structure Conflict.Renamed (c c' : Conflict) : Prop where
  kind : c.kind.Renamed R c'.kind
  primary : Forall₂ R c.primary c'.primary
  secondary : Forall₂ R c.secondary c'.secondary

/-- The same is wrong, one thing after another. -/
abbrev RenamedConflicts : List Conflict → List Conflict → Prop := Forall₂ (Conflict.Renamed R)

end

namespace Conflict

variable {R : NodeId → NodeId → Prop}

theorem Renamed.isFatal_eq {c c' : Conflict} (h : c.Renamed R c') : c.isFatal = c'.isFatal := by
  unfold isFatal
  have hk := h.kind
  revert hk
  generalize c.kind = k, c'.kind = k'
  rintro (_ | _) <;> rfl

/-- One conflict at one node. -/
theorem renamed_one {k k' : ConflictKind} (hk : k.Renamed R k') {x y : NodeId} (hx : R x y)
    {s s' : List NodeId} (hs : Forall₂ R s s') :
    RenamedConflicts R [⟨k, [x], s⟩] [⟨k', [y], s'⟩] :=
  .cons ⟨hk, .cons hx .nil, hs⟩ .nil

end Conflict

namespace Program.Renamed

variable {R : NodeId → NodeId → Prop} {p q : Program} (h : p.Renamed R q)
include h

/-! ## Calls -/

theorem renamed_givenConflicts {d d' : NodeId} (hd : R d d') {r r' : Option Ty}
    (hr : Option.Rel (Ty.Renamed R) r r') {ts ts' : List Ty}
    (hts : Forall₂ (Ty.Renamed R) ts ts') (i : Nat) {x x' a a' : NodeId} (hx : R x x')
    (ha : R a a') {t t' : Ty} (ht : t.Renamed R t') :
    Typing.Renamed R [] [] (RenamedConflicts R) (p.givenConflicts d r ts i x a t)
      (q.givenConflicts d' r' ts' i x' a' t') := by
  refine (h.renamed_inputType hd i hr hts).bind fun u u' hu => ?_
  refine (h.renamed_accepts hu ht).bind fun b b' hb => ?_
  subst hb
  refine Typing.renamed_ite Iff.rfl (fun _ => Typing.renamed_pure .nil) fun _ => ?_
  exact Typing.renamed_pure (Conflict.renamed_one (.incompatibleInput hx hu ht) ha (.cons hx .nil))

theorem renamed_inputConflicts {c c' d d' : NodeId} (hc : R c c') (hd : R d d') {r r' : Option Ty}
    (hr : Option.Rel (Ty.Renamed R) r r') {as as' : List (NodeId × Ty)}
    (has : RenamedBindings R as as') (i : Nat) {x x' : NodeId} (hx : R x x') :
    Typing.Renamed R [] [] (RenamedConflicts R) (p.inputConflicts c d r as i x)
      (q.inputConflicts c' d' r' as' i x') := by
  have hi := List.rel_getElem? has i
  unfold inputConflicts
  revert hi
  generalize as[i]? = o, as'[i]? = o'
  rintro (⟨ha, ht⟩ | _)
  · refine h.renamed_givenConflicts hd hr ?_ i hx ha ht
    exact List.rel_map (fun _ _ hab => hab.2) has
  · dsimp only
    rw [h.isRequired_eq hx]
    refine Typing.renamed_ite Iff.rfl (fun _ => ?_) fun _ => Typing.renamed_pure .nil
    exact Typing.renamed_pure (Conflict.renamed_one (.missingInput hd hx) hc (.cons hx .nil))

omit h in
theorem renamed_surplusConflicts {d d' : NodeId} (hd : R d d') {xs xs' : List NodeId}
    (hxs : Forall₂ R xs xs') :
    RenamedConflicts R (surplusConflicts d xs) (surplusConflicts d' xs') := by
  unfold surplusConflicts
  rw [List.rel_isEmpty hxs]
  split
  · exact .nil
  · exact .cons ⟨.unexpectedInputs hd, hxs, .cons hd .nil⟩ .nil

theorem renamed_callConflicts {c c' d d' : NodeId} (hc : R c c') (hd : R d d') {r r' : Option Ty}
    (hr : Option.Rel (Ty.Renamed R) r r') {as as' : List NodeId} (has : Forall₂ R as as') :
    Typing.Renamed R [] [] (RenamedConflicts R) (p.callConflicts c d r as)
      (q.callConflicts c' d' r' as') := by
  have his := h.renamed_inputs hd
  refine (Typing.renamed_mapM has fun _ _ => h.renamed_typeOf).bind fun ts ts' hts => ?_
  refine (Typing.renamed_mapM (List.rel_zipIdx his 0) (T := RenamedConflicts R) ?_).bind
    fun found found' hfound => ?_
  · rintro ⟨x, i⟩ ⟨x', i'⟩ ⟨hx, rfl⟩
    exact h.renamed_inputConflicts hc hd hr (List.rel_zip has hts) i hx
  · refine Typing.renamed_pure (List.rel_append (List.rel_flatten hfound) ?_)
    rw [his.length_eq]
    exact renamed_surplusConflicts hd (List.forall₂_drop _ has)

theorem renamed_evaluateConflicts {x y f g : NodeId} (hx : R x y) (hf : R f g)
    {as as' : List NodeId} (has : Forall₂ R as as') :
    Typing.Renamed R [] [] (RenamedConflicts R) (p.evaluateConflicts x f as)
      (q.evaluateConflicts y g as') := by
  have notAFunction {t t' : Ty} (ht : t.Renamed R t') :
      Typing.Renamed R [] [] (RenamedConflicts R)
        (return [⟨.notAFunction (p.calledName? f) t, [x], [f]⟩])
        (return [⟨.notAFunction (q.calledName? g) t', [y], [g]⟩]) := by
    rw [h.calledName?_eq hf]
    exact Typing.renamed_pure (Conflict.renamed_one (.notAFunction _ ht) hx (.cons hf .nil))
  refine (h.renamed_typeOf hf).bind fun t t' ht => ?_
  cases ht with
  | function hd =>
    exact (h.renamed_receiverTypeBy (fun _ _ => h.renamed_typeOf) hf).bind fun r r' hr =>
      h.renamed_callConflicts hx hd hr has
  | definition hd =>
    dsimp only
    rw [List.rel_isEmpty (h.renamed_abstractFunctions hd)]
    refine Typing.renamed_ite Iff.rfl (fun _ => h.renamed_callConflicts hx hd .none has) fun _ => ?_
    exact Typing.renamed_pure (Conflict.renamed_one (.notInstantiable hd) hx (.cons hd .nil))
  | unknown => exact Typing.renamed_pure .nil
  | primitive k => exact notAFunction (.primitive k)
  | instanceOf hd hts => exact notAFunction (.instanceOf hd hts)
  | typeVar hv => exact notAFunction (.typeVar hv)
  | union hts => exact notAFunction (.union hts)
  | never => exact notAFunction .never

/-! ## Operators -/

theorem mixesOperators_eq {x y : NodeId} (hx : R x y) (op : Name) :
    p.mixesOperators x op = q.mixesOperators y op := by
  obtain ⟨n, m, hn, hm, hnm⟩ := h.node hx
  rw [mixesOperators, mixesOperators, hn, hm]
  cases hnm <;> rfl

theorem renamed_operandConflicts {x y f g z w : NodeId} (hx : R x y) (hf : R f g) (hz : R z w)
    {t t' : Ty} (ht : t.Renamed R t') :
    Typing.Renamed R [] [] (RenamedConflicts R) (p.operandConflicts x f t z)
      (q.operandConflicts y g t' w) := by
  have his := h.renamed_inputs hf
  unfold operandConflicts
  revert his
  generalize p.inputs f = is, q.inputs g = js
  rintro (_ | ⟨hi, his⟩)
  · exact Typing.renamed_pure (Conflict.renamed_one (.unexpectedInputs hf) hz .nil)
  · have hsecond := (List.rel_head? his).filter fun _ _ => h.isRequired_eq
    dsimp only
    revert hsecond
    generalize Option.filter _ _ = o, Option.filter _ _ = o'
    rintro (hs | _)
    · exact Typing.renamed_pure (Conflict.renamed_one (.missingInput hf hs) hx (.cons hs .nil))
    · exact (h.renamed_typeOf hz).bind fun u u' hu =>
        h.renamed_givenConflicts hf (.some ht) (.cons hu .nil) 0 hi hz hu

theorem renamed_operationConflicts {x y l l' r r' : NodeId} (hx : R x y) (hl : R l l') (op : Name)
    (hr : R r r') :
    Typing.Renamed R [] [] (RenamedConflicts R) (p.operationConflicts x l op r)
      (q.operationConflicts y l' op r') := by
  refine (h.renamed_typeOf hl).bind fun t t' ht => ?_
  refine Typing.renamed_ite (h.ty_eq_iff ht .unknown) (fun _ => Typing.renamed_pure .nil)
    fun _ => ?_
  have hf := h.renamed_operatorFunction op ht
  revert hf
  generalize p.operatorFunction t op = o, q.operatorFunction t' op = o'
  rintro (hf | _)
  · refine (h.renamed_operandConflicts hx hf hr ht).bind fun cs cs' hcs => ?_
    refine Typing.renamed_pure (List.rel_append ?_ hcs)
    rw [h.mixesOperators_eq hl]
    split
    · exact Conflict.renamed_one .orderOfOperations hx (.cons hl .nil)
    · exact .nil
  · exact Typing.renamed_pure (Conflict.renamed_one (.notAFunction _ ht) hx (.cons hl .nil))

/-! ## Definitions -/

omit h in
theorem renamed_duplicates {x y : NodeId} (hx : R x y) (ns seen : List Name)
    {found found' : List Conflict} (hfound : RenamedConflicts R found found') :
    let r := ns.foldl (fun (seen, found) n =>
      if n ∈ seen then (seen, found ++ [⟨.duplicateInputNames n, [x], []⟩])
      else (n :: seen, found)) (seen, found)
    let r' := ns.foldl (fun (seen, found) n =>
      if n ∈ seen then (seen, found ++ [⟨.duplicateInputNames n, [y], []⟩])
      else (n :: seen, found)) (seen, found')
    r.1 = r'.1 ∧ RenamedConflicts R r.2 r'.2 := by
  induction ns generalizing seen found found' with
  | nil => exact ⟨rfl, hfound⟩
  | cons n ns ih =>
    dsimp only [List.foldl_cons]
    split
    · exact ih seen (List.rel_append hfound
        (Conflict.renamed_one (.duplicateInputNames n) hx .nil))
    · exact ih _ hfound

theorem renamed_inputListConflictsAfter {xs ys : List NodeId} (hxs : Forall₂ R xs ys)
    (seen : List Name) (optional : Bool) :
    RenamedConflicts R (p.inputListConflictsAfter seen optional xs)
      (q.inputListConflictsAfter seen optional ys) := by
  induction hxs generalizing seen optional with
  | nil => exact .nil
  | @cons x y _ _ hx _ ih =>
    unfold inputListConflictsAfter
    rw [← h.names_eq hx, ← h.isRequired_eq hx]
    have hd := renamed_duplicates hx (p.names x) seen .nil
    dsimp only at hd
    revert hd
    generalize List.foldl _ _ (p.names x) = r, List.foldl _ _ (p.names x) = r'
    obtain ⟨seen, found⟩ := r
    obtain ⟨seen', found'⟩ := r'
    rintro ⟨rfl, hfound⟩
    dsimp only
    split
    · refine List.rel_append (List.rel_append hfound ?_) (ih _ optional)
      split
      · exact Conflict.renamed_one .requiredAfterOptional hx .nil
      · exact .nil
    · exact List.rel_append hfound (ih _ true)

theorem renamed_interfaceConflicts {ds es : List (NodeId × Option Definition)}
    (hds : Forall₂ (fun d e => R d.1 e.1 ∧ Option.Rel (Definition.Renamed R p q) d.2 e.2) ds es) :
    RenamedConflicts R (p.interfaceConflicts ds) (q.interfaceConflicts es) := by
  refine List.rel_flatMap hds ?_
  rintro ⟨x, o⟩ ⟨y, o'⟩ ⟨hx, hd⟩
  have notAnInterface {xs ys : List NodeId} (hxs : Forall₂ R xs ys) :
      RenamedConflicts R [⟨.notAnInterface, [x], xs⟩] [⟨.notAnInterface, [y], ys⟩] :=
    Conflict.renamed_one .notAnInterface hx hxs
  dsimp only at hx hd
  rcases hd with hd | _
  · cases hd with
    | structureDef hd =>
      dsimp only
      rw [h.isInterface_eq hd]
      split
      · exact .nil
      · exact notAnInterface (.cons hd .nil)
    | bind hd => exact notAnInterface (.cons hd .nil)
    | function hd => exact notAnInterface (.cons hd .nil)
    | typeVariable hd => exact notAnInterface (.cons hd .nil)
    | stream => exact notAnInterface .nil
  · exact .nil

theorem renamed_abstractConflicts {x y : NodeId} (hx : R x y) :
    RenamedConflicts R (p.abstractConflicts x) (q.abstractConflicts y) := by
  have himplemented := h.renamed_implementedFunctions hx
  have his := h.renamed_inputs hx
  unfold abstractConflicts
  rw [List.rel_isEmpty (h.renamed_abstractFunctions hx)]
  dsimp only
  rw [List.rel_isEmpty himplemented, List.rel_isEmpty his]
  split
  · exact .nil
  · refine List.rel_append ?_ ?_
    · split
      · exact .nil
      · exact Conflict.renamed_one .implemented hx himplemented
    · split
      · exact .nil
      · exact Conflict.renamed_one .disallowedInputs hx his

theorem renamed_owedFunctions {x y : NodeId} (hx : R x y) :
    Forall₂ (fun a b => R a.1 b.1 ∧ R a.2 b.2) (p.owedFunctions x) (q.owedFunctions y) := by
  unfold owedFunctions
  rw [List.rel_isEmpty (h.renamed_declaredInterfaces hx),
    List.rel_isEmpty (h.renamed_implementedFunctions hx)]
  split
  · exact .nil
  · refine List.rel_flatMap (h.renamed_interfaces hx) fun i j hi => ?_
    exact List.rel_map (fun f g hf => ⟨hi, hf⟩) (h.renamed_abstractFunctions hi)

theorem renamed_unimplementedConflicts {x y : NodeId} (hx : R x y) :
    Typing.Renamed R [] [] (RenamedConflicts R) (p.unimplementedConflicts x)
      (q.unimplementedConflicts y) := by
  refine (Typing.renamed_mapM (h.renamed_owedFunctions hx) (T := RenamedConflicts R) ?_).bind
    fun found found' hfound => Typing.renamed_pure (List.rel_flatten hfound)
  rintro ⟨i, f⟩ ⟨j, g⟩ ⟨hi, hf⟩
  refine (Typing.renamed_anyM (h.renamed_implementedFunctions hx) fun a b hab =>
    h.renamed_implementsFunction hab hf).bind fun b b' hb => ?_
  subst hb
  refine Typing.renamed_ite Iff.rfl (fun _ => Typing.renamed_pure .nil) fun _ => ?_
  exact Typing.renamed_pure (Conflict.renamed_one (.unimplemented hi hf) hx (.cons hf .nil))

theorem renamed_structureConflicts {x y : NodeId} (hx : R x y) :
    Typing.Renamed R [] [] (RenamedConflicts R) (p.structureConflicts x)
      (q.structureConflicts y) := by
  refine (h.renamed_unimplementedConflicts hx).bind fun cs cs' hcs => ?_
  refine Typing.renamed_pure (List.rel_append (List.rel_append (List.rel_append ?_ ?_) ?_) hcs)
  · exact h.renamed_inputListConflictsAfter (h.renamed_inputs hx) [] false
  · exact h.renamed_interfaceConflicts (h.renamed_declaredInterfaces hx)
  · exact h.renamed_abstractConflicts hx

/-! ## Aliases -/

/-- The aliases are the same, at related nodes. -/
abbrev RenamedAlias (R : NodeId → NodeId → Prop) (a b : NodeId × Name × Option Name) : Prop :=
  R a.1 b.1 ∧ a.2 = b.2

theorem renamed_aliasAt? {x y : NodeId} (hx : R x y) :
    Option.Rel (RenamedAlias R) (p.aliasAt? x) (q.aliasAt? y) := by
  obtain ⟨n, m, hn, hm, hnm⟩ := h.node hx
  rw [aliasAt?, aliasAt?, hn, hm]
  cases hnm with
  | aliasName => exact .some ⟨hx, rfl⟩
  | _ => exact .none

theorem renamed_aliasConflict? {a a' b b' : NodeId × Name × Option Name} (ha : RenamedAlias R a a')
    (hb : RenamedAlias R b b') :
    Option.Rel (Conflict.Renamed R) (p.aliasConflict? a b) (q.aliasConflict? a' b') := by
  obtain ⟨x, n, l⟩ := a
  obtain ⟨x', _, _⟩ := a'
  obtain ⟨y, m, k⟩ := b
  obtain ⟨y', _, _⟩ := b'
  obtain ⟨hx, ha⟩ := ha
  obtain ⟨hy, hb⟩ := hb
  cases ha
  cases hb
  unfold aliasConflict?
  simp only [h.textOf_eq]
  split
  · exact .some ⟨.duplicateAliases n, .cons hx .nil, .cons hy .nil⟩
  · split
    · exact .some ⟨.caseSensitive n m, .cons hx .nil, .cons hy .nil⟩
    · exact .none

theorem renamed_aliasConflictsAfter {before before' as bs : List (NodeId × Name × Option Name)}
    (hbefore : Forall₂ (RenamedAlias R) before before') (has : Forall₂ (RenamedAlias R) as bs) :
    RenamedConflicts R (p.aliasConflictsAfter before as) (q.aliasConflictsAfter before' bs) := by
  induction has generalizing before before' with
  | nil => exact .nil
  | cons ha _ ih =>
    unfold aliasConflictsAfter
    refine List.rel_append (Option.Rel.toList ?_) (ih (List.rel_append hbefore (.cons ha .nil)))
    exact List.rel_findSome? hbefore fun _ _ hb => h.renamed_aliasConflict? ha hb

/-! ## Nodes -/

theorem isReceiver_eq {x y : NodeId} (hx : R x y) (hlooks : p.LooksUp x) (n : Name) :
    p.isReceiver x n = q.isReceiver y n := by
  rw [isReceiver, isReceiver, (h.renamed_enclosingStructure hx hlooks).isSome_eq]

/-- **Related nodes have the same conflicts.** -/
theorem renamed_conflictsOf {x y : NodeId} (hx : R x y) :
    Typing.Renamed R [] [] (RenamedConflicts R) (p.conflictsOf x) (q.conflictsOf y) := by
  obtain ⟨n, m, hn, hm, hnm⟩ := h.node hx
  unfold conflictsOf
  rw [hn, hm]
  cases hnm with
  | binaryOperation op hl hr => exact h.renamed_operationConflicts hx hl op hr
  | evaluate hf his => exact h.renamed_evaluateConflicts hx hf his
  | structureDefinition => exact h.renamed_structureConflicts hx
  | functionDefinition =>
    exact Typing.renamed_pure (h.renamed_inputListConflictsAfter (h.renamed_inputs hx) [] false)
  | reference n =>
    dsimp only
    have hlooks : p.LooksUp x := .inl ⟨n, hn⟩
    rw [(h.renamed_resolve n hx hlooks).isSome_eq, h.isReceiver_eq hx hlooks]
    refine Typing.renamed_ite Iff.rfl (fun _ => Typing.renamed_pure .nil) fun _ => ?_
    exact Typing.renamed_pure (Conflict.renamed_one (.unknownName n) hx .nil)
  | propertyReference n hc =>
    refine (h.renamed_typeOf hc).bind fun t t' ht => ?_
    refine Typing.renamed_ite ?_ (fun _ => Typing.renamed_pure .nil) fun _ => ?_
    · rw [h.ty_eq_iff ht .unknown, (h.renamed_definitionInType n ht).isSome_eq]
    · exact Typing.renamed_pure (Conflict.renamed_one (.unknownName n) hx (.cons hc .nil))
  | @nameType is _ n =>
    have hd := h.renamed_resolve n hx (.inr ⟨n, is, hn⟩)
    have unknown : Typing.Renamed R [] [] (RenamedConflicts R)
        (return [⟨.unknownTypeName n, [x], []⟩]) (return [⟨.unknownTypeName n, [y], []⟩]) :=
      Typing.renamed_pure (Conflict.renamed_one (.unknownTypeName n) hx .nil)
    dsimp only
    revert hd
    generalize p.resolve n x = o, q.resolve n y = o'
    rintro (hd | _)
    · cases hd with
      | structureDef | typeVariable => exact Typing.renamed_pure .nil
      | _ => exact unknown
    · exact unknown
  | borrow n =>
    dsimp only
    rw [(h.share hx hn).isSome_eq]
    refine Typing.renamed_ite Iff.rfl (fun _ => Typing.renamed_pure .nil) fun _ => ?_
    exact Typing.renamed_pure (Conflict.renamed_one (.unknownBorrow n) hx .nil)
  | bind _ htype hvalue =>
    rcases htype with htype | _
    · rcases hvalue with hvalue | _
      · have hexpected := h.renamed_typeGiven htype
        refine (h.renamed_typeOf hvalue).bind fun t t' ht => ?_
        refine (h.renamed_accepts hexpected ht).bind fun b b' hb => ?_
        subst hb
        refine Typing.renamed_ite Iff.rfl (fun _ => Typing.renamed_pure .nil) fun _ => ?_
        exact Typing.renamed_pure
          (Conflict.renamed_one (.incompatibleBind hexpected ht) hvalue (.cons htype .nil))
      · exact Typing.renamed_pure .nil
    · exact Typing.renamed_pure .nil
  | conditional hc =>
    refine (h.renamed_typeOf hc).bind fun t t' ht => ?_
    refine (h.renamed_accepts (.primitive .boolean) ht).bind fun b b' hb => ?_
    subst hb
    refine Typing.renamed_ite Iff.rfl (fun _ => Typing.renamed_pure .nil) fun _ => ?_
    exact Typing.renamed_pure
      (Conflict.renamed_one (.expectedBooleanCondition ht) hc (.cons hx .nil))
  | names his =>
    refine Typing.renamed_pure (h.renamed_aliasConflictsAfter .nil ?_)
    exact List.rel_filterMap (R := R) (fun _ _ hx => h.renamed_aliasAt? hx) his
  | unparsable => exact Typing.renamed_pure (Conflict.renamed_one .unparsable hx .nil)
  | _ => exact Typing.renamed_pure .nil

/-- **Renamed programs have the same conflicts, in the same order.** -/
theorem renamed_check : Typing.Renamed R [] [] (RenamedConflicts R) p.check q.check :=
  (Typing.renamed_mapM h.nodes fun _ _ => h.renamed_conflictsOf).bind
    fun _ _ hfound => Typing.renamed_pure (List.rel_flatten hfound)

/-! ## Conflicts in words -/

/-- **The same conflicts are told in the same words.** -/
theorem explainInEnglish_eq {c c' : Conflict} (hc : c.Renamed R c') :
    c.explainInEnglish p = c'.explainInEnglish q := by
  obtain ⟨k, ps, ss⟩ := c
  obtain ⟨k', ps', ss'⟩ := c'
  have hk : k.Renamed R k' := hc.kind
  have nameOf {x y : NodeId} (hx : R x y) : Conflict.nameOf p x = Conflict.nameOf q y :=
    h.nameText_eq hx _
  have describe {t t' : Ty} (ht : t.Renamed R t') : p.describe t = q.describe t' :=
    describe_eq h ht
  unfold Conflict.explainInEnglish
  cases hk with
  | notAFunction n ht => cases n <;> simp only [h.textOf_eq, describe ht]
  | unexpectedInputs hf => simp only [nameOf hf]
  | missingInput hf hi => simp only [nameOf hf, nameOf hi]
  | incompatibleInput hi ht hu => simp only [nameOf hi, describe ht, describe hu]
  | unimplemented hi hf => simp only [nameOf hi, nameOf hf]
  | incompatibleBind ht hu => simp only [describe ht, describe hu]
  | expectedBooleanCondition ht => simp only [describe ht]
  | notInstantiable hd => simp only [nameOf hd]
  | _ => simp only [h.textOf_eq]

theorem kindName_eq {x y : NodeId} (hx : R x y) : p.arena.kindName x = q.arena.kindName y := by
  obtain ⟨n, m, hn, hm, hnm⟩ := h.node hx
  have hn : p.arena.node? x = some n := hn
  have hm : q.arena.node? y = some m := hm
  rw [Arena.kindName, Arena.kindName, hn, hm]
  cases hnm <;> rfl

theorem labelInEnglish_eq {c c' : Conflict} (hc : c.Renamed R c') {x y : NodeId} (hx : R x y)
    (isPrimary : Bool) :
    c.labelInEnglish p x isPrimary = c'.labelInEnglish q y isPrimary := by
  obtain ⟨k, ps, ss⟩ := c
  obtain ⟨k', ps', ss'⟩ := c'
  have hk : k.Renamed R k' := hc.kind
  unfold Conflict.labelInEnglish
  rw [h.kindName_eq hx]
  cases hk <;> cases isPrimary <;> rfl

end Program.Renamed

end Arbor
