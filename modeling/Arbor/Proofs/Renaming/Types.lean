/-
  Interfaces, members and written types of renamed programs.

  Main statements: `renamed_member`, what names stand for on structures; `renamed_typeGiven`
  and `renamed_substitute`, the types that a program writes down and what calls make of them.
-/
import Arbor.Proofs.Renaming.Basic
import Arbor.Ty.Describe
import Arbor.Typing.Substitution

namespace Arbor.Program.Renamed

open List (Forall₂)

variable {R : NodeId → NodeId → Prop} {p q : Program} (h : p.Renamed R q)
include h

/-! ## Interfaces and members -/

theorem renamed_declaredInterfaces {x y : NodeId} (hx : R x y) :
    Forall₂ (fun (i : NodeId × Option Definition) (j : NodeId × Option Definition) =>
        R i.1 j.1 ∧ Option.Rel (Definition.Renamed R p q) i.2 j.2)
      (p.declaredInterfaces x) (q.declaredInterfaces y) := by
  obtain ⟨n, m, hn, hm, hnm⟩ := h.node hx
  rw [declaredInterfaces, declaredInterfaces, hn, hm]
  cases hnm with
  | structureDefinition _ hfs _ _ _ =>
    refine List.rel_map (fun a b hab => ?_) hfs
    obtain ⟨n, m, hn, hm, hnm⟩ := h.node hab
    rw [hn, hm]
    cases hnm with
    | reference n => exact ⟨hab, h.renamed_resolve n hab (.inl ⟨n, hn⟩)⟩
    | _ => exact ⟨hab, .none⟩
  | _ => exact .nil

theorem renamed_directInterfaces {x y : NodeId} (hx : R x y) :
    Forall₂ R (p.directInterfaces x) (q.directInterfaces y) := by
  refine List.rel_filterMap ?_ (h.renamed_declaredInterfaces hx)
  rintro ⟨a, o⟩ ⟨b, o'⟩ ⟨-, hd⟩
  cases hd with
  | none => exact .none
  | some hd => cases hd <;> first | exact .some ‹_› | exact .none

theorem renamed_searchInterfaces {links : Nat} {found found' : List NodeId}
    (hfound : Forall₂ R found found') {x y : NodeId} (hx : R x y) :
    Forall₂ R (p.searchInterfaces links found x) (q.searchInterfaces links found' y) := by
  induction links generalizing found found' x y with
  | zero => exact hfound
  | succ links ih =>
    refine List.rel_foldl (fun fs fs' hfs a b hab => ?_) hfound (h.renamed_directInterfaces hx)
    by_cases ha : a ∈ fs
    · rw [if_pos ha, if_pos ((h.mem_iff hab hfs).1 ha)]
      exact hfs
    · rw [if_neg ha, if_neg fun hb => ha ((h.mem_iff hab hfs).2 hb)]
      exact ih (List.rel_append hfs (.cons hab .nil)) hab

theorem renamed_interfaces {x y : NodeId} (hx : R x y) :
    Forall₂ R (p.interfaces x) (q.interfaces y) :=
  List.forall₂_drop 1 (h.renamed_searchInterfaces (.cons hx .nil) hx)

theorem implements_eq {x y i j : NodeId} (hx : R x y) (hi : R i j) :
    p.implements x i = q.implements y j := by
  rw [implements, implements, Bool.eq_iff_iff]
  simp only [Bool.or_eq_true, beq_iff_eq, decide_eq_true_eq]
  rw [h.eq_iff hx hi, h.mem_iff hi (h.renamed_interfaces hx)]

theorem renamed_ownMember (n : Name) {x y : NodeId} (hx : R x y) :
    Option.Rel (Definition.Renamed R p q) (p.ownMember n x) (q.ownMember n y) :=
  h.renamed_firstNamed n (.cons (h.renamed_inputList hx) (.cons (h.renamed_statementList hx) .nil))

/-- A name stands for the same on related structures. -/
theorem renamed_member (n : Name) {x y : NodeId} (hx : R x y) :
    Option.Rel (Definition.Renamed R p q) (p.member x n) (q.member y n) := by
  have hd := h.renamed_ownMember n hx
  rw [member, member]
  revert hd
  generalize p.ownMember n x = o, q.ownMember n y = o'
  rintro (hd | _)
  · exact .some hd
  · exact List.rel_findSome? (h.renamed_interfaces hx) fun a b hab => h.renamed_ownMember n hab

theorem renamed_definitionInType (n : Name) {t t' : Ty} (ht : t.Renamed R t') :
    Option.Rel (Definition.Renamed R p q) (p.definitionInType t n) (q.definitionInType t' n) := by
  cases ht with
  | instanceOf hd _ => exact h.renamed_member n hd
  | primitive k => exact (h.method k n).map fun _ _ hf => .function hf
  | _ => exact .none

theorem renamed_operatorFunction (n : Name) {t t' : Ty} (ht : t.Renamed R t') :
    Option.Rel R (p.operatorFunction t n) (q.operatorFunction t' n) := by
  have hd := h.renamed_definitionInType n ht
  rw [operatorFunction, operatorFunction]
  revert hd
  generalize p.definitionInType t n = o, q.definitionInType t' n = o'
  rintro (hd | _)
  · cases hd <;> first | exact .some ‹_› | exact .none
  · exact .none

/-! ## Types -/

/-- Related type nodes denote related types. -/
theorem renamed_typeGiven {x y : NodeId} (hx : R x y) :
    (p.typeGiven x).Renamed R (q.typeGiven y) := by
  obtain ⟨rank, hrank⟩ := h.acyclic
  induction hr : rank x using Nat.strongRecOn generalizing x y with
  | _ k ih =>
    subst hr
    obtain ⟨n, m, hn, hm, hnm⟩ := h.node hx
    rw [typeGiven_eq h.acyclic, typeGiven_eq h.acyclic', typeGivenBy, typeGivenBy, hn, hm]
    cases hnm with
    | booleanType => exact .primitive _
    | numberType => exact .primitive _
    | textType => exact .primitive _
    | @nameType is is' n his =>
      have hd := h.renamed_resolve n hx (.inr ⟨n, is, hn⟩)
      dsimp only
      revert hd
      generalize p.resolve n x = o, q.resolve n y = o'
      rintro (hd | _)
      · cases hd with
        | structureDef hd =>
          refine .instanceOf hd ?_
          -- The types of the inputs are those of children.
          have hchildren : ∀ c ∈ p.arena.list is, rank c < rank x := fun c hc => hrank x c <| by
            simpa [Arena.children_eq hn, Arena.childrenOf, Node.slots, Node.fields, Arena.ofSlot]
              using hc
          refine List.rel_map ?_ ((List.forall₂_and_left _ _).2 ⟨hchildren, his⟩)
          exact fun c d hcd => ih _ hcd.1 hcd.2 rfl
        | typeVariable hv => exact .typeVar hv
        | _ => exact .unknown
      · exact .unknown
    | _ => exact .unknown

/-- What is bound to type variables. -/
abbrev RenamedBindings (R : NodeId → NodeId → Prop) : Bindings → Bindings → Prop :=
  Forall₂ fun b c => R b.1 c.1 ∧ b.2.Renamed R c.2

theorem renamed_valueOfVariable {t t' : Option Ty} (ht : Option.Rel (Ty.Renamed R) t t')
    {bs cs : Bindings} (hbs : RenamedBindings R bs cs) {v w : NodeId} (hv : R v w) :
    (p.valueOfVariable t bs v).Renamed R (q.valueOfVariable t' cs w) := by
  have hl := List.rel_lookup h.unique hv hbs
  unfold valueOfVariable
  revert hl
  generalize bs.lookup v = o, cs.lookup w = o'
  rintro (hl | _)
  · exact hl
  rcases ht with @⟨_, _, ht⟩ | _
  · cases ht with
    | @instanceOf d e as bs hd has =>
      dsimp only
      rw [List.rel_idxOf? h.unique hv (h.renamed_typeVariables hd)]
      generalize (q.typeVariables e).idxOf? w = place
      cases place with
      | none => exact .typeVar hv
      | some i =>
        have hi := List.rel_getElem? has i
        dsimp only [Option.bind_some]
        revert hi
        generalize as[i]? = o, bs[i]? = o'
        rintro (hi | _)
        · exact hi
        · exact .typeVar hv
    | _ => exact .typeVar hv
  · exact .typeVar hv

omit h

mutual

theorem renamed_substitute (h : p.Renamed R q) {t t' : Option Ty}
    (ht : Option.Rel (Ty.Renamed R) t t') {bs cs : Bindings} (hbs : RenamedBindings R bs cs) :
    ∀ {u u' : Ty}, u.Renamed R u' → (p.substitute t bs u).Renamed R (q.substitute t' cs u')
  | _, _, .typeVar hv => by
    rw [substitute, substitute]
    exact h.renamed_valueOfVariable ht hbs hv
  | .instanceOf _ _, _, .instanceOf hd hts => by
    rw [substitute, substitute]
    exact .instanceOf hd (renamed_substituteAll h ht hbs hts)
  | _, _, .primitive k => .primitive k
  | _, _, .definition hd => .definition hd
  | _, _, .function hd => .function hd
  | _, _, .union hts => .union hts
  | _, _, .never => .never
  | _, _, .unknown => .unknown
termination_by u => sizeOf u

theorem renamed_substituteAll (h : p.Renamed R q) {t t' : Option Ty}
    (ht : Option.Rel (Ty.Renamed R) t t') {bs cs : Bindings} (hbs : RenamedBindings R bs cs) :
    ∀ {us us' : List Ty}, Forall₂ (Ty.Renamed R) us us' →
      Forall₂ (Ty.Renamed R) (p.substituteAll t bs us) (q.substituteAll t' cs us')
  | [], _, .nil => .nil
  | _ :: _, _, .cons hu hus => by
    rw [substituteAll, substituteAll]
    exact .cons (renamed_substitute h ht hbs hu) (renamed_substituteAll h ht hbs hus)
termination_by us => sizeOf us

end

/-! ## Types in words -/

mutual

/-- Related types are described in the same words. -/
theorem describe_eq (h : p.Renamed R q) :
    ∀ {t t' : Ty}, t.Renamed R t' → p.describe t = q.describe t'
  | _, _, .primitive k => by rw [describe, describe]
  | .instanceOf _ _, _, .instanceOf hd hts => by
    rw [describe, describe, h.nameText_eq hd, List.rel_isEmpty hts, describeAll_eq h hts]
  | _, _, .definition hd => by rw [describe, describe, h.nameText_eq hd]
  | _, _, .function hd => by rw [describe, describe, h.nameText_eq hd]
  | _, _, .typeVar hv => by rw [describe, describe, h.nameText_eq hv]
  | .union _, _, .union hts => by rw [describe, describe, describeAll_eq h hts]
  | _, _, .never => by rw [describe, describe]
  | _, _, .unknown => by rw [describe, describe]
termination_by t => sizeOf t

theorem describeAll_eq (h : p.Renamed R q) : ∀ {ts us : List Ty}, Forall₂ (Ty.Renamed R) ts us →
    p.describeAll ts = q.describeAll us
  | [], _, .nil => by rw [describeAll, describeAll]
  | _ :: _, _, .cons ht hts => by
    rw [describeAll, describeAll, describe_eq h ht, describeAll_eq h hts]
termination_by ts => sizeOf ts

end

end Arbor.Program.Renamed
