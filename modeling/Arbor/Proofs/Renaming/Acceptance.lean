/-
  Acceptance in renamed programs.

  Comparisons of functions inside each other are of different pairs, and there are no more
  pairs than there is room for; renamed programs compare related pairs.

  Main statements: `renamed_accepts` and `renamed_implementsFunction`.
-/
import Arbor.Proofs.Renaming.Inference
import Arbor.Typing.Acceptance
import Mathlib.Data.List.ProdSigma

namespace Arbor.Program

open List (Forall₂)

/-! ## Room for comparisons -/

/-- Around a comparison are comparisons of other pairs, which leave room for `depth` more
    inside each other. -/
structure PairRoom (p : Program) (depth : Nat) (around : List (NodeId × NodeId)) : Prop where
  nodup : around.Nodup
  known : ∀ c ∈ around, c.1.raw < p.arena.size ∧ c.2.raw < p.arena.size
  enough : p.arena.size * p.arena.size + 1 ≤ depth + around.length

section
variable {p : Program} {depth : Nat} {around : List (NodeId × NodeId)}

theorem PairRoom.pos (h : p.PairRoom depth around) : 0 < depth := by
  let raws : NodeId × NodeId → Nat × Nat := fun c => (c.1.raw, c.2.raw)
  have hsub : around.map raws ⊆ List.range p.arena.size ×ˢ List.range p.arena.size := by
    intro r hr
    obtain ⟨c, hc, rfl⟩ := List.mem_map.1 hr
    obtain ⟨hl, hr⟩ := h.known c hc
    exact List.mem_product.2 ⟨List.mem_range.2 hl, List.mem_range.2 hr⟩
  have hinj : Function.Injective raws := by
    rintro ⟨⟨a⟩, ⟨b⟩⟩ ⟨⟨c⟩, ⟨d⟩⟩ hac
    cases hac
    rfl
  have hlen := (List.subperm_of_subset (h.nodup.map hinj) hsub).length_le
  rw [List.length_map, List.length_product, List.length_range] at hlen
  have := h.enough
  omega

theorem PairRoom.cons (h : p.PairRoom (depth + 1) around) {f g : NodeId} (hfg : (f, g) ∉ around)
    (hf : (p.node? f).isSome) (hg : (p.node? g).isSome) : p.PairRoom depth ((f, g) :: around) := by
  have known {id : NodeId} (hid : (p.node? id).isSome) : id.raw < p.arena.size := by
    obtain ⟨n, hn⟩ := Option.isSome_iff_exists.1 hid
    exact (Array.getElem?_eq_some_iff.1 hn).1
  refine ⟨List.nodup_cons.2 ⟨hfg, h.nodup⟩, fun c hc => ?_, ?_⟩
  · rcases List.mem_cons.1 hc with rfl | hc
    · exact ⟨known hf, known hg⟩
    · exact h.known c hc
  · have := h.enough
    rw [List.length_cons]
    omega

theorem pairRoom_nil (p : Program) : p.PairRoom (p.arena.size * p.arena.size + 1) [] :=
  ⟨.nil, fun _ hc => (List.not_mem_nil hc).elim, Nat.le_refl _⟩

end

namespace Renamed

variable {R : NodeId → NodeId → Prop} {p q : Program}

/-! ## Acceptance -/

section
variable {K L : List NodeId} {compatible compatible' : NodeId → NodeId → Typing Bool}

mutual

theorem renamed_acceptsBy (h : p.Renamed R q)
    (hc : ∀ f f' g g', R f f' → R g g' →
      Typing.Renamed R K L Eq (compatible f g) (compatible' f' g')) {t t' u u' : Ty}
    (ht : t.Renamed R t') (hu : u.Renamed R u') :
    Typing.Renamed R K L Eq (p.acceptsBy compatible t u) (q.acceptsBy compatible' t' u') := by
  unfold acceptsBy
  cases ht with
  | unknown => exact Typing.renamed_pure rfl
  | never =>
    cases hu with
    | unknown => exact Typing.renamed_pure rfl
    | _ => exact Typing.renamed_pure (by simp)
  | typeVar hv => cases hu <;> exact Typing.renamed_pure rfl
  | union hts =>
    cases hu with
    | unknown | never => exact Typing.renamed_pure rfl
    | union hus => exact renamed_acceptsEachBy h hc (.union hts) hus
    | primitive k => exact renamed_acceptsInSomeBy h hc hts (.primitive k)
    | instanceOf hd hus => exact renamed_acceptsInSomeBy h hc hts (.instanceOf hd hus)
    | definition hd => exact renamed_acceptsInSomeBy h hc hts (.definition hd)
    | function hd => exact renamed_acceptsInSomeBy h hc hts (.function hd)
    | typeVar hd => exact renamed_acceptsInSomeBy h hc hts (.typeVar hd)
  | primitive k =>
    cases hu with
    | union hus => exact renamed_acceptsEachBy h hc (.primitive k) hus
    | _ => exact Typing.renamed_pure rfl
  | instanceOf hd has =>
    cases hu with
    | union hus => exact renamed_acceptsEachBy h hc (.instanceOf hd has) hus
    | @instanceOf d e as bs he hbs =>
      refine Typing.renamed_ite (h.eq_iff hd he) (fun _ => ?_) fun _ => ?_
      · exact renamed_acceptsPairsBy h hc has hbs
      · exact Typing.renamed_pure (h.implements_eq he hd)
    | _ => exact Typing.renamed_pure rfl
  | definition hd =>
    cases hu with
    | union hus => exact renamed_acceptsEachBy h hc (.definition hd) hus
    | definition he => exact Typing.renamed_pure (decide_eq_decide.2 (h.eq_iff hd he))
    | _ => exact Typing.renamed_pure rfl
  | function hf =>
    cases hu with
    | union hus => exact renamed_acceptsEachBy h hc (.function hf) hus
    | function hg =>
      refine Typing.renamed_ite (h.eq_iff hf hg) (fun _ => ?_) fun _ => ?_
      · exact Typing.renamed_pure rfl
      · exact hc _ _ _ _ hf hg
    | _ => exact Typing.renamed_pure rfl
termination_by sizeOf t + sizeOf u

theorem renamed_acceptsEachBy (h : p.Renamed R q)
    (hc : ∀ f f' g g', R f f' → R g g' →
      Typing.Renamed R K L Eq (compatible f g) (compatible' f' g')) {t t' : Ty} {us us' : List Ty}
    (ht : t.Renamed R t') (hus : Forall₂ (Ty.Renamed R) us us') :
    Typing.Renamed R K L Eq (p.acceptsEachBy compatible t us)
      (q.acceptsEachBy compatible' t' us') := by
  cases hus with
  | nil => unfold acceptsEachBy; exact Typing.renamed_pure rfl
  | cons hu hus =>
    unfold acceptsEachBy
    refine (renamed_acceptsBy h hc ht hu).bind fun b b' hb => ?_
    subst hb
    split
    · exact renamed_acceptsEachBy h hc ht hus
    · exact Typing.renamed_pure rfl
termination_by sizeOf t + sizeOf us

theorem renamed_acceptsInSomeBy (h : p.Renamed R q)
    (hc : ∀ f f' g g', R f f' → R g g' →
      Typing.Renamed R K L Eq (compatible f g) (compatible' f' g')) {ts ts' : List Ty} {u u' : Ty}
    (hts : Forall₂ (Ty.Renamed R) ts ts') (hu : u.Renamed R u') :
    Typing.Renamed R K L Eq (p.acceptsInSomeBy compatible ts u)
      (q.acceptsInSomeBy compatible' ts' u') := by
  cases hts with
  | nil => unfold acceptsInSomeBy; exact Typing.renamed_pure rfl
  | cons ht hts =>
    unfold acceptsInSomeBy
    refine (renamed_acceptsBy h hc ht hu).bind fun b b' hb => ?_
    subst hb
    split
    · exact Typing.renamed_pure rfl
    · exact renamed_acceptsInSomeBy h hc hts hu
termination_by sizeOf ts + sizeOf u

theorem renamed_acceptsPairsBy (h : p.Renamed R q)
    (hc : ∀ f f' g g', R f f' → R g g' →
      Typing.Renamed R K L Eq (compatible f g) (compatible' f' g')) {ts ts' us us' : List Ty}
    (hts : Forall₂ (Ty.Renamed R) ts ts') (hus : Forall₂ (Ty.Renamed R) us us') :
    Typing.Renamed R K L Eq (p.acceptsPairsBy compatible ts us)
      (q.acceptsPairsBy compatible' ts' us') := by
  cases hts with
  | nil => unfold acceptsPairsBy; exact Typing.renamed_pure rfl
  | cons ht hts =>
    cases hus with
    | nil => unfold acceptsPairsBy; exact Typing.renamed_pure rfl
    | cons hu hus =>
      unfold acceptsPairsBy
      refine (renamed_acceptsBy h hc ht hu).bind fun b b' hb => ?_
      subst hb
      split
      · exact renamed_acceptsPairsBy h hc hts hus
      · exact Typing.renamed_pure rfl
termination_by sizeOf ts + sizeOf us

end

end

/-! ## Functions -/

variable (h : p.Renamed R q)
include h

theorem renamed_compatibleBy {accepts accepts' : Ty → Ty → Typing Bool}
    (ha : ∀ t t' u u', t.Renamed R t' → u.Renamed R u' →
      Typing.Renamed R [] [] Eq (accepts t u) (accepts' t' u'))
    {f f' g g' : NodeId} (hf : R f f') (hg : R g g') :
    Typing.Renamed R [] [] Eq (p.compatibleBy accepts f g) (q.compatibleBy accepts' f' g') := by
  have his := h.renamed_inputs hf
  have hjs := h.renamed_inputs hg
  unfold compatibleBy
  dsimp only
  refine Typing.renamed_ite (by rw [his.length_eq, hjs.length_eq])
    (fun _ => Typing.renamed_pure rfl) fun _ => ?_
  refine (Typing.renamed_allM (List.rel_zip his hjs) ?_).bind fun b b' hb => ?_
  · rintro ⟨i, j⟩ ⟨i', j'⟩ ⟨hi, hj⟩
    exact (h.renamed_bindType hi).bind fun t t' ht => (h.renamed_bindType hj).bind fun u u' hu =>
      ha _ _ _ _ ht hu
  · subst hb
    refine Typing.renamed_ite Iff.rfl (fun _ => ?_) fun _ => Typing.renamed_pure rfl
    exact (h.renamed_output hf).bind fun t t' ht => (h.renamed_output hg).bind fun u u' hu =>
      ha _ _ _ _ ht hu

theorem renamed_compatibleWithin {d e : Nat} {around around' : List (NodeId × NodeId)}
    (hd : p.PairRoom d around) (he : q.PairRoom e around')
    (hr : Forall₂ (fun c c' => R c.1 c'.1 ∧ R c.2 c'.2) around around')
    {f f' g g' : NodeId} (hf : R f f') (hg : R g g') :
    Typing.Renamed R [] [] Eq (p.compatibleWithin d around f g)
      (q.compatibleWithin e around' f' g') := by
  induction d generalizing e around around' f f' g g' with
  | zero => exact absurd hd.pos (Nat.lt_irrefl 0)
  | succ d ih =>
    obtain ⟨e, rfl⟩ : ∃ k, e = k + 1 := ⟨e - 1, by have := he.pos; omega⟩
    have hmem : (f, g) ∈ around ↔ (f', g') ∈ around' := by
      have hunique : Relator.BiUnique fun c c' : NodeId × NodeId => R c.1 c'.1 ∧ R c.2 c'.2 :=
        ⟨fun _ _ _ hab hcb => Prod.ext (h.unique.1 hab.1 hcb.1) (h.unique.1 hab.2 hcb.2),
          fun _ _ _ hab hac => Prod.ext (h.unique.2 hab.1 hac.1) (h.unique.2 hab.2 hac.2)⟩
      exact List.rel_mem hunique ⟨hf, hg⟩ hr
    unfold compatibleWithin
    refine Typing.renamed_ite hmem (fun _ => Typing.renamed_pure rfl) fun hin => ?_
    have hin' : (f', g') ∉ around' := fun hin' => hin (hmem.2 hin')
    refine h.renamed_compatibleBy (fun t t' u u' ht hu => ?_) hf hg
    refine renamed_acceptsBy h (fun a a' b b' ha hb => ?_) ht hu
    exact ih (hd.cons hin (h.isSome_node? hf).1 (h.isSome_node? hg).1)
      (he.cons hin' (h.isSome_node? hf).2 (h.isSome_node? hg).2) (.cons ⟨hf, hg⟩ hr) ha hb

theorem renamed_functionsCompatible {f f' g g' : NodeId} (hf : R f f') (hg : R g g') :
    Typing.Renamed R [] [] Eq (p.functionsCompatible f g) (q.functionsCompatible f' g') :=
  h.renamed_compatibleWithin p.pairRoom_nil q.pairRoom_nil .nil hf hg

/-- Related types accept related types. -/
theorem renamed_accepts {t t' u u' : Ty} (ht : t.Renamed R t') (hu : u.Renamed R u') :
    Typing.Renamed R [] [] Eq (p.accepts t u) (q.accepts t' u') :=
  renamed_acceptsBy h (fun _ _ _ _ => h.renamed_functionsCompatible) ht hu

theorem renamed_implementsFunction {f f' g g' : NodeId} (hf : R f f') (hg : R g g') :
    Typing.Renamed R [] [] Eq (p.implementsFunction f g) (q.implementsFunction f' g') := by
  have hnames : (p.names g).any (p.hasName f) = (q.names g').any (q.hasName f') := by
    rw [h.names_eq hg, funext fun n => h.hasName_eq hf n]
  unfold implementsFunction
  rw [hnames]
  exact Typing.renamed_ite Iff.rfl (fun _ => h.renamed_functionsCompatible hg hf)
    fun _ => Typing.renamed_pure rfl

end Renamed

end Arbor.Program
