/-
  Steps and stream dependence of renamed programs.

  Main statements: `renamed_compile`, the steps of related nodes, and
  `renamed_dependsOnStream`, whether they read a stream.
-/
import Arbor.Proofs.Renaming.Inference
import Arbor.Step.Compile

namespace Arbor

open List (Forall₂)

/-- The steps do the same at related nodes. -/
structure Step.Renamed (R : NodeId → NodeId → Prop) (s s' : Step) : Prop where
  node : R s.node s'.node
  kind : s.kind = s'.kind

/-- The same steps at related nodes, one after another. -/
abbrev RenamedSteps (R : NodeId → NodeId → Prop) : List Step → List Step → Prop :=
  Forall₂ (Step.Renamed R)

namespace Program.Renamed

variable {R : NodeId → NodeId → Prop} {p q : Program} (h : p.Renamed R q)
include h

/-! ## Steps -/

theorem renamed_compileNode {sub sub' : NodeId → List Step} {x y : NodeId} (hx : R x y)
    (hsub : ∀ c ∈ p.arena.children x, ∀ d, R c d → RenamedSteps R (sub c) (sub' d)) :
    RenamedSteps R (p.arena.compileNode sub x) (q.arena.compileNode sub' y) := by
  obtain ⟨n, m, hn, hm, hnm⟩ := h.node hx
  have hn : p.arena.node? x = some n := hn
  have hm : q.arena.node? y = some m := hm
  have one (k : StepKind) : RenamedSteps R [⟨x, k⟩] [⟨y, k⟩] := .cons ⟨hx, rfl⟩ .nil
  have subs {r s : NodeRange} (hr : r.Renamed R p.arena q.arena s)
      (hc : ∀ c ∈ p.arena.list r, c ∈ p.arena.children x) :
      RenamedSteps R ((p.arena.list r).flatMap sub) ((q.arena.list s).flatMap sub') :=
    List.rel_flatMap ((List.forall₂_and_left _ _).2 ⟨hc, hr⟩)
      fun c d ⟨hmem, hcd⟩ => hsub c hmem d hcd
  rw [Arena.children_eq hn] at hsub subs
  unfold Arena.compileNode
  rw [hn, hm]
  cases hnm with
  | binaryOperation op hl hr =>
    have hleft := hsub _ (by simp) _ hl
    have hright := hsub _ (by simp) _ hr
    dsimp only
    rw [hright.length_eq]
    refine List.rel_append (List.rel_append (List.rel_append (List.rel_append (one _) hleft) ?_)
      hright) (.cons ⟨hx, rfl⟩ (one _))
    split
    · exact one _
    · exact .nil
  | conditional hc hy hz =>
    have hyes := hsub _ (by simp) _ hy
    have hno := hsub _ (by simp) _ hz
    dsimp only
    rw [hyes.length_eq, hno.length_eq]
    exact List.rel_append (List.rel_append (List.rel_append (List.rel_append (List.rel_append
      (List.rel_append (one _) (hsub _ (by simp) _ hc)) (one _)) hyes) (one _)) hno) (one _)
  | evaluate hf his =>
    exact List.rel_append (List.rel_append (List.rel_append (one _) (hsub _ (by simp) _ hf))
      (subs his fun c hc => by simp [hc])) (.cons ⟨hx, rfl⟩ (one _))
  | propertyReference n hc =>
    exact List.rel_append (List.rel_append (one _) (hsub _ (by simp) _ hc)) (one _)
  | block hss =>
    exact List.rel_append (List.rel_append (one _) (subs hss fun c hc => by simp [hc])) (one _)
  | bind _ _ hvalue =>
    rcases hvalue with hvalue | _
    · exact List.rel_append (List.rel_append (one _) (hsub _ (by simp) _ hvalue)) (one _)
    · exact one _
  | program _ hmain =>
    exact List.rel_append (List.rel_append (one _) (hsub _ (by simp) _ hmain)) (one _)
  | _ => exact one _

/-- **Related nodes have the same steps.** -/
theorem renamed_compile {x y : NodeId} (hx : R x y) :
    RenamedSteps R (p.compile x) (q.compile y) := by
  obtain ⟨rank, hrank⟩ := h.acyclic
  induction hr : rank x using Nat.strongRecOn generalizing x y with
  | _ k ih =>
    subst hr
    unfold compile
    rw [Arena.compile_eq h.acyclic, Arena.compile_eq h.acyclic']
    exact h.renamed_compileNode hx fun c hc d hcd => ih _ (hrank x c hc) hcd rfl

theorem renamed_compileBody {x y : NodeId} (hx : R x y) :
    RenamedSteps R (p.compileBody x) (q.compileBody y) := by
  obtain ⟨n, m, hn, hm, hnm⟩ := h.node hx
  unfold compileBody
  rw [hn, hm]
  cases hnm with
  | functionDefinition _ _ _ _ hbody =>
    rcases hbody with hbody | _
    · exact h.renamed_compile hbody
    · exact .nil
  | structureDefinition =>
    have hstatements : RenamedSteps R ((p.statements x).flatMap p.compile)
        ((q.statements y).flatMap q.compile) :=
      List.rel_flatMap (h.renamed_statements hx) fun _ _ => h.renamed_compile
    exact List.rel_append (List.rel_append (.cons ⟨hx, rfl⟩ .nil) hstatements)
      (.cons ⟨hx, rfl⟩ .nil)
  | _ => exact .nil

end Program.Renamed

/-! ## Searches -/

namespace Program

section
variable (R : NodeId → NodeId → Prop)

/-- The nodes lead to related nodes. -/
inductive Lead.Renamed : Lead → Lead → Prop
  | stream : Lead.Renamed .stream .stream
  | node {x y : NodeId} : R x y → Lead.Renamed (.node x) (.node y)
  | nowhere : Lead.Renamed .nowhere .nowhere

/-- Related nodes were visited, those in `K` and `L` among them. -/
structure RenamedVisits (K L : List NodeId) (v v' : NodeSet) : Prop where
  contains_eq : ∀ {x y : NodeId}, R x y → v.contains x = v'.contains y
  left : ∀ c ∈ K, v.contains c = true
  right : ∀ c ∈ L, v'.contains c = true

/-- The searches find the same, and keep visits renamed. -/
def Search.Renamed (K L : List NodeId) (x y : Search Bool) : Prop :=
  ∀ v v', RenamedVisits R K L v v' →
    Typing.Renamed R [] [] (fun a b => a.1 = b.1 ∧ RenamedVisits R K L a.2 b.2) (x.run v) (y.run v')

end

section
variable {R : NodeId → NodeId → Prop} {K L : List NodeId}

namespace Search

theorem renamed_pure (b : Bool) : Search.Renamed R K L (pure b) (pure b) :=
  fun _ _ hv => Typing.renamed_pure ⟨rfl, hv⟩

theorem Renamed.bind {x y : Search Bool} {f g : Bool → Search Bool} (hxy : Search.Renamed R K L x y)
    (hfg : ∀ b, Search.Renamed R K L (f b) (g b)) : Search.Renamed R K L (x >>= f) (y >>= g) := by
  intro v v' hv
  rw [StateT.run_bind, StateT.run_bind]
  refine (hxy v v' hv).bind ?_
  rintro ⟨a, w⟩ ⟨b, w'⟩ ⟨hab, hw⟩
  cases hab
  exact hfg a w w' hw

theorem renamed_lift {α β : Type} {S : α → β → Prop} {x : Typing α} {y : Typing β}
    {f : α → Search Bool} {g : β → Search Bool} (hxy : Typing.Renamed R [] [] S x y)
    (hfg : ∀ a b, S a b → Search.Renamed R K L (f a) (g b)) :
    Search.Renamed R K L (liftM x >>= f) (liftM y >>= g) := by
  intro v v' hv
  rw [StateT.run_bind, StateT.run_bind, StateT.run_monadLift, StateT.run_monadLift]
  refine Typing.Renamed.bind (S := fun a b => S a.1 b.1 ∧ RenamedVisits R K L a.2 b.2)
    (hxy.bind fun a b hab => Typing.renamed_pure ⟨hab, hv⟩) ?_
  rintro ⟨a, w⟩ ⟨b, w'⟩ ⟨hab, hw⟩
  exact hfg a b hab w w' hw

theorem renamed_searchAny {f g : NodeId → Search Bool} {xs ys : List NodeId} (h : Forall₂ R xs ys)
    (hfg : ∀ x y, R x y → Search.Renamed R K L (f x) (g y)) :
    Search.Renamed R K L (searchAny f xs) (searchAny g ys) := by
  induction h with
  | nil => exact renamed_pure false
  | cons hxy _ ih =>
    refine (hfg _ _ hxy).bind fun b => ?_
    cases b with
    | true => exact renamed_pure true
    | false => exact ih

theorem renamed_searchOn {f g : NodeId → Search Bool} {xs ys : List NodeId}
    (hfg : ∀ x y, R x y → Search.Renamed R K L (f x) (g y)) (h : Forall₂ R xs ys) {l l' : Lead}
    (hl : l.Renamed R l') : Search.Renamed R K L (searchOn f xs l) (searchOn g ys l') := by
  cases hl with
  | stream => exact renamed_pure true
  | node hz =>
    refine (hfg _ _ hz).bind fun b => ?_
    cases b with
    | true => exact renamed_pure true
    | false => exact renamed_searchAny h hfg
  | nowhere => exact renamed_searchAny h hfg

end Search

theorem contains_insert (v : NodeSet) (x y : NodeId) :
    (v.insert x ()).contains y = (decide (x = y) || v.contains y) := by
  unfold NodeMap.contains
  rw [NodeMap.get?_insert]
  by_cases h : x = y
  · simp [h]
  · simp [h]

theorem RenamedVisits.insert {v v' : NodeSet} (hR : Relator.BiUnique R)
    (hv : RenamedVisits R K L v v') {x y : NodeId} (hx : R x y) :
    RenamedVisits R (x :: K) (y :: L) (v.insert x ()) (v'.insert y ()) where
  contains_eq {z w} hz := by
    have heq : x = z ↔ y = w := Relator.rel_eq hR hx hz
    rw [contains_insert, contains_insert, hv.contains_eq hz, decide_eq_decide.2 heq]
  left c hc := by
    rw [contains_insert, Bool.or_eq_true, decide_eq_true_eq]
    rcases List.mem_cons.1 hc with rfl | hc
    · exact .inl rfl
    · exact .inr (hv.left c hc)
  right c hc := by
    rw [contains_insert, Bool.or_eq_true, decide_eq_true_eq]
    rcases List.mem_cons.1 hc with rfl | hc
    · exact .inl rfl
    · exact .inr (hv.right c hc)

variable {p q : Program}

namespace Renamed

variable (h : p.Renamed R q)
include h

omit h in
theorem renamed_leadOfDefinition {o o' : Option Definition}
    (ho : Option.Rel (Definition.Renamed R p q) o o') :
    Lead.Renamed R (leadOfDefinition o) (leadOfDefinition o') := by
  rcases ho with hd | _
  · cases hd with
    | stream => exact .stream
    | bind hx | function hx | structureDef hx | typeVariable hx => exact .node hx
  · exact .nowhere

/-- Related nodes lead to related nodes. -/
theorem renamed_lead {x y : NodeId} (hx : R x y) :
    Typing.Renamed R [] [] (Lead.Renamed R) (p.lead x) (q.lead y) := by
  obtain ⟨n, m, hn, hm, hnm⟩ := h.node hx
  unfold lead
  rw [hn, hm]
  cases hnm with
  | reference n =>
    exact Typing.renamed_pure (renamed_leadOfDefinition (h.renamed_resolve n hx (.inl ⟨n, hn⟩)))
  | borrow n =>
    refine Typing.renamed_pure ?_
    rw [(h.renamed_streamNamed? hx hn).isSome_eq]
    split
    · exact .stream
    · exact .nowhere
  | propertyReference n hc =>
    exact (h.renamed_typeOf hc).bind fun t t' ht =>
      Typing.renamed_pure (renamed_leadOfDefinition (h.renamed_definitionInType n ht))
  | binaryOperation op hl =>
    refine (h.renamed_typeOf hl).bind fun t t' ht => Typing.renamed_pure ?_
    have hf := h.renamed_operatorFunction op ht
    revert hf
    generalize p.operatorFunction t op = o, q.operatorFunction t' op = o'
    rintro (hf | _)
    · exact .node hf
    · exact .nowhere
  | _ => exact Typing.renamed_pure .nowhere

/-- The searches from related nodes find the same, if there is room for all nodes on a
    path. -/
theorem renamed_searchStream {d e : Nat} (hK : p.Room d K) (hL : q.Room e L) {x y : NodeId}
    (hx : R x y) : Search.Renamed R K L (p.searchStream d x) (q.searchStream e y) := by
  induction d generalizing e K L x y with
  | zero => exact absurd hK.pos (Nat.lt_irrefl 0)
  | succ d ih =>
    obtain ⟨e, rfl⟩ : ∃ k, e = k + 1 := ⟨e - 1, by have := hL.pos; omega⟩
    intro v v' hv
    have hcontains := hv.contains_eq hx
    by_cases hvisited : v.contains x = true
    · rw [searchStream_visited hvisited, searchStream_visited (hcontains ▸ hvisited)]
      exact Typing.renamed_pure ⟨rfl, hv⟩
    · rw [Bool.not_eq_true] at hvisited
      have hvisited' : v'.contains y = false := hcontains ▸ hvisited
      have hx' : x ∉ K := fun hmem => by rw [hv.left x hmem] at hvisited; cases hvisited
      have hy' : y ∉ L := fun hmem => by rw [hv.right y hmem] at hvisited'; cases hvisited'
      obtain ⟨n, m, hn, hm, -⟩ := h.node hx
      have sub (z w : NodeId) (hz : R z w) :
          Search.Renamed R (x :: K) (y :: L) (p.searchStream d z) (q.searchStream e w) :=
        ih (hK.cons hx' hn) (hL.cons hy' hm) hz
      rw [searchStream_enter hvisited, searchStream_enter hvisited']
      have search := Search.renamed_lift (h.renamed_lead hx)
        fun _ _ => Search.renamed_searchOn sub (h.renamed_children hx)
      refine (search _ _ (hv.insert h.unique hx)).mono fun a b hab => ?_
      refine ⟨hab.1, hab.2.contains_eq, ?_, ?_⟩
      · exact fun c hc => hab.2.left c (List.mem_cons_of_mem _ hc)
      · exact fun c hc => hab.2.right c (List.mem_cons_of_mem _ hc)

/-- Related nodes read streams alike. -/
theorem renamed_dependsOnStream {x y : NodeId} (hx : R x y) :
    Typing.Renamed R [] [] Eq (p.dependsOnStream x) (q.dependsOnStream y) := by
  intro m m' hm hK hL
  have hget := hm.readsStream hx
  cases hknown : m.readsStream.get? x with
  | some b =>
    rw [dependsOnStream_known hknown, dependsOnStream_known (hget ▸ hknown)]
    exact ⟨rfl, hm, hK, hL⟩
  | none =>
    rw [dependsOnStream_search hknown, dependsOnStream_search (hget ▸ hknown)]
    have search := h.renamed_searchStream p.room_nil q.room_nil hx .empty .empty
      ⟨fun _ => rfl, by simp, by simp⟩ m m' hm hK hL
    obtain ⟨⟨hreads, -⟩, hm, hK, hL⟩ := search
    dsimp only
    rw [hreads]
    exact ⟨rfl, hm.noteStream h.unique hx _, hK, hL⟩

end Renamed

end

end Program

end Arbor
