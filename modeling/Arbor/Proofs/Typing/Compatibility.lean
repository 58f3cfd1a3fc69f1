/-
  Functions that stand in for others.

  Inputs and the values of functions are compared in the same direction: the first function has to
  accept what the second one declares.  On types that are written down this reads no memo, so
  compatibility can be read off the two signatures.

  * `Ty.Written`: the types that a program can write down, type variables left aside;
  * `Program.Accepts`: acceptance of written types, as a relation;
  * `Program.HasSignature p f ts t`: the function declares the types `ts` of its inputs, and `t` of
    what it gives.

  Main statements: `functionsCompatible_iff`, compatibility of functions with signatures;
  `same_inputs_of_compatible`, compatible functions take the same primitive types;
  `compatible_of_implements`, a function that takes only one of the structures behind an interface
  passes for one that takes them all.
-/
import Arbor.Proofs.Program.Basis
import Arbor.Typing.Acceptance
import Mathlib.Data.List.Forall2

namespace Arbor

/-! ## Acceptance of written types -/

/-- The types that are written down: primitive types and those of instances. -/
inductive Ty.Written : Ty → Prop
  | primitive (q : Primitive) : Written (.primitive q)
  | instanceOf (d : NodeId) {args : List Ty} (h : ∀ t ∈ args, Written t) :
      Written (.instanceOf d args)

/-! ## Tests that ask nothing -/

/-- The test asks nothing, and tells whether it is so. -/
def Typing.Tells (x : Typing Bool) (P : Prop) : Prop := ∃ b, x = pure b ∧ (b = true ↔ P)

namespace Typing

variable {x y : Typing Bool} {P Q : Prop}

theorem tells_pure {b : Bool} (h : b = true ↔ P) : (pure b : Typing Bool).Tells P := ⟨b, rfl, h⟩

theorem Tells.congr (h : x.Tells P) (hPQ : P ↔ Q) : x.Tells Q := by
  obtain ⟨b, hb, hP⟩ := h
  exact ⟨b, hb, hP.trans hPQ⟩

theorem Tells.and (hx : x.Tells P) (hy : y.Tells Q) :
    Tells (do if ← x then y else return false) (P ∧ Q) := by
  obtain ⟨b, rfl, hP⟩ := hx
  obtain ⟨c, rfl, hQ⟩ := hy
  refine ⟨b && c, ?_, by rw [Bool.and_eq_true, hP, hQ]⟩
  cases b <;> rfl

theorem Tells.or (hx : x.Tells P) (hy : y.Tells Q) :
    Tells (do if ← x then return true else y) (P ∨ Q) := by
  obtain ⟨b, rfl, hP⟩ := hx
  obtain ⟨c, rfl, hQ⟩ := hy
  refine ⟨b || c, ?_, by rw [Bool.or_eq_true, hP, hQ]⟩
  cases b <;> rfl

end Typing

namespace Program

/-- The first of two written types accepts the second. -/
inductive Accepts (p : Program) : Ty → Ty → Prop
  | primitive (q : Primitive) : Accepts p (.primitive q) (.primitive q)
  /-- Arguments are compared as far as there are pairs. -/
  | same (d : NodeId) {as bs : List Ty} (h : ∀ c ∈ as.zip bs, Accepts p c.1 c.2) :
      Accepts p (.instanceOf d as) (.instanceOf d bs)
  | implements {d e : NodeId} (as bs : List Ty) (hne : d ≠ e) (h : p.implements e d = true) :
      Accepts p (.instanceOf d as) (.instanceOf e bs)

variable {p : Program} (compatible : NodeId → NodeId → Typing Bool)

theorem Accepts.refl {t : Ty} (ht : t.Written) : p.Accepts t t := by
  induction ht with
  | primitive q => exact .primitive q
  | @instanceOf d as _ ih =>
    have hzip : (as.map id).zip (as.map id) = as.map fun a => (id a, id a) := List.zip_map'
    rw [List.map_id] at hzip
    refine .same d fun c hc => ?_
    rw [hzip] at hc
    obtain ⟨a, ha, rfl⟩ := List.mem_map.1 hc
    exact ih a ha

theorem tells_acceptsPairsBy {E : Ty → Ty → Prop} {as bs : List Ty}
    (h : ∀ c ∈ as.zip bs, (p.acceptsBy compatible c.1 c.2).Tells (E c.1 c.2)) :
    (p.acceptsPairsBy compatible as bs).Tells (∀ c ∈ as.zip bs, E c.1 c.2) := by
  induction as generalizing bs with
  | nil =>
    unfold acceptsPairsBy
    exact Typing.tells_pure (by simp)
  | cons a as ih =>
    cases bs with
    | nil =>
      unfold acceptsPairsBy
      exact Typing.tells_pure (by simp)
    | cons b bs =>
      rw [List.zip_cons_cons, List.forall_mem_cons] at h ⊢
      unfold acceptsPairsBy
      exact h.1.and (ih h.2)

/-- **Acceptance of written types** asks nothing, and is the relation. -/
theorem acceptsBy_written {expected given : Ty} (he : expected.Written) (hg : given.Written) :
    (p.acceptsBy compatible expected given).Tells (p.Accepts expected given) := by
  induction he generalizing given with
  | primitive q =>
    cases hg with
    | primitive r =>
      refine ⟨q = r, by unfold acceptsBy; rfl, ?_⟩
      rw [decide_eq_true_iff]
      constructor
      · rintro rfl
        exact .primitive q
      · rintro ⟨⟩
        rfl
    | instanceOf e hbs => exact ⟨false, by unfold acceptsBy; rfl, by simp; nofun⟩
  | @instanceOf d as _ ih =>
    cases hg with
    | primitive r => exact ⟨false, by unfold acceptsBy; rfl, by simp; nofun⟩
    | @instanceOf e bs hbs =>
      unfold acceptsBy
      by_cases hde : d = e
      · subst hde
        obtain ⟨b, hb, hb'⟩ := tells_acceptsPairsBy (p := p) compatible fun c hc =>
          ih c.1 (List.of_mem_zip hc).1 (hbs c.2 (List.of_mem_zip hc).2)
        refine ⟨b, by rw [if_pos rfl]; exact hb, hb'.trans ⟨.same d, ?_⟩⟩
        intro h
        cases h with
        | same _ h => exact h
        | implements _ _ hne _ => exact absurd rfl hne
      · refine ⟨p.implements e d, by rw [if_neg hde], .implements as bs hde, ?_⟩
        intro h
        cases h with
        | same => exact absurd rfl hde
        | implements _ _ _ h => exact h

/-! ## Signatures -/

/-- The named value is declared with a type. -/
def Declares (p : Program) (i : NodeId) (t : Ty) : Prop :=
  ∃ ns type value, p.node? i = some (.bind ns (some type) value) ∧ p.typeGiven type = t

/-- The function declares the types of its inputs and of what it gives, and they are written. -/
structure HasSignature (p : Program) (f : NodeId) (ts : List Ty) (t : Ty) : Prop where
  inputs : List.Forall₂ p.Declares (p.inputs f) ts
  output : ∃ ns vs is type body,
    p.node? f = some (.functionDefinition ns vs is (some type) body) ∧ p.typeGiven type = t
  written : ∀ u ∈ t :: ts, u.Written

variable {f g i : NodeId} {t u : Ty} {ts us : List Ty}

theorem Declares.bindType (h : p.Declares i t) : p.bindType i = pure t := by
  obtain ⟨ns, type, value, hn, rfl⟩ := h
  unfold Program.bindType bindTypeBy
  rw [hn]

theorem HasSignature.output_eq (h : p.HasSignature f ts t) : p.output f = pure t := by
  obtain ⟨ns, vs, is, type, body, hn, rfl⟩ := h.output
  unfold Program.output outputBy
  rw [hn]

/-- The inputs of two functions as they are compared. -/
theorem allM_declares {is js : List NodeId} (his : List.Forall₂ p.Declares is ts)
    (hjs : List.Forall₂ p.Declares js us) (hts : ∀ t ∈ ts, t.Written) (hus : ∀ u ∈ us, u.Written)
    (hlength : is.length = js.length) :
    ∃ b, ((is.zip js).allM fun (e, g) => do
        p.acceptsBy compatible (← p.bindType e) (← p.bindType g)) = pure b ∧
      (b = true ↔ List.Forall₂ p.Accepts ts us) := by
  induction his generalizing js us with
  | nil =>
    cases hjs with
    | nil => exact ⟨true, rfl, by simp⟩
    | cons _ _ => cases hlength
  | @cons i t is ts hi _ ih =>
    cases hjs with
    | nil => cases hlength
    | @cons j u js us hj hjs =>
      rw [List.forall_mem_cons] at hts hus
      obtain ⟨rest, hrest, hrest'⟩ := ih hjs hts.2 hus.2 (Nat.succ.inj hlength)
      obtain ⟨first, hfirst, hfirst'⟩ := acceptsBy_written (p := p) compatible hts.1 hus.1
      refine ⟨first && rest, ?_, ?_⟩
      · rw [List.zip_cons_cons, List.allM_cons]
        simp only [hi.bindType, hj.bindType, pure_bind, hfirst]
        cases first with
        | true => exact hrest
        | false => rfl
      · rw [List.forall₂_cons, Bool.and_eq_true, hfirst', hrest']

/-- **Compatibility, read off the signatures.** -/
theorem functionsCompatible_iff (hf : p.HasSignature f ts t) (hg : p.HasSignature g us u)
    (m : Memo) :
    (p.functionsCompatible f g m).1 = true ↔ List.Forall₂ p.Accepts ts us ∧ p.Accepts t u := by
  obtain ⟨ht, hts⟩ := List.forall_mem_cons.1 hf.written
  obtain ⟨hu, hus⟩ := List.forall_mem_cons.1 hg.written
  unfold functionsCompatible compatibleWithin compatibleBy
  rw [if_neg List.not_mem_nil]
  dsimp only
  by_cases hlength : (p.inputs f).length = (p.inputs g).length
  · rw [if_neg (not_not_intro hlength)]
    let inside := p.compatibleWithin (p.arena.size * p.arena.size) [(f, g)]
    obtain ⟨b, hb, hb'⟩ := allM_declares inside hf.inputs hg.inputs hts hus hlength
    obtain ⟨c, hc, hc'⟩ := acceptsBy_written (p := p) inside ht hu
    rw [hb, pure_bind, hf.output_eq, hg.output_eq, pure_bind, pure_bind, hc, ← hb', ← hc']
    cases b with
    | true => exact (and_iff_right rfl).symm
    | false => exact iff_of_false nofun nofun
  · rw [if_pos hlength]
    refine iff_of_false nofun fun h => hlength ?_
    rw [hf.inputs.length_eq, hg.inputs.length_eq, h.1.length_eq]

/-! ## Which functions stand in -/

theorem Accepts.eq_primitive {q : Primitive} (h : p.Accepts (.primitive q) u) :
    u = .primitive q := by
  cases h
  rfl

/-- **Compatible functions take the same primitive types.** -/
theorem same_inputs_of_compatible (hf : p.HasSignature f ts t) (hg : p.HasSignature g us u)
    (hprimitive : ∀ t ∈ ts, ∃ q, t = .primitive q) {m : Memo}
    (h : (p.functionsCompatible f g m).1 = true) : us = ts := by
  have haccepts := ((functionsCompatible_iff hf hg m).1 h).1
  clear h hf hg
  induction haccepts with
  | nil => rfl
  | cons hfirst _ ih =>
    obtain ⟨⟨q, rfl⟩, hrest⟩ := List.forall_mem_cons.1 hprimitive
    rw [hfirst.eq_primitive, ih hrest]

/-- **A function that takes one structure passes for one that takes an interface of it**, though it
    does not accept what else the interface stands for; and the other way round it does not, though
    it accepts everything. -/
theorem compatible_of_implements {d e : NodeId} (hf : p.HasSignature f [.instances d] t)
    (hg : p.HasSignature g [.instances e] t) (hne : d ≠ e) (hd : p.implements e d = true)
    (he : p.implements d e = false) (m : Memo) :
    ((p.functionsCompatible f g m).1 = true ∧ ¬p.Accepts (.instances e) (.instances d)) ∧
      (p.functionsCompatible g f m).1 = false ∧ p.Accepts (.instances d) (.instances e) := by
  have haccepts : p.Accepts (.instances d) (.instances e) := .implements [] [] hne hd
  have hrejects : ¬p.Accepts (.instances e) (.instances d) := by
    intro h
    cases h with
    | same => exact hne rfl
    | implements _ _ _ h => exact Bool.false_ne_true (he.symm.trans h)
  have houtput : p.Accepts t t := .refl (hf.written t List.mem_cons_self)
  have hpasses := (functionsCompatible_iff hf hg m).2 ⟨.cons haccepts .nil, houtput⟩
  refine ⟨⟨hpasses, hrejects⟩, ?_, haccepts⟩
  rw [Bool.eq_false_iff]
  intro h
  cases ((functionsCompatible_iff hg hf m).1 h).1 with
  | cons hfirst _ => exact hrejects hfirst

/-- A function that takes an interface, and one that takes a structure behind it. -/
def takers : Program :=
  .built (do
    let whole ← Build.structureDef "whole" [] [] []
    let part ← Build.structureDef "part" ["whole"] [] []
    let all ← Build.function "all" [← Build.input "x" (← Build.nameType "whole" [])]
      (some (← Build.numberType)) (← Build.number 0x3FF0000000000000)
    let one ← Build.function "one" [← Build.input "x" (← Build.nameType "part" [])]
      (some (← Build.numberType)) (← Build.number 0x4000000000000000)
    Build.program [] [whole, part, all, one]) none

example : (takers.functionsCompatible ⟨123⟩ ⟨132⟩ .empty).1 = true ∧
    (takers.functionsCompatible ⟨132⟩ ⟨123⟩ .empty).1 = false := by
  decide +kernel

end Program

end Arbor
