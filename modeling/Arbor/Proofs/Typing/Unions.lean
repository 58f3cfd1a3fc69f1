/-
  Unions of types.

  A union accepts what one of its members accepts, and is accepted where each of its members is.
  Unions lie in unions, and in the type arguments of instances, and what covers two types takes
  one layer of them apart only.  Where neither functions nor what never gives a value is involved,
  acceptance asks for nothing and is a relation of the two types alone.  It relates every type to
  itself, and what covers two types is the least that is related to both.

  * `Ty.Comparable`: the types in which no function and no `never` occurs, at any depth;
  * `Program.Admits`: acceptance of such types, as a relation;
  * `Program.Joins`: in a context, two types have the one that covers them as a least upper bound.

  Main statements: `acceptsBy_comparable`, acceptance is the relation; `Admits.refl`;
  `admits_cover_iff`; `joins_of_comparable`.
-/
import Arbor.Proofs.Typing.Compatibility
import Arbor.Proofs.Typing.Rules

namespace Arbor

/-! ## Types that are compared part by part -/

/-- The types in which neither a function nor what never gives a value occurs. -/
inductive Ty.Comparable : Ty → Prop
  | primitive (q : Primitive) : Comparable (.primitive q)
  | instanceOf (d : NodeId) {args : List Ty} (h : ∀ t ∈ args, Comparable t) :
      Comparable (.instanceOf d args)
  | definition (d : NodeId) : Comparable (.definition d)
  | typeVar (v : NodeId) : Comparable (.typeVar v)
  | union {members : List Ty} (h : ∀ t ∈ members, Comparable t) : Comparable (.union members)
  | unknown : Comparable .unknown

namespace Ty

variable {a b t : Ty}

theorem Comparable.parts (h : t.Comparable) : ∀ u ∈ t.parts, u.Comparable := by
  cases h with
  | union h => exact h
  | _ =>
    intro u hu
    obtain rfl := List.mem_singleton.1 hu
    constructor <;> assumption

/-- What covers two types is the one of which they consist, or the union of their parts. -/
theorem cover_cases (a b : Ty) :
    (∃ t, cover a b = t ∧ ∀ u, u ∈ a.parts ∨ u ∈ b.parts ↔ u = t) ∨
      ∃ members, cover a b = union members ∧ ∀ u, u ∈ a.parts ∨ u ∈ b.parts ↔ u ∈ members := by
  have hmem (u : Ty) : u ∈ addNew (addNew [] a.parts) b.parts ↔ u ∈ a.parts ∨ u ∈ b.parts := by
    rw [mem_addNew, mem_addNew]
    simp
  unfold cover
  split
  · next t ht =>
    refine .inl ⟨t, rfl, fun u => ?_⟩
    rw [← hmem, ht, List.mem_singleton]
  · exact .inr ⟨_, rfl, fun u => (hmem u).symm⟩

theorem Comparable.cover (ha : a.Comparable) (hb : b.Comparable) : (cover a b).Comparable := by
  have hall (u : Ty) (hu : u ∈ a.parts ∨ u ∈ b.parts) : u.Comparable :=
    hu.elim (ha.parts u) (hb.parts u)
  rcases cover_cases a b with ⟨t, ht, hiff⟩ | ⟨members, hmembers, hiff⟩
  · rw [ht]
    exact hall t ((hiff t).2 rfl)
  · rw [hmembers]
    exact .union fun u hu => hall u ((hiff u).2 hu)

end Ty

namespace Program

/-! ## Acceptance as a relation -/

/-- The first of two types accepts the second. -/
inductive Admits (p : Program) : Ty → Ty → Prop
  | unknown (t : Ty) : Admits p .unknown t
  | ofUnknown (t : Ty) : Admits p t .unknown
  | typeVar (v : NodeId) (t : Ty) : Admits p (.typeVar v) t
  | each {t : Ty} {members : List Ty} (h : ∀ u ∈ members, Admits p t u) : Admits p t (.union members)
  | inSome {t u : Ty} {members : List Ty} (hu : u ∈ members) (h : Admits p u t) :
      Admits p (.union members) t
  | primitive (q : Primitive) : Admits p (.primitive q) (.primitive q)
  /-- Arguments are compared as far as there are pairs. -/
  | same (d : NodeId) {as bs : List Ty} (h : ∀ c ∈ as.zip bs, Admits p c.1 c.2) :
      Admits p (.instanceOf d as) (.instanceOf d bs)
  | implements {d e : NodeId} (as bs : List Ty) (hne : d ≠ e) (h : p.implements e d = true) :
      Admits p (.instanceOf d as) (.instanceOf e bs)
  | definition (d : NodeId) : Admits p (.definition d) (.definition d)

variable {p : Program} {a b c t u : Ty} {members : List Ty}

/-- A union is accepted exactly where each of its members is. -/
theorem admits_union_iff : p.Admits t (.union members) ↔ ∀ u ∈ members, p.Admits t u := by
  refine ⟨fun h u hu => ?_, .each⟩
  generalize ht : Ty.union members = given at h
  induction h with
  | unknown => exact .unknown u
  | typeVar v => exact .typeVar v u
  | each h => cases ht; exact h u hu
  | inSome hv _ ih => exact .inSome hv (ih ht)
  | _ => cases ht

theorem admits_iff_parts : p.Admits t u ↔ ∀ v ∈ u.parts, p.Admits t v := by
  cases u with
  | union members => exact admits_union_iff
  | _ => simp [Ty.parts]

/-- **What covers two types** is accepted exactly where both of them are. -/
theorem admits_cover_iff : p.Admits c (Ty.cover a b) ↔ p.Admits c a ∧ p.Admits c b := by
  have hboth : p.Admits c a ∧ p.Admits c b ↔ ∀ u, u ∈ a.parts ∨ u ∈ b.parts → p.Admits c u := by
    rw [admits_iff_parts (u := a), admits_iff_parts (u := b)]
    exact ⟨fun h u hu => hu.elim (h.1 u) (h.2 u), fun h => ⟨fun u hu => h u (.inl hu),
      fun u hu => h u (.inr hu)⟩⟩
  rw [hboth]
  rcases Ty.cover_cases a b with ⟨t, ht, hiff⟩ | ⟨members, hmembers, hiff⟩
  · simp only [ht, hiff, forall_eq]
  · simp only [hmembers, hiff, admits_union_iff]

/-- Every type accepts itself. -/
theorem Admits.refl (ht : t.Comparable) : p.Admits t t := by
  induction ht with
  | primitive q => exact .primitive q
  | @instanceOf d args _ ih =>
    refine .same d fun c hc => ?_
    have hself : List.Forall₂ (p.Admits) args args := List.forall₂_same.2 ih
    exact List.forall₂_zip hself hc
  | definition d => exact .definition d
  | typeVar v => exact .typeVar v _
  | union _ ih => exact .each fun u hu => .inSome hu (ih u hu)
  | unknown => exact .unknown _

/-! ## The acceptance of comparable types -/

section
variable (compatible : NodeId → NodeId → Typing Bool) {E : Ty → Prop}

theorem tells_acceptsEachBy
    (h : ∀ u ∈ members, (p.acceptsBy compatible t u).Tells (E u)) :
    (p.acceptsEachBy compatible t members).Tells (∀ u ∈ members, E u) := by
  induction members with
  | nil =>
    unfold acceptsEachBy
    exact Typing.tells_pure (by simp)
  | cons u members ih =>
    rw [List.forall_mem_cons] at h ⊢
    unfold acceptsEachBy
    exact h.1.and (ih h.2)

theorem tells_acceptsInSomeBy
    (h : ∀ u ∈ members, (p.acceptsBy compatible u t).Tells (E u)) :
    (p.acceptsInSomeBy compatible members t).Tells (∃ u ∈ members, E u) := by
  induction members with
  | nil =>
    unfold acceptsInSomeBy
    exact Typing.tells_pure (by simp)
  | cons u members ih =>
    rw [List.forall_mem_cons] at h
    rw [List.exists_mem_cons_iff]
    unfold acceptsInSomeBy
    exact h.1.or (ih h.2)

/-- What is not known is accepted by everything but `never`. -/
theorem tells_unknown (ht : t.Comparable) :
    (p.acceptsBy compatible t .unknown).Tells (p.Admits t .unknown) := by
  cases ht <;> unfold acceptsBy <;> exact Typing.tells_pure (iff_of_true rfl (.ofUnknown _))

/-- A union is accepted if its members are. -/
theorem tells_union (ht : t.Comparable)
    (h : ∀ u ∈ members, (p.acceptsBy compatible t u).Tells (p.Admits t u)) :
    (p.acceptsBy compatible t (.union members)).Tells (p.Admits t (.union members)) := by
  have heach := tells_acceptsEachBy compatible h
  rw [← admits_union_iff] at heach
  cases ht with
  | unknown =>
    unfold acceptsBy
    exact Typing.tells_pure (iff_of_true rfl (.unknown _))
  | typeVar v =>
    unfold acceptsBy
    exact Typing.tells_pure (iff_of_true rfl (.typeVar v _))
  | _ =>
    unfold acceptsBy
    exact heach

/-- **Acceptance of comparable types** asks nothing, and is the relation. -/
theorem acceptsBy_comparable (ht : t.Comparable) (hu : u.Comparable) :
    (p.acceptsBy compatible t u).Tells (p.Admits t u) := by
  induction ht generalizing u with
  | unknown =>
    unfold acceptsBy
    exact Typing.tells_pure (iff_of_true rfl (.unknown u))
  | typeVar v =>
    cases hu <;> unfold acceptsBy <;> exact Typing.tells_pure (iff_of_true rfl (.typeVar v _))
  | primitive q =>
    induction hu with
    | unknown => exact tells_unknown compatible (.primitive q)
    | union _ ih => exact tells_union compatible (.primitive q) ih
    | primitive r =>
      unfold acceptsBy
      refine Typing.tells_pure ?_
      rw [decide_eq_true_iff]
      exact ⟨by rintro rfl; exact .primitive q, by rintro ⟨⟩; rfl⟩
    | _ =>
      unfold acceptsBy
      exact Typing.tells_pure (iff_of_false nofun nofun)
  | definition d =>
    induction hu with
    | unknown => exact tells_unknown compatible (.definition d)
    | union _ ih => exact tells_union compatible (.definition d) ih
    | definition e =>
      unfold acceptsBy
      refine Typing.tells_pure ?_
      rw [decide_eq_true_iff]
      exact ⟨by rintro rfl; exact .definition d, by rintro ⟨⟩; rfl⟩
    | _ =>
      unfold acceptsBy
      exact Typing.tells_pure (iff_of_false nofun nofun)
  | @instanceOf d as has ih =>
    induction hu with
    | unknown => exact tells_unknown compatible (.instanceOf d has)
    | union _ ih' => exact tells_union compatible (.instanceOf d has) ih'
    | @instanceOf e bs hbs _ =>
      unfold acceptsBy
      by_cases hde : d = e
      · subst hde
        rw [if_pos rfl]
        refine (tells_acceptsPairsBy compatible fun c hc => ?_).congr ⟨.same d, fun h => ?_⟩
        · exact ih c.1 (List.of_mem_zip hc).1 (hbs c.2 (List.of_mem_zip hc).2)
        · cases h with
          | same _ h => exact h
          | implements _ _ hne _ => exact absurd rfl hne
      · rw [if_neg hde]
        refine Typing.tells_pure ⟨.implements as bs hde, fun h => ?_⟩
        cases h with
        | same => exact absurd rfl hde
        | implements _ _ _ h => exact h
    | _ =>
      unfold acceptsBy
      exact Typing.tells_pure (iff_of_false nofun nofun)
  | @union members hmembers ih =>
    -- A type that is no union itself is looked for among the members.
    have hsome {u : Ty} (hu : u.Comparable) (hadmits : p.Admits (.union members) u →
        ∃ v ∈ members, p.Admits v u) :
        (p.acceptsInSomeBy compatible members u).Tells (p.Admits (.union members) u) :=
      (tells_acceptsInSomeBy compatible fun v hv => ih v hv hu).congr
        ⟨fun ⟨_, hv, h⟩ => .inSome hv h, hadmits⟩
    induction hu with
    | unknown => exact tells_unknown compatible (.union hmembers)
    | union _ ih' => exact tells_union compatible (.union hmembers) ih'
    | _ =>
      unfold acceptsBy
      refine hsome (by constructor <;> assumption) fun h => ?_
      cases h with
      | inSome hv h => exact ⟨_, hv, h⟩

end

/-! ## The least type that accepts two -/

/-- In a context, the first of two types accepts the second. -/
def Allows (p : Program) (m : Memo) (t u : Ty) : Prop := (p.accepts t u m).1 = true

/-- In a context, each of two types accepts the other. -/
def Interchangeable (p : Program) (m : Memo) (t u : Ty) : Prop := p.Allows m t u ∧ p.Allows m u t

/-- In a context, what covers two types is their least upper bound, so that up to mutual
    acceptance the order of what is covered does not matter, nor how often it is named. -/
structure Joins (p : Program) (m : Memo) (a b c : Ty) : Prop where
  refl : p.Allows m a a
  left : p.Allows m (Ty.cover a b) a
  right : p.Allows m (Ty.cover a b) b
  least : p.Allows m c (Ty.cover a b) ↔ p.Allows m c a ∧ p.Allows m c b
  comm : p.Interchangeable m (Ty.cover a b) (Ty.cover b a)
  assoc : p.Interchangeable m (Ty.cover (Ty.cover a b) c) (Ty.cover a (Ty.cover b c))
  idem : p.Interchangeable m (Ty.cover a a) a

theorem allows_iff (ht : t.Comparable) (hu : u.Comparable) (m : Memo) :
    p.Allows m t u ↔ p.Admits t u := by
  obtain ⟨b, hb, hiff⟩ := acceptsBy_comparable (p := p) p.functionsCompatible ht hu
  rw [← hiff, Allows, accepts, hb]
  rfl

/-- What covers two types accepts both. -/
theorem admits_cover (ha : a.Comparable) (hb : b.Comparable) :
    p.Admits (Ty.cover a b) a ∧ p.Admits (Ty.cover a b) b :=
  admits_cover_iff.1 (.refl (ha.cover hb))

/-- **What covers two types is their least upper bound.** -/
theorem joins_of_comparable (p : Program) (m : Memo) (ha : a.Comparable) (hb : b.Comparable)
    (hc : c.Comparable) : p.Joins m a b c := by
  have hab := ha.cover hb
  have hba := hb.cover ha
  have hbc := hb.cover hc
  obtain ⟨hleft, hright⟩ := admits_cover (p := p) ha hb
  constructor
  · exact (allows_iff ha ha m).2 (.refl ha)
  · exact (allows_iff hab ha m).2 hleft
  · exact (allows_iff hab hb m).2 hright
  · rw [allows_iff hc hab, allows_iff hc ha, allows_iff hc hb]
    exact admits_cover_iff
  · obtain ⟨hleft', hright'⟩ := admits_cover (p := p) hb ha
    exact ⟨(allows_iff hab hba m).2 (admits_cover_iff.2 ⟨hright, hleft⟩),
      (allows_iff hba hab m).2 (admits_cover_iff.2 ⟨hright', hleft'⟩)⟩
  · -- Both sides accept each of the three types, so they accept what covers them in any order.
    have hinner := hab.cover hc
    have houter := ha.cover hbc
    obtain ⟨hboth, hthird⟩ := admits_cover (p := p) hab hc
    obtain ⟨hfirst, hboth'⟩ := admits_cover (p := p) ha hbc
    obtain ⟨hfirst', hsecond⟩ := admits_cover_iff.1 hboth
    obtain ⟨hsecond', hthird'⟩ := admits_cover_iff.1 hboth'
    exact ⟨(allows_iff hinner houter m).2
        (admits_cover_iff.2 ⟨hfirst', admits_cover_iff.2 ⟨hsecond, hthird⟩⟩),
      (allows_iff houter hinner m).2
        (admits_cover_iff.2 ⟨admits_cover_iff.2 ⟨hfirst, hsecond'⟩, hthird'⟩)⟩
  · have haa := ha.cover ha
    exact ⟨(allows_iff haa ha m).2 (admits_cover (p := p) ha ha).1,
      (allows_iff ha haa m).2 (admits_cover_iff.2 ⟨.refl ha, .refl ha⟩)⟩

/-- A union inside a union, with a type variable, a structure whose argument is a union, and a
    structure that implements it. -/
theorem joins_nested :
    let a := Ty.union [.union [.typeVar ⟨7⟩, .primitive .number],
      .instanceOf ⟨110⟩ [.union [.primitive .text, .unknown]]]
    let b := Ty.union [.primitive .number, .instances ⟨114⟩]
    let c := Ty.instances ⟨110⟩
    (a.Comparable ∧ b.Comparable ∧ c.Comparable) ∧ takers.Joins .empty a b c := by
  intro a b c
  have hnumber : (Ty.primitive .number).Comparable := .primitive _
  have hinstances (d : NodeId) : (Ty.instances d).Comparable := .instanceOf d (by simp)
  have ha : a.Comparable := by
    have hvar : (Ty.union [.typeVar ⟨7⟩, .primitive .number]).Comparable :=
      .union (by simp [hnumber, Ty.Comparable.typeVar])
    have htext : (Ty.union [.primitive .text, .unknown]).Comparable :=
      .union (by simp [Ty.Comparable.primitive, Ty.Comparable.unknown])
    exact .union (by simp [hvar, Ty.Comparable.instanceOf, htext])
  have hb : b.Comparable := .union (by simp [hnumber, hinstances])
  have hc : c.Comparable := hinstances _
  exact ⟨⟨ha, hb, hc⟩, joins_of_comparable takers .empty ha hb hc⟩

end Program

end Arbor
