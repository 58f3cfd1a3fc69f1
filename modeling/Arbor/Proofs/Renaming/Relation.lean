/-
  Relations between lists and options.

  Functions that only look at what a relation keeps give related results: the lemmas of
  this module say it for the searches in lists that programs are read with.
-/
import Mathlib.Data.List.Forall2

section

open List (Forall₂)
open Relator (BiUnique)

variable {α β γ δ : Type} {S : α → β → Prop} {T : γ → δ → Prop}

theorem Option.Rel.isSome_eq {o : Option α} {o' : Option β} (h : Option.Rel S o o') :
    o.isSome = o'.isSome := by
  cases h <;> rfl

theorem Option.Rel.isNone_eq {o : Option α} {o' : Option β} (h : Option.Rel S o o') :
    o.isNone = o'.isNone := by
  cases h <;> rfl

theorem Option.Rel.eq_none_iff {o : Option α} {o' : Option β} (h : Option.Rel S o o') :
    o = Option.none ↔ o' = Option.none := by
  cases h <;> simp

theorem Option.Rel.mono {S' : α → β → Prop} {o : Option α} {o' : Option β}
    (h : Option.Rel S o o') (hS : ∀ x y, S x y → S' x y) : Option.Rel S' o o' := by
  cases h with
  | none => exact .none
  | some h => exact .some (hS _ _ h)

theorem Option.Rel.bind {o : Option α} {o' : Option β} {f : α → Option γ} {g : β → Option δ}
    (h : Option.Rel S o o') (hfg : ∀ x y, S x y → Option.Rel T (f x) (g y)) :
    Option.Rel T (o.bind f) (o'.bind g) := by
  cases h with
  | none => exact .none
  | some h => exact hfg _ _ h

theorem Option.Rel.map {o : Option α} {o' : Option β} {f : α → γ} {g : β → δ}
    (h : Option.Rel S o o') (hfg : ∀ x y, S x y → T (f x) (g y)) :
    Option.Rel T (o.map f) (o'.map g) := by
  cases h with
  | none => exact .none
  | some h => exact .some (hfg _ _ h)

theorem Option.Rel.getD {o : Option α} {o' : Option β} {x : α} {y : β} (h : Option.Rel S o o')
    (hxy : S x y) : S (o.getD x) (o'.getD y) := by
  cases h with
  | none => exact hxy
  | some h => exact h

theorem Option.Rel.toList {o : Option α} {o' : Option β} (h : Option.Rel S o o') :
    Forall₂ S o.toList o'.toList := by
  cases h with
  | none => exact .nil
  | some h => exact .cons h .nil

theorem Option.Rel.filter {o : Option α} {o' : Option β} {f : α → Bool} {g : β → Bool}
    (h : Option.Rel S o o') (hfg : ∀ x y, S x y → f x = g y) :
    Option.Rel S (o.filter f) (o'.filter g) := by
  cases h with
  | none => exact .none
  | some h =>
    rw [Option.filter_some, Option.filter_some, hfg _ _ h]
    split
    · exact .some h
    · exact .none

theorem Option.Rel.eq {o o' : Option α} (h : Option.Rel Eq o o') : o = o' := by
  cases h with
  | none => rfl
  | some h => rw [h]

/-- Both fail in related ways, or both give related results. -/
inductive Except.Rel {ε ε' : Type} (E : ε → ε' → Prop) (S : α → β → Prop) :
    Except ε α → Except ε' β → Prop
  | error {e : ε} {e' : ε'} : E e e' → Except.Rel E S (.error e) (.error e')
  | ok {x : α} {y : β} : S x y → Except.Rel E S (.ok x) (.ok y)

/-- Results are equal that are related by what is part of equality. -/
theorem Except.Rel.eq {ε α : Type} {E : ε → ε → Prop} {S : α → α → Prop}
    (hE : ∀ e e', E e e' → e = e') (hS : ∀ x y, S x y → x = y) {r r' : Except ε α}
    (h : Except.Rel E S r r') : r = r' := by
  cases h with
  | error he => rw [hE _ _ he]
  | ok hx => rw [hS _ _ hx]

namespace List

theorem rel_findSome? {f : α → Option γ} {g : β → Option δ} {xs : List α} {ys : List β}
    (h : Forall₂ S xs ys) (hfg : ∀ x y, S x y → Option.Rel T (f x) (g y)) :
    Option.Rel T (xs.findSome? f) (ys.findSome? g) := by
  induction h with
  | nil => exact .none
  | cons hxy _ ih =>
    rw [List.findSome?_cons, List.findSome?_cons]
    have := hfg _ _ hxy
    revert this
    generalize f _ = o, g _ = o'
    rintro (h | _)
    · exact .some h
    · exact ih

theorem rel_find? {f : α → Bool} {g : β → Bool} {xs : List α} {ys : List β}
    (h : Forall₂ S xs ys) (hfg : ∀ x y, S x y → f x = g y) :
    Option.Rel S (xs.find? f) (ys.find? g) := by
  induction h with
  | nil => exact .none
  | cons hxy _ ih =>
    rw [List.find?_cons, List.find?_cons, hfg _ _ hxy]
    split
    · exact .some hxy
    · exact ih

theorem rel_any {f : α → Bool} {g : β → Bool} {xs : List α} {ys : List β}
    (h : Forall₂ S xs ys) (hfg : ∀ x y, S x y → f x = g y) : xs.any f = ys.any g := by
  induction h with
  | nil => rfl
  | cons hxy _ ih => rw [List.any_cons, List.any_cons, hfg _ _ hxy, ih]

theorem rel_countP {f : α → Bool} {g : β → Bool} {xs : List α} {ys : List β}
    (h : Forall₂ S xs ys) (hfg : ∀ x y, S x y → f x = g y) : xs.countP f = ys.countP g := by
  induction h with
  | nil => rfl
  | cons hxy _ ih => rw [List.countP_cons, List.countP_cons, hfg _ _ hxy, ih]

/-- What is in a list is related to something in the other. -/
theorem rel_exists {xs : List α} {ys : List β} (h : Forall₂ S xs ys) {x : α} (hx : x ∈ xs) :
    ∃ y ∈ ys, S x y := by
  induction h with
  | nil => cases hx
  | cons hxy _ ih =>
    rcases List.mem_cons.1 hx with rfl | hx
    · exact ⟨_, List.mem_cons_self, hxy⟩
    · obtain ⟨y, hy, hs⟩ := ih hx
      exact ⟨y, List.mem_cons_of_mem _ hy, hs⟩

theorem rel_head? {xs : List α} {ys : List β} (h : Forall₂ S xs ys) :
    Option.Rel S xs.head? ys.head? := by
  cases h with
  | nil => exact .none
  | cons h _ => exact .some h

theorem rel_getElem? {xs : List α} {ys : List β} (h : Forall₂ S xs ys) (i : Nat) :
    Option.Rel S xs[i]? ys[i]? := by
  induction h generalizing i with
  | nil => exact .none
  | cons hxy _ ih =>
    cases i with
    | zero => exact .some hxy
    | succ i => exact ih i

theorem rel_getLast? {xs : List α} {ys : List β} (h : Forall₂ S xs ys) :
    Option.Rel S xs.getLast? ys.getLast? := by
  rw [List.getLast?_eq_head?_reverse, List.getLast?_eq_head?_reverse]
  exact rel_head? (List.rel_reverse h)

theorem rel_isEmpty {xs : List α} {ys : List β} (h : Forall₂ S xs ys) :
    xs.isEmpty = ys.isEmpty := by
  cases h <;> rfl

theorem rel_zip {xs : List α} {ys : List β} {us : List γ} {vs : List δ} (h : Forall₂ S xs ys)
    (h' : Forall₂ T us vs) :
    Forall₂ (fun (x : α × γ) (y : β × δ) => S x.1 y.1 ∧ T x.2 y.2) (xs.zip us) (ys.zip vs) := by
  induction h generalizing us vs with
  | nil => exact .nil
  | cons hxy _ ih =>
    cases h' with
    | nil => exact .nil
    | cons huv h' => exact .cons ⟨hxy, huv⟩ (ih h')

theorem rel_zipIdx {xs : List α} {ys : List β} (h : Forall₂ S xs ys) (i : Nat) :
    Forall₂ (fun (x : α × Nat) (y : β × Nat) => S x.1 y.1 ∧ x.2 = y.2) (xs.zipIdx i)
      (ys.zipIdx i) := by
  induction h generalizing i with
  | nil => exact .nil
  | cons hxy _ ih => exact .cons ⟨hxy, rfl⟩ (ih (i + 1))

variable [DecidableEq α] [DecidableEq β]

/-- Related items are in the same places. -/
theorem rel_idxOf? (hS : BiUnique S) {x : α} {y : β} {xs : List α} {ys : List β} (hxy : S x y)
    (h : Forall₂ S xs ys) : xs.idxOf? x = ys.idxOf? y := by
  induction h with
  | nil => rfl
  | @cons a b _ _ hab _ ih =>
    have heq : (a == x) = (b == y) := by
      rw [Bool.eq_iff_iff, beq_iff_eq, beq_iff_eq]
      exact Relator.rel_eq hS hab hxy
    rw [List.idxOf?_cons, List.idxOf?_cons, heq, ih]

theorem rel_erase (hS : BiUnique S) {x : α} {y : β} {xs : List α} {ys : List β} (hxy : S x y)
    (h : Forall₂ S xs ys) : Forall₂ S (xs.erase x) (ys.erase y) := by
  induction h with
  | nil => exact .nil
  | @cons a b _ _ hab h ih =>
    have heq : (a == x) = (b == y) := by
      rw [Bool.eq_iff_iff, beq_iff_eq, beq_iff_eq]
      exact Relator.rel_eq hS hab hxy
    rw [List.erase_cons, List.erase_cons, heq]
    split
    · exact h
    · exact .cons hab ih

/-- A table in a list gives related values to related keys. -/
theorem rel_lookup (hS : BiUnique S) {x : α} {y : β} {us : List (α × γ)} {vs : List (β × δ)}
    (hxy : S x y) (h : Forall₂ (fun (u : α × γ) (v : β × δ) => S u.1 v.1 ∧ T u.2 v.2) us vs) :
    Option.Rel T (us.lookup x) (vs.lookup y) := by
  induction h with
  | nil => exact .none
  | @cons u v _ _ huv _ ih =>
    have heq : (x == u.1) = (y == v.1) := by
      rw [Bool.eq_iff_iff, beq_iff_eq, beq_iff_eq]
      exact Relator.rel_eq hS hxy huv.1
    rw [List.lookup_cons, List.lookup_cons, heq]
    split
    · exact .some huv.2
    · exact ih

end List

end
