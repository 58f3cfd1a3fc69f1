/-
  Searches in a part of an array.

  A search looks at the items of the part one after another and stops at the
  first hit; it does not make a list of the part.

  * `nextPlace?` finds a place, `findNext?` and `findLast?` the answer of a
    function, searching forwards or backwards;
  * `nextPlace?_eq`, `findNext?_eq` and `findLast?_eq`: they find what is found
    in the list of the items, `part`.
-/

namespace Arbor

variable {α β : Type}

/-- The `count` items from place `i` on. -/
def part (xs : Array α) (i count : Nat) : List α := (xs.toList.drop i).take count

/-- The first of the `count` places from `i` on whose item has a property. -/
def nextPlace? (xs : Array α) (q : α → Bool) : (count i : Nat) → Option Nat
  | 0, _ => none
  | count + 1, i => if xs[i]?.any q then some i else nextPlace? xs q count (i + 1)

/-- The first answer of `f` at the `count` places from `i` on. -/
def findNext? (xs : Array α) (f : α → Option β) : (count i : Nat) → Option β
  | 0, _ => none
  | count + 1, i =>
    match xs[i]?.bind f with
    | some b => some b
    | none => findNext? xs f count (i + 1)

/-- The last answer of `f` at the `count` places from `i` on. -/
def findLast? (xs : Array α) (f : α → Option β) (i : Nat) : (count : Nat) → Option β
  | 0 => none
  | count + 1 =>
    match xs[i + count]?.bind f with
    | some b => some b
    | none => findLast? xs f i count

/-! ## Searches and lists -/

theorem part_succ {xs : Array α} {i : Nat} (h : i < xs.size) (count : Nat) :
    part xs i (count + 1) = xs[i] :: part xs (i + 1) count := by
  have h' : i < xs.toList.length := h
  unfold part
  rw [List.drop_eq_getElem_cons h', List.take_succ_cons]
  rfl

theorem part_succ_last {xs : Array α} {i count : Nat} (h : i + count < xs.size) :
    part xs i (count + 1) = part xs i count ++ [xs[i + count]] := by
  have h' : count < (xs.toList.drop i).length := by simp; omega
  unfold part
  rw [List.take_succ_eq_append_getElem h', List.getElem_drop]
  rfl

theorem nextPlace?_eq (xs : Array α) (q : α → Bool) {count i : Nat} (h : i + count ≤ xs.size) :
    nextPlace? xs q count i = ((part xs i count).findIdx? q).map (i + ·) := by
  induction count generalizing i with
  | zero => simp [nextPlace?, part]
  | succ count ih =>
    have hi : i < xs.size := by omega
    rw [part_succ hi, List.findIdx?_cons, nextPlace?, Array.getElem?_eq_getElem hi, ih (by omega)]
    simp only [Option.any_some]
    split
    · rfl
    · rw [Option.map_map]
      congr 1
      funext k
      simp only [Function.comp_apply]
      omega

theorem findNext?_eq (xs : Array α) (f : α → Option β) {count i : Nat} (h : i + count ≤ xs.size) :
    findNext? xs f count i = (part xs i count).findSome? f := by
  induction count generalizing i with
  | zero => simp [findNext?, part]
  | succ count ih =>
    have hi : i < xs.size := by omega
    rw [part_succ hi, List.findSome?_cons, findNext?, Array.getElem?_eq_getElem hi, ih (by omega)]
    rfl

theorem findLast?_eq (xs : Array α) (f : α → Option β) {i count : Nat} (h : i + count ≤ xs.size) :
    findLast? xs f i count = (part xs i count).reverse.findSome? f := by
  induction count with
  | zero => simp [findLast?, part]
  | succ count ih =>
    have hi : i + count < xs.size := by omega
    rw [part_succ_last hi, List.reverse_append, List.reverse_singleton, List.singleton_append,
      List.findSome?_cons, findLast?, Array.getElem?_eq_getElem hi, ih (by omega)]
    rfl

end Arbor
