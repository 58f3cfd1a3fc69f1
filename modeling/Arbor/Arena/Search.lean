/-
  Searches in child lists.

  They read the list storage in place and stop at the first hit, so that a
  search in a long list costs no more than the items before the hit.

  Main statements: `placeIn?_eq`, `findIn?_eq` and `findBefore?_eq`, what the
  searches find in the child list as a list.
-/
import Arbor.Arena.Basic
import Arbor.Place

namespace Arbor.Arena

variable {β : Type} (a : Arena) (r : NodeRange)

/-- Whether a child list is all in storage. -/
def hasList : Bool := r.start + r.len ≤ a.lists.size

/-- The place of an id in a child list. -/
def placeIn? (id : NodeId) : Option Nat :=
  if a.hasList r then (nextPlace? a.lists (· == id) r.len r.start).map (· - r.start) else none

/-- The first answer of `f` in a child list. -/
def findIn? (f : NodeId → Option β) : Option β :=
  if a.hasList r then findNext? a.lists f r.len r.start else none

/-- The last answer of `f` before a place of a child list. -/
def findBefore? (place : Nat) (f : NodeId → Option β) : Option β :=
  if a.hasList r then findLast? a.lists f r.start (min place r.len) else none

/-! ## Searches and lists -/

theorem list_eq_part (h : a.hasList r) : a.list r = part a.lists r.start r.len := by
  have h' : r.start + r.len ≤ a.lists.size := by simpa [hasList] using h
  rw [list, if_pos h', Array.toList_extract, List.extract_eq_take_drop, Nat.add_sub_cancel_left]
  rfl

theorem list_eq_nil (h : ¬a.hasList r) : a.list r = [] := by
  have h' : ¬r.start + r.len ≤ a.lists.size := by simpa [hasList] using h
  rw [list, if_neg h']

theorem placeIn?_eq (id : NodeId) : a.placeIn? r id = (a.list r).idxOf? id := by
  unfold placeIn?
  split
  · next h =>
    rw [a.list_eq_part r h, nextPlace?_eq _ _ (by simpa [hasList] using h), Option.map_map]
    simp [Function.comp_def, List.idxOf?]
  · next h => rw [a.list_eq_nil r h]; rfl

theorem findIn?_eq (f : NodeId → Option β) : a.findIn? r f = (a.list r).findSome? f := by
  unfold findIn?
  split
  · next h => rw [a.list_eq_part r h, findNext?_eq _ _ (by simpa [hasList] using h)]
  · next h => rw [a.list_eq_nil r h]; rfl

theorem findBefore?_eq (place : Nat) (f : NodeId → Option β) :
    a.findBefore? r place f = ((a.list r).take place).reverse.findSome? f := by
  unfold findBefore?
  split
  · next h =>
    have h' : r.start + r.len ≤ a.lists.size := by simpa [hasList] using h
    rw [a.list_eq_part r h, findLast?_eq _ _ (by omega), part, part, List.take_take]
  · next h => rw [a.list_eq_nil r h]; simp

end Arbor.Arena
