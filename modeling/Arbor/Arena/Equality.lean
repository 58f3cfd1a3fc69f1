/-
  Structural equality.

  Two subtrees are structurally equal when they have the same kinds, the same
  shape and the same data (names, operators, literals), however their nodes are
  numbered and shared.

  Main statement: `structurallyEqual_eq`, the recursion that structural equality
  solves on an acyclic arena.
-/
import Arbor.Arena.Descent

namespace Arbor

namespace Node

/-- The node without its children: its kind and its data. -/
def bare (n : Node) : Node :=
  n.withSlots <| n.slots.map fun
    | .one _ => .one .invalid
    | .optional c => .optional (c.map fun _ => .invalid)
    | .list _ => .list .empty

end Node

namespace Arena

/-- Pairs up the children of two lists of slots, if they have the same shape. -/
def pairChildren (a : Arena) : List Child → List Child → Option (List (NodeId × NodeId))
  | [], [] => some []
  | l :: ls, r :: rs =>
    if l.sameShape r && (a.ofSlot l).length == (a.ofSlot r).length then
      (a.pairChildren ls rs).map ((a.ofSlot l).zip (a.ofSlot r) ++ ·)
    else
      none
  | _, _ => none

/-- The pairs of children in the same places, if the two nodes have the same
    kind, data and shape. -/
def matchNodes (a : Arena) (l r : Node) : Option (List (NodeId × NodeId)) :=
  if l.bare = r.bare then a.pairChildren l.slots r.slots else none

/-- Whether two nodes are the same or have the same kind, data and shape, and
    equal children.  The last children are compared first. -/
def equalNodes (a : Arena) (equal : NodeId × NodeId → Bool) : NodeId × NodeId → Bool
  | (l, r) =>
    l == r ||
      match a.node? l, a.node? r with
      | some m, some n =>
        match a.matchNodes m n with
        | some pairs => pairs.reverse.all equal
        | none => false
      | _, _ => false

/-- Whether two subtrees have the same shape and data.  A path on which both
    sides come back to where they were shows no difference. -/
def structurallyEqual (a : Arena) (l r : NodeId) : Bool :=
  unroll true a.equalNodes ((a.size + 1) * (a.size + 1)) (l, r)

/-! ## Equality as a recursion -/

variable {a : Arena}

theorem fst_mem_of_pairChildren {ls rs : List Child} {pairs : List (NodeId × NodeId)}
    (h : a.pairChildren ls rs = some pairs) {q : NodeId × NodeId} (hq : q ∈ pairs) :
    q.1 ∈ ls.flatMap a.ofSlot := by
  induction ls generalizing rs pairs with
  | nil => cases rs <;> simp_all [pairChildren]
  | cons l ls ih =>
    cases rs with
    | nil => simp [pairChildren] at h
    | cons r rs =>
      unfold pairChildren at h
      split at h
      · obtain ⟨rest, hrest, rfl⟩ := Option.map_eq_some_iff.1 h
        rw [List.flatMap_cons, List.mem_append]
        rcases List.mem_append.1 hq with hq | hq
        · exact .inl (List.of_mem_zip (a := q.1) (b := q.2) hq).1
        · exact .inr (ih hrest hq)
      · cases h

theorem fst_mem_of_matchNodes {m n : Node} {pairs : List (NodeId × NodeId)}
    (h : a.matchNodes m n = some pairs) {q : NodeId × NodeId} (hq : q ∈ pairs) :
    q.1 ∈ a.childrenOf m := by
  unfold matchNodes at h
  split at h
  · exact fst_mem_of_pairChildren h hq
  · cases h

theorem structurallyEqual_eq (h : a.Acyclic) (l r : NodeId) :
    a.structurallyEqual l r = (l == r ||
      match a.node? l, a.node? r with
      | some m, some n =>
        match a.matchNodes m n with
        | some pairs => pairs.all fun (c, d) => a.structurallyEqual c d
        | none => false
      | _, _ => false) := by
  obtain ⟨rank, hrank, hle⟩ := h.exists_rank_le
  have down : LooksDown a.equalNodes fun q => rank q.1 := by
    intro (l, r) f g hfg
    cases hl : a.node? l with
    | none => simp only [equalNodes, hl]
    | some m =>
      cases hr : a.node? r with
      | none => simp only [equalNodes, hl, hr]
      | some n =>
        cases hp : a.matchNodes m n with
        | none => simp only [equalNodes, hl, hr, hp]
        | some pairs =>
          have below : ∀ q ∈ pairs, f q = g q := fun q hq => hfg q <| hrank l q.1 <| by
            simpa [children, hl] using fst_mem_of_matchNodes hp hq
          have : pairs.all f = pairs.all g := by grind
          simp only [equalNodes, hl, hr, hp, List.all_reverse, this]
  have deep : rank l < (a.size + 1) * (a.size + 1) :=
    Nat.lt_of_lt_of_le (Nat.lt_succ_of_le (hle l)) (Nat.le_mul_of_pos_left _ (Nat.succ_pos _))
  unfold structurallyEqual
  rw [unroll_eq down deep]
  simp only [equalNodes, List.all_reverse]

end Arena

end Arbor
