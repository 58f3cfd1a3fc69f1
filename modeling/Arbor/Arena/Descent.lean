/-
  Descent from a node to the nodes below it.

  A child may be allocated before its parent or after it, so the ids alone do
  not show that a descent ends.  What is asked about a node is given by a step,
  which answers for the node if the answers for its children are known; a
  descent unrolls the step as often as there are nodes on a path.

  * `Closed` says that every child is in the arena, and `Acyclic` that no node
    is below itself;
  * `unroll_eq` and `Arena.descend_eq`: an unrolled step that is deep enough
    solves its own equation, and on an acyclic arena every descent is;
  * `Arena.contains` searches below a node, and `Arena.preorder` lists what is
    below it.
-/
import Arbor.Arena.Basic

namespace Arbor

/-! ## Unrolled steps -/

section
variable {σ τ : Type}

/-- A step unrolled to the given depth, with the answer `cut` below it. -/
def unroll (cut : τ) (step : (σ → τ) → σ → τ) : Nat → σ → τ
  | 0, _ => cut
  | depth + 1, x => step (unroll cut step depth) x

/-- The answer of a step hangs only on the answers at a lower rank. -/
def LooksDown (step : (σ → τ) → σ → τ) (rank : σ → Nat) : Prop :=
  ∀ x f g, (∀ y, rank y < rank x → f y = g y) → step f x = step g x

variable {cut : τ} {step : (σ → τ) → σ → τ} {rank : σ → Nat}

/-- All depths above the rank give the same answer. -/
theorem unroll_congr (h : LooksDown step rank) {d e : Nat} {x : σ} (hd : rank x < d)
    (he : rank x < e) : unroll cut step d x = unroll cut step e x := by
  induction d generalizing e x with
  | zero => omega
  | succ d ih =>
    obtain ⟨e, rfl⟩ : ∃ k, e = k + 1 := ⟨e - 1, by omega⟩
    exact h x _ _ fun y hy => ih (by omega) (by omega)

/-- Deep enough, an unrolled step solves its own equation. -/
theorem unroll_eq (h : LooksDown step rank) {depth : Nat} {x : σ} (hx : rank x < depth) :
    unroll cut step depth x = step (unroll cut step depth) x := by
  obtain ⟨d, rfl⟩ : ∃ k, depth = k + 1 := ⟨depth - 1, by omega⟩
  exact h x _ _ fun y hy => unroll_congr h (by omega) (by omega)

end

namespace Arena

/-! ## Closed and acyclic arenas -/

/-- The children of every node are in the arena. -/
def Closed (a : Arena) : Prop := ∀ id, ∀ c ∈ a.children id, (a.node? c).isSome

/-- No node is below itself, witnessed by a rank that falls from parent to child. -/
def Acyclic (a : Arena) : Prop :=
  ∃ rank : NodeId → Nat, ∀ id, ∀ c ∈ a.children id, rank c < rank id

variable {a : Arena}

/-- An arena in which children are allocated before their parents is acyclic. -/
theorem acyclic_of_lt (h : ∀ id, ∀ c ∈ a.children id, c.raw < id.raw) : a.Acyclic := ⟨_, h⟩

theorem lt_size_of_mem_children {id c : NodeId} (h : c ∈ a.children id) : id.raw < a.size := by
  unfold children at h
  split at h
  · next n hn => exact (Array.getElem?_eq_some_iff.1 hn).1
  · cases h

/-- A stricter test that leaves out an item counts fewer items. -/
theorem countP_lt_countP {α : Type} {p q : α → Bool} {xs : List α} {x : α} (hx : x ∈ xs)
    (hp : p x = false) (hq : q x = true) (h : ∀ y, p y = true → q y = true) :
    xs.countP p < xs.countP q := by
  induction xs with
  | nil => cases hx
  | cons y ys ih =>
    have le : ys.countP p ≤ ys.countP q := List.countP_mono_left fun z _ => h z
    rcases List.mem_cons.1 hx with rfl | hx
    · simp only [List.countP_cons, hp, hq, if_true, Bool.false_eq_true, if_false]
      omega
    · have lt := ih hx
      by_cases hy : p y = true
      · simp only [List.countP_cons, hy, h y hy, if_true]
        omega
      · simp only [List.countP_cons, hy, Bool.false_eq_true, if_false]
        split <;> omega

/-- In an acyclic arena the rank can be taken at most as great as the number of
    nodes: the number of nodes of lower rank, and 0 for an unknown node. -/
theorem Acyclic.exists_rank_le (h : a.Acyclic) : ∃ rank : NodeId → Nat,
    (∀ id, ∀ c ∈ a.children id, rank c < rank id) ∧ ∀ id, rank id ≤ a.size := by
  obtain ⟨rank, hrank⟩ := h
  let lower (id : NodeId) : Nat := (List.range a.size).countP fun j => rank ⟨j⟩ < rank id
  refine ⟨fun id => if id.raw < a.size then lower id + 1 else 0, fun id c hc => ?_, fun id => ?_⟩
  · have lt := hrank id c hc
    simp only [lt_size_of_mem_children hc, if_true]
    split
    · next known =>
      have : lower c < lower id :=
        countP_lt_countP (List.mem_range.2 known) (by simp) (by simpa using lt)
          fun j hj => by simp only [decide_eq_true_eq] at hj ⊢; omega
      omega
    · omega
  · show (if id.raw < a.size then lower id + 1 else 0) ≤ a.size
    split
    · next known =>
      have : lower id < (List.range a.size).countP fun _ => true :=
        countP_lt_countP (List.mem_range.2 known) (by simp) rfl fun _ _ => rfl
      rw [List.countP_true, List.length_range] at this
      omega
    · omega

/-! ## Descent -/

section
variable {τ : Type} {cut : τ} {step : (NodeId → τ) → NodeId → τ}

/-- Unrolls a step along every path below a node that passes no node twice. -/
def descend (a : Arena) (cut : τ) (step : (NodeId → τ) → NodeId → τ) (id : NodeId) : τ :=
  unroll cut step (a.size + 1) id

/-- On an acyclic arena a descent solves the equation of a step that asks only
    about children. -/
theorem descend_eq (h : a.Acyclic)
    (hs : ∀ id f g, (∀ c ∈ a.children id, f c = g c) → step f id = step g id) (id : NodeId) :
    a.descend cut step id = step (a.descend cut step) id := by
  obtain ⟨rank, hrank, hle⟩ := h.exists_rank_le
  have down : LooksDown step rank :=
    fun x f g hfg => hs x f g fun c hc => hfg c (hrank x c hc)
  exact unroll_eq down (Nat.lt_succ_of_le (hle id))

end

/-- Whether `target` is `root` or occurs below it.  The search takes the last
    child first, and so ends on some arenas that are not acyclic. -/
def contains (a : Arena) (root target : NodeId) : Bool :=
  a.descend false (fun found id => id == target || (a.children id).reverse.any found) root

theorem contains_eq (h : a.Acyclic) (root target : NodeId) :
    a.contains root target =
      (root == target || (a.children root).any fun c => a.contains c target) := by
  unfold contains
  rw [descend_eq h, List.any_reverse]
  intro id f g hfg
  have : (a.children id).any f = (a.children id).any g := by grind
  rw [List.any_reverse, List.any_reverse, this]

/-- The nodes below `root` in pre-order, `root` first. -/
def preorder (a : Arena) (root : NodeId) : List NodeId :=
  a.descend [] (fun below id => id :: (a.children id).flatMap below) root

theorem preorder_eq (h : a.Acyclic) (root : NodeId) :
    a.preorder root = root :: (a.children root).flatMap a.preorder := by
  unfold preorder
  rw [descend_eq h]
  intro id f g hfg
  rw [List.flatMap_def, List.flatMap_def, List.map_congr_left hfg]

end Arena

end Arbor
