/-
  The search for interfaces.

  `Chain n x y` is a chain of `n` links from a structure to another, each link an interface that
  the structure before it declares.

  * Whatever the search lists, it lists once, and it is another structure at the end of a chain
    of at least one and at most `maxInterfaceDepth` links (`interfaces_nodup`,
    `chain_of_mem_interfaces`).
  * The search marks a structure where it first meets it, also at the last link, from where it
    does not go on.  So it finds everything only where no chain of different structures is
    longer than that (`Shallow`): `mem_interfaces_iff`, `implements_iff`.
-/
import Arbor.Proofs.Program.Needs

namespace Arbor

namespace Program

variable (p : Program)

/-- A chain of links from a structure to another. -/
inductive Chain : Nat → NodeId → NodeId → Prop
  | nil (x : NodeId) : Chain 0 x x
  | cons {n : Nat} {x y z : NodeId} :
      y ∈ p.directInterfaces x → Chain n y z → Chain (n + 1) x z

/-- Different structures, each an interface that the next one declares. -/
structure Climb (ys : List NodeId) : Prop where
  linked : ys.IsChain fun y x => y ∈ p.directInterfaces x
  nodup : ys.Nodup

/-- No chain of different structures from this one is too long to be searched. -/
def Shallow (x : NodeId) : Prop :=
  ∀ ys : List NodeId, p.Climb (ys ++ [x]) → ys.length ≤ maxInterfaceDepth

variable {p} {x y z i : NodeId} {links : Nat} {found : List NodeId}

/-! ## What the search adds -/

/-- One turn of the search: the interface is skipped, or it is marked and searched. -/
theorem searchInterfaces_succ :
    p.searchInterfaces (links + 1) found x =
      (p.directInterfaces x).foldl
        (fun found i => if i ∈ found then found
          else p.searchInterfaces links (found ++ [i]) i) found := by
  rw [searchInterfaces]

/-- The search only adds, what it adds is at the end of a short chain, and it adds nothing
    twice. -/
structure Adds (links : Nat) (x : NodeId) (found found' : List NodeId) : Prop where
  grows : found <+: found'
  chain : ∀ i ∈ found', i ∈ found ∨ ∃ n, 1 ≤ n ∧ n ≤ links ∧ p.Chain n x i
  nodup : found.Nodup → found'.Nodup

theorem adds_searchInterfaces :
    p.Adds links x found (p.searchInterfaces links found x) := by
  induction links generalizing x found with
  | zero => exact ⟨List.prefix_rfl, fun _ hi => .inl hi, id⟩
  | succ links ih =>
    rw [searchInterfaces_succ]
    refine List.foldlRecOn (motive := p.Adds (links + 1) x found) _ _
      ⟨List.prefix_rfl, fun _ hi => .inl hi, id⟩ fun now hnow i hi => ?_
    split
    · exact hnow
    next hfresh =>
    have hsearch : p.Adds links i (now ++ [i]) (p.searchInterfaces links (now ++ [i]) i) := ih
    refine ⟨hnow.grows.trans ((List.prefix_append _ _).trans hsearch.grows), fun z hz => ?_,
      fun hnodup => hsearch.nodup ?_⟩
    · rcases hsearch.chain z hz with hz | ⟨n, hn, hlinks, hz⟩
      · rcases List.mem_append.1 hz with hz | hz
        · exact hnow.chain z hz
        · obtain rfl := List.mem_singleton.1 hz
          exact .inr ⟨1, le_rfl, Nat.le_add_left _ _, .cons hi (.nil z)⟩
      · exact .inr ⟨n + 1, Nat.le_add_left _ _, Nat.succ_le_succ hlinks, .cons hi hz⟩
    · exact (hnow.nodup hnodup).append (List.nodup_singleton i) (by simpa using hfresh)

/-- The search lists the structure that it begins at, and then its interfaces. -/
theorem searchInterfaces_eq_cons :
    p.searchInterfaces maxInterfaceDepth [x] x = x :: p.interfaces x := by
  have hgrows : [x] <+: p.searchInterfaces maxInterfaceDepth [x] x := adds_searchInterfaces.grows
  obtain ⟨ys, hys⟩ := hgrows
  rw [interfaces, ← hys]
  simp

theorem interfaces_nodup (x : NodeId) : (p.interfaces x).Nodup ∧ x ∉ p.interfaces x := by
  have h : (p.searchInterfaces maxInterfaceDepth [x] x).Nodup :=
    adds_searchInterfaces.nodup (List.nodup_singleton x)
  rw [searchInterfaces_eq_cons, List.nodup_cons] at h
  exact h.symm

theorem chain_of_mem_interfaces (h : i ∈ p.interfaces x) :
    i ≠ x ∧ ∃ n, 1 ≤ n ∧ n ≤ maxInterfaceDepth ∧ p.Chain n x i := by
  have hne : i ≠ x := fun e => (interfaces_nodup x).2 (e ▸ h)
  have hmem : i ∈ p.searchInterfaces maxInterfaceDepth [x] x := by
    rw [searchInterfaces_eq_cons]
    exact List.mem_cons_of_mem _ h
  rcases adds_searchInterfaces.chain i hmem with hi | hi
  · exact absurd (List.mem_singleton.1 hi) hne
  · exact ⟨hne, hi⟩

/-! ## What the search finds -/

/-- Everything that the search adds is searched, as is the structure that it begins at. -/
structure Expands (x : NodeId) (found found' : List NodeId) : Prop where
  self : ∀ i ∈ p.directInterfaces x, i ∈ found'
  added : ∀ y ∈ found', y ∉ found → ∀ i ∈ p.directInterfaces y, i ∈ found'

/-- One turn after the other: whatever a search for one structure expands, the searches for
    several do. -/
theorem expands_foldl (search : List NodeId → NodeId → List NodeId) {ds now : List NodeId}
    (hgrows : ∀ now d, now <+: search now d)
    (hsearch : ∀ now, (∀ y ∈ found, y ∈ now) → ∀ d ∈ ds, d ∉ now →
      p.Expands d (now ++ [d]) (search (now ++ [d]) d))
    (hnow : ∀ y ∈ found, y ∈ now)
    (hadded : ∀ y ∈ now, y ∉ found → ∀ i ∈ p.directInterfaces y, i ∈ now) :
    let found' := ds.foldl (fun now d => if d ∈ now then now else search (now ++ [d]) d) now
    now ⊆ found' ∧ ds ⊆ found' ∧
      ∀ y ∈ found', y ∉ found → ∀ i ∈ p.directInterfaces y, i ∈ found' := by
  induction ds generalizing now with
  | nil => exact ⟨fun _ hy => hy, by simp, hadded⟩
  | cons d ds ih =>
    rw [List.foldl_cons]
    have hsearch' := fun now hnow i hi => hsearch now hnow i (List.mem_cons_of_mem _ hi)
    split
    · next hmet =>
      obtain ⟨hkeep, hall, hexp⟩ := ih hsearch' hnow hadded
      exact ⟨hkeep, List.cons_subset.2 ⟨hkeep hmet, hall⟩, hexp⟩
    · next hfresh =>
      have hd := hsearch now hnow d List.mem_cons_self hfresh
      have hkept : now ++ [d] ⊆ search (now ++ [d]) d := (hgrows _ d).subset
      have hold : now ⊆ search (now ++ [d]) d := fun y hy => hkept (List.mem_append_left _ hy)
      have hadded' : ∀ y ∈ search (now ++ [d]) d, y ∉ found →
          ∀ i ∈ p.directInterfaces y, i ∈ search (now ++ [d]) d := by
        intro y hy hno i hi
        by_cases hbefore : y ∈ now ++ [d]
        · rcases List.mem_append.1 hbefore with hbefore | hbefore
          · exact hold (hadded y hbefore hno i hi)
          · obtain rfl := List.mem_singleton.1 hbefore
            exact hd.self i hi
        · exact hd.added y hy hbefore i hi
      obtain ⟨hkeep, hall, hexp⟩ := ih hsearch' (fun y hy => hold (hnow y hy)) hadded'
      exact ⟨fun y hy => hkeep (hold hy), List.cons_subset.2 ⟨hkeep (hkept (by simp)), hall⟩, hexp⟩

/-- The search expands everything that it meets, if the chain that it is on cannot be climbed
    beyond the last link. -/
theorem expands_searchInterfaces {top : NodeId} (htop : p.Shallow top) {stack : List NodeId}
    (hclimb : p.Climb (x :: stack)) (hlast : (x :: stack).getLast? = some top)
    (hlinks : links + stack.length = maxInterfaceDepth) (hfound : ∀ y ∈ x :: stack, y ∈ found) :
    p.Expands x found (p.searchInterfaces links found x) := by
  induction links generalizing x stack found with
  | zero =>
    -- one more structure on top of the stack would be too many, so there is none
    refine ⟨fun i hi => hfound i ?_, fun y hy hno => absurd hy hno⟩
    by_contra hfresh
    have hup : p.Climb (i :: x :: stack) :=
      ⟨.cons_cons hi hclimb.linked, List.nodup_cons.2 ⟨hfresh, hclimb.nodup⟩⟩
    obtain ⟨ys, hys⟩ := List.getLast?_eq_some_iff.1 hlast
    have hlen := congrArg List.length hys
    rw [List.length_cons, List.length_append, List.length_singleton] at hlen
    rw [hys, ← List.cons_append] at hup
    have hshort := htop _ hup
    rw [List.length_cons] at hshort
    omega
  | succ links ih =>
    rw [searchInterfaces_succ]
    have hsearch : ∀ now, (∀ y ∈ found, y ∈ now) → ∀ d ∈ p.directInterfaces x, d ∉ now →
        p.Expands d (now ++ [d]) (p.searchInterfaces links (now ++ [d]) d) := by
      intro now hnow d hd hfresh
      have hstack : d ∉ x :: stack := fun h => hfresh (hnow d (hfound d h))
      have hclimb : p.Climb (d :: x :: stack) :=
        ⟨.cons_cons hd hclimb.linked, List.nodup_cons.2 ⟨hstack, hclimb.nodup⟩⟩
      refine ih hclimb (by rw [List.getLast?_cons_cons, hlast])
        (by rw [List.length_cons]; omega) fun y hy => ?_
      rcases List.mem_cons.1 hy with rfl | hy
      · simp
      · exact List.mem_append_left _ (hnow y (hfound y hy))
    obtain ⟨-, hall, hexp⟩ := expands_foldl (p.searchInterfaces links)
      (fun _ _ => adds_searchInterfaces.grows) hsearch
      (fun _ hy => hy) (fun y hy hno => absurd hy hno)
    exact ⟨fun i hi => hall hi, hexp⟩

/-- Where no chain of different structures is too long, every structure at the end of a chain
    is met. -/
theorem mem_searchInterfaces_of_chain (hx : p.Shallow x) {n : Nat} (h : p.Chain n x z) :
    z ∈ p.searchInterfaces maxInterfaceDepth [x] x := by
  have hclimb : p.Climb [x] := ⟨List.isChain_singleton x, List.nodup_singleton x⟩
  have hexp : p.Expands x [x] (p.searchInterfaces maxInterfaceDepth [x] x) :=
    expands_searchInterfaces hx hclimb rfl rfl (by simp)
  have hclosed : ∀ y ∈ p.searchInterfaces maxInterfaceDepth [x] x,
      ∀ i ∈ p.directInterfaces y, i ∈ p.searchInterfaces maxInterfaceDepth [x] x := by
    intro y hy
    by_cases hyx : y ∈ [x]
    · obtain rfl := List.mem_singleton.1 hyx
      exact hexp.self
    · exact hexp.added y hy hyx
  have onward {n : Nat} {y z : NodeId} (h : p.Chain n y z) :
      y ∈ p.searchInterfaces maxInterfaceDepth [x] x →
        z ∈ p.searchInterfaces maxInterfaceDepth [x] x := by
    induction h with
    | nil => exact id
    | cons hlink _ ih => exact fun hy => ih (hclosed _ hy _ hlink)
  refine onward h ?_
  rw [searchInterfaces_eq_cons]
  exact List.mem_cons_self

/-- Where no chain of different structures is too long, the interfaces of a structure are the
    other structures at the end of its chains. -/
theorem mem_interfaces_iff (hx : p.Shallow x) :
    i ∈ p.interfaces x ↔
      i ≠ x ∧ ∃ n, 1 ≤ n ∧ n ≤ maxInterfaceDepth ∧ p.Chain n x i := by
  refine ⟨chain_of_mem_interfaces, ?_⟩
  rintro ⟨hne, n, -, -, h⟩
  have hmem := mem_searchInterfaces_of_chain hx h
  rw [searchInterfaces_eq_cons] at hmem
  exact (List.mem_cons.1 hmem).resolve_left hne

theorem implements_iff (hx : p.Shallow x) :
    p.implements x i = true ↔ i = x ∨ ∃ n, 1 ≤ n ∧ n ≤ maxInterfaceDepth ∧ p.Chain n x i := by
  rw [implements, Bool.or_eq_true, beq_iff_eq, decide_eq_true_iff, mem_interfaces_iff hx,
    eq_comm (a := x)]
  by_cases hi : i = x <;> simp [hi]

end Program

end Arbor
