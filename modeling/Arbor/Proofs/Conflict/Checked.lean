/-
  Programs without fatal conflicts.

  Every check keeps what is remembered right.  If no fatal conflict is found, then each
  node was checked from a right memo without a fatal conflict (`Clean`).
-/
import Arbor.Proofs.Typing.Inference

namespace Arbor.Program

variable {p : Program}

/-- A check keeps what is remembered right. -/
theorem finds_conflictsOf (id : NodeId) : p.Finds [] (p.conflictsOf id) fun _ => True :=
  (p.compositional_finds []).conflictsOf (fun id => (finds_typeOf id).any) id

/-! ## Clean nodes -/

/-- The node was checked from a right memo without a fatal conflict. -/
def Clean (p : Program) (id : NodeId) : Prop :=
  ∃ m : Memo, m.Right p ∧ m.computing = [] ∧ hasFatal (p.conflictsOf id m).1 = false

/-- What the check of a clean node finds is not fatal. -/
theorem Clean.found {id : NodeId} (h : p.Clean id) {Q : List Conflict → Prop}
    (hq : p.Finds [] (p.conflictsOf id) Q) : ∃ cs, Q cs ∧ hasFatal cs = false := by
  obtain ⟨m, hm, hK, hf⟩ := h
  exact ⟨_, (hq m hm hK).1, hf⟩

theorem hasFatal_append (cs ds : List Conflict) :
    hasFatal (cs ++ ds) = (hasFatal cs || hasFatal ds) := List.any_append

/-- Checks one after another without a fatal conflict leave every node clean. -/
theorem clean_of_mapM {ids : List NodeId} {m : Memo} (hm : m.Right p) (hK : m.computing = [])
    (h : hasFatal ((ids.mapM p.conflictsOf) m).1.flatten = false) : ∀ id ∈ ids, p.Clean id := by
  induction ids generalizing m with
  | nil => intro id hid; cases hid
  | cons a ids ih =>
    rw [List.mapM_cons] at h
    have h : hasFatal ((p.conflictsOf a m).1 ++
        ((ids.mapM p.conflictsOf) (p.conflictsOf a m).2).1.flatten) = false := h
    rw [hasFatal_append, Bool.or_eq_false_iff] at h
    obtain ⟨-, hm', hK'⟩ := finds_conflictsOf a m hm hK
    intro id hid
    rcases List.mem_cons.1 hid with rfl | hid
    · exact ⟨m, hm, hK, h.1⟩
    · exact ih hm' hK' h.2 id hid

/-- **A program without fatal conflicts has only clean nodes**, and its check leaves a
    right memo. -/
theorem clean_of_check {m : Memo} (hm : m.Right p) (hK : m.computing = [])
    (h : hasFatal (p.check m).1 = false) : ∀ id ∈ p.tree.nodes, p.Clean id :=
  clean_of_mapM hm hK h

theorem finds_check : p.Finds [] p.check fun _ => True :=
  (p.compositional_finds []).check fun id => (finds_typeOf id).any

end Arbor.Program
