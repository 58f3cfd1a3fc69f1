/-
  What goes through a queue.

  A queue knows a diagnostic by its code and its first primary node.  A queue without a limit
  accepts the first diagnostic that it would know by each of these, and gives it out.

  * `accepts_iff`, `add_of_accepts`, `add_of_refuses`: what a call of `add` does;
  * `Queue.addAll`: a queue after several diagnostics, each at a position.

  Main statement: `mem_addAll_of_find?`, the first diagnostic of each key is accepted.
-/
import Arbor.Diagnostic.Queue
import Mathlib.Data.List.Basic

namespace Arbor

namespace Queue

variable {q : Queue} {d e : Diagnostic} {position : Nat}

/-- A queue gives out what it has accepted. -/
theorem mem_flush : d ∈ q.flush.1 ↔ d ∈ q.diagnostics :=
  ((List.mergeSort_perm _ _).map Queued.diagnostic).mem_iff

/-! ## One diagnostic -/

theorem accepts_iff : (q.add d position).1 = true ↔
    (d.isError = true → q.limitReached = false) ∧
      (q.config.deduplicate = true → d.key ∉ q.known) := by
  unfold add
  split
  · next h =>
    rw [Bool.and_eq_true] at h
    simp [h.1, h.2]
  · next h =>
    rw [Bool.and_eq_true, not_and, Bool.not_eq_true] at h
    split
    · next hk =>
      rw [Bool.and_eq_true, List.contains_iff_mem] at hk
      simp [hk.1, hk.2]
    · next hk =>
      rw [Bool.and_eq_true, List.contains_iff_mem, not_and] at hk
      exact ⟨fun _ => ⟨h, hk⟩, fun _ => rfl⟩

theorem add_of_accepts (h : (q.add d position).1 = true) :
    (q.add d position).2 = q.push d position := by
  unfold add at h ⊢
  split at h
  · cases h
  · next hl =>
    rw [if_neg hl]
    split at h
    · cases h
    · next hk => rw [if_neg hk]

theorem add_of_refuses (h : (q.add d position).1 = false) : (q.add d position).2 = q := by
  unfold add at h ⊢
  split
  · rfl
  · next hl =>
    rw [if_neg hl] at h
    split
    · rfl
    · next hk =>
      rw [if_neg hk] at h
      cases h

@[simp] theorem config_add : (q.add d position).2.config = q.config := by
  cases h : (q.add d position).1 with
  | false => rw [add_of_refuses h]
  | true =>
    rw [add_of_accepts h]
    rfl

theorem diagnostics_push : (q.push d position).diagnostics = q.diagnostics ++ [d] :=
  List.map_append

/-- What was accepted stays, and only the diagnostic that is added may be new. -/
theorem mem_add : e ∈ (q.add d position).2.diagnostics ↔
    e ∈ q.diagnostics ∨ ((q.add d position).1 = true ∧ e = d) := by
  cases h : (q.add d position).1 with
  | false => simp [add_of_refuses h]
  | true => simp [add_of_accepts h, diagnostics_push]

/-- A queue comes to know only the diagnostic that is added. -/
theorem mem_known_add {key : ErrorCode × Option NodeId}
    (h : key ∈ (q.add d position).2.known) : key ∈ q.known ∨ d.key = key := by
  cases hadd : (q.add d position).1 with
  | false => exact .inl (add_of_refuses hadd ▸ h)
  | true =>
    rw [add_of_accepts hadd] at h
    unfold push at h
    split at h
    · exact (List.mem_cons.1 h).symm.imp_right Eq.symm
    · exact .inl h

/-- Without a limit a diagnostic is accepted whose key is new. -/
theorem accepts_of_new (hlimit : q.config.errorLimit = 0) (hnew : d.key ∉ q.known) :
    (q.add d position).1 = true :=
  accepts_iff.2 ⟨fun _ => by simp [limitReached, hlimit], fun _ => hnew⟩

/-! ## Several diagnostics -/

section
variable {α : Type} (told : α → Diagnostic) (place : α → Nat)

/-- The queue after the diagnostics for several items. -/
def addAll (q : Queue) (items : List α) : Queue :=
  items.foldl (fun q a => (q.add (told a) (place a)).2) q

variable {told place} {items : List α}

theorem mem_addAll_of_mem (h : e ∈ q.diagnostics) : e ∈ (q.addAll told place items).diagnostics := by
  induction items generalizing q with
  | nil => exact h
  | cons a items ih => exact ih (mem_add.2 (.inl h))

/-- **The first of each key** is accepted by a queue without a limit. -/
theorem mem_addAll_of_find? {key : ErrorCode × Option NodeId} {a : α}
    (hlimit : q.config.errorLimit = 0) (hnew : key ∉ q.known)
    (ha : items.find? (fun b => (told b).key = key) = some a) :
    told a ∈ (q.addAll told place items).diagnostics := by
  induction items generalizing q with
  | nil => cases ha
  | cons b items ih =>
    rw [List.find?_cons] at ha
    split at ha
    · next hkey =>
      cases ha
      rw [decide_eq_true_eq] at hkey
      have haccepts : (q.add (told a) (place a)).1 = true :=
        accepts_of_new hlimit (by rwa [hkey])
      exact mem_addAll_of_mem (q := (q.add (told a) (place a)).2)
        (mem_add.2 (.inr ⟨haccepts, rfl⟩))
    · next hkey =>
      rw [decide_eq_false_iff_not] at hkey
      refine ih (by rw [config_add, hlimit]) (fun hk => ?_) ha
      rcases mem_known_add hk with hk | hk
      · exact hnew hk
      · exact hkey hk

end

end Queue

end Arbor
