/-
  The policy of a queue.

  Whatever was asked of a queue since it was made, what it does depends on its configuration
  and on what it has accepted since it was last flushed.  Its counts and the keys by which it
  finds repetitions say no more than these diagnostics do (`Holds`).

  * `Queue.Call`, `Queue.history`: calls on a queue, and what is accepted over them;
  * `Queue.Holds`: a queue has accepted certain diagnostics and no others;
  * `Queue.Arranged`: the order in which a queue gives them out;
  * `Queue.Policy`: what such a queue answers to each call.

  Main statement: `policy_history`, from what one call preserves (`Holds.step`).
-/
import Arbor.Proofs.Diagnostic.Queue
import Mathlib.Data.List.Sort
import Mathlib.Logic.Basic

namespace Arbor

namespace Queue

variable {config : QueueConfig} {q : Queue} {xs : List Queued} {d : Diagnostic} {position : Nat}

/-! ## Calls -/

/-- A call that changes a queue. -/
inductive Call where
  | add (d : Diagnostic) (position : Nat)
  | flush

/-- The queue after a call, and what it has accepted, by its own answers, since it was last
    flushed. -/
def Call.step (s : Queue × List Queued) : Call → Queue × List Queued
  | add d position =>
    ((s.1.add d position).2, if (s.1.add d position).1 then s.2 ++ [⟨d, position⟩] else s.2)
  | flush => (s.1.flush.2, [])

/-- A new queue after some calls, and what it has accepted since it was last flushed. -/
def history (config : QueueConfig) (calls : List Call) : Queue × List Queued :=
  calls.foldl Call.step (.ofConfig config, [])

/-! ## What a queue holds -/

/-- The number of errors among accepted diagnostics. -/
def errorsOf (xs : List Queued) : Nat := xs.countP fun x => x.diagnostic.isError

/-- The number of accepted diagnostics that are not errors. -/
def warningsOf (xs : List Queued) : Nat := xs.countP fun x => !x.diagnostic.isError

/-- A queue has accepted just these diagnostics. -/
structure Holds (config : QueueConfig) (xs : List Queued) (q : Queue) : Prop where
  configured : q.config = config
  waiting : q.waiting = xs
  known : config.deduplicate = true → ∀ key, key ∈ q.known ↔ ∃ x ∈ xs, x.diagnostic.key = key
  errorCount : q.errorCount = errorsOf xs
  warningCount : q.warningCount = warningsOf xs
  bounded : config.errorLimit ≠ 0 → errorsOf xs ≤ config.errorLimit

namespace Holds

theorem ofConfig (config : QueueConfig) : Holds config [] (ofConfig config) where
  configured := rfl
  waiting := rfl
  known := fun _ _ => ⟨nofun, nofun⟩
  errorCount := rfl
  warningCount := rfl
  bounded := fun _ => Nat.zero_le _

theorem limitReached_eq_false (h : Holds config xs q) :
    q.limitReached = false ↔ config.errorLimit = 0 ∨ errorsOf xs < config.errorLimit := by
  simp only [limitReached, h.configured, h.errorCount, Bool.and_eq_false_iff,
    decide_eq_false_iff_not]
  omega

/-- The diagnostics that a queue accepts. -/
theorem accepts_iff (h : Holds config xs q) (d : Diagnostic) (position : Nat) :
    (q.add d position).1 = true ↔
      (d.isError = false ∨ config.errorLimit = 0 ∨ errorsOf xs < config.errorLimit) ∧
        (config.deduplicate = false ∨ ∀ x ∈ xs, x.diagnostic.key ≠ d.key) := by
  rw [Queue.accepts_iff, h.limitReached_eq_false, h.configured, ← Bool.not_eq_true,
    ← Bool.not_eq_true, imp_iff_not_or, imp_iff_not_or]
  refine and_congr_right fun _ => or_congr_right' fun hdedup => ?_
  rw [h.known (not_not.1 hdedup)]
  exact ⟨fun hnew x hx hkey => hnew ⟨x, hx, hkey⟩, fun hnew ⟨x, hx, hkey⟩ => hnew x hx hkey⟩

/-- An accepted diagnostic is held besides the others. -/
theorem push (h : Holds config xs q) (haccepts : (q.add d position).1 = true) :
    Holds config (xs ++ [⟨d, position⟩]) (q.push d position) where
  configured := h.configured
  waiting := by rw [Queue.push, h.waiting]
  known := by
    intro hdedup key
    rw [Queue.push, if_pos (h.configured ▸ hdedup), List.mem_cons, h.known hdedup]
    simp [or_comm, eq_comm]
  errorCount := by
    simp only [Queue.push, h.errorCount, errorsOf, List.countP_append, List.countP_singleton]
    split <;> rfl
  warningCount := by
    simp only [Queue.push, h.warningCount, warningsOf, List.countP_append, List.countP_singleton]
    cases d.isError <;> rfl
  bounded := by
    intro hlimit
    have hbound := h.bounded hlimit
    have hroom := ((h.accepts_iff d position).1 haccepts).1
    simp only [errorsOf, List.countP_append, List.countP_singleton] at hbound hroom ⊢
    cases hd : d.isError with
    | false => simpa using hbound
    | true =>
      simp only [hd, Bool.true_eq_false, false_or, if_true] at hroom ⊢
      omega

/-- **What one call preserves**: what a queue holds is what its answers say it accepted. -/
theorem step {s : Queue × List Queued} (h : Holds config s.2 s.1) (c : Call) :
    Holds config (Call.step s c).2 (Call.step s c).1 := by
  cases c with
  | add d position =>
    dsimp only [Call.step]
    cases hadd : (s.1.add d position).1 with
    | false => rwa [add_of_refuses hadd, if_neg Bool.false_ne_true]
    | true =>
      rw [add_of_accepts hadd, if_pos rfl]
      exact h.push hadd
  | flush =>
    have hnew : s.1.flush.2 = Queue.ofConfig config := by
      rw [← h.configured]
      rfl
    dsimp only [Call.step]
    rw [hnew]
    exact ofConfig config

end Holds

/-- What a new queue holds after some calls. -/
theorem holds_history (config : QueueConfig) (calls : List Call) :
    Holds config (history config calls).2 (history config calls).1 :=
  List.foldlRecOn calls Call.step (motive := fun s => Holds config s.2 s.1) (Holds.ofConfig config)
    fun _ h c _ => h.step c

/-! ## The order of what is given out -/

/-- The same diagnostics in the order of positions, those of one position in the order in
    which they were. -/
structure Arranged (xs ys : List Queued) : Prop where
  perm : ys.Perm xs
  sorted : ys.Pairwise (·.position ≤ ·.position)
  stable : ∀ n, ys.filter (·.position = n) = xs.filter (·.position = n)

theorem arranged_mergeSort (xs : List Queued) :
    Arranged xs (xs.mergeSort (·.position ≤ ·.position)) := by
  have htrans : ∀ a b c : Queued, decide (a.position ≤ b.position) = true →
      decide (b.position ≤ c.position) = true → decide (a.position ≤ c.position) = true := by
    simpa only [decide_eq_true_eq] using fun a b c => Nat.le_trans
  have htotal : ∀ a b : Queued,
      (decide (a.position ≤ b.position) || decide (b.position ≤ a.position)) = true := by
    simpa only [Bool.or_eq_true, decide_eq_true_eq] using fun a b => Nat.le_total _ _
  have hperm := List.mergeSort_perm xs (·.position ≤ ·.position)
  refine ⟨hperm, (List.pairwise_mergeSort htrans htotal xs).imp of_decide_eq_true, fun n => ?_⟩
  -- The diagnostics of one position are in order already, so sorting keeps them in a row.
  have hone : (xs.filter (·.position = n)).Pairwise
      fun a b => decide (a.position ≤ b.position) = true := by
    refine List.pairwise_of_forall_mem_list fun a ha b hb => decide_eq_true ?_
    rw [of_decide_eq_true (List.mem_filter.1 ha).2, of_decide_eq_true (List.mem_filter.1 hb).2]
  have hsub := (List.sublist_mergeSort htrans htotal hone List.filter_sublist).filter
    (·.position = n)
  simp only [List.filter_filter, Bool.and_self] at hsub
  exact (hsub.eq_of_length (hperm.filter _).length_eq.symm).symm

/-! ## The policy -/

/-- What a queue with a configuration answers to each call, when it has accepted certain
    diagnostics since it was last flushed. -/
structure Policy (config : QueueConfig) (xs : List Queued) (q : Queue) : Prop where
  /-- Errors are accepted up to the limit, and repetitions only if nothing looks for them. -/
  accepts : ∀ d position, (q.add d position).1 = true ↔
    (d.isError = false ∨ config.errorLimit = 0 ∨ errorsOf xs < config.errorLimit) ∧
      (config.deduplicate = false ∨ ∀ x ∈ xs,
        ¬(x.diagnostic.code = d.code ∧ x.diagnostic.primaryNode? = d.primaryNode?))
  /-- A refused diagnostic changes nothing. -/
  refuses : ∀ d position, (q.add d position).1 = false → (q.add d position).2 = q
  errorCount : q.errorCount = errorsOf xs
  warningCount : q.warningCount = warningsOf xs
  bounded : config.errorLimit ≠ 0 → q.errorCount ≤ config.errorLimit
  /-- The accepted diagnostics are shown in the order in which they came. -/
  diagnostics : q.diagnostics = xs.map Queued.diagnostic
  /-- They are given out in the order of their positions. -/
  flush : ∃ ys, Arranged xs ys ∧ q.flush.1 = ys.map Queued.diagnostic
  /-- After that the queue is a new one. -/
  fresh : q.flush.2 = ofConfig config

theorem Holds.policy (h : Holds config xs q) : Policy config xs q where
  accepts := fun d position => by
    simpa only [Diagnostic.key, ne_eq, Prod.mk.injEq] using
      h.accepts_iff d position
  refuses := fun _ _ => add_of_refuses
  errorCount := h.errorCount
  warningCount := h.warningCount
  bounded := fun hlimit => h.errorCount ▸ h.bounded hlimit
  diagnostics := congrArg (List.map Queued.diagnostic) h.waiting
  flush := ⟨_, arranged_mergeSort xs, by rw [← h.waiting]; rfl⟩
  fresh := by rw [← h.configured]; rfl

/-- **A queue follows its policy**: after any calls, what it does is settled by its
    configuration and by what it has accepted since it was last flushed. -/
theorem policy_history (config : QueueConfig) (calls : List Call) :
    Policy config (history config calls).2 (history config calls).1 :=
  (holds_history config calls).policy

end Queue

end Arbor
