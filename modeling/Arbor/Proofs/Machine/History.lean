/-
  Histories: the states that a machine can get into.

  A machine is started, started again, stepped, run and given values of streams in any
  order; `Reachable` holds of every state that such a history leads to.  What one step
  and the beginning of a run keep is kept by every history (`Reachable.induct`),
  because a run is a sequence of steps (`run_keeps`).
-/
import Arbor.Proofs.Machine.Code

namespace Arbor.Machine

variable (p : Program) (limits : Limits)

/-- The states of a machine after any history, in which every value that was given to
    a stream is one of those that are `allowed`. -/
inductive Reachable (allowed : Value → Prop) : Machine → Prop
  | initial (memo : Memo) : Reachable allowed (.initial memo)
  | start {m : Machine} : Reachable allowed m → Reachable allowed (m.start p)
  | reevaluate {m : Machine} : Reachable allowed m → Reachable allowed (m.reevaluate p)
  | step {m : Machine} : Reachable allowed m → Reachable allowed (m.step p limits).2
  | run {m : Machine} : Reachable allowed m → Reachable allowed (m.run p limits).2
  | streamInput {m m' : Machine} {n : Name} {v : Value} :
      Reachable allowed m → allowed v → m.streamInput p n v = .ok m' → Reachable allowed m'

/-- The states that a history leads to from the machine `m₀`. -/
inductive ReachableFrom (allowed : Value → Prop) (m₀ : Machine) : Machine → Prop
  | refl : ReachableFrom allowed m₀ m₀
  | start {m : Machine} : ReachableFrom allowed m₀ m → ReachableFrom allowed m₀ (m.start p)
  | reevaluate {m : Machine} : ReachableFrom allowed m₀ m →
      ReachableFrom allowed m₀ (m.reevaluate p)
  | step {m : Machine} : ReachableFrom allowed m₀ m →
      ReachableFrom allowed m₀ (m.step p limits).2
  | run {m : Machine} : ReachableFrom allowed m₀ m → ReachableFrom allowed m₀ (m.run p limits).2
  | streamInput {m m' : Machine} {n : Name} {v : Value} : ReachableFrom allowed m₀ m →
      allowed v → m.streamInput p n v = .ok m' → ReachableFrom allowed m₀ m'

/-- The machine after a number of steps, whether they fail or not. -/
def after : Nat → Machine → Machine
  | 0, m => m
  | n + 1, m => after n (m.step p limits).2

variable {p limits} {P : Machine → Prop}

/-- Running on keeps what each step keeps. -/
theorem resume_keeps (hstep : ∀ m, P m → P (m.step p limits).2) {taken : Nat} {m : Machine}
    (h : P m) : P (m.resume p limits taken).2 := by
  fun_induction resume p limits taken m with
  | case1 => exact h
  | case2 => exact h
  | case3 taken m hm hl e m' hs =>
    have := hstep m h
    rwa [hs] at this
  | case4 taken m hm hl o m' hs ih =>
    have := hstep m h
    rw [hs] at this
    exact ih this

/-- A run keeps what its beginning and each step keep. -/
theorem run_keeps (hstart : ∀ m, P m → P (m.start p))
    (hstep : ∀ m, P m → P (m.step p limits).2) {m : Machine} (h : P m) :
    P (m.run p limits).2 := by
  unfold run
  split
  · exact resume_keeps hstep (hstart m h)
  · exact resume_keeps hstep h

/-- Steps in a row belong to a history. -/
theorem ReachableFrom.after {allowed : Value → Prop} {m₀ : Machine} (n : Nat) {m : Machine}
    (h : ReachableFrom p limits allowed m₀ m) :
    ReachableFrom p limits allowed m₀ (m.after p limits n) := by
  induction n generalizing m with
  | zero => exact h
  | succ n ih => exact ih h.step

/-- What holds of a machine and is kept holds after every history from that machine. -/
theorem ReachableFrom.induct {allowed : Value → Prop} {m₀ : Machine} (hinit : P m₀)
    (hstart : ∀ m, P m → P (m.start p)) (hreevaluate : ∀ m, P m → P (m.reevaluate p))
    (hstep : ∀ m, P m → P (m.step p limits).2)
    (hstream : ∀ m m' n v, P m → allowed v → m.streamInput p n v = .ok m' → P m')
    {m : Machine} (h : ReachableFrom p limits allowed m₀ m) : P m := by
  induction h with
  | refl => exact hinit
  | start _ ih => exact hstart _ ih
  | reevaluate _ ih => exact hreevaluate _ ih
  | step _ ih => exact hstep _ ih
  | run _ ih => exact run_keeps hstart hstep ih
  | streamInput _ hv hm ih => exact hstream _ _ _ _ ih hv hm

/-- What is reachable is what some machine that has not run leads to. -/
theorem reachable_iff {allowed : Value → Prop} {m : Machine} :
    Reachable p limits allowed m ↔ ∃ memo, ReachableFrom p limits allowed (.initial memo) m := by
  constructor
  · intro h
    induction h with
    | initial memo => exact ⟨memo, .refl⟩
    | start _ ih => exact ih.imp fun _ => .start
    | reevaluate _ ih => exact ih.imp fun _ => .reevaluate
    | step _ ih => exact ih.imp fun _ => .step
    | run _ ih => exact ih.imp fun _ => .run
    | streamInput _ hv hm ih => exact ih.imp fun _ h => .streamInput h hv hm
  · rintro ⟨memo, h⟩
    exact h.induct (.initial memo) (fun _ => .start) (fun _ => .reevaluate) (fun _ => .step)
      fun _ _ _ _ => .streamInput

theorem Reachable.after {allowed : Value → Prop} (n : Nat) {m : Machine}
    (h : Reachable p limits allowed m) : Reachable p limits allowed (m.after p limits n) :=
  reachable_iff.2 ((reachable_iff.1 h).imp fun _ => .after n)

/-- **Invariants of histories.**  What holds at first and is kept by the beginning of
    a run, by each step and by each value of a stream, holds after every history. -/
theorem Reachable.induct {allowed : Value → Prop} (hinit : ∀ memo, P (.initial memo))
    (hstart : ∀ m, P m → P (m.start p)) (hreevaluate : ∀ m, P m → P (m.reevaluate p))
    (hstep : ∀ m, P m → P (m.step p limits).2)
    (hstream : ∀ m m' n v, P m → allowed v → m.streamInput p n v = .ok m' → P m')
    {m : Machine} (h : Reachable p limits allowed m) : P m := by
  obtain ⟨memo, h⟩ := reachable_iff.1 h
  exact h.induct (hinit memo) hstart hreevaluate hstep hstream

end Arbor.Machine
