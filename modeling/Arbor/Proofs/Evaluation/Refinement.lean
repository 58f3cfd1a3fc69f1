/-
  The machine refines direct evaluation.

  A run that starts with nothing remembered ends with the value of the program in direct
  evaluation, with the exception that it raised, or with the error for a call of what has
  no body, after a number of steps; under a limit below this number it ends with the error
  for the limit instead.

  Main statement: `run_evaluates`.
-/
import Arbor.Proofs.Evaluation.Nodes

namespace Arbor

/-- The program is evaluated in a new scope. -/
theorem Program.on_evaluateProgram (p : Program) (maxDepth : Nat)
    (streams : Table StreamId Value) (scopes : Scopes) :
    (p.evaluateProgram maxDepth streams).on scopes =
      (p.evaluate (maxDepth - 1)
        ⟨none, p.root, (scopes.create none).1, none, none, streams⟩ p.root).on
          (scopes.create none).2 := by
  unfold Program.evaluateProgram
  rw [Eval.on_bind, Eval.on_modifyGet]

namespace Machine

variable {p : Program} {limits : Limits} {m m' : Machine} {n : Nat}

/-! ## The run of the program frame -/

/-- What a machine says about the outcome of an evaluation. -/
def Agrees (r : Except EvalError Value × Machine) : Except Stop Value × Scopes → Prop
  | (.ok v, scopes) => r.1 = .ok v ∧ r.2.store.scopes = scopes
  | (.error (.raised e), scopes) => r.1 = .ok (.exception e) ∧ r.2.store.scopes = scopes
  | (.error (.bodiless creator), _) => r.1 = .error (.valueStackUnderflow creator)

/-- The step that ends the run of the program frame with the outcome of an evaluation. -/
def Ends (p : Program) (m : Machine) (r : Result) : Except Stop Value × Scopes → Prop
  | (.ok v, scopes) =>
    ∃ m', r = (.ok (.completed v), m'.endRun p v) ∧ Keeps [] m m' scopes
  | (.error (.raised e), scopes) =>
    ∃ m', r = (.ok (.completed (.exception e)), m'.endRun p (.exception e)) ∧ Keeps [] m m' scopes
  | (.error (.bodiless creator), _) => r.1 = .error (.valueStackUnderflow creator)

/-- A run begins in the frame of the program, in a new scope. -/
theorem stands_beginRun (p : Program) (m : Machine) (reevaluating : Bool) : ∃ f,
    f.env [] m.streams =
      ⟨none, p.root, (m.store.scopes.create none).1, none, none, m.streams⟩ ∧
    Stands (m.beginRun p reevaluating) f [] (p.compile p.root ++ []) []
      (m.store.scopes.create none).2 (m.beginRun p reevaluating) f := by
  refine ⟨_, rfl, rfl, rfl, .refl _, ?_, rfl, rfl, fun _ => rfl, rfl, rfl, rfl, rfl, rfl⟩
  rw [List.append_nil]
  rfl

/-- A run that was started comes to the end of the program frame. -/
theorem yields_ends (hp : p.arena.Acyclic) (limits : Limits) (m : Machine) :
    Yields p limits (m.start p) fun r =>
      Ends p (m.start p) r
        ((p.evaluateProgram limits.maxDepth m.streams).on m.store.scopes) := by
  obtain ⟨f₀, henv, hstands⟩ :=
    stands_beginRun p { m with store := { m.store with remembered := .empty } } false
  have hcalm : Calm (m.start p) [] := fun h => nomatch h
  have hgives := simulates hp (limits.maxDepth - 1) (m.start p) f₀ [] rfl hcalm p.root hstands
  rw [show f₀.env [] (m.start p).streams = _ from henv] at hgives
  rw [Program.on_evaluateProgram]
  generalize Eval.on _ _ = r at hgives ⊢
  obtain ⟨r, s⟩ := r
  rcases r with (e | creator) | v <;> unfold Gives at hgives
  · refine hgives.trans fun r hx => ?_
    obtain ⟨o, g, hok, ho, hframes, hphase, hk⟩ := hx
    refine ⟨o, hok, ho, .now ?_⟩
    rw [step_unwinding hframes hphase]
    exact ⟨r.2, rfl, hk⟩
  · exact hgives
  · refine hgives.2.mono fun r hx => ?_
    obtain ⟨m', g, st, rfl, -, -, hdone, hops, hk⟩ := hx
    refine ⟨m', ?_, hk⟩
    unfold settle complete
    rw [g.isDone_iff.2 hdone, hops]
    rfl

/-! ## Runs within a limit -/

/-- The limit on the steps of a call does not change what a step does. -/
theorem step_congr (maxDepth : Nat) (steps steps' : Option Nat) (m : Machine) :
    m.step p ⟨maxDepth, steps⟩ = m.step p ⟨maxDepth, steps'⟩ := rfl

theorem Runs.congr {maxDepth : Nat} {steps : Option Nat} (steps' : Option Nat)
    (h : Runs p ⟨maxDepth, steps⟩ n m m') : Runs p ⟨maxDepth, steps'⟩ n m m' := by
  induction h with
  | refl => exact .refl
  | step hok ho _ ih => exact .step hok ho ih

/-- A machine that can run a step is open. -/
theorem isEmpty_eq_false_of_step {o : Outcome} (h : (m.step p limits).1 = .ok o) :
    m.frames.isEmpty = false := by
  cases hm : m.frames with
  | nil => rw [step_closed hm] at h; cases h
  | cons f below => rfl

/-- A step that the limit allows is run. -/
theorem resume_step {taken : Nat} {o : Outcome} (hl : limits.steps.filter (· ≤ taken) = none)
    (h : (m.step p limits).1 = .ok o) :
    m.resume p limits taken = (m.step p limits).2.resume p limits (taken + 1) := by
  rw [resume.eq_1, if_neg (by rw [isEmpty_eq_false_of_step h]; nofun)]
  split
  · next hl' => rw [hl] at hl'; cases hl'
  · split
    · next hs => rw [hs] at h; cases h
    · next hs => rw [hs]

theorem resume_of_limit {taken limit : Nat} (hm : m.frames.isEmpty = false)
    (hl : limits.steps.filter (· ≤ taken) = some limit) :
    (m.resume p limits taken).1 = .error (.stepLimit limit) := by
  rw [resume.eq_1, if_neg (by rw [hm]; nofun), hl]

/-- A step that fails ends the call. -/
theorem resume_fails {taken : Nat} {e : EvalError} (hm : m.frames.isEmpty = false)
    (hl : limits.steps.filter (· ≤ taken) = none) (h : (m.step p limits).1 = .error e) :
    (m.resume p limits taken).1 = .error e := by
  rw [resume.eq_1, if_neg (by rw [hm]; nofun)]
  split
  · next hl' => rw [hl] at hl'; cases hl'
  · split
    · next hs => rw [hs] at h; cases h; rfl
    · next hs => rw [hs] at h; cases h

/-- Steps in a row are run if the limit allows all of them. -/
theorem resume_runs {taken : Nat} (h : Runs p limits n m m')
    (hl : ∀ k, k < n → limits.steps.filter (· ≤ taken + k) = none) :
    m.resume p limits taken = m'.resume p limits (taken + n) := by
  induction h generalizing taken with
  | refl => rfl
  | @step n m m' o hok ho _ ih =>
    have hfirst : limits.steps.filter (· ≤ taken) = none := hl 0 (Nat.succ_pos n)
    have hrest (k : Nat) (hk : k < n) : limits.steps.filter (· ≤ taken + 1 + k) = none := by
      have := hl (k + 1) (Nat.succ_lt_succ hk)
      rwa [show taken + (k + 1) = taken + 1 + k by omega] at this
    rw [resume_step hfirst hok, ih hrest, show taken + 1 + n = taken + (n + 1) by omega]

/-- A limit that is reached on the way ends the call. -/
theorem resume_limit {taken limit : Nat} (h : Runs p limits n m m')
    (hm : m'.frames.isEmpty = false) (hs : limits.steps = some limit) (ht : taken ≤ limit)
    (hn : limit ≤ taken + n) : (m.resume p limits taken).1 = .error (.stepLimit limit) := by
  induction h generalizing taken with
  | @refl m =>
    refine resume_of_limit hm ?_
    rw [hs]
    exact Option.filter_some_pos (by simpa using hn)
  | @step n m m' o hok ho hr ih =>
    by_cases hlt : limit ≤ taken
    · refine resume_of_limit (isEmpty_eq_false_of_step hok) ?_
      rw [hs]
      exact Option.filter_some_pos (by simpa using hlt)
    · rw [resume_step (by rw [hs]; exact Option.filter_some_neg (by simpa using hlt)) hok]
      exact ih hm (by omega) (by omega)

/-- The end of the program frame is no failure for want of one. -/
theorem not_ends_closed {e : EvalError} {r : Except Stop Value × Scopes}
    (he : e = .finished ∨ e = .notStarted) : ¬Ends p m (.error e, m') r := by
  obtain ⟨r, s⟩ := r
  rcases r with (x | creator) | v <;> unfold Ends
  · rintro ⟨m'', h, -⟩
    cases h
  · rintro h
    rcases he with rfl | rfl <;> cases h
  · rintro ⟨m'', h, -⟩
    cases h

/-- When nothing waits, the end of the program frame is that of the call. -/
theorem agrees_of_ends {r : Except Stop Value × Scopes} (hpending : m.pending = [])
    (hopen : m'.frames.isEmpty = false) (hl : limits.steps.filter (· ≤ n) = none)
    (h : Ends p m (m'.step p limits) r) : Agrees (m'.resume p limits n) r := by
  -- The result of a completed run is read off when the call goes on.
  have completed {m'' : Machine} {v : Value} {scopes : Scopes}
      (hs : m'.step p limits = (.ok (.completed v), m''.endRun p v))
      (hk : Keeps [] m m'' scopes) :
      (m'.resume p limits n).1 = .ok v ∧ (m'.resume p limits n).2.store.scopes = scopes := by
    rw [resume_step hl (by rw [hs]), hs]
    have hend : m''.endRun p v = { m'' with frames := [], result := some v, runs := m''.runs + 1 } := by
      unfold endRun
      rw [hk.pending, hpending]
    rw [hend, resume.eq_1]
    exact ⟨rfl, hk.scopes⟩
  obtain ⟨r, s⟩ := r
  rcases r with (e | creator) | v <;> unfold Ends at h <;> unfold Agrees
  · obtain ⟨m'', hs, hk⟩ := h
    exact completed hs hk
  · exact resume_fails hopen hl h
  · obtain ⟨m'', hs, hk⟩ := h
    exact completed hs hk

/-! ## The whole run -/

/-- A run that was started takes a number of steps, if it may, and ends as the program is
    evaluated. -/
theorem exists_steps (hp : p.arena.Acyclic) (maxDepth : Nat) (m : Machine)
    (hpending : m.pending = []) :
    ∃ n, (∀ steps limit, steps.filter (· < n) = some limit →
        ((m.start p).run p ⟨maxDepth, steps⟩).1 = .error (.stepLimit limit)) ∧
      ∀ steps, steps.filter (· < n) = none →
        Agrees ((m.start p).run p ⟨maxDepth, steps⟩)
          ((p.evaluateProgram maxDepth m.streams).on m.store.scopes) := by
  obtain ⟨n, m', hruns, hends⟩ := yields_ends hp ⟨maxDepth, none⟩ m
  have hrun (steps : Option Nat) : (m.start p).run p ⟨maxDepth, steps⟩ =
      (m.start p).resume p ⟨maxDepth, steps⟩ 0 := rfl
  have hopen : m'.frames.isEmpty = false := by
    cases hm : m'.frames with
    | cons f below => rfl
    | nil =>
      rw [step_closed hm] at hends
      refine absurd hends (not_ends_closed ?_)
      split
      · exact Or.inl rfl
      · exact Or.inr rfl
  refine ⟨n + 1, fun steps limit hlimit => ?_, fun steps hlimit => ?_⟩
  · obtain ⟨hsteps, hlt⟩ := Option.filter_eq_some_iff.1 hlimit
    have hle : limit ≤ n := Nat.lt_succ_iff.1 (of_decide_eq_true hlt)
    rw [hrun]
    exact resume_limit (hruns.congr steps) hopen hsteps (Nat.zero_le _) (by omega)
  · have hfree (k : Nat) (hk : k ≤ n) : steps.filter (· ≤ k) = none := by
      rw [Option.filter_eq_none_iff] at hlimit ⊢
      intro limit hsteps
      have := hlimit limit hsteps
      simp only [decide_eq_true_eq] at this ⊢
      omega
    rw [hrun, resume_runs (hruns.congr steps) fun k hk => hfree _ (by omega), Nat.zero_add]
    exact agrees_of_ends (m := m.start p) hpending hopen (hfree n (Nat.le_refl n)) hends

/-- **The machine refines direct evaluation.**  A run that was started ends after a number
    of steps as the program is evaluated, in the scopes of its evaluation; under a lower
    limit, it ends with the error for the limit. -/
theorem run_evaluates (hp : p.arena.Acyclic) (maxDepth : Nat) (m : Machine)
    (hpending : m.pending = []) :
    ∃ n, ∀ steps : Option Nat,
      match steps.filter (· < n) with
      | some limit =>
        ((m.start p).run p ⟨maxDepth, steps⟩).1 = .error (.stepLimit limit)
      | none =>
        Agrees ((m.start p).run p ⟨maxDepth, steps⟩)
          ((p.evaluateProgram maxDepth m.streams).on m.store.scopes) := by
  obtain ⟨n, hlimited, hagrees⟩ := exists_steps hp maxDepth m hpending
  refine ⟨n, fun steps => ?_⟩
  split
  · next limit hlimit => exact hlimited steps limit hlimit
  · next hlimit => exact hagrees steps hlimit

/-- The first run of `switch`, whose stream has no value yet. -/
theorem run_evaluates_switch :
    ∃ n, ∀ steps : Option Nat,
      match steps.filter (· < n) with
      | some limit =>
        (((Machine.initial default).start switch).run switch ⟨defaultMaxDepth, steps⟩).1 =
          .error (.stepLimit limit)
      | none =>
        Agrees (((Machine.initial default).start switch).run switch ⟨defaultMaxDepth, steps⟩)
          ((switch.evaluateProgram defaultMaxDepth .empty).on .empty) :=
  run_evaluates grounded_switch.acyclic defaultMaxDepth (.initial default) rfl

end Machine

end Arbor
