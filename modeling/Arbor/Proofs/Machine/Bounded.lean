/-
  Runs in portions.

  A machine with a limit on the steps of one call stops when the limit is reached, and the
  next call goes on where it stopped.  So the calls together make the steps of a run without
  a limit, and only the call in which the run ends gives its result.

  * `outcomes` lists what the steps of one call did.

  Main statements: `run_portion`, what one call does of a run; `run_bounded`, what repeated
  calls do.
-/
import Arbor.Proofs.Evaluation.Refinement
import Arbor.Proofs.Machine.Discipline
import Mathlib.Algebra.Order.Floor.Div

namespace Arbor.Machine

/-! ## The steps of a call -/

section
variable (p : Program) (limits : Limits)

/-- What the steps of a call do, after it has taken `taken` steps. -/
def outcomesFrom (taken : Nat) (m : Machine) : List Outcome :=
  if m.frames.isEmpty then []
  else
    match limits.steps.filter (· ≤ taken) with
    | some _ => []
    | none =>
      match _h : m.step p limits with
      | (.error _, _) => []
      | (.ok o, m') => o :: outcomesFrom (taken + 1) m'
termination_by (m.pending.length, work p limits m.frames)
decreasing_by
  rcases step_decreases p limits _h with h | ⟨he, hw⟩
  · exact Prod.Lex.left _ _ h
  · rw [he]; exact Prod.Lex.right _ hw

/-- What the steps of a call of `run` do, one after another. -/
def outcomes (m : Machine) : List Outcome :=
  outcomesFrom p limits 0 (if m.frames.isEmpty && m.result.isNone then m.start p else m)

end

variable {p : Program} {maxDepth limit taken : Nat} {m m' : Machine} {v : Value}

theorem outcomesFrom_closed {limits : Limits} (hm : m.frames.isEmpty = true) :
    m.outcomesFrom p limits taken = [] := by
  rw [outcomesFrom.eq_1, if_pos hm]

theorem outcomesFrom_of_limit {limits : Limits} (hm : m.frames.isEmpty = false)
    (hl : limits.steps.filter (· ≤ taken) = some limit) :
    m.outcomesFrom p limits taken = [] := by
  rw [outcomesFrom.eq_1, if_neg (by rw [hm]; nofun), hl]

theorem outcomesFrom_step {limits : Limits} {o : Outcome}
    (hl : limits.steps.filter (· ≤ taken) = none) (h : m.step p limits = (.ok o, m')) :
    m.outcomesFrom p limits taken = o :: m'.outcomesFrom p limits (taken + 1) := by
  have hok : (m.step p limits).1 = .ok o := by rw [h]
  rw [outcomesFrom.eq_1, if_neg (by rw [isEmpty_eq_false_of_step hok]; nofun), hl]
  dsimp only
  split
  · next hs => rw [h] at hs; cases hs
  · next hs => rw [h] at hs; cases hs; rfl

/-! ## Steps in a row -/

/-- The machine makes steps, none of which fails, and this is what they do. -/
inductive Makes (p : Program) (maxDepth : Nat) : Machine → List Outcome → Machine → Prop
  | refl (m : Machine) : Makes p maxDepth m [] m
  | step {m m₁ m' : Machine} {o : Outcome} {os : List Outcome} :
      m.step p ⟨maxDepth, none⟩ = (.ok o, m₁) → Makes p maxDepth m₁ os m' →
      Makes p maxDepth m (o :: os) m'

variable {os : List Outcome}

/-- Steps in a row are some of them, and then the others. -/
theorem Makes.split (h : Makes p maxDepth m os m') (n : Nat) :
    ∃ m₁, Makes p maxDepth m (os.take n) m₁ ∧ Makes p maxDepth m₁ (os.drop n) m' := by
  induction h generalizing n with
  | refl m => exact ⟨m, by simpa using .refl m, by simpa using .refl m⟩
  | @step m m₁ m' o os hs h ih =>
    cases n with
    | zero => exact ⟨m, .refl m, .step hs h⟩
    | succ n =>
      obtain ⟨m₂, htake, hdrop⟩ := ih n
      exact ⟨m₂, .step hs htake, hdrop⟩

/-- A machine that makes a step is open. -/
theorem Makes.open (h : Makes p maxDepth m os m') (hos : os ≠ []) : m.frames.isEmpty = false := by
  cases h with
  | refl => exact absurd rfl hos
  | @step m m₁ m' o os hs _ =>
    have hok : (m.step p ⟨maxDepth, none⟩).1 = .ok o := by rw [hs]
    exact isEmpty_eq_false_of_step hok

/-- A call that gives a value has made steps in a row, each of which its limit allowed, and
    has closed the machine. -/
theorem makes_of_resume {steps : Option Nat}
    (h : m.resume p ⟨maxDepth, steps⟩ taken = (.ok v, m')) :
    let os := m.outcomesFrom p ⟨maxDepth, steps⟩ taken
    Makes p maxDepth m os m' ∧ m'.frames.isEmpty = true ∧ m'.result = some v ∧
      ∀ k < os.length, steps.filter (· ≤ taken + k) = none := by
  dsimp only
  fun_induction resume p ⟨maxDepth, steps⟩ taken m with
  | case1 taken m hm =>
    rw [outcomesFrom_closed hm]
    cases hv : m.result with
    | none => rw [hv] at h; cases h
    | some w => rw [hv] at h; cases h; exact ⟨.refl _, hm, hv, (by simp)⟩
  | case2 taken m hm limit hl => cases h
  | case3 => cases h
  | case4 taken m hm hl o m₁ hs ih =>
    obtain ⟨hmakes, hclosed, hresult, hallowed⟩ := ih h
    rw [outcomesFrom_step hl hs]
    refine ⟨.step hs hmakes, hclosed, hresult, fun k hk => ?_⟩
    cases k with
    | zero => exact hl
    | succ k =>
      have := hallowed k (Nat.lt_of_succ_lt_succ hk)
      rwa [show taken + 1 + k = taken + (k + 1) by omega] at this

section
variable (steps : Option Nat) (taken : Nat)

/-- A call makes the steps that its limit allows, and goes on from there. -/
theorem Makes.resume (h : Makes p maxDepth m os m')
    (hl : ∀ k < os.length, steps.filter (· ≤ taken + k) = none) :
    m.resume p ⟨maxDepth, steps⟩ taken = m'.resume p ⟨maxDepth, steps⟩ (taken + os.length) ∧
      m.outcomesFrom p ⟨maxDepth, steps⟩ taken =
        os ++ m'.outcomesFrom p ⟨maxDepth, steps⟩ (taken + os.length) := by
  induction h generalizing taken with
  | refl => exact ⟨rfl, rfl⟩
  | @step m m₁ m' o os hs _ ih =>
    have hfirst : steps.filter (· ≤ taken) = none := hl 0 (Nat.succ_pos _)
    obtain ⟨hresume, houtcomes⟩ := ih (taken + 1) fun k hk => by
      have := hl (k + 1) (Nat.succ_lt_succ hk)
      rwa [show taken + (k + 1) = taken + 1 + k by omega] at this
    have hs' : m.step p ⟨maxDepth, steps⟩ = (.ok o, m₁) := hs
    rw [resume_step hfirst (by rw [hs']), outcomesFrom_step hfirst hs', hs', hresume, houtcomes,
      List.length_cons, show taken + 1 + os.length = taken + (os.length + 1) by omega]
    exact ⟨rfl, rfl⟩

/-- A call whose limit allows all steps gives the result. -/
theorem Makes.resume_closed (h : Makes p maxDepth m os m') (hm : m'.frames.isEmpty = true)
    (hv : m'.result = some v) (hl : ∀ k < os.length, steps.filter (· ≤ taken + k) = none) :
    m.resume p ⟨maxDepth, steps⟩ taken = (.ok v, m') ∧
      m.outcomesFrom p ⟨maxDepth, steps⟩ taken = os := by
  obtain ⟨hresume, houtcomes⟩ := h.resume steps taken hl
  rw [hresume, houtcomes, outcomesFrom_closed hm, List.append_nil, resume.eq_1, if_pos hm, hv]
  exact ⟨rfl, rfl⟩

end

/-! ## Portions of a run -/

/-- A limit that is not reached allows the next step. -/
theorem filter_limit {k : Nat} (hk : k < limit) :
    (some limit).filter (· ≤ 0 + k) = none :=
  Option.filter_some_neg (by simpa using hk)

/-- **One call with a limit** makes as many steps of a run as the limit allows.  If that are
    all of them, it gives the result of the run, and otherwise the rest of the run is left. -/
theorem run_portion (limit : Nat) (h : m.run p ⟨maxDepth, none⟩ = (.ok v, m')) :
    let os := m.outcomes p ⟨maxDepth, none⟩
    if os.length ≤ limit then
      m.run p ⟨maxDepth, some limit⟩ = (.ok v, m') ∧ m.outcomes p ⟨maxDepth, some limit⟩ = os
    else ∃ m₁, m.run p ⟨maxDepth, some limit⟩ = (.error (.stepLimit limit), m₁) ∧
      m.outcomes p ⟨maxDepth, some limit⟩ = os.take limit ∧
      m₁.run p ⟨maxDepth, none⟩ = (.ok v, m') ∧
      m₁.outcomes p ⟨maxDepth, none⟩ = os.drop limit := by
  unfold run outcomes at *
  generalize (if m.frames.isEmpty && m.result.isNone then m.start p else m) = begun at h ⊢
  obtain ⟨hmakes, hm', hv, -⟩ := makes_of_resume h
  generalize begun.outcomesFrom p ⟨maxDepth, none⟩ 0 = os at hmakes ⊢
  dsimp only
  split
  · next hle => exact hmakes.resume_closed _ _ hm' hv fun k hk => filter_limit (by omega)
  · next hgt =>
    obtain ⟨m₁, htake, hdrop⟩ := hmakes.split limit
    have hlength : (os.take limit).length = limit := by
      rw [List.length_take]
      omega
    have hopen : m₁.frames.isEmpty = false :=
      hdrop.open fun hnil => by rw [List.drop_eq_nil_iff] at hnil; omega
    obtain ⟨hresume, houtcomes⟩ := htake.resume (some limit) 0
      fun k hk => filter_limit (by omega)
    have hlimit : (some limit).filter (· ≤ 0 + (os.take limit).length) = some limit :=
      Option.filter_some_pos (by simp [hlength])
    refine ⟨m₁, ?_, ?_, ?_⟩
    · rw [hresume, resume.eq_1, if_neg (by rw [hopen]; simp)]
      dsimp only
      rw [hlimit]
    · rw [houtcomes, outcomesFrom_of_limit hopen hlimit, List.append_nil]
    · rw [hopen, Bool.false_and, if_neg Bool.false_ne_true]
      exact hdrop.resume_closed _ _ hm' hv fun k _ => rfl

/-- All portions but the last are full. -/
theorem ceilDiv_sub_one (hlimit : 1 ≤ limit) (n : Nat) : n ⌈/⌉ limit - 1 = (n - 1) / limit := by
  rw [Nat.ceilDiv_eq_add_pred_div]
  cases n with
  | zero => rw [Nat.zero_add, Nat.div_eq_of_lt (by omega), Nat.zero_sub, Nat.zero_div]
  | succ n =>
    rw [show n + 1 + limit - 1 = n + limit by omega, Nat.add_div_right n (by omega)]
    rfl

/-- **Runs in portions.**  Let a run without a limit end with a value, and call the machine
    with a limit instead, again and again.  Each call but the last ends with the error for the
    limit and makes as many steps as the limit allows, and the last one gives the value and
    leaves the machine that the run leaves.  Together the calls do what the run does. -/
theorem run_bounded (hlimit : 1 ≤ limit) (h : m.run p ⟨maxDepth, none⟩ = (.ok v, m')) :
    let os := m.outcomes p ⟨maxDepth, none⟩
    let last := os.length ⌈/⌉ limit - 1
    let called (k : Nat) := (fun m => (run p ⟨maxDepth, some limit⟩ m).2)^[k] m
    (∀ k < last, ((called k).run p ⟨maxDepth, some limit⟩).1 = .error (.stepLimit limit) ∧
      (called k).outcomes p ⟨maxDepth, some limit⟩ = (os.drop (k * limit)).take limit ∧
      ((called k).outcomes p ⟨maxDepth, some limit⟩).length = limit) ∧
    (called last).run p ⟨maxDepth, some limit⟩ = (.ok v, m') ∧
    (called last).outcomes p ⟨maxDepth, some limit⟩ = os.drop (last * limit) := by
  intro os last called
  have hlast : last = (os.length - 1) / limit := ceilDiv_sub_one hlimit os.length
  clear_value last
  have hportion := run_portion limit h
  dsimp only at hportion
  induction last generalizing m with
  | zero =>
    have hle : os.length ≤ limit := by
      have := (Nat.div_eq_zero_iff_lt hlimit).1 hlast.symm
      omega
    rw [if_pos hle] at hportion
    refine ⟨nofun, hportion.1, ?_⟩
    rw [Nat.zero_mul, List.drop_zero]
    exact hportion.2
  | succ last ih =>
    have hgt : ¬os.length ≤ limit := fun hle => by
      rw [Nat.div_eq_of_lt (by omega)] at hlast
      cases hlast
    rw [if_neg hgt] at hportion
    obtain ⟨m₁, hrun, houtcomes, hrest, hos⟩ := hportion
    have hnext : last = ((m₁.outcomes p ⟨maxDepth, none⟩).length - 1) / limit := by
      have hsub : os.length - 1 - limit * 1 = os.length - limit - 1 := by omega
      rw [hos, List.length_drop, ← hsub, Nat.sub_mul_div, ← hlast, Nat.add_sub_cancel]
    obtain ⟨hfirst, hend, hends⟩ := ih hrest hnext (run_portion limit hrest)
    have hcalled (k : Nat) : called (k + 1) = (fun m => (run p ⟨maxDepth, some limit⟩ m).2)^[k] m₁ := by
      show (fun m => (run p ⟨maxDepth, some limit⟩ m).2)^[k] (m.run p ⟨maxDepth, some limit⟩).2 = _
      rw [hrun]
    have hdrop (k : Nat) : (os.drop limit).drop (k * limit) = os.drop ((k + 1) * limit) := by
      rw [List.drop_drop, Nat.add_mul, Nat.one_mul, Nat.add_comm]
    rw [hos] at hfirst hends
    refine ⟨fun k hk => ?_, ?_, ?_⟩
    · cases k with
      | zero =>
        have hm : called 0 = m := rfl
        rw [hm, hrun, houtcomes, Nat.zero_mul, List.drop_zero, List.length_take]
        exact ⟨rfl, rfl, Nat.min_eq_left (Nat.le_of_not_le hgt)⟩
      | succ k =>
        rw [hcalled, ← hdrop]
        exact hfirst k (Nat.lt_of_succ_lt_succ hk)
    · rw [hcalled]
      exact hend
    · rw [hcalled, ← hdrop]
      exact hends

/-- A machine none of whose next steps fails makes them. -/
theorem makes_after {n : Nat}
    (h : ∀ k < n, ((after p ⟨maxDepth, none⟩ k m).step p ⟨maxDepth, none⟩).1.toOption.isSome) :
    ∃ os, os.length = n ∧ Makes p maxDepth m os (after p ⟨maxDepth, none⟩ n m) := by
  induction n generalizing m with
  | zero => exact ⟨[], rfl, .refl m⟩
  | succ n ih =>
    rcases hs : m.step p ⟨maxDepth, none⟩ with ⟨e | o, m₁⟩
    · have hfirst := h 0 (Nat.succ_pos n)
      rw [after, hs] at hfirst
      cases hfirst
    · obtain ⟨os, hlength, hmakes⟩ := ih (m := m₁) fun k hk => by
        have := h (k + 1) (Nat.succ_lt_succ hk)
        rwa [after, hs] at this
      refine ⟨o :: os, congrArg (· + 1) hlength, .step hs ?_⟩
      rw [after, hs]
      exact hmakes

/-- The first run of `switch` makes eight steps, and three at a time they take three calls. -/
theorem run_bounded_switch :
    ∃ v m', (initial default).run switch ⟨defaultMaxDepth, none⟩ = (.ok v, m') ∧
      ((initial default).outcomes switch ⟨defaultMaxDepth, none⟩).length = 8 ∧
      ((fun m => (run switch ⟨defaultMaxDepth, some 3⟩ m).2)^[2] (initial default)).run switch
        ⟨defaultMaxDepth, some 3⟩ = (.ok v, m') := by
  let started := (initial default).start switch
  obtain ⟨hsteps, hclosed, hresult⟩ :
      (∀ k < 8, ((after switch ⟨defaultMaxDepth, none⟩ k started).step switch
        ⟨defaultMaxDepth, none⟩).1.toOption.isSome) ∧
      (after switch ⟨defaultMaxDepth, none⟩ 8 started).frames.isEmpty = true ∧
      (after switch ⟨defaultMaxDepth, none⟩ 8 started).result.isSome = true := by
    decide +kernel
  obtain ⟨v, hv⟩ := Option.isSome_iff_exists.1 hresult
  obtain ⟨os, hlength, hmakes⟩ := makes_after hsteps
  obtain ⟨hrun, hos⟩ := hmakes.resume_closed none 0 hclosed hv fun _ _ => rfl
  have hcount : ((initial default).outcomes switch ⟨defaultMaxDepth, none⟩).length = 8 := by
    rw [← hlength]
    exact congrArg List.length hos
  have hpos : 1 ≤ 3 := by decide
  have hlast := (run_bounded (m := initial default) hpos hrun).2.1
  rw [hcount] at hlast
  exact ⟨v, _, hrun, hcount, hlast⟩

end Arbor.Machine
