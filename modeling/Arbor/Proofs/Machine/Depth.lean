/-
  The limit on open evaluations.

  A step opens a frame only where the limit leaves room for it, and raises an exception
  where it does not.  Nothing else reads the limit, and nothing catches an exception: so a
  run that does not end with the one for the limit never came near it, and goes the same
  way under every greater limit.

  * `Outcome.isFull`: the run ended because too many evaluations were open.

  Main statements: `step_depth_le`, what a step does to the number of frames;
  `step_of_le`, a step under a greater limit; `Makes.unwinding`, what follows an exception;
  `Makes.of_le`, steps in a row under a greater limit; `depth_limited`, the limit in the
  states of a machine and in its runs.
-/
import Arbor.Proofs.Machine.Bounded
import Arbor.Proofs.Machine.Unwinding

namespace Arbor

/-- Whether the program gave the exception for too many open evaluations. -/
def Outcome.isFull : Outcome → Bool
  | completed (.exception e) => e.kind == .full
  | _ => false

namespace Machine

variable {p : Program} {limits : Limits} {m m₁ m' : Machine} {g : Frame} {below : List Frame}
variable {s : Step}

/-! ## The number of frames -/

theorem depth_beginRun (m : Machine) (reevaluating : Bool) :
    (m.beginRun p reevaluating).depth = 1 := rfl

/-- The end of a run leaves no frame, or that of the next run. -/
theorem depth_endRun_le (m : Machine) (v : Value) : (m.endRun p v).depth ≤ 1 := by
  rcases endRun_cases p m v with ⟨-, he⟩ | ⟨_, _, _, -, he⟩ <;> rw [he]
  · exact Nat.zero_le 1
  · exact Nat.le_refl 1

theorem depth_settle_le :
    (m.settle p g below s).2.depth ≤ below.length + 1 := by
  unfold settle complete
  split
  · split
    · exact Nat.le_succ _
    · exact Nat.le_trans (depth_endRun_le _ _) (Nat.le_add_left 1 _)
    · exact Nat.le_succ _
  · exact Nat.le_refl _

/-- A frame is opened only below the limit. -/
theorem depth_act_le (action : Action) :
    (m.act p limits g below s action).2.depth ≤ max (below.length + 1) limits.maxDepth := by
  have settled (h : Frame) :
      (m.settle p h below s).2.depth ≤ max (below.length + 1) limits.maxDepth :=
    Nat.le_trans depth_settle_le (Nat.le_max_left ..)
  have raised (e : Exception) :
      (m.raise g below s e).2.depth ≤ max (below.length + 1) limits.maxDepth :=
    Nat.le_max_left ..
  cases action with
  | proceed => exact settled g
  | skip count => exact settled _
  | jump offset =>
    unfold act
    dsimp only
    split
    · exact Nat.le_max_left ..
    · exact settled _
  | raise e => exact raised e
  | call c =>
    show (m.enter p limits g below s c).2.depth ≤ _
    unfold enter
    split
    · exact raised _
    · next hroom =>
      split
      · exact raised _
      · exact Nat.le_trans (Nat.lt_of_not_le hroom) (Nat.le_max_right ..)

variable (p limits m) in
/-- A step adds no frame beyond the limit. -/
theorem step_depth_le : (m.step p limits).2.depth ≤ max m.depth (max 1 limits.maxDepth) := by
  cases hm : m.frames with
  | nil =>
    rw [step_closed hm]
    exact Nat.le_max_left ..
  | cons f below =>
    have hdepth : m.depth = below.length + 1 := congrArg List.length hm
    rw [hdepth]
    cases hf : f.exception? with
    | some e =>
      rw [step_unwinding hm (f.exception?_eq_some_iff.1 hf)]
      cases below with
      | nil => exact Nat.le_trans (depth_endRun_le _ _) (by omega)
      | cons caller rest => exact Nat.le_trans (Nat.le_succ _) (Nat.le_max_left ..)
    | none =>
      cases hc : f.code with
      | nil =>
        rw [step_stuck hm hf hc]
        exact Nat.le_max_left ..
      | cons s rest =>
        rw [step_running hm hf hc rfl]
        exact Nat.le_trans (depth_act_le _) (by omega)

/-- **The limit is respected.**  After every history, no more evaluations are open than the
    limit allows, or only that of the program. -/
theorem Reachable.depth_le {allowed : Value → Prop} (h : Reachable p limits allowed m) :
    m.depth ≤ max 1 limits.maxDepth := by
  refine h.induct (P := fun m => m.depth ≤ max 1 limits.maxDepth) ?_ ?_ ?_ ?_ ?_
  · exact fun memo => Nat.zero_le _
  · exact fun m _ => Nat.le_max_left ..
  · exact fun m _ => Nat.le_max_left ..
  · exact fun m hm => Nat.le_trans (step_depth_le p limits m) (Nat.max_le.2 ⟨hm, Nat.le_refl _⟩)
  · intro m m' n v hm _ hinput
    obtain ⟨id, -, ⟨-, rfl⟩ | ⟨-, rfl⟩⟩ := streamInput_cases hinput
    · exact Nat.le_max_left ..
    · exact hm

/-! ## A greater limit -/

/-- The top frame unwinds because too many evaluations are open. -/
def Overflows (m : Machine) : Prop :=
  ∃ e : Exception, e.kind = .full ∧ m.frames.head?.bind Frame.exception? = some e

section
variable {d d' : Nat} (hd : d ≤ d') {steps : Option Nat}
include hd

/-- Only a call asks for the limit, and one that finds no room for its frame says so. -/
theorem act_of_le (action : Action) :
    m.act p ⟨d', steps⟩ g below s action = m.act p ⟨d, steps⟩ g below s action ∨
      (m.act p ⟨d, steps⟩ g below s action).2.Overflows := by
  cases action with
  | call c =>
    show m.enter p ⟨d', steps⟩ g below s c = m.enter p ⟨d, steps⟩ g below s c ∨
      (m.enter p ⟨d, steps⟩ g below s c).2.Overflows
    unfold enter
    by_cases hfull : d ≤ below.length + 1
    · rw [if_pos hfull]
      exact .inr ⟨⟨.full, c.creator⟩, rfl, rfl⟩
    · rw [if_neg hfull, if_neg fun h => hfull (Nat.le_trans hd h)]
      exact .inl rfl
  | _ => exact .inl rfl

variable (p m steps) in
/-- **A step under a greater limit** does the same, unless it raises the exception for the
    limit under the smaller one. -/
theorem step_of_le :
    m.step p ⟨d', steps⟩ = m.step p ⟨d, steps⟩ ∨ (m.step p ⟨d, steps⟩).2.Overflows := by
  cases hm : m.frames with
  | nil => exact .inl (by rw [step_closed hm, step_closed hm])
  | cons f below =>
    cases hf : f.exception? with
    | some e =>
      have hunwinding := f.exception?_eq_some_iff.1 hf
      exact .inl (by rw [step_unwinding hm hunwinding, step_unwinding hm hunwinding])
    | none =>
      cases hc : f.code with
      | nil => exact .inl (by rw [step_stuck hm hf hc, step_stuck hm hf hc])
      | cons s rest =>
        rw [step_running hm hf hc rfl, step_running hm hf hc rfl]
        exact act_of_le hd _

end

/-! ## Steps in a row -/

/-- The machine that a run ends with does not unwind. -/
theorem head_endRun (m : Machine) (v : Value) :
    (m.endRun p v).frames.head?.bind Frame.exception? = none := by
  rcases endRun_cases p m v with ⟨-, he⟩ | ⟨_, _, _, -, he⟩ <;> rw [he] <;> rfl

variable {d d' : Nat} {os : List Outcome} {v : Value}

/-- **What follows an exception.**  Steps in a row of a machine that unwinds end the run with
    the exception, or have not ended it. -/
theorem Makes.unwinding (h : Makes p d m os m') {e : Exception}
    (he : m.frames.head?.bind Frame.exception? = some e) :
    .completed (.exception e) ∈ os ∨ m'.frames.head?.bind Frame.exception? = some e := by
  induction h with
  | refl m => exact .inr he
  | @step m m₁ m' o os hs _ ih =>
    obtain ⟨f, hf, hunwinding⟩ := Option.bind_eq_some_iff.1 he
    obtain ⟨below, hm⟩ := List.head?_eq_some_iff.1 hf
    rw [step_unwinding hm (f.exception?_eq_some_iff.1 hunwinding)] at hs
    cases below with
    | nil =>
      cases hs
      exact .inl List.mem_cons_self
    | cons caller rest =>
      cases hs
      exact (ih rfl).imp_left (List.mem_cons_of_mem _)

/-- **Steps in a row under a greater limit** are the same, if none of them ends a run with
    the exception for the limit and the last leaves no frame that unwinds for it. -/
theorem Makes.of_le (hd : d ≤ d') (h : Makes p d m os m') (hos : ∀ o ∈ os, o.isFull = false)
    (hm' : ¬m'.Overflows) : Makes p d' m os m' := by
  induction h with
  | refl m => exact .refl m
  | @step m m₁ m' o os hs h ih =>
    have hrest := ih (fun o ho => hos o (List.mem_cons_of_mem _ ho)) hm'
    rcases step_of_le p m hd none with heq | ⟨e, hfull, he⟩
    · exact .step (heq.trans hs) hrest
    · rw [hs] at he
      rcases h.unwinding he with hmem | hunwinding
      · have hnot : (Outcome.completed (.exception e)).isFull = false :=
          hos _ (List.mem_cons_of_mem _ hmem)
        exact absurd hfull (beq_eq_false_iff_ne.1 hnot)
      · exact absurd ⟨e, hfull, hunwinding⟩ hm'

/-- A machine with a run that is over, or none, does not unwind. -/
theorem not_overflows_of_isEmpty (hm : m.frames.isEmpty = true) : ¬m.Overflows := by
  rintro ⟨e, -, he⟩
  rw [List.isEmpty_iff.1 hm] at he
  cases he

/-- What a step asks for completes a run only by ending it. -/
theorem endRun_of_act {action : Action}
    (h : m.act p limits g below s action = (.ok (.completed v), m')) :
    ∃ m₁ : Machine, m' = m₁.endRun p v := by
  have settled {g : Frame} (h : m.settle p g below s = (.ok (.completed v), m')) :
      ∃ m₁ : Machine, m' = m₁.endRun p v := by
    unfold settle complete at h
    split at h
    · split at h <;> cases h
      exact ⟨m, rfl⟩
    · cases h
  cases action with
  | proceed => exact settled h
  | skip count => exact settled h
  | jump offset =>
    unfold act at h
    dsimp only at h
    split at h
    · cases h
    · exact settled h
  | raise e => cases h
  | call c =>
    change m.enter p limits g below s c = _ at h
    unfold enter at h
    split at h
    · cases h
    · split at h <;> cases h

/-- A step that completes a run ends it. -/
theorem endRun_of_completed (h : m.step p limits = (.ok (.completed v), m')) :
    ∃ m₁ : Machine, m' = m₁.endRun p v := by
  cases hm : m.frames with
  | nil => rw [step_closed hm] at h; cases h
  | cons f below =>
    cases hf : f.exception? with
    | some e =>
      rw [step_unwinding hm (f.exception?_eq_some_iff.1 hf)] at h
      cases below with
      | nil => cases h; exact ⟨m, rfl⟩
      | cons caller rest => cases h
    | none =>
      cases hc : f.code with
      | nil => rw [step_stuck hm hf hc] at h; cases h
      | cons s rest =>
        rcases he : p.execute m f.advance below s with ⟨g, m₁, action⟩
        rw [step_running hm hf hc he] at h
        exact endRun_of_act h

/-- After a step that completes a run, no frame unwinds. -/
theorem Makes.not_overflows (h : Makes p d m (os ++ [.completed v]) m') : ¬m'.Overflows := by
  generalize hall : os ++ [.completed v] = all at h
  induction h generalizing os with
  | refl m => exact absurd hall (by simp)
  | @step m m₁ m' o rest hs h ih =>
    cases os with
    | cons o' os =>
      obtain ⟨-, hrest⟩ := List.cons.inj hall
      exact ih hrest
    | nil =>
      obtain ⟨rfl, rfl⟩ := List.cons.inj hall
      cases h
      obtain ⟨m₁, rfl⟩ := endRun_of_completed hs
      rintro ⟨e, -, he⟩
      rw [head_endRun] at he
      cases he

/-- **The limit on open evaluations.**  It is respected in every state, except that the
    program itself is always open.  A run of a machine that ends with anything but the
    exception for the limit consists of the same steps under every greater limit, and ends
    with the same value; and so does a call that also runs the inputs that wait. -/
theorem depth_limited (p : Program) :
    (∀ limits allowed m, Reachable p limits allowed m → m.depth ≤ max 1 limits.maxDepth) ∧
    ∀ d d', d ≤ d' → ∀ (m : Machine) v m',
      (∀ os, Makes p d m (os ++ [.completed v]) m' → (∀ o ∈ os, o.isCompleted = false) →
        (Outcome.completed v).isFull = false → Makes p d' m (os ++ [.completed v]) m') ∧
      ∀ steps, m.run p ⟨d, steps⟩ = (.ok v, m') →
        (∀ o ∈ m.outcomes p ⟨d, steps⟩, o.isFull = false) →
          m.run p ⟨d', steps⟩ = (.ok v, m') ∧
            m.outcomes p ⟨d', steps⟩ = m.outcomes p ⟨d, steps⟩ := by
  refine ⟨fun limits allowed m h => h.depth_le, fun d d' hd m v m' => ⟨?_, ?_⟩⟩
  · intro os h hos hv
    refine h.of_le hd (fun o ho => ?_) h.not_overflows
    rcases List.mem_append.1 ho with ho | ho
    · have hopen := hos o ho
      cases o <;> first | rfl | cases hopen
    · rw [List.mem_singleton.1 ho]
      exact hv
  · intro steps h hos
    unfold run outcomes at *
    generalize (if m.frames.isEmpty && m.result.isNone then m.start p else m) = begun at h hos ⊢
    obtain ⟨hmakes, hclosed, hresult, hallowed⟩ := makes_of_resume h
    exact (hmakes.of_le hd hos (not_overflows_of_isEmpty hclosed)).resume_closed steps 0 hclosed
      hresult hallowed

/-! ## A call under three limits -/

/-- What steps in a row do, one by one. -/
theorem Makes.outcome {k : Nat} {o : Outcome} (h : Makes p d m os m') (ho : os[k]? = some o) :
    ((m.after p ⟨d, none⟩ k).step p ⟨d, none⟩).1 = .ok o := by
  induction h generalizing k with
  | refl m => cases ho
  | @step m m₁ m' o' rest hs _ ih =>
    cases k with
    | zero =>
      cases ho
      rw [after, hs]
    | succ k =>
      rw [after, hs]
      exact ih ho

/-- The machine of `inside` whose stream was given a value. -/
def fed : Machine := ((initial default).streamInput inside switchName (.bool true)).toOption.getD
  (initial default)

/-- The function of `inside` needs a second evaluation: under a limit of two the program
    gives the value of the stream, and so it does under a greater limit, but not under one. -/
theorem depth_limited_fed :
    Reachable inside ⟨2, none⟩ (fun _ => True) fed ∧ (fed.run inside ⟨2, none⟩).2.depth ≤ 2 ∧
    ∃ v m', v.exception? = none ∧ fed.run inside ⟨2, none⟩ = (.ok v, m') ∧
      fed.run inside ⟨defaultMaxDepth, none⟩ = (.ok v, m') ∧
      ((fed.after inside ⟨1, none⟩ 7).result.bind Value.exception?).map (·.kind) = some .full := by
  obtain ⟨hfed, hopen, hsteps, hos, hclosed, hresult, hfull⟩ :
      ((initial default).streamInput inside switchName (.bool true)).toOption.isSome = true ∧
      fed.frames.isEmpty = false ∧
      (∀ k < 10, ((after inside ⟨2, none⟩ k fed).step inside ⟨2, none⟩).1.toOption.isSome) ∧
      (∀ k < 10, ((after inside ⟨2, none⟩ k fed).step inside ⟨2, none⟩).1.toOption.all
        (!·.isFull)) ∧
      (after inside ⟨2, none⟩ 10 fed).frames.isEmpty = true ∧
      (after inside ⟨2, none⟩ 10 fed).result.any (·.exception?.isNone) = true ∧
      ((fed.after inside ⟨1, none⟩ 7).result.bind Value.exception?).map (·.kind) =
        some .full := by
    decide +kernel
  have hreachable : Reachable inside ⟨2, none⟩ (fun _ => True) fed := by
    unfold fed
    cases hm : (initial default).streamInput inside switchName (.bool true) with
    | error e => rw [hm] at hfed; cases hfed
    | ok m => exact .streamInput (.initial default) trivial hm
  obtain ⟨v, hv, hnone⟩ := (Option.any_eq_true _ _).1 hresult
  obtain ⟨os, hlength, hmakes⟩ := makes_after hsteps
  have hrun := hmakes.resume_closed none 0 hclosed hv fun _ _ => rfl
  have hfits : ∀ o ∈ os, o.isFull = false := by
    intro o ho
    obtain ⟨k, hk⟩ := List.mem_iff_getElem?.1 ho
    have hlt : k < 10 := hlength ▸ (List.getElem?_eq_some_iff.1 hk).1
    have := hos k hlt
    rw [hmakes.outcome hk] at this
    simpa [Except.toOption] using this
  -- The machine is open already, so a call goes on with it.
  have hbegun (limits : Limits) : fed.run inside limits = fed.resume inside limits 0 ∧
      fed.outcomes inside limits = fed.outcomesFrom inside limits 0 := by
    unfold run outcomes
    rw [hopen]
    exact ⟨rfl, rfl⟩
  have hsmall : fed.run inside ⟨2, none⟩ = (.ok v, after inside ⟨2, none⟩ 10 fed) :=
    (hbegun _).1.trans hrun.1
  obtain ⟨hdepth, hgreater⟩ := depth_limited inside
  have hle : 2 ≤ defaultMaxDepth := by decide
  have hgreat := (hgreater 2 defaultMaxDepth hle fed v _).2 none hsmall (by
    rw [(hbegun _).2, hrun.2]
    exact hfits)
  exact ⟨hreachable, hdepth ⟨2, none⟩ _ _ hreachable.run, v, _,
    Option.isNone_iff_eq_none.1 hnone, hsmall, hgreat.1, hfull⟩

end Machine

end Arbor
