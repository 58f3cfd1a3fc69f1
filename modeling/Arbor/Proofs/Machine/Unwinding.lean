/-
  Unwinding.

  Once a frame raises an exception, no step is executed any more: each step takes the top
  frame away together with its values, and the last one ends the run with the exception.
  So a run has raised an exception when it ends just if its result is one, because no
  exception is ever left as a value.

  Main statements: `unwinds`, what the steps of an unwinding machine do; `Course.raised`,
  what the steps of a run have raised; `exceptions_unwind`, both for whole runs.
-/
import Arbor.Proofs.Machine.Discipline

namespace Arbor

/-- The frame does not unwind, and none of its values is an exception. -/
structure Frame.Quiet (f : Frame) : Prop where
  running : f.exception? = none
  operands : ∀ v ∈ f.operands, v.exception? = none

namespace Machine

variable {p : Program} {limits : Limits} {m m' : Machine} {f : Frame} {below : List Frame}
variable {e : Exception}

/-! ## Frames are taken away -/

/-- The exception takes all frames of the machine away, one with each step. -/
structure Unwinds (p : Program) (limits : Limits) (m : Machine) (e : Exception) : Prop where
  /-- Each step but the last takes the top frame away, and tells its creator. -/
  unwound : ∀ k creator, k + 1 < m.depth → (m.frames.map Frame.creator)[k]? = some creator →
    ((m.after p limits k).step p limits).1 = .ok (.unwound creator)
  /-- The last step gives the exception. -/
  completed : ((m.after p limits (m.depth - 1)).step p limits).1 = .ok (.completed (.exception e))
  /-- The frames below the one that is taken away next stand as they did. -/
  tails : ∀ k < m.depth, (m.after p limits k).frames.tail = m.frames.drop (k + 1)
  /-- The scopes and what is remembered stand as they did until the last step. -/
  store : ∀ k < m.depth, (m.after p limits k).store = m.store
  /-- No step is executed. -/
  stepsTaken : ∀ k ≤ m.depth, (m.after p limits k).stepsTaken = m.stepsTaken
  /-- The end of the run changes no scope. -/
  scopes : ∀ id scope, m.store.scopes.get? id = some scope →
    (m.after p limits m.depth).store.scopes.get? id = some scope
  /-- The values of a frame go with the frame. -/
  values : ∀ k base, (bases m.frames)[k]? = some base →
    (m.after p limits (k + 1)).values = m.values.take base
  /-- No values are left in the end. -/
  empty : (m.after p limits m.depth).values = []

/-- The values below the top frame come first. -/
theorem values_of_frames (hm : m.frames = f :: below) :
    m.values = (below.flatMap Frame.operands).reverse ++ f.operands.reverse := by
  rw [values, hm, List.flatMap_cons, List.reverse_append]

theorem take_values (hm : m.frames = f :: below) :
    m.values.take (below.flatMap Frame.operands).length =
      (below.flatMap Frame.operands).reverse := by
  rw [values_of_frames hm, List.take_left' (List.length_reverse)]

/-- The end of a run leaves no values, and only adds a scope. -/
theorem endRun_ended (m : Machine) (v : Value) :
    (m.endRun p v).values = [] ∧ (m.endRun p v).stepsTaken = m.stepsTaken ∧
      ∀ id scope, m.store.scopes.get? id = some scope →
        (m.endRun p v).store.scopes.get? id = some scope := by
  rcases endRun_cases p m v with ⟨-, he⟩ | ⟨_, _, _, -, he⟩ <;> rw [he]
  · exact ⟨rfl, rfl, fun _ _ h => h⟩
  · refine ⟨rfl, rfl, fun id scope h => ?_⟩
    show (m.store.scopes.add _).2.get? id = some scope
    refine (Array.getElem?_push).trans ?_
    rw [if_neg]
    · exact h
    · intro hid
      have hnone : m.store.scopes.get? id = none := Array.getElem?_eq_none (Nat.le_of_eq hid.symm)
      rw [h] at hnone
      cases hnone

/-- **Unwinding.**  If the top frame of a machine unwinds for an exception, each step takes
    a frame and its values away and changes nothing else, and the last one gives the
    exception. -/
theorem unwinds (hm : m.frames = f :: below) (hf : f.phase = .unwinding e) :
    Unwinds p limits m e := by
  induction below generalizing m f with
  | nil =>
    have hstep : m.step p limits = (.ok (.completed (.exception e)), m.endRun p (.exception e)) :=
      step_unwinding hm hf
    have hdepth : m.depth = 1 := by rw [depth, hm]; rfl
    have hafter : m.after p limits 1 = m.endRun p (.exception e) := by rw [after, hstep]; rfl
    obtain ⟨hvalues, htaken, hscopes⟩ := endRun_ended (p := p) m (.exception e)
    refine ⟨?_, ?_, ?_, ?_, ?_, ?_, ?_, ?_⟩
    · rw [hdepth]
      omega
    · rw [hdepth]
      exact congrArg Prod.fst hstep
    · intro k hk
      obtain rfl : k = 0 := by omega
      rw [after, hm]
      rfl
    · intro k hk
      obtain rfl : k = 0 := by omega
      rfl
    · intro k hk
      obtain rfl | rfl : k = 0 ∨ k = 1 := by omega
      · rfl
      · rw [hafter, htaken]
    · rw [hdepth, hafter]
      exact hscopes
    · intro k base hk
      rw [hm] at hk
      cases k with
      | zero =>
        cases hk
        rw [hafter, hvalues]
        rfl
      | succ k => cases hk
    · rw [hdepth, hafter, hvalues]
  | cons caller rest ih =>
    let next : Machine := { m with frames := { caller with phase := .unwinding e } :: rest }
    have hstep : m.step p limits = (.ok (.unwound f.creator), next) := step_unwinding hm hf
    have hafter (k : Nat) : m.after p limits (k + 1) = next.after p limits k := by
      rw [after, hstep]
    have hnext : Unwinds p limits next e := ih rfl rfl
    have hdepth : m.depth = next.depth + 1 := by rw [depth, hm]; rfl
    have hpos : 0 < next.depth := Nat.succ_pos _
    refine ⟨?_, ?_, ?_, ?_, ?_, ?_, ?_, ?_⟩
    · intro k creator hk hcreator
      rw [hm] at hcreator
      cases k with
      | zero =>
        cases hcreator
        exact congrArg Prod.fst hstep
      | succ k =>
        rw [hafter]
        exact hnext.unwound k creator (by omega) hcreator
    · have hlast : m.depth - 1 = next.depth - 1 + 1 := by omega
      rw [hlast, hafter]
      exact hnext.completed
    · intro k hk
      rw [hm]
      cases k with
      | zero =>
        rw [after, hm]
        rfl
      | succ k =>
        rw [hafter]
        exact hnext.tails k (by omega)
    · intro k hk
      cases k with
      | zero => rfl
      | succ k =>
        rw [hafter]
        exact hnext.store k (by omega)
    · intro k hk
      cases k with
      | zero => rfl
      | succ k =>
        rw [hafter]
        exact hnext.stepsTaken k (by omega)
    · rw [hdepth, hafter]
      exact hnext.scopes
    · have hvalues : next.values = m.values.take ((caller :: rest).flatMap Frame.operands).length :=
        (take_values hm).symm
      intro k base hk
      rw [hafter]
      rw [hm] at hk
      cases k with
      | zero =>
        cases hk
        exact hvalues
      | succ k =>
        have hle : base ≤ ((caller :: rest).flatMap Frame.operands).length :=
          bases_le (caller :: rest) base (List.mem_of_getElem? hk)
        rw [hnext.values k base hk, hvalues, List.take_take, Nat.min_eq_left hle]
    · rw [hdepth, hafter]
      exact hnext.empty

/-! ## What the steps of a run raise -/

/-- The exception that a step raised: it was executed, and left an unwinding frame. -/
def raised : Result → List Exception
  | (.ok (.executed _), m) => (m.frames.head?.bind Frame.exception?).toList
  | _ => []

/-- The course of a run that has not ended: steps, and inputs that wait for its end.  The
    exceptions that steps raised are listed, the earliest first. -/
inductive Course (p : Program) (limits : Limits) (begun : Machine) :
    List Exception → Machine → Prop
  | begin : Course p limits begun [] begun
  | step {es : List Exception} {m : Machine} : Course p limits begun es m →
      (∀ v, (m.step p limits).1 ≠ .ok (.completed v)) →
      Course p limits begun (es ++ raised (m.step p limits)) (m.step p limits).2
  | input {es : List Exception} {m m' : Machine} {n : Name} {v : Value} :
      Course p limits begun es m → m.frames ≠ [] → m.streamInput p n v = .ok m' →
      Course p limits begun es m'

/-- At most one exception was raised, and if one was, then the top frame unwinds for it; all
    other frames are quiet. -/
inductive Raised : List Exception → List Frame → Prop
  | none {frames : List Frame} : (∀ f ∈ frames, f.Quiet) → Raised [] frames
  | one {f : Frame} {below : List Frame} {e : Exception} :
      f.phase = .unwinding e → (∀ g ∈ below, g.Quiet) → Raised [e] (f :: below)

/-- The step ends the run with the value of its only exception, or else with a value that is
    none. -/
def Goes (es : List Exception) (r : Result) : Prop :=
  (∃ v, r.1 = .ok (.completed v) ∧ v.exception? = es.head?) ∨
    (∀ v, r.1 ≠ .ok (.completed v)) ∧ Raised (es ++ raised r) r.2.frames

/-- A step that leaves quiet frames raised nothing. -/
theorem goes_on {r : Result} {frames : List Frame} (hr : r.2.frames = frames)
    (hopen : ∀ v, r.1 ≠ .ok (.completed v)) (h : ∀ f ∈ frames, f.Quiet) : Goes [] r := by
  subst hr
  have hnone : r.2.frames.head?.bind Frame.exception? = none := by
    cases hr : r.2.frames with
    | nil => rfl
    | cons f below => exact (h f (by simp [hr])).running
  have hraised : raised r = [] := by
    unfold raised
    split
    · rw [hnone]
      rfl
    · rfl
  exact .inr ⟨hopen, by rw [hraised]; exact .none h⟩

section
variable {m₁ : Machine} {g : Frame} {s : Step} (hg : g.Quiet) (hbelow : ∀ f ∈ below, f.Quiet)
include hbelow

theorem goes_raise (e : Exception) : Goes [] (m₁.raise g below s e) :=
  .inr ⟨nofun, .one rfl hbelow⟩

include hg

/-- A frame that is done leaves a value that is no exception. -/
theorem goes_settle : Goes [] (m₁.settle p g below s) := by
  unfold settle complete
  split
  · split
    · exact goes_on rfl nofun hbelow
    · next v vs hops => exact .inl ⟨v, rfl, hg.operands v (by simp [hops])⟩
    · next v vs caller rest hops =>
      obtain ⟨hcaller, hrest⟩ := List.forall_mem_cons.1 hbelow
      have hpush : (caller.push v).Quiet := by
        refine ⟨hcaller.running, List.forall_mem_cons.2 ⟨?_, hcaller.operands⟩⟩
        exact hg.operands v (by simp [hops])
      exact goes_on rfl nofun (List.forall_mem_cons.2 ⟨hpush, hrest⟩)
  · exact goes_on rfl nofun (List.forall_mem_cons.2 ⟨hg, hbelow⟩)

theorem goes_act (action : Action) : Goes [] (m₁.act p limits g below s action) := by
  have moved (pc : Nat) : Frame.Quiet { g with pc } := ⟨hg.running, hg.operands⟩
  have hopen : ∀ f ∈ g :: below, f.Quiet := List.forall_mem_cons.2 ⟨hg, hbelow⟩
  cases action with
  | proceed => exact goes_settle hg hbelow
  | skip count => exact goes_settle (moved _) hbelow
  | jump offset =>
    unfold act
    dsimp only
    split
    · exact goes_on rfl nofun hopen
    · exact goes_settle (moved _) hbelow
  | raise e => exact goes_raise hbelow e
  | call c =>
    unfold act enter
    dsimp only
    split
    · exact goes_raise hbelow _
    · split
      · exact goes_raise hbelow _
      · exact goes_on rfl nofun (List.forall_mem_cons.2 ⟨⟨rfl, nofun⟩, hopen⟩)

end

/-- A step of quiet frames raises an exception and leaves the frame unwinding, or leaves
    quiet frames. -/
theorem goes_quiet (h : ∀ f ∈ m.frames, f.Quiet) : Goes [] (m.step p limits) := by
  cases hm : m.frames with
  | nil =>
    rw [step_closed hm]
    exact goes_on rfl nofun h
  | cons f below =>
    obtain ⟨hf, hbelow⟩ := List.forall_mem_cons.1 (hm ▸ h)
    cases hc : f.code with
    | nil =>
      rw [step_stuck hm hf.running hc]
      exact goes_on rfl nofun (List.forall_mem_cons.2 ⟨⟨rfl, hf.operands⟩, hbelow⟩)
    | cons s rest =>
      obtain ⟨vs, hg, hvs⟩ := Program.execute_frame (p := p) m f.advance below s
      rcases hr : p.execute m f.advance below s with ⟨g, m₁, action⟩
      rw [hr] at hg
      rw [step_running hm hf.running hc hr]
      have hquiet : g.Quiet := by
        rw [show g = _ from hg]
        exact ⟨rfl, fun v hv => (hvs v hv).elim (hf.operands v) id⟩
      exact goes_act hquiet hbelow action

/-- A step of an unwinding frame raises nothing. -/
theorem goes_unwinding (hm : m.frames = f :: below) (hf : f.phase = .unwinding e)
    (hbelow : ∀ g ∈ below, g.Quiet) : Goes [e] (m.step p limits) := by
  rw [step_unwinding hm hf]
  cases below with
  | nil => exact .inl ⟨.exception e, rfl, rfl⟩
  | cons caller rest => exact .inr ⟨nofun, .one rfl fun g hg => hbelow g (by simp [hg])⟩

theorem Raised.length_le {es : List Exception} {frames : List Frame} (h : Raised es frames) :
    es.length ≤ 1 := by
  cases h
  · exact Nat.zero_le 1
  · exact Nat.le_refl 1

variable (p limits) in
theorem Raised.goes {es : List Exception} (h : Raised es m.frames) : Goes es (m.step p limits) := by
  cases hm : m.frames with
  | nil =>
    rw [hm] at h
    cases h
    exact goes_quiet (by rw [hm]; nofun)
  | cons f below =>
    rw [hm] at h
    cases h with
    | none h => exact goes_quiet (by rw [hm]; exact h)
    | one hf hbelow => exact goes_unwinding hm hf hbelow

/-- **What was raised.**  The steps of a run that has not ended have raised an exception just
    if the top frame unwinds, and no more than that one. -/
theorem Course.raised {begun : Machine} {reevaluating : Bool} {es : List Exception}
    (h : Course p limits (begun.beginRun p reevaluating) es m) : Raised es m.frames := by
  induction h with
  | begin =>
    refine .none fun f hf => ?_
    rw [List.mem_singleton.1 hf]
    exact ⟨rfl, nofun⟩
  | step _ hopen ih =>
    rcases ih.goes p limits with ⟨v, hv, -⟩ | ⟨-, hraised⟩
    · exact absurd hv (hopen v)
    · exact hraised
  | @input es m m' n v _ hopen hm ih =>
    obtain ⟨id, -, ⟨hclosed, -⟩ | ⟨-, rfl⟩⟩ := streamInput_cases hm
    · exact absurd hclosed hopen
    · exact ih

/-- **Exceptions unwind, and nothing else becomes of them.**  A machine whose top frame
    unwinds loses one frame with each step and ends the run with the exception.  The result
    of a run is an exception just if one of its steps raised one, and then it is the first
    one, which is the only one. -/
theorem exceptions_unwind (p : Program) (limits : Limits) :
    (∀ m e, m.frames.head?.bind Frame.exception? = some e → Unwinds p limits m e) ∧
    ∀ (begun : Machine) reevaluating es m v, Course p limits (begun.beginRun p reevaluating) es m →
      (m.step p limits).1 = .ok (.completed v) → v.exception? = es.head? ∧ es.length ≤ 1 := by
  refine ⟨fun m e h => ?_, fun begun reevaluating es m v hcourse hv => ?_⟩
  · obtain ⟨f, hf, he⟩ := Option.bind_eq_some_iff.1 h
    obtain ⟨below, hm⟩ := List.head?_eq_some_iff.1 hf
    exact unwinds hm (f.exception?_eq_some_iff.1 he)
  · have hraised := hcourse.raised
    refine ⟨?_, hraised.length_le⟩
    rcases hraised.goes p limits with ⟨w, hw, he⟩ | ⟨hopen, -⟩
    · rw [hv] at hw
      cases hw
      exact he
    · exact absurd hv (hopen v)

/-! ## An exception inside a call -/

/-- Steps in a row that do not end a run belong to its course. -/
theorem Course.after {begun : Machine} {es : List Exception} (n : Nat)
    (h : Course p limits begun es m)
    (hopen : ∀ k < n, ((m.after p limits k).step p limits).1.toOption.any Outcome.isCompleted
      = false) : ∃ es, Course p limits begun es (m.after p limits n) := by
  induction n generalizing es m with
  | zero => exact ⟨es, h⟩
  | succ n ih =>
    refine ih (h.step fun v hv => ?_) fun k hk => hopen (k + 1) (Nat.succ_lt_succ hk)
    have hfirst := hopen 0 (Nat.succ_pos n)
    rw [Machine.after, hv] at hfirst
    cases hfirst

/-- Steps after steps. -/
theorem after_add (k n : Nat) (m : Machine) :
    m.after p limits (k + n) = (m.after p limits k).after p limits n := by
  induction k generalizing m with
  | zero => rw [Nat.zero_add, after]
  | succ k ih => rw [Nat.succ_add, after, ih, after]

/-- A program that takes the value of a stream inside a call. -/
def inside : Program :=
  .built (do
    let on ← Build.borrow "on"
    let read ← Build.function "read" [] none (← Build.reference "on")
    Build.program [on] [read, ← Build.evaluate (← Build.reference "read") []])
    (some (Shares.empty.shareStream switchName (.primitive .boolean)).2)

/-- The function of `inside` raises for the stream, and the run ends two steps later. -/
theorem exceptions_unwind_inside :
    let m := ((initial default).start inside).after inside default 7
    m.depth = 2 ∧ Unwinds inside default m ⟨.streamEmpty switchName, ⟨109⟩⟩ ∧
      ∃ es, Course inside default ((initial default).start inside) es (m.after inside default 1) ∧
        es.head? = some ⟨.streamEmpty switchName, ⟨109⟩⟩ := by
  intro m
  obtain ⟨hdepth, htop, hopen⟩ : m.depth = 2 ∧
      m.frames.head?.bind Frame.exception? = some ⟨.streamEmpty switchName, ⟨109⟩⟩ ∧
      ∀ k < 8, ((((initial default).start inside).after inside default k).step inside
        default).1.toOption.any Outcome.isCompleted = false := by
    decide +kernel
  obtain ⟨hunwinds, hraised⟩ := exceptions_unwind inside default
  have h := hunwinds m _ htop
  let begun := (initial default).start inside
  have hbegin : Course inside default begun [] begun := .begin
  obtain ⟨es, hcourse⟩ := hbegin.after (7 + 1) hopen
  rw [after_add] at hcourse
  have hlast := h.completed
  rw [hdepth] at hlast
  obtain ⟨hresult, -⟩ := hraised { initial default with store := ⟨.empty, .empty, default⟩ } false
    es _ _ hcourse hlast
  exact ⟨hdepth, h, es, hcourse, hresult.symm⟩

end Machine

end Arbor
