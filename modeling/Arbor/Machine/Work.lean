/-
  The work that is left for a machine.

  Every run ends, because each step uses up work: a frame has fewer steps left
  after it, and a frame that is opened is below the limit on open evaluations.
  A frame therefore weighs as much as all frames that could still be opened
  above it for each of its steps.

  Main statement: `step_decreases`, a step that does not fail shortens the queue
  of inputs, or leaves it alone and uses up work.
-/
import Arbor.Machine.Step

namespace Arbor

/-! ## Bodies -/

/-- The length of the longest body of a program. -/
def Program.longestBody (p : Program) : Nat :=
  ((List.range p.arena.size).map fun i => (p.compileBody ⟨i⟩).length).foldr max 0

theorem le_foldr_max {n : Nat} {l : List Nat} (h : n ∈ l) : n ≤ l.foldr max 0 := by
  induction l with
  | nil => cases h
  | cons a rest ih =>
    rcases List.mem_cons.1 h with rfl | h
    · exact Nat.le_max_left ..
    · exact Nat.le_trans (ih h) (Nat.le_max_right ..)

/-- No body is longer than the longest. -/
theorem Program.length_compileBody_le (p : Program) (id : NodeId) :
    (p.compileBody id).length ≤ p.longestBody := by
  by_cases h : id.raw < p.arena.size
  · exact le_foldr_max (List.mem_map.2 ⟨id.raw, List.mem_range.2 h, rfl⟩)
  · have hn : p.node? id = none := by
      simpa [Program.node?, Arena.node?, Arena.size] using h
    simp [Program.compileBody, hn]

namespace Machine

variable (p : Program) (limits : Limits)

/-! ## Work -/

/-- The weight of one step of a frame above `below` others. -/
def weight (below : Nat) : Nat := Nat.pow (p.longestBody + 2) (limits.maxDepth - (below + 1))

/-- The work that is left in frames. -/
def work : List Frame → Nat
  | [] => 0
  | f :: below => (f.remaining + 1) * weight p limits below.length + work below

theorem weight_pos (below : Nat) : 0 < weight p limits below := Nat.pow_pos (by omega)

theorem work_lt_cons (f : Frame) (below : List Frame) :
    work p limits below < work p limits (f :: below) := by
  have h : 0 < (f.remaining + 1) * weight p limits below.length :=
    Nat.mul_pos (Nat.succ_pos _) (weight_pos p limits below.length)
  simp only [work]
  omega

/-- A frame with fewer steps left has less work. -/
theorem work_lt_of_remaining {f g : Frame} (h : g.remaining < f.remaining) (below : List Frame) :
    work p limits (g :: below) < work p limits (f :: below) := by
  have := Nat.mul_lt_mul_of_pos_right (Nat.succ_lt_succ h) (weight_pos p limits below.length)
  simp only [work, Nat.succ_eq_add_one] at this ⊢
  omega

/-- A frame that is opened by a step has less work than the step used up. -/
theorem work_lt_of_call {f g callee : Frame} {below : List Frame}
    (hg : g.remaining < f.remaining) (hc : callee.remaining ≤ p.longestBody)
    (hd : below.length + 1 < limits.maxDepth) :
    work p limits (callee :: g :: below) < work p limits (f :: below) := by
  have hw : weight p limits below.length =
      (p.longestBody + 2) * weight p limits (below.length + 1) := by
    unfold weight
    rw [show limits.maxDepth - (below.length + 1) =
      (limits.maxDepth - (below.length + 1 + 1)).succ by omega]
    exact Nat.pow_succ'
  have hpos := weight_pos p limits (below.length + 1)
  have h1 : (callee.remaining + 1) * weight p limits (below.length + 1) <
      weight p limits below.length := by
    rw [hw]; exact Nat.mul_lt_mul_of_pos_right (by omega) hpos
  have h2 : (g.remaining + 1) * weight p limits below.length + weight p limits below.length ≤
      (f.remaining + 1) * weight p limits below.length := by
    rw [← Nat.succ_mul]; exact Nat.mul_le_mul_right _ (by omega)
  simp only [work, List.length_cons]
  omega

/-! ## Executing leaves the steps of a frame alone -/

/-- Two frames run the same steps from the same place. -/
def SameCode (f g : Frame) : Prop := f.steps = g.steps ∧ f.pc = g.pc

theorem sameCode_finish (m : Machine) (f : Frame) (below : List Frame) (s : Step)
    (prior : Option Value) : SameCode (p.finish m f below s prior).frame f := by
  unfold Program.finish Program.passed
  dsimp only
  repeat' split
  all_goals exact ⟨rfl, rfl⟩

theorem sameCode_leave (m : Machine) (below : List Frame) (s : Step) (r : Program.Finished) :
    SameCode (p.leave m below s r).1 r.frame := by
  unfold Program.leave
  split <;> exact ⟨rfl, rfl⟩

theorem sameCode_startEvaluation (f : Frame) (id : NodeId) :
    SameCode (p.startEvaluation f id).1 f := by
  unfold Program.startEvaluation
  split
  · dsimp only
    split
    · exact ⟨rfl, rfl⟩
    · split <;> exact ⟨rfl, rfl⟩
    · exact ⟨rfl, rfl⟩
  · dsimp only
    split <;> exact ⟨rfl, rfl⟩
  · exact ⟨rfl, rfl⟩

theorem sameCode_execute (m : Machine) (f : Frame) (below : List Frame) (s : Step) :
    SameCode (p.execute m f below s).1 f := by
  unfold Program.execute
  split
  · exact ⟨rfl, rfl⟩
  · have h1 := sameCode_leave p m below s (p.finish m f below s (Program.prior? m below s))
    have h2 := sameCode_finish p m f below s (Program.prior? m below s)
    exact ⟨h1.1.trans h2.1, h1.2.trans h2.2⟩
  · have h1 := sameCode_leave p m below s (p.finish m f below s (Program.prior? m below s))
    have h2 := sameCode_finish p m f below s (Program.prior? m below s)
    exact ⟨h1.1.trans h2.1, h1.2.trans h2.2⟩
  · dsimp only
    split <;> (split <;> exact ⟨rfl, rfl⟩)
  · exact ⟨rfl, rfl⟩
  · exact sameCode_startEvaluation p f s.node

theorem pending_execute (m : Machine) (f : Frame) (below : List Frame) (s : Step) :
    (p.execute m f below s).2.1.pending = m.pending := by
  unfold Program.execute Program.leave
  dsimp only
  repeat' split
  all_goals rfl

/-! ## Steps use up work -/

/-- The queue got shorter, or it stayed and there is less work. -/
def Decreases (m m' : Machine) : Prop :=
  m'.pending.length < m.pending.length ∨
    m'.pending.length = m.pending.length ∧
      work p limits m'.frames < work p limits m.frames

theorem decreases_endRun (v : Value) {m m' : Machine} (hp : m'.pending = m.pending)
    (hf : m.frames ≠ []) : Decreases p limits m (m'.endRun p v) := by
  unfold endRun
  dsimp only
  split
  · next h =>
    right
    refine ⟨by simp [hp], ?_⟩
    cases hm : m.frames with
    | nil => exact absurd hm hf
    | cons f below => exact Nat.lt_of_le_of_lt (Nat.zero_le _) (work_lt_cons p limits f below)
  · next id input pending h =>
    left
    rw [← hp, h]
    simp [reevaluate, beginRun, addScope]

theorem decreases_of_work {m m' : Machine} (hp : m'.pending = m.pending)
    (hw : work p limits m'.frames < work p limits m.frames) : Decreases p limits m m' :=
  .inr ⟨congrArg _ hp, hw⟩

theorem decreases_unwind {m m' : Machine} {f : Frame} {below : List Frame} {e : Exception}
    {o : Outcome} (hm : m.frames = f :: below) (h : m.unwind p f below e = (.ok o, m')) :
    Decreases p limits m m' := by
  unfold unwind at h
  split at h <;> cases h
  · exact decreases_endRun p limits _ rfl (by simp [hm])
  · refine decreases_of_work p limits rfl ?_
    rw [hm]
    exact work_lt_cons p limits f _

section
variable {m m' : Machine} {f g : Frame} {below : List Frame} {s : Step} {o : Outcome}
variable (hm : m.frames = f :: below) (hg : g.remaining < f.remaining)
include hm hg

theorem decreases_raise {e : Exception} {m₁ : Machine} (hp : m₁.pending = m.pending)
    (h : m₁.raise g below s e = (.ok o, m')) : Decreases p limits m m' := by
  cases h
  refine decreases_of_work p limits hp ?_
  rw [hm]
  exact work_lt_of_remaining p limits hg below

theorem decreases_settle {m₁ : Machine} (hp : m₁.pending = m.pending)
    (h : m₁.settle p g below s = (.ok o, m')) : Decreases p limits m m' := by
  unfold settle complete at h
  split at h
  · split at h <;> cases h
    · exact decreases_endRun p limits _ hp (by simp [hm])
    · refine decreases_of_work p limits hp ?_
      rw [hm]
      exact work_lt_cons p limits f _
  · cases h
    refine decreases_of_work p limits hp ?_
    rw [hm]
    exact work_lt_of_remaining p limits hg below

theorem decreases_enter {m₁ : Machine} {c : Call} (hp : m₁.pending = m.pending)
    (h : m₁.enter p limits g below s c = (.ok o, m')) : Decreases p limits m m' := by
  unfold enter at h
  split at h
  · exact decreases_raise p limits hm hg hp h
  · next hd =>
    split at h
    · exact decreases_raise p limits hm hg hp h
    · cases h
      refine decreases_of_work p limits hp ?_
      rw [hm]
      refine work_lt_of_call p limits hg ?_ (by omega)
      simpa [Frame.remaining, Program.openFrame] using p.length_compileBody_le c.definition

theorem decreases_act (m₁ : Machine) {action : Action} (hp : m₁.pending = m.pending)
    (h : m₁.act p limits g below s action = (.ok o, m')) : Decreases p limits m m' := by
  have hlater : ∀ k, ({ g with pc := g.pc + k } : Frame).remaining < f.remaining := fun k =>
    Nat.lt_of_le_of_lt (by simp only [Frame.remaining]; omega) hg
  unfold act at h
  split at h
  · exact decreases_settle p limits hm hg hp h
  · exact decreases_settle p limits hm (hlater _) hp h
  · dsimp only at h
    split at h
    · cases h
    · exact decreases_settle p limits hm (hlater _) hp h
  · exact decreases_raise p limits hm hg hp h
  · exact decreases_enter p limits hm hg hp h

end

/-- **Steps use up work.**  A step that does not fail shortens the queue of
    inputs, or leaves it alone and leaves less work. -/
theorem step_decreases {m m' : Machine} {o : Outcome} (h : m.step p limits = (.ok o, m')) :
    Decreases p limits m m' := by
  unfold step at h
  split at h
  · cases h
  · next f below hm =>
    split at h
    · exact decreases_unwind p limits hm h
    · split at h
      · cases h
      · next s hs =>
        have hlt : f.pc < f.steps.size := by
          unfold Frame.next? at hs
          exact (Array.getElem?_eq_some_iff.1 hs).1
        have hc := sameCode_execute p m { f with phase := .running, pc := f.pc + 1 } below s
        have hp := pending_execute p m { f with phase := .running, pc := f.pc + 1 } below s
        dsimp only at h
        rcases he : p.execute m { f with phase := .running, pc := f.pc + 1 } below s with
          ⟨g, m₁, action⟩
        rw [he] at h hc hp
        have hg : g.remaining < f.remaining := by
          have hsteps : g.steps = f.steps := hc.1
          have hpc : g.pc = f.pc + 1 := hc.2
          simp only [Frame.remaining, hsteps, hpc]
          omega
        exact decreases_act p limits hm hg { m₁ with stepsTaken := m₁.stepsTaken + 1 } hp h

end Machine

end Arbor
