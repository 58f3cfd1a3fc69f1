/-
  What a step leaves alone.

  A step binds at most the node that it finishes, in the scope of the top frame, or creates a
  scope.  A likeness of the scopes that does not speak of what the code of the open frames has
  still to come to (`Program.Ahead`) therefore stands for good (`Sheltered`): steps and the beginnings
  of runs keep it.

  Main statements: `Sheltered.step` and `Sheltered.beginRun`.
-/
import Arbor.Proofs.Evaluation.Abreast
import Arbor.Proofs.Evaluation.Runs
import Arbor.Proofs.Step.Ahead

namespace Arbor

variable {p : Program} {code code' : List Step} {x : NodeId} {s : Step}

/-! ## What executing a step changes -/

namespace Program

variable {m : Machine} {f : Frame} {below : List Frame}

theorem same_finish (m : Machine) (f : Frame) (below : List Frame) (s : Step)
    (prior : Option Value) : f.Same (p.finish m f below s prior).frame := by
  unfold finish passed
  dsimp only
  repeat' split
  all_goals exact ⟨rfl, rfl, rfl, rfl, rfl⟩

/-- The frame that executes a step stays the frame of the same evaluation, and the step binds at
    most its own node, at its finish. -/
theorem execute_scopes (m : Machine) (f : Frame) (below : List Frame) (s : Step) :
    f.Same (p.execute m f below s).1 ∧
      ((p.execute m f below s).2.1.store.scopes = m.store.scopes ∨
        s.finishes = true ∧ ∃ v, (p.execute m f below s).2.1.store.scopes =
          m.store.scopes.define f.scope s.node v) := by
  have leave (hs : s.finishes = true) (r : Finished) (hr : f.Same r.frame) :
      f.Same (p.leave m below s r).1 ∧ ((p.leave m below s r).2.1.store.scopes = m.store.scopes ∨
        s.finishes = true ∧ ∃ v, (p.leave m below s r).2.1.store.scopes =
          m.store.scopes.define f.scope s.node v) := by
    cases hv : r.value.exception? with
    | some e =>
      rw [leave_of_exception (Value.eq_exception hv)]
      exact ⟨hr, .inl rfl⟩
    | none =>
      rw [leave_of_value hv]
      refine ⟨hr.trans (.push _ _), ?_⟩
      dsimp only
      rw [scopes_kept, hr.scope]
      split
      · exact .inr ⟨hs, _, rfl⟩
      · exact .inl rfl
  unfold execute
  split
  · exact ⟨.refl f, .inl rfl⟩
  · next hk => exact leave (by simp [Step.finishes, hk]) _ (same_finish m f below s _)
  · next hk => exact leave (by simp [Step.finishes, hk]) _ (same_finish m f below s _)
  · dsimp only
    split <;> split <;> exact ⟨⟨rfl, rfl, rfl, rfl, rfl⟩, .inl rfl⟩
  · exact ⟨.refl f, .inl rfl⟩
  · refine ⟨?_, .inl rfl⟩
    show f.Same (p.startEvaluation f s.node).1
    unfold startEvaluation
    dsimp only
    repeat' split
    all_goals exact ⟨rfl, rfl, rfl, rfl, rfl⟩

end Program

/-! ## Likenesses that stand -/

/-- The scopes are like others in nothing that the code of a frame has still to come to. -/
structure Sheltered (p : Program) (L : Likeness) (τ σ : Scopes) (frames : List Frame) : Prop where
  alike : σ.Alike p L τ
  apart : ∀ f ∈ frames, ∀ t z, L.binds f.scope t z → ¬p.Ahead f.code z

variable {L : Likeness} {σ τ : Scopes} {frames frames' : List Frame}

namespace Sheltered

/-- Frames that go on with less code. -/
theorem withFrames (h : Sheltered p L τ σ frames) (frames' : List Frame)
    (hf : ∀ g ∈ frames', ∃ f ∈ frames, g.scope = f.scope ∧ ∀ s ∈ g.code, s ∈ f.code) :
    Sheltered p L τ σ frames' := by
  refine ⟨h.alike, fun g hg t z hz ha => ?_⟩
  obtain ⟨f, hf, hscope, hcode⟩ := hf g hg
  exact h.apart f hf t z (hscope ▸ hz) (ha.mono hcode)

/-- The top frame goes on with less code. -/
theorem top {f g : Frame} {below : List Frame} (h : Sheltered p L τ σ (f :: below))
    (hscope : g.scope = f.scope) (hcode : ∀ s ∈ g.code, s ∈ f.code) :
    Sheltered p L τ σ (g :: below) := by
  refine h.withFrames _ fun k hk => ?_
  rcases List.mem_cons.1 hk with rfl | hk
  · exact ⟨f, List.mem_cons_self, hscope, hcode⟩
  · exact ⟨k, List.mem_cons_of_mem _ hk, rfl, fun _ => id⟩

/-- A frame in a new scope. -/
theorem opened (h : Sheltered p L τ σ frames) (scope : Scope) {g : Frame}
    (hg : g.scope = (σ.add scope).1) : Sheltered p L τ (σ.add scope).2 (g :: frames) := by
  refine ⟨h.alike.spares (.add σ scope) (.refl (fun _ _ => False) τ) fun _ _ _ _ => ⟨id, id⟩,
    fun f hf t z hz => ?_⟩
  rcases List.mem_cons.1 hf with rfl | hf
  · have hlt := (h.alike.inside hz).1
    rw [hg] at hlt
    exact absurd hlt (Nat.lt_irrefl σ.size)
  · exact h.apart f hf t z hz

/-- A node that a frame finishes is bound. -/
theorem define (hp : p.arena.Acyclic) (h : Sheltered p L τ σ frames) {f : Frame}
    (hf : f ∈ frames) (hs : s.finishes = true) (hc : s ∈ f.code) (v : Value) :
    Sheltered p L τ (σ.define f.scope s.node v) frames := by
  by_cases hlt : f.scope.index < σ.size
  · refine ⟨h.alike.spares (.define hlt s.node v) (.refl (fun _ _ => False) τ) ?_, h.apart⟩
    rintro t t' z hz
    refine ⟨?_, id⟩
    rintro ⟨rfl, rfl⟩
    exact h.apart f hf t' _ hz (Program.ahead_finishes hp hs hc)
  · rw [Scopes.define_of_le (Nat.le_of_not_lt hlt)]
    exact h

end Sheltered

namespace Machine

variable {m m₁ : Machine} {f g : Frame} {below : List Frame}

/-- The likeness stands in the scopes and the frames of the machine. -/
def Shelters (p : Program) (L : Likeness) (τ : Scopes) (m : Machine) : Prop :=
  Sheltered p L τ m.store.scopes m.frames

/-- The beginning of a run opens the frame of the program in a new scope. -/
theorem Shelters.beginRun (h : m.Shelters p L τ) (reevaluating : Bool) :
    (m.beginRun p reevaluating).Shelters p L τ :=
  (h.withFrames [] nofun).opened ⟨.empty, none⟩ rfl

theorem Shelters.endRun (h : Sheltered p L τ m.store.scopes frames) (v : Value) :
    (m.endRun p v).Shelters p L τ := by
  have hclosed := h.withFrames [] nofun
  rcases endRun_cases p m v with ⟨-, he⟩ | ⟨_, _, _, -, he⟩ <;> rw [he]
  · exact hclosed
  · exact hclosed.opened ⟨.empty, none⟩ rfl

theorem shelters_settle (h : Sheltered p L τ m.store.scopes (f :: below)) :
    (m.settle p f below s).2.Shelters p L τ := by
  unfold settle
  split
  · unfold complete
    split
    · exact h.withFrames _ fun g hg => ⟨g, List.mem_cons_of_mem _ hg, rfl, fun _ => id⟩
    · exact .endRun h _
    · refine h.withFrames _ fun g hg => ?_
      rcases List.mem_cons.1 hg with rfl | hg
      · exact ⟨_, List.mem_cons_of_mem _ List.mem_cons_self, rfl, fun _ => id⟩
      · exact ⟨g, List.mem_cons_of_mem _ (List.mem_cons_of_mem _ hg), rfl, fun _ => id⟩
  · exact h

theorem shelters_enter {limits : Limits} {c : Call}
    (h : Sheltered p L τ m.store.scopes (f :: below)) :
    (m.enter p limits f below s c).2.Shelters p L τ := by
  have raise (e : Exception) : (m.raise f below s e).2.Shelters p L τ :=
    h.top (g := { f with phase := .unwinding e }) rfl fun _ => id
  unfold enter
  split
  · exact raise _
  · split
    · exact raise _
    · exact h.opened _ rfl

theorem shelters_act {limits : Limits} {action : Action}
    (h : Sheltered p L τ m.store.scopes (f :: below)) :
    (m.act p limits f below s action).2.Shelters p L τ := by
  have skip (n : Nat) : Sheltered p L τ m.store.scopes (f.skip n :: below) :=
    h.top rfl fun s hs => List.mem_of_mem_drop (f.code_skip n ▸ hs)
  cases action with
  | proceed => exact shelters_settle h
  | skip count => exact shelters_settle (skip count)
  | jump offset =>
    unfold act
    dsimp only
    split
    · exact h
    · exact shelters_settle (skip offset)
  | raise e => exact h.top (g := { f with phase := .unwinding e }) rfl fun _ => id
  | call c => exact shelters_enter h

/-- **A likeness that stands is kept by each step.** -/
theorem Shelters.step (hp : p.arena.Acyclic) (limits : Limits) (h : m.Shelters p L τ) :
    (m.step p limits).2.Shelters p L τ := by
  cases hm : m.frames with
  | nil => rw [step_closed hm]; exact h
  | cons f below =>
    have hframes : Sheltered p L τ m.store.scopes (f :: below) := hm ▸ h
    cases he : f.exception? with
    | some e =>
      rw [step_unwinding hm (f.exception?_eq_some_iff.1 he)]
      unfold unwind
      split
      · exact .endRun hframes _
      · next caller rest =>
        refine hframes.withFrames _ fun g hg => ?_
        rcases List.mem_cons.1 hg with rfl | hg
        · exact ⟨caller, List.mem_cons_of_mem _ List.mem_cons_self, rfl, fun _ => id⟩
        · exact ⟨g, List.mem_cons_of_mem _ (List.mem_cons_of_mem _ hg), rfl, fun _ => id⟩
    | none =>
      cases hc : f.code with
      | nil =>
        rw [step_stuck hm he hc]
        exact hframes.top (g := { f with phase := .running }) rfl fun _ => id
      | cons s rest =>
        obtain ⟨hsame, hscopes⟩ := Program.execute_scopes (p := p) m f.advance below s
        obtain ⟨store, hstore, -⟩ := Program.execute_machine (p := p) m f.advance below s
        obtain ⟨hsteps, hpc⟩ := sameCode_execute p m f.advance below s
        rcases hr : p.execute m f.advance below s with ⟨g, m₁, action⟩
        rw [hr] at hsame hscopes hstore hsteps hpc
        rw [step_running hm he hc hr]
        have hdefined : Sheltered p L τ m₁.store.scopes (f :: below) := by
          rcases hscopes with hscopes | ⟨hs, v, hscopes⟩ <;> dsimp only at hscopes <;> rw [hscopes]
          · exact hframes
          · exact hframes.define hp List.mem_cons_self hs (by rw [hc]; exact List.mem_cons_self) v
        have hcode : g.code = rest := by
          rw [Frame.code, hsteps, hpc]
          exact code_advance_eq hc
        refine shelters_act (hdefined.top hsame.scope fun s hs => ?_)
        rw [hc]
        exact List.mem_cons_of_mem _ (hcode ▸ hs)

end Machine

end Arbor
