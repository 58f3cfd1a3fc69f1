/-
  Runs of code.

  A machine runs the code of its top frame until the code leaves a value, raises an
  exception or calls what has no body.  `Stands` says where the machine is in the code of
  an evaluation, and `Gives` that it goes on to an outcome; `Gives.bind` runs code one
  part after another, as an evaluation does.

  Main statements: `Gives.bind`, `gives_finish` for the finish of a node, and `gives_call`
  for the body of a call.
-/
import Arbor.Proofs.Evaluation.Basic
import Arbor.Proofs.Machine.Discipline

namespace Arbor

namespace Machine

variable (p : Program) (limits : Limits)

/-! ## Steps in a row -/

/-- The machine runs a number of steps, none of which fails or completes a run. -/
inductive Runs : Nat → Machine → Machine → Prop
  | refl {m : Machine} : Runs 0 m m
  | step {n : Nat} {m m' : Machine} {o : Outcome} : (m.step p limits).1 = .ok o →
      o.isCompleted = false → Runs n (m.step p limits).2 m' → Runs (n + 1) m m'

/-- After a number of steps, none of which fails or completes a run, the next step does
    what is said. -/
def Yields (m : Machine) (P : Result → Prop) : Prop :=
  ∃ n m', Runs p limits n m m' ∧ P (m'.step p limits)

variable {p limits} {m m' : Machine} {P Q : Result → Prop}

theorem Yields.now (h : P (m.step p limits)) : Yields p limits m P := ⟨0, m, .refl, h⟩

/-- A step before others. -/
theorem Yields.after {o : Outcome} (hs : m.step p limits = (.ok o, m'))
    (ho : o.isCompleted = false) (h : Yields p limits m' P) : Yields p limits m P := by
  obtain ⟨n, m₁, hr, hP⟩ := h
  exact ⟨n + 1, m₁, .step (by rw [hs]) ho (by rw [hs]; exact hr), hP⟩

/-- When the next step is no completion, more steps may follow it. -/
theorem Yields.trans (h : Yields p limits m P)
    (hP : ∀ r, P r → ∃ o, r.1 = .ok o ∧ o.isCompleted = false ∧ Yields p limits r.2 Q) :
    Yields p limits m Q := by
  obtain ⟨n, m', hr, hstep⟩ := h
  induction hr with
  | refl =>
    obtain ⟨o, hok, ho, hQ⟩ := hP _ hstep
    exact hQ.after (Prod.ext hok rfl) ho
  | step hok ho _ ih => exact (ih hstep).after (Prod.ext hok rfl) ho

theorem Yields.mono (h : Yields p limits m P) (hPQ : ∀ r, P r → Q r) : Yields p limits m Q := by
  obtain ⟨n, m', hr, hP⟩ := h
  exact ⟨n, m', hr, hPQ _ hP⟩

end Machine

/-! ## Where a machine is in an evaluation -/

/-- Two frames of one evaluation, wherever they are in it. -/
structure Frame.Same (f g : Frame) : Prop where
  definition : g.definition = f.definition
  creator : g.creator = f.creator
  steps : g.steps = f.steps
  scope : g.scope = f.scope
  this : g.this = f.this

namespace Frame.Same

theorem refl (f : Frame) : f.Same f := ⟨rfl, rfl, rfl, rfl, rfl⟩

theorem trans {f g h : Frame} (hfg : f.Same g) (hgh : g.Same h) : f.Same h :=
  ⟨hgh.1.trans hfg.1, hgh.2.trans hfg.2, hgh.3.trans hfg.3, hgh.4.trans hfg.4,
    hgh.5.trans hfg.5⟩

theorem advance (f : Frame) : f.Same f.advance := ⟨rfl, rfl, rfl, rfl, rfl⟩

theorem skip (f : Frame) (n : Nat) : f.Same (f.skip n) := ⟨rfl, rfl, rfl, rfl, rfl⟩

theorem drop (f : Frame) (n : Nat) : f.Same (f.drop n) := ⟨rfl, rfl, rfl, rfl, rfl⟩

theorem push (f : Frame) (v : Value) : f.Same (f.push v) := ⟨rfl, rfl, rfl, rfl, rfl⟩

end Frame.Same

namespace Machine

/-- Nothing is skipped: the frame is not that of the program, or nothing that is
    remembered is used. -/
def Calm (m : Machine) (below : List Frame) : Prop := m.reevaluating = true → below ≠ []

/-- Everything of a machine but its frames is kept, except that it has other scopes and
    that the program frame may remember values. -/
structure Keeps (below : List Frame) (m m' : Machine) (scopes : Scopes) : Prop where
  scopes : m'.store.scopes = scopes
  remembered : below ≠ [] → m'.store.remembered = m.store.remembered
  reevaluating : m'.reevaluating = m.reevaluating
  streams : m'.streams = m.streams
  pending : m'.pending = m.pending
  result : m'.result = m.result
  runs : m'.runs = m.runs

/-- The machine `m`, which was in the frame `f₀` when it was `m₀`, is before the code `code`
    with the values `operands` and the scopes `scopes`. -/
structure Stands (m₀ : Machine) (f₀ : Frame) (below : List Frame) (code : List Step)
    (operands : List Value) (scopes : Scopes) (m : Machine) (f : Frame) : Prop where
  frames : m.frames = f :: below
  goes : f.exception? = none
  same : f₀.Same f
  code : f.code = code
  operands : f.operands = operands
  keeps : Keeps below m₀ m scopes

variable (p : Program) (limits : Limits)

/-- The machine goes on to an outcome: a value is left on top of `operands` before the code
    `code`, or an exception unwinds the frame, or a frame has no code. -/
def Gives (m₀ : Machine) (f₀ : Frame) (below : List Frame) (code : List Step)
    (operands : List Value) (m : Machine) : Except Stop Value × Scopes → Prop
  | (.ok v, scopes) => v.exception? = none ∧ Yields p limits m fun r =>
      ∃ m' g s, r = m'.settle p g below s ∧ g.exception? = none ∧ f₀.Same g ∧ g.code = code ∧
        g.operands = v :: operands ∧ Keeps below m₀ m' scopes
  | (.error (.raised e), scopes) => Yields p limits m fun r =>
      ∃ o g, r.1 = .ok o ∧ o.isCompleted = false ∧ r.2.frames = g :: below ∧
        g.phase = .unwinding e ∧ Keeps below m₀ r.2 scopes
  | (.error (.bodiless creator), _) => Yields p limits m fun r =>
      r.1 = .error (.valueStackUnderflow creator)

variable {p limits} {m₀ m m' : Machine} {f₀ f g : Frame} {below : List Frame}
  {code code' : List Step} {operands operands' : List Value} {scopes scopes' : Scopes}

/-- A step before others. -/
theorem Gives.after {r : Except Stop Value × Scopes} {o : Outcome}
    (hs : m.step p limits = (.ok o, m')) (ho : o.isCompleted = false)
    (h : Gives p limits m₀ f₀ below code operands m' r) :
    Gives p limits m₀ f₀ below code operands m r := by
  obtain ⟨r, s⟩ := r
  rcases r with (e | creator) | v <;> unfold Gives at h ⊢
  · exact h.after hs ho
  · exact h.after hs ho
  · exact ⟨h.1, h.2.after hs ho⟩

/-- When the next step is no completion, more steps may follow it. -/
theorem Gives.resume {P : Result → Prop} {r : Except Stop Value × Scopes}
    (h : Yields p limits m P)
    (hP : ∀ x, P x → ∃ o, x.1 = .ok o ∧ o.isCompleted = false ∧
      Gives p limits m₀ f₀ below code operands x.2 r) :
    Gives p limits m₀ f₀ below code operands m r := by
  obtain ⟨r, s⟩ := r
  rcases r with (e | creator) | v <;> unfold Gives at hP ⊢
  · exact h.trans hP
  · exact h.trans hP
  · have hv : v.exception? = none := by
      obtain ⟨n, m', -, hm'⟩ := h
      obtain ⟨o, -, -, hv, -⟩ := hP _ hm'
      exact hv
    refine ⟨hv, h.trans fun x hx => ?_⟩
    obtain ⟨o, hok, ho, -, hy⟩ := hP x hx
    exact ⟨o, hok, ho, hy⟩

/-- A frame that has code goes on with it. -/
theorem settle_open (hcode : g.code ≠ []) (m : Machine) (below : List Frame) (s : Step) :
    m.settle p g below s = (.ok (.executed s), { m with frames := g :: below }) := by
  have hdone : g.isDone = false := by
    rw [Bool.eq_false_iff]
    exact fun h => hcode (g.isDone_iff.1 h)
  unfold settle
  rw [hdone]
  rfl

/-- A frame that goes on with code stands before it. -/
theorem stands_settle (hcode : g.code ≠ []) (he : g.exception? = none) (hs : f₀.Same g)
    (hk : Keeps below m₀ m scopes) (s : Step) :
    ∃ m', m.settle p g below s = (.ok (.executed s), m') ∧
      Stands m₀ f₀ below g.code g.operands scopes m' g :=
  ⟨_, settle_open hcode m below s, rfl, he, hs, rfl, rfl,
    ⟨hk.scopes, hk.remembered, hk.reevaluating, hk.streams, hk.pending, hk.result, hk.runs⟩⟩

/-- **Code runs one part after another.**  What leaves a value before more code goes on
    with that code, as an evaluation goes on with the value. -/
theorem Gives.bind {x : Eval Value} {next : Value → Eval Value}
    (hx : Gives p limits m₀ f₀ below code operands m (x.on scopes)) (hcode : code ≠ [])
    (hnext : ∀ v s m' g, v.exception? = none →
      Stands m₀ f₀ below code (v :: operands) s m' g →
      Gives p limits m₀ f₀ below code' operands' m' ((next v).on s)) :
    Gives p limits m₀ f₀ below code' operands' m ((x >>= next).on scopes) := by
  rw [Eval.on_bind]
  rcases hr : x.on scopes with ⟨(e | v), s⟩
  · rw [hr] at hx
    rcases e with e | creator <;> exact hx
  · rw [hr] at hx
    refine .resume hx.2 fun r hr => ?_
    obtain ⟨m', g, st, rfl, he, hs, rfl, hops, hk⟩ := hr
    obtain ⟨m'', hok, hst⟩ := stands_settle hcode he hs hk st
    rw [hok]
    exact ⟨_, rfl, rfl, hnext v s m'' g hx.1 (hops ▸ hst)⟩

/-- Evaluations of nodes in order, whose codes run one after another. -/
theorem gives_inOrder {evaluate : NodeId → Eval Value} {ids : List NodeId}
    (each : ∀ c ∈ ids, ∀ {code operands scopes m f},
      Stands m₀ f₀ below (p.compile c ++ code) operands scopes m f →
      Gives p limits m₀ f₀ below code operands m ((evaluate c).on scopes))
    {next : List Value → Eval Value} (hcode : code ≠ [])
    (hst : Stands m₀ f₀ below (ids.flatMap p.compile ++ code) operands scopes m f)
    (hnext : ∀ vs s m' g, vs.length = ids.length → (∀ v ∈ vs, v.exception? = none) →
      Stands m₀ f₀ below code (vs.reverse ++ operands) s m' g →
      Gives p limits m₀ f₀ below code' operands' m' ((next vs).on s)) :
    Gives p limits m₀ f₀ below code' operands' m
      ((Eval.inOrder evaluate ids >>= next).on scopes) := by
  induction ids generalizing next operands scopes m f with
  | nil => exact hnext [] scopes m f rfl nofun hst
  | cons id ids ih =>
    have hseq : Eval.inOrder evaluate (id :: ids) >>= next =
        evaluate id >>= fun v => Eval.inOrder evaluate ids >>= fun vs => next (v :: vs) := by
      simp only [Eval.inOrder, bind_assoc, pure_bind]
    rw [hseq]
    rw [List.flatMap_cons, List.append_assoc] at hst
    refine (each id List.mem_cons_self hst).bind (by simp [hcode]) fun v s m' g hv hst => ?_
    refine ih (fun c hc => each c (List.mem_cons_of_mem _ hc)) hst fun vs s m' g hlen hvs hst => ?_
    refine hnext (v :: vs) s m' g (by simp [hlen]) (fun w hw => ?_) ?_
    · rcases List.mem_cons.1 hw with rfl | hw
      · exact hv
      · exact hvs w hw
    · rwa [List.reverse_cons, List.append_assoc, List.singleton_append]

/-! ## Single steps -/

section
variable {s : Step}

theorem Stands.inside (h : Stands m₀ f₀ below (s :: code) operands scopes m f) :
    f.advance.pc ≤ f.advance.steps.size :=
  advance_inside h.code

theorem Stands.advance_code (h : Stands m₀ f₀ below (s :: code) operands scopes m f) :
    f.advance.code = code :=
  code_advance_eq h.code

/-- The machine executes the next step of its code. -/
theorem Stands.step (h : Stands m₀ f₀ below (s :: code) operands scopes m f) (limits : Limits)
    {action : Action} (he : p.execute m f.advance below s = (g, m', action)) :
    m.step p limits =
      { m' with stepsTaken := m'.stepsTaken + 1 }.act p limits g below s action :=
  step_running h.frames h.goes h.code he

/-- Running a step counts it, and keeps everything else. -/
theorem Keeps.counted {scopes : Scopes} (h : Keeps below m₀ m scopes) :
    Keeps below m₀ { m with stepsTaken := m.stepsTaken + 1 } scopes :=
  ⟨h.scopes, h.remembered, h.reevaluating, h.streams, h.pending, h.result, h.runs⟩

variable (p limits) in
/-- The next step only moves on in its frame, to code before which the machine then stands. -/
def Moves (m₀ : Machine) (f₀ : Frame) (below : List Frame) (code : List Step)
    (operands : List Value) (scopes : Scopes) (m : Machine) : Prop :=
  ∃ m' g o, m.step p limits = (.ok o, m') ∧ o.isCompleted = false ∧ m'.store = m.store ∧
    Stands m₀ f₀ below code operands scopes m' g

/-- A step that only moves on, before others. -/
theorem Moves.gives {r : Except Stop Value × Scopes} {next : List Step} {values : List Value}
    (h : Moves p limits m₀ f₀ below next values scopes m)
    (hgives : ∀ m' g, Stands m₀ f₀ below next values scopes m' g →
      Gives p limits m₀ f₀ below code operands m' r) :
    Gives p limits m₀ f₀ below code operands m r := by
  obtain ⟨m', g, o, hs, ho, -, hst⟩ := h
  exact .after hs ho (hgives m' g hst)

theorem Stands.moves {g h : Frame} {action : Action} {next : List Step} {values : List Value}
    (hst : Stands m₀ f₀ below (s :: code') operands' scopes m f)
    (he : p.execute m f.advance below s = (g, m, action)) (ha : g.after? action = some h)
    (hpc : h.pc ≤ h.steps.size) (hsame : f.Same h) (hgoes : h.exception? = none)
    (hcode : h.code = next) (hne : next ≠ []) (hops : h.operands = values) :
    Moves p limits m₀ f₀ below next values scopes m := by
  subst hcode hops
  refine ⟨{ m with stepsTaken := m.stepsTaken + 1, frames := h :: below }, h, .executed s, ?_, rfl,
    rfl, rfl, hgoes, hst.same.trans hsame, rfl, rfl, ?_⟩
  · rw [hst.step limits he, act_eq_settle ha hpc, settle_open hne]
  · have hk := hst.keeps
    exact ⟨hk.scopes, hk.remembered, hk.reevaluating, hk.streams, hk.pending, hk.result, hk.runs⟩

/-- A node that is not skipped starts with the code inside it. -/
theorem Stands.start {id : NodeId}
    (hst : Stands m₀ f₀ below (⟨id, .start⟩ :: code') operands' scopes m f)
    (hskip : Program.skipAction m f.advance below id = .proceed) (hne : code' ≠ []) :
    Moves p limits m₀ f₀ below code' operands' scopes m := by
  have he : p.execute m f.advance below ⟨id, .start⟩ = (f.advance, m, .proceed) := by
    rw [← hskip]
    rfl
  exact hst.moves he rfl hst.inside (.advance f) rfl hst.advance_code hne hst.operands

/-- A node whose value is remembered is skipped to its finish. -/
theorem Stands.skip {id : NodeId} {v : Value} {inside after : List Step}
    (hst : Stands m₀ f₀ [] (⟨id, .start⟩ :: (inside ++ ⟨id, .finish⟩ :: after)) operands' scopes m f)
    (hclosed : ⟨id, .finish⟩ ∉ inside) (hr : m.reevaluating = true)
    (hv : m.store.remembered.get? id = some v) :
    Moves p limits m₀ f₀ [] (⟨id, .finish⟩ :: after) operands' scopes m := by
  have hcode := hst.advance_code
  have hskip : Program.skipAction m f.advance [] id = .skip inside.length := by
    unfold Program.skipAction
    rw [hr, NodeMap.contains, hv, Frame.stepsToFinish?_of_code hst.inside hcode hclosed]
    rfl
  have he : p.execute m f.advance [] ⟨id, .start⟩ = (f.advance, m, .skip inside.length) := by
    rw [← hskip]
    rfl
  refine hst.moves he rfl (skip_inside ?_ hst.inside) ((Frame.Same.advance f).trans (.skip _ _))
    rfl ?_ (by simp) hst.operands
  · rw [hcode, List.length_append]
    exact Nat.le_add_right _ _
  · rw [Frame.code_skip, hcode, List.drop_left]

theorem gives_start {r : Except Stop Value × Scopes} {id : NodeId} (hcalm : Calm m₀ below)
    (hst : Stands m₀ f₀ below (⟨id, .start⟩ :: code') operands' scopes m f) (hne : code' ≠ [])
    (hgives : ∀ m' g, Stands m₀ f₀ below code' operands' scopes m' g →
      Gives p limits m₀ f₀ below code operands m' r) :
    Gives p limits m₀ f₀ below code operands m r := by
  have hskip : Program.skipAction m f.advance below id = .proceed := by
    unfold Program.skipAction
    rw [hst.keeps.reevaluating]
    split
    · next h =>
      simp only [Bool.and_eq_true, List.isEmpty_iff] at h
      exact absurd h.1.2 (hcalm h.1.1)
    · rfl
  exact (hst.start hskip hne).gives hgives

theorem Stands.jump {id : NodeId} {offset : Nat}
    (hst : Stands m₀ f₀ below (⟨id, .jump offset⟩ :: code') operands' scopes m f)
    (hle : offset ≤ code'.length) (hne : code'.drop offset ≠ []) :
    Moves p limits m₀ f₀ below (code'.drop offset) operands' scopes m := by
  have he : p.execute m f.advance below ⟨id, .jump offset⟩ = (f.advance, m, .jump offset) := rfl
  refine hst.moves he rfl (skip_inside ?_ hst.inside)
    ((Frame.Same.advance f).trans (Frame.Same.skip _ _)) rfl ?_ hne hst.operands
  · rwa [hst.advance_code]
  · rw [Frame.code_skip, hst.advance_code]

/-- A frame that raises an exception is marked. -/
theorem gives_raise {e : Exception} (hk : Keeps below m₀ m' scopes)
    (hs : m.step p limits = m'.raise g below s e) :
    Gives p limits m₀ f₀ below code operands m (.error (.raised e), scopes) := by
  unfold Gives
  refine Yields.now ?_
  rw [hs]
  exact ⟨_, _, rfl, rfl, rfl, rfl,
    ⟨hk.scopes, hk.remembered, hk.reevaluating, hk.streams, hk.pending, hk.result, hk.runs⟩⟩

/-- The two ways on from a jump that looks at a boolean. -/
theorem Stands.jumpIf {id : NodeId} {offset : Nat} {consume jumpWhen b : Bool}
    (hst : Stands m₀ f₀ below (⟨id, .jumpIf offset consume jumpWhen⟩ :: code')
      (.bool b :: operands') scopes m f)
    (hle : offset ≤ code'.length) (hne : code' ≠ []) (hne' : code'.drop offset ≠ []) :
    Moves p limits m₀ f₀ below (if b = jumpWhen then code'.drop offset else code')
      (if consume then operands' else .bool b :: operands') scopes m := by
  let next := if consume then f.advance.drop 1 else f.advance
  have he : p.execute m f.advance below ⟨id, .jumpIf offset consume jumpWhen⟩ =
      (next, m, if b = jumpWhen then .jump offset else .proceed) := by
    simp only [Program.execute, Frame.operands_advance, hst.operands, List.head?_cons]
    rfl
  have hnext : next.code = code' ∧ next.pc ≤ next.steps.size ∧ f.Same next ∧
      next.exception? = none ∧
      next.operands = if consume then operands' else .bool b :: operands' := by
    cases consume with
    | true =>
      refine ⟨hst.advance_code, hst.inside, (Frame.Same.advance f).trans (.drop _ 1), rfl, ?_⟩
      show f.operands.drop 1 = operands'
      rw [hst.operands]
      rfl
    | false => exact ⟨hst.advance_code, hst.inside, .advance f, rfl, hst.operands⟩
  obtain ⟨hcode, hpc, hsame, hgoes, hops⟩ := hnext
  by_cases hb : b = jumpWhen
  · rw [if_pos hb] at he ⊢
    refine hst.moves he rfl (skip_inside ?_ hpc) (hsame.trans (.skip _ _)) hgoes ?_ hne' hops
    · rwa [hcode]
    · rw [Frame.code_skip, hcode]
  · rw [if_neg hb] at he ⊢
    exact hst.moves he rfl hpc hsame hgoes hcode hne hops

/-- A jump that looks at another value raises an exception. -/
theorem Stands.step_jumpIf {id : NodeId} {offset : Nat} {consume jumpWhen : Bool} {v : Value}
    (hst : Stands m₀ f₀ below (⟨id, .jumpIf offset consume jumpWhen⟩ :: code')
      (v :: operands') scopes m f)
    (hv : ∀ b, v ≠ .bool b) :
    m.step p limits = { m with stepsTaken := m.stepsTaken + 1 }.raise
      (if consume then f.advance.drop 1 else f.advance) below
      ⟨id, .jumpIf offset consume jumpWhen⟩ ⟨.expectedBoolean, id⟩ := by
  have he : p.execute m f.advance below ⟨id, .jumpIf offset consume jumpWhen⟩ =
      (if consume then f.advance.drop 1 else f.advance, m, .raise ⟨.expectedBoolean, id⟩) := by
    simp only [Program.execute, Frame.operands_advance, hst.operands, List.head?_cons]
  exact hst.step limits he

theorem gives_jumpIf_raise {id : NodeId} {offset : Nat} {consume jumpWhen : Bool} {v : Value}
    (hst : Stands m₀ f₀ below (⟨id, .jumpIf offset consume jumpWhen⟩ :: code')
      (v :: operands') scopes m f)
    (hv : ∀ b, v ≠ .bool b) :
    Gives p limits m₀ f₀ below code operands m
      (.error (.raised ⟨.expectedBoolean, id⟩), scopes) :=
  gives_raise hst.keeps.counted (hst.step_jumpIf hv)

end

/-! ## The finish of a node -/

section
variable {s : Step}

/-- A node that is not skipped has nothing remembered. -/
theorem Calm.prior?_eq_none (hcalm : Calm m₀ below) (hk : Keeps below m₀ m scopes) :
    Program.prior? m below s = none := by
  cases hp : Program.prior? m below s with
  | none => rfl
  | some v =>
    obtain ⟨hr, hb, -⟩ := prior?_eq_some hp
    exact absurd hb (hcalm (hk.reevaluating ▸ hr))

/-- The step that finishes a node leaves or raises what the node gives. -/
theorem execute_finish (hprior : Program.prior? m below s = none)
    (hs : s.kind = .finish ∨ s.kind = .startFinish) :
    p.execute m f.advance below s =
      p.leave m below s (p.finish m f.advance below s none) := by
  rw [← hprior]
  rcases hs with hs | hs <;> simp only [Program.execute, hs]

variable (p limits)

/-- A node that gives an exception raises it. -/
theorem gives_finish_raise (hcalm : Calm m₀ below)
    (hst : Stands m₀ f₀ below (s :: code) operands scopes m f)
    (hs : s.kind = .finish ∨ s.kind = .startFinish) {e : Exception}
    (hv : (p.finish m f.advance below s none).value = .exception e) :
    Gives p limits m₀ f₀ below code' operands' m (.error (.raised e), scopes) := by
  have he := execute_finish (p := p) (f := f) (hcalm.prior?_eq_none hst.keeps) hs
  rw [Program.leave_of_exception hv] at he
  exact gives_raise hst.keeps.counted (hst.step limits he)

/-- A node that gives a value leaves it, and binds it if it asks for that. -/
theorem gives_finish (hcalm : Calm m₀ below)
    (hst : Stands m₀ f₀ below (s :: code) operands scopes m f)
    (hs : s.kind = .finish ∨ s.kind = .startFinish) {v : Value} {n : Nat} {binds : Bool}
    (hr : p.finish m f.advance below s none =
      { value := v, frame := f.advance.drop n, binds := binds })
    (hv : v.exception? = none) :
    Gives p limits m₀ f₀ below code (operands.drop n) m
      (.ok v, if binds then scopes.define f₀.scope s.node v else scopes) := by
  have he := execute_finish (p := p) (f := f) (hcalm.prior?_eq_none hst.keeps) hs
  rw [hr, Program.leave_of_value hv] at he
  refine ⟨hv, .now ⟨_, (f.advance.drop n).push v, s, hst.step limits he, rfl, ?_, ?_, ?_, ?_⟩⟩
  · exact ((hst.same.trans (.advance f)).trans (.drop _ n)).trans (.push _ _)
  · exact hst.advance_code
  · rw [Frame.operands_push, Frame.operands_drop, Frame.operands_advance, hst.operands]
  · have hk := hst.keeps
    have hscope : (f.advance.drop n).scope = f₀.scope := hst.same.scope
    refine ⟨?_, fun hb => ?_, hk.reevaluating, hk.streams, hk.pending, hk.result, hk.runs⟩
    · show (p.kept m.store below s _).scopes = _
      rw [Program.scopes_kept, hk.scopes, hscope]
    · exact (Program.remembered_kept_of_ne_nil m.store hb).trans (hk.remembered hb)

end

end Machine

end Arbor
