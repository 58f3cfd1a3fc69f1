/-
  The inputs of a machine.

  A value of a stream that comes while a run is open waits until the run is over, and then
  starts a run of its own.  So every input gets its run, in the order in which it came, and
  no run sees a value that came after it was begun.

  That a run is counted when it is over hangs on its last step: code ends with the finish of
  a node, which leaves a value, and no jump leads past it (`Landing`).  This holds of the
  code of every frame, whatever the program.

  Main statements: `step_effect`, what a step does to the queue; `Accounted.turn`, each call
  of the machine keeps account of the inputs; `Turns.inputs`, the account after any calls.
-/
import Arbor.Proofs.Machine.Discipline
import Mathlib.Data.List.Induction
import Mathlib.Logic.Relation

namespace Arbor

/-! ## Code that ends with a value -/

/-- Only the finish of a node comes last in the code, and every jump leads to a step. -/
def Landing : List Step → Prop
  | [] => True
  | s :: code => (code = [] → s.finishes) ∧ (∀ o, s.offset? = some o → o < code.length) ∧ Landing code

namespace Landing

variable {xs ys : List Step}

/-- A finish before code. -/
theorem finish {s : Step} (hs : s.finishes) (h : Landing xs) : Landing (s :: xs) := by
  refine ⟨fun _ => hs, fun o ho => ?_, h⟩
  unfold Step.finishes at hs
  unfold Step.offset? at ho
  split at hs <;> simp_all

/-- A step without a jump before more code. -/
theorem plain {s : Step} (hs : s.offset? = none) (hx : xs ≠ []) (h : Landing xs) :
    Landing (s :: xs) :=
  ⟨fun e => absurd e hx, fun o ho => (by rw [hs] at ho; cases ho), h⟩

/-- A jump to one of the steps that follow. -/
theorem jump {s : Step} {o : Nat} (hs : s.offset? = some o) (ho : o < xs.length) (h : Landing xs) :
    Landing (s :: xs) :=
  ⟨fun e => (by simp [e] at ho), fun o' ho' => (by rw [hs] at ho'; cases ho'; exact ho), h⟩

theorem append (hx : Landing xs) (hy : Landing ys) : Landing (xs ++ ys) := by
  induction xs with
  | nil => exact hy
  | cons s xs ih =>
    obtain ⟨hlast, hjump, hx⟩ := hx
    refine ⟨fun e => hlast (List.append_eq_nil_iff.1 e).1, fun o ho => ?_, ih hx⟩
    have := hjump o ho
    simp only [List.append_eq, List.length_append]
    omega

theorem flatMap {ids : List NodeId} {f : NodeId → List Step} (h : ∀ c, Landing (f c)) :
    Landing (ids.flatMap f) := by
  induction ids with
  | nil => trivial
  | cons c ids ih => exact (h c).append ih

theorem drop (h : Landing xs) (n : Nat) : Landing (xs.drop n) := by
  induction n generalizing xs with
  | zero => exact h
  | succ n ih =>
    cases xs with
    | nil => trivial
    | cons s xs => exact ih h.2.2

end Landing

namespace Program

variable (p : Program)

/-- The steps of a node around those of its children, whatever these are. -/
theorem landing_compileNode (a : Arena) {sub : NodeId → List Step} (h : ∀ c, Landing (sub c))
    (id : NodeId) : Landing (a.compileNode sub id) := by
  have fin : Landing [⟨id, .finish⟩] := .finish rfl trivial
  have call : Landing [⟨id, .startEvaluation⟩, ⟨id, .finish⟩] := .plain rfl nofun fin
  have around {inside : List Step} (hin : Landing inside) :
      Landing ([⟨id, .start⟩] ++ inside ++ [⟨id, .finish⟩]) := by
    rw [List.append_assoc]
    exact .plain rfl (by simp) (hin.append fin)
  unfold Arena.compileNode
  split
  · next left op right _ =>
    simp only [List.append_assoc, List.singleton_append]
    refine .plain rfl (by simp) ((h left).append ?_)
    split
    · exact .jump rfl (by simp) ((h right).append call)
    · exact (h right).append call
  · next condition yes no _ =>
    simp only [List.append_assoc, List.singleton_append]
    refine .plain rfl (by simp) ((h condition).append (.jump rfl (by simp) ((h yes).append ?_)))
    exact .jump rfl (by simp) ((h no).append fin)
  · next function is _ =>
    simp only [List.append_assoc, List.singleton_append]
    exact .plain rfl (by simp) ((h function).append ((Landing.flatMap h).append call))
  · next receiver _ _ => exact around (h receiver)
  · exact around (.flatMap h)
  · next value _ => exact around (h value)
  · next main _ => exact around (h main)
  · exact .finish rfl trivial

theorem landing_compile (id : NodeId) : Landing (p.compile id) := by
  have deep (d : Nat) : ∀ c, Landing (unroll [] p.arena.compileNode d c) := by
    induction d with
    | zero => exact fun _ => trivial
    | succ d ih => exact landing_compileNode p.arena ih
  exact deep _ id

theorem landing_compileBody (id : NodeId) : Landing (p.compileBody id) := by
  unfold compileBody
  split
  · exact p.landing_compile _
  · rw [List.append_assoc]
    exact .plain rfl (by simp) ((Landing.flatMap p.landing_compile).append (.finish rfl trivial))
  · trivial

end Program

namespace Machine

/-! ## What a step does to the inputs -/

/-- The inputs stand as they did: those that wait, the latest value of each stream, and the
    number of runs. -/
structure SameInputs (m m' : Machine) : Prop where
  pending : m'.pending = m.pending
  streams : m'.streams = m.streams
  runs : m'.runs = m.runs

/-- The code of every frame ends with a value. -/
def AllLanding (frames : List Frame) : Prop := ∀ f ∈ frames, Landing f.steps.toList

/-- What a step of an open run does: the run stays open and the inputs stand, or the run
    ends. -/
inductive Effect (p : Program) (m m' : Machine) : Prop
  | goes : SameInputs m m' → m'.frames ≠ [] → AllLanding m'.frames → Effect p m m'
  | ends {m₁ : Machine} {v : Value} : SameInputs m m₁ → m' = m₁.endRun p v → Effect p m m'

variable {p : Program} {limits : Limits} {m m₁ : Machine} {f g : Frame} {below : List Frame}

theorem SameInputs.refl (m : Machine) : SameInputs m m := ⟨rfl, rfl, rfl⟩

/-- A frame goes on at a step of the code that is left. -/
theorem lands_before {s : Step} {rest : List Step} {h : Frame} {k : Nat} (hc : f.code = s :: rest)
    (hk : k < rest.length) (hsteps : h.steps = f.steps) (hpc : h.pc = f.pc + 1 + k) :
    h.pc ≤ h.steps.size ∧ (h.code = [] → h.operands ≠ []) := by
  have hlen := f.length_code
  rw [hc, List.length_cons] at hlen
  refine ⟨by rw [hsteps, hpc]; omega, fun hnil => ?_⟩
  have := h.length_code
  rw [hnil, hsteps, hpc, List.length_nil] at this
  omega

/-- Code at its last step is left with a value, and a jump never leaves code. -/
theorem lands {s : Step} {rest : List Step} {h : Frame} {action : Action}
    (hc : f.code = s :: rest) (hl : Landing (s :: rest))
    (he : p.execute m f.advance below s = (g, m₁, action)) (ha : g.after? action = some h) :
    h.pc ≤ h.steps.size ∧ (h.code = [] → h.operands ≠ []) := by
  obtain ⟨hsteps, hpc⟩ := sameCode_execute p m f.advance below s
  rw [he] at hsteps hpc
  have hpc : g.pc = f.pc + 1 := hpc
  -- Before the last step, the frame goes on at the next one.
  have next (hs : s.finishes = false) (hh : h.steps = g.steps) (hp : h.pc = g.pc) :
      h.pc ≤ h.steps.size ∧ (h.code = [] → h.operands ≠ []) := by
    have hrest : rest ≠ [] := fun e => by have := hl.1 e; rw [hs] at this; cases this
    exact lands_before (k := 0) hc (List.length_pos_iff.2 hrest) (hh.trans hsteps) (hp.trans hpc)
  have leave (hr : p.leave m below s (p.finish m f.advance below s (Program.prior? m below s)) =
      (g, m₁, action)) : h.pc ≤ h.steps.size ∧ (h.code = [] → h.operands ≠ []) := by
    generalize p.finish m f.advance below s (Program.prior? m below s) = r at hr
    cases hv : r.value.exception? with
    | some e =>
      rw [Program.leave_of_exception (Value.eq_exception hv)] at hr
      cases hr
      cases ha
    | none =>
      rw [Program.leave_of_value hv] at hr
      cases hr
      cases ha
      refine ⟨?_, fun _ => List.cons_ne_nil _ _⟩
      rw [hpc, hsteps]
      exact Frame.pc_lt_of_code_ne_nil (by rw [hc]; nofun)
  cases hk : s.kind with
  | start =>
    simp only [Program.execute, hk] at he
    cases he
    have hs : s.finishes = false := by simp [Step.finishes, hk]
    unfold Program.skipAction at ha
    split at ha
    · split at ha
      · next count hto =>
        cases ha
        rw [Frame.stepsToFinish?_eq_code (advance_inside hc), code_advance_eq hc] at hto
        exact lands_before hc (List.findIdx?_eq_some_iff_findIdx_eq.1 hto).1 rfl rfl
      · cases ha
        exact next hs rfl rfl
    · cases ha
      exact next hs rfl rfl
  | finish => simp only [Program.execute, hk] at he; exact leave he
  | startFinish => simp only [Program.execute, hk] at he; exact leave he
  | jumpIf offset consume jumpWhen =>
    have hs : s.finishes = false := by simp [Step.finishes, hk]
    have hoffset := hl.2.1 offset (by simp [Step.offset?, hk])
    simp only [Program.execute, hk] at he
    have on (b : Bool) (hb : (if b = jumpWhen then Action.jump offset else .proceed) = action) :
        h.pc ≤ h.steps.size ∧ (h.code = [] → h.operands ≠ []) := by
      split at hb <;> cases hb <;> cases ha
      · exact lands_before hc hoffset hsteps (congrArg (· + offset) hpc)
      · exact next hs rfl rfl
    split at he
    · next b _ => exact on b (congrArg (·.2.2) he)
    · cases congrArg (·.2.2) he
      cases ha
    · cases congrArg (·.2.2) he
      cases ha
  | jump offset =>
    simp only [Program.execute, hk] at he
    cases he
    cases ha
    exact lands_before hc (hl.2.1 offset (by simp [Step.offset?, hk])) rfl rfl
  | startEvaluation =>
    simp only [Program.execute, hk] at he
    cases he
    rw [after?_startEvaluation] at ha
    cases ha

theorem allLanding_cons {frames : List Frame} (hf : Landing f.steps.toList)
    (h : AllLanding frames) : AllLanding (f :: frames) :=
  List.forall_mem_cons.2 ⟨hf, h⟩

/-- A run that is begun has one frame, whose code ends with a value. -/
theorem allLanding_beginRun (m : Machine) (reevaluating : Bool) :
    AllLanding (m.beginRun p reevaluating).frames :=
  allLanding_cons (by simpa using p.landing_compile p.root) nofun

theorem effect_settle {h : Frame} {s : Step} (hsame : SameInputs m m₁)
    (hh : Landing h.steps.toList) (hbelow : AllLanding below)
    (hlands : h.code = [] → h.operands ≠ []) : Effect p m (m₁.settle p h below s).2 := by
  unfold settle
  split
  · next hdone =>
    obtain ⟨v, vs, hv⟩ := List.exists_cons_of_ne_nil (hlands (h.isDone_iff.1 hdone))
    unfold complete
    rw [hv]
    cases below with
    | nil => exact .ends hsame rfl
    | cons caller rest =>
      obtain ⟨hcaller, hrest⟩ := List.forall_mem_cons.1 hbelow
      exact .goes ⟨hsame.1, hsame.2, hsame.3⟩ nofun (allLanding_cons hcaller hrest)
  · exact .goes ⟨hsame.1, hsame.2, hsame.3⟩ nofun (allLanding_cons hh hbelow)

theorem effect_enter {s : Step} {c : Call} (hsame : SameInputs m m₁) (hg : Landing g.steps.toList)
    (hbelow : AllLanding below) : Effect p m (m₁.enter p limits g below s c).2 := by
  have raise (e : Exception) : Effect p m (m₁.raise g below s e).2 :=
    .goes ⟨hsame.1, hsame.2, hsame.3⟩ nofun (allLanding_cons hg hbelow)
  unfold enter
  split
  · exact raise _
  · split
    · exact raise _
    · refine .goes ⟨hsame.1, hsame.2, hsame.3⟩ nofun ?_
      exact allLanding_cons (by simpa [Program.openFrame] using p.landing_compileBody c.definition)
        (allLanding_cons hg hbelow)

variable (limits) in
/-- **What a step does to the inputs.**  It leaves them as they are and the run open, or it
    ends the run. -/
theorem step_effect (hopen : m.frames ≠ []) (hl : AllLanding m.frames) :
    Effect p m (m.step p limits).2 := by
  obtain ⟨f, below, hm⟩ := List.exists_cons_of_ne_nil hopen
  rw [hm] at hl
  obtain ⟨hf, hbelow⟩ := List.forall_mem_cons.1 hl
  cases he : f.exception? with
  | some e =>
    rw [step_unwinding hm (f.exception?_eq_some_iff.1 he)]
    cases below with
    | nil => exact .ends (.refl m) rfl
    | cons caller rest =>
      obtain ⟨hcaller, hrest⟩ := List.forall_mem_cons.1 hbelow
      exact .goes ⟨rfl, rfl, rfl⟩ nofun (allLanding_cons hcaller hrest)
  | none =>
    cases hc : f.code with
    | nil =>
      rw [step_stuck hm he hc]
      exact .goes ⟨rfl, rfl, rfl⟩ nofun (allLanding_cons hf hbelow)
    | cons s rest =>
      rcases hr : p.execute m f.advance below s with ⟨g, m₁, action⟩
      obtain ⟨store, hm₁, -⟩ := Program.execute_machine (p := p) m f.advance below s
      have hsteps := (sameCode_execute p m f.advance below s).1
      rw [hr] at hm₁ hsteps
      have hg : Landing g.steps.toList := by rw [hsteps]; exact hf
      have hcode : Landing (s :: rest) := by
        rw [← hc]
        exact Landing.drop hf _
      rw [step_running hm he hc hr]
      subst hm₁
      have hsame : SameInputs m { { m with store } with stepsTaken := m.stepsTaken + 1 } :=
        ⟨rfl, rfl, rfl⟩
      cases ha : g.after? action with
      | some h =>
        obtain ⟨hpc, hlands⟩ := lands hc hcode hr ha
        rw [act_eq_settle ha hpc]
        have hh : h.steps = g.steps := by cases action <;> cases ha <;> rfl
        exact effect_settle hsame (hh ▸ hg) hbelow hlands
      | none =>
        cases action with
        | raise e => exact .goes ⟨rfl, rfl, rfl⟩ nofun (allLanding_cons hg hbelow)
        | call c => exact effect_enter hsame hg hbelow
        | _ => cases ha

/-! ## Calls of a machine -/

/-- An accepted input: the stream and its new value. -/
abbrev Input := StreamId × Value

/-- One call of a machine that was started, with the inputs that it has accepted until then.
    A rejected input leaves no other machine. -/
inductive Turn (p : Program) : List Input × Machine → List Input × Machine → Prop
  | step (limits : Limits) (k : List Input) (m : Machine) : Turn p (k, m) (k, (m.step p limits).2)
  | run (limits : Limits) (k : List Input) (m : Machine) : Turn p (k, m) (k, (m.run p limits).2)
  | accepted {k : List Input} {m m' : Machine} {n : Name} {s : StreamId} {v : Value} :
      p.streamNamed? n = some s → m.streamInput p n v = .ok m' → Turn p (k, m) (k ++ [(s, v)], m')
  | rejected {k : List Input} {m : Machine} {n : Name} {v : Value} {e : EvalError} :
      m.streamInput p n v = .error e → Turn p (k, m) (k, m)

/-- Calls one after another. -/
def Turns (p : Program) : List Input × Machine → List Input × Machine → Prop :=
  Relation.ReflTransGen (Turn p)

/-- The streams after inputs were taken one after another. -/
def taken (inputs : List Input) : Table StreamId Value :=
  inputs.foldl (fun t (s, v) => t.insert s v) .empty

/-- The latest value of a stream among inputs. -/
def latest? (inputs : List Input) (s : StreamId) : Option Value :=
  (inputs.reverse.find? (·.1 == s)).map (·.2)

theorem taken_append_singleton (inputs : List Input) (e : Input) :
    taken (inputs ++ [e]) = (taken inputs).insert e.1 e.2 := by
  simp [taken]

theorem get?_taken (inputs : List Input) (s : StreamId) :
    (taken inputs).get? s = latest? inputs s := by
  induction inputs using List.reverseRecOn with
  | nil => rfl
  | append_singleton inputs e ih =>
    rw [taken_append_singleton, Table.get?_insert, ih]
    unfold latest?
    rw [List.reverse_append, List.reverse_singleton, List.singleton_append, List.find?_cons]
    by_cases h : e.1 = s
    · simp [h]
    · have hb : (e.1 == s) = false := by simpa using h
      simp [h, hb]

/-! ## Keeping account -/

/-- The account of the inputs that were accepted: the earlier ones have got a run each, the
    later ones wait. -/
structure Accounted (k : List Input) (m : Machine) : Prop where
  landing : AllLanding m.frames
  result : m.frames = [] → m.result.isSome
  idle : m.frames = [] → m.pending = []
  split : ∃ used, k = used ++ m.pending ∧ m.streams = taken used ∧
    m.runs + (if m.frames = [] then 0 else 1) = 1 + used.length

theorem accounted_start (memo : Memo) : Accounted [] ((Machine.initial memo).start p) where
  landing := allLanding_beginRun _ _
  result := nofun
  idle := nofun
  split := ⟨[], rfl, rfl, rfl⟩

variable {k : List Input}

/-- The input that waited longest starts the next run. -/
theorem Accounted.endRun (h : Accounted k m) (hopen : m.frames ≠ []) (hsame : SameInputs m m₁)
    (v : Value) : Accounted k (m₁.endRun p v) := by
  obtain ⟨used, hk, hstreams, hruns⟩ := h.split
  rw [if_neg hopen] at hruns
  rcases endRun_cases p m₁ v with ⟨hp, he⟩ | ⟨s, input, pending, hp, he⟩ <;> rw [he]
  · refine ⟨nofun, fun _ => rfl, fun _ => hp, used, ?_, hsame.streams.trans hstreams, ?_⟩
    · rw [hk, ← hsame.pending]
    · show m₁.runs + 1 + 0 = 1 + used.length
      rw [hsame.runs]
      omega
  · refine ⟨allLanding_beginRun _ _, nofun, nofun, used ++ [(s, input)], ?_, ?_, ?_⟩
    · rw [hk, ← hsame.pending, hp]
      simp [beginRun, addScope]
    · rw [taken_append_singleton, ← hstreams, ← hsame.streams]
      rfl
    · show m₁.runs + 1 + 1 = 1 + (used ++ [(s, input)]).length
      rw [hsame.runs, List.length_append, List.length_singleton]
      omega

theorem Accounted.step (h : Accounted k m) : Accounted k (m.step p limits).2 := by
  by_cases hopen : m.frames = []
  · rw [step_closed hopen]
    exact h
  · cases step_effect limits hopen h.landing with
    | goes hsame hframes hl =>
      obtain ⟨used, hk, hstreams, hruns⟩ := h.split
      rw [if_neg hopen] at hruns
      refine ⟨hl, fun e => absurd e hframes, fun e => absurd e hframes, used, ?_,
        hsame.streams.trans hstreams, ?_⟩
      · rw [hsame.pending, hk]
      · rw [if_neg hframes, hsame.runs, hruns]
    | ends hsame hend =>
      rw [hend]
      exact h.endRun hopen hsame _

theorem Accounted.run (h : Accounted k m) : Accounted k (m.run p limits).2 := by
  have hm : ¬(m.frames.isEmpty && m.result.isNone) = true := by
    intro e
    rw [Bool.and_eq_true, List.isEmpty_iff, Option.isNone_iff_eq_none] at e
    have := h.result e.1
    rw [e.2] at this
    cases this
  unfold Machine.run
  rw [if_neg hm]
  exact resume_keeps (fun _ => Accounted.step) h

/-- An input that comes while a run is open waits behind the others. -/
theorem Accounted.streamInput (h : Accounted k m) {n : Name} {s : StreamId} {v : Value}
    {m' : Machine} (hs : p.streamNamed? n = some s) (hm : m.streamInput p n v = .ok m') :
    Accounted (k ++ [(s, v)]) m' := by
  obtain ⟨used, hk, hstreams, hruns⟩ := h.split
  obtain ⟨s', hs', hcases⟩ := streamInput_cases hm
  cases hs.symm.trans hs'
  rcases hcases with ⟨hidle, rfl⟩ | ⟨hopen, rfl⟩
  · refine ⟨allLanding_beginRun _ _, nofun, nofun, used ++ [(s, v)], ?_, ?_, ?_⟩
    · rw [hk, h.idle hidle, List.append_nil]
      exact (List.append_nil _).symm
    · rw [taken_append_singleton, ← hstreams]
      rfl
    · rw [if_pos hidle] at hruns
      show m.runs + 1 = 1 + (used ++ [(s, v)]).length
      rw [List.length_append, List.length_singleton]
      omega
  · exact ⟨h.landing, h.result, fun e => absurd e hopen, used, by rw [hk, List.append_assoc],
      hstreams, hruns⟩

/-- **Every call keeps account of the inputs.** -/
theorem Accounted.turn {q q' : List Input × Machine} (h : Accounted q.1 q.2) (ht : Turn p q q') :
    Accounted q'.1 q'.2 := by
  cases ht with
  | step limits k m => exact h.step
  | run limits k m => exact h.run
  | accepted hs hm => exact h.streamInput hs hm
  | rejected => exact h

theorem Turns.accounted {q q' : List Input × Machine} (ht : Turns p q q')
    (h : Accounted q.1 q.2) : Accounted q'.1 q'.2 := by
  induction ht with
  | refl => exact h
  | tail _ ht ih => exact ih.turn ht

/-- What was accepted stays accepted. -/
theorem Turns.isPrefix {q q' : List Input × Machine} (ht : Turns p q q') : q.1 <+: q'.1 := by
  induction ht with
  | refl => exact List.prefix_rfl
  | tail _ ht ih =>
    cases ht with
    | accepted => exact ih.trans (List.prefix_append ..)
    | _ => exact ih

/-- **Inputs are neither lost nor doubled, keep their order, and are not seen half-way.**  After
    any calls of a machine that was started:

    * there is one run for the start and one for each accepted input, run, open or waiting;
    * the inputs that wait are the last ones, in the order in which they came, and each stream
      has its latest value among the others;
    * the streams stand while a run is open;
    * nothing waits when no run is open;
    * only values of unknown streams are rejected. -/
theorem Turns.inputs {memo : Memo} {m' : Machine} {k' : List Input}
    (h : Turns p ([], (Machine.initial memo).start p) (k, m)) (h' : Turns p (k, m) (k', m')) :
    m.runs + (if m.frames = [] then 0 else 1) + m.pending.length = 1 + k.length ∧
    m.pending <:+ k ∧
    (∀ s, m.streamValue? s = latest? (k.take (k.length - m.pending.length)) s) ∧
    (m'.runs = m.runs → m.frames ≠ [] → m'.frames ≠ [] → m'.streams = m.streams) ∧
    (m.frames = [] → m.pending = []) ∧
    (∀ n v e, m.streamInput p n v = .error e ↔ p.streamNamed? n = none ∧ e = .unknownStream n) := by
  have ham : Accounted k m := h.accounted (accounted_start memo)
  have ham' : Accounted k' m' := h'.accounted ham
  obtain ⟨used, hk, hstreams, hruns⟩ := ham.split
  obtain ⟨used', hk', hstreams', hruns'⟩ := ham'.split
  have hlen : k.length = used.length + m.pending.length := by rw [hk, List.length_append]
  refine ⟨by omega, ⟨used, hk.symm⟩, fun s => ?_, fun hsame hopen hopen' => ?_, ham.idle,
    fun n v e => ?_⟩
  · rw [hlen, Nat.add_sub_cancel]
    conv_rhs => rw [hk, List.take_left]
    rw [streamValue?, hstreams, get?_taken]
  · rw [if_neg hopen] at hruns
    rw [if_neg hopen'] at hruns'
    -- As many inputs were used in both states, and both come first among the accepted ones.
    have hprefix : used <+: used' ++ m'.pending := by
      rw [← hk']
      exact (List.prefix_append used m.pending).trans (hk ▸ h'.isPrefix)
    have : used = used' := by
      rw [List.prefix_iff_eq_take.1 hprefix, List.take_append_of_le_length (by omega),
        List.take_of_length_le (by omega)]
    rw [hstreams', hstreams, this]
  · unfold Machine.streamInput
    cases p.streamNamed? n with
    | none =>
      constructor
      · intro he
        cases he
        exact ⟨rfl, rfl⟩
      · rintro ⟨-, rfl⟩
        rfl
    | some s =>
      constructor
      · intro he
        dsimp only at he
        split at he <;> cases he
      · rintro ⟨he, -⟩
        cases he

/-- A value of the stream of `switch` comes in its first run: it waits, and no stream has a
    value, also after the next step. -/
theorem inputs_switched :
    Turns switch ([], (Machine.initial default).start switch) ([(⟨0⟩, .bool true)], switched) ∧
      switched.pending.length = 1 ∧ switched.streamValue? ⟨0⟩ = none ∧
      (switched.step switch default).2.streams = switched.streams := by
  let started := (Machine.initial default).start switch
  have hs : switch.streamNamed? switchName = some ⟨0⟩ := by decide +kernel
  have hin : (started.step switch default).2.streamInput switch switchName (.bool true) =
      .ok switched := by
    unfold switched
    dsimp only
    split
    · next m hm => exact hm
    · next e he =>
      unfold Machine.streamInput at he
      rw [hs] at he
      dsimp only at he
      split at he <;> cases he
  have turns : Turns switch ([], started) ([(⟨0⟩, .bool true)], switched) :=
    (Relation.ReflTransGen.single (.step default [] started)).tail (.accepted hs hin)
  have opened : switched.frames.length = 1 ∧ switched.pending.length = 1 ∧
      (switched.step switch default).2.frames.length = 1 ∧
      (switched.step switch default).2.runs = switched.runs := by
    decide +kernel
  obtain ⟨hframes, hpending, hframes', hruns⟩ := opened
  obtain ⟨-, -, hlatest, hstand, -⟩ := turns.inputs (.single (.step default _ _))
  refine ⟨turns, hpending, ?_, hstand hruns ?_ ?_⟩
  · rw [hlatest, hpending]
    rfl
  · intro e
    rw [e] at hframes
    cases hframes
  · intro e
    rw [e] at hframes'
    cases hframes'

end Machine

end Arbor
