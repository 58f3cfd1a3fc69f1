/-
  The code that is left for a frame, and what one step of the machine does.

  The step function is opened once, here: there is one equation for each state that
  the top frame can be in (`step_closed`, `step_unwinding`, `step_stuck`,
  `step_running`), and later proofs speak about `Frame.code`, the steps that the
  frame has still to run, and not about places in arrays.  Likewise for the ends of runs
  and for inputs (`endRun_cases`, `streamInput_cases`).
-/
import Arbor.Machine.Run

namespace Arbor

/-! ## The code of a frame -/

namespace Frame

/-- The steps that are left. -/
def code (f : Frame) : List Step := f.steps.toList.drop f.pc

/-- The frame that runs its next step. -/
def advance (f : Frame) : Frame := { f with phase := .running, pc := f.pc + 1 }

/-- The frame that leaves out its next steps. -/
def skip (f : Frame) (count : Nat) : Frame := { f with pc := f.pc + count }

variable (f : Frame)

theorem next?_eq : f.next? = f.code.head? := by
  simp [next?, code, List.head?_drop]

@[simp] theorem code_advance : f.advance.code = f.code.tail := by
  simp [advance, code, List.tail_drop]

@[simp] theorem code_skip (count : Nat) : (f.skip count).code = f.code.drop count := by
  simp [skip, code, List.drop_drop]

@[simp] theorem code_push (v : Value) : (f.push v).code = f.code := rfl

@[simp] theorem code_drop (count : Nat) : (f.drop count).code = f.code := rfl

@[simp] theorem operands_advance : f.advance.operands = f.operands := rfl

@[simp] theorem operands_skip (count : Nat) : (f.skip count).operands = f.operands := rfl

@[simp] theorem operands_push (v : Value) : (f.push v).operands = v :: f.operands := rfl

@[simp] theorem operands_drop (count : Nat) :
    (f.drop count).operands = f.operands.drop count := rfl

@[simp] theorem steps_advance : f.advance.steps = f.steps := rfl

@[simp] theorem steps_skip (count : Nat) : (f.skip count).steps = f.steps := rfl

@[simp] theorem steps_push (v : Value) : (f.push v).steps = f.steps := rfl

@[simp] theorem steps_drop (count : Nat) : (f.drop count).steps = f.steps := rfl

theorem exception?_eq_some_iff {e : Exception} :
    f.exception? = some e ↔ f.phase = .unwinding e := by
  unfold exception?
  cases f.phase <;> simp

theorem isDone_iff : f.isDone = true ↔ f.code = [] := by
  simp [isDone, code]

/-- The steps that are left are steps of the frame. -/
theorem mem_steps_of_mem_code {f : Frame} {s : Step} (h : s ∈ f.code) : s ∈ f.steps.toList :=
  List.mem_of_mem_drop h

/-- A frame with code left is inside its steps. -/
theorem length_code : f.code.length = f.steps.size - f.pc := by
  simp [code]

theorem pc_lt_of_code_ne_nil {f : Frame} (h : f.code ≠ []) : f.pc < f.steps.size := by
  have := List.length_pos_iff.2 h
  rw [length_code] at this
  omega

/-- The way to the finish of a node, read off the code. -/
theorem stepsToFinish?_eq_code {f : Frame} (h : f.pc ≤ f.steps.size) (id : NodeId) :
    f.stepsToFinish? id = f.code.findIdx? (· == ⟨id, .finish⟩) :=
  stepsToFinish?_eq h id

/-- What is inside a node is left out on the way to its finish. -/
theorem stepsToFinish?_of_code {f : Frame} {id : NodeId} {inside after : List Step}
    (h : f.pc ≤ f.steps.size) (hcode : f.code = inside ++ ⟨id, .finish⟩ :: after)
    (hclosed : ⟨id, .finish⟩ ∉ inside) : f.stepsToFinish? id = some inside.length := by
  rw [stepsToFinish?_eq_code h, hcode, List.findIdx?_append, List.findIdx?_eq_none_iff.2]
  · simp [List.findIdx?_cons]
  · intro s hs
    simp only [beq_eq_false_iff_ne, ne_eq]
    rintro rfl
    exact hclosed hs

end Frame

/-! ## The value of a node -/

theorem Value.eq_exception {v : Value} {e : Exception} (h : v.exception? = some e) :
    v = .exception e := by
  cases v <;> cases h
  rfl

namespace Program

variable (p : Program)

/-- The store after the value of a node is left: the value is bound if the node asks for
    that, and remembered at the finish of a node in the program frame. -/
def kept (store : Store) (below : List Frame) (s : Step) (r : Finished) : Store :=
  let store := if r.binds then store.define r.frame.scope s.node r.value else store
  if below.isEmpty && s.kind == .finish then store.remember p s.node r.value else store

variable {p} {m : Machine} {below : List Frame} {s : Step} {r : Finished}

theorem leave_of_exception {e : Exception} (h : r.value = .exception e) :
    p.leave m below s r = (r.frame, m, .raise e) := by
  unfold leave
  rw [h]

theorem leave_of_value (h : r.value.exception? = none) :
    p.leave m below s r =
      (r.frame.push r.value, { m with store := p.kept m.store below s r }, .proceed) := by
  unfold leave kept
  cases hr : r.value <;> first | rfl | (rw [hr] at h; cases h)

theorem scopes_kept (store : Store) :
    (p.kept store below s r).scopes =
      if r.binds then store.scopes.define r.frame.scope s.node r.value else store.scopes := by
  have remember (store : Store) : (store.remember p s.node r.value).scopes = store.scopes := rfl
  unfold kept
  dsimp only
  split
  · rw [remember]
    split <;> rfl
  · split <;> rfl

/-- Nothing is remembered outside the program frame. -/
theorem remembered_kept_of_ne_nil (store : Store) (hb : below ≠ []) :
    (p.kept store below s r).remembered = store.remembered := by
  have : below.isEmpty = false := by simpa using hb
  unfold kept
  rw [this]
  split <;> rfl

end Program

namespace Program

variable {p : Program}

/-- A step changes nothing of a machine but its store, and remembers nothing unless it
    is one of the program frame. -/
theorem execute_machine (m : Machine) (f : Frame) (below : List Frame) (s : Step) :
    ∃ store : Store, (p.execute m f below s).2.1 = { m with store } ∧
      (below ≠ [] → store.remembered = m.store.remembered) := by
  have leave (r : Finished) : ∃ store : Store, (p.leave m below s r).2.1 = { m with store } ∧
      (below ≠ [] → store.remembered = m.store.remembered) := by
    cases hr : r.value.exception? with
    | some e =>
      rw [leave_of_exception (Value.eq_exception hr)]
      exact ⟨m.store, rfl, fun _ => rfl⟩
    | none =>
      rw [leave_of_value hr]
      exact ⟨_, rfl, remembered_kept_of_ne_nil m.store⟩
  unfold execute
  split
  · exact ⟨m.store, rfl, fun _ => rfl⟩
  · exact leave _
  · exact leave _
  · dsimp only
    split <;> exact ⟨m.store, rfl, fun _ => rfl⟩
  · exact ⟨m.store, rfl, fun _ => rfl⟩
  · exact ⟨m.store, rfl, fun _ => rfl⟩

end Program

/-! ## One step -/

namespace Machine

variable {p : Program} {limits : Limits} {m : Machine} {f : Frame} {below : List Frame}

/-- No step is run when no frame is open. -/
theorem step_closed (hm : m.frames = []) :
    m.step p limits = (.error (if m.result.isSome then .finished else .notStarted), m) := by
  simp [step, hm]

/-- A frame that is unwinding is taken away. -/
theorem step_unwinding (hm : m.frames = f :: below) {e : Exception} (hf : f.phase = .unwinding e) :
    m.step p limits = m.unwind p f below e := by
  simp [step, hm, hf]

/-- A frame without code cannot go on. -/
theorem step_stuck (hm : m.frames = f :: below) (hf : f.exception? = none) (hc : f.code = []) :
    m.step p limits = (.error (.valueStackUnderflow f.creator),
      { m with frames := { f with phase := .running } :: below }) := by
  have hn : f.next? = none := by rw [f.next?_eq, hc]; rfl
  unfold Frame.exception? at hf
  unfold step
  rw [hm]
  cases hp : f.phase <;> simp_all

/-- Any other frame executes the first step that is left, and the machine does what
    the step asks for. -/
theorem step_running (hm : m.frames = f :: below) (hf : f.exception? = none) {s : Step}
    {rest : List Step} (hc : f.code = s :: rest) {g : Frame} {m₁ : Machine} {action : Action}
    (he : p.execute m f.advance below s = (g, m₁, action)) :
    m.step p limits =
      { m₁ with stepsTaken := m₁.stepsTaken + 1 }.act p limits g below s action := by
  have hn : f.next? = some s := by rw [f.next?_eq, hc]; rfl
  unfold Frame.exception? at hf
  unfold Frame.advance at he
  unfold step
  rw [hm]
  cases hp : f.phase <;> simp_all

/-! ## Between runs -/

/-- The end of a run leaves its result, and begins the next run if an input waits. -/
theorem endRun_cases (p : Program) (m : Machine) (v : Value) :
    m.pending = [] ∧
        m.endRun p v = { m with frames := [], result := some v, runs := m.runs + 1 } ∨
      ∃ id input pending, m.pending = (id, input) :: pending ∧
        m.endRun p v = Machine.beginRun p true { m with
          frames := [], result := some v, runs := m.runs + 1, pending := pending,
          streams := m.streams.insert id input } := by
  unfold endRun
  dsimp only
  split
  · next hpending => exact .inl ⟨hpending, rfl⟩
  · next id input pending hpending => exact .inr ⟨id, input, pending, hpending, rfl⟩

/-- What holds of the latest values of streams holds when a stream gets another such value. -/
theorem forall_stream_insert {P : Value → Prop} {streams : Table StreamId Value} {id : StreamId}
    {v : Value} (hv : P v) (h : ∀ s w, streams.get? s = some w → P w) (s : StreamId) (w : Value)
    (hw : (streams.insert id v).get? s = some w) : P w := by
  rw [Table.get?_insert] at hw
  split at hw
  · cases hw
    exact hv
  · exact h s w hw

/-- A value of a stream begins a run, or waits until the run that is open is over. -/
theorem streamInput_cases {n : Name} {v : Value} {m' : Machine}
    (h : m.streamInput p n v = .ok m') : ∃ id, p.streamNamed? n = some id ∧
      (m.frames = [] ∧ m' = Machine.beginRun p true { m with streams := m.streams.insert id v } ∨
        m.frames ≠ [] ∧ m' = { m with pending := m.pending ++ [(id, v)] }) := by
  unfold streamInput at h
  cases hid : p.streamNamed? n with
  | none => rw [hid] at h; cases h
  | some id =>
    rw [hid] at h
    dsimp only at h
    refine ⟨id, rfl, ?_⟩
    split at h
    · next hclosed => exact .inl ⟨List.isEmpty_iff.1 hclosed, (Except.ok.inj h).symm⟩
    · next hopen =>
      exact .inr ⟨fun hclosed => hopen (List.isEmpty_iff.2 hclosed), (Except.ok.inj h).symm⟩

end Machine

end Arbor
