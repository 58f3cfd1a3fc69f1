/-
  Remembering rightly.

  A machine remembers rightly (`Sure`) if the value of each remembered node is like the one that
  the node has without streams, in a likeness that stands.  A step that remembers nothing new
  keeps that, and so does the beginning of a run.

  * `Eventually P m`: the machine runs steps, and remembers rightly on the way, until the next step
    does what `P` says;
  * `Onward`: what a step does, it does whatever inputs wait.

  Main statements: `Sure.step`, `sure_beginRun` and `onward_step`.
-/
import Arbor.Proofs.Machine.Shelter
import Arbor.Proofs.Typing.Streams

namespace Arbor.Machine

variable {p : Program} {limits : Limits} {m m' m₁ : Machine} {f g : Frame} {below : List Frame}
  {s : Step} {room : Nat}

/-! ## Steps and the store -/

variable (p limits) in
/-- An action changes nothing of the store, or creates a scope in it. -/
theorem store_act (m : Machine) (f : Frame) (below : List Frame) (s : Step) (action : Action) :
    (m.act p limits f below s action).2.store = m.store ∨
      ∃ scope, (m.act p limits f below s action).2.store = (m.store.addScope scope).2 := by
  have endRun (v : Value) (m : Machine) : (m.endRun p v).store = m.store ∨
      ∃ scope, (m.endRun p v).store = (m.store.addScope scope).2 := by
    rcases endRun_cases p m v with ⟨-, he⟩ | ⟨_, _, _, -, he⟩ <;> rw [he]
    · exact .inl rfl
    · exact .inr ⟨_, rfl⟩
  have settle (f : Frame) : (m.settle p f below s).2.store = m.store ∨
      ∃ scope, (m.settle p f below s).2.store = (m.store.addScope scope).2 := by
    unfold Machine.settle complete
    split
    · split
      · exact .inl rfl
      · exact endRun _ m
      · exact .inl rfl
    · exact .inl rfl
  have enter (c : Call) : (m.enter p limits f below s c).2.store = m.store ∨
      ∃ scope, (m.enter p limits f below s c).2.store = (m.store.addScope scope).2 := by
    unfold Machine.enter
    split
    · exact .inl rfl
    · split
      · exact .inl rfl
      · next scope _ => exact .inr ⟨scope, rfl⟩
  cases action with
  | proceed => exact settle f
  | skip count => exact settle _
  | jump offset =>
    unfold act
    dsimp only
    split
    · exact .inl rfl
    · exact settle _
  | raise e => exact .inl rfl
  | call c => exact enter c

variable (p limits) in
/-- A step leaves the store that executing it leaves, but for a new scope. -/
theorem store_step (m : Machine) :
    ∃ store : Store, ((m.step p limits).2.store = store ∨
        ∃ scope, (m.step p limits).2.store = (store.addScope scope).2) ∧
      (store = m.store ∨ ∃ f below s rest, m.frames = f :: below ∧ f.exception? = none ∧
        f.code = s :: rest ∧ store = (p.execute m f.advance below s).2.1.store) := by
  cases hm : m.frames with
  | nil => rw [step_closed hm]; exact ⟨m.store, .inl rfl, .inl rfl⟩
  | cons f below =>
    cases he : f.exception? with
    | some e =>
      refine ⟨m.store, ?_, .inl rfl⟩
      rw [step_unwinding hm (f.exception?_eq_some_iff.1 he)]
      unfold unwind Machine.endRun
      dsimp only
      split
      · dsimp only
        split
        · exact .inl rfl
        · exact .inr ⟨_, rfl⟩
      · exact .inl rfl
    | none =>
      cases hc : f.code with
      | nil => rw [step_stuck hm he hc]; exact ⟨m.store, .inl rfl, .inl rfl⟩
      | cons s rest =>
        refine ⟨_, ?_, .inr ⟨f, below, s, rest, rfl, he, hc, rfl⟩⟩
        rcases hr : p.execute m f.advance below s with ⟨g, m₁, action⟩
        rw [step_running hm he hc hr]
        exact store_act p limits _ g below s action

variable (p limits) in
/-- Nothing is remembered while the program waits for a call. -/
theorem remembered_step (hm : m.frames = f :: below) (hb : below ≠ []) :
    (m.step p limits).2.store.remembered = m.store.remembered := by
  obtain ⟨store, hstep, hstore⟩ := store_step p limits m
  have hremembered : store.remembered = m.store.remembered := by
    rcases hstore with rfl | ⟨f', below', s, rest, hm', -, -, rfl⟩
    · rfl
    · rw [hm] at hm'
      cases hm'
      obtain ⟨store, hstore, hkept⟩ := Program.execute_machine (p := p) m f.advance below s
      rw [hstore]
      exact hkept hb
  rcases hstep with hstep | ⟨scope, hstep⟩ <;> rw [hstep]
  · exact hremembered
  · exact hremembered

/-- Only steady nodes are remembered anew. -/
theorem remembered_of_remember {store : Store} (h : store.memo.Honest p) {id x : NodeId}
    {v w : Value} (hw : (store.remember p id v).remembered.get? x = some w) :
    store.remembered.get? x = some w ∨ x = id ∧ w = v ∧ p.Steady id := by
  obtain ⟨scopes, remembered, memo⟩ := store
  have hsteady := (Program.honest_dependsOnStream h id).1
  change (if (p.dependsOnStream id memo).1 then remembered else remembered.insert id v).get? x =
    some w at hw
  split at hw
  · exact .inl hw
  · next hdepends =>
    rw [NodeMap.get?_insert] at hw
    split at hw
    · next hx => exact .inr ⟨hx.symm, (Option.some.inj hw).symm, hsteady (by simpa using hdepends)⟩
    · exact .inl hw

/-- What is remembered was remembered before, or it is the value of the node that finishes, which
    is steady. -/
theorem remembered_of_kept {store : Store} (h : store.memo.Honest p) {r : Program.Finished}
    {x : NodeId} {v : Value} (hv : (p.kept store below s r).remembered.get? x = some v) :
    store.remembered.get? x = some v ∨
      s.kind = .finish ∧ x = s.node ∧ v = r.value ∧ p.Steady s.node := by
  have defined {y : NodeId} {w : Value} (hw : (if r.binds then
      store.define r.frame.scope s.node r.value else store).remembered.get? y = some w) :
      store.remembered.get? y = some w := by
    split at hw <;> exact hw
  have hdefined : (if r.binds then store.define r.frame.scope s.node r.value
      else store).memo.Honest p := by
    split <;> exact h
  unfold Program.kept at hv
  dsimp only at hv
  split at hv
  · next hk =>
    simp only [Bool.and_eq_true, beq_iff_eq] at hk
    rcases remembered_of_remember hdefined hv with hv | hv
    · exact .inl (defined hv)
    · exact .inr ⟨hk.2, hv⟩
  · exact .inl (defined hv)

/-- What is known about streams stays honest. -/
theorem honest_step (h : m.store.memo.Honest p) : (m.step p limits).2.store.memo.Honest p := by
  obtain ⟨store, hstep, hstore⟩ := store_step p limits m
  have hhonest : store.memo.Honest p := by
    rcases hstore with rfl | ⟨f, below, s, rest, -, -, -, rfl⟩
    · exact h
    · have kept (r : Program.Finished) : (p.kept m.store below s r).memo.Honest p := by
        have defined : (if r.binds then m.store.define r.frame.scope s.node r.value
            else m.store).memo.Honest p := by
          split <;> exact h
        unfold Program.kept
        dsimp only
        split
        · exact (Program.honest_dependsOnStream defined s.node).2
        · exact defined
      have leave (r : Program.Finished) : (p.leave m below s r).2.1.store.memo.Honest p := by
        cases hv : r.value.exception? with
        | some e => rw [Program.leave_of_exception (Value.eq_exception hv)]; exact h
        | none => rw [Program.leave_of_value hv]; exact kept r
      unfold Program.execute
      split
      · exact h
      · exact leave _
      · exact leave _
      · dsimp only
        split <;> exact h
      · exact h
      · exact h
  rcases hstep with hstep | ⟨scope, hstep⟩ <;> rw [hstep] <;> exact hhonest

/-! ## Remembering rightly -/

/-- The value is like the one that the node has without streams, in a likeness that stands. -/
structure Recalls (p : Program) (room : Nat) (m : Machine) (x : NodeId) (v : Value) : Prop where
  outer : p.Outer x
  steady : p.Steady x
  value : ∃ L w τ, p.groundValue room x = (.ok w, τ) ∧ m.Shelters p L τ ∧ v.Alike p L w

/-- The machine is in order, and it remembers nodes by values that they have without streams. -/
structure Sure (p : Program) (room : Nat) (m : Machine) : Prop where
  orderly : Orderly p m
  honest : m.store.memo.Honest p
  recalls : ∀ x v, m.store.remembered.get? x = some v → Recalls p room m x v

theorem Recalls.congr {x : NodeId} {v : Value} (h : Recalls p room m x v)
    (hs : ∀ L τ, m.Shelters p L τ → m'.Shelters p L τ) : Recalls p room m' x v :=
  let ⟨L, w, τ, hw, hm, hv⟩ := h.value
  ⟨h.outer, h.steady, L, w, τ, hw, hs L τ hm, hv⟩

/-- A step keeps what is remembered right if what it remembers anew is right. -/
theorem Sure.step (hp : p.Separate) (limits : Limits) (h : Sure p room m)
    (hnew : ∀ x v, (m.step p limits).2.store.remembered.get? x = some v →
      m.store.remembered.get? x = some v ∨ Recalls p room (m.step p limits).2 x v) :
    Sure p room (m.step p limits).2 where
  orderly := (h.orderly.step hp.grounded limits).1
  honest := honest_step h.honest
  recalls x v hv := by
    rcases hnew x v hv with hv | hv
    · exact (h.recalls x v hv).congr fun _ _ hm => hm.step hp.acyclic limits
    · exact hv

/-- The beginning of a run keeps what is remembered right. -/
theorem sure_beginRun (hp : p.Separate) (hs : m.store.Sound p)
    (hstreams : ∀ s v, m.streams.get? s = some v → v.Sound p)
    (hpending : ∀ x ∈ m.pending, x.2.Sound p) (hhonest : m.store.memo.Honest p)
    (hrecalls : ∀ x v, m.store.remembered.get? x = some v → Recalls p room m x v)
    (reevaluating : Bool) : Sure p room (m.beginRun p reevaluating) where
  orderly := orderly_beginRun hp.grounded hs hstreams hpending reevaluating
  honest := hhonest
  recalls x v hv := (hrecalls x v hv).congr fun _ _ hm => hm.beginRun reevaluating

/-! ## Steps, whatever waits -/

/-- The machine after something was done: the run is ended with its result, if there is one. -/
def closed (p : Program) (m : Machine) : Outcome → Machine
  | .completed v => m.endRun p v
  | _ => m

/-- What is done changes the frames, the store and the number of steps before the run may end,
    whatever waits. -/
def Onward (p : Program) (m : Machine) (o : Outcome) (act : Machine → Result) : Prop :=
  ∃ frames store n, ∀ q, act { m with pending := q } = (.ok o,
    closed p { m with pending := q, frames := frames, store := store, stepsTaken := n } o)

variable {o : Outcome}

theorem onward_settle (h : m.settle p f below s = (.ok o, m')) :
    Onward p m o fun m => m.settle p f below s := by
  unfold settle complete at h ⊢
  split at h
  · next hdone =>
    split at h <;> cases h
    · exact ⟨m.frames, m.store, m.stepsTaken, fun q => if_pos hdone⟩
    · next v vs caller rest hops =>
      exact ⟨caller.push v :: rest, m.store, m.stepsTaken, fun q => if_pos hdone⟩
  · next hdone =>
    cases h
    exact ⟨f :: below, m.store, m.stepsTaken, fun q => if_neg hdone⟩

theorem onward_enter {c : Call} (h : m.enter p limits f below s c = (.ok o, m')) :
    Onward p m o fun m => m.enter p limits f below s c := by
  unfold enter raise at h ⊢
  split at h
  · next hfull =>
    cases h
    exact ⟨{ f with phase := .unwinding ⟨.full, c.creator⟩ } :: below, m.store, m.stepsTaken,
      fun q => if_pos hfull⟩
  · next hfree =>
    simp only [if_neg hfree]
    split at h <;> cases h
    · next e _ =>
      exact ⟨{ f with phase := .unwinding e } :: below, m.store, m.stepsTaken, fun _ => rfl⟩
    · next scope _ =>
      exact ⟨p.openFrame c (m.addScope scope).1 :: f :: below, (m.store.addScope scope).2,
        m.stepsTaken, fun _ => rfl⟩

theorem onward_act {action : Action} (h : m.act p limits f below s action = (.ok o, m')) :
    Onward p m o fun m => m.act p limits f below s action := by
  cases action with
  | proceed => exact onward_settle h
  | skip count => exact onward_settle h
  | jump offset =>
    unfold act at h ⊢
    dsimp only at h ⊢
    split at h
    · cases h
    · next hin =>
      simp only [if_neg hin]
      exact onward_settle h
  | raise e =>
    cases h
    exact ⟨{ f with phase := .unwinding e } :: below, m.store, m.stepsTaken, fun _ => rfl⟩
  | call c => exact onward_enter h

theorem execute_pending (m : Machine) (f : Frame) (below : List Frame) (s : Step)
    (q : List (StreamId × Value)) :
    p.execute { m with pending := q } f below s = ((p.execute m f below s).1,
      { (p.execute m f below s).2.1 with pending := q }, (p.execute m f below s).2.2) := by
  have leave (r : Program.Finished) : p.leave { m with pending := q } below s r =
      ((p.leave m below s r).1, { (p.leave m below s r).2.1 with pending := q },
        (p.leave m below s r).2.2) := by
    cases hv : r.value.exception? with
    | some e => simp only [Program.leave_of_exception (Value.eq_exception hv)]
    | none => simp only [Program.leave_of_value hv]
  cases hk : s.kind with
  | finish | startFinish => simp only [Program.execute, hk]; exact leave _
  | jumpIf offset consume jumpWhen =>
    simp only [Program.execute, hk]
    split <;> rfl
  | start => simp only [Program.execute, hk]; rfl
  | jump | startEvaluation => simp only [Program.execute, hk]

/-- **A step does the same whatever waits.** -/
theorem onward_step (h : m.step p limits = (.ok o, m')) :
    Onward p m o fun m => m.step p limits := by
  cases hm : m.frames with
  | nil => rw [step_closed hm] at h; cases h
  | cons f below =>
    cases he : f.exception? with
    | some e =>
      have hphase := f.exception?_eq_some_iff.1 he
      have hstep (q : List (StreamId × Value)) :
          { m with pending := q }.step p limits = { m with pending := q }.unwind p f below e := by
        have hopen : { m with pending := q }.frames = f :: below := hm
        exact step_unwinding hopen hphase
      rw [step_unwinding hm hphase] at h
      cases below with
      | nil => cases h; exact ⟨m.frames, m.store, m.stepsTaken, hstep⟩
      | cons caller rest =>
        cases h
        exact ⟨{ caller with phase := .unwinding e } :: rest, m.store, m.stepsTaken, hstep⟩
    | none =>
      cases hc : f.code with
      | nil => rw [step_stuck hm he hc] at h; cases h
      | cons s rest =>
        obtain ⟨store, hstore, -⟩ := Program.execute_machine (p := p) m f.advance below s
        rcases hr : p.execute m f.advance below s with ⟨g, m₁, action⟩
        rw [hr] at hstore
        cases hstore
        rw [step_running hm he hc hr] at h
        obtain ⟨frames, store', n, hq⟩ := onward_act h
        refine ⟨frames, store', n, fun q => ?_⟩
        have hexecute := execute_pending (p := p) m f.advance below s q
        rw [hr] at hexecute
        exact (step_running (m := { m with pending := q }) hm he hc hexecute).trans (hq q)

/-- A step that completes nothing leaves the streams as they are, and less work. -/
theorem step_onward (h : m.step p limits = (.ok o, m')) (ho : o.isCompleted = false) :
    m'.streams = m.streams ∧ work p limits m'.frames < work p limits m.frames := by
  obtain ⟨frames, store, k, hq⟩ := onward_step h
  have hm : m' = { m with frames := frames, store := store, stepsTaken := k } := by
    have := (Prod.ext_iff.1 (h.symm.trans (hq m.pending))).2
    cases o with
    | completed v => cases ho
    | _ => exact this
  rcases step_decreases p limits h with hlt | hlt
  · rw [hm] at hlt
    exact absurd hlt (Nat.lt_irrefl _)
  · exact ⟨by rw [hm], hlt.2⟩

/-! ## On the way -/

variable (p limits room) in
/-- The machine runs steps and remembers rightly on the way, until the next step does what is
    said. -/
inductive Eventually (P : Result → Prop) : Machine → Prop
  | now {m : Machine} : Sure p room m → P (m.step p limits) → Eventually P m
  | after {m m' : Machine} {o : Outcome} : Sure p room m → m.step p limits = (.ok o, m') →
      o.isCompleted = false → Eventually P m' → Eventually P m

variable {P Q : Result → Prop}

theorem Eventually.mono (h : Eventually p limits room P m) (hPQ : ∀ r, P r → Q r) :
    Eventually p limits room Q m := by
  induction h with
  | now hs hr => exact .now hs (hPQ _ hr)
  | after hs hstep ho _ ih => exact .after hs hstep ho ih

theorem Eventually.exists (h : Eventually p limits room P m) : ∃ m' : Machine, P (m'.step p limits) := by
  induction h with
  | now _ hr => exact ⟨_, hr⟩
  | after _ _ _ _ ih => exact ih

/-- When the next step is no completion, more steps may follow it. -/
theorem Eventually.trans (h : Eventually p limits room P m)
    (hP : ∀ r, P r → ∃ o, r.1 = .ok o ∧ o.isCompleted = false ∧ Eventually p limits room Q r.2) :
    Eventually p limits room Q m := by
  induction h with
  | now hs hr =>
    obtain ⟨o, hok, ho, hQ⟩ := hP _ hr
    exact .after hs (Prod.ext hok rfl) ho hQ
  | after hs hstep ho _ ih => exact .after hs hstep ho ih

end Arbor.Machine
