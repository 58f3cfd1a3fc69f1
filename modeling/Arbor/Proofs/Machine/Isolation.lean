/-
  Calls are isolated.

  The frame of a call gets a scope of its own, which is created with it, and so does every
  frame above it; a frame binds only in its scope, and takes only its own values.  So until
  the frame of a call is taken away, the frames below it, their values and all scopes that
  were there before the call stand as they did.  When it is taken away, the caller has one
  more value, or unwinds for the exception of the call.

  * `Shifts` is all that one step can do to frames and scopes;
  * `Within` says that the frame of a call is open above the same frames, with the frames
    above it in newer scopes.

  Main statements: `step_shifts`, one step; `Within.step`, one step inside a call;
  `Reachable.isolates`, any number of steps inside a call, and the one that ends it.
-/
import Arbor.Proofs.Machine.Depth
import Arbor.Proofs.Machine.Inputs
import Arbor.Proofs.Machine.Resolution
import Arbor.Proofs.Machine.Shelter

namespace Arbor.Machine

/-! ## What a step does -/

/-- Only the scope of a frame was changed, and scopes were added. -/
def Own (f : Frame) (m m' : Machine) : Prop :=
  m.store.scopes.Spares (fun t _ => t = f.scope) m'.store.scopes

/-- The latest value of the frame `f` above `below` is `v` once it has run its next step,
    which is `s`. -/
def Leaves (p : Program) (m : Machine) (f : Frame) (below : List Frame) (s : Step) (v : Value) :
    Prop :=
  f.next? = some s ∧ (p.execute m f.advance below s).1.operands.head? = some v

/-- What a step does to the top frame `f`, to the frames `below` and to the scopes. -/
inductive Shifts (p : Program) (m : Machine) (f : Frame) (below : List Frame) : Result → Prop
  /-- The frame goes on, or is marked for an exception. -/
  | stays {g : Frame} {r : Result} : f.Same g → Own f m r.2 → r.2.frames = g :: below →
      Shifts p m f below r
  /-- The start of an evaluation opens a frame above it, without values and in a new scope. -/
  | opens {g h : Frame} {s : Step} {m' : Machine} : f.Same g → s.kind = .startEvaluation →
      m.store.scopes.Spares (fun _ _ => False) m'.store.scopes → m'.frames = h :: g :: below →
      h.operands = [] → m.store.scopes.size ≤ h.scope.index →
      Shifts p m f below (.ok (.executed s), m')
  /-- The frame is done, and leaves its latest value to the caller. -/
  | returns {caller : Frame} {rest : List Frame} {s : Step} {v : Value} {m' : Machine} :
      below = caller :: rest → Own f m m' → Leaves p m f below s v →
      m'.frames = caller.push v :: rest → Shifts p m f below (.ok (.executed s), m')
  /-- The frame is taken away for an exception, which marks the caller. -/
  | unwinds {caller : Frame} {rest : List Frame} {e : Exception} : below = caller :: rest →
      f.phase = .unwinding e →
      Shifts p m f below (.ok (.unwound f.creator),
        { m with frames := { caller with phase := .unwinding e } :: rest })
  /-- It is the frame of the program, and the run is over. -/
  | ends {r : Result} : below = [] → r.2.depth ≤ 1 → Shifts p m f below r

/-! ## Calls -/

/-- The frames are those `below` with the frame of a call on them, and above that only frames
    in scopes from the `n`-th on. -/
inductive Above (callee : Frame) (below : List Frame) (n : Nat) : List Frame → Prop
  | callee {f : Frame} : callee.Same f → Above callee below n (f :: below)
  | cons {g : Frame} {frames : List Frame} : n ≤ g.scope.index → Above callee below n frames →
      Above callee below n (g :: frames)

/-- The frame of a call is open above the frames `below`, and the scopes that were there
    before the call stand. -/
structure Within (old : Scopes) (callee : Frame) (below : List Frame) (m : Machine) : Prop where
  above : Above callee below old.size m.frames
  spares : old.Spares (fun _ _ => False) m.store.scopes
  landing : AllLanding m.frames

/-- The frame of a call was just opened above the frames `below`, without values, and in a
    scope that is newer than the scopes `old`, which stand. -/
structure Opens (old : Scopes) (callee : Frame) (below : List Frame) (opened : Machine) :
    Prop where
  frames : opened.frames = callee :: below
  called : below ≠ []
  operands : callee.operands = []
  new : old.size ≤ callee.scope.index
  spares : old.Spares (fun _ _ => False) opened.store.scopes

/-- The step of `m` takes the frame of the call away that was on top in `opened`: the value of
    the call comes on top of the values that the call found, or its exception marks the caller. -/
inductive Hands (p : Program) (opened m : Machine) : Result → Prop
  | value {f caller : Frame} {rest : List Frame} {s : Step} {v : Value} {m' : Machine} :
      m.frames = f :: opened.frames.tail → opened.frames.tail = caller :: rest →
      Leaves p m f opened.frames.tail s v → m'.frames = caller.push v :: rest →
      m'.values = opened.values ++ [v] → Hands p opened m (.ok (.executed s), m')
  | exception {f caller : Frame} {rest : List Frame} {e : Exception} {m' : Machine} :
      m.frames = f :: opened.frames.tail → opened.frames.tail = caller :: rest →
      f.phase = .unwinding e → m'.frames = { caller with phase := .unwinding e } :: rest →
      m'.values = opened.values → Hands p opened m (.ok (.unwound f.creator), m')

variable {p : Program} {limits : Limits} {m m₁ opened : Machine} {f g h : Frame}
variable {below : List Frame} {s : Step}

/-! ## One step -/

theorem own_of_execute (m : Machine) (f : Frame) (below : List Frame) (s : Step) :
    Own f m (p.execute m f.advance below s).2.1 := by
  unfold Own
  rcases (Program.execute_scopes (p := p) m f.advance below s).2 with hs | ⟨-, v, hs⟩
  · rw [hs]
    exact .refl _ _
  · rw [hs]
    by_cases hlt : f.scope.index < m.store.scopes.size
    · exact (Scopes.Spares.define hlt s.node v).mono fun _ _ _ ht => ht.1
    · rw [show f.advance.scope = f.scope from rfl, Scopes.define_of_le (Nat.le_of_not_lt hlt)]
      exact .refl _ _

section
variable (hsame : f.Same g) (hown : Own f m m₁)
include hsame hown

theorem shifts_raise (e : Exception) : Shifts p m f below (m₁.raise g below s e) :=
  .stays (g := { g with phase := .unwinding e })
    ⟨hsame.definition, hsame.creator, hsame.steps, hsame.scope, hsame.this⟩ hown rfl

/-- A frame that is done has a value for its caller. -/
theorem shifts_settle
    (hdone : g.code = [] → ∃ v vs, g.operands = v :: vs ∧ Leaves p m f below s v) :
    Shifts p m f below (m₁.settle p g below s) := by
  unfold settle
  split
  · next hisDone =>
    obtain ⟨v, vs, hv, hleaves⟩ := hdone (g.isDone_iff.1 hisDone)
    unfold complete
    rw [hv]
    cases below with
    | nil => exact .ends rfl (depth_endRun_le _ _)
    | cons caller rest => exact .returns rfl hown hleaves rfl
  · exact .stays hsame hown rfl

theorem shifts_enter (hs : s.kind = .startEvaluation) (hstore : m₁.store = m.store) (c : Call) :
    Shifts p m f below (m₁.enter p limits g below s c) := by
  unfold enter
  split
  · exact shifts_raise hsame hown _
  · split
    · exact shifts_raise hsame hown _
    · next scope _ =>
      refine .opens hsame hs ?_ rfl rfl hown.size
      show m.store.scopes.Spares _ (m₁.store.scopes.add scope).2
      rw [hstore]
      exact .add _ scope

end

/-- Only the start of an evaluation asks for a frame, and it changes nothing of the machine. -/
theorem execute_call {c : Call} (h : p.execute m f below s = (g, m₁, .call c)) :
    s.kind = .startEvaluation ∧ m₁ = m := by
  have leave (r : Program.Finished) (hr : p.leave m below s r = (g, m₁, .call c)) : False := by
    cases hv : r.value.exception? with
    | some e => rw [Program.leave_of_exception (Value.eq_exception hv)] at hr; cases hr
    | none => rw [Program.leave_of_value hv] at hr; cases hr
  unfold Program.execute at h
  split at h
  · have haction := congrArg (·.2.2) h
    unfold Program.skipAction at haction
    dsimp only at haction
    split at haction
    · split at haction <;> cases haction
    · cases haction
  · exact (leave _ h).elim
  · exact (leave _ h).elim
  · dsimp only at h
    split at h
    · have haction := congrArg (·.2.2) h
      dsimp only at haction
      split at haction <;> cases haction
    · cases h
    · cases h
  · cases h
  · next hk => exact ⟨hk, (congrArg (·.2.1) h).symm⟩

/-- The frame that goes on after an action differs only in its place. -/
theorem same_after? {action : Action} (ha : g.after? action = some h) :
    g.Same h ∧ h.operands = g.operands := by
  cases action <;> cases ha
  · exact ⟨.refl g, rfl⟩
  · exact ⟨.skip g _, rfl⟩
  · exact ⟨.skip g _, rfl⟩

/-- **One step** changes the top frame, opens one above it or takes it away, and binds only in
    its scope. -/
theorem step_shifts (hm : m.frames = f :: below) (hl : Landing f.steps.toList) :
    Shifts p m f below (m.step p limits) := by
  cases he : f.exception? with
  | some e =>
    have hphase := f.exception?_eq_some_iff.1 he
    rw [step_unwinding hm hphase]
    cases below with
    | nil => exact .ends rfl (depth_endRun_le _ _)
    | cons caller rest => exact .unwinds rfl hphase
  | none =>
    cases hc : f.code with
    | nil =>
      rw [step_stuck hm he hc]
      exact .stays (g := { f with phase := .running }) ⟨rfl, rfl, rfl, rfl, rfl⟩ (.refl _ _) rfl
    | cons s rest =>
      have hsame := (Frame.Same.advance f).trans
        (Program.execute_scopes (p := p) m f.advance below s).1
      have hown := own_of_execute (p := p) m f below s
      rcases hr : p.execute m f.advance below s with ⟨g, m₁, action⟩
      rw [hr] at hsame hown
      rw [step_running hm he hc hr]
      have hstart : Own f m { m₁ with stepsTaken := m₁.stepsTaken + 1 } := hown
      have hcode : Landing (s :: rest) := hc ▸ Landing.drop hl _
      cases ha : g.after? action with
      | some h =>
        obtain ⟨hpc, hlands⟩ := lands hc hcode hr ha
        obtain ⟨hgh, hoperands⟩ := same_after? ha
        rw [act_eq_settle ha hpc]
        refine shifts_settle (hsame.trans hgh) hstart fun hdone => ?_
        obtain ⟨v, vs, hv⟩ := List.exists_cons_of_ne_nil (hlands hdone)
        refine ⟨v, vs, hv, by rw [f.next?_eq, hc]; rfl, ?_⟩
        rw [hr, ← hoperands, hv]
        rfl
      | none =>
        cases action with
        | raise e => exact shifts_raise hsame hstart e
        | call c =>
          obtain ⟨hs, rfl⟩ := execute_call hr
          exact shifts_enter hsame hstart hs rfl c
        | _ => cases ha

/-! ## Frames above a call -/

section
variable {callee caller : Frame} {rest frames : List Frame} {n : Nat}

/-- The top frame may go on. -/
theorem Above.top (h : Above callee below n (f :: frames)) (hfg : f.Same g) :
    Above callee below n (g :: frames) := by
  cases h with
  | callee hf => exact .callee (hf.trans hfg)
  | cons hn h => exact .cons (hfg.scope ▸ hn) h

theorem Above.scope (h : Above callee below n (f :: frames)) (hn : n ≤ callee.scope.index) :
    n ≤ f.scope.index := by
  cases h with
  | callee hf => rwa [hf.scope]
  | cons hn _ => exact hn

/-- The top frame is the one of the call, or the call goes on without it. -/
theorem Above.cases (h : Above callee below n (f :: frames)) :
    callee.Same f ∧ frames = below ∨ Above callee below n frames := by
  cases h with
  | callee hf => exact .inl ⟨hf, rfl⟩
  | cons _ h => exact .inr h

theorem Above.exists (h : Above callee below n frames) :
    ∃ above f, callee.Same f ∧ frames = above ++ f :: below := by
  induction h with
  | callee hf => exact ⟨[], _, hf, rfl⟩
  | @cons g frames _ _ ih =>
    obtain ⟨above, f, hf, rfl⟩ := ih
    exact ⟨g :: above, f, hf, rfl⟩

end

/-! ## Inside a call -/

/-- No code of the machine runs past its last value. -/
theorem AllLanding.step (h : AllLanding m.frames) : AllLanding (m.step p limits).2.frames := by
  by_cases hopen : m.frames = []
  · rw [step_closed hopen]
    exact h
  · cases step_effect limits hopen h with
    | goes _ _ hl => exact hl
    | ends _ hend =>
      rw [hend]
      rcases endRun_cases p _ _ with ⟨-, he⟩ | ⟨_, _, _, -, he⟩ <;> rw [he]
      · exact fun f hf => absurd hf List.not_mem_nil
      · exact allLanding_beginRun _ _

theorem Reachable.allLanding {allowed : Value → Prop} (h : Reachable p limits allowed m) :
    AllLanding m.frames := by
  refine h.induct (P := fun m => AllLanding m.frames) ?_ ?_ ?_ ?_ ?_
  · exact fun memo f hf => absurd hf List.not_mem_nil
  · exact fun m _ => allLanding_beginRun _ _
  · exact fun m _ => allLanding_beginRun _ _
  · exact fun m hm => hm.step
  · intro m m' n v hm _ hinput
    obtain ⟨id, -, ⟨-, rfl⟩ | ⟨-, rfl⟩⟩ := streamInput_cases hinput
    · exact allLanding_beginRun _ _
    · exact hm

section
variable {old : Scopes} {callee : Frame}

/-- A frame that was opened after the scopes `old` changes none of them. -/
theorem Own.spares {m' : Machine} (h : Own f m m')
    (hold : old.Spares (fun _ _ => False) m.store.scopes) (hf : old.size ≤ f.scope.index) :
    old.Spares (fun _ _ => False) m'.store.scopes where
  size := Nat.le_trans hold.size h.size
  own id d hid _ := by
    rw [h.own id d (Nat.lt_of_lt_of_le hid hold.size)]
    · exact hold.own id d hid not_false
    · rintro rfl
      exact absurd hid (Nat.not_lt.2 hf)
  parent id hid := (h.parent id (Nat.lt_of_lt_of_le hid hold.size)).trans (hold.parent id hid)

/-- The caller has one more value. -/
theorem Opens.values_push (ho : Opens old callee below opened) {caller : Frame}
    {rest : List Frame} {v : Value} {m' : Machine} (hbelow : below = caller :: rest)
    (hm' : m'.frames = caller.push v :: rest) : m'.values = opened.values ++ [v] := by
  rw [values, values, ho.frames, hm', hbelow]
  simp [ho.operands]

/-- A mark changes no values. -/
theorem Opens.values_mark (ho : Opens old callee below opened) {caller : Frame}
    {rest : List Frame} {e : Exception} {m' : Machine} (hbelow : below = caller :: rest)
    (hm' : m'.frames = { caller with phase := .unwinding e } :: rest) :
    m'.values = opened.values := by
  rw [values, values, ho.frames, hm', hbelow]
  simp [ho.operands]

/-- **One step inside a call** goes on inside it, or takes its frame away; either way the older
    scopes stand. -/
theorem Within.step (hw : Within old callee below m) (ho : Opens old callee below opened) :
    old.Spares (fun _ _ => False) (m.step p limits).2.store.scopes ∧
      (Within old callee below (m.step p limits).2 ∨ Hands p opened m (m.step p limits)) := by
  have htail : opened.frames.tail = below := by rw [ho.frames]; rfl
  have habove := hw.above
  cases hm : m.frames with
  | nil => rw [hm] at habove; cases habove
  | cons f under =>
    rw [hm] at habove
    have hf := habove.scope ho.new
    have hl := hw.landing f (by simp [hm])
    have hlanding : AllLanding (m.step p limits).2.frames := hw.landing.step
    have hshifts : Shifts p m f under (m.step p limits) := step_shifts hm hl
    generalize m.step p limits = r at hlanding hshifts ⊢
    cases hshifts with
    | stays hsame hown hr =>
      have hspares := hown.spares hw.spares hf
      exact ⟨hspares, .inl ⟨hr ▸ habove.top hsame, hspares, hlanding⟩⟩
    | opens hsame _ hold hr _ hnew =>
      have hspares := hw.spares.trans hold
      refine ⟨hspares, .inl ⟨?_, hspares, hlanding⟩⟩
      rw [hr]
      exact .cons (Nat.le_trans hw.spares.size hnew) (habove.top hsame)
    | @returns caller rest s v m' hunder hown hleaves hr =>
      have hspares := hown.spares hw.spares hf
      refine ⟨hspares, ?_⟩
      rcases habove.cases with ⟨-, rfl⟩ | habove
      · exact .inr (.value (htail ▸ hm) (htail ▸ hunder) (htail ▸ hleaves) hr
          (ho.values_push hunder hr))
      · rw [hunder] at habove
        exact .inl ⟨hr ▸ habove.top (.push caller v), hspares, hlanding⟩
    | @unwinds caller rest e hunder hphase =>
      refine ⟨hw.spares, ?_⟩
      rcases habove.cases with ⟨-, rfl⟩ | habove
      · exact .inr (.exception (htail ▸ hm) (htail ▸ hunder) hphase rfl
          (ho.values_mark hunder rfl))
      · rw [hunder] at habove
        exact .inl ⟨habove.top ⟨rfl, rfl, rfl, rfl, rfl⟩, hw.spares, hlanding⟩
    | ends hunder _ =>
      rcases habove.cases with ⟨-, rfl⟩ | habove
      · exact absurd hunder ho.called
      · rw [hunder] at habove
        cases habove

end

/-! ## Steps inside a call -/

/-- Only a call makes a machine deeper. -/
theorem opens_of_depth (hl : AllLanding m.frames)
    (hcall : (m.step p limits).2.depth = m.depth + 1) :
    ∃ callee below s, Opens m.store.scopes callee below (m.step p limits).2 ∧
      below.length = m.depth ∧ (m.step p limits).1 = .ok (.executed s) ∧
      s.kind = .startEvaluation := by
  cases hm : m.frames with
  | nil =>
    rw [step_closed hm] at hcall
    exact absurd hcall (Nat.ne_of_lt (Nat.lt_succ_self _))
  | cons f below =>
    have hshifts : Shifts p m f below (m.step p limits) := step_shifts hm (hl f (by simp [hm]))
    have hlanding : m.depth = below.length + 1 := congrArg List.length hm
    generalize m.step p limits = r at hshifts hcall ⊢
    cases hshifts with
    | stays _ _ hr =>
      rw [depth, hr, hlanding, List.length_cons] at hcall
      omega
    | opens _ hs hold hr hoperands hnew =>
      exact ⟨_, _, _, ⟨hr, List.cons_ne_nil _ _, hoperands, hnew, hold⟩, hlanding.symm, rfl, hs⟩
    | returns hbelow _ _ hr =>
      rw [depth, hr, hlanding, hbelow, List.length_cons, List.length_cons] at hcall
      omega
    | unwinds hbelow _ =>
      rw [depth, hlanding, hbelow, List.length_cons, List.length_cons] at hcall
      omega
    | ends hbelow hdepth =>
      rw [hlanding, hbelow, List.length_nil] at hcall
      omega

/-- The bases of the frames of a call and below it stay below. -/
theorem bases_suffix {callee : Frame} (above : List Frame) (f : Frame) :
    bases (callee :: below) <:+ bases (above ++ f :: below) := by
  induction above with
  | nil => exact List.suffix_refl _
  | cons g above ih => exact ih.trans (List.suffix_cons _ _)

/-- The call whose frame is on top in `opened`, and which found the scopes `old`, is still
    open in `m`. -/
structure Isolated (old : Scopes) (opened m : Machine) : Prop where
  /-- The frame of the call is above the same frames as when it was opened. -/
  frames : ∃ callee above f, opened.frames = callee :: opened.frames.tail ∧ callee.Same f ∧
    m.frames = above ++ f :: opened.frames.tail
  /-- It begins where it began, and so do the frames below. -/
  bases : bases opened.frames <:+ bases m.frames
  /-- The values that the call found are the first ones. -/
  values : opened.values <+: m.values
  /-- The scopes that were there before the call bind what they bound. -/
  scopes : old.Spares (fun _ _ => False) m.store.scopes

theorem Within.isolated {old : Scopes} {callee : Frame} (hw : Within old callee below m)
    (ho : Opens old callee below opened) : Isolated old opened m := by
  obtain ⟨above, f, hsame, hm⟩ := hw.above.exists
  have htail : opened.frames.tail = below := by rw [ho.frames]; rfl
  refine ⟨⟨callee, above, f, ?_, hsame, ?_⟩, ?_, ?_, hw.spares⟩
  · rw [htail, ho.frames]
  · rw [htail, hm]
  · rw [ho.frames, hm]
    exact bases_suffix above f
  · rw [values, values, ho.frames, hm]
    refine ⟨((above ++ [f]).flatMap Frame.operands).reverse, ?_⟩
    simp [ho.operands]

/-- **Calls are isolated.**  After a step that opens the frame of a call, for as many steps as
    no fewer frames are open: the frames below stand, with their values, and so do the scopes
    that were there before.  They stand too when a step takes the frame of the call away, but
    that the caller has the value of the call, or unwinds for its exception. -/
theorem Reachable.isolates {allowed : Value → Prop} (h : Reachable p limits allowed m)
    (hcall : (m.step p limits).2.depth = m.depth + 1) {n : Nat}
    (hopen : ∀ k ≤ n, m.depth < ((m.step p limits).2.after p limits k).depth) :
    let opened := (m.step p limits).2
    let later := opened.after p limits n
    (∃ s, (m.step p limits).1 = .ok (.executed s) ∧ s.kind = .startEvaluation) ∧
      Isolated m.store.scopes opened later ∧
      m.store.scopes.Spares (fun _ _ => False) (later.step p limits).2.store.scopes ∧
      ((later.step p limits).2.depth ≤ m.depth → Hands p opened later (later.step p limits)) := by
  intro opened later
  obtain ⟨callee, below, s, ho, hdepth, hs⟩ := opens_of_depth h.allLanding hcall
  have hfirst : Within m.store.scopes callee below opened :=
    ⟨by rw [ho.frames]; exact .callee (.refl _), ho.spares, h.allLanding.step⟩
  -- The frame of the call is taken away only by a step to fewer frames.
  have hands {m' : Machine} (hh : Hands p opened m' (m'.step p limits)) :
      (m'.step p limits).2.depth ≤ m.depth := by
    have htail : opened.frames.tail = below := by rw [ho.frames]; rfl
    generalize m'.step p limits = r at hh ⊢
    cases hh with
    | value _ hbelow _ hr _ =>
      rw [depth, hr, ← hdepth, ← htail, hbelow]
      exact Nat.le_refl _
    | exception _ hbelow _ hr _ =>
      rw [depth, hr, ← hdepth, ← htail, hbelow]
      exact Nat.le_refl _
  have onward {m' : Machine} (hw : Within m.store.scopes callee below m') :
      m.store.scopes.Spares (fun _ _ => False) (m'.step p limits).2.store.scopes ∧
        (Within m.store.scopes callee below (m'.step p limits).2 ∨
          Hands p opened m' (m'.step p limits)) := hw.step ho
  have hwithin (k : Nat) (hk : k ≤ n) :
      Within m.store.scopes callee below (opened.after p limits k) := by
    induction k with
    | zero => exact hfirst
    | succ k ih =>
      have hafter : opened.after p limits (k + 1) = ((opened.after p limits k).step p limits).2 :=
        after_add k 1 opened
      rw [hafter]
      rcases (onward (ih (Nat.le_of_succ_le hk))).2 with hw | hh
      · exact hw
      · have := hopen (k + 1) hk
        rw [show (m.step p limits).2.after p limits (k + 1) = _ from hafter] at this
        exact absurd (hands hh) (Nat.not_le.2 this)
  have hlater := hwithin n (Nat.le_refl n)
  obtain ⟨hspares, hstep⟩ := onward hlater
  refine ⟨⟨s, hs⟩, hlater.isolated ho, hspares, fun hless => ?_⟩
  rcases hstep with hw | hh
  · obtain ⟨above, f, -, hm⟩ := hw.above.exists
    rw [depth, hm, List.length_append, List.length_cons, hdepth] at hless
    omega
  · exact hh

/-- The call of the outer function of `escaping` defines the inner one in its own scope, and
    leaves it as its value after four steps. -/
theorem isolates_escaping :
    let m := ((initial default).start escaping).after escaping default 7
    let opened := (m.step escaping default).2
    let later := opened.after escaping default 3
    opened.depth = m.depth + 1 ∧ Isolated m.store.scopes opened later ∧
      Hands escaping opened later (later.step escaping default) := by
  intro m opened later
  obtain ⟨hcall, hopen, hover⟩ : opened.depth = m.depth + 1 ∧
      (∀ k ≤ 3, m.depth < (opened.after escaping default k).depth) ∧
      (later.step escaping default).2.depth ≤ m.depth := by
    decide +kernel
  have hreachable : Reachable escaping default (fun _ => True) m :=
    .after 7 (.start (.initial default))
  obtain ⟨-, hisolated, -, hhands⟩ := hreachable.isolates hcall hopen
  exact ⟨hcall, hisolated, hhands hover⟩

end Arbor.Machine
