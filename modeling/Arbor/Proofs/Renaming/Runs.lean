/-
  Runs of renamed programs.

  Renamed machines take the same steps, each to renamed machines, and so run to related
  results, or fail alike.

  Main statements: `renamed_step` and `renamed_run`.
-/
import Arbor.Machine.Run
import Arbor.Proofs.Renaming.Execution

namespace Arbor

open List (Forall₂)

section
variable (R : NodeId → NodeId → Prop)

/-- The machines cannot go on for the same reason. -/
inductive EvalError.Renamed : EvalError → EvalError → Prop
  | notStarted : EvalError.Renamed .notStarted .notStarted
  | finished : EvalError.Renamed .finished .finished
  | valueStackUnderflow {x y : NodeId} : R x y →
      EvalError.Renamed (.valueStackUnderflow x) (.valueStackUnderflow y)
  | jumpOutOfBounds {x y : NodeId} (target len : Nat) : R x y →
      EvalError.Renamed (.jumpOutOfBounds x target len) (.jumpOutOfBounds y target len)
  | stepLimit (limit : Nat) : EvalError.Renamed (.stepLimit limit) (.stepLimit limit)
  | unknownStream (n : Name) : EvalError.Renamed (.unknownStream n) (.unknownStream n)

/-- The steps did the same. -/
inductive Outcome.Renamed : Outcome → Outcome → Prop
  | executed {s s' : Step} : s.Renamed R s' → Outcome.Renamed (.executed s) (.executed s')
  | unwound {x y : NodeId} : R x y → Outcome.Renamed (.unwound x) (.unwound y)
  | completed {v w : Value} : v.Renamed R w → Outcome.Renamed (.completed v) (.completed w)

/-- Renamed machines, and what they did or why they could not. -/
abbrev Machine.Result.Renamed (p q : Program) (r r' : Machine.Result) : Prop :=
  Except.Rel (EvalError.Renamed R) (Outcome.Renamed R) r.1 r'.1 ∧ r.2.Renamed R p q r'.2

end

namespace Program.Renamed

variable {R : NodeId → NodeId → Prop} {p q : Program} (h : p.Renamed R q)
variable {m m' : Machine} (hm : m.Renamed R p q m')
include h hm

/-! ## Begins and ends of runs -/

theorem renamed_beginRun (reevaluating : Bool) :
    (m.beginRun p reevaluating).Renamed R p q (m'.beginRun q reevaluating) := by
  have hscope : Scope.Renamed R ⟨.empty, none⟩ ⟨.empty, none⟩ := ⟨fun _ _ _ => .none, rfl⟩
  obtain ⟨hid, hscopes⟩ := hm.store.scopes.add hscope
  have store : (m.store.addScope ⟨.empty, none⟩).2.Renamed R (m'.store.addScope ⟨.empty, none⟩).2 :=
    { hm.store with scopes := hscopes }
  refine ⟨.cons ?_ .nil, store, rfl, hm.streams, hm.pending, .none, hm.runs, hm.stepsTaken⟩
  refine ⟨.none, h.root, ?_, rfl, hid, .none, .nil, .opened⟩
  rw [List.toList_toArray, List.toList_toArray]
  exact h.renamed_compile h.root

theorem renamed_start : (m.start p).Renamed R p q (m'.start q) := by
  have forgotten : Machine.Renamed R p q { m with store := { m.store with remembered := .empty } }
      { m' with store := { m'.store with remembered := .empty } } :=
    { hm with store := { hm.store with remembered := fun _ _ _ => .none } }
  exact h.renamed_beginRun forgotten false

theorem renamed_insertStream {s s' t t' : StreamId} (hs : p.SameStream R q s s') {v w : Value}
    (hv : v.Renamed R w) (ht : p.SameStream R q t t') :
    Option.Rel (Value.Renamed R) ((m.streams.insert s v).get? t)
      ((m'.streams.insert s' w).get? t') := by
  rw [Table.get?_insert, Table.get?_insert]
  by_cases hst : s = t
  · rw [if_pos hst, if_pos ((Relator.rel_eq h.uniqueStream hs ht).1 hst)]
    exact .some hv
  · rw [if_neg hst, if_neg (mt (Relator.rel_eq h.uniqueStream hs ht).2 hst)]
    exact hm.streams ht

theorem renamed_endRun {v w : Value} (hv : v.Renamed R w) :
    (m.endRun p v).Renamed R p q (m'.endRun q w) := by
  have ended : Machine.Renamed R p q { m with frames := [], result := some v, runs := m.runs + 1 }
      { m' with frames := [], result := some w, runs := m'.runs + 1 } :=
    ⟨.nil, hm.store, hm.reevaluating, hm.streams, hm.pending, .some hv, congrArg (· + 1) hm.runs,
      hm.stepsTaken⟩
  have hpending := hm.pending
  unfold Machine.endRun
  dsimp only
  revert hpending
  generalize hps : m.pending = ps, hqs : m'.pending = qs
  rintro (_ | ⟨⟨hs, hw⟩, hrest⟩)
  · rw [hps, hqs] at ended
    exact ended
  · refine h.renamed_beginRun ?_ true
    exact ⟨.nil, hm.store, hm.reevaluating, h.renamed_insertStream hm hs hw, hrest, .some hv,
      congrArg (· + 1) hm.runs, hm.stepsTaken⟩

/-- Both machines take the new value of a stream that related nodes borrow, or neither does. -/
theorem renamed_streamInput {x y : NodeId} {n : Name} (hx : R x y)
    (hn : p.node? x = some (.borrow n)) {v w : Value} (hv : v.Renamed R w) :
    Except.Rel (EvalError.Renamed R) (Machine.Renamed R p q) (m.streamInput p n v)
      (m'.streamInput q n w) := by
  have hs := h.renamed_streamNamed? hx hn
  unfold Machine.streamInput
  revert hs
  generalize p.streamNamed? n = o, q.streamNamed? n = o'
  rintro (hs | _)
  · dsimp only
    rw [List.rel_isEmpty hm.frames]
    split
    · refine .ok (h.renamed_beginRun ?_ true)
      exact { hm with streams := h.renamed_insertStream hm hs hv }
    · exact .ok { hm with pending := List.rel_append hm.pending (.cons ⟨hs, hv⟩ .nil) }
  · exact .error (.unknownStream n)

/-! ## Ends of frames -/

section
variable {f f' : Frame} (hf : f.Renamed R f') {below below' : List Frame}
  (hbelow : Forall₂ (Frame.Renamed R) below below') {s s' : Step} (hs : s.Renamed R s')
include hf hbelow

omit h hf hbelow in
theorem renamed_frames {fs fs' : List Frame} (hfs : Forall₂ (Frame.Renamed R) fs fs') :
    Machine.Renamed R p q { m with frames := fs } { m' with frames := fs' } :=
  { hm with frames := hfs }

include hs in
theorem renamed_complete :
    Machine.Result.Renamed R p q (m.complete p f below s) (m'.complete q f' below' s') := by
  have hoperands := hf.operands
  unfold Machine.complete
  revert hoperands
  generalize f.operands = vs, f'.operands = ws
  rintro (_ | ⟨hv, hvs⟩)
  · exact ⟨.error (.valueStackUnderflow hf.creator), renamed_frames hm hbelow⟩
  · rcases hbelow with _ | ⟨hcaller, hrest⟩
    · exact ⟨.ok (.completed hv), h.renamed_endRun hm hv⟩
    · exact ⟨.ok (.executed hs), renamed_frames hm (.cons (hcaller.push hv) hrest)⟩

theorem renamed_unwind {e e' : Exception} (he : e.Renamed R e') :
    Machine.Result.Renamed R p q (m.unwind p f below e) (m'.unwind q f' below' e') := by
  unfold Machine.unwind
  rcases hbelow with _ | ⟨hcaller, hrest⟩
  · exact ⟨.ok (.completed (.exception he)), h.renamed_endRun hm (.exception he)⟩
  · exact ⟨.ok (.unwound hf.creator), renamed_frames hm (.cons (hcaller.unwinding he) hrest)⟩

include hs

omit h in
theorem renamed_raise {e e' : Exception} (he : e.Renamed R e') :
    Machine.Result.Renamed R p q (m.raise f below s e) (m'.raise f' below' s' e') :=
  ⟨.ok (.executed hs), renamed_frames hm (.cons (hf.unwinding he) hbelow)⟩

theorem renamed_settle :
    Machine.Result.Renamed R p q (m.settle p f below s) (m'.settle q f' below' s') := by
  unfold Machine.settle
  rw [hf.isDone_eq]
  split
  · exact h.renamed_complete hm hf hbelow hs
  · exact ⟨.ok (.executed hs), renamed_frames hm (.cons hf hbelow)⟩

/-! ## Calls -/

omit hm hf hbelow hs in
theorem renamed_defaultValue? {x y : NodeId} (hx : R x y) :
    Option.Rel (Value.Renamed R) (p.defaultValue? x) (q.defaultValue? y) := by
  obtain ⟨n, m, hn, hm, hnm⟩ := h.node hx
  rw [defaultValue?, defaultValue?, hn, hm]
  cases hnm with
  | bind _ _ hvalue =>
    rcases hvalue with hvalue | _
    · exact h.renamed_literal? hvalue
    · exact .none
  | _ => exact .none

omit hm hf hbelow hs in
theorem renamed_inputValues {is js : List NodeId} (his : Forall₂ R is js) {vs ws : List Value}
    (hvs : RenamedValues R vs ws) :
    Except.Rel R (Forall₂ fun a b => R a.1 b.1 ∧ a.2.Renamed R b.2) (p.inputValues is vs)
      (q.inputValues js ws) := by
  induction his generalizing vs ws with
  | nil => unfold inputValues; exact .ok .nil
  | @cons i j is js hi _ ih =>
    rcases hvs with _ | ⟨hv, hvs⟩
    · have hd := h.renamed_defaultValue? hi
      have hrest := ih .nil
      unfold inputValues
      revert hd hrest
      generalize p.defaultValue? i = o, q.defaultValue? j = o'
      generalize p.inputValues is [] = r, q.inputValues js [] = r'
      rintro (hd | _) (hx | hrest)
      · exact .error hx
      · exact .ok (.cons ⟨hi, hd⟩ hrest)
      · exact .error hi
      · exact .error hi
    · have hrest := ih hvs
      unfold inputValues
      revert hrest
      generalize p.inputValues is _ = r, q.inputValues js _ = r'
      rintro (hx | hrest)
      · exact .error hx
      · exact .ok (.cons ⟨hi, hv⟩ hrest)

omit hm hf hbelow hs in
theorem renamed_callScope {c c' : Call} (hc : c.Renamed R c') :
    Except.Rel (Exception.Renamed R) (Scope.Renamed R) (p.callScope c) (q.callScope c') := by
  have hvalues := h.renamed_inputValues (h.renamed_inputs hc.definition) hc.arguments
  unfold callScope
  revert hvalues
  generalize p.inputValues _ _ = r, q.inputValues _ _ = r'
  rintro (hx | hvs)
  · exact .error ⟨congrArg ExceptionKind.missingValue (h.primaryName?_eq hx), hc.creator⟩
  · refine .ok (List.rel_foldl (P := fun t t' => Scope.Renamed R ⟨t, c.closure⟩ ⟨t', c'.closure⟩)
      ?_ ⟨fun _ _ _ => .none, hc.closure⟩ hvs)
    rintro t t' ht ⟨x, v⟩ ⟨y, w⟩ ⟨hx, hv⟩
    exact ht.insert h.unique hx hv

theorem renamed_enter (limits : Limits) {c c' : Call} (hc : c.Renamed R c') :
    Machine.Result.Renamed R p q (m.enter p limits f below s c)
      (m'.enter q limits f' below' s' c') := by
  have hscope := h.renamed_callScope hc
  unfold Machine.enter
  rw [hbelow.length_eq]
  split
  · exact renamed_raise hm hf hbelow hs ⟨rfl, hc.creator⟩
  · revert hscope
    generalize p.callScope c = r, q.callScope c' = r'
    rintro (he | hscope)
    · exact renamed_raise hm hf hbelow hs he
    · obtain ⟨hid, hscopes⟩ := hm.store.scopes.add hscope
      refine ⟨.ok (.executed hs), ⟨.cons ?_ (.cons hf hbelow), { hm.store with scopes := hscopes },
        hm.reevaluating, hm.streams, hm.pending, hm.result, hm.runs, hm.stepsTaken⟩⟩
      refine ⟨.some hc.definition, hc.creator, ?_, rfl, hid, hc.this, .nil, .opened⟩
      simp only [openFrame, List.toList_toArray]
      exact h.renamed_compileBody hc.definition

theorem renamed_act (limits : Limits) {action action' : Action}
    (haction : action.Renamed R action') :
    Machine.Result.Renamed R p q (m.act p limits f below s action)
      (m'.act q limits f' below' s' action') := by
  unfold Machine.act
  cases haction with
  | proceed => exact h.renamed_settle hm hf hbelow hs
  | skip n => exact h.renamed_settle hm (hf.advance n) hbelow hs
  | jump n =>
    dsimp only
    rw [hf.size_steps, hf.pc]
    split
    · exact ⟨.error (.jumpOutOfBounds _ _ hs.node), renamed_frames hm (.cons hf hbelow)⟩
    · refine h.renamed_settle hm (f := { f with pc := f'.pc + n }) ?_ hbelow hs
      exact ⟨hf.definition, hf.creator, hf.steps, rfl, hf.scope, hf.this, hf.operands, hf.phase⟩
  | raise he => exact renamed_raise hm hf hbelow hs he
  | call hc => exact h.renamed_enter hm hf hbelow hs limits hc

end

/-! ## Steps and runs -/

/-- The next step of a frame is executed, and what it asks for is done. -/
theorem renamed_stepOn (limits : Limits) {f f' : Frame} (hf : f.Renamed R f')
    {below below' : List Frame} (hbelow : Forall₂ (Frame.Renamed R) below below') {s s' : Step}
    (hs : s.Renamed R s') :
    let r := p.execute m { f with phase := .running, pc := f.pc + 1 } below s
    let r' := q.execute m' { f' with phase := .running, pc := f'.pc + 1 } below' s'
    Machine.Result.Renamed R p q
      ({ r.2.1 with stepsTaken := r.2.1.stepsTaken + 1 }.act p limits r.1 below s r.2.2)
      ({ r'.2.1 with stepsTaken := r'.2.1.stepsTaken + 1 }.act q limits r'.1 below' s' r'.2.2) := by
  have running : Frame.Renamed R { f with phase := .running, pc := f.pc + 1 }
      { f' with phase := .running, pc := f'.pc + 1 } :=
    { hf.advance 1 with phase := .running }
  obtain ⟨hframe, hmachine, haction⟩ := h.renamed_execute hm running hbelow hs
  refine h.renamed_act ?_ hframe hbelow hs limits haction
  exact { hmachine with stepsTaken := congrArg (· + 1) hmachine.stepsTaken }

/-- **Renamed machines take the same step.** -/
theorem renamed_step (limits : Limits) :
    Machine.Result.Renamed R p q (m.step p limits) (m'.step q limits) := by
  have hframes := hm.frames
  unfold Machine.step
  revert hframes
  generalize m.frames = fs, m'.frames = fs'
  rintro (_ | @⟨f, f', below, below', hf, hbelow⟩)
  · refine ⟨.error ?_, hm⟩
    rw [hm.result.isSome_eq]
    split
    · exact .finished
    · exact .notStarted
  · have hphase := hf.phase
    have hnext := hf.next?
    dsimp only
    revert hphase
    generalize f.phase = ph, f'.phase = ph'
    rintro (_ | _ | he)
    case unwinding => exact h.renamed_unwind hm hf hbelow he
    all_goals
      revert hnext
      generalize f.next? = o, f'.next? = o'
      rintro (hs | _)
      · exact h.renamed_stepOn hm limits hf hbelow hs
      · exact ⟨.error (.valueStackUnderflow hf.creator),
          renamed_frames hm (.cons { hf with phase := .running } hbelow)⟩

/-- Renamed machines, and the values that they ran to or why they did not. -/
abbrev RenamedRun (R : NodeId → NodeId → Prop) (p q : Program)
    (r r' : Except EvalError Value × Machine) : Prop :=
  Except.Rel (EvalError.Renamed R) (Value.Renamed R) r.1 r'.1 ∧ r.2.Renamed R p q r'.2

/-- **Renamed machines run to related results.** -/
theorem renamed_resume (limits : Limits) (taken : Nat) :
    RenamedRun R p q (m.resume p limits taken) (m'.resume q limits taken) := by
  -- The recursion of the run: both take the same step.
  fun_induction Machine.resume p limits taken m generalizing m' with
  | case1 taken m hempty =>
    rw [Machine.resume.eq_1, if_pos (List.rel_isEmpty hm.frames ▸ hempty)]
    refine ⟨?_, hm⟩
    have hresult := hm.result
    revert hresult
    generalize m.result = o, m'.result = o'
    rintro (hv | _)
    · exact .ok hv
    · exact .error .notStarted
  | case2 taken m hopen limit hlimit =>
    rw [Machine.resume.eq_1, if_neg (List.rel_isEmpty hm.frames ▸ hopen), hlimit]
    exact ⟨.error (.stepLimit limit), hm⟩
  | case3 taken m hopen hfree e m₁ hstep =>
    obtain ⟨hr, hm₁⟩ := h.renamed_step hm limits
    rw [Machine.resume.eq_1, if_neg (List.rel_isEmpty hm.frames ▸ hopen), hfree]
    rw [hstep] at hr hm₁
    dsimp only
    rcases hstep' : m'.step q limits with ⟨e' | o', m₁'⟩
    · rw [hstep'] at hr hm₁
      cases hr with
      | error he => exact ⟨.error he, hm₁⟩
    · rw [hstep'] at hr
      cases hr
  | case4 taken m hopen hfree o m₁ hstep ih =>
    obtain ⟨hr, hm₁⟩ := h.renamed_step hm limits
    rw [Machine.resume.eq_1 (m := m'), if_neg (List.rel_isEmpty hm.frames ▸ hopen), hfree]
    rw [hstep] at hr hm₁
    dsimp only
    rcases hstep' : m'.step q limits with ⟨e' | o', m₁'⟩
    · rw [hstep'] at hr
      cases hr
    · rw [hstep'] at hm₁
      exact ih hm₁

theorem renamed_run (limits : Limits) : RenamedRun R p q (m.run p limits) (m'.run q limits) := by
  unfold Machine.run
  rw [List.rel_isEmpty hm.frames, hm.result.isNone_eq]
  split
  · exact h.renamed_resume (h.renamed_start hm) limits 0
  · exact h.renamed_resume hm limits 0

omit h hm in
/-- What is known at first is known to both machines. -/
theorem renamed_initial {memo memo' : Memo} (hmemo : memo.Renamed R memo')
    (hidle : memo.computing = []) (hidle' : memo'.computing = []) :
    (Machine.initial memo).Renamed R p q (Machine.initial memo') :=
  ⟨.nil, ⟨Scopes.renamed_empty, fun _ _ _ => .none, hmemo, hidle, hidle'⟩, rfl, fun _ => .none,
    .nil, .none, rfl, rfl⟩

end Program.Renamed

end Arbor
