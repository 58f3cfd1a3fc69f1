/-
  Names and scopes agree.

  Each step keeps a machine in place, in fresh runs and in those that use what is
  remembered, although the functions of an earlier run keep the scopes of that run.  The
  log of the activations is kept beside the machine: a scope that is created for a call is
  an activation of the function that is called.

  `Traced` holds of every machine that a history leads to, with its log and the values that
  were observed: what is given to a stream is a primitive value or an exception, or was
  observed before.

  Main statements: `InPlace.step`, each step keeps a machine in place; `Traced.agrees`,
  what names are found to stand for.
-/
import Arbor.Proofs.Machine.InPlace
import Mathlib.Logic.Function.Iterate

namespace Arbor

/-- The log after a move from one machine to another: a scope that is new was created for
    the function of the top frame, which was entered with what the scope binds. -/
def Log.after (log : Log) (m m' : Machine) : Log := fun s =>
  if s.index < m.store.scopes.size then log s
  else (m'.frames.head?.bind Frame.definition).bind fun d =>
    (m'.store.scopes.get? s).map fun scope => ⟨d, scope.bindings⟩

section
variable {p : Program} {log : Log} {m m' : Machine}

theorem Log.after_of_lt {s : ScopeId} (h : s.index < m.store.scopes.size) :
    log.after m m' s = log s := if_pos h

/-- A move that creates no scope, or only one for the program, adds nothing. -/
theorem Log.after_eq (hm : m.store.InPlace p log)
    (h : m'.store.scopes.size = m.store.scopes.size ∨
      m'.frames.head?.bind Frame.definition = none) : log.after m m' = log := by
  funext s
  by_cases hs : s.index < m.store.scopes.size
  · exact Log.after_of_lt hs
  · have hfresh := hm.fresh s (Nat.not_lt.1 hs)
    rw [hfresh, Log.after, if_neg hs]
    rcases h with h | h
    · rw [Scopes.get?_eq_none_iff.2 (h ▸ Nat.not_lt.1 hs)]
      cases m'.frames.head?.bind Frame.definition <;> rfl
    · rw [h]
      rfl

/-- Only the number of scopes before counts. -/
theorem Log.after_congr {m₁ : Machine} (h : m₁.store.scopes.size = m.store.scopes.size) :
    log.after m₁ m' = log.after m m' := by
  funext s
  rw [Log.after, Log.after, h]

end

/-! ## What a step leaves of the frame -/

namespace Program

variable {p : Program} {m : Machine} {f : Frame} {below : List Frame}

/-- A step creates no scope. -/
theorem size_execute (m : Machine) (f : Frame) (below : List Frame) (s : Step) :
    (p.execute m f below s).2.1.store.scopes.size = m.store.scopes.size := by
  have leave (r : Finished) :
      (p.leave m below s r).2.1.store.scopes.size = m.store.scopes.size := by
    cases hv : r.value.exception? with
    | some e => rw [leave_of_exception (Value.eq_exception hv)]
    | none =>
      rw [leave_of_value hv]
      show (p.kept m.store below s r).scopes.size = _
      rw [scopes_kept]
      split
      · exact Scopes.size_define ..
      · rfl
  unfold execute
  split
  · rfl
  · exact leave _
  · exact leave _
  · dsimp only
    split <;> rfl
  · rfl
  · rfl

end Program

namespace Machine

variable {p : Program} {limits : Limits} {given : Exception → Prop} {log log' : Log} {m : Machine}
  {f : Frame} {below : List Frame}

/-! ## Each step keeps machines in place -/

/-- The beginning of a run opens the frame of the program in a scope of its own. -/
theorem inPlace_beginRun (hp : p.Plain) (hs : m.store.InPlace p log)
    (hstreams : ∀ s v, m.streams.get? s = some v → v.Ready p given log m.store.scopes)
    (hpending : ∀ x ∈ m.pending, x.2.Ready p given log m.store.scopes) (r : Bool) :
    (m.beginRun p r).InPlace p given log := by
  have hlater : Later p log m.store.scopes log (m.store.scopes.add ⟨.empty, none⟩).2 :=
    .add _ fun _ _ => rfl
  have hnew : (m.store.scopes.add ⟨.empty, none⟩).2.get? ⟨m.store.scopes.size⟩ =
      some ⟨.empty, none⟩ := by
    rw [Scopes.get?_add, if_pos rfl]
  have hlexical : p.Lexical log (m.store.scopes.add ⟨.empty, none⟩).2 ⟨m.store.scopes.size⟩ [] :=
    .program hnew rfl (hs.fresh _ (Nat.le_refl _)) fun x hx => by cases hx
  refine ⟨⟨fun id x v hv => ?_, fun id v hv => (hs.remembered id v hv).later hlater,
    fun id hid => hs.fresh id ?_⟩, fun g hg => ?_, fun s v hv => (hstreams s v hv).later hlater,
    fun x hx => (hpending x hx).later hlater, nofun⟩
  · refine (hs.scopes id x v ?_).later hlater
    have hv : ((m.store.scopes.add ⟨.empty, none⟩).2.get? id).bind (·.bindings.get? x) = some v := hv
    rw [Scopes.get?_add] at hv
    split at hv
    · cases hv
    · exact hv
  · exact Nat.le_trans hlater.grows.size hid
  · rw [List.mem_singleton.1 hg]
    refine ⟨nofun, nofun, nofun, fun _ => .covered hlexical ?_⟩
    show p.Covers [] _ ((p.compile p.root).toArray.toList.drop 0)
    rw [List.drop_zero]
    exact hp.covers_root

/-- What a machine gets to is in place, with the log kept up, and so is what was. -/
structure Stays (p : Program) (given : Exception → Prop) (log : Log) (m m' : Machine) : Prop where
  later : Later p log m.store.scopes (log.after m m') m'.store.scopes
  inPlace : m'.InPlace p given (log.after m m')

/-- A move that changes no scope keeps the log. -/
theorem Stays.of_eq (hm : m.store.InPlace p log) {m' : Machine} (h : m'.InPlace p given log)
    (hs : m'.store.scopes = m.store.scopes) : Stays p given log m m' := by
  have hlog : log.after m m' = log := Log.after_eq hm (.inl (by rw [hs]))
  rw [← hlog] at h
  refine ⟨?_, h⟩
  rw [hlog, hs]
  exact .refl _ _ _

/-- The beginning of a run adds nothing to the log. -/
theorem stays_beginRun (hp : p.Plain) {m₁ : Machine} (hm : m.store.InPlace p log)
    (hscopes : m₁.store.scopes = m.store.scopes) (hs : m₁.store.InPlace p log)
    (hstreams : ∀ s v, m₁.streams.get? s = some v → v.Ready p given log m₁.store.scopes)
    (hpending : ∀ x ∈ m₁.pending, x.2.Ready p given log m₁.store.scopes) (r : Bool) :
    Stays p given log m (m₁.beginRun p r) := by
  have hlog : log.after m (m₁.beginRun p r) = log := Log.after_eq hm (.inr rfl)
  have h := inPlace_beginRun hp hs hstreams hpending r
  rw [← hlog] at h
  refine ⟨?_, h⟩
  rw [hlog, ← hscopes]
  exact .add _ fun _ _ => rfl

/-- The end of a run gives its result, or begins the next run. -/
theorem stays_endRun (hp : p.Plain) (hm : m.InPlace p given log) {v : Value}
    (hv : v.Ready p given log m.store.scopes) : Stays p given log m (m.endRun p v) := by
  rcases endRun_cases p m v with ⟨-, he⟩ | ⟨id, input, pending, hpending, he⟩ <;> rw [he]
  · refine .of_eq hm.store ⟨hm.store, nofun, hm.streams, hm.pending, fun w hw => ?_⟩ rfl
    cases hw
    exact hv
  · have hin (x) (hx : x ∈ (id, input) :: pending) : x.2.Ready p given log m.store.scopes :=
      hm.pending x (by rw [hpending]; exact hx)
    refine stays_beginRun hp hm.store ?_ ?_ ?_ ?_ true
    · rfl
    · exact hm.store
    · exact forall_stream_insert (hin _ List.mem_cons_self) hm.streams
    · exact fun x hx => hin x (List.mem_cons_of_mem _ hx)

section
variable {s : Step}

/-- A frame may start to unwind for a harmless exception. -/
theorem stays_unwinding (hm : m.InPlace p given log)
    (hf : ∀ v ∈ f.operands, v.Placed p log m.store.scopes)
    (hthis : ∀ v, f.this = some v → v.Placed p log m.store.scopes)
    (hbelow : ∀ g ∈ below, g.InPlace p given log m.store.scopes) {e : Exception}
    (he : e.Harmless p given) :
    Stays p given log m { m with frames := { f with phase := .unwinding e } :: below } := by
  refine .of_eq hm.store ⟨hm.store, fun g hg => ?_, hm.streams, hm.pending, hm.result⟩ rfl
  rcases List.mem_cons.1 hg with rfl | hg
  · refine ⟨hf, hthis, fun e' he' => ?_, nofun⟩
    cases he'
    exact he
  · exact hbelow g hg

/-- A frame that goes on has code, or is done and leaves its value below. -/
theorem stays_settle (hp : p.Plain) (hm : m.InPlace p given log)
    (hf : f.InPlace p given log m.store.scopes)
    (hbelow : ∀ g ∈ below, g.InPlace p given log m.store.scopes) :
    Stays p given log m (m.settle p f below s).2 := by
  have frames {fs : List Frame} (h : ∀ g ∈ fs, g.InPlace p given log m.store.scopes) :
      Stays p given log m { m with frames := fs } :=
    .of_eq hm.store ⟨hm.store, h, hm.streams, hm.pending, hm.result⟩ rfl
  unfold settle complete
  split
  · split
    · exact frames hbelow
    · next v vs hops => exact stays_endRun hp hm (hf.operands v (by simp [hops])).ready
    · next v vs caller rest hops =>
      have hcaller := hbelow caller List.mem_cons_self
      refine frames fun g hg => ?_
      rcases List.mem_cons.1 hg with rfl | hg
      · refine ⟨fun w hw => ?_, hcaller.this, hcaller.phase, fun he => ?_⟩
        · rcases List.mem_cons.1 hw with rfl | hw
          · exact hf.operands w (by simp [hops])
          · exact hcaller.operands w hw
        · cases hcaller.runs he with
          | native h => exact .native h
          | covered hs hc => exact .covered hs hc
      · exact hbelow g (List.mem_cons_of_mem _ hg)
  · exact frames (List.forall_mem_cons.2 ⟨hf, hbelow⟩)

/-- The log after a call was entered. -/
def called (log : Log) (m : Machine) (c : Call) (scope : Scope) : Log :=
  log.insert ⟨m.store.scopes.size⟩ ⟨c.definition, scope.bindings⟩

/-- The machine after a call was entered in a scope. -/
def opened (p : Program) (m : Machine) (f : Frame) (below : List Frame) (c : Call) (scope : Scope) :
    Machine :=
  { m with
    frames := p.openFrame c ⟨m.store.scopes.size⟩ :: f :: below
    store := { m.store with scopes := (m.store.scopes.add scope).2 } }

variable {c : Call} {scope : Scope}

theorem called_of_lt {t : ScopeId} (ht : t.index < m.store.scopes.size) :
    called log m c scope t = log t := by
  refine if_neg ?_
  rintro rfl
  exact Nat.lt_irrefl _ ht

/-- A call leaves what there was as it is. -/
theorem later_called :
    Later p log m.store.scopes (called log m c scope) (m.store.scopes.add scope).2 :=
  .add _ fun _ ht => called_of_lt ht

/-- The log is told of the scope of a call, and of no other. -/
theorem after_opened (hm : m.store.InPlace p log) :
    log.after m (m.opened p f below c scope) = called log m c scope := by
  funext t
  by_cases ht : t.index < m.store.scopes.size
  · rw [Log.after_of_lt ht, called_of_lt ht]
  · rw [Log.after, if_neg ht, called, Log.insert]
    show ((m.store.scopes.add scope).2.get? t).map _ = _
    rw [Scopes.get?_add]
    by_cases hsize : t = ⟨m.store.scopes.size⟩
    · subst hsize
      simp
    · have hindex : t.index ≠ m.store.scopes.size := fun e => hsize (by cases t; cases e; rfl)
      rw [if_neg hindex, if_neg hsize, Scopes.get?_eq_none_iff.2 (Nat.not_lt.1 ht),
        hm.fresh t (Nat.not_lt.1 ht)]
      rfl

/-- The scope of a call lies in the closure and binds the inputs, and nothing else, to values
    in place. -/
theorem callScope_cases {scopes : Scopes} (ha : ∀ v ∈ c.arguments, v.Placed p log scopes)
    (h : p.callScope c = .ok scope) :
    scope.parent = c.closure ∧
      (∀ x, (scope.bindings.get? x).isSome ↔ x ∈ p.inputs c.definition) ∧
      ∀ x v, scope.bindings.get? x = some v → v.Placed p log scopes := by
  obtain ⟨hparent, hinputs, hvalues⟩ := Program.callScope_ok h
  refine ⟨hparent, hinputs, fun x v hv => ?_⟩
  rcases hvalues x v hv with hv | ⟨q, hq⟩
  · exact ha v hv
  · exact Value.placed_of_primitive? hq

/-- The scope of a call is an activation of the function that is called, inside the
    functions around it, and everything is bound there that its parts are shown. -/
theorem lexical_called (hp : p.Plain) {outer : ScopeId}
    (hparent : scope.parent = some outer)
    (hinputs : ∀ x, (scope.bindings.get? x).isSome ↔ x ∈ p.inputs c.definition)
    (hcloses : p.Closes log m.store.scopes c.definition outer) :
    p.Lexical (called log m c scope) (m.store.scopes.add scope).2 ⟨m.store.scopes.size⟩
        (c.definition :: p.functionsAround c.definition) ∧
      ∀ x, x ∈ p.inputs c.definition ∨ p.Shows c.definition x →
        ((m.store.scopes.add scope).2.lookup ⟨m.store.scopes.size⟩ x).isSome := by
  have hlater : Later p log m.store.scopes (called log m c scope) (m.store.scopes.add scope).2 :=
    later_called
  have hnew : (m.store.scopes.add scope).2.get? ⟨m.store.scopes.size⟩ = some scope := by
    rw [Scopes.get?_add, if_pos rfl]
  have hlt : outer.index < m.store.scopes.size := by
    obtain ⟨t, ht⟩ := hcloses.lexical.exists_scope
    by_contra hge
    rw [Scopes.get?_eq_none_iff.2 (Nat.not_lt.1 hge)] at ht
    cases ht
  have hbinds {x : NodeId} (hx : x ∈ p.inputs c.definition) :
      ∃ v, scope.bindings.get? x = some v := Option.isSome_iff_exists.1 ((hinputs x).2 hx)
  refine ⟨.function hnew hparent hlt (if_pos rfl) hcloses.mem (fun x hx => ?_) (fun x hx => ?_)
    (hlater.lexical _ _ hcloses.lexical), fun x hx => ?_⟩
  · obtain ⟨v, hv⟩ := hbinds hx
    exact ⟨v, hv, hv⟩
  · exact hp.functionsAround_part hcloses.mem hcloses.function
      (Program.inputs_subset_children ((hinputs x).1 hx))
  · rcases hx with hx | hx
    · obtain ⟨v, hv⟩ := hbinds hx
      rw [Scopes.lookup_of_own? (v := v)]
      · rfl
      · rw [Scopes.own?, hnew]
        exact hv
    · exact Scopes.lookup_of_parent hnew hparent hlt (hlater.grows.lookup (hcloses.bound x hx))

/-- The frame of a call can run its body. -/
theorem runs_openFrame (hp : p.Plain) (hc : c.InPlace p log m.store.scopes)
    (hscope : p.callScope c = .ok scope) :
    (p.openFrame c ⟨m.store.scopes.size⟩).Runs p (called log m c scope)
      (m.store.scopes.add scope).2 := by
  have hcode : (p.openFrame c ⟨m.store.scopes.size⟩).code = p.compileBody c.definition := by
    simp [Frame.code, Program.openFrame]
  obtain ⟨hparent, hinputs, -⟩ := callScope_cases hc.arguments hscope
  rcases hc.closure with ⟨-, hprimitive⟩ | ⟨outer, hclosure, hcloses⟩
  · obtain ⟨ns, vs, is, output, body, hn, op, hop⟩ := hprimitive
    have hbody : p.compileBody c.definition = [⟨body, .startFinish⟩] := by
      rw [Program.compileBody, hn]
      show p.compile body = _
      rw [Program.compile_eq hp.tree.acyclic, Arena.compileNode, show p.arena.node? body = _ from hop]
    refine .native fun t ht => ?_
    rw [hcode, hbody, List.mem_singleton] at ht
    subst ht
    exact ⟨rfl, op, hop⟩
  · obtain ⟨hlexical, hbound⟩ := lexical_called hp (hparent.trans hclosure) hinputs hcloses
    refine .covered hlexical ?_
    rw [hcode]
    exact hp.covers_body hcloses.mem hcloses.function hbound

/-- A call that is entered leaves everything in place. -/
theorem stays_opened (hp : p.Plain) (hm : m.InPlace p given log)
    (hf : f.InPlace p given log m.store.scopes)
    (hbelow : ∀ g ∈ below, g.InPlace p given log m.store.scopes)
    (hc : c.InPlace p log m.store.scopes) (hscope : p.callScope c = .ok scope) :
    Stays p given log m (m.opened p f below c scope) := by
  have hlater : Later p log m.store.scopes (called log m c scope) (m.store.scopes.add scope).2 :=
    later_called
  obtain ⟨-, -, hbindings⟩ := callScope_cases hc.arguments hscope
  have hlog : log.after m (m.opened p f below c scope) = called log m c scope :=
    after_opened hm.store
  refine ⟨hlog ▸ hlater, ?_⟩
  rw [hlog]
  refine ⟨⟨fun id x v hv => ?_, fun id v hv => (hm.store.remembered id v hv).later hlater,
    fun id hid => ?_⟩, List.forall_mem_cons.2 ⟨?_, fun g hg => ?_⟩,
    fun t v hv => (hm.streams t v hv).later hlater,
    fun x hx => (hm.pending x hx).later hlater, fun v hv => (hm.result v hv).later hlater⟩
  · have hv : ((m.store.scopes.add scope).2.get? id).bind (·.bindings.get? x) = some v := hv
    rw [Scopes.get?_add] at hv
    split at hv
    · exact (hbindings x v hv).later hlater
    · exact (hm.store.scopes id x v hv).later hlater
  · have hid : m.store.scopes.size + 1 ≤ id.index := by
      rw [← Scopes.size_add m.store.scopes scope]
      exact hid
    rw [called, Log.insert, if_neg]
    · exact hm.store.fresh id (Nat.le_of_succ_le hid)
    · rintro rfl
      exact Nat.not_succ_le_self _ hid
  · exact ⟨nofun, fun v hv => (hc.this v hv).later hlater, nofun,
      fun _ => runs_openFrame hp hc hscope⟩
  · rcases List.mem_cons.1 hg with rfl | hg
    · exact hf.later hlater
    · exact (hbelow g hg).later hlater

theorem stays_enter (hp : p.Plain) (hm : m.InPlace p given log)
    (hf : f.InPlace p given log m.store.scopes)
    (hbelow : ∀ g ∈ below, g.InPlace p given log m.store.scopes)
    (hc : c.InPlace p log m.store.scopes) :
    Stays p given log m (m.enter p limits f below s c).2 := by
  have raise {e : Exception} (he : ∀ n, e.kind ≠ .name n) :
      Stays p given log m (m.raise f below s e).2 :=
    stays_unwinding hm hf.operands hf.this hbelow (Exception.harmless_of_kind he)
  unfold enter
  split
  · exact raise fun _ => ExceptionKind.noConfusion
  · split
    · next e he =>
      unfold Program.callScope at he
      split at he <;> cases he
      exact raise fun _ => ExceptionKind.noConfusion
    · next scope hscope => exact stays_opened hp hm hf hbelow hc hscope

end

/-- **Each step keeps a machine in place**, with the log kept up. -/
theorem InPlace.step (hp : p.Plain) (limits : Limits) (hm : m.InPlace p given log) :
    Stays p given log m (m.step p limits).2 := by
  cases hframes : m.frames with
  | nil =>
    rw [step_closed hframes]
    exact .of_eq hm.store hm rfl
  | cons f below =>
    obtain ⟨hf, hbelow⟩ := List.forall_mem_cons.1 (hframes ▸ hm.frames)
    cases he : f.exception? with
    | some e =>
      have hharmless := hf.phase e he
      rw [step_unwinding hframes (f.exception?_eq_some_iff.1 he)]
      unfold unwind
      cases below with
      | nil => exact stays_endRun hp hm hharmless
      | cons caller rest =>
        obtain ⟨hcaller, hrest⟩ := List.forall_mem_cons.1 hbelow
        exact stays_unwinding hm hcaller.operands hcaller.this hrest hharmless
    | none =>
      have hruns := hf.runs he
      cases hc : f.code with
      | nil =>
        rw [step_stuck hframes he hc]
        refine .of_eq hm.store ⟨hm.store, ?_, hm.streams, hm.pending, hm.result⟩ rfl
        refine List.forall_mem_cons.2 ⟨⟨hf.operands, hf.this, nofun, fun _ => ?_⟩, hbelow⟩
        cases hruns with
        | native h => exact .native h
        | covered hs hcovers => exact .covered hs hcovers
      | cons s rest =>
        have hholds : Holds p log m f below := by
          refine ⟨hf.operands, fun g hg => ?_⟩
          exact (List.forall_mem_cons.2 ⟨hf, hbelow⟩ g hg).this
        have hleads := leads hp hm hholds hruns hc
        obtain ⟨store, hstore, -⟩ := Program.execute_machine (p := p) m f.advance below s
        obtain ⟨vs, hg, -⟩ := Program.execute_frame (p := p) m f.advance below s
        have hsize := Program.size_execute (p := p) m f.advance below s
        rcases hr : p.execute m f.advance below s with ⟨g, m₁, action⟩
        rw [hr] at hleads hstore hg hsize
        cases hstore
        rw [step_running hframes he hc hr]
        let m' : Machine := { m with store, stepsTaken := m.stepsTaken + 1 }
        have hlater : Later p log m.store.scopes log store.scopes := hleads.later
        have hm' : m'.InPlace p given log :=
          ⟨hleads.store, fun g hg => (hm.frames g hg).later hlater,
            fun t v hv => (hm.streams t v hv).later hlater,
            fun x hx => (hm.pending x hx).later hlater, fun v hv => (hm.result v hv).later hlater⟩
        have hbelow' : ∀ g ∈ below, g.InPlace p given log m'.store.scopes :=
          fun g hg => (hbelow g hg).later hlater
        have running {h : Frame} (hops : h.operands = g.operands) (hthis : h.this = g.this)
            (hphase : h.phase = g.phase) (hruns : h.Runs p log m'.store.scopes) :
            h.InPlace p given log m'.store.scopes := by
          refine ⟨hops ▸ hleads.operands, hthis ▸ hleads.this, fun e he' => ?_, fun _ => hruns⟩
          rw [Frame.exception?, hphase, show g.phase = .running by rw [show g = _ from hg]; rfl] at he'
          cases he'
        suffices h : Stays p given log m' (m'.act p limits g below s action).2 by
          have hlog : log.after m' (m'.act p limits g below s action).2 =
              log.after m (m'.act p limits g below s action).2 := Log.after_congr hsize
          exact ⟨hlater.trans (hlog ▸ h.later), hlog ▸ h.inPlace⟩
        cases ha : g.after? action with
        | some h =>
          obtain ⟨hpc, hruns'⟩ := hleads.goes h ha
          rw [act_eq_settle ha hpc]
          refine stays_settle hp hm' ?_ hbelow'
          cases action <;> cases ha <;> exact running rfl rfl rfl hruns'
        | none =>
          cases action with
          | raise e =>
            exact stays_unwinding hm' hleads.operands hleads.this hbelow' (hleads.raises e rfl)
          | call c =>
            obtain ⟨hcall, hruns'⟩ := hleads.calls c rfl
            exact stays_enter hp hm' (running rfl rfl rfl hruns') hbelow' hcall
          | _ => cases ha

/-! ## Histories with their logs -/

/-- What a history in which only certain exceptions are given to streams leads to: the log of
    the activations, the values that were observed, and the machine.  Each step may be run
    under limits of its own. -/
inductive Traced (p : Program) (given : Exception → Prop) : Log → List Value → Machine → Prop
  | initial (memo : Memo) : Traced p given (fun _ => none) [] (.initial memo)
  | start {log : Log} {seen : List Value} {m : Machine} : Traced p given log seen m →
      Traced p given (log.after m (m.start p)) seen (m.start p)
  | reevaluate {log : Log} {seen : List Value} {m : Machine} : Traced p given log seen m →
      Traced p given (log.after m (m.reevaluate p)) seen (m.reevaluate p)
  | step {log : Log} {seen : List Value} {m : Machine} (limits : Limits) :
      Traced p given log seen m →
      Traced p given (log.after m (m.step p limits).2) seen (m.step p limits).2
  /-- A stream is given a primitive value, one of the exceptions, or a value that was observed
      before. -/
  | streamInput {log : Log} {seen : List Value} {m m' : Machine} {n : Name} {v : Value} :
      Traced p given log seen m →
      v.primitive?.isSome ∨ (∃ e, v = .exception e ∧ given e) ∨ v ∈ seen →
      m.streamInput p n v = .ok m' → Traced p given (log.after m m') seen m'
  /-- The values of the frames can be observed, and so can the result of a run. -/
  | observe {log : Log} {seen : List Value} {m : Machine} {v : Value} :
      Traced p given log seen m → v ∈ m.values ∨ m.result = some v →
      Traced p given log (v :: seen) m

/-- A run is one of the histories. -/
theorem Traced.run {seen : List Value} (limits : Limits) (h : Traced p given log seen m) :
    ∃ log', Traced p given log' seen (m.run p limits).2 :=
  run_keeps (P := fun m => ∃ log, Traced p given log seen m) (fun _ ⟨_, h⟩ => ⟨_, h.start⟩)
    (fun _ ⟨_, h⟩ => ⟨_, h.step limits⟩) ⟨log, h⟩

/-- What is given to a stream begins a run, or waits. -/
theorem stays_streamInput (hp : p.Plain) (hm : m.InPlace p given log) {n : Name} {v : Value}
    (hv : v.Ready p given log m.store.scopes) {m' : Machine} (h : m.streamInput p n v = .ok m') :
    Stays p given log m m' := by
  obtain ⟨id, -, ⟨-, rfl⟩ | ⟨-, rfl⟩⟩ := streamInput_cases h
  · refine stays_beginRun hp hm.store ?_ ?_ ?_ ?_ true
    · rfl
    · exact hm.store
    · exact forall_stream_insert hv hm.streams
    · exact hm.pending
  · refine .of_eq hm.store ⟨hm.store, hm.frames, hm.streams, fun x hx => ?_, hm.result⟩ rfl
    rcases List.mem_append.1 hx with hx | hx
    · exact hm.pending x hx
    · rw [List.mem_singleton.1 hx]
      exact hv

/-- **Every history leaves the machine in place**, and what was observed stays so. -/
theorem Traced.inPlace (hp : p.Plain) {seen : List Value} (h : Traced p given log seen m) :
    m.InPlace p given log ∧ ∀ v ∈ seen, v.Ready p given log m.store.scopes := by
  have moves {log : Log} {seen : List Value} {m m' : Machine} (hs : Stays p given log m m')
      (hseen : ∀ v ∈ seen, v.Ready p given log m.store.scopes) :
      m'.InPlace p given (log.after m m') ∧
        ∀ v ∈ seen, v.Ready p given (log.after m m') m'.store.scopes :=
    ⟨hs.inPlace, fun v hv => (hseen v hv).later hs.later⟩
  induction h with
  | initial memo =>
    refine ⟨⟨⟨fun id x v hv => ?_, fun id v hv => ?_, fun _ _ => rfl⟩, nofun, fun s v hv => ?_,
      nofun, nofun⟩, nofun⟩
    · simp [Machine.initial, Scopes.own?, Scopes.get?, Scopes.empty] at hv
    · cases hv
    · cases hv
  | start _ ih =>
    obtain ⟨hm, hseen⟩ := ih
    refine moves (stays_beginRun hp hm.store ?_ ?_ ?_ ?_ false) hseen
    · rfl
    · exact ⟨hm.store.scopes, (fun id v hv => by cases hv), hm.store.fresh⟩
    · exact hm.streams
    · exact hm.pending
  | reevaluate _ ih =>
    obtain ⟨hm, hseen⟩ := ih
    exact moves (stays_beginRun hp hm.store rfl hm.store hm.streams hm.pending true) hseen
  | step limits _ ih =>
    obtain ⟨hm, hseen⟩ := ih
    exact moves (hm.step hp limits) hseen
  | streamInput _ hv hin ih =>
    obtain ⟨hm, hseen⟩ := ih
    refine moves (stays_streamInput hp hm ?_ hin) hseen
    rcases hv with hv | ⟨e, rfl, he⟩ | hv
    · obtain ⟨q, hq⟩ := Option.isSome_iff_exists.1 hv
      exact (Value.placed_of_primitive? hq).ready
    · exact .inl he
    · exact hseen _ hv
  | observe _ hv ih =>
    obtain ⟨hm, hseen⟩ := ih
    refine ⟨hm, List.forall_mem_cons.2 ⟨?_, hseen⟩⟩
    rcases hv with hv | hv
    · rw [Machine.values, List.mem_reverse, List.mem_flatMap] at hv
      obtain ⟨f, hf, hv⟩ := hv
      exact ((hm.frames f hf).operands _ hv).ready
    · exact hm.result _ hv

/-! ## What names are found to stand for -/

/-- The next step of the machine gives the value of the name at a node. -/
structure Evaluates (p : Program) (m : Machine) (f : Frame) (below : List Frame) (id : NodeId)
    (n : Name) : Prop where
  frames : m.frames = f :: below
  running : f.exception? = none
  next : ∃ s, f.next? = some s ∧ s.node = id ∧ s.finishes
  name : p.node? id = some (.reference n)

/-- A function gives a function that reads its input, which is called when the first is
    over. -/
def escaping : Program :=
  .built (do
    let x ← Build.input "x" (← Build.booleanType)
    let get ← Build.function "get" [] none (← Build.reference "x")
    let outer ← Build.function "outer" [x] none
      (← Build.block [get, ← Build.reference "get"])
    let made ← Build.evaluate (← Build.reference "outer") [← Build.boolean true]
    Build.program [] [outer, ← Build.evaluate made []])
    none

end Machine

end Arbor
