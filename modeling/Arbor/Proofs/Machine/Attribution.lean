/-
  Exceptions are about code of a user.

  The functions of the basis have frames and bodies like all others, but a user has not
  written them.  They are only reached as methods of values, so their frames have a receiver,
  and a call binds every input.  What is left to go wrong is the operation itself, and this
  is attributed to the node that called the method, in code of a user.

  * `Value.Homed`: the value is no exception, and functions of the basis in it are methods
    of a value;
  * `Frame.OfUser` and `Frame.Performs`: the frame runs code of a user, or a primitive
    method, for which it has what the operation is applied to;
  * `Machine.Homed` is the invariant of the machine: only the latest frame may run a
    primitive method.

  Main statements: `execute_user` and `execute_performs`, what a step leaves and raises in
  each kind of frame; `Reachable.attributes`, the exceptions of every history.
-/
import Arbor.Proofs.Machine.Aged
import Arbor.Proofs.Machine.Unwinding
import Arbor.Proofs.Program.Unmixed

namespace Arbor

/-! ## The invariant -/

/-- The value is no exception, its definition is one of a user, or one of the basis that was
    reached from such a value. -/
def Value.Homed (p : Program) : Value → Prop
  | function d _ | definition d _ | instanceOf d _ => p.UserCode d
  | method d _ receiver => (p.UserCode d ∨ d ∈ p.basis.roots) ∧ receiver.Homed p
  | exception _ => False
  | _ => True

/-- The value is homed, or an exception at a node outside the basis. -/
def Value.Reported (p : Program) : Value → Prop
  | exception e => ¬p.InBasis e.node
  | v => v.Homed p

/-- What a frame holds is homed, it was opened by an operation or a call outside the basis,
    and it does not unwind for an exception at a node of the basis. -/
structure Frame.Homed (p : Program) (f : Frame) : Prop where
  operands : ∀ v ∈ f.operands, v.Homed p
  this : ∀ v, f.this = some v → v.Homed p
  creator : ¬p.InBasis f.creator
  caller : ∀ d, f.definition = some d → p.IsCall f.creator
  phase : ∀ e, f.exception? = some e → ¬p.InBasis e.node

/-- The frame runs code of a user. -/
structure Frame.OfUser (p : Program) (f : Frame) : Prop extends f.Homed p where
  definition : ∀ d, f.definition = some d → p.UserCode d
  steps : ∀ s ∈ f.steps.toList, p.UserCode s.node

/-- The application of a primitive method to a receiver and a value. -/
structure Application where
  /-- The function of the basis. -/
  method : NodeId
  /-- The operation that its body performs. -/
  operation : NativeOp
  /-- Its input. -/
  input : NodeId
  /-- Its body. -/
  body : NodeId
  /-- The value that the method was reached from. -/
  receiver : Value
  /-- The value of the input. -/
  value : Value

/-- What the application asks for in a frame that `creator` opened: to go on with the value
    of the operation, or to raise its failure at the creator. -/
def Application.action (a : Application) (creator : NodeId) : Action :=
  match a.operation.apply a.receiver a.value with
  | .ok _ => .proceed
  | .error kind => .raise ⟨kind, creator⟩

/-- The frame runs a primitive method with the receiver and the value of the application. -/
structure Frame.Performs (p : Program) (scopes : Scopes) (f : Frame) (a : Application) : Prop
    extends f.Homed p where
  definition : f.definition = some a.method
  method : ∃ q n, p.Method q n a.method a.operation a.input a.body
  steps : f.steps.toList = [⟨a.body, .startFinish⟩]
  receiver : f.this = some a.receiver
  value : scopes.lookup f.scope a.input = some a.value
  /-- It unwinds for a failure of the operation only. -/
  fails : ∀ e, f.exception? = some e → a.action f.creator = .raise e

/-- The frame runs code of a user or a primitive method. -/
def Frame.Stands (p : Program) (scopes : Scopes) (f : Frame) : Prop :=
  f.OfUser p ∨ ∃ a, f.Performs p scopes a

/-- A call by code of a user, of other such code or of a method of the basis with a
    receiver. -/
structure Call.Homed (p : Program) (c : Call) : Prop where
  creator : ¬p.InBasis c.creator
  caller : p.IsCall c.creator
  definition : p.UserCode c.definition ∨ c.definition ∈ p.basis.roots ∧ c.this.isSome
  this : ∀ v, c.this = some v → v.Homed p
  arguments : ∀ v ∈ c.arguments, v.Homed p

/-- All frames run code of a user, but the latest may run a primitive method. -/
def Stacked (p : Program) (scopes : Scopes) : List Frame → Prop
  | [] => True
  | f :: below => f.Stands p scopes ∧ ∀ g ∈ below, g.OfUser p

/-- The scopes hold homed values, and so does what is remembered. -/
structure Store.Homed (p : Program) (s : Store) : Prop where
  scopes : s.scopes.All (Value.Homed p)
  remembered : ∀ id v, s.remembered.get? id = some v → v.Homed p

/-- A machine holds homed values; only the result may be an exception, and only at a node
    outside the basis. -/
structure Machine.Homed (p : Program) (m : Machine) : Prop where
  store : m.store.Homed p
  frames : Stacked p m.store.scopes m.frames
  streams : ∀ s v, m.streams.get? s = some v → v.Homed p
  pending : ∀ x ∈ m.pending, x.2.Homed p
  result : ∀ v, m.result = some v → v.Reported p

/-- The machine is homed after the step, and a run that it ended gave a value that is
    reported. -/
structure Machine.Result.Homed (p : Program) (r : Machine.Result) : Prop where
  machine : r.2.Homed p
  completed : ∀ v, r.1 = .ok (.completed v) → v.Reported p

variable {p : Program} {m : Machine} {f : Frame} {below : List Frame} {s : Step} {c : Call}
  {a : Application} {scopes : Scopes} {v : Value}

/-! ## Values and frames -/

namespace Value

theorem homed_of_primitive {q : Primitive} (h : v.primitive? = some q) : v.Homed p := by
  cases v <;> first | exact trivial | cases h

theorem Homed.clean (h : v.Homed p) : v.Clean := by
  induction v with
  | method _ _ _ ih => exact ih h.2
  | exception => exact h
  | _ => trivial

theorem Homed.reported (h : v.Homed p) : v.Reported p := by
  cases v with
  | exception => exact h.elim
  | _ => exact h

theorem Reported.homed (h : v.Reported p) (hv : v.exception? = none) : v.Homed p := by
  cases v with
  | exception => cases hv
  | _ => exact h

end Value

theorem Frame.Homed.clean (h : f.Homed p) : f.Clean :=
  ⟨fun v hv => (h.operands v hv).clean, fun v hv => (h.this v hv).clean⟩

theorem Frame.Stands.homed (h : f.Stands p scopes) : f.Homed p := by
  rcases h with h | ⟨a, h⟩
  · exact h.toHomed
  · exact h.toHomed

theorem Stacked.homed {frames : List Frame} (h : Stacked p scopes frames) :
    ∀ f ∈ frames, f.Homed p := by
  cases frames with
  | nil => nofun
  | cons f below => exact List.forall_mem_cons.2 ⟨h.1.homed, fun g hg => (h.2 g hg).toHomed⟩

theorem stacked_of_ofUser {frames : List Frame} (h : ∀ f ∈ frames, f.OfUser p) :
    Stacked p scopes frames := by
  cases frames with
  | nil => trivial
  | cons f below => exact ⟨.inl (h f List.mem_cons_self), fun g hg => h g (by simp [hg])⟩

theorem Machine.Homed.clean (h : m.Homed p) : m.Clean where
  store := ⟨fun id d v hv => (h.store.scopes id d v hv).clean,
    fun id v hv => (h.store.remembered id v hv).clean⟩
  frames f hf := (h.frames.homed f hf).clean
  streams s v hv := (h.streams s v hv).clean.given
  pending x hx := (h.pending x hx).clean.given
  result v hv hno := ((h.result v hv).homed hno).clean

/-- A frame with other values. -/
theorem Frame.Homed.withOperands (h : f.Homed p) {vs : List Value} (hvs : ∀ v ∈ vs, v.Homed p) :
    Frame.Homed p { f with operands := vs } :=
  ⟨hvs, h.this, h.creator, h.caller, h.phase⟩

/-- A frame that runs on, elsewhere or at its next step. -/
theorem Frame.Homed.runs (h : f.Homed p) (pc : Nat) :
    Frame.Homed p { f with pc, phase := .running } :=
  ⟨h.operands, h.this, h.creator, h.caller, nofun⟩

/-- A frame that unwinds. -/
theorem Frame.Homed.unwinding (h : f.Homed p) {e : Exception} (he : ¬p.InBasis e.node) :
    Frame.Homed p { f with phase := .unwinding e } :=
  ⟨h.operands, h.this, h.creator, h.caller, fun e' he' => by cases he'; exact he⟩

namespace Frame.OfUser

variable (h : f.OfUser p)
include h

theorem withOperands {vs : List Value} (hvs : ∀ v ∈ vs, v.Homed p) :
    OfUser p { f with operands := vs } :=
  ⟨h.toHomed.withOperands hvs, h.definition, h.steps⟩

theorem moved (pc : Nat) : OfUser p { f with pc } :=
  ⟨⟨h.operands, h.this, h.creator, h.caller, h.phase⟩, h.definition, h.steps⟩

theorem runs (pc : Nat) : OfUser p { f with pc, phase := .running } :=
  ⟨h.toHomed.runs pc, h.definition, h.steps⟩

theorem unwinding {e : Exception} (he : ¬p.InBasis e.node) :
    OfUser p { f with phase := .unwinding e } :=
  ⟨h.toHomed.unwinding he, h.definition, h.steps⟩

end Frame.OfUser

namespace Frame.Performs

variable (h : f.Performs p scopes a)
include h

theorem withOperands {vs : List Value} (hvs : ∀ v ∈ vs, v.Homed p) :
    Performs p scopes { f with operands := vs } a :=
  ⟨h.toHomed.withOperands hvs, h.definition, h.method, h.steps, h.receiver, h.value, h.fails⟩

theorem runs (pc : Nat) : Performs p scopes { f with pc, phase := .running } a :=
  ⟨h.toHomed.runs pc, h.definition, h.method, h.steps, h.receiver, h.value, nofun⟩

theorem unwinding {e : Exception} (he : a.action f.creator = .raise e) :
    Performs p scopes { f with phase := .unwinding e } a := by
  have hnode : e.node = f.creator := by
    unfold Application.action at he
    split at he <;> cases he
    rfl
  exact ⟨h.toHomed.unwinding (hnode ▸ h.creator), h.definition, h.method, h.steps, h.receiver,
    h.value, fun e' he' => by cases he'; exact he⟩

end Frame.Performs

/-! ## What a step leaves -/

namespace Program

section
variable (hp : p.Unmixed) (hm : m.Homed p) (hf : f.OfUser p) (hb : ∀ g ∈ below, g.OfUser p)
variable (hs : p.UserCode s.node)
include hp hm hf hb hs

/-- What arises in a frame of a user is homed, or an exception outside the basis. -/
theorem reported_of_arises (h : p.Arises m f below s v) : v.Reported p := by
  have hnode : ¬p.InBasis s.node := hs.not_inBasis hp.acyclic
  cases h with
  | exception he =>
    rcases he with he | he
    · exact fun h => hnode (he ▸ h)
    · exact fun h => hf.creator (he ▸ h)
  | primitive hq => exact (Value.homed_of_primitive hq).reported
  | operand hv => exact (hf.operands v hv).reported
  | remembered hv => exact (hm.store.remembered _ v hv).reported
  | bound hv => exact (hm.store.scopes _ _ v hv).reported
  | stream hv => exact (hm.streams _ v hv).reported
  | this hg hv =>
    rcases List.mem_cons.1 hg with rfl | hg
    · exact (hf.this v hv).reported
    · exact ((hb _ hg).this v hv).reported
  | function hd | structureDef hd => exact hp.inherited.name _ _ _ _ hs hd rfl
  | method hv hd =>
    have hinstance := hf.operands _ hv
    exact ⟨.inl (hp.inherited.member hinstance hd rfl), hinstance⟩
  | member hv hd => exact hp.inherited.member (hf.operands _ hv) hd rfl
  | primitiveMethod hv hd =>
    exact ⟨.inr (List.mem_map.2 ⟨_, Basis.mem_functions hd, rfl⟩), hf.operands _ hv⟩
  | ownFunction =>
    cases hthis : f.this with
    | none => exact hs
    | some w => exact ⟨.inl hs, hf.this w hthis⟩
  | ownStructure | instanceOf => exact hs

/-- Only methods lead from code of a user to the basis. -/
theorem homed_of_callsFrom (h : p.CallsFrom m f below s c) (hc : ∀ v ∈ c.arguments, v.Clean) :
    c.Homed p := by
  have arisen {v : Value} (hv : p.Arises m f below s v) : v.Reported p :=
    reported_of_arises hp hm hf hb hs hv
  have hcreator : ¬p.InBasis c.creator := h.creator ▸ hs.not_inBasis hp.acyclic
  have harguments : ∀ v ∈ c.arguments, v.Homed p := fun v hv =>
    (arisen (h.arguments v hv)).homed (hc v hv).exception?_eq_none
  have hcaller : p.IsCall c.creator := h.creator ▸ h.caller
  obtain ⟨v, hof, hv⟩ := h.callee
  have hv := arisen hv
  cases hof with
  | function hthis | structureDef hthis =>
    exact ⟨hcreator, hcaller, .inl hv, fun w hw => (by rw [hthis] at hw; cases hw), harguments⟩
  | method hthis =>
    refine ⟨hcreator, hcaller, hv.1.imp_right fun hd => ⟨hd, by rw [hthis]; rfl⟩, ?_, harguments⟩
    intro w hw
    cases hthis.symm.trans hw
    exact hv.2

/-- **What a step of a user leaves** is homed, and what it raises is outside the basis. -/
theorem execute_user :
    (p.execute m f below s).1.OfUser p ∧ (p.execute m f below s).2.1.store.Homed p ∧
      (∀ e, (p.execute m f below s).2.2 = .raise e → ¬p.InBasis e.node) ∧
      ∀ c, (p.execute m f below s).2.2 = .call c → c.Homed p := by
  have arisen {v : Value} (hv : p.Arises m f below s v) : v.Reported p :=
    reported_of_arises hp hm hf hb hs hv
  have hleaves := leavesArisen_execute (p := p) m f below s
  obtain ⟨vs, hframe, -⟩ := execute_frame (p := p) m f below s
  obtain ⟨hcleanFrame, hcleanStore, hcleanAction⟩ := execute_clean (p := p) hm.clean
    hf.toHomed.clean (fun g hg => (hb g hg).toHomed.clean) s
  -- What arises is reported, and what is left is clean: it is no exception, so it is homed.
  have hscopes : (p.execute m f below s).2.1.store.scopes.All (Value.Reported p) := by
    have hkept : m.store.scopes.All (Value.Reported p) :=
      fun id d v hv => (hm.store.scopes id d v hv).reported
    rcases hleaves.scopes with hscopes | ⟨-, v, hv, hscopes⟩ <;> rw [hscopes]
    · exact hkept
    · exact hkept.define (arisen hv)
  refine ⟨?_, ⟨fun id d v hv => ?_, fun id v hv => ?_⟩, fun e he => ?_, fun c hc => ?_⟩
  · have hoperands : ∀ v ∈ (p.execute m f below s).1.operands, v.Homed p := fun v hv =>
      (arisen (hleaves.operands v hv)).homed (hcleanFrame.operands v hv).exception?_eq_none
    rw [hframe] at hoperands ⊢
    exact hf.withOperands hoperands
  · exact (hscopes id d v hv).homed (hcleanStore.scopes id d v hv).exception?_eq_none
  · exact (arisen (hleaves.remembered id v hv)).homed
      (hcleanStore.remembered id v hv).exception?_eq_none
  · exact arisen (hleaves.acts.raises e he)
  · refine homed_of_callsFrom hp hm hf hb hs (hleaves.acts.calls c hc) ?_
    rw [hc] at hcleanAction
    exact hcleanAction.2

end

/-- The frame has all that its operation needs, so its value is that of the operation. -/
theorem nativeValue_of_performs (hf : f.Performs p scopes a) :
    p.nativeValue scopes f a.body a.operation =
      match a.operation.apply a.receiver a.value with
      | .ok v => v
      | .error kind => .exception ⟨kind, f.creator⟩ := by
  obtain ⟨q, n, hmethod⟩ := hf.method
  have hinput : (f.definition.bind fun d => (p.inputs d).head?) = some a.input := by
    rw [hf.definition, Option.bind_some, hmethod.inputs_eq, List.head?_cons]
  unfold nativeValue
  dsimp only
  cases happly : a.operation.apply a.receiver a.value with
  | ok v => simp only [hf.receiver, hinput, Option.bind_some, hf.value, happly]
  | error kind => simp only [hf.receiver, hinput, Option.bind_some, hf.value, happly]

/-- **The step of a primitive method** leaves the value of the operation, or raises its
    failure at the creator of the frame; it changes nothing else. -/
theorem execute_performs (below : List Frame) (hf : f.Performs p m.store.scopes a)
    (hs : s ∈ f.steps.toList) :
    (∃ v, v.Homed p ∧ a.action f.creator = .proceed ∧
      p.execute m f below s = (f.push v, m, .proceed)) ∨
    ∃ e, a.action f.creator = .raise e ∧ p.execute m f below s = (f, m, .raise e) := by
  obtain ⟨q, n, hmethod⟩ := hf.method
  rw [hf.steps, List.mem_singleton] at hs
  subst hs
  have hrun : p.execute m f below ⟨a.body, .startFinish⟩ =
      p.leave m below ⟨a.body, .startFinish⟩
        ⟨p.nativeValue m.store.scopes f a.body a.operation, f, false⟩ := by
    simp only [execute, finish, hmethod.body]
  have hgives := a.operation.gives_apply a.receiver a.value
  rw [hrun, nativeValue_of_performs hf, Application.action]
  cases happly : a.operation.apply a.receiver a.value with
  | error kind => exact .inr ⟨_, rfl, leave_of_exception rfl⟩
  | ok v =>
    rw [happly] at hgives
    obtain ⟨q, hq⟩ := Option.isSome_iff_exists.1 hgives
    have hv : v.Homed p := Value.homed_of_primitive hq
    refine .inl ⟨v, hv, rfl, ?_⟩
    rw [leave_of_value hv.clean.exception?_eq_none]
    simp [kept]

/-! ## Opening frames -/

/-- An input without a value is missed by the caller. -/
theorem node_of_callScope_error {e : Exception} (h : p.callScope c = .error e) :
    e.node = c.creator := by
  unfold callScope at h
  split at h <;> cases h
  rfl

/-- A call of code of a user opens a frame of a user, and the call of a method of the basis
    gives it the receiver and the input. -/
theorem stands_openFrame (hp : p.Unmixed) (hc : c.Homed p) {scope : Scope}
    (hscope : p.callScope c = .ok scope) :
    (p.openFrame c (scopes.add scope).1).Stands p (scopes.add scope).2 := by
  have hframe : (p.openFrame c (scopes.add scope).1).Homed p :=
    ⟨nofun, hc.this, hc.creator, fun _ _ => hc.caller, nofun⟩
  rcases hc.definition with hd | ⟨hd, hthis⟩
  · refine .inl ⟨hframe, fun d hd' => ?_, fun s hs => ?_⟩
    · cases hd'
      exact hd
    · exact hp.inherited.compileBody hp.acyclic hd hs
  · obtain ⟨q, n, op, input, body, hmethod⟩ := hp.basis.exists_method hd
    obtain ⟨receiver, hreceiver⟩ := Option.isSome_iff_exists.1 hthis
    have hinput : input ∈ p.inputs c.definition := by
      rw [hmethod.inputs_eq]
      exact List.mem_singleton_self input
    have hbound : (scope.bindings.get? input).isSome := ((callScope_ok hscope).2.1 input).2 hinput
    obtain ⟨v, hv⟩ := Option.isSome_iff_exists.1 hbound
    refine .inr ⟨⟨c.definition, op, input, body, receiver, v⟩, hframe, rfl, ⟨q, n, hmethod⟩, ?_,
      hreceiver, ?_, nofun⟩
    · exact hmethod.compileBody_eq hp.acyclic
    · exact Scopes.lookup_of_own? ((Scopes.own?_add_new scopes scope input).trans hv)

/-- The inputs of a call are homed. -/
theorem homed_callScope (hc : c.Homed p) {scope : Scope} (h : p.callScope c = .ok scope) :
    ∀ d v, scope.bindings.get? d = some v → v.Homed p := by
  intro d v hv
  rcases (callScope_ok h).2.2 d v hv with hv | ⟨q, hq⟩
  · exact hc.arguments v hv
  · exact Value.homed_of_primitive hq

end Program

/-! ## Steps keep machines homed -/

namespace Machine

variable {limits : Limits}

/-- A machine stays homed with such frames. -/
theorem Homed.withFrames (h : m.Homed p) {frames : List Frame}
    (hf : Stacked p m.store.scopes frames) : Machine.Homed p { m with frames } :=
  ⟨h.store, hf, h.streams, h.pending, h.result⟩

theorem Homed.beginRun (hp : p.Unmixed) (h : m.Homed p) (reevaluating : Bool) :
    (m.beginRun p reevaluating).Homed p := by
  refine ⟨⟨h.store.scopes.add nofun, h.store.remembered⟩, ⟨.inl ?_, nofun⟩, h.streams, h.pending,
    nofun⟩
  exact ⟨⟨nofun, nofun, hp.program.not_inBasis hp.acyclic, nofun, nofun⟩, nofun,
    fun s hs => hp.inherited.compile hp.acyclic hp.program hs⟩

theorem Homed.endRun (hp : p.Unmixed) (h : m.Homed p) (hv : v.Reported p) :
    (m.endRun p v).Homed p := by
  have hended : Machine.Homed p { m with frames := [], result := some v, runs := m.runs + 1 } :=
    ⟨h.store, trivial, h.streams, h.pending, fun w hw => by cases hw; exact hv⟩
  rcases endRun_cases p m v with ⟨-, he⟩ | ⟨id, input, pending, hpending, he⟩ <;> rw [he]
  · exact hended
  · obtain ⟨hinput, hpending⟩ := List.forall_mem_cons.1 (hpending ▸ h.pending)
    exact Homed.beginRun (m := { m with
        frames := [], result := some v, runs := m.runs + 1, pending := pending,
        streams := m.streams.insert id input }) hp
      ⟨hended.store, hended.frames, forall_stream_insert hinput h.streams, hpending,
        hended.result⟩ true

theorem Homed.raise (h : m.Homed p) (hf : f.OfUser p) (hb : ∀ g ∈ below, g.OfUser p)
    {e : Exception} (he : ¬p.InBasis e.node) : Result.Homed p (m.raise f below s e) :=
  ⟨h.withFrames ⟨.inl (hf.unwinding he), hb⟩, nofun⟩

section
variable (hp : p.Unmixed) (h : m.Homed p) (hb : ∀ g ∈ below, g.OfUser p)
include hp h hb

/-- A frame that is done leaves a homed value to a frame of a user, or as the result. -/
theorem Homed.settle (hf : f.Stands p m.store.scopes) :
    Result.Homed p (m.settle p f below s) := by
  unfold Machine.settle complete
  split
  · split
    · exact ⟨h.withFrames (stacked_of_ofUser hb), nofun⟩
    · next v vs hops =>
      have hv : v.Reported p := (hf.homed.operands v (by simp [hops])).reported
      exact ⟨h.endRun hp hv, fun w hw => by cases hw; exact hv⟩
    · next v vs caller rest hops =>
      obtain ⟨hcaller, hrest⟩ := List.forall_mem_cons.1 hb
      have hpushed : (caller.push v).OfUser p := hcaller.withOperands
        (List.forall_mem_cons.2 ⟨hf.homed.operands v (by simp [hops]), hcaller.operands⟩)
      exact ⟨h.withFrames ⟨.inl hpushed, hrest⟩, nofun⟩
  · exact ⟨h.withFrames ⟨hf, hb⟩, nofun⟩

variable (hf : f.OfUser p)
include hf

/-- A call opens a frame above that of a user, or is refused there. -/
theorem Homed.enter (hc : c.Homed p) : Result.Homed p (m.enter p limits f below s c) := by
  unfold Machine.enter
  split
  · exact h.raise hf hb hc.creator
  · split
    · next e he => exact h.raise hf hb (Program.node_of_callScope_error he ▸ hc.creator)
    · next scope hscope =>
      refine ⟨⟨⟨h.store.scopes.add (Program.homed_callScope hc hscope), h.store.remembered⟩, ?_,
        h.streams, h.pending, h.result⟩, nofun⟩
      exact ⟨Program.stands_openFrame hp hc hscope, List.forall_mem_cons.2 ⟨hf, hb⟩⟩

theorem Homed.act {action : Action} (hraise : ∀ e, action = .raise e → ¬p.InBasis e.node)
    (hcall : ∀ c, action = .call c → c.Homed p) :
    Result.Homed p (m.act p limits f below s action) := by
  cases action with
  | proceed => exact h.settle hp hb (.inl hf)
  | skip count => exact h.settle hp hb (.inl (hf.moved _))
  | jump offset =>
    unfold Machine.act
    dsimp only
    split
    · exact ⟨h.withFrames ⟨.inl hf, hb⟩, nofun⟩
    · exact h.settle hp hb (.inl (hf.moved _))
  | raise e => exact h.raise hf hb (hraise e rfl)
  | call c => exact h.enter hp hb hf (hcall c rfl)

end

/-- A frame that unwinds hands its exception to a frame of a user, or gives it as the
    result. -/
theorem Homed.unwind (hp : p.Unmixed) (h : m.Homed p) (hb : ∀ g ∈ below, g.OfUser p)
    {e : Exception} (he : ¬p.InBasis e.node) : Result.Homed p (m.unwind p f below e) := by
  cases below with
  | nil => exact ⟨h.endRun hp he, fun v hv => by cases hv; exact he⟩
  | cons caller rest =>
    obtain ⟨hcaller, hrest⟩ := List.forall_mem_cons.1 hb
    exact ⟨h.withFrames ⟨.inl (hcaller.unwinding he), hrest⟩, nofun⟩

/-- **Each step keeps a machine homed.** -/
theorem Homed.step (hp : p.Unmixed) (h : m.Homed p) : Result.Homed p (m.step p limits) := by
  cases hm : m.frames with
  | nil =>
    rw [step_closed hm]
    exact ⟨h, nofun⟩
  | cons f below =>
    have hframes := h.frames
    rw [hm] at hframes
    obtain ⟨hf, hb⟩ := hframes
    cases he : f.exception? with
    | some e =>
      rw [step_unwinding hm (f.exception?_eq_some_iff.1 he)]
      exact h.unwind hp hb (hf.homed.phase e he)
    | none =>
      cases hc : f.code with
      | nil =>
        rw [step_stuck hm he hc]
        refine ⟨h.withFrames ⟨?_, hb⟩, nofun⟩
        exact hf.imp (·.runs f.pc) fun ⟨a, ha⟩ => ⟨a, ha.runs f.pc⟩
      | cons s rest =>
        have hs : s ∈ f.steps.toList :=
          Frame.mem_steps_of_mem_code (by rw [hc]; exact List.mem_cons_self)
        rcases hf with hf | ⟨a, hf⟩
        · have hadvance : f.advance.OfUser p := hf.runs (f.pc + 1)
          have hleft := Program.execute_user hp h hadvance hb (hf.steps s hs)
          obtain ⟨store, hstore, -⟩ := Program.execute_machine (p := p) m f.advance below s
          rcases hr : p.execute m f.advance below s with ⟨g, m₁, action⟩
          rw [hr] at hleft hstore
          cases hstore
          obtain ⟨hg, hkept, hraise, hcall⟩ := hleft
          rw [step_running hm he hc hr]
          have hm₁ : Machine.Homed p
              { m with frames := [], store := store, stepsTaken := m.stepsTaken + 1 } :=
            ⟨hkept, trivial, h.streams, h.pending, h.result⟩
          exact hm₁.act hp hb hg hraise hcall
        · have hadvance : f.advance.Performs p m.store.scopes a := hf.runs (f.pc + 1)
          have hm₁ : Machine.Homed p { m with stepsTaken := m.stepsTaken + 1 } :=
            ⟨h.store, h.frames, h.streams, h.pending, h.result⟩
          rcases Program.execute_performs below hadvance hs with
            ⟨v, hv, -, hr⟩ | ⟨e, haction, hr⟩ <;> rw [step_running hm he hc hr]
          · have hpushed : (f.advance.push v).Performs p m.store.scopes a := hadvance.withOperands
              (List.forall_mem_cons.2 ⟨hv, hadvance.operands⟩)
            exact hm₁.settle hp hb (.inr ⟨a, hpushed⟩)
          · exact ⟨hm₁.withFrames ⟨.inr ⟨a, hadvance.unwinding haction⟩, hb⟩, nofun⟩

/-! ## After every history -/

/-- Every history leaves the machine homed, if the values of streams are homed. -/
theorem Reachable.homed (hp : p.Unmixed) (h : Reachable p limits (Value.Homed p) m) :
    m.Homed p := by
  refine h.induct (fun memo => ?_) (fun m h => ?_) (fun m h => h.beginRun hp true)
    (fun m h => (h.step hp).machine) fun m m' n v h hv hinput => ?_
  · exact ⟨⟨Scopes.all_empty, fun _ _ hv => by cases hv⟩, trivial, nofun, nofun, nofun⟩
  · exact Homed.beginRun (m := { m with store := { m.store with remembered := .empty } }) hp
      ⟨⟨h.store.scopes, fun _ _ hv => by cases hv⟩, h.frames, h.streams, h.pending, h.result⟩
      false
  · obtain ⟨id, -, ⟨-, rfl⟩ | ⟨-, rfl⟩⟩ := streamInput_cases hinput
    · exact Homed.beginRun (m := { m with streams := m.streams.insert id v }) hp
        ⟨h.store, h.frames, forall_stream_insert hv h.streams, h.pending, h.result⟩ true
    · exact ⟨h.store, h.frames, h.streams,
        List.forall_mem_append.2 ⟨h.pending, List.forall_mem_singleton.2 hv⟩, h.result⟩

/-- Whatever a homed machine stores is homed. -/
theorem Homed.stores (h : m.Homed p) (hv : m.Stores v) : v.Homed p := by
  induction hv with
  | value hv =>
    unfold values at hv
    rw [List.mem_reverse] at hv
    obtain ⟨f, hf, hv⟩ := List.mem_flatMap.1 hv
    exact (h.frames.homed f hf).operands _ hv
  | receiver hf hv => exact (h.frames.homed _ hf).this _ hv
  | remembered hv => exact h.store.remembered _ _ hv
  | bound hv => exact h.store.scopes _ _ _ hv
  | @result d closure w hw => exact (h.result (.method d closure w) hw).2
  | this _ ih => exact ih.2

/-- Whatever a homed machine has is reported. -/
theorem Homed.has (h : m.Homed p) (hv : m.Has v) : v.Reported p :=
  hv.elim (fun hv => (h.stores hv).reported) (h.result v)

end Machine

end Arbor
