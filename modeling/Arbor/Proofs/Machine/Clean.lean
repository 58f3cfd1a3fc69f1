/-
  Exceptions are no data.

  An exception is raised, and never kept: before a value is left, given to a call, bound in
  a scope or remembered, it was looked at, and an exception unwinds the frames instead.
  Streams may have exceptions as values, because taking such a value raises it.

  Main statements: `execute_clean`, what a step leaves and asks for; `Reachable.clean`, the
  invariant after every history; `Reachable.stores_no_exception`, nothing that a machine
  stores is an exception, whatever the program.
-/
import Arbor.Proofs.Machine.Discipline

namespace Arbor

/-! ## Clean values -/

namespace Value

/-- The value is no exception, and no function in it was reached from one. -/
def Clean : Value → Prop
  | exception _ => False
  | method _ _ receiver => receiver.Clean
  | _ => True

/-- The value is an exception, or it is clean.  Streams take such values. -/
def Given (v : Value) : Prop := v.exception? = none → v.Clean

variable {v : Value}

theorem Clean.exception?_eq_none (h : v.Clean) : v.exception? = none := by
  cases v with
  | exception e => exact absurd h id
  | _ => rfl

theorem Clean.given (h : v.Clean) : v.Given := fun _ => h

theorem given_exception (e : Exception) : (exception e).Given := nofun

theorem clean_of_primitive {q : Primitive} (h : v.primitive? = some q) : v.Clean := by
  cases v <;> first | exact trivial | cases h

theorem clean_functionOf {d : NodeId} {closure : Option ScopeId} {this : Option Value}
    (h : ∀ v, this = some v → v.Clean) : (functionOf d closure this).Clean := by
  cases this with
  | none => exact trivial
  | some v => exact h v rfl

end Value

/-! ## Clean machines -/

/-- The values and the receiver of a frame are clean. -/
structure Frame.Clean (f : Frame) : Prop where
  operands : ∀ v ∈ f.operands, v.Clean
  this : ∀ v, f.this = some v → v.Clean

/-- The scopes hold clean values, and so does what is remembered. -/
structure Store.Clean (s : Store) : Prop where
  scopes : s.scopes.All Value.Clean
  remembered : ∀ id v, s.remembered.get? id = some v → v.Clean

/-- A machine holds clean values; only streams and the result may be exceptions. -/
structure Machine.Clean (m : Machine) : Prop where
  store : m.store.Clean
  frames : ∀ f ∈ m.frames, f.Clean
  streams : ∀ s v, m.streams.get? s = some v → v.Given
  pending : ∀ x ∈ m.pending, x.2.Given
  result : ∀ v, m.result = some v → v.Given

namespace Store.Clean

variable {s : Store} (h : s.Clean)
include h

theorem addScope {scope : Scope} (hs : ∀ d v, scope.bindings.get? d = some v → v.Clean) :
    (s.addScope scope).2.Clean :=
  ⟨h.scopes.add hs, h.remembered⟩

theorem remember (p : Program) {id : NodeId} {v : Value} (hv : v.Clean) :
    (s.remember p id v).Clean := by
  refine ⟨h.scopes, fun id' w hw => ?_⟩
  rcases s.remembered_remember p id v with e | e <;> rw [e] at hw
  · exact h.remembered id' w hw
  · rw [NodeMap.get?_insert] at hw
    split at hw
    · cases hw; exact hv
    · exact h.remembered id' w hw

/-- What is kept for a node is clean if the value of the node is. -/
theorem kept {p : Program} {below : List Frame} {step : Step} {r : Program.Finished}
    (hv : r.value.Clean) : (p.kept s below step r).Clean := by
  have defined : (if r.binds then s.define r.frame.scope step.node r.value else s).Clean := by
    split
    · exact ⟨h.scopes.define hv, h.remembered⟩
    · exact h
  unfold Program.kept
  dsimp only
  split
  · exact defined.remember p hv
  · exact defined

end Store.Clean

namespace Frame.Clean

variable {f : Frame} (h : f.Clean)
include h

theorem push {v : Value} (hv : v.Clean) : (f.push v).Clean := by
  refine ⟨fun w hw => ?_, h.this⟩
  rcases List.mem_cons.1 hw with rfl | hw
  · exact hv
  · exact h.operands w hw

theorem drop (count : Nat) : (f.drop count).Clean :=
  ⟨fun w hw => h.operands w (List.mem_of_mem_drop hw), h.this⟩

/-- The latest value is clean, or the exception for none. -/
theorem top (id : NodeId) : (f.top id).Given := by
  unfold Frame.top
  cases ho : f.operands with
  | nil => exact Value.given_exception _
  | cons v vs => exact (h.operands v (by simp [ho])).given

end Frame.Clean

/-! ## What steps leave and ask for -/

/-- The action calls nothing but clean values. -/
def Action.Clean : Action → Prop
  | .call c => (∀ v, c.this = some v → v.Clean) ∧ ∀ v ∈ c.arguments, v.Clean
  | _ => True

/-- The result of an operation is a clean value, if it is a value. -/
def NativeOp.CleanResult : Except ExceptionKind Value → Prop
  | .ok v => v.Clean
  | .error _ => True

namespace NativeOp

variable {x y : Value}

theorem clean_onNumbers {f : Float → Float → Except ExceptionKind Value}
    (h : ∀ a b, CleanResult (f a b)) : CleanResult (onNumbers x y f) := by
  unfold onNumbers
  split
  · exact h _ _
  · exact trivial

theorem clean_divide (a b : Float) : CleanResult (divide a b) := by
  unfold divide
  split <;> exact trivial

theorem clean_onBooleans {f : Bool → Bool → Bool} : CleanResult (onBooleans x y f) := by
  unfold onBooleans
  split <;> exact trivial

theorem clean_onTexts {f : String → String → Value} (h : ∀ a b, (f a b).Clean) :
    CleanResult (onTexts x y f) := by
  unfold onTexts
  split
  · exact h _ _
  · exact trivial

/-- An operation gives a primitive value, or fails. -/
theorem clean_apply (op : NativeOp) : CleanResult (op.apply x y) := by
  cases op with
  | numberDivide => exact clean_onNumbers clean_divide
  | booleanAnd | booleanOr | booleanEqual => exact clean_onBooleans
  | textConcatenate | textEqual => exact clean_onTexts fun _ _ => trivial
  | _ => exact clean_onNumbers fun _ _ => trivial

end NativeOp

namespace Program

variable {p : Program} {m : Machine} {f : Frame} {below : List Frame}

theorem given_getD {o : Option Value} {v : Value} (ho : ∀ w, o = some w → w.Given)
    (hv : v.Given) : (o.getD v).Given := by
  cases o with
  | none => exact hv
  | some w => exact ho w rfl

theorem clean_method? {receiver v : Value} {n : Name} (hr : receiver.Clean)
    (h : p.method? receiver n = some v) : v.Clean := by
  unfold method? at h
  split at h
  · split at h
    · cases h; exact hr
    · cases h
  · obtain ⟨f, -, rfl⟩ := Option.map_eq_some_iff.1 h
    exact hr

theorem given_propertyValue {scopes : Scopes} (hs : scopes.All Value.Clean) {receiver : Value}
    (hr : receiver.Given) (id : NodeId) (n : Name) :
    (p.propertyValue scopes id receiver n).Given := by
  have missing : (Value.exception ⟨.name n, id⟩).Given := Value.given_exception _
  unfold propertyValue
  dsimp only
  split
  · exact Value.given_exception _
  · split
    · exact given_getD (fun w hw => (hs.lookup hw).given) missing
    · exact Value.Clean.given (v := .method ..) (hr rfl)
    · exact Value.Clean.given (v := .definition ..) trivial
    · exact missing
  · next hexception _ =>
    have hclean : receiver.Clean := hr (by
      cases receiver <;> first | rfl | exact absurd rfl (hexception _))
    exact given_getD (fun w hw => (clean_method? hclean hw).given) missing

theorem given_nativeValue {scopes : Scopes} (id : NodeId) (op : NativeOp) :
    (p.nativeValue scopes f id op).Given := by
  unfold nativeValue
  dsimp only
  split
  · exact Value.given_exception _
  · split
    · exact Value.given_exception _
    · next receiver _ _ v _ =>
      have applied := NativeOp.clean_apply (x := receiver) (y := v) op
      split
      · next w hw => rw [hw] at applied; exact Value.Clean.given applied
      · exact Value.given_exception _

theorem given_referenceValue (hm : m.Clean) (hf : f.Clean) (hb : ∀ g ∈ below, g.Clean)
    (id : NodeId) (n : Name) : (p.referenceValue m f below id n).Given := by
  have missing : (Value.exception ⟨.name n, id⟩).Given := Value.given_exception _
  have bound (d : NodeId) {v : Value} (hv : v.Given) :
      ((m.store.scopes.lookup f.scope d).getD v).Given :=
    given_getD (fun _ hw => (hm.store.scopes.lookup hw).given) hv
  unfold referenceValue
  dsimp only
  split
  · exact bound _ missing
  · exact bound _ (Value.Clean.given (v := .function ..) trivial)
  · exact bound _ (Value.Clean.given (v := .definition ..) trivial)
  · next s _ => exact given_getD (hm.streams s) (Value.given_exception _)
  · exact missing
  · split
    · refine given_getD (fun v hthis => ?_) missing
      obtain ⟨g, hg, hv⟩ := List.exists_of_findSome?_eq_some hthis
      rcases List.mem_cons.1 hg with rfl | hg
      · exact (hf.this v hv).given
      · exact ((hb g hg).this v hv).given
    · exact missing

/-- The value of a finish is clean or an exception, and the frame has lost values only. -/
theorem clean_finish (hm : m.Clean) (hf : f.Clean) (hb : ∀ g ∈ below, g.Clean) {s : Step}
    {prior : Option Value} (hprior : ∀ v, prior = some v → v.Clean) :
    (p.finish m f below s prior).value.Given ∧ (p.finish m f below s prior).frame.Clean := by
  have hpassed : (passed prior f s.node).value.Given ∧ (passed prior f s.node).frame.Clean := by
    cases prior with
    | none => exact ⟨hf.top s.node, hf.drop 1⟩
    | some v => exact ⟨(hprior v rfl).given, hf⟩
  have raised (e : Exception) : (Value.exception e).Given := Value.given_exception e
  unfold finish
  dsimp only
  cases hn : p.node? s.node with
  | none => exact ⟨raised _, hf⟩
  | some n =>
    cases n with
    | booleanLiteral | numberLiteral | textLiteral =>
      exact ⟨by simp [literal?, hn, Value.Given, Value.Clean, Value.ofBits], hf⟩
    | reference n => exact ⟨given_referenceValue hm hf hb s.node n, hf⟩
    | propertyReference receiver n =>
      cases prior with
      | none => exact ⟨given_propertyValue hm.store.scopes (hf.top s.node) s.node n, hf.drop 1⟩
      | some v => exact ⟨(hprior v rfl).given, hf⟩
    | binaryOperation | evaluate | conditional | program => exact hpassed
    | block ss =>
      cases prior with
      | none =>
        dsimp only
        split
        · exact ⟨raised _, hf⟩
        · exact ⟨hf.top s.node, hf.drop _⟩
      | some v => exact ⟨(hprior v rfl).given, hf⟩
    | bind ns type value =>
      cases prior with
      | some v => exact ⟨(hprior v rfl).given, hf⟩
      | none =>
        cases value with
        | none => exact ⟨raised _, hf⟩
        | some value => exact ⟨hf.top s.node, hf.drop 1⟩
    | functionDefinition ns vs is output body =>
      exact ⟨(Value.clean_functionOf hf.this).given, hf⟩
    | structureDefinition ns fs vs is body =>
      dsimp only
      split
      · exact ⟨fun _ => trivial, hf.drop _⟩
      · exact ⟨fun _ => trivial, hf⟩
    | native op => exact ⟨given_nativeValue s.node op, hf⟩
    | _ => exact ⟨raised _, hf⟩

/-- A value is left only if it is no exception. -/
theorem clean_leave (hm : m.Clean) {s : Step} {r : Finished} (hv : r.value.Given)
    (hf : r.frame.Clean) : (p.leave m below s r).1.Clean ∧
      (p.leave m below s r).2.1.store.Clean ∧ (p.leave m below s r).2.2.Clean := by
  cases hr : r.value.exception? with
  | some e =>
    rw [leave_of_exception (Value.eq_exception hr)]
    exact ⟨hf, hm.store, trivial⟩
  | none =>
    rw [leave_of_value hr]
    exact ⟨hf.push (hv hr), hm.store.kept (hv hr), trivial⟩

/-- The values that are taken for an evaluation are clean, if no exception is among them. -/
theorem clean_taken (hf : f.Clean) {id : NodeId} {count : Nat}
    (h : (taken f id count).findSome? Value.exception? = none) :
    ∀ v ∈ taken f id count, v.Clean := by
  intro v hv
  have hno := List.findSome?_eq_none_iff.1 h v hv
  unfold taken at hv
  dsimp only at hv
  rw [List.mem_reverse, List.mem_append, List.mem_replicate] at hv
  rcases hv with hv | ⟨-, rfl⟩
  · exact hf.operands v (List.mem_of_mem_take hv)
  · cases hno

theorem clean_callAction (creator : NodeId) (name : Option Name) {callee : Value}
    {arguments : List Value} (hc : callee.Clean) (ha : ∀ v ∈ arguments, v.Clean) :
    (p.callAction creator name callee arguments).Clean := by
  have function (d : NodeId) (closure : Option ScopeId) {this : Option Value}
      (ht : ∀ v, this = some v → v.Clean) :
      Action.Clean (if (p.node? d).any Node.isAbstractFunction then
        .raise ⟨.function (p.primaryName? d), creator⟩
      else .call ⟨creator, d, closure, this, arguments⟩) := by
    split
    · exact trivial
    · exact ⟨ht, ha⟩
  unfold callAction
  dsimp only
  split
  · exact function _ _ nofun
  · exact function _ _ fun v hv => by cases hv; exact hc
  · split
    · exact ⟨nofun, ha⟩
    · exact trivial
  · exact trivial

/-- A call is asked for only with clean values. -/
theorem clean_startEvaluation (hf : f.Clean) (id : NodeId) :
    (p.startEvaluation f id).2.Clean := by
  unfold startEvaluation
  split
  · dsimp only
    split
    · exact trivial
    · next left right hno htaken =>
      have hclean := clean_taken hf hno
      rw [htaken] at hclean
      split
      · next method hmethod =>
        exact clean_callAction _ _ (clean_method? (hclean left (by simp)) hmethod)
          fun v hv => hclean v (by simp_all)
      · exact trivial
    · exact trivial
  · dsimp only
    split
    · exact trivial
    · next callee arguments hno htaken =>
      have hclean := clean_taken hf hno
      rw [htaken] at hclean
      exact clean_callAction _ _ (hclean callee (by simp)) fun v hv => hclean v (by simp [hv])
    · exact trivial
  · exact trivial

/-- **What a step leaves and asks for** is clean: an exception is raised and not kept. -/
theorem execute_clean (hm : m.Clean) (hf : f.Clean) (hb : ∀ g ∈ below, g.Clean) (s : Step) :
    (p.execute m f below s).1.Clean ∧ (p.execute m f below s).2.1.store.Clean ∧
      (p.execute m f below s).2.2.Clean := by
  have leave : (p.leave m below s (p.finish m f below s (prior? m below s))).1.Clean ∧
      (p.leave m below s (p.finish m f below s (prior? m below s))).2.1.store.Clean ∧
      (p.leave m below s (p.finish m f below s (prior? m below s))).2.2.Clean := by
    have hprior : ∀ v, prior? m below s = some v → v.Clean := fun v hv =>
      hm.store.remembered s.node v (Machine.prior?_eq_some hv).2.2.2
    have hfinish := clean_finish (p := p) (s := s) hm hf hb hprior
    exact clean_leave hm hfinish.1 hfinish.2
  unfold execute
  split
  · refine ⟨hf, hm.store, ?_⟩
    unfold skipAction
    repeat' split
    all_goals exact trivial
  · exact leave
  · exact leave
  · next offset consume jumpWhen _ =>
    have hnext : (if consume then f.drop 1 else f).Clean := by
      split
      · exact hf.drop 1
      · exact hf
    dsimp only
    split
    · refine ⟨hnext, hm.store, ?_⟩
      dsimp only
      split <;> exact trivial
    · exact ⟨hnext, hm.store, trivial⟩
    · exact ⟨hnext, hm.store, trivial⟩
  · exact ⟨hf, hm.store, trivial⟩
  · refine ⟨?_, hm.store, clean_startEvaluation hf _⟩
    rw [startEvaluation_frame]
    exact hf.drop _

/-- The inputs of a call are clean. -/
theorem clean_callScope {c : Call} (hc : ∀ v ∈ c.arguments, v.Clean) {scope : Scope}
    (h : p.callScope c = .ok scope) : ∀ d v, scope.bindings.get? d = some v → v.Clean := by
  intro d v hv
  rcases (callScope_ok h).2.2 d v hv with hv | ⟨q, hq⟩
  · exact hc v hv
  · exact Value.clean_of_primitive hq

end Program

/-! ## Steps keep machines clean -/

namespace Machine

variable {p : Program} {limits : Limits} {m : Machine} {f : Frame} {below : List Frame} {s : Step}

/-- A machine stays clean with clean frames. -/
theorem Clean.withFrames (h : m.Clean) {frames : List Frame} (hf : ∀ f ∈ frames, f.Clean) :
    Machine.Clean { m with frames } :=
  ⟨h.store, hf, h.streams, h.pending, h.result⟩

theorem Clean.beginRun (h : m.Clean) (reevaluating : Bool) : (m.beginRun p reevaluating).Clean := by
  refine ⟨h.store.addScope nofun, fun f hf => ?_, h.streams, h.pending, nofun⟩
  rw [List.mem_singleton.1 hf]
  exact ⟨nofun, nofun⟩

theorem Clean.endRun (h : m.Clean) {v : Value} (hv : v.Given) : (m.endRun p v).Clean := by
  have hended : Machine.Clean { m with frames := [], result := some v, runs := m.runs + 1 } :=
    ⟨h.store, (fun _ hf => by cases hf), h.streams, h.pending, fun w hw => by cases hw; exact hv⟩
  rcases endRun_cases p m v with ⟨-, he⟩ | ⟨id, input, pending, hpending, he⟩ <;> rw [he]
  · exact hended
  · have hin (x) (hx : x ∈ (id, input) :: pending) : x.2.Given :=
      h.pending x (by rw [hpending]; exact hx)
    exact Clean.beginRun (m := { m with
        frames := [], result := some v, runs := m.runs + 1, pending := pending,
        streams := m.streams.insert id input })
      ⟨hended.store, hended.frames, forall_stream_insert (hin _ List.mem_cons_self) h.streams,
        fun x hx => hin x (List.mem_cons_of_mem _ hx), hended.result⟩ true

theorem Clean.raise (h : m.Clean) (hf : f.Clean) (hb : ∀ g ∈ below, g.Clean) (e : Exception) :
    (m.raise f below s e).2.Clean :=
  h.withFrames (List.forall_mem_cons.2 ⟨⟨hf.operands, hf.this⟩, hb⟩)

theorem Clean.settle (h : m.Clean) (hf : f.Clean) (hb : ∀ g ∈ below, g.Clean) :
    (m.settle p f below s).2.Clean := by
  unfold Machine.settle complete
  split
  · split
    · exact h.withFrames hb
    · next v vs hops => exact h.endRun (hf.operands v (by simp [hops])).given
    · next v vs caller rest hops =>
      obtain ⟨hcaller, hrest⟩ := List.forall_mem_cons.1 hb
      have hv := hf.operands v (by simp [hops])
      exact h.withFrames (List.forall_mem_cons.2 ⟨hcaller.push hv, hrest⟩)
  · exact h.withFrames (List.forall_mem_cons.2 ⟨hf, hb⟩)

theorem Clean.act (h : m.Clean) (hf : f.Clean) (hb : ∀ g ∈ below, g.Clean) {action : Action}
    (ha : action.Clean) : (m.act p limits f below s action).2.Clean := by
  have moved (pc : Nat) : Frame.Clean { f with pc } := ⟨hf.operands, hf.this⟩
  cases action with
  | proceed => exact h.settle hf hb
  | skip count => exact h.settle (moved _) hb
  | jump offset =>
    unfold Machine.act
    dsimp only
    split
    · exact h.withFrames (List.forall_mem_cons.2 ⟨hf, hb⟩)
    · exact h.settle (moved _) hb
  | raise e => exact h.raise hf hb e
  | call c =>
    unfold Machine.act enter
    dsimp only
    split
    · exact h.raise hf hb _
    · split
      · exact h.raise hf hb _
      · next scope hscope =>
        refine ⟨h.store.addScope (Program.clean_callScope ha.2 hscope), ?_, h.streams, h.pending,
          h.result⟩
        exact List.forall_mem_cons.2 ⟨⟨nofun, ha.1⟩, List.forall_mem_cons.2 ⟨hf, hb⟩⟩

/-- **Each step keeps a machine clean.** -/
theorem Clean.step (h : m.Clean) : (m.step p limits).2.Clean := by
  cases hm : m.frames with
  | nil =>
    rw [step_closed hm]
    exact h
  | cons f below =>
    obtain ⟨hf, hb⟩ := List.forall_mem_cons.1 (hm ▸ h.frames)
    cases he : f.exception? with
    | some e =>
      rw [step_unwinding hm (f.exception?_eq_some_iff.1 he)]
      cases below with
      | nil => exact h.endRun (Value.given_exception e)
      | cons caller rest =>
        obtain ⟨hcaller, hrest⟩ := List.forall_mem_cons.1 hb
        exact h.withFrames (List.forall_mem_cons.2 ⟨⟨hcaller.operands, hcaller.this⟩, hrest⟩)
    | none =>
      cases hc : f.code with
      | nil =>
        rw [step_stuck hm he hc]
        exact h.withFrames (List.forall_mem_cons.2 ⟨⟨hf.operands, hf.this⟩, hb⟩)
      | cons s rest =>
        have hadvance : f.advance.Clean := ⟨hf.operands, hf.this⟩
        have hclean := Program.execute_clean (p := p) h hadvance hb s
        obtain ⟨store, hstore, -⟩ := Program.execute_machine (p := p) m f.advance below s
        rcases hr : p.execute m f.advance below s with ⟨g, m₁, action⟩
        rw [hr] at hclean hstore
        cases hstore
        obtain ⟨hg, hkept, haction⟩ := hclean
        rw [step_running hm he hc hr]
        have hm₁ : Machine.Clean { m with store := store, stepsTaken := m.stepsTaken + 1 } :=
          ⟨hkept, h.frames, h.streams, h.pending, h.result⟩
        exact hm₁.act hg hb haction

theorem Clean.streamInput (h : m.Clean) {n : Name} {v : Value} (hv : v.Given) {m' : Machine}
    (hm : m.streamInput p n v = .ok m') : m'.Clean := by
  obtain ⟨id, -, ⟨-, rfl⟩ | ⟨-, rfl⟩⟩ := streamInput_cases hm
  · exact Clean.beginRun (m := { m with streams := m.streams.insert id v })
      ⟨h.store, h.frames, forall_stream_insert hv h.streams, h.pending, h.result⟩ true
  · refine ⟨h.store, h.frames, h.streams, fun x hx => ?_, h.result⟩
    rcases List.mem_append.1 hx with hx | hx
    · exact h.pending x hx
    · rw [List.mem_singleton.1 hx]
      exact hv

/-! ## After every history -/

/-- Every history leaves the machine clean, if the values that streams are given are
    exceptions or clean. -/
theorem Reachable.clean (h : Reachable p limits Value.Given m) : m.Clean := by
  refine h.induct (fun memo => ?_) (fun m h => ?_) (fun m h => h.beginRun true)
    (fun m h => h.step) fun m m' n v h hv hm => h.streamInput hv hm
  · exact ⟨⟨Scopes.all_empty, fun _ _ hv => by cases hv⟩, nofun, nofun, nofun, nofun⟩
  · exact Clean.beginRun (m := { m with store := { m.store with remembered := .empty } })
      ⟨⟨h.store.scopes, fun _ _ hv => by cases hv⟩, h.frames, h.streams, h.pending, h.result⟩
      false

/-- What a machine stores: the values of its frames, their receivers, what is remembered,
    what is bound in any scope, and what the functions among these and a result were
    reached from. -/
inductive Stores (m : Machine) : Value → Prop
  | value {v : Value} : v ∈ m.values → Stores m v
  | receiver {f : Frame} {v : Value} : f ∈ m.frames → f.this = some v → Stores m v
  | remembered {id : NodeId} {v : Value} : m.store.remembered.get? id = some v → Stores m v
  | bound {id : ScopeId} {d : NodeId} {v : Value} : m.store.scopes.own? id d = some v → Stores m v
  | result {d : NodeId} {closure : Option ScopeId} {v : Value} :
      m.result = some (.method d closure v) → Stores m v
  | this {d : NodeId} {closure : Option ScopeId} {v : Value} :
      Stores m (.method d closure v) → Stores m v

/-- A clean machine stores clean values. -/
theorem Clean.stores (h : m.Clean) {v : Value} (hv : m.Stores v) : v.Clean := by
  induction hv with
  | value hv =>
    unfold values at hv
    rw [List.mem_reverse] at hv
    obtain ⟨f, hf, hv⟩ := List.mem_flatMap.1 hv
    exact (h.frames f hf).operands _ hv
  | receiver hf hv => exact (h.frames _ hf).this _ hv
  | remembered hv => exact h.store.remembered _ _ hv
  | bound hv => exact h.store.scopes _ _ _ hv
  | @result d closure v hv => exact h.result (.method d closure v) hv rfl
  | this _ ih => exact ih

end Machine

end Arbor
