/-
  Machines in place.

  In a plain program every definition that a name stands for is bound where the name is
  used: the code of a frame is covered (`Covers`), and the scopes of frames and closures
  are activations of the functions around (`Lexical`).

  * `Machine.InPlace`: everything that a machine holds is in place, but for the exceptions that
    its streams were given;
  * `Machine.Leads`: what the execution of a step leaves is in place.

  Main statements: `ready_finish`, the value of a node; `leads`, the execution of a step.
-/
import Arbor.Proofs.Machine.Discipline
import Arbor.Proofs.Program.Methods
import Arbor.Proofs.Step.Coverage
import Arbor.Proofs.Value.Activation

namespace Arbor

/-! ## Machines in place -/

/-- The exception was given to a stream, or it is not about a name that stands for a definition
    which is bound. -/
def Exception.Harmless (p : Program) (given : Exception → Prop) (e : Exception) : Prop :=
  given e ∨
    ∀ n n' x, e.kind = .name n → p.node? e.node = some (.reference n') → ¬p.Stands n' e.node x

/-- The value is in place, or a harmless exception. -/
def Value.Ready (p : Program) (given : Exception → Prop) (log : Log) (scopes : Scopes) :
    Value → Prop
  | exception e => e.Harmless p given
  | v => v.Placed p log scopes

/-- The code that is left is the body of a primitive method, or it is covered where the
    frame is. -/
inductive Frame.Runs (p : Program) (log : Log) (scopes : Scopes) (f : Frame) : Prop
  | native : (∀ s ∈ f.code, s.kind = .startFinish ∧ p.IsNative s.node) → Runs p log scopes f
  | covered {around : List NodeId} : p.Lexical log scopes f.scope around →
      p.Covers around (fun x => (scopes.lookup f.scope x).isSome) f.code → Runs p log scopes f

/-- What a frame holds is in place, and it can run its code unless it is unwinding. -/
structure Frame.InPlace (p : Program) (given : Exception → Prop) (log : Log) (scopes : Scopes)
    (f : Frame) : Prop where
  operands : ∀ v ∈ f.operands, v.Placed p log scopes
  this : ∀ v, f.this = some v → v.Placed p log scopes
  phase : ∀ e, f.exception? = some e → e.Harmless p given
  runs : f.exception? = none → f.Runs p log scopes

/-- What a call is given is in place. -/
structure Call.InPlace (p : Program) (log : Log) (scopes : Scopes) (c : Call) : Prop where
  closure : c.closure = none ∧ p.IsPrimitive c.definition ∨
    ∃ s, c.closure = some s ∧ p.Closes log scopes c.definition s
  this : ∀ v, c.this = some v → v.Placed p log scopes
  arguments : ∀ v ∈ c.arguments, v.Placed p log scopes

/-- What the scopes hold and what is remembered is in place. -/
structure Store.InPlace (p : Program) (log : Log) (s : Store) : Prop where
  scopes : ∀ id x v, s.scopes.own? id x = some v → v.Placed p log s.scopes
  remembered : ∀ id v, s.remembered.get? id = some v → v.Placed p log s.scopes
  fresh : ∀ id, s.scopes.size ≤ id.index → log id = none

/-- Everything that a machine holds is in place; an input and the result of a run may be an
    exception. -/
structure Machine.InPlace (p : Program) (given : Exception → Prop) (log : Log) (m : Machine) :
    Prop where
  store : m.store.InPlace p log
  frames : ∀ f ∈ m.frames, f.InPlace p given log m.store.scopes
  streams : ∀ s v, m.streams.get? s = some v → v.Ready p given log m.store.scopes
  pending : ∀ x ∈ m.pending, x.2.Ready p given log m.store.scopes
  result : ∀ v, m.result = some v → v.Ready p given log m.store.scopes

section
variable {p : Program} {given : Exception → Prop} {log log' : Log} {scopes scopes' : Scopes}

theorem Exception.harmless_of_kind {e : Exception} (h : ∀ n, e.kind ≠ .name n) :
    e.Harmless p given :=
  .inr fun n _ _ hk => absurd hk (h n)

theorem Value.Placed.ready {v : Value} (h : v.Placed p log scopes) :
    v.Ready p given log scopes := by
  cases v with
  | exception e => exact absurd h id
  | _ => exact h

theorem Value.Placed.exception?_eq_none {v : Value} (h : v.Placed p log scopes) :
    v.exception? = none := by
  cases v with
  | exception e => exact absurd h id
  | _ => rfl

theorem Value.Ready.placed {v : Value} (h : v.Ready p given log scopes) (hv : v.exception? = none) :
    v.Placed p log scopes := by
  cases v with
  | exception e => cases hv
  | _ => exact h

theorem Value.Ready.harmless {v : Value} {e : Exception} (h : v.Ready p given log scopes)
    (hv : v = .exception e) : e.Harmless p given := by
  subst hv
  exact h

theorem Value.placed_of_primitive? {v : Value} {q : Primitive} (h : v.primitive? = some q) :
    v.Placed p log scopes := by
  cases v <;> first | exact trivial | cases h

theorem Value.placed_functionOf {d : NodeId} {s : ScopeId} {this : Option Value}
    (hd : p.Closes log scopes d s) (ht : ∀ v, this = some v → v.Placed p log scopes) :
    (Value.functionOf d (some s) this).Placed p log scopes := by
  cases this with
  | none => exact ⟨s, rfl, hd⟩
  | some v => exact ⟨.inr ⟨s, rfl, hd⟩, ht v rfl⟩

/-- What scopes bind, they give to names. -/
theorem Scopes.placed_lookup (h : ∀ id x v, scopes.own? id x = some v → v.Placed p log scopes)
    {s : ScopeId} {x : NodeId} {v : Value} (hv : scopes.lookup s x = some v) :
    v.Placed p log scopes := by
  obtain ⟨s', -, hown⟩ := Scopes.own?_of_lookup (P := fun _ => True) (fun _ _ _ _ _ _ => trivial)
    trivial hv
  exact h s' x v hown

/-! ## Later states -/

variable (hl : Later p log scopes log' scopes')
include hl

theorem Value.Ready.later {v : Value} (h : v.Ready p given log scopes) :
    v.Ready p given log' scopes' := by
  cases v with
  | exception e => exact h
  | _ => exact Value.Placed.later h hl

theorem Frame.Runs.later {f : Frame} (h : f.Runs p log scopes) : f.Runs p log' scopes' := by
  cases h with
  | native h => exact .native h
  | covered hs hc =>
    exact .covered (hl.lexical _ _ hs) (hc.mono fun x hx => hl.grows.lookup hx)

theorem Frame.InPlace.later {f : Frame} (h : f.InPlace p given log scopes) :
    f.InPlace p given log' scopes' :=
  ⟨fun v hv => (h.operands v hv).later hl, fun v hv => (h.this v hv).later hl, h.phase,
    fun he => (h.runs he).later hl⟩

theorem Call.InPlace.later {c : Call} (h : c.InPlace p log scopes) : c.InPlace p log' scopes' := by
  refine ⟨h.closure.imp_right ?_, fun v hv => (h.this v hv).later hl,
    fun v hv => (h.arguments v hv).later hl⟩
  rintro ⟨s, hs, hc⟩
  exact ⟨s, hs, hc.later hl⟩

end

/-! ## What nodes give -/

namespace NativeOp

/-- An operation gives a primitive value, or fails for another reason than a name. -/
def Gives : Except ExceptionKind Value → Prop
  | .ok v => v.primitive?.isSome
  | .error kind => ∀ n, kind ≠ .name n

theorem gives_apply (op : NativeOp) (x y : Value) : Gives (op.apply x y) := by
  have onNumbers {f : Float → Float → Except ExceptionKind Value} (h : ∀ a b, Gives (f a b)) :
      Gives (onNumbers x y f) := by
    unfold NativeOp.onNumbers
    split
    · exact h _ _
    · exact fun _ => ExceptionKind.noConfusion
  have onBooleans (f : Bool → Bool → Bool) : Gives (onBooleans x y f) := by
    unfold NativeOp.onBooleans
    split
    · rfl
    · exact fun _ => ExceptionKind.noConfusion
  have onTexts {f : String → String → Value} (h : ∀ a b, (f a b).primitive?.isSome) :
      Gives (onTexts x y f) := by
    unfold NativeOp.onTexts
    split
    · exact h _ _
    · exact fun _ => ExceptionKind.noConfusion
  cases op with
  | numberDivide =>
    refine onNumbers fun a b => ?_
    unfold divide
    split
    · exact fun _ => ExceptionKind.noConfusion
    · rfl
  | booleanAnd | booleanOr | booleanEqual => exact onBooleans _
  | textConcatenate | textEqual => exact onTexts fun _ _ => rfl
  | _ => exact onNumbers fun _ _ => rfl

end NativeOp

namespace Program

variable {p : Program} {given : Exception → Prop} {log : Log} {m : Machine} {f : Frame}
  {below : List Frame}

/-- A method of the basis has the body of a primitive method. -/
theorem OverBasis.isPrimitive (hb : p.OverBasis) {q : Primitive} {n : Name} {d : NodeId}
    (hd : p.basis.function? q n = some d) : p.IsPrimitive d := by
  obtain ⟨op, input, body, hm⟩ := hb.method hd
  obtain ⟨ns, vs, is, out, hn, -⟩ := hm.function
  exact ⟨ns, vs, is, some out, body, hn, op, hm.body⟩

theorem placed_method? (hb : p.OverBasis) {scopes : Scopes} {receiver v : Value} {n : Name}
    (hr : receiver.Placed p log scopes) (h : p.method? receiver n = some v) :
    v.Placed p log scopes := by
  unfold method? at h
  split at h
  · exact hr.elim
  · obtain ⟨d, hd, rfl⟩ := Option.map_eq_some_iff.1 h
    obtain ⟨q, -, hq⟩ := Option.bind_eq_some_iff.1 hd
    exact ⟨.inl ⟨rfl, hb.isPrimitive hq⟩, hr⟩

theorem ready_propertyValue (hb : p.OverBasis) {scopes : Scopes} {receiver : Value} {id : NodeId}
    {n : Name} (hr : receiver.Ready p given log scopes)
    (hid : ∀ n', p.node? id ≠ some (.reference n')) :
    (p.propertyValue scopes id receiver n).Ready p given log scopes := by
  unfold propertyValue
  dsimp only
  split
  · exact hr
  · exact hr.elim
  · next hno _ =>
    cases hm : p.method? receiver n with
    | none => exact .inr fun _ n' _ _ hn' => absurd hn' (hid n')
    | some v =>
      refine (placed_method? hb ?_ hm).ready
      cases receiver with
      | exception e => exact absurd rfl (hno e)
      | _ => exact hr

theorem ready_nativeValue {scopes : Scopes} (id : NodeId) (op : NativeOp) :
    (p.nativeValue scopes f id op).Ready p given log scopes := by
  have failed {kind : ExceptionKind} (hk : ∀ n, kind ≠ .name n) (node : NodeId) :
      (Value.exception ⟨kind, node⟩).Ready p given log scopes :=
    Exception.harmless_of_kind hk
  unfold nativeValue
  dsimp only
  split
  · exact failed (fun _ => ExceptionKind.noConfusion) _
  · split
    · exact failed (fun _ => ExceptionKind.noConfusion) _
    · next receiver _ _ v _ =>
      have applied := op.gives_apply receiver v
      split
      · next w hw =>
        rw [hw] at applied
        obtain ⟨q, hq⟩ := Option.isSome_iff_exists.1 applied
        exact (Value.placed_of_primitive? hq).ready
      · next kind hk =>
        rw [hk] at applied
        exact failed applied _

/-- **The value of a name** is in place if what is shown is bound. -/
theorem ready_referenceValue (hp : p.Plain) (hm : m.InPlace p given log)
    (hthis : ∀ g ∈ f :: below, ∀ v, g.this = some v → v.Placed p log m.store.scopes)
    {around : List NodeId} {id : NodeId} {n : Name} (hn : p.node? id = some (.reference n))
    (hs : p.Sees around (fun x => (m.store.scopes.lookup f.scope x).isSome) id) :
    (p.referenceValue m f below id n).Ready p given log m.store.scopes := by
  have missing (h : ∀ x, ¬p.Stands n id x) :
      (Value.exception ⟨.name n, id⟩).Ready p given log m.store.scopes := by
    refine .inr fun _ n' x _ hn' => ?_
    rw [hn] at hn'
    cases hn'
    exact h x
  have bound {x : NodeId} (h : p.Stands n id x) (w : Value) :
      ((m.store.scopes.lookup f.scope x).getD w).Ready p given log m.store.scopes := by
    rcases hs.bound x ⟨n, h⟩ with hb | ⟨rfl, hf⟩
    · obtain ⟨v, hv⟩ := Option.isSome_iff_exists.1 hb
      rw [hv]
      exact (Scopes.placed_lookup hm.store.scopes hv).ready
    · obtain ⟨_, _, _, _, _, hn'⟩ := hf
      rw [hn] at hn'
      cases hn'
  unfold referenceValue
  dsimp only
  split
  · next b hb => exact bound (.inl hb) _
  · next g hg => exact bound (.inr hg) _
  · next d hd => exact absurd hd (hp.resolve_ne_structure n d id hs.mem)
  · next s hs =>
    cases hv : m.streamValue? s with
    | none => exact Exception.harmless_of_kind fun _ => ExceptionKind.noConfusion
    | some v => exact hm.streams s v hv
  · next v hv =>
    exact missing fun x hx => by rcases hx with hx | hx <;> rw [hv] at hx <;> cases hx
  · next hnone =>
    have nothing (x : NodeId) : ¬p.Stands n id x := fun hx => by
      rcases hx with hx | hx <;> rw [hnone] at hx <;> cases hx
    split
    · cases ht : (f :: below).findSome? Frame.this with
      | none => exact missing nothing
      | some v =>
        obtain ⟨g, hg, hv⟩ := List.exists_of_findSome?_eq_some ht
        exact (hthis g hg v hv).ready
    · exact missing nothing

theorem ready_top {scopes : Scopes} (hf : ∀ v ∈ f.operands, v.Placed p log scopes) (id : NodeId) :
    (f.top id).Ready p given log scopes := by
  unfold Frame.top
  cases ho : f.operands with
  | nil => exact Exception.harmless_of_kind fun _ => ExceptionKind.noConfusion
  | cons v vs => exact (hf v (by rw [ho]; exact List.mem_cons_self)).ready

/-- The finish of a node that is no function gives a value in place, or raises a harmless
    exception. -/
theorem ready_finish (hp : p.Plain) (hm : m.InPlace p given log)
    (hf : ∀ v ∈ f.operands, v.Placed p log m.store.scopes)
    (hthis : ∀ g ∈ f :: below, ∀ v, g.this = some v → v.Placed p log m.store.scopes)
    {around : List NodeId} {s : Step}
    (hs : p.Sees around (fun x => (m.store.scopes.lookup f.scope x).isSome) s.node)
    (hno : ¬p.IsFunction s.node) {prior : Option Value}
    (hprior : ∀ v, prior = some v → v.Placed p log m.store.scopes) :
    (p.finish m f below s prior).value.Ready p given log m.store.scopes := by
  have failed {kind : ExceptionKind} (hk : ∀ n, kind ≠ .name n) :
      (Value.exception ⟨kind, s.node⟩).Ready p given log m.store.scopes :=
    Exception.harmless_of_kind hk
  have top : (f.top s.node).Ready p given log m.store.scopes := ready_top hf s.node
  have hpassed : (passed prior f s.node).value.Ready p given log m.store.scopes := by
    cases prior with
    | none => exact top
    | some v => exact (hprior v rfl).ready
  unfold finish
  dsimp only
  cases hn : p.node? s.node with
  | none => exact failed fun _ => ExceptionKind.noConfusion
  | some n =>
    cases n with
    | booleanLiteral b => simp [literal?, hn, Value.Ready, Value.Placed]
    | numberLiteral bits => simp [literal?, hn, Value.Ready, Value.Placed, Value.ofBits]
    | textLiteral t => simp [literal?, hn, Value.Ready, Value.Placed]
    | reference n => exact ready_referenceValue hp hm hthis hn hs
    | propertyReference receiver n =>
      cases prior with
      | none => exact ready_propertyValue hp.basis top fun n' e => by rw [hn] at e; cases e
      | some v => exact (hprior v rfl).ready
    | binaryOperation | evaluate | conditional | program => exact hpassed
    | block ss =>
      cases prior with
      | none =>
        dsimp only
        split
        · exact failed fun _ => ExceptionKind.noConfusion
        · exact top
      | some v => exact (hprior v rfl).ready
    | bind ns type value =>
      cases prior with
      | some v => exact (hprior v rfl).ready
      | none =>
        cases value with
        | none => exact failed fun _ => ExceptionKind.noConfusion
        | some value => exact top
    | functionDefinition ns vs is output body => exact absurd ⟨ns, vs, is, output, body, hn⟩ hno
    | structureDefinition ns fs vs is body =>
      exact absurd ⟨ns, fs, vs, is, body, hn⟩ (hp.structures s.node hs.mem)
    | native op => exact ready_nativeValue s.node op
    | _ => exact failed fun _ => ExceptionKind.noConfusion

/-- The values that are taken from a frame are in place, or one of them is missing. -/
theorem mem_taken {scopes : Scopes} (hf : ∀ v ∈ f.operands, v.Placed p log scopes) (id : NodeId)
    (count : Nat) {v : Value} (hv : v ∈ taken f id count) :
    v.Placed p log scopes ∨ v = .exception ⟨.empty, id⟩ := by
  unfold taken at hv
  rcases List.mem_append.1 (List.mem_reverse.1 hv) with hv | hv
  · exact .inl (hf v (List.mem_of_mem_take hv))
  · exact .inr (List.eq_of_mem_replicate hv)

/-- What is called is in place, or a harmless exception is raised. -/
def Calls (p : Program) (given : Exception → Prop) (log : Log) (scopes : Scopes) : Action → Prop
  | .call c => c.InPlace p log scopes
  | .raise e => e.Harmless p given
  | _ => True

theorem calls_callAction {scopes : Scopes} (creator : NodeId) (name : Option Name) {callee : Value}
    {vs : List Value} (hc : callee.Placed p log scopes) (hvs : ∀ v ∈ vs, v.Placed p log scopes) :
    Calls p given log scopes (p.callAction creator name callee vs) := by
  have failed (n : Option Name) : Calls p given log scopes (.raise ⟨.function n, creator⟩) :=
    Exception.harmless_of_kind fun _ => ExceptionKind.noConfusion
  -- What is called without a receiver, and what is called with one.
  have function {d : NodeId} {closure : Option ScopeId} {this : Option Value}
      (hd : closure = none ∧ p.IsPrimitive d ∨ ∃ s, closure = some s ∧ p.Closes log scopes d s)
      (ht : ∀ v, this = some v → v.Placed p log scopes) :
      Calls p given log scopes (if (p.node? d).any Node.isAbstractFunction then
        .raise ⟨.function (p.primaryName? d), creator⟩
      else .call ⟨creator, d, closure, this, vs⟩) := by
    split
    · exact failed _
    · exact ⟨hd, ht, hvs⟩
  unfold callAction
  dsimp only
  split
  · exact function (.inr hc) nofun
  · next d closure receiver =>
    obtain ⟨hd, hr⟩ := hc
    refine function hd fun v hv => ?_
    cases hv
    exact hr
  · exact hc.elim
  · exact failed _

/-- The start of an evaluation with values in place calls what is in place. -/
theorem calls_startEvaluation (hb : p.OverBasis) {scopes : Scopes}
    (hf : ∀ v ∈ f.operands, v.Placed p log scopes) (id : NodeId) :
    Calls p given log scopes (p.startEvaluation f id).2 := by
  have failed (n : Option Name) : Calls p given log scopes (.raise ⟨.function n, id⟩) :=
    Exception.harmless_of_kind fun _ => ExceptionKind.noConfusion
  have missing : Calls p given log scopes (.raise ⟨.empty, id⟩) :=
    Exception.harmless_of_kind fun _ => ExceptionKind.noConfusion
  -- An exception among the values is the one for a missing value.
  have raised {count : Nat} {e : Exception}
      (he : (taken f id count).findSome? Value.exception? = some e) :
      Calls p given log scopes (.raise e) := by
    obtain ⟨v, hv, hve⟩ := List.exists_of_findSome?_eq_some he
    rcases mem_taken hf id count hv with hp | rfl
    · rw [hp.exception?_eq_none] at hve
      cases hve
    · cases hve
      exact missing
  have placed {count : Nat} (he : (taken f id count).findSome? Value.exception? = none) :
      ∀ v ∈ taken f id count, v.Placed p log scopes := by
    intro v hv
    rcases mem_taken hf id count hv with hp | rfl
    · exact hp
    · cases List.findSome?_eq_none_iff.1 he _ hv
  unfold startEvaluation
  split
  · next left op right hn =>
    dsimp only
    split
    · next e _ he => exact raised he
    · next l r he htaken =>
      have hvs := placed he
      rw [htaken] at hvs
      split
      · next method hmethod =>
        refine calls_callAction id _ (placed_method? hb (hvs l (by simp)) hmethod) fun v hv => ?_
        exact hvs v (List.mem_cons_of_mem _ hv)
      · exact failed _
    · exact missing
  · next function is hn =>
    dsimp only
    split
    · next e _ he => exact raised he
    · next callee vs he htaken =>
      have hvs := placed he
      rw [htaken] at hvs
      exact calls_callAction id _ (hvs callee (by simp)) fun v hv => hvs v (List.mem_cons_of_mem _ hv)
    · exact missing
  · exact failed _

/-- A named value or a function is bound when it leaves its value. -/
theorem finish_binds {s : Step} {prior : Option Value} (hs : p.Binds s.node)
    (hv : (p.finish m f below s prior).value.exception? = none) :
    (p.finish m f below s prior).binds = true := by
  rcases hs with ⟨ns, type, value, hn⟩ | ⟨ns, vs, is, output, body, hn⟩
  · unfold finish at hv ⊢
    dsimp only at hv ⊢
    rw [hn] at hv ⊢
    cases prior with
    | some v => rfl
    | none =>
      cases value with
      | none => cases hv
      | some value => rfl
  · unfold finish
    dsimp only
    rw [hn]

/-- The value of a function is the function in the scope of the frame. -/
theorem finish_function {s : Step} {prior : Option Value} (hs : p.IsFunction s.node) :
    (p.finish m f below s prior).value = .functionOf s.node (some f.scope) f.this := by
  obtain ⟨ns, vs, is, output, body, hn⟩ := hs
  unfold finish
  dsimp only
  rw [hn]

end Program

namespace Machine

/-! ## What steps lead to -/

/-- What the execution of a step leaves is in place, and so is what it asks for. -/
structure Leads (p : Program) (given : Exception → Prop) (log : Log) (m : Machine)
    (r : Frame × Machine × Action) : Prop where
  later : Later p log m.store.scopes log r.2.1.store.scopes
  store : r.2.1.store.InPlace p log
  operands : ∀ v ∈ r.1.operands, v.Placed p log r.2.1.store.scopes
  this : ∀ v, r.1.this = some v → v.Placed p log r.2.1.store.scopes
  goes : ∀ g, r.1.after? r.2.2 = some g → g.pc ≤ g.steps.size ∧ g.Runs p log r.2.1.store.scopes
  raises : ∀ e, r.2.2 = .raise e → e.Harmless p given
  calls : ∀ c, r.2.2 = .call c → c.InPlace p log r.2.1.store.scopes ∧
    r.1.Runs p log r.2.1.store.scopes

variable {p : Program} {given : Exception → Prop} {log : Log} {m : Machine} {f : Frame}
  {below : List Frame}

/-- What a frame holds before it runs a step. -/
structure Holds (p : Program) (log : Log) (m : Machine) (f : Frame) (below : List Frame) : Prop where
  operands : ∀ v ∈ f.operands, v.Placed p log m.store.scopes
  this : ∀ g ∈ f :: below, ∀ v, g.this = some v → v.Placed p log m.store.scopes

theorem Holds.advance (h : Holds p log m f below) : Holds p log m f.advance below := by
  refine ⟨h.operands, fun g hg => ?_⟩
  rcases List.mem_cons.1 hg with rfl | hg
  · exact h.this f List.mem_cons_self
  · exact h.this g (List.mem_cons_of_mem _ hg)

theorem Holds.mem_drop (h : Holds p log m f below) (count : Nat) :
    ∀ v ∈ (f.drop count).operands, v.Placed p log m.store.scopes :=
  fun v hv => h.operands v (List.mem_of_mem_drop hv)

/-- A step that leaves the store alone and goes on. -/
theorem leads_goes {g : Frame} {action : Action} (hm : m.InPlace p given log)
    (hg : ∀ v ∈ g.operands, v.Placed p log m.store.scopes)
    (hthis : ∀ v, g.this = some v → v.Placed p log m.store.scopes)
    (hgoes : ∀ h, g.after? action = some h → h.pc ≤ h.steps.size ∧ h.Runs p log m.store.scopes)
    (hraise : ∀ e, action = .raise e → e.Harmless p given) (hcall : ∀ c, action ≠ .call c) :
    Leads p given log m (g, m, action) :=
  ⟨.refl _ _ _, hm.store, hg, hthis, hgoes, hraise, fun c hc => absurd hc (hcall c)⟩

/-- What is remembered after a node left its value is that value, or was remembered before. -/
theorem remembered_kept_cases {store : Store} {s : Step} {r : Program.Finished} {id : NodeId}
    {v : Value} (h : (p.kept store below s r).remembered.get? id = some v) :
    v = r.value ∨ store.remembered.get? id = some v := by
  have defined : (if r.binds then store.define r.frame.scope s.node r.value
      else store).remembered = store.remembered := by
    split <;> rfl
  unfold Program.kept at h
  dsimp only at h
  split at h
  · rcases Store.remembered_remember p (if r.binds then store.define r.frame.scope s.node r.value
      else store) s.node r.value with e | e <;> rw [e, defined] at h
    · exact .inr h
    · rw [NodeMap.get?_insert] at h
      split at h
      · cases h
        exact .inl rfl
      · exact .inr h
  · rw [defined] at h
    exact .inr h

/-- A value that a node leaves is bound, remembered and pushed in place. -/
theorem leads_value (hm : m.InPlace p given log) {s : Step} {r : Program.Finished}
    (hr : r.value.exception? = none)
    (hf : ∀ v ∈ r.frame.operands, v.Placed p log m.store.scopes)
    (hthis : ∀ v, r.frame.this = some v → v.Placed p log m.store.scopes)
    (hlater : Later p log m.store.scopes log (p.kept m.store below s r).scopes)
    (hv : r.value.Placed p log (p.kept m.store below s r).scopes)
    (hpc : r.frame.pc ≤ r.frame.steps.size)
    (hruns : (r.frame.push r.value).Runs p log (p.kept m.store below s r).scopes) :
    Leads p given log m (p.leave m below s r) := by
  rw [Program.leave_of_value hr]
  have hscopes : (p.kept m.store below s r).scopes = if r.binds then
      m.store.scopes.define r.frame.scope s.node r.value else m.store.scopes :=
    Program.scopes_kept m.store
  refine ⟨hlater, ⟨fun id x w hw => ?_, fun id w hw => ?_, fun id hid => ?_⟩, fun w hw => ?_,
    fun w hw => (hthis w hw).later hlater, fun g hg => ?_, nofun, nofun⟩
  · -- A scope binds what it did, or the value of the node.
    have old (h : m.store.scopes.own? id x = some w) :
        w.Placed p log (p.kept m.store below s r).scopes := (hm.store.scopes id x w h).later hlater
    dsimp only at hw
    rw [hscopes] at hw
    split at hw
    · by_cases hsize : r.frame.scope.index < m.store.scopes.size
      · rw [Scopes.own?_define _ hsize] at hw
        split at hw
        · cases hw
          exact hv
        · exact old hw
      · rw [Scopes.define_of_le (Nat.not_lt.1 hsize)] at hw
        exact old hw
    · exact old hw
  · rcases remembered_kept_cases hw with rfl | hw
    · exact hv
    · exact (hm.store.remembered id w hw).later hlater
  · refine hm.store.fresh id (Nat.le_trans ?_ hid)
    exact hlater.grows.size
  · rcases List.mem_cons.1 hw with rfl | hw
    · exact hv
    · exact (hf w hw).later hlater
  · cases hg
    exact ⟨hpc, hruns⟩

/-- An exception of a node leaves the store alone. -/
theorem leads_exception (hm : m.InPlace p given log) {s : Step} {r : Program.Finished}
    {e : Exception} (hr : r.value = .exception e) (he : e.Harmless p given)
    (hf : ∀ v ∈ r.frame.operands, v.Placed p log m.store.scopes)
    (hthis : ∀ v, r.frame.this = some v → v.Placed p log m.store.scopes) :
    Leads p given log m (p.leave m below s r) := by
  rw [Program.leave_of_exception hr]
  refine leads_goes hm hf hthis nofun (fun e' he' => ?_) nofun
  cases he'
  exact he

/-- The body of a primitive method binds nothing. -/
theorem leads_native (hm : m.InPlace p given log) (hf : Holds p log m f below) {s : Step}
    {rest : List Step} (hc : f.code = s :: rest)
    (hcode : ∀ s ∈ f.code, s.kind = .startFinish ∧ p.IsNative s.node) :
    Leads p given log m (p.execute m f.advance below s) := by
  obtain ⟨hk, op, hn⟩ := hcode s (by rw [hc]; exact List.mem_cons_self)
  have hrun : p.execute m f.advance below s =
      p.leave m below s ⟨p.nativeValue m.store.scopes f.advance s.node op, f.advance, false⟩ := by
    simp only [Program.execute, hk, Program.finish, hn]
  have hready :
      (p.nativeValue m.store.scopes f.advance s.node op).Ready p given log m.store.scopes :=
    Program.ready_nativeValue s.node op
  have hthis := hf.advance.this f.advance List.mem_cons_self
  rw [hrun]
  cases hv : (p.nativeValue m.store.scopes f.advance s.node op).exception? with
  | some e =>
    have he := Value.eq_exception hv
    exact leads_exception hm he (hready.harmless he) hf.operands hthis
  | none =>
    have hscopes (r : Program.Finished) (hb : r.binds = false) :
        (p.kept m.store below s r).scopes = m.store.scopes := by
      rw [Program.scopes_kept, hb]
      rfl
    refine leads_value hm hv hf.operands hthis ?_ ?_ (advance_inside hc) (.native ?_)
    · rw [hscopes _ rfl]
      exact .refl _ _ _
    · rw [hscopes _ rfl]
      exact hready.placed hv
    · intro t ht
      rw [Frame.code_push, code_advance_eq hc] at ht
      exact hcode t (by rw [hc]; exact List.mem_cons_of_mem _ ht)

/-- **The finish of a node that sees what it needs** leaves a value in place, and binds it if
    the node is a named value or a function. -/
theorem leads_finish (hp : p.Plain) (hm : m.InPlace p given log) (hf : Holds p log m f below)
    {s : Step} {rest : List Step} {around : List NodeId} (hc : f.code = s :: rest)
    (hs : s.finishes = true)
    (hlexical : p.Lexical log m.store.scopes f.scope around)
    (hsees : p.Sees around (fun x => (m.store.scopes.lookup f.scope x).isSome) s.node)
    (hafter : p.Covers around
      (p.With (fun x => (m.store.scopes.lookup f.scope x).isSome) s.node) rest) :
    Leads p given log m (p.execute m f.advance below s) := by
  obtain ⟨prior, hprior, hrun⟩ : ∃ prior, (∀ v, prior = some v → v.Placed p log m.store.scopes) ∧
      p.execute m f.advance below s =
        p.leave m below s (p.finish m f.advance below s prior) := by
    refine ⟨Program.prior? m below s, fun v hv => ?_, ?_⟩
    · exact hm.store.remembered s.node v (prior?_eq_some hv).2.2.2
    · unfold Step.finishes at hs
      split at hs
      · next hk => simp only [Program.execute, hk]
      · next hk => simp only [Program.execute, hk]
      · cases hs
  have hadvance := hf.advance
  have hthis := hadvance.this f.advance List.mem_cons_self
  obtain ⟨count, hframe⟩ := p.finish_drops m f.advance below s prior
  have hready (hno : ¬p.IsFunction s.node) :=
    p.ready_finish hp hm hadvance.operands hadvance.this hsees hno hprior
  have hbinds (hb : p.Binds s.node)
      (hv : (p.finish m f.advance below s prior).value.exception? = none) :
      (p.finish m f.advance below s prior).binds = true := p.finish_binds hb hv
  have hfunction (hb : p.IsFunction s.node) : (p.finish m f.advance below s prior).value =
      .functionOf s.node (some f.scope) f.this := p.finish_function hb
  rw [hrun]
  generalize p.finish m f.advance below s prior = r at hframe hready hbinds hfunction
  have hrf : ∀ v ∈ r.frame.operands, v.Placed p log m.store.scopes := by
    rw [hframe]
    exact hadvance.mem_drop count
  have hrthis : ∀ v, r.frame.this = some v → v.Placed p log m.store.scopes := by
    rw [hframe]
    exact hthis
  have hscope : r.frame.scope = f.scope := by rw [hframe]; rfl
  cases hv : r.value.exception? with
  | some e =>
    have he := Value.eq_exception hv
    have hno : ¬p.IsFunction s.node := by
      intro hb
      rw [hfunction hb] at he
      cases hthis : f.this <;> rw [hthis] at he <;> cases he
    exact leads_exception hm he ((hready hno).harmless he) hrf hrthis
  | none =>
    have hkept : (p.kept m.store below s r).scopes = if r.binds then
        m.store.scopes.define r.frame.scope s.node r.value else m.store.scopes :=
      Program.scopes_kept m.store
    have hlater : Later p log m.store.scopes log (p.kept m.store below s r).scopes := by
      rw [hkept]
      split
      · rw [hscope]
        exact .define hlexical hsees.around hsees.plain
      · exact .refl _ _ _
    have hbound : p.Binds s.node →
        ((p.kept m.store below s r).scopes.lookup f.scope s.node).isSome := by
      intro hb
      obtain ⟨scope, hget⟩ := hlexical.exists_scope
      have hsize : f.scope.index < m.store.scopes.size := by
        by_contra hge
        rw [Scopes.get?_eq_none_iff.2 (Nat.not_lt.1 hge)] at hget
        cases hget
      rw [hkept, if_pos (hbinds hb hv), hscope, Scopes.lookup_of_own? (v := r.value)]
      · rfl
      · rw [Scopes.own?_define _ hsize, if_pos ⟨rfl, rfl⟩]
    have hcovers : p.Covers around
        (fun x => ((p.kept m.store below s r).scopes.lookup f.scope x).isSome) rest := by
      refine hafter.mono fun x hx => ?_
      rcases hx with hx | ⟨rfl, hb⟩
      · exact hlater.grows.lookup hx
      · exact hbound hb
    refine leads_value hm hv hrf hrthis hlater ?_ ?_
      (.covered (?_ : p.Lexical log _ _ around) ?_)
    · by_cases hno : p.IsFunction s.node
      · rw [hfunction hno]
        refine Value.placed_functionOf ⟨hno, hsees.mem, ?_, fun x hx => ?_⟩
          fun v hv => (hthis v hv).later hlater
        · rw [hsees.around]
          exact hlater.lexical _ _ hlexical
        · rcases hsees.bound x hx with hx | ⟨rfl, -⟩
          · exact hlater.grows.lookup hx
          · exact hbound (.inr hno)
      · exact ((hready hno).placed hv).later hlater
    · rw [hframe]
      exact advance_inside hc
    · rw [show (r.frame.push r.value).scope = f.scope from hscope]
      exact hlater.lexical _ _ hlexical
    · rw [show (r.frame.push r.value).scope = f.scope from hscope, Frame.code_push, hframe,
        Frame.code_drop, code_advance_eq hc]
      exact hcovers

/-- The start of a node goes on inside it, or at its finish. -/
theorem leads_start (hm : m.InPlace p given log) (hf : Holds p log m f below) {id : NodeId}
    {around : List NodeId} {inside after : List Step}
    (hc : f.code = ⟨id, .start⟩ :: (inside ++ ⟨id, .finish⟩ :: after))
    (hlexical : p.Lexical log m.store.scopes f.scope around)
    (hin : p.Covers around (fun x => (m.store.scopes.lookup f.scope x).isSome)
      (inside ++ ⟨id, .finish⟩ :: after)) (hclosed : ⟨id, .finish⟩ ∉ inside)
    (hskip : p.Covers around (fun x => (m.store.scopes.lookup f.scope x).isSome)
      (⟨id, .finish⟩ :: after)) :
    Leads p given log m (p.execute m f.advance below ⟨id, .start⟩) := by
  have hpc := advance_inside hc
  have hcode := code_advance_eq hc
  show Leads p given log m (f.advance, m, Program.skipAction m f.advance below id)
  have hthis := hf.advance.this f.advance List.mem_cons_self
  have proceed : Leads p given log m (f.advance, m, .proceed) :=
    leads_goes hm hf.operands hthis (fun h hh => by
      cases hh
      exact ⟨hpc, .covered hlexical (by rw [hcode]; exact hin)⟩) nofun nofun
  unfold Program.skipAction
  split
  · rw [Frame.stepsToFinish?_of_code hpc hcode hclosed]
    refine leads_goes hm hf.operands hthis (fun h hh => ?_) nofun nofun
    cases hh
    refine ⟨skip_inside (by rw [hcode]; simp) hpc, .covered hlexical ?_⟩
    rw [Frame.code_skip, hcode, List.drop_left]
    exact hskip
  · exact proceed

/-- Both ways on from a jump are covered. -/
theorem leads_jumpIf (hm : m.InPlace p given log) (hf : Holds p log m f below) {id : NodeId}
    {around : List NodeId} {offset : Nat} {consume jumpWhen : Bool} {after : List Step}
    (hc : f.code = ⟨id, .jumpIf offset consume jumpWhen⟩ :: after)
    (hlexical : p.Lexical log m.store.scopes f.scope around) (ho : offset ≤ after.length)
    (hon : p.Covers around (fun x => (m.store.scopes.lookup f.scope x).isSome) after)
    (hover : p.Covers around (fun x => (m.store.scopes.lookup f.scope x).isSome)
      (after.drop offset)) :
    Leads p given log m (p.execute m f.advance below ⟨id, .jumpIf offset consume jumpWhen⟩) := by
  have hcode := code_advance_eq hc
  let next := if consume then f.advance.drop 1 else f.advance
  have hnext : next.code = after ∧ next.pc ≤ next.steps.size ∧ next.scope = f.scope := by
    dsimp only [next]
    split
    · exact ⟨by rw [Frame.code_drop, hcode], advance_inside hc, rfl⟩
    · exact ⟨hcode, advance_inside hc, rfl⟩
  obtain ⟨hnc, hnpc, hns⟩ := hnext
  have hlexical' : p.Lexical log m.store.scopes next.scope around := hns ▸ hlexical
  have hoperands : ∀ v ∈ next.operands, v.Placed p log m.store.scopes := by
    dsimp only [next]
    split
    · exact hf.advance.mem_drop 1
    · exact hf.operands
  have hthis : ∀ v, next.this = some v → v.Placed p log m.store.scopes := by
    have hthis := hf.advance.this f.advance List.mem_cons_self
    dsimp only [next]
    split <;> exact hthis
  have failed (kind : ExceptionKind) (hk : ∀ n, kind ≠ .name n) :
      Leads p given log m (next, m, .raise ⟨kind, id⟩) := by
    refine leads_goes hm hoperands hthis (fun h hh => by cases hh) (fun e he => ?_) (by simp)
    cases he
    exact Exception.harmless_of_kind hk
  have jumped : Leads p given log m (next, m, .jump offset) := by
    refine leads_goes hm hoperands hthis (fun h hh => ?_) (by simp) (by simp)
    cases hh
    refine ⟨skip_inside (by rw [hnc]; exact ho) hnpc, .covered hlexical' ?_⟩
    rw [Frame.code_skip, hnc, show (next.skip offset).scope = f.scope from hns]
    exact hover
  have passed : Leads p given log m (next, m, .proceed) := by
    refine leads_goes hm hoperands hthis (fun h hh => ?_) (by simp) (by simp)
    cases hh
    exact ⟨hnpc, .covered hlexical' (by rw [hnc, hns]; exact hon)⟩
  have decided (b : Bool) :
      Leads p given log m (next, m, if b = jumpWhen then .jump offset else .proceed) := by
    split
    · exact jumped
    · exact passed
  unfold Program.execute
  dsimp only
  cases f.advance.operands.head? with
  | none => exact failed _ fun _ => ExceptionKind.noConfusion
  | some v =>
    cases v with
    | bool b => exact decided b
    | _ => exact failed _ fun _ => ExceptionKind.noConfusion

theorem leads_jump (hm : m.InPlace p given log) (hf : Holds p log m f below) {id : NodeId}
    {around : List NodeId} {offset : Nat} {after : List Step}
    (hc : f.code = ⟨id, .jump offset⟩ :: after)
    (hlexical : p.Lexical log m.store.scopes f.scope around) (ho : offset ≤ after.length)
    (hover : p.Covers around (fun x => (m.store.scopes.lookup f.scope x).isSome)
      (after.drop offset)) :
    Leads p given log m (p.execute m f.advance below ⟨id, .jump offset⟩) := by
  have hcode := code_advance_eq hc
  refine leads_goes hm hf.operands (hf.advance.this f.advance List.mem_cons_self) (fun h hh => ?_)
    nofun nofun
  cases hh
  refine ⟨skip_inside (by rw [hcode]; exact ho) (advance_inside hc), .covered hlexical ?_⟩
  rw [Frame.code_skip, hcode]
  exact hover

theorem leads_startEvaluation (hb : p.OverBasis) (hm : m.InPlace p given log)
    (hf : Holds p log m f below) {id : NodeId} {around : List NodeId} {after : List Step}
    (hc : f.code = ⟨id, .startEvaluation⟩ :: after)
    (hlexical : p.Lexical log m.store.scopes f.scope around)
    (hafter : p.Covers around (fun x => (m.store.scopes.lookup f.scope x).isSome) after) :
    Leads p given log m (p.execute m f.advance below ⟨id, .startEvaluation⟩) := by
  have hcalls : Program.Calls p given log m.store.scopes (p.startEvaluation f.advance id).2 :=
    Program.calls_startEvaluation hb hf.advance.operands id
  have hnone (g : Frame) := after?_startEvaluation (p := p) f.advance g id
  have hrun : p.execute m f.advance below ⟨id, .startEvaluation⟩ =
      (f.advance.drop (p.callValues id), m, (p.startEvaluation f.advance id).2) := by
    rw [← Program.startEvaluation_frame]
    rfl
  rw [hrun]
  generalize (p.startEvaluation f.advance id).2 = action at hcalls hnone
  refine ⟨.refl _ _ _, hm.store, hf.advance.mem_drop _,
    hf.advance.this f.advance List.mem_cons_self, fun g hg => ?_, ?_, ?_⟩
  · rw [hnone] at hg
    cases hg
  · rintro e rfl
    exact hcalls
  · rintro c rfl
    have hlexical' : p.Lexical log m.store.scopes (f.advance.drop (p.callValues id)).scope around :=
      hlexical
    refine ⟨hcalls, .covered hlexical' ?_⟩
    rw [Frame.code_drop, code_advance_eq hc]
    exact hafter

/-- **The execution of a step** leaves what is in place in place. -/
theorem leads (hp : p.Plain) (hm : m.InPlace p given log) (hf : Holds p log m f below)
    (hruns : f.Runs p log m.store.scopes) {s : Step} {rest : List Step} (hc : f.code = s :: rest) :
    Leads p given log m (p.execute m f.advance below s) := by
  cases hruns with
  | native hcode => exact leads_native hm hf hc hcode
  | @covered around hlexical hcovers =>
    rw [hc] at hcovers
    cases hcovers with
    | start hin hclosed hskip => exact leads_start hm hf hc hlexical hin hclosed hskip
    | finish hs hsees hafter => exact leads_finish hp hm hf hc hs hlexical hsees hafter
    | jumpIf ho hon hover => exact leads_jumpIf hm hf hc hlexical ho hon hover
    | jump ho hover => exact leads_jump hm hf hc hlexical ho hover
    | startEvaluation hafter => exact leads_startEvaluation hp.basis hm hf hc hlexical hafter

end Machine

end Arbor
