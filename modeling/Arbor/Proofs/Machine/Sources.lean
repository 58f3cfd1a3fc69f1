/-
  Where values come from.

  The value that a node gives at its finish is one that the machine held already, or it is
  made there: an exception at the node or at the creator of the frame, a primitive value, or
  a function, structure or instance with a scope that the frame or its values refer to.
  `Arises` lists all of these; what holds of the values that a machine holds, and of those
  that are made so, holds of whatever a step leaves or raises.  Likewise for calls: what is
  called was a value of the frame, or is a method of one.

  Main statements: `arises_finish`, the value of a node; `actsArisen_startEvaluation`, what is
  called; `leavesArisen_execute`, what the execution of a step leaves and raises.
-/
import Arbor.Proofs.Machine.InPlace
import Arbor.Proofs.Machine.Shelter

namespace Arbor

namespace Program

/-- Where the value that the finishing step `s` gives in the frame `f` above `below` comes
    from. -/
inductive Arises (p : Program) (m : Machine) (f : Frame) (below : List Frame) (s : Step) :
    Value → Prop
  | exception {e : Exception} : e.node = s.node ∨ e.node = f.creator →
      Arises p m f below s (.exception e)
  | primitive {v : Value} {q : Primitive} : v.primitive? = some q → Arises p m f below s v
  /-- Values that the machine holds. -/
  | operand {v : Value} : v ∈ f.operands → Arises p m f below s v
  | remembered {id : NodeId} {v : Value} : m.store.remembered.get? id = some v →
      Arises p m f below s v
  | bound {id : ScopeId} {d : NodeId} {v : Value} : m.store.scopes.own? id d = some v →
      Arises p m f below s v
  | stream {id : StreamId} {v : Value} : m.streams.get? id = some v → Arises p m f below s v
  | this {g : Frame} {v : Value} : g ∈ f :: below → g.this = some v → Arises p m f below s v
  /-- What a name stands for that nothing is bound to. -/
  | function {n : Name} {d : NodeId} : p.resolve n s.node = some (.function d) →
      Arises p m f below s (.function d (some f.scope))
  | structureDef {n : Name} {d : NodeId} : p.resolve n s.node = some (.structureDef d) →
      Arises p m f below s (.definition d (some f.scope))
  /-- Members of an instance, and methods of any other value. -/
  | method {n : Name} {d e : NodeId} {t : ScopeId} : .instanceOf e t ∈ f.operands →
      p.member e n = some (.function d) →
      Arises p m f below s (.method d (some t) (.instanceOf e t))
  | member {n : Name} {d e : NodeId} {t : ScopeId} : .instanceOf e t ∈ f.operands →
      p.member e n = some (.structureDef d) → Arises p m f below s (.definition d (some t))
  | primitiveMethod {q : Primitive} {n : Name} {d : NodeId} {v : Value} : v ∈ f.operands →
      p.basis.function? q n = some d → Arises p m f below s (.method d none v)
  /-- What the node itself defines. -/
  | ownFunction : p.IsFunction s.node →
      Arises p m f below s (.functionOf s.node (some f.scope) f.this)
  | ownStructure : p.IsStructure s.node →
      Arises p m f below s (.definition s.node (some f.scope))
  | instanceOf : p.IsStructure s.node → s.kind = .finish →
      Arises p m f below s (.instanceOf s.node f.scope)

variable {p : Program} {m : Machine} {f : Frame} {below : List Frame} {s : Step}

/-! ## The value of a node -/

/-- The latest value of a frame, unless it is missing. -/
theorem arises_top : p.Arises m f below s (f.top s.node) := by
  unfold Frame.top
  cases ho : f.operands with
  | nil => exact .exception (.inl rfl)
  | cons v vs => exact .operand (by simp [ho])

theorem arises_lookup {id : ScopeId} {d : NodeId} {v : Value}
    (h : m.store.scopes.lookup id d = some v) : p.Arises m f below s v :=
  Scopes.All.lookup (P := p.Arises m f below s) (fun _ _ _ hv => .bound hv) h

theorem arises_getD {o : Option Value} {v : Value} (ho : ∀ w, o = some w → p.Arises m f below s w)
    (hv : p.Arises m f below s v) : p.Arises m f below s (o.getD v) := by
  cases o with
  | none => exact hv
  | some w => exact ho w rfl

theorem arises_method? {receiver v : Value} {n : Name} (hr : receiver ∈ f.operands)
    (h : p.method? receiver n = some v) : p.Arises m f below s v := by
  unfold method? at h
  split at h
  · split at h
    · next hd => cases h; exact .method hr hd
    · cases h
  · obtain ⟨d, hd, rfl⟩ := Option.map_eq_some_iff.1 h
    obtain ⟨q, -, hd⟩ := Option.bind_eq_some_iff.1 hd
    exact .primitiveMethod hr hd

theorem arises_propertyValue (n : Name) :
    p.Arises m f below s (p.propertyValue m.store.scopes s.node (f.top s.node) n) := by
  have missing : p.Arises m f below s (.exception ⟨.name n, s.node⟩) := .exception (.inl rfl)
  unfold Frame.top
  cases ho : f.operands with
  | nil => exact .exception (.inl rfl)
  | cons receiver vs =>
    have hr : receiver ∈ f.operands := by simp [ho]
    show p.Arises m f below s (p.propertyValue m.store.scopes s.node receiver n)
    unfold propertyValue
    dsimp only
    split
    · exact .operand hr
    · split
      · exact arises_getD (fun w hw => arises_lookup hw) missing
      · next hd => exact .method hr hd
      · next hd => exact .member hr hd
      · exact missing
    · exact arises_getD (fun w hw => arises_method? hr hw) missing

theorem arises_referenceValue (n : Name) :
    p.Arises m f below s (p.referenceValue m f below s.node n) := by
  have missing : p.Arises m f below s (.exception ⟨.name n, s.node⟩) := .exception (.inl rfl)
  unfold referenceValue
  dsimp only
  split
  · exact arises_getD (fun w hw => arises_lookup hw) missing
  · next hd => exact arises_getD (fun w hw => arises_lookup hw) (.function hd)
  · next hd => exact arises_getD (fun w hw => arises_lookup hw) (.structureDef hd)
  · exact arises_getD (fun w hw => .stream hw) (.exception (.inl rfl))
  · exact missing
  · split
    · refine arises_getD (fun v hthis => ?_) missing
      obtain ⟨g, hg, hv⟩ := List.exists_of_findSome?_eq_some hthis
      exact .this hg hv
    · exact missing

theorem arises_nativeValue (op : NativeOp) :
    p.Arises m f below s (p.nativeValue m.store.scopes f s.node op) := by
  unfold nativeValue
  dsimp only
  split
  · exact .exception (.inl rfl)
  · split
    · exact .exception (.inl rfl)
    · next receiver _ _ v _ =>
      have applied := NativeOp.gives_apply op receiver v
      split
      · next w hw =>
        rw [hw] at applied
        obtain ⟨q, hq⟩ := Option.isSome_iff_exists.1 applied
        exact .primitive hq
      · exact .exception (.inr rfl)

/-- **The value of a node** was held already, or it is made at the finish. -/
theorem arises_finish {prior : Option Value}
    (hprior : ∀ v, prior = some v → ∃ id, m.store.remembered.get? id = some v) :
    p.Arises m f below s (p.finish m f below s prior).value := by
  have remembered {v : Value} (hv : prior = some v) : p.Arises m f below s v :=
    let ⟨_, hid⟩ := hprior v hv
    .remembered hid
  have hpassed : p.Arises m f below s (passed prior f s.node).value := by
    cases prior with
    | none => exact arises_top
    | some v => exact remembered rfl
  unfold finish
  dsimp only
  cases hn : p.node? s.node with
  | none => exact .exception (.inl rfl)
  | some n =>
    cases n with
    | booleanLiteral b => simp only [literal?, hn]; exact .primitive rfl
    | numberLiteral bits => simp only [literal?, hn]; exact .primitive rfl
    | textLiteral t => simp only [literal?, hn]; exact .primitive rfl
    | reference n => exact arises_referenceValue n
    | propertyReference receiver n =>
      cases prior with
      | none => exact arises_propertyValue n
      | some v => exact remembered rfl
    | binaryOperation | evaluate | conditional | program => exact hpassed
    | block ss =>
      cases prior with
      | none =>
        dsimp only
        split
        · exact .exception (.inl rfl)
        · exact arises_top
      | some v => exact remembered rfl
    | bind ns type value =>
      cases prior with
      | some v => exact remembered rfl
      | none =>
        cases value with
        | none => exact .exception (.inl rfl)
        | some value => exact arises_top
    | functionDefinition ns vs is output body =>
      exact .ownFunction ⟨ns, vs, is, output, body, hn⟩
    | structureDefinition ns fs vs is body =>
      dsimp only
      split
      · next hk => exact .instanceOf ⟨ns, fs, vs, is, body, hn⟩ hk
      · exact .ownStructure ⟨ns, fs, vs, is, body, hn⟩
    | native op => exact arises_nativeValue op
    | _ => exact .exception (.inl rfl)

/-! ## What is called -/

/-- A value that is taken for an evaluation is one of the frame, or the exception for none. -/
theorem arises_taken {count : Nat} {v : Value} (h : v ∈ taken f s.node count) :
    p.Arises m f below s v := by
  unfold taken at h
  dsimp only at h
  rw [List.mem_reverse, List.mem_append, List.mem_replicate] at h
  rcases h with h | ⟨-, rfl⟩
  · exact .operand (List.mem_of_mem_take h)
  · exact .exception (.inl rfl)

/-- A method of a value that is taken. -/
theorem arises_method?_of_taken {count : Nat} {receiver v : Value} {n : Name}
    (h : receiver ∈ taken f s.node count) (hv : p.method? receiver n = some v) :
    p.Arises m f below s v := by
  unfold taken at h
  dsimp only at h
  rw [List.mem_reverse, List.mem_append, List.mem_replicate] at h
  rcases h with h | ⟨-, rfl⟩
  · exact arises_method? (List.mem_of_mem_take h) hv
  · cases hv

end Program

/-- The call is of the value: of its definition in its scope, with its receiver. -/
inductive Call.Of (c : Call) : Value → Prop
  | function : c.this = none → Call.Of c (.function c.definition c.closure)
  | method {receiver : Value} : c.this = some receiver →
      Call.Of c (.method c.definition c.closure receiver)
  | structureDef : c.this = none → Call.Of c (.definition c.definition c.closure)

namespace Program

/-- The node is an operation or a call. -/
def IsCall (p : Program) (id : NodeId) : Prop :=
  (∃ left op right, p.node? id = some (.binaryOperation left op right)) ∨
    ∃ function is, p.node? id = some (.evaluate function is)

/-- A call by the node of the step is of a value that the frame has or reaches, with such
    values for the inputs. -/
structure CallsFrom (p : Program) (m : Machine) (f : Frame) (below : List Frame) (s : Step)
    (c : Call) : Prop where
  creator : c.creator = s.node
  caller : p.IsCall s.node
  callee : ∃ v, c.Of v ∧ p.Arises m f below s v
  arguments : ∀ v ∈ c.arguments, p.Arises m f below s v

/-- What an action asks to call is called from the frame, and what it raises arises there. -/
structure ActsArisen (p : Program) (m : Machine) (f : Frame) (below : List Frame) (s : Step)
    (action : Action) : Prop where
  calls : ∀ c, action = .call c → p.CallsFrom m f below s c
  raises : ∀ e, action = .raise e → p.Arises m f below s (.exception e)

variable {p : Program} {m : Machine} {f : Frame} {below : List Frame} {s : Step}

theorem actsArisen_of_arises {e : Exception} (h : p.Arises m f below s (.exception e)) :
    p.ActsArisen m f below s (.raise e) :=
  ⟨nofun, fun _ he => by cases he; exact h⟩

theorem actsArisen_raise (kind : ExceptionKind) :
    p.ActsArisen m f below s (.raise ⟨kind, s.node⟩) :=
  actsArisen_of_arises (.exception (.inl rfl))

theorem actsArisen_proceed : p.ActsArisen m f below s .proceed where
  calls _ h := by cases h
  raises _ h := by cases h

theorem actsArisen_skip (count : Nat) : p.ActsArisen m f below s (.skip count) where
  calls _ h := by cases h
  raises _ h := by cases h

theorem actsArisen_jump (offset : Nat) : p.ActsArisen m f below s (.jump offset) where
  calls _ h := by cases h
  raises _ h := by cases h

/-- A call of a value that arises, or the exception for one that cannot be called. -/
theorem actsArisen_callAction {name : Option Name} {callee : Value} {arguments : List Value}
    (hcaller : p.IsCall s.node) (hcallee : p.Arises m f below s callee)
    (harguments : ∀ v ∈ arguments, p.Arises m f below s v) :
    p.ActsArisen m f below s (p.callAction s.node name callee arguments) := by
  have call {c : Call} (hc : c.creator = s.node ∧ c.arguments = arguments) (hof : c.Of callee) :
      p.ActsArisen m f below s (.call c) := by
    refine ⟨fun c' hc' => ?_, nofun⟩
    cases hc'
    exact ⟨hc.1, hcaller, ⟨callee, hof, hcallee⟩, hc.2 ▸ harguments⟩
  unfold callAction
  dsimp only
  split
  · split
    · exact actsArisen_raise _
    · exact call ⟨rfl, rfl⟩ (.function rfl)
  · split
    · exact actsArisen_raise _
    · exact call ⟨rfl, rfl⟩ (.method rfl)
  · split
    · exact call ⟨rfl, rfl⟩ (.structureDef rfl)
    · exact actsArisen_raise _
  · exact actsArisen_raise _

/-- An exception among the values that are taken arises. -/
theorem arises_exception_of_taken {count : Nat} {e : Exception}
    (h : (taken f s.node count).findSome? Value.exception? = some e) :
    p.Arises m f below s (.exception e) := by
  obtain ⟨v, hv, he⟩ := List.exists_of_findSome?_eq_some h
  rw [← Value.eq_exception he]
  exact arises_taken hv

/-- **What is called** is a value of the frame or a method of one, and what is raised instead
    arises there. -/
theorem actsArisen_startEvaluation : p.ActsArisen m f below s (p.startEvaluation f s.node).2 := by
  unfold startEvaluation
  split
  · next left op right hn =>
    dsimp only
    split
    · next he => exact actsArisen_of_arises (arises_exception_of_taken he)
    · next left right _ htaken =>
      have hleft : left ∈ taken f s.node 2 := by rw [htaken]; simp
      have hright : right ∈ taken f s.node 2 := by rw [htaken]; simp
      split
      · next method hmethod =>
        refine actsArisen_callAction (.inl ⟨_, _, _, hn⟩)
          (arises_method?_of_taken hleft hmethod) fun v hv => ?_
        rw [List.mem_singleton.1 hv]
        exact arises_taken hright
      · exact actsArisen_raise _
    · exact actsArisen_raise _
  · next function is hn =>
    dsimp only
    split
    · next he => exact actsArisen_of_arises (arises_exception_of_taken he)
    · next callee arguments _ htaken =>
      have hall : ∀ v ∈ callee :: arguments, p.Arises m f below s v :=
        htaken ▸ fun v hv => arises_taken hv
      obtain ⟨hcallee, harguments⟩ := List.forall_mem_cons.1 hall
      exact actsArisen_callAction (.inr ⟨_, _, hn⟩) hcallee harguments
    · exact actsArisen_raise _
  · exact actsArisen_raise _

/-! ## What a step leaves -/

/-- What a step leaves in its frame, binds and remembers arises there, and so does what it
    asks to call and what it raises. -/
structure LeavesArisen (p : Program) (m : Machine) (f : Frame) (below : List Frame) (s : Step)
    (r : Frame × Machine × Action) : Prop where
  frame : f.Same r.1
  operands : ∀ v ∈ r.1.operands, p.Arises m f below s v
  scopes : r.2.1.store.scopes = m.store.scopes ∨ s.finishes = true ∧
    ∃ v, p.Arises m f below s v ∧
      r.2.1.store.scopes = m.store.scopes.define f.scope s.node v
  remembered : ∀ id v, r.2.1.store.remembered.get? id = some v → p.Arises m f below s v
  acts : p.ActsArisen m f below s r.2.2

/-- A step that only takes values away. -/
theorem leavesArisen_drop (count : Nat) {action : Action}
    (h : p.ActsArisen m f below s action) :
    p.LeavesArisen m f below s (f.drop count, m, action) where
  frame := ⟨rfl, rfl, rfl, rfl, rfl⟩
  operands _ hv := .operand (List.mem_of_mem_drop hv)
  scopes := .inl rfl
  remembered _ _ hv := .remembered hv
  acts := h

/-- The finish of a node leaves its value, or raises the exception that it is. -/
theorem leavesArisen_leave (hs : s.finishes = true) {prior : Option Value}
    (hprior : ∀ v, prior = some v → ∃ id, m.store.remembered.get? id = some v) :
    p.LeavesArisen m f below s (p.leave m below s (p.finish m f below s prior)) := by
  have hvalue : p.Arises m f below s (p.finish m f below s prior).value := arises_finish hprior
  obtain ⟨count, hframe⟩ := p.finish_drops m f below s prior
  generalize p.finish m f below s prior = r at hvalue hframe
  cases hr : r.value.exception? with
  | some e =>
    have he := Value.eq_exception hr
    rw [leave_of_exception he, hframe]
    exact leavesArisen_drop count (actsArisen_of_arises (he ▸ hvalue))
  | none =>
    rw [leave_of_value hr]
    refine ⟨?_, fun v hv => ?_, ?_, fun id v hv => ?_, actsArisen_proceed⟩
    · rw [hframe]
      exact ⟨rfl, rfl, rfl, rfl, rfl⟩
    · rcases List.mem_cons.1 hv with rfl | hv
      · exact hvalue
      · rw [hframe] at hv
        exact .operand (List.mem_of_mem_drop hv)
    · dsimp only
      rw [scopes_kept, hframe]
      split
      · exact .inr ⟨hs, _, hvalue, rfl⟩
      · exact .inl rfl
    · rcases Machine.remembered_kept_cases hv with rfl | hv
      · exact hvalue
      · exact .remembered hv

/-- **What a step leaves and raises** was held already, or is made by it. -/
theorem leavesArisen_execute (m : Machine) (f : Frame) (below : List Frame) (s : Step) :
    p.LeavesArisen m f below s (p.execute m f below s) := by
  have leave (hs : s.finishes = true) : p.LeavesArisen m f below s
      (p.leave m below s (p.finish m f below s (prior? m below s))) :=
    leavesArisen_leave hs fun v hv => ⟨s.node, (Machine.prior?_eq_some hv).2.2.2⟩
  unfold execute
  split
  · have hskip : p.ActsArisen m f below s (skipAction m f below s.node) := by
      unfold skipAction
      split
      · split
        · exact actsArisen_skip _
        · exact actsArisen_proceed
      · exact actsArisen_proceed
    exact leavesArisen_drop 0 hskip
  · next hk => exact leave (by simp [Step.finishes, hk])
  · next hk => exact leave (by simp [Step.finishes, hk])
  · next offset consume jumpWhen _ =>
    have next {action : Action} (h : p.ActsArisen m f below s action) :
        p.LeavesArisen m f below s (if consume then f.drop 1 else f, m, action) := by
      split
      · exact leavesArisen_drop 1 h
      · exact leavesArisen_drop 0 h
    dsimp only
    split
    · refine next ?_
      split
      · exact actsArisen_jump offset
      · exact actsArisen_proceed
    · exact next (actsArisen_raise _)
    · exact next (actsArisen_raise _)
  · exact leavesArisen_drop 0 (actsArisen_jump _)
  · dsimp only
    rw [p.startEvaluation_frame f s.node]
    exact leavesArisen_drop _ actsArisen_startEvaluation

end Program

end Arbor
