/-
  What machines hold and what their steps give.

  A machine holds sound values only (`Machine.Sound`): its scopes, what it remembers,
  its streams, the inputs that wait, and the values and receivers of its frames.  The
  finish of a node then gives a sound value or an exception, and never the exception
  for a missing value, if the frame has the values that the node needs.

  Main statements: `finish_frame` and `fine_finish` for the finish of a node,
  `startEvaluation_frame` and `fine_startEvaluation` for the start of an evaluation, and
  `sound_callScope` for the scope of a call.
-/
import Arbor.Proofs.Step.Balance

namespace Arbor

/-! ## Sound machines -/

/-- A frame holds sound values, and unwinds for no missing value. -/
structure Frame.Sound (p : Program) (f : Frame) : Prop where
  operands : ∀ v ∈ f.operands, v.Sound p
  this : ∀ v, f.this = some v → v.Sound p
  phase : ∀ e, f.phase = .unwinding e → e.kind ≠ .empty

/-- The scopes hold sound values, and so does what is remembered. -/
structure Store.Sound (p : Program) (s : Store) : Prop where
  scopes : s.scopes.Sound p
  remembered : ∀ id v, s.remembered.get? id = some v → v.Sound p

/-- A machine holds sound values; the result of a run may be an exception. -/
structure Machine.Sound (p : Program) (m : Machine) : Prop where
  store : m.store.Sound p
  frames : ∀ f ∈ m.frames, f.Sound p
  streams : ∀ s v, m.streams.get? s = some v → v.Sound p
  pending : ∀ x ∈ m.pending, x.2.Sound p
  result : ∀ v, m.result = some v → v.Fine p

namespace Store

/-- Remembering stores the value, or nothing. -/
theorem remembered_remember (p : Program) (s : Store) (id : NodeId) (v : Value) :
    (s.remember p id v).remembered = s.remembered ∨
      (s.remember p id v).remembered = s.remembered.insert id v := by
  obtain ⟨scopes, remembered, memo⟩ := s
  show (if ((p.dependsOnStream id).run memo).1 then remembered else _) = _ ∨
    (if ((p.dependsOnStream id).run memo).1 then remembered else _) = _
  split
  · exact Or.inl rfl
  · exact Or.inr rfl

end Store

namespace Store.Sound

variable {p : Program} {s : Store} (h : s.Sound p)
include h

theorem addScope {scope : Scope} (hs : ∀ d v, scope.bindings.get? d = some v → v.Sound p) :
    (s.addScope scope).2.Sound p :=
  ⟨h.scopes.add hs, h.remembered⟩

theorem define {id : ScopeId} {d : NodeId} {v : Value} (hv : v.Sound p) :
    (s.define id d v).Sound p :=
  ⟨h.scopes.define hv, h.remembered⟩

theorem remember {id : NodeId} {v : Value} (hv : v.Sound p) : (s.remember p id v).Sound p := by
  refine ⟨h.scopes, fun id' w hw => ?_⟩
  rcases s.remembered_remember p id v with e | e <;> rw [e] at hw
  · exact h.remembered id' w hw
  · rw [NodeMap.get?_insert] at hw
    split at hw
    · cases hw; exact hv
    · exact h.remembered id' w hw

end Store.Sound

/-! ## The finish of a node -/

namespace Frame

/-- The latest value of a frame that has one. -/
theorem Sound.top {p : Program} {f : Frame} (h : f.Sound p) {id : NodeId}
    (hf : 0 < f.operands.length) : (f.top id).Sound p := by
  cases ho : f.operands with
  | nil => rw [ho] at hf; cases hf
  | cons v vs =>
    rw [Frame.top, ho]
    exact h.operands v (by simp [ho])

theorem Sound.push {p : Program} {f : Frame} (h : f.Sound p) {v : Value} (hv : v.Sound p) :
    (f.push v).Sound p := by
  refine ⟨fun w hw => ?_, h.this, h.phase⟩
  rcases List.mem_cons.1 hw with rfl | hw
  · exact hv
  · exact h.operands w hw

theorem Sound.drop {p : Program} {f : Frame} (h : f.Sound p) (count : Nat) :
    (f.drop count).Sound p :=
  ⟨fun w hw => h.operands w (List.mem_of_mem_drop hw), h.this, h.phase⟩

theorem drop_zero (f : Frame) : f.drop 0 = f := rfl

end Frame

namespace NativeOp

/-- The result of an operation is a sound value or a failure that is not about a
    missing value. -/
def FineResult (p : Program) : Except ExceptionKind Value → Prop
  | .ok v => v.Sound p
  | .error kind => kind ≠ .empty

variable (p : Program) {x y : Value}

theorem fine_onNumbers {f : Float → Float → Except ExceptionKind Value}
    (h : ∀ a b, FineResult p (f a b)) : FineResult p (onNumbers x y f) := by
  unfold onNumbers
  split
  · exact h _ _
  · exact ExceptionKind.noConfusion

theorem fine_divide (a b : Float) : FineResult p (divide a b) := by
  unfold divide
  split
  · exact ExceptionKind.noConfusion
  · exact trivial

theorem fine_onBooleans {f : Bool → Bool → Bool} : FineResult p (onBooleans x y f) := by
  unfold onBooleans
  split
  · exact trivial
  · exact ExceptionKind.noConfusion

theorem fine_onTexts {f : String → String → Value} (h : ∀ a b, (f a b).Sound p) :
    FineResult p (onTexts x y f) := by
  unfold onTexts
  split
  · exact h _ _
  · exact ExceptionKind.noConfusion

/-- An operation gives a primitive value, or misses a function or a boolean, or divides
    by zero. -/
theorem fine_apply (op : NativeOp) : FineResult p (op.apply x y) := by
  cases op with
  | numberDivide => exact fine_onNumbers p (fine_divide p)
  | booleanAnd | booleanOr | booleanEqual => exact fine_onBooleans p
  | textConcatenate | textEqual => exact fine_onTexts p fun _ _ => trivial
  | _ => exact fine_onNumbers p fun _ _ => trivial

end NativeOp

namespace Program

variable {p : Program} {m : Machine} {f : Frame} {below : List Frame}

/-- The finish of a node takes the values of its children. -/
theorem finish_frame (s : Step) : (p.finish m f below s none).frame = f.drop (p.childValues s) := by
  unfold finish childValues passed
  dsimp only
  cases hn : p.node? s.node with
  | none => rfl
  | some n =>
    cases n with
    | block ss =>
      dsimp only
      split
      · next h => rw [h, Frame.drop_zero]
      · rfl
    | bind ns type value => cases value <;> rfl
    | structureDefinition => cases hk : s.kind <;> rfl
    | _ => rfl

/-- The finish of a node whose children were skipped takes nothing. -/
theorem finish_frame_prior {s : Step} (hs : ¬p.IsStructure s.node) (v : Value) :
    (p.finish m f below s (some v)).frame = f := by
  unfold finish passed
  dsimp only
  split <;> try rfl
  next ns fs vs is body hn => exact absurd ⟨ns, fs, vs, is, body, hn⟩ hs

theorem primitive_sound {v : Value} {q : Primitive} (h : v.primitive? = some q) : v.Sound p := by
  cases v <;> first | exact trivial | cases h

theorem sound_method? (hp : p.Grounded) {receiver v : Value} {n : Name}
    (hr : receiver.Sound p) (h : p.method? receiver n = some v) : v.Sound p := by
  unfold method? at h
  split at h
  · split at h
    · next hf => cases h; exact ⟨Grounded.member hf, hr⟩
    · cases h
  · obtain ⟨f, hf, rfl⟩ := Option.map_eq_some_iff.1 h
    obtain ⟨q, -, hq⟩ := Option.bind_eq_some_iff.1 hf
    exact ⟨hp.methods q n f hq, hr⟩

theorem fine_propertyValue (hp : p.Grounded) {scopes : Scopes} (hs : scopes.Sound p)
    {receiver : Value} (hr : receiver.Sound p) (id : NodeId) (n : Name) :
    (p.propertyValue scopes id receiver n).Fine p := by
  have missing : (Value.exception ⟨.name n, id⟩).Fine p := ExceptionKind.noConfusion
  unfold propertyValue
  dsimp only
  split
  · exact hr.elim
  · split
    · cases hl : scopes.lookup _ _ with
      | none => exact missing
      | some v => exact (hs.lookup hl).fine
    · next hf => exact Value.Sound.fine (v := .method ..) ⟨Grounded.member hf, hr⟩
    · next hd => exact Value.Sound.fine (v := .definition ..) (Grounded.member hd)
    · exact missing
  · cases hm : p.method? receiver n with
    | none => exact missing
    | some v => exact (sound_method? hp hr hm).fine

theorem fine_nativeValue {scopes : Scopes} (id : NodeId) (op : NativeOp) :
    (p.nativeValue scopes f id op).Fine p := by
  unfold nativeValue
  dsimp only
  split
  · exact ExceptionKind.noConfusion
  · split
    · exact ExceptionKind.noConfusion
    · next receiver _ _ v _ =>
      have applied := NativeOp.fine_apply p (x := receiver) (y := v) op
      split
      · next w hw => rw [hw] at applied; exact applied.fine
      · next kind hk => rw [hk] at applied; exact applied

theorem fine_referenceValue (hp : p.Grounded) (hm : m.Sound p) (hf : f.Sound p)
    (hb : ∀ g ∈ below, g.Sound p) (id : NodeId) (n : Name) :
    (p.referenceValue m f below id n).Fine p := by
  have missing : (Value.exception ⟨.name n, id⟩).Fine p := ExceptionKind.noConfusion
  -- A bound value is sound, so only the value for none is left to show.
  have bound (d : NodeId) {v : Value} (hv : v.Fine p) :
      ((m.store.scopes.lookup f.scope d).getD v).Fine p := by
    cases hl : m.store.scopes.lookup f.scope d with
    | none => exact hv
    | some w => exact (hm.store.scopes.lookup hl).fine
  unfold referenceValue
  dsimp only
  split
  · exact bound _ missing
  · next g hg =>
    exact bound _ (Value.Sound.fine (v := .function ..) (hp.resolve hg))
  · next d hd =>
    exact bound _ (Value.Sound.fine (v := .definition ..) (hp.resolve hd))
  · next s hs =>
    cases hv : m.streamValue? s with
    | none => exact ExceptionKind.noConfusion
    | some v => exact (hm.streams s v hv).fine
  · exact missing
  · split
    · cases ht : (f :: below).findSome? Frame.this with
      | none => exact missing
      | some v =>
        obtain ⟨g, hg, hv⟩ := List.exists_of_findSome?_eq_some ht
        rcases List.mem_cons.1 hg with rfl | hg
        · exact (hf.this v hv).fine
        · exact ((hb g hg).this v hv).fine
    · exact missing

/-- **The value of a node.**  The finish of a node gives a sound value or an exception
    that is not about a missing value, if the frame has the values of the children, or
    if the children were skipped and a sound value is remembered. -/
theorem fine_finish (hp : p.Grounded) (hm : m.Sound p) (hf : f.Sound p)
    (hb : ∀ g ∈ below, g.Sound p) {s : Step} {prior : Option Value}
    (hprior : ∀ v, prior = some v → v.Sound p)
    (hneed : prior = none → p.childValues s ≤ f.operands.length) :
    (p.finish m f below s prior).value.Fine p := by
  have hpassed (h1 : prior = none → 1 ≤ f.operands.length) :
      (passed prior f s.node).value.Fine p := by
    cases prior with
    | none => exact (hf.top (h1 rfl)).fine
    | some v => exact (hprior v rfl).fine
  unfold finish
  dsimp only
  unfold childValues at hneed
  cases hn : p.node? s.node with
  | none => exact ExceptionKind.noConfusion
  | some n =>
    rw [hn] at hneed
    cases n with
    | booleanLiteral b => simp [literal?, hn, Value.Fine, Value.Sound]
    | numberLiteral bits => simp [literal?, hn, Value.Fine, Value.Sound, Value.ofBits]
    | textLiteral t => simp [literal?, hn, Value.Fine, Value.Sound]
    | reference n => exact fine_referenceValue hp hm hf hb s.node n
    | propertyReference receiver n =>
      cases prior with
      | none => exact fine_propertyValue hp hm.store.scopes (hf.top (hneed rfl)) s.node n
      | some v => exact (hprior v rfl).fine
    | binaryOperation | evaluate | conditional | program => exact hpassed hneed
    | block ss =>
      cases prior with
      | none =>
        dsimp only
        split
        · exact ExceptionKind.noConfusion
        · next hc => exact (hf.top (Nat.lt_of_lt_of_le (Nat.pos_of_ne_zero hc) (hneed rfl))).fine
      | some v => exact (hprior v rfl).fine
    | bind ns type value =>
      cases prior with
      | some v => exact (hprior v rfl).fine
      | none =>
        cases value with
        | none => exact ExceptionKind.noConfusion
        | some value => exact (hf.top (hneed rfl)).fine
    | functionDefinition ns vs is output body =>
      exact (Value.sound_functionOf ⟨ns, vs, is, output, body, hn⟩ hf.this).fine
    | structureDefinition ns fs vs is body =>
      dsimp only
      split
      · exact trivial
      · exact Value.Sound.fine (v := .definition ..) ⟨ns, fs, vs, is, body, hn⟩
    | native op => exact fine_nativeValue s.node op
    | _ => exact ExceptionKind.noConfusion

/-! ## The start of an evaluation -/

end Program

/-- A call of a body that has code, with sound values. -/
structure Call.Sound (p : Program) (c : Call) : Prop where
  body : p.compileBody c.definition ≠ []
  this : ∀ v, c.this = some v → v.Sound p
  arguments : ∀ v ∈ c.arguments, v.Sound p

/-- The action calls a body that has code, and raises no exception for a missing value. -/
def Action.Fine (p : Program) : Action → Prop
  | .raise e => e.kind ≠ .empty
  | .call c => c.Sound p
  | _ => True

namespace Program

variable {p : Program} {m : Machine} {f : Frame} {below : List Frame}

theorem compile_ne_nil (h : p.arena.Acyclic) (id : NodeId) : p.compile id ≠ [] := by
  rw [compile_eq h]
  unfold Arena.compileNode
  split <;> simp

theorem compileBody_ne_nil_of_isStructure {d : NodeId} (h : p.IsStructure d) :
    p.compileBody d ≠ [] := by
  obtain ⟨ns, fs, vs, is, body, hn⟩ := h
  simp [compileBody, hn]

theorem compileBody_ne_nil_of_isFunction (hp : p.Grounded) {d : NodeId} (h : p.IsFunction d)
    (hd : (p.node? d).any Node.isAbstractFunction = false) : p.compileBody d ≠ [] := by
  obtain ⟨ns, vs, is, output, body, hn⟩ := h
  cases body with
  | none => simp [hn, Node.isAbstractFunction] at hd
  | some body =>
    unfold compileBody
    rw [hn]
    exact compile_ne_nil hp.acyclic body

theorem fine_callAction (hp : p.Grounded) (creator : NodeId) (name : Option Name) {callee : Value}
    {arguments : List Value} (hc : callee.Sound p) (ha : ∀ v ∈ arguments, v.Sound p) :
    (p.callAction creator name callee arguments).Fine p := by
  -- What is called without a receiver, and what is called with one.
  have function {d : NodeId} (hd : p.IsFunction d) (closure : Option ScopeId)
      {this : Option Value} (ht : ∀ v, this = some v → v.Sound p) :
      Action.Fine p (if (p.node? d).any Node.isAbstractFunction then
        .raise ⟨.function (p.primaryName? d), creator⟩
      else .call ⟨creator, d, closure, this, arguments⟩) := by
    split
    · exact ExceptionKind.noConfusion
    · next h => exact ⟨compileBody_ne_nil_of_isFunction hp hd (by simpa using h), ht, ha⟩
  unfold callAction
  dsimp only
  split
  · exact function hc _ nofun
  · exact function hc.1 _ fun v hv => by cases hv; exact hc.2
  · split
    · exact ⟨compileBody_ne_nil_of_isStructure hc, nofun, ha⟩
    · exact ExceptionKind.noConfusion
  · exact ExceptionKind.noConfusion

/-- With enough values, none of those that are taken is missing. -/
theorem taken_eq {count : Nat} (h : count ≤ f.operands.length) (id : NodeId) :
    taken f id count = (f.operands.take count).reverse := by
  unfold taken
  simp [List.length_take, Nat.min_eq_left h]

theorem sound_taken (hf : f.Sound p) {count : Nat} (h : count ≤ f.operands.length) (id : NodeId) :
    ∀ v ∈ taken f id count, v.Sound p := by
  rw [taken_eq h]
  intro v hv
  exact hf.operands v (List.mem_of_mem_take (List.mem_reverse.1 hv))

theorem length_taken {count : Nat} (h : count ≤ f.operands.length) (id : NodeId) :
    (taken f id count).length = count := by
  rw [taken_eq h, List.length_reverse, List.length_take, Nat.min_eq_left h]

/-- No exception is among sound values. -/
theorem findSome?_exception?_eq_none {vs : List Value} (h : ∀ v ∈ vs, v.Sound p) :
    vs.findSome? Value.exception? = none := by
  rw [List.findSome?_eq_none_iff]
  exact fun v hv => (h v hv).exception?_eq_none

/-- The start of an evaluation takes the callee and the arguments. -/
theorem startEvaluation_frame (f : Frame) (id : NodeId) :
    (p.startEvaluation f id).1 = f.drop (p.callValues id) := by
  unfold startEvaluation callValues
  cases hn : p.node? id with
  | none => rfl
  | some n =>
    cases n with
    | binaryOperation left op right =>
      dsimp only
      split
      · rfl
      · split <;> rfl
      · rfl
    | evaluate function is =>
      dsimp only
      split <;> rfl
    | _ => rfl

/-- The finish of a node takes values from the frame. -/
theorem finish_drops (m : Machine) (f : Frame) (below : List Frame) (s : Step)
    (prior : Option Value) : ∃ count, (p.finish m f below s prior).frame = f.drop count := by
  unfold finish passed
  dsimp only
  repeat' split
  all_goals first | exact ⟨_, rfl⟩ | exact ⟨0, rfl⟩

/-- A step changes nothing of its frame but the values, and leaves no exception there. -/
theorem execute_frame (m : Machine) (f : Frame) (below : List Frame) (s : Step) :
    ∃ vs, (p.execute m f below s).1 = { f with operands := vs } ∧
      ∀ v ∈ vs, v ∈ f.operands ∨ v.exception? = none := by
  have dropped (count : Nat) : ∃ vs, f.drop count = { f with operands := vs } ∧
      ∀ v ∈ vs, v ∈ f.operands ∨ v.exception? = none :=
    ⟨_, rfl, fun v hv => .inl (List.mem_of_mem_drop hv)⟩
  have same : ∃ vs, f = { f with operands := vs } ∧
      ∀ v ∈ vs, v ∈ f.operands ∨ v.exception? = none := dropped 0
  have leave (prior : Option Value) :
      ∃ vs, (p.leave m below s (p.finish m f below s prior)).1 = { f with operands := vs } ∧
        ∀ v ∈ vs, v ∈ f.operands ∨ v.exception? = none := by
    obtain ⟨count, hr⟩ := p.finish_drops m f below s prior
    generalize p.finish m f below s prior = r at hr
    cases hv : r.value.exception? with
    | some e =>
      rw [leave_of_exception (Value.eq_exception hv), hr]
      exact dropped count
    | none =>
      rw [leave_of_value hv, hr]
      refine ⟨r.value :: f.operands.drop count, rfl, fun v hmem => ?_⟩
      rcases List.mem_cons.1 hmem with rfl | hmem
      · exact .inr hv
      · exact .inl (List.mem_of_mem_drop hmem)
  unfold execute
  split
  · exact same
  · exact leave _
  · exact leave _
  · dsimp only
    split <;> (split <;> first | exact dropped _ | exact same)
  · exact same
  · rw [p.startEvaluation_frame f s.node]
    exact dropped _

/-- The start of an evaluation with sound values calls a body that has code, or raises
    an exception that is not about a missing value. -/
theorem fine_startEvaluation (hp : p.Grounded) (hf : f.Sound p) {id : NodeId}
    (hneed : p.callValues id ≤ f.operands.length) : (p.startEvaluation f id).2.Fine p := by
  unfold callValues at hneed
  unfold startEvaluation
  cases hn : p.node? id with
  | none => exact ExceptionKind.noConfusion
  | some n =>
    rw [hn] at hneed
    cases n with
    | binaryOperation left op right =>
      have hs := sound_taken hf hneed id
      have hl := length_taken hneed id
      have he := findSome?_exception?_eq_none hs
      dsimp only
      split
      · next e _ h => rw [h] at he; cases he
      · next l r _ htaken =>
        rw [htaken] at hs
        split
        · next method hmethod =>
          exact fine_callAction hp _ _ (sound_method? hp (hs l (by simp)) hmethod)
            fun v hv => hs v (by simp_all)
        · exact ExceptionKind.noConfusion
      · next hno =>
        obtain ⟨l, vs, htaken⟩ := List.exists_cons_of_length_eq_add_one hl
        rw [htaken, List.length_cons] at hl
        obtain ⟨r, ws, rfl⟩ := List.exists_cons_of_length_eq_add_one (Nat.succ.inj hl)
        obtain rfl := List.length_eq_zero_iff.1 (by simpa using hl)
        exact absurd htaken (hno l r)
    | evaluate function is =>
      have hs := sound_taken hf hneed id
      have hl := length_taken hneed id
      have he := findSome?_exception?_eq_none hs
      dsimp only
      split
      · next e _ h => rw [h] at he; cases he
      · next callee arguments _ htaken =>
        rw [htaken] at hs
        exact fine_callAction hp _ _ (hs callee (by simp)) fun v hv => hs v (by simp [hv])
      · next htaken => rw [htaken] at hl; cases hl
    | _ => exact ExceptionKind.noConfusion

/-! ## Opening frames -/

theorem literal?_primitive {id : NodeId} {v : Value} (h : p.literal? id = some v) :
    ∃ q, v.primitive? = some q := by
  unfold literal? at h
  split at h <;> cases h <;> exact ⟨_, rfl⟩

theorem defaultValue?_primitive {input : NodeId} {v : Value} (h : p.defaultValue? input = some v) :
    ∃ q, v.primitive? = some q := by
  unfold defaultValue? at h
  split at h
  · exact literal?_primitive h
  · cases h

/-- The inputs get arguments, one by one, or else primitive values. -/
theorem inputValues_cases {inputs : List NodeId} {arguments : List Value}
    {values : List (NodeId × Value)} (h : p.inputValues inputs arguments = .ok values) :
    values.map Prod.fst = inputs ∧
      ∀ x ∈ values, x.2 ∈ arguments ∨ ∃ q, x.2.primitive? = some q := by
  fun_induction inputValues p inputs arguments generalizing values with
  | case1 => cases h; exact ⟨rfl, nofun⟩
  | case2 input inputs v arguments ih =>
    cases hr : p.inputValues inputs arguments with
    | error e => rw [hr] at h; cases h
    | ok rest =>
      rw [hr] at h
      cases h
      obtain ⟨hfst, hrest⟩ := ih hr
      refine ⟨congrArg (input :: ·) hfst, ?_⟩
      rintro x (_ | ⟨_, hx⟩)
      · exact .inl List.mem_cons_self
      · exact (hrest x hx).imp_left (List.mem_cons_of_mem _)
  | case3 input inputs v hv ih =>
    cases hr : p.inputValues inputs [] with
    | error e => rw [hr] at h; cases h
    | ok rest =>
      rw [hr] at h
      cases h
      obtain ⟨hfst, hrest⟩ := ih hr
      refine ⟨congrArg (input :: ·) hfst, ?_⟩
      rintro x (_ | ⟨_, hx⟩)
      · exact .inr (defaultValue?_primitive hv)
      · exact hrest x hx
  | case4 => cases h

/-- A table into which entries are inserted holds what it held, or an entry. -/
theorem get?_foldl_insert {κ α : Type} [DecidableEq κ] {entries : List (κ × α)} {t : Table κ α}
    {k : κ} {a : α} (h : (entries.foldl (fun t (k, a) => t.insert k a) t).get? k = some a) :
    t.get? k = some a ∨ (k, a) ∈ entries := by
  induction entries generalizing t with
  | nil => exact Or.inl h
  | cons x entries ih =>
    rcases ih h with h | ha
    · rw [Table.get?_insert] at h
      split at h
      · next e => cases h; exact Or.inr (by rw [← e]; exact List.mem_cons_self)
      · exact Or.inl h
    · exact Or.inr (List.mem_cons_of_mem _ ha)

theorem isSome_get?_foldl_insert {κ α : Type} [DecidableEq κ] {entries : List (κ × α)}
    {t : Table κ α} {k : κ} (h : (t.get? k).isSome ∨ k ∈ entries.map Prod.fst) :
    ((entries.foldl (fun t (k, a) => t.insert k a) t).get? k).isSome := by
  induction entries generalizing t with
  | nil => simpa using h
  | cons x entries ih =>
    refine ih ?_
    rw [Table.get?_insert]
    rcases h with h | h
    · left
      split
      · rfl
      · exact h
    · rcases List.mem_cons.1 h with rfl | h
      · simp
      · exact .inr h

/-- The scope of a call is inside the one that is closed over, and binds the inputs alone, to
    arguments or primitive values. -/
theorem callScope_ok {c : Call} {scope : Scope} (h : p.callScope c = .ok scope) :
    scope.parent = c.closure ∧
      (∀ x, (scope.bindings.get? x).isSome ↔ x ∈ p.inputs c.definition) ∧
      ∀ x v, scope.bindings.get? x = some v → v ∈ c.arguments ∨ ∃ q, v.primitive? = some q := by
  unfold callScope at h
  split at h
  · cases h
  next values hvalues =>
  cases h
  obtain ⟨hfst, hcases⟩ := inputValues_cases hvalues
  refine ⟨rfl, fun x => ⟨fun hx => ?_, fun hx => ?_⟩, fun x v hv => ?_⟩
  · obtain ⟨v, hv⟩ := Option.isSome_iff_exists.1 hx
    rcases get?_foldl_insert hv with hv | hv
    · cases hv
    · exact hfst ▸ List.mem_map.2 ⟨_, hv, rfl⟩
  · exact isSome_get?_foldl_insert (.inr (hfst ▸ hx))
  · rcases get?_foldl_insert hv with hv | hv
    · cases hv
    · exact hcases _ hv

/-- The scope of a sound call holds sound values. -/
theorem sound_callScope {c : Call} (hc : c.Sound p) {scope : Scope}
    (h : p.callScope c = .ok scope) : ∀ d v, scope.bindings.get? d = some v → v.Sound p := by
  intro d v hv
  rcases (callScope_ok h).2.2 d v hv with hv | ⟨q, hq⟩
  · exact hc.arguments v hv
  · exact primitive_sound hq

theorem callScope_error {c : Call} {e : Exception} (h : p.callScope c = .error e) :
    e.kind ≠ .empty := by
  unfold callScope at h
  split at h <;> cases h
  exact ExceptionKind.noConfusion

end Program

end Arbor
