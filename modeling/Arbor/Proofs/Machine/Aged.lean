/-
  Scopes are well-founded.

  Scopes refer to each other in circles: a function is bound in the scope that it closes
  over.  But the scope around a scope was there before it, and so was the scope of every
  instance among the inputs of an instance: the inputs are bound when the scope of the
  instance is created, to values that are there already, and the body of a structure binds
  none of them again.

  Which scopes are those of instances is said by `Owners`, the definitions that the scopes
  were created for.

  * `Scopes.Founded` is the invariant of the scopes, and `Value.Held` that of the values;
  * `Machine.Held` is that of the machine, which every step keeps.

  Main statement: `Reachable.aged`, after every history the scopes are well-founded, and
  looking up and describing end.
-/
import Arbor.Proofs.Machine.Clean
import Arbor.Proofs.Machine.Reevaluation
import Arbor.Proofs.Machine.Sources
import Arbor.Proofs.Program.Rooted
import Arbor.Proofs.Value.Reading

namespace Arbor

/-! ## The invariant -/

/-- The definitions that scopes were created for; those of the program are for none. -/
abbrev Owners := ScopeId → Option NodeId

/-- The owners after a scope was created. -/
def Owners.insert (owner : Owners) (s : ScopeId) (d : Option NodeId) : Owners :=
  fun t => if t = s then d else owner t

/-- There are more scopes, and those that were there have the same owners. -/
structure Owners.Later (owner : Owners) (n : Nat) (owner' : Owners) (n' : Nat) : Prop where
  le : n ≤ n'
  eq : ∀ s, s.index < n → owner' s = owner s

/-- The definition is below a root, and closes over one of the first `n` scopes. -/
structure Program.Closed (p : Program) (n : Nat) (d : NodeId) (closure : Option ScopeId) :
    Prop where
  rooted : p.Rooted d
  inside : ∀ s, closure = some s → s.index < n

/-- The value refers to the first `n` scopes only, and an instance to a scope that was
    created for its structure. -/
def Value.Held (p : Program) (owner : Owners) (n : Nat) : Value → Prop
  | function d closure | definition d closure => p.Closed n d closure
  | method d closure receiver => p.Closed n d closure ∧ receiver.Held p owner n
  | instanceOf d s => (p.IsStructure d ∧ p.Rooted d) ∧ s.index < n ∧ owner s = some d
  | _ => True

/-- The scope that a value closes over, or that of an instance. -/
def Value.scope? : Value → Option ScopeId
  | function _ closure | method _ closure _ | definition _ closure => closure
  | instanceOf _ s => some s
  | _ => none

/-- The scope around a scope was there before it, scopes bind values that are held, and a
    scope that was created for a structure binds its inputs to values that were there. -/
structure Scopes.Founded (p : Program) (owner : Owners) (σ : Scopes) : Prop where
  parent : ∀ id outer, σ.parent? id = some outer → outer.index < id.index
  values : σ.All (Value.Held p owner σ.size)
  inputs : ∀ id d, id.index < σ.size → owner id = some d → p.IsStructure d →
    ∀ i ∈ p.inputs d, ∃ v, σ.own? id i = some v ∧ v.Older id

/-- The frame runs the code of the definition that its scope was created for, with values
    that are held. -/
structure Frame.Held (p : Program) (owner : Owners) (n : Nat) (f : Frame) : Prop where
  operands : ∀ v ∈ f.operands, v.Held p owner n
  this : ∀ v, f.this = some v → v.Held p owner n
  scope : f.scope.index < n
  owner : owner f.scope = f.definition
  body : p.Body f.definition f.steps.toList

/-- The call is of a definition in a scope that is there, with values that are held. -/
structure Call.Held (p : Program) (owner : Owners) (n : Nat) (c : Call) : Prop where
  closed : p.Closed n c.definition c.closure
  this : ∀ v, c.this = some v → v.Held p owner n
  arguments : ∀ v ∈ c.arguments, v.Held p owner n

/-- The scopes are well-founded, and whatever the machine keeps is held. -/
structure Machine.Held (p : Program) (owner : Owners) (m : Machine) : Prop where
  scopes : m.store.scopes.Founded p owner
  remembered : ∀ id v, m.store.remembered.get? id = some v →
    v.Held p owner m.store.scopes.size
  frames : ∀ f ∈ m.frames, f.Held p owner m.store.scopes.size
  streams : ∀ s v, m.streams.get? s = some v → ∃ q, v.primitive? = some q
  pending : ∀ x ∈ m.pending, ∃ q, x.2.primitive? = some q
  result : ∀ v, m.result = some v → v.Held p owner m.store.scopes.size

/-- The machine is held for some owners of its scopes. -/
def Machine.Founded (p : Program) (m : Machine) : Prop := ∃ owner, m.Held p owner

variable {p : Program} {owner owner' : Owners} {n n' : Nat} {v : Value} {σ : Scopes}

/-! ## Values -/

theorem Program.Closed.later {d : NodeId} {closure : Option ScopeId}
    (h : p.Closed n d closure) (hn : n ≤ n') : p.Closed n' d closure :=
  ⟨h.rooted, fun s hs => Nat.lt_of_lt_of_le (h.inside s hs) hn⟩

namespace Value

theorem held_of_primitive {q : Primitive} (h : v.primitive? = some q) : v.Held p owner n := by
  cases v <;> first | exact trivial | cases h

theorem Held.inside (h : v.Held p owner n) {s : ScopeId} (hs : v.scope? = some s) :
    s.index < n := by
  cases v with
  | function | definition => exact Program.Closed.inside h s hs
  | method => exact h.1.inside s hs
  | instanceOf => cases hs; exact h.2.1
  | _ => cases hs

/-- A value is older than the next scope. -/
theorem Held.older (h : v.Held p owner n) : v.Older ⟨n⟩ := by
  cases v with
  | instanceOf => exact h.2.1
  | _ => trivial

/-- Values go on to be held when scopes are created. -/
theorem Held.later (h : v.Held p owner n) (hl : owner.Later n owner' n') :
    v.Held p owner' n' := by
  induction v with
  | function | definition => exact Program.Closed.later h hl.le
  | method _ _ _ ih => exact ⟨h.1.later hl.le, ih h.2⟩
  | instanceOf d s =>
    obtain ⟨hd, hs, ho⟩ := h
    exact ⟨hd, Nat.lt_of_lt_of_le hs hl.le, (hl.eq s hs).trans ho⟩
  | _ => trivial

end Value

theorem Frame.Held.later {f : Frame} (h : f.Held p owner n) (hl : owner.Later n owner' n') :
    f.Held p owner' n' where
  operands v hv := (h.operands v hv).later hl
  this v hv := (h.this v hv).later hl
  scope := Nat.lt_of_lt_of_le h.scope hl.le
  owner := (hl.eq _ h.scope).trans h.owner
  body := h.body

/-- A frame of the same evaluation, with values that are held. -/
theorem Frame.Held.same {f g : Frame} (h : f.Held p owner n) (hfg : f.Same g)
    (hg : ∀ v ∈ g.operands, v.Held p owner n) : g.Held p owner n where
  operands := hg
  this := hfg.this ▸ h.this
  scope := hfg.scope ▸ h.scope
  owner := hfg.scope ▸ hfg.definition ▸ h.owner
  body := hfg.definition ▸ hfg.steps ▸ h.body

/-- A frame that goes on elsewhere, or unwinds. -/
theorem Frame.Held.moved {f : Frame} (h : f.Held p owner n) (pc : Nat) (phase : Phase) :
    Frame.Held p owner n { f with pc, phase } :=
  h.same ⟨rfl, rfl, rfl, rfl, rfl⟩ h.operands

/-! ## Scopes -/

theorem Scopes.lt_size_add (σ : Scopes) (scope : Scope) :
    (σ.add scope).1.index < (σ.add scope).2.size :=
  Nat.lt_of_lt_of_eq (Nat.lt_succ_self _) (size_add ..).symm

/-- The owners of the scopes stay when one is created. -/
theorem Owners.later_add (owner : Owners) (σ : Scopes) (scope : Scope) (o : Option NodeId) :
    owner.Later σ.size (owner.insert (σ.add scope).1 o) (σ.add scope).2.size where
  le := by rw [Scopes.size_add]; exact Nat.le_succ _
  eq _ hs := if_neg fun e => Nat.lt_irrefl σ.size (by rw [e] at hs; exact hs)

namespace Scopes.Founded

theorem empty (p : Program) (owner : Owners) : Scopes.empty.Founded p owner where
  parent id outer h := by cases h
  values := all_empty
  inputs id d hid := absurd hid (Nat.not_lt_zero _)

variable (h : σ.Founded p owner)
include h

/-- Binding a value that is held, but to no input of the structure whose scope it is. -/
theorem define {id : ScopeId} {x : NodeId} (hv : v.Held p owner σ.size)
    (hx : ∀ d, owner id = some d → p.IsStructure d → x ∉ p.inputs d) :
    (σ.define id x v).Founded p owner where
  parent id' outer ho := h.parent id' outer ((parent?_define σ id x v id').symm.trans ho)
  values := by rw [size_define]; exact h.values.define hv
  inputs id' d hid ho hd i hi := by
    rw [size_define] at hid
    obtain ⟨w, hw, hold⟩ := h.inputs id' d hid ho hd i hi
    refine ⟨w, ?_, hold⟩
    by_cases hin : id.index < σ.size
    · rw [own?_define σ hin, if_neg]
      · exact hw
      · rintro ⟨rfl, rfl⟩
        exact hx d ho hd hi
    · rwa [define_of_le (Nat.le_of_not_lt hin)]

/-- Creating a scope in one that is there, with values that are held, and with the inputs of
    the structure that it is created for. -/
theorem add {scope : Scope} {o : Option NodeId}
    (hparent : ∀ outer, scope.parent = some outer → outer.index < σ.size)
    (hvalues : ∀ x v, scope.bindings.get? x = some v → v.Held p owner σ.size)
    (hinputs : ∀ d, o = some d → ∀ i ∈ p.inputs d, (scope.bindings.get? i).isSome) :
    (σ.add scope).2.Founded p (owner.insert (σ.add scope).1 o) where
  parent id outer ho := by
    rcases Nat.lt_trichotomy id.index σ.size with hid | hid | hid
    · rw [parent?_add_of_lt σ scope hid] at ho
      exact h.parent id outer ho
    · rw [parent?, get?_add, if_pos hid] at ho
      rw [hid]
      exact hparent outer ho
    · rw [parent?, get?_eq_none_iff.2 (by rw [size_add]; exact hid)] at ho
      cases ho
  values := by
    have hl := owner.later_add σ scope o
    exact Scopes.All.add (fun id d w hw => (h.values id d w hw).later hl)
      fun d w hw => (hvalues d w hw).later hl
  inputs id d hid ho hd i hi := by
    rw [size_add] at hid
    by_cases hlt : id.index < σ.size
    · rw [(owner.later_add σ scope o).eq id hlt] at ho
      rw [own?_add_of_lt σ scope hlt]
      exact h.inputs id d hlt ho hd i hi
    · obtain rfl : id = (σ.add scope).1 := by
        cases id
        exact congrArg ScopeId.mk (Nat.le_antisymm (Nat.le_of_lt_succ hid) (Nat.le_of_not_lt hlt))
      rw [Owners.insert, if_pos rfl] at ho
      obtain ⟨w, hw⟩ := Option.isSome_iff_exists.1 (hinputs d ho i hi)
      exact ⟨w, (own?_add_new σ scope i).trans hw, (hvalues i w hw).older⟩

end Scopes.Founded

/-! ## What a step leaves -/

namespace Program

variable {m : Machine} {f : Frame} {below : List Frame} {s : Step} {c : Call}

section
variable (hp : p.Wooded) (hm : m.Held p owner) (hf : f.Held p owner m.store.scopes.size)
variable (hb : ∀ g ∈ below, g.Held p owner m.store.scopes.size) (hs : s ∈ f.steps.toList)
include hp hm hf hb hs

/-- Whatever arises in a step is held. -/
theorem held_of_arises (h : p.Arises m f below s v) : v.Held p owner m.store.scopes.size := by
  have inScope (d : NodeId) (hd : p.Rooted d) :
      p.Closed m.store.scopes.size d (some f.scope) :=
    ⟨hd, fun t ht => by cases ht; exact hf.scope⟩
  have hnode := hp.rooted_body hf.body hs
  cases h with
  | exception => trivial
  | primitive hq => exact Value.held_of_primitive hq
  | operand hv => exact hf.operands v hv
  | remembered hv => exact hm.remembered _ v hv
  | bound hv => exact hm.scopes.values _ _ v hv
  | stream hv =>
    obtain ⟨q, hq⟩ := hm.streams _ v hv
    exact Value.held_of_primitive hq
  | this hg hv =>
    rcases List.mem_cons.1 hg with rfl | hg
    · exact hf.this v hv
    · exact (hb _ hg).this v hv
  | function hd => exact inScope _ (hp.rooted_resolve hd rfl)
  | structureDef hd => exact inScope _ (hp.rooted_resolve hd rfl)
  | method hv hd =>
    have hinstance := hf.operands _ hv
    refine ⟨⟨hp.inherited_rooted.member hinstance.1.2 hd rfl, fun t ht => ?_⟩, hinstance⟩
    cases ht
    exact hinstance.2.1
  | member hv hd =>
    have hinstance := hf.operands _ hv
    refine ⟨hp.inherited_rooted.member hinstance.1.2 hd rfl, fun t ht => ?_⟩
    cases ht
    exact hinstance.2.1
  | primitiveMethod hv hd =>
    exact ⟨⟨hp.rooted_method hd, fun t ht => by cases ht⟩, hf.operands _ hv⟩
  | ownFunction =>
    cases hthis : f.this with
    | none => exact inScope _ hnode
    | some w => exact ⟨inScope _ hnode, hf.this w hthis⟩
  | ownStructure => exact inScope _ hnode
  | instanceOf hn hk =>
    exact ⟨⟨hn, hnode⟩, hf.scope, hf.owner.trans (hp.eq_of_finish hf.body hs hk hn)⟩

theorem held_of_callsFrom (h : p.CallsFrom m f below s c) :
    c.Held p owner m.store.scopes.size := by
  obtain ⟨v, hof, hv⟩ := h.callee
  have hv := held_of_arises hp hm hf hb hs hv
  have harguments := fun w hw => held_of_arises hp hm hf hb hs (h.arguments w hw)
  have plain (hthis : c.this = none) : ∀ w, c.this = some w →
      w.Held p owner m.store.scopes.size := by
    rw [hthis]
    exact fun w hw => by cases hw
  cases hof with
  | function hthis => exact ⟨hv, plain hthis, harguments⟩
  | structureDef hthis => exact ⟨hv, plain hthis, harguments⟩
  | method hthis =>
    refine ⟨hv.1, fun w hw => ?_, harguments⟩
    cases hthis.symm.trans hw
    exact hv.2

/-- **What a step leaves** is held, and so is what it asks to call. -/
theorem execute_held :
    (p.execute m f below s).1.Held p owner m.store.scopes.size ∧
      (p.execute m f below s).2.1.Held p owner ∧
      (p.execute m f below s).2.1.store.scopes.size = m.store.scopes.size ∧
      ∀ c, (p.execute m f below s).2.2 = .call c → c.Held p owner m.store.scopes.size := by
  have arisen {v : Value} (hv : p.Arises m f below s v) : v.Held p owner m.store.scopes.size :=
    held_of_arises hp hm hf hb hs hv
  have hleaves := leavesArisen_execute (p := p) m f below s
  obtain ⟨store, hstore, -⟩ := execute_machine (p := p) m f below s
  rcases hr : p.execute m f below s with ⟨g, m₁, action⟩
  rw [hr] at hleaves hstore
  obtain ⟨hsame, hoperands, hscopes, hremembered, hacts⟩ := hleaves
  cases hstore
  -- The node of the step is bound in the scope of the frame, which owns no such input.
  have hfounded : store.scopes.Founded p owner ∧ store.scopes.size = m.store.scopes.size := by
    rcases hscopes with hscopes | ⟨-, v, hv, hscopes⟩ <;> dsimp only at hscopes <;> rw [hscopes]
    · exact ⟨hm.scopes, rfl⟩
    · refine ⟨hm.scopes.define (arisen hv) fun d ho hd => ?_, Scopes.size_define ..⟩
      exact hp.not_mem_inputs (hf.owner.symm.trans ho ▸ hf.body) hd hs
  obtain ⟨hfounded, hsize⟩ := hfounded
  refine ⟨?_, ⟨hfounded, ?_, ?_, hm.streams, hm.pending, ?_⟩, hsize, fun c hc => ?_⟩
  · exact hf.same hsame fun v hv => arisen (hoperands v hv)
  · exact fun id v hv => hsize ▸ arisen (hremembered id v hv)
  · exact hsize ▸ hm.frames
  · exact hsize ▸ hm.result
  · exact held_of_callsFrom hp hm hf hb hs (hacts.calls c hc)

end

/-- The scope of a call is inside the one that is closed over, and binds every input. -/
theorem held_callScope {scope : Scope} (hc : c.Held p owner n) (h : p.callScope c = .ok scope) :
    scope.parent = c.closure ∧
      (∀ x v, scope.bindings.get? x = some v → v.Held p owner n) ∧
      ∀ i ∈ p.inputs c.definition, (scope.bindings.get? i).isSome := by
  obtain ⟨hparent, hinputs, hvalues⟩ := callScope_ok h
  refine ⟨hparent, fun x v hv => ?_, fun i hi => (hinputs i).2 hi⟩
  rcases hvalues x v hv with hv | ⟨q, hq⟩
  · exact hc.arguments v hv
  · exact Value.held_of_primitive hq

end Program

/-! ## Steps keep scopes well-founded -/

namespace Machine

variable {limits : Limits} {m : Machine} {f : Frame} {below : List Frame} {s : Step}

/-- A machine stays held with frames that are held. -/
theorem Held.withFrames (h : m.Held p owner) {frames : List Frame}
    (hf : ∀ f ∈ frames, f.Held p owner m.store.scopes.size) :
    Machine.Held p owner { m with frames } :=
  ⟨h.scopes, h.remembered, hf, h.streams, h.pending, h.result⟩

/-- A scope is created in one that is there. -/
theorem Held.addScope (h : m.Held p owner) (scope : Scope) (o : Option NodeId)
    (hparent : ∀ outer, scope.parent = some outer → outer.index < m.store.scopes.size)
    (hvalues : ∀ x v, scope.bindings.get? x = some v → v.Held p owner m.store.scopes.size)
    (hinputs : ∀ d, o = some d → ∀ i ∈ p.inputs d, (scope.bindings.get? i).isSome) :
    (m.addScope scope).2.Held p (owner.insert (m.addScope scope).1 o) := by
  have hl := owner.later_add m.store.scopes scope o
  exact ⟨h.scopes.add hparent hvalues hinputs, fun id v hv => (h.remembered id v hv).later hl,
    fun f hf => (h.frames f hf).later hl, h.streams, h.pending,
    fun v hv => (h.result v hv).later hl⟩

theorem Held.beginRun (h : m.Held p owner) (reevaluating : Bool) :
    (m.beginRun p reevaluating).Founded p := by
  have hadded := h.addScope ⟨.empty, none⟩ none (fun _ ho => by cases ho)
    (fun _ _ hv => by cases hv) fun _ ho => by cases ho
  refine ⟨_, hadded.scopes, hadded.remembered, fun f hf => ?_, hadded.streams, hadded.pending,
    fun v hv => (by cases hv)⟩
  rw [List.mem_singleton.1 hf]
  exact ⟨fun v hv => absurd hv List.not_mem_nil, fun v hv => (by cases hv),
    m.store.scopes.lt_size_add _, if_pos rfl, .program⟩

theorem Held.endRun (h : m.Held p owner) (hv : v.Held p owner m.store.scopes.size) :
    (m.endRun p v).Founded p := by
  have hended : Machine.Held p owner
      { m with frames := [], result := some v, runs := m.runs + 1 } :=
    ⟨h.scopes, h.remembered, fun f hf => absurd hf List.not_mem_nil, h.streams, h.pending,
      fun w hw => by cases hw; exact hv⟩
  rcases endRun_cases p m v with ⟨-, he⟩ | ⟨id, input, pending, hpending, he⟩ <;> rw [he]
  · exact ⟨owner, hended⟩
  · obtain ⟨hinput, hpending⟩ := List.forall_mem_cons.1 (hpending ▸ h.pending)
    have hnext : Machine.Held p owner { m with
        frames := [], result := some v, runs := m.runs + 1, pending := pending,
        streams := m.streams.insert id input } :=
      ⟨hended.scopes, hended.remembered, hended.frames, forall_stream_insert hinput h.streams,
        hpending, hended.result⟩
    exact hnext.beginRun true

section
variable (h : m.Held p owner) (hf : f.Held p owner m.store.scopes.size)
variable (hb : ∀ g ∈ below, g.Held p owner m.store.scopes.size)
include h hf hb

theorem Held.raise (e : Exception) : (m.raise f below s e).2.Founded p :=
  ⟨owner, h.withFrames (List.forall_mem_cons.2 ⟨hf.moved f.pc (.unwinding e), hb⟩)⟩

theorem Held.settle : (m.settle p f below s).2.Founded p := by
  unfold Machine.settle complete
  split
  · split
    · exact ⟨owner, h.withFrames hb⟩
    · next v vs hops => exact h.endRun (hf.operands v (by simp [hops]))
    · next v vs caller rest hops =>
      obtain ⟨hcaller, hrest⟩ := List.forall_mem_cons.1 hb
      have hpushed : (caller.push v).Held p owner m.store.scopes.size :=
        hcaller.same (.push caller v)
          (List.forall_mem_cons.2 ⟨hf.operands v (by simp [hops]), hcaller.operands⟩)
      exact ⟨owner, h.withFrames (List.forall_mem_cons.2 ⟨hpushed, hrest⟩)⟩
  · exact ⟨owner, h.withFrames (List.forall_mem_cons.2 ⟨hf, hb⟩)⟩

/-- The scope of a call is created for the definition that is called. -/
theorem Held.enter {c : Call} (hc : c.Held p owner m.store.scopes.size) :
    (m.enter p limits f below s c).2.Founded p := by
  unfold Machine.enter
  split
  · exact h.raise hf hb _
  · split
    · exact h.raise hf hb _
    · next scope hscope =>
      obtain ⟨hparent, hvalues, hinputs⟩ := Program.held_callScope hc hscope
      have hadded := Held.addScope (h.withFrames (List.forall_mem_cons.2 ⟨hf, hb⟩)) scope
        (some c.definition)
        (fun outer ho => hc.closed.inside outer (hparent.symm.trans ho)) hvalues
        fun d hd => by cases hd; exact hinputs
      have hl := owner.later_add m.store.scopes scope (some c.definition)
      exact ⟨_, hadded.withFrames (List.forall_mem_cons.2 ⟨⟨fun v hv => absurd hv List.not_mem_nil,
        fun v hv => (hc.this v hv).later hl, m.store.scopes.lt_size_add scope, if_pos rfl,
        .definition hc.closed.rooted⟩, hadded.frames⟩)⟩

theorem Held.act {action : Action}
    (hc : ∀ c, action = .call c → c.Held p owner m.store.scopes.size) :
    (m.act p limits f below s action).2.Founded p := by
  cases action with
  | proceed => exact h.settle hf hb
  | skip count => exact h.settle (hf.moved _ f.phase) hb
  | jump offset =>
    unfold Machine.act
    dsimp only
    split
    · exact ⟨owner, h.withFrames (List.forall_mem_cons.2 ⟨hf, hb⟩)⟩
    · exact h.settle (hf.moved _ f.phase) hb
  | raise e => exact h.raise hf hb e
  | call c => exact h.enter hf hb (hc c rfl)

end

/-- **Each step keeps the scopes well-founded.** -/
theorem Founded.step (hp : p.Wooded) (h : m.Founded p) : (m.step p limits).2.Founded p := by
  obtain ⟨owner, h⟩ := h
  cases hm : m.frames with
  | nil =>
    rw [step_closed hm]
    exact ⟨owner, h⟩
  | cons f below =>
    obtain ⟨hf, hb⟩ := List.forall_mem_cons.1 (hm ▸ h.frames)
    cases he : f.exception? with
    | some e =>
      rw [step_unwinding hm (f.exception?_eq_some_iff.1 he)]
      cases below with
      | nil => exact h.endRun trivial
      | cons caller rest =>
        obtain ⟨hcaller, hrest⟩ := List.forall_mem_cons.1 hb
        exact ⟨owner, h.withFrames (List.forall_mem_cons.2
          ⟨hcaller.moved caller.pc (.unwinding e), hrest⟩)⟩
    | none =>
      cases hc : f.code with
      | nil =>
        rw [step_stuck hm he hc]
        exact ⟨owner, h.withFrames (List.forall_mem_cons.2 ⟨hf.moved f.pc .running, hb⟩)⟩
      | cons s rest =>
        have hadvance : f.advance.Held p owner m.store.scopes.size :=
          hf.moved (f.pc + 1) .running
        have hs : s ∈ f.code := by rw [hc]; exact List.mem_cons_self
        have hheld := Program.execute_held hp h hadvance hb (List.mem_of_mem_drop hs)
        rcases hr : p.execute m f.advance below s with ⟨g, m₁, action⟩
        rw [hr] at hheld
        obtain ⟨hg, hm₁, hsize, hcalls⟩ := hheld
        rw [step_running hm he hc hr]
        have hstart : Machine.Held p owner { m₁ with stepsTaken := m₁.stepsTaken + 1 } :=
          ⟨hm₁.scopes, hm₁.remembered, hm₁.frames, hm₁.streams, hm₁.pending, hm₁.result⟩
        dsimp only at hsize
        exact hstart.act (hsize ▸ hg) (hsize ▸ hb) (hsize ▸ hcalls)

/-! ## After every history -/

/-- After every history with primitive values for the streams, the scopes are
    well-founded. -/
theorem Reachable.founded (hp : p.Wooded)
    (h : Reachable p limits (fun v => ∃ q, v.primitive? = some q) m) : m.Founded p := by
  refine h.induct (P := fun m => m.Founded p) (fun memo => ?_) ?_ ?_ (fun m h => h.step hp) ?_
  · exact ⟨fun _ => none, .empty p _, fun _ _ hv => (by cases hv),
      fun f hf => absurd hf List.not_mem_nil, fun _ _ hv => (by cases hv),
      fun x hx => absurd hx List.not_mem_nil, fun _ hv => (by cases hv)⟩
  · rintro m ⟨owner, h⟩
    exact Held.beginRun (m := { m with store := { m.store with remembered := .empty } })
      ⟨h.scopes, fun _ _ hv => (by cases hv), h.frames, h.streams, h.pending, h.result⟩ false
  · rintro m ⟨owner, h⟩
    exact h.beginRun true
  · rintro m m' n v ⟨owner, h⟩ hv hinput
    obtain ⟨id, -, ⟨-, rfl⟩ | ⟨-, rfl⟩⟩ := streamInput_cases hinput
    · have hgiven : Machine.Held p owner { m with streams := m.streams.insert id v } :=
        ⟨h.scopes, h.remembered, h.frames, forall_stream_insert hv h.streams, h.pending, h.result⟩
      exact hgiven.beginRun true
    · exact ⟨owner, h.scopes, h.remembered, h.frames, h.streams,
        List.forall_mem_append.2 ⟨h.pending, List.forall_mem_singleton.2 hv⟩, h.result⟩

/-- Whatever a machine stores is held. -/
theorem Held.stores (h : m.Held p owner) {v : Value} (hv : m.Stores v) :
    v.Held p owner m.store.scopes.size := by
  induction hv with
  | value hv =>
    unfold values at hv
    rw [List.mem_reverse] at hv
    obtain ⟨f, hf, hv⟩ := List.mem_flatMap.1 hv
    exact (h.frames f hf).operands _ hv
  | receiver hf hv => exact (h.frames _ hf).this _ hv
  | remembered hv => exact h.remembered _ _ hv
  | bound hv => exact h.scopes.values _ _ _ hv
  | result hv => exact (h.result _ hv).2
  | this _ ih => exact ih.2

/-- The value is on the stack, in a scope or remembered, or one of these was reached from it,
    or it is the result. -/
def Has (m : Machine) (v : Value) : Prop := m.Stores v ∨ m.result = some v

theorem Held.has (h : m.Held p owner) {v : Value} (hv : m.Has v) :
    v.Held p owner m.store.scopes.size :=
  hv.elim h.stores (h.result v)

/-- The scopes of the machine are well-founded by their age, so that looking up and describing
    end. -/
structure Aged (p : Program) (m : Machine) : Prop where
  /-- The scope around a scope was created before it. -/
  parent : ∀ id outer, m.store.scopes.parent? id = some outer → outer.index < id.index
  /-- The inputs of an instance are bound in its scope, and if they are instances, then their
      scopes were created before it. -/
  inputs : ∀ d s, m.Has (.instanceOf d s) → ∀ i ∈ p.inputs d,
    ∃ v, m.store.scopes.own? s i = some v ∧ v.Older s
  /-- So it is with an instance whose body is still running. -/
  opened : ∀ f ∈ m.frames, ∀ d, f.definition = some d → p.IsStructure d → ∀ i ∈ p.inputs d,
    ∃ v, m.store.scopes.own? f.scope i = some v ∧ v.Older f.scope
  /-- The scopes that frames and values refer to are there. -/
  frames : ∀ f ∈ m.frames, f.scope.index < m.store.scopes.size
  values : ∀ v id, m.Has v → v.scope? = some id → id.index < m.store.scopes.size
  /-- Looking up in a scope ends, however far it goes, with what is found. -/
  lookup : ∀ id d found, id.index < m.store.scopes.size →
    (m.store.scopes.Seeks d id found ↔ found = m.store.scopes.lookup id d)
  /-- Describing a value ends, however deep it goes, with the description. -/
  describe : ∀ v words, m.Has v →
    (v.Reads p m.store.scopes words ↔ words = v.describe p m.store.scopes)

/-- **Scopes are well-founded.**  After every history of a machine, with primitive values for
    the streams: the scope around a scope is older than it, and the instances among the inputs
    of an instance have older scopes than it.  So looking up and describing end, although scopes
    bind functions that close over them. -/
theorem Reachable.aged (hp : p.Wooded)
    (h : Reachable p limits (fun v => ∃ q, v.primitive? = some q) m) : m.Aged p := by
  obtain ⟨owner, hm⟩ := h.founded hp
  have hparent := hm.scopes.parent
  have hinputs (d : NodeId) (s : ScopeId)
      (hv : (Value.instanceOf d s).Held p owner m.store.scopes.size) :
      s.index < m.store.scopes.size ∧ ∀ i ∈ p.inputs d, ∃ v, m.store.scopes.own? s i = some v ∧
        v.Older s ∧ v.Held p owner m.store.scopes.size := by
    obtain ⟨⟨hd, -⟩, hs, ho⟩ := hv
    refine ⟨hs, fun i hi => ?_⟩
    obtain ⟨w, hw, hold⟩ := hm.scopes.inputs s d hs ho hd i hi
    exact ⟨w, hw, hold, hm.scopes.values s i w hw⟩
  constructor
  · exact hparent
  · intro d s hv i hi
    obtain ⟨w, hw, hold, -⟩ := (hinputs d s (hm.has hv)).2 i hi
    exact ⟨w, hw, hold⟩
  · exact fun f hf d hd => hm.scopes.inputs f.scope d (hm.frames f hf).scope
      ((hm.frames f hf).owner.trans hd)
  · exact fun f hf => (hm.frames f hf).scope
  · exact fun v id hv => (hm.has hv).inside
  · exact fun id d found hid => Scopes.seeks_iff hparent hid
  · exact fun v words hv => Value.reads_iff hparent hinputs (hm.has hv)

/-! ## Scopes in a circle -/

/-- An instance among the inputs of an instance, beside a function that is bound in the scope
    that it closes over. -/
def nested : Program :=
  .built (do
    let flag ← Build.input "flag" (← Build.booleanType)
    let inner ← Build.structureDef "Inner" [] [flag] []
    let part ← Build.input "part" (← Build.nameType "Inner" [])
    let outer ← Build.structureDef "Outer" [] [part] []
    let again ← Build.function "again" [] none
      (← Build.evaluate (← Build.reference "again") [])
    let made ← Build.evaluate (← Build.reference "Inner") [← Build.boolean true]
    Build.program [] [inner, outer, again, ← Build.evaluate (← Build.reference "Outer") [made]])
    none

theorem wooded_nested : nested.Wooded where
  tree := Program.treeShaped_built (by decide +kernel)
  basis := by
    refine ⟨?_, Arena.extends_of_isPrefix (by decide +kernel) (by decide +kernel)⟩
    unfold nested
    exact Program.basis_built _ _
  detached := detached_built _ _
  once := by
    have hnone : nested.registered = [] := by decide +kernel
    rw [hnone]
    exact fun d hd => absurd hd List.not_mem_nil

/-- The scope of the program binds the function that closes over it, and yet the result can be
    described: each instance in it has an older scope. -/
theorem aged_nested :
    let m := ((Machine.initial default).start nested).after nested default 20
    m.Aged nested ∧ (m.store.scopes.own? ⟨0⟩ ⟨126⟩).bind Value.scope? = some ⟨0⟩ ∧
      ∃ v, m.result = some v ∧ v.scope? = some ⟨2⟩ ∧
        (m.store.scopes.own? ⟨2⟩ ⟨118⟩).bind Value.scope? = some ⟨1⟩ ∧
        v.Reads nested m.store.scopes "Outer(part: Inner(flag: true))" := by
  intro m
  have haged : m.Aged nested := Reachable.aged wooded_nested (.after 20 (.start (.initial default)))
  obtain ⟨hcircle, hresult, hpart, hwords⟩ :
      (m.store.scopes.own? ⟨0⟩ ⟨126⟩).bind Value.scope? = some ⟨0⟩ ∧
        m.result.bind Value.scope? = some ⟨2⟩ ∧
        (m.store.scopes.own? ⟨2⟩ ⟨118⟩).bind Value.scope? = some ⟨1⟩ ∧
        m.result.map (·.describe nested m.store.scopes) =
          some "Outer(part: Inner(flag: true))" := by
    decide +kernel
  obtain ⟨v, hv, hscope⟩ := Option.bind_eq_some_iff.1 hresult
  rw [hv] at hwords
  exact ⟨haged, hcircle, v, hv, hscope, hpart,
    (haged.describe v _ (.inr hv)).2 (Option.some.inj hwords).symm⟩

end Machine

end Arbor
