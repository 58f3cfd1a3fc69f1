/-
  Execution of steps in renamed programs.

  Renamed frames run the same steps at related nodes, with related values; what a step gives
  and asks for is the same but for the names of the nodes.

  * `Frame.Renamed`, `Store.Renamed` and `Machine.Renamed` lift a renaming to machines,
    `Action.Renamed` to what steps ask for.

  Main statements: `renamed_finish`, what nodes give, and `renamed_execute`.
-/
import Arbor.Machine.Step
import Arbor.Proofs.Renaming.Steps
import Arbor.Proofs.Renaming.Values

namespace Arbor

open List (Forall₂)
open Relator (BiUnique)

section
variable (R : NodeId → NodeId → Prop)

/-- The frames are at the same place of their life. -/
inductive Phase.Renamed : Phase → Phase → Prop
  | opened : Phase.Renamed .opened .opened
  | running : Phase.Renamed .running .running
  | unwinding {e e' : Exception} : e.Renamed R e' → Phase.Renamed (.unwinding e) (.unwinding e')

/-- The values are related, one after another. -/
abbrev RenamedValues : List Value → List Value → Prop := Forall₂ (Value.Renamed R)

/-- The frames run the same steps at related nodes and are as far with them. -/
structure Frame.Renamed (f f' : Frame) : Prop where
  definition : Option.Rel R f.definition f'.definition
  creator : R f.creator f'.creator
  steps : RenamedSteps R f.steps.toList f'.steps.toList
  pc : f.pc = f'.pc
  scope : f.scope = f'.scope
  this : Option.Rel (Value.Renamed R) f.this f'.this
  operands : RenamedValues R f.operands f'.operands
  phase : f.phase.Renamed R f'.phase

/-- Scopes, what is remembered and what is known are renamed, and no type is being
    computed. -/
structure Store.Renamed (s s' : Store) : Prop where
  scopes : s.scopes.Renamed R s'.scopes
  remembered : s.remembered.Renamed R (Value.Renamed R) s'.remembered
  memo : s.memo.Renamed R s'.memo
  idle : s.memo.computing = []
  idle' : s'.memo.computing = []

/-- The machines are the same but for the names of the nodes. -/
structure Machine.Renamed (p q : Program) (m m' : Machine) : Prop where
  frames : Forall₂ (Frame.Renamed R) m.frames m'.frames
  store : m.store.Renamed R m'.store
  reevaluating : m.reevaluating = m'.reevaluating
  streams : ∀ {s s' : StreamId}, p.SameStream R q s s' →
    Option.Rel (Value.Renamed R) (m.streams.get? s) (m'.streams.get? s')
  pending : Forall₂ (fun i i' => p.SameStream R q i.1 i'.1 ∧ i.2.Renamed R i'.2) m.pending
    m'.pending
  result : Option.Rel (Value.Renamed R) m.result m'.result
  runs : m.runs = m'.runs
  stepsTaken : m.stepsTaken = m'.stepsTaken

/-- The calls are of related definitions with related values. -/
structure Call.Renamed (c c' : Call) : Prop where
  creator : R c.creator c'.creator
  definition : R c.definition c'.definition
  closure : c.closure = c'.closure
  this : Option.Rel (Value.Renamed R) c.this c'.this
  arguments : RenamedValues R c.arguments c'.arguments

/-- The same is asked for. -/
inductive Action.Renamed : Action → Action → Prop
  | proceed : Action.Renamed .proceed .proceed
  | skip (n : Nat) : Action.Renamed (.skip n) (.skip n)
  | jump (n : Nat) : Action.Renamed (.jump n) (.jump n)
  | raise {e e' : Exception} : e.Renamed R e' → Action.Renamed (.raise e) (.raise e')
  | call {c c' : Call} : c.Renamed R c' → Action.Renamed (.call c) (.call c')

/-- Related values are given, and bound alike. -/
structure Program.Finished.Renamed (r r' : Program.Finished) : Prop where
  value : r.value.Renamed R r'.value
  frame : r.frame.Renamed R r'.frame
  binds : r.binds = r'.binds

end

/-! ## Frames -/

section
variable {R : NodeId → NodeId → Prop}

theorem Step.Renamed.beq_eq (hR : BiUnique R) {s s' : Step} (h : s.Renamed R s') {x y : NodeId}
    (hx : R x y) (k : StepKind) : (s == ⟨x, k⟩) = (s' == ⟨y, k⟩) := by
  obtain ⟨i, j⟩ := s
  obtain ⟨i', j'⟩ := s'
  obtain ⟨hi, rfl⟩ : R i i' ∧ j = j' := ⟨h.node, h.kind⟩
  have heq : i = x ↔ i' = y := Relator.rel_eq hR hi hx
  rw [Bool.eq_iff_iff]
  simp [heq]

namespace Frame.Renamed

variable {f f' : Frame} (h : f.Renamed R f')
include h

theorem size_steps : f.steps.size = f'.steps.size := by
  simpa using h.steps.length_eq

theorem step? (i : Nat) : Option.Rel (Step.Renamed R) f.steps[i]? f'.steps[i]? := by
  rw [← Array.getElem?_toList, ← Array.getElem?_toList]
  exact List.rel_getElem? h.steps i

theorem next? : Option.Rel (Step.Renamed R) f.next? f'.next? := by
  rw [Frame.next?, Frame.next?, h.pc]
  exact h.step? f'.pc

theorem isDone_eq : f.isDone = f'.isDone := by
  rw [isDone, isDone, h.size_steps, h.pc]

theorem top {x y : NodeId} (hx : R x y) : (f.top x).Renamed R (f'.top y) :=
  (List.rel_head? h.operands).getD (.exception ⟨rfl, hx⟩)

theorem push {v w : Value} (hv : v.Renamed R w) : (f.push v).Renamed R (f'.push w) :=
  { h with operands := .cons hv h.operands }

theorem drop (n : Nat) : (f.drop n).Renamed R (f'.drop n) :=
  { h with operands := List.forall₂_drop n h.operands }

theorem advance (n : Nat) :
    Frame.Renamed R { f with pc := f.pc + n } { f' with pc := f'.pc + n } :=
  { h with pc := congrArg (· + n) h.pc }

theorem unwinding {e e' : Exception} (he : e.Renamed R e') :
    Frame.Renamed R { f with phase := .unwinding e } { f' with phase := .unwinding e' } :=
  { h with phase := .unwinding he }

/-- The finish of related nodes is as far away. -/
theorem stepsToFinish?_eq (hR : BiUnique R) {x y : NodeId} (hx : R x y) :
    f.stepsToFinish? x = f'.stepsToFinish? y := by
  have nextPlace (count i : Nat) : nextPlace? f.steps (· == ⟨x, .finish⟩) count i =
      nextPlace? f'.steps (· == ⟨y, .finish⟩) count i := by
    induction count generalizing i with
    | zero => rfl
    | succ count ih =>
      have hs := h.step? i
      rw [nextPlace?, nextPlace?, ih]
      revert hs
      generalize f.steps[i]? = o, f'.steps[i]? = o'
      rintro (hs | _)
      · rw [Option.any_some, Option.any_some, hs.beq_eq hR hx]
      · rfl
  rw [stepsToFinish?, stepsToFinish?, remaining, remaining, nextPlace, h.size_steps, h.pc]

end Frame.Renamed

end

/-! ## Values of nodes -/

namespace Program.Renamed

variable {R : NodeId → NodeId → Prop} {p q : Program} (h : p.Renamed R q)
include h

theorem renamed_literal? {x y : NodeId} (hx : R x y) :
    Option.Rel (Value.Renamed R) (p.literal? x) (q.literal? y) := by
  obtain ⟨n, m, hn, hm, hnm⟩ := h.node hx
  rw [literal?, literal?, hn, hm]
  cases hnm with
  | booleanLiteral b => exact .some (.bool b)
  | numberLiteral bits => exact .some (.number _)
  | textLiteral t =>
    dsimp only
    rw [h.textOf_eq]
    exact .some (.text _)
  | _ => exact .none

theorem renamed_primitiveMethod? {v w : Value} (hv : v.Renamed R w) (n : Name) :
    Option.Rel R (p.primitiveMethod? v n) (q.primitiveMethod? w n) := by
  rw [primitiveMethod?, primitiveMethod?, hv.primitive?_eq]
  cases w.primitive? with
  | none => exact .none
  | some k => exact h.method k n

theorem renamed_method? {v w : Value} (hv : v.Renamed R w) (n : Name) :
    Option.Rel (Value.Renamed R) (p.method? v n) (q.method? w n) := by
  have primitive : Option.Rel (Value.Renamed R)
      ((p.primitiveMethod? v n).map fun f => .method f none v)
      ((q.primitiveMethod? w n).map fun f => .method f none w) :=
    (h.renamed_primitiveMethod? hv n).map fun f g hf => .method none hf hv
  cases hv with
  | @instanceOf d e scope hd =>
    have hmember := h.renamed_member n hd
    unfold method?
    dsimp only
    revert hmember
    generalize p.member d n = o, q.member e n = o'
    rintro (hmember | _)
    · cases hmember with
      | function hf => exact .some (.method _ hf (.instanceOf scope hd))
      | _ => exact .none
    · exact .none
  | _ => exact primitive

theorem renamed_propertyValue {s s' : Scopes} (hs : s.Renamed R s') {x y : NodeId} (hx : R x y)
    {v w : Value} (hv : v.Renamed R w) (n : Name) :
    (p.propertyValue s x v n).Renamed R (q.propertyValue s' y w n) := by
  have missing : (Value.exception ⟨.name n, x⟩).Renamed R (.exception ⟨.name n, y⟩) :=
    .exception ⟨rfl, hx⟩
  have method := (h.renamed_method? hv n).getD missing
  cases hv with
  | exception he => exact .exception he
  | @instanceOf d e scope hd =>
    have hmember := h.renamed_member n hd
    unfold propertyValue
    dsimp only
    revert hmember
    generalize p.member d n = o, q.member e n = o'
    rintro (hmember | _)
    · cases hmember with
      | bind hb => exact (hs.lookup scope hb).getD missing
      | function hf => exact .method _ hf (.instanceOf scope hd)
      | structureDef he => exact .definition _ he
      | _ => exact missing
    · exact missing
  | _ => exact method

section
variable {m m' : Machine} (hm : m.Renamed R p q m') {f f' : Frame} (hf : f.Renamed R f')
  {below below' : List Frame} (hbelow : Forall₂ (Frame.Renamed R) below below')
include hm hf

include hbelow in
theorem renamed_referenceValue {x y : NodeId} {n : Name} (hx : R x y)
    (hn : p.node? x = some (.reference n)) :
    (p.referenceValue m f below x n).Renamed R (q.referenceValue m' f' below' y n) := by
  have missing : (Value.exception ⟨.name n, x⟩).Renamed R (.exception ⟨.name n, y⟩) :=
    .exception ⟨rfl, hx⟩
  have bound {d e : NodeId} (hd : R d e) : Option.Rel (Value.Renamed R)
      (m.store.scopes.lookup f.scope d) (m'.store.scopes.lookup f'.scope e) := by
    rw [hf.scope]
    exact hm.store.scopes.lookup _ hd
  have hd := h.renamed_resolve n hx (.inl ⟨n, hn⟩)
  unfold referenceValue
  dsimp only
  revert hd
  generalize p.resolve n x = o, q.resolve n y = o'
  rintro (hd | _)
  · cases hd with
    | bind hb => exact (bound hb).getD missing
    | function hg =>
      refine (bound hg).getD ?_
      rw [hf.scope]
      exact .function _ hg
    | structureDef hd =>
      refine (bound hd).getD ?_
      rw [hf.scope]
      exact .definition _ hd
    | stream hs => exact (hm.streams hs).getD (.exception ⟨rfl, hx⟩)
    | typeVariable => exact missing
  · dsimp only
    split
    · exact (List.rel_findSome? (.cons hf hbelow) fun _ _ hg => hg.this).getD missing
    · exact missing

omit hm in
theorem renamed_nativeValue {s s' : Scopes} (hs : s.Renamed R s') {x y : NodeId} (hx : R x y)
    (op : NativeOp) : (p.nativeValue s f x op).Renamed R (q.nativeValue s' f' y op) := by
  have hthis := hf.this
  have hinput := hf.definition.bind (T := R) fun d e hd => List.rel_head? (h.renamed_inputs hd)
  have hgiven := hinput.bind (T := Value.Renamed R) fun i j hi => hs.lookup f.scope hi
  have hcreator := hf.creator
  unfold nativeValue
  rw [← hf.scope]
  dsimp only
  revert hthis hgiven
  generalize f.this = o, f'.this = o'
  rintro (hv | _)
  · generalize Option.bind _ _ = o, Option.bind _ _ = o'
    rintro (hw | _)
    · have hr := NativeOp.renamed_apply op hv hw
      dsimp only
      revert hr
      generalize op.apply _ _ = r, op.apply _ _ = r'
      rintro (hk | hv)
      · cases hk
        exact .exception ⟨rfl, hcreator⟩
      · exact hv
    · exact .exception ⟨rfl, hx⟩
  · intro _
    exact .exception ⟨rfl, hx⟩

omit h hm in
theorem renamed_passed {o o' : Option Value} (ho : Option.Rel (Value.Renamed R) o o')
    {x y : NodeId} (hx : R x y) : (passed o f x).Renamed R (passed o' f' y) := by
  rcases ho with hv | _
  · exact ⟨hv, hf, rfl⟩
  · exact ⟨hf.top hx, hf.drop 1, rfl⟩

include hbelow in
/-- **Related nodes give related values.** -/
theorem renamed_finish {s s' : Step} (hs : s.Renamed R s') {o o' : Option Value}
    (ho : Option.Rel (Value.Renamed R) o o') :
    (p.finish m f below s o).Renamed R (q.finish m' f' below' s' o') := by
  obtain ⟨x, k⟩ := s
  obtain ⟨y, k'⟩ := s'
  obtain ⟨hx, rfl⟩ : R x y ∧ k = k' := ⟨hs.node, hs.kind⟩
  have hpassed := renamed_passed hf ho hx
  obtain ⟨n, n', hn, hn', hnn⟩ := h.node hx
  have literal : ((p.literal? x).getD (.exception ⟨.unparsable, x⟩)).Renamed R
      ((q.literal? y).getD (.exception ⟨.unparsable, y⟩)) :=
    (h.renamed_literal? hx).getD (.exception ⟨rfl, hx⟩)
  have unparsable : (Value.exception ⟨.unparsable, x⟩).Renamed R (.exception ⟨.unparsable, y⟩) :=
    .exception ⟨rfl, hx⟩
  unfold finish
  dsimp only
  rw [hn, hn']
  cases hnn with
  | booleanLiteral | numberLiteral | textLiteral => exact ⟨literal, hf, rfl⟩
  | reference n => exact ⟨h.renamed_referenceValue hm hf hbelow hx hn, hf, rfl⟩
  | propertyReference n =>
    rcases ho with hv | _
    · exact ⟨hv, hf, rfl⟩
    · exact ⟨h.renamed_propertyValue hm.store.scopes hx (hf.top hx) n, hf.drop 1, rfl⟩
  | binaryOperation | evaluate | conditional | program => exact hpassed
  | block hss =>
    rcases ho with hv | _
    · exact ⟨hv, hf, rfl⟩
    · dsimp only
      rw [hss.length_eq]
      split
      · exact ⟨.exception ⟨rfl, hx⟩, hf, rfl⟩
      · exact ⟨hf.top hx, hf.drop _, rfl⟩
  | bind _ _ hvalue =>
    rcases ho with hv | _
    · exact ⟨hv, hf, rfl⟩
    · rcases hvalue with hvalue | _
      · exact ⟨hf.top hx, hf.drop 1, rfl⟩
      · refine ⟨.exception ⟨?_, hx⟩, hf, rfl⟩
        exact congrArg ExceptionKind.missingValue (h.primaryName?_eq hx)
  | functionDefinition =>
    refine ⟨?_, hf, rfl⟩
    dsimp only
    rw [hf.scope]
    exact Value.renamed_functionOf hx _ hf.this
  | structureDefinition =>
    have definition : (Value.definition x (some f.scope)).Renamed R
        (.definition y (some f'.scope)) := by
      rw [hf.scope]
      exact .definition _ hx
    cases k with
    | finish =>
      dsimp only
      rw [(h.renamed_statements hx).length_eq]
      refine ⟨?_, hf.drop _, rfl⟩
      rw [hf.scope]
      exact .instanceOf _ hx
    | _ => exact ⟨definition, hf, rfl⟩
  | native op => exact ⟨h.renamed_nativeValue hf hm.store.scopes hx op, hf, rfl⟩
  | _ => exact ⟨unparsable, hf, rfl⟩

/-! ## Executing a step -/

include hbelow in
theorem renamed_skipAction {x y : NodeId} (hx : R x y) :
    (skipAction m f below x).Renamed R (skipAction m' f' below' y) := by
  have hcontains : m.store.remembered.contains x = m'.store.remembered.contains y :=
    (hm.store.remembered x y hx).isSome_eq
  unfold skipAction
  rw [hm.reevaluating, List.rel_isEmpty hbelow, hcontains, hf.stepsToFinish?_eq h.unique hx]
  split
  · split
    · exact .skip _
    · exact .proceed
  · exact .proceed

omit h hf in
include hbelow in
theorem renamed_prior? {s s' : Step} (hs : s.Renamed R s') :
    Option.Rel (Value.Renamed R) (prior? m below s) (prior? m' below' s') := by
  unfold prior?
  rw [hm.reevaluating, List.rel_isEmpty hbelow, hs.kind]
  split
  · exact hm.store.remembered _ _ hs.node
  · exact .none

omit hm hf in
theorem renamed_remember {s s' : Store} (hs : s.Renamed R s') {x y : NodeId} (hx : R x y)
    {v w : Value} (hv : v.Renamed R w) : (s.remember p x v).Renamed R (s'.remember q y w) := by
  obtain ⟨hdepends, hmemo, hidle, hidle'⟩ :=
    h.renamed_dependsOnStream hx _ _ hs.memo hs.idle hs.idle'
  refine ⟨hs.scopes, ?_, hmemo, hidle, hidle'⟩
  show NodeMap.Renamed R _ (if ((p.dependsOnStream x).run s.memo).1 then _ else _)
    (if ((q.dependsOnStream y).run s'.memo).1 then _ else _)
  rw [show ((p.dependsOnStream x).run s.memo).1 = ((q.dependsOnStream y).run s'.memo).1
    from hdepends]
  split
  · exact hs.remembered
  · exact hs.remembered.insert h.unique hx hv

omit hm hf in
theorem renamed_define {s s' : Store} (hs : s.Renamed R s') (id : ScopeId) {x y : NodeId}
    (hx : R x y) {v w : Value} (hv : v.Renamed R w) :
    (s.define id x v).Renamed R (s'.define id y w) :=
  { hs with scopes := hs.scopes.define h.unique id hx hv }

omit hf in
include hbelow in
/-- What is left and kept of the value of a node. -/
theorem renamed_keep {s s' : Step} (hs : s.Renamed R s') {r r' : Finished} (hr : r.Renamed R r') :
    Store.Renamed R
      (let store := if r.binds then m.store.define r.frame.scope s.node r.value else m.store
        if below.isEmpty && s.kind == .finish then store.remember p s.node r.value else store)
      (let store := if r'.binds then m'.store.define r'.frame.scope s'.node r'.value else m'.store
        if below'.isEmpty && s'.kind == .finish then store.remember q s'.node r'.value
        else store) := by
  have store : Store.Renamed R
      (if r.binds then m.store.define r.frame.scope s.node r.value else m.store)
      (if r'.binds then m'.store.define r'.frame.scope s'.node r'.value else m'.store) := by
    rw [hr.binds, hr.frame.scope]
    split
    · exact h.renamed_define hm.store _ hs.node hr.value
    · exact hm.store
  dsimp only
  rw [List.rel_isEmpty hbelow, hs.kind]
  split
  · exact h.renamed_remember store hs.node hr.value
  · exact store

/-- A frame, a machine and what is asked for, all renamed. -/
abbrev RenamedExecution (R : NodeId → NodeId → Prop) (p q : Program)
    (l l' : Frame × Machine × Action) : Prop :=
  l.1.Renamed R l'.1 ∧ l.2.1.Renamed R p q l'.2.1 ∧ l.2.2.Renamed R l'.2.2

omit hf in
include hbelow in
theorem renamed_leave {s s' : Step} (hs : s.Renamed R s') {r r' : Finished} (hr : r.Renamed R r') :
    RenamedExecution R p q (p.leave m below s r) (q.leave m' below' s' r') := by
  have keep := h.renamed_keep hm hbelow hs hr
  obtain ⟨v, f, b⟩ := r
  obtain ⟨v', f', b'⟩ := r'
  have hv : v.Renamed R v' := hr.value
  have hf : f.Renamed R f' := hr.frame
  cases hv with
  | exception he => exact ⟨hf, hm, .raise he⟩
  | bool b => exact ⟨hf.push (.bool b), { hm with store := keep }, .proceed⟩
  | number x => exact ⟨hf.push (.number x), { hm with store := keep }, .proceed⟩
  | text t => exact ⟨hf.push (.text t), { hm with store := keep }, .proceed⟩
  | function c hd => exact ⟨hf.push (.function c hd), { hm with store := keep }, .proceed⟩
  | method c hd hw => exact ⟨hf.push (.method c hd hw), { hm with store := keep }, .proceed⟩
  | definition c hd => exact ⟨hf.push (.definition c hd), { hm with store := keep }, .proceed⟩
  | instanceOf c hd => exact ⟨hf.push (.instanceOf c hd), { hm with store := keep }, .proceed⟩

/-! ## Calls -/

omit hm hf in
theorem renamed_callAction {x y : NodeId} (hx : R x y) (n : Option Name) {v w : Value}
    (hv : v.Renamed R w) {as as' : List Value} (has : RenamedValues R as as') :
    (p.callAction x n v as).Renamed R (q.callAction y n w as') := by
  have function {d e : NodeId} (hd : R d e) (c : Option ScopeId) {o o' : Option Value}
      (ho : Option.Rel (Value.Renamed R) o o') : Action.Renamed R
      (if (p.node? d).any Node.isAbstractFunction then .raise ⟨.function (p.primaryName? d), x⟩
        else .call ⟨x, d, c, o, as⟩)
      (if (q.node? e).any Node.isAbstractFunction then .raise ⟨.function (q.primaryName? e), y⟩
        else .call ⟨y, e, c, o', as'⟩) := by
    rw [h.any_eq hd isAbstractFunction_eq, h.primaryName?_eq hd]
    split
    · exact .raise ⟨rfl, hx⟩
    · exact .call ⟨hx, hd, rfl, ho, has⟩
  cases hv with
  | function c hd => exact function hd c .none
  | method c hd hw => exact function hd c (.some hw)
  | definition c hd =>
    unfold callAction
    dsimp only
    rw [List.rel_isEmpty (h.renamed_abstractFunctions hd), h.primaryName?_eq hd]
    split
    · exact .call ⟨hx, hd, rfl, .none, has⟩
    · exact .raise ⟨rfl, hx⟩
  | _ => exact .raise ⟨rfl, hx⟩

omit h hm in
theorem renamed_taken {x y : NodeId} (hx : R x y) (n : Nat) :
    RenamedValues R (taken f x n) (taken f' y n) := by
  have htake := List.forall₂_take n hf.operands
  have hmissing (k : Nat) : RenamedValues R (List.replicate k (.exception ⟨.empty, x⟩))
      (List.replicate k (.exception ⟨.empty, y⟩)) := by
    induction k with
    | zero => exact .nil
    | succ k ih => exact .cons (.exception ⟨rfl, hx⟩) ih
  unfold taken
  dsimp only
  rw [htake.length_eq]
  exact List.rel_reverse (List.rel_append htake (hmissing _))

omit hm in
/-- The step that starts an evaluation asks for the same. -/
theorem renamed_startEvaluation {x y : NodeId} (hx : R x y) :
    (p.startEvaluation f x).1.Renamed R (q.startEvaluation f' y).1 ∧
      (p.startEvaluation f x).2.Renamed R (q.startEvaluation f' y).2 := by
  obtain ⟨n, m, hn, hm, hnm⟩ := h.node hx
  unfold startEvaluation
  rw [hn, hm]
  cases hnm with
  | binaryOperation op =>
    have hvalues := renamed_taken hf hx 2
    have hthrown := List.rel_findSome? hvalues fun _ _ hv => hv.exception?
    dsimp only
    revert hthrown hvalues
    generalize taken f x 2 = vs, taken f' y 2 = ws
    generalize List.findSome? _ vs = o, List.findSome? _ ws = o'
    rintro hvalues (he | _)
    · exact ⟨hf.drop 2, .raise he⟩
    · rcases hvalues with _ | ⟨hv, _ | ⟨hw, _ | ⟨hu, hus⟩⟩⟩
      · exact ⟨hf.drop 2, .raise ⟨rfl, hx⟩⟩
      · exact ⟨hf.drop 2, .raise ⟨rfl, hx⟩⟩
      · have hmethod := h.renamed_method? hv op
        dsimp only
        revert hmethod
        generalize p.method? _ op = o, q.method? _ op = o'
        rintro (hmethod | _)
        · exact ⟨hf.drop 2, h.renamed_callAction hx _ hmethod (.cons hw .nil)⟩
        · exact ⟨hf.drop 2, .raise ⟨rfl, hx⟩⟩
      · exact ⟨hf.drop 2, .raise ⟨rfl, hx⟩⟩
  | evaluate hg his =>
    dsimp only
    rw [his.length_eq, h.calledName?_eq hg]
    generalize List.length _ + 1 = count
    have hvalues := renamed_taken hf hx count
    have hthrown := List.rel_findSome? hvalues fun _ _ hv => hv.exception?
    revert hthrown hvalues
    generalize taken f x count = vs, taken f' y count = ws
    generalize List.findSome? _ vs = o, List.findSome? _ ws = o'
    rintro hvalues (he | _)
    · exact ⟨hf.drop _, .raise he⟩
    · rcases hvalues with _ | ⟨hv, hvs⟩
      · exact ⟨hf.drop _, .raise ⟨rfl, hx⟩⟩
      · exact ⟨hf.drop _, h.renamed_callAction hx _ hv hvs⟩
  | _ => exact ⟨hf, .raise ⟨rfl, hx⟩⟩

include hbelow in
/-- **A step does the same in renamed programs.** -/
theorem renamed_execute {s s' : Step} (hs : s.Renamed R s') :
    RenamedExecution R p q (p.execute m f below s) (q.execute m' f' below' s') := by
  have hprior := renamed_prior? hm hbelow hs
  have hfinish := h.renamed_finish hm hf hbelow hs hprior
  have hleave := h.renamed_leave hm hbelow hs hfinish
  have hstart := h.renamed_startEvaluation hf hs.node
  unfold execute
  rw [hs.kind]
  cases s'.kind with
  | start => exact ⟨hf, hm, h.renamed_skipAction hm hf hbelow hs.node⟩
  | finish => exact hleave
  | startFinish => exact hleave
  | jumpIf offset consume jumpWhen =>
    have hnext : Frame.Renamed R (if consume then f.drop 1 else f)
        (if consume then f'.drop 1 else f') := by
      split
      · exact hf.drop 1
      · exact hf
    have htop := List.rel_head? hf.operands
    dsimp only
    revert htop
    generalize f.operands.head? = o, f'.operands.head? = o'
    rintro (hv | _)
    · cases hv with
      | bool b =>
        refine ⟨hnext, hm, ?_⟩
        dsimp only
        split
        · exact .jump offset
        · exact .proceed
      | _ => exact ⟨hnext, hm, .raise ⟨rfl, hs.node⟩⟩
    · exact ⟨hnext, hm, .raise ⟨rfl, hs.node⟩⟩
  | jump offset => exact ⟨hf, hm, .jump offset⟩
  | startEvaluation => exact ⟨hstart.1, hm, hstart.2⟩

end

end Program.Renamed

end Arbor
