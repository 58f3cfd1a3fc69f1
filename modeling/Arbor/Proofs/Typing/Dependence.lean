/-
  Stream dependence as reachability.

  A node leads on to its children, to the definition that its name stands for, to the one that
  the name of a member stands for in the type of its receiver, and to the function of its
  operator.  It depends on a stream if it leads on, in some steps, to a node that reads one.
  Definitions may lead back to themselves: the search passes by the nodes that it has visited, and
  remembers its answer for the node alone that was asked for.

  As long as the guard of the analysis has cut nothing, the types that a search asks for are those
  that a fresh context finds, so that every search follows the same relation.

  * `Program.LeadsOn p x y`, `Program.Reading p x`: where a node leads, and whether it reads;
  * `Program.Depends p x`: a node that reads a stream is reached;
  * `Memo.Exact p m`: what is remembered about streams is so.

  Main statements: `lead_of_grounded`, where the analysis leads; `dependsOnStream_exact`.
-/
import Arbor.Proofs.Typing.Transparency

namespace Arbor

namespace Program

/-! ## Where nodes lead -/

section
variable (p : Program)

/-- A node leads on to its children and to what its name stands for, in the type of the receiver
    if it is that of a member, and to the function of its operator. -/
inductive LeadsOn (x : NodeId) : NodeId → Prop
  | plain {y : NodeId} : p.LeadsTo x y → LeadsOn x y
  | member {receiver : NodeId} {n : Name} {d : Definition} {y : NodeId} :
      p.node? x = some (.propertyReference receiver n) →
      p.definitionInType (p.typeOf receiver .empty).1 n = some d → d.node? = some y → LeadsOn x y
  | operator {left right : NodeId} {op : Name} {f : NodeId} :
      p.node? x = some (.binaryOperation left op right) →
      p.operatorFunction (p.typeOf left .empty).1 op = some f → LeadsOn x f

/-- A node reads a stream if its name stands for one, as that of a member or not, or if it borrows
    one. -/
inductive Reading (x : NodeId) : Prop
  | use : p.UsesStream x → Reading x
  | member {receiver : NodeId} {n : Name} {s : StreamId} :
      p.node? x = some (.propertyReference receiver n) →
      p.definitionInType (p.typeOf receiver .empty).1 n = some (.stream s) → Reading x
  | borrow {n : Name} {s : StreamId} :
      p.node? x = some (.borrow n) → p.streamNamed? n = some s → Reading x

/-- A node that reads a stream is reached. -/
def Depends (x : NodeId) : Prop := ∃ y, Relation.ReflTransGen p.LeadsOn x y ∧ p.Reading y

end

variable {p : Program} {x y r : NodeId} {n : Name} {m : Memo}

/-! ## Where the analysis leads -/

theorem leadOfDefinition_eq_stream {d : Option Definition} :
    leadOfDefinition d = .stream ↔ ∃ s, d = some (.stream s) := by
  rcases d with _ | d
  · simp [leadOfDefinition]
  · cases d <;> simp [leadOfDefinition, Definition.node?]

theorem leadOfDefinition_eq_node {d : Option Definition} :
    leadOfDefinition d = .node y ↔ ∃ d', d = some d' ∧ d'.node? = some y := by
  rcases d with _ | d
  · simp [leadOfDefinition]
  · cases d <;> simp [leadOfDefinition, Definition.node?]

/-- Where the name of a member leads. -/
theorem lead_of_member (hn : p.node? x = some (.propertyReference r n)) (m : Memo) :
    p.lead x m =
      (leadOfDefinition (p.definitionInType (p.typeOf r m).1 n), (p.typeOf r m).2) := by
  unfold lead
  rw [hn]
  rfl

/-- Where an operator leads. -/
theorem lead_of_operator {left right : NodeId} {op : Name}
    (hn : p.node? x = some (.binaryOperation left op right)) (m : Memo) :
    p.lead x m = ((p.operatorFunction (p.typeOf left m).1 op).elim .nowhere .node,
      (p.typeOf left m).2) := by
  unfold lead
  rw [hn]
  rfl

/-- Where a borrowed name leads. -/
theorem lead_of_borrow (hn : p.node? x = some (.borrow n)) :
    p.lead x = pure (if (p.streamNamed? n).isSome then .stream else .nowhere) := by
  unfold lead
  rw [hn]

/-- The kinds of nodes that lead elsewhere than to their children. -/
theorem lead_cases (p : Program) (x : NodeId) :
    (∃ n, p.node? x = some (.reference n)) ∨ (∃ n, p.node? x = some (.borrow n)) ∨
      (∃ r n, p.node? x = some (.propertyReference r n)) ∨
      (∃ l op r, p.node? x = some (.binaryOperation l op r)) ∨ p.lead x = pure .nowhere := by
  unfold lead
  split
  · next n hn => exact .inl ⟨n, hn⟩
  · next n hn => exact .inr (.inl ⟨n, hn⟩)
  · next r n hn => exact .inr (.inr (.inl ⟨r, n, hn⟩))
  · next l op r hn => exact .inr (.inr (.inr (.inl ⟨l, op, r, hn⟩)))
  · exact .inr (.inr (.inr (.inr rfl)))

/-- A node leads on to its children and to where a fresh analysis says. -/
theorem leadsOn_iff :
    p.LeadsOn x y ↔ y ∈ p.arena.children x ∨ (p.lead x .empty).1 = .node y := by
  constructor
  · intro h
    cases h with
    | plain h => exact h.lead .empty
    | member hn hd hy =>
      rw [lead_of_member hn]
      exact .inr (leadOfDefinition_eq_node.2 ⟨_, hd, hy⟩)
    | operator hn hf =>
      rw [lead_of_operator hn, hf]
      exact .inr rfl
  · rintro (h | h)
    · exact .plain (.child h)
    · rcases p.lead_cases x with ⟨n, hn⟩ | ⟨n, hn⟩ | ⟨r, n, hn⟩ | ⟨l, op, r, hn⟩ | hnone
      · rw [lead_of_reference hn] at h
        obtain ⟨d, hd, hy⟩ := leadOfDefinition_eq_node.1 h
        exact .plain (.name hn hd hy)
      · rw [lead_of_borrow hn] at h
        change (if _ then Lead.stream else Lead.nowhere) = Lead.node y at h
        split at h <;> cases h
      · rw [lead_of_member hn] at h
        obtain ⟨d, hd, hy⟩ := leadOfDefinition_eq_node.1 h
        exact .member hn hd hy
      · rw [lead_of_operator hn] at h
        cases hf : p.operatorFunction (p.typeOf l .empty).1 op with
        | none => simp [hf] at h
        | some f =>
          simp only [hf, Option.elim_some, Lead.node.injEq] at h
          exact .operator hn (h ▸ hf)
      · rw [hnone] at h
        cases h

/-- A node reads a stream where a fresh analysis says so. -/
theorem reading_iff : p.Reading x ↔ (p.lead x .empty).1 = .stream := by
  constructor
  · intro h
    cases h with
    | use h => exact lead_of_usesStream h .empty
    | member hn hs =>
      rw [lead_of_member hn]
      exact leadOfDefinition_eq_stream.2 ⟨_, hs⟩
    | borrow hn hs =>
      rw [lead_of_borrow hn, hs]
      rfl
  · intro h
    rcases p.lead_cases x with ⟨n, hn⟩ | ⟨n, hn⟩ | ⟨r, n, hn⟩ | ⟨l, op, r, hn⟩ | hnone
    · rw [lead_of_reference hn] at h
      obtain ⟨s, hs⟩ := leadOfDefinition_eq_stream.1 h
      exact .use ⟨n, s, hn, hs⟩
    · rw [lead_of_borrow hn] at h
      cases hs : p.streamNamed? n with
      | none => rw [hs] at h; cases h
      | some s => exact .borrow hn hs
    · rw [lead_of_member hn] at h
      obtain ⟨s, hs⟩ := leadOfDefinition_eq_stream.1 h
      exact .member hn hs
    · rw [lead_of_operator hn] at h
      cases hf : p.operatorFunction (p.typeOf l .empty).1 op <;> simp [hf] at h
    · rw [hnone] at h
      cases h

/-! ## Where a used context leads -/

/-- A context that remembers plain types alone when it has told a type told the one that a fresh
    context finds. -/
theorem typeOf_of_grounded (hidle : m.computing = []) (hm : (p.typeOf x m).2.Grounded p) :
    (p.typeOf x m).1 = (p.typeOf x .empty).1 := by
  obtain ⟨k, hk⟩ := hm x _ (get?_typeOf hidle x)
  have hfaithful : Memo.empty.Faithful p := Quietly.fresh.grounded.faithful
  exact (finds_plainType p.room_nil hk nofun rfl hfaithful).answer.symm

/-- **Where the analysis leads** if only plain types are remembered: where a fresh one does. -/
theorem lead_of_grounded
    (h : (p.lead x m).2.computing = [] ∧ (p.lead x m).2.Grounded p) :
    (p.lead x m).1 = (p.lead x .empty).1 := by
  have hidle : m.computing = [] :=
    (compositional_grows.lead grows_typeOf x m).computing.symm.trans h.1
  replace hm := h.2
  rcases p.lead_cases x with ⟨n, hn⟩ | ⟨n, hn⟩ | ⟨r, n, hn⟩ | ⟨l, op, r, hn⟩ | hnone
  · rw [lead_of_reference hn]
    rfl
  · rw [lead_of_borrow hn]
    rfl
  · rw [lead_of_member hn] at hm ⊢
    rw [lead_of_member hn, typeOf_of_grounded hidle hm]
  · rw [lead_of_operator hn] at hm ⊢
    rw [lead_of_operator hn, typeOf_of_grounded hidle hm]
  · rw [hnone]
    rfl

/-- Searches that leave nothing but plain types behind follow the relation. -/
theorem pursues_leadsOn (p : Program) :
    p.Pursues (fun m => m.computing = [] ∧ m.Grounded p) p.Reading p.LeadsOn p.Depends where
  back hgrows hm :=
    ⟨hgrows.computing.symm.trans hm.1, fun id t ht => hm.2 id t (hgrows.types id t ht)⟩
  use hm hr := by
    rw [lead_of_grounded hm]
    exact reading_iff.1 hr
  leads hm hl := by
    rw [lead_of_grounded hm]
    exact leadsOn_iff.1 hl
  stream hm hl := ⟨_, .refl, reading_iff.2 (lead_of_grounded hm ▸ hl)⟩
  node hm hl hS := by
    obtain ⟨z, hz, hr⟩ := hS
    exact ⟨z, .head (leadsOn_iff.2 (.inr (lead_of_grounded hm ▸ hl))) hz, hr⟩
  child hc hS := by
    obtain ⟨z, hz, hr⟩ := hS
    exact ⟨z, .head (.plain (.child hc)) hz, hr⟩

end Program

/-! ## What is remembered about streams -/

/-- What is remembered about streams is so. -/
def Memo.Exact (p : Program) (m : Memo) : Prop :=
  ∀ x b, m.readsStream.get? x = some b → (b = true ↔ p.Depends x)

namespace Program

variable {p : Program} {x y id : NodeId} {m : Memo}

/-- The query for a stream is answered exactly, and leaves an exact memo. -/
theorem exact_dependsOnStream (hidle : m.computing = []) (hm : m.Grounded p) (hexact : m.Exact p)
    (hquiet : (Query.dependsOnStream id).Quiet p m) :
    ((p.dependsOnStream id m).1 = true ↔ p.Depends id) ∧ (p.dependsOnStream id m).2.Exact p := by
  cases hknown : m.readsStream.get? id with
  | some b =>
    rw [dependsOnStream_known hknown]
    exact ⟨hexact id b hknown, hexact⟩
  | none =>
    rw [dependsOnStream_search hknown]
    obtain ⟨hfound, hnone⟩ := tells_searchStream p.pursues_leadsOn ((hquiet hknown).leaves hidle hm)
    have hiff : ((p.searchStream (p.arena.size + 1) id).run .empty m).1.1 = true ↔ p.Depends id := by
      refine ⟨hfound, fun ⟨y, hy, hr⟩ => ?_⟩
      by_contra hb
      exact hnone (Bool.eq_false_iff.2 hb) y hy hr
    refine ⟨hiff, fun x b hx => ?_⟩
    simp only [Memo.noteStream, NodeMap.get?_insert] at hx
    split at hx
    · next e =>
      cases hx
      exact e ▸ hiff
    · have hkept := compositional_keepsStreams.searchStream (p := p) keepsStreams_typeOf
        (p.arena.size + 1) id .empty m
      rw [hkept] at hx
      exact hexact x b hx

/-- A quietly used context remembers about streams what is so. -/
theorem Quietly.exact (h : p.Quietly m) : m.Exact p := by
  induction h with
  | fresh =>
    intro x b hx
    cases hx
  | @next m hm q hq ih =>
    by_cases hstream : ∃ id, q = .dependsOnStream id
    · obtain ⟨id, rfl⟩ := hstream
      exact (exact_dependsOnStream hm.queried.idle hm.grounded ih hq).2
    · have hkept := compositional_keepsStreams.ask (p := p) keepsStreams_typeOf q
        (fun id hid => absurd ⟨id, hid⟩ hstream) m
      unfold Memo.Exact
      rw [hkept]
      exact ih

/-- Some context in which the guard has not fired tells of the node that it depends on a stream. -/
def Told (p : Program) (x : NodeId) : Prop :=
  ∃ m, p.Quietly m ∧ (Query.dependsOnStream x).Quiet p m ∧ (p.dependsOnStream x m).1 = true

/-- In a context, a node depends on a stream exactly if one that reads a stream is reached.  So it
    does wherever a node does to which it leads on, one of its parts, or what it calls. -/
structure DependsExactly (p : Program) (m : Memo) (id : NodeId) : Prop where
  reached : (p.dependsOnStream id m).1 = true ↔ p.Depends id
  remembered : (p.dependsOnStream id m).2.Exact p
  along : ∀ y, Relation.ReflTransGen p.LeadsOn id y → p.Told y → (p.dependsOnStream id m).1 = true
  part : ∀ y ∈ p.arena.children id, p.Told y → (p.dependsOnStream id m).1 = true
  callee : ∀ c is f, p.node? id = some (.evaluate c is) → p.LeadsOn c f → p.Told f →
    (p.dependsOnStream id m).1 = true

/-- **Stream dependence is reachability**, whatever the context was asked before, as long as the
    guard of the analysis does not fire. -/
theorem dependsOnStream_exact (hm : p.Quietly m) (hquiet : (Query.dependsOnStream id).Quiet p m) :
    p.DependsExactly m id := by
  obtain ⟨hreached, hremembered⟩ :=
    exact_dependsOnStream hm.queried.idle hm.grounded hm.exact hquiet
  have along (y : NodeId) (hy : Relation.ReflTransGen p.LeadsOn id y) (htold : p.Told y) :
      (p.dependsOnStream id m).1 = true := by
    obtain ⟨m', hm', hquiet', hdepends⟩ := htold
    obtain ⟨z, hz, hr⟩ :=
      (exact_dependsOnStream hm'.queried.idle hm'.grounded hm'.exact hquiet').1.1 hdepends
    exact hreached.2 ⟨z, hy.trans hz, hr⟩
  refine ⟨hreached, hremembered, along, fun y hy => ?_, fun c is f hn hf => ?_⟩
  · exact along y (.single (.plain (.child hy)))
  · have hchild : c ∈ p.arena.children id := by
      have hn : p.arena.node? id = some (.evaluate c is) := hn
      simp [Arena.children, hn, Arena.childrenOf, Node.slots, Node.fields, Arena.ofSlot]
    exact along f (.head (.plain (.child hchild)) (.single hf))

/-- A structure with two functions that call each other, one of which reads a stream, and with one
    that calls itself alone; and a call of the other one. -/
def clocked : Program :=
  .built (do
    let on ← Build.borrow "on"
    let ping ← Build.function "ping" [] (some (← Build.numberType))
      (← Build.evaluate (← Build.reference "pong") [])
    let pong ← Build.function "pong" [] (some (← Build.numberType))
      (← Build.block [← Build.evaluate (← Build.reference "ping") [], ← Build.reference "on"])
    let alone ← Build.function "alone" [] (some (← Build.numberType))
      (← Build.evaluate (← Build.reference "alone") [])
    let clock ← Build.structureDef "clock" [] [] [ping, pong, alone]
    let member ← Build.property (← Build.evaluate (← Build.reference "clock") []) "ping"
    Build.program [on] [clock, ← Build.evaluate member []])
    (some (Shares.empty.shareStream (Forest.withBasis.2.interner.intern "on").1
      (.primitive .number)).2)

theorem hasPlainType_clocked (id : NodeId) : ∃ t, clocked.HasPlainType id t :=
  hasPlainType_of_all 6 (by decide +kernel) id

/-- A node on the cycle and the function that calls itself were searched before the call. -/
theorem exact_clocked :
    let m := ((Query.dependsOnStream ⟨128⟩).ask clocked
      ((Query.dependsOnStream ⟨111⟩).ask clocked .empty).2).2
    (clocked.Quietly m ∧ (Query.dependsOnStream ⟨136⟩).Quiet clocked m) ∧
      clocked.DependsExactly m ⟨136⟩ := by
  intro m
  have hqueried : clocked.Queried m :=
    .next (.next .fresh (.dependsOnStream ⟨111⟩)) (.dependsOnStream ⟨128⟩)
  have hquietly := hqueried.quietly hasPlainType_clocked
  have hquiet : (Query.dependsOnStream ⟨136⟩).Quiet clocked m :=
    quiet_of_plain hasPlainType_clocked hqueried.idle hquietly.grounded _
  exact ⟨⟨hquietly, hquiet⟩, dependsOnStream_exact hquietly hquiet⟩

end Program

end Arbor
