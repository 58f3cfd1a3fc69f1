/-
  A run beside an evaluation.

  A run of the program, which may use what is remembered, goes on beside an evaluation of the
  program in scopes of its own (`Beside`).  Where both are at the same code, their scopes are
  abreast (`Level`).  What a node has to come to is an `Aim`: the value of the evaluation, or
  the exception that it raises (`Reaches`).

  * `Midway` says where the run is inside a node, and what the evaluation has still to do;
  * `Reaches.leave` is the end of a node that leaves its value, and remembers it rightly;
  * `comes_around` is the start of a node: the run goes on inside, or the value of the node is
    remembered, and then the node is skipped (`Level.skip`).

  Main statements: `comes_around`, `Midway.child` and `Midway.call`.
-/
import Arbor.Proofs.Evaluation.Waiting

namespace Arbor

open Machine

/-- The number of calls inside each other that a program may make. -/
abbrev Limits.room (limits : Limits) : Nat := limits.maxDepth - 1

/-- A run of the program beside an evaluation of it. -/
structure Beside (p : Program) (limits : Limits) where
  /-- The machine at the beginning of the run. -/
  begun : Machine
  /-- The frame of the program. -/
  frame : Frame
  /-- The scope of the program in the evaluation. -/
  top : ScopeId
  separate : p.Separate
  env : frame.env [] begun.streams = p.topEnv frame.scope begun.streams
  primitive : ∀ i v, begun.streams.get? i = some v → ∃ q, v.primitive? = some q

/-- What a node has to come to. -/
structure Aim where
  node : NodeId
  /-- The code after that of the node. -/
  after : List Step
  /-- The values that were left before the node. -/
  operands : List Value
  /-- The likeness of the scopes before the node. -/
  likeness : Likeness
  /-- What was remembered before the node. -/
  remembered : NodeMap Value
  /-- What the evaluation of the node gives. -/
  outcome : Except Stop Value × Scopes

/-- The node is one of the program itself and is no definition with a body, and the code after
    that of the node is clear of the node. -/
structure Aim.Proper (p : Program) (t : Aim) : Prop where
  outer : p.Outer t.node
  noFunction : ¬p.IsFunction t.node
  noStructure : ¬p.IsStructure t.node
  clear : p.Clear t.after t.node

/-- At its finish, the node binds its value if it is a named value; else it is no definition. -/
def Program.BindsAtFinish (p : Program) (x : NodeId) (binds : Bool) : Prop :=
  if binds then ∃ ns type value, p.node? x = some (.bind ns type (some value))
  else p.classify x = none

theorem Program.BindsAtFinish.brings {p : Program} {x z : NodeId} {binds : Bool}
    (h : p.BindsAtFinish x binds) (hz : p.Brings x z) : binds = true ∧ z = x := by
  obtain ⟨d, hd, hz⟩ := hz
  unfold BindsAtFinish at h
  split at h
  · next hbinds =>
    obtain ⟨ns, type, value, hn⟩ := h
    refine ⟨hbinds, hz.resolve_right fun hz => ?_⟩
    unfold classify at hd
    rw [hn] at hd
    exact hz.1 x (Option.some.inj hd).symm
  · rw [h] at hd
    cases hd

namespace Beside

variable {p : Program} {limits : Limits} (b : Beside p limits)

/-! ## Where a run is -/

/-- The evaluation of a node beside the run. -/
def value (x : NodeId) : Eval Value :=
  p.evaluate limits.room (p.topEnv b.top b.begun.streams) x

/-- The run is before the code, the evaluation comes to the same code with the scopes `τ`, and
    the definitions `ys` are behind them. -/
structure Level (code : List Step) (operands : List Value) (ys : List NodeId) (L : Likeness)
    (m : Machine) (f : Frame) (τ : Scopes) : Prop where
  stands : Stands b.begun b.frame [] code operands m.store.scopes m f
  sure : Sure p limits.room m
  abreast : Abreast p (fun _ => True) (fun z => ¬p.Ahead code z) ys L m.store.scopes τ
    b.frame.scope b.top
  streams : L.streams
  tracks : ∃ N, Tracks p limits.room (fun z => ¬p.Ahead code z) ys N τ b.top

/-- The machine `m` with the frame `g` leaves the value `v` of the node, and the evaluation the
    value `w` in the scopes `τ`. -/
structure Left (t : Aim) (v w : Value) (M : Likeness) (τ : Scopes) (m : Machine) (g : Frame) :
    Prop where
  goes : g.exception? = none
  same : b.frame.Same g
  code : g.code = t.after
  operands : g.operands = v :: t.operands
  keeps : Keeps [] b.begun m m.store.scopes
  fine : v.exception? = none
  alike : v.Alike p M w
  le : t.likeness ≤ M
  abreast : Abreast p (fun _ => True) (fun z => ¬p.Ahead t.after z) (p.before t.node) M
    m.store.scopes τ b.frame.scope b.top
  brings : ∀ z, p.Brings t.node z → M.binds b.frame.scope b.top z
  kept : ∀ z, z ∉ p.arena.preorder t.node →
    m.store.remembered.get? z = t.remembered.get? z

/-- The run comes to leave a value that is like that of the evaluation, or raises the exception
    that the evaluation raises. -/
def Reaches (t : Aim) (m : Machine) : Prop :=
  match t.outcome with
  | (.ok w, τ) => Eventually p limits limits.room (fun r => ∃ v M m' g s, r = m'.settle p g [] s ∧
      b.Left t v w M τ m' g ∧ Sure p limits.room r.2) m
  | (.error (.raised e), _) => Raises p limits limits.room e m
  | (.error (.bodiless _), _) => False

/-- The run is inside a node, before the code, and the evaluation of the node has still to do
    what `rest` says. -/
structure Midway (t : Aim) (rest : Eval Value) (code : List Step) (operands : List Value)
    (ys : List NodeId) (L : Likeness) (m : Machine) (f : Frame) (τ : Scopes) : Prop extends
    b.Level code operands ys L m f τ where
  proper : t.Proper p
  outcome : t.outcome = rest.on τ
  le : t.likeness ≤ L
  kept : ∀ z, z ∉ p.arena.preorder t.node → m.store.remembered.get? z = t.remembered.get? z
  free : b.begun.reevaluating = true → m.store.remembered.get? t.node = none
  settled : ∀ v τ', t.outcome = (.ok v, τ') → p.Steady t.node →
    ∃ M, p.Settled limits.room t.node v τ' M

/-- The run of the code of the node reaches what the evaluation of the node gives, wherever both
    come to it. -/
def Comes (x : NodeId) : Prop :=
  ∀ ⦃code operands L m f τ⦄, p.Clear code x →
    b.Level (p.compile x ++ code) operands (p.before x) L m f τ →
    b.Reaches ⟨x, code, operands, L, m.store.remembered, (b.value x).on τ⟩ m

variable {b}
variable {t : Aim} {x : NodeId} {s : Step} {code code' next : List Step}
  {operands values : List Value} {ys ys' : List NodeId} {L M K : Likeness} {m m' m₁ : Machine}
  {f g : Frame} {τ τ' : Scopes} {rest : Eval Value} {v w : Value} {o : Outcome}

theorem value_eq (x : NodeId) :
    b.value x = p.evaluateNode (p.invoke limits.room (p.topEnv b.top b.begun.streams))
      (p.topEnv b.top b.begun.streams) b.value x :=
  Program.evaluate_eq b.separate.acyclic _ _ x

/-! ## Going on -/

/-- A step before others. -/
theorem Reaches.after (hs : Sure p limits.room m) (hstep : m.step p limits = (.ok o, m'))
    (ho : o.isCompleted = false) (h : b.Reaches t m') : b.Reaches t m := by
  obtain ⟨x, code, operands, L, remembered, r, τ⟩ := t
  rcases r with (e | creator) | w <;> unfold Reaches at h ⊢
  · exact .after hs hstep ho h
  · exact h
  · exact .after hs hstep ho h

/-- When the next step is no completion, more steps may follow it. -/
theorem Reaches.resume {P : Result → Prop} (h : Eventually p limits limits.room P m)
    (hP : ∀ r, P r → ∃ o, r.1 = .ok o ∧ o.isCompleted = false ∧ b.Reaches t r.2) :
    b.Reaches t m := by
  obtain ⟨x, code, operands, L, remembered, r, τ⟩ := t
  rcases r with (e | creator) | w <;> unfold Reaches at hP ⊢
  · exact h.trans hP
  · obtain ⟨m', hm'⟩ := h.exists
    obtain ⟨-, -, -, hfalse⟩ := hP _ hm'
    exact hfalse
  · exact h.trans hP

/-- A step that only moves on inside the node. -/
theorem Midway.moves (h : b.Midway t rest code operands ys L m f τ)
    (hmoves : Moves p limits b.begun b.frame [] next values m.store.scopes m)
    (hnext : ∀ s ∈ next, s ∈ code)
    (hreaches : ∀ {m' g}, b.Midway t rest next values ys L m' g τ → b.Reaches t m') :
    b.Reaches t m := by
  obtain ⟨m', g, o, hstep, ho, hstore, hst⟩ := hmoves
  have hafter := h.sure.step b.separate limits fun x v hv => by
    rw [hstep, hstore] at hv
    exact .inl hv
  rw [hstep] at hafter
  have hP (z : NodeId) (hz : ¬p.Ahead code z) : ¬p.Ahead next z := fun ha => hz (ha.mono hnext)
  obtain ⟨N, hN⟩ := h.tracks
  refine .after h.sure hstep ho (hreaches (g := g) ⟨⟨?_, hafter, ?_, h.streams, N, hN.mono hP⟩, h.proper,
    h.outcome, h.le, ?_, ?_, h.settled⟩)
  · rwa [hstore]
  · rw [hstore]
    exact h.abreast.mono hP
  · rw [hstore]
    exact h.kept
  · rw [hstore]
    exact h.free

/-- An exception that is raised where the evaluation raises it. -/
theorem Midway.raise {e : Exception} (h : b.Midway t (Eval.raise e) code operands ys L m f τ)
    (hs : m.step p limits = { m with stepsTaken := m.stepsTaken + 1 }.raise g [] s e) :
    b.Reaches t m := by
  have hout := h.outcome
  unfold Reaches
  rw [hout]
  have hrem : ({ m with stepsTaken := m.stepsTaken + 1 } : Machine).store.remembered =
      m.store.remembered := rfl
  exact raises_of_step b.separate hrem h.sure hs

/-- What is left to do may be said in another way. -/
theorem Midway.congr (h : b.Midway t rest code operands ys L m f τ) (rest' : Eval Value)
    (heq : rest.on τ = rest'.on τ) : b.Midway t rest' code operands ys L m f τ :=
  { h with outcome := h.outcome.trans heq }

/-! ## The end of a node -/

/-- **The end of a node that leaves a value.**  What is remembered of it is right. -/
theorem Reaches.leave {r : Program.Finished} {n : Nat} (houter : p.Outer t.node)
    (hst : Stands b.begun b.frame [] (s :: t.after) operands m.store.scopes m f)
    (hsure : Sure p limits.room m) (hnode : s.node = t.node)
    (hexecute : p.execute m f.advance [] s = p.leave m [] s r) (hv : r.value.exception? = none)
    (hframe : r.frame = f.advance.drop n) (hoperands : operands.drop n = t.operands)
    (hout : t.outcome = (.ok w, τ)) (halike : r.value.Alike p M w) (hle : t.likeness ≤ M)
    (habreast : Abreast p (fun _ => True) (fun z => ¬p.Ahead t.after z) (p.before t.node) M
      (if r.binds then m.store.scopes.define b.frame.scope t.node r.value else m.store.scopes) τ
      b.frame.scope b.top)
    (hbrings : ∀ z, p.Brings t.node z → M.binds b.frame.scope b.top z)
    (hkept : ∀ z, z ∉ p.arena.preorder t.node →
      m.store.remembered.get? z = t.remembered.get? z)
    (hsettled : s.kind = .finish → p.Steady t.node →
      m.store.remembered.get? t.node = some r.value ∨ ∃ K, p.Settled limits.room t.node w τ K) :
    b.Reaches t m := by
  let m₁ : Machine :=
    { m with store := p.kept m.store [] s r, stepsTaken := m.stepsTaken + 1 }
  let g := r.frame.push r.value
  rw [Program.leave_of_value hv] at hexecute
  have hstep : m.step p limits = m₁.settle p g [] s := hst.step limits hexecute
  have hscope : r.frame.scope = b.frame.scope := by
    rw [hframe]
    exact hst.same.scope
  have hscopes : m₁.store.scopes =
      if r.binds then m.store.scopes.define b.frame.scope t.node r.value else m.store.scopes := by
    show (p.kept m.store [] s r).scopes = _
    rw [Program.scopes_kept, hscope, hnode]
  rw [← hscopes] at habreast
  have hleft : b.Left t r.value w M τ m₁ g := by
    have hk := hst.keeps
    refine ⟨?_, ?_, ?_, ?_, ⟨rfl, fun hb => absurd rfl hb, hk.reevaluating, hk.streams, hk.pending,
      hk.result, hk.runs⟩, hv, halike, hle, habreast, hbrings, fun z hz => ?_⟩
    · show (r.frame.push r.value).exception? = none
      rw [hframe]
      rfl
    · refine Frame.Same.trans ?_ (.push _ r.value)
      rw [hframe]
      exact (hst.same.trans (.advance f)).trans (.drop _ n)
    · show (r.frame.push r.value).code = t.after
      rw [Frame.code_push, hframe, Frame.code_drop, hst.advance_code]
    · show (r.frame.push r.value).operands = _
      rw [Frame.operands_push, hframe, Frame.operands_drop, Frame.operands_advance, hst.operands,
        hoperands]
    · refine (remembered_kept m.store r (.inr (.inr ?_))).trans (hkept z hz)
      rw [hnode]
      exact fun e => hz (e ▸ Arena.mem_preorder_self b.separate.acyclic t.node)
  have hsure' : Sure p limits.room (m.step p limits).2 := by
    refine hsure.step b.separate limits fun x v hx => ?_
    rw [hstep] at hx ⊢
    have hx : (p.kept m.store [] s r).remembered.get? x = some v := by
      rcases store_act p limits m₁ g [] s .proceed with h | ⟨scope, h⟩ <;>
        rw [show m₁.settle p g [] s = m₁.act p limits g [] s .proceed from rfl, h] at hx <;>
        exact hx
    rcases remembered_of_kept hsure.honest hx with hx | ⟨hk, rfl, rfl, hsteady⟩
    · exact .inl hx
    rw [hnode] at hsteady ⊢
    rcases hsettled hk hsteady with hx | ⟨K, u, υ, hu, hτ, hw⟩
    · exact .inl hx
    -- Both the run and the evaluation without streams are like the evaluation beside the run.
    refine .inr ⟨houter, hsteady, M.across K.symm, u, υ, hu, shelters_settle ⟨?_, ?_⟩, ?_⟩
    · exact habreast.alike.across hτ.symm
    · rintro g' hg' t' z ⟨t'', hz, -⟩
      obtain rfl := List.mem_singleton.1 hg'
      have hpast := habreast.past t'' z (.inl (by rwa [← hleft.same.scope]))
      rwa [hleft.code]
    · exact halike.across hw.symm
  unfold Reaches
  rw [hout]
  exact .now hsure ⟨_, M, m₁, g, s, hstep, hleft, hsure'⟩

/-- At its finish, a node binds its value, being like what the evaluation has bound, if it is a
    named value; else it is no definition. -/
theorem Reaches.finish {n : Nat} {binds : Bool} (hproper : t.Proper p)
    (hst : Stands b.begun b.frame [] (⟨t.node, .finish⟩ :: t.after) operands m.store.scopes m f)
    (hsure : Sure p limits.room m)
    (hexecute : p.execute m f.advance [] ⟨t.node, .finish⟩ = p.leave m [] ⟨t.node, .finish⟩
      { value := v, frame := f.advance.drop n, binds := binds })
    (hv : v.exception? = none) (hoperands : operands.drop n = t.operands)
    (hout : t.outcome = (.ok w, τ)) (halike : v.Alike p K w) (hle : t.likeness ≤ K)
    (habreast : Abreast p (fun _ => True) (fun z => ¬p.Ahead t.after z) (p.before t.node) K
      m.store.scopes τ b.frame.scope b.top)
    (hfree : ∀ u, ¬K.binds b.frame.scope u t.node) (hbinds : p.BindsAtFinish t.node binds)
    (hown : binds = true → τ.own? b.top t.node = some w)
    (hkept : ∀ z, z ∉ p.arena.preorder t.node →
      m.store.remembered.get? z = t.remembered.get? z)
    (hsettled : p.Steady t.node →
      m.store.remembered.get? t.node = some v ∨ ∃ K, p.Settled limits.room t.node w τ K) :
    b.Reaches t m := by
  cases binds with
  | false =>
    refine .leave hproper.outer hst hsure rfl hexecute hv rfl hoperands hout halike hle habreast
      (fun z hz => ?_) hkept fun _ => hsettled
    obtain ⟨hfalse, -⟩ := hbinds.brings hz
    cases hfalse
  | true =>
    have hbound := habreast.bound (b.separate.inner_outer hproper.outer)
      (hproper.clear.self b.separate.acyclic) hfree (hown rfl) halike
    have le := K.le_adding b.frame.scope b.top (· = t.node)
    refine .leave hproper.outer hst hsure rfl hexecute hv rfl hoperands hout (halike.mono le)
      (Likeness.le_trans hle le) hbound (fun z hz => ?_) hkept fun _ => hsettled
    exact .inr ⟨rfl, rfl, (hbinds.brings hz).2⟩

/-- The finish of a node, after what is inside it. -/
theorem Midway.finish {n : Nat} {binds : Bool}
    (h : b.Midway t (if binds then Eval.define b.top t.node w else Eval.give w)
      (⟨t.node, .finish⟩ :: t.after) operands ys L m f τ)
    (hys : ∀ y ∈ p.before t.node, y ∈ ys)
    (hfinish : p.finish m f.advance [] ⟨t.node, .finish⟩ none =
      { value := v, frame := f.advance.drop n, binds := binds })
    (hoperands : operands.drop n = t.operands) (halike : v.Alike p L w)
    (hbinds : p.BindsAtFinish t.node binds) (hfine : binds = true → v.exception? = none) :
    b.Reaches t m := by
  have hp := b.separate.acyclic
  have hprior : Program.prior? m [] ⟨t.node, .finish⟩ = none := by
    cases hprior : Program.prior? m [] ⟨t.node, .finish⟩ with
    | none => rfl
    | some u =>
      obtain ⟨hr, -, -, hu⟩ := prior?_eq_some hprior
      rw [h.free (h.stands.keeps.reevaluating ▸ hr)] at hu
      cases hu
  have hexecute := execute_finish (p := p) (f := f) hprior (.inl rfl)
  rw [hfinish] at hexecute
  cases hv : v.exception? with
  | some e =>
    obtain rfl := Value.eq_exception hv
    cases halike
    cases binds with
    | true => cases hfine rfl
    | false =>
      rw [Program.leave_of_exception rfl] at hexecute
      exact h.raise (h.stands.step limits hexecute)
  | none =>
    have hw : w.exception? = none := halike.exception?_eq ▸ hv
    -- The evaluation binds the node too, if it is bound.
    obtain ⟨τ', hout, hτ, hown⟩ : ∃ τ', t.outcome = (.ok w, τ') ∧
        τ.Spares (fun t' z => t' = b.top ∧ z = t.node) τ' ∧
        (binds = true → τ'.own? b.top t.node = some w) := by
      have hout := h.outcome
      cases binds with
      | true =>
        refine ⟨_, hout, .define h.abreast.inside.2 t.node w, fun _ => ?_⟩
        rw [Scopes.own?_define τ h.abreast.inside.2, if_pos ⟨rfl, rfl⟩]
      | false =>
        refine ⟨τ, hout.trans ?_, .refl _ τ, nofun⟩
        cases w <;> first | rfl | cases hw
    have hahead : p.Ahead (⟨t.node, .finish⟩ :: t.after) t.node :=
      Program.ahead_finishes hp rfl List.mem_cons_self
    have hclear := h.proper.clear.self hp
    have habreast := (h.abreast.fewer hys).spare (fun z => ¬p.Ahead t.after z)
      (.refl (fun _ _ => False) _) hτ (fun z hz ha => hz (ha.mono fun s => List.mem_cons_of_mem _)) nofun
      (fun t' z hz => ⟨hz.1, fun hn => hn (hz.2 ▸ hahead), hz.2 ▸ hclear⟩)
    refine .finish h.proper h.stands h.sure hexecute hv hoperands hout halike h.le habreast
      (fun u hu => h.abreast.past u _ (.inl hu) hahead) hbinds hown h.kept fun hsteady => ?_
    exact .inr (h.settled w τ' hout hsteady)

/-- A node gives at its finish what is given in the evaluation. -/
theorem Midway.give {n : Nat} (h : b.Midway t (Eval.give w) (⟨t.node, .finish⟩ :: t.after) operands
      ys L m f τ) (hys : ∀ y ∈ p.before t.node, y ∈ ys)
    (hfinish : p.finish m f.advance [] ⟨t.node, .finish⟩ none =
      { value := v, frame := f.advance.drop n })
    (hoperands : operands.drop n = t.operands) (halike : v.Alike p L w)
    (hclass : p.classify t.node = none) : b.Reaches t m := by
  have hbinds : p.BindsAtFinish t.node false := hclass
  have h' : b.Midway t (if false then Eval.define b.top t.node w else Eval.give w)
      (⟨t.node, .finish⟩ :: t.after) operands ys L m f τ := h
  exact h'.finish hys hfinish hoperands halike hbinds nofun

/-- A node whose value is that of the last of its codes passes it on. -/
theorem Midway.pass
    (h : b.Midway t (pure w) (⟨t.node, .finish⟩ :: t.after) (v :: t.operands) ys L m f τ)
    (hys : ∀ y ∈ p.before t.node, y ∈ ys)
    (hpass : ∀ m f, p.finish m f [] ⟨t.node, .finish⟩ none = Program.passed none f t.node)
    (hv : v.exception? = none) (halike : v.Alike p L w) (hclass : p.classify t.node = none) :
    b.Reaches t m := by
  have hw : w.exception? = none := halike.exception?_eq ▸ hv
  have h' : b.Midway t (Eval.give w) (⟨t.node, .finish⟩ :: t.after) (v :: t.operands) ys L m f τ := by
    refine h.congr _ ?_
    cases w <;> first | rfl | cases hw
  exact h'.give hys (finish_pass hpass h.stands) rfl halike hclass

/-! ## The start of a node -/

/-- What a named value is bound to in the scope of the evaluation. -/
theorem own?_of_value {ns y : NodeId} {type : Option NodeId}
    (hn : p.node? x = some (.bind ns type (some y))) (htop : b.top.index < τ.size)
    (hv : (b.value x).on τ = (.ok w, τ')) : τ'.own? b.top x = some w := by
  have hspares := Program.spares_evaluate b.separate.acyclic limits.room
    (p.topEnv b.top b.begun.streams) y τ htop
  rw [value_eq] at hv
  simp only [Program.evaluateNode, hn, Eval.on_bind] at hv
  change τ.Spares _ ((b.value y).on τ).2 at hspares
  revert hv hspares
  rcases (b.value y).on τ with ⟨(e | v), υ⟩
  · rintro ⟨⟩
  · rintro ⟨⟩ hspares
    show (υ.define b.top x w).own? b.top x = some w
    rw [Scopes.own?_define υ (Nat.lt_of_lt_of_le htop hspares.size), if_pos ⟨rfl, rfl⟩]

section
variable {inside : List Step} {binds : Bool} (houter : p.Outer x) (hf : ¬p.IsFunction x)
  (hs : ¬p.IsStructure x) (hclear : p.Clear code x)
  (hcompile : p.compile x = ⟨x, .start⟩ :: (inside ++ [⟨x, .finish⟩]))
  (h : b.Level (p.compile x ++ code) operands (p.before x) L m f τ)
include houter hf hs hclear hcompile h

/-- **A node whose value is remembered** is skipped, and reaches what the evaluation gives. -/
theorem Level.skip (hclosed : ⟨x, .finish⟩ ∉ inside) (hr : m.reevaluating = true)
    (hv : m.store.remembered.get? x = some v) (hbinds : p.BindsAtFinish x binds)
    (hprior : ∀ m f, p.finish m f [] ⟨x, .finish⟩ (some v) =
      { value := v, frame := f, binds := binds }) :
    b.Reaches ⟨x, code, operands, L, m.store.remembered, (b.value x).on τ⟩ m := by
  have hp := b.separate
  have hst := h.stands
  have hcode : p.compile x ++ code = ⟨x, .start⟩ :: (inside ++ ⟨x, .finish⟩ :: code) := by
    rw [hcompile]
    simp
  rw [hcode] at hst
  have hahead (z : NodeId) (hz : z ∈ p.arena.preorder x) : p.Ahead (p.compile x ++ code) z :=
    Program.ahead_compile hp.acyclic hz
  have hself := Arena.mem_preorder_self hp.acyclic x
  -- The run goes on to the finish of the node.
  have hmoves : Moves p limits _ _ _ _ _ _ m := hst.skip hclosed hr hv
  obtain ⟨m', g, o, hstep, ho, hstore, hst'⟩ := hmoves
  have hsure := h.sure.step hp limits fun y u hu => by
    rw [hstep, hstore] at hu
    exact .inl hu
  rw [hstep] at hsure
  rw [← hstore] at hv
  obtain ⟨-, hsteady, K, u, υ, hground, hshelters, hvu⟩ := hsure.recalls x v hv
  refine .after h.sure hstep ho ?_
  -- The evaluation gives a value that is like the one without streams too.
  obtain ⟨N, hN⟩ := h.tracks
  have hends := hN.ends b.begun.streams hp houter (fun z hz hn => hn (hahead z hz))
    hsteady
  rw [hground] at hends
  have hτ := Program.spares_evaluate hp.acyclic limits.room (p.topEnv b.top b.begun.streams) x τ
    h.abreast.inside.2
  change τ.Spares _ ((b.value x).on τ).2 at hτ
  change Abreast.Ends p _ _ _ _ _ _ _ ((b.value x).on τ) _ at hends
  generalize hout : (b.value x).on τ = r at hends hτ
  cases hends with | @ok N' w _ τ' _ _ _ hN' _ hwu =>
  have hgcode : g.code = ⟨x, .finish⟩ :: code := hst'.code
  have hgscope : g.scope = b.frame.scope := hst'.same.scope
  have hKahead (t' : ScopeId) (z : NodeId) (hz : K.binds b.frame.scope t' z) :
      ¬p.Ahead (⟨x, .finish⟩ :: code) z := by
    have := hshelters.apart g (by rw [hst'.frames]; exact List.mem_cons_self) t' z
      (by rwa [hgscope])
    rwa [hgcode] at this
  have hP (z : NodeId) (hz : ¬p.Ahead (p.compile x ++ code) z) : ¬p.Ahead code z :=
    fun ha => hz (ha.mono fun s => List.mem_append_right _)
  have habreast := h.abreast.rejoin hτ hP (fun z hz => ⟨fun hn => hn (hahead z hz), hclear z hz⟩)
    (hstore ▸ hshelters.alike) hN'.alike
    (fun t' z hz ha => hKahead t' z hz (ha.mono fun s => List.mem_cons_of_mem _))
    fun t' z hz => (hN'.past t' z (.inl hz)).elim (hP z) (hclear z)
  have hfinish : Program.prior? m' [] ⟨x, .finish⟩ = some v := by
    have hr' : m'.reevaluating = true := by
      rw [hst'.keeps.reevaluating, ← h.stands.keeps.reevaluating, hr]
    simp [Program.prior?, hr', hv]
  have hexecute : p.execute m' g.advance [] ⟨x, .finish⟩ = p.leave m' [] ⟨x, .finish⟩
      { value := v, frame := g.advance.drop 0, binds := binds } := by
    show p.leave m' [] _ (p.finish m' g.advance [] _ (Program.prior? m' [] ⟨x, .finish⟩)) = _
    rw [hfinish, hprior, Frame.drop_zero]
  have hfine := (hsure.orderly.sound.store.remembered x v hv).exception?_eq_none
  refine .finish ⟨houter, hf, hs, hclear⟩ (K := L.or (K.across N')) (hstore ▸ hst') hsure hexecute
    hfine rfl rfl ((hvu.across hwu).mono (Likeness.le_or_right _ _)) (Likeness.le_or_left _ _)
    (hstore ▸ habreast) ?_ hbinds (fun hb => ?_) (fun z _ => by rw [hstore]) fun _ => .inl hv
  · rintro t' (hz | ⟨t'', hz, -⟩)
    · exact h.abreast.past t' x (.inl hz) (hahead x hself)
    · exact hKahead t'' x hz (Program.ahead_finishes hp.acyclic rfl List.mem_cons_self)
  · subst hb
    obtain ⟨ns, type, y, hn⟩ := hbinds
    exact own?_of_value hn h.abreast.inside.2 hout

omit hclear h in
/-- **The start of a node.**  The run goes on inside the node, beside the evaluation, unless the
    value of the node is remembered. -/
theorem comes_around (hclosed : ⟨x, .finish⟩ ∉ inside) (hbinds : p.BindsAtFinish x binds)
    (hprior : ∀ m f v, p.finish m f [] ⟨x, .finish⟩ (some v) =
      { value := v, frame := f, binds := binds })
    (hinside : ∀ {t L m f τ}, t.node = x →
      b.Midway t (b.value t.node) (inside ++ ⟨t.node, .finish⟩ :: t.after) t.operands
        (p.before t.node) L m f τ → b.Reaches t m) : b.Comes x := by
  intro code operands L m f τ hclear h
  have hp := b.separate
  have hreevaluating := h.stands.keeps.reevaluating
  by_cases hskip : m.reevaluating = true ∧ m.store.remembered.get? x ≠ none
  · obtain ⟨hr, hv⟩ := hskip
    obtain ⟨v, hv⟩ := Option.ne_none_iff_exists'.1 hv
    exact h.skip houter hf hs hclear hcompile hclosed hr hv hbinds fun m f => hprior m f v
  · have hfree (hr : b.begun.reevaluating = true) : m.store.remembered.get? x = none := by
      by_contra hv
      exact hskip ⟨hreevaluating ▸ hr, hv⟩
    have hmidway : b.Midway ⟨x, code, operands, L, m.store.remembered, (b.value x).on τ⟩ (b.value x)
        (p.compile x ++ code) operands (p.before x) L m f τ := by
      refine ⟨h, ⟨houter, hf, hs, hclear⟩, rfl, L.le_refl, fun _ _ => rfl, hfree,
        fun v τ' hv hsteady => ?_⟩
      obtain ⟨N, hN⟩ := h.tracks
      exact hN.settled hp houter (fun z hz hn => hn (Program.ahead_compile hp.acyclic hz)) hsteady hv
    have hst := h.stands
    have hcode : p.compile x ++ code = ⟨x, .start⟩ :: (inside ++ ⟨x, .finish⟩ :: code) := by
      rw [hcompile]
      simp
    rw [hcode] at hst hmidway
    have hproceed : Program.skipAction m f.advance [] x = .proceed := by
      unfold Program.skipAction
      split
      · next hk =>
        simp only [Bool.and_eq_true, NodeMap.contains] at hk
        exact absurd ⟨hk.1.1, Option.isSome_iff_ne_none.1 hk.2⟩ hskip
      · rfl
    exact hmidway.moves (hst.start hproceed (by simp)) (fun s hs => List.mem_cons_of_mem _ hs)
      (hinside rfl)

end

/-! ## What is inside a node -/

section
variable {c : NodeId} {next : Value → Eval Value} {ids done : List NodeId}

/-- **A child.**  The run of its code leaves a value that is like that of its evaluation, and
    then both go on inside the node, with the child behind them if it is followed. -/
theorem Midway.child
    (h : b.Midway t (b.value c >>= next) (p.compile c ++ code) operands (p.before c) L m f τ)
    (hc : b.Comes c) (hin : c ∈ p.arena.children t.node) (hcode : code ≠ [])
    (hfollows : ∀ s ∈ code, p.Follows t.node c t.after s)
    (hys : ys = p.before c ∨ ys = p.before c ++ [c])
    (hnext : ∀ {v w M m' g τ'}, L ≤ M → v.exception? = none → v.Alike p M w →
      b.Midway t (next w) code (v :: operands) ys M m' g τ' → b.Reaches t m') :
    b.Reaches t m := by
  have hp := b.separate
  have hproper := h.proper
  have houter := hproper.outer.child hproper.noFunction hproper.noStructure hin
  have hclear : p.Clear code c :=
    hp.clear_child (hproper.outer.mem hp.tree) hin hproper.clear hfollows
  have hahead (z : NodeId) (hz : z ∈ p.arena.preorder c) : p.Ahead (p.compile c ++ code) z :=
    Program.ahead_compile hp.acyclic hz
  have hnot := Arena.not_mem_preorder_child hp.acyclic hin
  have hreaches := hc hclear h.toLevel
  have hτ := Program.spares_evaluate hp.acyclic limits.room (p.topEnv b.top b.begun.streams) c τ
    h.abreast.inside.2
  change τ.Spares _ ((b.value c).on τ).2 at hτ
  have hout := h.outcome
  rw [Eval.on_bind] at hout
  rcases hr : (b.value c).on τ with ⟨(e | w), τ'⟩ <;> rw [hr] at hout hreaches hτ <;>
    dsimp only at hout
  · rcases e with e | creator <;> unfold Reaches at hreaches ⊢ <;> rw [hout] <;> exact hreaches
  · refine .resume hreaches ?_
    rintro r ⟨v, M, m', g, s, rfl, hleft, hsure⟩
    have hgcode : g.code = code := hleft.code
    rw [settle_open (by rwa [hgcode])] at hsure ⊢
    have hk := hleft.keeps
    have hP (z : NodeId) : ¬p.Ahead (p.compile c ++ code) z ∨ z ∈ p.arena.preorder c →
        ¬p.Ahead code z := by
      rintro (hz | hz)
      · exact fun ha => hz (ha.mono fun s => List.mem_append_right _)
      · exact hclear z hz
    have htracks : ∃ N, Tracks p limits.room (fun z => ¬p.Ahead code z) ys N τ' b.top := by
      obtain ⟨N, hN⟩ := h.tracks
      rcases hys with rfl | rfl
      · exact ⟨N, (hN.pass hτ fun z hz hn => hn (hahead z hz)).mono hP⟩
      · obtain ⟨M', hM'⟩ := hN.follow hp houter (fun z hz hn => hn (hahead z hz)) hr
        exact ⟨M', hM'.mono hP⟩
    have habreast : Abreast p (fun _ => True) (fun z => ¬p.Ahead code z) ys M m'.store.scopes τ'
        b.frame.scope b.top := by
      rcases hys with rfl | rfl
      · exact hleft.abreast
      · exact hleft.abreast.append fun _ => hleft.brings
    refine ⟨_, rfl, rfl, hnext (g := g) hleft.le hleft.fine hleft.alike ⟨⟨⟨rfl, hleft.goes,
      hleft.same, hgcode, hleft.operands, ⟨rfl, hk.remembered, hk.reevaluating, hk.streams,
      hk.pending, hk.result, hk.runs⟩⟩, hsure, habreast, hleft.le.2 h.streams, htracks⟩, hproper,
      hout, Likeness.le_trans h.le hleft.le, fun z hz => ?_, fun hr => ?_, h.settled⟩⟩
    · refine (hleft.kept z fun hz' => hz ?_).trans (h.kept z hz)
      exact Arena.mem_preorder_trans hp.acyclic (Arena.mem_preorder_child hp.acyclic
        (Arena.mem_preorder_self hp.acyclic _) hin) hz'
    · exact (hleft.kept _ hnot).trans (h.free hr)

/-- A child of a node that is no block. -/
theorem Midway.part
    (h : b.Midway t (b.value c >>= next) (p.compile c ++ code) operands (p.before t.node) L m f τ)
    (hblock : ∀ ss, p.node? t.node ≠ some (.block ss)) (hc : b.Comes c)
    (hin : c ∈ p.arena.children t.node) (hcode : code ≠ [])
    (hfollows : ∀ s ∈ code, p.Follows t.node c t.after s)
    (hnext : ∀ {v w M m' g τ'}, L ≤ M → v.exception? = none → v.Alike p M w →
      b.Midway t (next w) code (v :: operands) (p.before t.node) M m' g τ' → b.Reaches t m') :
    b.Reaches t m := by
  have hbefore := Program.before_part b.separate.tree
    (h.proper.outer.mem b.separate.tree) hin hblock
  rw [← hbefore] at h
  refine h.child hc hin hcode hfollows (.inl rfl) fun hle hv halike h => ?_
  rw [hbefore] at h
  exact hnext hle hv halike h

/-- Children in order, after others of them; `ys` says which definitions are behind them. -/
theorem Midway.inOrder {next : List Value → Eval Value} (ys : List NodeId → List NodeId)
    {all : List NodeId}
    (h : b.Midway t (Eval.inOrder b.value ids >>= next) (ids.flatMap p.compile ++ code) operands
      (ys done) L m f τ)
    (hall : all = done ++ ids) (hnodup : all.Nodup)
    (hin : ∀ c ∈ all, c ∈ p.arena.children t.node) (each : ∀ c ∈ all, b.Comes c)
    (hys : ∀ before c after, all = before ++ c :: after → ys before = p.before c ∧
      (ys (before ++ [c]) = p.before c ∨ ys (before ++ [c]) = p.before c ++ [c]))
    (hcode : code ≠ []) (hown : ∀ s ∈ code, s ∈ t.after ∨
      s.node = t.node ∧ s.kind ≠ .start ∧ s.kind ≠ .startFinish)
    (hnext : ∀ {vs ws M m' g τ'}, L ≤ M → vs.length = ids.length →
      (∀ v ∈ vs, v.exception? = none) → List.Forall₂ (Value.Alike p M) vs ws →
      b.Midway t (next ws) code (vs.reverse ++ operands) (ys all) M m' g τ' → b.Reaches t m') :
    b.Reaches t m := by
  induction ids generalizing done next operands L m f τ with
  | nil =>
    rw [List.append_nil] at hall
    subst hall
    refine hnext L.le_refl rfl ?_ .nil h
    nofun
  | cons c ids ih =>
    have hc : c ∈ all := by simp [hall]
    obtain ⟨hbefore, hafter⟩ := hys done c ids hall
    have hseq : Eval.inOrder b.value (c :: ids) >>= next =
        b.value c >>= fun v => Eval.inOrder b.value ids >>= fun vs => next (v :: vs) := by
      simp only [Eval.inOrder, bind_assoc, pure_bind]
    rw [hseq, hbefore, List.flatMap_cons, List.append_assoc] at h
    refine h.child (each c hc) (hin c hc) (by simp [hcode]) (fun s hs => ?_) hafter
      fun hle hv halike h => ?_
    · rcases List.mem_append.1 hs with hs | hs
      · -- Another child is not the same.
        obtain ⟨d, hd, hs⟩ := List.mem_flatMap.1 hs
        refine .inr (.inr ⟨d, hin d (by simp [hall, hd]), ?_, hs⟩)
        rintro rfl
        rw [hall, List.nodup_append, List.nodup_cons] at hnodup
        exact hnodup.2.1.1 hd
      · exact (hown s hs).imp id .inl
    · have hall' : all = (done ++ [c]) ++ ids := by simp [hall]
      refine ih h hall' fun {vs} _ _ _ _ _ hle' hlen hvs halikes h => ?_
      rw [List.append_cons, ← List.reverse_cons] at h
      refine hnext (Likeness.le_trans hle hle') (by simp [hlen]) ?_
        (.cons (halike.mono hle') halikes) h
      exact List.forall_mem_cons.2 ⟨hv, hvs⟩

end

/-- **A call of the program.**  What it gives is like what the call of the evaluation gives, in
    scopes that have grown alike. -/
theorem Midway.call {name : Option Name} {callee callee' : Value} {arguments arguments' : List Value}
    (h : b.Midway t (p.call (p.invoke limits.room (p.topEnv b.top b.begun.streams)) t.node name
      callee' arguments') (s :: code) values ys L m f τ)
    (hstep : m.step p limits = { m with stepsTaken := m.stepsTaken + 1 }.act p limits g [] s
      (p.callAction t.node name callee arguments))
    (hsame : b.frame.Same g) (hgoes : g.exception? = none) (hg : g.code = code) (hcode : code ≠ [])
    (hoperands : g.operands = operands) (hv : callee.Alike p L callee')
    (harguments : List.Forall₂ (Value.Alike p L) arguments arguments')
    (hnext : ∀ {v w M m' g τ'}, v.exception? = none → v.Alike p M w →
      b.Midway t (pure w) code (v :: operands) ys M m' g τ' → b.Reaches t m') :
    b.Reaches t m := by
  subst hg hoperands
  have hp := b.separate
  have habreast := h.abreast
  have hrem : ({ m with stepsTaken := m.stepsTaken + 1 } : Machine).store.remembered =
      m.store.remembered := rfl
  have hreturns := returns_call hp rfl h.stands.keeps.counted hrem h.sure hsame hcode hstep
  rw [b.env] at hreturns
  have henv : Env.Alike p L m.store.scopes τ (p.topEnv b.frame.scope b.begun.streams)
      (p.topEnv b.top b.begun.streams) :=
    Program.alike_topEnv habreast.inside.1 habreast.inside.2 fun _ => ⟨rfl, b.primitive⟩
  have hinvoke : Program.CallsAlike p L m.store.scopes τ
      (p.invoke limits.room (p.topEnv b.frame.scope b.begun.streams))
      (p.invoke limits.room (p.topEnv b.top b.begun.streams)) :=
    Program.alike_invoke hp (fun n _ => Program.alike_evaluate hp n) henv
  have halike := Program.alike_call (hinvoke (.refl L _ _) habreast.alike) t.node name hv harguments
  have spares (s : ScopeId) (σ : Scopes) (callee : Value) (arguments : List Value) :
      σ.Spares (fun t z => t = s ∧ False) ((p.call (p.invoke limits.room
        (p.topEnv s b.begun.streams)) t.node name callee arguments).on σ).2 :=
    (Program.spares_call (Program.spares_invoke hp.acyclic limits.room _) t.node name callee
      arguments σ (Nat.zero_le _)).mono fun _ _ _ => False.elim
  have hσ := spares b.frame.scope m.store.scopes callee arguments
  have hτ := spares b.top τ callee' arguments'
  have hout := h.outcome
  unfold Eval.Alike at halike
  revert halike hreturns hσ hτ hout
  generalize Eval.on _ m.store.scopes = r, Eval.on _ τ = r'
  rintro hreturns (@⟨M, v, w, σ', τ', hgrows, halike, hvw⟩ | e) hσ hτ hout
  · obtain ⟨hfine, hleads⟩ := hreturns
    refine .resume hleads ?_
    rintro r ⟨m', st, rfl, hk, hrem, hsure⟩
    rw [settle_open (g := g.push v) hcode] at hsure ⊢
    have hP (z : NodeId) (hz : ¬p.Ahead (s :: g.code) z) : ¬p.Ahead g.code z :=
      fun ha => hz (ha.mono fun s => List.mem_cons_of_mem _)
    have habreast' := habreast.grow L.le_refl (fun u z hz => hP z (habreast.past u z hz)) hgrows
      halike hσ hτ hP nofun nofun
    obtain ⟨N, hN⟩ := h.tracks
    have htracks := (hN.pass hτ nofun).mono fun z hz => hz.elim (hP z) False.elim
    obtain rfl := hk.scopes
    refine ⟨_, rfl, rfl, hnext (g := g.push v) hfine hvw ⟨⟨⟨rfl, hgoes, hsame.trans (.push g v),
      rfl, rfl, ⟨rfl, hk.remembered, hk.reevaluating, hk.streams, hk.pending, hk.result,
      hk.runs⟩⟩, hsure, habreast', hgrows.le.2 h.streams, N, htracks⟩, h.proper, hout,
      Likeness.le_trans h.le hgrows.le, fun z hz => ?_, fun hr => ?_, h.settled⟩⟩
    · show m'.store.remembered.get? z = _
      rw [hrem]
      exact h.kept z hz
    · show m'.store.remembered.get? t.node = none
      rw [hrem]
      exact h.free hr
  · rcases e with e | creator
    · unfold Reaches
      rw [hout]
      exact hreturns
    · exact hreturns.elim

end Beside

end Arbor
