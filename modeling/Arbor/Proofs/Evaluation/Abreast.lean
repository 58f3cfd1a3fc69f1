/-
  Evaluations of the program side by side.

  Two evaluations of the program itself come to the same node with scopes of their own.  They
  are abreast (`Abreast`) if these are alike in what the definitions before the node bring, as
  far as they are followed, and if neither has come to what is still ahead.  A node that needs
  nothing else has alike values in both (`Abreast.evaluate`).

  * `before` of a node is evaluated without any stream to have the scopes that the node is
    compared in (`ground`);
  * a steady node has a value there that is like the one in any other evaluation (`Settled`).

  Main statements: `Abreast.evaluate` and `Abreast.follow`, by which an evaluation of the
  program stays abreast of the one without streams.
-/
import Arbor.Proofs.Evaluation.Alike

namespace Arbor

variable {p : Program} {C P P' : NodeId → Prop} {ys : List NodeId} {L M : Likeness}
  {σ τ σ' τ' : Scopes} {s s' : ScopeId} {x : NodeId} {room : Nat}
  {streams streams' : Table StreamId Value}

/-- The surroundings of the program itself. -/
def Program.topEnv (p : Program) (s : ScopeId) (streams : Table StreamId Value) : Env where
  definition := none
  creator := p.root
  scope := s
  this := none
  nearest := none
  streams := streams

theorem Program.alike_topEnv (hs : s.index < σ.size) (hs' : s'.index < τ.size)
    (hstreams : L.streams → streams' = streams ∧
      ∀ i v, streams.get? i = some v → ∃ q, v.primitive? = some q) :
    Env.Alike p L σ τ (p.topEnv s streams) (p.topEnv s' streams') where
  definition := rfl
  creator := rfl
  this := .none
  nearest := .none
  streams := hstreams
  inside := ⟨hs, hs'⟩
  inputs := nofun

/-! ## Abreast scopes -/

/-- The scopes of two evaluations of the program, in which the definitions `ys` were evaluated
    and of which those are followed that `C` holds of.  Both have come past the definitions that
    `P` holds of, and to no others. -/
structure Abreast (p : Program) (C P : NodeId → Prop) (ys : List NodeId) (L : Likeness)
    (σ τ : Scopes) (s s' : ScopeId) : Prop where
  alike : σ.Alike p L τ
  inside : s.index < σ.size ∧ s'.index < τ.size
  top : σ.parent? s = none ∧ τ.parent? s' = none
  outside : ∀ z, p.Outside z → L.binds s s' z
  covers : ∀ y ∈ ys, C y → ∀ z, p.Brings y z → L.binds s s' z
  past : ∀ t z, L.binds s t z ∨ L.binds t s' z → P z
  unbound : ∀ z, ¬P z → σ.own? s z = none ∧ τ.own? s' z = none

namespace Abreast

/-- More definitions may be left behind. -/
theorem mono (h : Abreast p C P ys L σ τ s s') (hP : ∀ z, P z → P' z) :
    Abreast p C P' ys L σ τ s s' :=
  { h with
    past := fun t z hz => hP z (h.past t z hz)
    unbound := fun z hz => h.unbound z fun hz' => hz (hP z hz') }

/-- The scopes of the program stay where they are. -/
theorem keeps_top (h : Abreast p C P ys L σ τ s s') {X X' : ScopeId → NodeId → Prop}
    (hσ : σ.Spares X σ') (hτ : τ.Spares X' τ') :
    (s.index < σ'.size ∧ s'.index < τ'.size) ∧ σ'.parent? s = none ∧ τ'.parent? s' = none := by
  refine ⟨⟨Nat.lt_of_lt_of_le h.inside.1 hσ.size, Nat.lt_of_lt_of_le h.inside.2 hτ.size⟩, ?_, ?_⟩
  · rw [hσ.parent s h.inside.1, h.top.1]
  · rw [hτ.parent s' h.inside.2, h.top.2]

/-- What neither has come to stays unbound where only what they come past is bound. -/
theorem keeps_unbound (h : Abreast p C P ys L σ τ s s') {X X' : ScopeId → NodeId → Prop}
    (hσ : σ.Spares X σ') (hτ : τ.Spares X' τ') (hP : ∀ z, P z → P' z)
    (hX : ∀ z, X s z → P' z) (hX' : ∀ z, X' s' z → P' z) (z : NodeId) (hz : ¬P' z) :
    σ'.own? s z = none ∧ τ'.own? s' z = none := by
  obtain ⟨hs, hs'⟩ := h.unbound z fun hz' => hz (hP z hz')
  rw [hσ.own s z h.inside.1 fun e => hz (hX z e), hτ.own s' z h.inside.2 fun e => hz (hX' z e)]
  exact ⟨hs, hs'⟩

/-- **Coming past definitions that are not followed.**  Each evaluation binds, in the scope of
    the program, only what neither had come to. -/
theorem spare (h : Abreast p C P ys L σ τ s s') (P' : NodeId → Prop)
    {X X' : ScopeId → NodeId → Prop}
    (hσ : σ.Spares X σ') (hτ : τ.Spares X' τ') (hP : ∀ z, P z → P' z)
    (hX : ∀ t z, X t z → t = s ∧ ¬P z ∧ P' z) (hX' : ∀ t z, X' t z → t = s' ∧ ¬P z ∧ P' z) :
    Abreast p C P' ys L σ' τ' s s' where
  alike := by
    refine h.alike.spares hσ hτ fun t t' z hz => ⟨fun e => ?_, fun e => ?_⟩
    · obtain ⟨rfl, hnot, -⟩ := hX t z e
      exact hnot (h.past t' z (.inl hz))
    · obtain ⟨rfl, hnot, -⟩ := hX' t' z e
      exact hnot (h.past t z (.inr hz))
  inside := (h.keeps_top hσ hτ).1
  top := (h.keeps_top hσ hτ).2
  outside := h.outside
  covers := h.covers
  past t z hz := hP z (h.past t z hz)
  unbound := h.keeps_unbound hσ hτ hP (fun z hz => (hX s z hz).2.2) fun z hz => (hX' s' z hz).2.2

/-- **Going on alike.**  The likeness may first be widened by what both come past, and then
    grows with new scopes. -/
theorem grow {K N : Likeness} {Y Y' : NodeId → Prop} (h : Abreast p C P ys L σ τ s s')
    (hle : L ≤ K) (hpast : ∀ t z, K.binds s t z ∨ K.binds t s' z → P' z)
    (hg : K.Grows σ τ N σ' τ') (halike : σ'.Alike p N τ')
    (hσ : σ.Spares (fun t z => t = s ∧ Y z) σ') (hτ : τ.Spares (fun t z => t = s' ∧ Y' z) τ')
    (hP : ∀ z, P z → P' z) (hY : ∀ z, Y z → P' z) (hY' : ∀ z, Y' z → P' z) :
    Abreast p C P' ys N σ' τ' s s' where
  alike := halike
  inside := (h.keeps_top hσ hτ).1
  top := (h.keeps_top hσ hτ).2
  outside z hz := hg.le.1 _ _ z (hle.1 _ _ z (h.outside z hz))
  covers y hy hC z hz := hg.le.1 _ _ z (hle.1 _ _ z (h.covers y hy hC z hz))
  past t z hz := by
    rcases hz with hz | hz
    · rcases hg.fresh s t z hz with ht | ⟨hlt, -⟩
      · exact hpast t z (.inl ht)
      · exact absurd h.inside.1 (Nat.not_lt.2 hlt)
    · rcases hg.fresh t s' z hz with ht | ⟨-, hlt⟩
      · exact hpast t z (.inr ht)
      · exact absurd h.inside.2 (Nat.not_lt.2 hlt)
  unbound := h.keeps_unbound hσ hτ hP (fun z hz => hY z hz.2) fun z hz => hY' z hz.2

/-- Another likeness of the same scopes may be joined. -/
theorem join {K : Likeness} (h : Abreast p C P ys L σ τ s s') (hK : σ.Alike p K τ)
    (hpast : ∀ t z, K.binds s t z ∨ K.binds t s' z → P z) :
    Abreast p C P ys (L.or K) σ τ s s' where
  alike := h.alike.or hK
  inside := h.inside
  top := h.top
  outside z hz := .inl (h.outside z hz)
  covers y hy hC z hz := .inl (h.covers y hy hC z hz)
  past t z hz := by
    rcases hz with (hz | hz) | (hz | hz)
    · exact h.past t z (.inl hz)
    · exact hpast t z (.inl hz)
    · exact h.past t z (.inr hz)
    · exact hpast t z (.inr hz)
  unbound := h.unbound

/-- **Catching up.**  The other evaluation has gone on alone, past what neither had come to, and
    each is like a third.  Then they are alike in that too. -/
theorem rejoin {K N : Likeness} {υ : Scopes} {X : NodeId → Prop} (h : Abreast p C P ys L σ τ s s')
    (hτ : τ.Spares (fun t z => t = s' ∧ X z) τ') (hP : ∀ z, P z → P' z)
    (hX : ∀ z, X z → ¬P z ∧ P' z) (hK : σ.Alike p K υ) (hN : τ'.Alike p N υ)
    (hKpast : ∀ t z, K.binds s t z → P' z) (hNpast : ∀ t z, N.binds s' t z → P' z) :
    Abreast p C P' ys (L.or (K.across N)) σ τ' s s' := by
  refine (h.spare _ (.refl (fun _ _ => False) σ) hτ hP nofun fun t z hz => ⟨hz.1, hX z hz.2⟩).join
    (hK.across hN) ?_
  rintro t z (⟨u, hz, -⟩ | ⟨u, -, hz⟩)
  · exact hKpast u z hz
  · exact hNpast u z hz

/-- A definition is bound to a value that is like the one which it is bound to in the other
    scopes. -/
theorem bound {v w : Value} (h : Abreast p C P ys L σ τ s s') (hx : p.Inner x) (hP : P x)
    (hfree : ∀ t, ¬L.binds s t x) (hw : τ.own? s' x = some w) (hv : v.Alike p L w) :
    Abreast p C P ys (L.adding s s' (· = x)) (σ.define s x v) τ s s' := by
  have hspares := Scopes.Spares.define h.inside.1 x v
  have hown : (σ.define s x v).own? s x = some v := by
    rw [Scopes.own?_define σ h.inside.1, if_pos ⟨rfl, rfl⟩]
  have hsame : (σ.define s x v).Alike p L τ := by
    refine h.alike.spares hspares (.refl (fun _ _ => False) τ) fun t t' z hz => ⟨?_, id⟩
    rintro ⟨rfl, rfl⟩
    exact hfree t' hz
  have le := L.le_adding s s' (· = x)
  refine ⟨?_, ?_, (h.keeps_top hspares (.refl (fun _ _ => False) τ)).2,
    fun z hz => le.1 _ _ z (h.outside z hz), fun y hy hC z hz => le.1 _ _ z (h.covers y hy hC z hz),
    ?_, ?_⟩
  · refine hsame.adding ?_ h.inside.2 (fun z hz => hz ▸ hx.known) (fun z hz => ?_)
      (fun z hz hn => ?_) fun z hz hi => absurd (hz ▸ hi) hx.free
    · rw [Scopes.size_define]
      exact h.inside.1
    · subst hz
      rw [hown, hw]
      exact .some (hv.mono le)
    · subst hz
      rw [hown] at hn
      cases hn
  · rw [Scopes.size_define]
    exact h.inside
  · rintro t z ((hz | ⟨-, -, rfl⟩) | (hz | ⟨-, -, rfl⟩))
    · exact h.past t z (.inl hz)
    · exact hP
    · exact h.past t z (.inr hz)
    · exact hP
  · intro z hz
    have hne : x ≠ z := fun e => hz (e ▸ hP)
    rw [Scopes.own?_define σ h.inside.1, if_neg fun e => hne e.2]
    exact h.unbound z hz

/-- Fewer definitions may be followed. -/
theorem fewer {ys' : List NodeId} (h : Abreast p C P ys L σ τ s s') (hys : ∀ y ∈ ys', y ∈ ys) :
    Abreast p C P ys' L σ τ s s' :=
  { h with covers := fun y hy => h.covers y (hys y hy) }

/-- One more definition is followed. -/
theorem append (h : Abreast p C P ys L σ τ s s')
    (hx : C x → ∀ z, p.Brings x z → L.binds s s' z) : Abreast p C P (ys ++ [x]) L σ τ s s' where
  __ := h
  covers y hy hC z hz := by
    rcases List.mem_append.1 hy with hy | hy
    · exact h.covers y hy hC z hz
    · rw [List.mem_singleton.1 hy] at hC hz
      exact hx hC z hz

/-- Two evaluations begin abreast, each in a new scope. -/
theorem start (C : NodeId → Prop) (σ τ : Scopes) (streams : Prop) (hP : ∀ z, p.Outside z → P z) :
    ∃ L : Likeness, (L.streams ↔ streams) ∧
      Abreast p C P [] L (σ.create none).2 (τ.create none).2 (σ.create none).1
        (τ.create none).1 := by
  have new (σ : Scopes) : (σ.create none).1.index < (σ.create none).2.size ∧
      (σ.create none).2.parent? (σ.create none).1 = none ∧
      ∀ z, (σ.create none).2.own? (σ.create none).1 z = none :=
    ⟨by rw [Scopes.create, Scopes.size_add]; exact Nat.lt_succ_self _,
      Scopes.parent?_add_new σ _, Scopes.own?_add_new σ _⟩
  obtain ⟨hs, hp, hown⟩ := new σ
  obtain ⟨hs', hp', hown'⟩ := new τ
  let L : Likeness :=
    ⟨fun t t' z => t = (σ.create none).1 ∧ t' = (τ.create none).1 ∧ p.Outside z, streams⟩
  refine ⟨L, Iff.rfl, ⟨?_, ?_, ?_, ?_, ?_⟩, ⟨hs, hs'⟩, ⟨hp, hp'⟩, fun z hz => ⟨rfl, rfl, hz⟩,
    nofun, ?_, fun z _ => ⟨hown z, hown' z⟩⟩
  · exact fun ⟨_, _, hz⟩ => .inr hz
  · rintro t t' z ⟨rfl, rfl, -⟩
    exact ⟨hs, hs'⟩
  · rintro t t' z ⟨rfl, rfl, -⟩
    rw [hown z, hown' z]
    exact .none
  · rintro t t' z ⟨rfl, rfl, -⟩ -
    rw [hp, hp']
    exact .none
  · rintro t t' z ⟨rfl, rfl, -⟩ -
    rw [hown z, hown' z]
    exact ⟨nofun, nofun⟩
  · rintro t z (⟨-, -, hz⟩ | ⟨-, -, hz⟩)
    · exact hP z hz
    · exact hP z hz

/-! ### Evaluating a node -/

/-- The node gives alike values in scopes that have stayed abreast, with what it brings, or
    neither evaluation goes on. -/
inductive Ends (p : Program) (C P : NodeId → Prop) (ys : List NodeId) (L : Likeness)
    (s s' : ScopeId) (x : NodeId) :
    Except Stop Value × Scopes → Except Stop Value × Scopes → Prop
  | ok {M : Likeness} {v w : Value} {σ τ : Scopes} : L ≤ M → (M.streams → L.streams) →
      Abreast p C P ys M σ τ s s' → (∀ z, p.Brings x z → M.binds s s' z) → v.Alike p M w →
      Ends p C P ys L s s' x (.ok v, σ) (.ok w, τ)
  | error (e : Stop) {σ τ : Scopes} : Ends p C P ys L s s' x (.error e, σ) (.error e, τ)

section
variable (hp : p.Separate) (h : Abreast p C P (p.before x) L σ τ s s') (hx : p.Outer x)
  (hahead : ∀ z ∈ p.arena.preorder x, ¬P z)
include hp h hx hahead

/-- Where neither has come to the node, the scopes are alike in what is below it. -/
theorem widened : σ.Alike p (L.adding s s' (· ∈ p.arena.preorder x)) τ :=
  h.alike.adding_unbound h.inside.1 h.inside.2 h.top.1 h.top.2
    (fun _ hz => .inl (hp.nodes_below (hx.mem hp.tree) hz)) fun z hz => h.unbound z (hahead z hz)

omit hahead in
/-- The code of the node is alike in both if the definitions that it needs are followed. -/
theorem code (hC : ∀ y ∈ p.before x, p.Needs x y → C y) (hstream : p.MeetsStream x → L.streams) :
    (L.adding s s' (· ∈ p.arena.preorder x)).Code p x (some s) (some s') := by
  refine ⟨fun z hz => ?_, hstream⟩
  rcases hp.needs_outer hx hz with hz | hz | ⟨y, hy, hxy, hz⟩
  · exact .inr ⟨rfl, rfl, hz⟩
  · exact .inl (h.outside z hz)
  · exact .inl (h.covers y hy (hC y hy hxy) z hz)

variable (streams) in
/-- **The node has alike values in both.** -/
theorem evaluate (hC : ∀ y ∈ p.before x, p.Needs x y → C y)
    (hstream : p.MeetsStream x → L.streams)
    (hstreams : L.streams → streams' = streams ∧
      ∀ i v, streams.get? i = some v → ∃ q, v.primitive? = some q) (room : Nat) :
    Ends p C (fun z => P z ∨ z ∈ p.arena.preorder x) (p.before x) L s s' x
      ((p.evaluate room (p.topEnv s streams) x).on σ)
      ((p.evaluate room (p.topEnv s' streams') x).on τ) := by
  have hcode := h.code hp hx hC hstream
  have hsole (z : NodeId) (hz : z ∈ p.arena.preorder x) :
      (L.adding s s' (· ∈ p.arena.preorder x)).Sole s s' z := by
    constructor
    · rintro t (ht | ⟨-, rfl, -⟩)
      · exact absurd (h.past t z (.inl ht)) (hahead z hz)
      · rfl
    · rintro t (ht | ⟨rfl, -, -⟩)
      · exact absurd (h.past t z (.inr ht)) (hahead z hz)
      · rfl
  have halike := Program.alike_evaluate hp room (hp.inner_outer hx) (h.widened hp hx hahead)
    (Program.alike_topEnv h.inside.1 h.inside.2 hstreams) hsole hcode
  have hσ := Program.spares_evaluate hp.acyclic room (p.topEnv s streams) x σ h.inside.1
  have hτ := Program.spares_evaluate hp.acyclic room (p.topEnv s' streams') x τ h.inside.2
  unfold Eval.Alike at halike
  revert halike hσ hτ
  generalize (p.evaluate room (p.topEnv s streams) x).on σ = r,
    (p.evaluate room (p.topEnv s' streams') x).on τ = r'
  rintro (⟨hg, halike, hv⟩ | e) hσ hτ
  · have hcode := hcode.mono hg.le
    have hle := L.le_adding s s' (· ∈ p.arena.preorder x)
    refine .ok (Likeness.le_trans hle hg.le) hg.streams
      (h.grow hle ?_ hg halike hσ hτ (fun _ => .inl) (fun _ => .inr) fun _ => .inr)
      (fun z hz => ?_) hv
    · rintro t z ((hz | ⟨-, -, hz⟩) | (hz | ⟨-, -, hz⟩))
      · exact .inl (h.past t z (.inl hz))
      · exact .inr hz
      · exact .inl (h.past t z (.inr hz))
      · exact .inr hz
    obtain ⟨d, -, rfl | ⟨-, hz⟩⟩ := hz
    · exact hcode.1 z (Program.needs_self z)
    · exact hcode.1 z hz
  · exact .error e

end

end Abreast

/-! ## Evaluation without streams -/

/-- What a steady node needs is steady. -/
theorem Program.Steady.needs {z : NodeId} (hx : p.Steady x) (hz : p.Needs x z) : p.Steady z := by
  cases hz with
  | meets hz => exact hx.meets hz
  | bind hy hn hd => exact (hx.meets hy).leadsTo (.name hn hd rfl)

namespace Program

variable (p room)

/-- The scopes after definitions were evaluated in order without any stream, whether they gave
    values or not. -/
def ground (ys : List NodeId) : Scopes :=
  ys.foldl (fun σ y => ((p.evaluate room (p.topEnv ⟨0⟩ .empty) y).on σ).2)
    (Scopes.empty.create none).2

/-- What a node gives after the definitions before it, without any stream. -/
def groundValue (x : NodeId) : Except Stop Value × Scopes :=
  (p.evaluate room (p.topEnv ⟨0⟩ .empty) x).on (p.ground room (p.before x))

theorem ground_append (ys : List NodeId) (y : NodeId) :
    p.ground room (ys ++ [y]) =
      ((p.evaluate room (p.topEnv ⟨0⟩ .empty) y).on (p.ground room ys)).2 := by
  unfold ground
  rw [List.foldl_append]
  rfl

/-- The value in the scopes is like the one that the node has without any stream. -/
def Settled (x : NodeId) (v : Value) (σ : Scopes) (L : Likeness) : Prop :=
  ∃ w τ, p.groundValue room x = (.ok w, τ) ∧ σ.Alike p L τ ∧ v.Alike p L w

end Program

/-- An evaluation of the program is abreast of the one without streams in what is steady. -/
structure Tracks (p : Program) (room : Nat) (P : NodeId → Prop) (ys : List NodeId)
    (L : Likeness) (σ : Scopes) (s : ScopeId) : Prop where
  abreast : Abreast p p.Steady P ys L σ (p.ground room ys) s ⟨0⟩
  quiet : ¬L.streams

namespace Tracks

theorem mono (h : Tracks p room P ys L σ s) (hP : ∀ z, P z → P' z) : Tracks p room P' ys L σ s :=
  ⟨h.abreast.mono hP, h.quiet⟩

/-- An evaluation tracks the one without streams from the beginning. -/
theorem start (room : Nat) (τ : Scopes) (hP : ∀ z, p.Outside z → P z) :
    ∃ L, Tracks p room P [] L (τ.create none).2 (τ.create none).1 := by
  obtain ⟨L, hL, h⟩ := Abreast.start p.Steady τ .empty False hP
  exact ⟨L, h, fun hs => hL.1 hs⟩

/-- An evaluation that comes past what neither has come to still tracks the definitions. -/
theorem pass (h : Tracks p room P ys L σ s) {X : NodeId → Prop}
    (hσ : σ.Spares (fun t z => t = s ∧ X z) σ') (hX : ∀ z, X z → ¬P z) :
    Tracks p room (fun z => P z ∨ X z) ys L σ' s :=
  ⟨h.abreast.spare _ hσ (.refl (fun _ _ => False) _) (fun _ => .inl)
    (fun _ z hz => ⟨hz.1, hX z hz.2, .inr hz.2⟩) nofun, h.quiet⟩

section
variable (hp : p.Separate) (h : Tracks p room P (p.before x) L σ s) (hx : p.Outer x)
  (hahead : ∀ z ∈ p.arena.preorder x, ¬P z)
include hp h hx hahead

variable (streams) in
/-- **A steady node has the value that it has without streams**, or neither has one. -/
theorem ends (hsteady : p.Steady x) :
    Abreast.Ends p p.Steady (fun z => P z ∨ z ∈ p.arena.preorder x) (p.before x) L s ⟨0⟩ x
      ((p.evaluate room (p.topEnv s streams) x).on σ) (p.groundValue room x) :=
  h.abreast.evaluate streams hp hx hahead (fun _ _ hy => hsteady.needs hy)
    (fun hm => absurd hm hsteady.not_meetsStream) (fun hq => absurd hq h.quiet) room

theorem settled {v : Value} (hsteady : p.Steady x)
    (hv : (p.evaluate room (p.topEnv s streams) x).on σ = (.ok v, σ')) :
    ∃ M, p.Settled room x v σ' M := by
  have hends := h.ends streams hp hx hahead hsteady
  rw [hv] at hends
  generalize hr : p.groundValue room x = r at hends
  cases hends with
  | ok _ _ h' _ halike => exact ⟨_, _, _, hr, h'.alike, halike⟩

/-- **Following a definition.**  After it, the evaluation tracks this one too. -/
theorem follow {v : Value} (hv : (p.evaluate room (p.topEnv s streams) x).on σ = (.ok v, σ')) :
    ∃ M, Tracks p room (fun z => P z ∨ z ∈ p.arena.preorder x) (p.before x ++ [x]) M σ' s := by
  by_cases hsteady : p.Steady x
  · have hends := h.ends streams hp hx hahead hsteady
    have hground := p.ground_append room (p.before x) x
    rw [hv] at hends
    unfold Program.groundValue at hends
    revert hends hground
    generalize (p.evaluate room (p.topEnv ⟨0⟩ .empty) x).on (p.ground room (p.before x)) = r
    rintro (@⟨M, _, _, _, _, hle, hq, h', hbrings, -⟩ | -) hground
    refine ⟨M, ?_, fun hs => h.quiet (hq hs)⟩
    rw [hground]
    exact h'.append fun _ => hbrings
  · have hσ := Program.spares_evaluate hp.acyclic room (p.topEnv s streams) x σ h.abreast.inside.1
    have hτ := Program.spares_evaluate hp.acyclic room (p.topEnv ⟨0⟩ .empty) x _
      h.abreast.inside.2
    rw [hv] at hσ
    have h' := h.abreast.spare (fun z => P z ∨ z ∈ p.arena.preorder x) hσ hτ (fun _ => .inl)
      (fun _ z hz => ⟨hz.1, hahead z hz.2, .inr hz.2⟩) fun _ z hz => ⟨hz.1, hahead z hz.2, .inr hz.2⟩
    refine ⟨L, ?_, h.quiet⟩
    rw [p.ground_append]
    exact h'.append fun hC => absurd hC hsteady

end

end Tracks

end Arbor
