/-
  Scopes that are alike.

  Two collections of scopes may hold the same values under other numbers, and more or fewer of
  them.  A `Likeness` says which scopes of the one and of the other are alike in what they bind
  to which definitions.  Values are alike (`Value.Alike`) if they are the same but for the
  scopes of closures and instances, and these are alike in everything that the code needs; then
  whatever the code does with the one it does with the other.

  * `Scopes.Spares` says what is not changed when scopes are added and values bound;
  * `Scopes.Alike` says that two collections are as a likeness says.  It is kept by what spares
    the alike bindings (`spares`), by alike bindings (`define`, `adding`) and new scopes
    (`add`); two collections that are like a third are alike (`across`).

  Main statements: `Scopes.Alike.lookup`, what is looked up in alike scopes, and
  `Scopes.Alike.describe_eq`: alike values have the same description.
-/
import Arbor.Proofs.Program.Needs
import Arbor.Proofs.Renaming.Relation
import Arbor.Proofs.Value.Growth
import Arbor.Value.Describe

namespace Arbor

/-! ## Scopes that are left alone -/

namespace Scopes

variable {s s' s'' : Scopes} {id : ScopeId} {d : NodeId} {v : Value}

/-- The scope around a scope. -/
def parent? (s : Scopes) (id : ScopeId) : Option ScopeId := (s.get? id).bind Scope.parent

theorem own?_eq_none_of_le (h : s.size ≤ id.index) (d : NodeId) : s.own? id d = none := by
  rw [own?, get?_eq_none_iff.2 h]
  rfl

theorem lt_size_of_own? (h : s.own? id d = some v) : id.index < s.size := by
  by_contra hle
  rw [own?_eq_none_of_le (Nat.le_of_not_lt hle)] at h
  cases h

theorem parent?_define (s : Scopes) (id : ScopeId) (d : NodeId) (v : Value) (id' : ScopeId) :
    (s.define id d v).parent? id' = s.parent? id' := by
  unfold parent?
  rw [get?_define]
  split
  · cases s.get? id' <;> rfl
  · rfl

theorem own?_add_of_lt (s : Scopes) (scope : Scope) (h : id.index < s.size) (d : NodeId) :
    (s.add scope).2.own? id d = s.own? id d := by
  rw [own?, own?, get?_add, if_neg (Nat.ne_of_lt h)]

theorem own?_add_new (s : Scopes) (scope : Scope) (d : NodeId) :
    (s.add scope).2.own? (s.add scope).1 d = scope.bindings.get? d := by
  have hid : (s.add scope).1.index = s.size := rfl
  rw [own?, get?_add, if_pos hid]
  rfl

theorem parent?_add_of_lt (s : Scopes) (scope : Scope) (h : id.index < s.size) :
    (s.add scope).2.parent? id = s.parent? id := by
  rw [parent?, parent?, get?_add, if_neg (Nat.ne_of_lt h)]

theorem parent?_add_new (s : Scopes) (scope : Scope) :
    (s.add scope).2.parent? (s.add scope).1 = scope.parent := by
  have hid : (s.add scope).1.index = s.size := rfl
  rw [parent?, get?_add, if_pos hid]
  rfl

/-- What a scope binds itself is found in it, and else what is found in its parent. -/
theorem lookup_eq (s : Scopes) (id : ScopeId) (d : NodeId) :
    s.lookup id d = (s.own? id d).or ((s.parent? id).bind fun parent =>
      if parent.index < id.index then s.lookup parent d else none) := by
  rw [lookup, own?, parent?]
  cases s.get? id with
  | none => rfl
  | some scope =>
    simp only [Option.bind_some]
    cases scope.bindings.get? d with
    | some v => rfl
    | none =>
      cases scope.parent with
      | none => rfl
      | some parent => simp

/-- Scopes are only added, and the old ones changed only in the bindings in question. -/
structure Spares (X : ScopeId → NodeId → Prop) (s s' : Scopes) : Prop where
  size : s.size ≤ s'.size
  own : ∀ id d, id.index < s.size → ¬X id d → s'.own? id d = s.own? id d
  parent : ∀ id, id.index < s.size → s'.parent? id = s.parent? id

namespace Spares

variable {X Y : ScopeId → NodeId → Prop}

theorem refl (X : ScopeId → NodeId → Prop) (s : Scopes) : Spares X s s :=
  ⟨Nat.le_refl _, fun _ _ _ _ => rfl, fun _ _ => rfl⟩

theorem trans (h : Spares X s s') (h' : Spares X s' s'') : Spares X s s'' where
  size := Nat.le_trans h.size h'.size
  own id d hid hX := (h'.own id d (Nat.lt_of_lt_of_le hid h.size) hX).trans (h.own id d hid hX)
  parent id hid := (h'.parent id (Nat.lt_of_lt_of_le hid h.size)).trans (h.parent id hid)

theorem mono (h : Spares X s s') (hXY : ∀ id d, id.index < s.size → X id d → Y id d) :
    Spares Y s s' where
  size := h.size
  own id d hid hY := h.own id d hid fun hX => hY (hXY id d hid hX)
  parent := h.parent

theorem define (hid : id.index < s.size) (d : NodeId) (v : Value) :
    Spares (fun id' d' => id' = id ∧ d' = d) s (s.define id d v) where
  size := Nat.le_of_eq (size_define s id d v).symm
  own id' d' _ hX := by
    rw [own?_define s hid, if_neg]
    rintro ⟨rfl, rfl⟩
    exact hX ⟨rfl, rfl⟩
  parent id' _ := parent?_define s id d v id'

theorem add (s : Scopes) (scope : Scope) : Spares (fun _ _ => False) s (s.add scope).2 where
  size := by rw [size_add]; exact Nat.le_succ _
  own _ d hid _ := own?_add_of_lt s scope hid d
  parent _ hid := parent?_add_of_lt s scope hid

end Spares

end Scopes

/-! ## Likenesses -/

/-- What is alike: the bindings of which scopes to which definitions, and whether the streams
    are. -/
structure Likeness where
  binds : ScopeId → ScopeId → NodeId → Prop
  streams : Prop

namespace Likeness

instance : LE Likeness :=
  ⟨fun L M => (∀ s s' x, L.binds s s' x → M.binds s s' x) ∧ (L.streams → M.streams)⟩

variable {L M N : Likeness}

theorem le_refl (L : Likeness) : L ≤ L := ⟨fun _ _ _ h => h, fun h => h⟩

theorem le_trans (h : L ≤ M) (h' : M ≤ N) : L ≤ N :=
  ⟨fun s s' x hx => h'.1 s s' x (h.1 s s' x hx), fun hs => h'.2 (h.2 hs)⟩

/-- Both of two likenesses. -/
def or (L M : Likeness) : Likeness where
  binds s s' x := L.binds s s' x ∨ M.binds s s' x
  streams := L.streams ∨ M.streams

/-- What is alike because both are like a third. -/
def across (L M : Likeness) : Likeness where
  binds s s' x := ∃ t, L.binds s t x ∧ M.binds s' t x
  streams := L.streams ∧ M.streams

/-- The same likeness from the other side. -/
def symm (L : Likeness) : Likeness where
  binds s s' x := L.binds s' s x
  streams := L.streams

/-- A likeness, and two scopes that are alike in more definitions. -/
def adding (L : Likeness) (s s' : ScopeId) (X : NodeId → Prop) : Likeness where
  binds t t' x := L.binds t t' x ∨ t = s ∧ t' = s' ∧ X x
  streams := L.streams

theorem le_or_left (L M : Likeness) : L ≤ L.or M := ⟨fun _ _ _ => .inl, .inl⟩

theorem le_or_right (L M : Likeness) : M ≤ L.or M := ⟨fun _ _ _ => .inr, .inr⟩

theorem le_adding (L : Likeness) (s s' : ScopeId) (X : NodeId → Prop) : L ≤ L.adding s s' X :=
  ⟨fun _ _ _ => .inl, fun h => h⟩

/-- Code is alike in two scopes if these are alike in everything that the code needs; the
    methods of the basis are closed. -/
def Code (L : Likeness) (p : Program) (d : NodeId) : Option ScopeId → Option ScopeId → Prop
  | some s, some s' => (∀ x, p.Needs d x → L.binds s s' x) ∧ (p.MeetsStream d → L.streams)
  | none, none => ∃ q n, p.basis.function? q n = some d
  | _, _ => False

variable {p : Program} {d : NodeId} {c c' c'' : Option ScopeId}

theorem Code.mono (h : L.Code p d c c') (hLM : L ≤ M) : M.Code p d c c' := by
  cases c <;> cases c'
  · exact h
  · exact h
  · exact h
  · exact ⟨fun x hx => hLM.1 _ _ x (h.1 x hx), fun hs => hLM.2 (h.2 hs)⟩

theorem Code.across (h : L.Code p d c c'') (h' : M.Code p d c' c'') : (L.across M).Code p d c c' := by
  cases c'' with
  | none =>
    cases c <;> cases c' <;> first | exact h.elim | exact h'.elim | exact h
  | some t =>
    cases c <;> cases c' <;> first | exact h.elim | exact h'.elim | skip
    exact ⟨fun x hx => ⟨t, h.1 x hx, h'.1 x hx⟩, fun hs => ⟨h.2 hs, h'.2 hs⟩⟩

theorem Code.symm (h : L.Code p d c c') : L.symm.Code p d c' c := by
  cases c <;> cases c' <;> exact h

/-- The code that is met in alike code is alike. -/
theorem Code.meets {s s' : ScopeId} {e : NodeId} (h : L.Code p d (some s) (some s'))
    (he : p.Meets d e) : L.Code p e (some s) (some s') :=
  ⟨fun x hx => h.1 x (he.needs hx), fun hs => h.2 (he.stream hs)⟩

end Likeness

/-! ## Alike values -/

/-- The values are the same, but for the scopes of closures and of instances, which are alike
    in what the code needs. -/
inductive Value.Alike (p : Program) (L : Likeness) : Value → Value → Prop
  | bool (b : Bool) : Alike p L (bool b) (bool b)
  | number (x : Float) : Alike p L (number x) (number x)
  | text (s : String) : Alike p L (text s) (text s)
  | function {d : NodeId} {c c' : Option ScopeId} : L.Code p d c c' →
      Alike p L (function d c) (function d c')
  | method {d : NodeId} {c c' : Option ScopeId} {v v' : Value} : L.Code p d c c' →
      Alike p L v v' → Alike p L (method d c v) (method d c' v')
  | definition {d : NodeId} {c c' : Option ScopeId} : L.Code p d c c' →
      Alike p L (definition d c) (definition d c')
  | instanceOf {d : NodeId} {s s' : ScopeId} : p.IsStructure d → L.Code p d (some s) (some s') →
      Alike p L (instanceOf d s) (instanceOf d s')
  | exception (e : Exception) : Alike p L (exception e) (exception e)

namespace Value

variable {p : Program} {L M : Likeness} {u v w : Value}

theorem Alike.mono (h : v.Alike p L w) (hLM : L ≤ M) : v.Alike p M w := by
  induction h with
  | bool b => exact .bool b
  | number x => exact .number x
  | text s => exact .text s
  | function hc => exact .function (hc.mono hLM)
  | method hc _ ih => exact .method (hc.mono hLM) ih
  | definition hc => exact .definition (hc.mono hLM)
  | instanceOf hd hc => exact .instanceOf hd (hc.mono hLM)
  | exception e => exact .exception e

theorem Alike.across (h : v.Alike p L u) (h' : w.Alike p M u) : v.Alike p (L.across M) w := by
  induction h generalizing w with
  | bool b => cases h'; exact .bool b
  | number x => cases h'; exact .number x
  | text s => cases h'; exact .text s
  | function hc => cases h' with | function hc' => exact .function (hc.across hc')
  | method hc _ ih => cases h' with | method hc' hv' => exact .method (hc.across hc') (ih hv')
  | definition hc => cases h' with | definition hc' => exact .definition (hc.across hc')
  | instanceOf hd hc => cases h' with | instanceOf _ hc' => exact .instanceOf hd (hc.across hc')
  | exception e => cases h'; exact .exception e

theorem Alike.symm (h : v.Alike p L w) : w.Alike p L.symm v := by
  induction h with
  | bool b => exact .bool b
  | number x => exact .number x
  | text s => exact .text s
  | function hc => exact .function hc.symm
  | method hc _ ih => exact .method hc.symm ih
  | definition hc => exact .definition hc.symm
  | instanceOf hd hc => exact .instanceOf hd hc.symm
  | exception e => exact .exception e

theorem alike_of_primitive? {q : Primitive} (h : v.primitive? = some q) : v.Alike p L v := by
  cases v with
  | bool b => exact .bool b
  | number x => exact .number x
  | text s => exact .text s
  | _ => cases h

theorem Alike.primitive?_eq (h : v.Alike p L w) : v.primitive? = w.primitive? := by
  cases h <;> rfl

theorem Alike.exception?_eq (h : v.Alike p L w) : v.exception? = w.exception? := by
  cases h <;> rfl

/-- An instance whose scope is older than the scope that it is bound in. -/
def Older (id : ScopeId) : Value → Prop
  | instanceOf _ s => s.index < id.index
  | _ => True

end Value

/-! ## Alike scopes -/

open Value (Older)

/-- The scopes are as the likeness says.  What is bound to an input of a structure was there
    before the scope that binds it. -/
structure Scopes.Alike (p : Program) (L : Likeness) (σ τ : Scopes) : Prop where
  known : ∀ {s s' x}, L.binds s s' x → p.Known x
  inside : ∀ {s s' x}, L.binds s s' x → s.index < σ.size ∧ s'.index < τ.size
  own : ∀ {s s' x}, L.binds s s' x → Option.Rel (Value.Alike p L) (σ.own? s x) (τ.own? s' x)
  parent : ∀ {s s' x}, L.binds s s' x → σ.own? s x = none →
    Option.Rel (fun t t' => L.binds t t' x ∧ t.index < s.index ∧ t'.index < s'.index)
      (σ.parent? s) (τ.parent? s')
  older : ∀ {s s' x}, L.binds s s' x → p.OfStructure x →
    (∀ v, σ.own? s x = some v → v.Older s) ∧ ∀ v, τ.own? s' x = some v → v.Older s'

namespace Scopes.Alike

variable {p : Program} {L M : Likeness} {σ τ σ' τ' : Scopes} {s s' : ScopeId} {x : NodeId}
  {v w : Value}

theorem own_none (h : σ.Alike p L τ) (hx : L.binds s s' x) (hs : σ.own? s x = none) :
    τ.own? s' x = none :=
  (h.own hx).eq_none_iff.1 hs

/-- **What is looked up in alike scopes is alike.** -/
theorem lookup (h : σ.Alike p L τ) (hx : L.binds s s' x) :
    Option.Rel (Value.Alike p L) (σ.lookup s x) (τ.lookup s' x) := by
  induction hn : s.index using Nat.strongRecOn generalizing s s' with
  | _ n ih =>
    subst hn
    rw [lookup_eq, lookup_eq]
    have hown := h.own hx
    have hparent := h.parent hx
    revert hown hparent
    generalize σ.own? s x = o, τ.own? s' x = o'
    rintro (hv | _) hparent
    · exact .some hv
    · replace hparent := hparent rfl
      rw [Option.none_or, Option.none_or]
      revert hparent
      generalize σ.parent? s = o, τ.parent? s' = o'
      rintro (⟨ht, hlt, hlt'⟩ | _)
      · simp only [Option.bind_some, if_pos hlt, if_pos hlt']
        exact ih _ hlt ht rfl
      · exact .none

/-- What spares the alike bindings keeps scopes alike. -/
theorem spares {X X' : ScopeId → NodeId → Prop} (h : σ.Alike p L τ) (hσ : Spares X σ σ')
    (hτ : Spares X' τ τ') (hX : ∀ s s' x, L.binds s s' x → ¬X s x ∧ ¬X' s' x) :
    σ'.Alike p L τ' := by
  have left {s s' x} (hx : L.binds s s' x) : σ'.own? s x = σ.own? s x :=
    hσ.own s x (h.inside hx).1 (hX s s' x hx).1
  have right {s s' x} (hx : L.binds s s' x) : τ'.own? s' x = τ.own? s' x :=
    hτ.own s' x (h.inside hx).2 (hX s s' x hx).2
  refine ⟨h.known, fun hx => ?_, fun hx => ?_, fun hx hs => ?_, fun hx hi => ?_⟩
  · have := h.inside hx
    exact ⟨Nat.lt_of_lt_of_le this.1 hσ.size, Nat.lt_of_lt_of_le this.2 hτ.size⟩
  · rw [left hx, right hx]
    exact h.own hx
  · rw [hσ.parent _ (h.inside hx).1, hτ.parent _ (h.inside hx).2]
    exact h.parent hx (left hx ▸ hs)
  · rw [left hx, right hx]
    exact h.older hx hi

theorem or (h : σ.Alike p L τ) (h' : σ.Alike p M τ) : σ.Alike p (L.or M) τ := by
  have left {v w : Value} (hv : v.Alike p L w) : v.Alike p (L.or M) w :=
    hv.mono (Likeness.le_or_left L M)
  have right {v w : Value} (hv : v.Alike p M w) : v.Alike p (L.or M) w :=
    hv.mono (Likeness.le_or_right L M)
  refine ⟨fun hx => ?_, fun hx => ?_, fun hx => ?_, fun hx hs => ?_, fun hx hi => ?_⟩
  · exact hx.elim h.known h'.known
  · exact hx.elim h.inside h'.inside
  · rcases hx with hx | hx
    · exact (h.own hx).mono fun _ _ => left
    · exact (h'.own hx).mono fun _ _ => right
  · rcases hx with hx | hx
    · exact (h.parent hx hs).mono fun _ _ ht => ⟨.inl ht.1, ht.2⟩
    · exact (h'.parent hx hs).mono fun _ _ ht => ⟨.inr ht.1, ht.2⟩
  · exact hx.elim (h.older · hi) (h'.older · hi)

/-- **Two collections that are like a third are alike.** -/
theorem across {υ : Scopes} (h : σ.Alike p L υ) (h' : τ.Alike p M υ) : σ.Alike p (L.across M) τ := by
  refine ⟨fun hx => ?_, fun hx => ?_, fun hx => ?_, fun hx hs => ?_, fun hx hi => ?_⟩ <;>
    obtain ⟨t, hx, hx'⟩ := hx
  · exact h.known hx
  · exact ⟨(h.inside hx).1, (h'.inside hx').1⟩
  · have hown := h.own hx
    have hown' := h'.own hx'
    revert hown hown'
    generalize σ.own? _ _ = o, τ.own? _ _ = o', υ.own? _ _ = u
    rintro (hv | _) <;> rintro (hv' | _)
    · exact .some (hv.across hv')
    · exact .none
  · have hu := h.own_none hx hs
    have hparent := h.parent hx hs
    have hparent' := h'.parent hx' ((h'.own hx').eq_none_iff.2 hu)
    revert hparent hparent'
    generalize σ.parent? _ = o, τ.parent? _ = o', υ.parent? _ = u
    rintro (hv | _) <;> rintro (hv' | _)
    · exact .some ⟨⟨_, hv.1, hv'.1⟩, hv.2.1, hv'.2.1⟩
    · exact .none
  · exact ⟨(h.older hx hi).1, (h'.older hx' hi).1⟩

theorem symm (h : σ.Alike p L τ) : τ.Alike p L.symm σ where
  known hx := h.known hx
  inside hx := (h.inside hx).symm
  own hx := by
    have hown := h.own hx
    revert hown
    generalize σ.own? _ _ = o, τ.own? _ _ = o'
    rintro (hv | _)
    · exact .some hv.symm
    · exact .none
  parent hx hs := by
    have hparent := h.parent hx ((h.own hx).eq_none_iff.2 hs)
    revert hparent
    generalize σ.parent? _ = o, τ.parent? _ = o'
    rintro (⟨ht, hlt, hlt'⟩ | _)
    · exact .some ⟨ht, hlt', hlt⟩
    · exact .none
  older hx hi := (h.older hx hi).symm

/-! ### Changes that keep scopes alike -/

/-- Two scopes are alike in more definitions. -/
theorem adding {X : NodeId → Prop} (h : σ.Alike p L τ) (hs : s.index < σ.size)
    (hs' : s'.index < τ.size) (hknown : ∀ x, X x → p.Known x)
    (hown : ∀ x, X x →
      Option.Rel (Value.Alike p (L.adding s s' X)) (σ.own? s x) (τ.own? s' x))
    (hparent : ∀ x, X x → σ.own? s x = none → Option.Rel
      (fun t t' => (L.adding s s' X).binds t t' x ∧ t.index < s.index ∧ t'.index < s'.index)
      (σ.parent? s) (τ.parent? s'))
    (holder : ∀ x, X x → p.OfStructure x →
      (∀ v, σ.own? s x = some v → v.Older s) ∧ ∀ v, τ.own? s' x = some v → v.Older s') :
    σ.Alike p (L.adding s s' X) τ := by
  have le := L.le_adding s s' X
  refine ⟨fun hx => ?_, fun hx => ?_, fun hx => ?_, fun hx hn => ?_, fun hx hi => ?_⟩ <;>
    rcases hx with hx | ⟨rfl, rfl, hx⟩
  · exact h.known hx
  · exact hknown _ hx
  · exact h.inside hx
  · exact ⟨hs, hs'⟩
  · exact (h.own hx).mono fun _ _ hv => hv.mono le
  · exact hown _ hx
  · exact (h.parent hx hn).mono fun _ _ ht => ⟨.inl ht.1, ht.2⟩
  · exact hparent _ hx hn
  · exact h.older hx hi
  · exact holder _ hx hi

/-- Two scopes without parents are alike where neither binds anything. -/
theorem adding_unbound {X : NodeId → Prop} (h : σ.Alike p L τ) (hs : s.index < σ.size)
    (hs' : s'.index < τ.size) (hp : σ.parent? s = none) (hp' : τ.parent? s' = none)
    (hknown : ∀ x, X x → p.Known x)
    (hX : ∀ x, X x → σ.own? s x = none ∧ τ.own? s' x = none) :
    σ.Alike p (L.adding s s' X) τ := by
  refine h.adding hs hs' hknown (fun x hx => ?_) (fun x hx _ => ?_) fun x hx _ => ?_
  · rw [(hX x hx).1, (hX x hx).2]
    exact .none
  · rw [hp, hp']
    exact .none
  · rw [(hX x hx).1, (hX x hx).2]
    exact ⟨nofun, nofun⟩

/-- An instance is older than a scope that comes later. -/
theorem value_older (h : σ.Alike p L τ) (hv : v.Alike p L w) (hs : σ.size ≤ s.index) :
    v.Older s := by
  cases hv with
  | instanceOf hd hc =>
    exact Nat.lt_of_lt_of_le (h.inside (hc.1 _ (Program.needs_self _))).1 hs
  | _ => exact trivial

/-- Alike values are bound to a definition in two scopes that are alike in it, if at all, only
    with each other. -/
theorem define (h : σ.Alike p L τ) (hv : v.Alike p L w) (hs : s.index < σ.size)
    (hs' : s'.index < τ.size) (hi : ¬p.OfStructure x) (hleft : ∀ t, L.binds s t x → t = s')
    (hright : ∀ t, L.binds t s' x → t = s) : (σ.define s x v).Alike p L (τ.define s' x w) := by
  refine ⟨h.known, fun hy => ?_, fun {t t' y} hy => ?_, fun {t t' y} hy hn => ?_,
    fun {t t' y} hy hiy => ?_⟩
  · rw [size_define, size_define]
    exact h.inside hy
  · rw [own?_define σ hs, own?_define τ hs']
    by_cases he : s = t ∧ x = y
    · obtain ⟨rfl, rfl⟩ := he
      obtain rfl := hleft t' hy
      simpa using Option.Rel.some hv
    · have he' : ¬(s' = t' ∧ x = y) := by
        rintro ⟨rfl, rfl⟩
        exact he ⟨(hright t hy).symm, rfl⟩
      rw [if_neg he, if_neg he']
      exact h.own hy
  · rw [own?_define σ hs] at hn
    rw [parent?_define, parent?_define]
    refine h.parent hy ?_
    split at hn
    · cases hn
    · exact hn
  · have hne : x ≠ y := fun e => hi (e ▸ hiy)
    rw [own?_define σ hs, own?_define τ hs', if_neg fun e => hne e.2, if_neg fun e => hne e.2]
    exact h.older hy hiy

/-- Scopes with alike bindings are created inside alike scopes. -/
theorem add {scope scope' : Scope} {c c' : ScopeId} (h : σ.Alike p L τ)
    (hp : scope.parent = some c) (hp' : scope'.parent = some c')
    (hbind : ∀ x, Option.Rel (Value.Alike p L) (scope.bindings.get? x) (scope'.bindings.get? x)) :
    (σ.add scope).2.Alike p (L.adding (σ.add scope).1 (τ.add scope').1 (L.binds c c'))
      (τ.add scope').2 := by
  have hold := h.spares (.add σ scope) (.add τ scope') fun _ _ _ _ => ⟨id, id⟩
  have lt : (σ.add scope).1.index < (σ.add scope).2.size := by
    rw [size_add]
    exact Nat.lt_succ_self _
  have lt' : (τ.add scope').1.index < (τ.add scope').2.size := by
    rw [size_add]
    exact Nat.lt_succ_self _
  refine hold.adding lt lt' (fun x hx => h.known hx) (fun x _ => ?_) (fun x hx _ => ?_)
    fun x hx _ => ⟨fun v hv => ?_, fun w hw => ?_⟩
  · rw [own?_add_new, own?_add_new]
    exact (hbind x).mono fun _ _ hv => hv.mono (L.le_adding _ _ _)
  · rw [parent?_add_new, parent?_add_new, hp, hp']
    exact .some ⟨.inl hx, h.inside hx⟩
  · rw [own?_add_new] at hv
    have := hbind x
    rw [hv] at this
    generalize scope'.bindings.get? x = o at this
    cases this with | some hv => exact h.value_older hv (Nat.le_refl _)
  · rw [own?_add_new] at hw
    have := hbind x
    rw [hw] at this
    generalize scope.bindings.get? x = o at this
    cases this with | some hv => exact h.symm.value_older hv.symm (Nat.le_refl _)

/-! ### Descriptions -/

theorem needs_input {d i : NodeId} (hi : i ∈ p.inputs d) : p.Needs d i :=
  .meets (Program.meets_child (Program.inputs_subset_children hi))

/-- What is looked up by an input of a structure is older than the scope. -/
theorem lookup_older (h : σ.Alike p L τ) (hx : L.binds s s' x) (hi : p.OfStructure x)
    (hv : σ.lookup s x = some v) : v.Older s := by
  induction hn : s.index using Nat.strongRecOn generalizing s s' with
  | _ n ih =>
    subst hn
    rw [lookup_eq, Option.or_eq_some_iff] at hv
    rcases hv with hv | ⟨hn, hv⟩
    · exact (h.older hx hi).1 v hv
    · have hparent := h.parent hx hn
      obtain ⟨t, ht, hv⟩ := Option.bind_eq_some_iff.1 hv
      rw [ht] at hparent
      generalize τ.parent? s' = o at hparent
      obtain ⟨ht, hlt, -⟩ := hparent
      rw [if_pos hlt] at hv
      have hold := ih _ hlt ht hv rfl
      cases v with
      | instanceOf d u => exact Nat.lt_trans hold hlt
      | _ => exact trivial

/-- The inputs of an instance as they are described within a depth. -/
def inputTexts (p : Program) (σ : Scopes) (n : Nat) (d : NodeId) (s : ScopeId) : List String :=
  (p.inputs d).map fun i =>
    p.nameText i "?" ++ ": " ++ ((σ.lookup s i).map (Value.describeWithin p σ n)).getD "?"

theorem describeWithin_instanceOf (p : Program) (σ : Scopes) (n : Nat) (d : NodeId) (s : ScopeId) :
    (Value.instanceOf d s).describeWithin p σ (n + 1) =
      p.nameText d "?" ++ "(" ++ ", ".intercalate (inputTexts p σ n d s) ++ ")" := by
  simp only [Value.describeWithin, inputTexts]

/-- Alike values are described alike within any depth. -/
theorem describeWithin_eq (h : σ.Alike p L τ) (n : Nat) (hv : v.Alike p L w) :
    v.describeWithin p σ n = w.describeWithin p τ n := by
  induction n generalizing v w with
  | zero => cases hv <;> simp only [Value.describeWithin]
  | succ n ih =>
    cases hv with
    | @instanceOf d s s' hd hc =>
      have hinputs : inputTexts p σ n d s = inputTexts p τ n d s' := by
        refine List.map_congr_left fun i hi => ?_
        have hlookup := h.lookup (hc.1 i (needs_input hi))
        rw [(hlookup.map (T := Eq) fun _ _ => ih).eq]
      rw [describeWithin_instanceOf, describeWithin_instanceOf, hinputs]
    | _ => simp only [Value.describeWithin]

/-- The description of a value within a depth is that within any greater one, if the value is
    older than a scope with at most that number. -/
theorem describeWithin_stable (h : σ.Alike p L τ) (hv : v.Alike p L w) (hold : v.Older s)
    {m n : Nat} (hm : s.index ≤ m) (hn : s.index ≤ n) :
    v.describeWithin p σ m = v.describeWithin p σ n := by
  induction hk : s.index using Nat.strongRecOn generalizing s v w m n with
  | _ k ih =>
    subst hk
    cases hv with
    | @instanceOf d t t' hd hc =>
      have hlt : t.index < s.index := hold
      obtain ⟨m, rfl⟩ := Nat.exists_eq_add_of_lt (Nat.lt_of_lt_of_le hlt hm)
      obtain ⟨n, rfl⟩ := Nat.exists_eq_add_of_lt (Nat.lt_of_lt_of_le hlt hn)
      have hinputs (k : Nat) (hk : t.index ≤ k) :
          inputTexts p σ k d t = inputTexts p σ t.index d t := by
        refine List.map_congr_left fun i hi => ?_
        have hbinds := hc.1 i (needs_input hi)
        have hinput : p.OfStructure i := ⟨d, h.known (hc.1 d (Program.needs_self d)), hd, hi⟩
        have hlookup := h.lookup hbinds
        cases hu : σ.lookup t i with
        | none => rfl
        | some u =>
          rw [hu] at hlookup
          generalize τ.lookup t' i = o at hlookup
          cases hlookup with
          | some hv =>
            rw [Option.map_some, Option.map_some,
              ih _ hlt hv (h.lookup_older hbinds hinput hu) hk (Nat.le_refl _) rfl]
      rw [describeWithin_instanceOf, describeWithin_instanceOf, hinputs _ (by omega),
        hinputs (t.index + n) (by omega)]
    | _ => simp only [Value.describeWithin]

/-- **Alike values have the same description.** -/
theorem describe_eq (h : σ.Alike p L τ) (hv : v.Alike p L w) :
    v.describe p σ = w.describe p τ := by
  have left := h.describeWithin_stable hv (h.value_older hv (s := ⟨σ.size⟩) (Nat.le_refl _))
    (m := σ.size + 1) (n := σ.size + τ.size + 1) (Nat.le_succ _)
    (by simp only; omega)
  have right := h.symm.describeWithin_stable hv.symm
    (h.symm.value_older hv.symm (s := ⟨τ.size⟩) (Nat.le_refl _))
    (m := τ.size + 1) (n := σ.size + τ.size + 1) (Nat.le_succ _) (by simp only; omega)
  unfold Value.describe
  rw [left, right]
  exact h.describeWithin_eq _ hv

end Scopes.Alike

end Arbor
