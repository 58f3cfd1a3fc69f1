/-
  Evaluation in alike scopes.

  Code that is evaluated in scopes that are alike in what it needs gives alike values, or stops
  for the same reason.  New scopes are created side by side, and are alike as far as the scopes
  that they close over (`Likeness.Grows`).

  * `Eval.Alike` says this of two evaluations, and `Eval.Alike.bind` runs them one after
    another;
  * there is one lemma for what names, members, calls and each kind of node give.

  Main statement: `alike_evaluate`, by induction over rooms for calls and over the tree.
-/
import Arbor.Proofs.Evaluation.Extent
import Arbor.Proofs.Machine.Sound
import Arbor.Proofs.Program.Methods

namespace Arbor

open List (Forall₂)

variable {p : Program} {L M N : Likeness} {σ τ σ' τ' σ'' τ'' : Scopes}

/-! ## Likenesses that grow -/

/-- With the scopes, the likeness of them has grown by new scopes only. -/
structure Likeness.Grows (L : Likeness) (σ τ : Scopes) (M : Likeness) (σ' τ' : Scopes) : Prop where
  le : L ≤ M
  streams : M.streams → L.streams
  fresh : ∀ s s' x, M.binds s s' x →
    L.binds s s' x ∨ (σ.size ≤ s.index ∧ τ.size ≤ s'.index)
  left : σ.size ≤ σ'.size
  right : τ.size ≤ τ'.size

/-- Two scopes that are alike in a definition to each other alone. -/
structure Likeness.Sole (L : Likeness) (s s' : ScopeId) (x : NodeId) : Prop where
  left : ∀ t, L.binds s t x → t = s'
  right : ∀ t, L.binds t s' x → t = s

namespace Likeness

theorem Grows.refl (L : Likeness) (σ τ : Scopes) : L.Grows σ τ L σ τ :=
  ⟨L.le_refl, fun h => h, fun _ _ _ => .inl, Nat.le_refl _, Nat.le_refl _⟩

theorem Grows.trans (h : L.Grows σ τ M σ' τ') (h' : M.Grows σ' τ' N σ'' τ'') :
    L.Grows σ τ N σ'' τ'' where
  le := le_trans h.le h'.le
  streams hs := h.streams (h'.streams hs)
  fresh s s' x hx := by
    rcases h'.fresh s s' x hx with hx | ⟨hs, hs'⟩
    · exact h.fresh s s' x hx
    · exact .inr ⟨Nat.le_trans h.left hs, Nat.le_trans h.right hs'⟩
  left := Nat.le_trans h.left h'.left
  right := Nat.le_trans h.right h'.right

theorem Sole.grows {s s' : ScopeId} {x : NodeId} (h : L.Sole s s' x) (hg : L.Grows σ τ M σ' τ')
    (hs : s.index < σ.size) (hs' : s'.index < τ.size) : M.Sole s s' x where
  left t hx := by
    rcases hg.fresh s t x hx with hx | ⟨hlt, -⟩
    · exact h.left t hx
    · omega
  right t hx := by
    rcases hg.fresh t s' x hx with hx | ⟨-, hlt⟩
    · exact h.right t hx
    · omega

end Likeness

/-! ## Alike evaluations -/

namespace Eval

variable {α β γ δ : Type}

/-- Two evaluations give results that are alike, in scopes that have grown alike, or both stop
    for the same reason. -/
inductive Ends (p : Program) (L : Likeness) (σ τ : Scopes) (A : Likeness → α → β → Prop) :
    Except Stop α × Scopes → Except Stop β × Scopes → Prop
  | ok {M : Likeness} {a : α} {b : β} {σ' τ' : Scopes} : L.Grows σ τ M σ' τ' →
      σ'.Alike p M τ' → A M a b → Ends p L σ τ A (.ok a, σ') (.ok b, τ')
  | error (e : Stop) {σ' τ' : Scopes} : Ends p L σ τ A (.error e, σ') (.error e, τ')

/-- The evaluations do alike things in scopes that are alike. -/
def Alike (p : Program) (L : Likeness) (σ τ : Scopes) (A : Likeness → α → β → Prop) (x : Eval α)
    (y : Eval β) : Prop :=
  Ends p L σ τ A (x.on σ) (y.on τ)

/-- The evaluations do alike things wherever the likeness may have grown to. -/
def AlikeAfter (p : Program) (L : Likeness) (σ τ : Scopes) (A : Likeness → α → β → Prop)
    (x : Eval α) (y : Eval β) : Prop :=
  ∀ {M : Likeness} {σ' τ' : Scopes}, L.Grows σ τ M σ' τ' → σ'.Alike p M τ' →
    Eval.Alike p M σ' τ' A x y

variable {A : Likeness → α → β → Prop} {B : Likeness → γ → δ → Prop}

theorem alike_pure {a : α} {b : β} (h : σ.Alike p L τ) (hab : A L a b) :
    Eval.Alike p L σ τ A (pure a) (pure b) :=
  .ok (.refl L σ τ) h hab

theorem alike_throw (e : Stop) : Eval.Alike p L σ τ A (throw e) (throw e) := .error e

theorem alike_raise (e : Exception) : Eval.Alike p L σ τ A (raise e) (raise e) := .error (.raised e)

theorem Ends.after {r : Except Stop α × Scopes} {r' : Except Stop β × Scopes}
    (hg : L.Grows σ τ M σ' τ') (h : Ends p M σ' τ' A r r') : Ends p L σ τ A r r' := by
  cases h with
  | ok hg' hs hab => exact .ok (hg.trans hg') hs hab
  | error e => exact .error e

/-- **Alike evaluations run one after another.** -/
theorem Alike.bind {x : Eval α} {y : Eval β} {f : α → Eval γ} {g : β → Eval δ}
    (hx : Eval.Alike p L σ τ A x y)
    (hf : ∀ M σ' τ' a b, L.Grows σ τ M σ' τ' → σ'.Alike p M τ' → A M a b →
      Eval.Alike p M σ' τ' B (f a) (g b)) : Eval.Alike p L σ τ B (x >>= f) (y >>= g) := by
  unfold Alike at hx ⊢
  rw [on_bind, on_bind]
  generalize x.on σ = r, y.on τ = r' at hx
  cases hx with
  | ok hg hs hab => exact .after hg (hf _ _ _ _ _ hg hs hab)
  | error e => exact .error e

/-- What is done with the scopes. -/
theorem alike_get {f : Scopes → Eval γ} {g : Scopes → Eval δ}
    (h : Eval.Alike p L σ τ B (f σ) (g τ)) : Eval.Alike p L σ τ B (get >>= f) (get >>= g) := by
  unfold Alike at h ⊢
  rwa [on_bind, on_bind, on_get, on_get]

/-- What is done in a new scope. -/
theorem alike_added {scope scope' : Scope} {f : ScopeId → Eval γ} {g : ScopeId → Eval δ}
    (hg : L.Grows σ τ M (σ.add scope).2 (τ.add scope').2)
    (h : Eval.Alike p M (σ.add scope).2 (τ.add scope').2 B (f (σ.add scope).1)
      (g (τ.add scope').1)) :
    Eval.Alike p L σ τ B (modifyGet (·.add scope) >>= f) (modifyGet (·.add scope') >>= g) := by
  unfold Alike at h ⊢
  rw [on_bind, on_bind, on_modifyGet, on_modifyGet]
  exact .after hg h

theorem alike_give {v w : Value} (h : σ.Alike p L τ) (hv : v.Alike p L w) :
    Eval.Alike p L σ τ (Value.Alike p) (give v) (give w) := by
  cases hv with
  | exception e => exact alike_raise e
  | bool b => exact alike_pure h (.bool b)
  | number x => exact alike_pure h (.number x)
  | text s => exact alike_pure h (.text s)
  | function hc => exact alike_pure h (.function hc)
  | method hc hv => exact alike_pure h (.method hc hv)
  | definition hc => exact alike_pure h (.definition hc)
  | instanceOf hd hc => exact alike_pure h (.instanceOf hd hc)

theorem alike_define {s s' : ScopeId} {x : NodeId} {v w : Value} (h : σ.Alike p L τ)
    (hv : v.Alike p L w) (hs : s.index < σ.size) (hs' : s'.index < τ.size) (hi : ¬p.OfStructure x)
    (hsole : L.Sole s s' x) :
    Eval.Alike p L σ τ (Value.Alike p) (define s x v) (define s' x w) := by
  refine .ok ⟨L.le_refl, fun h => h, fun _ _ _ => .inl, ?_, ?_⟩
    (h.define hv hs hs' hi hsole.left hsole.right) hv
  · rw [Scopes.size_define]
  · rw [Scopes.size_define]

theorem alike_inOrder {f g : NodeId → Eval Value} (ids : List NodeId) (h : σ.Alike p L τ)
    (each : ∀ c ∈ ids, AlikeAfter p L σ τ (Value.Alike p) (f c) (g c)) :
    Eval.Alike p L σ τ (fun M => Forall₂ (Value.Alike p M)) (inOrder f ids) (inOrder g ids) := by
  induction ids generalizing L σ τ with
  | nil => exact alike_pure h .nil
  | cons id ids ih =>
    refine (each id List.mem_cons_self (.refl L σ τ) h).bind fun M σ' τ' v w hg h hv => ?_
    have hrest := ih h fun c hc _ _ _ hg' h' => each c (List.mem_cons_of_mem _ hc) (hg.trans hg') h'
    exact hrest.bind fun N σ'' τ'' vs ws hg' h hvs =>
      alike_pure h (.cons (hv.mono hg'.le) hvs)

end Eval

/-! ## Alike surroundings -/

/-- The surroundings are alike: of values that are alike, in scopes that are alike in the inputs
    of what is evaluated.  Streams have the same values if the likeness is one of streams. -/
structure Env.Alike (p : Program) (L : Likeness) (σ τ : Scopes) (env env' : Env) : Prop where
  definition : env'.definition = env.definition
  creator : env'.creator = env.creator
  this : Option.Rel (Value.Alike p L) env.this env'.this
  nearest : Option.Rel (Value.Alike p L) env.nearest env'.nearest
  streams : L.streams → env'.streams = env.streams ∧
    ∀ s v, env.streams.get? s = some v → ∃ q, v.primitive? = some q
  inside : env.scope.index < σ.size ∧ env'.scope.index < τ.size
  inputs : ∀ d, env.definition = some d → ∀ i ∈ p.inputs d, L.binds env.scope env'.scope i

theorem Env.Alike.grows {env env' : Env} (h : Env.Alike p L σ τ env env')
    (hg : L.Grows σ τ M σ' τ') : Env.Alike p M σ' τ' env env' where
  definition := h.definition
  creator := h.creator
  this := h.this.mono fun _ _ hv => hv.mono hg.le
  nearest := h.nearest.mono fun _ _ hv => hv.mono hg.le
  streams hs := h.streams (hg.streams hs)
  inside := ⟨Nat.lt_of_lt_of_le h.inside.1 hg.left, Nat.lt_of_lt_of_le h.inside.2 hg.right⟩
  inputs d hd i hi := hg.le.1 _ _ i (h.inputs d hd i hi)

/-- Calls of the same thing, in alike scopes and with alike values. -/
structure Call.Alike (p : Program) (L : Likeness) (c c' : Call) : Prop where
  creator : c'.creator = c.creator
  definition : c'.definition = c.definition
  closure : L.Code p c.definition c.closure c'.closure
  this : Option.Rel (Value.Alike p L) c.this c'.this
  arguments : Forall₂ (Value.Alike p L) c.arguments c'.arguments

/-! ## Names, members and operations -/

namespace Program

variable {env env' : Env} {id : NodeId} {n : Name} {v w : Value}

/-- A name stands for alike values. -/
theorem alike_nameValue (h : σ.Alike p L τ) (henv : Env.Alike p L σ τ env env')
    (hn : p.node? id = some (.reference n)) (hc : L.Code p id (some env.scope) (some env'.scope)) :
    (p.nameValue env σ id n).Alike p L (p.nameValue env' τ id n) := by
  -- A function or structure that is not bound is taken from where it stands.
  have meets {d : Definition} {z : NodeId} (hd : p.resolve n id = some d) (hz : d.node? = some z)
      (hb : ∀ b, d ≠ .bind b) : L.Code p z (some env.scope) (some env'.scope) :=
    hc.meets (.name .self hn hd hz hb)
  unfold nameValue
  cases hd : p.resolve n id with
  | none =>
    dsimp only
    split
    · exact henv.nearest.getD (.exception _)
    · exact .exception _
  | some d =>
    cases d with
    | bind b => exact (h.lookup (hc.1 b (.bind .self hn hd))).getD (.exception _)
    | function f =>
      have hf := meets hd rfl nofun
      exact (h.lookup (hf.1 f (needs_self f))).getD (.function hf)
    | structureDef d =>
      have hd' := meets hd rfl nofun
      exact (h.lookup (hd'.1 d (needs_self d))).getD (.definition hd')
    | stream s =>
      obtain ⟨heq, hprim⟩ := henv.streams (hc.2 ⟨id, .self, n, s, hn, hd⟩)
      dsimp only
      rw [heq]
      cases hs : env.streams.get? s with
      | none => exact .exception _
      | some v =>
        obtain ⟨q, hq⟩ := hprim s v hs
        exact Value.alike_of_primitive? hq
    | typeVariable t => exact .exception _

theorem alike_method? (hv : v.Alike p L w) (n : Name) :
    Option.Rel (Value.Alike p L) (p.method? v n) (p.method? w n) := by
  have primitive (hv : v.Alike p L w) : Option.Rel (Value.Alike p L)
      ((p.primitiveMethod? v n).map fun f => .method f none v)
      ((p.primitiveMethod? w n).map fun f => .method f none w) := by
    unfold primitiveMethod?
    rw [← hv.primitive?_eq]
    cases hq : v.primitive? with
    | none => exact .none
    | some q =>
      rw [Option.bind_some]
      cases hf : p.basis.function? q n with
      | none => exact .none
      | some f => exact .some (.method ⟨q, n, hf⟩ hv)
  cases hv with
  | @instanceOf d s s' hd hc =>
    unfold method?
    dsimp only
    split
    · next f hm => exact .some (.method (hc.meets (meets_member hm rfl)) (.instanceOf hd hc))
    · exact .none
  | bool b => exact primitive (.bool b)
  | number x => exact primitive (.number x)
  | text s => exact primitive (.text s)
  | function hc => exact primitive (.function hc)
  | method hc hv => exact primitive (.method hc hv)
  | definition hc => exact primitive (.definition hc)
  | exception e => exact primitive (.exception e)

/-- A member of alike values has alike values. -/
theorem alike_propertyValue (h : σ.Alike p L τ) (hv : v.Alike p L w) (id : NodeId) (n : Name) :
    (p.propertyValue σ id v n).Alike p L (p.propertyValue τ id w n) := by
  have missing : (Value.exception ⟨.name n, id⟩).Alike p L (.exception ⟨.name n, id⟩) :=
    .exception _
  have hmethod := alike_method? hv n
  cases hv with
  | @instanceOf d s s' hd hc =>
    unfold propertyValue
    dsimp only
    split
    · next b hm => exact (h.lookup (hc.1 b (.meets (meets_member hm rfl)))).getD missing
    · next f hm => exact .method (hc.meets (meets_member hm rfl)) (.instanceOf hd hc)
    · next e hm => exact .definition (hc.meets (meets_member hm rfl))
    · exact missing
  | exception e => exact .exception e
  | _ => exact hmethod.getD missing

/-- An operation gives the same of alike values. -/
theorem alike_apply {v' w' : Value} (op : NativeOp) (hv : v.Alike p L w) (hv' : v'.Alike p L w') :
    op.apply w w' = op.apply v v' ∧ ∀ u, op.apply v v' = .ok u → ∃ q, u.primitive? = some q := by
  have numbers {f : Float → Float → Except ExceptionKind Value}
      (hf : ∀ a b u, f a b = .ok u → ∃ q, u.primitive? = some q) :
      NativeOp.onNumbers w w' f = NativeOp.onNumbers v v' f ∧
        ∀ u, NativeOp.onNumbers v v' f = .ok u → ∃ q, u.primitive? = some q := by
    cases hv <;> cases hv' <;> refine ⟨rfl, fun u hu => ?_⟩ <;>
      first | exact hf _ _ _ hu | cases hu
  have booleans {f : Bool → Bool → Bool} :
      NativeOp.onBooleans w w' f = NativeOp.onBooleans v v' f ∧
        ∀ u, NativeOp.onBooleans v v' f = .ok u → ∃ q, u.primitive? = some q := by
    cases hv <;> cases hv' <;> refine ⟨rfl, fun u hu => ?_⟩ <;> cases hu
    exact ⟨_, rfl⟩
  have texts {f : String → String → Value} (hf : ∀ a b, ∃ q, (f a b).primitive? = some q) :
      NativeOp.onTexts w w' f = NativeOp.onTexts v v' f ∧
        ∀ u, NativeOp.onTexts v v' f = .ok u → ∃ q, u.primitive? = some q := by
    cases hv <;> cases hv' <;> refine ⟨rfl, fun u hu => ?_⟩ <;> cases hu
    exact hf _ _
  cases op with
  | booleanAnd | booleanOr | booleanEqual => exact booleans
  | textConcatenate | textEqual => exact texts fun _ _ => ⟨_, rfl⟩
  | numberDivide =>
    refine numbers fun a b u hu => ?_
    unfold NativeOp.divide at hu
    split at hu <;> cases hu
    exact ⟨_, rfl⟩
  | _ =>
    refine numbers fun a b u hu => ?_
    cases hu
    exact ⟨_, rfl⟩

/-- The body of a primitive method gives alike values to alike receivers and inputs. -/
theorem alike_operationValue (hd : env'.definition = env.definition)
    (hc : env'.creator = env.creator) (hthis : Option.Rel (Value.Alike p L) env.this env'.this)
    (hi : ∀ i, (env.definition.bind fun d => (p.inputs d).head?) = some i →
      Option.Rel (Value.Alike p L) (σ.lookup env.scope i) (τ.lookup env'.scope i))
    (id : NodeId) (op : NativeOp) :
    (p.operationValue env σ id op).Alike p L (p.operationValue env' τ id op) := by
  have hinput : Option.Rel (Value.Alike p L)
      ((env.definition.bind fun d => (p.inputs d).head?).bind (σ.lookup env.scope))
      ((env.definition.bind fun d => (p.inputs d).head?).bind (τ.lookup env'.scope)) := by
    cases hd : env.definition.bind fun d => (p.inputs d).head? with
    | none => exact .none
    | some i => exact hi i hd
  unfold operationValue
  rw [hd, hc]
  revert hthis hinput
  generalize env.this = o, env'.this = o', (Option.bind _ (σ.lookup _)) = i,
    (Option.bind _ (τ.lookup _)) = i'
  rintro (hv | _) (hr | _)
  · obtain ⟨heq, hprim⟩ := alike_apply op hv hr
    dsimp only
    rw [heq]
    split
    · next u hu =>
      obtain ⟨q, hq⟩ := hprim u hu
      exact Value.alike_of_primitive? hq
    · exact .exception _
  · exact .exception _
  · exact .exception _
  · exact .exception _

/-! ## Calls -/

/-- Inputs get alike values, or the same one gets none. -/
theorem alike_inputValues {arguments arguments' : List Value} (inputs : List NodeId)
    (h : Forall₂ (Value.Alike p L) arguments arguments') :
    Except.Rel Eq (Forall₂ fun e e' : NodeId × Value => e.1 = e'.1 ∧ e.2.Alike p L e'.2)
      (p.inputValues inputs arguments) (p.inputValues inputs arguments') := by
  induction inputs generalizing arguments arguments' with
  | nil => cases h <;> exact .ok .nil
  | cons input inputs ih =>
    have cons {v v' : Value} {rest rest' : List Value} (hv : v.Alike p L v')
        (hrest : Forall₂ (Value.Alike p L) rest rest') :
        Except.Rel Eq (Forall₂ fun e e' : NodeId × Value => e.1 = e'.1 ∧ e.2.Alike p L e'.2)
          (do return (input, v) :: (← p.inputValues inputs rest))
          (do return (input, v') :: (← p.inputValues inputs rest')) := by
      have := ih hrest
      revert this
      generalize p.inputValues inputs rest = r, p.inputValues inputs rest' = r'
      rintro (he | hvs)
      · exact .error he
      · exact .ok (.cons ⟨rfl, hv⟩ hvs)
    cases h with
    | cons hv hrest => exact cons hv hrest
    | nil =>
      unfold inputValues
      split
      · next v hd =>
        obtain ⟨q, hq⟩ := defaultValue?_primitive hd
        exact cons (Value.alike_of_primitive? hq) .nil
      · exact .error rfl

theorem alike_bindings {es es' : List (NodeId × Value)} {t t' : Table NodeId Value}
    (h : Forall₂ (fun e e' : NodeId × Value => e.1 = e'.1 ∧ e.2.Alike p L e'.2) es es')
    (ht : ∀ x, Option.Rel (Value.Alike p L) (t.get? x) (t'.get? x)) (x : NodeId) :
    Option.Rel (Value.Alike p L) ((es.foldl (fun t (input, v) => t.insert input v) t).get? x)
      ((es'.foldl (fun t (input, v) => t.insert input v) t').get? x) := by
  induction h generalizing t t' with
  | nil => exact ht x
  | @cons e e' _ _ he _ ih =>
    rw [List.foldl_cons, List.foldl_cons]
    refine ih fun y => ?_
    rw [Table.get?_insert, Table.get?_insert, he.1]
    split
    · exact .some he.2
    · exact ht y

/-- The scopes of alike calls have alike bindings. -/
theorem alike_callScope {c c' : Call} (h : Call.Alike p L c c') :
    Except.Rel Eq (fun scope scope' : Scope => scope.parent = c.closure ∧
        scope'.parent = c'.closure ∧ ∀ x, Option.Rel (Value.Alike p L) (scope.bindings.get? x)
          (scope'.bindings.get? x))
      (p.callScope c) (p.callScope c') := by
  unfold callScope
  have hvalues := alike_inputValues (p.inputs c.definition) h.arguments
  rw [h.definition, h.creator]
  revert hvalues
  generalize p.inputValues _ c.arguments = r, p.inputValues _ c'.arguments = r'
  rintro (rfl | hvs)
  · exact .error rfl
  · exact .ok ⟨rfl, rfl, alike_bindings hvs fun _ => .none⟩

/-- Alike values are called alike. -/
theorem alike_call {f g : Call → Eval Value} {arguments arguments' : List Value}
    (hinvoke : ∀ c c', Call.Alike p L c c' →
      Eval.Alike p L σ τ (Value.Alike p) (f c) (g c'))
    (id : NodeId) (name : Option Name) (hv : v.Alike p L w)
    (harguments : Forall₂ (Value.Alike p L) arguments arguments') :
    Eval.Alike p L σ τ (Value.Alike p) (p.call f id name v arguments)
      (p.call g id name w arguments') := by
  have raise (e : Exception) : Eval.Alike p L σ τ (Value.Alike p) (Eval.raise e) (Eval.raise e) :=
    Eval.alike_raise e
  unfold call
  cases hv with
  | function hc =>
    dsimp only
    split
    · exact raise _
    · exact hinvoke _ _ ⟨rfl, rfl, hc, .none, harguments⟩
  | method hc hv =>
    dsimp only
    split
    · exact raise _
    · exact hinvoke _ _ ⟨rfl, rfl, hc, .some hv, harguments⟩
  | definition hc =>
    dsimp only
    split
    · exact hinvoke _ _ ⟨rfl, rfl, hc, .none, harguments⟩
    · exact raise _
  | _ => exact raise _

/-- The two ways to call give alike values to alike calls, wherever the likeness may have
    grown to. -/
def CallsAlike (p : Program) (L : Likeness) (σ τ : Scopes) (f g : Call → Eval Value) : Prop :=
  ∀ {M : Likeness} {σ' τ' : Scopes}, L.Grows σ τ M σ' τ' → σ'.Alike p M τ' →
    ∀ c c', Call.Alike p M c c' → Eval.Alike p M σ' τ' (Value.Alike p) (f c) (g c')

/-! ## Nodes -/

section
variable {f g : Call → Eval Value} {s s' : NodeId → Eval Value} {x : NodeId}

theorem alike_operate {op : Name} {right : NodeId} (hv : v.Alike p L w)
    (hcalls : CallsAlike p L σ τ f g)
    (hright : Eval.Alike p L σ τ (Value.Alike p) (s right) (s' right)) :
    Eval.Alike p L σ τ (Value.Alike p) (evaluateNode.operate p f s x op v right)
      (evaluateNode.operate p g s' x op w right) := by
  unfold evaluateNode.operate
  refine hright.bind fun M σ' τ' r r' hg h hr => ?_
  have hmethod := alike_method? (p := p) (hv.mono hg.le) op
  revert hmethod
  generalize p.method? v op = o, p.method? w op = o'
  rintro (hm | _)
  · exact alike_call (hcalls hg h) x (some op) hm (.cons hr .nil)
  · exact Eval.alike_raise _

theorem alike_binaryOperation {left right : NodeId} {op : Name}
    (hn : p.node? x = some (.binaryOperation left op right)) (hcalls : CallsAlike p L σ τ f g)
    (hleft : Eval.Alike p L σ τ (Value.Alike p) (s left) (s' left))
    (hright : Eval.AlikeAfter p L σ τ (Value.Alike p) (s right) (s' right)) :
    Eval.Alike p L σ τ (Value.Alike p) (p.evaluateNode f env s x)
      (p.evaluateNode g env' s' x) := by
  simp only [evaluateNode, hn]
  refine hleft.bind fun M σ' τ' v w hg h hv => ?_
  have operate : Eval.Alike p M σ' τ' (Value.Alike p) (evaluateNode.operate p f s x op v right)
      (evaluateNode.operate p g s' x op w right) :=
    alike_operate hv (fun hg' => hcalls (hg.trans hg')) (hright hg h)
  cases op.isShortCircuit with
  | false => exact operate
  | true =>
    cases hv with
    | bool b =>
      dsimp only
      split
      · exact Eval.alike_pure h (.bool b)
      · exact operate
    | _ => exact Eval.alike_raise _

theorem alike_conditional {condition yes no : NodeId}
    (hn : p.node? x = some (.conditional condition yes no))
    (hcondition : Eval.Alike p L σ τ (Value.Alike p) (s condition) (s' condition))
    (hyes : Eval.AlikeAfter p L σ τ (Value.Alike p) (s yes) (s' yes))
    (hno : Eval.AlikeAfter p L σ τ (Value.Alike p) (s no) (s' no)) :
    Eval.Alike p L σ τ (Value.Alike p) (p.evaluateNode f env s x)
      (p.evaluateNode g env' s' x) := by
  simp only [evaluateNode, hn]
  refine hcondition.bind fun M σ' τ' v w hg h hv => ?_
  cases hv with
  | bool b =>
    cases b
    · exact hno hg h
    · exact hyes hg h
  | _ => exact Eval.alike_raise _

theorem alike_evaluation {function : NodeId} {is : NodeRange}
    (hn : p.node? x = some (.evaluate function is)) (hcalls : CallsAlike p L σ τ f g)
    (hfunction : Eval.Alike p L σ τ (Value.Alike p) (s function) (s' function))
    (harguments : ∀ c ∈ p.arena.list is, Eval.AlikeAfter p L σ τ (Value.Alike p) (s c) (s' c)) :
    Eval.Alike p L σ τ (Value.Alike p) (p.evaluateNode f env s x)
      (p.evaluateNode g env' s' x) := by
  simp only [evaluateNode, hn]
  refine hfunction.bind fun M σ' τ' v w hg h hv => ?_
  have hinOrder := Eval.alike_inOrder _ h fun c hc _ _ _ hg' => harguments c hc (hg.trans hg')
  refine hinOrder.bind fun N σ'' τ'' vs ws hg' h hvs => ?_
  exact alike_call (hcalls (hg.trans hg') h) x _ (hv.mono hg'.le) hvs

theorem alike_block {ss : NodeRange} (hn : p.node? x = some (.block ss)) (h : σ.Alike p L τ)
    (hss : ∀ c ∈ p.arena.list ss, Eval.AlikeAfter p L σ τ (Value.Alike p) (s c) (s' c)) :
    Eval.Alike p L σ τ (Value.Alike p) (p.evaluateNode f env s x)
      (p.evaluateNode g env' s' x) := by
  simp only [evaluateNode, hn]
  refine (Eval.alike_inOrder _ h hss).bind fun M σ' τ' vs ws hg h hvs => ?_
  have hlast := List.rel_getLast? hvs
  revert hlast
  generalize vs.getLast? = o, ws.getLast? = o'
  rintro (hv | _)
  · exact Eval.alike_pure h hv
  · exact Eval.alike_raise _

/-- **A node has alike values** if its children and what it calls have. -/
theorem alike_evaluateNode (hx : p.Inner x) (h : σ.Alike p L τ)
    (henv : Env.Alike p L σ τ env env') (hsole : L.Sole env.scope env'.scope x)
    (hc : L.Code p x (some env.scope) (some env'.scope)) (hcalls : CallsAlike p L σ τ f g)
    (hsub : ∀ c ∈ p.arena.children x, Eval.AlikeAfter p L σ τ (Value.Alike p) (s c) (s' c)) :
    Eval.Alike p L σ τ (Value.Alike p) (p.evaluateNode f env s x)
      (p.evaluateNode g env' s' x) := by
  have define {M : Likeness} {σ' τ' : Scopes} {v w : Value} (hg : L.Grows σ τ M σ' τ')
      (h : σ'.Alike p M τ') (hv : v.Alike p M w) : Eval.Alike p M σ' τ' (Value.Alike p)
        (Eval.define env.scope x v) (Eval.define env'.scope x w) :=
    have hsole := hsole.grows hg henv.inside.1 henv.inside.2
    have henv := henv.grows hg
    Eval.alike_define h hv henv.inside.1 henv.inside.2 hx.free hsole
  cases hn : p.node? x with
  | none =>
    simp only [evaluateNode, hn]
    exact Eval.alike_raise _
  | some n =>
    have now {c : NodeId} (hc : c ∈ p.arena.children x) := hsub c hc (.refl L σ τ) h
    rw [Arena.children_eq hn] at hsub now
    cases n with
    | propertyReference receiver n =>
      simp only [evaluateNode, hn]
      exact (now (by simp)).bind fun M σ' τ' v w hg h hv =>
        Eval.alike_get (Eval.alike_give h (alike_propertyValue h hv x n))
    | binaryOperation left op right =>
      exact alike_binaryOperation hn hcalls (now (by simp)) (hsub right (by simp))
    | conditional condition yes no =>
      exact alike_conditional hn (now (by simp)) (hsub yes (by simp)) (hsub no (by simp))
    | evaluate function is =>
      exact alike_evaluation hn hcalls (now (by simp)) fun c hc => hsub c (by simp [hc])
    | block ss => exact alike_block hn h fun c hc => hsub c (by simp [hc])
    | bind ns type value =>
      simp only [evaluateNode, hn]
      cases value with
      | none => exact Eval.alike_raise _
      | some value =>
        exact (now (by simp)).bind fun M σ' τ' v w hg h hv => define hg h hv
    | program borrows main =>
      simp only [evaluateNode, hn]
      exact now (by simp)
    | functionDefinition ns vs is output body =>
      simp only [evaluateNode, hn]
      refine define (.refl L σ τ) h ?_
      have hthis := henv.this
      revert hthis
      generalize env.this = o, env'.this = o'
      rintro (hv | _)
      · exact .method hc hv
      · exact .function hc
    | structureDefinition ns fs vs is body =>
      simp only [evaluateNode, hn]
      exact define (.refl L σ τ) h (.definition hc)
    | reference n =>
      simp only [evaluateNode, hn]
      exact Eval.alike_get (Eval.alike_give h (alike_nameValue h henv hn hc))
    | native op =>
      simp only [evaluateNode, hn]
      refine Eval.alike_get (Eval.alike_give h
        (alike_operationValue henv.definition henv.creator henv.this (fun i hi => ?_) x op))
      obtain ⟨d, hd, hi⟩ := Option.bind_eq_some_iff.1 hi
      exact h.lookup (henv.inputs d hd i (List.mem_of_mem_head? hi))
    | booleanLiteral b =>
      simp only [evaluateNode, hn]
      exact Eval.alike_pure h (.bool b)
    | numberLiteral bits =>
      simp only [evaluateNode, hn]
      exact Eval.alike_pure h (.number _)
    | textLiteral t =>
      simp only [evaluateNode, hn]
      exact Eval.alike_pure h (.text _)
    | _ =>
      simp only [evaluateNode, hn]
      exact Eval.alike_raise _

end

/-! ## Bodies of calls -/

/-- With room for a number of calls, nodes have alike values in alike surroundings. -/
def EvaluatesAlike (p : Program) (room : Nat) : Prop :=
  ∀ {L : Likeness} {σ τ : Scopes} {env env' : Env} {x : NodeId}, p.Inner x → σ.Alike p L τ →
    Env.Alike p L σ τ env env' → (∀ z ∈ p.arena.preorder x, L.Sole env.scope env'.scope z) →
    L.Code p x (some env.scope) (some env'.scope) →
    Eval.Alike p L σ τ (Value.Alike p) (p.evaluate room env x) (p.evaluate room env' x)

section
variable {c c' : Call} {scope scope' : Scope} {room : Nat}

/-- The surroundings of bodies of alike calls, in scopes that close over alike ones. -/
theorem alike_inside {t t' : ScopeId} (henv : Env.Alike p L σ τ env env')
    (hc : Call.Alike p L c c') (ht : L.Code p c.definition (some t) (some t')) :
    Env.Alike p (L.adding (σ.add scope).1 (τ.add scope').1 (L.binds t t')) (σ.add scope).2
      (τ.add scope').2 (env.inside c (σ.add scope).1) (env'.inside c' (τ.add scope').1) := by
  have le := L.le_adding (σ.add scope).1 (τ.add scope').1 (L.binds t t')
  have hthis : Option.Rel (Value.Alike p _) c.this c'.this := hc.this.mono fun _ _ hv => hv.mono le
  have hnearest := henv.nearest.mono fun _ _ hv => hv.mono le
  refine ⟨congrArg some hc.definition, hc.creator, hthis, ?_, henv.streams, ?_, ?_⟩
  · show Option.Rel _ (c.this.or env.nearest) (c'.this.or env'.nearest)
    revert hthis
    generalize c.this = o, c'.this = o'
    rintro (hv | _)
    · exact .some hv
    · exact hnearest
  · rw [Scopes.size_add, Scopes.size_add]
    exact ⟨Nat.lt_succ_self _, Nat.lt_succ_self _⟩
  · rintro d hd i hi
    obtain rfl : c.definition = d := Option.some.inj hd
    exact .inr ⟨rfl, rfl, ht.1 i (Scopes.Alike.needs_input hi)⟩

/-- New scopes are alike to each other alone. -/
theorem sole_add {X : NodeId → Prop} (h : σ.Alike p L τ) (z : NodeId) :
    (L.adding (σ.add scope).1 (τ.add scope').1 X).Sole (σ.add scope).1 (τ.add scope').1 z := by
  constructor
  · rintro u (hy | ⟨-, hu, -⟩)
    · exact absurd (h.inside hy).1 (Nat.lt_irrefl _)
    · exact hu
  · rintro u (hy | ⟨hu, -, -⟩)
    · exact absurd (h.inside hy).2 (Nat.lt_irrefl _)
    · exact hu

theorem grows_add {X : NodeId → Prop} :
    L.Grows σ τ (L.adding (σ.add scope).1 (τ.add scope').1 X) (σ.add scope).2
      (τ.add scope').2 where
  le := L.le_adding _ _ _
  streams h := h
  fresh := by
    rintro s s' x (hx | ⟨rfl, rfl, -⟩)
    · exact .inl hx
    · exact .inr ⟨Nat.le_refl _, Nat.le_refl _⟩
  left := by rw [Scopes.size_add]; exact Nat.le_succ _
  right := by rw [Scopes.size_add]; exact Nat.le_succ _

/-- The body of a function and the statements of a structure have alike values in scopes that
    close over alike ones. -/
theorem alike_body (hp : p.Separate) (heval : p.EvaluatesAlike room) (h : σ.Alike p L τ)
    (henv : Env.Alike p L σ τ env env') (hsole : ∀ z, L.Sole env.scope env'.scope z)
    (hc : Call.Alike p M c c') (hk : p.Known c.definition)
    (hcode : L.Code p c.definition (some env.scope) (some env'.scope)) :
    Eval.Alike p L σ τ (Value.Alike p) (p.evaluateBody (p.evaluate room) env c)
      (p.evaluateBody (p.evaluate room) env' c') := by
  unfold evaluateBody
  rw [hc.definition, hc.creator]
  split
  · next ns vs is output body hn =>
    have hchild : body ∈ p.arena.children c.definition := by
      rw [Arena.children_eq hn, Arena.childrenOf_functionDefinition]
      simp
    have hs : ¬p.IsStructure c.definition := by
      rintro ⟨_, _, _, _, _, hn'⟩
      rw [hn] at hn'
      cases hn'
    exact heval (hp.inner_child hk hs hchild) h henv (fun z _ => hsole z)
      (hcode.meets (meets_child hchild))
  · next ns fs vs is body hn =>
    have hstatements := Eval.alike_inOrder (p.statements c.definition) h
      fun y hy M σ' τ' hg h => by
        obtain ⟨body, hbody, -, hy'⟩ := mem_statements hy
        exact heval (hp.inner_statement hk hy) h (henv.grows hg)
          (fun z _ => (hsole z).grows hg henv.inside.1 henv.inside.2)
          ((hcode.mono hg.le).meets ((meets_child hbody).child hy'))
    exact hstatements.bind fun M σ' τ' _ _ hg h _ =>
      Eval.alike_pure h (.instanceOf ⟨ns, fs, vs, is, body, hn⟩ (hcode.mono hg.le))
  · exact Eval.alike_throw _

/-- The body of a primitive method has alike values in scopes with alike inputs. -/
theorem alike_methodBody (hp : p.Separate) {q : Primitive} {n : Name}
    (hf : p.basis.function? q n = some c.definition) (h : σ.Alike p L τ) (hc : Call.Alike p L c c')
    (hscope : scope.parent = none) (hscope' : scope'.parent = none)
    (hbind : ∀ x, Option.Rel (Value.Alike p L) (scope.bindings.get? x) (scope'.bindings.get? x)) :
    Eval.Alike p L (σ.add scope).2 (τ.add scope').2 (Value.Alike p)
      (p.evaluateBody (p.evaluate room) (env.inside c (σ.add scope).1) c)
      (p.evaluateBody (p.evaluate room) (env'.inside c' (τ.add scope').1) c') := by
  obtain ⟨op, input, body, hmethod⟩ := hp.basis.method hf
  obtain ⟨ns, vs, is, out, hn, -, -, -⟩ := hmethod.function
  unfold evaluateBody
  rw [hc.definition, hn]
  dsimp only
  rw [evaluate_eq hp.acyclic, evaluate_eq hp.acyclic]
  simp only [evaluateNode, hmethod.body]
  refine Eval.alike_get (Eval.alike_give (h.spares (.add σ _) (.add τ _) fun _ _ _ _ => ⟨id, id⟩)
    (alike_operationValue (congrArg some hc.definition) hc.creator hc.this (fun i _ => ?_) body op))
  have lookup {σ : Scopes} {scope : Scope} (hp : scope.parent = none) :
      (σ.add scope).2.lookup (σ.add scope).1 i = scope.bindings.get? i := by
    rw [Scopes.lookup_eq, Scopes.own?_add_new, Scopes.parent?_add_new, hp, Option.bind_none,
      Option.or_none]
  show Option.Rel _ ((σ.add scope).2.lookup (σ.add scope).1 i)
    ((τ.add scope').2.lookup (τ.add scope').1 i)
  rw [lookup hscope, lookup hscope']
  exact hbind i

/-- Alike calls have alike values. -/
theorem alike_openCall (hp : p.Separate) (heval : p.EvaluatesAlike room) (h : σ.Alike p L τ)
    (henv : Env.Alike p L σ τ env env') (hc : Call.Alike p L c c') :
    Eval.Alike p L σ τ (Value.Alike p) (p.openCall (p.evaluate room) env c)
      (p.openCall (p.evaluate room) env' c') := by
  rw [openCall_eq, openCall_eq]
  have hscope := alike_callScope hc
  revert hscope
  generalize p.callScope c = r, p.callScope c' = r'
  rintro (rfl | ⟨hparent, hparent', hbind⟩)
  · exact Eval.alike_raise _
  have hclosure := hc.closure
  revert hclosure hparent hparent'
  generalize c.closure = t, c'.closure = t'
  intro hparent hparent' hclosure
  dsimp only
  rcases t with - | t <;> rcases t' with - | t'
  · -- A primitive method sees its input alone.
    obtain ⟨q, n, hf⟩ := hclosure
    refine Eval.alike_added (M := L) ⟨L.le_refl, id, fun _ _ _ => .inl, ?_, ?_⟩
      (alike_methodBody hp hf h hc hparent hparent' hbind)
    · rw [Scopes.size_add]; exact Nat.le_succ _
    · rw [Scopes.size_add]; exact Nat.le_succ _
  · exact hclosure.elim
  · exact hclosure.elim
  · have hk : p.Known c.definition := h.known (hclosure.1 _ (needs_self _))
    exact Eval.alike_added grows_add (alike_body hp heval (h.add hparent hparent' hbind)
      (alike_inside henv hc hclosure) (sole_add h) hc hk
      ⟨fun x hx => .inr ⟨rfl, rfl, hclosure.1 x hx⟩, hclosure.2⟩)

theorem alike_invoke (hp : p.Separate) (heval : ∀ n, n < room → p.EvaluatesAlike n)
    (henv : Env.Alike p L σ τ env env') :
    CallsAlike p L σ τ (p.invoke room env) (p.invoke room env') := by
  intro M σ' τ' hg h c c' hc
  cases room with
  | zero =>
    show Eval.Alike p M σ' τ' _ (Eval.raise ⟨.full, c.creator⟩) (Eval.raise ⟨.full, c'.creator⟩)
    rw [hc.creator]
    exact Eval.alike_raise _
  | succ room =>
    exact alike_openCall hp (heval room (Nat.lt_succ_self room)) h (henv.grows hg) hc

end

/-! ## The induction -/

/-- **Alike evaluation.**  A node that is evaluated in scopes that are alike in all that it
    needs has alike values. -/
theorem alike_evaluate (hp : p.Separate) (room : Nat) : p.EvaluatesAlike room := by
  obtain ⟨rank, hrank⟩ := hp.acyclic
  induction room using Nat.strongRecOn with
  | _ room heval =>
    intro L σ τ env env' x hx h henv hsole hc
    -- Within one body, the children are evaluated in the same surroundings.
    induction hr : rank x using Nat.strongRecOn generalizing L σ τ x with
    | _ n ih =>
      subst hr
      rw [evaluate_eq hp.acyclic, evaluate_eq hp.acyclic]
      have hself := hsole x (Arena.mem_preorder_self hp.acyclic x)
      by_cases hs : p.IsStructure x
      · obtain ⟨ns, fs, vs, is, body, hn⟩ := hs
        simp only [evaluateNode, hn]
        exact Eval.alike_define h (.definition hc) henv.inside.1 henv.inside.2 hx.free hself
      · refine alike_evaluateNode hx h henv hself hc (alike_invoke hp heval henv) ?_
        intro c hchild M σ' τ' hg h
        refine ih (rank c) (hrank x c hchild) (hp.inner_child hx.known hs hchild) h
          (henv.grows hg) (fun z hz => ?_) ((hc.mono hg.le).meets (meets_child hchild)) rfl
        have hz := Arena.mem_preorder_trans hp.acyclic
          (Arena.mem_preorder_child hp.acyclic (Arena.mem_preorder_self hp.acyclic x) hchild) hz
        exact (hsole z hz).grows hg henv.inside.1 henv.inside.2

end Program

end Arbor
