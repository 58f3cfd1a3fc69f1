/-
  Inference of types.

  The analysis remembers types, and lists the nodes whose types it is computing.  A memo is
  right if what it remembers for a node that has a type is that type.  Analyses keep memos
  right, whatever they are asked: the type of a node that has one is told by rules inside
  each other less deep, so its computation never comes back to a node that is listed.

  * `Finds K x Q`: from a right memo in which `K` is listed, `x` finds an answer of which
    `Q` holds, and leaves such a memo;
  * `AskedIn K id`: the types of the nodes in `K` rest on that of the node.

  Main statement: `finds_typeOf`, the type that is found for a node that has one is its type.
-/
import Arbor.Proofs.Program.Shape
import Arbor.Proofs.Typing.Analyses
import Arbor.Proofs.Typing.Rules
import Mathlib.Data.List.Perm.Subperm
import Mathlib.Data.Nat.Find

namespace Arbor

/-- What is remembered for a node that has a type is that type. -/
def Memo.Right (p : Program) (m : Memo) : Prop :=
  ∀ id t u, m.types.get? id = some t → p.HasType id u → t = u

theorem Memo.right_empty (p : Program) : Memo.empty.Right p := by
  intro id t u h
  cases h

theorem Memo.Right.leave {p : Program} {m : Memo} (hm : m.Right p) {id : NodeId} {t : Ty}
    (ht : ∀ u, p.HasType id u → t = u) : (m.leave id t).Right p := by
  intro id' t' u h hu
  simp only [Memo.leave, NodeMap.get?_insert] at h
  split at h
  · next e =>
    subst e
    cases h
    exact ht u hu
  · exact hm id' t' u h hu

namespace Program

variable {p : Program}

/-- From a right memo in which `K` is listed the analysis finds such an answer, and leaves
    such a memo. -/
def Finds (p : Program) (K : List NodeId) {α : Type} (x : Typing α) (Q : α → Prop) : Prop :=
  ∀ m : Memo, m.Right p → m.computing = K →
    Q (x m).1 ∧ (x m).2.Right p ∧ (x m).2.computing = K

/-! ## Analyses one after another -/

section
variable {K : List NodeId} {α β : Type} {Q Q' : α → Prop} {R : β → Prop}

theorem finds_pure {a : α} (h : Q a) : p.Finds K (pure a : Typing α) Q :=
  fun _ hm hK => ⟨h, hm, hK⟩

theorem Finds.bind {x : Typing α} {f : α → Typing β} (hx : p.Finds K x Q)
    (hf : ∀ a, Q a → p.Finds K (f a) R) : p.Finds K (x >>= f) R := by
  intro m hm hK
  obtain ⟨hq, hm', hK'⟩ := hx m hm hK
  exact hf _ hq _ hm' hK'

theorem Finds.map {x : Typing α} {f : α → β} (hx : p.Finds K x Q) (hf : ∀ a, Q a → R (f a)) :
    p.Finds K (f <$> x) R := by
  intro m hm hK
  obtain ⟨hq, hm', hK'⟩ := hx m hm hK
  exact ⟨hf _ hq, hm', hK'⟩

theorem Finds.mono {x : Typing α} (hx : p.Finds K x Q) (h : ∀ a, Q a → Q' a) :
    p.Finds K x Q' := by
  intro m hm hK
  obtain ⟨hq, hm', hK'⟩ := hx m hm hK
  exact ⟨h _ hq, hm', hK'⟩

theorem Finds.any {x : Typing α} (hx : p.Finds K x Q) : p.Finds K x fun _ => True :=
  hx.mono fun _ _ => trivial

theorem finds_mapM {γ : Type} {f : γ → Typing α} {P : γ → α → Prop} {l : List γ}
    (h : ∀ c ∈ l, p.Finds K (f c) (P c)) : p.Finds K (l.mapM f) (List.Forall₂ P l) := by
  induction l with
  | nil => exact finds_pure .nil
  | cons c l ih =>
    rw [List.mapM_cons]
    refine (h c List.mem_cons_self).bind fun a ha => ?_
    refine (ih fun d hd => h d (List.mem_cons_of_mem _ hd)).bind fun as has => ?_
    exact finds_pure (.cons ha has)

theorem finds_foldlM {γ : Type} {f : α → γ → Typing α} {l : List γ} {a : α} (ha : Q a)
    (h : ∀ c ∈ l, ∀ a, Q a → p.Finds K (f a c) Q) : p.Finds K (l.foldlM f a) Q := by
  induction l generalizing a with
  | nil => exact finds_pure ha
  | cons c l ih =>
    rw [List.foldlM_cons]
    refine (h c List.mem_cons_self a ha).bind fun b hb => ?_
    exact ih hb fun d hd => h d (List.mem_cons_of_mem _ hd)

end

/-- Analyses that keep memos right, whatever they find. -/
theorem compositional_finds (p : Program) (K : List NodeId) :
    Typing.Compositional fun _ x => p.Finds K x fun _ => True where
  answer _ := finds_pure trivial
  bind hx hf := hx.bind fun a _ => hf a

/-! ## Computations of types -/

/-- Known types have no type variables to replace. -/
theorem substitute_known {Callable : NodeId → Prop} {t : Ty} (ht : t.Known Callable)
    (receiver : Option Ty) (bindings : Bindings) : p.substitute receiver bindings t = t := by
  cases t with
  | typeVar v => exact (ht _ (List.mem_singleton_self _)).elim
  | instanceOf d args => exact (ht _ (List.mem_singleton_self _)).elim
  | _ => simp only [substitute]

section
variable {K : List NodeId} {typeOf : NodeId → Typing Ty} {n : Nat}
variable (h : ∀ id t, p.HasTypeIn n id t → p.Finds K (typeOf id) (· = t))
include h

theorem finds_bindTypeBy_eq {id : NodeId} {t : Ty}
    (hb : ∃ ns type value, p.node? id = some (.bind ns type value)) (ht : p.HasTypeIn n id t) :
    p.Finds K (p.bindTypeBy typeOf id) (· = t) := by
  obtain ⟨ns, type, value, hn⟩ := hb
  cases n with
  | zero => exact ht.elim
  | succ n =>
    unfold HasTypeIn Rule at ht
    unfold bindTypeBy
    rw [hn] at ht ⊢
    cases type with
    | some type =>
      obtain ⟨q, hq, rfl, -⟩ := ht
      exact finds_pure hq
    | none =>
      cases value with
      | some value => exact h value t (HasTypeIn.succ ht)
      | none => exact ht.elim

theorem finds_inferBy_eq {f : NodeId} {args : List Ty}
    (hf : ∀ i ∈ p.inputs f, ∃ q, p.Takes (p.HasTypeIn n) i q) :
    p.Finds K (p.inferBy typeOf f args) (· = []) := by
  refine finds_foldlM rfl fun c hc bindings hbindings => ?_
  obtain ⟨q, ⟨ns, type, value, hn, -⟩, hq⟩ := hf c.1 (List.of_mem_zip (a := c.1) (b := c.2) hc).1
  refine (finds_bindTypeBy_eq h ⟨ns, some type, value, hn⟩ hq).bind fun t ht => ?_
  subst ht
  exact finds_pure hbindings

theorem finds_outputBy_eq {f : NodeId} {t : Ty} (ht : p.Returns (p.HasTypeIn n) f t) :
    p.Finds K (p.outputBy typeOf f) (· = t) := by
  unfold Returns at ht
  unfold outputBy
  split at ht
  · next hf => rw [hf]; exact h _ _ ht
  · next hf =>
    obtain ⟨-, q, hq, rfl⟩ := ht
    rw [hf]
    exact finds_pure hq
  · exact ht.elim

theorem finds_outputTypeBy_eq {f : NodeId} {t : Ty} (receiver : Option Ty) (args : List Ty)
    (hf : ∀ i ∈ p.inputs f, ∃ q, p.Takes (p.HasTypeIn n) i q)
    (ht : p.Returns (p.HasTypeIn n) f t) :
    p.Finds K (p.outputTypeBy typeOf f receiver args) (· = t) := by
  refine (finds_inferBy_eq h hf).bind fun bindings _ => ?_
  refine (finds_outputBy_eq h ht).bind fun u hu => finds_pure ?_
  subst hu
  exact substitute_known (ht.known HasTypeIn.known) receiver bindings

theorem finds_inputTypeBy_eq {f input : NodeId} {q : Primitive} {index : Nat}
    (receiver : Option Ty) (args : List Ty)
    (hf : ∀ i ∈ p.inputs f, ∃ q, p.Takes (p.HasTypeIn n) i q)
    (hi : (p.inputs f)[index]? = some input) (hq : p.Takes (p.HasTypeIn n) input q) :
    p.Finds K (p.inputTypeBy typeOf f index receiver args) (· = .primitive q) := by
  obtain ⟨⟨ns, type, value, hn, -⟩, hq⟩ := hq
  unfold inputTypeBy
  rw [hi]
  refine (finds_inferBy_eq h hf).bind fun bindings _ => ?_
  refine (finds_bindTypeBy_eq h ⟨ns, some type, value, hn⟩ hq).bind fun t ht => finds_pure ?_
  subst ht
  rfl

theorem finds_receiverTypeBy_typed {id : NodeId} {t : Ty} (ht : p.HasTypeIn n id t) :
    p.Finds K (p.receiverTypeBy typeOf id) fun _ => True := by
  unfold receiverTypeBy
  split
  · next receiver m hn =>
    cases n with
    | zero => exact ht.elim
    | succ n =>
      unfold HasTypeIn Rule at ht
      rw [hn] at ht
      obtain ⟨q, f, hq, -⟩ := ht
      exact (h receiver _ hq.succ).map fun _ _ => trivial
  · exact finds_pure trivial

omit h in
theorem Given.takes : ∀ {inputs arguments : List NodeId} {sub : NodeId → Ty → Prop},
    p.Given sub inputs arguments → ∀ i ∈ inputs, ∃ q, p.Takes sub i q
  | [], _, _, _, i, hi => by cases hi
  | _ :: _, _ :: _, _, ⟨⟨q, _, hq, _⟩, hrest⟩, i, hi => by
    rcases List.mem_cons.1 hi with rfl | hi
    · exact ⟨q, hq⟩
    · exact Given.takes hrest i hi
  | _ :: _, [], _, ⟨⟨q, _, hq, _⟩, hrest⟩, i, hi => by
    rcases List.mem_cons.1 hi with rfl | hi
    · exact ⟨q, hq⟩
    · exact Given.takes hrest i hi

omit h in
theorem Given.typed : ∀ {inputs arguments : List NodeId} {sub : NodeId → Ty → Prop},
    p.Given sub inputs arguments → ∀ a ∈ arguments, ∃ t, sub a t
  | _, [], _, _, a, ha => by cases ha
  | _ :: _, _ :: _, _, ⟨⟨_, t, _, ht, _⟩, hrest⟩, a, ha => by
    rcases List.mem_cons.1 ha with rfl | ha
    · exact ⟨t, ht⟩
    · exact Given.typed hrest a ha

/-- The type that is computed for a node is the one that the rules give it. -/
theorem finds_computeTypeBy_eq {id : NodeId} {t : Ty} (ht : p.Rule (p.HasTypeIn n) id t) :
    p.Finds K (p.computeTypeBy typeOf id) (· = t) := by
  unfold Rule at ht
  unfold computeTypeBy
  split at ht
  · next hn => rw [hn]; exact finds_pure ht.symm
  · next hn => rw [hn]; exact finds_pure ht.symm
  · next hn => rw [hn]; exact finds_pure ht.symm
  · next hn =>
    rw [hn]
    split at ht
    · next hd => simp only [hd]; exact finds_bindTypeBy_eq h (bind_of_resolve hd) ht
    · next hd => simp only [hd]; exact finds_pure ht.1.symm
    · exact ht.elim
  · next hn =>
    rw [hn]
    obtain ⟨q, f, hq, hf, rfl⟩ := ht
    refine (h _ _ hq).bind fun u hu => ?_
    subst hu
    simp only [definitionInType, hf, Option.map_some]
    exact finds_pure rfl
  · next hn =>
    rw [hn]
    obtain ⟨q, f, hq, hf, hg, hr⟩ := ht
    refine (h _ _ hq).bind fun u hu => ?_
    subst hu
    obtain ⟨v, hv⟩ := hg.typed _ (List.mem_singleton_self _)
    simp only [operatorFunction, definitionInType, hf, Option.map_some]
    exact (h _ _ hv).bind fun w _ => finds_outputTypeBy_eq h _ _ hg.takes hr
  · next hn =>
    rw [hn]
    obtain ⟨-, u, v, -, -, hu, hv, rfl⟩ := ht
    refine (h _ _ hu).bind fun u' hu' => ?_
    refine (h _ _ hv).bind fun v' hv' => finds_pure ?_
    rw [hu', hv']
  · next hn =>
    rw [hn]
    obtain ⟨f, hf, hg, hr⟩ := ht
    refine (finds_mapM (P := fun _ _ => True) fun a ha => ?_).bind fun args _ => ?_
    · obtain ⟨u, hu⟩ := hg.typed a ha
      exact (h a u hu).any
    · refine (h _ _ hf).bind fun u hu => ?_
      subst hu
      exact (finds_receiverTypeBy_typed h hf).bind fun receiver _ =>
        finds_outputTypeBy_eq h _ _ hg.takes hr
  · next hn =>
    rw [hn]
    obtain ⟨-, last, hl, ht⟩ := ht
    simp only [hl]
    exact h _ _ ht
  · next hn =>
    rw [hn]
    obtain ⟨q, hq, rfl, -⟩ := ht
    unfold bindTypeBy
    rw [hn]
    exact finds_pure hq
  · next hn =>
    rw [hn]
    unfold bindTypeBy
    rw [hn]
    exact h _ _ ht
  · next hn => rw [hn]; exact finds_pure ht.1.symm
  · next hn => rw [hn]; exact h _ _ ht
  · exact ht.elim

end

/-! ## The nodes that are listed -/

/-- The types of the nodes in `K` rest on that of the node. -/
def AskedIn (p : Program) (K : List NodeId) (id : NodeId) : Prop :=
  ∀ c ∈ K, ∀ n u, p.HasTypeIn n c u → ∃ m < n, ∃ t, p.HasTypeIn m id t

section
variable {K : List NodeId} {id y : NodeId} {t v : Ty} {n depth : Nat}

/-- A node with a type does not rest on itself. -/
theorem AskedIn.not_mem (h : p.AskedIn K id) (ht : p.HasType id t) : id ∉ K := by
  intro hid
  have none (n : Nat) : ∀ u, ¬p.HasTypeIn n id u := by
    induction n using Nat.strongRecOn with
    | _ n ih =>
      intro u hu
      obtain ⟨m, hm, v, hv⟩ := h id hid n u hu
      exact ih m hm v hv
  obtain ⟨n, hn⟩ := ht
  exact none n t hn

/-- A type is given by a rule at a least depth. -/
theorem HasType.exists_least (ht : p.HasType id t) :
    ∃ n, p.HasTypeIn (n + 1) id t ∧ ∀ k u, p.HasTypeIn k id u → n < k := by
  classical
  have hex : ∃ n, p.HasTypeIn (n + 1) id t := by
    obtain ⟨n, hn⟩ := ht
    exact ⟨n, hn.succ⟩
  refine ⟨Nat.find hex, Nat.find_spec hex, fun k u hk => ?_⟩
  cases k with
  | zero => exact hk.elim
  | succ k =>
    cases hk.unique (Nat.find_spec hex)
    exact Nat.lt_succ_of_le (Nat.find_min' hex hk)

/-- The type of a node rests on those that its rule at the least depth asks for. -/
theorem AskedIn.cons (h : p.AskedIn K id) (hmin : ∀ k u, p.HasTypeIn k id u → n < k)
    (hv : p.HasTypeIn n y v) : p.AskedIn (id :: K) y := by
  intro c hc k u hu
  rcases List.mem_cons.1 hc with rfl | hc
  · exact ⟨n, hmin k u hu, v, hv⟩
  · obtain ⟨l, hl, w, hw⟩ := h c hc k u hu
    exact ⟨n, Nat.lt_trans (hmin l w hw) hl, v, hv⟩

/-- Below a node without a type nothing is asked for by a node that has one. -/
theorem AskedIn.cons_untyped (h : p.AskedIn K id) (hid : ¬∃ t, p.HasType id t) (y : NodeId) :
    p.AskedIn (id :: K) y := by
  intro c hc k u hu
  rcases List.mem_cons.1 hc with rfl | hc
  · exact absurd ⟨u, hu.hasType⟩ hid
  · obtain ⟨l, -, w, hw⟩ := h c hc k u hu
    exact absurd ⟨w, hw.hasType⟩ hid

/-- The nodes in `K` leave room for computations of `depth` types inside each other. -/
structure Room (p : Program) (depth : Nat) (K : List NodeId) : Prop where
  nodup : K.Nodup
  known : ∀ c ∈ K, c.raw < p.arena.size
  enough : p.arena.size + 1 ≤ depth + K.length

/-- The depth of `typeOf` leaves room at first. -/
theorem room_nil (p : Program) : p.Room (p.arena.size + 1) [] :=
  ⟨.nil, fun _ hc => (List.not_mem_nil hc).elim, Nat.le_refl _⟩

/-- No more nodes are listed than there are. -/
theorem Room.pos (h : p.Room depth K) : 0 < depth := by
  have hsub : K.map NodeId.raw ⊆ List.range p.arena.size := by
    intro r hr
    obtain ⟨c, hc, rfl⟩ := List.mem_map.1 hr
    exact List.mem_range.2 (h.known c hc)
  have hnodup : (K.map NodeId.raw).Nodup :=
    h.nodup.map fun a b hab => by cases a; cases b; cases hab; rfl
  have hlen := (List.subperm_of_subset hnodup hsub).length_le
  rw [List.length_map, List.length_range] at hlen
  have := h.enough
  omega

theorem Room.cons (h : p.Room (depth + 1) K) (hid : id ∉ K) {node : Node}
    (hn : p.node? id = some node) : p.Room depth (id :: K) := by
  refine ⟨List.nodup_cons.2 ⟨hid, h.nodup⟩, fun c hc => ?_, ?_⟩
  · rcases List.mem_cons.1 hc with rfl | hc
    · exact (Array.getElem?_eq_some_iff.1 hn).1
    · exact h.known c hc
  · have := h.enough
    rw [List.length_cons]
    omega

/-! ## Types that are found -/

/-- The type that is computed is that of the node if it has one, when types inside are
    found right. -/
theorem finds_compute (hroom : p.Room (depth + 1) K) (hasked : p.AskedIn K id) (hid : id ∉ K)
    (h : ∀ y, p.Room depth (id :: K) → p.AskedIn (id :: K) y →
      p.Finds (id :: K) (p.typeWithin depth y) fun t => ∀ u, p.HasType y u → t = u) :
    p.Finds (id :: K) (p.computeTypeBy (p.typeWithin depth) id)
      fun t => ∀ u, p.HasType id u → t = u := by
  cases hn : p.node? id with
  | none =>
    unfold computeTypeBy
    rw [hn]
    refine finds_pure fun u hu => ?_
    have hu := hasType_iff.1 hu
    unfold Rule at hu
    rw [hn] at hu
    exact hu.elim
  | some node =>
    have hroom := hroom.cons hid hn
    by_cases htyped : ∃ t, p.HasType id t
    · obtain ⟨t, ht⟩ := htyped
      obtain ⟨n, hrule, hmin⟩ := ht.exists_least
      have hsub (y : NodeId) (v : Ty) (hv : p.HasTypeIn n y v) :
          p.Finds (id :: K) (p.typeWithin depth y) (· = v) :=
        (h y hroom (hasked.cons hmin hv)).mono fun w hw => hw v ⟨n, hv⟩
      exact (finds_computeTypeBy_eq hsub hrule).mono fun w hw u hu => hw.trans (ht.unique hu)
    · have hsub (y : NodeId) : p.Finds (id :: K) (p.typeWithin depth y) fun _ => True :=
        (h y hroom (hasked.cons_untyped htyped y)).any
      exact ((p.compositional_finds _).computeTypeBy hsub id).mono fun w _ u hu => absurd ⟨u, hu⟩ htyped

theorem finds_typeWithin (hroom : p.Room depth K) (hasked : p.AskedIn K id) :
    p.Finds K (p.typeWithin depth id) fun t => ∀ u, p.HasType id u → t = u := by
  induction depth generalizing K id with
  | zero => exact absurd hroom.pos (Nat.lt_irrefl 0)
  | succ depth ih =>
    intro m hm hK
    subst hK
    cases hget : m.types.get? id with
    | some t =>
      rw [typeWithin_known hget]
      exact ⟨fun u hu => hm id t u hget hu, hm, rfl⟩
    | none =>
      by_cases hid : id ∈ m.computing
      · rw [typeWithin_listed hget hid]
        exact ⟨fun u hu => absurd hid (hasked.not_mem hu), hm, rfl⟩
      · rw [typeWithin_compute hget hid]
        obtain ⟨ht, hm', hK⟩ :=
          finds_compute hroom hasked hid (fun y hr ha => ih hr ha) (m.enter id) hm rfl
        refine ⟨ht, hm'.leave ht, ?_⟩
        simp only [Memo.leave, hK, List.erase_cons_head]

end

/-- **Inference is right.**  The type that is found for a node that has one is its type,
    and what is remembered stays right. -/
theorem finds_typeOf (id : NodeId) :
    p.Finds [] (p.typeOf id) fun t => ∀ u, p.HasType id u → t = u :=
  finds_typeWithin p.room_nil fun _ hc => (List.not_mem_nil hc).elim

end Program

end Arbor
