/-
  Transparency: what is remembered changes no answer.

  The type of a node may be found by plain recursion: its computation asks for other types,
  theirs for others, and so on, and nothing is remembered.  That comes to an end for a node
  unless the computation comes back to a node whose type is being computed.  Only then does the
  guard of the analysis cut it short, and what is remembered for the nodes on the way depends on
  the node that was asked first.

  As long as the guard has cut nothing, a context remembers plain types alone.  They are what a
  fresh context would find, whatever else it is computing: a node on the way to itself has no
  plain type.  So the used context answers every query as a fresh one does.

  * `Program.plainType`: the type of a node by plain recursion to a depth;
  * `Program.Uncut m id`: the question for the type of a node comes back to no node whose type
    is being computed, and `Query.Quiet` says so of all questions of a query;
  * `Memo.Alike p m m'`: two memos that list the same nodes, are right about plain types, and
    know the same about all nodes without one;
  * `Typing.Together p K x`: from such memos an analysis finds the same.

  Main statements: `finds_plainType`, plain types are found whatever is being computed;
  `together_typeWithin`, alike memos give the same types; `answer_of_quietly`, a context that
  was used quietly answers as a fresh one.
-/
import Arbor.Proofs.Typing.Inquiry
import Arbor.Proofs.Typing.Streams

namespace Arbor

/-! ## Types by plain recursion -/

namespace Dialogue

variable {α : Type} {f g : NodeId → Option Ty}

/-- What is answered by some answers is answered by more of them. -/
theorem run_mono (h : ∀ c t, f c = some t → g c = some t) {d : Dialogue α} {a : α}
    (ha : d.run f = some a) : d.run g = some a := by
  induction d with
  | answer b => exact ha
  | ask c next ih =>
    obtain ⟨t, ht, hnext⟩ := Option.bind_eq_some_iff.1 ha
    exact Option.bind_eq_some_iff.2 ⟨t, h c t ht, ih t hnext⟩

end Dialogue

namespace Program

/-- The type of a node by recursion, with at most `depth` computations inside each other, if
    that is deep enough. -/
def plainType (p : Program) : Nat → NodeId → Option Ty
  | 0, _ => none
  | depth + 1, id => p.computeTypeBy (p.plainType depth) id

/-- Plain recursion comes to an end and finds the type. -/
def HasPlainType (p : Program) (id : NodeId) (t : Ty) : Prop := ∃ n, p.plainType n id = some t

variable {p : Program} {id : NodeId} {t u : Ty} {n k depth : Nat} {K : List NodeId}

theorem plainType_succ_eq (p : Program) (n : Nat) (id : NodeId) :
    p.plainType (n + 1) id = (p.dialogue id).run (p.plainType n) := (run_dialogue _ id).symm

/-- What is found is found by deeper recursion. -/
theorem plainType_succ (h : p.plainType n id = some t) : p.plainType (n + 1) id = some t := by
  induction n generalizing id t with
  | zero => cases h
  | succ n ih =>
    rw [plainType_succ_eq] at h ⊢
    exact Dialogue.run_mono (fun c t => ih) h

theorem plainType_mono (hnk : n ≤ k) (h : p.plainType n id = some t) :
    p.plainType k id = some t := by
  induction hnk with
  | refl => exact h
  | step _ ih => exact plainType_succ ih

theorem plainType_none (hnk : n ≤ k) (h : p.plainType k id = none) : p.plainType n id = none := by
  cases hn : p.plainType n id with
  | none => rfl
  | some t =>
    rw [plainType_mono hnk hn] at h
    cases h

theorem HasPlainType.unique (ht : p.HasPlainType id t) (hu : p.HasPlainType id u) : t = u := by
  obtain ⟨n, ht⟩ := ht
  obtain ⟨k, hu⟩ := hu
  have ht' := plainType_mono (Nat.le_max_left n k) ht
  have hu' := plainType_mono (Nat.le_max_right n k) hu
  rw [ht'] at hu'
  exact Option.some.inj hu'

/-- A node without a plain type is in the arena. -/
theorem exists_node (h : ¬∃ t, p.HasPlainType id t) : ∃ node, p.node? id = some node := by
  cases hn : p.node? id with
  | some node => exact ⟨node, rfl⟩
  | none =>
    refine absurd ⟨.unknown, 1, ?_⟩ h
    rw [plainType_succ_eq, dialogue_of_none hn]
    rfl

/-- The nodes outside the arena have a plain type in any case. -/
theorem hasPlainType_of_all (n : Nat)
    (h : ((List.range p.arena.size).all fun i => (p.plainType n ⟨i⟩).isSome) = true) (id : NodeId) :
    ∃ t, p.HasPlainType id t := by
  by_contra hid
  obtain ⟨node, hn⟩ := exists_node hid
  have hlt : id.raw < p.arena.size := (Array.getElem?_eq_some_iff.1 hn).1
  obtain ⟨t, ht⟩ := Option.isSome_iff_exists.1 (List.all_eq_true.1 h id.raw (List.mem_range.2 hlt))
  exact hid ⟨t, n, ht⟩

end Program

/-! ## Plain types are found -/

namespace Inquiry

/-- Whether the guard answers: the type is asked for of a node for which it is being computed. -/
def isCut : Inquiry → Bool
  | ⟨.asking id, _, m⟩ => (m.types.get? id).isNone && id ∈ m.computing
  | _ => false

/-- Several steps, none of which the guard takes. -/
abbrev Calm (p : Program) : Inquiry → Inquiry → Prop :=
  Relation.ReflTransGen fun s s' => s.isCut = false ∧ s.step p = some s'

/-- On the way to an end without a cut there is no cut. -/
theorem Calm.isCut {p : Program} {s s' : Inquiry} {t : Ty} {m : Memo}
    (hcalm : Calm p s ⟨.telling t, [], m⟩) (hs : Steps p s s') : s'.isCut = false := by
  induction hcalm using Relation.ReflTransGen.head_induction_on with
  | refl =>
    rcases Relation.ReflTransGen.cases_head hs with rfl | ⟨s'', hnone, -⟩
    · rfl
    · cases hnone
  | head hstep _ ih =>
    rcases Relation.ReflTransGen.cases_head hs with rfl | ⟨s'', hfirst, hrest⟩
    · exact hstep.1
    · rw [hstep.2] at hfirst
      cases hfirst
      exact ih hrest

end Inquiry

/-- What is remembered for a node with a plain type is that type. -/
def Memo.Faithful (p : Program) (m : Memo) : Prop :=
  ∀ id t u, m.types.get? id = some t → p.HasPlainType id u → t = u

/-- Only plain types were added, and the same nodes are listed. -/
structure Memo.Adds (p : Program) (m m' : Memo) : Prop where
  types : ∀ id, m'.types.get? id = m.types.get? id ∨
    ∃ t, p.HasPlainType id t ∧ m'.types.get? id = some t
  computing : m'.computing = m.computing

namespace Memo

variable {p : Program} {m m' m'' : Memo} {id : NodeId} {t : Ty}

theorem Adds.refl (p : Program) (m : Memo) : Adds p m m := ⟨fun _ => .inl rfl, rfl⟩

theorem Adds.trans (h : Adds p m m') (h' : Adds p m' m'') : Adds p m m'' := by
  refine ⟨fun id => ?_, h'.computing.trans h.computing⟩
  rcases h'.types id with he | hadded
  · rw [he]
    exact h.types id
  · exact .inr hadded

theorem Adds.faithful (h : Adds p m m') (hm : m.Faithful p) : m'.Faithful p := by
  intro id t u ht hu
  rcases h.types id with he | ⟨v, hv, hget⟩
  · exact hm id t u (he ▸ ht) hu
  · rw [hget] at ht
    cases ht
    exact hv.unique hu

/-- A computation of a plain type adds plain types. -/
theorem Adds.leave (h : Adds p (m.enter id) m') (ht : p.HasPlainType id t) :
    Adds p m (m'.leave id t) := by
  refine ⟨fun id' => ?_, ?_⟩
  · simp only [Memo.leave, NodeMap.get?_insert]
    split
    · next e => exact .inr ⟨t, e ▸ ht, rfl⟩
    · exact h.types id'
  · simp only [Memo.leave, h.computing, Memo.enter, List.erase_cons_head]

end Memo

namespace Program

open Inquiry

variable {p : Program} {id : NodeId} {t : Ty} {n depth : Nat} {K : List NodeId} {m : Memo}

/-- The question for the type of a node is answered so, without a cut, and only plain types are
    added. -/
structure FindsPlain (p : Program) (typeOf : NodeId → Typing Ty) (m : Memo) (id : NodeId) (t : Ty) :
    Prop where
  answer : (typeOf id m).1 = t
  adds : m.Adds p (typeOf id m).2
  calm : ∀ ws, Calm p ⟨.asking id, ws, m⟩ ⟨.telling t, ws, (typeOf id m).2⟩

/-- A computation that plain recursion can make is made alike by an analysis that finds plain
    types. -/
theorem run_plainType {f : NodeId → Typing Ty} {d : Dialogue Ty} {a : Ty}
    (hf : ∀ c t m, p.plainType n c = some t → m.computing = K → m.Faithful p → p.FindsPlain f m c t)
    (ha : d.run (p.plainType n) = some a) (hK : m.computing = K) (hm : m.Faithful p) :
    (d.run f m).1 = a ∧ m.Adds p (d.run f m).2 ∧ ∀ ws,
      Calm p ⟨.computing id d, ws, m⟩ ⟨.computing id (.answer a), ws, (d.run f m).2⟩ := by
  induction d generalizing m with
  | answer b =>
    obtain rfl := Option.some.inj ha
    exact ⟨rfl, .refl p m, fun ws => .refl⟩
  | ask c next ih =>
    obtain ⟨t, ht, hnext⟩ := Option.bind_eq_some_iff.1 ha
    have hfound := hf c t m ht hK hm
    have hrun : (Dialogue.ask c next).run f m = (next t).run f (f c m).2 := by
      rw [← hfound.answer]
      rfl
    obtain ⟨hrest, hadds, hcalm⟩ :=
      ih t hnext (hfound.adds.computing.trans hK) (hfound.adds.faithful hm)
    rw [hrun]
    refine ⟨hrest, hfound.adds.trans hadds, fun ws => ?_⟩
    have hasked := hfound.calm ((id, next) :: ws)
    exact .head ⟨rfl, rfl⟩ (hasked.trans (.head ⟨rfl, rfl⟩ (hcalm ws)))

/-- **A plain type is found** without a cut, whatever is being computed, unless that is found by
    recursion that is no deeper. -/
theorem finds_plainType (hroom : p.Room depth K) (ht : p.plainType n id = some t)
    (hnone : ∀ c ∈ K, p.plainType n c = none) (hK : m.computing = K) (hm : m.Faithful p) :
    p.FindsPlain (p.typeWithin depth) m id t := by
  induction n generalizing depth K id t m with
  | zero => cases ht
  | succ n ih =>
    have hbelow : ∀ c ∈ K, p.plainType n c = none :=
      fun c hc => plainType_none (Nat.le_succ n) (hnone c hc)
    -- The depth of the recursion may be taken as small as can be.
    cases hless : p.plainType n id with
    | some u =>
      rw [plainType_succ hless] at ht
      cases ht
      exact ih hroom hless hbelow hK hm
    | none =>
      obtain ⟨depth, rfl⟩ : ∃ d, depth = d + 1 := ⟨depth - 1, by have := hroom.pos; omega⟩
      cases hget : m.types.get? id with
      | some u =>
        have hu : u = t := hm id u t hget ⟨_, ht⟩
        subst hu
        have hcalm (ws) : Calm p ⟨.asking id, ws, m⟩ ⟨.telling u, ws, m⟩ :=
          .single ⟨by simp [isCut, hget], step_known hget⟩
        refine ⟨?_, ?_, ?_⟩ <;> rw [typeWithin_known hget]
        · exact .refl p m
        · exact hcalm
      | none =>
        have hid : id ∉ m.computing := by
          intro hid
          rw [hnone id (hK ▸ hid)] at ht
          cases ht
        have hplain : p.HasPlainType id t := ⟨_, ht⟩
        rw [plainType_succ_eq] at ht
        obtain ⟨hanswer, hadds, hcalm⟩ :
            ((p.dialogue id).run (p.typeWithin depth) (m.enter id)).1 = t ∧
            (m.enter id).Adds p ((p.dialogue id).run (p.typeWithin depth) (m.enter id)).2 ∧
            ∀ ws, Calm p ⟨.computing id (p.dialogue id), ws, m.enter id⟩ ⟨.computing id (.answer t),
              ws, ((p.dialogue id).run (p.typeWithin depth) (m.enter id)).2⟩ := by
          cases hn : p.node? id with
          | none =>
            rw [dialogue_of_none hn] at ht ⊢
            obtain rfl := Option.some.inj ht
            exact ⟨rfl, .refl p _, fun ws => .refl⟩
          | some node =>
            refine run_plainType (K := id :: K) (fun c u m' hu hK' hm' => ?_) ht
              (by rw [← hK]; rfl) hm
            refine ih ((hK ▸ hroom).cons hid hn) hu (fun c hc => ?_) (hK ▸ hK') hm'
            rcases List.mem_cons.1 hc with rfl | hc
            · exact hless
            · exact hbelow c (hK ▸ hc)
        have hopen (ws) : isCut ⟨.asking id, ws, m⟩ = false ∧ step p ⟨.asking id, ws, m⟩ =
            some ⟨.computing id (p.dialogue id), ws, m.enter id⟩ :=
          ⟨by simp [isCut, hid], step_open hget hid⟩
        have htype : p.typeWithin (depth + 1) id m =
            (t, ((p.dialogue id).run (p.typeWithin depth) (m.enter id)).2.leave id t) := by
          rw [typeWithin_compute hget hid, ← run_dialogue, hanswer]
        refine ⟨?_, ?_, fun ws => ?_⟩ <;> rw [htype]
        · exact hadds.leave hplain
        · exact .head (hopen ws) ((hcalm ws).tail ⟨rfl, rfl⟩)

end Program

/-! ## Two contexts -/

/-- Two memos list the same nodes, are right about plain types, and know the same about all nodes
    without one. -/
structure Memo.Alike (p : Program) (m m' : Memo) : Prop where
  computing : m.computing = m'.computing
  left : m.Faithful p
  right : m'.Faithful p
  others : ∀ id, (¬∃ t, p.HasPlainType id t) → m.types.get? id = m'.types.get? id

namespace Memo.Alike

variable {p : Program} {m m' n n' : Memo} {id : NodeId}

theorem adds (h : m.Alike p m') (hm : m.Adds p n) (hm' : m'.Adds p n') : n.Alike p n' := by
  refine ⟨?_, hm.faithful h.left, hm'.faithful h.right, fun id hid => ?_⟩
  · rw [hm.computing, hm'.computing, h.computing]
  · have same {m n : Memo} (hadds : m.Adds p n) : n.types.get? id = m.types.get? id := by
      rcases hadds.types id with he | ⟨t, ht, -⟩
      · exact he
      · exact absurd ⟨t, ht⟩ hid
    rw [same hm, same hm', h.others id hid]

theorem enter (h : m.Alike p m') (id : NodeId) : (m.enter id).Alike p (m'.enter id) :=
  ⟨congrArg (id :: ·) h.computing, h.left, h.right, h.others⟩

/-- The same type is noted for a node without a plain type. -/
theorem leave (h : m.Alike p m') (hid : ¬∃ t, p.HasPlainType id t) (t : Ty) :
    (m.leave id t).Alike p (m'.leave id t) := by
  have faithful {m : Memo} (hm : m.Faithful p) : (m.leave id t).Faithful p := by
    intro c u v hu hv
    simp only [Memo.leave, NodeMap.get?_insert] at hu
    split at hu
    · next e => exact absurd ⟨v, e ▸ hv⟩ hid
    · exact hm c u v hu hv
  refine ⟨?_, faithful h.left, faithful h.right, fun c hc => ?_⟩
  · simp only [Memo.leave, h.computing]
  · simp only [Memo.leave, NodeMap.get?_insert, h.others c hc]

end Memo.Alike

/-- From alike memos in which `K` is listed the analysis finds the same, and leaves such memos. -/
def Typing.Together (p : Program) (K : List NodeId) {α : Type} (x : Typing α) : Prop :=
  ∀ m m' : Memo, m.Alike p m' → m.computing = K →
    (x m).1 = (x m').1 ∧ (x m).2.Alike p (x m').2 ∧ (x m).2.computing = K

theorem Typing.compositional_together (p : Program) (K : List NodeId) :
    Typing.Compositional fun _ x => x.Together p K where
  answer _ := fun _ _ h hK => ⟨rfl, h, hK⟩
  bind {_ _ x f} hx hf := by
    intro m m' h hK
    obtain ⟨hanswer, halike, hK'⟩ := hx m m' h hK
    have hrest := hf (x m).1 _ _ halike hK'
    rw [show (x >>= f) m' = f (x m').1 (x m').2 from rfl, ← hanswer]
    exact hrest

namespace Program

open Typing

variable {p : Program} {id : NodeId} {depth : Nat} {K : List NodeId}

/-- **Alike memos give the same types**, while nodes without plain types alone are being
    computed. -/
theorem together_typeWithin (hroom : p.Room depth K)
    (hK : ∀ c ∈ K, ¬∃ t, p.HasPlainType c t) : (p.typeWithin depth id).Together p K := by
  induction depth generalizing K id with
  | zero => exact absurd hroom.pos (Nat.lt_irrefl 0)
  | succ depth ih =>
    intro m m' h hm
    have hm' : m'.computing = K := h.computing ▸ hm
    by_cases hid : ∃ t, p.HasPlainType id t
    · obtain ⟨t, n, ht⟩ := hid
      have hnone : ∀ c ∈ K, p.plainType n c = none := by
        intro c hc
        cases hn : p.plainType n c with
        | none => rfl
        | some u => exact absurd ⟨u, n, hn⟩ (hK c hc)
      have hleft := finds_plainType hroom ht hnone hm h.left
      have hright := finds_plainType hroom ht hnone hm' h.right
      exact ⟨hleft.answer.trans hright.answer.symm, h.adds hleft.adds hright.adds,
        hleft.adds.computing.trans hm⟩
    · have hsame := h.others id hid
      cases hget : m.types.get? id with
      | some t =>
        rw [typeWithin_known hget, typeWithin_known (hsame ▸ hget)]
        exact ⟨rfl, h, hm⟩
      | none =>
        have hget' : m'.types.get? id = none := hsame ▸ hget
        by_cases hlisted : id ∈ m.computing
        · rw [typeWithin_listed hget hlisted, typeWithin_listed hget' (h.computing ▸ hlisted)]
          exact ⟨rfl, h, hm⟩
        · rw [typeWithin_compute hget hlisted, typeWithin_compute hget' (h.computing ▸ hlisted)]
          obtain ⟨node, hn⟩ := exists_node hid
          have hroom := hroom.cons (hm ▸ hlisted) hn
          have hinside (c : NodeId) : (p.typeWithin depth c).Together p (id :: K) :=
            ih hroom (List.forall_mem_cons.2 ⟨hid, hK⟩)
          obtain ⟨hanswer, halike, hlist⟩ := (compositional_together p (id :: K)).computeTypeBy
            hinside id _ _ (h.enter id) (congrArg (id :: ·) hm)
          rw [← hanswer]
          refine ⟨rfl, halike.leave hid _, ?_⟩
          simp only [Memo.leave, hlist, List.erase_cons_head]

theorem together_typeOf (id : NodeId) : (p.typeOf id).Together p [] :=
  together_typeWithin p.room_nil nofun

end Program

/-! ## Questions that are not cut short -/

/-- Nothing but plain types is remembered. -/
def Memo.Grounded (p : Program) (m : Memo) : Prop :=
  ∀ id t, m.types.get? id = some t → p.HasPlainType id t

theorem Memo.Grounded.faithful {p : Program} {m : Memo} (hm : m.Grounded p) : m.Faithful p :=
  fun id t _ ht hu => (hm id t ht).unique hu

namespace Program

open Inquiry

/-- The question for the type of a node is never cut short. -/
def Uncut (p : Program) (m : Memo) (id : NodeId) : Prop :=
  ∀ s, Steps p (start id m) s → s.isCut = false

variable {p : Program} {m : Memo} {id : NodeId} {depth : Nat} {K : List NodeId}
  {ws : List (NodeId × (Ty → Dialogue Ty))}

/-- A computation answers as plain recursion does if it is not cut short, and the questions that
    it asks answer so. -/
theorem run_uncut {f : NodeId → Typing Ty}
    (hf : ∀ c ws m, m.computing = K → m.Grounded p →
      (∀ s, Steps p ⟨.asking c, ws, m⟩ s → s.isCut = false) →
      p.HasPlainType c (f c m).1 ∧ (f c m).2.Grounded p)
    (hsteps : ∀ c ws m, m.computing = K →
      Steps p ⟨.asking c, ws, m⟩ ⟨.telling (f c m).1, ws, (f c m).2⟩)
    (hgrows : ∀ c, (f c).Keeps Memo.Grows) (d : Dialogue Ty) (hK : m.computing = K)
    (hm : m.Grounded p) (huncut : ∀ s, Steps p ⟨.computing id d, ws, m⟩ s → s.isCut = false) :
    (∃ n, d.run (p.plainType n) = some (d.run f m).1) ∧ (d.run f m).2.Grounded p := by
  induction d generalizing m with
  | answer t => exact ⟨⟨0, rfl⟩, hm⟩
  | ask c next ih =>
    have hasked : Steps p ⟨.computing id (.ask c next), ws, m⟩ ⟨.asking c, (id, next) :: ws, m⟩ :=
      .single rfl
    have htold := (hasked.trans (hsteps c _ m hK)).tail rfl
    obtain ⟨⟨k, hk⟩, hm'⟩ := hf c _ m hK hm fun s hs => huncut s (hasked.trans hs)
    obtain ⟨⟨n, hn⟩, hm''⟩ := ih (f c m).1 ((hgrows c m).computing.trans hK) hm'
      fun s hs => huncut s (htold.trans hs)
    refine ⟨⟨max k n, Option.bind_eq_some_iff.2 ⟨(f c m).1, ?_, ?_⟩⟩, hm''⟩
    · exact plainType_mono (Nat.le_max_left k n) hk
    · exact Dialogue.run_mono (fun c t => plainType_mono (Nat.le_max_right k n)) hn

/-- **What is found without a cut** is the plain type, and so is all that is remembered. -/
theorem grounded_typeWithin (hroom : p.Room depth m.computing) (hm : m.Grounded p)
    (huncut : ∀ s, Steps p ⟨.asking id, ws, m⟩ s → s.isCut = false) :
    p.HasPlainType id (p.typeWithin depth id m).1 ∧ (p.typeWithin depth id m).2.Grounded p := by
  induction depth generalizing id ws m with
  | zero => exact absurd hroom.pos (Nat.lt_irrefl 0)
  | succ depth ih =>
    cases hget : m.types.get? id with
    | some t =>
      rw [typeWithin_known hget]
      exact ⟨hm id t hget, hm⟩
    | none =>
      have hid : id ∉ m.computing := by
        intro hid
        have hcut := huncut _ .refl
        simp [isCut, hget, hid] at hcut
      rw [typeWithin_compute hget hid, ← run_dialogue]
      suffices hinside : (∃ n, (p.dialogue id).run (p.plainType n) =
            some ((p.dialogue id).run (p.typeWithin depth) (m.enter id)).1) ∧
          ((p.dialogue id).run (p.typeWithin depth) (m.enter id)).2.Grounded p by
        obtain ⟨⟨n, hn⟩, hgrounded⟩ := hinside
        have hplain : p.HasPlainType id _ := ⟨n + 1, (plainType_succ_eq p n id).trans hn⟩
        refine ⟨hplain, fun c u hu => ?_⟩
        simp only [Memo.leave, NodeMap.get?_insert] at hu
        split at hu
        · next e =>
          cases hu
          exact e ▸ hplain
        · exact hgrounded c u hu
      cases hn : p.node? id with
      | none =>
        rw [dialogue_of_none hn]
        exact ⟨⟨0, rfl⟩, hm⟩
      | some node =>
        have hroom := hroom.cons hid hn
        exact run_uncut (K := id :: m.computing) (fun c ws m' hK => ih (hK ▸ hroom))
          (fun c ws m' hK => steps_typeWithin (hK ▸ hroom)) (grows_typeWithin depth) _ rfl hm
          fun s hs => huncut s (.head (step_open hget hid) hs)

/-- **The guard does not fire** on the way to a node's type if and only if the node has a plain
    type. -/
theorem uncut_iff (hidle : m.computing = []) (hm : m.Grounded p) :
    p.Uncut m id ↔ ∃ t, p.HasPlainType id t := by
  have hroom := p.room_nil
  constructor
  · intro h
    exact ⟨_, (grounded_typeWithin (hidle ▸ hroom) hm h).1⟩
  · rintro ⟨t, n, ht⟩ s hs
    have hfound := finds_plainType hroom ht nofun hidle hm.faithful
    exact (hfound.calm []).isCut hs

end Program

/-! ## Queries that are not cut short -/

/-- No question that the analysis asks from a memo is cut short. -/
inductive Typing.Uncut (p : Program) {α : Type} : Typing α → Memo → Prop
  /-- It asks nothing. -/
  | answer (a : α) (m : Memo) : Uncut p (pure a) m
  /-- Its first question is not cut short, nor is any that follows. -/
  | ask {id : NodeId} {next : Ty → Typing α} {m : Memo} (h : p.Uncut m id)
      (hnext : Uncut p (next (p.typeOf id m).1) (p.typeOf id m).2) :
      Uncut p (p.typeOf id >>= next) m

namespace Typing

variable {p : Program} {α β : Type} {x : Typing α} {m : Memo}

theorem Uncut.leaves (h : x.Uncut p m) (hidle : m.computing = []) (hm : m.Grounded p) :
    (x m).2.computing = [] ∧ (x m).2.Grounded p := by
  induction h with
  | answer a m => exact ⟨hidle, hm⟩
  | @ask id next m h _ ih =>
    have hroom := p.room_nil
    exact ih ((Program.grows_typeOf id m).computing.trans hidle)
      (Program.grounded_typeWithin (hidle ▸ hroom) hm h).2

theorem Uncut.bind {f : α → Typing β} (hx : x.Uncut p m) (hf : (f (x m).1).Uncut p (x m).2) :
    (x >>= f).Uncut p m := by
  induction hx with
  | answer a m =>
    rw [pure_bind]
    exact hf
  | ask h _ ih =>
    rw [bind_assoc]
    exact .ask h (ih hf)

/-- Analyses that are never cut short, as long as only plain types are remembered. -/
theorem compositional_uncut (p : Program) : Compositional fun _ x =>
    ∀ m : Memo, m.computing = [] → m.Grounded p → x.Uncut p m where
  answer a m _ _ := .answer a m
  bind hx hf m hidle hm := by
    have hfirst := hx m hidle hm
    obtain ⟨hidle', hm'⟩ := hfirst.leaves hidle hm
    exact hfirst.bind (hf _ _ hidle' hm')

end Typing

/-- During the query the guard does not fire.  The query for a stream searches only if its answer
    is not known. -/
def Query.Quiet (p : Program) (m : Memo) : Query → Prop
  | .dependsOnStream id => m.readsStream.get? id = none →
      ((p.searchStream (p.arena.size + 1) id).run .empty).Uncut p m
  | q => (q.ask p).Uncut p m

namespace Program

/-- What a context knows after queries during which the guard has not fired. -/
inductive Quietly (p : Program) : Memo → Prop
  /-- At first nothing is known. -/
  | fresh : Quietly p .empty
  /-- Another query was answered. -/
  | next {m : Memo} (hm : Quietly p m) {q : Query} (hq : q.Quiet p m) : Quietly p (q.ask p m).2

variable {p : Program} {m : Memo}

/-- A context that was used quietly has answered queries. -/
theorem Quietly.queried (h : p.Quietly m) : p.Queried m := by
  induction h with
  | fresh => exact .fresh
  | next _ _ ih => exact ih.next _

/-- **A quietly used context** remembers plain types alone. -/
theorem Quietly.grounded (h : p.Quietly m) : m.Grounded p := by
  induction h with
  | fresh =>
    intro id t ht
    cases ht
  | @next m hm q hq ih =>
    have hidle := hm.queried.idle
    cases q with
    | dependsOnStream id =>
      show (p.dependsOnStream id m).2.Grounded p
      cases hknown : m.readsStream.get? id with
      | some b =>
        rw [dependsOnStream_known hknown]
        exact ih
      | none =>
        rw [dependsOnStream_search hknown]
        exact ((hq hknown).leaves hidle ih).2
    | _ => exact (Typing.Uncut.leaves hq hidle ih).2

/-- Without circular definitions the guard fires during no query. -/
theorem quiet_of_plain (hplain : ∀ id, ∃ t, p.HasPlainType id t) (hidle : m.computing = [])
    (hm : m.Grounded p) (q : Query) : q.Quiet p m := by
  have hcompositional := Typing.compositional_uncut p
  have htypes (id : NodeId) (m : Memo) (hidle : m.computing = []) (hm : m.Grounded p) :
      (p.typeOf id).Uncut p m := by
    rw [← bind_pure (p.typeOf id)]
    exact .ask ((uncut_iff hidle hm).2 (hplain id)) (.answer _ _)
  cases q with
  | dependsOnStream id => exact fun _ => hcompositional.searchStream htypes _ id _ m hidle hm
  | _ => exact hcompositional.ask htypes _ (fun _ h => by cases h) m hidle hm

/-- Without circular definitions, whatever a context is asked, it is used quietly. -/
theorem Queried.quietly (hplain : ∀ id, ∃ t, p.HasPlainType id t) (h : p.Queried m) :
    p.Quietly m := by
  induction h with
  | fresh => exact .fresh
  | next hm q ih => exact ih.next (quiet_of_plain hplain hm.idle ih.grounded q)

/-- A quietly used context is like a fresh one. -/
theorem Quietly.alike (h : p.Quietly m) : m.Alike p .empty := by
  refine ⟨h.queried.idle, h.grounded.faithful, Quietly.fresh.grounded.faithful, fun id hid => ?_⟩
  show m.types.get? id = none
  cases hget : m.types.get? id with
  | none => rfl
  | some t => exact absurd ⟨t, h.grounded id t hget⟩ hid

/-- Where it is not known whether a node reads a stream, a quietly used context finds what a fresh
    one finds. -/
theorem Quietly.searchStream (h : p.Quietly m) (id : NodeId) :
    ((p.searchStream (p.arena.size + 1) id).run .empty m).1.1 = (p.dependsOnStream id .empty).1 := by
  have hsame := ((Typing.compositional_together p []).searchStream together_typeOf
    (p.arena.size + 1) id .empty m .empty h.alike h.queried.idle).1
  rw [dependsOnStream_search rfl, hsame]

/-- What is remembered about streams is what a fresh context finds. -/
theorem Quietly.readsStream (h : p.Quietly m) {id : NodeId} {b : Bool}
    (hb : m.readsStream.get? id = some b) : (p.dependsOnStream id .empty).1 = b := by
  induction h with
  | fresh => cases hb
  | @next m hm q _ ih =>
    by_cases hq : ∃ c, q = .dependsOnStream c
    · obtain ⟨c, rfl⟩ := hq
      change (p.dependsOnStream c m).2.readsStream.get? id = some b at hb
      cases hknown : m.readsStream.get? c with
      | some b' =>
        rw [dependsOnStream_known hknown] at hb
        exact ih hb
      | none =>
        have hstreams := compositional_keepsStreams.searchStream (p := p) keepsStreams_typeOf
          (p.arena.size + 1) c .empty m
        rw [dependsOnStream_search hknown] at hb
        simp only [Memo.noteStream, NodeMap.get?_insert, hstreams] at hb
        split at hb
        · next e =>
          subst e
          rw [hm.searchStream c] at hb
          exact Option.some.inj hb
        · exact ih hb
    · have hkeeps := compositional_keepsStreams.ask (p := p) keepsStreams_typeOf q
        (fun c hc => absurd ⟨c, hc⟩ hq) m
      rw [hkeeps] at hb
      exact ih hb

/-- **The memo is transparent**: a context that was used quietly answers every query as a fresh
    context does, and remembers only types that a fresh context finds for the node alone. -/
theorem answer_of_quietly (h : p.Quietly m) :
    (∀ q : Query, (q.ask p m).1 = (q.ask p .empty).1) ∧
      ∀ id t, m.types.get? id = some t → (p.typeOf id .empty).1 = t := by
  have htypes (id : NodeId) : (p.typeOf id m).1 = (p.typeOf id .empty).1 :=
    (together_typeOf id m .empty h.alike h.queried.idle).1
  refine ⟨fun q => ?_, fun id t ht => ?_⟩
  · by_cases hq : ∃ id, q = .dependsOnStream id
    · obtain ⟨id, rfl⟩ := hq
      refine congrArg Reply.flag ?_
      show (p.dependsOnStream id m).1 = (p.dependsOnStream id .empty).1
      cases hknown : m.readsStream.get? id with
      | some b =>
        rw [dependsOnStream_known hknown]
        exact (h.readsStream hknown).symm
      | none =>
        rw [dependsOnStream_search hknown]
        exact h.searchStream id
    · exact ((Typing.compositional_together p []).ask together_typeOf q
        (fun id hid => absurd ⟨id, hid⟩ hq) m .empty h.alike h.queried.idle).1
  · rw [← htypes id]
    unfold typeOf
    rw [typeWithin_known ht]

/-! ## A program without circular definitions -/

/-- A function, a value that calls it, and a sum of such values. -/
def sums : Program :=
  .built (do
    let one ← Build.function "one" [] none (← Build.number 0x3FF0000000000000)
    let a ← Build.bind "a" none (some (← Build.evaluate (← Build.reference "one") []))
    let sum ← Build.binary (← Build.reference "a") "+" (← Build.reference "a")
    Build.program [] [one, a, sum]) none

theorem hasPlainType_sums (id : NodeId) : ∃ t, sums.HasPlainType id t :=
  hasPlainType_of_all 6 (by decide +kernel) id

/-- The sum has been typed and searched for streams when the context is asked again. -/
theorem answer_sums :
    let m := ((Query.dependsOnStream ⟨119⟩).ask sums ((Query.type ⟨119⟩).ask sums .empty).2).2
    sums.Quietly m ∧ (∀ q : Query, (q.ask sums m).1 = (q.ask sums .empty).1) ∧
      ∀ id t, m.types.get? id = some t → (sums.typeOf id .empty).1 = t := by
  intro m
  have hqueried : sums.Queried m :=
    .next (.next .fresh (.type ⟨119⟩)) (.dependsOnStream ⟨119⟩)
  have hquietly := hqueried.quietly hasPlainType_sums
  exact ⟨hquietly, answer_of_quietly hquietly⟩

end Program

end Arbor
