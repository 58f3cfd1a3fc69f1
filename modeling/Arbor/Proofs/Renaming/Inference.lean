/-
  Inference in renamed programs.

  The analysis keys its memo by nodes and lists the nodes that it is working on.  Asked the
  same of renamed programs, it goes the same way through both: what it remembers, what it
  lists and what it finds is the same but for the names of the nodes.

  * `Memo.Renamed` relates what is remembered;
  * `Typing.Renamed R K L S x y`: from such memos, in which `K` and `L` are listed, `x` and
    `y` find answers that `S` relates, and leave such memos.

  Main statement: `renamed_typeOf`, the types of related nodes.
-/
import Arbor.Proofs.Renaming.Types
import Arbor.Proofs.Typing.Inference

namespace Arbor

open List (Forall₂)

/-! ## Analyses of two programs -/

section
variable (R : NodeId → NodeId → Prop)

/-- The same is known of related nodes. -/
structure Memo.Renamed (m m' : Memo) : Prop where
  types : ∀ {x y : NodeId}, R x y → Option.Rel (Ty.Renamed R) (m.types.get? x) (m'.types.get? y)
  computing : Forall₂ R m.computing m'.computing
  readsStream : ∀ {x y : NodeId}, R x y → m.readsStream.get? x = m'.readsStream.get? y

/-- From memos that are renamed, with `K` and `L` listed, the analyses find related answers,
    and leave such memos. -/
def Typing.Renamed {α β : Type} (K L : List NodeId) (S : α → β → Prop) (x : Typing α)
    (y : Typing β) : Prop :=
  ∀ m m' : Memo, m.Renamed R m' → m.computing = K → m'.computing = L →
    S (x m).1 (y m').1 ∧ (x m).2.Renamed R (y m').2 ∧ (x m).2.computing = K ∧
      (y m').2.computing = L

end

section
variable {R : NodeId → NodeId → Prop} {K L : List NodeId} {α β γ δ : Type}
variable {S : α → β → Prop} {T : γ → δ → Prop}

theorem Memo.Renamed.noteStream {m m' : Memo} (hm : m.Renamed R m') (hR : Relator.BiUnique R)
    {x y : NodeId} (hx : R x y) (b : Bool) : (m.noteStream x b).Renamed R (m'.noteStream y b) where
  types := hm.types
  computing := hm.computing
  readsStream {z w} hz := by
    have heq : x = z ↔ y = w := Relator.rel_eq hR hx hz
    simp only [Memo.noteStream, NodeMap.get?_insert, heq, hm.readsStream hz]

theorem Memo.renamed_empty : Memo.empty.Renamed R Memo.empty :=
  ⟨fun _ => .none, .nil, fun _ => rfl⟩

namespace Typing

theorem renamed_pure {a : α} {b : β} (h : S a b) :
    Typing.Renamed R K L S (pure a : Typing α) (pure b : Typing β) :=
  fun _ _ hm hK hL => ⟨h, hm, hK, hL⟩

theorem Renamed.bind {x : Typing α} {y : Typing β} {f : α → Typing γ} {g : β → Typing δ}
    (hxy : Typing.Renamed R K L S x y) (hfg : ∀ a b, S a b → Typing.Renamed R K L T (f a) (g b)) :
    Typing.Renamed R K L T (x >>= f) (y >>= g) := by
  intro m m' hm hK hL
  obtain ⟨hab, hm, hK, hL⟩ := hxy m m' hm hK hL
  exact hfg _ _ hab _ _ hm hK hL

theorem Renamed.map {x : Typing α} {y : Typing β} {f : α → γ} {g : β → δ}
    (hxy : Typing.Renamed R K L S x y) (hfg : ∀ a b, S a b → T (f a) (g b)) :
    Typing.Renamed R K L T (f <$> x) (g <$> y) := by
  intro m m' hm hK hL
  obtain ⟨hab, hm, hK, hL⟩ := hxy m m' hm hK hL
  exact ⟨hfg _ _ hab, hm, hK, hL⟩

theorem Renamed.mono {S' : α → β → Prop} {x : Typing α} {y : Typing β}
    (hxy : Typing.Renamed R K L S x y) (hS : ∀ a b, S a b → S' a b) :
    Typing.Renamed R K L S' x y := by
  intro m m' hm hK hL
  obtain ⟨hab, hm, hK, hL⟩ := hxy m m' hm hK hL
  exact ⟨hS _ _ hab, hm, hK, hL⟩

theorem renamed_ite {c d : Prop} [Decidable c] [Decidable d] {x x' : Typing α} {y y' : Typing β}
    (hcd : c ↔ d) (hxy : c → Typing.Renamed R K L S x y)
    (hxy' : ¬c → Typing.Renamed R K L S x' y') :
    Typing.Renamed R K L S (if c then x else x') (if d then y else y') := by
  by_cases hc : c
  · rw [if_pos hc, if_pos (hcd.1 hc)]
    exact hxy hc
  · rw [if_neg hc, if_neg fun hd => hc (hcd.2 hd)]
    exact hxy' hc

theorem renamed_mapM {f : α → Typing γ} {g : β → Typing δ} {as : List α} {bs : List β}
    (h : Forall₂ S as bs) (hfg : ∀ a b, S a b → Typing.Renamed R K L T (f a) (g b)) :
    Typing.Renamed R K L (Forall₂ T) (as.mapM f) (bs.mapM g) := by
  induction h with
  | nil => exact renamed_pure .nil
  | cons hab _ ih =>
    rw [List.mapM_cons, List.mapM_cons]
    refine (hfg _ _ hab).bind fun c d hcd => ?_
    exact ih.bind fun cs ds hcds => renamed_pure (.cons hcd hcds)

theorem renamed_foldlM {f : γ → α → Typing γ} {g : δ → β → Typing δ} {as : List α} {bs : List β}
    {c : γ} {d : δ} (h : Forall₂ S as bs) (hcd : T c d)
    (hfg : ∀ a b, S a b → ∀ c d, T c d → Typing.Renamed R K L T (f c a) (g d b)) :
    Typing.Renamed R K L T (as.foldlM f c) (bs.foldlM g d) := by
  induction h generalizing c d with
  | nil => exact renamed_pure hcd
  | cons hab _ ih =>
    rw [List.foldlM_cons, List.foldlM_cons]
    exact (hfg _ _ hab c d hcd).bind fun c d hcd => ih hcd

theorem renamed_allM {f : α → Typing Bool} {g : β → Typing Bool} {as : List α} {bs : List β}
    (h : Forall₂ S as bs) (hfg : ∀ a b, S a b → Typing.Renamed R K L Eq (f a) (g b)) :
    Typing.Renamed R K L Eq (as.allM f) (bs.allM g) := by
  induction h with
  | nil => exact renamed_pure rfl
  | cons hab _ ih =>
    refine (hfg _ _ hab).bind fun c d hcd => ?_
    subst hcd
    cases c with
    | true => exact ih
    | false => exact renamed_pure rfl

theorem renamed_anyM {f : α → Typing Bool} {g : β → Typing Bool} {as : List α} {bs : List β}
    (h : Forall₂ S as bs) (hfg : ∀ a b, S a b → Typing.Renamed R K L Eq (f a) (g b)) :
    Typing.Renamed R K L Eq (as.anyM f) (bs.anyM g) := by
  induction h with
  | nil => exact renamed_pure rfl
  | cons hab _ ih =>
    refine (hfg _ _ hab).bind fun c d hcd => ?_
    subst hcd
    cases c with
    | true => exact renamed_pure rfl
    | false => exact ih

end Typing

end

/-! ## Unions -/

namespace Program.Renamed

variable {R : NodeId → NodeId → Prop} {p q : Program} (h : p.Renamed R q)

section
include h

theorem renamed_addNew {ts us ts' us' : List Ty} (hts : Forall₂ (Ty.Renamed R) ts ts')
    (hus : Forall₂ (Ty.Renamed R) us us') :
    Forall₂ (Ty.Renamed R) (Ty.addNew ts us) (Ty.addNew ts' us') := by
  refine List.rel_foldl (fun as bs has t t' ht => ?_) hts hus
  have hmem : t ∈ as ↔ t' ∈ bs := List.rel_mem (Ty.biUnique h.unique) ht has
  by_cases hin : t ∈ as
  · rw [if_pos hin, if_pos (hmem.1 hin)]
    exact has
  · rw [if_neg hin, if_neg fun hin' => hin (hmem.2 hin')]
    exact List.rel_append has (.cons ht .nil)

omit h in
theorem renamed_parts {t t' : Ty} (ht : t.Renamed R t') :
    Forall₂ (Ty.Renamed R) t.parts t'.parts := by
  cases ht with
  | union hts => exact hts
  | primitive k => exact .cons (.primitive k) .nil
  | instanceOf hd hts => exact .cons (.instanceOf hd hts) .nil
  | definition hd => exact .cons (.definition hd) .nil
  | function hd => exact .cons (.function hd) .nil
  | typeVar hv => exact .cons (.typeVar hv) .nil
  | never => exact .cons .never .nil
  | unknown => exact .cons .unknown .nil

theorem renamed_cover {t u t' u' : Ty} (ht : t.Renamed R t') (hu : u.Renamed R u') :
    (t.cover u).Renamed R (t'.cover u') := by
  have hall := h.renamed_addNew (h.renamed_addNew .nil (renamed_parts ht)) (renamed_parts hu)
  unfold Ty.cover
  revert hall
  generalize Ty.addNew _ _ = ts, Ty.addNew _ _ = us
  rintro (_ | ⟨hv, (_ | ⟨hw, hvs⟩)⟩)
  · exact .union .nil
  · exact hv
  · exact .union (.cons hv (.cons hw hvs))

theorem renamed_join {t u t' u' : Ty} (ht : t.Renamed R t') (hu : u.Renamed R u') :
    (t.join u).Renamed R (t'.join u') := by
  have hcover := h.renamed_cover ht hu
  unfold Ty.join
  by_cases heq : t = u
  · rw [if_pos heq, if_pos ((h.ty_eq_iff ht hu).1 heq)]
    exact ht
  · rw [if_neg heq, if_neg fun heq' => heq ((h.ty_eq_iff ht hu).2 heq')]
    cases ht <;> cases hu <;> first | exact hcover | constructor <;> assumption

end

/-! ## Types that follow from each other -/

section
variable {K L : List NodeId} {typeOf typeOf' : NodeId → Typing Ty}
variable (ht : ∀ x y, R x y → Typing.Renamed R K L (Ty.Renamed R) (typeOf x) (typeOf' y))
include h ht

theorem renamed_bindTypeBy {x y : NodeId} (hx : R x y) :
    Typing.Renamed R K L (Ty.Renamed R) (p.bindTypeBy typeOf x) (q.bindTypeBy typeOf' y) := by
  obtain ⟨n, m, hn, hm, hnm⟩ := h.node hx
  unfold bindTypeBy
  rw [hn, hm]
  cases hnm with
  | bind _ htype hvalue =>
    rcases htype with htype | _
    · exact Typing.renamed_pure (h.renamed_typeGiven htype)
    · rcases hvalue with hvalue | _
      · exact ht _ _ hvalue
      · exact Typing.renamed_pure .unknown
  | _ => exact Typing.renamed_pure .unknown

theorem renamed_definitionTypeBy {d d' : Definition} (hd : d.Renamed R p q d') :
    Typing.Renamed R K L (Ty.Renamed R) (p.definitionTypeBy typeOf d)
      (q.definitionTypeBy typeOf' d') := by
  cases hd with
  | bind hx => exact h.renamed_bindTypeBy ht hx
  | function hx => exact Typing.renamed_pure (.function hx)
  | structureDef hx => exact Typing.renamed_pure (.definition hx)
  | typeVariable hx => exact Typing.renamed_pure (.typeVar hx)
  | stream hs => exact Typing.renamed_pure ((h.stream hs).getD .unknown)

theorem renamed_outputBy {x y : NodeId} (hx : R x y) :
    Typing.Renamed R K L (Ty.Renamed R) (p.outputBy typeOf x) (q.outputBy typeOf' y) := by
  obtain ⟨n, m, hn, hm, hnm⟩ := h.node hx
  unfold outputBy
  rw [hn, hm]
  cases hnm with
  | functionDefinition _ _ _ houtput hbody =>
    rcases houtput with houtput | _
    · exact Typing.renamed_pure (h.renamed_typeGiven houtput)
    · rcases hbody with hbody | _
      · exact ht _ _ hbody
      · exact Typing.renamed_pure .unknown
  | _ => exact Typing.renamed_pure .unknown

theorem renamed_inferBy {x y : NodeId} (hx : R x y) {args args' : List Ty}
    (hargs : Forall₂ (Ty.Renamed R) args args') :
    Typing.Renamed R K L (RenamedBindings R) (p.inferBy typeOf x args)
      (q.inferBy typeOf' y args') := by
  refine Typing.renamed_foldlM (List.rel_zip (h.renamed_inputs hx) hargs) .nil ?_
  rintro ⟨i, a⟩ ⟨i', a'⟩ ⟨hi, ha⟩ bs cs hbs
  refine (h.renamed_bindTypeBy ht hi).bind fun t t' htt' => ?_
  cases htt' with
  | @typeVar v w hv =>
    have hbinds : (v ∈ p.typeVariables x ∧ a ≠ .unknown ∧ (bs.lookup v).isNone) ↔
        (w ∈ q.typeVariables y ∧ a' ≠ .unknown ∧ (cs.lookup w).isNone) := by
      have hl := List.rel_lookup h.unique hv hbs
      rw [h.mem_iff hv (h.renamed_typeVariables hx), ne_eq, h.ty_eq_iff ha .unknown, hl.isNone_eq]
    refine Typing.renamed_ite hbinds (fun _ => ?_) fun _ => Typing.renamed_pure hbs
    exact Typing.renamed_pure (List.rel_append hbs (.cons ⟨hv, ha⟩ .nil))
  | _ => exact Typing.renamed_pure hbs

theorem renamed_outputTypeBy {x y : NodeId} (hx : R x y) {r r' : Option Ty}
    (hr : Option.Rel (Ty.Renamed R) r r') {args args' : List Ty}
    (hargs : Forall₂ (Ty.Renamed R) args args') :
    Typing.Renamed R K L (Ty.Renamed R) (p.outputTypeBy typeOf x r args)
      (q.outputTypeBy typeOf' y r' args') := by
  refine (h.renamed_inferBy ht hx hargs).bind fun bs cs hbs => ?_
  refine (h.renamed_outputBy ht hx).bind fun t t' htt' => ?_
  exact Typing.renamed_pure (renamed_substitute h hr hbs htt')

theorem renamed_inputTypeBy {x y : NodeId} (hx : R x y) (i : Nat) {r r' : Option Ty}
    (hr : Option.Rel (Ty.Renamed R) r r') {args args' : List Ty}
    (hargs : Forall₂ (Ty.Renamed R) args args') :
    Typing.Renamed R K L (Ty.Renamed R) (p.inputTypeBy typeOf x i r args)
      (q.inputTypeBy typeOf' y i r' args') := by
  have hi := List.rel_getElem? (h.renamed_inputs hx) i
  unfold inputTypeBy
  revert hi
  generalize (p.inputs x)[i]? = o, (q.inputs y)[i]? = o'
  rintro (hi | _)
  · refine (h.renamed_inferBy ht hx hargs).bind fun bs cs hbs => ?_
    refine (h.renamed_bindTypeBy ht hi).bind fun t t' htt' => ?_
    exact Typing.renamed_pure (renamed_substitute h hr hbs htt')
  · exact Typing.renamed_pure .unknown

theorem renamed_receiverTypeBy {x y : NodeId} (hx : R x y) :
    Typing.Renamed R K L (Option.Rel (Ty.Renamed R)) (p.receiverTypeBy typeOf x)
      (q.receiverTypeBy typeOf' y) := by
  obtain ⟨n, m, hn, hm, hnm⟩ := h.node hx
  unfold receiverTypeBy
  rw [hn, hm]
  cases hnm with
  | propertyReference _ hc => exact (ht _ _ hc).map fun _ _ => .some
  | _ => exact Typing.renamed_pure .none

theorem renamed_instanceTypeBy {x y : NodeId} (hx : R x y) {args args' : List Ty}
    (hargs : Forall₂ (Ty.Renamed R) args args') :
    Typing.Renamed R K L (Ty.Renamed R) (p.instanceTypeBy typeOf x args)
      (q.instanceTypeBy typeOf' y args') := by
  refine (h.renamed_inferBy ht hx hargs).bind fun bs cs hbs => ?_
  refine Typing.renamed_pure (.instanceOf hx ?_)
  refine List.rel_map (fun v w hv => ?_) (h.renamed_typeVariables hx)
  exact (List.rel_lookup h.unique hv hbs).getD .unknown

theorem renamed_referenceTypeBy {n : Name} {x y : NodeId} (hx : R x y)
    (hn : p.node? x = some (.reference n)) (hm : q.node? y = some (.reference n)) :
    Typing.Renamed R K L (Ty.Renamed R) (p.computeTypeBy typeOf x) (q.computeTypeBy typeOf' y) := by
  have hd := h.renamed_resolve n hx (.inl ⟨n, hn⟩)
  unfold computeTypeBy
  rw [hn, hm]
  dsimp only
  revert hd
  generalize p.resolve n x = o, q.resolve n y = o'
  rintro (hd | _)
  · exact h.renamed_definitionTypeBy ht hd
  · dsimp only
    split
    · refine Typing.renamed_pure (((h.renamed_enclosingStructure hx (.inl ⟨n, hn⟩)).map ?_).getD .unknown)
      exact fun _ _ hd => .instanceOf hd .nil
    · exact Typing.renamed_pure .unknown

theorem renamed_memberTypeBy {n : Name} {t t' : Ty} (htt' : t.Renamed R t') :
    Typing.Renamed R K L (Ty.Renamed R)
      (match p.definitionInType t n with
        | some d => do return p.substitute (some t) [] (← p.definitionTypeBy typeOf d)
        | none => return .unknown)
      (match q.definitionInType t' n with
        | some d => do return q.substitute (some t') [] (← q.definitionTypeBy typeOf' d)
        | none => return .unknown) := by
  have hd := h.renamed_definitionInType n htt'
  revert hd
  generalize p.definitionInType t n = o, q.definitionInType t' n = o'
  rintro (hd | _)
  · refine (h.renamed_definitionTypeBy ht hd).bind fun u u' hu => ?_
    exact Typing.renamed_pure (renamed_substitute h (.some htt') .nil hu)
  · exact Typing.renamed_pure .unknown

/-- The types of related nodes are computed alike. -/
theorem renamed_computeTypeBy {x y : NodeId} (hx : R x y) :
    Typing.Renamed R K L (Ty.Renamed R) (p.computeTypeBy typeOf x) (q.computeTypeBy typeOf' y) := by
  obtain ⟨n, m, hn, hm, hnm⟩ := h.node hx
  cases hnm with
  | reference n => exact h.renamed_referenceTypeBy ht hx hn hm
  | propertyReference n hc =>
    unfold computeTypeBy
    rw [hn, hm]
    exact (ht _ _ hc).bind fun t t' htt' => h.renamed_memberTypeBy ht htt'
  | binaryOperation op hl hr =>
    unfold computeTypeBy
    rw [hn, hm]
    refine (ht _ _ hl).bind fun t t' htt' => ?_
    have hf := h.renamed_operatorFunction op htt'
    revert hf
    generalize p.operatorFunction t op = o, q.operatorFunction t' op = o'
    rintro (hf | _)
    · exact (ht _ _ hr).bind fun u u' hu =>
        h.renamed_outputTypeBy ht hf (.some htt') (.cons hu .nil)
    · exact Typing.renamed_pure .unknown
  | conditional _ hy hn' =>
    unfold computeTypeBy
    rw [hn, hm]
    refine (ht _ _ hy).bind fun t t' htt' => (ht _ _ hn').bind fun u u' hu => ?_
    exact Typing.renamed_pure (h.renamed_join htt' hu)
  | evaluate hf his =>
    unfold computeTypeBy
    rw [hn, hm]
    refine (Typing.renamed_mapM his ht).bind fun args args' hargs => ?_
    refine (ht _ _ hf).bind fun t t' htt' => ?_
    cases htt' with
    | function hg =>
      exact (h.renamed_receiverTypeBy ht hf).bind fun r r' hr =>
        h.renamed_outputTypeBy ht hg hr hargs
    | definition hd => exact h.renamed_instanceTypeBy ht hd hargs
    | _ => exact Typing.renamed_pure .unknown
  | block hss =>
    have hlast := List.rel_getLast? hss
    unfold computeTypeBy
    rw [hn, hm]
    dsimp only
    revert hlast
    generalize List.getLast? _ = o, List.getLast? _ = o'
    rintro (hlast | _)
    · exact ht _ _ hlast
    · exact Typing.renamed_pure .unknown
  | program _ hmain =>
    unfold computeTypeBy
    rw [hn, hm]
    exact ht _ _ hmain
  | borrow n =>
    have hs := h.share hx hn
    have hstream := h.renamed_streamNamed? hx hn
    rw [streamNamed?_eq_share p, streamNamed?_eq_share q] at hstream
    unfold computeTypeBy
    rw [hn, hm]
    dsimp only
    revert hs hstream
    generalize p.share? n = o, q.share? n = o'
    rintro (hs | _) hstream
    · cases hs with
      | structureDef hd => exact Typing.renamed_pure (.definition hd)
      | stream s s' =>
        cases hstream with
        | some hs => exact h.renamed_definitionTypeBy ht (.stream hs)
    · exact Typing.renamed_pure .unknown
  | bind =>
    have hb := h.renamed_bindTypeBy ht hx
    unfold computeTypeBy
    rw [hn, hm]
    exact hb
  | functionDefinition =>
    unfold computeTypeBy
    rw [hn, hm]
    exact Typing.renamed_pure (.function hx)
  | structureDefinition =>
    unfold computeTypeBy
    rw [hn, hm]
    exact Typing.renamed_pure (.definition hx)
  | typeVariable =>
    unfold computeTypeBy
    rw [hn, hm]
    exact Typing.renamed_pure (.typeVar hx)
  | nameType =>
    have hg := h.renamed_typeGiven hx
    unfold computeTypeBy
    rw [hn, hm]
    exact Typing.renamed_pure hg
  | booleanType | numberType | textType =>
    have hg := h.renamed_typeGiven hx
    unfold computeTypeBy
    rw [hn, hm]
    exact Typing.renamed_pure hg
  | _ =>
    unfold computeTypeBy
    rw [hn, hm]
    exact Typing.renamed_pure (by constructor)

end

/-! ## Types of nodes -/

section
include h

theorem renamed_memo_leave {m m' : Memo} (hm : m.Renamed R m') {x y : NodeId} (hx : R x y)
    {t t' : Ty} (ht : t.Renamed R t') : (m.leave x t).Renamed R (m'.leave y t') where
  types {z w} hz := by
    simp only [Memo.leave, NodeMap.get?_insert]
    by_cases he : x = z
    · rw [if_pos he, if_pos ((h.eq_iff hx hz).1 he)]
      exact .some ht
    · rw [if_neg he, if_neg fun he' => he ((h.eq_iff hx hz).2 he')]
      exact hm.types hz
  computing := List.rel_erase h.unique hx hm.computing
  readsStream := hm.readsStream

/-- **Related nodes have related types**, if there is room for all computations inside each
    other. -/
theorem renamed_typeWithin {K L : List NodeId} {d e : Nat} (hK : p.Room d K) (hL : q.Room e L)
    {x y : NodeId} (hx : R x y) :
    Typing.Renamed R K L (Ty.Renamed R) (p.typeWithin d x) (q.typeWithin e y) := by
  -- Induction on the depth; both sides list one node more at each step.
  induction d generalizing e K L x y with
  | zero => exact absurd hK.pos (Nat.lt_irrefl 0)
  | succ d ih =>
    obtain ⟨e, rfl⟩ : ∃ k, e = k + 1 := ⟨e - 1, by have := hL.pos; omega⟩
    intro m m' hm hmK hmL
    subst hmK hmL
    have hget := hm.types hx
    cases ht : m.types.get? x with
    | some t =>
      cases ht' : m'.types.get? y with
      | some t' =>
        rw [ht, ht'] at hget
        cases hget with
        | some hget =>
          rw [typeWithin_known ht, typeWithin_known ht']
          exact ⟨hget, hm, rfl, rfl⟩
      | none => rw [ht, ht'] at hget; cases hget
    | none =>
      cases ht' : m'.types.get? y with
      | some t' => rw [ht, ht'] at hget; cases hget
      | none =>
        have hmem := h.mem_iff hx hm.computing
        by_cases hlisted : x ∈ m.computing
        · rw [typeWithin_listed ht hlisted, typeWithin_listed ht' (hmem.1 hlisted)]
          exact ⟨.unknown, hm, rfl, rfl⟩
        · have hlisted' : y ∉ m'.computing := fun hy => hlisted (hmem.2 hy)
          obtain ⟨n, n', hn, hn', -⟩ := h.node hx
          rw [typeWithin_compute ht hlisted, typeWithin_compute ht' hlisted']
          have henter : (m.enter x).Renamed R (m'.enter y) :=
            ⟨hm.types, .cons hx hm.computing, hm.readsStream⟩
          obtain ⟨htt', hm, hK', hL'⟩ := h.renamed_computeTypeBy
            (fun _ _ hz => ih (hK.cons hlisted hn) (hL.cons hlisted' hn') hz) hx _ _ henter rfl rfl
          refine ⟨htt', h.renamed_memo_leave hm hx htt', ?_, ?_⟩
          · rw [Memo.leave, hK', List.erase_cons_head]
          · rw [Memo.leave, hL', List.erase_cons_head]

theorem renamed_typeOf {x y : NodeId} (hx : R x y) :
    Typing.Renamed R [] [] (Ty.Renamed R) (p.typeOf x) (q.typeOf y) :=
  h.renamed_typeWithin p.room_nil q.room_nil hx

theorem renamed_bindType {x y : NodeId} (hx : R x y) :
    Typing.Renamed R [] [] (Ty.Renamed R) (p.bindType x) (q.bindType y) :=
  h.renamed_bindTypeBy (fun _ _ => h.renamed_typeOf) hx

theorem renamed_output {x y : NodeId} (hx : R x y) :
    Typing.Renamed R [] [] (Ty.Renamed R) (p.output x) (q.output y) :=
  h.renamed_outputBy (fun _ _ => h.renamed_typeOf) hx

theorem renamed_inputType {x y : NodeId} (hx : R x y) (i : Nat) {r r' : Option Ty}
    (hr : Option.Rel (Ty.Renamed R) r r') {args args' : List Ty}
    (hargs : Forall₂ (Ty.Renamed R) args args') :
    Typing.Renamed R [] [] (Ty.Renamed R) (p.inputType x i r args) (q.inputType y i r' args') :=
  h.renamed_inputTypeBy (fun _ _ => h.renamed_typeOf) hx i hr hargs

end

end Program.Renamed

end Arbor
