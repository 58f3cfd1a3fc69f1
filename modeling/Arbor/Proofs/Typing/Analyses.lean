/-
  Analyses by their parts.

  Every analysis is made of questions for the types of nodes, one after another, and what
  is done between them does not touch the memo.  So a property that pure answers have, and
  that analyses have if they are made of analyses with it, is one of every analysis that
  asks only such questions.

  * `Typing.Compositional P`: the property `P` is one of those;
  * `Typing.Keeps R x`: what the analysis does to a memo is in the relation `R`;
  * `Memo.Grows m m'`: what is known in `m` is known in `m'`, and the same nodes are listed;
  * `Typing.Settles x`: the analysis gives the same answer whenever it is asked again.

  Main statements: `Compositional.computeTypeBy`, `Compositional.compatibleWithin` and
  `Compositional.conflictsOf`, the analyses from the types that they ask for;
  `keeps_typeWithin`, what the question for a type does to the memo; `settles_typeOf`, its
  answer stays.
-/
import Arbor.Conflict.Check
import Arbor.Typing.StreamDependence
import Mathlib.Data.List.Basic

namespace Arbor

/-! ## Searches for streams -/

namespace Program

section
variable {p : Program} {depth : Nat} {id : NodeId} {visited : NodeSet}

theorem searchStream_visited (hid : visited.contains id = true) :
    (p.searchStream (depth + 1) id).run visited = pure (false, visited) := by
  simp [searchStream, hid]

theorem dependsOnStream_known {m : Memo} {b : Bool} (h : m.readsStream.get? id = some b) :
    p.dependsOnStream id m = (b, m) := by
  simp only [dependsOnStream, bind, StateT.bind, get, getThe, MonadStateOf.get, StateT.get, pure, h]
  rfl

theorem dependsOnStream_search {m : Memo} (h : m.readsStream.get? id = none) :
    p.dependsOnStream id m =
      let r := (p.searchStream (p.arena.size + 1) id).run .empty m
      (r.1.1, r.2.noteStream id r.1.1) := by
  simp only [dependsOnStream, bind, StateT.bind, get, getThe, MonadStateOf.get, StateT.get, pure, h,
    modify, modifyGet, MonadStateOf.modifyGet, StateT.modifyGet]
  rfl

/-- What is found where a node leads, and then from its children. -/
def searchOn (search : NodeId → Search Bool) (children : List NodeId) : Lead → Search Bool
  | .stream => pure true
  | .node m => do if ← search m then return true else searchAny search children
  | .nowhere => searchAny search children

theorem searchStream_enter (hid : visited.contains id = false) :
    (p.searchStream (depth + 1) id).run visited =
      (do searchOn (p.searchStream depth) (p.arena.children id) (← p.lead id) : Search Bool).run
        (visited.insert id ()) := by
  simp only [searchStream, StateT.run_bind, StateT.run_get, pure_bind, hid, Bool.false_eq_true,
    if_false, StateT.run_modify, StateT.run_monadLift, monadLift_self, bind_assoc]
  refine bind_congr fun l => ?_
  cases l <;> simp [searchOn]

end

end Program

/-! ## Analyses of analyses -/

namespace Typing

/-- A property that pure answers have, and two analyses one after the other if both have
    it. -/
structure Compositional (P : ∀ α : Type, Typing α → Prop) : Prop where
  answer : ∀ {α : Type} (a : α), P α (pure a)
  bind : ∀ {α β : Type} {x : Typing α} {f : α → Typing β}, P α x → (∀ a, P β (f a)) →
    P β (x >>= f)

variable {P : ∀ α : Type, Typing α → Prop} {α β : Type}

namespace Compositional

variable (hP : Compositional P)
include hP

theorem map {x : Typing α} {f : α → β} (hx : P α x) : P β (f <$> x) := by
  rw [map_eq_pure_bind]
  exact hP.bind hx fun a => hP.answer _

theorem mapM {f : α → Typing β} {l : List α} (hf : ∀ a, P β (f a)) : P _ (l.mapM f) := by
  induction l with
  | nil => exact hP.answer _
  | cons a l ih =>
    rw [List.mapM_cons]
    exact hP.bind (hf a) fun b => hP.bind ih fun bs => hP.answer _

theorem foldlM {f : β → α → Typing β} {l : List α} {b : β} (hf : ∀ b a, P β (f b a)) :
    P β (l.foldlM f b) := by
  induction l generalizing b with
  | nil => exact hP.answer _
  | cons a l ih =>
    rw [List.foldlM_cons]
    exact hP.bind (hf b a) fun b => ih

theorem allM {f : α → Typing Bool} {l : List α} (hf : ∀ a, P Bool (f a)) : P _ (l.allM f) := by
  induction l with
  | nil => exact hP.answer _
  | cons a l ih =>
    refine hP.bind (hf a) fun b => ?_
    cases b with
    | true => exact ih
    | false => exact hP.answer _

theorem anyM {f : α → Typing Bool} {l : List α} (hf : ∀ a, P Bool (f a)) : P _ (l.anyM f) := by
  induction l with
  | nil => exact hP.answer _
  | cons a l ih =>
    refine hP.bind (hf a) fun b => ?_
    cases b with
    | true => exact hP.answer _
    | false => exact ih

variable {p : Program}

/-! ## Types -/

section
variable {typeOf : NodeId → Typing Ty} (h : ∀ id, P Ty (typeOf id))
include h

theorem bindTypeBy (id : NodeId) : P Ty (p.bindTypeBy typeOf id) := by
  unfold Program.bindTypeBy
  split
  · exact hP.answer _
  · exact h _
  · exact hP.answer _

theorem definitionTypeBy (d : Definition) : P Ty (p.definitionTypeBy typeOf d) := by
  cases d with
  | bind id => exact hP.bindTypeBy h id
  | _ => exact hP.answer _

theorem outputBy (id : NodeId) : P Ty (p.outputBy typeOf id) := by
  unfold Program.outputBy
  split
  · exact hP.answer _
  · exact h _
  · exact hP.answer _

theorem inferBy (id : NodeId) (args : List Ty) : P _ (p.inferBy typeOf id args) := by
  refine hP.foldlM fun bindings c => ?_
  refine hP.bind (hP.bindTypeBy h c.1) fun t => ?_
  split
  · split
    · exact hP.answer _
    · exact hP.answer _
  · exact hP.answer _

theorem outputTypeBy (id : NodeId) (receiver : Option Ty) (args : List Ty) :
    P Ty (p.outputTypeBy typeOf id receiver args) :=
  hP.bind (hP.inferBy h id args) fun _ => hP.bind (hP.outputBy h id) fun _ => hP.answer _

theorem inputTypeBy (id : NodeId) (index : Nat) (receiver : Option Ty) (args : List Ty) :
    P Ty (p.inputTypeBy typeOf id index receiver args) := by
  unfold Program.inputTypeBy
  split
  · exact hP.answer _
  · exact hP.bind (hP.inferBy h id args) fun _ =>
      hP.bind (hP.bindTypeBy h _) fun _ => hP.answer _

theorem receiverTypeBy (id : NodeId) : P _ (p.receiverTypeBy typeOf id) := by
  unfold Program.receiverTypeBy
  split
  · exact hP.map (h _)
  · exact hP.answer _

/-- The type of a node, from the types that it rests on. -/
theorem computeTypeBy (id : NodeId) : P Ty (p.computeTypeBy typeOf id) := by
  unfold Program.computeTypeBy
  split
  · exact hP.answer _
  · exact hP.answer _
  · exact hP.answer _
  · split
    · exact hP.definitionTypeBy h _
    · split
      · exact hP.answer _
      · exact hP.answer _
  · refine hP.bind (h _) fun t => ?_
    split
    · exact hP.bind (hP.definitionTypeBy h _) fun _ => hP.answer _
    · exact hP.answer _
  · refine hP.bind (h _) fun t => ?_
    split
    · exact hP.bind (h _) fun _ => hP.outputTypeBy h _ _ _
    · exact hP.answer _
  · exact hP.bind (h _) fun _ => hP.bind (h _) fun _ => hP.answer _
  · refine hP.bind (hP.mapM h) fun args => hP.bind (h _) fun t => ?_
    split
    · exact hP.bind (hP.receiverTypeBy h _) fun _ => hP.outputTypeBy h _ _ _
    · exact hP.bind (hP.inferBy h _ _) fun _ => hP.answer _
    · exact hP.answer _
  · split
    · exact h _
    · exact hP.answer _
  · exact hP.bindTypeBy h id
  · exact h _
  · split
    · exact hP.answer _
    · exact hP.definitionTypeBy h _
    · exact hP.answer _
  · exact hP.answer _
  · exact hP.answer _
  · exact hP.answer _
  · split
    · exact hP.answer _
    · exact hP.answer _
  · exact hP.answer _

end

/-! ## Acceptance -/

section
variable {compatible : NodeId → NodeId → Typing Bool} (h : ∀ f g, P Bool (compatible f g))
include h

set_option linter.unusedSectionVars false

mutual

theorem acceptsBy (expected given : Ty) : P Bool (p.acceptsBy compatible expected given) := by
  unfold Program.acceptsBy
  split
  · exact hP.answer _
  · exact hP.answer _
  · exact hP.answer _
  · exact hP.answer _
  · exact hP.answer _
  · exact acceptsEachBy _ _
  · exact acceptsInSomeBy _ _
  · exact hP.answer _
  · split
    · exact acceptsPairsBy _ _
    · exact hP.answer _
  · exact hP.answer _
  · split
    · exact hP.answer _
    · exact h _ _
  · exact hP.answer _
termination_by sizeOf expected + sizeOf given

theorem acceptsEachBy (expected : Ty) (ts : List Ty) :
    P Bool (p.acceptsEachBy compatible expected ts) := by
  cases ts with
  | nil => unfold Program.acceptsEachBy; exact hP.answer _
  | cons t ts =>
    unfold Program.acceptsEachBy
    refine hP.bind (acceptsBy expected t) fun b => ?_
    split
    · exact acceptsEachBy expected ts
    · exact hP.answer _
termination_by sizeOf expected + sizeOf ts

theorem acceptsInSomeBy (ts : List Ty) (given : Ty) :
    P Bool (p.acceptsInSomeBy compatible ts given) := by
  cases ts with
  | nil => unfold Program.acceptsInSomeBy; exact hP.answer _
  | cons t ts =>
    unfold Program.acceptsInSomeBy
    refine hP.bind (acceptsBy t given) fun b => ?_
    split
    · exact hP.answer _
    · exact acceptsInSomeBy ts given
termination_by sizeOf ts + sizeOf given

theorem acceptsPairsBy (as bs : List Ty) : P Bool (p.acceptsPairsBy compatible as bs) := by
  cases as with
  | nil => unfold Program.acceptsPairsBy; exact hP.answer _
  | cons a as =>
    cases bs with
    | nil => unfold Program.acceptsPairsBy; exact hP.answer _
    | cons b bs =>
      unfold Program.acceptsPairsBy
      refine hP.bind (acceptsBy a b) fun c => ?_
      split
      · exact acceptsPairsBy as bs
      · exact hP.answer _
termination_by sizeOf as + sizeOf bs

end

end

section
variable (h : ∀ id, P Ty (p.typeOf id))
include h

/-- Whether functions are compatible, from the types of nodes. -/
theorem compatibleWithin (depth : Nat) (around : List (NodeId × NodeId)) (f g : NodeId) :
    P Bool (p.compatibleWithin depth around f g) := by
  induction depth generalizing around f g with
  | zero => exact hP.answer _
  | succ depth ih =>
    have accepts := hP.acceptsBy (p := p) (ih ((f, g) :: around))
    unfold Program.compatibleWithin Program.compatibleBy
    dsimp only
    by_cases hin : (f, g) ∈ around
    · rw [if_pos hin]
      exact hP.answer _
    rw [if_neg hin]
    split
    · exact hP.answer _
    · refine hP.bind (hP.allM fun c => ?_) fun b => ?_
      · exact hP.bind (hP.bindTypeBy h _) fun _ => hP.bind (hP.bindTypeBy h _) fun _ =>
          accepts _ _
      · split
        · exact hP.bind (hP.outputBy h _) fun _ => hP.bind (hP.outputBy h _) fun _ =>
            accepts _ _
        · exact hP.answer _

theorem functionsCompatible (f g : NodeId) : P Bool (p.functionsCompatible f g) :=
  hP.compatibleWithin h _ _ f g

theorem implementsFunction (f g : NodeId) : P Bool (p.implementsFunction f g) := by
  unfold Program.implementsFunction
  split
  · exact hP.functionsCompatible h _ _
  · exact hP.answer _

theorem accepts (expected given : Ty) : P Bool (p.accepts expected given) :=
  hP.acceptsBy (hP.functionsCompatible h) expected given

/-! ## Conflicts -/

theorem givenConflicts (definition : NodeId) (receiver : Option Ty) (types : List Ty)
    (index : Nat) (input argument : NodeId) (given : Ty) :
    P _ (p.givenConflicts definition receiver types index input argument given) := by
  refine hP.bind (hP.inputTypeBy h _ _ _ _) fun expected => ?_
  refine hP.bind (hP.accepts h expected given) fun b => ?_
  split
  · exact hP.answer _
  · exact hP.answer _

theorem callConflicts (caller definition : NodeId) (receiver : Option Ty)
    (arguments : List NodeId) :
    P _ (p.callConflicts caller definition receiver arguments) := by
  unfold Program.callConflicts
  dsimp only
  refine hP.bind (hP.mapM h) fun types => ?_
  refine hP.bind (hP.mapM fun c => ?_) fun found => hP.answer _
  unfold Program.inputConflicts
  split
  · exact hP.givenConflicts h _ _ _ _ _ _ _
  · split
    · exact hP.answer _
    · exact hP.answer _

theorem evaluateConflicts (id function : NodeId) (arguments : List NodeId) :
    P _ (p.evaluateConflicts id function arguments) := by
  refine hP.bind (h function) fun t => ?_
  split
  · exact hP.bind (hP.receiverTypeBy h _) fun _ => hP.callConflicts h _ _ _ _
  · split
    · exact hP.callConflicts h _ _ _ _
    · exact hP.answer _
  · exact hP.answer _
  · exact hP.answer _

theorem operandConflicts (id function : NodeId) (receiver : Ty) (right : NodeId) :
    P _ (p.operandConflicts id function receiver right) := by
  unfold Program.operandConflicts
  split
  · exact hP.answer _
  · split
    · exact hP.answer _
    · exact hP.bind (h right) fun _ => hP.givenConflicts h _ _ _ _ _ _ _

theorem operationConflicts (id left : NodeId) (op : Name) (right : NodeId) :
    P _ (p.operationConflicts id left op right) := by
  refine hP.bind (h left) fun t => ?_
  split
  · exact hP.answer _
  · split
    · exact hP.answer _
    · exact hP.bind (hP.operandConflicts h _ _ _ _) fun _ => hP.answer _

theorem structureConflicts (id : NodeId) : P _ (p.structureConflicts id) := by
  refine hP.bind (hP.bind (hP.mapM fun c => ?_) fun _ => hP.answer _) fun _ => hP.answer _
  refine hP.bind (hP.anyM fun f => hP.implementsFunction h f c.2) fun b => ?_
  split
  · exact hP.answer _
  · exact hP.answer _

/-- The conflicts of a node, from the types of nodes. -/
theorem conflictsOf (id : NodeId) : P _ (p.conflictsOf id) := by
  unfold Program.conflictsOf
  split
  · exact hP.operationConflicts h _ _ _ _
  · exact hP.evaluateConflicts h _ _ _
  · exact hP.structureConflicts h id
  · exact hP.answer _
  · split
    · exact hP.answer _
    · exact hP.answer _
  · refine hP.bind (h _) fun t => ?_
    split
    · exact hP.answer _
    · exact hP.answer _
  · split
    · exact hP.answer _
    · exact hP.answer _
    · exact hP.answer _
  · split
    · exact hP.answer _
    · exact hP.answer _
  · refine hP.bind (h _) fun t => hP.bind (hP.accepts h _ _) fun b => ?_
    split
    · exact hP.answer _
    · exact hP.answer _
  · refine hP.bind (h _) fun t => hP.bind (hP.accepts h _ _) fun b => ?_
    split
    · exact hP.answer _
    · exact hP.answer _
  · exact hP.answer _
  · exact hP.answer _
  · exact hP.answer _

theorem check : P _ p.check :=
  hP.bind (hP.mapM (hP.conflictsOf h)) fun _ => hP.answer _

/-! ## Streams -/

theorem lead (id : NodeId) : P _ (p.lead id) := by
  unfold Program.lead
  split
  · exact hP.answer _
  · exact hP.answer _
  · exact hP.bind (h _) fun _ => hP.answer _
  · exact hP.bind (h _) fun _ => hP.answer _
  · exact hP.answer _

omit h in
theorem runSearch {x : Program.Search α} {f : α → Program.Search β} {v : NodeSet}
    (hx : P _ (x.run v)) (hf : ∀ a w, P _ ((f a).run w)) : P _ ((x >>= f).run v) := by
  rw [StateT.run_bind]
  exact hP.bind hx fun a => hf a.1 a.2

omit h in
theorem searchAny {search : NodeId → Program.Search Bool} (hs : ∀ c v, P _ ((search c).run v))
    (ids : List NodeId) (v : NodeSet) : P _ ((Program.searchAny search ids).run v) := by
  induction ids generalizing v with
  | nil => exact hP.answer _
  | cons c ids ih =>
    refine hP.runSearch (hs c v) fun found w => ?_
    split
    · exact hP.answer _
    · exact ih w

omit h in
/-- What is searched from where a node leads. -/
theorem searchOn {search : NodeId → Program.Search Bool} (hs : ∀ c v, P _ ((search c).run v))
    (ids : List NodeId) (l : Program.Lead) (v : NodeSet) :
    P _ ((Program.searchOn search ids l).run v) := by
  cases l with
  | stream => exact hP.answer _
  | nowhere => exact hP.searchAny hs ids v
  | node z =>
    refine hP.runSearch (hs z v) fun found w => ?_
    split
    · exact hP.answer _
    · exact hP.searchAny hs ids w

/-- The search for a stream, from the types of receivers. -/
theorem searchStream (depth : Nat) (id : NodeId) (v : NodeSet) :
    P _ ((p.searchStream depth id).run v) := by
  induction depth generalizing id v with
  | zero => exact hP.answer _
  | succ depth ih =>
    cases hid : v.contains id with
    | true =>
      rw [Program.searchStream_visited hid]
      exact hP.answer _
    | false =>
      rw [Program.searchStream_enter hid]
      exact hP.runSearch (hP.bind (hP.lead h id) fun l => hP.answer (l, _)) fun l w =>
        hP.searchOn ih _ l w

end

end Compositional

/-! ## What analyses do to the memo -/

/-- What the analysis does to a memo is in the relation. -/
def Keeps (R : Memo → Memo → Prop) {α : Type} (x : Typing α) : Prop := ∀ m, R m (x m).2

/-- Analyses one after another keep what each of them keeps. -/
theorem compositional_keeps {R : Memo → Memo → Prop} (hrefl : ∀ m, R m m)
    (htrans : ∀ m m₁ m₂, R m m₁ → R m₁ m₂ → R m m₂) :
    Compositional fun _ x => x.Keeps R where
  answer _ m := hrefl m
  bind hx hf m := htrans m _ _ (hx m) (hf _ _)

end Typing

namespace Program

open Typing

variable {p : Program} {depth : Nat} {id : NodeId} {t : Ty}

theorem typeWithin_known {m : Memo} (h : m.types.get? id = some t) :
    p.typeWithin (depth + 1) id m = (t, m) := by
  simp only [typeWithin, bind, StateT.bind, get, getThe, MonadStateOf.get, StateT.get, pure, h]
  rfl

theorem typeWithin_listed {m : Memo} (h : m.types.get? id = none) (hid : id ∈ m.computing) :
    p.typeWithin (depth + 1) id m = (.unknown, m) := by
  simp only [typeWithin, bind, StateT.bind, get, getThe, MonadStateOf.get, StateT.get, pure, h,
    hid, if_true]
  rfl

theorem typeWithin_compute {m : Memo} (h : m.types.get? id = none) (hid : id ∉ m.computing) :
    p.typeWithin (depth + 1) id m =
      ((p.computeTypeBy (p.typeWithin depth) id (m.enter id)).1,
        (p.computeTypeBy (p.typeWithin depth) id (m.enter id)).2.leave id
          (p.computeTypeBy (p.typeWithin depth) id (m.enter id)).1) := by
  rcases hr : p.computeTypeBy (p.typeWithin depth) id (m.enter id) with ⟨t, m'⟩
  simp only [typeWithin, bind, StateT.bind, get, getThe, MonadStateOf.get, StateT.get, pure, h,
    hid, if_false, modify, modifyGet, MonadStateOf.modifyGet, StateT.modifyGet, hr]
  rfl

/-- **The question for a type** does to a memo what computations of types do to it, when
    the node is listed before and its type is noted after. -/
theorem keeps_typeWithin {R : Memo → Memo → Prop} (hrefl : ∀ m, R m m)
    (htrans : ∀ m m₁ m₂, R m m₁ → R m₁ m₂ → R m m₂)
    (hcompute : ∀ (m m' : Memo) id t, m.types.get? id = none → R (m.enter id) m' →
      R m (m'.leave id t)) (depth : Nat) (id : NodeId) : (p.typeWithin depth id).Keeps R := by
  induction depth generalizing id with
  | zero => exact fun m => hrefl m
  | succ depth ih =>
    intro m
    cases hget : m.types.get? id with
    | some t =>
      rw [typeWithin_known hget]
      exact hrefl m
    | none =>
      by_cases hid : id ∈ m.computing
      · rw [typeWithin_listed hget hid]
        exact hrefl m
      · rw [typeWithin_compute hget hid]
        exact hcompute m _ id _ hget
          ((compositional_keeps hrefl htrans).computeTypeBy ih id (m.enter id))

end Program

/-! ## Memos grow -/

/-- What is known is known later, and the same nodes are listed. -/
structure Memo.Grows (m m' : Memo) : Prop where
  types : ∀ id t, m.types.get? id = some t → m'.types.get? id = some t
  computing : m'.computing = m.computing

namespace Memo.Grows

theorem refl (m : Memo) : m.Grows m := ⟨fun _ _ h => h, rfl⟩

theorem trans {m m₁ m₂ : Memo} (h : m.Grows m₁) (h' : m₁.Grows m₂) : m.Grows m₂ :=
  ⟨fun id t ht => h'.types id t (h.types id t ht), h'.computing.trans h.computing⟩

end Memo.Grows

namespace Program

open Typing

variable {p : Program}

theorem compositional_grows : Compositional fun _ x => x.Keeps Memo.Grows :=
  compositional_keeps .refl fun _ _ _ h h' => h.trans h'

/-- Questions for types only add to a memo. -/
theorem grows_typeWithin (depth : Nat) (id : NodeId) :
    (p.typeWithin depth id).Keeps Memo.Grows := by
  refine keeps_typeWithin .refl (fun _ _ _ h h' => h.trans h') (fun m m' id t hid h => ?_) depth id
  refine ⟨fun id' u hu => ?_, ?_⟩
  · have hne : id ≠ id' := fun e => by rw [e, hu] at hid; cases hid
    have hold : m'.types.get? id' = some u := h.types id' u hu
    simp only [Memo.leave, NodeMap.get?_insert, if_neg hne, hold]
  · simp only [Memo.leave, h.computing, Memo.enter, List.erase_cons_head]

theorem grows_typeOf (id : NodeId) : (p.typeOf id).Keeps Memo.Grows := grows_typeWithin _ id

end Program

/-! ## Answers that stay -/

namespace Typing

variable {α β : Type}

/-- Whatever is asked after the memo, the analysis gives the answer. -/
def Settled (x : Typing α) (a : α) (m : Memo) : Prop := ∀ m' : Memo, m.Grows m' → (x m').1 = a

/-- An analysis that grows the memo, and that gives the same answer whenever it is asked
    again. -/
structure Settles (x : Typing α) : Prop where
  grows : x.Keeps Memo.Grows
  settled : ∀ m : Memo, m.computing = [] → x.Settled (x m).1 (x m).2

theorem Settled.mono {x : Typing α} {a : α} {m m' : Memo} (h : x.Settled a m) (hm : m.Grows m') :
    x.Settled a m' := fun m'' hm' => h m'' (hm.trans hm')

theorem Settles.idle {x : Typing α} (h : x.Settles) {m : Memo} (hm : m.computing = []) :
    (x m).2.computing = [] := (h.grows m).computing.trans hm

/-- The second of two analyses is asked again after what the first one knows. -/
theorem compositional_settles : Compositional fun _ x => x.Settles where
  answer a := ⟨fun m => .refl m, fun _ _ _ _ => rfl⟩
  bind {_ _ x f} hx hf := by
    refine ⟨fun m => (hx.grows m).trans ((hf _).grows _), fun m hm m' hm' => ?_⟩
    have hgrows : (x m).2.Grows m' := ((hf (x m).1).grows _).trans hm'
    have hfirst : (x m').1 = (x m).1 := hx.settled m hm m' hgrows
    show (f (x m').1 (x m').2).1 = (f (x m).1 (x m).2).1
    rw [hfirst]
    exact (hf _).settled _ (hx.idle hm) _ (hm'.trans (hx.grows m'))

/-- An analysis for one of several items is made between the others. -/
theorem exists_of_mem_mapM {f : α → Typing β} (hf : ∀ a, (f a).Settles) {l : List α} {a : α}
    (ha : a ∈ l) {m : Memo} (hm : m.computing = []) :
    ∃ m₁ : Memo, m₁.computing = [] ∧ (f a m₁).1 ∈ (l.mapM f m).1 ∧
      (f a m₁).2.Grows (l.mapM f m).2 := by
  have hgrows (l : List α) (m : Memo) : m.Grows (l.mapM f m).2 :=
    (compositional_settles.mapM hf).grows m
  induction l generalizing m with
  | nil => cases ha
  | cons c l ih =>
    rw [List.mapM_cons]
    rcases List.mem_cons.1 ha with rfl | ha
    · exact ⟨m, hm, List.mem_cons_self, hgrows l _⟩
    · obtain ⟨m₁, hm₁, hmem, hlast⟩ := ih ha ((hf c).idle hm)
      exact ⟨m₁, hm₁, List.mem_cons_of_mem _ hmem, hlast⟩

/-- Where one of several tests succeeds, it succeeds later as well. -/
theorem exists_of_anyM {f : α → Typing Bool} (hf : ∀ a, (f a).Settles) {l : List α} {m : Memo}
    (hm : m.computing = []) (h : (l.anyM f m).1 = true) :
    ∃ a ∈ l, (f a).Settled true (l.anyM f m).2 := by
  induction l generalizing m with
  | nil => cases h
  | cons c l ih =>
    have hcons : (c :: l).anyM f m = (match (f c m).1 with
        | true => (pure true : Typing Bool)
        | false => l.anyM f) (f c m).2 := rfl
    rw [hcons] at h ⊢
    cases hfirst : (f c m).1 with
    | true =>
      have hsettled := (hf c).settled m hm
      rw [hfirst] at hsettled
      exact ⟨c, List.mem_cons_self, hsettled⟩
    | false =>
      rw [hfirst] at h
      obtain ⟨a, ha, hsettled⟩ := ih ((hf c).idle hm) h
      exact ⟨a, List.mem_cons_of_mem _ ha, hsettled⟩

end Typing

namespace Program

variable {p : Program}

/-- The type of a node is remembered once it was asked for. -/
theorem get?_typeOf {m : Memo} (hm : m.computing = []) (id : NodeId) :
    (p.typeOf id m).2.types.get? id = some (p.typeOf id m).1 := by
  unfold typeOf
  cases hget : m.types.get? id with
  | some t => rw [typeWithin_known hget, hget]
  | none =>
    have hid : id ∉ m.computing := by
      rw [hm]
      nofun
    rw [typeWithin_compute hget hid]
    simp only [Memo.leave, NodeMap.get?_insert, if_true]

theorem settles_typeOf (id : NodeId) : (p.typeOf id).Settles := by
  refine ⟨grows_typeOf id, fun m hm m' hm' => ?_⟩
  have hknown := hm'.types _ _ (get?_typeOf hm id)
  unfold typeOf at hknown ⊢
  rw [typeWithin_known hknown]

end Program

end Arbor
