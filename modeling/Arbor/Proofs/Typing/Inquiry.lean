/-
  Inquiries: how the type of a node is found, step by step.

  An inquiry asks for the type of one node.  A type that is known is told, a node whose type
  is being computed has none yet, and for any other node a computation is opened: it asks for
  other types, one after another, while the computations that wait for its answer stay open.
  Nothing limits how many of them are open, so an inquiry might go on for ever; the depth that
  `typeOf` is given stands for the fact that it does not.

  * `Inquiry.step`: one step; `Inquiry.Steps`: several;
  * `Inquiry.opened`: the nodes whose types are being computed, innermost first;
  * `Inquiry.Orderly`: they are those that the memo lists, each of them once.

  Main statements: `Steps.orderly`, no step opens a second computation for a node;
  `steps_typeWithin`, an inquiry tells what the analysis with enough depth finds; and
  `ends_typeOf`, typing ends on every program.
-/
import Arbor.Proofs.Typing.Dialogue
import Arbor.Proofs.Typing.Inference
import Arbor.Proofs.Typing.Queries
import Mathlib.Logic.Relation

namespace Arbor

/-- What an inquiry does next. -/
inductive Doing where
  /-- It asks for the type of a node. -/
  | asking (id : NodeId)
  /-- It goes on with the computation of the type of a node. -/
  | computing (id : NodeId) (rest : Dialogue Ty)
  /-- It tells a type to whoever asked for it. -/
  | telling (t : Ty)

/-- A state of the search for a type. -/
structure Inquiry where
  /-- What is done next. -/
  doing : Doing
  /-- The computations that wait for an answer, and how they go on with it. -/
  waiting : List (NodeId × (Ty → Dialogue Ty))
  /-- What is known. -/
  memo : Memo

namespace Inquiry

/-- One step; an inquiry has ended when nobody waits for what it tells. -/
def step (p : Program) : Inquiry → Option Inquiry
  | ⟨.asking id, ws, m⟩ =>
    match m.types.get? id with
    | some t => some ⟨.telling t, ws, m⟩
    | none =>
      if id ∈ m.computing then some ⟨.telling .unknown, ws, m⟩
      else some ⟨.computing id (p.dialogue id), ws, m.enter id⟩
  | ⟨.computing id (.ask c next), ws, m⟩ => some ⟨.asking c, (id, next) :: ws, m⟩
  | ⟨.computing id (.answer t), ws, m⟩ => some ⟨.telling t, ws, m.leave id t⟩
  | ⟨.telling t, (id, next) :: ws, m⟩ => some ⟨.computing id (next t), ws, m⟩
  | ⟨.telling _, [], _⟩ => none

/-- Several steps. -/
abbrev Steps (p : Program) : Inquiry → Inquiry → Prop :=
  Relation.ReflTransGen fun s s' => s.step p = some s'

/-- The question for the type of a node. -/
def start (id : NodeId) (m : Memo) : Inquiry := ⟨.asking id, [], m⟩

/-- The nodes whose types are being computed, innermost first. -/
def opened : Inquiry → List NodeId
  | ⟨.computing id _, ws, _⟩ => id :: ws.map Prod.fst
  | ⟨_, ws, _⟩ => ws.map Prod.fst

/-- The memo lists the nodes whose types are being computed, each of them once. -/
structure Orderly (s : Inquiry) : Prop where
  listed : s.memo.computing = s.opened
  once : s.opened.Nodup

variable {p : Program} {s s' : Inquiry} {id : NodeId} {m : Memo} {depth : Nat}
  {ws : List (NodeId × (Ty → Dialogue Ty))}

section
variable (hget : m.types.get? id = none)

theorem step_known {t : Ty} (hget : m.types.get? id = some t) :
    step p ⟨.asking id, ws, m⟩ = some ⟨.telling t, ws, m⟩ := by
  simp only [step, hget]

include hget

theorem step_listed (hid : id ∈ m.computing) :
    step p ⟨.asking id, ws, m⟩ = some ⟨.telling .unknown, ws, m⟩ := by
  simp only [step, hget, if_pos hid]

theorem step_open (hid : id ∉ m.computing) :
    step p ⟨.asking id, ws, m⟩ = some ⟨.computing id (p.dialogue id), ws, m.enter id⟩ := by
  simp only [step, hget, if_neg hid]

end

/-- An inquiry that can end does so from every state that it passes. -/
theorem Steps.onward {t : Ty} (hend : Steps p s ⟨.telling t, [], m⟩) (hs : Steps p s s') :
    Steps p s' ⟨.telling t, [], m⟩ := by
  have hunique : Relator.RightUnique fun s s' : Inquiry => s.step p = some s' := by
    intro a b c hb hc
    exact Option.some.inj (hb.symm.trans hc)
  rcases Relation.ReflTransGen.total_of_right_unique hunique hend hs with h | h
  · rcases Relation.ReflTransGen.cases_head h with rfl | ⟨s'', hnone, -⟩
    · exact .refl
    · cases hnone
  · exact h

/-! ## At most one computation for each node -/

theorem orderly_start (h : m.computing = []) : (start id m).Orderly := ⟨h, .nil⟩

theorem Orderly.step (h : s.Orderly) (hs : s.step p = some s') : s'.Orderly := by
  obtain ⟨doing, ws, m⟩ := s
  obtain ⟨hlisted, honce⟩ := h
  cases doing with
  | asking id =>
    cases hget : m.types.get? id with
    | some t =>
      rw [step_known hget] at hs
      cases hs
      exact ⟨hlisted, honce⟩
    | none =>
      by_cases hid : id ∈ m.computing
      · rw [step_listed hget hid] at hs
        cases hs
        exact ⟨hlisted, honce⟩
      · rw [step_open hget hid] at hs
        cases hs
        rw [show m.computing = _ from hlisted] at hid
        exact ⟨congrArg (id :: ·) hlisted, List.nodup_cons.2 ⟨hid, honce⟩⟩
  | computing id rest =>
    cases rest with
    | ask c next =>
      cases hs
      exact ⟨hlisted, honce⟩
    | answer t =>
      cases hs
      have hlisted : m.computing = id :: ws.map Prod.fst := hlisted
      refine ⟨?_, (List.nodup_cons.1 honce).2⟩
      show m.computing.erase id = ws.map Prod.fst
      rw [hlisted, List.erase_cons_head]
  | telling t =>
    cases ws with
    | nil => cases hs
    | cons w ws =>
      cases hs
      exact ⟨hlisted, honce⟩

/-- **At any time at most one computation is open for each node**, and the memo lists those
    that are. -/
theorem Steps.orderly (h : s.Orderly) (hs : Steps p s s') : s'.Orderly := by
  induction hs with
  | refl => exact h
  | tail _ hlast ih => exact ih.step hlast

/-! ## Inquiries end -/

/-- A computation ends if the questions that it asks do. -/
theorem steps_computing {f : NodeId → Typing Ty} {K : List NodeId}
    (hf : ∀ c ws m, m.computing = K →
      Steps p ⟨.asking c, ws, m⟩ ⟨.telling (f c m).1, ws, (f c m).2⟩)
    (hgrows : ∀ c, (f c).Keeps Memo.Grows) (d : Dialogue Ty) (hm : m.computing = K) :
    Steps p ⟨.computing id d, ws, m⟩
      ⟨.computing id (.answer (d.run f m).1), ws, (d.run f m).2⟩ := by
  induction d generalizing m with
  | answer t => exact .refl
  | ask c next ih =>
    have hasked : Steps p ⟨.asking c, (id, next) :: ws, m⟩
        ⟨.telling (f c m).1, (id, next) :: ws, (f c m).2⟩ := hf c _ m hm
    have hon := ih (f c m).1 (m := (f c m).2) ((hgrows c m).computing.trans hm)
    exact .head rfl (hasked.trans (.head rfl hon))

/-- **An inquiry tells what the analysis finds**, whoever waits for it: the depth of the analysis
    leaves room for all computations that can be open. -/
theorem steps_typeWithin (hroom : p.Room depth m.computing) :
    Steps p ⟨.asking id, ws, m⟩
      ⟨.telling (p.typeWithin depth id m).1, ws, (p.typeWithin depth id m).2⟩ := by
  induction depth generalizing id ws m with
  | zero => exact absurd hroom.pos (Nat.lt_irrefl 0)
  | succ depth ih =>
    cases hget : m.types.get? id with
    | some t =>
      rw [Program.typeWithin_known hget]
      exact .single (step_known hget)
    | none =>
      by_cases hid : id ∈ m.computing
      · rw [Program.typeWithin_listed hget hid]
        exact .single (step_listed hget hid)
      · rw [Program.typeWithin_compute hget hid, ← Program.run_dialogue]
        refine .head (step_open hget hid) ?_
        cases hn : p.node? id with
        | none =>
          rw [Program.dialogue_of_none hn]
          exact .single rfl
        | some n =>
          exact (steps_computing (fun c ws m' hm' => ih (hm' ▸ hroom.cons hid hn))
            (Program.grows_typeWithin depth) (p.dialogue id) rfl).tail rfl

end Inquiry

/-! ## Typing ends -/

namespace Program

open Inquiry

/-- The question for the type of a node, asked of a context that knows `m`, comes to an end. -/
structure Ends (p : Program) (m : Memo) (id : NodeId) : Prop where
  /-- Whatever was done so far, the inquiry goes on until the type is told, and nobody waits for
      an answer any more. -/
  returns : ∀ s, Steps p (start id m) s →
    Steps p s ⟨.telling (p.typeOf id m).1, [], (p.typeOf id m).2⟩
  /-- On the way at most one computation is open for each node. -/
  once : ∀ s, Steps p (start id m) s → s.opened.Nodup ∧ s.memo.computing = s.opened
  /-- Afterwards no type is being computed. -/
  idle : (p.typeOf id m).2.computing = []
  /-- The type is remembered. -/
  remembered : (p.typeOf id m).2.types.get? id = some (p.typeOf id m).1
  /-- The types that the program writes down are read by descent to the type inputs. -/
  written : ∀ x, p.typeGiven x = p.typeGivenBy p.typeGiven x
  /-- Names are looked up along the whole chain of parents. -/
  upward : ∀ x, p.tree.ancestors x =
    match p.tree.parent? x with
    | none => []
    | some y => y :: p.tree.ancestors y

/-- **Typing ends on every program** over an acyclic arena, recursive as its definitions may be,
    and after whatever queries. -/
theorem ends_typeOf {p : Program} {root : NodeId} {detached : List NodeId} {m : Memo}
    (h : p.arena.Acyclic) (htree : p.tree = .ofRoots p.arena root detached) (hm : p.Queried m)
    (id : NodeId) : p.Ends m id where
  returns s hs := by
    have hroom := p.room_nil
    rw [← hm.idle] at hroom
    exact (steps_typeWithin hroom).onward hs
  once s hs := by
    have hs := hs.orderly (orderly_start hm.idle)
    exact ⟨hs.once, hs.listed⟩
  idle := (grows_typeOf id m).computing.trans hm.idle
  remembered := get?_typeOf hm.idle id
  written := typeGiven_eq h
  upward := by
    rw [htree]
    exact Tree.ancestors_ofRoots h root detached

/-! ## Functions that call each other -/

/-- A structure with two functions whose values are those of each other. -/
def parity : Program :=
  .built (do
    let even ← Build.function "even" [] none (← Build.evaluate (← Build.reference "odd") [])
    let odd ← Build.function "odd" [] none (← Build.evaluate (← Build.reference "even") [])
    Build.program [] [← Build.structureDef "parity" [] [] [even, odd]]) none

/-- After a search for a stream, the call in `even` is asked for its type. -/
theorem ends_parity :
    parity.arena.Acyclic ∧
      parity.Queried ((Query.dependsOnStream ⟨109⟩).ask parity .empty).2 ∧
      parity.Ends ((Query.dependsOnStream ⟨109⟩).ask parity .empty).2 ⟨109⟩ := by
  have hacyclic : parity.arena.Acyclic := Arena.acyclic_of_all (by decide +kernel)
  obtain ⟨detached, htree⟩ := tree_built _ none
  have hqueried := Queried.next (.fresh (p := parity)) (.dependsOnStream ⟨109⟩)
  exact ⟨hacyclic, hqueried, ends_typeOf hacyclic htree hqueried ⟨109⟩⟩

/-- The computation comes back to the call, which is of no known type then. -/
example : (parity.typeOf ⟨109⟩ .empty).1 = .unknown := by decide +kernel

end Program

end Arbor
