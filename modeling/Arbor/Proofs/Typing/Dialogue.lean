/-
  Computations of types as dialogues.

  How the type of a node follows from other types is written for any monad in which these can
  be asked for.  In the monad of dialogues the questions are data: which node is asked for
  first, and what is done with the answer.  What a computation does in another monad is what
  its dialogue does there.

  * `Dialogue.run`: a dialogue in a monad that answers its questions;
  * `Program.dialogue`: the computation of the type of a node.

  Main statement: `run_dialogue`.
-/
import Arbor.Typing.Basic

namespace Arbor

/-- A computation that asks for the types of nodes, one after another, before it answers. -/
inductive Dialogue (α : Type) : Type where
  /-- No more questions. -/
  | answer (a : α)
  /-- The type of a node is asked for. -/
  | ask (id : NodeId) (next : Ty → Dialogue α)

namespace Dialogue

variable {α β γ : Type}

/-- Goes on from the answer. -/
def andThen : Dialogue α → (α → Dialogue β) → Dialogue β
  | answer a, f => f a
  | ask id next, f => ask id fun t => (next t).andThen f

instance : Monad Dialogue where
  pure := answer
  bind := andThen

theorem andThen_answer (d : Dialogue α) : d.andThen answer = d := by
  induction d with
  | answer a => rfl
  | ask id next ih => exact congrArg (ask id) (funext ih)

theorem andThen_assoc (d : Dialogue α) (f : α → Dialogue β) (g : β → Dialogue γ) :
    (d.andThen f).andThen g = d.andThen fun a => (f a).andThen g := by
  induction d with
  | answer a => rfl
  | ask id next ih => exact congrArg (ask id) (funext ih)

instance : LawfulMonad Dialogue :=
  LawfulMonad.mk' Dialogue andThen_answer (fun _ _ => rfl) andThen_assoc

/-- The question for the type of a node. -/
def askType (id : NodeId) : Dialogue Ty := ask id answer

section
variable {μ : Type → Type} [Monad μ] (typeOf : NodeId → μ Ty)

/-- The dialogue in a monad that answers its questions. -/
def run : Dialogue α → μ α
  | answer a => pure a
  | ask id next => do (next (← typeOf id)).run

variable [LawfulMonad μ]

theorem run_bind (d : Dialogue α) (f : α → Dialogue β) :
    (d >>= f).run typeOf = d.run typeOf >>= fun a => (f a).run typeOf := by
  induction d with
  | answer a => exact (pure_bind a fun a => (f a).run typeOf).symm
  | ask id next ih =>
    show (typeOf id >>= fun t => (next t >>= f).run typeOf) = _
    simp only [ih, run, bind_assoc]

theorem run_map (f : α → β) (d : Dialogue α) : (f <$> d).run typeOf = f <$> d.run typeOf := by
  rw [map_eq_pure_bind, run_bind, map_eq_pure_bind]
  rfl

theorem run_mapM (f : α → Dialogue β) (l : List α) :
    (l.mapM f).run typeOf = l.mapM fun a => (f a).run typeOf := by
  induction l with
  | nil => rfl
  | cons a l ih =>
    rw [List.mapM_cons, List.mapM_cons, run_bind]
    simp only [run_bind, ih]
    rfl

theorem run_foldlM (f : β → α → Dialogue β) (l : List α) (b : β) :
    (l.foldlM f b).run typeOf = l.foldlM (fun b a => (f b a).run typeOf) b := by
  induction l generalizing b with
  | nil => rfl
  | cons a l ih =>
    rw [List.foldlM_cons, List.foldlM_cons, run_bind]
    simp only [ih]

theorem run_askType (id : NodeId) : (askType id).run typeOf = typeOf id := bind_pure _

end

end Dialogue

namespace Program

open Dialogue

variable (p : Program)

/-- The computation of the type of a node, as a dialogue. -/
def dialogue (id : NodeId) : Dialogue Ty := p.computeTypeBy askType id

/-- A node that is not in the arena asks for nothing. -/
theorem dialogue_of_none {p : Program} {id : NodeId} (hn : p.node? id = none) :
    p.dialogue id = .answer .unknown := by
  unfold dialogue computeTypeBy
  rw [hn]
  rfl

/-! ## Computations in a monad -/

section
variable {p} {μ : Type → Type} [Monad μ] [LawfulMonad μ] (typeOf : NodeId → μ Ty)

theorem run_bindTypeBy (id : NodeId) :
    (p.bindTypeBy askType id).run typeOf = p.bindTypeBy typeOf id := by
  unfold bindTypeBy
  split
  · rfl
  · exact run_askType typeOf _
  · rfl

theorem run_definitionTypeBy (d : Definition) :
    (p.definitionTypeBy askType d).run typeOf = p.definitionTypeBy typeOf d := by
  cases d with
  | bind id => exact run_bindTypeBy typeOf id
  | _ => rfl

theorem run_outputBy (id : NodeId) :
    (p.outputBy askType id).run typeOf = p.outputBy typeOf id := by
  unfold outputBy
  split
  · rfl
  · exact run_askType typeOf _
  · rfl

theorem run_inferBy (id : NodeId) (args : List Ty) :
    (p.inferBy askType id args).run typeOf = p.inferBy typeOf id args := by
  unfold inferBy
  rw [run_foldlM]
  congr 1
  funext bindings c
  rw [run_bind, run_bindTypeBy]
  congr 1
  funext t
  split
  · split
    · rfl
    · rfl
  · rfl

theorem run_outputTypeBy (id : NodeId) (receiver : Option Ty) (args : List Ty) :
    (p.outputTypeBy askType id receiver args).run typeOf =
      p.outputTypeBy typeOf id receiver args := by
  unfold outputTypeBy
  simp only [run_bind, run_inferBy, run_outputBy]
  rfl

theorem run_receiverTypeBy (id : NodeId) :
    (p.receiverTypeBy askType id).run typeOf = p.receiverTypeBy typeOf id := by
  unfold receiverTypeBy
  split
  · rw [run_map, run_askType]
  · rfl

theorem run_instanceTypeBy (id : NodeId) (args : List Ty) :
    (p.instanceTypeBy askType id args).run typeOf = p.instanceTypeBy typeOf id args := by
  unfold instanceTypeBy
  rw [run_bind, run_inferBy]
  rfl

/-- **A computation is its dialogue**: in any monad that answers questions for types, the type
    of a node is computed by its dialogue. -/
theorem run_dialogue (id : NodeId) : (p.dialogue id).run typeOf = p.computeTypeBy typeOf id := by
  unfold dialogue computeTypeBy
  split
  · rfl
  · rfl
  · rfl
  · split
    · exact run_definitionTypeBy typeOf _
    · split
      · rfl
      · rfl
  · rw [run_bind, run_askType]
    congr 1
    funext t
    split
    · rw [run_bind, run_definitionTypeBy]
      rfl
    · rfl
  · rw [run_bind, run_askType]
    congr 1
    funext t
    split
    · simp only [run_bind, run_askType, run_outputTypeBy]
    · rfl
  · simp only [run_bind, run_askType]
    rfl
  · simp only [run_bind, run_mapM, run_askType]
    congr 1
    funext args
    congr 1
    funext t
    split
    · simp only [run_bind, run_receiverTypeBy, run_outputTypeBy]
    · exact run_instanceTypeBy typeOf _ _
    · rfl
  · split
    · exact run_askType typeOf _
    · rfl
  · exact run_bindTypeBy typeOf id
  · exact run_askType typeOf _
  · split
    · rfl
    · exact run_definitionTypeBy typeOf _
    · rfl
  · rfl
  · rfl
  · rfl
  · split
    · rfl
    · rfl
  · rfl

end

end Program

end Arbor
