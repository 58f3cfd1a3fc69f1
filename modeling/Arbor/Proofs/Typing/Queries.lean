/-
  Queries.

  A context answers queries about one version of a program, one after another, and remembers
  what it finds out.  Every query is made of questions for types, so it does to the memo what
  those do; only the query for a stream notes something more.

  * `Query.ask`: the analysis that answers a query;
  * `Program.Queried p m`: the memo `m` is what a context knows after some queries.

  Main statement: `Queried.idle`, between queries no type is being computed.
-/
import Arbor.Proofs.Typing.Analyses

namespace Arbor

/-- What a context is asked. -/
inductive Query where
  /-- The type of a node. -/
  | type (id : NodeId)
  /-- The type of a named value. -/
  | bindType (id : NodeId)
  /-- The type of what a name stands for. -/
  | definitionType (d : Definition)
  /-- The type of a call. -/
  | outputType (function : NodeId) (receiver : Option Ty) (args : List Ty)
  /-- The type that a call expects at one of its inputs. -/
  | inputType (definition : NodeId) (index : Nat) (receiver : Option Ty) (args : List Ty)
  /-- Whether one type accepts another. -/
  | accepts (expected given : Ty)
  /-- Whether one function can stand in for another. -/
  | compatible (expected given : NodeId)
  /-- Whether one function implements another. -/
  | implementsFunction (implementation function : NodeId)
  /-- The conflicts of a node. -/
  | conflicts (id : NodeId)
  /-- The conflicts of the program. -/
  | check
  /-- Whether evaluating a node can read a stream. -/
  | dependsOnStream (id : NodeId)

/-- What a context answers. -/
inductive Reply where
  | type (t : Ty)
  | flag (b : Bool)
  | conflicts (cs : List Conflict)

/-- The analysis that answers a query. -/
def Query.ask (p : Program) : Query → Typing Reply
  | type id => .type <$> p.typeOf id
  | bindType id => .type <$> p.bindType id
  | definitionType d => .type <$> p.definitionType d
  | outputType f receiver args => .type <$> p.outputType f receiver args
  | inputType d index receiver args => .type <$> p.inputType d index receiver args
  | accepts expected given => .flag <$> p.accepts expected given
  | compatible expected given => .flag <$> p.functionsCompatible expected given
  | implementsFunction f g => .flag <$> p.implementsFunction f g
  | conflicts id => .conflicts <$> p.conflictsOf id
  | check => .conflicts <$> p.check
  | dependsOnStream id => .flag <$> p.dependsOnStream id

namespace Typing.Compositional

variable {P : ∀ α : Type, Typing α → Prop} (hP : Compositional P) {p : Program}
include hP

/-- The answer to a query, from the types of nodes. -/
theorem ask (h : ∀ id, P Ty (p.typeOf id)) (q : Query)
    (hstream : ∀ id, q = .dependsOnStream id → P Bool (p.dependsOnStream id)) :
    P Reply (q.ask p) := by
  cases q with
  | type id => exact hP.map (h id)
  | bindType id => exact hP.map (hP.bindTypeBy h id)
  | definitionType d => exact hP.map (hP.definitionTypeBy h d)
  | outputType f receiver args => exact hP.map (hP.outputTypeBy h f receiver args)
  | inputType d index receiver args => exact hP.map (hP.inputTypeBy h d index receiver args)
  | accepts expected given => exact hP.map (hP.accepts h expected given)
  | compatible expected given => exact hP.map (hP.functionsCompatible h expected given)
  | implementsFunction f g => exact hP.map (hP.implementsFunction h f g)
  | conflicts id => exact hP.map (hP.conflictsOf h id)
  | check => exact hP.map (hP.check h)
  | dependsOnStream id => exact hP.map (hstream id rfl)

end Typing.Compositional

namespace Program

variable {p : Program} {m : Memo}

/-- Queries for streams only add to a memo. -/
theorem grows_dependsOnStream (id : NodeId) : (p.dependsOnStream id).Keeps Memo.Grows := by
  intro m
  cases hknown : m.readsStream.get? id with
  | some b =>
    rw [dependsOnStream_known hknown]
    exact .refl m
  | none =>
    rw [dependsOnStream_search hknown]
    have hsearch := compositional_grows.searchStream (p := p) grows_typeOf (p.arena.size + 1) id
      .empty m
    exact ⟨hsearch.types, hsearch.computing⟩

/-- Queries only add to a memo. -/
theorem grows_ask (q : Query) : (q.ask p).Keeps Memo.Grows :=
  compositional_grows.ask grows_typeOf q fun id _ => grows_dependsOnStream id

/-- What a context knows after queries, one after another. -/
inductive Queried (p : Program) : Memo → Prop
  /-- At first nothing is known. -/
  | fresh : Queried p .empty
  /-- Another query was answered. -/
  | next {m : Memo} (hm : Queried p m) (q : Query) : Queried p (q.ask p m).2

/-- **Between queries** no type is being computed. -/
theorem Queried.idle (h : p.Queried m) : m.computing = [] := by
  induction h with
  | fresh => rfl
  | next _ q ih => exact (grows_ask q _).computing.trans ih

end Program

end Arbor
