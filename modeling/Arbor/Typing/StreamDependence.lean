/-
  Stream dependence: whether evaluating a node can read a stream.

  A node reads a stream if it is the use of one, or if it leads to such a node:
  to its children, to the definition that its name stands for, or to the
  function of its operator.

  * `searchStream` walks depth first and visits each node once;
  * `dependsOnStream` remembers its answers.
-/
import Arbor.Typing.Basic

namespace Arbor.Program

variable (p : Program)

/-- Where the evaluation of a node leads besides its children: a stream, a node,
    or nothing. -/
inductive Lead where
  /-- It reads a stream. -/
  | stream
  /-- It leads to a definition. -/
  | node (id : NodeId)
  /-- It leads nowhere. -/
  | nowhere
deriving DecidableEq, Repr

/-- Where a definition leads. -/
def leadOfDefinition : Option Definition → Lead
  | some d => d.node?.elim .stream .node
  | none => .nowhere

/-- Where a node leads besides its children. -/
def lead (id : NodeId) : Typing Lead :=
  match p.node? id with
  | some (.reference n) => return leadOfDefinition (p.resolve n id)
  | some (.borrow n) => return if (p.streamNamed? n).isSome then .stream else .nowhere
  | some (.propertyReference receiver n) =>
    return leadOfDefinition (p.definitionInType (← p.typeOf receiver) n)
  | some (.binaryOperation left op _) =>
    return (p.operatorFunction (← p.typeOf left) op).elim .nowhere .node
  | _ => return .nowhere

/-- A search that remembers the nodes it visited. -/
abbrev Search := StateT NodeSet Typing

/-- Whether a stream is found from one of several nodes. -/
def searchAny (search : NodeId → Search Bool) : List NodeId → Search Bool
  | [] => return false
  | id :: ids => do if ← search id then return true else searchAny search ids

/-- Whether a stream is found from a node that was not visited, on paths of at
    most `depth` nodes. -/
def searchStream : Nat → NodeId → Search Bool
  | 0, _ => return false
  | depth + 1, id => do
    if (← get).contains id then
      return false
    modify (·.insert id ())
    let through ← match ← p.lead id with
      | .stream => pure true
      | .node m => searchStream depth m
      | .nowhere => pure false
    if through then
      return true
    searchAny (searchStream depth) (p.arena.children id)

/-- Whether evaluating a node can read a stream. -/
def dependsOnStream (id : NodeId) : Typing Bool := do
  match (← get).readsStream.get? id with
  | some known => return known
  | none =>
    let (reads, _) ← (p.searchStream (p.arena.size + 1) id).run .empty
    modify (·.noteStream id reads)
    return reads

end Arbor.Program
