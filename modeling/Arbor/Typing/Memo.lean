/-
  The memo of the static analysis.

  Types and stream dependence are computed once per node and remembered for as
  long as one version of a program is looked at.  While the type of a node is
  being computed, the node is listed as open, and asking for its type again
  means that a definition depends on itself.
-/
import Arbor.Node.Map
import Arbor.Ty.Basic

namespace Arbor

/-- What is already known about the nodes of a program. -/
structure Memo where
  /-- The types that were computed. -/
  types : NodeMap Ty
  /-- The nodes whose types are being computed, innermost first. -/
  computing : List NodeId
  /-- Whether a node reads a stream, where that was asked. -/
  readsStream : NodeMap Bool
deriving Inhabited

namespace Memo

/-- Nothing is known. -/
def empty : Memo := ⟨.empty, [], .empty⟩

/-- Notes that the type of a node is being computed. -/
def enter (m : Memo) (id : NodeId) : Memo := { m with computing := id :: m.computing }

/-- Notes the type of a node, whose computation is over. -/
def leave (m : Memo) (id : NodeId) (t : Ty) : Memo :=
  { m with computing := m.computing.erase id, types := m.types.insert id t }

/-- Notes whether a node reads a stream. -/
def noteStream (m : Memo) (id : NodeId) (reads : Bool) : Memo :=
  { m with readsStream := m.readsStream.insert id reads }

end Memo

/-- An analysis that may use the memo and add to it. -/
abbrev Typing := StateM Memo

end Arbor
