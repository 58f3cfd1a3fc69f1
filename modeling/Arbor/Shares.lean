/-
  Shares: structures and streams registered outside the program.

  A program reaches a share only by borrowing its name.  Streams are numbered in
  the order in which they were registered; a later share of the same name takes
  the name over, and an earlier stream keeps its number.
-/
import Arbor.Name
import Arbor.Table
import Arbor.Ty.Basic

namespace Arbor

/-- A registered stream, by the number of streams registered before it. -/
structure StreamId where
  /-- The number itself. -/
  index : Nat
deriving DecidableEq, Repr, Inhabited

/-- A source of values that change over time. -/
structure StreamInfo where
  /-- The name under which it was registered. -/
  name : Name
  /-- The type of its values. -/
  type : Ty
deriving Repr

/-- What a name is shared as. -/
inductive Share where
  /-- A structure, by its definition in the arena of the program. -/
  | structureDef (definition : NodeId)
  /-- A stream. -/
  | stream (id : StreamId)
deriving DecidableEq, Repr

/-- All shares. -/
structure Shares where
  /-- What each name is shared as. -/
  entries : Table Name Share
  /-- The streams in the order of their numbers. -/
  streams : List StreamInfo
deriving Inhabited

namespace Shares

/-- No shares. -/
def empty : Shares := ⟨.empty, []⟩

/-- Shares a structure. -/
def shareStructure (s : Shares) (n : Name) (definition : NodeId) : Shares :=
  { s with entries := s.entries.insert n (.structureDef definition) }

/-- Shares a stream, which gets the next number. -/
def shareStream (s : Shares) (n : Name) (type : Ty) : StreamId × Shares :=
  let id : StreamId := ⟨s.streams.length⟩
  (id, ⟨s.entries.insert n (.stream id), s.streams ++ [⟨n, type⟩]⟩)

/-- What a name is shared as. -/
def get? (s : Shares) (n : Name) : Option Share := s.entries.get? n

/-- What was registered with a stream. -/
def stream? (s : Shares) (id : StreamId) : Option StreamInfo := s.streams[id.index]?

/-- The stream that a name is shared as. -/
def streamNamed? (s : Shares) (n : Name) : Option StreamId :=
  match s.get? n with
  | some (.stream id) => some id
  | _ => none

/-- The shared structures, in the order in which their names were shared. -/
def structures (s : Shares) : List NodeId :=
  s.entries.entries.filterMap fun
    | (_, .structureDef d) => some d
    | (_, .stream _) => none

end Shares

end Arbor
