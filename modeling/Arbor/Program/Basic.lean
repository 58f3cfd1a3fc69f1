/-
  Programs.

  A `Program` is one version of a program together with everything that gives
  its nodes a meaning: the arena and the names, the basis, the shares, and the
  tree of the version.

  * `names`, `primaryName?` and `hasName` read the aliases of a definition,
    `statements`, `inputs` and `typeVariables` its parts;
  * `Definition` is what a name can stand for, and `classify` says what a node
    defines.
-/
import Arbor.Basis
import Arbor.Shares
import Arbor.Tree

namespace Arbor

/-- One version of a program with its surroundings. -/
structure Program where
  /-- The nodes. -/
  arena : Arena
  /-- The names. -/
  interner : Interner
  /-- The primitive methods. -/
  basis : Basis
  /-- The shares, if there are any to borrow from. -/
  shares : Option Shares
  /-- The version. -/
  tree : Tree

/-- What a name stands for. -/
inductive Definition where
  /-- A named value or an input. -/
  | bind (id : NodeId)
  /-- A function. -/
  | function (id : NodeId)
  /-- A structure. -/
  | structureDef (id : NodeId)
  /-- A type variable. -/
  | typeVariable (id : NodeId)
  /-- A stream. -/
  | stream (id : StreamId)
deriving DecidableEq, Repr

/-- The defining node; streams have none. -/
def Definition.node? : Definition → Option NodeId
  | bind id | function id | structureDef id | typeVariable id => some id
  | stream _ => none

namespace Program

/-- Reads the version below `root`; the basis and the shared structures are
    detached from it. -/
def ofRoot (f : Forest) (basis : Basis) (shares : Option Shares) (root : NodeId) : Program where
  arena := f.arena
  interner := f.interner
  basis := basis
  shares := shares
  tree := .ofRoots f.arena root (basis.roots ++ shares.elim [] Shares.structures)

variable (p : Program)

/-- The root of the program. -/
def root : NodeId := p.tree.root

/-- The node with an id. -/
def node? (id : NodeId) : Option Node := p.arena.node? id

/-- The text of a name. -/
def textOf (n : Name) : String := p.interner.lookup n

/-- What a name is shared as. -/
def share? (n : Name) : Option Share := p.shares.bind (·.get? n)

/-- The stream that a name is shared as. -/
def streamNamed? (n : Name) : Option StreamId := p.shares.bind (·.streamNamed? n)

/-! ## Names of definitions -/

/-- The aliases of a definition. -/
def names (id : NodeId) : List Name :=
  match (p.node? id).bind Node.definitionNames? with
  | none => []
  | some ns =>
    match p.node? ns with
    | some (.names aliases) => (p.arena.list aliases).filterMap fun a =>
        match p.node? a with
        | some (.aliasName n _) => some n
        | _ => none
    | _ => []

/-- The first alias of a definition. -/
def primaryName? (id : NodeId) : Option Name := (p.names id).head?

/-- Whether a name is an alias of a definition. -/
def hasName (id : NodeId) (n : Name) : Bool := n ∈ p.names id

/-- The text of the first alias of a definition, or another text if it has none. -/
def nameText (id : NodeId) (otherwise : String) : String :=
  (p.primaryName? id).elim otherwise p.textOf

/-- The name by which a node refers to what it calls. -/
def calledName? (function : NodeId) : Option Name :=
  match p.node? function with
  | some (.reference n) | some (.propertyReference _ n) => some n
  | _ => none

/-! ## Parts of definitions -/

/-- What a node defines. -/
def classify (id : NodeId) : Option Definition :=
  match p.node? id with
  | some (.bind ..) => some (.bind id)
  | some (.functionDefinition ..) => some (.function id)
  | some (.structureDefinition ..) => some (.structureDef id)
  | some (.typeVariable ..) => some (.typeVariable id)
  | _ => none

/-- The child list of the statements of the block of a structure. -/
def statementList (id : NodeId) : NodeRange :=
  match p.node? id with
  | some (.structureDefinition _ _ _ _ (some body)) =>
    match p.node? body with
    | some (.block ss) => ss
    | _ => .empty
  | _ => .empty

/-- The child list of the inputs of a function or structure. -/
def inputList (id : NodeId) : NodeRange :=
  match p.node? id with
  | some (.functionDefinition _ _ is _ _) | some (.structureDefinition _ _ _ is _) => is
  | _ => .empty

/-- The statements of the block of a structure. -/
def statements (id : NodeId) : List NodeId := p.arena.list (p.statementList id)

/-- The inputs of a function or structure. -/
def inputs (id : NodeId) : List NodeId := p.arena.list (p.inputList id)

/-- The type variables of a function or structure. -/
def typeVariables (id : NodeId) : List NodeId :=
  match p.node? id with
  | some (.functionDefinition _ vs _ _ _) | some (.structureDefinition _ _ vs _ _) =>
    p.arena.list vs
  | _ => []

/-- Whether an input must be given, having no default. -/
def isRequired (input : NodeId) : Bool :=
  match p.node? input with
  | some (.bind _ _ none) => true
  | _ => false

/-- The functions without a body of a structure. -/
def abstractFunctions (id : NodeId) : List NodeId :=
  (p.statements id).filter fun s => (p.node? s).any Node.isAbstractFunction

/-- The functions with a body of a structure. -/
def implementedFunctions (id : NodeId) : List NodeId :=
  (p.statements id).filter fun s => (p.node? s).any Node.isImplementedFunction

/-- Whether the node is a structure without inputs and implemented functions. -/
def isInterface (id : NodeId) : Bool :=
  (p.node? id).any Node.isStructureDefinition && (p.inputs id).isEmpty &&
    (p.implementedFunctions id).isEmpty

end Program

end Arbor
