/-
  The interner: texts in the order in which they were first seen.

  A table gives the name of each text, and an array the text of each name; both
  grow together, by one text at a time.

  * `intern` gives the name of a text and adds the text if it is new, `find?`
    gives the name without adding, and `lookup` reads the text back;
  * the interner starts with the texts of the reserved names.
-/
import Arbor.Name
import Arbor.Table

namespace Arbor

/-- Texts with their names. -/
structure Interner where
  /-- The name of each text. -/
  names : Table String Name
  /-- The text of each name. -/
  strings : Array String
deriving Repr

namespace Interner

/-- The interner without texts. -/
def empty : Interner := ⟨.empty, #[]⟩

/-- Adds a text under the next number. -/
def add (i : Interner) (s : String) : Interner :=
  ⟨i.names.insert s ⟨i.strings.size⟩, i.strings.push s⟩

/-- An interner that holds the reserved names only. -/
def initial : Interner := Name.reserved.foldl add empty

instance : Inhabited Interner := ⟨initial⟩

/-- The name of a text that is already interned. -/
def find? (i : Interner) (s : String) : Option Name := i.names.get? s

/-- The name of a text, which is added at the end if it is new. -/
def intern (i : Interner) (s : String) : Name × Interner :=
  match i.find? s with
  | some n => (n, i)
  | none => (⟨i.strings.size⟩, i.add s)

/-- The text of a name; a name that was never issued reads as the empty text. -/
def lookup (i : Interner) (n : Name) : String := i.strings.getD n.index ""

/-- The number of interned texts, the reserved ones included. -/
def size (i : Interner) : Nat := i.strings.size

/-- Whether nothing but the reserved names is interned. -/
def isInitial (i : Interner) : Bool := i.size ≤ Name.reserved.length

/-- The technical form of an interner, which shows its size. -/
def debug (i : Interner) : String :=
  String.join ["StringInterner \x7b len: ", toString i.size, " \x7d"]

end Interner

end Arbor
