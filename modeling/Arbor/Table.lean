/-
  Finite tables.

  A `Table κ α` is a finite map that keeps its keys in the order in which they
  were first inserted; scopes, streams and shares are tables.

  * `get?`, `insert` and `size` are the operations; inserting under a key that is
    present replaces the value and keeps the key's place;
  * `get?_insert` is the law of insertion, and `size_insert` counts the keys.
-/

namespace Arbor

/-- A finite map listed in the order of first insertion. -/
structure Table (κ α : Type) where
  /-- The keys with their values. -/
  entries : List (κ × α)
deriving Repr

namespace Table

variable {κ α : Type} [DecidableEq κ]

/-- The table without keys. -/
def empty : Table κ α := ⟨[]⟩

instance : Inhabited (Table κ α) := ⟨empty⟩

/-- Looks a key up in a list of entries. -/
def find? (k : κ) : List (κ × α) → Option α
  | [] => none
  | (k', a) :: rest => if k' = k then some a else find? k rest

/-- Puts a value under a key of a list of entries, at the end if the key is new. -/
def put (k : κ) (a : α) : List (κ × α) → List (κ × α)
  | [] => [(k, a)]
  | (k', a') :: rest => if k' = k then (k, a) :: rest else (k', a') :: put k a rest

/-- The value stored under a key. -/
def get? (t : Table κ α) (k : κ) : Option α := find? k t.entries

/-- Stores a value under a key, in place of what was there. -/
def insert (t : Table κ α) (k : κ) (a : α) : Table κ α := ⟨put k a t.entries⟩

/-- The number of keys. -/
def size (t : Table κ α) : Nat := t.entries.length

/-! ## Laws -/

theorem find?_put (k : κ) (a : α) (l : List (κ × α)) (k' : κ) :
    find? k' (put k a l) = if k = k' then some a else find? k' l := by
  induction l with
  | nil => simp [put, find?]
  | cons e rest ih =>
    obtain ⟨c, b⟩ := e
    by_cases hc : c = k <;> by_cases hk : k = k' <;> simp_all [put, find?]

@[simp] theorem get?_empty (k : κ) : (empty : Table κ α).get? k = none := rfl

/-- A stored value is read back under its key, and no other key is touched. -/
@[simp] theorem get?_insert (t : Table κ α) (k : κ) (a : α) (k' : κ) :
    (t.insert k a).get? k' = if k = k' then some a else t.get? k' :=
  find?_put k a t.entries k'

theorem length_put (k : κ) (a : α) (l : List (κ × α)) :
    (put k a l).length = if (find? k l).isSome then l.length else l.length + 1 := by
  induction l with
  | nil => simp [put, find?]
  | cons e rest ih =>
    obtain ⟨c, b⟩ := e
    by_cases hc : c = k
    · simp [put, find?, hc]
    · simp only [put, find?, hc, if_false, List.length_cons, ih]
      split <;> rfl

/-- Only a new key makes a table longer. -/
theorem size_insert (t : Table κ α) (k : κ) (a : α) :
    (t.insert k a).size = if (t.get? k).isSome then t.size else t.size + 1 :=
  length_put k a t.entries

end Table

end Arbor
