/-
  Where reports are written.

  A sink takes characters until its room, counted in bytes of UTF-8, is used up.
  What does not fit is cut off, and the write that it belongs to fails; a
  character that is cut in the middle shows as the replacement character.
-/

namespace Arbor

/-- A place to write to. -/
structure Sink where
  /-- What was written. -/
  written : String
  /-- The bytes that can still be written, if they are limited. -/
  room : Option Nat
deriving DecidableEq, Repr

namespace Sink

/-- A sink to which nothing was written. -/
def ofRoom (room : Option Nat) : Sink := ⟨"", room⟩

/-- The characters of a text that fit in a number of bytes. -/
def fitting (room : Nat) : List Char → List Char
  | [] => []
  | c :: cs =>
    if c.utf8Size ≤ room then c :: fitting (room - c.utf8Size) cs
    else if 0 < room then ['\ufffd'] else []

/-- Writes a text, and says whether all of it was written. -/
def write (s : Sink) (text : String) : Bool × Sink :=
  match s.room with
  | none => (true, { s with written := s.written ++ text })
  | some room =>
    if text.utf8ByteSize ≤ room then
      (true, ⟨s.written ++ text, some (room - text.utf8ByteSize)⟩)
    else
      (false, ⟨s.written ++ String.ofList (fitting room text.toList), some 0⟩)

end Sink

end Arbor
