/-
  Demo programs.

  There is no reader for program texts, so the demos are built node by node; each
  of them shows one part of the whole.  Their texts are only shown.
-/
import Arbor.Session

namespace Arbor

/-- A program to show something with. -/
structure Demo where
  /-- What the demo is called. -/
  name : String
  /-- The lines of its text. -/
  lines : List String
  /-- The values of the stream `time` after the first run, by their bits. -/
  inputs : List UInt64
  /-- Whether the program is run in spite of fatal conflicts. -/
  allowConflicts : Bool
  /-- The streams that are shared with the program, with their types. -/
  streams : List (String × Ty)
  /-- Builds the program. -/
  build : Build NodeId

namespace Demo

open Build

/-- The bits of a small whole number. -/
def bitsOf (n : Nat) : UInt64 := n.toFloat.toBits

/-- A whole number. -/
def whole (n : Nat) : Build NodeId := number (bitsOf n)

/-- A sum that is compared. -/
def arithmetic : Build NodeId := do
  let sum ← binary (← whole 1) "+" (← whole 2)
  let equal ← binary sum "=" (← whole 3)
  program [] [equal]

/-- A right operand that would fail is skipped. -/
def shortCircuit : Build NodeId := do
  let no ← boolean false
  let division ← binary (← whole 1) "/" (← whole 0)
  let both ← binary no "&" division
  program [] [both]

/-- A function that calls itself. -/
def factorial : Build NodeId := do
  let n ← input "n" (← numberType)
  let condition ← binary (← reference "n") "<" (← whole 2)
  let one ← whole 1
  let factor ← reference "n"
  let f ← reference "factorial"
  let previous ← binary (← reference "n") "-" (← whole 1)
  let recurse ← evaluate f [previous]
  let product ← binary factor "*" recurse
  let body ← conditional condition one product
  let output ← numberType
  let definition ← function "factorial" [n] (some output) body
  let callee ← reference "factorial"
  let call ← evaluate callee [← whole 6]
  program [] [definition, call]

/-- The interface of shapes: an area. -/
def shapeInterface : Build NodeId := do
  let area ← abstractFunction "area" [] (some (← numberType))
  structureDef "Shape" [] [] [area]

/-- A product of names. -/
def productOf : List String → Build NodeId
  | [] => whole 0
  | first :: rest => do
    rest.foldlM (fun left factor => do binary left "*" (← reference factor)) (← reference first)

/-- A shape whose area is the product of the factors. -/
def shape (name : String) (inputs factors : List String) : Build NodeId := do
  let declared ← inputs.mapM fun s => do input s (← numberType)
  let body ← productOf factors
  let output ← numberType
  let area ← function "area" [] (some output) body
  structureDef name ["Shape"] declared [area]

/-- Structures that implement an interface, and a function that takes both. -/
def shapes : Build NodeId := do
  let interface ← shapeInterface
  let square ← shape "Square" ["side"] ["side", "side"]
  let rectangle ← shape "Rectangle" ["width", "height"] ["width", "height"]
  let parameters ← ["a", "b"].mapM fun s => do input s (← nameType "Shape" [])
  let first ← evaluate (← property (← reference "a") "area") []
  let second ← evaluate (← property (← reference "b") "area") []
  let total ← function "total" parameters none (← binary first "+" second)
  let makeSquare ← reference "Square"
  let squareValue ← evaluate makeSquare [← whole 3]
  let makeRectangle ← reference "Rectangle"
  let width ← whole 2
  let height ← whole 5
  let rectangleValue ← evaluate makeRectangle [width, height]
  let callee ← reference "total"
  let call ← evaluate callee [squareValue, rectangleValue]
  program [] [interface, square, rectangle, total, call]

/-- A function that calls itself without end. -/
def overflow : Build NodeId := do
  let n ← input "n" (← numberType)
  let f ← reference "forever"
  let next ← binary (← reference "n") "+" (← whole 1)
  let body ← evaluate f [next]
  let output ← numberType
  let definition ← function "forever" [n] (some output) body
  let callee ← reference "forever"
  let call ← evaluate callee [← whole 0]
  program [] [definition, call]

/-- A program that depends on a stream. -/
def clock : Build NodeId := do
  let time ← borrow "time"
  let product ← binary (← whole 60) "*" (← whole 60)
  let hour ← bind "hour" none (some product)
  let sum ← binary (← reference "time") "+" (← reference "hour")
  program [time] [hour, sum]

/-- A structure that owes a function to its interface. -/
def unimplemented : Build NodeId := do
  let interface ← shapeInterface
  let radius ← input "radius" (← numberType)
  let doubled ← binary (← reference "radius") "*" (← whole 2)
  let output ← numberType
  let diameter ← function "diameter" [] (some output) doubled
  let circle ← structureDef "Circle" ["Shape"] [radius] [diameter]
  let make ← reference "Circle"
  let made ← evaluate make [← whole 1]
  let call ← evaluate (← property made "diameter") []
  program [] [interface, circle, call]

/-- All demos. -/
def all : List Demo := [
  { name := "arithmetic"
    lines := ["1 + 2 = 3"]
    inputs := []
    allowConflicts := false
    streams := []
    build := arithmetic },
  { name := "short-circuit"
    lines := ["false & (1 / 0)"]
    inputs := []
    allowConflicts := true
    streams := []
    build := shortCircuit },
  { name := "factorial"
    lines := ["factorial(n: number): number = n < 2 ? 1 : n * factorial(n - 1)", "factorial(6)"]
    inputs := []
    allowConflicts := false
    streams := []
    build := factorial },
  { name := "shapes"
    lines := [
      "Shape \x7b area(): number \x7d",
      "Square(side: number) is Shape \x7b area(): number = side * side \x7d",
      "Rectangle(width: number, height: number) is Shape \x7b area(): number = width * height \x7d",
      "total(a: Shape, b: Shape) = a.area() + b.area()",
      "total(Square(3), Rectangle(2, 5))"]
    inputs := []
    allowConflicts := false
    streams := []
    build := shapes },
  { name := "overflow"
    lines := ["forever(n: number): number = forever(n + 1)", "forever(0)"]
    inputs := []
    allowConflicts := false
    streams := []
    build := overflow },
  { name := "clock"
    lines := ["borrow time", "hour: 60 * 60", "time + hour"]
    inputs := [bitsOf 1, bitsOf 2, bitsOf 3]
    allowConflicts := false
    streams := [("time", .primitive .number)]
    build := clock },
  { name := "unimplemented"
    lines := [
      "Shape \x7b area(): number \x7d",
      "Circle(radius: number) is Shape \x7b diameter(): number = radius * 2 \x7d",
      "Circle(1).diameter()"]
    inputs := []
    allowConflicts := false
    streams := []
    build := unimplemented }]

/-- The demo with a name. -/
def find? (name : String) : Option Demo := all.find? (·.name == name)

/-- The text of a demo. -/
def source (d : Demo) : String := "\n".intercalate d.lines

/-- A session that holds the program of a demo. -/
def load (d : Demo) (settings : Settings) : Session :=
  let session := Session.ofSettings
    { settings with allowConflicts := settings.allowConflicts || d.allowConflicts }
  let session := d.streams.foldl (fun s (name, type) => (s.shareStream name type).2) session
  match session.build d.build with
  | .ok (_, session) => session
  | .error _ => session

end Demo

end Arbor
