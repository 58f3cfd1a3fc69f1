/-
  Acceptance: when a value of one type can be used where another is expected.

  * the unknown type accepts and is accepted by everything, and a type variable
    accepts everything;
  * a union is accepted when each of its members is, and accepts what one of its
    members accepts;
  * a structure accepts its own instances, with arguments that are accepted in
    their places, and those of the structures that implement it;
  * a function accepts another whose signature is compatible: as many inputs,
    and inputs and values that are accepted in pairs.

  Functions can take functions, so acceptance and compatibility depend on each
  other; comparisons inside each other are of different pairs of functions, and a
  pair that comes back inside its own comparison is not compatible.
-/
import Arbor.Typing.Basic

namespace Arbor.Program

variable (p : Program)

section
variable (compatible : NodeId → NodeId → Typing Bool)

mutual

/-- Whether the first type accepts the second, given when two functions are
    compatible. -/
def acceptsBy : Ty → Ty → Typing Bool
  | .unknown, _ => return true
  | _, .unknown => return true
  | .never, given => return given = .never
  | _, .never => return true
  | .typeVar _, _ => return true
  | expected, .union members => acceptsEachBy expected members
  | .union members, given => acceptsInSomeBy members given
  | .primitive q, .primitive r => return q = r
  | .instanceOf d as, .instanceOf e bs =>
    if d = e then acceptsPairsBy as bs else return p.implements e d
  | .definition d, .definition e => return d = e
  | .function f, .function g => if f = g then return true else compatible f g
  | _, _ => return false
termination_by expected given => sizeOf expected + sizeOf given

/-- Whether a type accepts each of several types. -/
def acceptsEachBy (expected : Ty) : List Ty → Typing Bool
  | [] => return true
  | t :: ts => do if ← acceptsBy expected t then acceptsEachBy expected ts else return false
termination_by ts => sizeOf expected + sizeOf ts

/-- Whether one of several types accepts a type. -/
def acceptsInSomeBy : List Ty → Ty → Typing Bool
  | [], _ => return false
  | t :: ts, given => do if ← acceptsBy t given then return true else acceptsInSomeBy ts given
termination_by ts given => sizeOf ts + sizeOf given

/-- Whether types accept each other in pairs, as far as there are pairs. -/
def acceptsPairsBy : List Ty → List Ty → Typing Bool
  | a :: as, b :: bs => do if ← acceptsBy a b then acceptsPairsBy as bs else return false
  | _, _ => return true
termination_by as bs => sizeOf as + sizeOf bs

end

end

/-- Whether the second function can stand in for the first, given when a type
    accepts another. -/
def compatibleBy (accepts : Ty → Ty → Typing Bool) (expected given : NodeId) : Typing Bool := do
  let es := p.inputs expected
  let gs := p.inputs given
  if es.length ≠ gs.length then
    return false
  if ← (es.zip gs).allM fun (e, g) => do accepts (← p.bindType e) (← p.bindType g) then
    accepts (← p.output expected) (← p.output given)
  else
    return false

/-- Whether the second function can stand in for the first, inside the comparisons
    of the pairs `around`, with at most `depth` comparisons inside each other. -/
def compatibleWithin : Nat → List (NodeId × NodeId) → NodeId → NodeId → Typing Bool
  | 0, _, _, _ => return false
  | depth + 1, around, expected, given =>
    if (expected, given) ∈ around then return false
    else
      let inside := compatibleWithin depth ((expected, given) :: around)
      p.compatibleBy (p.acceptsBy inside) expected given

/-- Whether the second function can stand in for the first: as many inputs, and
    inputs and values accepted in pairs. -/
def functionsCompatible (expected given : NodeId) : Typing Bool :=
  p.compatibleWithin (p.arena.size * p.arena.size + 1) [] expected given

/-- Whether a value of type `given` can be used where `expected` is expected. -/
def accepts (expected given : Ty) : Typing Bool :=
  p.acceptsBy p.functionsCompatible expected given

/-- Whether a function implements another: they share an alias and have
    compatible signatures. -/
def implementsFunction (implementation function : NodeId) : Typing Bool := do
  if (p.names function).any (p.hasName implementation) then
    p.functionsCompatible function implementation
  else
    return false

end Arbor.Program
