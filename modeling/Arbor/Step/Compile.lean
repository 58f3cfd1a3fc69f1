/-
  Compilation of expressions into steps.

  The steps of a node begin with its start and end with its finish, with the
  steps of its children between them; a node without compiled children has one
  step that is both.  Compilation never fails: what makes no sense raises an
  exception when it is run.

  * `&` and `|` skip their right operand and the call if the left operand is the
    value already;
  * a conditional skips the branch that is not chosen;
  * a definition has a body of its own: `compileBody`.

  Main statement: `Arena.compile_eq`, the recursion that compilation solves on
  an acyclic arena.
-/
import Arbor.Arena.Descent
import Arbor.Program.Basic
import Arbor.Step.Basic

namespace Arbor.Arena

variable (a : Arena)

/-- The steps of a node, around those of its children. -/
def compileNode (sub : NodeId → List Step) (id : NodeId) : List Step :=
  match a.node? id with
  | some (.binaryOperation left op right) =>
    let operand := sub right
    let skip : List Step :=
      if op.isShortCircuit then [⟨id, .jumpIf (operand.length + 1) false (op == .or)⟩] else []
    [⟨id, .start⟩] ++ sub left ++ skip ++ operand ++ [⟨id, .startEvaluation⟩, ⟨id, .finish⟩]
  | some (.conditional condition yes no) =>
    let whenTrue := sub yes
    let whenFalse := sub no
    [⟨id, .start⟩] ++ sub condition ++ [⟨id, .jumpIf (whenTrue.length + 1) true false⟩] ++
      whenTrue ++ [⟨id, .jump whenFalse.length⟩] ++ whenFalse ++ [⟨id, .finish⟩]
  | some (.evaluate function is) =>
    [⟨id, .start⟩] ++ sub function ++ (a.list is).flatMap sub ++
      [⟨id, .startEvaluation⟩, ⟨id, .finish⟩]
  | some (.propertyReference receiver _) => [⟨id, .start⟩] ++ sub receiver ++ [⟨id, .finish⟩]
  | some (.block ss) => [⟨id, .start⟩] ++ (a.list ss).flatMap sub ++ [⟨id, .finish⟩]
  | some (.bind _ _ (some value)) => [⟨id, .start⟩] ++ sub value ++ [⟨id, .finish⟩]
  | some (.program _ main) => [⟨id, .start⟩] ++ sub main ++ [⟨id, .finish⟩]
  | _ => [⟨id, .startFinish⟩]

/-- The steps that leave the value of a node on top of the values. -/
def compile (id : NodeId) : List Step := a.descend [] a.compileNode id

variable {a}

theorem compile_eq (h : a.Acyclic) (id : NodeId) : a.compile id = a.compileNode a.compile id := by
  refine descend_eq h (fun id f g hfg => ?_) id
  have flatMap_eq (cs : List NodeId) (hcs : ∀ c ∈ cs, f c = g c) : cs.flatMap f = cs.flatMap g := by
    rw [List.flatMap_def, List.flatMap_def, List.map_congr_left hcs]
  unfold compileNode
  simp only [children, childrenOf] at hfg
  split <;> simp_all [Node.slots, Node.fields, ofSlot]

end Arbor.Arena

namespace Arbor.Program

variable (p : Program)

/-- The steps that leave the value of a node on top of the values. -/
def compile (id : NodeId) : List Step := p.arena.compile id

/-- The steps of the body of a definition: those of the body of a function, and
    those of the statements of a structure between its start and its finish. -/
def compileBody (id : NodeId) : List Step :=
  match p.node? id with
  | some (.functionDefinition _ _ _ _ (some body)) => p.compile body
  | some (.structureDefinition ..) =>
    [⟨id, .start⟩] ++ (p.statements id).flatMap p.compile ++ [⟨id, .finish⟩]
  | _ => []

end Arbor.Program
