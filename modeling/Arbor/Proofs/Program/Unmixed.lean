/-
  The code of a user, apart from the basis.

  The basis is detached from a program: its functions are reached as methods of values, and
  never by a name.  So if neither the program nor a registered structure has a node of the
  basis in it (`Unmixed`), then whatever is named below them has none either.

  * `InBasis x`: the node belongs to the basis;
  * `UserCode x`: neither the node nor a node below it does.

  Main statements: `Unmixed.inherited`, code of a user names code of a user;
  `OverBasis.exists_method`, the functions of the basis are primitive methods.
-/
import Arbor.Proofs.Program.Methods
import Arbor.Proofs.Program.Rooted

namespace Arbor

namespace Program

variable (p : Program)

/-- The node belongs to the basis. -/
def InBasis (x : NodeId) : Prop := x ∈ p.arena.preorders p.basis.roots

/-- Neither the node nor a node below it belongs to the basis. -/
def UserCode (x : NodeId) : Prop := ∀ z ∈ p.arena.preorder x, ¬p.InBasis z

/-- A program over the basis, which has no node of the basis in it, and neither have the
    registered structures. -/
structure Unmixed : Prop where
  acyclic : p.arena.Acyclic
  basis : p.OverBasis
  detached : p.tree = .ofRoots p.arena p.root p.detached
  program : p.UserCode p.root
  shared : ∀ d ∈ p.registered, p.UserCode d

variable {p} {x z d : NodeId}

/-! ## Code of a user -/

theorem inBasis_below (ha : p.arena.Acyclic) (hx : p.InBasis x) (hz : z ∈ p.arena.preorder x) :
    p.InBasis z := by
  obtain ⟨top, htop, hx⟩ := List.mem_flatMap.1 hx
  exact List.mem_flatMap.2 ⟨top, htop, Arena.mem_preorder_trans ha hx hz⟩

theorem UserCode.below (ha : p.arena.Acyclic) (hx : p.UserCode x) (hz : z ∈ p.arena.preorder x) :
    p.UserCode z :=
  fun y hy => hx y (Arena.mem_preorder_trans ha hz hy)

theorem UserCode.not_inBasis (ha : p.arena.Acyclic) (hx : p.UserCode x) : ¬p.InBasis x :=
  hx x (Arena.mem_preorder_self ha x)

namespace Unmixed

variable (hp : p.Unmixed)
include hp

/-- What is below a root is code of a user, or of the basis. -/
theorem userCode_of_rooted (hx : p.Rooted x) (hbasis : ¬p.InBasis x) : p.UserCode x := by
  obtain ⟨top, htop, hx⟩ := List.mem_flatMap.1 hx
  rcases List.mem_cons.1 htop with rfl | htop
  · exact hp.program.below hp.acyclic hx
  · rcases List.mem_append.1 htop with htop | htop
    · exact absurd (List.mem_flatMap.2 ⟨top, htop, hx⟩) hbasis
    · exact (hp.shared top htop).below hp.acyclic hx

/-- **Code of a user names code of a user**, and so does what is below it. -/
theorem inherited : p.Inherited p.UserCode where
  child x c hx hc := hx.below hp.acyclic
    (Arena.mem_preorder_child hp.acyclic (Arena.mem_preorder_self hp.acyclic x) hc)
  name x n e z hx he hz := by
    obtain ⟨y, hy, hyx, hz⟩ | hz := above_of_resolve hp.acyclic hp.detached he hz
    · refine (hp.userCode_of_rooted hy fun hbasis => ?_).below hp.acyclic hz
      exact hx.not_inBasis hp.acyclic (inBasis_below hp.acyclic hbasis hyx)
    · exact hp.shared z hz

end Unmixed

/-! ## Functions of the basis -/

variable {q : Primitive} {n : Name} {op : NativeOp} {input body : NodeId}

/-- A primitive method has one step. -/
theorem Method.compileBody_eq (hm : p.Method q n d op input body) (ha : p.arena.Acyclic) :
    p.compileBody d = [⟨body, .startFinish⟩] := by
  obtain ⟨ns, vs, is, out, hn, -⟩ := hm.function
  rw [compileBody, hn]
  show p.compile body = _
  rw [compile_eq ha, Arena.compileNode, show p.arena.node? body = _ from hm.body]

/-- A primitive method has one input. -/
theorem Method.inputs_eq (hm : p.Method q n d op input body) : p.inputs d = [input] := by
  obtain ⟨ns, vs, is, out, hn, -, hinputs, -⟩ := hm.function
  rw [inputs, inputList, hn]
  exact hinputs

/-- **The functions of the basis** are primitive methods. -/
theorem OverBasis.exists_method (hb : p.OverBasis) (hd : d ∈ p.basis.roots) :
    ∃ q n op input body, p.Method q n d op input body := by
  rw [hb.basis] at hd
  obtain ⟨⟨⟨q, n⟩, d⟩, hmem, rfl⟩ := List.mem_map.1 hd
  have hm := Basis.hasMethod_withBasis ((q, n), d) hmem
  exact ⟨q, n, hb.arena.method hm⟩

end Program

end Arbor
