/-
  Runs of nodes.

  The machine runs the code of a node as the node is evaluated: first the codes of its
  children, one after another as in the evaluation, and then the finish that gives the
  value of the node from theirs.  There is one lemma for each kind of node with children,
  and one for the nodes that give a value at once.

  Main statement: `simulates`, the induction over rooms for calls and over the tree.
-/
import Arbor.Proofs.Evaluation.Calls

namespace Arbor

namespace Machine

variable {p : Program} {limits : Limits} {m₀ m : Machine} {f₀ f : Frame} {below : List Frame}
  {code code' : List Step} {operands : List Value} {scopes : Scopes} {id : NodeId}

/-! ## Values at the finish of a node -/

/-- A node gives at its finish what is given in the evaluation. -/
theorem gives_give {s : Step} {v : Value} {n : Nat} (hcalm : Calm m₀ below)
    (hst : Stands m₀ f₀ below (s :: code) operands scopes m f)
    (hs : s.kind = .finish ∨ s.kind = .startFinish)
    (hr : p.finish m f.advance below s none = { value := v, frame := f.advance.drop n }) :
    Gives p limits m₀ f₀ below code (operands.drop n) m ((Eval.give v).on scopes) := by
  cases v with
  | exception e => exact gives_finish_raise p limits hcalm hst hs (by rw [hr])
  | _ => exact gives_finish p limits hcalm hst hs hr rfl

/-- A node binds at its finish what is bound in the evaluation. -/
theorem gives_define {kind : StepKind} {v : Value} {n : Nat} (hcalm : Calm m₀ below)
    (hst : Stands m₀ f₀ below (⟨id, kind⟩ :: code) operands scopes m f)
    (hs : kind = .finish ∨ kind = .startFinish)
    (hr : p.finish m f.advance below ⟨id, kind⟩ none =
      { value := v, frame := f.advance.drop n, binds := true })
    (hv : v.exception? = none) :
    Gives p limits m₀ f₀ below code (operands.drop n) m
      ((Eval.define f₀.scope id v).on scopes) :=
  gives_finish p limits hcalm hst hs hr hv

/-- A node whose value is that of the last of its codes passes it on. -/
theorem finish_pass {v : Value}
    (hpass : ∀ m f, p.finish m f below ⟨id, .finish⟩ none = Program.passed none f id)
    (hst : Stands m₀ f₀ below (⟨id, .finish⟩ :: code) (v :: operands) scopes m f) :
    p.finish m f.advance below ⟨id, .finish⟩ none =
      { value := v, frame := f.advance.drop 1 } := by
  have htop : f.advance.top id = v := by
    rw [Frame.top, Frame.operands_advance, hst.operands]
    rfl
  rw [hpass, ← htop]
  rfl

theorem gives_pass {v : Value} (hcalm : Calm m₀ below)
    (hpass : ∀ m f, p.finish m f below ⟨id, .finish⟩ none = Program.passed none f id)
    (hst : Stands m₀ f₀ below (⟨id, .finish⟩ :: code) (v :: operands) scopes m f)
    (hv : v.exception? = none) : Gives p limits m₀ f₀ below code operands m (.ok v, scopes) :=
  gives_finish p limits hcalm hst (Or.inl rfl) (finish_pass hpass hst) hv

theorem Gives.pass {x : Eval Value} (hcalm : Calm m₀ below)
    (hpass : ∀ m f, p.finish m f below ⟨id, .finish⟩ none = Program.passed none f id)
    (hx : Gives p limits m₀ f₀ below (⟨id, .finish⟩ :: code) operands m (x.on scopes)) :
    Gives p limits m₀ f₀ below code operands m (x.on scopes) := by
  rw [← bind_pure x]
  exact hx.bind nofun fun v s m' g hv hst => gives_pass hcalm hpass hst hv

/-- The name of a node stands for the same value in the machine and in the evaluation. -/
theorem referenceValue_eq {g : Frame} (hst : Stands m₀ f₀ below code operands scopes m f)
    (hg : f.Same g) (n : Name) :
    p.referenceValue m g below id n = p.nameValue (f₀.env below m₀.streams) scopes id n := by
  have hsame := hst.same.trans hg
  have hnearest : (g :: below).findSome? Frame.this = (f₀ :: below).findSome? Frame.this := by
    simp only [List.findSome?_cons, hsame.this]
  unfold Program.referenceValue Program.nameValue
  cases p.resolve n id with
  | none => simp only [hnearest, Frame.env]
  | some d =>
    cases d <;>
      simp only [hst.keeps.scopes, streamValue?, hst.keeps.streams, Frame.env, hsame.scope]

theorem nativeValue_eq {g : Frame} (hst : Stands m₀ f₀ below code operands scopes m f)
    (hg : f.Same g) (op : NativeOp) :
    p.nativeValue m.store.scopes g id op =
      p.operationValue (f₀.env below m₀.streams) scopes id op := by
  have hsame := hst.same.trans hg
  unfold Program.nativeValue Program.operationValue
  simp only [hst.keeps.scopes, Frame.env, hsame.scope, hsame.this, hsame.definition,
    hsame.creator]
  cases f₀.this with
  | none => rfl
  | some receiver =>
    cases (f₀.definition.bind fun d => (p.inputs d).head?).bind (scopes.lookup f₀.scope) <;> rfl

/-! ## Nodes without children -/

section
variable {invoke : Call → Eval Value} {sub : NodeId → Eval Value}

/-- A node without compiled children gives at its finish what is given or bound in the
    evaluation. -/
theorem finish_leaf (invoke : Call → Eval Value) (sub : NodeId → Eval Value)
    (hst : Stands m₀ f₀ below (⟨id, .startFinish⟩ :: code) operands scopes m f)
    (hleaf : p.arena.compileNode p.compile id = [⟨id, .startFinish⟩]) :
    ∃ v binds, p.finish m f.advance below ⟨id, .startFinish⟩ none =
        { value := v, frame := f.advance, binds := binds } ∧
      (binds = true → v.exception? = none) ∧
      (p.evaluateNode invoke (f₀.env below m₀.streams) sub id).on scopes =
        (if binds then Eval.define f₀.scope id v else Eval.give v).on scopes := by
  have give {v : Value} {x : Eval Value} (hr : p.finish m f.advance below ⟨id, .startFinish⟩ none =
      { value := v, frame := f.advance }) (hx : x.on scopes = (Eval.give v).on scopes) :
      ∃ v binds, p.finish m f.advance below ⟨id, .startFinish⟩ none =
          { value := v, frame := f.advance, binds := binds } ∧
        (binds = true → v.exception? = none) ∧
        x.on scopes = (if binds then Eval.define f₀.scope id v else Eval.give v).on scopes :=
    ⟨v, false, hr, nofun, hx⟩
  have hsame : f₀.Same f.advance := hst.same.trans (.advance f)
  unfold Program.evaluateNode
  cases hn : p.node? id with
  | none => exact give (v := .exception ⟨.unparsable, id⟩) (by simp only [Program.finish, hn]) rfl
  | some n =>
    have hfinish := Program.finish.eq_1 p m f.advance below ⟨id, .startFinish⟩ none
    simp only [hn] at hfinish
    have hcompile : p.arena.node? id = some n := hn
    simp only [Arena.compileNode, hcompile] at hleaf
    cases n with
    | booleanLiteral b =>
      exact give (v := .bool b) (by simp [hfinish, Program.literal?, hn]) rfl
    | numberLiteral bits =>
      exact give (v := .ofBits bits) (by simp [hfinish, Program.literal?, hn]) rfl
    | textLiteral t =>
      exact give (v := .text (p.textOf t)) (by simp [hfinish, Program.literal?, hn]) rfl
    | reference n =>
      dsimp only at hfinish
      rw [referenceValue_eq hst (.advance f)] at hfinish
      exact give hfinish rfl
    | native op =>
      dsimp only at hfinish
      rw [nativeValue_eq hst (.advance f)] at hfinish
      exact give hfinish rfl
    | bind ns type value =>
      cases value with
      | none => exact give hfinish rfl
      | some value => simp at hleaf
    | functionDefinition ns vs is output body =>
      have hv : (Value.functionOf id (some f₀.scope) f₀.this).exception? = none := by
        cases f₀.this <;> rfl
      simp only [hsame.scope, hsame.this] at hfinish
      exact ⟨_, true, hfinish, fun _ => hv, rfl⟩
    | structureDefinition ns fs vs is body =>
      simp only [hsame.scope] at hfinish
      exact ⟨_, true, hfinish, fun _ => rfl, rfl⟩
    | binaryOperation | conditional | evaluate | propertyReference | block | program =>
      simp at hleaf
    | _ => exact give hfinish rfl

/-- A node without compiled children gives its value at once. -/
theorem gives_leaf (hcalm : Calm m₀ below)
    (hst : Stands m₀ f₀ below (⟨id, .startFinish⟩ :: code) operands scopes m f)
    (hleaf : p.arena.compileNode p.compile id = [⟨id, .startFinish⟩]) :
    Gives p limits m₀ f₀ below code operands m
      ((p.evaluateNode invoke (f₀.env below m₀.streams) sub id).on scopes) := by
  obtain ⟨v, binds, hr, hv, heq⟩ := finish_leaf invoke sub hst hleaf
  rw [heq]
  cases binds with
  | true => exact gives_define (n := 0) hcalm hst (Or.inr rfl) hr (hv rfl)
  | false => exact gives_give (n := 0) hcalm hst (Or.inr rfl) hr

/-! ## Nodes with children -/

/-- The machine runs the code of a child as the child is evaluated. -/
def Subs (p : Program) (limits : Limits) (m₀ : Machine) (f₀ : Frame) (below : List Frame)
    (sub : NodeId → Eval Value) (c : NodeId) : Prop :=
  ∀ {code operands scopes m f}, Stands m₀ f₀ below (p.compile c ++ code) operands scopes m f →
    Gives p limits m₀ f₀ below code operands m ((sub c).on scopes)

/-- A member of the value of the receiver. -/
theorem finish_property {receiver : NodeId} {n : Name} {v : Value}
    (hn : p.node? id = some (.propertyReference receiver n))
    (hst : Stands m₀ f₀ below (⟨id, .finish⟩ :: code) (v :: operands) scopes m f) :
    p.finish m f.advance below ⟨id, .finish⟩ none =
      { value := p.propertyValue scopes id v n, frame := f.advance.drop 1 } := by
  simp only [Program.finish, hn, hst.keeps.scopes, Frame.top, Frame.operands_advance,
    hst.operands]
  rfl

theorem gives_property {receiver : NodeId} {n : Name} (hcalm : Calm m₀ below)
    (hn : p.node? id = some (.propertyReference receiver n))
    (hsub : Subs p limits m₀ f₀ below sub receiver)
    (hst : Stands m₀ f₀ below (⟨id, .start⟩ :: (p.compile receiver ++ ⟨id, .finish⟩ :: code))
      operands scopes m f) :
    Gives p limits m₀ f₀ below code operands m
      ((do
        let v ← sub receiver
        Eval.give (p.propertyValue (← get) id v n) : Eval Value).on scopes) := by
  refine gives_start hcalm hst (by simp) fun m g hst => (hsub hst).bind nofun ?_
  intro v s m g _ hst
  exact gives_give hcalm hst (Or.inl rfl) (finish_property hn hst)

/-- The value of a named value, which is bound. -/
theorem finish_bind {ns value : NodeId} {type : Option NodeId} {v : Value}
    (hn : p.node? id = some (.bind ns type (some value)))
    (hst : Stands m₀ f₀ below (⟨id, .finish⟩ :: code) (v :: operands) scopes m f) :
    p.finish m f.advance below ⟨id, .finish⟩ none =
      { value := v, frame := f.advance.drop 1, binds := true } := by
  simp only [Program.finish, hn, Frame.top, Frame.operands_advance, hst.operands]
  rfl

theorem gives_bind {ns value : NodeId} {type : Option NodeId} (hcalm : Calm m₀ below)
    (hn : p.node? id = some (.bind ns type (some value)))
    (hsub : Subs p limits m₀ f₀ below sub value)
    (hst : Stands m₀ f₀ below (⟨id, .start⟩ :: (p.compile value ++ ⟨id, .finish⟩ :: code))
      operands scopes m f) :
    Gives p limits m₀ f₀ below code operands m
      ((do Eval.define f₀.scope id (← sub value) : Eval Value).on scopes) := by
  refine gives_start hcalm hst (by simp) fun m g hst => (hsub hst).bind nofun ?_
  intro v s m g hv hst
  exact gives_define hcalm hst (Or.inl rfl) (finish_bind hn hst) hv

theorem gives_program {borrows : NodeRange} {main : NodeId} (hcalm : Calm m₀ below)
    (hn : p.node? id = some (.program borrows main))
    (hsub : Subs p limits m₀ f₀ below sub main)
    (hst : Stands m₀ f₀ below (⟨id, .start⟩ :: (p.compile main ++ ⟨id, .finish⟩ :: code))
      operands scopes m f) :
    Gives p limits m₀ f₀ below code operands m ((sub main).on scopes) := by
  refine gives_start hcalm hst (by simp) fun m g hst => .pass hcalm (fun m f => ?_) (hsub hst)
  simp only [Program.finish, hn]

/-- The last of the values of statements. -/
theorem finish_block {ss : NodeRange} {vs : List Value} {v : Value}
    (hn : p.node? id = some (.block ss)) (hlen : (vs ++ [v]).length = (p.arena.list ss).length)
    (hst : Stands m₀ f₀ below (⟨id, .finish⟩ :: code) ((vs ++ [v]).reverse ++ operands) scopes m f) :
    p.finish m f.advance below ⟨id, .finish⟩ none =
      { value := v, frame := f.advance.drop (p.arena.list ss).length } := by
  have hcount : (p.arena.list ss).length ≠ 0 := by
    rw [← hlen, List.length_append]
    nofun
  simp only [Program.finish, hn, if_neg hcount, Frame.top, Frame.operands_advance, hst.operands,
    List.reverse_append]
  rfl

theorem finish_block_empty {ss : NodeRange} (hn : p.node? id = some (.block ss))
    (hss : p.arena.list ss = []) :
    p.finish m f.advance below ⟨id, .finish⟩ none =
      { value := .exception ⟨.emptyBlock, id⟩, frame := f.advance } := by
  simp only [Program.finish, hn, hss, List.length_nil, if_true]

/-- A block leaves the last of the values of its statements. -/
theorem gives_block {ss : NodeRange} (hcalm : Calm m₀ below)
    (hn : p.node? id = some (.block ss))
    (hsub : ∀ c ∈ p.arena.list ss, Subs p limits m₀ f₀ below sub c)
    (hst : Stands m₀ f₀ below
      (⟨id, .start⟩ :: ((p.arena.list ss).flatMap p.compile ++ ⟨id, .finish⟩ :: code))
      operands scopes m f) :
    Gives p limits m₀ f₀ below code operands m
      ((do
        match (← Eval.inOrder sub (p.arena.list ss)).getLast? with
        | some v => return v
        | none => Eval.raise ⟨.emptyBlock, id⟩ : Eval Value).on scopes) := by
  refine gives_start hcalm hst (by simp) fun m g hst => ?_
  refine gives_inOrder (fun c hc _ _ _ _ _ hst => hsub c hc hst) (List.cons_ne_nil _ _) hst ?_
  intro vs s m g hlen hvs hst
  cases hlast : vs.getLast? with
  | none =>
    have hss : p.arena.list ss = [] := by
      rw [List.getLast?_eq_none_iff.1 hlast] at hlen
      exact List.length_eq_zero_iff.1 hlen.symm
    exact gives_finish_raise p limits hcalm hst (Or.inl rfl) (by rw [finish_block_empty hn hss])
  | some v =>
    obtain ⟨ws, rfl⟩ := List.getLast?_eq_some_iff.1 hlast
    have hgives := gives_finish p limits hcalm hst (Or.inl rfl) (finish_block hn hlen hst)
      (hvs v (by simp))
    rwa [← hlen, List.drop_left' (by simp)] at hgives

/-- A conditional leaves the value of the branch that is chosen. -/
theorem gives_conditional {condition yes no : NodeId} (hcalm : Calm m₀ below)
    (hn : p.node? id = some (.conditional condition yes no))
    (hcondition : Subs p limits m₀ f₀ below sub condition)
    (hyes : Subs p limits m₀ f₀ below sub yes) (hno : Subs p limits m₀ f₀ below sub no)
    (hst : Stands m₀ f₀ below (⟨id, .start⟩ :: (p.compile condition ++
      ⟨id, .jumpIf ((p.compile yes).length + 1) true false⟩ :: (p.compile yes ++
        ⟨id, .jump (p.compile no).length⟩ :: (p.compile no ++ ⟨id, .finish⟩ :: code))))
      operands scopes m f) :
    Gives p limits m₀ f₀ below code operands m
      ((do
        match ← sub condition with
        | .bool true => sub yes
        | .bool false => sub no
        | _ => Eval.raise ⟨.expectedBoolean, id⟩ : Eval Value).on scopes) := by
  have hpass (m : Machine) (f : Frame) :
      p.finish m f below ⟨id, .finish⟩ none = Program.passed none f id := by
    simp only [Program.finish, hn]
  refine gives_start hcalm hst (by simp) fun m g hst => (hcondition hst).bind (by simp) ?_
  intro v s m g _ hst
  cases v with
  | bool b =>
    refine (hst.jumpIf (by simp) (by simp) (by simp)).gives fun m g hst => ?_
    cases b with
    | true =>
      -- After the branch, the other one is jumped over.
      show Gives p limits m₀ f₀ below code operands m ((sub yes).on s)
      rw [← bind_pure (sub yes)]
      refine (hyes hst).bind (by simp) fun v s m g hv hst => ?_
      refine (hst.jump (by simp) (by simp)).gives fun m g hst => ?_
      rw [List.drop_left] at hst
      exact gives_pass hcalm hpass hst hv
    | false =>
      rw [if_pos rfl, Program.drop_past] at hst
      exact .pass hcalm hpass (hno hst)
  | _ => exact gives_jumpIf_raise hst (by simp)

/-! ## Calls -/

/-- The values that a call takes, the callee first. -/
theorem taken_of_operands {vs : List Value} {g : Frame} {n : Nat}
    (hops : g.operands = vs.reverse ++ operands) (hn : vs.length = n) :
    (∀ id, Program.taken g id n = vs) ∧ (g.drop n).operands = operands := by
  have hlen : vs.reverse.length = n := by rw [List.length_reverse, hn]
  refine ⟨fun id => ?_, ?_⟩
  · rw [Program.taken_eq (by rw [hops, List.length_append, hlen]; omega), hops,
      List.take_left' hlen, List.reverse_reverse]
  · rw [Frame.operands_drop, hops, List.drop_left' hlen]

theorem findSome?_exception? {vs : List Value} (h : ∀ v ∈ vs, v.exception? = none) :
    vs.findSome? Value.exception? = none :=
  List.findSome?_eq_none_iff.2 h

variable (limits) in
/-- The step that calls a method of the left operand. -/
theorem Stands.step_operator {left right : NodeId} {op : Name} {l r : Value}
    (hn : p.node? id = some (.binaryOperation left op right)) (hl : l.exception? = none)
    (hr : r.exception? = none)
    (hst : Stands m₀ f₀ below (⟨id, .startEvaluation⟩ :: code) (r :: l :: operands) scopes m f) :
    ∃ g, m.step p limits = { m with stepsTaken := m.stepsTaken + 1 }.act p limits g below
        ⟨id, .startEvaluation⟩ (match p.method? l op with
          | some method => p.callAction id (some op) method [r]
          | none => .raise ⟨.function (some op), id⟩) ∧
      f₀.Same g ∧ g.exception? = none ∧ g.code = code ∧ g.operands = operands := by
  have hshape : f.advance.operands = [l, r].reverse ++ operands := hst.operands
  obtain ⟨htaken, hops⟩ := taken_of_operands (n := 2) hshape rfl
  have hnone : [l, r].findSome? Value.exception? = none :=
    findSome?_exception? (by simp [hl, hr])
  refine ⟨f.advance.drop 2, hst.step limits ?_, (hst.same.trans (.advance f)).trans (.drop _ 2),
    rfl, hst.advance_code, hops⟩
  simp only [Program.execute, Program.startEvaluation, hn, htaken, hnone]
  cases p.method? l op <;> rfl

/-- The call of a method of the left operand. -/
theorem gives_operator {room : Nat} {left right : NodeId} {op : Name} {l r : Value}
    (hsim : ∀ n, n < room → Simulates p limits n)
    (hroom : limits.maxDepth - (below.length + 1) = room)
    (hn : p.node? id = some (.binaryOperation left op right)) (hl : l.exception? = none)
    (hr : r.exception? = none)
    (hst : Stands m₀ f₀ below (⟨id, .startEvaluation⟩ :: code) (r :: l :: operands) scopes m f)
    (hcode : code ≠ []) :
    Gives p limits m₀ f₀ below code operands m
      ((match p.method? l op with
        | some method =>
          p.call (p.invoke room (f₀.env below m₀.streams)) id (some op) method [r]
        | none => Eval.raise ⟨.function (some op), id⟩ : Eval Value).on scopes) := by
  obtain ⟨g, hstep, hsame, hgoes, hg, hops⟩ := hst.step_operator limits hn hl hr
  cases hm : p.method? l op with
  | none =>
    rw [hm] at hstep
    exact gives_raise hst.keeps.counted hstep
  | some method =>
    rw [hm] at hstep
    have := gives_call hsim hroom hst.keeps.counted hsame hgoes (by rwa [hg]) hstep
    rwa [hg, hops] at this

/-- An operator takes the values of both operands, unless the left one is the value
    already. -/
theorem gives_binaryOperation {room : Nat} {left right : NodeId} {op : Name}
    (hcalm : Calm m₀ below) (hsim : ∀ n, n < room → Simulates p limits n)
    (hroom : limits.maxDepth - (below.length + 1) = room)
    (hn : p.node? id = some (.binaryOperation left op right))
    (hleft : Subs p limits m₀ f₀ below sub left) (hright : Subs p limits m₀ f₀ below sub right)
    (hst : Stands m₀ f₀ below (⟨id, .start⟩ :: (p.compile left ++
      ((if op.isShortCircuit then
        [⟨id, .jumpIf ((p.compile right).length + 1) false (op == .or)⟩] else []) ++
        (p.compile right ++ ⟨id, .startEvaluation⟩ :: ⟨id, .finish⟩ :: code)))) operands scopes m f) :
    Gives p limits m₀ f₀ below code operands m
      ((p.evaluateNode (p.invoke room (f₀.env below m₀.streams)) (f₀.env below m₀.streams) sub
        id).on scopes) := by
  have hpass (m : Machine) (f : Frame) :
      p.finish m f below ⟨id, .finish⟩ none = Program.passed none f id := by
    simp only [Program.finish, hn]
  -- Both operands are needed.
  have operate {l : Value} {s : Scopes} {m : Machine} {g : Frame} (hl : l.exception? = none)
      (hst : Stands m₀ f₀ below (p.compile right ++ ⟨id, .startEvaluation⟩ :: ⟨id, .finish⟩ :: code)
        (l :: operands) s m g) :
      Gives p limits m₀ f₀ below code operands m
        ((Program.evaluateNode.operate p (p.invoke room (f₀.env below m₀.streams)) sub id op l
          right).on s) := by
    refine .pass hcalm hpass ?_
    unfold Program.evaluateNode.operate
    exact (hright hst).bind (by simp) fun r s m g hr hst =>
      gives_operator hsim hroom hn hl hr hst (by simp)
  simp only [Program.evaluateNode, hn]
  refine gives_start hcalm hst (by simp) fun m g hst =>
    (hleft hst).bind (by simp) fun l s m g hl hst => ?_
  cases hop : op.isShortCircuit with
  | false =>
    rw [hop, if_neg (by simp), List.nil_append] at hst
    exact operate hl hst
  | true =>
    rw [hop, if_pos rfl, List.singleton_append] at hst
    cases l with
    | bool b =>
      dsimp only
      refine (hst.jumpIf (by simp) (by simp) (by simp)).gives fun m g hst => ?_
      split
      · next hb =>
        rw [if_pos hb, Program.drop_past] at hst
        exact gives_pass hcalm hpass hst rfl
      · next hb =>
        rw [if_neg hb] at hst
        exact operate rfl hst
    | _ => exact gives_jumpIf_raise hst (by simp)

variable (limits) in
/-- The step that calls a value with arguments. -/
theorem Stands.step_evaluation {function : NodeId} {is : NodeRange} {callee : Value}
    {arguments : List Value} (hn : p.node? id = some (.evaluate function is))
    (hlen : arguments.length = (p.arena.list is).length)
    (hvs : ∀ v ∈ callee :: arguments, v.exception? = none)
    (hst : Stands m₀ f₀ below (⟨id, .startEvaluation⟩ :: code)
      (arguments.reverse ++ callee :: operands) scopes m f) :
    ∃ g, m.step p limits = { m with stepsTaken := m.stepsTaken + 1 }.act p limits g below
        ⟨id, .startEvaluation⟩ (p.callAction id (p.calledName? function) callee arguments) ∧
      f₀.Same g ∧ g.exception? = none ∧ g.code = code ∧ g.operands = operands := by
  have hshape : f.advance.operands = (callee :: arguments).reverse ++ operands := by
    rw [Frame.operands_advance, hst.operands]
    simp
  obtain ⟨htaken, hops⟩ := taken_of_operands (n := (p.arena.list is).length + 1) hshape
    (by simp [hlen])
  have hnone := findSome?_exception? hvs
  refine ⟨f.advance.drop ((p.arena.list is).length + 1), hst.step limits ?_,
    (hst.same.trans (.advance f)).trans (.drop _ _), rfl, hst.advance_code, hops⟩
  simp only [Program.execute, Program.startEvaluation, hn, htaken, hnone]

/-- A call takes the values of the callee and of the arguments. -/
theorem gives_evaluate {room : Nat} {function : NodeId} {is : NodeRange}
    (hcalm : Calm m₀ below) (hsim : ∀ n, n < room → Simulates p limits n)
    (hroom : limits.maxDepth - (below.length + 1) = room)
    (hn : p.node? id = some (.evaluate function is))
    (hfunction : Subs p limits m₀ f₀ below sub function)
    (his : ∀ c ∈ p.arena.list is, Subs p limits m₀ f₀ below sub c)
    (hst : Stands m₀ f₀ below (⟨id, .start⟩ :: (p.compile function ++
      ((p.arena.list is).flatMap p.compile ++ ⟨id, .startEvaluation⟩ :: ⟨id, .finish⟩ :: code)))
      operands scopes m f) :
    Gives p limits m₀ f₀ below code operands m
      ((do
        let callee ← sub function
        let arguments ← Eval.inOrder sub (p.arena.list is)
        p.call (p.invoke room (f₀.env below m₀.streams)) id (p.calledName? function) callee
          arguments : Eval Value).on scopes) := by
  have hpass (m : Machine) (f : Frame) :
      p.finish m f below ⟨id, .finish⟩ none = Program.passed none f id := by
    simp only [Program.finish, hn]
  refine .pass hcalm hpass ?_
  refine gives_start hcalm hst (by simp) fun m g hst =>
    (hfunction hst).bind (by simp) fun callee s m g hcallee hst => ?_
  refine gives_inOrder (fun c hc _ _ _ _ _ hst => his c hc hst) (List.cons_ne_nil _ _) hst
    fun arguments s m g hlen harguments hst => ?_
  have hvs : ∀ v ∈ callee :: arguments, v.exception? = none := by
    simpa [hcallee] using harguments
  obtain ⟨h, hstep, hsame, hgoes, hcode, hops⟩ :=
    hst.step_evaluation limits hn hlen hvs
  have := gives_call hsim hroom hst.keeps.counted hsame hgoes (by rw [hcode]; simp) hstep
  rwa [hcode, hops] at this

end

/-! ## The induction -/

/-- **The machine runs nodes as they are evaluated.**  The code of a node leaves the value
    of its evaluation in the scopes of its evaluation, or stops as the evaluation does. -/
theorem simulates (hp : p.arena.Acyclic) (room : Nat) : Simulates p limits room := by
  obtain ⟨rank, hrank⟩ := hp
  have hp : p.arena.Acyclic := ⟨rank, hrank⟩
  induction room using Nat.strongRecOn with
  | _ room hsim =>
    intro m₀ f₀ below hroom hcalm id
    -- Within one frame, the codes of the children are run as they are evaluated.
    induction hr : rank id using Nat.strongRecOn generalizing id with
    | _ n ih =>
      subst hr
      intro code operands scopes m f hst
      have sub (c : NodeId) (hc : c ∈ p.arena.children id) :
          Subs p limits m₀ f₀ below (p.evaluate room (f₀.env below m₀.streams)) c :=
        fun hst => ih (rank c) (hrank id c hc) c rfl hst
      rw [Program.evaluate_eq hp]
      rw [Program.compile_eq hp] at hst
      cases hn : p.node? id with
      | none =>
        have hleaf : p.arena.compileNode p.compile id = [⟨id, .startFinish⟩] := by
          simp only [Arena.compileNode, show p.arena.node? id = none from hn]
        rw [hleaf] at hst
        exact gives_leaf hcalm hst hleaf
      | some node =>
        have hnode : p.arena.node? id = some node := hn
        simp only [Arena.children_eq hnode] at sub
        have leaf (hleaf : p.arena.compileNode p.compile id = [⟨id, .startFinish⟩]) :
            Gives p limits m₀ f₀ below code operands m
              ((p.evaluateNode (p.invoke room (f₀.env below m₀.streams)) (f₀.env below m₀.streams)
                (p.evaluate room (f₀.env below m₀.streams)) id).on scopes) :=
          gives_leaf hcalm (hleaf ▸ hst) hleaf
        have hcode := Arena.compileNode.eq_1 p.arena p.compile id
        simp only [hnode] at hcode
        cases node with
        | propertyReference receiver n =>
          simp only [Program.evaluateNode, hn]
          exact gives_property hcalm hn (sub receiver (by simp)) (by simpa [hcode] using hst)
        | bind ns type value =>
          cases value with
          | none => exact leaf hcode
          | some value =>
            simp only [Program.evaluateNode, hn]
            exact gives_bind hcalm hn (sub value (by simp)) (by simpa [hcode] using hst)
        | program borrows main =>
          simp only [Program.evaluateNode, hn]
          exact gives_program hcalm hn (sub main (by simp)) (by simpa [hcode] using hst)
        | block ss =>
          simp only [Program.evaluateNode, hn]
          exact gives_block hcalm hn (fun c hc => sub c (by simp [hc]))
            (by simpa [hcode] using hst)
        | conditional condition yes no =>
          simp only [Program.evaluateNode, hn]
          exact gives_conditional hcalm hn (sub condition (by simp)) (sub yes (by simp))
            (sub no (by simp)) (by simpa [hcode] using hst)
        | binaryOperation left op right =>
          exact gives_binaryOperation hcalm hsim hroom hn (sub left (by simp))
            (sub right (by simp)) (by simpa [hcode] using hst)
        | evaluate function is =>
          simp only [Program.evaluateNode, hn]
          exact gives_evaluate hcalm hsim hroom hn (sub function (by simp))
            (fun c hc => sub c (by simp [hc])) (by simpa [hcode] using hst)
        | _ => exact leaf hcode

end Machine

end Arbor
