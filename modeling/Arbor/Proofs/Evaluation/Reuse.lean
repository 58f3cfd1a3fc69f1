/-
  Runs that use what is remembered.

  A run that uses what is remembered leaves values that are like those of an evaluation of the
  program, node by node: there is one lemma for each kind of node with children, which goes on
  from child to child beside the evaluation, and one for the nodes that give a value at once.

  Main statement: `comes`, by induction over the tree.
-/
import Arbor.Proofs.Evaluation.Beside

namespace Arbor.Beside

open Machine

variable {p : Program} {limits : Limits} {b : Beside p limits} {t : Aim} {x : NodeId}
  {code : List Step} {operands : List Value} {ys : List NodeId} {L : Likeness} {m : Machine}
  {f : Frame} {τ : Scopes} {v w : Value}

/-! ## Nodes without children -/

/-- **A node without compiled children** leaves a value that is like that of its evaluation. -/
theorem comes_leaf (houter : p.Outer x)
    (hleaf : p.arena.compileNode p.compile x = [⟨x, .startFinish⟩]) : b.Comes x := by
  intro code operands L m f τ hclear h
  have hp := b.separate
  have hahead (z : NodeId) (hz : z ∈ p.arena.preorder x) : p.Ahead (p.compile x ++ code) z :=
    Program.ahead_compile hp.acyclic hz
  have hends := h.abreast.evaluate b.begun.streams hp houter
    (fun z hz hn => hn (hahead z hz)) (fun _ _ _ => trivial) (fun _ => h.streams)
    (fun _ => ⟨rfl, b.primitive⟩) limits.room
  have hst := h.stands
  rw [Program.compile_eq hp.acyclic, hleaf] at hst
  -- The run gives what the node gives in an evaluation from its own scopes.
  obtain ⟨v, binds, hfinish, hbinds, heq⟩ := finish_leaf
    (p.invoke limits.room (p.topEnv b.frame.scope b.begun.streams))
    (p.evaluate limits.room (p.topEnv b.frame.scope b.begun.streams)) hst hleaf
  rw [b.env, ← Program.evaluate_eq hp.acyclic] at heq
  rw [heq] at hends
  have hprior : Program.prior? m [] ⟨x, .startFinish⟩ = none := prior?_eq_none_of_kind nofun
  have hexecute := execute_finish (p := p) (f := f) hprior (.inr rfl)
  rw [hfinish] at hexecute
  change Abreast.Ends p _ _ _ _ _ _ _ _ ((b.value x).on τ) at hends
  generalize hout : (b.value x).on τ = r at hends
  cases hv : v.exception? with
  | some e =>
    obtain rfl := Value.eq_exception hv
    cases binds with
    | true => cases hbinds rfl
    | false =>
      cases hends
      rw [Program.leave_of_exception rfl] at hexecute
      have hrem : ({ m with stepsTaken := m.stepsTaken + 1 } : Machine).store.remembered =
        m.store.remembered := rfl
      exact raises_of_step hp hrem h.sure (hst.step limits hexecute)
  | none =>
    have hgives : (if binds then Eval.define b.frame.scope x v else Eval.give v).on m.store.scopes =
        (.ok v, if binds then m.store.scopes.define b.frame.scope x v else m.store.scopes) := by
      cases binds with
      | true => rfl
      | false => cases v <;> first | rfl | cases hv
    rw [hgives] at hends
    cases hends with | ok hle hstreams habreast hbrings halike =>
    have hclear' (z : NodeId) : ¬p.Ahead (p.compile x ++ code) z ∨ z ∈ p.arena.preorder x →
        ¬p.Ahead code z := by
      rintro (hz | hz)
      · exact fun ha => hz (ha.mono fun s => List.mem_append_right _)
      · exact hclear z hz
    exact .leave (n := 0) houter hst h.sure rfl hexecute hv rfl rfl rfl halike hle
      (habreast.mono hclear') hbrings (fun _ _ => rfl) nofun

/-! ## Nodes with children -/

section
variable {node : Node}

/-- A node between whose start and finish its children are evaluated is no definition, unless it
    is a named value. -/
theorem classify_eq_none (hn : p.node? x = some node)
    (hnode : node matches .propertyReference .. | .binaryOperation .. | .conditional .. |
      .evaluate .. | .block _ | .program ..) : p.classify x = none := by
  unfold Program.classify
  rw [hn]
  cases node <;> first | rfl | cases hnode

end

section
variable {finish : Step}

/-- A member of the value of the receiver. -/
theorem Midway.property {receiver : NodeId} {n : Name}
    (hn : p.node? t.node = some (.propertyReference receiver n)) (hsub : b.Comes receiver)
    (h : b.Midway t (b.value t.node) (p.compile receiver ++ ⟨t.node, .finish⟩ :: t.after)
      t.operands (p.before t.node) L m f τ) : b.Reaches t m := by
  rw [value_eq] at h
  simp only [Program.evaluateNode, hn] at h
  refine h.part (by simp [hn]) hsub (by simp [Arena.children_eq hn]) (by simp)
    (Program.follows_own rfl (by simp) (by simp) Program.follows_after)
    fun {v w M m' g τ'} _ _ hv h => ?_
  refine (h.congr (Eval.give (p.propertyValue τ' t.node w n)) ?_).give (fun _ => id)
    (finish_property hn h.stands) rfl (Program.alike_propertyValue h.abreast.alike hv t.node n)
    (classify_eq_none hn rfl)
  rw [Eval.on_bind, Eval.on_get]

/-- A named value. -/
theorem Midway.bind {ns y : NodeId} {type : Option NodeId}
    (hn : p.node? t.node = some (.bind ns type (some y))) (hsub : b.Comes y)
    (h : b.Midway t (b.value t.node) (p.compile y ++ ⟨t.node, .finish⟩ :: t.after)
      t.operands (p.before t.node) L m f τ) : b.Reaches t m := by
  rw [value_eq] at h
  simp only [Program.evaluateNode, hn] at h
  refine h.part (by simp [hn]) hsub (by simp [Arena.children_eq hn]) (by simp)
    (Program.follows_own rfl (by simp) (by simp) Program.follows_after)
    fun {v w M m' g τ'} _ hv halike h => ?_
  have hbinds : p.BindsAtFinish t.node true := ⟨ns, type, y, hn⟩
  have h' : b.Midway t (if true then Eval.define b.top t.node w else Eval.give w) _ _ _ _ _ _ _ := h
  exact h'.finish (fun _ => id) (finish_bind hn h.stands) rfl halike hbinds fun _ => hv

theorem Midway.program {borrows : NodeRange} {main : NodeId}
    (hn : p.node? t.node = some (.program borrows main)) (hsub : b.Comes main)
    (h : b.Midway t (b.value t.node) (p.compile main ++ ⟨t.node, .finish⟩ :: t.after)
      t.operands (p.before t.node) L m f τ) : b.Reaches t m := by
  rw [value_eq] at h
  simp only [Program.evaluateNode, hn] at h
  rw [← bind_pure (b.value main)] at h
  refine h.part (by simp [hn]) hsub (by simp [Arena.children_eq hn]) (by simp)
    (Program.follows_own rfl (by simp) (by simp) Program.follows_after) fun _ hv halike h => ?_
  exact h.pass (fun _ => id) (fun m f => by simp only [Program.finish, hn]) hv halike
    (classify_eq_none hn rfl)

/-- The statements of a block, each of which is behind those after it. -/
theorem Midway.block {ss : NodeRange} (hn : p.node? t.node = some (.block ss))
    (hsub : ∀ c ∈ p.arena.list ss, b.Comes c)
    (h : b.Midway t (b.value t.node)
      ((p.arena.list ss).flatMap p.compile ++ ⟨t.node, .finish⟩ :: t.after)
      t.operands (p.before t.node) L m f τ) : b.Reaches t m := by
  have hp := b.separate
  have hmem := h.proper.outer.mem hp.tree
  have hchildren : p.arena.children t.node = p.arena.list ss := by
    rw [Arena.children_eq hn, Arena.childrenOf_block]
  have hnodup : (p.arena.list ss).Nodup := hchildren ▸ hp.tree.nodup_children hmem
  have hbefore (done : List NodeId) (c : NodeId) (rest : List NodeId)
      (hall : p.arena.list ss = done ++ c :: rest) : p.before c = p.before t.node ++ done := by
    have hc : c ∉ done := fun hc => by
      rw [hall, List.nodup_append] at hnodup
      exact hnodup.2.2 c hc c List.mem_cons_self rfl
    rw [Program.before_child hp.tree hmem (by simp [hchildren, hall]),
      Program.statementsBefore_eq hn hall hc]
  rw [value_eq] at h
  simp only [Program.evaluateNode, hn] at h
  have hown : ∀ s ∈ (⟨t.node, .finish⟩ :: t.after : List Step), s ∈ t.after ∨
      s.node = t.node ∧ s.kind ≠ .start ∧ s.kind ≠ .startFinish :=
    List.forall_mem_cons.2 ⟨.inr ⟨rfl, nofun, nofun⟩, fun _ => .inl⟩
  rw [← List.append_nil (p.before t.node)] at h
  refine h.inOrder (fun done => p.before t.node ++ done)
    (List.nil_append (p.arena.list ss)).symm hnodup (fun c hc => hchildren ▸ hc) hsub
    (fun done c rest hall => ?_) nofun hown fun {vs ws M m' g τ'} _ hlen hvs halikes h => ?_
  · rw [hbefore done c rest hall, List.append_assoc]
    exact ⟨rfl, .inr rfl⟩
  have hys : ∀ y ∈ p.before t.node, y ∈ p.before t.node ++ p.arena.list ss :=
    fun y => List.mem_append_left _
  have hclass := classify_eq_none (x := t.node) hn rfl
  have hlast := List.rel_getLast? halikes
  cases hv : vs.getLast? with
  | none =>
    obtain rfl := List.getLast?_eq_none_iff.1 hv
    cases halikes
    have hss : p.arena.list ss = [] := List.length_eq_zero_iff.1 hlen.symm
    exact Midway.give (n := 0) (w := .exception ⟨.emptyBlock, t.node⟩) h hys
      (finish_block_empty hn hss) rfl (.exception _) hclass
  | some v =>
    obtain ⟨us, rfl⟩ := List.getLast?_eq_some_iff.1 hv
    rw [hv] at hlast
    generalize ws.getLast? = o at hlast h
    cases hlast with | @some _ w halike =>
    have hfine := hvs v (by simp)
    have hw : w.exception? = none := halike.exception?_eq ▸ hfine
    refine Midway.give (w := w) (h.congr _ ?_) hys (finish_block hn hlen h.stands) ?_ halike hclass
    · cases w <;> first | rfl | cases hw
    · rw [← hlen, List.drop_left' (by simp)]

/-- The branch of a conditional that is chosen. -/
theorem Midway.conditional {condition yes no : NodeId}
    (hn : p.node? t.node = some (.conditional condition yes no)) (hcondition : b.Comes condition)
    (hyes : b.Comes yes) (hno : b.Comes no)
    (h : b.Midway t (b.value t.node) (p.compile condition ++
      ⟨t.node, .jumpIf ((p.compile yes).length + 1) true false⟩ :: (p.compile yes ++
        ⟨t.node, .jump (p.compile no).length⟩ :: (p.compile no ++ ⟨t.node, .finish⟩ :: t.after)))
      t.operands (p.before t.node) L m f τ) : b.Reaches t m := by
  have hchildren : p.arena.children t.node = [condition, yes, no] := by
    rw [Arena.children_eq hn, Arena.childrenOf_conditional]
  have hnodup := b.separate.tree.nodup_children (h.proper.outer.mem b.separate.tree)
  rw [hchildren] at hnodup
  simp only [List.nodup_cons, List.mem_cons, List.not_mem_nil, or_false, not_or] at hnodup
  obtain ⟨⟨hcy, hcn⟩, hyn, -⟩ := hnodup
  have hblock : ∀ ss, p.node? t.node ≠ some (.block ss) := by simp [hn]
  have hclass := classify_eq_none (x := t.node) hn rfl
  have hpass (m : Machine) (f : Frame) :
      p.finish m f [] ⟨t.node, .finish⟩ none = Program.passed none f t.node := by
    simp only [Program.finish, hn]
  have finish {c : NodeId} : ∀ s ∈ (⟨t.node, .finish⟩ :: t.after : List Step),
      p.Follows t.node c t.after s :=
    Program.follows_own rfl (by simp) (by simp) Program.follows_after
  -- What follows the branches, seen from a child that is not the second one.
  have second {c : NodeId} (hc : no ≠ c) : ∀ s ∈ (⟨t.node, .jump (p.compile no).length⟩ ::
      (p.compile no ++ ⟨t.node, .finish⟩ :: t.after) : List Step), p.Follows t.node c t.after s :=
    Program.follows_own rfl (by simp) (by simp)
      (Program.follows_sibling (by simp [hchildren]) hc finish)
  rw [value_eq] at h
  simp only [Program.evaluateNode, hn] at h
  refine h.part hblock hcondition (by simp [hchildren]) (by simp)
    (Program.follows_own rfl (by simp) (by simp) (Program.follows_sibling (by simp [hchildren]) (Ne.symm hcy) (second (Ne.symm hcn))))
    fun _ _ halike h => ?_
  have hst := h.stands
  cases halike with
  | bool choice =>
    have hmoves : Moves p limits _ _ _ _ _ _ _ := hst.jumpIf (by simp) (by simp) (by simp)
    cases choice with
    | true =>
      refine h.moves hmoves (fun s => List.mem_cons_of_mem _) fun h => ?_
      have h' := h
      rw [← bind_pure (b.value yes)] at h'
      refine h'.part hblock hyes (by simp [hchildren]) (by simp) (second (Ne.symm hyn))
        fun _ hv halike h => ?_
      -- After the branch, the other one is jumped over.
      have hmoves : Moves p limits _ _ _ _ _ _ _ := h.stands.jump (by simp) (by simp)
      rw [List.drop_left] at hmoves
      exact h.moves hmoves (fun s hs => by simp [hs]) fun h =>
        h.pass (fun _ => id) hpass hv halike hclass
    | false =>
      rw [if_pos rfl, Program.drop_past] at hmoves
      refine h.moves hmoves (fun s hs => ?_) fun h => ?_
      · simp [hs]
      · have h' := h
        rw [← bind_pure (b.value no)] at h'
        exact h'.part hblock hno (by simp [hchildren]) (by simp) finish fun _ hv halike h =>
          h.pass (fun _ => id) hpass hv halike hclass
  | _ => exact h.raise (hst.step_jumpIf (by simp))

/-- The right operand and the call of an operator, after the left operand. -/
theorem Midway.operate {left right : NodeId} {op : Name} {l l' : Value}
    (hn : p.node? t.node = some (.binaryOperation left op right)) (hright : b.Comes right)
    (hl : l.exception? = none) (halike : l.Alike p L l')
    (h : b.Midway t (Program.evaluateNode.operate p
        (p.invoke limits.room (p.topEnv b.top b.begun.streams)) b.value t.node op l' right)
      (p.compile right ++ ⟨t.node, .startEvaluation⟩ :: ⟨t.node, .finish⟩ :: t.after)
      (l :: t.operands) (p.before t.node) L m f τ) : b.Reaches t m := by
  have hpass (m : Machine) (f : Frame) :
      p.finish m f [] ⟨t.node, .finish⟩ none = Program.passed none f t.node := by
    simp only [Program.finish, hn]
  unfold Program.evaluateNode.operate at h
  refine h.part (by simp [hn]) hright (by simp [Arena.children_eq hn]) (by simp)
    (Program.follows_own rfl (by simp) (by simp)
      (Program.follows_own rfl (by simp) (by simp) Program.follows_after))
    fun {r r' M m g τ'} hle hr halike' h => ?_
  obtain ⟨g', hstep, hsame, hgoes, hcode, hops⟩ := h.stands.step_operator limits hn hl hr
  have hmethod := Program.alike_method? (halike.mono hle) op
  revert hmethod hstep h
  generalize p.method? l op = o, p.method? l' op = o'
  rintro h hstep (hmethod | _)
  · exact h.call hstep hsame hgoes hcode (by simp) hops hmethod (.cons halike' .nil)
      fun hv halike h => h.pass (fun _ => id) hpass hv halike (classify_eq_none hn rfl)
  · exact h.raise hstep

/-- An operator, whose left operand may be the value already. -/
theorem Midway.binaryOperation {left right : NodeId} {op : Name}
    (hn : p.node? t.node = some (.binaryOperation left op right)) (hleft : b.Comes left)
    (hright : b.Comes right)
    (h : b.Midway t (b.value t.node) (p.compile left ++
      ((if op.isShortCircuit then
        [⟨t.node, .jumpIf ((p.compile right).length + 1) false (op == .or)⟩] else []) ++
        (p.compile right ++ ⟨t.node, .startEvaluation⟩ :: ⟨t.node, .finish⟩ :: t.after)))
      t.operands (p.before t.node) L m f τ) : b.Reaches t m := by
  have hchildren : p.arena.children t.node = [left, right] := by
    rw [Arena.children_eq hn, Arena.childrenOf_binaryOperation]
  have hnodup := b.separate.tree.nodup_children (h.proper.outer.mem b.separate.tree)
  rw [hchildren] at hnodup
  simp only [List.nodup_cons, List.mem_cons, List.not_mem_nil, or_false] at hnodup
  have hblock : ∀ ss, p.node? t.node ≠ some (.block ss) := by simp [hn]
  have hpass (m : Machine) (f : Frame) :
      p.finish m f [] ⟨t.node, .finish⟩ none = Program.passed none f t.node := by
    simp only [Program.finish, hn]
  have hfollows : ∀ s ∈ (p.compile right ++ ⟨t.node, .startEvaluation⟩ :: ⟨t.node, .finish⟩ ::
      t.after), p.Follows t.node left t.after s :=
    Program.follows_sibling (by simp [hchildren]) (Ne.symm hnodup.1)
      (Program.follows_own rfl (by simp) (by simp)
        (Program.follows_own rfl (by simp) (by simp) Program.follows_after))
  rw [value_eq] at h
  simp only [Program.evaluateNode, hn] at h
  cases hop : op.isShortCircuit with
  | false =>
    rw [hop, if_neg (by simp), List.nil_append] at h
    refine h.part hblock hleft (by simp [hchildren]) (by simp) hfollows fun _ hl halike h => ?_
    exact h.operate hn hright hl halike
  | true =>
    rw [hop, if_pos rfl, List.singleton_append] at h
    refine h.part hblock hleft (by simp [hchildren]) (by simp)
      (Program.follows_own rfl (by simp) (by simp) hfollows) fun _ hl halike h => ?_
    have hst := h.stands
    cases halike with
    | bool value =>
      dsimp only at h
      have hmoves : Moves p limits _ _ _ _ _ _ _ := hst.jumpIf (by simp) (by simp) (by simp)
      by_cases hvalue : value = (op == .or)
      · rw [if_pos hvalue, Program.drop_past] at hmoves
        rw [if_pos hvalue] at h
        refine h.moves hmoves (fun s hs => by
          rcases List.mem_cons.1 hs with rfl | hs <;> simp [*]) fun h => ?_
        exact h.pass (fun _ => id) hpass rfl (.bool value) (classify_eq_none hn rfl)
      · rw [if_neg hvalue] at hmoves h
        exact h.moves hmoves (fun s => List.mem_cons_of_mem _) fun h =>
          h.operate hn hright rfl (.bool value)
    | _ => exact h.raise (hst.step_jumpIf (by simp))

/-- A call takes the values of the callee and of the arguments. -/
theorem Midway.evaluate {function : NodeId} {is : NodeRange}
    (hn : p.node? t.node = some (.evaluate function is)) (hfunction : b.Comes function)
    (his : ∀ c ∈ p.arena.list is, b.Comes c)
    (h : b.Midway t (b.value t.node) (p.compile function ++
      ((p.arena.list is).flatMap p.compile ++ ⟨t.node, .startEvaluation⟩ ::
        ⟨t.node, .finish⟩ :: t.after)) t.operands (p.before t.node) L m f τ) : b.Reaches t m := by
  have hp := b.separate
  have hmem := h.proper.outer.mem hp.tree
  have hchildren : p.arena.children t.node = function :: p.arena.list is := by
    rw [Arena.children_eq hn, Arena.childrenOf_evaluate]
  have hin (c : NodeId) (hc : c ∈ p.arena.list is) : c ∈ p.arena.children t.node := by
    simp [hchildren, hc]
  have hnodup := hp.tree.nodup_children hmem
  rw [hchildren, List.nodup_cons] at hnodup
  have hblock : ∀ ss, p.node? t.node ≠ some (.block ss) := by simp [hn]
  have hpass (m : Machine) (f : Frame) :
      p.finish m f [] ⟨t.node, .finish⟩ none = Program.passed none f t.node := by
    simp only [Program.finish, hn]
  have hown : ∀ s ∈ (⟨t.node, .startEvaluation⟩ :: ⟨t.node, .finish⟩ :: t.after : List Step),
      s ∈ t.after ∨ s.node = t.node ∧ s.kind ≠ .start ∧ s.kind ≠ .startFinish :=
    List.forall_mem_cons.2 ⟨.inr ⟨rfl, (by simp), (by simp)⟩,
      List.forall_mem_cons.2 ⟨.inr ⟨rfl, (by simp), (by simp)⟩, fun _ => .inl⟩⟩
  rw [value_eq] at h
  simp only [Program.evaluateNode, hn] at h
  refine h.part hblock hfunction (by simp [hchildren]) (by simp) (fun s hs => ?_)
    fun {callee callee' M m g τ'} _ hcallee halike h => ?_
  · rcases List.mem_append.1 hs with hs | hs
    · obtain ⟨d, hd, hs⟩ := List.mem_flatMap.1 hs
      exact .inr (.inr ⟨d, hin d hd, fun e => hnodup.1 (e ▸ hd), hs⟩)
    · exact (hown s hs).imp id .inl
  refine h.inOrder (fun _ => p.before t.node) (List.nil_append (p.arena.list is)).symm hnodup.2 hin
    his (fun done c rest hall => ?_) (by simp) hown
    fun {arguments arguments' M' m g τ'} hle hlen hvs halikes h => ?_
  · have hbefore := Program.before_part hp.tree hmem (hin c (by simp [hall])) hblock
    exact ⟨hbefore.symm, .inl hbefore.symm⟩
  obtain ⟨g', hstep, hsame, hgoes, hcode, hops⟩ := h.stands.step_evaluation limits hn hlen
    (List.forall_mem_cons.2 ⟨hcallee, hvs⟩)
  exact h.call hstep hsame hgoes hcode (by simp) hops (halike.mono hle) halikes fun hv halike h =>
    h.pass (fun _ => id) hpass hv halike (classify_eq_none hn rfl)

end

/-! ## The induction -/

/-- **Runs that use what is remembered.**  Wherever a run comes to a node of the program itself,
    beside an evaluation of the program, it leaves a value that is like that of the evaluation,
    or raises the exception that the evaluation raises; what it remembers on the way is right. -/
theorem comes (hx : p.Outer x) : b.Comes x := by
  have hp := b.separate.acyclic
  obtain ⟨rank, hrank⟩ := hp
  have hp : p.arena.Acyclic := ⟨rank, hrank⟩
  induction hr : rank x using Nat.strongRecOn generalizing x with
  | _ n ih =>
    subst hr
    cases hn : p.node? x with
    | none =>
      refine comes_leaf hx ?_
      simp only [Arena.compileNode, show p.arena.node? x = none from hn]
    | some node =>
      have hnode : p.arena.node? x = some node := hn
      have hcode := Arena.compileNode.eq_1 p.arena p.compile x
      simp only [hnode] at hcode
      have leaf (hleaf : p.arena.compileNode p.compile x = [⟨x, .startFinish⟩]) : b.Comes x :=
        comes_leaf hx hleaf
      by_cases hf : p.IsFunction x
      · obtain ⟨ns, vs, is, output, body, hf⟩ := hf
        rw [hf] at hn
        cases hn
        exact leaf hcode
      by_cases hs : p.IsStructure x
      · obtain ⟨ns, fs, vs, is, body, hs⟩ := hs
        rw [hs] at hn
        cases hn
        exact leaf hcode
      have hcompile := (Program.compile_eq hp x).trans hcode
      have closed (c : NodeId) (hc : c ∈ p.arena.children x) : ⟨x, .finish⟩ ∉ p.compile c :=
        Program.finish_notMem_compile hrank (hrank x c hc)
      have sub (c : NodeId) (hc : c ∈ p.arena.children x) : b.Comes c :=
        ih (rank c) (hrank x c hc) (hx.child hf hs hc) rfl
      simp only [Arena.children_eq hnode] at closed sub
      cases node with
      | propertyReference receiver n =>
        have hbinds : p.BindsAtFinish x false := classify_eq_none hn rfl
        refine comes_around hx hf hs hcompile (closed receiver (by simp)) hbinds
          (fun m f v => by simp only [Program.finish, hn]) ?_
        rintro t L m f τ rfl h
        exact h.property hn (sub receiver (by simp))
      | bind ns type y =>
        cases y with
        | none => exact leaf hcode
        | some y =>
          have hbinds : p.BindsAtFinish x true := ⟨ns, type, y, hn⟩
          refine comes_around hx hf hs hcompile (closed y (by simp)) hbinds
            (fun m f v => by simp only [Program.finish, hn]) ?_
          rintro t L m f τ rfl h
          exact h.bind hn (sub y (by simp))
      | program borrows main =>
        have hbinds : p.BindsAtFinish x false := classify_eq_none hn rfl
        refine comes_around hx hf hs hcompile (closed main (by simp)) hbinds
          (fun m f v => by simp only [Program.finish, hn]; rfl) ?_
        rintro t L m f τ rfl h
        exact h.program hn (sub main (by simp))
      | block ss =>
        have hbinds : p.BindsAtFinish x false := classify_eq_none hn rfl
        refine comes_around hx hf hs hcompile
          (by simpa using fun c hc => closed c (by simp [hc])) hbinds
          (fun m f v => by simp only [Program.finish, hn]) ?_
        rintro t L m f τ rfl h
        exact h.block hn fun c hc => sub c (by simp [hc])
      | conditional condition yes no =>
        have hbinds : p.BindsAtFinish x false := classify_eq_none hn rfl
        have hinside : p.compile x = ⟨x, .start⟩ :: ((p.compile condition ++
            ⟨x, .jumpIf ((p.compile yes).length + 1) true false⟩ :: (p.compile yes ++
              ⟨x, .jump (p.compile no).length⟩ :: p.compile no)) ++ [⟨x, .finish⟩]) := by
          simpa using hcompile
        refine comes_around hx hf hs hinside (by simp [closed]) hbinds
          (fun m f v => by simp only [Program.finish, hn]; rfl) ?_
        rintro t L m f τ rfl h
        simp only [List.append_assoc, List.cons_append] at h
        exact h.conditional hn (sub condition (by simp)) (sub yes (by simp)) (sub no (by simp))
      | binaryOperation left op right =>
        have hbinds : p.BindsAtFinish x false := classify_eq_none hn rfl
        have hinside : p.compile x = ⟨x, .start⟩ :: ((p.compile left ++
            ((if op.isShortCircuit then
              [⟨x, .jumpIf ((p.compile right).length + 1) false (op == .or)⟩] else []) ++
              (p.compile right ++ [⟨x, .startEvaluation⟩]))) ++ [⟨x, .finish⟩]) := by
          simpa using hcompile
        refine comes_around hx hf hs hinside (by split <;> simp [closed]) hbinds
          (fun m f v => by simp only [Program.finish, hn]; rfl) ?_
        rintro t L m f τ rfl h
        simp only [List.append_assoc, List.singleton_append] at h
        exact h.binaryOperation hn (sub left (by simp)) (sub right (by simp))
      | evaluate function is =>
        have hbinds : p.BindsAtFinish x false := classify_eq_none hn rfl
        have hinside : p.compile x = ⟨x, .start⟩ :: ((p.compile function ++
            ((p.arena.list is).flatMap p.compile ++ [⟨x, .startEvaluation⟩])) ++
              [⟨x, .finish⟩]) := by
          simpa using hcompile
        refine comes_around hx hf hs hinside
          (by simpa [closed] using fun c hc => closed c (by simp [hc])) hbinds
          (fun m f v => by simp only [Program.finish, hn]; rfl) ?_
        rintro t L m f τ rfl h
        simp only [List.append_assoc, List.singleton_append] at h
        exact h.evaluate hn (sub function (by simp)) (fun c hc => sub c (by simp [hc]))
      | _ => exact leaf hcode

end Arbor.Beside
