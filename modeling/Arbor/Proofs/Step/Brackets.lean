/-
  The brackets of compiled code, and where its jumps lead.

  * `Inside m code`: the code may stand between the start and the finish of `m`.  In it
    starts and finishes pair up like brackets, and every other step belongs to the node
    whose bracket is the innermost around it;
  * `Spliced m parts code`: the code is put together from steps of `m` itself and from the
    complete code of some of the nodes `parts`;
  * `Encloses m parts code`: the code is one step of `m`, or such code between the start and
    the finish of `m`;
  * `Lands m offset code`: a jump of `m` over the next steps stays inside the bracket of
    `m`, and leads to the finish of `m` or, in a conditional, to what is evaluated if the
    condition does not hold.

  Main statements: `encloses_compile`, `inside_compile` and `jumpsLand_compile`, each with
  its counterpart for bodies.
-/
import Arbor.Step.Compile

namespace Arbor

/-- The number of steps that a step may leave out. -/
def Step.offset? (s : Step) : Option Nat :=
  match s.kind with
  | .jumpIf offset _ _ | .jump offset => some offset
  | _ => none

/-- Whether a step is run inside its node: it neither opens nor closes it. -/
def Step.isInner (s : Step) : Bool :=
  match s.kind with
  | .jumpIf .. | .jump _ | .startEvaluation => true
  | _ => false

/-! ## Brackets -/

/-- Code between the start and the finish of a node. -/
inductive Inside : NodeId → List Step → Prop
  | nil {m : NodeId} : Inside m []
  | own {m : NodeId} {s : Step} {code : List Step} :
      s.node = m → s.isInner = true → Inside m code → Inside m (s :: code)
  | leaf {m id : NodeId} {code : List Step} :
      Inside m code → Inside m (⟨id, .startFinish⟩ :: code)
  | bracket {m id : NodeId} {inside code : List Step} :
      Inside id inside → Inside m code →
      Inside m (⟨id, .start⟩ :: (inside ++ ⟨id, .finish⟩ :: code))

theorem Inside.append {m : NodeId} {xs ys : List Step} (hx : Inside m xs) (hy : Inside m ys) :
    Inside m (xs ++ ys) := by
  induction hx with
  | nil => exact hy
  | own hs hi _ ih => exact .own hs hi (ih hy)
  | leaf _ ih => exact .leaf (ih hy)
  | bracket hin _ _ ih =>
    rw [List.cons_append, List.append_assoc]
    exact .bracket hin (ih hy)

namespace Program

theorem compile_eq {p : Program} (h : p.arena.Acyclic) (id : NodeId) :
    p.compile id = p.arena.compileNode p.compile id :=
  Arena.compile_eq h id

variable (p : Program)

/-- Code that is put together from steps of a node and from the code of other nodes. -/
inductive Spliced (m : NodeId) (parts : List NodeId) : List Step → Prop
  | nil : Spliced m parts []
  | own {s : Step} {code : List Step} :
      s.node = m → s.isInner = true → Spliced m parts code → Spliced m parts (s :: code)
  | part {c : NodeId} {code : List Step} :
      c ∈ parts → Spliced m parts code → Spliced m parts (p.compile c ++ code)

/-- The code of a node around parts: one step, or what is put together between the start of
    the node and its finish. -/
def Encloses (m : NodeId) (parts : List NodeId) (code : List Step) : Prop :=
  code = [⟨m, .startFinish⟩] ∨
    ∃ inside, code = ⟨m, .start⟩ :: (inside ++ [⟨m, .finish⟩]) ∧ p.Spliced m parts inside

variable {p} {m : NodeId} {parts : List NodeId} {code more : List Step}

namespace Spliced

theorem flatMap {cs : List NodeId} (hcs : ∀ c ∈ cs, c ∈ parts) (h : p.Spliced m parts code) :
    p.Spliced m parts (cs.flatMap p.compile ++ code) := by
  induction cs with
  | nil => exact h
  | cons c cs ih =>
    rw [List.flatMap_cons, List.append_assoc]
    exact .part (hcs c List.mem_cons_self) (ih fun d hd => hcs d (List.mem_cons_of_mem _ hd))

/-- What is put together from brackets and own steps may stand inside the node. -/
theorem inside (h : p.Spliced m parts code) (each : ∀ c ∈ parts, Inside m (p.compile c)) :
    Inside m code := by
  induction h with
  | nil => exact .nil
  | own hs hi _ ih => exact .own hs hi ih
  | part hc _ ih => exact (each _ hc).append ih

end Spliced

theorem Spliced.encloses {inside : List Step} (h : p.Spliced m parts inside) :
    p.Encloses m parts ([⟨m, .start⟩] ++ inside ++ [⟨m, .finish⟩]) :=
  .inr ⟨inside, by simp, h⟩

/-- **Code is spliced from the code of the children** between the start and the finish of
    its node. -/
theorem encloses_compile (h : p.arena.Acyclic) (id : NodeId) :
    p.Encloses id (p.arena.children id) (p.compile id) := by
  have call : p.Spliced id (p.arena.children id) [⟨id, .startEvaluation⟩] := .own rfl rfl .nil
  -- The code of a child that is the last inside its node.
  have last {c : NodeId} (hc : c ∈ p.arena.children id) :
      p.Spliced id (p.arena.children id) (p.compile c) := by
    rw [← List.append_nil (p.compile c)]
    exact .part hc .nil
  rw [compile_eq h]
  unfold Arena.compileNode
  split
  · next left op right hn =>
    have hl : left ∈ p.arena.children id := by simp [Arena.children_eq hn]
    have hr : right ∈ p.arena.children id := by simp [Arena.children_eq hn]
    have hcall := Spliced.part hr call
    have hskip : p.Spliced id (p.arena.children id) ((if op.isShortCircuit then
        [⟨id, .jumpIf ((p.compile right).length + 1) false (op == .or)⟩] else []) ++
          (p.compile right ++ [⟨id, .startEvaluation⟩])) := by
      split
      · exact .own rfl rfl hcall
      · exact hcall
    simpa using (Spliced.part hl hskip).encloses
  · next condition yes no hn =>
    have hc : condition ∈ p.arena.children id := by simp [Arena.children_eq hn]
    have hy : yes ∈ p.arena.children id := by simp [Arena.children_eq hn]
    have hno : no ∈ p.arena.children id := by simp [Arena.children_eq hn]
    have branches : p.Spliced id (p.arena.children id)
        (⟨id, .jumpIf ((p.compile yes).length + 1) true false⟩ ::
          (p.compile yes ++ ⟨id, .jump (p.compile no).length⟩ :: p.compile no)) :=
      .own rfl rfl (.part hy (.own rfl rfl (last hno)))
    simpa using (Spliced.part hc branches).encloses
  · next function is hn =>
    have hf : function ∈ p.arena.children id := by simp [Arena.children_eq hn]
    have his : ∀ c ∈ p.arena.list is, c ∈ p.arena.children id := by
      simp +contextual [Arena.children_eq hn]
    simpa using (Spliced.part hf (.flatMap his call)).encloses
  · next receiver n hn => exact (last (by simp [Arena.children_eq hn])).encloses
  · next ss hn =>
    have hss : ∀ c ∈ p.arena.list ss, c ∈ p.arena.children id := by
      simp [Arena.children_eq hn]
    simpa using (Spliced.flatMap hss .nil).encloses
  · next ns type value hn => exact (last (by simp [Arena.children_eq hn])).encloses
  · next borrows main hn => exact (last (by simp [Arena.children_eq hn])).encloses
  · exact .inl rfl

/-- The statements of a structure are spliced between its start and its finish. -/
theorem encloses_compileBody {id ns : NodeId} {fs vs is : NodeRange} {body : Option NodeId}
    (hn : p.node? id = some (.structureDefinition ns fs vs is body)) :
    p.Encloses id (p.statements id) (p.compileBody id) := by
  unfold compileBody
  rw [hn]
  have statements : p.Spliced id (p.statements id) ((p.statements id).flatMap p.compile ++ []) :=
    .flatMap (fun _ hc => hc) .nil
  simpa using statements.encloses

theorem Encloses.inside {id : NodeId} (h : p.Encloses id parts code)
    (each : ∀ c ∈ parts, Inside id (p.compile c)) : Inside m code := by
  obtain rfl | ⟨inside, rfl, hin⟩ := h
  · exact .leaf .nil
  · exact .bracket (hin.inside each) .nil

section
variable {rank : NodeId → Nat} (hrank : ∀ id, ∀ c ∈ p.arena.children id, rank c < rank id)
include hrank

/-- **Starts and finishes nest.**  The code of a node may stand inside any node. -/
theorem inside_compile (id : NodeId) : Inside m (p.compile id) := by
  induction h : rank id using Nat.strongRecOn generalizing id m with
  | _ n ih =>
    subst h
    exact (encloses_compile ⟨rank, hrank⟩ id).inside fun c hc =>
      ih (rank c) (hrank id c hc) c rfl

end

/-! ## Jumps -/

variable (p) in
/-- A jump of a node over the first steps of the code stays inside the bracket of the
    node, and leads to its finish or, in a conditional, to its `no`. -/
def Lands (m : NodeId) (offset : Nat) (code : List Step) : Prop :=
  Inside m (code.take offset) ∧
    ([⟨m, .finish⟩] <+: code.drop offset ∨
      ∃ condition yes no, p.node? m = some (.conditional condition yes no) ∧
        p.compile no ++ [⟨m, .finish⟩] <+: code.drop offset)

theorem lands_finish {inside : List Step} (h : Inside m inside) :
    p.Lands m inside.length (inside ++ ⟨m, .finish⟩ :: more) := by
  unfold Lands
  rw [List.take_left, List.drop_left]
  exact ⟨h, .inl ⟨more, rfl⟩⟩

theorem lands_no {inside : List Step} {condition yes no : NodeId} (h : Inside m inside)
    (hn : p.node? m = some (.conditional condition yes no)) :
    p.Lands m inside.length (inside ++ (p.compile no ++ ⟨m, .finish⟩ :: more)) := by
  unfold Lands
  rw [List.take_left, List.drop_left]
  exact ⟨h, .inr ⟨condition, yes, no, hn, more, by simp⟩⟩

theorem Lands.lt {offset : Nat} (h : p.Lands m offset code) : offset < code.length := by
  have hne : code.drop offset ≠ [] := by
    rintro hnil
    obtain hl | ⟨_, _, _, _, hl⟩ := h.2 <;> simp [hnil] at hl
  simpa using hne

theorem Lands.append {offset : Nat} (h : p.Lands m offset code) :
    p.Lands m offset (code ++ more) := by
  have hle := Nat.le_of_lt h.lt
  obtain ⟨hin, hl⟩ := h
  unfold Lands
  rw [List.take_append_of_le_length hle, List.drop_append_of_le_length hle]
  refine ⟨hin, hl.imp (·.trans (List.prefix_append _ _)) ?_⟩
  rintro ⟨condition, yes, no, hn, hl⟩
  exact ⟨condition, yes, no, hn, hl.trans (List.prefix_append _ _)⟩

variable (p) in
/-- Every jump of the code stays inside the bracket of its node. -/
def JumpsLand : List Step → Prop
  | [] => True
  | s :: code => (∀ o, s.offset? = some o → p.Lands s.node o code) ∧ JumpsLand code

namespace JumpsLand

/-- A step without a jump before code. -/
theorem plain {s : Step} (hs : s.offset? = none) (h : p.JumpsLand code) :
    p.JumpsLand (s :: code) := by
  refine ⟨fun o ho => ?_, h⟩
  rw [hs] at ho
  cases ho

theorem append (hx : p.JumpsLand code) (hy : p.JumpsLand more) : p.JumpsLand (code ++ more) := by
  induction code with
  | nil => exact hy
  | cons s code ih => exact ⟨fun o ho => (hx.1 o ho).append, ih hx.2⟩

theorem flatMap {cs : List NodeId} (h : ∀ c ∈ cs, p.JumpsLand (p.compile c)) :
    p.JumpsLand (cs.flatMap p.compile) := by
  induction cs with
  | nil => trivial
  | cons c cs ih =>
    rw [List.flatMap_cons]
    exact (h c List.mem_cons_self).append (ih fun d hd => h d (List.mem_cons_of_mem _ hd))

/-- Where a jump at a place of the code leads to. -/
theorem lands (h : p.JumpsLand code) {i o : Nat} {s : Step} (hs : code[i]? = some s)
    (ho : s.offset? = some o) : p.Lands s.node o (code.drop (i + 1)) := by
  induction code generalizing i with
  | nil => cases hs
  | cons t code ih =>
    cases i with
    | zero =>
      cases hs
      exact h.1 o ho
    | succ i => exact ih h.2 hs

end JumpsLand

section
variable {rank : NodeId → Nat} (hrank : ∀ id, ∀ c ∈ p.arena.children id, rank c < rank id)
include hrank

/-- **Jumps are closed.**  The jumps of compiled code stay in the brackets of their nodes. -/
theorem jumpsLand_compile (id : NodeId) : p.JumpsLand (p.compile id) := by
  induction h : rank id using Nat.strongRecOn generalizing id with
  | _ n ih =>
    subst h
    have child {c : NodeId} (hc : c ∈ p.arena.children id) : p.JumpsLand (p.compile c) :=
      ih (rank c) (hrank id c hc) c rfl
    rw [compile_eq ⟨rank, hrank⟩]
    unfold Arena.compileNode
    split
    · next left op right hn =>
      have hl : p.JumpsLand (p.compile left) := child (by simp [Arena.children_eq hn])
      have hr : p.JumpsLand (p.compile right) := child (by simp [Arena.children_eq hn])
      have call : p.JumpsLand (p.compile right ++ [⟨id, .startEvaluation⟩, ⟨id, .finish⟩]) :=
        hr.append (.plain rfl (.plain rfl trivial))
      simp only [List.append_assoc, List.singleton_append]
      refine .plain rfl (hl.append ?_)
      split
      · refine ⟨fun o ho => ?_, call⟩
        cases ho
        -- The call is left out together with the right operand.
        have skipped : Inside id (p.compile right ++ [⟨id, .startEvaluation⟩]) :=
          (inside_compile hrank right).append (.own rfl rfl .nil)
        have hlands : p.Lands id _ (_ ++ ⟨id, .finish⟩ :: []) := lands_finish skipped
        simpa using hlands
      · exact call
    · next condition yes no hn =>
      have hc : p.JumpsLand (p.compile condition) := child (by simp [Arena.children_eq hn])
      have hy : p.JumpsLand (p.compile yes) := child (by simp [Arena.children_eq hn])
      have hno : p.JumpsLand (p.compile no) := child (by simp [Arena.children_eq hn])
      simp only [List.append_assoc, List.singleton_append]
      refine .plain rfl (hc.append ⟨fun o ho => ?_, hy.append ⟨fun o ho => ?_, ?_⟩⟩)
      · cases ho
        have skipped : Inside id (p.compile yes ++ [⟨id, .jump (p.compile no).length⟩]) :=
          (inside_compile hrank yes).append (.own rfl rfl .nil)
        have hlands : p.Lands id _ (_ ++ (p.compile no ++ ⟨id, .finish⟩ :: [])) :=
          lands_no skipped hn
        simpa using hlands
      · cases ho
        exact lands_finish (inside_compile hrank no)
      · exact hno.append (.plain rfl trivial)
    · next function is hn =>
      have hf : p.JumpsLand (p.compile function) := child (by simp [Arena.children_eq hn])
      have his : p.JumpsLand ((p.arena.list is).flatMap p.compile) :=
        .flatMap fun c hc => child (by simp [Arena.children_eq hn, hc])
      simp only [List.append_assoc, List.singleton_append]
      exact .plain rfl (hf.append (his.append (.plain rfl (.plain rfl trivial))))
    · next receiver n hn =>
      have hc : p.JumpsLand (p.compile receiver) := child (by simp [Arena.children_eq hn])
      exact (JumpsLand.plain rfl hc).append (.plain rfl trivial)
    · next ss hn =>
      have hss : p.JumpsLand ((p.arena.list ss).flatMap p.compile) :=
        .flatMap fun c hc => child (by simp [Arena.children_eq hn, hc])
      exact (JumpsLand.plain rfl hss).append (.plain rfl trivial)
    · next ns type value hn =>
      have hc : p.JumpsLand (p.compile value) := child (by simp [Arena.children_eq hn])
      exact (JumpsLand.plain rfl hc).append (.plain rfl trivial)
    · next borrows main hn =>
      have hc : p.JumpsLand (p.compile main) := child (by simp [Arena.children_eq hn])
      exact (JumpsLand.plain rfl hc).append (.plain rfl trivial)
    · exact .plain rfl trivial

/-- The jumps of a body stay in the brackets of their nodes. -/
theorem jumpsLand_compileBody (id : NodeId) : p.JumpsLand (p.compileBody id) := by
  unfold compileBody
  split
  · exact jumpsLand_compile hrank _
  · exact (JumpsLand.plain rfl (.flatMap fun c _ => jumpsLand_compile hrank c)).append
      (.plain rfl trivial)
  · trivial

end

end Program

end Arbor
