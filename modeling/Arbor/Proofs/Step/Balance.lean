/-
  The balance of code: how many values each step takes and leaves.

  A step takes the values that the steps before it have left (`Program.needs`).
  `Balanced code height opened` says that code which is run with `height` values and
  inside the nodes `opened` never needs more values than there are, jumps only inside
  itself, and ends with exactly one value, whatever its jumps decide and whichever
  nodes are skipped from their start to their finish.

  Main statements: `balanced_compile`, the steps of a node leave one more value and
  are balanced wherever balanced code follows; `balanced_compileBody`, a body is
  balanced from no values on.
-/
import Arbor.Proofs.Machine.Code
import Arbor.Proofs.Step.Brackets
import Arbor.Proofs.Value.Sound

namespace Arbor

namespace Program

variable (p : Program)

/-! ## What steps take -/

/-- The number of values that a node takes at its finish if its children were run. -/
def childValues (s : Step) : Nat :=
  match p.node? s.node with
  | some (.propertyReference ..) | some (.binaryOperation ..) | some (.evaluate ..)
  | some (.conditional ..) | some (.program ..) | some (.bind _ _ (some _)) => 1
  | some (.block ss) => (p.arena.list ss).length
  | some (.structureDefinition ..) =>
    if s.kind = .finish then (p.statements s.node).length else 0
  | _ => 0

/-- The number of values that a node takes where it starts an evaluation. -/
def callValues (id : NodeId) : Nat :=
  match p.node? id with
  | some (.binaryOperation ..) => 2
  | some (.evaluate _ is) => (p.arena.list is).length + 1
  | _ => 0

/-- The number of values that a step needs; `prior` is what is remembered for its
    node, if the children of the node were skipped. -/
def needs (s : Step) (prior : Option Value) : Nat :=
  match s.kind with
  | .start | .jump _ => 0
  | .jumpIf .. => 1
  | .startEvaluation => p.callValues s.node
  | .finish | .startFinish => if prior.isSome then 0 else p.childValues s

/-! ## Balanced code -/

/-- Code that is run with `height` values, inside the nodes `opened`, the innermost
    first, needs no more values than there are and leaves exactly one. -/
inductive Balanced : (code : List Step) → (height : Nat) → (opened : List NodeId) → Prop
  | done : Balanced [] 1 []
  /-- A node is run, or else skipped to its finish, which then leaves a value. -/
  | start {id : NodeId} {h : Nat} {os : List NodeId} {inside after : List Step} :
      id ∉ os → Balanced (inside ++ ⟨id, .finish⟩ :: after) h (id :: os) →
      ⟨id, .finish⟩ ∉ inside → Balanced after (h + 1) os →
      Balanced (⟨id, .start⟩ :: (inside ++ ⟨id, .finish⟩ :: after)) h os
  | finish {id : NodeId} {h : Nat} {os : List NodeId} {after : List Step} :
      id ∉ os → Balanced after (h + 1) os →
      Balanced (⟨id, .finish⟩ :: after) (h + p.childValues ⟨id, .finish⟩) (id :: os)
  | startFinish {id : NodeId} {h : Nat} {os : List NodeId} {after : List Step} :
      p.childValues ⟨id, .startFinish⟩ = 0 → Balanced after (h + 1) os →
      Balanced (⟨id, .startFinish⟩ :: after) h os
  /-- Both ways on are balanced. -/
  | jumpIf {id : NodeId} {offset h : Nat} {consume jumpWhen : Bool} {os : List NodeId}
      {after : List Step} :
      offset ≤ after.length → Balanced after (if consume then h else h + 1) os →
      Balanced (after.drop offset) (if consume then h else h + 1) os →
      Balanced (⟨id, .jumpIf offset consume jumpWhen⟩ :: after) (h + 1) os
  | jump {id : NodeId} {offset h : Nat} {os : List NodeId} {after : List Step} :
      offset ≤ after.length → Balanced (after.drop offset) h os →
      Balanced (⟨id, .jump offset⟩ :: after) h os
  /-- The value of the evaluation is there when the code goes on. -/
  | startEvaluation {id : NodeId} {h : Nat} {os : List NodeId} {after : List Step} :
      after ≠ [] → Balanced after (h + 1) os →
      Balanced (⟨id, .startEvaluation⟩ :: after) (h + p.callValues id) os

variable {p}

/-- A node around balanced code. -/
theorem Balanced.around (inside after : List Step) {id : NodeId} {h : Nat} {os : List NodeId}
    (hid : id ∉ os) (hin : p.Balanced (inside ++ ⟨id, .finish⟩ :: after) h (id :: os))
    (hcl : ⟨id, .finish⟩ ∉ inside) (hb : p.Balanced after (h + 1) os) :
    p.Balanced (⟨id, .start⟩ :: inside ++ [⟨id, .finish⟩] ++ after) h os := by
  rw [List.append_assoc]
  exact .start hid hin hcl hb

theorem drop_past {α : Type} (xs : List α) (x : α) (ys : List α) :
    (xs ++ x :: ys).drop (xs.length + 1) = ys := by
  rw [← List.drop_drop, List.drop_left]
  rfl

end Program

/-! ## Jumps -/

/-- Every jump leads to a step of the code, or to its end. -/
def JumpsInside : List Step → Prop
  | [] => True
  | s :: code => (∀ o, s.offset? = some o → o ≤ code.length) ∧ JumpsInside code

namespace JumpsInside

end JumpsInside

namespace Program

variable {p : Program}

/-! ## The nodes of compiled steps -/

/-- A step of a node is its own or one of a node below it; the finish of a node is never
    that of a structure, which has a body of its own. -/
theorem own_or_below (h : p.arena.Acyclic) {s : Step} {id : NodeId} (hs : s ∈ p.compile id) :
    (s.node = id ∧ (s.kind = .finish → ¬p.IsStructure id)) ∨
      ∃ c ∈ p.arena.children id, s ∈ p.compile c := by
  rw [compile_eq h] at hs
  unfold Arena.compileNode at hs
  split at hs
  case h_8 =>
    rw [List.mem_singleton.1 hs]
    exact Or.inl ⟨rfl, nofun⟩
  all_goals
    next hn =>
      have hid : ¬p.IsStructure id := by
        rintro ⟨_, _, _, _, _, h'⟩
        rw [node?, hn] at h'
        cases h'
      simp only [Arena.children_eq hn, Arena.childrenOf_binaryOperation,
        Arena.childrenOf_conditional, Arena.childrenOf_evaluate,
        Arena.childrenOf_propertyReference, Arena.childrenOf_block, Arena.childrenOf_bind,
        Arena.childrenOf_program] at *
      simp only [List.mem_append, List.mem_cons, List.mem_flatMap, List.not_mem_nil, or_false,
        List.mem_ite_nil_right] at hs
      grind

section
variable {rank : NodeId → Nat} (hrank : ∀ id, ∀ c ∈ p.arena.children id, rank c < rank id)
include hrank

/-- What holds of a node's own steps, and of its steps if it holds of those of the nodes
    below it, holds of all its steps. -/
theorem compile_induct {P : NodeId → Step → Prop}
    (own : ∀ id s, s.node = id → (s.kind = .finish → ¬p.IsStructure id) → P id s)
    (below : ∀ id, ∀ c ∈ p.arena.children id, ∀ s, P c s → P id s) {id : NodeId} {s : Step}
    (hs : s ∈ p.compile id) : P id s := by
  induction h : rank id using Nat.strongRecOn generalizing id with
  | _ n ih =>
    subst h
    rcases own_or_below ⟨rank, hrank⟩ hs with ⟨hid, hk⟩ | ⟨c, hc, hs⟩
    · exact own id s hid hk
    · exact below id c hc s (ih (rank c) (hrank id c hc) hs rfl)

/-- The steps of a node come from the node itself and from nodes below it. -/
theorem rank_le_of_mem_compile {s : Step} {id : NodeId} (hs : s ∈ p.compile id) :
    rank s.node ≤ rank id := by
  refine compile_induct (P := fun id s => rank s.node ≤ rank id) hrank (fun id s h _ => ?_)
    (fun id c hc s h => ?_) hs
  · exact Nat.le_of_eq (congrArg rank h)
  · exact Nat.le_trans h (Nat.le_of_lt (hrank id c hc))

/-- No step among those of an expression is the finish of a structure. -/
theorem not_isStructure_of_finish {s : Step} {id : NodeId} (hs : s ∈ p.compile id) :
    s.kind = .finish → ¬p.IsStructure s.node :=
  compile_induct (P := fun _ s => s.kind = .finish → ¬p.IsStructure s.node) hrank
    (fun _ _ h hk => h ▸ hk) (fun _ _ _ _ h => h) hs

/-- The finish of a node is not among the steps of the nodes below it. -/
theorem finish_notMem_compile {id c : NodeId} (hc : rank c < rank id) :
    (⟨id, .finish⟩ : Step) ∉ p.compile c := by
  intro h
  exact absurd (rank_le_of_mem_compile hrank h) (Nat.not_le.2 hc)

/-! ## The jumps of compiled code -/

omit hrank in
theorem JumpsLand.jumpsInside {code : List Step} (h : p.JumpsLand code) : JumpsInside code := by
  induction code with
  | nil => trivial
  | cons s code ih => exact ⟨fun o ho => Nat.le_of_lt (h.1 o ho).lt, ih h.2⟩

/-- The jumps of compiled code stay inside it. -/
theorem jumpsInside_compile (id : NodeId) : JumpsInside (p.compile id) :=
  (jumpsLand_compile hrank id).jumpsInside

/-- The jumps of a body stay inside it. -/
theorem jumpsInside_compileBody (id : NodeId) : JumpsInside (p.compileBody id) :=
  (jumpsLand_compileBody hrank id).jumpsInside

/-! ## The balance of compiled code -/

omit hrank in
/-- The steps of several nodes leave one value each. -/
theorem balanced_flatMap {ids : List NodeId} {os : List NodeId} {after : List Step}
    (each : ∀ c ∈ ids, ∀ {h after}, p.Balanced after (h + 1) os →
      p.Balanced (p.compile c ++ after) h os) :
    ∀ {h : Nat}, p.Balanced after (h + ids.length) os →
      p.Balanced (ids.flatMap p.compile ++ after) h os := by
  induction ids with
  | nil => intro h hb; exact hb
  | cons c ids ih =>
    intro h hb
    rw [List.flatMap_cons, List.append_assoc]
    refine each c List.mem_cons_self (ih (fun d hd => each d (List.mem_cons_of_mem _ hd)) ?_)
    rw [List.length_cons] at hb
    rwa [show h + 1 + ids.length = h + (ids.length + 1) by omega]

/-- **Compiled code is balanced.**  The steps of a node leave one more value, and are
    balanced wherever balanced code follows and only nodes above are open. -/
theorem balanced_compile {id : NodeId} {os : List NodeId} (hos : ∀ o ∈ os, rank id < rank o)
    {h : Nat} {after : List Step} (hb : p.Balanced after (h + 1) os) :
    p.Balanced (p.compile id ++ after) h os := by
  induction hr : rank id using Nat.strongRecOn generalizing id os h after with
  | _ n ih =>
    subst hr
    have hid : id ∉ os := fun hmem => Nat.lt_irrefl _ (hos id hmem)
    -- Inside the node, its children are balanced.
    have sub {c : NodeId} (hc : rank c < rank id) {h : Nat} {after : List Step}
        (hb : p.Balanced after (h + 1) (id :: os)) :
        p.Balanced (p.compile c ++ after) h (id :: os) := by
      refine ih (rank c) hc (fun o ho => ?_) hb rfl
      rcases List.mem_cons.1 ho with rfl | ho
      · exact hc
      · exact Nat.lt_trans hc (hos o ho)
    have closed {c : NodeId} (hc : rank c < rank id) := finish_notMem_compile hrank hc
    have finish (hv : p.childValues ⟨id, .finish⟩ = 1) :
        p.Balanced (⟨id, .finish⟩ :: after) (h + 1) (id :: os) := hv ▸ .finish hid hb
    have child := hrank id
    rw [compile_eq ⟨rank, hrank⟩]
    unfold Arena.compileNode
    split
    · next left op right hn =>
      have hl : rank left < rank id := child left (by simp [Arena.children_eq hn])
      have hrt : rank right < rank id := child right (by simp [Arena.children_eq hn])
      have fin := finish (by simp [childValues, node?, hn])
      have call : p.Balanced (⟨id, .startEvaluation⟩ :: ⟨id, .finish⟩ :: after) (h + 2)
          (id :: os) := by
        have hv : p.callValues id = 2 := by simp [callValues, node?, hn]
        exact hv ▸ .startEvaluation (by simp) fin
      have whole : p.Balanced (p.compile left ++ ((if op.isShortCircuit then
          [⟨id, .jumpIf ((p.compile right).length + 1) false (op == .or)⟩] else []) ++
            (p.compile right ++ ⟨id, .startEvaluation⟩ :: ⟨id, .finish⟩ :: after))) h (id :: os) := by
        refine sub hl ?_
        split
        · rw [List.singleton_append]
          refine .jumpIf (by simp) (sub hrt call) ?_
          rw [drop_past]
          exact fin
        · exact sub hrt call
      have := Balanced.around (p.compile left ++ ((if op.isShortCircuit then
          [⟨id, .jumpIf ((p.compile right).length + 1) false (op == .or)⟩] else []) ++
            (p.compile right ++ [⟨id, .startEvaluation⟩]))) after hid (by simpa using whole)
            (by split <;> simp [closed hl, closed hrt]) hb
      simpa using this
    · next condition yes no hn =>
      have hc : rank condition < rank id := child condition (by simp [Arena.children_eq hn])
      have hy : rank yes < rank id := child yes (by simp [Arena.children_eq hn])
      have hno : rank no < rank id := child no (by simp [Arena.children_eq hn])
      have fin := finish (by simp [childValues, node?, hn])
      have whole : p.Balanced (p.compile condition ++
          ⟨id, .jumpIf ((p.compile yes).length + 1) true false⟩ :: (p.compile yes ++
            ⟨id, .jump (p.compile no).length⟩ :: (p.compile no ++ ⟨id, .finish⟩ :: after))) h
          (id :: os) := by
        refine sub hc (.jumpIf (by simp) (sub hy (.jump (by simp) ?_)) ?_)
        · rw [List.drop_left]
          exact fin
        · rw [drop_past]
          exact sub hno fin
      have := Balanced.around (p.compile condition ++
          (⟨id, .jumpIf ((p.compile yes).length + 1) true false⟩ :: (p.compile yes ++
            ⟨id, .jump (p.compile no).length⟩ :: p.compile no))) after hid (by simpa using whole)
            (by simp [closed hc, closed hy, closed hno]) hb
      simpa using this
    · next function is hn =>
      have hf : rank function < rank id := child function (by simp [Arena.children_eq hn])
      have his : ∀ c ∈ p.arena.list is, rank c < rank id := fun c hc =>
        child c (by simp [Arena.children_eq hn, hc])
      have call : p.Balanced (⟨id, .startEvaluation⟩ :: ⟨id, .finish⟩ :: after)
          (h + 1 + (p.arena.list is).length) (id :: os) := by
        have hv : p.callValues id = (p.arena.list is).length + 1 := by simp [callValues, node?, hn]
        rw [show h + 1 + (p.arena.list is).length = h + p.callValues id by omega]
        exact .startEvaluation (by simp) (finish (by simp [childValues, node?, hn]))
      have whole := sub hf (balanced_flatMap (fun c hc _ _ hb => sub (his c hc) hb) call)
      have := Balanced.around (p.compile function ++
          ((p.arena.list is).flatMap p.compile ++ [⟨id, .startEvaluation⟩])) after hid
            (by simpa using whole)
            (by simpa [closed hf] using fun c hc => closed (his c hc)) hb
      simpa using this
    · next receiver n hn =>
      have hc : rank receiver < rank id := child receiver (by simp [Arena.children_eq hn])
      exact .around _ _ hid (sub hc (finish (by simp [childValues, node?, hn]))) (closed hc) hb
    · next ss hn =>
      have hss : ∀ c ∈ p.arena.list ss, rank c < rank id := fun c hc =>
        child c (by simp [Arena.children_eq hn, hc])
      have fin : p.Balanced (⟨id, .finish⟩ :: after) (h + (p.arena.list ss).length) (id :: os) := by
        have hv : p.childValues ⟨id, .finish⟩ = (p.arena.list ss).length := by
          simp [childValues, node?, hn]
        exact hv ▸ .finish hid hb
      exact .around _ _ hid (balanced_flatMap (fun c hc _ _ hb => sub (hss c hc) hb) fin)
        (by simpa using fun c hc => closed (hss c hc)) hb
    · next ns type value hn =>
      have hc : rank value < rank id := child value (by simp [Arena.children_eq hn])
      exact .around _ _ hid (sub hc (finish (by simp [childValues, node?, hn]))) (closed hc) hb
    · next borrows main hn =>
      have hc : rank main < rank id := child main (by simp [Arena.children_eq hn])
      exact .around _ _ hid (sub hc (finish (by simp [childValues, node?, hn]))) (closed hc) hb
    · refine .startFinish ?_ hb
      unfold childValues
      split <;> simp_all [node?]

/-- A body is balanced from no values on. -/
theorem balanced_compileBody {id : NodeId} (hid : p.compileBody id ≠ []) :
    p.Balanced (p.compileBody id) 0 [] := by
  revert hid
  unfold compileBody
  split <;> intro hid
  · next body hn =>
    rw [← List.append_nil (p.compile body)]
    exact balanced_compile hrank (by simp) .done
  · next ns fs vs is body hn =>
    have hss : ∀ c ∈ p.statements id, rank c < rank id := by
      intro c hc
      unfold statements statementList at hc
      rw [hn] at hc
      split at hc
      · next body' he =>
        cases he
        split at hc
        · next ss hb =>
          have h₁ := hrank id body' (by simp [Arena.children_eq hn])
          have h₂ := hrank body' c (by simp [Arena.children_eq hb, hc])
          omega
        · simp [NodeRange.empty, Arena.list] at hc
      · simp [NodeRange.empty, Arena.list] at hc
    have fin : p.Balanced [⟨id, .finish⟩] (0 + (p.statements id).length) [id] := by
      have hv : p.childValues ⟨id, .finish⟩ = (p.statements id).length := by
        simp [childValues, hn]
      exact hv ▸ .finish (by simp) .done
    have whole : p.Balanced ((p.statements id).flatMap p.compile ++ [⟨id, .finish⟩]) 0 [id] :=
      (balanced_flatMap (fun c hc _ _ hb =>
        balanced_compile hrank (by simpa using hss c hc) hb) fin)
    have := Balanced.around _ [] (by simp) whole
      (by simpa using fun c hc => finish_notMem_compile hrank (hss c hc)) .done
    rwa [List.append_nil] at this
  · exact absurd rfl hid

end

end Program

end Arbor
