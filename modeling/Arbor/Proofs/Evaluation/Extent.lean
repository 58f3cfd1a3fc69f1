/-
  What an evaluation changes.

  Evaluating a node binds nodes below it in the scope of the evaluation.  Calls create scopes of
  their own, and leave those that were there as they are.  Whatever is bound stays bound.

  * `Eval.Compositional P`: the property passes from the parts of an evaluation to the whole.

  Main statements: `spares_evaluate` and `spares_invoke`, what is changed; `grows_evaluate`, what
  stays.
-/
import Arbor.Proofs.Evaluation.Basic
import Arbor.Proofs.Value.Likeness

namespace Arbor

/-! ## Evaluations and their parts -/

namespace Eval

/-- A property of evaluations that stop or answer at once, of reading the scopes, and of two
    evaluations one after the other if both have it. -/
structure Compositional (P : ∀ α : Type, Eval α → Prop) : Prop where
  answer : ∀ {α : Type} (a : α), P α (pure a)
  stop : ∀ {α : Type} (e : Stop), P α (throw e)
  read : P Scopes get
  bind : ∀ {α β : Type} {x : Eval α} {next : α → Eval β}, P α x → (∀ a, P β (next a)) →
    P β (x >>= next)

namespace Compositional

variable {P : ∀ α : Type, Eval α → Prop} {α : Type} (hP : Compositional P)
include hP

theorem raise (e : Exception) : P α (raise e) := hP.stop (.raised e)

theorem give (v : Value) : P Value (give v) := by
  cases v with
  | exception e => exact hP.raise e
  | _ => exact hP.answer _

theorem inOrder {evaluate : NodeId → Eval Value} {ids : List NodeId}
    (each : ∀ c ∈ ids, P Value (evaluate c)) : P (List Value) (inOrder evaluate ids) := by
  induction ids with
  | nil => exact hP.answer _
  | cons id ids ih =>
    exact hP.bind (each id List.mem_cons_self) fun v =>
      hP.bind (ih fun c hc => each c (List.mem_cons_of_mem _ hc)) fun vs => hP.answer _

variable {p : Program} {env : Env} {invoke : Call → Eval Value} {sub : NodeId → Eval Value}
  {x : NodeId}

theorem call (hinvoke : ∀ c, P Value (invoke c)) (id : NodeId) (name : Option Name)
    (callee : Value) (arguments : List Value) :
    P Value (p.call invoke id name callee arguments) := by
  unfold Program.call
  cases callee with
  | function d closure =>
    dsimp only
    split
    · exact hP.raise _
    · exact hinvoke _
  | method d closure receiver =>
    dsimp only
    split
    · exact hP.raise _
    · exact hinvoke _
  | definition d closure =>
    dsimp only
    split
    · exact hinvoke _
    · exact hP.raise _
  | _ => exact hP.raise _

theorem operate (hinvoke : ∀ c, P Value (invoke c)) {right : NodeId}
    (hright : P Value (sub right)) (op : Name) (l : Value) :
    P Value (Program.evaluateNode.operate p invoke sub x op l right) := by
  unfold Program.evaluateNode.operate
  refine hP.bind hright fun r => ?_
  split
  · exact hP.call hinvoke _ _ _ _
  · exact hP.raise _

/-- The evaluation of a node, from those of its children and from what it binds. -/
theorem evaluateNode (hinvoke : ∀ c, P Value (invoke c))
    (hdefine : ∀ v, P Value (define env.scope x v))
    (hsub : ∀ c ∈ p.arena.children x, P Value (sub c)) :
    P Value (p.evaluateNode invoke env sub x) := by
  cases hn : p.node? x with
  | none =>
    simp only [Program.evaluateNode, hn]
    exact hP.raise _
  | some node =>
    rw [Arena.children_eq hn] at hsub
    cases node with
    | propertyReference receiver n =>
      simp only [Program.evaluateNode, hn]
      exact hP.bind (hsub receiver (by simp)) fun v => hP.bind hP.read fun s => hP.give _
    | binaryOperation left op right =>
      simp only [Program.evaluateNode, hn]
      refine hP.bind (hsub left (by simp)) fun l => ?_
      split
      · split
        · exact hP.answer _
        · exact hP.operate hinvoke (hsub right (by simp)) op _
      · exact hP.raise _
      · exact hP.operate hinvoke (hsub right (by simp)) op _
    | conditional condition yes no =>
      simp only [Program.evaluateNode, hn]
      refine hP.bind (hsub condition (by simp)) fun v => ?_
      split
      · exact hsub yes (by simp)
      · exact hsub no (by simp)
      · exact hP.raise _
    | evaluate function is =>
      simp only [Program.evaluateNode, hn]
      refine hP.bind (hsub function (by simp)) fun v => ?_
      exact hP.bind (hP.inOrder fun c hc => hsub c (by simp [hc])) fun vs => hP.call hinvoke _ _ _ _
    | block ss =>
      simp only [Program.evaluateNode, hn]
      refine hP.bind (hP.inOrder fun c hc => hsub c (by simp [hc])) fun vs => ?_
      split
      · exact hP.answer _
      · exact hP.raise _
    | bind ns type value =>
      simp only [Program.evaluateNode, hn]
      cases value with
      | none => exact hP.raise _
      | some value => exact hP.bind (hsub value (by simp)) hdefine
    | functionDefinition ns vs is output body =>
      simp only [Program.evaluateNode, hn]
      exact hdefine _
    | structureDefinition ns fs vs is body =>
      simp only [Program.evaluateNode, hn]
      exact hdefine _
    | program borrows main =>
      simp only [Program.evaluateNode, hn]
      exact hsub main (by simp)
    | reference name =>
      simp only [Program.evaluateNode, hn]
      exact hP.bind hP.read fun s => hP.give _
    | native op =>
      simp only [Program.evaluateNode, hn]
      exact hP.bind hP.read fun s => hP.give _
    | booleanLiteral b =>
      simp only [Program.evaluateNode, hn]
      exact hP.answer _
    | numberLiteral bits =>
      simp only [Program.evaluateNode, hn]
      exact hP.answer _
    | textLiteral t =>
      simp only [Program.evaluateNode, hn]
      exact hP.answer _
    | _ =>
      simp only [Program.evaluateNode, hn]
      exact hP.raise _

end Compositional

end Eval

/-! ## Evaluations that leave bindings alone -/

namespace Eval

variable {α : Type} {X Y : ScopeId → NodeId → Prop} {n : Nat} {x : Eval α}

/-- With a number of scopes to begin with, the evaluation changes the old ones only in the
    bindings in question. -/
def Spares (X : ScopeId → NodeId → Prop) (n : Nat) (x : Eval α) : Prop :=
  ∀ s : Scopes, n ≤ s.size → s.Spares X (x.on s).2

theorem Spares.mono (h : Spares X n x) (hXY : ∀ id d, X id d → Y id d) : Spares Y n x :=
  fun s hs => (h s hs).mono fun id d _ => hXY id d

theorem spares_define {id : ScopeId} {d : NodeId} (hX : X id d) (hid : id.index < n) (v : Value) :
    Spares X n (define id d v) := fun _ hs =>
  (Scopes.Spares.define (Nat.lt_of_lt_of_le hid hs) d v).mono fun _ _ _ e => e.1 ▸ e.2 ▸ hX

theorem compositional_spares (X : ScopeId → NodeId → Prop) (n : Nat) :
    Compositional fun _ x => Spares X n x where
  answer _ _ _ := .refl X _
  stop _ _ _ := .refl X _
  read _ _ := .refl X _
  bind {α β x next} hx hnext s hs := by
    have := hx s hs
    rw [on_bind]
    revert this
    rcases x.on s with ⟨(e | a), s'⟩
    · exact id
    · exact fun hx => hx.trans (hnext a s' (Nat.le_trans hs hx.size))

/-! ## Evaluations that keep what is bound -/

/-- Whatever was bound stays bound. -/
def Grows (x : Eval α) : Prop := ∀ s : Scopes, s.Grows (x.on s).2

theorem grows_define (id : ScopeId) (d : NodeId) (v : Value) : Grows (define id d v) :=
  fun s => Scopes.grows_define s id d v

theorem grows_add (scope : Scope) : Grows (modifyGet (·.add scope) : Eval ScopeId) :=
  fun s => Scopes.grows_add s scope

theorem compositional_grows : Compositional fun _ x => Grows x where
  answer _ _ := .refl _
  stop _ _ := .refl _
  read _ := .refl _
  bind {α β x next} hx hnext s := by
    have := hx s
    rw [on_bind]
    revert this
    rcases x.on s with ⟨(e | a), s'⟩
    · exact id
    · exact fun hx => hx.trans (hnext a s')

end Eval

namespace Program

variable {p : Program} {X : ScopeId → NodeId → Prop} {n : Nat} {env : Env}

/-! ## Calls -/

/-- The evaluation of what was called, in the surroundings of its body. -/
def evaluateBody (p : Program) (evaluate : Env → NodeId → Eval Value) (inside : Env) (c : Call) :
    Eval Value :=
  match p.node? c.definition with
  | some (.functionDefinition _ _ _ _ (some body)) => evaluate inside body
  | some (.structureDefinition ..) => do
    let _ ← Eval.inOrder (evaluate inside) (p.statements c.definition)
    return .instanceOf c.definition inside.scope
  | _ => throw (.bodiless c.creator)

/-- A call evaluates the body in a new scope. -/
theorem openCall_eq (evaluate : Env → NodeId → Eval Value) (env : Env) (c : Call) :
    p.openCall evaluate env c =
      match p.callScope c with
      | .error e => Eval.raise e
      | .ok scope => modifyGet (·.add scope) >>= fun id =>
        p.evaluateBody evaluate (env.inside c id) c := rfl

theorem spares_call {invoke : Call → Eval Value} (hinvoke : ∀ c, Eval.Spares X n (invoke c))
    (id : NodeId) (name : Option Name) (callee : Value) (arguments : List Value) :
    Eval.Spares X n (p.call invoke id name callee arguments) :=
  (Eval.compositional_spares X n).call hinvoke id name callee arguments

/-! ## The induction -/

/-- What holds of nodes and calls if it passes from children to nodes, and from what is called to
    calls: the induction is on the room for calls, and for one room on the tree. -/
theorem evaluate_induction (ha : p.arena.Acyclic) {Q : Env → NodeId → Eval Value → Prop}
    {R : Eval Value → Prop} (full : ∀ c : Call, R (Eval.raise ⟨.full, c.creator⟩))
    (opened : ∀ room env c, (∀ env x, Q env x (p.evaluate room env x)) →
      R (p.openCall (p.evaluate room) env c))
    (node : ∀ room env x, (∀ c, R (p.invoke room env c)) →
      (∀ c ∈ p.arena.children x, Q env c (p.evaluate room env c)) →
      Q env x (p.evaluateNode (p.invoke room env) env (p.evaluate room env) x)) (room : Nat) :
    (∀ env x, Q env x (p.evaluate room env x)) ∧ ∀ env c, R (p.invoke room env c) := by
  have inside {room : Nat} (hcalls : ∀ env c, R (p.invoke room env c)) (env : Env) (x : NodeId) :
      Q env x (p.evaluate room env x) := by
    obtain ⟨rank, hrank⟩ := ha
    induction hr : rank x using Nat.strongRecOn generalizing x with
    | _ n ih =>
      subst hr
      rw [evaluate_eq ⟨rank, hrank⟩]
      exact node room env x (hcalls env) fun c hc => ih (rank c) (hrank x c hc) c rfl
  induction room with
  | zero =>
    have hcalls (env : Env) (c : Call) : R (p.invoke 0 env c) := full c
    exact ⟨inside hcalls, hcalls⟩
  | succ room ih =>
    have hcalls (env : Env) (c : Call) : R (p.invoke (room + 1) env c) := opened room env c ih.1
    exact ⟨inside hcalls, hcalls⟩

/-! ## What is changed -/

/-- With room for a number of calls, evaluating a node binds nodes below it in the scope of the
    evaluation. -/
def SparesOthers (p : Program) (room : Nat) : Prop :=
  ∀ (env : Env) (x : NodeId), Eval.Spares (fun id d => id = env.scope ∧ d ∈ p.arena.preorder x)
    (env.scope.index + 1) (p.evaluate room env x)

theorem spares_openCall {room : Nat} (heval : p.SparesOthers room) (env : Env) (c : Call) :
    Eval.Spares (fun _ _ => False) 0 (p.openCall (p.evaluate room) env c) := by
  rw [openCall_eq]
  split
  · exact (Eval.compositional_spares _ _).raise _
  · next scope _ =>
    intro s _
    rw [Eval.on_bind, Eval.on_modifyGet]
    let inside := env.inside c (s.add scope).1
    -- The body binds in the new scope alone.
    have hbody : Eval.Spares (fun id _ => id = (s.add scope).1) (s.add scope).2.size
        (p.evaluateBody (p.evaluate room) inside c) := by
      have hsize : (s.add scope).2.size = inside.scope.index + 1 := Scopes.size_add s scope
      have hcomposes := Eval.compositional_spares (fun id _ => id = (s.add scope).1)
        (inside.scope.index + 1)
      rw [hsize]
      unfold evaluateBody
      split
      · exact (heval inside _).mono fun id d hid => hid.1
      · exact hcomposes.bind
          (hcomposes.inOrder fun y _ => (heval inside y).mono fun id d hid => hid.1)
          fun _ => hcomposes.answer _
      · exact hcomposes.stop _
    have hadd := Scopes.Spares.add s scope
    have hafter := hbody _ (Nat.le_refl _)
    refine ⟨Nat.le_trans hadd.size hafter.size, fun id d hid _ => ?_, fun id hid => ?_⟩
    · have hne : id ≠ (s.add scope).1 := by
        rintro rfl
        exact Nat.lt_irrefl _ hid
      rw [hafter.own id d (Nat.lt_of_lt_of_le hid hadd.size) hne, hadd.own id d hid nofun]
    · rw [hafter.parent id (Nat.lt_of_lt_of_le hid hadd.size), hadd.parent id hid]

theorem spares_room (ha : p.arena.Acyclic) (room : Nat) : p.SparesOthers room ∧
    ∀ env c, Eval.Spares (fun _ _ => False) 0 (p.invoke room env c) := by
  refine evaluate_induction ha (fun _ => (Eval.compositional_spares _ _).raise _)
    (fun _ env c heval => spares_openCall heval env c) (fun _ env x hinvoke hchildren => ?_) room
  have hcomposes := Eval.compositional_spares
    (fun id d => id = env.scope ∧ d ∈ p.arena.preorder x) (env.scope.index + 1)
  refine hcomposes.evaluateNode (fun c => ?_) (fun v => ?_) fun c hc => ?_
  · exact fun s _ => (hinvoke c s (Nat.zero_le _)).mono fun _ _ _ => False.elim
  · exact Eval.spares_define ⟨rfl, Arena.mem_preorder_self ha x⟩ (Nat.lt_succ_self _) v
  · exact (hchildren c hc).mono fun id d hid => ⟨hid.1, Arena.mem_preorder_trans ha
      (Arena.mem_preorder_child ha (Arena.mem_preorder_self ha x) hc) hid.2⟩

/-- **Evaluating a node binds nodes below it**, in the scope of the evaluation. -/
theorem spares_evaluate (ha : p.arena.Acyclic) (room : Nat) : p.SparesOthers room :=
  (spares_room ha room).1

/-- **A call leaves the scopes that were there as they are.** -/
theorem spares_invoke (ha : p.arena.Acyclic) (room : Nat) (env : Env) (c : Call) :
    Eval.Spares (fun _ _ => False) 0 (p.invoke room env c) :=
  (spares_room ha room).2 env c

/-! ## What stays -/

theorem grows_evaluateBody {evaluate : Env → NodeId → Eval Value}
    (heval : ∀ env x, (evaluate env x).Grows) (inside : Env) (c : Call) :
    (p.evaluateBody evaluate inside c).Grows := by
  unfold evaluateBody
  split
  · exact heval _ _
  · exact Eval.compositional_grows.bind
      (Eval.compositional_grows.inOrder fun y _ => heval inside y) fun _ =>
        Eval.compositional_grows.answer _
  · exact Eval.compositional_grows.stop _

theorem grows_openCall {evaluate : Env → NodeId → Eval Value}
    (heval : ∀ env x, (evaluate env x).Grows) (env : Env) (c : Call) :
    (p.openCall evaluate env c).Grows := by
  rw [openCall_eq]
  split
  · exact Eval.compositional_grows.raise _
  · exact Eval.compositional_grows.bind (Eval.grows_add _) fun id => grows_evaluateBody heval _ c

/-- **An evaluation keeps whatever is bound.** -/
theorem grows_evaluate (ha : p.arena.Acyclic) (room : Nat) (env : Env) (x : NodeId) :
    (p.evaluate room env x).Grows :=
  (evaluate_induction ha (Q := fun _ _ e => e.Grows) (R := Eval.Grows)
    (fun _ => Eval.compositional_grows.raise _)
    (fun _ env c heval => grows_openCall heval env c)
    (fun _ _ _ hinvoke hchildren => Eval.compositional_grows.evaluateNode hinvoke
      (fun v => Eval.grows_define _ _ v) hchildren) room).1 env x

end Program

end Arbor
