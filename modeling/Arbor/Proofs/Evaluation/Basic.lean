/-
  Direct evaluation: the meaning of nodes by recursion on the tree.

  A node is evaluated in surroundings (`Env`), and its evaluation reads and writes the
  scopes.  It gives a value that is no exception, or it stops: an exception was raised,
  or what was called has no body.  Calls are counted down, because only so many
  evaluations may be open at once; within one evaluation the recursion follows the tree.

  * `evaluateNode` is the meaning of each kind of node from those of its children;
  * `call` is the meaning of a call, and `openCall` that of the body that is called;
  * `evaluate` is the meaning of a node, and `evaluateProgram` that of a program.

  Main statement: `evaluate_eq`, the equation of evaluation on an acyclic arena.
-/
import Arbor.Machine.Call

namespace Arbor

/-! ## Evaluations -/

/-- Why an evaluation gives no value. -/
inductive Stop where
  /-- An exception was raised. -/
  | raised (e : Exception)
  /-- What the node called has no body. -/
  | bodiless (creator : NodeId)

/-- Evaluations read and write the scopes, and may stop. -/
abbrev Eval := ExceptT Stop (StateM Scopes)

namespace Eval

/-- What an evaluation gives, and the scopes after it. -/
def on {α : Type} (x : Eval α) (s : Scopes) : Except Stop α × Scopes := x s

/-- Raises an exception. -/
def raise {α : Type} (e : Exception) : Eval α := throw (.raised e)

/-- Gives a value, unless it is an exception. -/
def give : Value → Eval Value
  | .exception e => raise e
  | v => pure v

/-- Binds the value of a definition in a scope, and gives the value. -/
def define (scope : ScopeId) (definition : NodeId) (v : Value) : Eval Value := do
  modify (·.define scope definition v)
  return v

/-- The values of nodes, evaluated in order. -/
def inOrder (evaluate : NodeId → Eval Value) : List NodeId → Eval (List Value)
  | [] => return []
  | id :: ids => do
    let v ← evaluate id
    let vs ← inOrder evaluate ids
    return v :: vs

/-! How evaluations go on -/

variable {α β : Type}

@[simp] theorem on_pure (a : α) (s : Scopes) : (pure a : Eval α).on s = (.ok a, s) := rfl

@[simp] theorem on_raise (e : Exception) (s : Scopes) :
    (raise e : Eval α).on s = (.error (.raised e), s) := rfl

@[simp] theorem on_throw (e : Stop) (s : Scopes) :
    (throw e : Eval α).on s = (.error e, s) := rfl

@[simp] theorem on_get (s : Scopes) : (get : Eval Scopes).on s = (.ok s, s) := rfl

@[simp] theorem on_modifyGet (f : Scopes → α × Scopes) (s : Scopes) :
    (modifyGet f : Eval α).on s = (.ok (f s).1, (f s).2) := rfl

@[simp] theorem on_define (scope : ScopeId) (d : NodeId) (v : Value) (s : Scopes) :
    (define scope d v).on s = (.ok v, s.define scope d v) := rfl

/-- An evaluation goes on with the value of another, unless that stops. -/
theorem on_bind (x : Eval α) (next : α → Eval β) (s : Scopes) :
    (x >>= next).on s =
      match x.on s with
      | (.ok a, s') => (next a).on s'
      | (.error e, s') => (.error e, s') := by
  unfold on
  simp only [bind, ExceptT.bind, ExceptT.mk, StateT.bind, ExceptT.bindCont]
  rcases x s with ⟨(e | a), s'⟩ <;> rfl

theorem on_bind_ok {x : Eval α} {next : α → Eval β} {s s' : Scopes} {a : α}
    (h : x.on s = (.ok a, s')) : (x >>= next).on s = (next a).on s' := by
  rw [on_bind, h]

end Eval

/-- The surroundings of an evaluation. -/
structure Env where
  /-- The function or structure that is evaluated; the program has none. -/
  definition : Option NodeId
  /-- The node that started the evaluation. -/
  creator : NodeId
  /-- The scope of the evaluation. -/
  scope : ScopeId
  /-- The receiver, if the function was reached as a member. -/
  this : Option Value
  /-- The receiver of this evaluation, or else of the nearest one around it that has one. -/
  nearest : Option Value
  /-- The latest value of each stream. -/
  streams : Table StreamId Value

/-- The surroundings of the body of a call. -/
def Env.inside (env : Env) (c : Call) (scope : ScopeId) : Env where
  definition := some c.definition
  creator := c.creator
  scope := scope
  this := c.this
  nearest := c.this.or env.nearest
  streams := env.streams

namespace Program

variable (p : Program)

/-! ## Names and native bodies -/

/-- The value of a name that the node `id` uses. -/
def nameValue (env : Env) (scopes : Scopes) (id : NodeId) (n : Name) : Value :=
  match p.resolve n id with
  | some (.bind b) => (scopes.lookup env.scope b).getD (.exception ⟨.name n, id⟩)
  | some (.function f) => (scopes.lookup env.scope f).getD (.function f (some env.scope))
  | some (.structureDef d) => (scopes.lookup env.scope d).getD (.definition d (some env.scope))
  | some (.stream s) => (env.streams.get? s).getD (.exception ⟨.streamEmpty n, id⟩)
  | some (.typeVariable _) => .exception ⟨.name n, id⟩
  | none =>
    if n = .this then env.nearest.getD (.exception ⟨.name n, id⟩) else .exception ⟨.name n, id⟩

/-- The value of the body of a primitive method, whose failures belong to the caller. -/
def operationValue (env : Env) (scopes : Scopes) (id : NodeId) (op : NativeOp) : Value :=
  match env.this, (env.definition.bind fun d => (p.inputs d).head?).bind (scopes.lookup env.scope)
  with
  | none, _ => .exception ⟨.function none, id⟩
  | some _, none => .exception ⟨.missingValue none, id⟩
  | some receiver, some v =>
    match op.apply receiver v with
    | .ok result => result
    | .error kind => .exception ⟨kind, env.creator⟩

/-! ## Calls -/

/-- Calls a value at a node; `name` is what it was called by, and `invoke` evaluates
    what is called. -/
def call (invoke : Call → Eval Value) (id : NodeId) (name : Option Name) (callee : Value)
    (arguments : List Value) : Eval Value :=
  let function := fun d closure this =>
    if (p.node? d).any Node.isAbstractFunction then
      Eval.raise ⟨.function (p.primaryName? d), id⟩
    else
      invoke ⟨id, d, closure, this, arguments⟩
  match callee with
  | .function d closure => function d closure none
  | .method d closure receiver => function d closure (some receiver)
  | .definition d closure =>
    if (p.abstractFunctions d).isEmpty then invoke ⟨id, d, closure, none, arguments⟩
    else Eval.raise ⟨.function (p.primaryName? d), id⟩
  | _ => Eval.raise ⟨.function name, id⟩

/-- Evaluates what a call asks for, in a new scope in which the inputs are bound: the
    body of a function, or the statements of a structure, which give an instance. -/
def openCall (evaluate : Env → NodeId → Eval Value) (env : Env) (c : Call) : Eval Value :=
  match p.callScope c with
  | .error e => Eval.raise e
  | .ok scope => do
    let id ← modifyGet fun scopes => scopes.add scope
    let inside := env.inside c id
    match p.node? c.definition with
    | some (.functionDefinition _ _ _ _ (some body)) => evaluate inside body
    | some (.structureDefinition ..) =>
      let _ ← Eval.inOrder (evaluate inside) (p.statements c.definition)
      return .instanceOf c.definition id
    | _ => throw (.bodiless c.creator)

/-! ## Nodes -/

/-- The meaning of a node from those of its children. -/
def evaluateNode (invoke : Call → Eval Value) (env : Env) (sub : NodeId → Eval Value)
    (id : NodeId) : Eval Value :=
  match p.node? id with
  | some (.booleanLiteral b) => return .bool b
  | some (.numberLiteral bits) => return .ofBits bits
  | some (.textLiteral n) => return .text (p.textOf n)
  | some (.reference n) => do Eval.give (p.nameValue env (← get) id n)
  | some (.propertyReference receiver n) => do
    let v ← sub receiver
    Eval.give (p.propertyValue (← get) id v n)
  | some (.binaryOperation left op right) => do
    let l ← sub left
    -- The left operand is the value already, or else both are needed.
    match op.isShortCircuit, l with
    | true, .bool b =>
      if b = (op == .or) then return l else operate id op l right
    | true, _ => Eval.raise ⟨.expectedBoolean, id⟩
    | false, _ => operate id op l right
  | some (.conditional condition yes no) => do
    match ← sub condition with
    | .bool true => sub yes
    | .bool false => sub no
    | _ => Eval.raise ⟨.expectedBoolean, id⟩
  | some (.evaluate function is) => do
    let callee ← sub function
    let arguments ← Eval.inOrder sub (p.arena.list is)
    p.call invoke id (p.calledName? function) callee arguments
  | some (.block ss) => do
    match (← Eval.inOrder sub (p.arena.list ss)).getLast? with
    | some v => return v
    | none => Eval.raise ⟨.emptyBlock, id⟩
  | some (.bind _ _ (some value)) => do Eval.define env.scope id (← sub value)
  | some (.bind _ _ none) => Eval.raise ⟨.missingValue (p.primaryName? id), id⟩
  | some (.functionDefinition ..) =>
    Eval.define env.scope id (.functionOf id (some env.scope) env.this)
  | some (.structureDefinition ..) =>
    Eval.define env.scope id (.definition id (some env.scope))
  | some (.program _ main) => sub main
  | some (.native op) => do Eval.give (p.operationValue env (← get) id op)
  | _ => Eval.raise ⟨.unparsable, id⟩
where
  /-- Calls the method of an operator on the right operand. -/
  operate (id : NodeId) (op : Name) (l : Value) (right : NodeId) : Eval Value := do
    let r ← sub right
    match p.method? l op with
    | some method => p.call invoke id (some op) method [r]
    | none => Eval.raise ⟨.function (some op), id⟩

/-- The meaning of a node from that of calls. -/
def evaluateWith (invoke : Call → Eval Value) (env : Env) : NodeId → Eval Value :=
  p.arena.descend (Eval.raise ⟨.unparsable, p.root⟩) (p.evaluateNode invoke env)

/-- The meaning of a node, with room for a number of calls inside each other. -/
def evaluate : Nat → Env → NodeId → Eval Value
  | 0, env => p.evaluateWith (fun c => Eval.raise ⟨.full, c.creator⟩) env
  | room + 1, env => p.evaluateWith (p.openCall (evaluate room) env) env

/-- The meaning of a call, with room for a number of calls inside each other. -/
def invoke : Nat → Env → Call → Eval Value
  | 0, _ => fun c => Eval.raise ⟨.full, c.creator⟩
  | room + 1, env => p.openCall (p.evaluate room) env

/-- The value of the program in scopes that may hold those of earlier runs, with room for
    a number of evaluations and for given values of the streams. -/
def evaluateProgram (maxDepth : Nat) (streams : Table StreamId Value) : Eval Value := do
  let scope ← modifyGet fun scopes => scopes.create none
  p.evaluate (maxDepth - 1) ⟨none, p.root, scope, none, none, streams⟩ p.root

/-! ## The equation of evaluation -/

end Program

/-- Evaluations in order hang only on the evaluations of the nodes in question. -/
theorem Eval.inOrder_congr {f g : NodeId → Eval Value} {ids : List NodeId}
    (h : ∀ c ∈ ids, f c = g c) : Eval.inOrder f ids = Eval.inOrder g ids := by
  induction ids with
  | nil => rfl
  | cons id ids ih =>
    rw [inOrder, inOrder, h id List.mem_cons_self,
      ih fun c hc => h c (List.mem_cons_of_mem _ hc)]

namespace Program

variable {p : Program}

/-- The meaning of a node hangs only on that of its children. -/
theorem evaluateNode_congr (invoke : Call → Eval Value) (env : Env) {id : NodeId}
    {f g : NodeId → Eval Value} (h : ∀ c ∈ p.arena.children id, f c = g c) :
    p.evaluateNode invoke env f id = p.evaluateNode invoke env g id := by
  unfold evaluateNode
  cases hn : p.node? id with
  | none => rfl
  | some n =>
    rw [Arena.children_eq hn] at h
    cases n with
    | propertyReference receiver n => simp only [h receiver (by simp)]
    | binaryOperation left op right =>
      simp only [evaluateNode.operate, h left (by simp), h right (by simp)]
    | conditional condition yes no =>
      simp only [h condition (by simp), h yes (by simp), h no (by simp)]
    | evaluate function is =>
      have his : Eval.inOrder f (p.arena.list is) = Eval.inOrder g (p.arena.list is) :=
        Eval.inOrder_congr fun c hc => h c (by simp [hc])
      simp only [h function (by simp), his]
    | block ss =>
      have hss : Eval.inOrder f (p.arena.list ss) = Eval.inOrder g (p.arena.list ss) :=
        Eval.inOrder_congr fun c hc => h c (by simp [hc])
      simp only [hss]
    | bind ns type value =>
      cases value with
      | none => rfl
      | some value => simp only [h value (by simp)]
    | program borrows main => exact h main (by simp)
    | _ => rfl

/-- **The equation of evaluation.**  On an acyclic arena a node means what its kind says. -/
theorem evaluate_eq (h : p.arena.Acyclic) (room : Nat) (env : Env) (id : NodeId) :
    p.evaluate room env id = p.evaluateNode (p.invoke room env) env (p.evaluate room env) id := by
  have hroom : p.evaluate room env = p.evaluateWith (p.invoke room env) env := by
    cases room <;> rfl
  rw [hroom]
  refine Arena.descend_eq h ?_ id
  intro id f g hfg
  exact evaluateNode_congr _ env hfg

end Program

end Arbor
