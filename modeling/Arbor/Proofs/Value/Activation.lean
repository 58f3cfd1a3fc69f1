/-
  Activations: the scopes of running functions.

  A log says for each scope which function was entered in it, and with which inputs.  The
  scopes from a frame outwards are then activations of the functions around its code
  (`Lexical`), and a scope binds only definitions that are inside just these functions.
  Values are `Placed` if their closures refer to such scopes, in which everything that the
  function is shown is bound.

  Main statements: `Later.add` and `Later.define`, what scopes keep when they grow;
  `Lexical.input`, the value of an input is the one that its function was entered with.
-/
import Arbor.Proofs.Program.Nesting
import Arbor.Proofs.Value.Growth

namespace Arbor

/-- What a scope was created for: the function that was entered, and its inputs. -/
structure Activation where
  /-- The function. -/
  definition : NodeId
  /-- The values that its inputs had when it was entered. -/
  inputs : Table NodeId Value

/-- The activations of the scopes that functions were entered in. -/
abbrev Log := ScopeId → Option Activation

/-- The log after a function was entered in a scope. -/
def Log.insert (log : Log) (s : ScopeId) (a : Activation) : Log :=
  fun t => if t = s then some a else log t

/-- The scope that is a number of scopes further out. -/
def Scopes.outward (scopes : Scopes) : Nat → ScopeId → Option ScopeId
  | 0, s => some s
  | n + 1, s => ((scopes.get? s).bind Scope.parent).bind (scopes.outward n)

namespace Program

variable (p : Program)

/-- The scope and those around it are activations of the functions `around`, out to a scope
    of the program.  Each scope binds the inputs of its function as they were when it was
    entered, and otherwise only what is inside just these functions. -/
inductive Lexical (log : Log) (scopes : Scopes) : ScopeId → (around : List NodeId) → Prop
  | program {s : ScopeId} {scope : Scope} :
      scopes.get? s = some scope → scope.parent = none → log s = none →
      (∀ x, (scope.bindings.get? x).isSome → p.functionsAround x = []) → Lexical log scopes s []
  | function {s outer : ScopeId} {scope : Scope} {a : Activation} {around : List NodeId} :
      scopes.get? s = some scope → scope.parent = some outer → outer.index < s.index →
      log s = some a → a.definition ∈ p.tree.nodes →
      (∀ x ∈ p.inputs a.definition, ∃ v, a.inputs.get? x = some v ∧ scope.bindings.get? x = some v) →
      (∀ x, (scope.bindings.get? x).isSome → p.functionsAround x = a.definition :: around) →
      Lexical log scopes outer around → Lexical log scopes s (a.definition :: around)

/-- The node is the body of a primitive method. -/
def IsNative (id : NodeId) : Prop := ∃ op, p.node? id = some (.native op)

/-- The function is one with the body of a primitive method. -/
def IsPrimitive (d : NodeId) : Prop :=
  ∃ ns vs is output body, p.node? d = some (.functionDefinition ns vs is output (some body)) ∧
    p.IsNative body

/-- The scope is one in which the function was defined: everything that the function is
    shown is bound. -/
structure Closes (log : Log) (scopes : Scopes) (d : NodeId) (s : ScopeId) : Prop where
  function : p.IsFunction d
  mem : d ∈ p.tree.nodes
  lexical : p.Lexical log scopes s (p.functionsAround d)
  bound : ∀ x, p.Shows d x → (scopes.lookup s x).isSome

end Program

/-- The value is no exception, and its closures refer to scopes in which they were made. -/
def Value.Placed (p : Program) (log : Log) (scopes : Scopes) : Value → Prop
  | bool _ | number _ | text _ => True
  | function d closure => ∃ s, closure = some s ∧ p.Closes log scopes d s
  | method d closure receiver =>
    (closure = none ∧ p.IsPrimitive d ∨ ∃ s, closure = some s ∧ p.Closes log scopes d s) ∧
      receiver.Placed p log scopes
  | definition _ _ | instanceOf _ _ | exception _ => False

/-- What holds of scopes and values goes on to hold. -/
structure Later (p : Program) (log : Log) (scopes : Scopes) (log' : Log) (scopes' : Scopes) :
    Prop where
  grows : scopes.Grows scopes'
  lexical : ∀ s around, p.Lexical log scopes s around → p.Lexical log' scopes' s around

section

variable {p : Program} {log log' : Log} {scopes scopes' : Scopes}

namespace Program

theorem Closes.later {d : NodeId} {s : ScopeId} (h : p.Closes log scopes d s)
    (hl : Later p log scopes log' scopes') : p.Closes log' scopes' d s :=
  ⟨h.function, h.mem, hl.lexical _ _ h.lexical, fun x hx => hl.grows.lookup (h.bound x hx)⟩

theorem Lexical.exists_scope {s : ScopeId} {around : List NodeId}
    (h : p.Lexical log scopes s around) : ∃ scope, scopes.get? s = some scope := by
  cases h with
  | program hs => exact ⟨_, hs⟩
  | function hs => exact ⟨_, hs⟩

/-- A scope lies in one place. -/
theorem Lexical.unique {s : ScopeId} {around around' : List NodeId}
    (h : p.Lexical log scopes s around) (h' : p.Lexical log scopes s around') :
    around = around' := by
  induction h generalizing around' with
  | program hs hp hlog _ =>
    cases h' with
    | program => rfl
    | function _ _ _ hlog' => rw [hlog] at hlog'; cases hlog'
  | function hs hp _ hlog _ _ _ _ ih =>
    cases h' with
    | program _ _ hlog' => rw [hlog] at hlog'; cases hlog'
    | function hs' hp' _ hlog' _ _ _ hout' =>
      rw [hs] at hs'
      cases hs'
      rw [hp] at hp'
      cases hp'
      rw [hlog] at hlog'
      cases hlog'
      rw [ih hout']

end Program

theorem Value.Placed.later {v : Value} (h : v.Placed p log scopes)
    (hl : Later p log scopes log' scopes') : v.Placed p log' scopes' := by
  induction v with
  | function d closure =>
    obtain ⟨s, hs, hc⟩ := h
    exact ⟨s, hs, hc.later hl⟩
  | method d closure receiver ih =>
    obtain ⟨hd, hr⟩ := h
    refine ⟨hd.imp_right ?_, ih hr⟩
    rintro ⟨s, hs, hc⟩
    exact ⟨s, hs, hc.later hl⟩
  | bool | number | text => trivial
  | _ => exact h

namespace Later

theorem refl (p : Program) (log : Log) (scopes : Scopes) : Later p log scopes log scopes :=
  ⟨.refl _, fun _ _ h => h⟩

theorem trans {log'' : Log} {scopes'' : Scopes} (h : Later p log scopes log' scopes')
    (h' : Later p log' scopes' log'' scopes'') : Later p log scopes log'' scopes'' :=
  ⟨h.grows.trans h'.grows, fun s around hs => h'.lexical s around (h.lexical s around hs)⟩

/-- A scope that is added leaves the others as they are. -/
theorem add (scope : Scope) (hlog : ∀ s, s.index < scopes.size → log' s = log s) :
    Later p log scopes log' (scopes.add scope).2 := by
  have old {s : ScopeId} {t : Scope} (hs : scopes.get? s = some t) :
      (scopes.add scope).2.get? s = some t ∧ log' s = log s := by
    have hlt : s.index < scopes.size := by
      by_contra hge
      rw [Scopes.get?_eq_none_iff.2 (Nat.not_lt.1 hge)] at hs
      cases hs
    rw [Scopes.get?_add, if_neg (Nat.ne_of_lt hlt)]
    exact ⟨hs, hlog s hlt⟩
  refine ⟨Scopes.grows_add _ _, fun s around h => ?_⟩
  induction h with
  | program hs hp hl hown => exact .program (old hs).1 hp ((old hs).2.trans hl) hown
  | function hs hp hlt hl hmem hin hown _ ih =>
    exact .function (old hs).1 hp hlt ((old hs).2.trans hl) hmem hin hown ih

/-- What is bound in a scope is inside its functions, and is none of their inputs. -/
theorem define {s : ScopeId} {around : List NodeId} {id : NodeId} {v : Value}
    (hs : p.Lexical log scopes s around) (hid : p.functionsAround id = around)
    (hplain : ∀ d ∈ p.tree.nodes, id ∉ p.inputs d) :
    Later p log scopes log (scopes.define s id v) := by
  refine ⟨Scopes.grows_define _ _ _ _, fun t around' h => ?_⟩
  -- A scope keeps its place and what it binds, unless the definition is bound in it.
  have kept {t : ScopeId} {scope : Scope} (ht : scopes.get? t = some scope) :
      ∃ scope', (scopes.define s id v).get? t = some scope' ∧ scope'.parent = scope.parent ∧
        (∀ x, x ≠ id → scope'.bindings.get? x = scope.bindings.get? x) ∧
        (t = s ∨ scope' = scope) := by
    rw [Scopes.get?_define, ht]
    split
    · next e =>
      refine ⟨_, rfl, rfl, fun x hx => ?_, .inl e.symm⟩
      rw [Table.get?_insert, if_neg (Ne.symm hx)]
    · exact ⟨scope, rfl, rfl, fun _ _ => rfl, .inr rfl⟩
  induction h with
  | @program t scope ht hp hl hown =>
    obtain ⟨scope', ht', hp', hb, hst⟩ := kept ht
    refine .program ht' (hp'.trans hp) hl fun x hx => ?_
    by_cases hxid : x = id
    · rcases hst with rfl | rfl
      · rw [hxid, hid]
        exact hs.unique (.program ht hp hl hown)
      · exact hown x hx
    · exact hown x (hb x hxid ▸ hx)
  | @function t outer scope a around' ht hp hlt hl hmem hin hown hout ih =>
    obtain ⟨scope', ht', hp', hb, hst⟩ := kept ht
    refine .function ht' (hp'.trans hp) hlt hl hmem (fun x hx => ?_) (fun x hx => ?_) ih
    · obtain ⟨w, hw, hbound⟩ := hin x hx
      have hxid : x ≠ id := fun e => hplain _ hmem (e ▸ hx)
      exact ⟨w, hw, (hb x hxid).trans hbound⟩
    · by_cases hxid : x = id
      · rcases hst with rfl | rfl
        · rw [hxid, hid]
          exact hs.unique (.function ht hp hlt hl hmem hin hown hout)
        · exact hown x hx
      · exact hown x (hb x hxid ▸ hx)

end Later

namespace Program

/-- The scopes outwards are activations of the functions around, one by one. -/
theorem Lexical.outward {s : ScopeId} {inner outer : List NodeId} {d : NodeId}
    (h : p.Lexical log scopes s (inner ++ d :: outer)) :
    ∃ t a, scopes.outward inner.length s = some t ∧ log t = some a ∧ a.definition = d := by
  induction inner generalizing s with
  | nil =>
    cases h with
    | function _ _ _ hlog => exact ⟨s, _, rfl, hlog, rfl⟩
  | cons e inner ih =>
    cases h with
    | function hs hp _ _ _ _ _ hout =>
      obtain ⟨t, a, ht, ha⟩ := ih hout
      refine ⟨t, a, ?_, ha⟩
      show ((scopes.get? s).bind Scope.parent).bind _ = some t
      rw [hs, Option.bind_some, hp]
      exact ht

/-- **The value of an input** is the one that its function was entered with, in the
    activation that is reached outwards through the functions around. -/
theorem Lexical.input {s : ScopeId} {around : List NodeId} {d x : NodeId} {v : Value}
    (h : p.Lexical log scopes s around) (hx : x ∈ p.inputs d)
    (haround : ∃ outer, p.functionsAround x = d :: outer) (hv : scopes.lookup s x = some v) :
    ∃ inner outer t a, around = inner ++ d :: outer ∧ scopes.outward inner.length s = some t ∧
      log t = some a ∧ a.definition = d ∧ a.inputs.get? x = some v := by
  induction h with
  | @program s scope hs hp hlog hown =>
    unfold Scopes.lookup at hv
    rw [hs] at hv
    dsimp only at hv
    rw [hp] at hv
    cases hb : scope.bindings.get? x with
    | none => rw [hb] at hv; cases hv
    | some w =>
      obtain ⟨outer, ho⟩ := haround
      have := hown x (by rw [hb]; rfl)
      rw [ho] at this
      cases this
  | @function s outer scope a around hs hp hlt hlog hmem hin hown hout ih =>
    unfold Scopes.lookup at hv
    rw [hs] at hv
    dsimp only at hv
    rw [hp] at hv
    cases hb : scope.bindings.get? x with
    | some w =>
      -- The scope binds the input itself, so it is an activation of the function.
      rw [hb] at hv
      cases hv
      obtain ⟨outer', ho⟩ := haround
      have hplace := hown x (by rw [hb]; rfl)
      rw [ho] at hplace
      cases hplace
      obtain ⟨u, hu, hbound⟩ := hin x hx
      rw [hb] at hbound
      cases hbound
      exact ⟨[], around, s, a, rfl, rfl, hlog, rfl, hu⟩
    | none =>
      rw [hb] at hv
      dsimp only at hv
      rw [dif_pos hlt] at hv
      obtain ⟨inner, outer', t, a', rfl, ht, ha⟩ := ih hv
      refine ⟨a.definition :: inner, outer', t, a', rfl, ?_, ha⟩
      show ((scopes.get? s).bind Scope.parent).bind _ = some t
      rw [hs, Option.bind_some, hp]
      exact ht

end Program

end

end Arbor
