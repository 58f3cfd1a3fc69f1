/-
  Looking up and describing, without a bound.

  A definition is looked up from a scope to the scope around it, and an instance is described
  by its inputs, which may be instances in turn.  Both could go on for ever: scopes refer to
  each other in circles, since a function is bound in the scope that it closes over.  `Seeks`
  and `Reads` are these two readings as they are, with no bound on how far they go; that one
  of them gives something says that it ends.

  They end if scopes are younger than the scopes around them, and instances younger than the
  instances among their inputs.

  Main statements: `Scopes.seeks_iff` and `Value.reads_iff`, the unbounded readings end, and
  give what the bounded ones give.
-/
import Arbor.Proofs.Value.Likeness

namespace Arbor

/-- Looking a definition up from a scope outwards ends, with the value of the nearest scope
    that binds it, or at a scope with none around it. -/
inductive Scopes.Seeks (σ : Scopes) (d : NodeId) : ScopeId → Option Value → Prop
  | bound {id : ScopeId} {scope : Scope} {v : Value} : σ.get? id = some scope →
      scope.bindings.get? d = some v → Seeks σ d id (some v)
  | outward {id outer : ScopeId} {scope : Scope} {found : Option Value} :
      σ.get? id = some scope → scope.bindings.get? d = none → scope.parent = some outer →
      Seeks σ d outer found → Seeks σ d id found
  | outermost {id : ScopeId} {scope : Scope} : σ.get? id = some scope →
      scope.bindings.get? d = none → scope.parent = none → Seeks σ d id none

/-- Describing a value ends, with these words. -/
inductive Value.Reads (p : Program) (σ : Scopes) : Value → String → Prop
  | bool (b : Bool) : Reads p σ (bool b) (toString b)
  | number (x : Float) : Reads p σ (number x) (numberText x)
  | text (s : String) : Reads p σ (text s) s!"\"{s}\""
  | function (d : NodeId) (c : Option ScopeId) :
      Reads p σ (function d c) ("ƒ " ++ p.nameText d "?")
  | method (d : NodeId) (c : Option ScopeId) (receiver : Value) :
      Reads p σ (method d c receiver) ("ƒ " ++ p.nameText d "?")
  | definition (d : NodeId) (c : Option ScopeId) :
      Reads p σ (definition d c) ("•" ++ p.nameText d "?")
  | exception (e : Exception) : Reads p σ (exception e) (e.describe p)
  | instanceOf {d : NodeId} {s : ScopeId} (found : NodeId → Option Value)
      (text : NodeId → String) : (∀ i ∈ p.inputs d, σ.Seeks i s (found i)) →
      (∀ i ∈ p.inputs d, found i = none → text i = "?") →
      (∀ i ∈ p.inputs d, ∀ v, found i = some v → Reads p σ v (text i)) →
      Reads p σ (instanceOf d s) (p.nameText d "?" ++ "(" ++
        ", ".intercalate ((p.inputs d).map fun i => p.nameText i "?" ++ ": " ++ text i) ++ ")")

variable {p : Program} {σ : Scopes} {d : NodeId} {id : ScopeId}

/-! ## One result -/

theorem Scopes.Seeks.unique {found found' : Option Value} (h : σ.Seeks d id found)
    (h' : σ.Seeks d id found') : found = found' := by
  induction h generalizing found' with
  | bound hs hv =>
    cases h' with
    | bound hs' hv' => cases hs.symm.trans hs'; exact hv.symm.trans hv'
    | outward hs' hn _ _ => cases hs.symm.trans hs'; rw [hv] at hn; cases hn
    | outermost hs' hn _ => cases hs.symm.trans hs'; rw [hv] at hn; cases hn
  | outward hs hn hp _ ih =>
    cases h' with
    | bound hs' hv => cases hs.symm.trans hs'; rw [hv] at hn; cases hn
    | outward hs' _ hp' h' => cases hs.symm.trans hs'; cases hp.symm.trans hp'; exact ih h'
    | outermost hs' _ hp' => cases hs.symm.trans hs'; rw [hp] at hp'; cases hp'
  | outermost hs hn hp =>
    cases h' with
    | bound hs' hv => cases hs.symm.trans hs'; rw [hv] at hn; cases hn
    | outward hs' _ hp' _ => cases hs.symm.trans hs'; rw [hp] at hp'; cases hp'
    | outermost => rfl

theorem Value.Reads.unique {v : Value} {words words' : String} (h : v.Reads p σ words)
    (h' : v.Reads p σ words') : words = words' := by
  induction h generalizing words' with
  | @instanceOf d s found text hfound hnone _ ih =>
    cases h' with
    | instanceOf found' text' hfound' hnone' hsome' =>
      have htext : ∀ i ∈ p.inputs d, text i = text' i := by
        intro i hi
        have hsame := (hfound i hi).unique (hfound' i hi)
        cases hv : found i with
        | none => rw [hnone i hi hv, hnone' i hi (hsame.symm.trans hv)]
        | some v => exact ih i hi v hv (hsome' i hi v (hsame.symm.trans hv))
      rw [List.map_congr_left fun i hi => by rw [htext i hi]]
  | _ => cases h'; rfl

/-! ## The readings end -/

section
variable (hparent : ∀ id outer, σ.parent? id = some outer → outer.index < id.index)
include hparent

/-- Looking up in a scope ends. -/
theorem Scopes.seeks_lookup (hid : id.index < σ.size) : σ.Seeks d id (σ.lookup id d) := by
  -- Induction on the age of the scope; the one around it is older.
  induction hn : id.index using Nat.strongRecOn generalizing id with
  | _ n ih =>
    subst hn
    obtain ⟨scope, hs⟩ : ∃ scope, σ.get? id = some scope := ⟨_, Array.getElem?_eq_getElem hid⟩
    unfold lookup
    rw [hs]
    dsimp only
    cases hv : scope.bindings.get? d with
    | some v => exact .bound hs hv
    | none =>
      cases hp : scope.parent with
      | none => exact .outermost hs hv hp
      | some outer =>
        have hlt : outer.index < id.index := hparent id outer (by rw [parent?, hs]; exact hp)
        dsimp only
        rw [dif_pos hlt]
        exact .outward hs hv hp (ih _ hlt (Nat.lt_trans hlt hid) rfl)

/-- **Looking up ends**, and gives what the bounded look-up gives. -/
theorem Scopes.seeks_iff (hid : id.index < σ.size) {found : Option Value} :
    σ.Seeks d id found ↔ found = σ.lookup id d := by
  constructor
  · exact fun h => h.unique (seeks_lookup hparent hid)
  · rintro rfl
    exact seeks_lookup hparent hid

variable {P : Value → Prop} (hP : ∀ d s, P (.instanceOf d s) → s.index < σ.size ∧
  ∀ i ∈ p.inputs d, ∃ v, σ.own? s i = some v ∧ v.Older s ∧ P v)
include hP

/-- Describing a value ends within the age of an instance. -/
theorem Value.reads_describeWithin (n : Nat) {v : Value} (hv : P v) (hold : v.Older ⟨n⟩) :
    v.Reads p σ (v.describeWithin p σ n) := by
  induction n generalizing v with
  | zero =>
    cases v with
    | instanceOf d s => exact absurd hold (Nat.not_lt_zero _)
    | _ => simp only [describeWithin]; constructor
  | succ n ih =>
    cases v with
    | instanceOf d s =>
      obtain ⟨hs, hinputs⟩ := hP d s hv
      rw [Scopes.Alike.describeWithin_instanceOf]
      refine .instanceOf (fun i => σ.lookup s i)
        (fun i => ((σ.lookup s i).map (describeWithin p σ n)).getD "?") ?_ ?_ ?_
      · exact fun i _ => Scopes.seeks_lookup hparent hs
      · intro i _ hnone
        rw [hnone]
        rfl
      · intro i hi w hw
        obtain ⟨w', hown, holder, hw'⟩ := hinputs i hi
        cases (Scopes.lookup_of_own? hown).symm.trans hw
        rw [hw]
        refine ih hw' ?_
        cases w with
        | instanceOf e t => exact Nat.lt_of_lt_of_le holder (Nat.le_of_lt_succ hold)
        | _ => trivial
    | _ => simp only [describeWithin]; constructor

/-- **Describing ends**, and gives what the bounded description gives. -/
theorem Value.reads_iff {v : Value} (hv : P v) {words : String} :
    v.Reads p σ words ↔ words = v.describe p σ := by
  have hends : v.Reads p σ (v.describe p σ) := by
    refine reads_describeWithin hparent hP (σ.size + 1) hv ?_
    cases v with
    | instanceOf d s => exact Nat.lt_succ_of_lt (hP d s hv).1
    | _ => trivial
  constructor
  · exact fun h => h.unique hends
  · rintro rfl
    exact hends

end

end Arbor
