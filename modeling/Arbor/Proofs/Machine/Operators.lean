/-
  Operators when they are run.

  The function of an operator on a value is the member of that value with the operator's name,
  reached from the value.  So an operation and a call of that member open the same frame, or are
  refused alike; only the node that is named as the caller differs.

  * `Value.instanceScope?`: what a method of the value closes over;
  * `Machine.Starts m f below id vs`: the machine is about to start the evaluation at the node
    `id`, with the values `vs` on top, the latest first;
  * `Machine.StartAlike`: two machines that are, in one step each, do the same.

  Main statement: `SpellsOut.operation_eq_call`, what is found about the two by the analysis and
  by the machine.
-/
import Arbor.Proofs.Conflict.Operators
import Arbor.Proofs.Machine.Code

namespace Arbor

/-! ## Methods -/

/-- What a method of the value closes over: the scope of an instance, and nothing for any other
    value. -/
def Value.instanceScope? : Value → Option ScopeId
  | .instanceOf _ scope => some scope
  | _ => none

namespace Program

variable {p : Program} {v w : Value} {n : Name}

/-- What an operator finds on a value is a function, reached from the value. -/
theorem exists_of_method? (h : p.method? v n = some w) :
    ∃ f, w = .method f v.instanceScope? v := by
  unfold method? at h
  split at h
  · split at h
    · next f _ => exact ⟨f, (Option.some.inj h).symm⟩
    · cases h
  · next hv =>
    obtain ⟨f, -, rfl⟩ := Option.map_eq_some_iff.1 h
    refine ⟨f, ?_⟩
    cases v <;> first | rfl | exact absurd rfl (hv _ _)

/-- **What an operator finds is the member with its name.** -/
theorem propertyValue_of_method? (h : p.method? v n = some w) (hv : v.exception? = none)
    (scopes : Scopes) (id : NodeId) : p.propertyValue scopes id v n = w := by
  unfold propertyValue
  cases v with
  | exception e => cases hv
  | instanceOf d scope =>
    unfold method? at h
    dsimp only at h ⊢
    split at h
    · next f hf =>
      rw [hf]
      exact Option.some.inj h
    · cases h
  | _ => simp only [h, Option.getD_some]

end Program

/-! ## Starting evaluations -/

namespace Machine

/-- The machine is about to start the evaluation at a node, with values on top of its frame, the
    latest first. -/
structure Starts (m : Machine) (f : Frame) (below : List Frame) (id : NodeId) (vs : List Value) :
    Prop where
  frames : m.frames = f :: below
  running : f.exception? = none
  next : ∃ code, f.code = ⟨id, .startEvaluation⟩ :: code
  operands : ∃ operands, f.operands = vs ++ operands

/-- One step of each of two machines, that are about to start an evaluation with two values at
    the nodes `o` and `c`. -/
inductive StartAlike (p : Program) (limits : Limits) (o c : NodeId) (m : Machine) (f : Frame)
    (below : List Frame) (m' : Machine) (f' : Frame) (below' : List Frame) : Prop
  /-- Both open a frame, which differ only in the nodes that started them. -/
  | opened (g : Frame) (scopes : Scopes) (hcreator : g.creator = o)
      (hstep : m.step p limits = (.ok (.executed ⟨o, .startEvaluation⟩), { m with
        frames := g :: f.advance.drop 2 :: below
        store := { m.store with scopes }
        stepsTaken := m.stepsTaken + 1 }))
      (hstep' : m'.step p limits = (.ok (.executed ⟨c, .startEvaluation⟩), { m' with
        frames := { g with creator := c } :: f'.advance.drop 2 :: below'
        store := { m'.store with scopes }
        stepsTaken := m'.stepsTaken + 1 }))
  /-- Both raise an exception of the same kind. -/
  | raised (e e' : Exception) (hkind : e.kind = e'.kind)
      (hstep : m.step p limits = (.ok (.executed ⟨o, .startEvaluation⟩), { m with
        frames := { f.advance.drop 2 with phase := .unwinding e } :: below
        stepsTaken := m.stepsTaken + 1 }))
      (hstep' : m'.step p limits = (.ok (.executed ⟨c, .startEvaluation⟩), { m' with
        frames := { f'.advance.drop 2 with phase := .unwinding e' } :: below'
        stepsTaken := m'.stepsTaken + 1 }))

variable {p : Program} {id : NodeId} {m : Machine} {f : Frame} {below : List Frame} {v w : Value}

/-- The values that are taken to start an evaluation are those on top, in order. -/
theorem Starts.taken_two (hs : m.Starts f below id [w, v]) (x : NodeId) :
    Program.taken f.advance x 2 = [v, w] := by
  obtain ⟨operands, hoperands⟩ := hs.operands
  unfold Program.taken
  rw [Frame.operands_advance, hoperands]
  rfl

/-- The step does what the start of the evaluation asks for. -/
theorem Starts.step (limits : Limits) {vs : List Value} (hs : m.Starts f below id vs)
    {action : Action} (haction : p.startEvaluation f.advance id = (f.advance.drop 2, action)) :
    m.step p limits = { m with stepsTaken := m.stepsTaken + 1 }.act p limits (f.advance.drop 2)
      below ⟨id, .startEvaluation⟩ action := by
  obtain ⟨code, hcode⟩ := hs.next
  refine step_running hs.frames hs.running hcode ?_
  unfold Program.execute
  rw [haction]

end Machine

namespace Program

variable {p : Program} {o c l r : NodeId} {op : Name} {m : Machine} {f : Frame}
  {below : List Frame} {v w method : Value}

/-- What is asked for when a method is called with one value. -/
def methodAction (p : Program) (id : NodeId) (method argument : Value) : Action :=
  match argument.exception? with
  | some e => .raise e
  | none => p.callAction id none method [argument]

/-- The operation calls the method of its left operand. -/
theorem SpellsOut.startEvaluation_operation (h : p.SpellsOut o c l op r)
    (hv : v.exception? = none) (hmethod : p.method? v op = some method)
    (hs : m.Starts f below o [w, v]) :
    p.startEvaluation f.advance o = (f.advance.drop 2, p.methodAction o method w) := by
  obtain ⟨d, rfl⟩ := exists_of_method? hmethod
  unfold startEvaluation methodAction
  rw [h.operation]
  dsimp only
  rw [hs.taken_two, List.findSome?_cons, hv, List.findSome?_cons]
  cases w.exception? with
  | some e => rfl
  | none =>
    dsimp only [List.findSome?_nil]
    rw [hmethod]
    rfl

/-- The call calls what it finds on top. -/
theorem SpellsOut.startEvaluation_call (h : p.SpellsOut o c l op r)
    (hmethod : p.method? v op = some method) (hs : m.Starts f below c [w, method]) :
    p.startEvaluation f.advance c = (f.advance.drop 2, p.methodAction c method w) := by
  obtain ⟨d, rfl⟩ := exists_of_method? hmethod
  obtain ⟨member, is, hc, his, -⟩ := h.call
  unfold startEvaluation methodAction
  rw [hc]
  dsimp only
  rw [his]
  dsimp only [List.length_singleton]
  have hcallee : (Value.method d v.instanceScope? v).exception? = none := rfl
  rw [hs.taken_two, List.findSome?_cons, hcallee, List.findSome?_cons]
  cases w.exception? <;> rfl

end Program

namespace Machine

variable {p : Program} {limits : Limits} {o c : NodeId} {m m' : Machine} {f f' : Frame}
  {below below' : List Frame} {vs vs' : List Value} {method w : Value}

/-- Two steps that call a method with one value do the same, under as many frames and with the
    same scopes. -/
theorem Starts.alike (hs : m.Starts f below o vs) (hs' : m'.Starts f' below' c vs')
    (hmethod : ∃ d closure this, method = .method d closure this)
    (ho : p.startEvaluation f.advance o = (f.advance.drop 2, p.methodAction o method w))
    (hc : p.startEvaluation f'.advance c = (f'.advance.drop 2, p.methodAction c method w))
    (hdepth : below'.length = below.length) (hscopes : m'.store.scopes = m.store.scopes) :
    StartAlike p limits o c m f below m' f' below' := by
  obtain ⟨d, closure, this, rfl⟩ := hmethod
  have hstep := hs.step limits ho
  have hstep' := hs'.step limits hc
  unfold Program.methodAction at hstep hstep'
  cases hw : w.exception? with
  | some e =>
    rw [hw] at hstep hstep'
    exact .raised e e rfl hstep hstep'
  | none =>
    rw [hw] at hstep hstep'
    dsimp only [Program.callAction] at hstep hstep'
    by_cases habstract : (p.node? d).any Node.isAbstractFunction = true
    · rw [if_pos habstract] at hstep hstep'
      exact .raised ⟨_, o⟩ ⟨_, c⟩ rfl hstep hstep'
    rw [if_neg habstract] at hstep hstep'
    dsimp only [act] at hstep hstep'
    unfold enter at hstep hstep'
    rw [hdepth] at hstep'
    by_cases hfull : limits.maxDepth ≤ below.length + 1
    · rw [if_pos hfull] at hstep hstep'
      exact .raised ⟨_, o⟩ ⟨_, c⟩ rfl hstep hstep'
    rw [if_neg hfull] at hstep hstep'
    unfold Program.callScope at hstep hstep'
    dsimp only at hstep hstep'
    cases hinputs : p.inputValues (p.inputs d) [w] with
    | error input =>
      rw [hinputs] at hstep hstep'
      exact .raised ⟨_, o⟩ ⟨_, c⟩ rfl hstep hstep'
    | ok values =>
      rw [hinputs] at hstep hstep'
      -- The frames are numbered alike, as the scopes are the same before.
      refine .opened (p.openFrame ⟨o, d, closure, some this, [w]⟩ ⟨m.store.scopes.all.size⟩) _ rfl
        hstep ?_
      rw [← hscopes]
      exact hstep'

end Machine

namespace Program

open Machine

variable {p : Program} {o c l r : NodeId} {op : Name}

/-- **An operation and the call of its member come to the same.**  If no question is cut short and
    the operator's function takes required inputs first, they are of one type, and a fatal conflict
    is found in both or in neither.  The member of a value is what the operator finds on it, and
    the two steps that start the evaluations do the same. -/
theorem SpellsOut.operation_eq_call (h : p.SpellsOut o c l op r) :
    (∀ m m' f, p.Quietly m → p.Quietly m' → p.Uncut m o →
      p.operatorFunction (p.typeOf l m).1 op = some f → p.RequiredFirst (p.inputs f) →
      (p.typeOf o m).1 = (p.typeOf c m').1 ∧
        hasFatal (p.conflictsOf o m).1 = hasFatal (p.conflictsOf c m').1) ∧
    ∀ v method, v.exception? = none → p.method? v op = some method →
      (∃ d, method = .method d v.instanceScope? v) ∧
      (∀ scopes id, p.propertyValue scopes id v op = method) ∧
      ∀ limits w m f below m' f' below', m.Starts f below o [w, v] →
        m'.Starts f' below' c [w, method] → below'.length = below.length →
        m'.store.scopes = m.store.scopes → StartAlike p limits o c m f below m' f' below' := by
  refine ⟨fun m m' f hm hm' huncut hf hfirst => ?_, fun v method hv hmethod => ⟨?_, ?_, ?_⟩⟩
  · obtain ⟨t, ht⟩ := (uncut_iff hm.atRest.idle hm.grounded).1 huncut
    obtain ⟨receiver, hl⟩ := h.exists_receiver ht
    rw [(Typing.plainly_typeOf hl m hm.atRest).1] at hf
    obtain ⟨n, given, hop⟩ := h.plainOperation ht hl hf
    refine ⟨?_, h.agree_hasFatal hop hf hfirst m m' hm.atRest hm'.atRest⟩
    rw [(Typing.plainly_typeOf ht m hm.atRest).1,
      (Typing.plainly_typeOf (h.hasPlainType_call hop hf) m' hm'.atRest).1]
  · exact exists_of_method? hmethod
  · exact propertyValue_of_method? hmethod hv
  · intro limits w m f below m' f' below' hs hs' hdepth hscopes
    obtain ⟨d, hd⟩ := exists_of_method? hmethod
    exact hs.alike hs' ⟨d, _, _, hd⟩ (h.startEvaluation_operation hv hmethod hs)
      (h.startEvaluation_call hmethod hs') hdepth hscopes

/-! ## A structure with an operator -/

/-- An operator that takes an optional second input, used as an operator and as a member. -/
def pairs : Program :=
  .built (do
    let other ← Build.input "other" (← Build.numberType)
    let more ← Build.bind "more" (some (← Build.numberType))
      (some (← Build.number 0x4000000000000000))
    let plus ← Build.function "+" [other, more] (some (← Build.numberType))
      (← Build.reference "other")
    let pair ← Build.structureDef "pair" [] [] [plus]
    let l ← Build.evaluate (← Build.reference "pair") []
    let r ← Build.number 0x3FF0000000000000
    let o ← Build.binary l "+" r
    let c ← Build.evaluate (← Build.property l "+") [r]
    Build.program [] [pair, o, c]) none

theorem spellsOut_pairs : pairs.SpellsOut ⟨129⟩ ⟨131⟩ ⟨127⟩ .add ⟨128⟩ where
  operation := by decide +kernel
  call := ⟨⟨130⟩, ⟨43, 1⟩, by decide +kernel, by decide +kernel, by decide +kernel⟩

/-- A frame of the program that is about to start an evaluation. -/
def startingAt (id : NodeId) (vs : List Value) : Frame where
  definition := none
  creator := pairs.root
  steps := #[⟨id, .startEvaluation⟩, ⟨id, .finish⟩]
  pc := 0
  scope := ⟨0⟩
  this := none
  operands := vs
  phase := .running

theorem starts_startingAt (id : NodeId) (vs : List Value) :
    Machine.Starts { Machine.initial .empty with frames := [startingAt id vs] }
      (startingAt id vs) [] id vs where
  frames := rfl
  running := rfl
  next := ⟨[⟨id, .finish⟩], rfl⟩
  operands := ⟨[], (List.append_nil vs).symm⟩

/-- The two are typed and checked alike from the start, and alike started for a pair and a
    number. -/
theorem operation_eq_call_pairs :
    let v : Value := .instanceOf ⟨125⟩ ⟨1⟩
    let method : Value := .method ⟨121⟩ (some ⟨1⟩) v
    let w : Value := .ofBits 0x3FF0000000000000
    (pairs.typeOf ⟨129⟩ .empty).1 = (pairs.typeOf ⟨131⟩ .empty).1 ∧
      hasFatal (pairs.conflictsOf ⟨129⟩ .empty).1 = hasFatal (pairs.conflictsOf ⟨131⟩ .empty).1 ∧
      pairs.propertyValue .empty ⟨130⟩ v .add = method ∧
      StartAlike pairs default ⟨129⟩ ⟨131⟩
        { Machine.initial .empty with frames := [startingAt ⟨129⟩ [w, v]] }
        (startingAt ⟨129⟩ [w, v]) []
        { Machine.initial .empty with frames := [startingAt ⟨131⟩ [w, method]] }
        (startingAt ⟨131⟩ [w, method]) [] := by
  intro v method w
  obtain ⟨hstatic, hdynamic⟩ := spellsOut_pairs.operation_eq_call
  have hoperator : pairs.operatorFunction (.instances ⟨125⟩) .add = some ⟨121⟩ := by decide +kernel
  have hplain : pairs.PlainOperation 2 ⟨127⟩ ⟨128⟩ ⟨121⟩ (.instances ⟨125⟩) (.primitive .number)
      (.primitive .number) := ⟨by decide +kernel, by decide +kernel, by decide +kernel⟩
  have huncut : pairs.Uncut .empty ⟨129⟩ := (uncut_iff rfl Quietly.fresh.grounded).2
    ⟨_, spellsOut_pairs.hasPlainType_operation hplain hoperator⟩
  have hleft : (pairs.typeOf ⟨127⟩ .empty).1 = .instances ⟨125⟩ :=
    (Typing.plainly_typeOf ⟨2, hplain.left⟩ _ Quietly.fresh.atRest).1
  have hfirst : ∀ k ∈ pairs.inputListConflicts (pairs.inputs ⟨121⟩),
      k.kind ≠ .requiredAfterOptional := by
    decide +kernel
  obtain ⟨htypes, hconflicts⟩ :=
    hstatic .empty .empty ⟨121⟩ .fresh .fresh huncut (hleft ▸ hoperator) hfirst
  have hmember : pairs.member ⟨125⟩ .add = some (.function ⟨121⟩) := by decide +kernel
  have hmethod : pairs.method? v .add = some method := by
    unfold method?
    dsimp only [v]
    rw [hmember]
  obtain ⟨-, hproperty, hstarts⟩ := hdynamic v method rfl hmethod
  exact ⟨htypes, hconflicts, hproperty _ _, hstarts _ _ _ _ _ _ _ _ (starts_startingAt _ _)
    (starts_startingAt _ _) rfl rfl⟩

end Program

end Arbor
