/-
  Runs of calls.

  A call opens a frame above the others, and the frame goes away with the value of the
  body or with an exception that unwinds it.  If the machine runs the code of every node
  as the node is evaluated (`Simulates`), it therefore runs calls as they are evaluated.

  Main statements: `gives_return`, what becomes of the frame of a call; `gives_enter` and
  `gives_call`, calls that are asked for by a step.
-/
import Arbor.Proofs.Evaluation.Runs

namespace Arbor

/-- The surroundings of the evaluation of a frame above others. -/
def Frame.env (f : Frame) (below : List Frame) (streams : Table StreamId Value) : Env where
  definition := f.definition
  creator := f.creator
  scope := f.scope
  this := f.this
  nearest := (f :: below).findSome? Frame.this
  streams := streams

namespace Machine

variable (p : Program) (limits : Limits)

/-- With room for a number of calls, the machine runs the code of every node as the node
    is evaluated. -/
def Simulates (room : Nat) : Prop :=
  ∀ (m₀ : Machine) (f₀ : Frame) (below : List Frame),
    limits.maxDepth - (below.length + 1) = room → Calm m₀ below →
    ∀ (id : NodeId) {code operands scopes m f},
      Stands m₀ f₀ below (p.compile id ++ code) operands scopes m f →
      Gives p limits m₀ f₀ below code operands m
        ((p.evaluate room (f₀.env below m₀.streams) id).on scopes)

variable {p limits} {m₀ m₁ m m' : Machine} {f₀ f g h : Frame} {below : List Frame}
  {code code' : List Step} {operands operands' : List Value} {scopes scopes' : Scopes}

/-! ## The end of a call -/

/-- What the frame of a call keeps is kept below it. -/
theorem Keeps.trans (hk : Keeps below m₀ m₁ scopes) (hk' : Keeps (g :: below) m₁ m' scopes') :
    Keeps below m₀ m' scopes' where
  scopes := hk'.scopes
  remembered hb := (hk'.remembered nofun).trans (hk.remembered hb)
  reevaluating := hk'.reevaluating.trans hk.reevaluating
  streams := hk'.streams.trans hk.streams
  pending := hk'.pending.trans hk.pending
  result := hk'.result.trans hk.result
  runs := hk'.runs.trans hk.runs

/-- **The end of a call.**  The frame below goes on with the value of the body, or is
    unwound with the frame of the call. -/
theorem gives_return {r : Except Stop Value × Scopes} (hk : Keeps below m₀ m₁ scopes)
    (hsame : f₀.Same g) (hgoes : g.exception? = none) (hcode : g.code ≠ [])
    (hr : Gives p limits m₁ h (g :: below) [] [] m r) :
    Gives p limits m₀ f₀ below g.code g.operands m r := by
  obtain ⟨r, s⟩ := r
  rcases r with (e | creator) | v <;> unfold Gives at hr ⊢
  · refine hr.trans fun r hx => ?_
    obtain ⟨o, h', hok, ho, hframes, hphase, hk'⟩ := hx
    refine ⟨o, hok, ho, .now ?_⟩
    rw [step_unwinding hframes hphase]
    have hk'' := hk.trans hk'
    exact ⟨_, _, rfl, rfl, rfl, rfl, ⟨hk''.scopes, hk''.remembered, hk''.reevaluating,
      hk''.streams, hk''.pending, hk''.result, hk''.runs⟩⟩
  · exact hr
  · refine ⟨hr.1, hr.2.mono fun r hx => ?_⟩
    obtain ⟨m', h', st, rfl, -, -, hdone, hops, hk'⟩ := hx
    refine ⟨m', g.push v, st, ?_, hgoes, hsame.trans (.push g v), rfl, rfl, hk.trans hk'⟩
    rw [settle_open (g := g.push v) hcode]
    unfold settle complete
    rw [(h'.isDone_iff).2 hdone, hops]
    rfl

/-! ## The body of a call -/

/-- The statements of a structure leave an instance of it. -/
theorem gives_statements {room : Nat} {d : NodeId} (hsim : Simulates p limits room)
    (hroom : limits.maxDepth - (below.length + 1) = room) (hcalm : Calm m₀ below)
    (hd : p.IsStructure d) (hst : Stands m₀ f₀ below (p.compileBody d) [] scopes m f) :
    Gives p limits m₀ f₀ below [] [] m
      ((do
        let _ ← Eval.inOrder (p.evaluate room (f₀.env below m₀.streams)) (p.statements d)
        return .instanceOf d f₀.scope : Eval Value).on scopes) := by
  obtain ⟨ns, fs, vs, is, body, hn⟩ := hd
  have hcode : p.compileBody d =
      ⟨d, .start⟩ :: ((p.statements d).flatMap p.compile ++ [⟨d, .finish⟩]) := by
    unfold Program.compileBody
    rw [hn]
    rfl
  rw [hcode] at hst
  refine gives_start hcalm hst (by simp) fun m' g hst => ?_
  refine gives_inOrder (fun c _ => hsim m₀ f₀ below hroom hcalm c) (by simp) hst
    fun vs s m' g hlen _ hst => ?_
  have hfinish : p.finish m' g.advance below ⟨d, .finish⟩ none =
      { value := .instanceOf d f₀.scope, frame := g.advance.drop (p.statements d).length } := by
    simp only [Program.finish, hn, ← hst.same.scope]
    rfl
  have hgives := gives_finish p limits hcalm hst (Or.inl rfl) hfinish rfl
  rwa [List.append_nil, List.drop_of_length_le (by simp [hlen])] at hgives

/-- The frame of a call runs as the body is evaluated. -/
theorem gives_body {room : Nat} {env : Env} {c : Call} {id : ScopeId}
    (hsim : Simulates p limits room) (hroom : limits.maxDepth - (below.length + 1) = room)
    (hcalm : Calm m₀ below) (hf : f₀ = p.openFrame c id)
    (henv : f₀.env below m₀.streams = env)
    (hst : Stands m₀ f₀ below (p.compileBody c.definition) [] scopes m f) :
    Gives p limits m₀ f₀ below [] [] m
      ((match p.node? c.definition with
        | some (.functionDefinition _ _ _ _ (some body)) => p.evaluate room env body
        | some (.structureDefinition ..) => do
          let _ ← Eval.inOrder (p.evaluate room env) (p.statements c.definition)
          return .instanceOf c.definition id
        | _ => throw (.bodiless c.creator) : Eval Value).on scopes) := by
  subst henv
  split
  · next body hn =>
    have hcode : p.compileBody c.definition = p.compile body ++ [] := by
      unfold Program.compileBody
      rw [hn, List.append_nil]
    exact hsim m₀ f₀ below hroom hcalm body (hcode ▸ hst)
  · next ns fs vs is body hn =>
    have hgives := gives_statements hsim hroom hcalm ⟨ns, fs, vs, is, body, hn⟩ hst
    rwa [show f₀.scope = id by rw [hf]; rfl] at hgives
  · next hnofun hnostruct =>
    have hcode : p.compileBody c.definition = [] := by
      unfold Program.compileBody
      split
      · next hn => exact absurd hn (hnofun _ _ _ _ _)
      · next hn => exact absurd hn (hnostruct _ _ _ _ _)
      · rfl
    unfold Gives
    refine .now ?_
    rw [step_stuck hst.frames hst.goes (hst.code.trans hcode), hst.same.creator, hf]
    rfl

/-! ## Calls that a step asks for -/

/-- A call for which there is room opens a frame that runs as what is called is evaluated. -/
theorem enter_opens {room : Nat} {s : Step} {c : Call} {scope : Scope}
    (hsim : Simulates p limits room) (hroom : limits.maxDepth - (below.length + 1) = room + 1)
    (hk : Keeps below m₀ m₁ scopes) (hsame : f₀.Same g) (hscope : p.callScope c = .ok scope) :
    ∃ opened f₁, m₁.enter p limits g below s c = (.ok (.executed s), opened) ∧
      opened.frames = f₁ :: g :: below ∧ opened.store = (m₁.store.addScope scope).2 ∧
      Keeps below m₀ opened (scopes.add scope).2 ∧
      ∃ x : Eval Value, Gives p limits opened f₁ (g :: below) [] [] opened
          (x.on (scopes.add scope).2) ∧
        (p.openCall (p.evaluate room) (f₀.env below m₀.streams) c).on scopes =
          x.on (scopes.add scope).2 := by
  have hfree : ¬limits.maxDepth ≤ below.length + 1 := by omega
  let id : ScopeId := (m₁.addScope scope).1
  let opened : Machine :=
    { (m₁.addScope scope).2 with frames := p.openFrame c id :: g :: below }
  have hopened : Keeps below m₀ opened (scopes.add scope).2 := by
    refine ⟨?_, hk.remembered, hk.reevaluating, hk.streams, hk.pending, hk.result, hk.runs⟩
    rw [← hk.scopes]
    rfl
  have hid : (scopes.add scope).1 = id := by
    rw [← hk.scopes]
    rfl
  have henv : (p.openFrame c id).env (g :: below) opened.streams =
      (f₀.env below m₀.streams).inside c id := by
    have hthis : (g :: below).findSome? Frame.this = (f₀ :: below).findSome? Frame.this := by
      simp only [List.findSome?_cons, hsame.this]
    simp only [Frame.env, Env.inside, Program.openFrame, ← hthis, ← hk.streams]
    rw [List.findSome?_cons]
    cases c.this <;> rfl
  have hst : Stands opened (p.openFrame c id) (g :: below) (p.compileBody c.definition) []
      (scopes.add scope).2 opened (p.openFrame c id) :=
    ⟨rfl, rfl, .refl _, rfl, rfl, hopened.scopes, fun _ => rfl, rfl, rfl, rfl, rfl, rfl⟩
  have hroom' : limits.maxDepth - ((g :: below).length + 1) = room := by
    rw [List.length_cons]
    omega
  have hcalm : Calm opened (g :: below) := fun _ => List.cons_ne_nil g below
  refine ⟨opened, _, ?_, rfl, rfl, hopened, _, gives_body hsim hroom' hcalm rfl henv hst, ?_⟩
  · rw [enter, if_neg hfree, hscope]
  · unfold Program.openCall
    rw [hscope]
    exact Eval.on_bind_ok (Prod.ext (congrArg Except.ok hid) rfl)

/-- A call that is asked for is evaluated in a frame of its own. -/
theorem gives_enter {room : Nat} {s : Step} {c : Call}
    (hsim : ∀ n, n < room → Simulates p limits n)
    (hroom : limits.maxDepth - (below.length + 1) = room) (hk : Keeps below m₀ m₁ scopes)
    (hsame : f₀.Same g) (hgoes : g.exception? = none) (hcode : g.code ≠ [])
    (hs : m.step p limits = m₁.enter p limits g below s c) :
    Gives p limits m₀ f₀ below g.code g.operands m
      ((p.invoke room (f₀.env below m₀.streams) c).on scopes) := by
  cases room with
  | zero =>
    have hfull : limits.maxDepth ≤ below.length + 1 := by omega
    refine gives_raise (s := s) (g := g) hk ?_
    rw [hs, enter, if_pos hfull]
  | succ room =>
    show Gives p limits m₀ f₀ below g.code g.operands m
      ((p.openCall (p.evaluate room) (f₀.env below m₀.streams) c).on scopes)
    cases hscope : p.callScope c with
    | error e =>
      rw [enter, if_neg (by omega), hscope] at hs
      unfold Program.openCall
      rw [hscope]
      exact gives_raise hk hs
    | ok scope =>
      obtain ⟨opened, f₁, hopen, -, -, hopened, x, hbody, hx⟩ :=
        enter_opens (s := s) (hsim room (Nat.lt_succ_self room)) hroom hk hsame hscope
      rw [hx]
      exact .after (hs.trans hopen) rfl (gives_return hopened hsame hgoes hcode hbody)

/-- A value that is called raises an exception, or asks for a call. -/
theorem callAction_cases (p : Program) (id : NodeId) (name : Option Name) (callee : Value)
    (arguments : List Value) :
    (∃ e, p.callAction id name callee arguments = .raise e ∧
      ∀ invoke, p.call invoke id name callee arguments = Eval.raise e) ∨
    ∃ c, p.callAction id name callee arguments = .call c ∧
      ∀ invoke, p.call invoke id name callee arguments = invoke c := by
  unfold Program.callAction Program.call
  cases callee with
  | function d closure | method d closure receiver =>
    dsimp only
    split
    · exact .inl ⟨_, rfl, fun _ => rfl⟩
    · exact .inr ⟨_, rfl, fun _ => rfl⟩
  | definition d closure =>
    dsimp only
    split
    · exact .inr ⟨_, rfl, fun _ => rfl⟩
    · exact .inl ⟨_, rfl, fun _ => rfl⟩
  | _ => exact .inl ⟨_, rfl, fun _ => rfl⟩

/-- A value that a step calls is called as it is in an evaluation. -/
theorem gives_call {room : Nat} {s : Step} {id : NodeId} {name : Option Name} {callee : Value}
    {arguments : List Value} (hsim : ∀ n, n < room → Simulates p limits n)
    (hroom : limits.maxDepth - (below.length + 1) = room) (hk : Keeps below m₀ m₁ scopes)
    (hsame : f₀.Same g) (hgoes : g.exception? = none) (hcode : g.code ≠ [])
    (hs : m.step p limits = m₁.act p limits g below s (p.callAction id name callee arguments)) :
    Gives p limits m₀ f₀ below g.code g.operands m
      ((p.call (p.invoke room (f₀.env below m₀.streams)) id name callee arguments).on scopes) := by
  rcases callAction_cases p id name callee arguments with ⟨e, ha, hcall⟩ | ⟨c, ha, hcall⟩ <;>
    rw [hcall] <;> rw [ha] at hs
  · exact gives_raise hk hs
  · exact gives_enter hsim hroom hk hsame hgoes hcode hs

end Machine

end Arbor
