/-
  Running again.

  A run that uses what is remembered completes with what a fresh run would have completed with,
  but for the scopes of functions and structures.  Of every state of a machine, `Faithful` says
  that it remembers rightly, and that the run that is open, if one is, leads to what the program
  is evaluated to in any scopes with the values that the streams have.

  * `eventually_beginRun` is the beginning of a run, fresh or not;
  * `Faithful.step` is a step, after which the next run may have begun.

  Main statement: `ReachableFrom.reevaluates`.
-/
import Arbor.Proofs.Evaluation.Reuse
import Arbor.Proofs.Evaluation.Refinement
import Arbor.Proofs.Machine.History

namespace Arbor

variable {p : Program} {limits : Limits} {m m' m₀ : Machine} {v w : Value} {room : Nat}

/-! ## Values without their scopes -/

/-- The value, but for the scopes that it closes over: all of a boolean, number, text or
    exception, and the definition of a function, structure or instance. -/
def Value.unscoped : Value → Value
  | .function d _ => .function d none
  | .method d _ receiver => .method d none receiver.unscoped
  | .definition d _ => .definition d none
  | .instanceOf d _ => .instanceOf d ⟨0⟩
  | v => v

theorem Value.Alike.unscoped_eq {L : Likeness} (h : v.Alike p L w) : v.unscoped = w.unscoped := by
  induction h with
  | method _ _ ih => simp only [unscoped, ih]
  | _ => rfl

namespace Machine

/-! ## The end of a run -/

/-- What a run completes with, if it completes. -/
def completion? : Except Stop Value → Option Value
  | .ok v => some v
  | .error (.raised e) => some (.exception e)
  | .error (.bodiless _) => none

/-- The step completes the run with a value that is like what the evaluation gives, and the
    machine remembers rightly. -/
def Completes (p : Program) (room : Nat) (r : Except Stop Value × Scopes) (x : Result) : Prop :=
  Sure p room x.2 ∧ ∃ v w L, x.1 = .ok (.completed v) ∧ completion? r.1 = some w ∧
    x.2.store.scopes.Alike p L r.2 ∧ v.Alike p L w

/-- The end of a run changes the scopes by at most a new one. -/
theorem spares_endRun (p : Program) (m : Machine) (v : Value) :
    m.store.scopes.Spares (fun _ _ => False) (m.endRun p v).store.scopes := by
  rcases endRun_cases p m v with ⟨-, he⟩ | ⟨_, _, _, -, he⟩ <;> rw [he]
  · exact .refl _ _
  · exact .add _ _

theorem remembered_endRun (p : Program) (m : Machine) (v : Value) :
    (m.endRun p v).store.remembered = m.store.remembered := by
  rcases endRun_cases p m v with ⟨-, he⟩ | ⟨_, _, _, -, he⟩
  · rw [he]
  · rw [he]
    rfl

/-- A fresh run ends with the value that the program completes with. -/
theorem Ends.completes {x : Result} {r : Except Stop Value × Scopes} (h : Ends p m x r)
    (hw : completion? r.1 = some w) :
    ∃ m' : Machine, x = (.ok (.completed w), m'.endRun p w) ∧ m'.store.scopes = r.2 := by
  obtain ⟨r, scopes⟩ := r
  rcases r with (e | creator) | v <;> cases hw <;> unfold Ends at h
  · obtain ⟨m', hx, hk⟩ := h
    exact ⟨m', hx, hk.scopes⟩
  · obtain ⟨m', hx, hk⟩ := h
    exact ⟨m', hx, hk.scopes⟩

end Machine

open Machine

/-- The end of the code of the program completes the run. -/
theorem Beside.Reaches.completes {b : Beside p limits} {t : Aim} (h : b.Reaches t m)
    (hafter : t.after = []) (hoperands : t.operands = []) :
    Eventually p limits limits.room (Completes p limits.room t.outcome) m := by
  obtain ⟨x, code, operands, L, remembered, r, τ⟩ := t
  subst hafter hoperands
  rcases r with (e | creator) | w <;> unfold Beside.Reaches at h
  · refine h.trans fun r ⟨o, g, hok, ho, hframes, hphase, hsure⟩ => ⟨o, hok, ho, .now hsure ?_⟩
    have hstep : r.2.step p limits = _ := step_unwinding hframes hphase
    have hafter := hsure.step b.separate limits fun x v hv => by
      rw [hstep] at hv
      exact .inl ((remembered_endRun p r.2 _).symm ▸ hv)
    have halike (σ : Scopes) : σ.Alike p ⟨fun _ _ _ => False, False⟩ τ :=
      ⟨nofun, nofun, nofun, nofun, nofun⟩
    exact ⟨hafter, _, _, _, by rw [hstep]; rfl, rfl, halike _, .exception e⟩
  · exact h.elim
  · refine h.mono fun r ⟨v, M, m', g, s, hr, hleft, hsure⟩ => ⟨hsure, v, w, M, ?_, rfl, ?_, hleft.alike⟩
    all_goals
      have hsettle : m'.settle p g [] s = (.ok (.completed v), m'.endRun p v) := by
        unfold settle complete
        rw [g.isDone_iff.2 hleft.code, hleft.operands]
        rfl
      rw [hr, hsettle]
    exact hleft.abreast.alike.spares (spares_endRun p m' v) (.refl (fun _ _ => False) τ)
      fun _ _ _ _ => ⟨id, id⟩

namespace Machine

/-! ## The beginning of a run -/

/-- **A run leads to what the program is evaluated to**, in any scopes. -/
theorem eventually_beginRun (hp : p.Separate) {reevaluating : Bool}
    (hstreams : ∀ i v, m.streams.get? i = some v → ∃ q, v.primitive? = some q)
    (hsure : Sure p limits.room (m.beginRun p reevaluating)) (τ : Scopes) :
    Eventually p limits limits.room
      (Completes p limits.room ((p.evaluateProgram limits.maxDepth m.streams).on τ))
      (m.beginRun p reevaluating) := by
  obtain ⟨f, henv, hst⟩ := stands_beginRun p m reevaluating
  have hscope : f.scope = (m.store.scopes.create none).1 := congrArg Env.scope henv
  let b : Beside p limits := {
    begun := m.beginRun p reevaluating
    frame := f
    top := (τ.create none).1
    separate := hp
    env := by rw [hscope]; exact henv
    primitive := hstreams }
  have hahead (z : NodeId) (hz : p.Outside z) : ¬p.Ahead (p.compile p.root ++ []) z := by
    rintro ⟨s, hs, hk⟩
    rw [List.append_nil] at hs
    have hnode := hp.nodes_below hp.tree.root_mem (Program.mem_preorder_of_mem_compile hp.acyclic hs)
    refine hp.outside_not_mem hz ?_
    rcases hk with ⟨-, rfl⟩ | ⟨-, hk⟩
    · exact hnode
    · exact hp.nodes_below hnode hk
  obtain ⟨L, hL, habreast⟩ := Abreast.start (fun _ => True) m.store.scopes τ True hahead
  obtain ⟨N, hN⟩ := Tracks.start limits.room τ hahead
  have hlevel : b.Level (p.compile p.root ++ []) [] (p.before p.root) L
      (m.beginRun p reevaluating) f (τ.create none).2 := by
    rw [Program.before_root hp.tree]
    exact ⟨hst, hsure, hscope ▸ habreast, hL.2 trivial, N, hN⟩
  have hvalue : (p.evaluateProgram limits.maxDepth m.streams).on τ =
      (b.value p.root).on (τ.create none).2 := Program.on_evaluateProgram ..
  rw [hvalue]
  exact (b.comes .root (Program.clear_nil p.root) hlevel).completes rfl rfl

/-! ## Every state of a machine -/

theorem Eventually.cases {P : Result → Prop} (h : Eventually p limits room P m) :
    P (m.step p limits) ∨ ∃ o, (m.step p limits).1 = .ok o ∧ o.isCompleted = false ∧
      Eventually p limits room P (m.step p limits).2 := by
  cases h with
  | now _ hr => exact .inl hr
  | after _ hstep ho h =>
    rw [hstep]
    exact .inr ⟨_, rfl, ho, h⟩

theorem Eventually.sure {P : Result → Prop} (h : Eventually p limits room P m) : Sure p room m := by
  cases h <;> assumption

theorem closed_of_open {o : Outcome} (ho : o.isCompleted = false) : closed p m o = m := by
  cases o with
  | completed v => cases ho
  | _ => rfl

/-- The machine as if no input waited. -/
def alone (m : Machine) : Machine := { m with pending := [] }

variable (p limits) in
/-- The machine remembers rightly, and the run that is open leads to what the program is
    evaluated to, whatever waits. -/
structure Faithful (m : Machine) : Prop where
  sure : Sure p limits.room m.alone
  streams : ∀ i v, m.streams.get? i = some v → ∃ q, v.primitive? = some q
  pending : ∀ x ∈ m.pending, ∃ q, x.2.primitive? = some q
  leads : m.frames ≠ [] → ∀ τ, Eventually p limits limits.room
    (Completes p limits.room ((p.evaluateProgram limits.maxDepth m.streams).on τ)) m.alone

section
variable (hp : p.Separate)
include hp

theorem faithful_beginRun (hs : m.store.Sound p) (hhonest : m.store.memo.Honest p)
    (hrecalls : ∀ x v, m.store.remembered.get? x = some v → Recalls p limits.room m x v)
    (hstreams : ∀ i v, m.streams.get? i = some v → ∃ q, v.primitive? = some q)
    (hpending : ∀ x ∈ m.pending, ∃ q, x.2.primitive? = some q) (reevaluating : Bool) :
    Faithful p limits (m.beginRun p reevaluating) := by
  have hsure : Sure p limits.room (m.alone.beginRun p reevaluating) :=
    sure_beginRun (m := m.alone) hp hs (fun i v hv => (hstreams i v hv).elim fun _ => Program.primitive_sound)
      (fun _ hx => nomatch hx) hhonest (fun x v hv => (hrecalls x v hv).congr fun _ _ h => h)
      reevaluating
  exact ⟨hsure, hstreams, hpending, fun _ => eventually_beginRun (m := m.alone) hp hstreams hsure⟩

/-- A run that uses what is remembered rightly. -/
theorem Sure.reevaluate {m₁ : Machine} (h : Sure p limits.room m₁) (hstore : m.store = m₁.store)
    (hframes : m.frames = m₁.frames)
    (hstreams : ∀ i v, m.streams.get? i = some v → ∃ q, v.primitive? = some q)
    (hpending : ∀ x ∈ m.pending, ∃ q, x.2.primitive? = some q) :
    Faithful p limits (m.reevaluate p) := by
  refine faithful_beginRun hp (hstore ▸ h.orderly.sound.store) (hstore ▸ h.honest)
    (fun x v hv => ?_) hstreams hpending true
  refine (h.recalls x v (hstore ▸ hv)).congr fun L τ hm => ?_
  unfold Shelters at hm ⊢
  rwa [hstore, hframes]

theorem Faithful.start (h : Faithful p limits m) : Faithful p limits (m.start p) :=
  faithful_beginRun (m := { m with store := { m.store with remembered := .empty } }) hp
    ⟨h.sure.orderly.sound.store.scopes, fun _ _ hv => by cases hv⟩ h.sure.honest
    (fun _ _ hv => by cases hv) h.streams h.pending false

theorem Faithful.streamInput (h : Faithful p limits m) {n : Name} (hv : ∃ q, v.primitive? = some q)
    (hm : m.streamInput p n v = .ok m') : Faithful p limits m' := by
  obtain ⟨id, -, ⟨-, rfl⟩ | ⟨-, rfl⟩⟩ := streamInput_cases hm
  · exact h.sure.reevaluate hp rfl rfl (forall_stream_insert hv h.streams) h.pending
  · exact ⟨h.sure, h.streams, List.forall_mem_append.2 ⟨h.pending, List.forall_mem_singleton.2 hv⟩,
      h.leads⟩

/-- **A step of a machine**, which may complete a run and begin the next one. -/
theorem Faithful.step (h : Faithful p limits m) : Faithful p limits (m.step p limits).2 := by
  by_cases hm : m.frames = []
  · rw [step_closed hm]
    exact h
  have hcases := (h.leads hm .empty).cases
  obtain ⟨o, hok⟩ : ∃ o, (m.alone.step p limits).1 = .ok o := by
    rcases hcases with ⟨-, v, -, -, hok, -⟩ | ⟨o, hok, -⟩
    · exact ⟨_, hok⟩
    · exact ⟨o, hok⟩
  obtain ⟨frames, store, n, hq⟩ := onward_step (Prod.ext hok rfl)
  have hstep : m.step p limits = _ := hq m.pending
  have halone : m.alone.step p limits = _ := hq []
  rw [hstep]
  rcases hcases with ⟨hsure, v, -, -, hv, -⟩ | ⟨o', hok', ho, hleads⟩
  · obtain rfl : o = .completed v := Except.ok.inj (hok.symm.trans hv)
    rw [halone] at hsure
    have hpending := h.pending
    unfold closed endRun
    dsimp only
    cases hwaits : m.pending with
    | nil => exact ⟨hsure, h.streams, nofun, fun hopen => absurd rfl hopen⟩
    | cons x pending =>
      rw [hwaits, List.forall_mem_cons] at hpending
      exact hsure.reevaluate hp rfl rfl (forall_stream_insert hpending.1 h.streams) hpending.2
  · obtain rfl : o = o' := Except.ok.inj (hok.symm.trans hok')
    rw [closed_of_open ho] at halone ⊢
    have hsure := hleads.sure
    rw [halone] at hsure
    refine ⟨hsure, h.streams, h.pending, fun _ τ => ?_⟩
    -- The step has completed nothing, so it goes on for any scopes.
    rcases (h.leads hm τ).cases with ⟨-, v, -, -, hv, -⟩ | ⟨-, -, -, hleads⟩
    · rw [hok] at hv
      cases hv
      cases ho
    · rwa [halone] at hleads

/-- **Every history leaves the machine faithful**, if only booleans, numbers and texts are given
    to the streams. -/
theorem ReachableFrom.faithful {memo : Memo} (hmemo : memo.Honest p)
    (h : ReachableFrom p limits (fun v => ∃ q, v.primitive? = some q) (.initial memo) m) :
    Faithful p limits m := by
  have hreachable : Reachable p limits (Value.Sound p) (.initial memo) := .initial memo
  have hinit : Faithful p limits (.initial memo) :=
    ⟨⟨hreachable.orderly hp.grounded, hmemo,
      fun _ _ hv => by cases hv⟩, nofun, nofun, fun hopen => absurd rfl hopen⟩
  refine h.induct hinit (fun m h => h.start hp) (fun m h => ?_) (fun m h => h.step hp)
    fun m m' n v h hv hm => h.streamInput hp hv hm
  exact h.sure.reevaluate hp rfl rfl h.streams h.pending

/-- **Running again gives what a fresh run gives.**  Whenever a step completes a run, after any
    queries and any history in which the streams were given booleans, numbers and texts, a fresh
    run with the same values of the streams completes too: with the same boolean, number, text
    or exception, or with a function, structure or instance of the same definition, which has
    the same description. -/
theorem ReachableFrom.reevaluates {memo : Memo} (hmemo : p.Queried memo)
    (h : ReachableFrom p limits (fun v => ∃ q, v.primitive? = some q) (.initial memo) m)
    (hdone : m.step p limits = (.ok (.completed v), m')) (hstreams : m₀.streams = m.streams) :
    ∃ n m₁ w m₂, Runs p limits n (m₀.start p) m₁ ∧
      m₁.step p limits = (.ok (.completed w), m₂) ∧ v.unscoped = w.unscoped ∧
      v.describe p m'.store.scopes = w.describe p m₂.store.scopes := by
  have hfaithful := h.faithful hp hmemo.honest
  have hopen : m.frames ≠ [] := fun hm => by rw [step_closed hm] at hdone; cases hdone
  have hleads := hfaithful.leads hopen m₀.store.scopes
  rw [← hstreams] at hleads
  obtain ⟨frames, store, k, hq⟩ := onward_step hdone
  have halone : m.alone.step p limits = _ := hq []
  have hspares : store.scopes.Spares (fun _ _ => False) m'.store.scopes := by
    have hm' : m' = _ := (Prod.ext_iff.1 (hdone.symm.trans (hq m.pending))).2
    rw [hm']
    exact spares_endRun p { m with frames := frames, store := store, stepsTaken := k } v
  rcases hleads.cases with ⟨-, v', w, L, hv, hw, halike, hvw⟩ | ⟨o, hok, ho, -⟩
  swap
  · rw [halone] at hok
    cases hok
    cases ho
  rw [halone] at hv halike
  cases hv
  obtain ⟨n, m₁, hruns, hends⟩ := yields_ends hp.acyclic limits m₀
  obtain ⟨m₂, hstep, hscopes⟩ := hends.completes hw
  refine ⟨n, m₁, w, _, hruns, hstep, hvw.unscoped_eq, ?_⟩
  -- Either end may have opened the scope of a next run.
  have halike : store.scopes.Alike p L _ := halike
  rw [← hscopes] at halike
  exact (halike.spares hspares (spares_endRun p m₂ w) fun _ _ _ _ => ⟨id, id⟩).describe_eq hvw

end

/-- What is built stands over the basis and its shares. -/
theorem detached_built (nodes : Build NodeId) (shares : Option Shares) :
    (Program.built nodes shares).tree = .ofRoots (Program.built nodes shares).arena
      (Program.built nodes shares).root (Program.built nodes shares).detached := by
  unfold Program.built
  generalize Forest.withBasis = w
  rfl

theorem separate_switch : switch.Separate := by
  have hnone : switch.registered = [] := by decide +kernel
  have hnot (d : NodeId) (hd : d ∈ switch.registered) : False := by
    rw [hnone] at hd
    cases hd
  refine ⟨Program.treeShaped_built (by decide +kernel), overBasis_switch,
    detached_built _ _, ?_, ?_, ?_, ?_⟩
  · exact fun d hd => (hnot d hd).elim
  · exact fun d hd => (hnot d hd).elim
  · exact fun d hd => (hnot d hd).elim
  · exact fun d hd => (hnot d hd).elim

/-- The boolean with which a step completes a run. -/
def completed? : Except EvalError Outcome → Option Bool
  | .ok (.completed v) => v.bool?
  | _ => none

theorem eq_of_completed? {r : Except EvalError Outcome} {b : Bool} (h : completed? r = some b) :
    r = .ok (.completed (.bool b)) := by
  unfold completed? at h
  split at h
  · next v =>
    cases v <;> cases h
    rfl
  · cases h

/-- The run of `switch` that the waiting value begins remembers the definition, and completes
    with what a fresh run completes with. -/
theorem reevaluates_switched :
    switch.Separate ∧ (switched.after switch default 19).reevaluating = true ∧
      ((switched.after switch default 19).step switch default).1 = .ok (.completed (.bool true)) ∧
      ∃ n m₁ m₂, Runs switch default n ((switched.after switch default 19).start switch) m₁ ∧
        m₁.step switch default = (.ok (.completed (.bool true)), m₂) := by
  have hreachable : ReachableFrom switch default (fun v => ∃ q, v.primitive? = some q)
      (.initial .empty) switched := by
    have hm : ReachableFrom switch default (fun v => ∃ q, v.primitive? = some q) (.initial .empty)
        (((Machine.initial default).start switch).step switch default).2 := .step (.start .refl)
    unfold switched
    dsimp only
    split
    · next m hin => exact .streamInput hm (v := .bool true) ⟨_, rfl⟩ hin
    · exact hm
  have hdone : ((switched.after switch default 19).step switch default).1 =
      .ok (.completed (.bool true)) := eq_of_completed? (by decide +kernel)
  have hagain : (switched.after switch default 19).reevaluating = true := by decide +kernel
  -- The machine is named, for nothing here may compute it.
  obtain ⟨m, hm⟩ : ∃ m, m = switched.after switch default 19 := ⟨_, rfl⟩
  rw [← hm] at hdone hagain ⊢
  have hreached := hreachable.after 19
  rw [← hm] at hreached
  have hstreams : m.streams = m.streams := rfl
  obtain ⟨n, m₁, w, m₂, hruns, hstep, hw, -⟩ := ReachableFrom.reevaluates separate_switch .fresh
    hreached (Prod.ext hdone rfl) hstreams
  refine ⟨separate_switch, hagain, hdone, n, m₁, m₂, hruns, ?_⟩
  cases w <;> cases hw
  exact hstep

end Machine

end Arbor
