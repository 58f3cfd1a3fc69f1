/-
  Calls that the program waits for.

  While a call is open, the frame of the program waits below that of the call, and nothing is
  remembered.  Returning to the program leaves less work than there is while the call is open,
  so the machine is with the program again only when the call is over (`eventually_of_runs`).

  Main statements: `returns_enter` and `returns_call`, the calls that a step of the program asks
  for: each is evaluated as it is in an evaluation, and remembers nothing.
-/
import Arbor.Proofs.Evaluation.Nodes
import Arbor.Proofs.Machine.Sure

namespace Arbor.Machine

variable {p : Program} {limits : Limits} {m m' m₀ m₁ : Machine} {f f₀ g : Frame}
  {below : List Frame} {s : Step} {o : Outcome} {room : Nat} {P : Result → Prop} {scopes : Scopes}

/-! ## Frames above the program -/

theorem Runs.work_le {n : Nat} (hr : Runs p limits n m m₁) :
    work p limits m₁.frames ≤ work p limits m.frames := by
  induction hr with
  | refl => exact Nat.le_refl _
  | step hok ho _ ih =>
    exact Nat.le_trans ih (Nat.le_of_lt (step_onward (Prod.ext hok rfl) ho).2)

/-- A step of a frame above others leaves them as they are, or returns to the first of them. -/
theorem step_frames {caller : Frame} {rest : List Frame}
    (hm : m.frames = f :: caller :: rest) (h : m.step p limits = (.ok o, m')) :
    (∃ fs, fs ≠ [] ∧ m'.frames = fs ++ caller :: rest) ∨
      ∃ g, SameCode g caller ∧ m'.frames = g :: rest := by
  cases he : f.exception? with
  | some e =>
    rw [step_unwinding hm (f.exception?_eq_some_iff.1 he)] at h
    cases h
    exact .inr ⟨{ caller with phase := .unwinding e }, ⟨rfl, rfl⟩, rfl⟩
  | none =>
    cases hc : f.code with
    | nil => rw [step_stuck hm he hc] at h; cases h
    | cons s code =>
      rcases hr : p.execute m f.advance (caller :: rest) s with ⟨g, m₁, action⟩
      rw [step_running hm he hc hr] at h
      have top (g : Frame) : ∃ fs, fs ≠ [] ∧ g :: caller :: rest = fs ++ caller :: rest :=
        ⟨[g], nofun, rfl⟩
      have settle {m₁ : Machine} {g : Frame}
          (h : m₁.settle p g (caller :: rest) s = (.ok o, m')) :
          (∃ fs, fs ≠ [] ∧ m'.frames = fs ++ caller :: rest) ∨
            ∃ g, SameCode g caller ∧ m'.frames = g :: rest := by
        unfold Machine.settle complete at h
        split at h
        · cases hops : g.operands with
          | nil => rw [hops] at h; cases h
          | cons v vs =>
            rw [hops] at h
            cases h
            exact .inr ⟨caller.push v, ⟨rfl, rfl⟩, rfl⟩
        · cases h
          exact .inl (top g)
      cases action with
      | proceed => exact settle h
      | skip count => exact settle h
      | jump offset =>
        unfold act at h
        dsimp only at h
        split at h
        · cases h
        · exact settle h
      | raise e => cases h; exact .inl (top _)
      | call c =>
        change Machine.enter p limits _ g (caller :: rest) s c = _ at h
        unfold enter at h
        split at h
        · cases h; exact .inl (top _)
        · split at h <;> cases h
          · exact .inl (top _)
          · exact .inl ⟨[_, g], nofun, rfl⟩

/-- The frame of the program waits below others. -/
def Under (g : Frame) (m : Machine) : Prop := ∃ fs, fs ≠ [] ∧ m.frames = fs ++ [g]

/-- Nothing is remembered while the program waits. -/
theorem Sure.waiting (hp : p.Separate) (limits : Limits) (h : Sure p room m) (hm : m.Under g) :
    Sure p room (m.step p limits).2 ∧
      (m.step p limits).2.store.remembered = m.store.remembered := by
  obtain ⟨fs, hne, hfs⟩ := hm
  obtain ⟨f, fs, rfl⟩ := List.exists_cons_of_ne_nil hne
  have hkept := remembered_step p limits hfs (by simp)
  exact ⟨h.step hp limits fun x v hv => .inl (hkept ▸ hv), hkept⟩

/-- **The program waits for a call**, and remembers rightly all the time, while there is more
    work than for the frame of the program. -/
theorem eventually_of_runs (hp : p.Separate) {n : Nat} (hr : Runs p limits n m m₁)
    (hm : m.Under g) (hs : Sure p room m) (hw : work p limits [g] < work p limits m₁.frames)
    (hP : Sure p room m₁ → m₁.Under g → m₁.store.remembered = m.store.remembered →
      P (m₁.step p limits)) : Eventually p limits room P m := by
  induction hr with
  | refl => exact .now hs (hP hs hm rfl)
  | @step n m m₁ o hok ho hr ih =>
    have hstep : m.step p limits = (.ok o, (m.step p limits).2) := Prod.ext hok rfl
    obtain ⟨fs, hne, hfs⟩ := hm
    obtain ⟨f, fs, rfl⟩ := List.exists_cons_of_ne_nil hne
    have hbelow : fs ++ [g] ≠ [] := by simp
    obtain ⟨hsure, hkept⟩ := hs.waiting hp limits ⟨_, hne, hfs⟩
    have hunder : (m.step p limits).2.Under g := by
      obtain ⟨caller, rest, hcaller⟩ := List.exists_cons_of_ne_nil hbelow
      rw [List.cons_append, hcaller] at hfs
      rcases step_frames hfs hstep with ⟨gs, hgs, hframes⟩ | ⟨g', hcode, hframes⟩
      · exact ⟨gs ++ fs, by simp [hgs], by rw [hframes, ← hcaller, List.append_assoc]⟩
      · cases fs with
        | cons c fs =>
          cases hcaller
          exact ⟨g' :: fs, nofun, hframes⟩
        | nil =>
          -- Back in the program there is no more work than for its frame.
          cases hcaller
          have hle := hr.work_le
          rw [hframes] at hle
          have hsame : work p limits [g'] = work p limits [g] := by
            simp only [work, Frame.remaining, hcode.1, hcode.2]
          omega
    exact .after hs hstep ho (ih hunder hsure hw fun h₁ hu hrem => hP h₁ hu (hrem.trans hkept))

/-! ## What calls give -/

variable (p limits room) in
/-- The program raises the exception, remembering rightly until then. -/
def Raises (e : Exception) (m : Machine) : Prop :=
  Eventually p limits room (fun r => ∃ o g, r.1 = .ok o ∧ o.isCompleted = false ∧ r.2.frames = [g] ∧
    g.phase = .unwinding e ∧ Sure p room r.2) m

variable (p limits room) in
/-- The program goes on with what a call gives, and nothing was remembered. -/
def Returns (m₀ : Machine) (g : Frame) (m : Machine) : Except Stop Value × Scopes → Prop
  | (.ok v, scopes) => v.exception? = none ∧ Eventually p limits room (fun r => ∃ m' s,
      r = m'.settle p (g.push v) [] s ∧ Keeps [] m₀ m' scopes ∧
        m'.store.remembered = m.store.remembered ∧ Sure p room r.2) m
  | (.error (.raised e), _) => Raises p limits room e m
  | (.error (.bodiless _), _) => False

/-- A step before others. -/
theorem Returns.after {r : Except Stop Value × Scopes} (hs : Sure p room m)
    (hstep : m.step p limits = (.ok o, m')) (ho : o.isCompleted = false)
    (hrem : m'.store.remembered = m.store.remembered)
    (h : Returns p limits room m₀ g m' r) : Returns p limits room m₀ g m r := by
  obtain ⟨r, scopes⟩ := r
  rcases r with (e | creator) | v <;> unfold Returns at h ⊢
  · exact .after hs hstep ho h
  · exact h
  · rw [hrem] at h
    exact ⟨h.1, .after hs hstep ho h.2⟩

theorem orderly_runs (hp : p.Separate) {n : Nat} (hr : Runs p limits n m m₁)
    (h : Orderly p m) : Orderly p m₁ := by
  induction hr with
  | refl => exact h
  | step _ _ _ ih => exact ih (h.step hp.grounded limits).1

/-- No frame of a machine in order ends without a value. -/
theorem Orderly.not_underflow (hp : p.Separate) (h : Orderly p m) (limits : Limits)
    (creator : NodeId) : (m.step p limits).1 ≠ .error (.valueStackUnderflow creator) := by
  intro herror
  cases hm : m.frames with
  | nil =>
    rw [step_closed hm] at herror
    split at herror <;> cases herror
  | cons f below =>
    obtain ⟨o, hok⟩ := (h.step hp.grounded limits).2 (by simp [hm])
    rw [hok] at herror
    cases herror

theorem returns_of_gives (hp : p.Separate) {r : Except Stop Value × Scopes}
    (hr : Gives p limits m₁ f [g] [] [] m₁ r) (hk : Keeps [] m₀ m₁ scopes) (hcode : g.code ≠ [])
    (hs : Sure p room m₁) (hframes : m₁.frames = [f, g]) : Returns p limits room m₀ g m₁ r := by
  have hunder : m₁.Under g := ⟨[f], nofun, hframes⟩
  obtain ⟨r, scopes⟩ := r
  rcases r with (e | creator) | v <;> unfold Gives at hr <;> unfold Returns
  · obtain ⟨n, m₂, hruns, o, h, hok, ho, hframes₂, hphase, -⟩ := hr
    have hlt := (step_onward (Prod.ext hok rfl) ho).2
    rw [hframes₂] at hlt
    have hw := Nat.lt_trans (work_lt_cons p limits h [g]) hlt
    have hleads := eventually_of_runs (P := fun r => ∃ o, r.1 = .ok o ∧ o.isCompleted = false ∧
        r.2.frames = [h, g] ∧ Sure p room r.2) hp hruns hunder hs hw
      fun hs₂ hu _ => ⟨o, hok, ho, hframes₂, (hs₂.waiting hp limits hu).1⟩
    refine hleads.trans fun r ⟨o, hok, ho, hframes, hs⟩ => ⟨o, hok, ho, .now hs ?_⟩
    have hsure := (hs.waiting hp limits ⟨[h], nofun, hframes⟩).1
    rw [step_unwinding hframes hphase] at hsure ⊢
    exact ⟨_, _, rfl, rfl, rfl, rfl, hsure⟩
  · obtain ⟨n, m₂, hruns, herror⟩ := hr
    exact (orderly_runs hp hruns hs.orderly).not_underflow hp limits creator herror
  · obtain ⟨hv, n, m₂, hruns, m', h, st, hstep, -, -, hdone, hops, hk'⟩ := hr
    have hsettle : m'.settle p h [g] st = m'.settle p (g.push v) [] st := by
      rw [settle_open (g := g.push v) hcode]
      unfold settle complete
      rw [h.isDone_iff.2 hdone, hops]
      rfl
    have hlt : work p limits [g.push v] < work p limits m₂.frames := by
      rw [hsettle, settle_open (g := g.push v) hcode] at hstep
      exact (step_onward hstep rfl).2
    refine ⟨hv, eventually_of_runs hp hruns hunder hs hlt fun hs₂ hu _ => ?_⟩
    exact ⟨m', st, hstep.trans hsettle, hk.trans hk', hk'.remembered nofun,
      (hs₂.waiting hp limits hu).1⟩

section
variable (hp : p.Separate) (hroom : limits.maxDepth - 1 = room) (hk : Keeps [] m₀ m₁ scopes)
  (hrem : m₁.store.remembered = m.store.remembered) (hsure : Sure p room m)
include hp hsure hrem

omit hroom hk in
/-- A step that raises an exception. -/
theorem raises_of_step {e : Exception} (hs : m.step p limits = m₁.raise g [] s e) :
    Raises p limits room e m := by
  have hafter := hsure.step hp limits fun x v hv => by
    rw [hs] at hv
    exact .inl (hrem ▸ hv)
  refine .now hsure ?_
  rw [hs] at hafter ⊢
  exact ⟨_, _, rfl, rfl, rfl, rfl, hafter⟩

include hroom hk

/-- **A call of the program** is evaluated as it is in an evaluation. -/
theorem returns_enter {c : Call} (hsame : f₀.Same g) (hcode : g.code ≠ [])
    (hs : m.step p limits = m₁.enter p limits g [] s c) :
    Returns p limits room m₀ g m ((p.invoke room (f₀.env [] m₀.streams) c).on scopes) := by
  cases room with
  | zero =>
    have hfull : m₁.enter p limits g [] s c = m₁.raise g [] s ⟨.full, c.creator⟩ := by
      rw [enter, if_pos (by simp only [List.length_nil]; omega)]
    exact raises_of_step hp hrem hsure (hs.trans hfull)
  | succ room =>
    show Returns p limits (room + 1) m₀ g m
      ((p.openCall (p.evaluate room) (f₀.env [] m₀.streams) c).on scopes)
    cases hscope : p.callScope c with
    | error e =>
      rw [enter, if_neg (by simp only [List.length_nil]; omega), hscope] at hs
      unfold Program.openCall
      rw [hscope]
      exact raises_of_step hp hrem hsure hs
    | ok scope =>
      obtain ⟨opened, f₁, hopen, hframes, hstore, hopened, x, hbody, hx⟩ :=
        enter_opens (s := s) (simulates hp.acyclic room) (by simpa using hroom) hk hsame hscope
      rw [hx]
      have hstep := hs.trans hopen
      have hrem' : opened.store.remembered = m.store.remembered := by
        rw [hstore, ← hrem]
        rfl
      have hafter : Sure p (room + 1) opened := by
        have := hsure.step hp limits fun x v hv => by
          rw [hstep] at hv
          exact .inl (hrem' ▸ hv)
        rwa [hstep] at this
      exact .after hsure hstep rfl hrem' (returns_of_gives hp hbody hopened hcode hafter hframes)

/-- **A value that the program calls** is called as it is in an evaluation. -/
theorem returns_call {id : NodeId} {name : Option Name} {callee : Value} {arguments : List Value}
    (hsame : f₀.Same g) (hcode : g.code ≠ [])
    (hs : m.step p limits = m₁.act p limits g [] s (p.callAction id name callee arguments)) :
    Returns p limits room m₀ g m
      ((p.call (p.invoke room (f₀.env [] m₀.streams)) id name callee arguments).on scopes) := by
  rcases callAction_cases p id name callee arguments with ⟨e, ha, hcall⟩ | ⟨c, ha, hcall⟩ <;>
    rw [hcall] <;> rw [ha] at hs
  · exact raises_of_step hp hrem hsure hs
  · exact returns_enter hp hroom hk hrem hsure hsame hcode hs

end

end Arbor.Machine
