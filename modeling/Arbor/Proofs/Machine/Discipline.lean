/-
  The discipline of the values of a machine.

  Each frame runs balanced code, so that a frame which is running has the values that
  its steps need (`Poised`), and one that waits for a call has them with the value of
  the call (`Waits`).  In a run that uses what is remembered, the nodes that the program
  frame is inside are not remembered (`Fresh`), and a node that is skipped is at its
  finish next, which takes nothing.

  Main statements: `executes`, what a step of a poised frame leaves and asks for;
  `Orderly.step`, each step keeps the discipline and fails only if no frame is open;
  `Reachable.disciplined`, the discipline after every history.
-/
import Arbor.Proofs.Machine.History
import Arbor.Proofs.Machine.Sound
import Arbor.Proofs.Program.Basis

namespace Arbor

namespace Machine

variable (p : Program)

/-! ## Frames in order -/

/-- In a run that uses what is remembered, the nodes that the program frame is inside
    are not remembered. -/
def Fresh (m : Machine) (below : List Frame) (opened : List NodeId) : Prop :=
  m.reevaluating = true → below = [] → ∀ o ∈ opened, m.store.remembered.get? o = none

/-- The frame has the values that its code needs, or is at the finish of a node that it
    skipped. -/
inductive Poised (m : Machine) (below : List Frame) (f : Frame) : Prop
  | running {os : List NodeId} :
      Fresh m below os → p.Balanced f.code f.operands.length os → Poised m below f
  | skipped {id : NodeId} {v : Value} {os : List NodeId} {after : List Step} :
      m.reevaluating = true → below = [] → m.store.remembered.get? id = some v →
      f.code = ⟨id, .finish⟩ :: after → Fresh m below os →
      p.Balanced after (f.operands.length + 1) os → Poised m below f

/-- The frame has the values that its code needs, except that of the call that it waits
    for. -/
def Waits (m : Machine) (below : List Frame) (f : Frame) : Prop :=
  ∃ os, Fresh m below os ∧ f.code ≠ [] ∧ p.Balanced f.code (f.operands.length + 1) os

/-- The frame is inside its steps, and so are the jumps of its steps; the steps of the
    program frame are those of an expression. -/
structure Placed (below : List Frame) (f : Frame) : Prop where
  inside : f.pc ≤ f.steps.size
  jumps : JumpsInside f.steps.toList
  plain : below = [] → ∀ s ∈ f.steps.toList, s.kind = .finish → ¬p.IsStructure s.node

/-- Frames that wait for calls, one above the other. -/
def Suspended (m : Machine) : List Frame → Prop
  | [] => True
  | f :: below => Placed p below f ∧ Waits p m below f ∧ Suspended m below

/-- A machine with sound values, whose top frame has code that it can run unless it is
    unwinding, and whose other frames wait for it. -/
structure Orderly (m : Machine) : Prop where
  sound : m.Sound p
  top : ∀ f below, m.frames = f :: below → Placed p below f ∧ Suspended p m below ∧
    (f.exception? = none → f.code ≠ [] ∧ Poised p m below f)

variable {p} {m : Machine} {f : Frame} {below : List Frame}

theorem Fresh.nil : Fresh m below [] := fun _ _ _ h => nomatch h

theorem Fresh.tail {id : NodeId} {os : List NodeId} (h : Fresh m below (id :: os)) :
    Fresh m below os :=
  fun hr hb o ho => h hr hb o (List.mem_cons_of_mem _ ho)

/-- A value that is remembered for a node is one of the program frame of a run that uses
    what is remembered. -/
theorem prior?_eq_some {s : Step} {v : Value} (h : Program.prior? m below s = some v) :
    m.reevaluating = true ∧ below = [] ∧ s.kind = .finish ∧
      m.store.remembered.get? s.node = some v := by
  unfold Program.prior? at h
  split at h
  · next hc =>
    simp only [Bool.and_eq_true, List.isEmpty_iff, beq_iff_eq] at hc
    exact ⟨hc.1.1, hc.1.2, hc.2, h⟩
  · cases h

/-- Nothing is remembered for a node that the frame is inside. -/
theorem Fresh.prior?_eq_none {id : NodeId} {os : List NodeId} (h : Fresh m below (id :: os))
    (kind : StepKind) : Program.prior? m below ⟨id, kind⟩ = none := by
  cases hp : Program.prior? m below ⟨id, kind⟩ with
  | none => rfl
  | some v =>
    obtain ⟨hr, hb, -, hv⟩ := prior?_eq_some hp
    rw [h hr hb id List.mem_cons_self] at hv
    cases hv

theorem prior?_eq_none_of_kind {s : Step} (h : s.kind ≠ .finish) :
    Program.prior? m below s = none := by
  cases hp : Program.prior? m below s with
  | none => rfl
  | some v => exact absurd (prior?_eq_some hp).2.2.1 h

/-- A sound machine remembers sound values. -/
theorem Sound.prior? (hm : m.Sound p) {s : Step} {v : Value}
    (h : Program.prior? m below s = some v) : v.Sound p :=
  hm.store.remembered s.node v (prior?_eq_some h).2.2.2

/-- What the frames wait for depends only on what is remembered. -/
theorem Fresh.congr {m' : Machine} {os : List NodeId} (h : Fresh m below os)
    (hr : m'.reevaluating = m.reevaluating)
    (hs : below = [] → ∀ o ∈ os, m'.store.remembered.get? o = m.store.remembered.get? o) :
    Fresh m' below os := by
  intro hr' hb o ho
  rw [hs hb o ho]
  exact h (hr ▸ hr') hb o ho

theorem Suspended.congr {m' : Machine} {frames : List Frame} (h : Suspended p m frames)
    (hr : m'.reevaluating = m.reevaluating)
    (hs : frames ≠ [] → m'.store.remembered = m.store.remembered) : Suspended p m' frames := by
  induction frames with
  | nil => trivial
  | cons f below ih =>
    obtain ⟨hf, ⟨os, hfresh, hc, hb⟩, h⟩ := h
    have hs := hs nofun
    exact ⟨hf, ⟨os, hfresh.congr hr fun _ o _ => by rw [hs], hc, hb⟩, ih h fun _ => hs⟩

/-! ## What a step leaves and asks for -/

end Machine

/-- The frame that goes on after an action, unless it raises or calls. -/
def Frame.after? (f : Frame) : Action → Option Frame
  | .proceed => some f
  | .skip count | .jump count => some (f.skip count)
  | .raise _ | .call _ => none

namespace Machine

variable (p : Program)

/-- The frame can go on as the action says, or wait for the call that it asks for. -/
structure Asks (m : Machine) (below : List Frame) (f : Frame) (action : Action) : Prop where
  goes : ∀ g, f.after? action = some g → g.pc ≤ g.steps.size ∧ Poised p m below g
  fine : action.Fine p
  waits : ∀ c, action = .call c → Waits p m below f

/-- A poised frame without code has exactly one value. -/
theorem Poised.one {p : Program} {m : Machine} {f : Frame} {below : List Frame}
    (h : Poised p m below f) (hc : f.code = []) : f.operands.length = 1 := by
  cases h with
  | skipped _ _ _ hcode => rw [hc] at hcode; cases hcode
  | running _ hb =>
    rw [hc] at hb
    generalize f.operands.length = n at hb
    cases hb
    rfl

theorem Poised.congr {p : Program} {m m' : Machine} {f : Frame} {below : List Frame}
    (h : Poised p m below f) (hr : m'.reevaluating = m.reevaluating)
    (hs : m'.store.remembered = m.store.remembered) : Poised p m' below f := by
  cases h with
  | running hfresh hb => exact .running (hfresh.congr hr fun _ o _ => by rw [hs]) hb
  | skipped hr' hnil hv hcode hfresh hb =>
    exact .skipped (hr ▸ hr') hnil (hs ▸ hv) hcode (hfresh.congr hr fun _ o _ => by rw [hs]) hb

theorem Asks.congr {p : Program} {m m' : Machine} {f : Frame} {below : List Frame}
    {action : Action} (h : Asks p m below f action) (hr : m'.reevaluating = m.reevaluating)
    (hs : m'.store.remembered = m.store.remembered) : Asks p m' below f action := by
  refine ⟨fun g hg => ⟨(h.goes g hg).1, (h.goes g hg).2.congr hr hs⟩, h.fine, fun c hc => ?_⟩
  obtain ⟨os, hfresh, hcode, hb⟩ := h.waits c hc
  exact ⟨os, hfresh.congr hr fun _ o _ => by rw [hs], hcode, hb⟩

/-- What the execution of a step leaves is sound and in order, and the step needed no
    more values than there were. -/
structure Executes (m : Machine) (f : Frame) (below : List Frame) (s : Step)
    (r : Frame × Machine × Action) : Prop where
  frame : r.1.Sound p
  store : r.2.1.store.Sound p
  asks : Asks p r.2.1 below r.1 r.2.2
  needs : p.needs s (Program.prior? m below s) ≤ f.operands.length

variable {p} {m : Machine} {f : Frame} {below : List Frame} {rest : List Step}

/-- The machine goes on in the frame that goes on after an action. -/
theorem act_eq_settle {limits : Limits} {g h : Frame} {s : Step} {action : Action}
    (ha : g.after? action = some h) (hpc : h.pc ≤ h.steps.size) :
    m.act p limits g below s action = m.settle p h below s := by
  cases action with
  | proceed => cases ha; rfl
  | skip count => cases ha; rfl
  | jump offset =>
    cases ha
    have hpc : g.pc + offset ≤ g.steps.size := hpc
    unfold act
    dsimp only
    rw [if_neg (Nat.not_lt.2 hpc)]
    rfl
  | _ => cases ha

theorem Asks.raise {e : Exception} (h : e.kind ≠ .empty) : Asks p m below f (.raise e) :=
  ⟨nofun, h, nofun⟩

theorem Asks.proceed (hpc : f.pc ≤ f.steps.size) (h : Poised p m below f) :
    Asks p m below f .proceed :=
  ⟨fun g hg => by cases hg; exact ⟨hpc, h⟩, trivial, nofun⟩

/-- What is kept for a node is sound, and is remembered for no other node. -/
theorem sound_kept {store : Store} (hs : store.Sound p) {s : Step} {r : Program.Finished}
    (hv : r.value.Sound p) : (p.kept store below s r).Sound p := by
  have defined : Store.Sound p (if r.binds then store.define r.frame.scope s.node r.value
      else store) := by
    split
    · exact hs.define hv
    · exact hs
  unfold Program.kept
  dsimp only
  split
  · exact defined.remember hv
  · exact defined

theorem remembered_kept (store : Store) {s : Step} (r : Program.Finished) {id : NodeId}
    (h : below ≠ [] ∨ s.kind ≠ .finish ∨ id ≠ s.node) :
    (p.kept store below s r).remembered.get? id = store.remembered.get? id := by
  have defined : (if r.binds then store.define r.frame.scope s.node r.value
      else store).remembered = store.remembered := by
    split <;> rfl
  unfold Program.kept
  dsimp only
  split
  · next hk =>
    have hid : s.node ≠ id := by
      simp only [Bool.and_eq_true, List.isEmpty_iff, beq_iff_eq] at hk
      rcases h with h | h | h
      · exact absurd hk.1 h
      · exact absurd hk.2 h
      · exact fun e => h e.symm
    rcases Store.remembered_remember p _ s.node r.value with e | e <;> rw [e, defined]
    rw [NodeMap.get?_insert, if_neg hid]
  · rw [defined]

/-- A node that finishes leaves its value, if that is no exception, to code that needs
    one more value. -/
theorem executes_leave (hm : m.Sound p) {s : Step} {r : Program.Finished} {os : List NodeId}
    (hv : r.value.Fine p) (hf : r.frame.Sound p) (hpc : r.frame.pc ≤ r.frame.steps.size)
    (hfresh : Fresh m below os) (hos : s.kind = .finish → s.node ∉ os)
    (hb : p.Balanced r.frame.code (r.frame.operands.length + 1) os)
    (hneed : p.needs s (Program.prior? m below s) ≤ f.operands.length) :
    Executes p m f below s (p.leave m below s r) := by
  cases hr : r.value.exception? with
  | some e =>
    have he := Value.eq_exception hr
    rw [Program.leave_of_exception he]
    rw [he] at hv
    exact ⟨hf, hm.store, .raise hv, hneed⟩
  | none =>
    have hsound : r.value.Sound p := by
      cases hv' : r.value <;> rw [hv'] at hr hv <;> first | exact hv | cases hr
    rw [Program.leave_of_value hr]
    refine ⟨hf.push hsound, sound_kept hm.store hsound, .proceed hpc (.running ?_ hb), hneed⟩
    refine hfresh.congr rfl fun _ o ho => remembered_kept m.store r (Or.inr ?_)
    by_cases hk : s.kind = .finish
    · exact Or.inr fun e => hos hk (e ▸ ho)
    · exact Or.inl hk

/-- A frame that runs its next step is inside its steps. -/
theorem advance_inside {s : Step} (hc : f.code = s :: rest) :
    f.advance.pc ≤ f.advance.steps.size :=
  Frame.pc_lt_of_code_ne_nil (f := f) (by rw [hc]; nofun)

theorem code_advance_eq {s : Step} (hc : f.code = s :: rest) : f.advance.code = rest := by
  rw [Frame.code_advance, hc]
  rfl

theorem sound_advance (hf : f.Sound p) : f.advance.Sound p :=
  ⟨hf.operands, hf.this, fun _ h => nomatch h⟩

/-- A frame that leaves out steps inside its code stays inside its steps. -/
theorem skip_inside {g : Frame} {count : Nat} (h : count ≤ g.code.length)
    (hg : g.pc ≤ g.steps.size) : (g.skip count).pc ≤ (g.skip count).steps.size := by
  rw [Frame.length_code] at h
  show g.pc + count ≤ g.steps.size
  omega

/-- The start of a node goes on inside it, or to its finish if its value is remembered. -/
theorem executes_start {id : NodeId} {inside after : List Step} {os : List NodeId}
    (hm : m.Sound p) (hf : f.Sound p)
    (hc : f.code = ⟨id, .start⟩ :: (inside ++ ⟨id, .finish⟩ :: after)) (hfresh : Fresh m below os)
    (hin : p.Balanced (inside ++ ⟨id, .finish⟩ :: after) f.operands.length (id :: os))
    (hclosed : ⟨id, .finish⟩ ∉ inside) (hafter : p.Balanced after (f.operands.length + 1) os) :
    Executes p m f below ⟨id, .start⟩ (p.execute m f.advance below ⟨id, .start⟩) := by
  have hpc := advance_inside hc
  have hcode := code_advance_eq hc
  refine ⟨sound_advance hf, hm.store, ?_, Nat.zero_le _⟩
  show Asks p m below f.advance (Program.skipAction m f.advance below id)
  have enter (h : m.reevaluating = true → below = [] → m.store.remembered.get? id = none) :
      Asks p m below f.advance .proceed := by
    have hopened : Fresh m below (id :: os) := by
      intro hr hbelow o ho
      rcases List.mem_cons.1 ho with rfl | ho
      · exact h hr hbelow
      · exact hfresh hr hbelow o ho
    refine .proceed hpc (.running hopened ?_)
    rw [hcode]
    exact hin
  unfold Program.skipAction
  split
  · next hk =>
    simp only [Bool.and_eq_true, List.isEmpty_iff] at hk
    obtain ⟨⟨hr, hbelow⟩, hv⟩ := hk
    obtain ⟨v, hv⟩ := Option.isSome_iff_exists.1 hv
    rw [Frame.stepsToFinish?_of_code hpc hcode hclosed]
    have hskip : (f.advance.skip inside.length).code = ⟨id, .finish⟩ :: after := by
      rw [Frame.code_skip, hcode, List.drop_left]
    refine ⟨fun g hg => ?_, trivial, nofun⟩
    cases hg
    refine ⟨skip_inside (by rw [hcode]; simp) hpc, ?_⟩
    exact .skipped hr hbelow hv hskip hfresh hafter
  · next hk =>
    refine enter fun hr hbelow => ?_
    simp only [Bool.and_eq_true, List.isEmpty_iff, not_and, Bool.not_eq_true] at hk
    exact Option.not_isSome_iff_eq_none.1 (by
      rw [show (m.store.remembered.get? id).isSome = false from hk ⟨hr, hbelow⟩]
      nofun)

/-- The frame that finishes a node has the code and the place of the frame before. -/
theorem sameCode_of_finish (p : Program) (m : Machine) (f : Frame) (below : List Frame)
    (s : Step) (prior : Option Value) :
    (p.finish m f.advance below s prior).frame.code = f.advance.code ∧
      ((p.finish m f.advance below s prior).frame.pc ≤
        (p.finish m f.advance below s prior).frame.steps.size ↔
          f.advance.pc ≤ f.advance.steps.size) := by
  obtain ⟨hsteps, hpc⟩ := sameCode_finish p m f.advance below s prior
  rw [Frame.code, hsteps, hpc]
  exact ⟨rfl, Iff.rfl⟩

/-- The finish of a node takes the values of its children and leaves its own. -/
theorem executes_finish (hp : p.Grounded) (hm : m.Sound p) (hf : f.Sound p)
    (hbelow : ∀ g ∈ below, g.Sound p) {s : Step} {os : List NodeId} {h : Nat}
    (hs : s.kind = .finish ∨ s.kind = .startFinish) (hc : f.code = s :: rest)
    (hfresh : Fresh m below os) (hprior : Program.prior? m below s = none)
    (hos : s.kind = .finish → s.node ∉ os) (hlen : f.operands.length = h + p.childValues s)
    (hb : p.Balanced rest (h + 1) os) :
    Executes p m f below s (p.execute m f.advance below s) := by
  have hrun : p.execute m f.advance below s =
      p.leave m below s (p.finish m f.advance below s none) := by
    rw [← hprior]
    rcases hs with hs | hs <;> simp only [Program.execute, hs]
  have hneed : p.childValues s ≤ f.operands.length := by omega
  obtain ⟨hcode, hpc⟩ := sameCode_of_finish p m f below s none
  have hfine : (p.finish m f.advance below s none).value.Fine p :=
    Program.fine_finish hp hm (sound_advance hf) hbelow nofun fun _ => hneed
  rw [hrun]
  refine executes_leave hm hfine ?_ (hpc.2 (advance_inside hc)) hfresh hos ?_ ?_
  · rw [Program.finish_frame]
    exact (sound_advance hf).drop _
  · rw [hcode, code_advance_eq hc, Program.finish_frame, Frame.operands_drop,
      Frame.operands_advance, List.length_drop, hlen, Nat.add_sub_cancel]
    exact hb
  · rw [hprior]
    unfold Program.needs
    rcases hs with hs | hs <;> rw [hs] <;> exact hneed

/-- The finish of a node that was skipped takes nothing and leaves what is remembered. -/
theorem executes_skipped (hp : p.Grounded) (hm : m.Sound p) (hf : f.Sound p)
    (hbelow : ∀ g ∈ below, g.Sound p) (hpl : Placed p below f) {id : NodeId} {v : Value}
    {os : List NodeId} (hr : m.reevaluating = true) (hnil : below = [])
    (hv : m.store.remembered.get? id = some v) (hc : f.code = ⟨id, .finish⟩ :: rest)
    (hfresh : Fresh m below os) (hb : p.Balanced rest (f.operands.length + 1) os) :
    Executes p m f below ⟨id, .finish⟩ (p.execute m f.advance below ⟨id, .finish⟩) := by
  have hprior : Program.prior? m below ⟨id, .finish⟩ = some v := by
    simp [Program.prior?, hr, hnil, hv]
  have hrun : p.execute m f.advance below ⟨id, .finish⟩ =
      p.leave m below ⟨id, .finish⟩ (p.finish m f.advance below ⟨id, .finish⟩ (some v)) := by
    rw [← hprior]
    rfl
  have hplain : ¬p.IsStructure id :=
    hpl.plain hnil ⟨id, .finish⟩ (Frame.mem_steps_of_mem_code (by simp [hc])) rfl
  obtain ⟨hcode, hpc⟩ := sameCode_of_finish p m f below ⟨id, .finish⟩ (some v)
  have hfine : (p.finish m f.advance below ⟨id, .finish⟩ (some v)).value.Fine p :=
    Program.fine_finish hp hm (sound_advance hf) hbelow
      (fun w hw => by cases hw; exact hm.store.remembered id v hv) nofun
  rw [hrun]
  refine executes_leave hm hfine ?_ (hpc.2 (advance_inside hc)) hfresh (fun _ ho => ?_) ?_ ?_
  · rw [Program.finish_frame_prior hplain]
    exact sound_advance hf
  · have := hfresh hr hnil id ho
    rw [hv] at this
    cases this
  · rw [hcode, code_advance_eq hc, Program.finish_frame_prior hplain, Frame.operands_advance]
    exact hb
  · rw [hprior]
    exact Nat.zero_le _

/-- Both ways on from a jump have the values that they need. -/
theorem executes_jumpIf (hm : m.Sound p) (hf : f.Sound p) {id : NodeId} {offset h : Nat}
    {consume jumpWhen : Bool} {os : List NodeId}
    (hc : f.code = ⟨id, .jumpIf offset consume jumpWhen⟩ :: rest) (hfresh : Fresh m below os)
    (hlen : f.operands.length = h + 1) (hoffset : offset ≤ rest.length)
    (hon : p.Balanced rest (if consume then h else h + 1) os)
    (hover : p.Balanced (rest.drop offset) (if consume then h else h + 1) os) :
    Executes p m f below ⟨id, .jumpIf offset consume jumpWhen⟩
      (p.execute m f.advance below ⟨id, .jumpIf offset consume jumpWhen⟩) := by
  have hneed : p.needs ⟨id, .jumpIf offset consume jumpWhen⟩
      (Program.prior? m below ⟨id, .jumpIf offset consume jumpWhen⟩) ≤ f.operands.length := by
    show 1 ≤ f.operands.length
    omega
  obtain ⟨v, vs, hops⟩ := List.exists_cons_of_length_eq_add_one hlen
  have hvs : vs.length = h := by rw [hops] at hlen; exact Nat.succ.inj hlen
  -- The frame after the boolean was taken away, if it is.
  let next := if consume then f.advance.drop 1 else f.advance
  have hnext : next.code = rest ∧ next.operands.length = (if consume then h else h + 1) ∧
      next.pc ≤ next.steps.size ∧ next.Sound p := by
    have hcode := code_advance_eq hc
    have hpc := advance_inside hc
    cases consume with
    | true => exact ⟨hcode, by simp [next, hops, hvs], hpc, (sound_advance hf).drop 1⟩
    | false => exact ⟨hcode, hlen, hpc, sound_advance hf⟩
  obtain ⟨hcode, hheight, hpc, hsound⟩ := hnext
  have raise : Executes p m f below ⟨id, .jumpIf offset consume jumpWhen⟩
      (next, m, .raise ⟨.expectedBoolean, id⟩) :=
    ⟨hsound, hm.store, .raise ExceptionKind.noConfusion, hneed⟩
  cases v with
  | bool b =>
    have hrun : p.execute m f.advance below ⟨id, .jumpIf offset consume jumpWhen⟩ =
        (next, m, if b = jumpWhen then .jump offset else .proceed) := by
      simp only [Program.execute, Frame.operands_advance, hops, List.head?_cons]
      rfl
    rw [hrun]
    refine ⟨hsound, hm.store, ?_, hneed⟩
    show Asks p m below next (if b = jumpWhen then .jump offset else .proceed)
    split
    · refine ⟨fun g hg => ?_, trivial, (by simp)⟩
      cases hg
      refine ⟨skip_inside (by rw [hcode]; exact hoffset) hpc, .running hfresh ?_⟩
      rw [Frame.code_skip, hcode, Frame.operands_skip, hheight]
      exact hover
    · refine .proceed hpc (.running hfresh ?_)
      rw [hcode, hheight]
      exact hon
  | _ =>
    have hrun : p.execute m f.advance below ⟨id, .jumpIf offset consume jumpWhen⟩ =
        (next, m, .raise ⟨.expectedBoolean, id⟩) := by
      simp only [Program.execute, Frame.operands_advance, hops, List.head?_cons]
      rfl
    rw [hrun]
    exact raise

theorem executes_jump (hm : m.Sound p) (hf : f.Sound p) {id : NodeId} {offset : Nat}
    {os : List NodeId} (hc : f.code = ⟨id, .jump offset⟩ :: rest) (hfresh : Fresh m below os)
    (hoffset : offset ≤ rest.length) (hb : p.Balanced (rest.drop offset) f.operands.length os) :
    Executes p m f below ⟨id, .jump offset⟩ (p.execute m f.advance below ⟨id, .jump offset⟩) := by
  have hcode := code_advance_eq hc
  have hrun : p.execute m f.advance below ⟨id, .jump offset⟩ = (f.advance, m, .jump offset) := rfl
  rw [hrun]
  refine ⟨sound_advance hf, hm.store, ⟨fun g hg => ?_, trivial, nofun⟩, Nat.zero_le _⟩
  cases hg
  refine ⟨skip_inside (by rw [hcode]; exact hoffset) (advance_inside hc), .running hfresh ?_⟩
  rw [Frame.code_skip, hcode]
  exact hb

/-- The start of an evaluation never goes on in the frame. -/
theorem after?_startEvaluation (f g : Frame) (id : NodeId) :
    g.after? (p.startEvaluation f id).2 = none := by
  have called (creator : NodeId) (name : Option Name) (callee : Value) (vs : List Value) :
      g.after? (p.callAction creator name callee vs) = none := by
    unfold Program.callAction
    dsimp only
    split <;> (try split) <;> rfl
  unfold Program.startEvaluation
  split
  · dsimp only
    split
    · rfl
    · split
      · exact called ..
      · rfl
    · rfl
  · dsimp only
    split
    · rfl
    · exact called ..
    · rfl
  · rfl

/-- The start of an evaluation waits for the value of the call. -/
theorem executes_startEvaluation (hp : p.Grounded) (hm : m.Sound p) (hf : f.Sound p)
    {id : NodeId} {h : Nat} {os : List NodeId} (hc : f.code = ⟨id, .startEvaluation⟩ :: rest)
    (hfresh : Fresh m below os) (hlen : f.operands.length = h + p.callValues id)
    (hrest : rest ≠ []) (hb : p.Balanced rest (h + 1) os) :
    Executes p m f below ⟨id, .startEvaluation⟩
      (p.execute m f.advance below ⟨id, .startEvaluation⟩) := by
  have hneed : p.callValues id ≤ f.operands.length := by omega
  have hframe := Program.startEvaluation_frame (p := p) f.advance id
  have hfine := Program.fine_startEvaluation hp (sound_advance hf) hneed
  have hrun : p.execute m f.advance below ⟨id, .startEvaluation⟩ =
      (f.advance.drop (p.callValues id), m, (p.startEvaluation f.advance id).2) := by
    rw [← hframe]
    rfl
  rw [hrun]
  refine ⟨(sound_advance hf).drop _, hm.store, ⟨fun g hg => ?_, hfine, fun c _ => ?_⟩, hneed⟩
  · rw [after?_startEvaluation] at hg
    cases hg
  · refine ⟨os, hfresh, ?_, ?_⟩
    · rwa [Frame.code_drop, code_advance_eq hc]
    · rw [Frame.code_drop, code_advance_eq hc, Frame.operands_drop, Frame.operands_advance,
        List.length_drop, hlen, Nat.add_sub_cancel]
      exact hb

/-- **A step of a poised frame.**  What is left is sound, the frame can go on as the
    step asks, and the step needs no more values than the frame has. -/
theorem executes (hp : p.Grounded) (hm : m.Sound p) (hf : f.Sound p)
    (hbelow : ∀ g ∈ below, g.Sound p) (hpl : Placed p below f) {s : Step}
    (hc : f.code = s :: rest) (h : Poised p m below f) :
    Executes p m f below s (p.execute m f.advance below s) := by
  cases h with
  | @skipped id v os after hr hnil hv hcode hfresh hb =>
    obtain ⟨rfl, rfl⟩ : s = ⟨id, .finish⟩ ∧ rest = after := by
      rw [hc] at hcode
      cases hcode
      exact ⟨rfl, rfl⟩
    exact executes_skipped hp hm hf hbelow hpl hr hnil hv hc hfresh hb
  | @running os hfresh hb =>
    rw [hc] at hb
    generalize hlen : f.operands.length = n at hb
    cases hb with
    | start hid hin hclosed hafter =>
      exact executes_start hm hf hc hfresh (hlen ▸ hin) hclosed (hlen ▸ hafter)
    | finish hid hb =>
      exact executes_finish hp hm hf hbelow (Or.inl rfl) hc hfresh.tail
        (hfresh.prior?_eq_none _) (fun _ => hid) hlen hb
    | startFinish hv hb =>
      exact executes_finish hp hm hf hbelow (Or.inr rfl) hc hfresh
        (prior?_eq_none_of_kind nofun) nofun (by rw [hv]; exact hlen) hb
    | jumpIf hoffset hon hover =>
      exact executes_jumpIf hm hf hc hfresh hlen hoffset hon hover
    | jump hoffset hb => exact executes_jump hm hf hc hfresh hoffset (hlen ▸ hb)
    | startEvaluation hrest hb =>
      exact executes_startEvaluation hp hm hf hc hfresh hlen hrest hb

/-! ## Each step keeps the discipline -/

/-- What a step did is no failure, and the machine is in order. -/
def Good (p : Program) (r : Result) : Prop := Orderly p r.2 ∧ ∃ o, r.1 = .ok o

/-- The frame of the program begins its run in order. -/
theorem orderly_beginRun (hp : p.Grounded) (hs : m.store.Sound p)
    (hstreams : ∀ s v, m.streams.get? s = some v → v.Sound p)
    (hpending : ∀ x ∈ m.pending, x.2.Sound p) (r : Bool) : Orderly p (m.beginRun p r) := by
  obtain ⟨rank, hrank⟩ := hp.acyclic
  have hframe : Frame.Sound p
      { definition := none, creator := p.root, steps := (p.compile p.root).toArray, pc := 0,
        scope := (m.addScope ⟨.empty, none⟩).1, this := none, operands := [],
        phase := .opened } := ⟨nofun, nofun, nofun⟩
  refine ⟨⟨hs.addScope (fun _ _ h => nomatch h), ?_, hstreams, hpending, nofun⟩, ?_⟩
  · intro f hf
    rw [List.mem_singleton.1 hf]
    exact hframe
  · intro f below hf
    cases hf
    refine ⟨⟨Nat.zero_le _, Program.jumpsInside_compile hrank _, fun _ s hs => ?_⟩, trivial,
      fun _ => ⟨Program.compile_ne_nil hp.acyclic _, .running .nil ?_⟩⟩
    · exact Program.not_isStructure_of_finish hrank hs
    · have hb : p.Balanced (p.compile p.root ++ []) 0 [] :=
        Program.balanced_compile hrank (by simp) .done
      rwa [List.append_nil] at hb

/-- The end of a run gives its result, or begins the next run. -/
theorem orderly_endRun (hp : p.Grounded) (hm : m.Sound p) {v : Value} (hv : v.Fine p) :
    Orderly p (m.endRun p v) := by
  rcases endRun_cases p m v with ⟨-, he⟩ | ⟨id, input, pending, hpending, he⟩ <;> rw [he]
  · refine ⟨⟨hm.store, nofun, hm.streams, hm.pending, fun w hw => ?_⟩, nofun⟩
    cases hw
    exact hv
  · have hin (x) (hx : x ∈ (id, input) :: pending) : x.2.Sound p :=
      hm.pending x (by rw [hpending]; exact hx)
    refine orderly_beginRun hp ?_ ?_ ?_ true
    · exact hm.store
    · exact forall_stream_insert (hin _ List.mem_cons_self) hm.streams
    · exact fun x hx => hin x (List.mem_cons_of_mem _ hx)

section
variable {s : Step}

/-- A frame may start to unwind at any time. -/
theorem orderly_unwinding (hm : m.Sound p) (hf : f.Sound p) (hbelow : ∀ g ∈ below, g.Sound p)
    (hpl : Placed p below f) (hsus : Suspended p m below) {e : Exception}
    (he : e.kind ≠ .empty) :
    Orderly p { m with frames := { f with phase := .unwinding e } :: below } := by
  refine ⟨⟨hm.store, fun g hg => ?_, hm.streams, hm.pending, hm.result⟩, ?_⟩
  · rcases List.mem_cons.1 hg with rfl | hg
    · exact ⟨hf.operands, hf.this, fun e' he' => by cases he'; exact he⟩
    · exact hbelow g hg
  · intro g below' hg
    cases hg
    exact ⟨⟨hpl.inside, hpl.jumps, hpl.plain⟩, hsus.congr rfl fun _ => rfl, nofun⟩

theorem good_raise (hm : m.Sound p) (hf : f.Sound p) (hbelow : ∀ g ∈ below, g.Sound p)
    (hpl : Placed p below f) (hsus : Suspended p m below) {e : Exception}
    (he : e.kind ≠ .empty) : Good p (m.raise f below s e) :=
  ⟨orderly_unwinding hm hf hbelow hpl hsus he, _, rfl⟩

/-- A frame that goes on has code, or is done with one value, which goes below. -/
theorem good_settle (hp : p.Grounded) (hm : m.Sound p) (hf : f.Sound p)
    (hbelow : ∀ g ∈ below, g.Sound p) (hpl : Placed p below f) (hsus : Suspended p m below)
    (h : Poised p m below f) : Good p (m.settle p f below s) := by
  unfold settle
  split
  · next hdone =>
    rw [Frame.isDone_iff] at hdone
    obtain ⟨v, hops⟩ := List.length_eq_one_iff.1 (h.one hdone)
    have hv : v.Sound p := hf.operands v (by simp [hops])
    unfold complete
    rw [hops]
    cases below with
    | nil => exact ⟨orderly_endRun hp hm hv.fine, _, rfl⟩
    | cons caller rest =>
      obtain ⟨hcaller, ⟨os, hfresh, hcode, hb⟩, hrest⟩ := hsus
      have hcs := (hbelow caller List.mem_cons_self).push hv
      refine ⟨⟨⟨hm.store, fun g hg => ?_, hm.streams, hm.pending, hm.result⟩, ?_⟩, _, rfl⟩
      · rcases List.mem_cons.1 hg with rfl | hg
        · exact hcs
        · exact hbelow g (List.mem_cons_of_mem _ hg)
      · intro g below' hg
        cases hg
        refine ⟨⟨hcaller.inside, hcaller.jumps, hcaller.plain⟩, hrest.congr rfl fun _ => rfl,
          fun _ => ⟨hcode, .running (hfresh.congr rfl fun _ _ _ => rfl) hb⟩⟩
  · next hdone =>
    rw [Frame.isDone_iff] at hdone
    refine ⟨⟨⟨hm.store, fun g hg => ?_, hm.streams, hm.pending, hm.result⟩, ?_⟩, _, rfl⟩
    · rcases List.mem_cons.1 hg with rfl | hg
      · exact hf
      · exact hbelow g hg
    · intro g below' hg
      cases hg
      exact ⟨hpl, hsus.congr rfl fun _ => rfl, fun _ => ⟨hdone, h.congr rfl rfl⟩⟩

/-- A call opens the frame of a body, which is balanced, or raises. -/
theorem good_enter (hp : p.Grounded) (limits : Limits) (hm : m.Sound p) (hf : f.Sound p)
    (hbelow : ∀ g ∈ below, g.Sound p) (hpl : Placed p below f) (hsus : Suspended p m below)
    {c : Call} (hc : c.Sound p) (hw : Waits p m below f) :
    Good p (m.enter p limits f below s c) := by
  obtain ⟨rank, hrank⟩ := hp.acyclic
  unfold enter
  split
  · exact good_raise hm hf hbelow hpl hsus ExceptionKind.noConfusion
  · split
    · next e he => exact good_raise hm hf hbelow hpl hsus (Program.callScope_error he)
    · next scope hscope =>
      have hopen : (p.openFrame c (m.addScope scope).1).Sound p := ⟨nofun, hc.this, nofun⟩
      refine ⟨⟨⟨hm.store.addScope (Program.sound_callScope hc hscope), fun g hg => ?_,
        hm.streams, hm.pending, hm.result⟩, ?_⟩, _, rfl⟩
      · rcases List.mem_cons.1 hg with rfl | hg
        · exact hopen
        · rcases List.mem_cons.1 hg with rfl | hg
          · exact hf
          · exact hbelow g hg
      · intro g below' hg
        cases hg
        have hbody := Program.balanced_compileBody hrank hc.body
        refine ⟨⟨Nat.zero_le _, Program.jumpsInside_compileBody hrank _, nofun⟩,
          ⟨hpl, ?_, hsus.congr rfl fun _ => rfl⟩, fun _ => ⟨hc.body, .running .nil hbody⟩⟩
        obtain ⟨os, hfresh, hcode, hb⟩ := hw
        exact ⟨os, hfresh.congr rfl fun _ _ _ => rfl, hcode, hb⟩

/-- What a frame asks for keeps the machine in order. -/
theorem good_act (hp : p.Grounded) (limits : Limits) (hm : m.Sound p) (hf : f.Sound p)
    (hbelow : ∀ g ∈ below, g.Sound p) (hpl : Placed p below f) (hsus : Suspended p m below)
    {action : Action} (h : Asks p m below f action) :
    Good p (m.act p limits f below s action) := by
  have settle (g : Frame) (hsteps : g.steps = f.steps) (hg : f.after? action = some g)
      (hgs : g.Sound p) : Good p (m.act p limits f below s action) := by
    obtain ⟨hpc, hpoised⟩ := h.goes g hg
    rw [act_eq_settle hg hpc]
    refine good_settle hp hm hgs hbelow ⟨hpc, ?_, ?_⟩ hsus hpoised
    · rw [hsteps]
      exact hpl.jumps
    · rw [hsteps]
      exact hpl.plain
  cases action with
  | proceed => exact settle f rfl rfl hf
  | skip count | jump count => exact settle (f.skip count) rfl rfl ⟨hf.operands, hf.this, hf.phase⟩
  | raise e => exact good_raise hm hf hbelow hpl hsus h.fine
  | call c => exact good_enter hp limits hm hf hbelow hpl hsus h.fine (h.waits c rfl)

end

/-- **Each step keeps the discipline.**  A step of a machine in order leaves it in order,
    and fails only if no frame is open. -/
theorem Orderly.step (hp : p.Grounded) (limits : Limits) (h : Orderly p m) :
    Orderly p (m.step p limits).2 ∧ (m.frames ≠ [] → ∃ o, (m.step p limits).1 = .ok o) := by
  cases hm : m.frames with
  | nil =>
    rw [step_closed hm]
    exact ⟨h, fun hne => absurd rfl hne⟩
  | cons f below =>
    suffices hgood : Good p (m.step p limits) from ⟨hgood.1, fun _ => hgood.2⟩
    obtain ⟨hpl, hsus, hrun⟩ := h.top f below hm
    have hf : f.Sound p := h.sound.frames f (by simp [hm])
    have hbelow : ∀ g ∈ below, g.Sound p := fun g hg => h.sound.frames g (by simp [hm, hg])
    cases he : f.exception? with
    | some e =>
      have hphase := f.exception?_eq_some_iff.1 he
      have hkind := hf.phase e hphase
      rw [step_unwinding hm hphase]
      unfold unwind
      cases below with
      | nil => exact ⟨orderly_endRun hp h.sound hkind, _, rfl⟩
      | cons caller rest =>
        exact ⟨orderly_unwinding h.sound (hbelow caller (by simp))
          (fun g hg => hbelow g (by simp [hg])) hsus.1 hsus.2.2 hkind, _, rfl⟩
    | none =>
      obtain ⟨hcode, hpoised⟩ := hrun he
      obtain ⟨s, rest, hc⟩ := List.exists_cons_of_ne_nil hcode
      have hexe := executes hp h.sound hf hbelow hpl hc hpoised
      obtain ⟨store, hstore, hkept⟩ := Program.execute_machine (p := p) m f.advance below s
      obtain ⟨hsteps, hpc⟩ := sameCode_execute p m f.advance below s
      rcases hr : p.execute m f.advance below s with ⟨g, m₁, action⟩
      rw [hr] at hexe hstore hsteps hpc
      cases hstore
      rw [step_running hm he hc hr]
      let m' : Machine := { m with store := store, stepsTaken := m.stepsTaken + 1 }
      have hsus' : Suspended p m' below := hsus.congr rfl hkept
      have hsound : m'.Sound p :=
        ⟨hexe.store, h.sound.frames, h.sound.streams, h.sound.pending, h.sound.result⟩
      have hplaced : Placed p below g := by
        refine ⟨?_, hsteps ▸ hpl.jumps, hsteps ▸ hpl.plain⟩
        rw [hpc, hsteps]
        exact advance_inside hc
      refine good_act hp limits hsound hexe.frame hbelow hplaced hsus' ?_
      exact hexe.asks.congr rfl rfl

/-- A sound value of a stream keeps the machine in order. -/
theorem Orderly.streamInput (hp : p.Grounded) (h : Orderly p m) {n : Name} {v : Value}
    (hv : v.Sound p) {m' : Machine} (hm : m.streamInput p n v = .ok m') : Orderly p m' := by
  obtain ⟨id, -, ⟨-, rfl⟩ | ⟨-, rfl⟩⟩ := streamInput_cases hm
  · refine orderly_beginRun hp ?_ ?_ ?_ true
    · exact h.sound.store
    · exact forall_stream_insert hv h.sound.streams
    · exact h.sound.pending
  · refine ⟨⟨h.sound.store, h.sound.frames, h.sound.streams, fun x hx => ?_,
      h.sound.result⟩, fun f below hf => ?_⟩
    · rcases List.mem_append.1 hx with hx | hx
      · exact h.sound.pending x hx
      · rw [List.mem_singleton.1 hx]
        exact hv
    · obtain ⟨hpl, hsus, hrun⟩ := h.top f below hf
      exact ⟨hpl, hsus.congr rfl fun _ => rfl,
        fun he => ⟨(hrun he).1, (hrun he).2.congr rfl rfl⟩⟩

/-! ## After every history -/

/-- Every history leaves the machine in order. -/
theorem Reachable.orderly {limits : Limits} (hp : p.Grounded)
    (h : Reachable p limits (Value.Sound p) m) : Orderly p m := by
  refine h.induct (fun memo => ?_) (fun m h => ?_) (fun m h => ?_) (fun m h => ?_)
    fun m m' n v h hv hm => h.streamInput hp hv hm
  · exact ⟨⟨⟨Scopes.sound_empty, fun _ _ hv => by cases hv⟩, nofun, nofun, nofun, nofun⟩, nofun⟩
  · have hstore : Store.Sound p { m.store with remembered := .empty } :=
      ⟨h.sound.store.scopes, fun _ _ hv => by cases hv⟩
    exact orderly_beginRun (m := { m with store := { m.store with remembered := .empty } }) hp
      hstore h.sound.streams h.sound.pending false
  · exact orderly_beginRun hp h.sound.store h.sound.streams h.sound.pending true
  · exact (h.step hp limits).1

/-- The number of values below each frame, the latest frame first. -/
def bases : List Frame → List Nat
  | [] => []
  | _ :: below => (below.flatMap Frame.operands).length :: bases below

theorem bases_le (frames : List Frame) :
    ∀ b ∈ bases frames, b ≤ (frames.flatMap Frame.operands).length := by
  induction frames with
  | nil => nofun
  | cons f below ih =>
    intro b hb
    rw [List.flatMap_cons, List.length_append]
    rcases List.mem_cons.1 hb with rfl | hb
    · exact Nat.le_add_left _ _
    · exact Nat.le_add_left_of_le (ih b hb)

/-- The steps of every frame of a machine in order jump inside them. -/
theorem Orderly.placed (h : Orderly p m) {f : Frame} (hf : f ∈ m.frames) :
    JumpsInside f.steps.toList := by
  have suspended {frames : List Frame} (hs : Suspended p m frames) (hf : f ∈ frames) :
      JumpsInside f.steps.toList := by
    induction frames with
    | nil => cases hf
    | cons g below ih =>
      rcases List.mem_cons.1 hf with rfl | hf
      · exact hs.1.jumps
      · exact ih hs.2.2 hf
  cases hm : m.frames with
  | nil => rw [hm] at hf; cases hf
  | cons g below =>
    obtain ⟨hpl, hsus, -⟩ := h.top g below hm
    rw [hm] at hf
    rcases List.mem_cons.1 hf with rfl | hf
    · exact hpl.jumps
    · exact suspended hsus hf

/-- The name of the stream of `switch`. -/
def switchName : Name := (Forest.withBasis.2.interner.intern "on").1

/-- A program that takes the value of a stream together with a value that it defines. -/
def switch : Program :=
  .built (do
    let on ← Build.borrow "on"
    let known ← Build.bind "known" none (some (← Build.boolean true))
    let both ← Build.binary (← Build.reference "on") "&" (← Build.reference "known")
    Build.program [on] [known, both])
    (some (Shares.empty.shareStream switchName (.primitive .boolean)).2)

theorem overBasis_switch : switch.OverBasis where
  basis := by
    unfold switch
    exact Program.basis_built _ _
  arena := Arena.extends_of_isPrefix (by decide +kernel) (by decide +kernel)

theorem grounded_switch : switch.Grounded := by
  have hacyclic : switch.arena.Acyclic := by
    apply Arena.acyclic_of_all
    decide +kernel
  have hnone : switch.shares.elim [] Shares.structures = [] := by
    decide +kernel
  refine overBasis_switch.grounded hacyclic fun s hs d hd => ?_
  rw [hs, Option.elim_some] at hnone
  rw [hnone] at hd
  cases hd

/-- The machine of `switch` that was given a value of the stream in its first run. -/
def switched : Machine :=
  let m := (((Machine.initial default).start switch).step switch default).2
  match m.streamInput switch switchName (.bool true) with
  | .ok m => m
  | .error _ => m

end Machine

end Arbor
