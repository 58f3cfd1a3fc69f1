/-
  The gates of a session.

  A program with a fatal conflict is held up in three places: its diagnostics contain an error,
  it is not run unless the settings allow that, and the command that checks it fails.  The
  queue of the diagnostics drops some of them, but never all of the errors: the first error
  comes when only warnings were accepted, so that the limit is not reached, and the code of an
  error is not the code of a warning.

  * `Diagnostic.FollowsCode`: the severity of a diagnostic is that of its code;
  * `Session.Refused`, `Session.guarded`: runs that are refused, and the session in which no
    conflict is allowed;
  * `Session.GatesAgree`: the gates agree on what is fatal.

  Main statement: `gates_agree`, from `Queue.Holds.exists_isError_addAll`.
-/
import Arbor.CommandLine
import Arbor.Proofs.Diagnostic.Policy
import Arbor.Proofs.Renaming.Failure

namespace Arbor

/-! ## Errors in a queue -/

namespace Diagnostic

/-- The severity of a diagnostic is that of its code. -/
def FollowsCode (d : Diagnostic) : Prop := d.severity = severityOf d.code

theorem FollowsCode.isError_eq {d : Diagnostic} (h : d.FollowsCode) :
    d.isError = !d.code.isWarning := by
  rw [isError, h, severityOf]
  cases d.code.isWarning <;> rfl

end Diagnostic

namespace Queue

section
variable {α : Type} {told : α → Diagnostic} {place : α → Nat} {items : List α}
  {config : QueueConfig} {q : Queue} {xs : List Queued} {d : Diagnostic} {position : Nat}

theorem mem_addAll (h : d ∈ (q.addAll told place items).diagnostics) :
    d ∈ q.diagnostics ∨ ∃ a ∈ items, told a = d := by
  induction items generalizing q with
  | nil => exact .inl h
  | cons b items ih =>
    rcases ih h with h | ⟨a, ha, rfl⟩
    · rcases mem_add.1 h with h | ⟨-, rfl⟩
      · exact .inl h
      · exact .inr ⟨b, List.mem_cons_self, rfl⟩
    · exact .inr ⟨a, List.mem_cons_of_mem _ ha, rfl⟩

/-- Neither the limit nor a repetition keeps an error out of a queue of warnings. -/
theorem Holds.accepts_error (h : Holds config xs q)
    (hxs : ∀ x ∈ xs, x.diagnostic.FollowsCode ∧ x.diagnostic.isError = false)
    (hd : d.FollowsCode) (herror : d.isError = true) : (q.add d position).1 = true := by
  refine (h.accepts_iff d position).2 ⟨.inr ?_, .inr fun x hx hkey => ?_⟩
  · have hnone : errorsOf xs = 0 := List.countP_eq_zero.2 fun x hx => by simp [(hxs x hx).2]
    omega
  · obtain ⟨hx, hwarning⟩ := hxs x hx
    have hcode : x.diagnostic.code = d.code := congrArg Prod.fst hkey
    rw [hx.isError_eq, hcode, ← hd.isError_eq, herror] at hwarning
    cases hwarning

/-- **No error is hidden by others**: if there is one among what is told, one is accepted. -/
theorem Holds.exists_isError_addAll (h : Holds config xs q)
    (hxs : ∀ x ∈ xs, x.diagnostic.FollowsCode ∧ x.diagnostic.isError = false)
    (htold : ∀ a ∈ items, (told a).FollowsCode) (herror : ∃ a ∈ items, (told a).isError = true) :
    ∃ d ∈ (q.addAll told place items).diagnostics, d.isError = true := by
  induction items generalizing q xs with
  | nil =>
    obtain ⟨a, ha, -⟩ := herror
    cases ha
  | cons b items ih =>
    have hb := htold b List.mem_cons_self
    cases hisError : (told b).isError with
    | true =>
      have haccepts : (q.add (told b) (place b)).1 = true := h.accepts_error hxs hb hisError
      have hmem : told b ∈ (q.add (told b) (place b)).2.diagnostics := mem_add.2 (.inr ⟨haccepts, rfl⟩)
      exact ⟨told b, mem_addAll_of_mem (q := (q.add (told b) (place b)).2) hmem, hisError⟩
    | false =>
      refine ih (h.step (s := (q, xs)) (.add (told b) (place b))) (fun x hx => ?_)
        (fun a ha => htold a (List.mem_cons_of_mem _ ha)) ?_
      · dsimp only [Call.step] at hx
        split at hx
        · rcases List.mem_append.1 hx with hx | hx
          · exact hxs x hx
          · rw [List.mem_singleton.1 hx]
            exact ⟨hb, hisError⟩
        · exact hxs x hx
      · obtain ⟨a, ha, haerror⟩ := herror
        rcases List.mem_cons.1 ha with rfl | ha
        · rw [hisError] at haerror
          cases haerror
        · exact ⟨a, ha, haerror⟩

end

end Queue

/-! ## Conflicts that are told -/

namespace Conflict

theorem followsCode (p : Program) (c : Conflict) : (c.toDiagnostic .english p).FollowsCode := rfl

/-- The fatal conflicts are told as errors. -/
theorem isError_toDiagnostic (p : Program) (c : Conflict) :
    (c.toDiagnostic .english p).isError = c.isFatal := by
  rw [(followsCode p c).isError_eq]
  exact (congrArg not c.kind.isWarning_code).trans (Bool.not_not _)

end Conflict

namespace Session

variable {s : Session} {p : Program} {cs : List Conflict} {n : Nat}

/-- An error is told just if a conflict is fatal. -/
theorem exists_isError_iff (config : QueueConfig) (p : Program) (cs : List Conflict) :
    (∃ d ∈ (queueConflicts config p cs).flush.1, d.isError = true) ↔
      ∃ c ∈ cs, c.isFatal = true := by
  simp only [Queue.mem_flush, ← Conflict.isError_toDiagnostic p]
  constructor
  · rintro ⟨d, hd, herror⟩
    obtain ⟨c, hc, rfl⟩ := (Queue.mem_addAll hd).resolve_left List.not_mem_nil
    exact ⟨c, hc, herror⟩
  · exact (Queue.Holds.ofConfig config).exists_isError_addAll nofun
      fun c _ => Conflict.followsCode p c

/-! ## Runs that are refused -/

/-- A run is refused for fatal conflicts. -/
def Refused (s : Session) : Prop := ∃ n, s.run = .error (.fatalConflicts n)

/-- The session in which no conflict is allowed. -/
def guarded (s : Session) : Session :=
  { s with settings := { s.settings with allowConflicts := false } }

/-- A machine is refused with the number of fatal conflicts. -/
theorem evaluator_refuses_iff (hp : s.program = .ok p) :
    s.evaluator = .error (.fatalConflicts n) ↔ s.settings.allowConflicts = false ∧
      0 < n ∧ n = (p.check .empty).1.countP Conflict.isFatal := by
  rw [evaluator_eq hp]
  dsimp only
  split
  · next h =>
    rw [Bool.not_eq_true'] at h
    rw [Except.error.injEq, SessionError.fatalConflicts.injEq]
    constructor
    · rintro rfl
      exact ⟨h.2, h.1, rfl⟩
    · exact fun hn => hn.2.2.symm
  · next h =>
    refine ⟨nofun, fun ⟨hallow, hpos, hn⟩ => absurd ⟨hn ▸ hpos, ?_⟩ h⟩
    rw [hallow]
    rfl

/-- A run is refused just if its machine is. -/
theorem run_refuses_iff :
    s.run = .error (.fatalConflicts n) ↔ s.evaluator = .error (.fatalConflicts n) := by
  unfold run
  cases s.evaluator with
  | error e => simp only [bind, Except.bind, Except.error.injEq]
  | ok e =>
    refine ⟨fun h => ?_, nofun⟩
    simp only [bind, Except.bind] at h
    split at h <;> cases h

theorem refused_guarded_iff (hp : s.program = .ok p) :
    s.guarded.Refused ↔ ∃ c ∈ (p.check .empty).1, c.isFatal = true := by
  have hguarded : s.guarded.program = .ok p := hp
  rw [← List.countP_pos_iff]
  constructor
  · rintro ⟨n, hn⟩
    obtain ⟨-, hpos, rfl⟩ := (evaluator_refuses_iff hguarded).1 (run_refuses_iff.1 hn)
    exact hpos
  · exact fun hpos => ⟨_, run_refuses_iff.2 ((evaluator_refuses_iff hguarded).2 ⟨rfl, hpos, rfl⟩)⟩

end Session

/-! ## The command that checks -/

namespace Report

variable {settings : Settings} {name : String} {d : Demo} {ds : List Diagnostic}

/-- Checking a demo says whether an error was told. -/
theorem run_check (hd : Demo.find? name = some d) (hds : (d.load settings).diagnostics = .ok ds) :
    ∃ sink, (check name settings).run.run (.ofRoom none) =
      (.ok (decide (0 < ds.countP Diagnostic.isError)), sink) := by
  have hfind : findDemo name = pure d := by rw [findDemo, hd]
  have htold : ofSession (d.load settings).diagnostics = pure ds := by rw [hds, ofSession]
  unfold check
  rw [hfind, pure_bind, htold, pure_bind]
  -- A sink without bounds takes every line.
  cases ds.isEmpty with
  | false => exact ⟨_, rfl⟩
  | true => exact ⟨_, rfl⟩

/-- The command that checks a demo fails if an error was told, and succeeds otherwise. -/
theorem code_check (hd : Demo.find? name = some d) (hds : (d.load settings).diagnostics = .ok ds) :
    (CommandLine.runCommand settings "check" (some name)).code =
      if ∃ d ∈ ds, d.isError = true then 1 else 0 := by
  obtain ⟨sink, hrun⟩ := run_check hd hds
  have hcommand : CommandLine.runCommand settings "check" (some name) =
      CommandLine.ofReport (check name settings) id := rfl
  rw [hcommand, CommandLine.ofReport, hrun]
  simp only [id, List.countP_pos_iff, decide_eq_true_eq]

end Report

/-! ## Agreement -/

namespace Session

/-- The gates of a session agree on what is fatal: its diagnostics, its machines and runs, and,
    if it holds a demo, the command that checks the demo. -/
structure GatesAgree (s : Session) (cs : List Conflict) (ds : List Diagnostic) : Prop where
  /-- An error is told just if a conflict is fatal. -/
  told : (∃ d ∈ ds, d.isError = true) ↔ ∃ c ∈ cs, c.isFatal = true
  /-- A machine is refused just if a conflict is fatal and none are allowed, and with their
      number. -/
  evaluator : ∀ n, s.evaluator = .error (.fatalConflicts n) ↔
    s.settings.allowConflicts = false ∧ (∃ c ∈ cs, c.isFatal = true) ∧
      n = cs.countP Conflict.isFatal
  /-- So is a run. -/
  run : ∀ n, s.run = .error (.fatalConflicts n) ↔
    s.settings.allowConflicts = false ∧ (∃ c ∈ cs, c.isFatal = true) ∧
      n = cs.countP Conflict.isFatal
  /-- A run in which no conflict is allowed is refused just if one is fatal. -/
  guarded : s.guarded.Refused ↔ ∃ c ∈ cs, c.isFatal = true
  /-- Checking a demo fails just if a run in which no conflict is allowed is refused. -/
  checked : ∀ settings name d, Demo.find? name = some d → d.load settings = s →
    ((CommandLine.runCommand settings "check" (some name)).code = 1 ↔ s.guarded.Refused) ∧
      ((CommandLine.runCommand settings "check" (some name)).code = 0 ↔ ¬s.guarded.Refused)

/-- **The gates agree**: whatever the settings, no gate lets pass what another holds up. -/
theorem gates_agree {s : Session} {p : Program} (hp : s.program = .ok p) :
    ∃ cs ds, s.check = .ok cs ∧ s.diagnostics = .ok ds ∧ GatesAgree s cs ds := by
  have hcheck : s.check = .ok (p.check .empty).1 := by
    unfold check
    rw [hp]
    rfl
  have hdiagnostics : s.diagnostics =
      .ok (queueConflicts s.settings.queueConfig p (p.check .empty).1).flush.1 := by
    rw [diagnostics_eq hp, hcheck]
    rfl
  have htold := exists_isError_iff s.settings.queueConfig p (p.check .empty).1
  have hguarded := refused_guarded_iff hp
  have hevaluator : ∀ n, s.evaluator = .error (.fatalConflicts n) ↔
      s.settings.allowConflicts = false ∧ (∃ c ∈ (p.check .empty).1, c.isFatal = true) ∧
        n = (p.check .empty).1.countP Conflict.isFatal := by
    intro n
    rw [evaluator_refuses_iff hp, ← List.countP_pos_iff]
    refine and_congr_right fun _ => and_congr_left ?_
    rintro rfl
    exact Iff.rfl
  refine ⟨_, _, hcheck, hdiagnostics, htold, hevaluator,
    fun n => run_refuses_iff.trans (hevaluator n), hguarded, ?_⟩
  rintro settings name d hd rfl
  rw [Report.code_check hd hdiagnostics, hguarded, ← htold]
  split
  · next h => exact ⟨iff_of_true rfl h, iff_of_false Nat.one_ne_zero (not_not.2 h)⟩
  · next h => exact ⟨iff_of_false Nat.zero_ne_one h, iff_of_true rfl h⟩

/-- The gates of the demo of an interface that is not implemented. -/
theorem gates_agree_unimplemented : ∃ d p, Demo.find? "unimplemented" = some d ∧
    (d.load .standard).program = .ok p ∧ ∃ cs ds, (d.load .standard).check = .ok cs ∧
      (d.load .standard).diagnostics = .ok ds ∧ GatesAgree (d.load .standard) cs ds := by
  have hroot : (Demo.find? "unimplemented").bind (fun d => (d.load .standard).root) =
      some ⟨138⟩ := by
    decide +kernel
  obtain ⟨d, hd, hroot⟩ := Option.bind_eq_some_iff.1 hroot
  have hp := program_of_root hroot
  exact ⟨d, _, hd, hp, gates_agree hp⟩

end Session

end Arbor
