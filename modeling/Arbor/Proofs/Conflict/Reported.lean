/-
  Which conflicts are reported.

  A session tells its conflicts through a queue, which knows them by their code and the first
  node that they blame.  In a tree-shaped program only the conflicts that one node may have
  several times share both: the missing inputs of one call, the functions that one structure
  owes, and the names that one input repeats.  Of those the first is told, and every other
  conflict is told as it is.

  Main statement: `Session.diagnostics_reports`.
-/
import Arbor.Proofs.Conflict.Origin
import Arbor.Proofs.Diagnostic.Queue
import Arbor.Proofs.Renaming.Failure

namespace Arbor

/-- A queue knows a conflict by its code and the first node that it blames. -/
theorem Conflict.key_toDiagnostic (locale : Locale) (p : Program) (c : Conflict) :
    (c.toDiagnostic locale p).key = c.key := by
  have hsecondary : ((c.secondary.map fun id =>
      (⟨id, locale.label p c id false, false⟩ : Label)).find? Label.isPrimary) = none :=
    List.find?_eq_none.2 fun l hl => by
      obtain ⟨id, -, rfl⟩ := List.mem_map.1 hl
      exact Bool.false_ne_true
  refine Prod.ext rfl ?_
  show Option.map Label.node (List.find? Label.isPrimary (_ ++ _)) = c.primary.head?
  rw [List.find?_append, hsecondary, Option.or_none]
  cases c.primary with
  | nil => rfl
  | cons id ids => rfl

/-- Among conflicts that are apart, one whose code may not repeat is the first of its key. -/
theorem Conflict.eq_of_find?_key {cs : List Conflict} {c e : Conflict}
    (hapart : cs.Pairwise Apart) (hc : c ∈ cs) (hcode : c.code.mayRepeat = false)
    (he : cs.find? (fun b => b.key = c.key) = some e) : e = c := by
  obtain ⟨hkey, before, after, rfl, hbefore⟩ := List.find?_eq_some_iff_append.1 he
  have hkey : e.key = c.key := of_decide_eq_true hkey
  rcases List.mem_append.1 hc with hc | hc
  · have hother : c.key ≠ c.key := by simpa using hbefore c hc
    exact absurd rfl hother
  · rcases List.mem_cons.1 hc with rfl | hc
    · rfl
    · have hsplit := List.pairwise_cons.1 (List.pairwise_append.1 hapart).2.1
      have hrepeat : e.code.mayRepeat = true := hsplit.1 c hc hkey
      have hsame : e.code = c.code := congrArg Prod.fst hkey
      rw [hsame, hcode] at hrepeat
      cases hrepeat

namespace Session

variable {s : Session} {p : Program}

/-- What a session does with one of its conflicts: the first conflict that a queue knows by the
    same code and node is told, with its code, its message and its labels.  It is the conflict
    itself unless one node may have the code several times. -/
def Reports (p : Program) (cs : List Conflict) (ds : List Diagnostic) (c : Conflict) : Prop :=
  ∃ e, cs.find? (fun b => b.key = c.key) = some e ∧ e.toDiagnostic .english p ∈ ds ∧
    (c.code.mayRepeat = false → e = c)

/-- **No conflict is lost but repetitions**: without a limit on errors, a session with a
    tree-shaped program tells each of its conflicts, or the first of those that one node has
    with the same code. -/
theorem diagnostics_reports (hp : s.program = .ok p) (hacyclic : p.arena.Acyclic)
    (honce : p.tree.nodes.Nodup) (hlimit : s.settings.errorLimit = 0) :
    ∃ cs ds, s.check = .ok cs ∧ s.diagnostics = .ok ds ∧ ∀ c ∈ cs, Reports p cs ds c := by
  have hcheck : s.check = .ok (p.check .empty).1 := by
    unfold check
    rw [hp]
    rfl
  have hdiagnostics : s.diagnostics =
      .ok (queueConflicts s.settings.queueConfig p (p.check .empty).1).flush.1 := by
    rw [diagnostics_eq hp, hcheck]
    rfl
  have hapart : (p.check .empty).1.Pairwise Conflict.Apart := by
    obtain ⟨root, -, rfl⟩ := exists_root hp
    exact Program.gives_check hacyclic rfl honce .empty
  refine ⟨_, _, hcheck, hdiagnostics, fun c hc => ?_⟩
  obtain ⟨e, he⟩ : ∃ e, (p.check .empty).1.find? (fun b => b.key = c.key) = some e :=
    Option.isSome_iff_exists.1 (List.find?_isSome.2 ⟨c, hc, decide_eq_true rfl⟩)
  refine ⟨e, he, Queue.mem_flush.2 ?_, fun hcode => Conflict.eq_of_find?_key hapart hc hcode he⟩
  have hnew : c.key ∉ (Queue.ofConfig s.settings.queueConfig).known := nofun
  have hfirst : (p.check .empty).1.find?
      (fun b => (b.toDiagnostic .english p).key = c.key) = some e := by
    simpa only [Conflict.key_toDiagnostic] using he
  exact Queue.mem_addAll_of_find? hlimit hnew hfirst

/-! ## A call without its inputs -/

/-- A function of two inputs and a call that gives it none. -/
def unfilled : Session :=
  let s := ofSettings { Settings.standard with errorLimit := 0 }
  let built := s.build (do
    let a ← Build.input "a" (← Build.numberType)
    let b ← Build.input "b" (← Build.numberType)
    let f ← Build.function "f" [a, b] none (← Build.boolean true)
    Build.program [] [f, ← Build.evaluate (← Build.reference "f") []])
  match built with
  | .ok (_, s) => s
  | .error _ => s

/-- The program of the session, read from its root. -/
def unfilledProgram : Program :=
  .ofRoot unfilled.forest unfilled.basis (some unfilled.shares) ⟨123⟩

theorem program_unfilled : unfilled.program = .ok unfilledProgram :=
  program_of_root (by decide +kernel)

theorem treeShaped_unfilled : unfilledProgram.TreeShaped :=
  treeShaped_ofRoot (Arena.acyclic_of_all (by decide +kernel)) (by decide +kernel)
    (by decide +kernel)

/-- The first missing input of the call is told. -/
theorem reports_unfilled :
    unfilled.program = .ok unfilledProgram ∧ unfilledProgram.TreeShaped ∧
      unfilled.settings.errorLimit = 0 ∧
      ∃ cs ds, unfilled.check = .ok cs ∧ unfilled.diagnostics = .ok ds ∧
        ∀ c ∈ cs, Reports unfilledProgram cs ds c := by
  have hlimit : unfilled.settings.errorLimit = 0 := by decide +kernel
  exact ⟨program_unfilled, treeShaped_unfilled, hlimit,
    diagnostics_reports program_unfilled treeShaped_unfilled.acyclic treeShaped_unfilled.once hlimit⟩

/-- The second missing input of the call is not told. -/
theorem unreported_unfilled :
    ¬∀ (s : Session) (p : Program) (cs : List Conflict) (ds : List Diagnostic),
      s.program = .ok p → p.TreeShaped → s.settings.errorLimit = 0 → s.check = .ok cs →
      s.diagnostics = .ok ds → ∀ c ∈ cs, ∃ d ∈ ds,
        d.code = c.code ∧ d.message = (c.toDiagnostic .english p).message ∧
          d.labels = (c.toDiagnostic .english p).labels := by
  intro h
  have hcheck : unfilled.check = .ok
      [⟨.missingInput ⟨119⟩ ⟨111⟩, [⟨121⟩], [⟨111⟩]⟩,
        ⟨.missingInput ⟨119⟩ ⟨115⟩, [⟨121⟩], [⟨115⟩]⟩] := by
    decide +kernel
  have hdiagnostics := diagnostics_eq program_unfilled
  rw [hcheck] at hdiagnostics
  obtain ⟨d, hd, -, -, hlabels⟩ := h _ _ _ _ program_unfilled treeShaped_unfilled
    (by decide +kernel) hcheck hdiagnostics _ (List.mem_cons_of_mem _ List.mem_cons_self)
  -- The nodes of the labels are enough to see that the second conflict is not told.
  have hnodes : d.labels.map Label.node = [⟨121⟩, ⟨115⟩] := by
    rw [hlabels]
    rfl
  have htold : ∀ e ∈ (queueConflicts unfilled.settings.queueConfig unfilledProgram
      [⟨.missingInput ⟨119⟩ ⟨111⟩, [⟨121⟩], [⟨111⟩]⟩,
        ⟨.missingInput ⟨119⟩ ⟨115⟩, [⟨121⟩], [⟨115⟩]⟩]).diagnostics,
      e.labels.map Label.node ≠ [⟨121⟩, ⟨115⟩] := by
    decide +kernel
  exact htold d (Queue.mem_flush.1 hd) hnodes

end Session

end Arbor
