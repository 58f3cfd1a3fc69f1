/-
  Sessions before and after an edit that changes nothing.

  If a node is replaced by a structurally equal copy, every question of the session gets the
  answer that it got before, told of the nodes in the same places.

  * `Session.CanCopy` says what makes a node replaceable by a copy;
  * `SameAnswers` relates the answers of two sessions.

  Main statement: `Session.edit_copy`.
-/
import Arbor.Session
import Arbor.Proofs.Renaming.Conflicts
import Arbor.Proofs.Renaming.Places
import Arbor.Proofs.Renaming.Runs

namespace Arbor

open List (Forall₂)
open Relator (BiUnique)

/-! ## Answers -/

section
variable (R : NodeId → NodeId → Prop)

/-- The sessions cannot do what they are asked to for the same reason. -/
inductive SessionError.Renamed : SessionError → SessionError → Prop
  | noProgram : SessionError.Renamed .noProgram .noProgram
  | fatalConflicts (count : Nat) :
      SessionError.Renamed (.fatalConflicts count) (.fatalConflicts count)
  | edit (e : EditError) : SessionError.Renamed (.edit e) (.edit e)
  | eval {e e' : EvalError} : e.Renamed R e' → SessionError.Renamed (.eval e) (.eval e')

/-- The conflicts are the same but for the names of the nodes, and told in the same words. -/
structure SameConflict (p q : Program) (c c' : Conflict) : Prop where
  renamed : c.Renamed R c'
  explanation : c.explainInEnglish p = c'.explainInEnglish q
  label : ∀ x y isPrimary, R x y → c.labelInEnglish p x isPrimary = c'.labelInEnglish q y isPrimary

/-- The runs gave values that are the same but for the names of the nodes, and are described
    in the same words. -/
structure SameResult (r r' : Value × Evaluator) : Prop where
  renamed : r.1.Renamed R r'.1
  description : r.2.describe r.1 = r'.2.describe r'.1

/-- Two sessions give the same answers but for the names of the nodes. -/
structure SameAnswers (p q : Program) (s s' : Session) : Prop where
  check : Except.Rel (SessionError.Renamed R) (Forall₂ (SameConflict R p q)) s.check s'.check
  compile : Except.Rel (SessionError.Renamed R) (RenamedSteps R) s.compile s'.compile
  run : Except.Rel (SessionError.Renamed R) (SameResult R) s.run s'.run

end

namespace Session

section
variable {R : NodeId → NodeId → Prop} {p q : Program} {s s' : Session}

theorem evaluator_eq (hp : s.program = .ok p) :
    s.evaluator =
      let found := p.check .empty
      let count := found.1.countP Conflict.isFatal
      if 0 < count ∧ !s.settings.allowConflicts then .error (.fatalConflicts count)
      else .ok ⟨p, s.settings.limits, .initial found.2⟩ := by
  simp only [evaluator, hp, bind, Except.bind, StateT.run]
  rcases p.check .empty with ⟨conflicts, memo⟩
  by_cases hfatal : 0 < conflicts.countP Conflict.isFatal ∧ !s.settings.allowConflicts
  · dsimp only
    rw [if_pos hfatal, if_pos hfatal]
    rfl
  · dsimp only
    rw [if_neg hfatal, if_neg hfatal]
    rfl

/-- The sessions run machines that are renamed, each with its program. -/
theorem renamed_evaluator (h : p.Renamed R q) (hp : s.program = .ok p) (hq : s'.program = .ok q)
    (hsettings : s'.settings = s.settings) :
    Except.Rel (SessionError.Renamed R)
      (fun e e' => e.program = p ∧ e'.program = q ∧ e.limits = e'.limits ∧
        e.machine.Renamed R p q e'.machine) s.evaluator s'.evaluator := by
  obtain ⟨hconflicts, hmemo, hidle, hidle'⟩ :=
    h.renamed_check .empty .empty Memo.renamed_empty rfl rfl
  rw [evaluator_eq hp, evaluator_eq hq, hsettings]
  dsimp only
  rw [List.rel_countP hconflicts fun _ _ hc => hc.isFatal_eq]
  split
  · exact .error (.fatalConflicts _)
  · exact .ok ⟨rfl, rfl, rfl, Program.Renamed.renamed_initial hmemo hidle hidle'⟩

/-- Sessions with renamed programs give the same answers. -/
theorem sameAnswers (h : p.Renamed R q) (hp : s.program = .ok p) (hq : s'.program = .ok q)
    (hsettings : s'.settings = s.settings) : SameAnswers R p q s s' := by
  refine ⟨?_, ?_, ?_⟩
  · simp only [check, hp, hq]
    refine .ok (List.Forall₂.imp (fun c c' hc => ?_)
      (h.renamed_check .empty .empty Memo.renamed_empty rfl rfl).1)
    exact ⟨hc, h.explainInEnglish_eq hc, fun _ _ primary hx => h.labelInEnglish_eq hc hx primary⟩
  · simp only [compile, hp, hq]
    exact .ok (h.renamed_compile h.root)
  · have hevaluator := renamed_evaluator h hp hq hsettings
    unfold run
    revert hevaluator
    generalize s.evaluator = o, s'.evaluator = o'
    rintro (he | @⟨e, e', rfl, rfl, hlimits, hmachine⟩)
    · exact .error he
    · have hrun := h.renamed_run hmachine e.limits
      simp only [bind, Except.bind, Evaluator.run, ← hlimits]
      revert hrun
      generalize e.machine.run e.program e.limits = r, e'.machine.run e'.program e.limits = r'
      rcases r with ⟨r, m⟩
      rcases r' with ⟨r', m'⟩
      rintro ⟨he | hv, hm⟩
      · exact .error (.eval he)
      · exact .ok ⟨hv, h.describe_value_eq hm.store.scopes hv⟩

end

/-! ## Edits -/

/-- A node below the root of the session's program can be replaced by a copy: the program and
    the copy are trees apart from each other, the copy is structurally equal to the node, and
    what the basis, the shared structures and the types of the shared streams refer to is
    neither below the node nor below the copy. -/
structure CanCopy (s : Session) (p : Program) (original copy : NodeId) : Prop where
  program : s.program = .ok p
  complete : p.arena.Complete
  acyclic : p.arena.Acyclic
  once : p.tree.nodes.Nodup
  below : original ∈ p.tree.nodes
  strictly : original ≠ p.root
  onceCopy : (p.arena.preorder copy).Nodup
  equal : p.arena.structurallyEqual original copy = true
  apart : ∀ z ∈ p.tree.nodes, z ∉ p.arena.preorder copy
  known : ∀ r ∈ p.references, p.arena.Knows r
  untouched : ∀ z ∈ p.surroundings, z ∉ p.arena.preorder original ∧ z ∉ p.arena.preorder copy

variable {s s' : Session} {p : Program} {root original copy new : NodeId}

theorem exists_root (hp : s.program = .ok p) :
    ∃ root, s.root = some root ∧ p = .ofRoot s.forest s.basis (some s.shares) root := by
  unfold program at hp
  split at hp
  · next root hroot =>
    cases hp
    exact ⟨root, hroot, rfl⟩
  · cases hp

/-- An edit that succeeds makes what it built the current version. -/
theorem exists_replaced (hroot : s.root = some root)
    (hedit : s.edit original (some copy) = (.ok new, s')) :
    ∃ a, (Arena.replace root original (some copy)).run.run s.forest.arena = (.ok new, a) ∧
      s' = { s with forest := { s.forest with arena := a }, root := some new } := by
  unfold edit at hedit
  rw [hroot] at hedit
  dsimp only at hedit
  split at hedit
  · next edited a hreplaced =>
    cases hedit
    exact ⟨a, hreplaced, rfl⟩
  · cases hedit

theorem CanCopy.edited (h : s.CanCopy p original copy)
    (hedit : s.edit original (some copy) = (.ok new, s')) :
    ∃ q, s'.program = .ok q ∧ p.Edited q original copy ∧ s'.settings = s.settings := by
  obtain ⟨root, hroot, rfl⟩ := exists_root h.program
  obtain ⟨a, hreplaced, rfl⟩ := exists_replaced hroot hedit
  refine ⟨_, rfl, ?_, rfl⟩
  have hknown := Arena.knows_of_mem_preorder h.acyclic h.below h.strictly
  have hold := h.complete.knows_of_mem_preorder h.acyclic hknown h.below
  have copyOf : s.forest.arena.CopyOf original copy :=
    ⟨h.complete, h.acyclic, hold, Arena.knows_of_equal h.acyclic hold h.equal, h.equal, h.onceCopy⟩
  obtain ⟨hgrown, hbecomes, hnew, -⟩ := copyOf.becomes_replace hknown h.strictly hreplaced
  exact ⟨copyOf, hgrown, hbecomes, hnew, rfl, rfl, rfl, rfl, rfl, h.once, h.below, h.apart,
    h.known, h.untouched⟩

/-- **An edit that puts a structurally equal copy in the place of a node changes no answer**:
    afterwards the session gives the same conflicts in the same order, the same steps and the
    same result, told of the nodes in the same places. -/
theorem edit_copy (h : s.CanCopy p original copy)
    (hedit : s.edit original (some copy) = (.ok new, s')) :
    ∃ q, s'.program = .ok q ∧ BiUnique (p.SamePlace q) ∧
      Forall₂ (p.SamePlace q) p.tree.nodes q.tree.nodes ∧
      SameAnswers (p.SamePlace q) p q s s' := by
  obtain ⟨q, hq, hedited, hsettings⟩ := h.edited hedit
  have renamed := hedited.renamed
  exact ⟨q, hq, renamed.unique, renamed.nodes, sameAnswers renamed h.program hq hsettings⟩

/-- A program is tree-shaped if no node comes twice, and its root is in no detached tree. -/
theorem treeShaped_ofRoot {f : Forest} {basis : Basis} {shares : Option Shares} {root : NodeId}
    (h : f.arena.Acyclic) (honce : (Program.ofRoot f basis shares root).tree.nodes.Nodup)
    (htop : root ∉ f.arena.preorders (Program.ofRoot f basis shares root).detached) :
    (Program.ofRoot f basis shares root).TreeShaped where
  acyclic := h
  tree := ⟨_, rfl⟩
  once := honce
  top := Tree.parent?_root h fun d hd hreaches =>
    absurd (List.mem_flatMap.2 ⟨d, hd, (Arena.mem_preorder_iff h).2 hreaches⟩) htop

/-! ## A copy of a structure that a stream gives instances of -/

/-- A structure `point`, a value `p` of the structure that the stream `clock` gives, and a copy
    of the structure outside the program. -/
def points (type : Ty) : Session :=
  let s := ofSettings .standard
  let built := s.build (do
    let borrow ← Build.borrow "clock"
    let point ← Build.structureDef "point" [] [] []
    let p ← Build.bind "p" (some (← Build.nameType "point" [])) (some (← Build.reference "clock"))
    let _ ← Build.structureDef "point" [] [] []
    Build.program [borrow] [point, p])
  match built with
  | .ok (_, s) => (s.shareStream "clock" type).2
  | .error _ => s

/-- The program of the session, read from its root. -/
def pointsProgram (type : Ty) : Program :=
  .ofRoot (points type).forest (points type).basis (some (points type).shares) ⟨121⟩

theorem program_of_root (hroot : s.root = some root) :
    s.program = .ok (.ofRoot s.forest s.basis (some s.shares) root) := by
  unfold program
  rw [hroot]

theorem edit_eq (h : (s.edit original (some copy)).1 = .ok new) :
    s.edit original (some copy) = (.ok new, (s.edit original (some copy)).2) := by
  rw [← h]

theorem canCopy_points :
    (points (.primitive .number)).CanCopy (pointsProgram (.primitive .number)) ⟨111⟩ ⟨119⟩ := by
  refine ⟨program_of_root (by decide +kernel), ?_, ?_, ?_, ?_, ?_, ?_, ?_, ?_, ?_, ?_⟩
  · exact Arena.complete_of_all (by decide +kernel) (by decide +kernel)
  · exact Arena.acyclic_of_all (by decide +kernel)
  all_goals decide +kernel

/-- The copy takes the place of the structure, and a value is still not an instance of it. -/
theorem edit_copy_points :
    (points (.primitive .number)).CanCopy (pointsProgram (.primitive .number)) ⟨111⟩ ⟨119⟩ ∧
      ((points (.primitive .number)).edit ⟨111⟩ (some ⟨119⟩)).1 = .ok ⟨123⟩ ∧
      ∃ q, ((points (.primitive .number)).edit ⟨111⟩ (some ⟨119⟩)).2.program = .ok q ∧
        SameAnswers ((pointsProgram (.primitive .number)).SamePlace q)
          (pointsProgram (.primitive .number)) q (points (.primitive .number))
          ((points (.primitive .number)).edit ⟨111⟩ (some ⟨119⟩)).2 := by
  have hnew : ((points (.primitive .number)).edit ⟨111⟩ (some ⟨119⟩)).1 = .ok ⟨123⟩ := by
    decide +kernel
  obtain ⟨q, hq, -, -, hanswers⟩ := edit_copy canCopy_points (edit_eq hnew)
  exact ⟨canCopy_points, hnew, q, hq, hanswers⟩

/-- The types of shared streams keep the names that they were given.  If the values of `clock`
    are instances of the structure, `p` has no conflict; once the copy is in its place, the
    old structure is another one, and `p` has one. -/
theorem not_sameAnswers_points :
    let type := Ty.instanceOf ⟨111⟩ []
    let p := pointsProgram type
    (points type).program = .ok p ∧ p.TreeShaped ∧ (points type).shares.structures = [] ∧
      ⟨111⟩ ∈ p.tree.nodes ∧ ⟨111⟩ ≠ p.root ∧ (p.arena.preorder ⟨119⟩).Nodup ∧
      (∀ z ∈ p.arena.preorder ⟨119⟩, z ∉ p.tree.nodes ∧ z ∉ p.arena.preorders p.detached) ∧
      p.arena.structurallyEqual ⟨111⟩ ⟨119⟩ = true ∧
      ((points type).edit ⟨111⟩ (some ⟨119⟩)).1 = .ok ⟨123⟩ ∧
      ∀ R q, ¬SameAnswers R p q (points type) ((points type).edit ⟨111⟩ (some ⟨119⟩)).2 := by
  intro type p
  have hp : (points type).program = .ok p := program_of_root (by decide +kernel)
  have htree : p.TreeShaped :=
    treeShaped_ofRoot (Arena.acyclic_of_all (by decide +kernel)) (by decide +kernel)
      (by decide +kernel)
  have hchecks : (points type).check = .ok [] ∧
      ((points type).edit ⟨111⟩ (some ⟨119⟩)).2.check =
        .ok [⟨.incompatibleBind (.instanceOf ⟨119⟩ []) type, [⟨113⟩], [⟨112⟩]⟩] := by
    decide +kernel
  refine ⟨hp, htree, by decide +kernel, by decide +kernel, by decide +kernel, by decide +kernel,
    by decide +kernel, by decide +kernel, by decide +kernel, fun R q h => ?_⟩
  have hcheck := h.check
  rw [hchecks.1, hchecks.2] at hcheck
  rcases hcheck with - | ⟨⟨⟩⟩

end Session

end Arbor
