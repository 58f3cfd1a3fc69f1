/-
  The paths through compiled code, and the number of values along them.

  A path begins before the first step.  Where a step may jump it goes on either way, and a
  call is one step that puts a value in the place of its operands.

  * `Onward code (i, h) (j, k)`: after the step at `i`, run with `h` values, the code may go
    on at `j` with `k` values;
  * `AtHeight code entry i h`: a path that began with `entry` values may come to `i` with `h`;
  * `WellBracketed n parts code`: the code is spliced from that of `parts` between the start
    and the finish of `n`, its brackets nest, its jumps are closed, and its paths leave one
    value.

  Main statement: `wellBracketed`.
-/
import Mathlib.Logic.Relation
import Arbor.Proofs.Program.Basis
import Arbor.Proofs.Step.Balance

namespace Arbor

/-- The number of values that a step leaves. -/
def Step.leaves (s : Step) : Nat :=
  match s.kind with
  | .start | .jump _ | .jumpIf _ true _ => 0
  | .finish | .startFinish | .startEvaluation | .jumpIf _ false _ => 1

namespace Program

variable (p : Program) (code : List Step)

/-- The number of values after a step. -/
def heightAfter (s : Step) (height : Nat) : Nat := height - p.needs s none + s.leaves

/-- The ways on from a place in code with a number of values: to the next step, unless the
    step always jumps, and to where the step may jump. -/
inductive Onward : Nat × Nat → Nat × Nat → Prop
  | next {i h : Nat} {s : Step} :
      code[i]? = some s → (∀ o, s.kind ≠ .jump o) → Onward (i, h) (i + 1, p.heightAfter s h)
  | jump {i h o : Nat} {s : Step} :
      code[i]? = some s → s.offset? = some o → Onward (i, h) (i + 1 + o, p.heightAfter s h)

/-- A place in code, reached with `h` values from `entry` values before the first step. -/
structure AtHeight (entry i h : Nat) : Prop where
  inside : i ≤ code.length
  above : entry ≤ h
  /-- The step takes nothing that was there at entry. -/
  enough : ∀ s, code[i]? = some s → entry + p.needs s none ≤ h
  exit : i = code.length → h = entry + 1
  /-- The path does not get stuck. -/
  onward : Relation.ReflTransGen (p.Onward code) (i, h) (code.length, entry + 1)

/-- What compiled code looks like from outside. -/
structure WellBracketed (n : NodeId) (parts : List NodeId) : Prop where
  encloses : p.Encloses n parts code
  nested : ∀ m, Inside m code
  jumps : ∀ i s o, code[i]? = some s → s.offset? = some o → p.Lands s.node o (code.drop (i + 1))
  paths : ∀ entry i h, Relation.ReflTransGen (p.Onward code) (0, entry) (i, h) →
    p.AtHeight code entry i h

variable {p code}

/-! ## The values along a path -/

/-- Balanced code begins with a step that finds what it needs, and is balanced wherever it
    goes on. -/
theorem Balanced.head {s : Step} {after : List Step} {h : Nat} {os : List NodeId}
    (hb : p.Balanced (s :: after) h os) :
    p.needs s none ≤ h ∧
      ((∀ o, s.kind ≠ .jump o) → ∃ os', p.Balanced after (p.heightAfter s h) os') ∧
      ∀ o, s.offset? = some o →
        o ≤ after.length ∧ ∃ os', p.Balanced (after.drop o) (p.heightAfter s h) os' := by
  cases hb with
  | start _ hin _ _ => exact ⟨Nat.zero_le _, fun _ => ⟨_, hin⟩, nofun⟩
  | @finish _ _ os _ _ hb =>
    refine ⟨Nat.le_add_left .., fun _ => ⟨os, ?_⟩, nofun⟩
    simpa [heightAfter, needs, Step.leaves] using hb
  | startFinish hv hb =>
    refine ⟨by simp [needs, hv], fun _ => ⟨os, ?_⟩, nofun⟩
    simpa [heightAfter, needs, Step.leaves, hv] using hb
  | @jumpIf _ _ _ consume _ _ _ ho hon hover =>
    refine ⟨Nat.le_add_left .., fun _ => ⟨os, ?_⟩, fun o h => ?_⟩
    · cases consume <;> exact hon
    · cases h
      refine ⟨ho, os, ?_⟩
      cases consume <;> exact hover
  | jump ho hover =>
    refine ⟨Nat.zero_le _, fun h => absurd rfl (h _), fun o h => ?_⟩
    cases h
    exact ⟨ho, _, hover⟩
  | startEvaluation _ hb =>
    refine ⟨Nat.le_add_left .., fun _ => ⟨os, ?_⟩, nofun⟩
    simpa [heightAfter, needs, Step.leaves] using hb

variable (p code) in
/-- A place where balanced code is left for the values above those at entry. -/
def BalancedAt (entry : Nat) (x : Nat × Nat) : Prop :=
  x.1 ≤ code.length ∧ ∃ k os, x.2 = entry + k ∧ p.Balanced (code.drop x.1) k os

theorem heightAfter_add {s : Step} {entry k : Nat} (hn : p.needs s none ≤ k) :
    p.heightAfter s (entry + k) = entry + p.heightAfter s k := by
  unfold heightAfter
  omega

theorem drop_eq_cons {i : Nat} {s : Step} (hs : code[i]? = some s) :
    code.drop i = s :: code.drop (i + 1) := by
  obtain ⟨hi, rfl⟩ := List.getElem?_eq_some_iff.1 hs
  exact List.drop_eq_getElem_cons hi

namespace BalancedAt

variable {entry : Nat} {x y : Nat × Nat}

theorem onward (h : p.BalancedAt code entry x) (ho : p.Onward code x y) :
    p.BalancedAt code entry y := by
  obtain ⟨-, k, os, hk, hb⟩ := h
  cases ho with
  | @next i h s hs hj =>
    change h = entry + k at hk
    subst hk
    rw [drop_eq_cons hs] at hb
    obtain ⟨hn, hnext, -⟩ := hb.head
    obtain ⟨os', hb⟩ := hnext hj
    exact ⟨(List.getElem?_eq_some_iff.1 hs).1, _, os', heightAfter_add hn, hb⟩
  | @jump i h o s hs ho =>
    change h = entry + k at hk
    subst hk
    rw [drop_eq_cons hs] at hb
    obtain ⟨hn, -, hjump⟩ := hb.head
    obtain ⟨hle, os', hb⟩ := hjump o ho
    rw [List.length_drop] at hle
    rw [List.drop_drop] at hb
    have hi := (List.getElem?_eq_some_iff.1 hs).1
    exact ⟨by dsimp only; omega, _, os', heightAfter_add hn, hb⟩

/-- The height at the end does not depend on the way there. -/
theorem exit {h : Nat} (hx : p.BalancedAt code entry (code.length, h)) : h = entry + 1 := by
  obtain ⟨-, k, os, rfl, hb⟩ := hx
  rw [List.drop_length] at hb
  cases hb
  rfl

/-- From each place there is a way to the end. -/
theorem reaches_end (hx : p.BalancedAt code entry x) :
    Relation.ReflTransGen (p.Onward code) x (code.length, entry + 1) := by
  induction hr : code.length - x.1 using Nat.strongRecOn generalizing x with
  | _ r ih =>
    subst hr
    obtain ⟨i, h⟩ := x
    obtain hi | hi := Nat.lt_or_eq_of_le hx.1
    · have hs : code[i]? = some code[i] := List.getElem?_eq_getElem hi
      obtain ⟨y, ho, hy⟩ : ∃ y, p.Onward code (i, h) y ∧ i < y.1 := by
        by_cases hj : ∀ o, code[i].kind ≠ .jump o
        · exact ⟨_, .next hs hj, Nat.lt_succ_self i⟩
        · obtain ⟨o, hj⟩ := not_forall_not.1 hj
          refine ⟨_, .jump (o := o) hs (by simp [Step.offset?, hj]), ?_⟩
          dsimp only
          omega
      dsimp only at hi
      exact .head ho (ih _ (by dsimp only; omega) (hx.onward ho) rfl)
    · dsimp only at hi
      subst hi
      rw [hx.exit]

theorem atHeight {i h : Nat} (hx : p.BalancedAt code entry (i, h)) :
    p.AtHeight code entry i h where
  inside := hx.1
  above := by
    obtain ⟨-, k, -, rfl, -⟩ := hx
    exact Nat.le_add_right ..
  enough s hs := by
    obtain ⟨-, k, os, rfl, hb⟩ := hx
    rw [drop_eq_cons hs] at hb
    exact Nat.add_le_add_left hb.head.1 entry
  exit hi := by
    subst hi
    exact hx.exit
  onward := hx.reaches_end

end BalancedAt

/-- Balanced code keeps its height on every path. -/
theorem Balanced.atHeight (hb : p.Balanced code 0 []) {entry i h : Nat}
    (hpath : Relation.ReflTransGen (p.Onward code) (0, entry) (i, h)) :
    p.AtHeight code entry i h := by
  have start : p.BalancedAt code entry (0, entry) := ⟨Nat.zero_le _, 0, [], rfl, hb⟩
  have along : ∀ y, Relation.ReflTransGen (p.Onward code) (0, entry) y →
      p.BalancedAt code entry y := by
    intro y hy
    induction hy with
    | refl => exact start
    | tail _ ho ih => exact ih.onward ho
  exact (along _ hpath).atHeight

/-! ## Compiled code -/

theorem wellBracketed_compile (h : p.arena.Acyclic) (id : NodeId) :
    p.WellBracketed (p.compile id) id (p.arena.children id) where
  encloses := encloses_compile h id
  nested _ := by
    obtain ⟨rank, hrank⟩ := h
    exact inside_compile hrank id
  jumps _ _ _ hs ho := by
    obtain ⟨rank, hrank⟩ := h
    exact (jumpsLand_compile hrank id).lands hs ho
  paths _ _ _ hpath := by
    obtain ⟨rank, hrank⟩ := h
    have hb : p.Balanced (p.compile id ++ []) 0 [] := balanced_compile hrank (by simp) .done
    rw [List.append_nil] at hb
    exact hb.atHeight hpath

theorem wellBracketed_compileBody (h : p.arena.Acyclic) {id : NodeId} (hid : p.IsStructure id) :
    p.WellBracketed (p.compileBody id) id (p.statements id) where
  encloses := by
    obtain ⟨ns, fs, vs, is, body, hn⟩ := hid
    exact encloses_compileBody hn
  nested _ := by
    obtain ⟨rank, hrank⟩ := h
    obtain ⟨ns, fs, vs, is, body, hn⟩ := hid
    exact (encloses_compileBody hn).inside fun c _ => inside_compile hrank c
  jumps _ _ _ hs ho := by
    obtain ⟨rank, hrank⟩ := h
    exact (jumpsLand_compileBody hrank id).lands hs ho
  paths _ _ _ hpath := by
    obtain ⟨rank, hrank⟩ := h
    obtain ⟨ns, fs, vs, is, body, hn⟩ := hid
    exact (balanced_compileBody hrank (by simp [compileBody, hn])).atHeight hpath

/-- **Compiled code is well bracketed.**  The code of every node is one step, or is spliced
    from the code of its children between its start and its finish; so is the body of a
    structure, from its statements, and that of a function, as the code of its expression.
    Brackets nest, a jump leads to the finish of its own node or to the `no` of its
    conditional, and however the conditions turn out no step takes a value from below the
    entry and one more value is there at the end. -/
theorem wellBracketed (h : p.arena.Acyclic) :
    (∀ id, p.WellBracketed (p.compile id) id (p.arena.children id)) ∧
      (∀ id ns vs is output body,
        p.node? id = some (.functionDefinition ns vs is output (some body)) →
          p.WellBracketed (p.compileBody id) body (p.arena.children body)) ∧
      ∀ id, p.IsStructure id → p.WellBracketed (p.compileBody id) id (p.statements id) := by
  refine ⟨wellBracketed_compile h, fun id ns vs is output body hn => ?_,
    fun id => wellBracketed_compileBody h⟩
  have hbody : p.compileBody id = p.compile body := by
    unfold compileBody
    rw [hn]
  exact hbody ▸ wellBracketed_compile h body

/-- A function that chooses between `true & false` and `true`, and a structure with a
    statement. -/
def branching : Program :=
  .built (do
    let both ← Build.binary (← Build.boolean true) "&" (← Build.boolean false)
    let pick ← Build.function "pick" [] none
      (← Build.conditional (← Build.boolean true) both (← Build.boolean true))
    let kept ← Build.structureDef "kept" [] [] [← Build.boolean true]
    Build.program [] [pick, kept])
    none

/-- The first jump of the function leads to `true`, and the others to their finishes. -/
theorem wellBracketed_branching :
    branching.arena.Acyclic ∧
      branching.compileBody ⟨116⟩ =
        [⟨⟨113⟩, .start⟩, ⟨⟨111⟩, .startFinish⟩, ⟨⟨113⟩, .jumpIf 7 true false⟩,
          ⟨⟨110⟩, .start⟩, ⟨⟨108⟩, .startFinish⟩, ⟨⟨110⟩, .jumpIf 2 false false⟩,
          ⟨⟨109⟩, .startFinish⟩, ⟨⟨110⟩, .startEvaluation⟩, ⟨⟨110⟩, .finish⟩,
          ⟨⟨113⟩, .jump 1⟩, ⟨⟨112⟩, .startFinish⟩, ⟨⟨113⟩, .finish⟩] ∧
      branching.WellBracketed (branching.compileBody ⟨116⟩) ⟨113⟩ (branching.arena.children ⟨113⟩) ∧
      branching.WellBracketed (branching.compileBody ⟨121⟩) ⟨121⟩ (branching.statements ⟨121⟩) := by
  have hacyclic : branching.arena.Acyclic := Arena.acyclic_of_all (by decide +kernel)
  have hpick : branching.node? ⟨116⟩ =
      some (.functionDefinition ⟨115⟩ ⟨37, 0⟩ ⟨37, 0⟩ none (some ⟨113⟩)) := by
    decide +kernel
  have hkept : branching.node? ⟨121⟩ =
      some (.structureDefinition ⟨119⟩ ⟨38, 0⟩ ⟨38, 0⟩ ⟨38, 0⟩ (some ⟨120⟩)) := by
    decide +kernel
  obtain ⟨-, hfunctions, hstructures⟩ := wellBracketed hacyclic
  exact ⟨hacyclic, by decide +kernel, hfunctions _ _ _ _ _ _ hpick,
    hstructures _ ⟨_, _, _, _, _, hkept⟩⟩

end Program

end Arbor
