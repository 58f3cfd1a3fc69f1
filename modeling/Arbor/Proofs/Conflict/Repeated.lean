/-
  Names of inputs that are given again.

  One set of names is kept for all inputs of a definition, so that a name is given again
  not only if an input before has it, but also if the input itself has it twice, as a word
  that it has in two languages.  The check of aliases lets the same word stand in two
  languages.

  * `NamedAgain before input n`: `n` is given again by an input after the inputs `before`.

  Main statements: `gives_duplicateInputNames`, the names that are reported, and
  `gives_sharedInputNames`, which are those that two inputs share if no input has a name
  twice.
-/
import Arbor.Proofs.Conflict.Origin
import Arbor.Proofs.Program.Basis

namespace Arbor.Program

open Typing

variable (p : Program)

/-- An input gives a name again: one of the inputs before it has the name, or the input has
    it twice. -/
def NamedAgain (before : List NodeId) (input : NodeId) (n : Name) : Prop :=
  (∃ i ∈ before, n ∈ p.names i) ∧ n ∈ p.names input ∨ 2 ≤ (p.names input).count n

variable {p} {id input : NodeId} {inputs : List NodeId} {n : Name} {c : Conflict}

/-- The names of an input before others are seen where those are checked. -/
theorem namedAgain_cons {first : NodeId} {before : List NodeId} {seen : List Name} :
    (n ∈ seen ∨ n ∈ p.names first) ∧ n ∈ p.names input ∨ p.NamedAgain before input n ↔
      n ∈ seen ∧ n ∈ p.names input ∨ p.NamedAgain (first :: before) input n := by
  simp only [NamedAgain, List.exists_mem_cons_iff, or_and_right, or_assoc]

/-- An input without a name of its own twice shares the names that it gives again. -/
theorem namedAgain_iff {before : List NodeId} (hinput : (p.names input).Nodup) :
    p.NamedAgain before input n ↔ n ∈ p.names input ∧ ∃ i ∈ before, n ∈ p.names i := by
  have honce : ¬2 ≤ (p.names input).count n := by
    have := List.nodup_iff_count_le_one.1 hinput n
    omega
  rw [NamedAgain, or_iff_left honce, and_comm]

/-! ## The names of all inputs -/

/-- The names that a list of inputs gives again, where some are seen before. -/
theorem mem_inputListConflictsAfter {seen : List Name} {optional : Bool} :
    c ∈ p.inputListConflictsAfter seen optional inputs ∧ c.code = .e2011 ↔
      ∃ before input after n, inputs = before ++ input :: after ∧
        c = ⟨.duplicateInputNames n, [input], []⟩ ∧
        (n ∈ seen ∧ n ∈ p.names input ∨ p.NamedAgain before input n) := by
  induction inputs generalizing seen optional with
  | nil => simp [inputListConflictsAfter]
  | cons first rest ih =>
    obtain ⟨order, optional', horder, -, heq⟩ :=
      p.exists_inputListConflictsAfter seen optional first rest
    have hown : c ∈ (repetitions first (p.names first) seen []).2 ↔
        ∃ n, c = ⟨.duplicateInputNames n, [first], []⟩ ∧
          (n ∈ seen ∧ n ∈ p.names first ∨ p.NamedAgain [] first n) := by
      rw [mem_found_repetitions]
      simp [NamedAgain]
    rw [heq, List.mem_append, List.mem_append]
    constructor
    · rintro ⟨(hc | hc) | hc, hcode⟩
      · obtain ⟨n, rfl, h⟩ := hown.1 hc
        exact ⟨[], first, rest, n, rfl, rfl, h⟩
      · rw [(horder c hc).1] at hcode
        cases hcode
      · obtain ⟨before, input, after, n, rfl, rfl, h⟩ := ih.1 ⟨hc, hcode⟩
        refine ⟨first :: before, input, after, n, rfl, rfl, ?_⟩
        rw [mem_seen_repetitions] at h
        exact namedAgain_cons.1 h
    · rintro ⟨before, input, after, n, hinputs, rfl, h⟩
      refine ⟨?_, rfl⟩
      cases before with
      | nil =>
        cases hinputs
        exact .inl (.inl (hown.2 ⟨n, rfl, h⟩))
      | cons i before =>
        cases hinputs
        refine .inr (ih.2 ⟨before, input, after, n, rfl, rfl, ?_⟩).1
        rw [mem_seen_repetitions]
        exact namedAgain_cons.2 h

/-- What is wrong with the inputs of a definition is found among its conflicts, with the same
    conflicts about names. -/
theorem gives_conflictsOf_inputs (h : p.IsFunction id ∨ p.IsStructure id) :
    (p.conflictsOf id).Gives fun cs => ∀ c, c.code = .e2011 →
      (c ∈ cs ↔ c ∈ p.inputListConflicts (p.inputs id)) := by
  unfold conflictsOf
  obtain ⟨ns, vs, is, output, body, hn⟩ | ⟨ns, fs, vs, is, body, hn⟩ := h
  · rw [hn]
    exact gives_pure fun c _ => Iff.rfl
  · rw [hn]
    refine (gives_unimplementedConflicts id).bind fun owed howed => gives_pure fun c hcode => ?_
    have hface : c ∉ p.interfaceConflicts (p.declaredInterfaces id) := by
      intro hc
      have hother := List.mem_singleton.1 ((p.atEach_interfaceConflicts _).blames c hc).1
      rw [hcode] at hother
      cases hother
    have habstract : c ∉ p.abstractConflicts id := by
      intro hc
      rcases (abstractConflicts_at (p := p) id).2 c hc with hother | hother <;>
        rw [hcode] at hother <;> cases hother
    have howed : c ∉ owed := by
      intro hc
      have hother := howed.2 c hc
      rw [hcode] at hother
      cases hother
    simp [hface, habstract, howed]

/-- **The names that are given again.**  A function or structure reports exactly the names that
    one of its inputs gives again, at that input. -/
theorem gives_duplicateInputNames (h : p.IsFunction id ∨ p.IsStructure id) :
    (p.conflictsOf id).Gives fun cs => ∀ c, c ∈ cs ∧ c.code = .e2011 ↔
      ∃ before input after n, p.inputs id = before ++ input :: after ∧
        c = ⟨.duplicateInputNames n, [input], []⟩ ∧ p.NamedAgain before input n := by
  refine (gives_conflictsOf_inputs h).mono fun cs hcs c => ?_
  rw [and_congr_left fun hcode => hcs c hcode, inputListConflicts, mem_inputListConflictsAfter]
  simp

/-- A function whose input is named `total` in two languages. -/
def bilingual : Program :=
  .built (do
    let names ← Build.taggedNames [("total", "en"), ("total", "fr")]
    let amount ← Build.add (.bind names (some (← Build.numberType)) none)
    let f ← Build.function "f" [amount] none (← Build.boolean true)
    Build.program [] [f])
    none

/-- The input is reported although it is the only one, and its aliases are not. -/
example :
    bilingual.inputs ⟨116⟩ = [⟨112⟩] ∧ bilingual.names ⟨112⟩ = [⟨12⟩, ⟨12⟩] ∧
      (bilingual.conflictsOf ⟨116⟩ .empty).1 = [⟨.duplicateInputNames ⟨12⟩, [⟨112⟩], []⟩] ∧
      (bilingual.conflictsOf ⟨110⟩ .empty).1 = [] := by
  decide +kernel

/-- **The names that two inputs share.**  If no input of a function or structure has a name
    twice, a name is reported at an input if and only if the input and one before it have
    it. -/
theorem gives_sharedInputNames (h : p.IsFunction id ∨ p.IsStructure id)
    (honce : ∀ i ∈ p.inputs id, (p.names i).Nodup) :
    (p.conflictsOf id).Gives fun cs => ∀ c, c ∈ cs ∧ c.code = .e2011 ↔
      ∃ before input after n, p.inputs id = before ++ input :: after ∧
        c = ⟨.duplicateInputNames n, [input], []⟩ ∧
        n ∈ p.names input ∧ ∃ i ∈ before, n ∈ p.names i := by
  refine (gives_duplicateInputNames h).mono fun cs hcs c => (hcs c).trans ?_
  refine exists₄_congr fun before input after n => and_congr_right fun hinputs => ?_
  exact and_congr_right fun _ => namedAgain_iff (honce input (by simp [hinputs]))

end Arbor.Program
