/-
  The coverage of code: what is bound where a node finishes.

  * `Sees around bound id`: the node is inside the functions `around`, and what is shown
    there is `bound`;
  * `Covers around bound code`: every step of the code that finishes a node is run where the
    node sees what it needs, whatever the jumps decide and whichever nodes are skipped.

  Main statements: `covers_compile` and `covers_body`.
-/
import Arbor.Proofs.Program.Nesting
import Arbor.Proofs.Step.Balance

namespace Arbor.Program

variable (p : Program)

/-- The node is inside the functions, what is shown there is bound, but for a function
    itself, and the node is no input. -/
structure Sees (around : List NodeId) (bound : NodeId → Prop) (id : NodeId) : Prop where
  mem : id ∈ p.tree.nodes
  around : p.functionsAround id = around
  bound : ∀ x, p.Shows id x → bound x ∨ (x = id ∧ p.IsFunction id)
  plain : ∀ d ∈ p.tree.nodes, id ∉ p.inputs d

/-- What is bound after a node has left its value. -/
def With (bound : NodeId → Prop) (id x : NodeId) : Prop := bound x ∨ (x = id ∧ p.Binds id)

/-- Code inside the functions `around`, run where some definitions are bound, finishes nodes
    only where they see what they need. -/
inductive Covers (around : List NodeId) : (bound : NodeId → Prop) → (code : List Step) → Prop
  | done {bound : NodeId → Prop} : Covers around bound []
  /-- A node is run, or else skipped to its finish. -/
  | start {bound : NodeId → Prop} {id : NodeId} {inside after : List Step} :
      Covers around bound (inside ++ ⟨id, .finish⟩ :: after) → ⟨id, .finish⟩ ∉ inside →
      Covers around bound (⟨id, .finish⟩ :: after) →
      Covers around bound (⟨id, .start⟩ :: (inside ++ ⟨id, .finish⟩ :: after))
  | finish {bound : NodeId → Prop} {s : Step} {after : List Step} :
      s.finishes = true → p.Sees around bound s.node → Covers around (p.With bound s.node) after →
      Covers around bound (s :: after)
  /-- Both ways on are covered. -/
  | jumpIf {bound : NodeId → Prop} {id : NodeId} {offset : Nat} {consume jumpWhen : Bool}
      {after : List Step} :
      offset ≤ after.length → Covers around bound after → Covers around bound (after.drop offset) →
      Covers around bound (⟨id, .jumpIf offset consume jumpWhen⟩ :: after)
  | jump {bound : NodeId → Prop} {id : NodeId} {offset : Nat} {after : List Step} :
      offset ≤ after.length → Covers around bound (after.drop offset) →
      Covers around bound (⟨id, .jump offset⟩ :: after)
  | startEvaluation {bound : NodeId → Prop} {id : NodeId} {after : List Step} :
      Covers around bound after → Covers around bound (⟨id, .startEvaluation⟩ :: after)

variable {p} {around : List NodeId} {bound bound' : NodeId → Prop} {id : NodeId}

theorem Sees.mono (h : p.Sees around bound id) (hb : ∀ x, bound x → bound' x) :
    p.Sees around bound' id :=
  ⟨h.mem, h.around, fun x hx => (h.bound x hx).imp_left (hb x), h.plain⟩

theorem With.mono (hb : ∀ x, bound x → bound' x) (x : NodeId) (h : p.With bound id x) :
    p.With bound' id x :=
  h.imp_left (hb x)

/-- Code that is covered stays covered where more is bound. -/
theorem Covers.mono {code : List Step} (h : p.Covers around bound code)
    (hb : ∀ x, bound x → bound' x) : p.Covers around bound' code := by
  induction h generalizing bound' with
  | done => exact .done
  | start _ hc _ hin hskip => exact .start (hin hb) hc (hskip hb)
  | finish hs hsees _ ih => exact .finish hs (hsees.mono hb) (ih (With.mono hb))
  | jumpIf ho _ _ hon hover => exact .jumpIf ho (hon hb) (hover hb)
  | jump ho _ ih => exact .jump ho (ih hb)
  | startEvaluation _ ih => exact .startEvaluation (ih hb)

/-- A node around covered code. -/
theorem Covers.node (inside after : List Step)
    (hin : p.Covers around bound (inside ++ ⟨id, .finish⟩ :: after)) (hcl : ⟨id, .finish⟩ ∉ inside)
    (hskip : p.Covers around bound (⟨id, .finish⟩ :: after)) :
    p.Covers around bound ([⟨id, .start⟩] ++ inside ++ [⟨id, .finish⟩] ++ after) := by
  rw [List.append_assoc, List.append_assoc]
  exact .start hin hcl hskip

/-! ## The coverage of compiled code -/

namespace Plain

variable (h : p.Plain)
include h

/-- No child of an expression is an input. -/
theorem notMem_inputs {c d : NodeId} (hid : id ∈ p.tree.nodes) (hf : ¬p.IsFunction id)
    (hc : c ∈ p.arena.children id) (hd : d ∈ p.tree.nodes) : c ∉ p.inputs d := by
  intro hin
  obtain rfl := h.tree.eq_of_mem_children hid hd hc (inputs_subset_children hin)
  rw [inputs_eq_nil hf (h.structures id hid)] at hin
  cases hin

/-- A child of an expression that shows nothing of its own sees what its parent sees. -/
theorem sees_child {c : NodeId} (hs : p.Sees around bound id) (hc : c ∈ p.arena.children id)
    (hb : ∀ ss, p.node? id ≠ some (.block ss)) (hf : ¬p.IsFunction id) :
    p.Sees around bound c where
  mem := h.tree.child_mem hs.mem hc
  around := (h.functionsAround_child hs.mem hc hf).trans hs.around
  bound x hx := by
    rcases hs.bound x (h.shows_child_plain hs.mem hc hb hf hx) with hx | ⟨-, hf'⟩
    · exact .inl hx
    · exact absurd hf' hf
  plain _ hd := h.notMem_inputs hs.mem hf hc hd

/-- A statement sees what its block sees, and the statements before it. -/
theorem sees_statement {c : NodeId} {ss : NodeRange} {before after : List NodeId}
    (hs : p.Sees around bound id) (hn : p.node? id = some (.block ss))
    (hss : p.arena.list ss = before ++ c :: after) (hb : ∀ x, bound x → bound' x)
    (hbefore : ∀ x ∈ before, p.Binds x → bound' x) : p.Sees around bound' c := by
  have hf : ¬p.IsFunction id := by
    rintro ⟨_, _, _, _, _, hn'⟩
    rw [hn] at hn'
    cases hn'
  have hc : c ∈ p.arena.children id := by
    rw [Arena.children_eq hn, Arena.childrenOf_block, hss]
    simp
  refine ⟨h.tree.child_mem hs.mem hc, (h.functionsAround_child hs.mem hc hf).trans hs.around,
    fun x hx => ?_, fun _ hd => h.notMem_inputs hs.mem hf hc hd⟩
  rcases h.shows_statement hs.mem hn hss hx with ⟨hx, hxb⟩ | ⟨rfl, hfc⟩ | hx
  · exact .inl (hbefore x hx hxb)
  · exact .inr ⟨rfl, hfc⟩
  · rcases hs.bound x hx with hx | ⟨-, hf'⟩
    · exact .inl (hb x hx)
    · exact absurd hf' hf

/-- The root of the program is inside no function and sees nothing. -/
theorem sees_root : p.Sees [] bound p.root where
  mem := h.tree.root_mem
  around := h.functionsAround_root
  bound x hx := absurd hx (h.not_shows_root x)
  plain d hd hin := by
    have := h.tree.parent?_child hd (inputs_subset_children hin)
    rw [h.tree.top] at this
    cases this

/-- The body of a function sees its inputs, and what the function is shown. -/
theorem sees_body {d body : NodeId} {ns : NodeId} {vs is : NodeRange} {output : Option NodeId}
    (hd : d ∈ p.tree.nodes) (hn : p.node? d = some (.functionDefinition ns vs is output (some body))) :
    p.Sees (d :: p.functionsAround d) (fun x => x ∈ p.inputs d ∨ p.Shows d x) body := by
  have hf : p.IsFunction d := ⟨ns, vs, is, output, some body, hn⟩
  have hchildren : p.arena.children d =
      ns :: (p.arena.list vs ++ (p.arena.list is ++ (output.toList ++ [body]))) := by
    rw [Arena.children_eq hn, Arena.childrenOf_functionDefinition]
    rfl
  have hbody : body ∈ p.arena.children d := by rw [hchildren]; simp
  refine ⟨h.tree.child_mem hd hbody, h.functionsAround_part hd hf hbody,
    fun x hx => .inl (h.shows_part hd hf hbody hx), fun e he hin => ?_⟩
  obtain rfl := h.tree.eq_of_mem_children hd he hbody (inputs_subset_children hin)
  have hnodup := h.tree.nodup_children hd
  rw [hchildren] at hnodup
  have hin : body ∈ p.arena.list is := by simpa [inputs, inputList, hn] using hin
  -- The inputs and the body stand apart among the children.
  have hrest := (List.nodup_append.1 (List.nodup_append.1 (List.nodup_cons.1 hnodup).2).2.1)
  exact hrest.2.2 body hin body (by simp) rfl

/-- The statements of a block, each of which is compiled to covered code. -/
theorem covers_statements {ss : NodeRange} {after : List Step} (hs : p.Sees around bound id)
    (hn : p.node? id = some (.block ss))
    (each : ∀ c ∈ p.arena.list ss, ∀ {bound' : NodeId → Prop} {rest : List Step},
      p.Sees around bound' c → p.Covers around (p.With bound' c) rest →
      p.Covers around bound' (p.compile c ++ rest))
    (ha : ∀ {bound' : NodeId → Prop}, (∀ x, bound x → bound' x) → p.Covers around bound' after) :
    p.Covers around bound ((p.arena.list ss).flatMap p.compile ++ after) := by
  -- Induction on the statements that are left, with those before them bound.
  have left {cs : List NodeId} : ∀ (before : List NodeId) {bound' : NodeId → Prop},
      p.arena.list ss = before ++ cs → (∀ x, bound x → bound' x) →
      (∀ x ∈ before, p.Binds x → bound' x) →
      p.Covers around bound' (cs.flatMap p.compile ++ after) := by
    induction cs with
    | nil => exact fun _ _ _ hb _ => ha hb
    | cons c cs ih =>
      intro before bound' hss hb hbefore
      rw [List.flatMap_cons, List.append_assoc]
      refine each c (by rw [hss]; simp) (h.sees_statement hs hn hss hb hbefore) ?_
      refine ih (before ++ [c]) (by rw [hss]; simp) (fun x hx => .inl (hb x hx)) ?_
      intro x hx hxb
      rcases List.mem_append.1 hx with hx | hx
      · exact .inl (hbefore x hx hxb)
      · obtain rfl := List.mem_singleton.1 hx
        exact .inr ⟨rfl, hxb⟩
  exact left [] rfl (fun _ hx => hx) nofun

/-- **Compiled code is covered.**  The steps of a node that sees what it needs are covered
    before code that is covered where the value of the node is bound. -/
theorem covers_compile {after : List Step} (hs : p.Sees around bound id)
    (ha : p.Covers around (p.With bound id) after) :
    p.Covers around bound (p.compile id ++ after) := by
  obtain ⟨rank, hrank⟩ := h.tree.acyclic
  induction hr : rank id using Nat.strongRecOn generalizing id bound after with
  | _ n ih =>
    subst hr
    have fin {bound' : NodeId → Prop} (hb : ∀ x, bound x → bound' x) :
        p.Covers around bound' (⟨id, .finish⟩ :: after) :=
      .finish rfl (hs.mono hb) (ha.mono (With.mono hb))
    have closed {c : NodeId} (hc : c ∈ p.arena.children id) := finish_notMem_compile hrank (hrank id c hc)
    -- A child of an expression, before code that is covered already.
    have sub (hb : ∀ ss, p.node? id ≠ some (.block ss)) (hf : ¬p.IsFunction id) {c : NodeId}
        (hc : c ∈ p.arena.children id) {rest : List Step} (hrest : p.Covers around bound rest) :
        p.Covers around bound (p.compile c ++ rest) :=
      ih (rank c) (hrank id c hc) (h.sees_child hs hc hb hf) (hrest.mono fun _ => .inl) rfl
    have done := fin fun _ hx => hx
    -- What the kind of a node says about its children.
    have kind {node : Node} (hn : p.arena.node? id = some node) (hb : ∀ ss, node ≠ .block ss)
        (hf : ∀ ns vs is output body, node ≠ .functionDefinition ns vs is output body)
        {c : NodeId} (hc : c ∈ p.arena.childrenOf node) :
        ⟨id, .finish⟩ ∉ p.compile c ∧ ∀ {rest}, p.Covers around bound rest →
          p.Covers around bound (p.compile c ++ rest) := by
      rw [← Arena.children_eq hn] at hc
      refine ⟨closed hc, sub (fun ss e => ?_) ?_ hc⟩
      · rw [node?, hn] at e
        exact hb ss (Option.some.inj e)
      · rintro ⟨ns, vs, is, output, body, e⟩
        rw [node?, hn] at e
        exact hf ns vs is output body (Option.some.inj e)
    rw [compile_eq ⟨rank, hrank⟩]
    unfold Arena.compileNode
    split
    · next left op right hn =>
      obtain ⟨hl, coverLeft⟩ := kind hn (by simp) (by simp) (c := left) (by simp)
      obtain ⟨hr, coverRight⟩ := kind hn (by simp) (by simp) (c := right) (by simp)
      have call : p.Covers around bound
          (p.compile right ++ ⟨id, .startEvaluation⟩ :: ⟨id, .finish⟩ :: after) :=
        coverRight (.startEvaluation done)
      have inside : p.Covers around bound (p.compile left ++ ((if op.isShortCircuit then
          [⟨id, .jumpIf ((p.compile right).length + 1) false (op == .or)⟩] else []) ++
            (p.compile right ++ ⟨id, .startEvaluation⟩ :: ⟨id, .finish⟩ :: after))) := by
        refine coverLeft ?_
        split
        · rw [List.singleton_append]
          refine .jumpIf (by simp) call ?_
          rw [drop_past]
          exact done
        · exact call
      have := Covers.node (p.compile left ++ ((if op.isShortCircuit then
          [⟨id, .jumpIf ((p.compile right).length + 1) false (op == .or)⟩] else []) ++
            (p.compile right ++ [⟨id, .startEvaluation⟩]))) after (by simpa using inside)
            (by split <;> simp [hl, hr]) done
      simpa using this
    · next condition yes no hn =>
      obtain ⟨hc, coverCondition⟩ := kind hn (by simp) (by simp) (c := condition) (by simp)
      obtain ⟨hy, coverYes⟩ := kind hn (by simp) (by simp) (c := yes) (by simp)
      obtain ⟨hno, coverNo⟩ := kind hn (by simp) (by simp) (c := no) (by simp)
      have inside : p.Covers around bound (p.compile condition ++
          ⟨id, .jumpIf ((p.compile yes).length + 1) true false⟩ :: (p.compile yes ++
            ⟨id, .jump (p.compile no).length⟩ :: (p.compile no ++ ⟨id, .finish⟩ :: after))) := by
        refine coverCondition (.jumpIf (by simp) (coverYes (.jump (by simp) ?_)) ?_)
        · rw [List.drop_left]
          exact done
        · rw [drop_past]
          exact coverNo done
      have := Covers.node (p.compile condition ++
          (⟨id, .jumpIf ((p.compile yes).length + 1) true false⟩ :: (p.compile yes ++
            ⟨id, .jump (p.compile no).length⟩ :: p.compile no))) after (by simpa using inside)
            (by simp [hc, hy, hno]) done
      simpa using this
    · next function is hn =>
      obtain ⟨hf, coverFunction⟩ := kind hn (by simp) (by simp) (c := function) (by simp)
      have arguments {cs : List NodeId} (hcs : ∀ c ∈ cs, c ∈ p.arena.list is) :
          p.Covers around bound (cs.flatMap p.compile ++
            ⟨id, .startEvaluation⟩ :: ⟨id, .finish⟩ :: after) := by
        induction cs with
        | nil => exact .startEvaluation done
        | cons c cs ih =>
          rw [List.flatMap_cons, List.append_assoc]
          exact (kind hn (by simp) (by simp) (c := c) (by simp [hcs c])).2
            (ih fun d hd => hcs d (List.mem_cons_of_mem _ hd))
      have := Covers.node (p.compile function ++
          ((p.arena.list is).flatMap p.compile ++ [⟨id, .startEvaluation⟩])) after
            (by simpa using coverFunction (arguments fun _ hc => hc))
            (by simpa [hf] using fun c hc =>
              (kind hn (by simp) (by simp) (c := c) (by simp [hc])).1) done
      simpa using this
    · next receiver n hn =>
      obtain ⟨hc, cover⟩ := kind hn (by simp) (by simp) (c := receiver) (by simp)
      exact .node _ _ (cover done) hc done
    · next ss hn =>
      have hchildren : p.arena.children id = p.arena.list ss := by
        rw [Arena.children_eq hn, Arena.childrenOf_block]
      refine .node _ _ (h.covers_statements hs hn (fun c hc _ _ hsees hrest => ?_) fin) ?_ done
      · rw [← hchildren] at hc
        exact ih (rank c) (hrank id c hc) hsees hrest rfl
      · simpa using fun c hc => closed (hchildren ▸ hc)
    · next ns type value hn =>
      obtain ⟨hc, cover⟩ := kind hn (by simp) (by simp) (c := value) (by simp)
      exact .node _ _ (cover done) hc done
    · next borrows main hn =>
      obtain ⟨hc, cover⟩ := kind hn (by simp) (by simp) (c := main) (by simp)
      exact .node _ _ (cover done) hc done
    · exact .finish rfl hs ha

/-- The code of the program is covered. -/
theorem covers_root : p.Covers [] bound (p.compile p.root) := by
  have hroot : p.Sees [] bound p.root := h.sees_root
  have := h.covers_compile hroot .done
  rwa [List.append_nil] at this

/-- **The body of a function is covered** where its inputs are bound, and what the function
    is shown. -/
theorem covers_body {d : NodeId} (hd : d ∈ p.tree.nodes) (hf : p.IsFunction d)
    (hb : ∀ x, x ∈ p.inputs d ∨ p.Shows d x → bound x) :
    p.Covers (d :: p.functionsAround d) bound (p.compileBody d) := by
  obtain ⟨ns, vs, is, output, body, hn⟩ := hf
  unfold compileBody
  rw [hn]
  cases body with
  | none => exact .done
  | some body =>
    have := h.covers_compile ((h.sees_body hd hn).mono hb) .done
    rwa [List.append_nil] at this

end Plain

end Arbor.Program
