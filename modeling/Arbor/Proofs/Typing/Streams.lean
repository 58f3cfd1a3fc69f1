/-
  Stream dependence, and what is steady.

  A node reads a stream if it is the use of one, or if it leads to such a node: to its
  children, or to the definition that its name stands for.  A node that reads none is
  steady.  The analysis also follows the types of receivers, so it may take a steady node
  for one that reads a stream, but never the other way round.

  * `Explored use leads v v'`: of the nodes that a search has visited in between, none is in
    `use`, and everything they lead to was visited as well;
  * `Program.Pursues p G use leads S`: what is asked of a relation for the search to follow it,
    as far as the memos are in `G`;
  * `Memo.Honest p m`: the nodes that are known not to read a stream are steady.

  Main statements: `searches_searchStream`, what a search has found, or else visited, and
  `honest_dependsOnStream`; `Queried.honest`, a context knows of no node wrongly that it is
  steady.
-/
import Arbor.Proofs.Renaming.Steps
import Arbor.Proofs.Typing.Queries

namespace Arbor

/-! ## Steady nodes -/

namespace Program

variable (p : Program)

/-- The node is the use of a stream. -/
def UsesStream (x : NodeId) : Prop :=
  ∃ n s, p.node? x = some (.reference n) ∧ p.resolve n x = some (.stream s)

/-- A node leads to its children, and to the definition that its name stands for. -/
inductive LeadsTo (x : NodeId) : NodeId → Prop
  | child {y : NodeId} : y ∈ p.arena.children x → LeadsTo x y
  | name {n : Name} {d : Definition} {y : NodeId} :
      p.node? x = some (.reference n) → p.resolve n x = some d → d.node? = some y → LeadsTo x y

/-- Evaluating the node may read a stream. -/
inductive ReadsStream : NodeId → Prop
  | use {x : NodeId} : p.UsesStream x → ReadsStream x
  | lead {x y : NodeId} : p.LeadsTo x y → ReadsStream y → ReadsStream x

/-- Evaluating the node reads no stream. -/
def Steady (x : NodeId) : Prop := ¬p.ReadsStream x

variable {p} {x y : NodeId}

theorem Steady.leadsTo (h : p.Steady x) (hy : p.LeadsTo x y) : p.Steady y :=
  fun hr => h (.lead hy hr)

theorem Steady.not_usesStream (h : p.Steady x) : ¬p.UsesStream x := fun hu => h (.use hu)

/-- What reads a stream leads to the use of one. -/
theorem ReadsStream.reaches (h : p.ReadsStream x) :
    ∃ y, Relation.ReflTransGen p.LeadsTo x y ∧ p.UsesStream y := by
  induction h with
  | use hu => exact ⟨_, .refl, hu⟩
  | lead hl _ ih =>
    obtain ⟨y, hy, hu⟩ := ih
    exact ⟨y, .head hl hy, hu⟩

end Program

/-! ## Analyses that ask for no stream -/

/-- An analysis that leaves alone what is known about streams. -/
abbrev Typing.KeepsStreams {α : Type} (x : Typing α) : Prop :=
  x.Keeps fun m m' => m'.readsStream = m.readsStream

namespace Program

open Typing

variable {p : Program}

theorem compositional_keepsStreams : Compositional fun _ x => x.KeepsStreams :=
  compositional_keeps (fun _ => rfl) fun _ _ _ h h' => h'.trans h

theorem keepsStreams_typeOf (id : NodeId) : (p.typeOf id).KeepsStreams :=
  keeps_typeWithin (R := fun m m' => m'.readsStream = m.readsStream) (fun _ => rfl)
    (fun _ _ _ h h' => h'.trans h) (fun _ _ _ _ _ h => h) _ id

/-! ## The search for a stream -/

/-- Of the nodes that were visited in between, none is in `use`, and everything they lead to was
    visited. -/
structure Explored (use : NodeId → Prop) (leads : NodeId → NodeId → Prop) (v v' : NodeSet) : Prop
    where
  keeps : ∀ x, v.contains x = true → v'.contains x = true
  use : ∀ x, v'.contains x = true → v.contains x = false → ¬use x
  lead : ∀ x y, v'.contains x = true → v.contains x = false → leads x y → v'.contains y = true

section
variable {use : NodeId → Prop} {leads : NodeId → NodeId → Prop}

theorem Explored.refl (v : NodeSet) : Explored use leads v v := by
  refine ⟨fun _ hx => hx, fun x hx hn => ?_, fun x y hx hn => ?_⟩ <;>
  · rw [hx] at hn
    cases hn

theorem Explored.trans {v₁ v₂ v₃ : NodeSet} (h : Explored use leads v₁ v₂)
    (h' : Explored use leads v₂ v₃) : Explored use leads v₁ v₃ := by
  refine ⟨fun x hx => h'.keeps x (h.keeps x hx), fun x hx hn => ?_, fun x y hx hn hl => ?_⟩
  · cases h₂ : v₂.contains x with
    | true => exact h.use x h₂ hn
    | false => exact h'.use x hx h₂
  · cases h₂ : v₂.contains x with
    | true => exact h'.keeps y (h.lead x y h₂ hn hl)
    | false => exact h'.lead x y hx h₂ hl

/-- What was explored from a node, which is no use itself, and leads to what was visited. -/
theorem Explored.enter {id : NodeId} {v w : NodeSet} (hw : Explored use leads (v.insert id ()) w)
    (huse : ¬use id) (hlead : ∀ y, leads id y → w.contains y = true) :
    Explored use leads v w ∧ w.contains id = true := by
  have hold {x : NodeId} (hne : x ≠ id) (hx : v.contains x = false) :
      (v.insert id ()).contains x = false := by
    rw [contains_insert, hx, Bool.or_false, decide_eq_false_iff_not]
    exact fun e => hne e.symm
  refine ⟨⟨fun x hx => hw.keeps x (by simp [contains_insert, hx]), fun x hx hn => ?_,
    fun x y hx hn hl => ?_⟩, hw.keeps id (by simp [contains_insert])⟩
  · by_cases hxid : x = id
    · rw [hxid]
      exact huse
    · exact hw.use x hx (hold hxid hn)
  · by_cases hxid : x = id
    · exact hlead y (hxid ▸ hl)
    · exact hw.lead x y hx (hold hxid hn) hl

/-- The nodes that a search has not visited are fewer than `depth`. -/
def Deep (p : Program) (depth : Nat) (v : NodeSet) : Prop :=
  ((List.range p.arena.size).countP fun i => !v.contains ⟨i⟩) < depth

theorem deep_empty (p : Program) : p.Deep (p.arena.size + 1) .empty := by
  unfold Deep
  have := List.countP_le_length (p := fun i => !(NodeMap.empty : NodeSet).contains ⟨i⟩)
    (l := List.range p.arena.size)
  rw [List.length_range] at this
  omega

theorem Deep.explored {depth : Nat} {v v' : NodeSet} (h : p.Deep depth v)
    (hv : Explored use leads v v') : p.Deep depth v' := by
  refine Nat.lt_of_le_of_lt (List.countP_mono_left fun i _ hi => ?_) h
  rw [Bool.not_eq_true'] at hi ⊢
  by_contra hne
  rw [Bool.not_eq_false] at hne
  rw [hv.keeps _ hne] at hi
  cases hi

end

theorem Deep.insert {depth : Nat} {v : NodeSet} {id : NodeId} {n : Node}
    (h : p.Deep (depth + 1) v) (hid : v.contains id = false) (hn : p.node? id = some n) :
    p.Deep depth (v.insert id ()) := by
  have hlt : id.raw < p.arena.size := (Array.getElem?_eq_some_iff.1 hn).1
  have hfewer := Arena.countP_lt_countP (p := fun i => !(v.insert id ()).contains ⟨i⟩)
    (q := fun i => !v.contains ⟨i⟩) (List.mem_range.2 hlt) (by simp [contains_insert])
    (by simp [hid]) fun i hi => by
      rw [contains_insert] at hi
      simp only [Bool.not_or, Bool.and_eq_true] at hi
      exact hi.2
  unfold Deep at h ⊢
  omega

/-- What leads anywhere is a node of the arena. -/
theorem exists_node_of_lead {id : NodeId} {m : Memo}
    (h : p.arena.children id ≠ [] ∨ ∃ y, (p.lead id m).1 = .node y) :
    ∃ n, p.node? id = some n := by
  cases hn : p.node? id with
  | some n => exact ⟨n, rfl⟩
  | none =>
    exfalso
    rcases h with h | ⟨y, hy⟩
    · refine h ?_
      unfold Arena.children
      rw [show p.arena.node? id = none from hn]
    · unfold lead at hy
      rw [hn] at hy
      cases hy

/-- If the search leaves a memo in `G`, then `F` holds if it has found a stream, and `Q` of what
    it has visited if it has not. -/
def Searches (G : Memo → Prop) (F : Prop) (x : Search Bool) (v : NodeSet) (Q : NodeSet → Prop) :
    Prop :=
  ∀ m : Memo, G (x.run v m).2 →
    ((x.run v m).1.1 = true → F) ∧ ((x.run v m).1.1 = false → Q (x.run v m).1.2)

/-- The analysis pursues `use` and `leads`, as far as it leaves a memo in `G`: it leads to all that
    they lead to.  And `S` is true of every node that it leads from, to a stream or to a node of
    which `S` is true. -/
structure Pursues (p : Program) (G : Memo → Prop) (use : NodeId → Prop)
    (leads : NodeId → NodeId → Prop) (S : NodeId → Prop) : Prop where
  back : ∀ {m m'}, m.Grows m' → G m' → G m
  use : ∀ {x m}, G (p.lead x m).2 → use x → (p.lead x m).1 = .stream
  leads : ∀ {x y m}, G (p.lead x m).2 → leads x y →
    y ∈ p.arena.children x ∨ (p.lead x m).1 = .node y
  stream : ∀ {x m}, G (p.lead x m).2 → (p.lead x m).1 = .stream → S x
  node : ∀ {x y m}, G (p.lead x m).2 → (p.lead x m).1 = .node y → S y → S x
  child : ∀ {x y}, y ∈ p.arena.children x → S y → S x

section
variable {G : Memo → Prop} {use S : NodeId → Prop} {leads : NodeId → NodeId → Prop} {F F' : Prop}
  {v : NodeSet} {Q Q' : NodeSet → Prop} {search : NodeId → Search Bool}

theorem searches_found (hF : F) : Searches G F (pure true) v Q := fun _ _ => ⟨fun _ => hF, nofun⟩

theorem Searches.mono {x : Search Bool} (hx : Searches G F x v Q) (hF : F → F')
    (h : ∀ v', Q v' → Q' v') : Searches G F' x v Q' :=
  fun m hm => ⟨fun hb => hF ((hx m hm).1 hb), fun hb => h _ ((hx m hm).2 hb)⟩

/-- A search goes on where another one has found nothing. -/
theorem Searches.orElse {x y : Search Bool} (hback : ∀ {m m'}, m.Grows m' → G m' → G m)
    (hx : Searches G F x v Q) (hgrows : ∀ v', Typing.Keeps Memo.Grows (y.run v'))
    (hy : ∀ v', Q v' → Searches G F y v' Q') :
    Searches G F (do if ← x then return true else y) v Q' := by
  intro m
  have hrun : (do if ← x then return true else y : Search Bool).run v m =
      (if (x.run v m).1.1 then pure true else y : Search Bool).run (x.run v m).1.2
        (x.run v m).2 := rfl
  rw [hrun]
  cases hb : (x.run v m).1.1 with
  | true => exact fun hm => ⟨fun _ => (hx m hm).1 hb, nofun⟩
  | false =>
    intro hm
    -- What the first search leaves is in `G`, since the second one adds to it.
    have hq := (hx m (hback (hgrows _ _) hm)).2 hb
    exact hy _ hq _ hm

theorem searches_searchAny {ids : List NodeId} (hback : ∀ {m m'}, m.Grows m' → G m' → G m)
    (hgrows : ∀ c v', Typing.Keeps Memo.Grows ((search c).run v'))
    (h : ∀ c ∈ ids, ∀ v', Explored use leads v v' →
      Searches G F (search c) v' fun v'' => Explored use leads v' v'' ∧ v''.contains c = true) :
    Searches G F (searchAny search ids) v
      fun v' => Explored use leads v v' ∧ ∀ c ∈ ids, v'.contains c = true := by
  induction ids generalizing v with
  | nil => exact fun m _ => ⟨nofun, fun _ => ⟨.refl v, nofun⟩⟩
  | cons c ids ih =>
    unfold searchAny
    refine (h c List.mem_cons_self v (.refl v)).orElse hback
      (compositional_grows.searchAny hgrows ids) fun v' hv' => ?_
    refine (ih fun d hd w hw => h d (List.mem_cons_of_mem _ hd) w (hv'.1.trans hw)).mono id ?_
    rintro w ⟨hw, hids⟩
    refine ⟨hv'.1.trans hw, fun d hd => ?_⟩
    rcases List.mem_cons.1 hd with rfl | hd
    · exact hw.keeps d hv'.2
    · exact hids d hd

/-- **A search** from a node finds a stream only if `S` is true of it.  If it finds none, it has
    visited only nodes that are no use, with everything they lead to. -/
theorem searches_searchStream (h : p.Pursues G use leads S) {depth : Nat} {id : NodeId}
    (hdeep : p.Deep depth v) : Searches G (S id) (p.searchStream depth id) v
      fun v' => Explored use leads v v' ∧ v'.contains id = true := by
  induction depth generalizing id v with
  | zero => exact absurd hdeep (Nat.not_lt_zero _)
  | succ depth ih =>
    intro m
    cases hid : v.contains id with
    | true =>
      rw [searchStream_visited hid]
      exact fun _ => ⟨nofun, fun _ => ⟨.refl v, hid⟩⟩
    | false =>
      rw [searchStream_enter hid]
      have hdeep' (hne : p.arena.children id ≠ [] ∨ ∃ y, (p.lead id m).1 = .node y) :
          p.Deep depth (v.insert id ()) := by
        obtain ⟨n, hn⟩ := exists_node_of_lead hne
        exact hdeep.insert hid hn
      have hgrows (c : NodeId) (w : NodeSet) :
          Typing.Keeps Memo.Grows ((p.searchStream depth c).run w) :=
        compositional_grows.searchStream grows_typeOf depth c w
      have children {w : NodeSet} (hw : Explored use leads (v.insert id ()) w) :
          Searches G (S id) (searchAny (p.searchStream depth) (p.arena.children id)) w fun w' =>
            Explored use leads w w' ∧ ∀ c ∈ p.arena.children id, w'.contains c = true :=
        searches_searchAny h.back hgrows fun c hc w' hw' =>
          (ih ((hdeep' (.inl (List.ne_nil_of_mem hc))).explored (hw.trans hw'))).mono (h.child hc)
            fun _ hq => hq
      have hon (hm : G (p.lead id m).2) :
          Searches G (S id) (searchOn (p.searchStream depth) (p.arena.children id) (p.lead id m).1)
            (v.insert id ()) fun w => Explored use leads v w ∧ w.contains id = true := by
        have huse (hl : (p.lead id m).1 ≠ .stream) : ¬use id := fun hu => hl (h.use hm hu)
        have hto (y : NodeId) (hy : leads id y) := h.leads hm hy
        have hfrom := h.stream hm
        have hnode (y : NodeId) := h.node hm (y := y)
        generalize (p.lead id m).1 = l at hdeep' huse hto hfrom hnode
        cases l with
        | stream => exact searches_found (hfrom rfl)
        | nowhere =>
          refine (children (.refl _)).mono (fun hS => hS) fun w hw =>
            hw.1.enter (huse nofun) fun y hy => ?_
          rcases hto y hy with hy | hy
          · exact hw.2 y hy
          · cases hy
        | node z =>
          have hthrough := (@ih _ z (hdeep' (.inr ⟨z, rfl⟩))).mono (hnode z rfl) fun _ hq => hq
          refine hthrough.orElse h.back (compositional_grows.searchAny hgrows _) fun w hw => ?_
          refine (children hw.1).mono (fun hS => hS) fun w' hw' => ?_
          refine (hw.1.trans hw'.1).enter (huse nofun) fun y hy => ?_
          rcases hto y hy with hy | hy
          · exact hw'.2 y hy
          · cases hy
            exact hw'.1.keeps _ hw.2
      intro hm
      exact hon (h.back (compositional_grows.searchOn hgrows _ _ _ _) hm) _ hm

/-- What the search for a stream tells about a node. -/
theorem tells_searchStream (h : p.Pursues G use leads S) {id : NodeId} {m : Memo}
    (hm : G ((p.searchStream (p.arena.size + 1) id).run .empty m).2) :
    (((p.searchStream (p.arena.size + 1) id).run .empty m).1.1 = true → S id) ∧
      (((p.searchStream (p.arena.size + 1) id).run .empty m).1.1 = false →
        ∀ y, Relation.ReflTransGen leads id y → ¬use y) := by
  obtain ⟨hfound, hexplored⟩ := searches_searchStream h p.deep_empty m hm
  refine ⟨hfound, fun hb y hy => ?_⟩
  obtain ⟨hv, hid⟩ := hexplored hb
  -- What a search from nothing has visited is closed under leading on.
  suffices hvisited :
      ((p.searchStream (p.arena.size + 1) id).run .empty m).1.2.contains y = true from
    hv.use y hvisited rfl
  induction hy with
  | refl => exact hid
  | tail _ hl ih => exact hv.lead _ _ ih rfl hl

end

/-! ## Where the analysis leads -/

/-- Where the use of a name leads. -/
theorem lead_of_reference {id : NodeId} {n : Name} (hn : p.node? id = some (.reference n)) :
    p.lead id = pure (leadOfDefinition (p.resolve n id)) := by
  unfold lead
  rw [hn]

theorem lead_of_usesStream {id : NodeId} (h : p.UsesStream id) (m : Memo) :
    (p.lead id m).1 = .stream := by
  obtain ⟨n, s, hn, hs⟩ := h
  rw [lead_of_reference hn, hs]
  rfl

/-- A node leads to its children and to where the analysis says. -/
theorem LeadsTo.lead {x y : NodeId} (h : p.LeadsTo x y) (m : Memo) :
    y ∈ p.arena.children x ∨ (p.lead x m).1 = .node y := by
  cases h with
  | child hy => exact .inl hy
  | @name n d y hn hd hy =>
    right
    rw [lead_of_reference hn, hd]
    show d.node?.elim Lead.stream Lead.node = _
    rw [hy]
    rfl

/-- Whatever is known, the analysis leads to where names do. -/
theorem pursues_leadsTo (p : Program) :
    p.Pursues (fun _ => True) p.UsesStream p.LeadsTo fun _ => True where
  back _ _ := trivial
  use _ hu := lead_of_usesStream hu _
  leads _ hl := hl.lead _
  stream _ _ := trivial
  node _ _ _ := trivial
  child _ _ := trivial

/-! ## What is known about streams -/

end Program

/-- The nodes that are known not to read a stream are steady. -/
def Memo.Honest (p : Program) (m : Memo) : Prop :=
  ∀ x, m.readsStream.get? x = some false → p.Steady x

namespace Program

variable {p : Program}

theorem honest_empty (p : Program) : Memo.empty.Honest p := by
  intro x hx
  cases hx

theorem honest_of_keepsStreams {α : Type} {x : Typing α} (hx : x.KeepsStreams) {m : Memo}
    (hm : m.Honest p) : (x m).2.Honest p := by
  unfold Memo.Honest
  rw [hx m]
  exact hm

/-- **Stream dependence is honest.**  What is found not to read a stream is steady, and the
    memo stays honest. -/
theorem honest_dependsOnStream {m : Memo} (hm : m.Honest p) (id : NodeId) :
    ((p.dependsOnStream id m).1 = false → p.Steady id) ∧ (p.dependsOnStream id m).2.Honest p := by
  cases hknown : m.readsStream.get? id with
  | some b =>
    rw [dependsOnStream_known hknown]
    refine ⟨fun hb => hm id ?_, hm⟩
    cases hb
    exact hknown
  | none =>
    rw [dependsOnStream_search hknown]
    have hkept := compositional_keepsStreams.searchStream (p := p) keepsStreams_typeOf
      (p.arena.size + 1) id .empty m
    dsimp only
    have hsteady (hb : ((p.searchStream (p.arena.size + 1) id).run .empty m).1.1 = false) :
        p.Steady id := by
      intro hreads
      obtain ⟨y, hy, hu⟩ := hreads.reaches
      exact (tells_searchStream p.pursues_leadsTo trivial).2 hb y hy hu
    refine ⟨hsteady, fun x hx => ?_⟩
    simp only [Memo.noteStream, NodeMap.get?_insert] at hx
    split at hx
    · next e =>
      subst e
      exact hsteady (Option.some.inj hx)
    · rw [hkept] at hx
      exact hm x hx

/-- **Contexts are honest**: whatever was asked before, what is known not to read a stream is
    steady. -/
theorem Queried.honest {m : Memo} (h : p.Queried m) : m.Honest p := by
  have hkeeps := Typing.compositional_keeps (R := fun m m' => m.Honest p → m'.Honest p)
    (fun _ hm => hm) fun _ _ _ h h' hm => h' (h hm)
  induction h with
  | fresh => exact honest_empty p
  | next _ q ih =>
    exact hkeeps.ask (fun id m hm => honest_of_keepsStreams (keepsStreams_typeOf id) hm) q
      (fun id _ m hm => (honest_dependsOnStream hm id).2) _ ih

end Program

end Arbor
