/-
  Typing rules.

  The rules give the types of the nodes of programs without structures: each rule says
  what type a node has, given the types of its parts and of what its names stand for.  A
  function has a type only if its body has one, so the rules are iterated: `HasTypeIn n`
  is what can be told by rules inside each other at most `n` deep.

  * `Ty.Known`: a type that is primitive, a function, or a union of such types;
  * `Rule`, `HasTypeIn` and `HasType`: the rules, and the types that they give.

  Main statements: `hasType_iff`, the types are what the rules make of the types;
  `HasType.unique`, a node has at most one; `HasType.known`, which is known, with functions
  that have types or are primitive methods.
-/
import Arbor.Proofs.Program.Methods
import Arbor.Typing.Acceptance
import Arbor.Machine.Call

namespace Arbor

/-! ## Known types -/

namespace Ty

/-- The type is primitive, or a function that is callable. -/
def Simple (Callable : NodeId → Prop) : Ty → Prop
  | primitive _ => True
  | function f => Callable f
  | _ => False

/-- The type is simple, or a union of simple types. -/
def Known (Callable : NodeId → Prop) (t : Ty) : Prop := ∀ a ∈ t.parts, a.Simple Callable

/-- All values of the type are of the primitive type `q`. -/
def Within (q : Primitive) (t : Ty) : Prop := ∀ a ∈ t.parts, a = primitive q

variable {Callable : NodeId → Prop} {t u : Ty}

theorem within_primitive (q : Primitive) : (primitive q).Within q := by
  intro a ha
  exact List.mem_singleton.1 ha

theorem known_primitive (q : Primitive) : (primitive q).Known Callable := by
  intro a ha
  obtain rfl := List.mem_singleton.1 ha
  exact trivial

theorem known_function {f : NodeId} (h : Callable f) : (function f).Known Callable := by
  intro a ha
  obtain rfl := List.mem_singleton.1 ha
  exact h

theorem Simple.parts_eq {a : Ty} (h : a.Simple Callable) : a.parts = [a] := by
  cases a with
  | primitive | function => rfl
  | _ => exact absurd h id

theorem mem_addNew {a : Ty} {new : List Ty} : ∀ {members : List Ty},
    a ∈ addNew members new ↔ a ∈ members ∨ a ∈ new := by
  unfold addNew
  induction new with
  | nil => simp
  | cons b new ih =>
    intro members
    rw [List.foldl_cons, ih, List.mem_cons]
    split
    · next hb =>
      constructor
      · rintro (h | h)
        · exact .inl h
        · exact .inr (.inr h)
      · rintro (h | rfl | h)
        · exact .inl h
        · exact .inl hb
        · exact .inr h
    · rw [List.mem_append, List.mem_singleton, or_assoc]

/-- What covers two known types has their parts. -/
theorem mem_parts_cover (ht : t.Known Callable) (hu : u.Known Callable) {a : Ty} :
    a ∈ (cover t u).parts ↔ a ∈ t.parts ∨ a ∈ u.parts := by
  have hmem (b : Ty) : b ∈ addNew (addNew [] t.parts) u.parts ↔ b ∈ t.parts ∨ b ∈ u.parts := by
    rw [mem_addNew, mem_addNew]
    simp
  rw [← hmem]
  unfold cover
  split
  · next b hb =>
    have hsimple : b.Simple Callable := by
      rcases (hmem b).1 (by rw [hb]; exact List.mem_singleton_self b) with h | h
      · exact ht b h
      · exact hu b h
    rw [hb, hsimple.parts_eq]
  · rfl

/-- The type of a choice between known types has their parts. -/
theorem mem_parts_join (ht : t.Known Callable) (hu : u.Known Callable) {a : Ty} :
    a ∈ (join t u).parts ↔ a ∈ t.parts ∨ a ∈ u.parts := by
  unfold join
  split
  · next h => rw [h, or_self]
  · have never {b : Ty} (hb : b = never) : ¬b.Known Callable := by
      rintro h
      subst hb
      exact h never (List.mem_singleton_self _)
    have unknown {b : Ty} (hb : b = unknown) : ¬b.Known Callable := by
      rintro h
      subst hb
      exact h unknown (List.mem_singleton_self _)
    split
    · exact absurd ht (never rfl)
    · exact absurd hu (never rfl)
    · exact absurd ht (unknown rfl)
    · exact absurd hu (unknown rfl)
    · exact mem_parts_cover ht hu

theorem Known.join (ht : t.Known Callable) (hu : u.Known Callable) :
    (t.join u).Known Callable := by
  intro a ha
  rcases (mem_parts_join ht hu).1 ha with h | h
  · exact ht a h
  · exact hu a h

/-- A known type is not the unknown one. -/
theorem Known.ne_unknown (ht : t.Known Callable) : t ≠ .unknown := by
  rintro rfl
  exact ht .unknown (List.mem_singleton_self _)

theorem Known.mono {Callable' : NodeId → Prop} (h : ∀ f, Callable f → Callable' f)
    (ht : t.Known Callable) : t.Known Callable' := by
  intro a ha
  have := ht a ha
  cases a with
  | primitive q => exact trivial
  | function f => exact h f this
  | _ => exact absurd this id

end Ty

namespace Program

variable (p : Program)

/-! ## The rules -/

/-- The function is a method of a primitive type. -/
def IsMethod (f : NodeId) : Prop := ∃ q n, p.basis.function? q n = some f

section
variable (sub : NodeId → Ty → Prop)

/-- The node is an input that is declared with a primitive type, without a default or with
    a literal one. -/
def Takes (input : NodeId) (q : Primitive) : Prop :=
  (∃ ns type value, p.node? input = some (.bind ns (some type) value) ∧
    ∀ v, value = some v → (p.literal? v).isSome) ∧ sub input (.primitive q)

/-- Inputs are given arguments that they accept, or else have defaults. -/
def Given : List NodeId → List NodeId → Prop
  | [], [] => True
  | [], _ :: _ => False
  | input :: inputs, argument :: arguments =>
    (∃ q t, p.Takes sub input q ∧ sub argument t ∧ t.Within q) ∧ Given inputs arguments
  | input :: inputs, [] =>
    (∃ q v, p.Takes sub input q ∧ p.defaultValue? input = some v ∧ v.primitive? = some q) ∧
      Given inputs []

/-- A call of the function gives values of the type: that of the body, or what the method
    declares. -/
def Returns (f : NodeId) (t : Ty) : Prop :=
  match p.node? f with
  | some (.functionDefinition _ _ _ none (some body)) => sub body t
  | some (.functionDefinition _ _ _ (some output) _) =>
    p.IsMethod f ∧ ∃ q, p.typeGiven output = .primitive q ∧ t = .primitive q
  | _ => False

/-- The typing rule of each kind of node. -/
def Rule (id : NodeId) (t : Ty) : Prop :=
  match p.node? id with
  | some (.booleanLiteral _) => t = .primitive .boolean
  | some (.numberLiteral _) => t = .primitive .number
  | some (.textLiteral _) => t = .primitive .text
  | some (.reference n) =>
    match p.resolve n id with
    | some (.bind b) => sub b t
    | some (.function f) => t = .function f ∧ sub f t ∧ f ∉ p.tree.ancestors id
    | _ => False
  | some (.propertyReference receiver n) =>
    ∃ q f, sub receiver (.primitive q) ∧ p.basis.function? q n = some f ∧ t = .function f
  | some (.binaryOperation left op right) =>
    ∃ q f, sub left (.primitive q) ∧ p.basis.function? q op = some f ∧
      p.Given sub (p.inputs f) [right] ∧ p.Returns sub f t
  | some (.conditional condition yes no) =>
    ∃ c u v, sub condition c ∧ c.Within .boolean ∧ sub yes u ∧ sub no v ∧ t = u.join v
  | some (.evaluate function is) =>
    ∃ f, sub function (.function f) ∧ p.Given sub (p.inputs f) (p.arena.list is) ∧
      p.Returns sub f t
  | some (.block ss) =>
    (∀ s ∈ p.arena.list ss, ∃ u, sub s u) ∧
      ∃ last, (p.arena.list ss).getLast? = some last ∧ sub last t
  | some (.bind _ (some type) value) =>
    ∃ q, p.typeGiven type = .primitive q ∧ t = .primitive q ∧
      ∀ v, value = some v → ∃ u, sub v u ∧ u.Within q
  | some (.bind _ none (some value)) => sub value t
  | some (.functionDefinition _ vs is none (some body)) =>
    t = .function id ∧ p.arena.list vs = [] ∧
      (∀ i ∈ p.arena.list is, ∃ q, p.Takes sub i q) ∧ ∃ u, sub body u
  | some (.program _ main) => sub main t
  | _ => False

end

/-- The node has the type by rules inside each other at most so deep. -/
def HasTypeIn : Nat → NodeId → Ty → Prop
  | 0, _, _ => False
  | n + 1, id, t => p.Rule (HasTypeIn n) id t

/-- The node has the type. -/
def HasType (id : NodeId) (t : Ty) : Prop := ∃ n, p.HasTypeIn n id t

/-! ## More types of the parts -/

section
variable {p}
variable {sub sub' : NodeId → Ty → Prop}

theorem Takes.mono (h : ∀ id t, sub id t → sub' id t) {input : NodeId} {q : Primitive}
    (ht : p.Takes sub input q) : p.Takes sub' input q := ⟨ht.1, h _ _ ht.2⟩

theorem Given.mono (h : ∀ id t, sub id t → sub' id t) : ∀ {inputs arguments : List NodeId},
    p.Given sub inputs arguments → p.Given sub' inputs arguments
  | [], [], _ => trivial
  | _ :: _, _ :: _, ⟨⟨q, t, hi, ha, ht⟩, hrest⟩ =>
    ⟨⟨q, t, hi.mono h, h _ _ ha, ht⟩, Given.mono h hrest⟩
  | _ :: _, [], ⟨⟨q, v, hi, hv⟩, hrest⟩ => ⟨⟨q, v, hi.mono h, hv⟩, Given.mono h hrest⟩

theorem Returns.mono (h : ∀ id t, sub id t → sub' id t) {f : NodeId} {t : Ty}
    (hr : p.Returns sub f t) : p.Returns sub' f t := by
  unfold Returns at hr ⊢
  split
  · next hf => rw [hf] at hr; exact h _ _ hr
  · next hf => rw [hf] at hr; exact hr
  · next h₁ h₂ =>
    split at hr
    · next hf => exact absurd hf (h₁ _ _ _ _)
    · next hf => exact absurd hf (h₂ _ _ _ _ _)
    · exact hr

/-- The rules give more types when the parts have more. -/
theorem Rule.mono (h : ∀ id t, sub id t → sub' id t) {id : NodeId} {t : Ty}
    (hr : p.Rule sub id t) : p.Rule sub' id t := by
  unfold Rule at hr ⊢
  split at hr
  · exact hr
  · exact hr
  · exact hr
  · split at hr
    · exact h _ _ hr
    · exact ⟨hr.1, h _ _ hr.2.1, hr.2.2⟩
    · exact hr
  · obtain ⟨q, f, hq, hf⟩ := hr
    exact ⟨q, f, h _ _ hq, hf⟩
  · obtain ⟨q, f, hq, hf, hg, ht⟩ := hr
    exact ⟨q, f, h _ _ hq, hf, hg.mono h, ht.mono h⟩
  · obtain ⟨c, u, v, hc, hb, hu, hv, ht⟩ := hr
    exact ⟨c, u, v, h _ _ hc, hb, h _ _ hu, h _ _ hv, ht⟩
  · obtain ⟨f, hf, hg, ht⟩ := hr
    exact ⟨f, h _ _ hf, hg.mono h, ht.mono h⟩
  · obtain ⟨hs, last, hl, ht⟩ := hr
    refine ⟨fun s hm => ?_, last, hl, h _ _ ht⟩
    obtain ⟨u, hu⟩ := hs s hm
    exact ⟨u, h _ _ hu⟩
  · obtain ⟨q, hq, ht, hv⟩ := hr
    refine ⟨q, hq, ht, fun v hm => ?_⟩
    obtain ⟨u, hu, hw⟩ := hv v hm
    exact ⟨u, h _ _ hu, hw⟩
  · exact h _ _ hr
  · obtain ⟨ht, hvs, his, u, hu⟩ := hr
    refine ⟨ht, hvs, fun i hi => ?_, u, h _ _ hu⟩
    obtain ⟨q, hq⟩ := his i hi
    exact ⟨q, hq.mono h⟩
  · exact h _ _ hr
  · exact hr

theorem HasTypeIn.succ {n : Nat} : ∀ {id : NodeId} {t : Ty}, p.HasTypeIn n id t →
    p.HasTypeIn (n + 1) id t := by
  induction n with
  | zero => intro _ _ h; exact absurd h id
  | succ n ih => intro id t h; exact Rule.mono (fun _ _ => ih) h

theorem HasTypeIn.le {n m : Nat} (hnm : n ≤ m) {id : NodeId} {t : Ty} (h : p.HasTypeIn n id t) :
    p.HasTypeIn m id t := by
  induction hnm with
  | refl => exact h
  | step _ ih => exact ih.succ

theorem HasTypeIn.hasType {n : Nat} {id : NodeId} {t : Ty} (h : p.HasTypeIn n id t) :
    p.HasType id t := ⟨n, h⟩

/-! ## Types by rules -/

/-- What holds of each item of a list at some depth holds of all of them at one. -/
theorem exists_depth {P : Nat → NodeId → Prop} (hP : ∀ {n m id}, n ≤ m → P n id → P m id)
    {ids : List NodeId} (h : ∀ id ∈ ids, ∃ n, P n id) : ∃ n, ∀ id ∈ ids, P n id := by
  induction ids with
  | nil => exact ⟨0, fun id hid => by cases hid⟩
  | cons a ids ih =>
    obtain ⟨n, hn⟩ := h a List.mem_cons_self
    obtain ⟨m, hm⟩ := ih fun id hid => h id (List.mem_cons_of_mem _ hid)
    refine ⟨max n m, fun id hid => ?_⟩
    rcases List.mem_cons.1 hid with rfl | hid
    · exact hP (Nat.le_max_left n m) hn
    · exact hP (Nat.le_max_right n m) (hm id hid)

theorem Given.exists_depth : ∀ {inputs arguments : List NodeId},
    p.Given p.HasType inputs arguments → ∃ n, p.Given (p.HasTypeIn n) inputs arguments
  | [], [], _ => ⟨0, trivial⟩
  | _ :: _, _ :: _, ⟨⟨q, t, ⟨hb, k, hi⟩, ⟨l, ha⟩, ht⟩, hrest⟩ => by
    obtain ⟨m, hm⟩ := Given.exists_depth hrest
    refine ⟨max (max k l) m, ⟨q, t, ⟨hb, hi.le (by omega)⟩, ha.le (by omega), ht⟩, ?_⟩
    exact hm.mono fun _ _ => HasTypeIn.le (by omega)
  | _ :: _, [], ⟨⟨q, v, ⟨hb, k, hi⟩, hv⟩, hrest⟩ => by
    obtain ⟨m, hm⟩ := Given.exists_depth hrest
    refine ⟨max k m, ⟨q, v, ⟨hb, hi.le (by omega)⟩, hv⟩, ?_⟩
    exact hm.mono fun _ _ => HasTypeIn.le (by omega)

theorem Returns.exists_depth {f : NodeId} {t : Ty} (h : p.Returns p.HasType f t) :
    ∃ n, p.Returns (p.HasTypeIn n) f t := by
  unfold Returns at h ⊢
  split at h
  · exact h
  · exact ⟨0, h⟩
  · exact absurd h id

/-- What the rules make of the types is told at some depth. -/
theorem Rule.exists_depth {id : NodeId} {t : Ty} (h : p.Rule p.HasType id t) :
    ∃ n, p.Rule (p.HasTypeIn n) id t := by
  unfold Rule at h ⊢
  split at h
  · exact ⟨0, h⟩
  · exact ⟨0, h⟩
  · exact ⟨0, h⟩
  · split at h
    · exact h
    · obtain ⟨ht, ⟨n, hn⟩, hf⟩ := h
      exact ⟨n, ht, hn, hf⟩
    · exact h.elim
  · obtain ⟨q, f, ⟨n, hn⟩, hf⟩ := h
    exact ⟨n, q, f, hn, hf⟩
  · obtain ⟨q, f, ⟨n, hn⟩, hf, hg, ht⟩ := h
    obtain ⟨m, hm⟩ := hg.exists_depth
    obtain ⟨k, hk⟩ := ht.exists_depth
    exact ⟨max n (max m k), q, f, hn.le (by omega), hf,
      hm.mono fun _ _ => HasTypeIn.le (by omega), hk.mono fun _ _ => HasTypeIn.le (by omega)⟩
  · obtain ⟨c, u, v, ⟨n, hn⟩, hb, ⟨m, hm⟩, ⟨k, hk⟩, ht⟩ := h
    exact ⟨max n (max m k), c, u, v, hn.le (by omega), hb, hm.le (by omega), hk.le (by omega), ht⟩
  · obtain ⟨f, ⟨n, hn⟩, hg, ht⟩ := h
    obtain ⟨m, hm⟩ := hg.exists_depth
    obtain ⟨k, hk⟩ := ht.exists_depth
    exact ⟨max n (max m k), f, hn.le (by omega), hm.mono fun _ _ => HasTypeIn.le (by omega),
      hk.mono fun _ _ => HasTypeIn.le (by omega)⟩
  · obtain ⟨hs, last, hl, ⟨n, hn⟩⟩ := h
    obtain ⟨m, hm⟩ := Program.exists_depth (P := fun n s => ∃ u, p.HasTypeIn n s u)
      (fun hle ⟨u, hu⟩ => ⟨u, hu.le hle⟩) fun s hs' => by
        obtain ⟨u, k, hk⟩ := hs s hs'
        exact ⟨k, u, hk⟩
    refine ⟨max n m, fun s hs' => ?_, last, hl, hn.le (by omega)⟩
    obtain ⟨u, hu⟩ := hm s hs'
    exact ⟨u, hu.le (by omega)⟩
  · obtain ⟨q, hq, ht, hv⟩ := h
    next value _ =>
    cases value with
    | none => exact ⟨0, q, hq, ht, fun v hm => by cases hm⟩
    | some value =>
      obtain ⟨u, ⟨n, hn⟩, hw⟩ := hv value rfl
      refine ⟨n, q, hq, ht, fun v hm => ?_⟩
      cases hm
      exact ⟨u, hn, hw⟩
  · exact h
  · obtain ⟨ht, hvs, his, u, ⟨n, hn⟩⟩ := h
    obtain ⟨m, hm⟩ := Program.exists_depth (P := fun n i => ∃ q, p.Takes (p.HasTypeIn n) i q)
      (fun hle ⟨q, hq⟩ => ⟨q, hq.mono fun _ _ => HasTypeIn.le hle⟩) fun i hi => by
        obtain ⟨q, hb, k, hk⟩ := his i hi
        exact ⟨k, q, hb, hk⟩
    refine ⟨max n m, ht, hvs, fun i hi => ?_, u, hn.le (by omega)⟩
    obtain ⟨q, hq⟩ := hm i hi
    exact ⟨q, hq.mono fun _ _ => HasTypeIn.le (by omega)⟩
  · exact h
  · exact h.elim

/-- **The types are what the rules make of the types.** -/
theorem hasType_iff {id : NodeId} {t : Ty} : p.HasType id t ↔ p.Rule p.HasType id t := by
  constructor
  · rintro ⟨n, hn⟩
    cases n with
    | zero => exact hn.elim
    | succ n => exact Rule.mono (fun _ _ h => ⟨n, h⟩) hn
  · intro h
    obtain ⟨n, hn⟩ := h.exists_depth
    exact ⟨n + 1, hn⟩

/-! ## One type, and a known one -/

theorem Returns.unique (h : ∀ id t u, sub id t → sub' id u → t = u) {f : NodeId} {t u : Ty}
    (ht : p.Returns sub f t) (hu : p.Returns sub' f u) : t = u := by
  unfold Returns at ht hu
  split at ht
  · next hf => rw [hf] at hu; exact h _ _ _ ht hu
  · next hf =>
    rw [hf] at hu
    obtain ⟨-, q, hq, rfl⟩ := ht
    obtain ⟨-, r, hr, rfl⟩ := hu
    rw [← hq, ← hr]
  · exact ht.elim

theorem Rule.unique (h : ∀ id t u, sub id t → sub' id u → t = u) {id : NodeId} {t u : Ty}
    (ht : p.Rule sub id t) (hu : p.Rule sub' id u) : t = u := by
  unfold Rule at ht hu
  split at ht
  · next hn => rw [hn] at hu; exact ht.trans hu.symm
  · next hn => rw [hn] at hu; exact ht.trans hu.symm
  · next hn => rw [hn] at hu; exact ht.trans hu.symm
  · next hn =>
    rw [hn] at hu
    split at ht
    · next hd => simp only [hd] at hu; exact h _ _ _ ht hu
    · next hd => simp only [hd] at hu; exact ht.1.trans hu.1.symm
    · exact ht.elim
  · next hn =>
    rw [hn] at hu
    obtain ⟨q, f, hq, hf, rfl⟩ := ht
    obtain ⟨q', f', hq', hf', rfl⟩ := hu
    cases h _ _ _ hq hq'
    rw [hf] at hf'
    cases hf'
    rfl
  · next hn =>
    rw [hn] at hu
    obtain ⟨q, f, hq, hf, -, hr⟩ := ht
    obtain ⟨q', f', hq', hf', -, hr'⟩ := hu
    cases h _ _ _ hq hq'
    rw [hf] at hf'
    cases hf'
    exact hr.unique h hr'
  · next hn =>
    rw [hn] at hu
    obtain ⟨-, v, w, -, -, hv, hw, rfl⟩ := ht
    obtain ⟨-, v', w', -, -, hv', hw', rfl⟩ := hu
    rw [h _ _ _ hv hv', h _ _ _ hw hw']
  · next hn =>
    rw [hn] at hu
    obtain ⟨f, hf, -, hr⟩ := ht
    obtain ⟨f', hf', -, hr'⟩ := hu
    cases h _ _ _ hf hf'
    exact hr.unique h hr'
  · next hn =>
    rw [hn] at hu
    obtain ⟨-, last, hl, hv⟩ := ht
    obtain ⟨-, last', hl', hv'⟩ := hu
    rw [hl] at hl'
    cases hl'
    exact h _ _ _ hv hv'
  · next hn =>
    rw [hn] at hu
    obtain ⟨q, hq, rfl, -⟩ := ht
    obtain ⟨r, hr, rfl, -⟩ := hu
    rw [← hq, ← hr]
  · next hn => rw [hn] at hu; exact h _ _ _ ht hu
  · next hn => rw [hn] at hu; exact ht.1.trans hu.1.symm
  · next hn => rw [hn] at hu; exact h _ _ _ ht hu
  · exact ht.elim

theorem HasTypeIn.unique {n m : Nat} {id : NodeId} {t u : Ty} (ht : p.HasTypeIn n id t)
    (hu : p.HasTypeIn m id u) : t = u := by
  induction n generalizing m id t u with
  | zero => exact ht.elim
  | succ n ih =>
    cases m with
    | zero => exact hu.elim
    | succ m =>
      have hsub (y : NodeId) (v w : Ty) : p.HasTypeIn n y v → p.HasTypeIn m y w → v = w := ih
      exact Rule.unique hsub ht hu

/-- **A node has at most one type.** -/
theorem HasType.unique {id : NodeId} {t u : Ty} (ht : p.HasType id t) (hu : p.HasType id u) :
    t = u := by
  obtain ⟨n, hn⟩ := ht
  obtain ⟨m, hm⟩ := hu
  exact hn.unique hm

/-- The function has a body and a type. -/
def IsClosure (p : Program) (f : NodeId) : Prop :=
  p.HasType f (.function f) ∧
    ∃ ns vs is body, p.node? f = some (.functionDefinition ns vs is none (some body))

/-- A function that can be called has a type or is a primitive method. -/
def Callable (p : Program) (f : NodeId) : Prop := p.IsClosure f ∨ p.IsMethod f

theorem Returns.known (h : ∀ {id t}, sub id t → t.Known p.Callable) {f : NodeId} {t : Ty}
    (ht : p.Returns sub f t) : t.Known p.Callable := by
  unfold Returns at ht
  split at ht
  · exact h ht
  · obtain ⟨-, q, -, rfl⟩ := ht
    exact Ty.known_primitive q
  · exact ht.elim

theorem HasTypeIn.known {n : Nat} {id : NodeId} {t : Ty} (ht : p.HasTypeIn n id t) :
    t.Known p.Callable := by
  induction n generalizing id t with
  | zero => exact ht.elim
  | succ n ih =>
    have hself : p.HasType id t := ⟨n + 1, ht⟩
    unfold HasTypeIn Rule at ht
    split at ht
    · rw [ht]; exact Ty.known_primitive _
    · rw [ht]; exact Ty.known_primitive _
    · rw [ht]; exact Ty.known_primitive _
    · split at ht
      · exact ih ht
      · exact ih ht.2.1
      · exact ht.elim
    · obtain ⟨q, f, -, hf, rfl⟩ := ht
      exact Ty.known_function (.inr ⟨q, _, hf⟩)
    · obtain ⟨q, f, -, -, -, hr⟩ := ht
      exact hr.known ih
    · obtain ⟨-, u, v, -, -, hu, hv, rfl⟩ := ht
      exact (ih hu).join (ih hv)
    · obtain ⟨f, -, -, hr⟩ := ht
      exact hr.known ih
    · obtain ⟨-, last, -, hl⟩ := ht
      exact ih hl
    · obtain ⟨q, -, rfl, -⟩ := ht
      exact Ty.known_primitive q
    · exact ih ht
    · next ns vs is body hn =>
      obtain ⟨rfl, -⟩ := ht
      exact Ty.known_function (.inl ⟨hself, ns, vs, is, body, hn⟩)
    · exact ih ht
    · exact ht.elim

/-- **A type is known**, and its functions can be called. -/
theorem HasType.known {id : NodeId} {t : Ty} (ht : p.HasType id t) : t.Known p.Callable := by
  obtain ⟨n, hn⟩ := ht
  exact hn.known

end

end Program

end Arbor
