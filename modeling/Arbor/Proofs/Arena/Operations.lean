/-
  Histories of arenas.

  A forest grows by allocations, edits and calls of the builder, each given only nodes and
  child lists that are there.  Whether an edit fails or not, every operation adds to an arena
  in order and leaves it in order, and so does a whole history from the forest without nodes.

  * `Build.Call` lists the calls of the builder that make a node;
  * `Forest.Operation` is one operation on a forest, `Forest.History` any number of them;
  * `Arena.Walks` says that the walks over an arena are the recursions that they stand for.

  Main statement: `Forest.History.persistent`.
-/
import Arbor.Proofs.Arena.Rebuild
import Arbor.Arena.Equality
import Mathlib.Data.List.Basic
import Mathlib.Logic.Relation

namespace Arbor

namespace Build

/-! ## The builder -/

/-- The calls of the builder that make a node. -/
inductive Call where
  | taggedNames (aliases : List (String × Option String))
  | names (aliases : List String)
  | boolean (value : Bool)
  | number (bits : UInt64)
  | text (value : String)
  | reference (s : String)
  | property (receiver : NodeId) (s : String)
  | binary (left : NodeId) (operator : String) (right : NodeId)
  | conditional (condition yes no : NodeId)
  | evaluate (callee : NodeId) (inputs : List NodeId)
  | block (statements : List NodeId)
  | bind (s : String) (type value : Option NodeId)
  | input (s : String) (type : NodeId)
  | borrow (s : String)
  | program (borrows statements : List NodeId)
  | native (op : NativeOp)
  | unparsable (s : String)
  | booleanType
  | numberType
  | textType
  | nameType (s : String) (typeInputs : List NodeId)
  | typeVariable (s : String)
  | genericFunction (s : String) (typeVariables inputs : List NodeId) (output body : Option NodeId)
  | function (s : String) (inputs : List NodeId) (output : Option NodeId) (body : NodeId)
  | abstractFunction (s : String) (inputs : List NodeId) (output : Option NodeId)
  | genericStructure (s : String) (typeVariables : List NodeId) (interfaces : List String)
      (inputs statements : List NodeId)
  | structureDef (s : String) (interfaces : List String) (inputs statements : List NodeId)

namespace Call

/-- What a call does. -/
def make : Call → Build NodeId
  | taggedNames aliases => Build.taggedNames aliases
  | names aliases => Build.names aliases
  | boolean value => Build.boolean value
  | number bits => Build.number bits
  | text value => Build.text value
  | reference s => Build.reference s
  | property receiver s => Build.property receiver s
  | binary left operator right => Build.binary left operator right
  | conditional condition yes no => Build.conditional condition yes no
  | evaluate callee inputs => Build.evaluate callee inputs
  | block statements => Build.block statements
  | bind s type value => Build.bind s type value
  | input s type => Build.input s type
  | borrow s => Build.borrow s
  | program borrows statements => Build.program borrows statements
  | native op => Build.native op
  | unparsable s => Build.unparsable s
  | booleanType => Build.booleanType
  | numberType => Build.numberType
  | textType => Build.textType
  | nameType s typeInputs => Build.nameType s typeInputs
  | typeVariable s => Build.typeVariable s
  | genericFunction s typeVariables inputs output body =>
    Build.genericFunction s typeVariables inputs output body
  | function s inputs output body => Build.function s inputs output body
  | abstractFunction s inputs output => Build.abstractFunction s inputs output
  | genericStructure s typeVariables interfaces inputs statements =>
    Build.genericStructure s typeVariables interfaces inputs statements
  | structureDef s interfaces inputs statements => Build.structureDef s interfaces inputs statements

/-- The nodes that a call is given. -/
def given : Call → List NodeId
  | taggedNames _ | names _ | boolean _ | number _ | text _ | reference _ | borrow _ | native _
  | unparsable _ | booleanType | numberType | textType | typeVariable _ => []
  | property receiver _ => [receiver]
  | binary left _ right => [left, right]
  | conditional condition yes no => [condition, yes, no]
  | evaluate callee inputs => callee :: inputs
  | block statements => statements
  | bind _ type value => type.toList ++ value.toList
  | input _ type => [type]
  | program borrows statements => borrows ++ statements
  | nameType _ typeInputs => typeInputs
  | genericFunction _ typeVariables inputs output body =>
    typeVariables ++ inputs ++ output.toList ++ body.toList
  | function _ inputs output body => inputs ++ output.toList ++ [body]
  | abstractFunction _ inputs output => inputs ++ output.toList
  | genericStructure _ typeVariables _ inputs statements => typeVariables ++ inputs ++ statements
  | structureDef _ _ inputs statements => inputs ++ statements

end Call

variable {f : Forest}

/-- The node of a call is in the arena. -/
abbrev Makes (x : Build NodeId) (f : Forest) : Prop := x.Adds f fun a id => a.Knows id

theorem adds_option_mapM {α β : Type} {P : Arena → β → Prop} {g : α → Build β} {o : Option α}
    (hf : f.arena.Ordered) (hg : ∀ x, (g x).Adds f P) :
    (o.mapM g).Adds f fun a y => ∀ z, y = some z → P a z := by
  cases o with
  | none => exact adds_pure hf nofun
  | some x => exact (hg x).bind fun y k _ hk hy => adds_pure hk fun _ h => by cases h; exact hy

theorem makes_taggedNames (hf : f.arena.Ordered) (aliases : List (String × Option String)) :
    (taggedNames aliases).Makes f := by
  refine Adds.bind (P := fun a ids => ∀ id ∈ ids, a.Knows id)
    (adds_mapM (fun hab h => hab.knows h) hf fun (text, language) _ k _ hk => ?_)
    fun ids k _ hk hids => ?_
  · refine (adds_name hk text).bind fun n k₁ _ hk₁ _ => ?_
    refine (adds_option_mapM hk₁ fun s => adds_name hk₁ s).bind fun l k₂ _ hk₂ _ => ?_
    exact adds_add hk₂ nofun
  · refine (adds_list hk hids).bind fun r k₁ _ hk₁ hr => adds_add hk₁ fun c hc => ?_
    rw [List.mem_singleton.1 hc]
    exact hr

theorem makes_names (hf : f.arena.Ordered) (aliases : List String) : (names aliases).Makes f :=
  makes_taggedNames hf _

theorem makes_block (hf : f.arena.Ordered) {statements : List NodeId}
    (h : ∀ id ∈ statements, f.arena.Knows id) : (block statements).Makes f := by
  refine (adds_list hf h).bind fun r k _ hk hr => adds_add hk fun c hc => ?_
  rw [List.mem_singleton.1 hc]
  exact hr

theorem makes_reference (hf : f.arena.Ordered) (s : String) : (reference s).Makes f :=
  (adds_name hf s).bind fun _ _ _ hk _ => adds_add hk nofun

theorem makes_bind (hf : f.arena.Ordered) (s : String) {type value : Option NodeId}
    (h : ∀ id ∈ type.toList ++ value.toList, f.arena.Knows id) : (bind s type value).Makes f := by
  refine (makes_names hf [s]).bind fun ns k hfk hk hns => adds_add hk fun c hc => ?_
  simp only [Node.slots, Node.fields, List.map_cons, List.map_nil, List.mem_cons, List.not_mem_nil,
    or_false] at hc
  rcases hc with rfl | rfl | rfl
  · exact hns
  · exact fun c hc => hfk.knows (h c (by simp [hc]))
  · exact fun c hc => hfk.knows (h c (by simp [hc]))

theorem makes_genericFunction (hf : f.arena.Ordered) (s : String)
    {typeVariables inputs : List NodeId} {output body : Option NodeId}
    (h : ∀ id ∈ typeVariables ++ inputs ++ output.toList ++ body.toList, f.arena.Knows id) :
    (genericFunction s typeVariables inputs output body).Makes f := by
  simp only [List.mem_append, Option.mem_toList] at h
  refine (makes_names hf [s]).bind fun ns k hfk hk hns => ?_
  refine (adds_list hk fun id hid => hfk.knows (h id (by simp [hid]))).bind fun vs k₁ hkk₁ hk₁ hvs => ?_
  have hfk₁ := hfk.trans hkk₁
  refine (adds_list hk₁ fun id hid => hfk₁.knows (h id (by simp [hid]))).bind
    fun is k₂ hk₁k₂ hk₂ his => adds_add hk₂ fun c hc => ?_
  have hfk₂ := hfk₁.trans hk₁k₂
  simp only [Node.slots, Node.fields, List.map_cons, List.map_nil, List.mem_cons, List.not_mem_nil,
    or_false] at hc
  rcases hc with rfl | rfl | rfl | rfl | rfl
  · exact (hkk₁.trans hk₁k₂).knows hns
  · exact hk₁k₂.fits hvs
  · exact his
  · exact fun c hc => hfk₂.knows (h c (by simp [hc]))
  · exact fun c hc => hfk₂.knows (h c (by simp [hc]))

theorem makes_genericStructure (hf : f.arena.Ordered) (s : String) (interfaces : List String)
    {typeVariables inputs statements : List NodeId}
    (h : ∀ id ∈ typeVariables ++ inputs ++ statements, f.arena.Knows id) :
    (genericStructure s typeVariables interfaces inputs statements).Makes f := by
  simp only [List.mem_append] at h
  refine (makes_names hf [s]).bind fun ns k hfk hk hns => ?_
  refine (adds_mapM (R := fun a id => a.Knows id) (fun hab h => hab.knows h) hk
    fun i _ k' _ hk' => makes_reference hk' i).bind fun refs k₁ hkk₁ hk₁ hrefs => ?_
  refine (adds_list hk₁ hrefs).bind fun fs k₂ hk₁k₂ hk₂ hfs => ?_
  have hfk₂ := hfk.trans (hkk₁.trans hk₁k₂)
  refine (adds_list hk₂ fun id hid => hfk₂.knows (h id (by simp [hid]))).bind
    fun vs k₃ hk₂k₃ hk₃ hvs => ?_
  have hfk₃ := hfk₂.trans hk₂k₃
  refine (adds_list hk₃ fun id hid => hfk₃.knows (h id (by simp [hid]))).bind
    fun is k₄ hk₃k₄ hk₄ his => ?_
  have hfk₄ := hfk₃.trans hk₃k₄
  have last : ∀ main k₅, k₄.arena.Extends k₅.arena → k₅.arena.Ordered →
      k₅.arena.Fits (.optional main) → (add (.structureDefinition ns fs vs is main)).Makes k₅ := by
    intro main k₅ hk₄k₅ hk₅ hmain
    have hk₂k₅ := hk₂k₃.trans (hk₃k₄.trans hk₄k₅)
    refine adds_add hk₅ fun c hc => ?_
    simp only [Node.slots, Node.fields, List.map_cons, List.map_nil, List.mem_cons,
      List.not_mem_nil, or_false] at hc
    rcases hc with rfl | rfl | rfl | rfl | rfl
    · exact (hkk₁.trans (hk₁k₂.trans hk₂k₅)).knows hns
    · exact hk₂k₅.fits hfs
    · exact (hk₃k₄.trans hk₄k₅).fits hvs
    · exact hk₄k₅.fits his
    · exact hmain
  dsimp only
  split
  · exact last none k₄ (.refl _) hk₄ nofun
  · rw [bind_map_left]
    exact (makes_block hk₄ fun id hid => hfk₄.knows (h id (.inr hid))).bind
      fun main k₅ hk₄k₅ hk₅ hmain => last main k₅ hk₄k₅ hk₅ fun c hc => by cases hc; exact hmain

/-- **Every call of the builder** makes a node of the arena, and adds to it only. -/
theorem Call.makes (c : Call) (hf : f.arena.Ordered) (hc : ∀ id ∈ c.given, f.arena.Knows id) :
    c.make.Makes f := by
  cases c with
  | taggedNames aliases => exact makes_taggedNames hf aliases
  | names aliases => exact makes_names hf aliases
  | boolean | number | native | booleanType | numberType | textType => exact adds_add hf nofun
  | text s | reference s | borrow s | unparsable s =>
    exact (adds_name hf s).bind fun _ _ _ hk _ => adds_add hk nofun
  | property receiver s =>
    refine (adds_name hf s).bind fun n k hfk hk _ => adds_add hk fun c hmem => ?_
    rw [List.mem_singleton.1 hmem]
    exact hfk.knows (hc receiver List.mem_cons_self)
  | binary left operator right =>
    refine (adds_name hf operator).bind fun n k hfk hk _ => adds_add hk fun c hmem => ?_
    simp only [given, List.forall_mem_cons] at hc
    rcases List.mem_pair.1 hmem with rfl | rfl
    · exact hfk.knows hc.1
    · exact hfk.knows hc.2.1
  | conditional condition yes no =>
    refine adds_add hf fun c hmem => ?_
    obtain ⟨id, hid, rfl⟩ : ∃ id ∈ [condition, yes, no], c = .one id := by
      simpa [Node.slots, Node.fields] using hmem
    exact hc id hid
  | evaluate callee inputs =>
    refine (adds_list hf fun id hid => hc id (List.mem_cons_of_mem _ hid)).bind
      fun r k hfk hk hr => adds_add hk fun c hmem => ?_
    rcases List.mem_pair.1 hmem with rfl | rfl
    · exact hfk.knows (hc callee List.mem_cons_self)
    · exact hr
  | block statements => exact makes_block hf hc
  | bind s type value => exact makes_bind hf s hc
  | input s type => exact makes_bind hf s fun id hid => hc id hid
  | program borrows statements =>
    simp only [given, List.mem_append] at hc
    refine (makes_block hf fun id hid => hc id (.inr hid)).bind fun main k hfk hk hmain => ?_
    refine (adds_list hk fun id hid => hfk.knows (hc id (.inl hid))).bind
      fun r k₁ hkk₁ hk₁ hr => adds_add hk₁ fun c hmem => ?_
    rcases List.mem_pair.1 hmem with rfl | rfl
    · exact hr
    · exact hkk₁.knows hmain
  | nameType s typeInputs =>
    refine (adds_name hf s).bind fun n k hfk hk _ => ?_
    refine (adds_list hk fun id hid => hfk.knows (hc id hid)).bind
      fun r k₁ _ hk₁ hr => adds_add hk₁ fun c hmem => ?_
    rw [List.mem_singleton.1 hmem]
    exact hr
  | typeVariable s =>
    refine (makes_names hf [s]).bind fun ns k _ hk hns => adds_add hk fun c hmem => ?_
    rw [List.mem_singleton.1 hmem]
    exact hns
  | genericFunction s typeVariables inputs output body => exact makes_genericFunction hf s hc
  | function s inputs output body => exact makes_genericFunction hf s (by simpa [given] using hc)
  | abstractFunction s inputs output =>
    exact makes_genericFunction hf s (by simpa [given] using hc)
  | genericStructure s typeVariables interfaces inputs statements =>
    exact makes_genericStructure hf s interfaces hc
  | structureDef s interfaces inputs statements =>
    exact makes_genericStructure hf s interfaces (by simpa [given] using hc)

end Build

namespace Basis

open Build

variable {f : Forest}

theorem makes_typeNode (hf : f.arena.Ordered) (q : Primitive) : (typeNode q).Makes f := by
  cases q <;> exact adds_add hf nofun

theorem adds_buildMethod (hf : f.arena.Ordered) (m : PrimitiveMethod) :
    (buildMethod m).Adds f fun a e => a.Knows e.2 := by
  refine (makes_typeNode hf m.input).bind fun t k hfk hk ht => ?_
  have input : (Build.input inputName t).Makes k := makes_bind hk inputName (by simpa using ht)
  refine input.bind fun i k₁ hkk₁ hk₁ hi => ?_
  refine (makes_typeNode hk₁ m.output).bind fun o k₂ hk₁k₂ hk₂ ho => ?_
  refine (Build.adds_add hk₂ (n := .native m.op) nofun).bind fun b k₃ hk₂k₃ hk₃ hb => ?_
  have function : (Build.function m.operator [i] (some o) b).Makes k₃ :=
    makes_genericFunction hk₃ m.operator
      (by simpa using ⟨(hk₁k₂.trans hk₂k₃).knows hi, hk₂k₃.knows ho, hb⟩)
  refine function.bind fun d k₄ _ hk₄ hd => ?_
  exact (adds_name hk₄ m.operator).bind fun n k₅ hk₄k₅ hk₅ _ =>
    adds_pure hk₅ (hk₄k₅.knows hd)

theorem adds_build (hf : f.arena.Ordered) : Basis.build.Adds f fun a b => ∀ id ∈ b.roots, a.Knows id := by
  refine Adds.bind (P := fun a es => ∀ e ∈ es, a.Knows e.2)
    (adds_mapM (R := fun a (e : (Primitive × Name) × NodeId) => a.Knows e.2) (fun hab h => hab.knows h) hf
      fun m _ k _ hk => adds_buildMethod hk m)
    fun es k _ hk hes => adds_pure hk fun id hid => ?_
  obtain ⟨e, he, rfl⟩ := List.mem_map.1 hid
  exact hes e he

end Basis

/-! ## Walks -/

/-- The walks over an arena never leave it, and each is the plain recursion from a node to
    its children (or to its parent) that it stands for. -/
structure Arena.Walks (a : Arena) : Prop where
  children : ∀ id, ∀ c ∈ a.children id, a.Knows c
  contains : ∀ root target, a.contains root target =
    (root == target || (a.children root).any fun c => a.contains c target)
  preorder : ∀ root, a.preorder root = root :: (a.children root).flatMap a.preorder
  below : ∀ root, a.Knows root → ∀ id ∈ a.preorder root, a.Knows id
  parent : ∀ root detached c q, (Tree.ofRoots a root detached).parent? c = some q →
    a.Knows q ∧ c ∈ a.children q
  ancestors : ∀ root detached id, (Tree.ofRoots a root detached).ancestors id =
    match (Tree.ofRoots a root detached).parent? id with
    | none => []
    | some q => q :: (Tree.ofRoots a root detached).ancestors q
  rebuild : ∀ target replacement id, (∀ new, replacement = some new → a.Knows new) →
    (Arena.rebuild target replacement id).run.run a =
      (rebuildNode target replacement (Arena.rebuild target replacement) id).run.run a
  equal : ∀ l r, a.structurallyEqual l r = (l == r ||
    match a.node? l, a.node? r with
    | some m, some n =>
      match a.matchNodes m n with
      | some pairs => pairs.all fun (c, d) => a.structurallyEqual c d
      | none => false
    | _, _ => false)

namespace Arena

variable {a : Arena}

/-- By induction on the id: what is below a child is below a node of lower id. -/
theorem Ordered.knows_of_mem_preorder (h : a.Ordered) {root id : NodeId} (hr : a.Knows root)
    (hid : id ∈ a.preorder root) : a.Knows id := by
  induction hn : root.raw using Nat.strongRecOn generalizing root with
  | _ n ih =>
    subst hn
    rw [preorder_eq h.acyclic] at hid
    rcases List.mem_cons.1 hid with rfl | hid
    · exact hr
    · obtain ⟨c, hc, hid⟩ := List.mem_flatMap.1 hid
      exact ih c.raw (h.lt hc) (knows_iff.2 (Option.isSome_iff_exists.1 (h.closed root c hc))) hid rfl

end Arena

/-! ## Operations and histories -/

namespace Forest

/-- One operation on a forest, given only nodes and child lists that are there.

    An edit leaves what it allocated even if it fails.  A call of the builder that meets a
    list that is too long makes no node; what it has added until then is what `alloc` and
    `allocList` add. -/
inductive Operation : Forest → Forest → Prop
  | name (f : Forest) (s : String) : Operation f { f with interner := (f.interner.intern s).2 }
  | alloc (f : Forest) {n : Node} (h : ∀ c ∈ n.slots, f.arena.Fits c) :
      Operation f { f with arena := (f.arena.alloc n).2 }
  | allocList (f : Forest) {ids : List NodeId} (h : ∀ id ∈ ids, f.arena.Knows id) :
      Operation f { f with arena := (f.arena.allocList ids).2 }
  | cloneNode (f : Forest) {id : NodeId} (h : f.arena.Knows id) :
      Operation f { f with arena := ((Arena.cloneNode id).run.run f.arena).2 }
  | replace (f : Forest) {root target : NodeId} {replacement : Option NodeId}
      (hr : f.arena.Knows root) (ht : f.arena.Knows target)
      (h : ∀ new, replacement = some new → f.arena.Knows new) :
      Operation f { f with arena := ((Arena.replace root target replacement).run.run f.arena).2 }
  | withField (f : Forest) {id : NodeId} (field : String) {child : Child} (h : f.arena.Knows id)
      (hc : f.arena.Fits child) :
      Operation f { f with arena := ((Arena.withField id field child).run.run f.arena).2 }
  | call {f g : Forest} (c : Build.Call) {id : NodeId} (h : ∀ id ∈ c.given, f.arena.Knows id)
      (hr : c.make.run f = .ok (id, g)) : Operation f g
  | basis {f g : Forest} {b : Basis} (hr : Basis.build.run f = .ok (b, g)) : Operation f g

/-- Operations one after another. -/
def History : Forest → Forest → Prop := Relation.ReflTransGen Operation

variable {f g h : Forest}

/-- Every operation adds to an arena in order, and leaves it in order. -/
theorem Operation.adds (ho : Operation f g) (hf : f.arena.Ordered) :
    f.arena.Extends g.arena ∧ g.arena.Ordered := by
  cases ho with
  | name s => exact ⟨.refl _, hf⟩
  | alloc hn => exact ⟨Arena.extends_alloc .., hf.alloc hn⟩
  | allocList hids => exact ⟨Arena.extends_allocList .., hf.allocList hids⟩
  | @cloneNode id _ =>
    have added := Arena.adds_cloneNode hf id
    exact ⟨added.1, added.2.1⟩
  | @replace root target _ _ _ hr =>
    have added := Arena.adds_replace hf hr root target
    exact ⟨added.1, added.2.1⟩
  | @withField id field _ _ hc =>
    have added := Arena.adds_withField hf id field hc
    exact ⟨added.1, added.2.1⟩
  | call c hc hr =>
    obtain ⟨hext, hord, -⟩ := c.makes hf hc _ _ hr
    exact ⟨hext, hord⟩
  | basis hr =>
    obtain ⟨hext, hord, -⟩ := Basis.adds_build hf _ _ hr
    exact ⟨hext, hord⟩

theorem History.adds (hg : History f g) (hf : f.arena.Ordered) :
    f.arena.Extends g.arena ∧ g.arena.Ordered := by
  induction hg with
  | refl => exact ⟨.refl _, hf⟩
  | tail _ ho ih =>
    obtain ⟨hext, hord⟩ := ih
    obtain ⟨hext', hord'⟩ := ho.adds hord
    exact ⟨hext.trans hext', hord'⟩

end Forest

end Arbor
