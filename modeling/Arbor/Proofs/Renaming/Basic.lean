/-
  Renamings: two programs that differ in the ids of their nodes.

  A renaming relates the nodes of one program to those of another.  Each node has one other
  name at most, related nodes have the same kind, the same data and related children, and
  they stand below related nodes.  What is read off the nodes is then the same but for the
  names: this is shown function by function, each from those that it calls.

  * `Node.Renamed`, `Definition.Renamed` and `Ty.Renamed` lift a renaming to nodes, to what
    names stand for and to types;
  * `Program.Renamed` says that a renaming relates two programs.

  Main statement: `renamed_resolve`, what names stand for.
-/
import Arbor.Program.Resolution
import Arbor.Proofs.Renaming.Relation

namespace Arbor

open List (Forall₂)
open Relator (BiUnique)

/-! ## Renamed data -/

section
variable (R : NodeId → NodeId → Prop)

/-- The child lists hold related nodes. -/
def NodeRange.Renamed (a b : Arena) (r s : NodeRange) : Prop := Forall₂ R (a.list r) (b.list s)

/-- The nodes have the same kind and data, and related children. -/
inductive Node.Renamed (a b : Arena) : Node → Node → Prop
  | program {bs bs' : NodeRange} {main main' : NodeId} : bs.Renamed R a b bs' → R main main' →
      Node.Renamed a b (.program bs main) (.program bs' main')
  | borrow (n : Name) : Node.Renamed a b (.borrow n) (.borrow n)
  | block {ss ss' : NodeRange} : ss.Renamed R a b ss' → Node.Renamed a b (.block ss) (.block ss')
  | bind {ns ns' : NodeId} {type type' value value' : Option NodeId} : R ns ns' →
      Option.Rel R type type' → Option.Rel R value value' →
      Node.Renamed a b (.bind ns type value) (.bind ns' type' value')
  | names {is is' : NodeRange} : is.Renamed R a b is' → Node.Renamed a b (.names is) (.names is')
  | aliasName (n : Name) (l : Option Name) : Node.Renamed a b (.aliasName n l) (.aliasName n l)
  | booleanLiteral (v : Bool) : Node.Renamed a b (.booleanLiteral v) (.booleanLiteral v)
  | numberLiteral (bits : UInt64) : Node.Renamed a b (.numberLiteral bits) (.numberLiteral bits)
  | textLiteral (t : Name) : Node.Renamed a b (.textLiteral t) (.textLiteral t)
  | reference (n : Name) : Node.Renamed a b (.reference n) (.reference n)
  | propertyReference {c c' : NodeId} (n : Name) : R c c' →
      Node.Renamed a b (.propertyReference c n) (.propertyReference c' n)
  | binaryOperation {l l' r r' : NodeId} (op : Name) : R l l' → R r r' →
      Node.Renamed a b (.binaryOperation l op r) (.binaryOperation l' op r')
  | conditional {c c' y y' n n' : NodeId} : R c c' → R y y' → R n n' →
      Node.Renamed a b (.conditional c y n) (.conditional c' y' n')
  | evaluate {f f' : NodeId} {is is' : NodeRange} : R f f' → is.Renamed R a b is' →
      Node.Renamed a b (.evaluate f is) (.evaluate f' is')
  | functionDefinition {ns ns' : NodeId} {vs vs' is is' : NodeRange}
      {output output' body body' : Option NodeId} : R ns ns' → vs.Renamed R a b vs' →
      is.Renamed R a b is' → Option.Rel R output output' → Option.Rel R body body' →
      Node.Renamed a b (.functionDefinition ns vs is output body)
        (.functionDefinition ns' vs' is' output' body')
  | structureDefinition {ns ns' : NodeId} {fs fs' vs vs' is is' : NodeRange}
      {body body' : Option NodeId} : R ns ns' → fs.Renamed R a b fs' → vs.Renamed R a b vs' →
      is.Renamed R a b is' → Option.Rel R body body' →
      Node.Renamed a b (.structureDefinition ns fs vs is body)
        (.structureDefinition ns' fs' vs' is' body')
  | typeVariable {ns ns' : NodeId} : R ns ns' →
      Node.Renamed a b (.typeVariable ns) (.typeVariable ns')
  | booleanType : Node.Renamed a b .booleanType .booleanType
  | numberType : Node.Renamed a b .numberType .numberType
  | textType : Node.Renamed a b .textType .textType
  | nameType {is is' : NodeRange} (n : Name) : is.Renamed R a b is' →
      Node.Renamed a b (.nameType n is) (.nameType n is')
  | native (op : NativeOp) : Node.Renamed a b (.native op) (.native op)
  | unparsable (t : Name) : Node.Renamed a b (.unparsable t) (.unparsable t)

/-- Related nodes borrow the streams under one name. -/
def Program.SameStream (p q : Program) (s s' : StreamId) : Prop :=
  ∃ x y n, R x y ∧ p.node? x = some (.borrow n) ∧ p.streamNamed? n = some s ∧
    q.streamNamed? n = some s'

/-- The definitions are of the same kind, by related nodes or the same stream. -/
inductive Definition.Renamed (p q : Program) : Definition → Definition → Prop
  | bind {x y : NodeId} : R x y → Definition.Renamed p q (.bind x) (.bind y)
  | function {x y : NodeId} : R x y → Definition.Renamed p q (.function x) (.function y)
  | structureDef {x y : NodeId} : R x y → Definition.Renamed p q (.structureDef x) (.structureDef y)
  | typeVariable {x y : NodeId} : R x y → Definition.Renamed p q (.typeVariable x) (.typeVariable y)
  | stream {s s' : StreamId} : p.SameStream R q s s' →
      Definition.Renamed p q (.stream s) (.stream s')

/-- The types are built alike from related nodes. -/
inductive Ty.Renamed : Ty → Ty → Prop
  | primitive (q : Primitive) : Ty.Renamed (.primitive q) (.primitive q)
  | instanceOf {d e : NodeId} {ts us : List Ty} : R d e → Forall₂ Ty.Renamed ts us →
      Ty.Renamed (.instanceOf d ts) (.instanceOf e us)
  | definition {d e : NodeId} : R d e → Ty.Renamed (.definition d) (.definition e)
  | function {f g : NodeId} : R f g → Ty.Renamed (.function f) (.function g)
  | typeVar {v w : NodeId} : R v w → Ty.Renamed (.typeVar v) (.typeVar w)
  | union {ts us : List Ty} : Forall₂ Ty.Renamed ts us → Ty.Renamed (.union ts) (.union us)
  | never : Ty.Renamed .never .never
  | unknown : Ty.Renamed .unknown .unknown

/-- The shares are structures of related definitions, or streams. -/
inductive Share.Renamed : Share → Share → Prop
  | structureDef {d e : NodeId} : R d e → Share.Renamed (.structureDef d) (.structureDef e)
  | stream (s s' : StreamId) : Share.Renamed (.stream s) (.stream s')

/-- The type of the values of a stream, if the program can borrow it. -/
def Program.streamType? (p : Program) (s : StreamId) : Option Ty :=
  (p.shares.bind (·.stream? s)).map StreamInfo.type

/-- The node uses a name, which is looked up around it. -/
def Program.LooksUp (p : Program) (x : NodeId) : Prop :=
  (∃ n, p.node? x = some (.reference n)) ∨ ∃ n is, p.node? x = some (.nameType n is)

/-- The programs are the same but for the ids of their nodes and, as far as they borrow them,
    the numbers of their streams. -/
structure Program.Renamed (p q : Program) : Prop where
  unique : BiUnique R
  uniqueStream : BiUnique (p.SameStream R q)
  node : ∀ {x y : NodeId}, R x y → ∃ n m, p.node? x = some n ∧ q.node? y = some m ∧
    n.Renamed R p.arena q.arena m
  ancestors : ∀ {x y : NodeId}, R x y → p.LooksUp x →
    Forall₂ R (p.tree.ancestors x) (q.tree.ancestors y)
  nodes : Forall₂ R p.tree.nodes q.tree.nodes
  root : R p.root q.root
  interner : q.interner = p.interner
  method : ∀ k n, Option.Rel R (p.basis.function? k n) (q.basis.function? k n)
  share : ∀ {x y : NodeId} {n : Name}, R x y → p.node? x = some (.borrow n) →
    Option.Rel (Share.Renamed R) (p.share? n) (q.share? n)
  stream : ∀ {s s' : StreamId}, p.SameStream R q s s' →
    Option.Rel (Ty.Renamed R) (p.streamType? s) (q.streamType? s')
  acyclic : p.arena.Acyclic
  acyclic' : q.arena.Acyclic

end

/-! ## Equality -/

section
variable {R : NodeId → NodeId → Prop}

namespace Ty

mutual

theorem right_unique (hR : BiUnique R) :
    ∀ {t u v : Ty}, t.Renamed R u → t.Renamed R v → u = v
  | _, _, _, .primitive _, .primitive _ => rfl
  | .instanceOf _ _, _, _, .instanceOf hd hts, .instanceOf he hus => by
    rw [hR.2 hd he, all_right_unique hR hts hus]
  | _, _, _, .definition hd, .definition he => by rw [hR.2 hd he]
  | _, _, _, .function hd, .function he => by rw [hR.2 hd he]
  | _, _, _, .typeVar hd, .typeVar he => by rw [hR.2 hd he]
  | .union _, _, _, .union hts, .union hus => by rw [all_right_unique hR hts hus]
  | _, _, _, .never, .never => rfl
  | _, _, _, .unknown, .unknown => rfl
termination_by t => sizeOf t

theorem all_right_unique (hR : BiUnique R) :
    ∀ {ts us vs : List Ty}, Forall₂ (Ty.Renamed R) ts us → Forall₂ (Ty.Renamed R) ts vs → us = vs
  | [], _, _, .nil, .nil => rfl
  | _ :: _, _, _, .cons h hs, .cons k ks => by
    rw [right_unique hR h k, all_right_unique hR hs ks]
termination_by ts => sizeOf ts

end

mutual

theorem left_unique (hR : BiUnique R) :
    ∀ {t u v : Ty}, t.Renamed R v → u.Renamed R v → t = u
  | _, _, _, .primitive _, .primitive _ => rfl
  | .instanceOf _ _, _, _, .instanceOf hd hts, .instanceOf he hus => by
    rw [hR.1 hd he, all_left_unique hR hts hus]
  | _, _, _, .definition hd, .definition he => by rw [hR.1 hd he]
  | _, _, _, .function hd, .function he => by rw [hR.1 hd he]
  | _, _, _, .typeVar hd, .typeVar he => by rw [hR.1 hd he]
  | .union _, _, _, .union hts, .union hus => by rw [all_left_unique hR hts hus]
  | _, _, _, .never, .never => rfl
  | _, _, _, .unknown, .unknown => rfl
termination_by t => sizeOf t

theorem all_left_unique (hR : BiUnique R) :
    ∀ {ts us vs : List Ty}, Forall₂ (Ty.Renamed R) ts vs → Forall₂ (Ty.Renamed R) us vs → ts = us
  | [], _, _, .nil, .nil => rfl
  | _ :: _, _, _, .cons h hs, .cons k ks => by
    rw [left_unique hR h k, all_left_unique hR hs ks]
termination_by ts => sizeOf ts

end

/-- Each type has one other name at most. -/
theorem biUnique (hR : BiUnique R) : BiUnique (Ty.Renamed R) :=
  ⟨fun _ _ _ => left_unique hR, fun _ _ _ => right_unique hR⟩

end Ty

end

/-! ## Children -/

section
variable {R : NodeId → NodeId → Prop} {a b : Arena}

/-- The nodes have related children, slot by slot. -/
theorem Node.Renamed.slots {n m : Node} (h : n.Renamed R a b m) :
    Forall₂ (fun c d => Forall₂ R (a.ofSlot c) (b.ofSlot d)) n.slots m.slots := by
  have one {c d : NodeId} (hcd : R c d) : Forall₂ R (a.ofSlot (.one c)) (b.ofSlot (.one d)) :=
    .cons hcd .nil
  have optional {c d : Option NodeId} (hcd : Option.Rel R c d) :
      Forall₂ R (a.ofSlot (.optional c)) (b.ofSlot (.optional d)) := hcd.toList
  have list {r s : NodeRange} (hrs : r.Renamed R a b s) :
      Forall₂ R (a.ofSlot (.list r)) (b.ofSlot (.list s)) := hrs
  cases h with
  | program hbs hmain => exact .cons (list hbs) (.cons (one hmain) .nil)
  | block hss => exact .cons (list hss) .nil
  | bind hns htype hvalue =>
    exact .cons (one hns) (.cons (optional htype) (.cons (optional hvalue) .nil))
  | names his => exact .cons (list his) .nil
  | propertyReference _ hc => exact .cons (one hc) .nil
  | binaryOperation _ hl hr => exact .cons (one hl) (.cons (one hr) .nil)
  | conditional hc hy hn => exact .cons (one hc) (.cons (one hy) (.cons (one hn) .nil))
  | evaluate hf his => exact .cons (one hf) (.cons (list his) .nil)
  | functionDefinition hns hvs his houtput hbody =>
    exact .cons (one hns) (.cons (list hvs) (.cons (list his) (.cons (optional houtput)
      (.cons (optional hbody) .nil))))
  | structureDefinition hns hfs hvs his hbody =>
    exact .cons (one hns) (.cons (list hfs) (.cons (list hvs) (.cons (list his)
      (.cons (optional hbody) .nil))))
  | typeVariable hns => exact .cons (one hns) .nil
  | nameType _ his => exact .cons (list his) .nil
  | _ => exact .nil

theorem Node.Renamed.children {n m : Node} (h : n.Renamed R a b m) :
    Forall₂ R (a.childrenOf n) (b.childrenOf m) :=
  List.rel_flatMap h.slots fun _ _ hcd => hcd

end

namespace Program.Renamed

variable {R : NodeId → NodeId → Prop} {p q : Program} (h : p.Renamed R q)
include h

theorem eq_iff {x y x' y' : NodeId} (hx : R x x') (hy : R y y') : x = y ↔ x' = y' :=
  Relator.rel_eq h.unique hx hy

theorem ty_eq_iff {t u t' u' : Ty} (ht : t.Renamed R t') (hu : u.Renamed R u') : t = u ↔ t' = u' :=
  Relator.rel_eq (Ty.biUnique h.unique) ht hu

theorem mem_iff {x y : NodeId} {xs ys : List NodeId} (hx : R x y) (hxs : Forall₂ R xs ys) :
    x ∈ xs ↔ y ∈ ys :=
  List.rel_mem h.unique hx hxs

/-! ## Names and parts of definitions -/

theorem textOf_eq (n : Name) : q.textOf n = p.textOf n := by
  rw [textOf, textOf, h.interner]

omit h in
theorem streamNamed?_eq_share (p : Program) (n : Name) : p.streamNamed? n =
    (p.share? n).bind fun
      | .stream s => some s
      | .structureDef _ => none := by
  rw [streamNamed?, share?]
  cases p.shares with
  | none => rfl
  | some shares =>
    rw [Option.bind_some, Option.bind_some, Shares.streamNamed?]
    rcases shares.get? n with _ | _ | _ <;> rfl

/-- A name that related nodes borrow stands for a stream in both programs, or in none. -/
theorem renamed_streamNamed? {x y : NodeId} {n : Name} (hx : R x y)
    (hn : p.node? x = some (.borrow n)) :
    Option.Rel (p.SameStream R q) (p.streamNamed? n) (q.streamNamed? n) := by
  have hs := h.share hx hn
  have hsame {s s' : StreamId} (hp : p.streamNamed? n = some s) (hq : q.streamNamed? n = some s') :
      p.SameStream R q s s' := ⟨x, y, n, hx, hn, hp, hq⟩
  rw [streamNamed?_eq_share p, streamNamed?_eq_share q] at hsame ⊢
  revert hs hsame
  generalize p.share? n = o, q.share? n = o'
  rintro (hs | _) hsame
  · cases hs with
    | structureDef => exact .none
    | stream s s' => exact .some (hsame rfl rfl)
  · exact .none

theorem isSome_node? {x y : NodeId} (hx : R x y) : (p.node? x).isSome ∧ (q.node? y).isSome := by
  obtain ⟨n, m, hn, hm, -⟩ := h.node hx
  rw [hn, hm]
  exact ⟨rfl, rfl⟩

theorem renamed_children {x y : NodeId} (hx : R x y) :
    Forall₂ R (p.arena.children x) (q.arena.children y) := by
  obtain ⟨n, m, hn, hm, hnm⟩ := h.node hx
  rw [Arena.children_eq hn, Arena.children_eq hm]
  exact hnm.children

theorem definitionNames? {x y : NodeId} (hx : R x y) :
    Option.Rel R ((p.node? x).bind Node.definitionNames?)
      ((q.node? y).bind Node.definitionNames?) := by
  obtain ⟨n, m, hn, hm, hnm⟩ := h.node hx
  rw [hn, hm]
  cases hnm <;> first | exact .none | exact .some ‹_›

theorem names_eq {x y : NodeId} (hx : R x y) : p.names x = q.names y := by
  have hns := h.definitionNames? hx
  unfold names
  revert hns
  generalize (p.node? x).bind _ = o, (q.node? y).bind _ = o'
  rintro (hns | _)
  · obtain ⟨n, m, hn, hm, hnm⟩ := h.node hns
    dsimp only
    rw [hn, hm]
    cases hnm with
    | names his =>
      refine List.forall₂_eq_eq_eq ▸ List.rel_filterMap (R := R) (fun a b hab => ?_) his
      obtain ⟨n, m, hn, hm, hnm⟩ := h.node hab
      rw [hn, hm]
      cases hnm <;> first | exact .none | exact .some rfl
    | _ => rfl
  · rfl

theorem primaryName?_eq {x y : NodeId} (hx : R x y) : p.primaryName? x = q.primaryName? y := by
  rw [primaryName?, primaryName?, h.names_eq hx]

theorem hasName_eq {x y : NodeId} (hx : R x y) (n : Name) : p.hasName x n = q.hasName y n := by
  rw [hasName, hasName, h.names_eq hx]

theorem nameText_eq {x y : NodeId} (hx : R x y) (otherwise : String) :
    p.nameText x otherwise = q.nameText y otherwise := by
  rw [nameText, nameText, h.primaryName?_eq hx]
  cases q.primaryName? y with
  | none => rfl
  | some n => exact (h.textOf_eq n).symm

theorem calledName?_eq {x y : NodeId} (hx : R x y) : p.calledName? x = q.calledName? y := by
  obtain ⟨n, m, hn, hm, hnm⟩ := h.node hx
  rw [calledName?, calledName?, hn, hm]
  cases hnm <;> rfl

theorem renamed_classify {x y : NodeId} (hx : R x y) :
    Option.Rel (Definition.Renamed R p q) (p.classify x) (q.classify y) := by
  obtain ⟨n, m, hn, hm, hnm⟩ := h.node hx
  rw [classify, classify, hn, hm]
  cases hnm with
  | bind => exact .some (.bind hx)
  | functionDefinition => exact .some (.function hx)
  | structureDefinition => exact .some (.structureDef hx)
  | typeVariable => exact .some (.typeVariable hx)
  | _ => exact .none

omit h in
theorem renamed_empty (a b : Arena) : NodeRange.Renamed R a b .empty .empty := by
  simp [NodeRange.Renamed, Arena.list, NodeRange.empty]

theorem renamed_statementList {x y : NodeId} (hx : R x y) :
    (p.statementList x).Renamed R p.arena q.arena (q.statementList y) := by
  obtain ⟨n, m, hn, hm, hnm⟩ := h.node hx
  rw [statementList, statementList, hn, hm]
  cases hnm with
  | structureDefinition _ _ _ _ hbody =>
    cases hbody with
    | none => exact renamed_empty _ _
    | some hb =>
      obtain ⟨n, m, hn, hm, hnm⟩ := h.node hb
      dsimp only
      rw [hn, hm]
      cases hnm with
      | block hss => exact hss
      | _ => exact renamed_empty _ _
  | _ => exact renamed_empty _ _

theorem renamed_inputList {x y : NodeId} (hx : R x y) :
    (p.inputList x).Renamed R p.arena q.arena (q.inputList y) := by
  obtain ⟨n, m, hn, hm, hnm⟩ := h.node hx
  rw [inputList, inputList, hn, hm]
  cases hnm with
  | functionDefinition _ _ his => exact his
  | structureDefinition _ _ _ his => exact his
  | _ => exact renamed_empty _ _

theorem renamed_statements {x y : NodeId} (hx : R x y) :
    Forall₂ R (p.statements x) (q.statements y) := h.renamed_statementList hx

theorem renamed_inputs {x y : NodeId} (hx : R x y) : Forall₂ R (p.inputs x) (q.inputs y) :=
  h.renamed_inputList hx

theorem renamed_typeVariables {x y : NodeId} (hx : R x y) :
    Forall₂ R (p.typeVariables x) (q.typeVariables y) := by
  obtain ⟨n, m, hn, hm, hnm⟩ := h.node hx
  rw [typeVariables, typeVariables, hn, hm]
  cases hnm with
  | functionDefinition _ hvs => exact hvs
  | structureDefinition _ _ hvs => exact hvs
  | _ => exact .nil

theorem isRequired_eq {x y : NodeId} (hx : R x y) : p.isRequired x = q.isRequired y := by
  obtain ⟨n, m, hn, hm, hnm⟩ := h.node hx
  rw [isRequired, isRequired, hn, hm]
  cases hnm with
  | bind _ _ hvalue => cases hvalue <;> rfl
  | _ => rfl

/-- The kind of a node can be asked for, and whether it has a body. -/
theorem any_eq {x y : NodeId} (hx : R x y) {f : Node → Bool}
    (hf : ∀ {n m : Node}, n.Renamed R p.arena q.arena m → f n = f m) :
    (p.node? x).any f = (q.node? y).any f := by
  obtain ⟨n, m, hn, hm, hnm⟩ := h.node hx
  rw [hn, hm]
  exact hf hnm

omit h in
theorem isAbstractFunction_eq {a b : Arena} {n m : Node} (hnm : n.Renamed R a b m) :
    n.isAbstractFunction = m.isAbstractFunction := by
  cases hnm with
  | functionDefinition _ _ _ _ hbody => cases hbody <;> rfl
  | _ => rfl

omit h in
theorem isImplementedFunction_eq {a b : Arena} {n m : Node} (hnm : n.Renamed R a b m) :
    n.isImplementedFunction = m.isImplementedFunction := by
  cases hnm with
  | functionDefinition _ _ _ _ hbody => cases hbody <;> rfl
  | _ => rfl

omit h in
theorem isStructureDefinition_eq {a b : Arena} {n m : Node} (hnm : n.Renamed R a b m) :
    n.isStructureDefinition = m.isStructureDefinition := by
  cases hnm <;> rfl

theorem renamed_abstractFunctions {x y : NodeId} (hx : R x y) :
    Forall₂ R (p.abstractFunctions x) (q.abstractFunctions y) := by
  refine List.rel_filter (p := fun s => (p.node? s).any _) (q := fun s => (q.node? s).any _)
    (fun _ _ hab => ?_) (h.renamed_statements hx)
  exact Bool.eq_iff_iff.1 (h.any_eq hab isAbstractFunction_eq)

theorem renamed_implementedFunctions {x y : NodeId} (hx : R x y) :
    Forall₂ R (p.implementedFunctions x) (q.implementedFunctions y) := by
  refine List.rel_filter (p := fun s => (p.node? s).any _) (q := fun s => (q.node? s).any _)
    (fun _ _ hab => ?_) (h.renamed_statements hx)
  exact Bool.eq_iff_iff.1 (h.any_eq hab isImplementedFunction_eq)

theorem isInterface_eq {x y : NodeId} (hx : R x y) : p.isInterface x = q.isInterface y := by
  rw [isInterface, isInterface, h.any_eq hx isStructureDefinition_eq,
    List.rel_isEmpty (h.renamed_inputs hx), List.rel_isEmpty (h.renamed_implementedFunctions hx)]

/-! ## Resolution -/

theorem renamed_definitionNamed (n : Name) {x y : NodeId} (hx : R x y) :
    Option.Rel (Definition.Renamed R p q) (p.definitionNamed n x) (q.definitionNamed n y) := by
  have hc := h.renamed_classify hx
  rw [definitionNamed, definitionNamed, h.hasName_eq hx]
  revert hc
  generalize p.classify x = o, q.classify y = o'
  rintro (hd | _)
  · dsimp only
    split
    · exact .some hd
    · exact .none
  · exact .none

theorem renamed_firstNamed (n : Name) {rs ss : List NodeRange}
    (hrs : Forall₂ (NodeRange.Renamed R p.arena q.arena) rs ss) :
    Option.Rel (Definition.Renamed R p q) (p.firstNamed n rs) (q.firstNamed n ss) := by
  rw [firstNamed_eq, firstNamed_eq]
  refine List.rel_findSome? ?_ fun x y hx => h.renamed_definitionNamed n hx
  exact List.rel_flatMap hrs fun _ _ hr => hr

theorem namesItself_eq {x y : NodeId} (hx : R x y) : p.namesItself x = q.namesItself y := by
  obtain ⟨n, m, hn, hm, hnm⟩ := h.node hx
  rw [namesItself, namesItself, hn, hm]
  cases hnm <;> rfl

theorem renamed_visibleInBlock (n : Name) {r s : NodeRange} (hr : r.Renamed R p.arena q.arena s)
    {x y : NodeId} (hx : R x y) :
    Option.Rel (Definition.Renamed R p q) (p.visibleInBlock r x n) (q.visibleInBlock s y n) := by
  rw [visibleInBlock_eq, visibleInBlock_eq, List.rel_idxOf? h.unique hx hr]
  cases (q.arena.list s).idxOf? y with
  | none => exact .none
  | some place =>
    have hbefore := List.rel_findSome? (List.rel_reverse (List.forall₂_take place hr))
      fun x y hx => h.renamed_definitionNamed n hx
    dsimp only
    revert hbefore
    generalize List.findSome? _ _ = o, List.findSome? _ _ = o'
    rintro (hd | _)
    · exact .some hd
    · dsimp only
      rw [h.namesItself_eq hx]
      split
      · exact h.renamed_definitionNamed n hx
      · exact .none

theorem borrowsName_eq (n : Name) {r s : NodeRange} (hr : r.Renamed R p.arena q.arena s) :
    p.borrowsName r n = q.borrowsName s n := by
  refine List.rel_any hr fun x y hx => ?_
  obtain ⟨m, m', hm, hm', hmm⟩ := h.node hx
  rw [hm, hm']
  cases hmm with
  | borrow => rfl
  | _ => simp

theorem renamed_borrowed {n : Name} {x y : NodeId} (hx : R x y)
    (hn : p.node? x = some (.borrow n)) :
    Option.Rel (Definition.Renamed R p q) (p.borrowed n) (q.borrowed n) := by
  have hs := h.share hx hn
  have hstream := h.renamed_streamNamed? hx hn
  rw [borrowed, borrowed]
  rw [streamNamed?_eq_share p, streamNamed?_eq_share q] at hstream
  revert hs hstream
  generalize p.share? n = o, q.share? n = o'
  rintro (hs | _) hstream
  · cases hs with
    | structureDef hd => exact .some (.structureDef hd)
    | stream s s' =>
      cases hstream with
      | some hs => exact .some (.stream hs)
  · exact .none

theorem renamed_definitionInScope (n : Name) {s s' x y : NodeId} (hs : R s s') (hx : R x y) :
    Option.Rel (Definition.Renamed R p q) (p.definitionInScope s x n) (q.definitionInScope s' y n) := by
  obtain ⟨m, m', hm, hm', hmm⟩ := h.node hs
  rw [definitionInScope, definitionInScope, hm, hm']
  cases hmm with
  | block hss => exact h.renamed_visibleInBlock n hss hx
  | functionDefinition _ hvs his =>
    exact h.renamed_firstNamed n (.cons his (.cons hvs .nil))
  | structureDefinition _ _ hvs his _ =>
    exact h.renamed_firstNamed n (.cons his (.cons hvs (.cons (h.renamed_statementList hs) .nil)))
  | program hbs _ =>
    dsimp only
    rw [← h.borrowsName_eq n hbs]
    split
    · next hborrows =>
      obtain ⟨b, hb, hn⟩ := List.any_eq_true.1 hborrows
      obtain ⟨b', -, hbb'⟩ := List.rel_exists hbs hb
      exact h.renamed_borrowed hbb' (beq_iff_eq.1 hn)
    · exact .none
  | _ => exact .none

theorem renamed_resolveAlong (n : Name) {x y : NodeId} {xs ys : List NodeId} (hx : R x y)
    (hxs : Forall₂ R xs ys) :
    Option.Rel (Definition.Renamed R p q) (p.resolveAlong n x xs) (q.resolveAlong n y ys) := by
  induction hxs generalizing x y with
  | nil => exact .none
  | @cons s s' _ _ hs _ ih =>
    have hd := h.renamed_definitionInScope n hs hx
    rw [resolveAlong, resolveAlong]
    revert hd
    generalize p.definitionInScope s x n = o, q.definitionInScope s' y n = o'
    rintro (hd | _)
    · exact .some hd
    · exact ih hs

/-- A name stands for the same where related nodes use it. -/
theorem renamed_resolve (n : Name) {x y : NodeId} (hx : R x y) (hlooks : p.LooksUp x) :
    Option.Rel (Definition.Renamed R p q) (p.resolve n x) (q.resolve n y) :=
  h.renamed_resolveAlong n hx (h.ancestors hx hlooks)

theorem renamed_enclosingStructure {x y : NodeId} (hx : R x y) (hlooks : p.LooksUp x) :
    Option.Rel R (p.enclosingStructure x) (q.enclosingStructure y) :=
  List.rel_find? (h.ancestors hx hlooks) fun _ _ hab => h.any_eq hab isStructureDefinition_eq

end Program.Renamed

end Arbor
