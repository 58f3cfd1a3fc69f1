/-
  Shares that are not borrowed.

  What a program is asked and what its machine reports does not depend on the shares that it
  does not borrow: with two tables that agree on the names that it borrows, all answers and all
  reports are the same, whatever else is registered.

  * `Question` and `Command` are what a program can be asked and a machine can be told, and
    `Machine.reports` is what it reports;
  * `Session.SameBorrows` says that the programs of two sessions borrow the same.

  Main statement: `Session.SameBorrows.unborrowed_unobservable`.
-/
import Arbor.Proofs.Renaming.Borrowing
import Arbor.Proofs.Renaming.Failure

namespace Arbor

open List (Forall₂)

/-! ## Questions and commands -/

namespace Value

/-- The nodes that a value names. -/
def nodes : Value → List NodeId
  | bool _ | number _ | text _ => []
  | function d _ | definition d _ | instanceOf d _ => [d]
  | method d _ receiver => d :: receiver.nodes
  | exception e => [e.node]

/-- A value is its own renaming if its nodes are. -/
theorem renamed_self {R : NodeId → NodeId → Prop} {v : Value} (h : ∀ x ∈ v.nodes, R x x) :
    v.Renamed R v := by
  induction v with
  | bool b => exact .bool b
  | number x => exact .number x
  | text s => exact .text s
  | function d c => exact .function c (h d List.mem_cons_self)
  | method d c v ih =>
    exact .method c (h d List.mem_cons_self) (ih fun x hx => h x (List.mem_cons_of_mem _ hx))
  | definition d c => exact .definition c (h d List.mem_cons_self)
  | instanceOf d s => exact .instanceOf s (h d List.mem_cons_self)
  | exception e => exact .exception ⟨rfl, h e.node List.mem_cons_self⟩

end Value

/-- What a program can be asked. -/
inductive Question where
  | check
  | compile
  | typeOf (id : NodeId)
  | dependsOnStream (id : NodeId)

/-- What it answers. -/
inductive Answer where
  | conflicts (found : List Conflict)
  | steps (compiled : List Step)
  | type (t : Ty)
  | reads (b : Bool)

/-- What a machine can be told. -/
inductive Command where
  | start
  | step
  | run
  | reevaluate
  | streamInput (n : Name) (v : Value)

/-- What it reports; a result is shown together with its description. -/
inductive Reported where
  | begun
  | stepped (r : Except EvalError Outcome)
  | ran (r : Except EvalError (Value × String))
  | given (r : Except EvalError Unit)

namespace Program

/-- The answer to a question, with what is known already. -/
def answer (p : Program) : Question → Typing Answer
  | .check => return .conflicts (← p.check)
  | .compile => return .steps (p.compile p.root)
  | .typeOf id => return .type (← p.typeOf id)
  | .dependsOnStream id => return .reads (← p.dependsOnStream id)

/-- The answers to questions one after another. -/
def answers (p : Program) (ks : List Question) : Typing (List Answer) := ks.mapM p.answer

/-- The question is about nodes that the program sees. -/
def Asks (p : Program) : Question → Prop
  | .check | .compile => True
  | .typeOf id | .dependsOnStream id => p.Observes id

/-- The inputs are for streams that the program borrows, and name only nodes that it sees. -/
def Feeds (p : Program) : Command → Prop
  | .start | .step | .run | .reevaluate => True
  | .streamInput n v => p.Borrows n ∧ ∀ x ∈ v.nodes, p.Observes x

end Program

namespace Machine

/-- The machine after an input, which it may have refused. -/
def afterInput (m : Machine) : Except EvalError Machine → Reported × Machine
  | .ok m => (.given (.ok ()), m)
  | .error e => (.given (.error e), m)

/-- Does what it is told. -/
def obey (p : Program) (limits : Limits) (m : Machine) : Command → Reported × Machine
  | .start => (.begun, m.start p)
  | .reevaluate => (.begun, m.reevaluate p)
  | .step =>
    let (result, m) := m.step p limits
    (.stepped result, m)
  | .run =>
    let (result, m) := m.run p limits
    (.ran (result.map fun v => (v, v.describe p m.store.scopes)), m)
  | .streamInput n v => m.afterInput (m.streamInput p n v)

/-- What it reports of commands one after another. -/
def reports (p : Program) (limits : Limits) : List Command → Machine → List Reported
  | [], _ => []
  | c :: cs, m =>
    let (report, m) := m.obey p limits c
    report :: reports p limits cs m

end Machine

namespace Program.SameBorrows

variable {p q : Program} (h : p.SameBorrows q)
include h

theorem answer_eq {k : Question} (hk : p.Asks k) :
    Typing.Renamed p.Observed [] [] Eq (p.answer k) (q.answer k) := by
  have self {x y : NodeId} (hxy : p.Observed x y) : x = y := hxy.1
  cases k with
  | check =>
    refine h.renamed.renamed_check.bind fun cs cs' hcs => Typing.renamed_pure ?_
    rw [eq_of_forall₂ (Conflict.eq_of_renamed self) hcs]
  | compile =>
    refine Typing.renamed_pure ?_
    rw [eq_of_forall₂ (Step.eq_of_renamed self) (h.renamed.renamed_compile h.renamed.root)]
  | typeOf id =>
    refine (h.renamed.renamed_typeOf ⟨rfl, .inl hk⟩).bind fun t u ht => Typing.renamed_pure ?_
    rw [Ty.eq_of_renamed self ht]
  | dependsOnStream id =>
    refine (h.renamed.renamed_dependsOnStream ⟨rfl, .inl hk⟩).bind fun b c hb => ?_
    exact Typing.renamed_pure (congrArg Answer.reads hb)

/-- The programs give the same answers, and know the same afterwards. -/
theorem answers_eq {ks : List Question} (hks : ∀ k ∈ ks, p.Asks k) :
    Typing.Renamed p.Observed [] [] Eq (p.answers ks) (q.answers ks) := by
  have both : Forall₂ (fun k k' => k = k' ∧ p.Asks k) ks ks :=
    List.forall₂_same.2 fun k hk => ⟨rfl, hks k hk⟩
  refine (Typing.renamed_mapM both ?_).mono fun _ _ => eq_of_forall₂ id
  rintro k _ ⟨rfl, hk⟩
  exact h.answer_eq hk

/-- The machines report the same of a command, and can be told the next one. -/
theorem obey_eq {m m' : Machine} (hm : m.Renamed p.Observed p q m') (limits : Limits)
    {c : Command} (hc : p.Feeds c) :
    (m.obey p limits c).1 = (m'.obey q limits c).1 ∧
      (m.obey p limits c).2.Renamed p.Observed p q (m'.obey q limits c).2 := by
  have self {x y : NodeId} (hxy : p.Observed x y) : x = y := hxy.1
  cases c with
  | start => exact ⟨rfl, h.renamed.renamed_start hm⟩
  | reevaluate => exact ⟨rfl, h.renamed.renamed_beginRun hm true⟩
  | step =>
    obtain ⟨hr, hm⟩ := h.renamed.renamed_step hm limits
    exact ⟨congrArg Reported.stepped (hr.eq (fun _ _ => EvalError.eq_of_renamed self)
      fun _ _ => Outcome.eq_of_renamed self), hm⟩
  | run =>
    have hrun := h.renamed.renamed_run hm limits
    dsimp only [Machine.obey]
    revert hrun
    generalize m.run p limits = r, m'.run q limits = r'
    obtain ⟨r, m⟩ := r
    obtain ⟨r', m'⟩ := r'
    rintro ⟨he | hv, hm⟩
    · rw [EvalError.eq_of_renamed self he]
      exact ⟨rfl, hm⟩
    · refine ⟨?_, hm⟩
      dsimp only [Except.map]
      rw [h.renamed.describe_value_eq hm.store.scopes hv, Value.eq_of_renamed self hv]
  | streamInput n v =>
    obtain ⟨⟨x, hx, hn⟩, hv⟩ := hc
    have hgiven := h.renamed.renamed_streamInput hm ⟨rfl, .inl hx⟩ hn
      (Value.renamed_self fun x hx => ⟨rfl, .inl (hv x hx)⟩)
    dsimp only [Machine.obey]
    revert hgiven
    generalize m.streamInput p n v = r, m'.streamInput q n v = r'
    rintro (he | hm')
    · rw [EvalError.eq_of_renamed self he]
      exact ⟨rfl, hm⟩
    · exact ⟨rfl, hm'⟩

/-- The machines report the same of any commands. -/
theorem reports_eq {m m' : Machine} (hm : m.Renamed p.Observed p q m') (limits : Limits)
    {cs : List Command} (hcs : ∀ c ∈ cs, p.Feeds c) :
    m.reports p limits cs = m'.reports q limits cs := by
  induction cs generalizing m m' with
  | nil => rfl
  | cons c cs ih =>
    rw [List.forall_mem_cons] at hcs
    obtain ⟨hreport, hm⟩ := h.obey_eq hm limits hcs.1
    exact congrArg₂ List.cons hreport (ih hm hcs.2)

end Program.SameBorrows

/-! ## What is done to sessions -/

namespace Session

/-- A stream is registered under the name that it is shared as. -/
theorem Made.stream_name {s : Session} (hs : s.Made) {n : Name} {id : StreamId}
    (hid : s.shares.get? n = some (.stream id)) :
    (s.shares.stream? id).map StreamInfo.name = some n := by
  induction hs generalizing n id with
  | ofSettings settings =>
    rw [ofSettings_eq] at hid
    cases hid
  | grow _ _ _ ih => exact ih hid
  | setRoot _ _ ih => exact ih hid
  | @shareStream s _ name type _ ih =>
    simp only [Session.shareStream, Shares.shareStream, Shares.get?, Table.get?_insert] at hid
    split at hid
    · next hn =>
      cases hid
      simp [Session.shareStream, Shares.shareStream, Shares.stream?, hn]
    · have hold := ih hid
      obtain ⟨info, hinfo, -⟩ := Option.map_eq_some_iff.1 hold
      have hlt : id.index < s.shares.streams.length := (List.getElem?_eq_some_iff.1 hinfo).1
      refine Eq.trans (congrArg (Option.map _) ?_) hold
      exact List.getElem?_append_left hlt
  | @shareStructure s _ name definition _ ih =>
    simp only [Session.shareStructure, Shares.shareStructure, Shares.get?,
      Table.get?_insert] at hid
    split at hid
    · cases hid
    · exact ih hid
  | @edit s _ target replacement _ ih =>
    rw [(s.edit_kept target replacement).2] at hid ⊢
    exact ih hid

/-- No two names are shared as the same stream. -/
theorem Made.name_eq {s : Session} (hs : s.Made) {n m : Name} {id : StreamId}
    (hn : s.shares.get? n = some (.stream id)) (hm : s.shares.get? m = some (.stream id)) :
    n = m :=
  Option.some.inj ((hs.stream_name hn).symm.trans (hs.stream_name hm))

/-- The arena of a session has grown from that of the basis. -/
theorem Made.overBasis {s : Session} (hs : s.Made) :
    s.basis = Forest.withBasis.1 ∧ Forest.withBasis.2.arena.Extends s.forest.arena := by
  induction hs with
  | ofSettings settings =>
    rw [ofSettings_eq]
    generalize Forest.withBasis = built
    exact ⟨rfl, .refl _⟩
  | grow hs hf _ ih => exact ⟨ih.1, ih.2.trans (hf.adds hs.ordered.arena).1⟩
  | setRoot _ _ ih => exact ih
  | shareStream _ _ _ ih => exact ih
  | shareStructure _ _ _ ih => exact ih
  | @edit s hs target replacement hr ih =>
    refine ⟨(s.edit_kept target replacement).1.trans ih.1, ih.2.trans ?_⟩
    exact (edit_arena hs.ordered.arena hs.ordered.short target hr).1

/-- The basis uses no names, whatever was added to it. -/
theorem Made.quiet {s : Session} (hs : s.Made) {x : NodeId}
    (hx : x ∈ s.forest.arena.preorders s.basis.roots) :
    (s.forest.arena.node? x).all Node.isQuiet = true := by
  obtain ⟨hbasis, hextends⟩ := hs.overBasis
  rw [hbasis] at hx
  exact hextends.quiet hs.ordered.arena.acyclic hx

end Session

/-! ## Two sessions -/

namespace Session

/-- The sessions have the same nodes and the same root, and their programs agree on what they
    borrow. -/
structure SameBorrows (s t : Session) (p q : Program) : Prop where
  made : s.Made
  made' : t.Made
  forest : t.forest = s.forest
  root : t.root = s.root
  program : s.program = .ok p
  program' : t.program = .ok q
  known : p.arena.Knows p.root
  agree : ∀ n, p.Borrows n → q.offer? n = p.offer? n
  apart : p.Apart
  apart' : q.Apart

namespace SameBorrows

variable {s t : Session} {p q : Program} (h : s.SameBorrows t p q)
include h

/-- Their programs borrow the same. -/
theorem programs : p.SameBorrows q := by
  obtain ⟨root, hroot, rfl⟩ := exists_root h.program
  obtain ⟨root', hroot', rfl⟩ := exists_root h.program'
  have heq : root' = root := by
    have hroots := h.root
    rw [hroot, hroot'] at hroots
    exact Option.some.inj hroots
  have hforest := h.forest
  have hbasis := h.made.overBasis.1
  have hbasis' := h.made'.overBasis.1
  have name_eq {s : Session} (hs : s.Made) (n m : Name) (id : StreamId)
      (hn : (Program.ofRoot s.forest s.basis (some s.shares) root).streamNamed? n = some id)
      (hm : (Program.ofRoot s.forest s.basis (some s.shares) root).streamNamed? m = some id) :
      n = m :=
    hs.name_eq (Program.streamNamed?_eq_some.1 hn) (Program.streamNamed?_eq_some.1 hm)
  have quiet {x : NodeId} (hx : x ∈ s.forest.arena.preorders s.basis.roots) :
      (s.forest.arena.node? x).all Node.isQuiet = true := h.made.quiet hx
  refine
    { complete := h.made.ordered.arena.complete
      acyclic := h.made.ordered.arena.acyclic
      arena := congrArg Forest.arena hforest
      interner := congrArg Forest.interner hforest
      basis := hbasis'.trans hbasis.symm
      tree := rfl
      tree' := ?_
      root := h.known
      known := fun r hr => (List.mem_append.1 hr).elim (h.made.ordered.basis r)
        (h.made.ordered.shares r)
      quiet := fun x hx => ⟨?_, fun n hn => ?_⟩
      named := name_eq h.made
      named' := heq ▸ name_eq h.made'
      agree := h.agree
      apart := h.apart
      apart' := h.apart' }
  · rw [heq]
    show Tree.ofRoots t.forest.arena root (t.basis.roots ++ _) =
      Tree.ofRoots s.forest.arena root (s.basis.roots ++ _)
    rw [hforest, hbasis, hbasis']
    rfl
  · have hall := quiet hx
    rintro (⟨n, hn⟩ | ⟨n, is, hn⟩)
    all_goals
      rw [show s.forest.arena.node? x = _ from hn] at hall
      cases hall
  · have hall := quiet hx
    rw [show s.forest.arena.node? x = _ from hn] at hall
    cases hall

/-- **Shares that are not borrowed are unobservable.**  Two sessions that agree on what their
    program borrows get the same answers to any questions, and their machines report the same of
    any commands, whatever else is shared. -/
theorem unborrowed_unobservable {ks : List Question} (hks : ∀ k ∈ ks, p.Asks k)
    {cs : List Command} (hcs : ∀ c ∈ cs, p.Feeds c) (limits : Limits) :
    let answered := p.answers ks .empty
    let answered' := q.answers ks .empty
    answered.1 = answered'.1 ∧
      (Machine.initial answered.2).reports p limits cs =
        (Machine.initial answered'.2).reports q limits cs := by
  obtain ⟨hanswers, hmemo, hidle, hidle'⟩ :=
    h.programs.answers_eq hks .empty .empty Memo.renamed_empty rfl rfl
  exact ⟨hanswers, h.programs.reports_eq (Program.Renamed.renamed_initial hmemo hidle hidle')
    limits hcs⟩

end SameBorrows

end Session

/-! ## A structure that is shared and not borrowed -/

namespace Forest

/-- The forest after calls of the builder one after another, if each of them is given only
    nodes that are there and makes a node. -/
def afterCalls : List Build.Call → Forest → Option Forest
  | [], f => some f
  | c :: cs, f =>
    if c.given.all fun id => id.raw < f.arena.size then
      match c.make.run f with
      | .ok (_, g) => afterCalls cs g
      | .error _ => none
    else none

theorem history_afterCalls {cs : List Build.Call} {f g : Forest} (h : afterCalls cs f = some g) :
    History f g := by
  induction cs generalizing f with
  | nil =>
    cases h
    exact .refl
  | cons c cs ih =>
    unfold afterCalls at h
    split at h
    · next hgiven =>
      split at h
      · next id g' hr =>
        refine .head (.call c (fun id hid => ?_) hr) (ih h)
        exact of_decide_eq_true (List.all_eq_true.1 hgiven id hid)
      · cases h
    · cases h

end Forest

namespace Program

/-- The node borrows no other name. -/
def borrowsOnly (m : Name) : Node → Bool
  | .borrow n => n == m
  | _ => true

theorem eq_of_borrowsOnly {p : Program} {m : Name}
    (honly : ∀ x ∈ p.arena.preorder p.root, (p.node? x).all (borrowsOnly m) = true) {x : NodeId}
    (hx : x ∈ p.arena.preorder p.root) {n : Name} (hn : p.node? x = some (.borrow n)) : n = m := by
  have hall := honly x hx
  rw [hn] at hall
  exact beq_iff_eq.1 hall

/-- A program that borrows nothing but a stream, whose values are of a type that names no node,
    borrows nothing through the stream either. -/
theorem Borrows.eq {p : Program} (ha : p.arena.Acyclic) {m : Name} {t : Ty}
    (honly : ∀ x ∈ p.arena.preorder p.root, (p.node? x).all (borrowsOnly m) = true)
    (hm : p.offer? m = some (.stream (some t))) (ht : t.nodes = []) {n : Name}
    (hn : p.Borrows n) : n = m := by
  obtain ⟨x, hx, hn⟩ := hn
  refine eq_of_borrowsOnly honly ?_ hn
  clear hn
  induction hx with
  | root => exact Arena.mem_preorder_self ha _
  | child _ hc ih => exact Arena.mem_preorder_child ha ih hc
  | structureDef _ hn hd ih =>
    rw [eq_of_borrowsOnly honly ih hn, hm] at hd
    cases hd
  | stream _ hn hd hx ih =>
    rw [eq_of_borrowsOnly honly ih hn, hm] at hd
    cases hd
    rw [ht] at hx
    cases hx

end Program

namespace Session

/-- Calls for a program that asks a stream `clock` for the `value` of what it gives, and for a
    structure `box` outside the program that has one. -/
def boxCalls : List Build.Call :=
  [.borrow "clock", .reference "clock", .property ⟨109⟩ "value", .typeVariable "T",
    .nameType "T" [], .input "value" ⟨114⟩, .genericStructure "box" [⟨113⟩] [] [⟨117⟩] [],
    .program [⟨108⟩] [⟨110⟩]]

/-- The session with that program and the stream. -/
def boxes (type : Ty) : Session :=
  let f := (Forest.afterCalls boxCalls Forest.withBasis.2).getD Forest.withBasis.2
  (({ ofSettings .standard with forest := f }.setRoot ⟨122⟩).shareStream "clock" type).2

/-- The structure is shared as well. -/
def withBox (s : Session) : Session := s.shareStructure "box" ⟨120⟩

/-- The program of such a session. -/
def boxProgram (s : Session) : Program := .ofRoot s.forest s.basis (some s.shares) ⟨122⟩

theorem made_boxes {type : Ty} (htype : ∀ x ∈ type.nodes, x.raw < 123) : (boxes type).Made := by
  have hsome : (Forest.afterCalls boxCalls Forest.withBasis.2).isSome = true := by decide +kernel
  have hbuilt : let f := (Forest.afterCalls boxCalls Forest.withBasis.2).getD Forest.withBasis.2
      f.arena.Short ∧ f.arena.size = 123 :=
    ⟨Arena.short_of_all (by decide +kernel), by decide +kernel⟩
  obtain ⟨f, hf⟩ := Option.isSome_iff_exists.1 hsome
  have basis : (ofSettings .standard).forest = Forest.withBasis.2 := by rw [ofSettings_eq]
  unfold boxes
  rw [hf, Option.getD_some] at hbuilt ⊢
  have grown : Made { ofSettings .standard with forest := f } :=
    .grow (.ofSettings .standard) (basis ▸ Forest.history_afterCalls hf) hbuilt.1
  refine .shareStream (.setRoot grown _) _ fun x hx => ?_
  show x.raw < f.arena.size
  rw [hbuilt.2]
  exact htype x hx

theorem made_withBox {type : Ty} (htype : ∀ x ∈ type.nodes, x.raw < 123)
    (hsize : (boxes type).forest.arena.size = 123) : (withBox (boxes type)).Made := by
  refine (made_boxes htype).shareStructure _ ?_
  show 120 < (boxes type).forest.arena.size
  rw [hsize]
  decide

theorem forest_withBox {s : Session} (h : (s.forest.interner.find? "box").isSome = true) :
    (withBox s).forest = s.forest := by
  obtain ⟨n, hn⟩ := Option.isSome_iff_exists.1 h
  simp only [withBox, shareStructure, intern, Interner.intern, hn]

theorem acyclic_boxProgram {s : Session} (h : s.Made) : (boxProgram s).arena.Acyclic :=
  h.ordered.arena.acyclic

theorem root_shareStream (s : Session) (name : String) (type : Ty) :
    (s.shareStream name type).2.root = s.root := rfl

theorem root_withBox (s : Session) : (withBox s).root = s.root := rfl

theorem root_boxes (type : Ty) : (boxes type).root = some ⟨122⟩ := by
  unfold boxes
  rw [root_shareStream]
  rfl

/-- What is to be looked up in a session so that the program borrows nothing but a stream of
    values that name no node, and the structures are apart from it. -/
structure OnlyClock (s : Session) : Prop where
  only : ∀ x ∈ (boxProgram s).arena.preorder (boxProgram s).root,
    ((boxProgram s).node? x).all (Program.borrowsOnly ⟨12⟩) = true
  offer : (boxProgram s).offer? ⟨12⟩ = some (.stream (some (.primitive .number)))
  program : ∀ d ∈ (boxProgram s).registered, ∀ z ∈ (boxProgram s).arena.preorder d,
    z ∉ (boxProgram s).arena.preorder (boxProgram s).root
  pairwise : ∀ d ∈ (boxProgram s).registered, ∀ e ∈ (boxProgram s).registered,
    ∀ z ∈ (boxProgram s).arena.preorder d, z ∈ (boxProgram s).arena.preorder e → d = e

section
variable {s : Session} (h : s.OnlyClock) (hs : s.Made)
include h hs

theorem OnlyClock.eq {n : Name} (hn : (boxProgram s).Borrows n) : n = ⟨12⟩ :=
  hn.eq (acyclic_boxProgram hs) h.only h.offer rfl

theorem OnlyClock.apart : (boxProgram s).Apart := by
  refine ⟨h.program, h.pairwise, fun n t hn ht x hx => ?_⟩
  rw [h.eq hs hn, h.offer] at ht
  cases ht
  cases hx

theorem OnlyClock.sameBorrows (h' : (withBox s).OnlyClock) (hs' : (withBox s).Made)
    (hforest : (withBox s).forest = s.forest) (hroot : s.root = some ⟨122⟩)
    (hsize : s.forest.arena.size = 123) :
    s.SameBorrows (withBox s) (boxProgram s) (boxProgram (withBox s)) where
  made := hs
  made' := hs'
  forest := hforest
  root := root_withBox s
  program := program_of_root hroot
  program' := program_of_root hroot
  known := by
    show 122 < s.forest.arena.size
    rw [hsize]
    decide
  agree n hn := by rw [h.eq hs hn, h.offer, h'.offer]
  apart := h.apart hs
  apart' := h'.apart hs'

end

/-- If `clock` gives numbers, the program borrows the same whether the structure is shared. -/
theorem sameBorrows_boxes :
    (boxes (.primitive .number)).SameBorrows (withBox (boxes (.primitive .number)))
      (boxProgram (boxes (.primitive .number)))
      (boxProgram (withBox (boxes (.primitive .number)))) := by
  have hsize : (boxes (.primitive .number)).forest.arena.size = 123 := by decide +kernel
  have only : (boxes (.primitive .number)).OnlyClock := by
    constructor <;> decide +kernel
  have only' : (withBox (boxes (.primitive .number))).OnlyClock := by
    constructor <;> decide +kernel
  exact only.sameBorrows (made_boxes nofun) only' (made_withBox nofun hsize)
    (forest_withBox (by decide +kernel)) (root_boxes _) hsize

theorem observes_boxProgram {s : Session} (hs : s.Made) {x : NodeId}
    (hx : x ∈ (boxProgram s).tree.nodes) : (boxProgram s).Observes x :=
  Program.Observes.root.mem_preorder (acyclic_boxProgram hs) hx

/-- The type of the value that is asked for, whether it reads a stream, and two runs, one of
    them on an input, are the same whether the structure is shared. -/
theorem unborrowed_unobservable_boxes :
    let p := boxProgram (boxes (.primitive .number))
    let q := boxProgram (withBox (boxes (.primitive .number)))
    let ks : List Question := [.check, .compile, .typeOf ⟨110⟩, .dependsOnStream ⟨110⟩]
    let cs : List Command := [.run, .streamInput ⟨12⟩ (.text "one"), .run]
    p.registered = [] ∧ q.registered = [⟨120⟩] ∧
      (p.answers ks .empty).1 = (q.answers ks .empty).1 ∧
      (Machine.initial (p.answers ks .empty).2).reports p Settings.standard.limits cs =
        (Machine.initial (q.answers ks .empty).2).reports q Settings.standard.limits cs := by
  have hsame := sameBorrows_boxes
  have hnodes : ⟨108⟩ ∈ (boxProgram (boxes (.primitive .number))).tree.nodes ∧
      ⟨110⟩ ∈ (boxProgram (boxes (.primitive .number))).tree.nodes ∧
      (boxProgram (boxes (.primitive .number))).node? ⟨108⟩ = some (.borrow ⟨12⟩) := by
    decide +kernel
  have hregistered : (boxProgram (boxes (.primitive .number))).registered = [] ∧
      (boxProgram (withBox (boxes (.primitive .number)))).registered = [⟨120⟩] := by
    decide +kernel
  have value := observes_boxProgram hsame.made hnodes.2.1
  have clock : (boxProgram (boxes (.primitive .number))).Borrows ⟨12⟩ :=
    ⟨⟨108⟩, observes_boxProgram hsame.made hnodes.1, hnodes.2.2⟩
  intro p q ks cs
  have hks : ∀ k ∈ ks, p.Asks k := by
    simp only [ks, List.forall_mem_cons]
    exact ⟨trivial, trivial, value, value, nofun⟩
  have hcs : ∀ c ∈ cs, p.Feeds c := by
    simp only [cs, List.forall_mem_cons]
    exact ⟨trivial, ⟨clock, nofun⟩, trivial, nofun⟩
  exact ⟨hregistered.1, hregistered.2,
    SameBorrows.unborrowed_unobservable hsame hks hcs Settings.standard.limits⟩

theorem treeShaped_boxProgram {s : Session} (hs : s.Made)
    (h : (boxProgram s).tree.nodes.Nodup ∧
      ⟨122⟩ ∉ (boxProgram s).arena.preorders (boxProgram s).detached) :
    (boxProgram s).TreeShaped :=
  treeShaped_ofRoot (acyclic_boxProgram hs) h.1 h.2

theorem program_boxProgram {s : Session} (h : s.root = some ⟨122⟩) :
    s.program = .ok (boxProgram s) ∧ (withBox s).program = .ok (boxProgram (withBox s)) :=
  ⟨program_of_root h, program_of_root h⟩

/-- The types of borrowed streams name nodes as well.  If `clock` gives boxes of numbers, the
    `value` of what it gives is a number if the structure is shared; if it is not, nothing is
    around the nodes of the structure, and its type variable stands for nothing. -/
theorem observable_boxes :
    let s := boxes (.instanceOf ⟨120⟩ [.primitive .number])
    let p := boxProgram s
    let q := boxProgram (withBox s)
    s.program = .ok p ∧ (withBox s).program = .ok q ∧ s.Made ∧ (withBox s).Made ∧
      (withBox s).forest = s.forest ∧ p.TreeShaped ∧ q.TreeShaped ∧ p.registered = [] ∧
      q.registered = [⟨120⟩] ∧ (q.arena.preorder ⟨120⟩).Nodup ∧
      (∀ z ∈ q.arena.preorder ⟨120⟩, z ∉ q.tree.nodes) ∧
      (∀ x ∈ p.tree.nodes, (p.node? x).all (Program.borrowsOnly ⟨12⟩) = true) ∧
      p.offer? ⟨12⟩ = some (.stream (some (.instanceOf ⟨120⟩ [.primitive .number]))) ∧
      q.offer? ⟨12⟩ = p.offer? ⟨12⟩ ∧ ⟨110⟩ ∈ p.tree.nodes ∧
      (p.typeOf ⟨110⟩ .empty).1 = .unknown ∧
      (q.typeOf ⟨110⟩ .empty).1 = .primitive .number := by
  have hprogram := program_boxProgram (root_boxes (.instanceOf ⟨120⟩ [.primitive .number]))
  have hsize : (boxes (.instanceOf ⟨120⟩ [.primitive .number])).forest.arena.size = 123 := by
    decide +kernel
  have htype : ∀ x ∈ (Ty.instanceOf ⟨120⟩ [.primitive .number]).nodes, x.raw < 123 := by decide
  have made := made_boxes htype
  have made' := made_withBox htype hsize
  have shape := treeShaped_boxProgram made (by decide +kernel)
  have shape' := treeShaped_boxProgram made' (by decide +kernel)
  have hforest : (withBox (boxes (.instanceOf ⟨120⟩ [.primitive .number]))).forest =
      (boxes (.instanceOf ⟨120⟩ [.primitive .number])).forest :=
    forest_withBox (by decide +kernel)
  refine ⟨hprogram.1, hprogram.2, made, made', hforest, shape, shape', ?_⟩
  decide +kernel

end Session

end Arbor
