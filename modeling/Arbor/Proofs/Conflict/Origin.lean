/-
  Where conflicts come from.

  A conflict blames the node that was checked, or some of its children; its code says which
  of the two.  In a tree-shaped program a child belongs to one node only, so two nodes never
  have conflicts with the same code and the same first primary node.  One node has several
  of them only if inputs of a call are missing, if functions of interfaces are missing, or if
  an input has several names that others have too.

  * `Conflict.From p id c`: the conflict blames the node `id` or children of it, as its code
    says;
  * `Conflict.key`: what a queue will know the conflict by; `ErrorCode.mayRepeat` are the
    codes that one node may report several times;
  * `Conflict.AllFrom` and `Conflict.AtEach`: the conflicts of one node, and those about a list
    of its children;
  * `repetitions`: the names that an input gives again;
  * `Typing.Gives x Q`: whatever is known, the answer of `x` has the property `Q`.

  Main statements: `gives_conflictsOf`, the conflicts of one node, `gives_check_lists`, those
  of a program, and `gives_check`, those of a tree-shaped one.
-/
import Arbor.Conflict.Check
import Arbor.Proofs.Program.Shape
import Arbor.Proofs.Renaming.Relation
import Mathlib.Data.List.Forall2

namespace Arbor

/-! ## Answers of analyses -/

namespace Typing

/-- Whatever is known, the answer has the property. -/
def Gives {α : Type} (x : Typing α) (Q : α → Prop) : Prop := ∀ m : Memo, Q (x m).1

variable {α β : Type} {Q Q' : α → Prop} {R : β → Prop} {x : Typing α}

theorem gives_pure {a : α} (h : Q a) : (pure a : Typing α).Gives Q := fun _ => h

theorem gives_any (x : Typing α) : x.Gives fun _ => True := fun _ => trivial

theorem Gives.mono (hx : x.Gives Q) (h : ∀ a, Q a → Q' a) : x.Gives Q' := fun m => h _ (hx m)

theorem Gives.bind {f : α → Typing β} (hx : x.Gives Q) (hf : ∀ a, Q a → (f a).Gives R) :
    (x >>= f).Gives R := fun m => hf _ (hx m) _

/-- What an analysis asks before does not matter. -/
theorem gives_after {f : α → Typing β} (hf : ∀ a, (f a).Gives R) : (x >>= f).Gives R :=
  (gives_any x).bind fun a _ => hf a

theorem gives_mapM {f : α → Typing β} {P : α → β → Prop} {l : List α}
    (h : ∀ a ∈ l, (f a).Gives (P a)) : (l.mapM f).Gives (List.Forall₂ P l) := by
  induction l with
  | nil => exact gives_pure .nil
  | cons a l ih =>
    rw [List.mapM_cons]
    refine (h a List.mem_cons_self).bind fun b hb => ?_
    refine (ih fun c hc => h c (List.mem_cons_of_mem _ hc)).bind fun bs hbs => ?_
    exact gives_pure (.cons hb hbs)

end Typing

/-- Items of different lists are related if the lists come from different items. -/
theorem pairwise_flatten_of_forall₂ {α β : Type} {P : α → List β → Prop} {S : α → α → Prop}
    {R : β → β → Prop} {items : List α} {lists : List (List β)} (h : List.Forall₂ P items lists)
    (hitems : items.Pairwise S) (hself : ∀ a l, P a l → l.Pairwise R)
    (hother : ∀ a b l k, S a b → P a l → P b k → ∀ x ∈ l, ∀ y ∈ k, R x y) :
    lists.flatten.Pairwise R := by
  induction h with
  | nil => exact .nil
  | @cons a l items lists hl hls ih =>
    obtain ⟨ha, hitems⟩ := List.pairwise_cons.1 hitems
    rw [List.flatten_cons, List.pairwise_append]
    refine ⟨hself a l hl, ih hitems, fun x hx y hy => ?_⟩
    obtain ⟨k, hk, hy⟩ := List.mem_flatten.1 hy
    obtain ⟨b, hb, hbk⟩ := List.rel_exists hls.flip hk
    exact hother a b l k (ha b hb) hl hbk x hx y hy

/-! ## What conflicts blame -/

namespace ErrorCode

/-- Whether conflicts with the code blame children of the node that is checked. -/
def blamesChildren : ErrorCode → Bool
  | e2002 | e2004 | e2008 | e2011 | e2012 | e2013 | e2014 | w2002 | w2003 => true
  | _ => false

/-- Whether one node may report the code several times with the same first primary node:
    missing inputs, missing functions and names that are given twice. -/
def mayRepeat : ErrorCode → Bool
  | e2003 | e2007 | e2011 => true
  | _ => false

end ErrorCode

namespace Conflict

variable {p : Program} {id : NodeId} {c e : Conflict} {cs ds : List Conflict}

/-- The code and the first primary node. -/
def key (c : Conflict) : ErrorCode × Option NodeId := (c.code, c.primary.head?)

/-- Two conflicts that a queue tells apart, unless their code may repeat. -/
def Apart (c e : Conflict) : Prop := c.key = e.key → c.code.mayRepeat = true

theorem apart_of_code_ne (h : c.code ≠ e.code) : c.Apart e :=
  fun hkey => absurd (congrArg Prod.fst hkey) h

theorem apart_of_mayRepeat (h : c.code.mayRepeat = true) : c.Apart e := fun _ => h

/-- Conflicts that may repeat are apart from each other. -/
theorem pairwise_of_mayRepeat (h : ∀ c ∈ cs, c.code.mayRepeat = true) : cs.Pairwise Apart :=
  List.pairwise_iff_forall_sublist.2 fun hsub =>
    apart_of_mayRepeat (h _ (hsub.subset List.mem_cons_self))

theorem apart_of_primary_ne {x y : NodeId} (hc : c.primary = [x]) (he : e.primary = [y])
    (hne : x ≠ y) : c.Apart e := by
  intro hkey
  have hhead : c.primary.head? = e.primary.head? := congrArg Prod.snd hkey
  rw [hc, he] at hhead
  exact absurd (Option.some.inj hhead) hne

/-- The conflict blames the node, or children of it, as its code says. -/
def From (p : Program) (id : NodeId) (c : Conflict) : Prop :=
  if c.code.blamesChildren then c.primary ≠ [] ∧ ∀ x ∈ c.primary, x ∈ p.arena.children id
  else c.primary = [id]

theorem from_self (hcode : c.code.blamesChildren = false) (h : c.primary = [id]) :
    c.From p id := by
  rw [From, hcode]
  exact h

theorem from_child {x : NodeId} (hcode : c.code.blamesChildren = true)
    (hx : x ∈ p.arena.children id) (h : c.primary = [x]) : c.From p id := by
  rw [From, hcode, h]
  exact ⟨nofun, fun y hy => List.mem_singleton.1 hy ▸ hx⟩

/-- The conflicts come from the node, and are apart from each other if no child of the node
    comes twice. -/
structure AllFrom (p : Program) (id : NodeId) (cs : List Conflict) : Prop where
  origin : ∀ c ∈ cs, c.From p id
  apart : (p.arena.children id).Nodup → cs.Pairwise Apart

theorem allFrom_nil : AllFrom p id [] := ⟨nofun, fun _ => .nil⟩

theorem allFrom_one (h : c.From p id) : AllFrom p id [c] :=
  ⟨fun _ hc => List.mem_singleton.1 hc ▸ h, fun _ => List.pairwise_singleton _ _⟩

/-- Conflicts with other codes may follow. -/
theorem AllFrom.append (hcs : AllFrom p id cs) (hds : AllFrom p id ds)
    (hcodes : ∀ c ∈ cs, ∀ e ∈ ds, c.code ≠ e.code) : AllFrom p id (cs ++ ds) := by
  refine ⟨fun c hc => ?_, fun honce => List.pairwise_append.2
    ⟨hcs.apart honce, hds.apart honce, fun c hc e he => ?_⟩⟩
  · exact (List.mem_append.1 hc).elim (hcs.origin c) (hds.origin c)
  · exact apart_of_code_ne (hcodes c hc e he)

/-- Each conflict has one of the codes and blames one of the nodes, and those of different
    nodes are apart from each other. -/
structure AtEach (codes : List ErrorCode) (nodes : List NodeId) (cs : List Conflict) : Prop where
  blames : ∀ c ∈ cs, c.code ∈ codes ∧ ∃ x ∈ nodes, c.primary = [x]
  apart : nodes.Nodup → cs.Pairwise Apart

namespace AtEach

variable {codes : List ErrorCode} {nodes : List NodeId} {x : NodeId}

theorem nil : AtEach codes [] [] := ⟨nofun, fun _ => .nil⟩

/-- The conflicts of one node stand before those of the others. -/
theorem cons (hown : ∀ c ∈ cs, c.code ∈ codes ∧ c.primary = [x]) (hapart : cs.Pairwise Apart)
    (hrest : AtEach codes nodes ds) : AtEach codes (x :: nodes) (cs ++ ds) := by
  refine ⟨fun c hc => ?_, fun honce => ?_⟩
  · rcases List.mem_append.1 hc with hc | hc
    · exact ⟨(hown c hc).1, x, List.mem_cons_self, (hown c hc).2⟩
    · obtain ⟨hcode, y, hy, hprimary⟩ := hrest.blames c hc
      exact ⟨hcode, y, List.mem_cons_of_mem _ hy, hprimary⟩
  · obtain ⟨hx, honce⟩ := List.nodup_cons.1 honce
    refine List.pairwise_append.2 ⟨hapart, hrest.apart honce, fun c hc e he => ?_⟩
    obtain ⟨-, y, hy, hprimary⟩ := hrest.blames e he
    exact apart_of_primary_ne (hown c hc).2 hprimary fun h => hx (h ▸ hy)

/-- Conflicts about children of a node come from the node. -/
theorem allFrom (h : AtEach codes nodes cs) (hcodes : ∀ k ∈ codes, k.blamesChildren = true)
    (hnodes : nodes.Sublist (p.arena.children id)) : AllFrom p id cs := by
  refine ⟨fun c hc => ?_, fun honce => h.apart (hnodes.nodup honce)⟩
  obtain ⟨hcode, y, hy, hprimary⟩ := h.blames c hc
  exact from_child (hcodes _ hcode) (hnodes.subset hy) hprimary

end AtEach

/-- Conflicts of two nodes without common children are apart from each other. -/
theorem From.apart {x y : NodeId} (hc : c.From p x) (he : e.From p y) (hne : x ≠ y)
    (hdisjoint : ∀ z ∈ p.arena.children x, z ∉ p.arena.children y) : c.Apart e := by
  intro hkey
  have hcode : c.code = e.code := congrArg Prod.fst hkey
  have hhead : c.primary.head? = e.primary.head? := congrArg Prod.snd hkey
  unfold From at hc he
  rw [← hcode] at he
  split at hc
  · next hb =>
    rw [if_pos hb] at he
    obtain ⟨z, zs, hz⟩ := List.exists_cons_of_ne_nil hc.1
    rw [hz, List.head?_cons] at hhead
    have hzc : z ∈ c.primary := hz ▸ List.mem_cons_self
    exact absurd (he.2 z (List.mem_of_head? hhead.symm)) (hdisjoint z (hc.2 z hzc))
  · next hb =>
    rw [if_neg hb] at he
    rw [hc, he] at hhead
    exact absurd (Option.some.inj hhead) hne

end Conflict

namespace Program

open Typing Conflict

variable {p : Program} {id : NodeId}

/-! ## Calls -/

section
variable {definition : NodeId} {receiver : Option Ty} {types : List Ty} {input argument : NodeId}
variable {given : Ty} {index : Nat} {arguments : List NodeId}

/-- A value that is not accepted is the one conflict of an input that is given. -/
theorem gives_givenConflicts :
    (p.givenConflicts definition receiver types index input argument given).Gives
      fun cs => ∀ c ∈ cs, cs = [c] ∧ c.code = .e2004 ∧ c.primary = [argument] := by
  refine gives_after fun expected => gives_after fun b => ?_
  split
  · exact gives_pure nofun
  · refine gives_pure fun c hc => ?_
    obtain rfl := List.mem_singleton.1 hc
    exact ⟨rfl, rfl, rfl⟩

/-- The conflicts about one input of a call, at most one: it is missing, or what is given is
    not accepted. -/
def AboutInput (caller : NodeId) (arguments : List NodeId) (index : Nat) (cs : List Conflict) :
    Prop :=
  ∀ c ∈ cs, cs = [c] ∧ (c.code = .e2003 ∧ c.primary = [caller] ∨
    c.code = .e2004 ∧ ∃ a, arguments[index]? = some a ∧ c.primary = [a])

theorem gives_inputConflicts (caller : NodeId) :
    (p.inputConflicts caller definition receiver (arguments.zip types) index input).Gives
      (AboutInput caller arguments index) := by
  unfold inputConflicts
  split
  · next argument given h =>
    refine gives_givenConflicts.mono fun cs hcs c hc => ?_
    obtain ⟨hone, hcode, hprimary⟩ := hcs c hc
    exact ⟨hone, .inr ⟨hcode, argument, (List.getElem?_zip_eq_some.1 h).1, hprimary⟩⟩
  · split
    · refine gives_pure fun c hc => ?_
      obtain rfl := List.mem_singleton.1 hc
      exact ⟨rfl, .inl ⟨rfl, rfl⟩⟩
    · exact gives_pure nofun

/-- Conflicts about different inputs are apart from each other. -/
theorem AboutInput.apart {caller : NodeId} {i j : Nat} {cs ds : List Conflict}
    (hi : AboutInput caller arguments i cs) (hj : AboutInput caller arguments j ds)
    (hne : i ≠ j) (honce : arguments.Nodup) : ∀ c ∈ cs, ∀ e ∈ ds, c.Apart e := by
  intro c hc e he
  rcases (hi c hc).2 with ⟨hcode, -⟩ | ⟨hcode, a, ha, hprimary⟩
  · exact apart_of_mayRepeat (by rw [hcode]; rfl)
  · rcases (hj e he).2 with ⟨hcode', -⟩ | ⟨-, b, hb, hprimary'⟩
    · exact apart_of_code_ne (by rw [hcode, hcode']; nofun)
    · refine apart_of_primary_ne hprimary hprimary' fun hab => hne ?_
      have hlt : i < arguments.length := (List.getElem?_eq_some_iff.1 ha).1
      exact (List.getElem?_inj hlt honce).1 (by rw [ha, hb, hab])

/-- The indices of a list are different. -/
theorem pairwise_zipIdx {α : Type} (l : List α) (k : Nat) :
    (l.zipIdx k).Pairwise fun x y => x.2 ≠ y.2 := by
  induction l generalizing k with
  | nil => exact .nil
  | cons a l ih =>
    rw [List.zipIdx_cons, List.pairwise_cons]
    refine ⟨fun y hy => ?_, ih (k + 1)⟩
    have := List.le_snd_of_mem_zipIdx hy
    dsimp only
    omega

theorem gives_callConflicts (hchildren : arguments.Sublist (p.arena.children id)) :
    (p.callConflicts id definition receiver arguments).Gives (AllFrom p id) := by
  refine gives_after fun types => ?_
  refine (gives_mapM (P := fun i : NodeId × Nat => AboutInput id arguments i.2) fun c _ =>
    gives_inputConflicts id).bind fun found hfound => gives_pure ?_
  have hcodes : ∀ c ∈ found.flatten, c.code = .e2003 ∧ c.primary = [id] ∨
      c.code = .e2004 ∧ ∃ a ∈ arguments, c.primary = [a] := by
    intro c hc
    obtain ⟨cs, hcs, hc⟩ := List.mem_flatten.1 hc
    obtain ⟨i, -, habout⟩ := List.rel_exists hfound.flip hcs
    rcases (habout c hc).2 with h | ⟨hcode, a, ha, hprimary⟩
    · exact .inl h
    · exact .inr ⟨hcode, a, List.mem_of_getElem? ha, hprimary⟩
  refine AllFrom.append ⟨fun c hc => ?_, fun honce => ?_⟩ ?_ fun c hc e he => ?_
  · rcases hcodes c hc with ⟨hcode, hprimary⟩ | ⟨hcode, a, ha, hprimary⟩
    · exact from_self (by rw [hcode]; rfl) hprimary
    · exact from_child (by rw [hcode]; rfl) (hchildren.subset ha) hprimary
  · refine pairwise_flatten_of_forall₂ hfound (pairwise_zipIdx _ 0) (fun i cs habout => ?_)
      fun i j cs ds hne hi hj => hi.apart hj hne (hchildren.nodup honce)
    cases cs with
    | nil => exact .nil
    | cons c cs => rw [(habout c List.mem_cons_self).1]; exact List.pairwise_singleton _ _
  · unfold surplusConflicts
    split
    · exact allFrom_nil
    · next hsurplus =>
      refine allFrom_one ?_
      show _ ∧ _
      refine ⟨fun h => hsurplus (List.isEmpty_iff.2 h), fun x hx => hchildren.subset ?_⟩
      exact List.mem_of_mem_drop hx
  · unfold surplusConflicts at he
    split at he
    · cases he
    · obtain rfl := List.mem_singleton.1 he
      rcases hcodes c hc with ⟨hcode, -⟩ | ⟨hcode, -⟩
      · rw [hcode]; nofun
      · rw [hcode]; nofun

theorem gives_evaluateConflicts {function : NodeId}
    (hchildren : arguments.Sublist (p.arena.children id)) :
    (p.evaluateConflicts id function arguments).Gives (AllFrom p id) := by
  refine gives_after fun t => ?_
  split
  · exact gives_after fun receiver => gives_callConflicts hchildren
  · split
    · exact gives_callConflicts hchildren
    · exact gives_pure (allFrom_one (from_self rfl rfl))
  · exact gives_pure allFrom_nil
  · exact gives_pure (allFrom_one (from_self rfl rfl))

end

/-! ## Operators -/

theorem gives_operationConflicts {left right : NodeId} {op : Name}
    (hright : right ∈ p.arena.children id) :
    (p.operationConflicts id left op right).Gives (AllFrom p id) := by
  refine gives_after fun receiver => ?_
  split
  · exact gives_pure allFrom_nil
  · split
    · exact gives_pure (allFrom_one (from_self rfl rfl))
    · next function _ =>
      have hoperand : (p.operandConflicts id function receiver right).Gives fun cs =>
          AllFrom p id cs ∧ ∀ c ∈ cs, c.code ≠ .w2001 := by
        unfold operandConflicts
        split
        · refine gives_pure ⟨allFrom_one (from_child rfl hright rfl), fun c hc => ?_⟩
          rw [List.mem_singleton.1 hc]
          nofun
        · split
          · refine gives_pure ⟨allFrom_one (from_self rfl rfl), fun c hc => ?_⟩
            rw [List.mem_singleton.1 hc]
            nofun
          · refine gives_after fun given => gives_givenConflicts.mono fun cs hcs => ?_
            refine ⟨?_, fun c hc => by rw [(hcs c hc).2.1]; nofun⟩
            cases cs with
            | nil => exact allFrom_nil
            | cons c cs =>
              obtain ⟨hone, hcode, hprimary⟩ := hcs c List.mem_cons_self
              rw [hone]
              exact allFrom_one (from_child (by rw [hcode]; rfl) hright hprimary)
      refine hoperand.bind fun cs hcs => gives_pure ?_
      refine AllFrom.append ?_ hcs.1 fun c hc e he => ?_
      · split
        · exact allFrom_one (from_self rfl rfl)
        · exact allFrom_nil
      · have hcode : c.code = .w2001 := by
          split at hc
          · rw [List.mem_singleton.1 hc]; rfl
          · cases hc
        rw [hcode]
        exact (hcs.2 e he).symm

/-! ## Names of inputs -/

section
variable {input : NodeId} {n : Name} {c : Conflict}

/-- The names that are seen, and the conflicts found, after the names of an input. -/
def repetitions (input : NodeId) (names seen : List Name) (found : List Conflict) :
    List Name × List Conflict :=
  names.foldl (fun (seen, found) n =>
    if n ∈ seen then (seen, found ++ [⟨.duplicateInputNames n, [input], []⟩])
    else (n :: seen, found)) (seen, found)

theorem repetitions_cons (m : Name) (names seen : List Name) (found : List Conflict) :
    repetitions input (m :: names) seen found =
      if m ∈ seen then
        repetitions input names seen (found ++ [⟨.duplicateInputNames m, [input], []⟩])
      else repetitions input names (m :: seen) found := by
  unfold repetitions
  rw [List.foldl_cons]
  dsimp only
  split <;> rfl

theorem mem_seen_repetitions {names seen : List Name} {found : List Conflict} :
    n ∈ (repetitions input names seen found).1 ↔ n ∈ seen ∨ n ∈ names := by
  induction names generalizing seen found with
  | nil => simp [repetitions]
  | cons m names ih =>
    rw [repetitions_cons]
    split
    · next hm =>
      rw [ih, List.mem_cons]
      constructor
      · rintro (h | h)
        · exact .inl h
        · exact .inr (.inr h)
      · rintro (h | rfl | h)
        · exact .inl h
        · exact .inl hm
        · exact .inr h
    · rw [ih, List.mem_cons, List.mem_cons, or_left_comm, or_assoc]

/-- A name is reported if it was seen before the input, or occurs twice in it. -/
theorem mem_found_repetitions {names seen : List Name} {found : List Conflict} :
    c ∈ (repetitions input names seen found).2 ↔
      c ∈ found ∨ ∃ n, c = ⟨.duplicateInputNames n, [input], []⟩ ∧
        (n ∈ seen ∧ n ∈ names ∨ 2 ≤ names.count n) := by
  induction names generalizing seen found with
  | nil => simp [repetitions]
  | cons m names ih =>
    rw [repetitions_cons]
    split
    · next hm =>
      rw [ih, List.mem_append, List.mem_singleton, or_assoc]
      refine or_congr_right ⟨?_, ?_⟩
      · rintro (rfl | ⟨n, rfl, h⟩)
        · exact ⟨m, rfl, .inl ⟨hm, List.mem_cons_self⟩⟩
        · refine ⟨n, rfl, h.imp (fun h => ⟨h.1, List.mem_cons_of_mem _ h.2⟩) fun h => ?_⟩
          exact Nat.le_trans h List.count_le_count_cons
      · rintro ⟨n, rfl, h⟩
        by_cases hn : n = m
        · exact .inl (by rw [hn])
        · refine .inr ⟨n, rfl, ?_⟩
          rw [List.count_cons_of_ne (Ne.symm hn)] at h
          exact h.imp_left fun h => ⟨h.1, (List.mem_cons.1 h.2).resolve_left hn⟩
    · next hm =>
      rw [ih]
      refine or_congr_right (exists_congr fun n => and_congr_right fun _ => ?_)
      by_cases hn : n = m
      · subst hn
        have hcount : n ∈ names ↔ 2 ≤ (n :: names).count n := by
          rw [List.count_cons_self, ← List.count_pos_iff]
          omega
        simp only [List.mem_cons_self, true_and, and_true, hm, false_or, ← hcount]
        exact or_iff_left_of_imp fun h => List.count_pos_iff.1 (by omega)
      · rw [List.count_cons_of_ne (Ne.symm hn)]
        simp [hn]

/-- What is wrong with an input stands before what is wrong with those after it, which are
    checked with its names as well; that it is required is reported once. -/
theorem exists_inputListConflictsAfter (seen : List Name) (optional : Bool) (input : NodeId)
    (rest : List NodeId) : ∃ order optional',
      (∀ c ∈ order, c.code = .e2012 ∧ c.primary = [input]) ∧ order.Pairwise Apart ∧
      p.inputListConflictsAfter seen optional (input :: rest) =
        (repetitions input (p.names input) seen []).2 ++ order ++
          p.inputListConflictsAfter (repetitions input (p.names input) seen []).1 optional'
            rest := by
  cases hrequired : p.isRequired input with
  | true =>
    refine ⟨if optional then [⟨.requiredAfterOptional, [input], []⟩] else [], optional, ?_, ?_, ?_⟩
    · intro c hc
      split at hc
      · rw [List.mem_singleton.1 hc]
        exact ⟨rfl, rfl⟩
      · cases hc
    · split
      · exact List.pairwise_singleton _ _
      · exact .nil
    · rw [inputListConflictsAfter, hrequired]
      rfl
  | false =>
    refine ⟨[], true, nofun, .nil, ?_⟩
    rw [inputListConflictsAfter, hrequired, List.append_nil]
    rfl

end

/-! ## Definitions -/

/-- What is wrong with an input blames the input, and the order is reported once. -/
theorem atEach_inputListConflictsAfter (seen : List Name) (optional : Bool)
    (inputs : List NodeId) :
    AtEach [.e2011, .e2012] inputs (p.inputListConflictsAfter seen optional inputs) := by
  induction inputs generalizing seen optional with
  | nil => exact .nil
  | cons input rest ih =>
    obtain ⟨order, optional', horder, honce, heq⟩ :=
      p.exists_inputListConflictsAfter seen optional input rest
    have hnames : ∀ c ∈ (repetitions input (p.names input) seen []).2,
        c.code = .e2011 ∧ c.primary = [input] := by
      intro c hc
      obtain hc | ⟨n, rfl, -⟩ := mem_found_repetitions.1 hc
      · cases hc
      · exact ⟨rfl, rfl⟩
    rw [heq]
    refine .cons (fun c hc => ?_) (List.pairwise_append.2 ⟨?_, honce, fun c hc e _ => ?_⟩) (ih _ _)
    · rcases List.mem_append.1 hc with hc | hc
      · exact ⟨by rw [(hnames c hc).1]; simp, (hnames c hc).2⟩
      · exact ⟨by rw [(horder c hc).1]; simp, (horder c hc).2⟩
    · exact pairwise_of_mayRepeat fun c hc => by rw [(hnames c hc).1]; rfl
    · exact apart_of_mayRepeat (by rw [(hnames c hc).1]; rfl)

/-- A declared interface that is none is reported once, where it is declared. -/
theorem atEach_interfaceConflicts (declared : List (NodeId × Option Definition)) :
    AtEach [.e2008] (declared.map Prod.fst) (p.interfaceConflicts declared) := by
  induction declared with
  | nil => exact .nil
  | cons r declared ih =>
    refine .cons (fun c hc => ?_) ?_ ih
    · dsimp only at hc
      split at hc
      · split at hc
        · cases hc
        · obtain rfl := List.mem_singleton.1 hc
          exact ⟨List.mem_singleton_self _, rfl⟩
      · obtain rfl := List.mem_singleton.1 hc
        exact ⟨List.mem_singleton_self _, rfl⟩
      · cases hc
    · dsimp only
      split
      · split
        · exact .nil
        · exact List.pairwise_singleton _ _
      · exact List.pairwise_singleton _ _
      · exact .nil

theorem abstractConflicts_at (id : NodeId) :
    AllFrom p id (p.abstractConflicts id) ∧
      ∀ c ∈ p.abstractConflicts id, c.code = .e2005 ∨ c.code = .e2006 := by
  unfold abstractConflicts
  split
  · exact ⟨allFrom_nil, nofun⟩
  · have implemented : AllFrom p id (if (p.implementedFunctions id).isEmpty then []
        else [⟨.implemented, [id], p.implementedFunctions id⟩]) := by
      split
      · exact allFrom_nil
      · exact allFrom_one (from_self rfl rfl)
    have disallowed : AllFrom p id (if (p.inputs id).isEmpty then []
        else [⟨.disallowedInputs, [id], p.inputs id⟩]) := by
      split
      · exact allFrom_nil
      · exact allFrom_one (from_self rfl rfl)
    have first {c : Conflict} (hc : c ∈ if (p.implementedFunctions id).isEmpty then []
        else [(⟨.implemented, [id], p.implementedFunctions id⟩ : Conflict)]) : c.code = .e2006 := by
      split at hc
      · cases hc
      · rw [List.mem_singleton.1 hc]; rfl
    have second {c : Conflict} (hc : c ∈ if (p.inputs id).isEmpty then []
        else [(⟨.disallowedInputs, [id], p.inputs id⟩ : Conflict)]) : c.code = .e2005 := by
      split at hc
      · cases hc
      · rw [List.mem_singleton.1 hc]; rfl
    refine ⟨implemented.append disallowed fun c hc e he => ?_, fun c hc => ?_⟩
    · rw [first hc, second he]
      nofun
    · exact (List.mem_append.1 hc).elim (fun hc => .inr (first hc)) fun hc => .inl (second hc)

theorem gives_unimplementedConflicts (id : NodeId) :
    (p.unimplementedConflicts id).Gives fun cs =>
      AllFrom p id cs ∧ ∀ c ∈ cs, c.code = .e2007 := by
  refine (gives_mapM (P := fun _ cs => ∀ c ∈ cs, c.code = .e2007 ∧ c.primary = [id])
    fun owed _ => gives_after fun b => ?_).bind fun found hfound => gives_pure ?_
  · split
    · exact gives_pure nofun
    · refine gives_pure fun c hc => ?_
      rw [List.mem_singleton.1 hc]
      exact ⟨rfl, rfl⟩
  · have hall : ∀ c ∈ found.flatten, c.code = .e2007 ∧ c.primary = [id] := by
      intro c hc
      obtain ⟨cs, hcs, hc⟩ := List.mem_flatten.1 hc
      obtain ⟨_, -, h⟩ := List.rel_exists hfound.flip hcs
      exact h c hc
    refine ⟨⟨fun c hc => from_self (by rw [(hall c hc).1]; rfl) (hall c hc).2, fun _ => ?_⟩,
      fun c hc => (hall c hc).1⟩
    exact pairwise_of_mayRepeat fun c hc => by rw [(hall c hc).1]; rfl

/-! ## Aliases -/

theorem aliasConflict?_at {a b : NodeId × Name × Option Name} {c : Conflict}
    (h : p.aliasConflict? a b = some c) :
    c.code ∈ [ErrorCode.w2002, .w2003] ∧ c.primary = [a.1] := by
  unfold aliasConflict? at h
  dsimp only at h
  split at h
  · cases h
    exact ⟨List.mem_cons_self, rfl⟩
  · split at h
    · cases h
      exact ⟨List.mem_cons_of_mem _ List.mem_cons_self, rfl⟩
    · cases h

theorem atEach_aliasConflictsAfter (before aliases : List (NodeId × Name × Option Name)) :
    AtEach [.w2002, .w2003] (aliases.map Prod.fst) (p.aliasConflictsAfter before aliases) := by
  induction aliases generalizing before with
  | nil => exact .nil
  | cons a rest ih =>
    refine .cons (fun c hc => ?_) ?_ (ih (before ++ [a]))
    · obtain ⟨b, -, hb⟩ := List.exists_of_findSome?_eq_some (Option.mem_toList.1 hc)
      exact aliasConflict?_at hb
    · cases before.findSome? (p.aliasConflict? a) with
      | none => exact .nil
      | some c => exact List.pairwise_singleton _ _

theorem allFrom_aliasConflicts {aliases : List NodeId}
    (hchildren : aliases.Sublist (p.arena.children id)) :
    AllFrom p id (p.aliasConflicts aliases) := by
  have hsub : ((aliases.filterMap p.aliasAt?).map Prod.fst).Sublist aliases := by
    clear hchildren
    induction aliases with
    | nil => exact .slnil
    | cons a aliases ih =>
      rw [List.filterMap_cons]
      split
      · exact ih.cons a
      · next entry hentry =>
        unfold aliasAt? at hentry
        split at hentry
        · cases hentry
          exact ih.cons_cons a
        · cases hentry
  exact (atEach_aliasConflictsAfter [] _).allFrom (by decide) (hsub.trans hchildren)

/-! ## Nodes -/

/-- The inputs of a definition are among its children, in this order. -/
theorem inputs_sublist_children (id : NodeId) : (p.inputs id).Sublist (p.arena.children id) := by
  unfold inputs inputList
  split
  · next ns vs is output body hn =>
    rw [Arena.children_eq hn, Arena.childrenOf_functionDefinition]
    refine .cons _ (.trans ?_ (List.sublist_append_right ..))
    exact List.sublist_append_left ..
  · next ns fs vs is body hn =>
    rw [Arena.children_eq hn, Arena.childrenOf_structureDefinition]
    refine .cons _ (.trans ?_ (List.sublist_append_right ..))
    exact (List.sublist_append_left ..).trans (List.sublist_append_right ..)
  · simp [Arena.list, NodeRange.empty]

/-- So are the interfaces that a structure declares. -/
theorem declaredInterfaces_sublist_children (id : NodeId) :
    ((p.declaredInterfaces id).map Prod.fst).Sublist (p.arena.children id) := by
  unfold declaredInterfaces
  split
  · next ns fs vs is body hn =>
    have hfirst {declared : NodeId → NodeId × Option Definition} (h : ∀ r, (declared r).1 = r) :
        ((p.arena.list fs).map declared).map Prod.fst = p.arena.list fs := by
      rw [List.map_map]
      exact (List.map_congr_left fun r _ => h r).trans (List.map_id _)
    rw [hfirst fun r => by split <;> rfl, Arena.children_eq hn,
      Arena.childrenOf_structureDefinition]
    exact .cons _ (List.sublist_append_left ..)
  · exact List.nil_sublist _

theorem allFrom_inputListConflicts : AllFrom p id (p.inputListConflicts (p.inputs id)) :=
  (atEach_inputListConflictsAfter [] false _).allFrom (by decide) (inputs_sublist_children id)

theorem gives_structureConflicts : (p.structureConflicts id).Gives (AllFrom p id) := by
  have hinputs := p.atEach_inputListConflictsAfter [] false (p.inputs id)
  have hinterfaces := p.atEach_interfaceConflicts (p.declaredInterfaces id)
  obtain ⟨habstract, habstractCodes⟩ := abstractConflicts_at (p := p) id
  refine (gives_unimplementedConflicts id).bind fun owed howed => gives_pure ?_
  have hfirst : AllFrom p id (p.inputListConflicts (p.inputs id) ++
      p.interfaceConflicts (p.declaredInterfaces id)) :=
    allFrom_inputListConflicts.append
      (hinterfaces.allFrom (by decide) (declaredInterfaces_sublist_children id))
      fun c hc e he => by
        rw [List.mem_singleton.1 (hinterfaces.blames e he).1]
        exact ne_of_mem_of_not_mem (hinputs.blames c hc).1 (by decide)
  have hcodes : ∀ c ∈ p.inputListConflicts (p.inputs id) ++
      p.interfaceConflicts (p.declaredInterfaces id),
      c.code ∈ [ErrorCode.e2011, .e2012, .e2008] := by
    intro c hc
    rcases List.mem_append.1 hc with hc | hc
    · exact List.mem_append_left [.e2008] (hinputs.blames c hc).1
    · exact List.mem_append_right [.e2011, .e2012] (hinterfaces.blames c hc).1
  have hsecond := hfirst.append habstract fun c hc e he => by
    rcases habstractCodes e he with h | h <;> rw [h] <;>
      exact ne_of_mem_of_not_mem (hcodes c hc) (by decide)
  refine hsecond.append howed.1 fun c hc e he => ?_
  rw [howed.2 e he]
  rcases List.mem_append.1 hc with hc | hc
  · exact ne_of_mem_of_not_mem (hcodes c hc) (by decide)
  · rcases habstractCodes c hc with h | h <;> rw [h] <;> decide

/-- **The conflicts of one node** blame the node or its children, and a queue can tell them
    apart unless their code may repeat or a child comes twice. -/
theorem gives_conflictsOf (id : NodeId) : (p.conflictsOf id).Gives (AllFrom p id) := by
  unfold conflictsOf
  split
  · next left op right hn =>
    have hn : p.arena.node? id = some (.binaryOperation left op right) := hn
    exact gives_operationConflicts (by rw [Arena.children_eq hn]; simp)
  · next function is hn =>
    have hn : p.arena.node? id = some (.evaluate function is) := hn
    refine gives_evaluateConflicts ?_
    rw [Arena.children_eq hn, Arena.childrenOf_evaluate]
    exact List.sublist_cons_self ..
  · exact gives_structureConflicts
  · exact gives_pure allFrom_inputListConflicts
  · split
    · exact gives_pure allFrom_nil
    · exact gives_pure (allFrom_one (from_self rfl rfl))
  · refine gives_after fun t => ?_
    split
    · exact gives_pure allFrom_nil
    · exact gives_pure (allFrom_one (from_self rfl rfl))
  · split
    · exact gives_pure allFrom_nil
    · exact gives_pure allFrom_nil
    · exact gives_pure (allFrom_one (from_self rfl rfl))
  · split
    · exact gives_pure allFrom_nil
    · exact gives_pure (allFrom_one (from_self rfl rfl))
  · next ns type value hn =>
    have hn : p.arena.node? id = some (.bind ns (some type) (some value)) := hn
    refine gives_after fun given => gives_after fun b => ?_
    split
    · exact gives_pure allFrom_nil
    · exact gives_pure (allFrom_one (from_child rfl (by rw [Arena.children_eq hn]; simp) rfl))
  · next condition yes no hn =>
    have hn : p.arena.node? id = some (.conditional condition yes no) := hn
    refine gives_after fun given => gives_after fun b => ?_
    split
    · exact gives_pure allFrom_nil
    · exact gives_pure (allFrom_one (from_child rfl (by rw [Arena.children_eq hn]; simp) rfl))
  · next aliases hn =>
    have hn : p.arena.node? id = some (.names aliases) := hn
    have hchildren : p.arena.children id = p.arena.list aliases := by
      rw [Arena.children_eq hn]
      simp [Arena.childrenOf, Node.slots, Node.fields, Arena.ofSlot]
    exact gives_pure (allFrom_aliasConflicts (hchildren ▸ List.Sublist.refl _))
  · exact gives_pure (allFrom_one (from_self rfl rfl))
  · exact gives_pure allFrom_nil

/-- The conflicts of a program stand node by node, and come from the nodes that report
    them. -/
theorem gives_check_lists : p.check.Gives fun cs => ∃ lists : List (List Conflict),
    cs = lists.flatten ∧ List.Forall₂ (fun id cs =>
      (∃ known, cs = (p.conflictsOf id known).1) ∧ AllFrom p id cs) p.tree.nodes lists := by
  refine (gives_mapM fun id _ => ?_).bind fun lists hlists => gives_pure ⟨lists, rfl, hlists⟩
  exact fun known => ⟨⟨known, rfl⟩, gives_conflictsOf id known⟩

/-- **The conflicts of a tree-shaped program**: a queue can tell them apart unless their code
    may repeat. -/
theorem gives_check (hacyclic : p.arena.Acyclic) (hnodes : p.tree.nodes = p.arena.preorder p.root)
    (honce : p.tree.nodes.Nodup) : p.check.Gives (·.Pairwise Apart) := by
  rw [hnodes] at honce
  have hchildren := List.nodup_flatMap.1 (Arena.nodup_flatMap_children hacyclic honce)
  refine gives_check_lists.mono ?_
  rintro _ ⟨lists, rfl, hlists⟩
  rw [hnodes] at hlists
  -- A node of the tree does not have a child twice.
  have hlists : List.Forall₂ (fun id cs => AllFrom p id cs ∧ cs.Pairwise Apart)
      (p.arena.preorder p.root) lists :=
    ((List.forall₂_and_left _ _).2 ⟨hchildren.1, hlists⟩).imp fun id cs h =>
      ⟨h.2.2, h.2.2.apart h.1⟩
  refine pairwise_flatten_of_forall₂ hlists (S := fun x y =>
    x ≠ y ∧ ∀ z ∈ p.arena.children x, z ∉ p.arena.children y) ?_
    (fun _ _ h => h.2) fun x y cs ds hne hcs hds c hc e he =>
      (hcs.1.origin c hc).apart (hds.1.origin e he) hne.1 hne.2
  exact honce.and (hchildren.2.imp fun h z hz hz' => h hz hz')

end Program

end Arbor
