/-
  The order of conflicts and of diagnostics.

  A conflict blames the node that reports it or children of it, even if a child is shared;
  so its first primary node has a place in the program, and a session that queues conflicts
  by these places gives them out in the order of the program.

  * `Session.PointsInside p cs`: the conflicts stand node by node, each inside the subtree
    of its node;
  * `Session.InProgramOrder p cs ds`: diagnostics of some of the conflicts, in the order of
    the program.

  Main statement: `Session.conflicts_in_order`, from `pointsInside` and `inProgramOrder`.
-/
import Arbor.Proofs.Conflict.Reported
import Arbor.Proofs.Diagnostic.Policy
import Arbor.Proofs.Program.Nesting
import Arbor.Proofs.Renaming.Places

namespace Arbor

/-! ## What a queue keeps -/

namespace Queue

variable {q : Queue} {α : Type} {told : α → Diagnostic} {place : α → Nat}

/-- A queue keeps some of what it is given, in the order in which it comes. -/
theorem exists_waiting_addAll (items : List α) : ∃ kept : List α, kept.Sublist items ∧
    (q.addAll told place items).waiting =
      q.waiting ++ kept.map fun a => ⟨told a, place a⟩ := by
  induction items generalizing q with
  | nil => exact ⟨[], .slnil, (List.append_nil _).symm⟩
  | cons a items ih =>
    obtain ⟨kept, hsub, hkept⟩ := @ih (q.add (told a) (place a)).2
    cases hadd : (q.add (told a) (place a)).1 with
    | false =>
      rw [add_of_refuses hadd] at hkept
      refine ⟨kept, hsub.cons a, ?_⟩
      show ((q.add _ _).2.addAll told place items).waiting = _
      rw [add_of_refuses hadd, hkept]
    | true =>
      rw [add_of_accepts hadd] at hkept
      refine ⟨a :: kept, hsub.cons_cons a, ?_⟩
      show ((q.add _ _).2.addAll told place items).waiting = _
      rw [add_of_accepts hadd, hkept]
      simp [push]

end Queue

/-! ## Places -/

namespace Session

/-- The places of nodes that come once, counted from `k`. -/
theorem get?_places {ids : List NodeId} (honce : ids.Nodup) (m : NodeMap Nat) (k : Nat)
    (id : NodeId) :
    ((ids.zipIdx k).foldl (fun m (id, k) => m.insert id k) m).get? id =
      if id ∈ ids then some (k + ids.idxOf id) else m.get? id := by
  induction ids generalizing m k with
  | nil => rfl
  | cons x ids ih =>
    obtain ⟨hx, honce⟩ := List.nodup_cons.1 honce
    rw [List.zipIdx_cons, List.foldl_cons, ih honce, NodeMap.get?_insert]
    by_cases hid : id = x
    · subst hid
      rw [if_neg hx, if_pos rfl, if_pos List.mem_cons_self, List.idxOf_cons_self, Nat.add_zero]
    · rw [if_neg (Ne.symm hid), List.idxOf_cons_ne _ (Ne.symm hid)]
      simp only [List.mem_cons, hid, false_or]
      split
      · congr 1
        omega
      · rfl

variable {p : Program} {c : Conflict} {x : NodeId}

/-- In a tree-shaped program the place of a conflict is that of its first primary node. -/
theorem positionOf_eq (honce : p.tree.nodes.Nodup) (hx : c.primary.head? = some x)
    (hmem : x ∈ p.tree.nodes) : positionOf (positions p) c = p.tree.nodes.idxOf x := by
  unfold positionOf positions
  rw [hx, Option.bind_some, get?_places honce, if_pos hmem, Nat.zero_add]
  rfl

/-- The conflicts stand node by node in the pre-order of the program.  Each blames some node,
    and only nodes in the subtree of the node that reported it. -/
structure PointsInside (p : Program) (cs : List Conflict) : Prop where
  reported : ∃ lists : List (List Conflict), cs = lists.flatten ∧
    List.Forall₂ (fun id found => (∃ known, found = (p.conflictsOf id known).1) ∧
      ∀ c ∈ found, c.primary ≠ [] ∧ ∀ x ∈ c.primary, x ∈ p.arena.preorder id) p.tree.nodes lists
  inside : ∀ c ∈ cs, c.primary ≠ [] ∧ ∀ x ∈ c.primary, x ∈ p.tree.nodes

/-- The diagnostics of some of the conflicts, in the order of the program. -/
structure InProgramOrder (p : Program) (cs : List Conflict) (ds : List Diagnostic) : Prop where
  /-- The place of a conflict is that of its first primary node in the pre-order. -/
  places : ∀ c ∈ cs, ∃ x, c.primary.head? = some x ∧
    p.tree.nodes[positionOf (positions p) c]? = some x
  placed : ∀ d ∈ ds, ∃ x ∈ p.tree.nodes, d.primaryNode? = some x
  sorted : ds.Pairwise fun d e => ∀ x y, d.primaryNode? = some x → e.primaryNode? = some y →
    p.tree.nodes.idxOf x ≤ p.tree.nodes.idxOf y
  /-- What is said about one node is said in the order of the conflicts. -/
  stable : ∃ kept : List Conflict, kept.Sublist cs ∧
    ds.Perm (kept.map (Conflict.toDiagnostic .english p)) ∧
    ∀ x, ds.filter (·.primaryNode? = some x) =
      (kept.map (Conflict.toDiagnostic .english p)).filter (·.primaryNode? = some x)

theorem primaryNode?_toDiagnostic (c : Conflict) :
    (c.toDiagnostic .english p).primaryNode? = c.primary.head? :=
  congrArg Prod.snd (c.key_toDiagnostic .english p)

/-- What a session tells is what the queue has kept, arranged by the places of the first
    primary nodes. -/
theorem exists_arranged (config : QueueConfig) (cs : List Conflict) :
    ∃ (kept : List Conflict) (ys : List Queued), kept.Sublist cs ∧
      Queue.Arranged (kept.map fun c =>
        ⟨c.toDiagnostic .english p, positionOf (positions p) c⟩) ys ∧
      (queueConflicts config p cs).flush.1 = ys.map Queued.diagnostic := by
  obtain ⟨kept, hsub, hkept⟩ : ∃ kept : List Conflict, kept.Sublist cs ∧
      (queueConflicts config p cs).waiting = kept.map fun c =>
        ⟨c.toDiagnostic .english p, positionOf (positions p) c⟩ :=
    Queue.exists_waiting_addAll cs
  refine ⟨kept, _, hsub, Queue.arranged_mergeSort _, ?_⟩
  rw [← hkept]
  rfl

theorem pointsInside (hacyclic : p.arena.Acyclic) {root : NodeId}
    (hnodes : p.tree.nodes = p.arena.preorder root) (known : Memo) :
    PointsInside p (p.check known).1 := by
  obtain ⟨lists, heq, hlists⟩ := Program.gives_check_lists (p := p) known
  have below {id : NodeId} {c : Conflict} (h : c.From p id) :
      c.primary ≠ [] ∧ ∀ x ∈ c.primary, x ∈ p.arena.preorder id := by
    have hself := Arena.mem_preorder_self hacyclic id
    unfold Conflict.From at h
    split at h
    · exact ⟨h.1, fun x hx => Arena.mem_preorder_child hacyclic hself (h.2 x hx)⟩
    · rw [h]
      exact ⟨nofun, fun x hx => List.mem_singleton.1 hx ▸ hself⟩
  refine ⟨⟨lists, heq, hlists.imp fun id found h => ⟨h.1, fun c hc => below (h.2.origin c hc)⟩⟩,
    fun c hc => ?_⟩
  rw [heq] at hc
  obtain ⟨found, hfound, hc⟩ := List.mem_flatten.1 hc
  obtain ⟨id, hid, -, hfrom⟩ := List.rel_exists hlists.flip hfound
  obtain ⟨hne, hbelow⟩ := below (hfrom.origin c hc)
  rw [hnodes] at hid ⊢
  exact ⟨hne, fun x hx => Arena.mem_preorder_trans hacyclic hid (hbelow x hx)⟩

/-- Conflicts that blame nodes of a tree-shaped program are told in its order. -/
theorem inProgramOrder (honce : p.tree.nodes.Nodup) {cs : List Conflict}
    (hblames : ∀ c ∈ cs, ∃ x ∈ p.tree.nodes, c.primary.head? = some x) (config : QueueConfig) :
    InProgramOrder p cs (queueConflicts config p cs).flush.1 := by
  obtain ⟨kept, ys, hsub, hys, hds⟩ := exists_arranged config cs
  -- What is given out comes from a conflict, with its first primary node and its place.
  have hplaced : ∀ y ∈ ys, ∃ x ∈ p.tree.nodes, y.diagnostic.primaryNode? = some x ∧
      y.position = p.tree.nodes.idxOf x := by
    intro y hy
    obtain ⟨c, hc, rfl⟩ := List.mem_map.1 (hys.perm.subset hy)
    obtain ⟨x, hx, hhead⟩ := hblames c (hsub.subset hc)
    exact ⟨x, hx, (primaryNode?_toDiagnostic c).trans hhead, positionOf_eq honce hhead hx⟩
  rw [hds]
  refine ⟨fun c hc => ?_, fun d hd => ?_, ?_, kept, hsub, ?_, fun x => ?_⟩
  · obtain ⟨x, hx, hhead⟩ := hblames c hc
    refine ⟨x, hhead, ?_⟩
    rw [positionOf_eq honce hhead hx]
    exact List.getElem?_idxOf hx
  · obtain ⟨y, hy, rfl⟩ := List.mem_map.1 hd
    obtain ⟨x, hx, hprimary, -⟩ := hplaced y hy
    exact ⟨x, hx, hprimary⟩
  · refine List.pairwise_map.2 (hys.sorted.imp_of_mem fun {y z} hy hz hle x x' hx hx' => ?_)
    obtain ⟨_, -, hprimary, hposition⟩ := hplaced y hy
    obtain ⟨_, -, hprimary', hposition'⟩ := hplaced z hz
    rw [hx] at hprimary
    rw [hx'] at hprimary'
    cases hprimary
    cases hprimary'
    rwa [hposition, hposition'] at hle
  · simpa [Function.comp_def] using hys.perm.map Queued.diagnostic
  · -- Diagnostics about one node are at one place, where the queue keeps their order.
    have hsplit (l : List Queued) (hl : l ⊆ ys) :
        l.filter (·.diagnostic.primaryNode? = some x) =
          (l.filter (·.position = p.tree.nodes.idxOf x)).filter
            (·.diagnostic.primaryNode? = some x) := by
      rw [List.filter_filter]
      refine List.filter_congr fun y hy => ?_
      obtain ⟨z, -, hprimary, hposition⟩ := hplaced y (hl hy)
      simp only [hprimary, hposition, Option.some.injEq]
      by_cases hz : z = x <;> simp [hz]
    have hfilter := hsplit ys (List.Subset.refl ys)
    rw [hys.stable, ← hsplit _ hys.perm.symm.subset] at hfilter
    simpa [List.filter_map, Function.comp_def] using congrArg (List.map Queued.diagnostic) hfilter

/-- **Conflicts point into the program, and diagnostics come in its order.**  Each conflict of
    a session blames some node, and only nodes in the subtree of the node that reported it.  In
    a tree-shaped program a session gives out its diagnostics by the places of their first
    primary nodes, those of one node in the order of the conflicts. -/
theorem conflicts_in_order {s : Session} (hp : s.program = .ok p) (hacyclic : p.arena.Acyclic) :
    ∃ cs ds, s.check = .ok cs ∧ s.diagnostics = .ok ds ∧ PointsInside p cs ∧
      (p.tree.nodes.Nodup → InProgramOrder p cs ds) := by
  have hcheck : s.check = .ok (p.check .empty).1 := by
    unfold check
    rw [hp]
    rfl
  have hdiagnostics : s.diagnostics =
      .ok (queueConflicts s.settings.queueConfig p (p.check .empty).1).flush.1 := by
    rw [diagnostics_eq hp, hcheck]
    rfl
  obtain ⟨root, -, hroot⟩ := exists_root hp
  have hnodes : p.tree.nodes = p.arena.preorder root := by
    rw [hroot]
    rfl
  have hinside := pointsInside hacyclic hnodes .empty
  refine ⟨_, _, hcheck, hdiagnostics, hinside, fun honce =>
    inProgramOrder honce (fun c hc => ?_) _⟩
  obtain ⟨hne, hin⟩ := hinside.inside c hc
  obtain ⟨x, xs, hx⟩ := List.exists_cons_of_ne_nil hne
  exact ⟨x, hin x (hx ▸ List.mem_cons_self), by rw [hx]; rfl⟩

/-- A session with a call whose first input names what is not there, and whose second is not
    accepted. -/
def tangled : Session :=
  let s := ofSettings .standard
  let built := s.build (do
    let a ← Build.input "a" (← Build.numberType)
    let b ← Build.input "b" (← Build.numberType)
    let f ← Build.function "f" [a, b] none (← Build.boolean true)
    let first ← Build.reference "nothing"
    let second ← Build.boolean true
    Build.program [] [f, ← Build.evaluate (← Build.reference "f") [first, second]])
  match built with
  | .ok (_, s) => s
  | .error _ => s

/-- The program of the session, read from its root. -/
def tangledProgram : Program :=
  .ofRoot tangled.forest tangled.basis (some tangled.shares) ⟨125⟩

/-- The call reports its second input before the first reports itself, and is told after it. -/
theorem in_order_tangled :
    tangled.program = .ok tangledProgram ∧ tangledProgram.arena.Acyclic ∧
      tangledProgram.tree.nodes.Nodup ∧
      ∃ cs ds, tangled.check = .ok cs ∧ tangled.diagnostics = .ok ds ∧
        cs.map Conflict.primary = [[⟨121⟩], [⟨120⟩]] ∧
        tangledProgram.tree.nodes.idxOf ⟨120⟩ < tangledProgram.tree.nodes.idxOf ⟨121⟩ ∧
        PointsInside tangledProgram cs ∧ InProgramOrder tangledProgram cs ds := by
  have hp : tangled.program = .ok tangledProgram := program_of_root (by decide +kernel)
  have hacyclic : tangledProgram.arena.Acyclic := Arena.acyclic_of_all (by decide +kernel)
  have honce : tangledProgram.tree.nodes.Nodup := by decide +kernel
  obtain ⟨cs, ds, hcheck, hdiagnostics, hinside, horder⟩ := conflicts_in_order hp hacyclic
  have hprimary : tangled.check.map (·.map Conflict.primary) = .ok [[⟨121⟩], [⟨120⟩]] := by
    decide +kernel
  rw [hcheck] at hprimary
  exact ⟨hp, hacyclic, honce, cs, ds, hcheck, hdiagnostics, Except.ok.inj hprimary,
    by decide +kernel, hinside, horder honce⟩

end Session

end Arbor
