import Trelis.Cocoa.Process
import Trelis.Symbolic

/-!
# Insiders cannot partition a group

Two members that accept the same commits stay in agreement, whoever made the
commits.  The commit pins the root seed that each of them derives: the seed
gives the public key of the last update (`OpenedPath.delta_matches`).  All that
a commit writes into a tree comes from its bytes and from what the two already
agree on.

`SameGroup` is the invariant, `SameGroup.process` its preservation by one
commit, and `no_insider_partition` by a run.
-/

namespace Trelis.Cocoa

open PartialTreeView

variable {P : Primitives}

/-! ## The root seed is pinned -/

section Delta

variable {nodeUpdates : List (NodeUpdate P)} {delta delta' : Seed}

/-- Whatever entries two receivers opened, they derive the same root seed. -/
theorem OpenedPath.delta_eq (hseeds : P.InjectiveSeeds) {kp kp' : P.KeyPair}
    (h : OpenedPath nodeUpdates kp delta) (h' : OpenedPath nodeUpdates kp' delta') :
    delta = delta' := by
  rcases h.delta_matches with ⟨u, hu, k, hk, hpk⟩
  rcases h'.delta_matches with ⟨u', hu', k', hk', hpk'⟩
  rw [hu] at hu'
  cases hu'
  exact hseeds.seed_eq hk hk' (by rw [hpk, hpk'])

theorem deltaRootOf_unique (hseeds : P.InjectiveSeeds) {a b : CocoaSession P}
    (h : deltaRootOf nodeUpdates a = .ok delta) (h' : deltaRootOf nodeUpdates b = .ok delta') :
    delta = delta' := by
  have hnil : ∀ {kp : P.KeyPair} {d : Seed}, ¬ OpenedPath [] kp d := by
    intro kp d hopen
    rcases hopen.delta_matches with ⟨u, hu, _⟩
    cases hu
  rcases deltaRootOf_eq_ok h with ⟨hempty, hd⟩ | hopen
  · subst hempty
    rcases deltaRootOf_eq_ok h' with ⟨_, hd'⟩ | hopen'
    · rw [hd, hd']
    · exact absurd hopen' hnil
  · rcases deltaRootOf_eq_ok h' with ⟨hempty, _⟩ | hopen'
    · subst hempty
      exact absurd hopen hnil
    · exact hopen.delta_eq hseeds hopen'

end Delta

/-! ## One commit -/

section Step

variable {a b a' b' : CocoaSession P} {signer signer' : P.IdentityPublicKey}

theorem SameGroup.processUpdate (hseeds : P.InjectiveSeeds) (h : SameGroup a b)
    {c : UpdateCommit P} (ha : processUpdate c signer a = .ok () a')
    (hb : processUpdate c signer' b = .ok () b') : SameGroup a' b' := by
  rw [processUpdate_eq_ok] at ha hb
  rcases ha with ⟨delta, transcript, hcheck, rfl⟩
  rcases hb with ⟨delta', transcript', hcheck', rfl⟩
  rw [checkUpdate_eq_ok] at hcheck hcheck'
  rcases hcheck with ⟨_, nus, hc, hdelta, htr⟩
  rcases hcheck' with ⟨_, nus', hc', hdelta', htr'⟩
  have hnus : nus = nus' := Except.ok.inj (hc.converted.symm.trans hc'.converted)
  subst hnus
  have hd : delta = delta' :=
    (applyPathUpdates_ok hdelta).delta_eq hseeds (applyPathUpdates_ok hdelta')
  have ht : transcript = transcript' := by
    simp only at htr htr'
    rw [htr, htr', h.transcriptHash_eq]
  subst hd ht
  apply h.next (applyUpdate_advanced ..) (applyUpdate_advanced ..)
  · rw [shape_applyUpdate, shape_applyUpdate, h.shape_eq]
  · exact (agree_applyUpdate ..).trans
      ((h.nodes.writePathUpdates _ _ _ _ _ _ _ c.pathUpdates).trans (agree_applyUpdate ..).symm)

theorem SameGroup.processAdd (hseeds : P.InjectiveSeeds) (h : SameGroup a b)
    {c : AddCommit P} (ha : processAdd c signer a = .ok () a')
    (hb : processAdd c signer' b = .ok () b') : SameGroup a' b' := by
  rw [processAdd_eq_ok] at ha hb
  rcases ha with ⟨delta, transcript, hcheck, rfl⟩
  rcases hb with ⟨delta', transcript', hcheck', rfl⟩
  rw [checkAdd_eq_ok rfl] at hcheck hcheck'
  rcases hcheck with ⟨_, _, _, nus, hc, hdelta, htr⟩
  rcases hcheck' with ⟨_, _, _, nus', hc', hdelta', htr'⟩
  have hnus : nus = nus' := Except.ok.inj (hc.converted.symm.trans hc'.converted)
  subst hnus
  have hd : delta = delta' := deltaRootOf_unique hseeds hdelta hdelta'
  have ht : transcript = transcript' := by
    simp only at htr htr'
    rw [htr, htr', h.transcriptHash_eq]
  subst hd ht
  apply h.next (applyAdd_advanced ..) (applyAdd_advanced ..)
  · rw [shape_applyAdd, shape_applyAdd, treeDepth_growIfNeeded, treeDepth_growIfNeeded,
      h.treeDepth_eq]
  · have hgrown := h.nodes.growFor h.treeDepth_eq (c.newLeafPosition + 1)
    exact (agree_applyAdd ..).trans
      ((hgrown.writePathUpdates _ _ _ _ _ _ _ c.pathUpdates).trans (agree_applyAdd ..).symm)

theorem SameGroup.processRemove (hseeds : P.InjectiveSeeds) (h : SameGroup a b)
    {c : RemoveCommit P} (ha : processRemove c signer a = .ok () a')
    (hb : processRemove c signer' b = .ok () b') : SameGroup a' b' := by
  rw [processRemove_eq_ok] at ha hb
  rcases ha with ⟨delta, transcript, hcheck, rfl⟩
  rcases hb with ⟨delta', transcript', hcheck', rfl⟩
  rw [checkRemove_eq_ok] at hcheck hcheck'
  rcases hcheck with ⟨_, _, nus, hc, hdelta, htr⟩
  rcases hcheck' with ⟨_, _, nus', hc', hdelta', htr'⟩
  have hnus : nus = nus' := Except.ok.inj (hc.converted.symm.trans hc'.converted)
  subst hnus
  have hd : delta = delta' := deltaRootOf_unique hseeds hdelta hdelta'
  have ht : transcript = transcript' := by
    simp only at htr htr'
    rw [htr, htr', h.transcriptHash_eq]
  subst hd ht
  apply h.next (applyRemove_advanced ..) (applyRemove_advanced ..)
  · rw [shape_applyRemove, shape_applyRemove, h.shape_eq]
  · have hblanked := h.nodes.blankNode (.leaf b.tree.treeDepth c.removedLeafPosition)
    rw [← h.treeDepth_eq] at hblanked
    have hwritten := hblanked.writePathUpdates a.transcriptHash b.transcriptHash a.epochNumber
      b.epochNumber c.signature a.ourUserId b.ourUserId c.pathUpdates
    rw [h.treeDepth_eq] at hwritten
    apply (agree_applyRemove ..).trans
    rw [h.treeDepth_eq]
    exact hwritten.trans (agree_applyRemove ..).symm

/-- One accepted commit keeps two sessions in agreement. -/
theorem SameGroup.process (hseeds : P.InjectiveSeeds) (h : SameGroup a b) {c : Commit P}
    (ha : c.process signer a = .ok () a') (hb : c.process signer' b = .ok () b') :
    SameGroup a' b' := by
  cases c with
  | add c => exact h.processAdd hseeds ha hb
  | update c => exact h.processUpdate hseeds ha hb
  | remove c => exact h.processRemove hseeds ha hb

end Step

/-! ## A run -/

/-- Two members that agree and then accept the same commits agree after each of
them. -/
theorem no_insider_partition (hseeds : P.InjectiveSeeds) {a b : CocoaSession P}
    (h : SameGroup a b) {as bs : List (Commit P × P.IdentityPublicKey)}
    (hcommits : as.map Prod.fst = bs.map Prod.fst) {aStates bStates : List (CocoaSession P)}
    (ha : Accepted a as aStates) (hb : Accepted b bs bStates) :
    List.Forall₂ SameGroup aStates bStates := by
  induction ha generalizing b bs bStates with
  | nil =>
    rw [List.map_nil, eq_comm, List.map_eq_nil_iff] at hcommits
    subst hcommits
    cases hb
    exact .nil
  | cons head _ ih =>
    cases hb with
    | nil => cases hcommits
    | cons head' tail' =>
      simp only [List.map_cons, List.cons.injEq] at hcommits
      rcases hcommits with ⟨rfl, hrest⟩
      have hstep := h.process hseeds head head'
      exact .cons hstep (ih hstep hrest tail')

section Sample

open Symbolic

/-- Three members, one of them below a blank node. -/
private def threeMemberTree : PartialTreeView symbolic :=
  tree 2 3 [node ⟨2, 0⟩ 10, node ⟨2, 1⟩ 11, node ⟨2, 2⟩ 12, blank ⟨1, 1⟩ []]

/-- Two members that accept an update of the third one. -/
theorem no_insider_partition_three_members :
    ∃ c aState bState,
      Accepted (member 1 11 threeMemberTree) [(.update c, word 50)] [aState] ∧
      Accepted (member 2 12 threeMemberTree) [(.update c, word 50)] [bState] ∧
      List.Forall₂ SameGroup [aState] [bState] := by
  have hrun : okAnd (createUpdate (word 50) (draws 500) (member 0 10 threeMemberTree)) (fun c _ =>
      okAnd (processUpdate c (word 50) (member 1 11 threeMemberTree)) (fun _ _ => true) &&
        okAnd (processUpdate c (word 50) (member 2 12 threeMemberTree)) fun _ _ => true) := by
    decide +kernel
  simp only [okAnd_eq_true, Bool.and_eq_true] at hrun
  rcases hrun with ⟨c, _, _, ⟨_, aState, ha, _⟩, ⟨_, bState, hb, _⟩⟩
  have haccept : Accepted (member 1 11 threeMemberTree) [(.update c, word 50)] [aState] :=
    .cons ha (.nil _)
  have hbccept : Accepted (member 2 12 threeMemberTree) [(.update c, word 50)] [bState] :=
    .cons hb (.nil _)
  have hsame : SameGroup (member 1 11 threeMemberTree) (member 2 12 threeMemberTree) :=
    ⟨rfl, rfl, rfl, rfl, rfl, Agree.refl _⟩
  exact ⟨c, aState, bState, haccept, hbccept,
    no_insider_partition injectiveSeeds hsame rfl haccept hbccept⟩

end Sample

end Trelis.Cocoa
