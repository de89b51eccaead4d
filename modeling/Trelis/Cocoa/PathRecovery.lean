import Trelis.Cocoa.Receive
import Trelis.Symbolic

/-!
# Recovering the root seed of a path

`build_path_updates_with_seeds` and `apply_path_updates` meet: whatever the
lists of recipients, whoever holds a key in one of them derives the root seed
that the builder returned.

A builder's output is a sealed path (`buildPathUpdatesWithSeeds_sealed`), and the
receiving side (`Cocoa/Receive.lean`) needs nothing else.  In particular it needs
nothing of the node indices: they name the path nodes, and the two sides read
them from the same updates.
-/

namespace Trelis.Cocoa

variable {P : Primitives}

section Builder

variable {treeDepth ourLeafPosition : Nat} {resolutionSets : List (List NodeIndex)}
  {resolutionKeys : List (List P.PublicKey)} {siblingLabels : List Bytes32}
  {coins : Nat → Nat → P.Coins} {level : Nat} {h2 : Bytes32} {preds : List P.PublicKey}

/-- One round of the builder seals its level to the keys of that level. -/
theorem buildLevel_sealed {seed : Seed} {u : NodeUpdate P}
    (h : buildLevel treeDepth ourLeafPosition resolutionSets resolutionKeys siblingLabels coins
      level h2 preds seed = .ok u) : SealedLevel seed (resolutionKeys.getD level []) u := by
  simp only [buildLevel, Except.bind_eq_ok, Except.pure_eq_ok, rejectIf_eq_ok, ne_eq,
    not_not] at h
  rcases h with ⟨kp, hkp, _, hlen, entries, hentries, rfl⟩
  refine ⟨⟨kp, hkp, rfl⟩, ?_⟩
  have hzip : ((resolutionSets.getD level []).zip (resolutionKeys.getD level [])).map Prod.snd =
      resolutionKeys.getD level [] := List.map_snd_zip (by omega)
  rw [← hzip, List.forall₂_map_left_iff]
  apply (encryptToRecipients_ok hentries).imp
  intro r s hs
  exact hs.2

/-- The leaf has zero parent hashes. -/
theorem buildLevel_leaf {seed : Seed} {u : NodeUpdate P}
    (h : buildLevel treeDepth ourLeafPosition resolutionSets resolutionKeys siblingLabels coins
      0 h2 preds seed = .ok u) : u.parentHash = (zero32, zero32) := by
  simp only [buildLevel, Except.bind_eq_ok, Except.pure_eq_ok, if_true] at h
  rcases h with ⟨_, _, _, _, _, _, rfl⟩
  rfl

/-- Every update of the builder's loop is the round of its level, under some
values of the accumulators. -/
theorem buildLevels_getElem? {seeds : List Seed} {updates : List (NodeUpdate P)}
    (h : buildLevels treeDepth ourLeafPosition resolutionSets resolutionKeys siblingLabels coins
      level h2 preds seeds = .ok updates) :
    updates.length = seeds.length ∧ ∀ k seed u, seeds[k]? = some seed → updates[k]? = some u →
      ∃ h2' preds', buildLevel treeDepth ourLeafPosition resolutionSets resolutionKeys
        siblingLabels coins (level + k) h2' preds' seed = .ok u := by
  induction seeds generalizing level h2 preds updates with
  | nil =>
    rw [buildLevels, Except.pure_eq_ok] at h
    subst h
    exact ⟨rfl, by simp⟩
  | cons seed seeds ih =>
    simp only [buildLevels, Except.bind_eq_ok, Except.pure_eq_ok] at h
    rcases h with ⟨update, hupdate, rest, hrest, rfl⟩
    have hih := ih hrest
    refine ⟨by simp [hih.1], fun k seed' u hseed hu => ?_⟩
    cases k with
    | zero =>
      cases hseed
      cases hu
      exact ⟨h2, preds, hupdate⟩
    | succ k =>
      rw [List.getElem?_cons_succ] at hseed hu
      rw [show level + (k + 1) = level + 1 + k by omega]
      exact hih.2 k seed' u hseed hu

/-- A successful builder returns a sealed path, and the last seed. -/
theorem buildPathUpdatesWithSeeds_sealed {pathSeeds : List Seed} {result : PathUpdateResult P}
    (h : buildPathUpdatesWithSeeds treeDepth ourLeafPosition pathSeeds resolutionSets
      resolutionKeys siblingLabels coins = .ok result) :
    resolutionKeys.length = pathSeeds.length ∧
      SealedPath pathSeeds (fun k => resolutionKeys.getD k []) result.updates ∧
      result.deltaRoot = pathSeeds.getLast?.getD zero32 := by
  simp only [buildPathUpdatesWithSeeds, Except.bind_eq_ok, Except.pure_eq_ok, rejectIf_eq_ok,
    not_or, ne_eq, not_not] at h
  rcases h with ⟨_, hlen, _, _, updates, hupdates, rfl⟩
  have hlevels := buildLevels_getElem? hupdates
  refine ⟨hlen.2, ⟨hlevels.1, ?_, ?_⟩, rfl⟩
  · intro k seed u hseed hu
    rcases hlevels.2 k seed u hseed hu with ⟨h2', preds', hround⟩
    rw [Nat.zero_add] at hround
    exact buildLevel_sealed hround
  · intro u hu
    have hu0 : updates[0]? = some u := by rwa [← List.head?_eq_getElem?]
    have hlt : 0 < pathSeeds.length := by
      rw [← hlevels.1]
      exact (List.getElem?_eq_some_iff.mp hu0).1
    rcases hlevels.2 0 _ u (List.getElem?_eq_getElem hlt) hu0 with ⟨_, _, hround⟩
    exact buildLevel_leaf hround

end Builder

/-- Whoever holds a key among the recipients of some level of a built path
derives the builder's root seed from it, whatever positions are passed in, and
whoever searches it finds by index what trial decryption finds. -/
theorem built_path_yields_root (hkem : P.IdealKem) (haead : P.IdealAead)
    {treeDepth ourLeafPosition pathLength : Nat} {leafSeed : Seed}
    {resolutionSets : List (List NodeIndex)} {resolutionKeys : List (List P.PublicKey)}
    {siblingLabels : List Bytes32} {coins : Nat → Nat → P.Coins} {result : PathUpdateResult P}
    (h : buildPathUpdatesWithSeeds treeDepth ourLeafPosition
      (derivePathSeeds P leafSeed pathLength) resolutionSets resolutionKeys siblingLabels coins =
        .ok result) (kp : P.KeyPair) :
    ((∃ keys ∈ resolutionKeys, P.publicKey kp ∈ keys) → ∀ ourPosition updaterLeaf,
      applyPathUpdates result.updates kp ourPosition updaterLeaf = .ok result.deltaRoot) ∧
    ∀ ourNode, findSeed ourNode kp 0 result.updates = findSeed none kp 0 result.updates := by
  rcases buildPathUpdatesWithSeeds_sealed h with ⟨hlen, hsealed, hroot⟩
  refine ⟨?_, hsealed.findSeed_eq hkem haead kp⟩
  intro hkeys ourPosition updaterLeaf
  rcases hkeys with ⟨keys, hmem, hkey⟩
  rcases List.getElem?_of_mem hmem with ⟨k, hk⟩
  have hlt : k < pathLength := by
    rw [← derivePathSeeds_length (P := P) leafSeed pathLength, ← hlen]
    exact (List.getElem?_eq_some_iff.mp hk).1
  have hkey' : P.publicKey kp ∈ resolutionKeys.getD k [] := by
    rw [List.getD_eq_getElem?_getD, hk]
    exact hkey
  rw [hroot]
  exact hsealed.applyPathUpdates_eq hkem haead hlt hkey' ourPosition updaterLeaf

open Symbolic in
/-- The holder of key 7, an unmerged leaf that only the root level names,
derives the root seed of a path of three levels. -/
theorem built_path_yields_root_sample :
    ∃ result, buildPathUpdatesWithSeeds (P := symbolic) 2 1
        (derivePathSeeds symbolic (word 40) 3)
        [[⟨2, 0⟩], [], [⟨1, 1⟩, ⟨2, 3⟩]] [[key 5], [], [key 6, key 7]] [zero32, zero32]
        (fun level i => 10 * level + i) = .ok result ∧
      applyPathUpdates result.updates (keyPair 7) 3 1 = .ok result.deltaRoot := by
  have hbuild : okWith (buildPathUpdatesWithSeeds (P := symbolic) 2 1
      (derivePathSeeds symbolic (word 40) 3)
      [[⟨2, 0⟩], [], [⟨1, 1⟩, ⟨2, 3⟩]] [[key 5], [], [key 6, key 7]] [zero32, zero32]
      (fun level i => 10 * level + i)) (fun _ => true) = true := by decide +kernel
  rcases okWith_eq_true.mp hbuild with ⟨result, hresult, _⟩
  refine ⟨result, hresult, (built_path_yields_root idealKem idealAead hresult (keyPair 7)).1 ?_ 3 1⟩
  exact ⟨[key 6, key 7], by simp, List.mem_cons_of_mem _ List.mem_cons_self⟩

end Trelis.Cocoa
