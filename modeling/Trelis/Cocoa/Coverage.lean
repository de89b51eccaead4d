import Trelis.Cocoa.GroupRun
import Trelis.Symbolic

/-!
# Entries for added members

Neither `addMember` nor `processAdd` stores the key of the newcomer at its leaf,
and a leaf that is not in the tree is in no resolution.  So a later commit has
no entry for the newcomer (`added_member_never_covered`): in an honest run, the
only entries of a commit are those for the member that it adds itself.
-/

namespace Trelis.Cocoa

variable {P : Primitives}

/-- The commit has an entry that the key pair opens. -/
def Commit.OpensFor (c : Commit P) (kp : P.KeyPair) : Prop :=
  ∃ us, convertPathUpdatesToNodeUpdates P c.pathUpdates = .ok us ∧
    ∃ u ∈ us, ∃ e ∈ u.encryptedSeeds, ∃ seed, decryptSeed e.encrypted kp u.nodeIndex = .ok seed

/-- In an honest run, no commit after an add has an entry for the member that was
added, whichever key pair of its bundle it holds. -/
theorem added_member_never_covered {size : Nat} (hpk : P.PublicKeyCodec size)
    (henc : P.EncapsulationCodec) (hkem : P.IdealKem) (haead : P.IdealAead) {G : Group P}
    (h : Reachable GroupStart GroupStep G) {before after : List (Operation P × Message P)}
    {bundle : PreKeyBundle P} {newMemberId : UserId} {m : Message P}
    (hsent : G.sent = before ++ (.add bundle newMemberId, m) :: after) :
    ∀ later ∈ after, ∀ kp, P.publicKey kp ∈ kemKeys bundle → ¬ later.2.commit.OpensFor kp := by
  rintro later hlater kp hkp ⟨us, hus, u, hu, e, he, seed, hopen⟩
  have hsound := Group.Sound.of_reachable hpk henc hkem haead h
  have hmem : later ∈ G.sent := by
    rw [hsent]
    simp [hlater]
  rcases hsound.built later hmem with ⟨_, _, _, _, hbuild, hbare⟩
  rcases newcomer_of_decrypts hpk henc hkem haead hbuild hbare hus hu he hopen with
    ⟨bundle', hbundle', hkey⟩
  have hordered := hsound.ordered
  rw [hsent, List.pairwise_append, List.pairwise_cons] at hordered
  rw [hkey] at hkp
  exact hordered.2.1.1 later hlater bundle rfl bundle' hbundle' hkp

section Sample

open Symbolic

/-- A new group of one. -/
private theorem createGroup_alone :
    createGroup (word 60) (keyPair 10) (word 0) [] groupDraws =
      .ok (member 0 10 (tree 0 1 []), []) := rfl

/-- The creator adds two members.  The second commit has an entry for the second
of them, and none for the first. -/
theorem added_member_never_covered_second :
    ∃ m : Message symbolic, m.commit.OpensFor (keyPair 33) ∧ ¬ m.commit.OpensFor (keyPair 31) := by
  let first : Operation symbolic := .add ⟨key 30, key 31⟩ (word 8)
  let second : Operation symbolic := .add ⟨key 32, key 33⟩ (word 9)
  have hrun : okAnd (first.build (word 60) (draws 500) (member 0 10 (tree 0 1 []))) fun _ s₁ =>
      s₁.ourKeypair = keyPair 10 ∧
        okAnd (second.build (word 60) (draws 700) s₁) fun m₂ s₂ => s₂.ourKeypair = keyPair 10 ∧
          okWith (convertPathUpdatesToNodeUpdates symbolic m₂.commit.pathUpdates) fun us =>
            us.any fun u => u.encryptedSeeds.any fun e =>
              okWith (decryptSeed e.encrypted (keyPair 33) u.nodeIndex) fun _ => true := by
    decide +kernel
  rcases okAnd_eq_true.mp hrun with ⟨m₁, s₁, hfirst, htest⟩
  rcases of_decide_eq_true htest with ⟨hkeypair₁, hrun⟩
  rcases okAnd_eq_true.mp hrun with ⟨m₂, s₂, hsecond, htest⟩
  rcases of_decide_eq_true htest with ⟨hkeypair₂, hrun⟩
  rcases okWith_eq_true.mp hrun with ⟨us, hus, hopens⟩
  simp only [List.any_eq_true, okWith_eq_true] at hopens
  rcases hopens with ⟨u, hu, e, he, seed, hopen, _⟩
  let G₀ : Group symbolic := .create (keyPair 10) [] (member 0 10 (tree 0 1 [])) []
  have hfresh₁ : G₀.Fresh first (member 0 10 (tree 0 1 [])) s₁ := by
    refine ⟨.inl hkeypair₁, ?_⟩
    rintro _ ⟨⟩ (hkey | hkey | ⟨_, hbundle, _⟩)
    · rw [hkeypair₁] at hkey
      revert hkey
      decide
    · revert hkey
      decide
    · cases hbundle
  have hfresh₂ : (G₀.send first m₁ s₁).Fresh second s₁ s₂ := by
    refine ⟨.inl (hkeypair₂.trans hkeypair₁.symm), ?_⟩
    rintro _ ⟨⟩ (hkey | (hkey | hkey | ⟨_, hbundle, _⟩) | ⟨_, ⟨⟩, hkey | hkey⟩)
    · rw [hkeypair₂] at hkey
      revert hkey
      decide
    · rw [hkeypair₁] at hkey
      revert hkey
      decide
    · revert hkey
      decide
    · cases hbundle
    · revert hkey
      decide
    · revert hkey
      decide
  have hreach : Reachable GroupStart GroupStep ((G₀.send first m₁ s₁).send second m₂ s₂) :=
    ((Reachable.start (.created createGroup_alone)).next (.built rfl hfirst hfresh₁)).next
      (.built (.inl rfl) hsecond hfresh₂)
  have hsent : ((G₀.send first m₁ s₁).send second m₂ s₂).sent =
      [] ++ (first, m₁) :: [(second, m₂)] := rfl
  refine ⟨m₂, ⟨us, hus, u, hu, e, he, seed, hopen⟩, ?_⟩
  exact added_member_never_covered publicKeyCodec encapsulationCodec idealKem idealAead hreach hsent
    _ (List.mem_singleton_self _) (keyPair 31) (.inr rfl)

/-- The creator adds a member beside its own leaf, and then makes an update.  The
update has no entries. -/
theorem added_member_not_covered :
    ∃ s₀ s₁ s₂ : CocoaSession symbolic, ∃ c w, ∃ update : UpdateCommit symbolic,
      createGroup (word 60) (keyPair 10) (word 0) [] groupDraws = .ok (s₀, []) ∧
      addMember (word 60) ⟨key 30, key 31⟩ (word 9) (draws 500) s₀ = .ok (c, w) s₁ ∧
      c.newLeafPosition = 1 ∧ createUpdate (word 60) (draws 700) s₁ = .ok update s₂ ∧
      update.pathUpdates.length = 2 ∧ ∀ pu ∈ update.pathUpdates, pu.encryptedSeeds = [] := by
  have hrun : okAnd (addMember (word 60) ⟨key 30, key 31⟩ (word 9) (draws 500)
      (member 0 10 (tree 0 1 []))) fun cw s₁ => cw.1.newLeafPosition = 1 ∧
        okAnd (createUpdate (word 60) (draws 700) s₁) fun update _ =>
          update.pathUpdates.length = 2 ∧ ∀ pu ∈ update.pathUpdates, pu.encryptedSeeds = [] := by
    decide +kernel
  rcases okAnd_eq_true.mp hrun with ⟨⟨c, w⟩, s₁, hadd, htest⟩
  rcases of_decide_eq_true htest with ⟨hposition, hupdate⟩
  rcases okAnd_eq_true.mp hupdate with ⟨update, s₂, hupdate, htest⟩
  rcases of_decide_eq_true htest with ⟨hlength, hempty⟩
  exact ⟨_, s₁, s₂, c, w, update, createGroup_alone, hadd, hposition, hupdate, hlength, hempty⟩

end Sample

end Trelis.Cocoa
