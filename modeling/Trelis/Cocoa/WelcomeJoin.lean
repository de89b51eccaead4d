import Trelis.Cocoa.Build
import Trelis.Symbolic

/-!
# Joining by the welcome of an add

`addMember` seals its welcome under the associated data `"cocoa-welcome-add"`,
and `processWelcome` opens every welcome under the group id.  The first has 17
bytes and the second 32, so the holder of the one-time key cannot open what was
sealed for it.
-/

namespace Trelis.Cocoa

variable {P : Primitives}

/-- The associated data of an add is not a group id. -/
theorem welcomeAddAad_ne (groupId : GroupId) : groupId.val ≠ welcomeAddAad := by
  intro h
  have hlen := congrArg List.length h
  have haad : welcomeAddAad.length = 17 := by decide +kernel
  rw [FixedBytes.length_coe, haad] at hlen
  omega

/-- Nobody opens what was sealed for the welcome of an add, whatever key pair they hold and
whatever else the welcome says. -/
theorem encryptedInfo_never_opens (haead : P.IdealAead) {session : CocoaSession P}
    {identity : P.IdentityKeyPair} {bundle : PreKeyBundle P} {position depth : Nat} {delta : Seed}
    {transcript : Bytes32} {draws : WelcomeDraws P} {w w' : Welcome P}
    (hwelcome : createWelcomeMessage session identity bundle position depth delta transcript draws =
      .ok w) (hinfo : w'.encryptedInfo = w.encryptedInfo) (userId : UserId) (kp : P.KeyPair)
    (committer : P.IdentityPublicKey) (joined : CocoaSession P) :
    processWelcome userId kp w' committer ≠ .ok joined := by
  rcases createWelcomeMessage_ok hwelcome with ⟨k, encap, nonce, ct, info, _, hct, _, hi, _⟩
  rw [← hinfo] at hi
  intro h
  simp only [processWelcome, Except.bind_eq_ok, toArray_eq_ok] at h
  rcases h with ⟨_, _, _, _, _, _, k', _, _, _, nonce', hnonce, pt, hopen, _⟩
  have hn : nonce' = nonce := by
    rw [hi, List.take_left' nonce.property] at hnonce
    exact Subtype.ext hnonce.symm
  rw [hi, List.drop_left' nonce.property, hn] at hopen
  apply haead.decrypt_other hct _ pt hopen
  intro hpair
  exact welcomeAddAad_ne w'.groupId (congrArg Prod.snd hpair)

/-- Nobody opens the welcome of an add. -/
theorem createWelcomeMessage_never_opens (haead : P.IdealAead) {session : CocoaSession P}
    {identity : P.IdentityKeyPair} {bundle : PreKeyBundle P} {position depth : Nat} {delta : Seed}
    {transcript : Bytes32} {draws : WelcomeDraws P} {w : Welcome P}
    (hwelcome : createWelcomeMessage session identity bundle position depth delta transcript draws =
      .ok w) (userId : UserId) (kp : P.KeyPair) (committer : P.IdentityPublicKey)
    (joined : CocoaSession P) : processWelcome userId kp w committer ≠ .ok joined :=
  encryptedInfo_never_opens haead hwelcome rfl userId kp committer joined

/-- The holder of the one-time key cannot join by the welcome of an add. -/
theorem add_welcome_never_opens (henc : P.EncapsulationCodec) (hkem : P.IdealKem)
    (haead : P.IdealAead) {s s' : CocoaSession P} {identity : P.IdentityKeyPair}
    {bundle : PreKeyBundle P} {newId : UserId} {draws : Draws P} {c : AddCommit P} {w : Welcome P}
    (hadd : addMember identity bundle newId draws s = .ok (c, w) s') {kp : P.KeyPair}
    (hkp : P.publicKey kp = bundle.oneTimeKem) (userId : UserId) (joined : CocoaSession P) :
    processWelcome userId kp w (P.identityPublicKey identity) ≠ .ok joined := by
  rcases addMember_ok hadd with ⟨_, _, _, _, _, _, _, hwelcome, _⟩
  rcases createWelcomeMessage_ok hwelcome with ⟨k, encap, nonce, ct, info, hencap, hct, he, hi, _⟩
  intro h
  simp only [processWelcome, Except.bind_eq_ok, toArray_eq_ok] at h
  rcases h with ⟨_, _, _, _, encap', hparse, k', hdecap, _, _, nonce', hnonce, pt, hopen, _⟩
  have hencap' : encap' = encap := by
    rw [he, henc.fromBytes_toBytes hencap] at hparse
    exact (Except.ok.inj hparse).symm
  have hk : k' = k := by
    rw [← hkp] at hencap
    rw [hencap', hkem.decapsulate_match hencap] at hdecap
    exact (Except.ok.inj hdecap).symm
  have hn : nonce' = nonce := by
    rw [hi, List.take_left' nonce.property] at hnonce
    exact Subtype.ext hnonce.symm
  rw [hi, List.drop_left' nonce.property, hk, hn] at hopen
  apply haead.decrypt_other hct _ pt hopen
  intro hpair
  exact welcomeAddAad_ne w.groupId (congrArg Prod.snd hpair)

section Sample

open Symbolic

/-- A group of one. -/
private def alone : CocoaSession symbolic := member 0 10 (tree 0 1 [])

theorem add_welcome_never_opens_alone :
    ∃ c w s', addMember (word 50) ⟨key 30, key 31⟩ (word 9) (draws 500) alone = .ok (c, w) s' ∧
      ∀ joined, processWelcome (word 9) (keyPair 31) w (word 50) ≠ .ok joined := by
  have hrun : okAnd (addMember (word 50) ⟨key 30, key 31⟩ (word 9) (draws 500) alone)
      fun _ _ => true := by
    decide +kernel
  rcases okAnd_eq_true.mp hrun with ⟨⟨c, w⟩, s', hadd, _⟩
  exact ⟨c, w, s', hadd,
    add_welcome_never_opens encapsulationCodec idealKem idealAead hadd rfl (word 9)⟩

/-- The newcomer of a group of one fails to authenticate its welcome. -/
theorem add_welcome_rejected :
    ∃ c w s', addMember (word 50) ⟨key 30, key 31⟩ (word 9) (draws 500) alone = .ok (c, w) s' ∧
      processWelcome (word 9) (keyPair 31) w (word 50) = .error .aeadAuthenticationFailed := by
  have hrun : okAnd (addMember (word 50) ⟨key 30, key 31⟩ (word 9) (draws 500) alone)
      (fun cw _ => match processWelcome (word 9) (keyPair 31) cw.2 (word 50) with
        | .ok _ => false
        | .error e => e = .aeadAuthenticationFailed) := by
    decide +kernel
  rcases okAnd_eq_true.mp hrun with ⟨⟨c, w⟩, s', hadd, htest⟩
  cases hjoin : processWelcome (word 9) (keyPair 31) w (word 50) with
  | ok joined => simp [hjoin] at htest
  | error e =>
    simp only [hjoin, decide_eq_true_eq] at htest
    exact ⟨c, w, s', hadd, by rw [hjoin, htest]⟩

end Sample

end Trelis.Cocoa
