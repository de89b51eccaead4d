import Trelis.Cocoa.Process
import Trelis.Wasm.GroupApi

/-!
# Commits between stored sessions

The calls of the WASM crate that make and process commits, put together.

A commit is signed with its path and travels without it.  `cocoa_process_update` therefore
refuses every byte string.  The other two calls accept what was signed without a path,
which no call of the crate signs, and the session then moves on with an all-zero root seed
(`commit_calls`).
-/

namespace Trelis.Wasm

open Cocoa

variable {W : GroupWire}

/-- The commits that the calls return, with their kind and the identity that signed. -/
inductive Emitted (W : GroupWire) : CommitType → W.IdentityKeyPair → Bytes → Prop
  | add {session secret newMemberId newPublic otk draws reply identity}
      (hcall : cocoaAddMember W session secret newMemberId newPublic otk draws = .ok reply)
      (hsecret : W.identityFromBytes secret = .ok identity) : Emitted W .add identity reply.commit
  | update {session secret draws reply identity}
      (hcall : cocoaCreateUpdate W session secret draws = .ok reply)
      (hsecret : W.identityFromBytes secret = .ok identity) :
      Emitted W .update identity reply.commit
  | remove {session secret removedMemberId removedPosition draws reply identity}
      (hcall : cocoaRemoveMember W session secret removedMemberId removedPosition draws = .ok reply)
      (hsecret : W.identityFromBytes secret = .ok identity) :
      Emitted W .remove identity reply.commit

/-- The signature was made for a commit with the path updates. -/
def SignedWith (W : GroupWire) (identity : W.IdentityKeyPair) (path : List PathUpdate)
    (signature : W.Signature) : Prop :=
  ∃ content coins, content.pathUpdatesHash =
      hashPathUpdates W.toPrimitives (serialisePathUpdates path) ∧
    signCommit (P := W.toPrimitives) identity content coins = .ok signature

/-- The signature passes for a commit with the path updates. -/
def PassesWith (W : GroupWire) (signer : W.IdentityPublicKey) (path : List PathUpdate)
    (signature : W.Signature) : Prop :=
  ∃ content, content.pathUpdatesHash =
      hashPathUpdates W.toPrimitives (serialisePathUpdates path) ∧
    verifyCommitSignature (P := W.toPrimitives) signer content signature = .ok ()

/-- The signature of a commit. -/
def commitSignature : Commit W.toPrimitives → W.Signature
  | .add c => c.signature
  | .update c => c.signature
  | .remove c => c.signature

/-! ## What is made -/

theorem pathUpdates_ne_nil {t : PartialTreeView W.toPrimitives}
    {R : NodeIndex → List (NodeIndex × W.PublicKey)} {leaf : NodeIndex} {leafSeed : Seed}
    {result : PathUpdateResult W.toPrimitives} (h : BuiltPath t R leaf leafSeed result) :
    result.updates.map NodeUpdate.toWire ≠ [] := by
  have hlen := h.levels.length_eq
  rw [derivePathSeeds_length] at hlen
  intro hnil
  rw [List.map_eq_nil_iff.mp hnil, List.length_nil] at hlen
  omega

/-- A commit that a call returns was signed with its path, which has at least one node. -/
theorem Emitted.signed {kind : CommitType} {identity : W.IdentityKeyPair} {bytes : Bytes}
    (h : Emitted W kind identity bytes) :
    ∃ c : Commit W.toPrimitives, bytes = serializeCommit c ∧ commitType c = kind ∧
      c.pathUpdates ≠ [] ∧ SignedWith W identity c.pathUpdates (commitSignature c) := by
  cases h with
  | add hcall hsecret =>
    simp only [cocoaAddMember, Except.bind_eq_ok, loadSession_eq_ok, orThrow_eq_ok,
      runSession_eq_ok, Except.pure_eq_ok] at hcall
    obtain ⟨_, _, _, _, signer, hsigner, _, _, _, _, ⟨⟨c, w⟩, s'⟩, hadd, rfl⟩ := hcall
    obtain rfl := Except.ok.inj (hsecret.symm.trans hsigner)
    obtain ⟨_, result, _, _, hpath, hhonest, _⟩ := addMember_ok hadd
    refine ⟨.add c, rfl, rfl, ?_, _, _, rfl, hhonest.signed⟩
    show c.pathUpdates ≠ []
    rw [hhonest.pathUpdates_eq]
    exact pathUpdates_ne_nil hpath
  | update hcall hsecret =>
    simp only [cocoaCreateUpdate, Except.bind_eq_ok, loadSession_eq_ok, orThrow_eq_ok,
      runSession_eq_ok, Except.pure_eq_ok] at hcall
    obtain ⟨_, _, signer, hsigner, ⟨c, s'⟩, hcreate, rfl⟩ := hcall
    obtain rfl := Except.ok.inj (hsecret.symm.trans hsigner)
    obtain ⟨_, result, _, _, hpath, hhonest, _⟩ := createUpdate_ok hcreate
    refine ⟨.update c, rfl, rfl, ?_, _, _, rfl, hhonest.signed⟩
    show c.pathUpdates ≠ []
    rw [hhonest.pathUpdates_eq]
    exact pathUpdates_ne_nil hpath
  | remove hcall hsecret =>
    simp only [cocoaRemoveMember, Except.bind_eq_ok, loadSession_eq_ok, orThrow_eq_ok,
      runSession_eq_ok, Except.pure_eq_ok] at hcall
    obtain ⟨_, _, _, _, signer, hsigner, ⟨c, s'⟩, hremove, rfl⟩ := hcall
    obtain rfl := Except.ok.inj (hsecret.symm.trans hsigner)
    obtain ⟨_, result, _, _, hpath, hhonest, _⟩ := removeMember_ok hremove
    refine ⟨.remove c, rfl, rfl, ?_, _, _, rfl, hhonest.signed⟩
    show c.pathUpdates ≠ []
    rw [hhonest.pathUpdates_eq]
    exact pathUpdates_ne_nil hpath

/-! ## What is read -/

/-- Where the signature of a commit is. -/
def signatureStart : CommitType → Nat
  | .add => 144
  | .update => 108
  | .remove => 144

/-- A commit is read without a path, and with the signature that is at its end. -/
theorem deserializeCommit_ok {kind : CommitType} {bytes : Bytes} {c : Commit W.toPrimitives}
    (h : deserializeCommit W.toWirePrimitives kind bytes = .ok c) :
    commitType c = kind ∧ c.pathUpdates = [] ∧
      W.signatureFromBytes (bytes.drop (signatureStart kind)) = .ok (commitSignature c) := by
  cases kind with
  | add =>
    obtain ⟨commit, hcommit, rfl⟩ := Except.map_eq_ok.mp h
    unfold deserializeAddCommit at hcommit
    split at hcommit
    · cases hcommit
    · simp only [Except.bind_eq_ok, debugError_eq_ok, Except.pure_eq_ok] at hcommit
      obtain ⟨signature, hsignature, rfl⟩ := hcommit
      exact ⟨rfl, rfl, hsignature⟩
  | update =>
    obtain ⟨commit, hcommit, rfl⟩ := Except.map_eq_ok.mp h
    unfold deserializeUpdateCommit at hcommit
    split at hcommit
    · cases hcommit
    · simp only [Except.bind_eq_ok, debugError_eq_ok, Except.pure_eq_ok] at hcommit
      obtain ⟨signature, hsignature, rfl⟩ := hcommit
      exact ⟨rfl, rfl, hsignature⟩
  | remove =>
    obtain ⟨commit, hcommit, rfl⟩ := Except.map_eq_ok.mp h
    unfold deserializeRemoveCommit at hcommit
    split at hcommit
    · cases hcommit
    · simp only [Except.bind_eq_ok, debugError_eq_ok, Except.pure_eq_ok] at hcommit
      obtain ⟨signature, hsignature, rfl⟩ := hcommit
      exact ⟨rfl, rfl, hsignature⟩

theorem drop_serializeCommit (c : Commit W.toPrimitives) :
    (serializeCommit c).drop (signatureStart (commitType c)) =
      (W.signatureToBytes (commitSignature c)).val := by
  cases c with
  | add c => exact drop_flatten (i := 7) rfl (by simp [commitType, signatureStart])
  | update c => exact drop_flatten (i := 5) rfl (by simp [commitType, signatureStart])
  | remove c => exact drop_flatten (i := 7) rfl (by simp [commitType, signatureStart])

/-- An add and a removal have their signatures at one place, so that a commit that is read as
either has the signature that it was made with.  An update is too short to be read so. -/
theorem commitSignature_of_read (hsig : W.SignatureCodec) {made c : Commit W.toPrimitives}
    {kind : CommitType} (hkind : kind ≠ .update)
    (h : deserializeCommit W.toWirePrimitives kind (serializeCommit made) = .ok c) :
    commitSignature c = commitSignature made := by
  have hread := (deserializeCommit_ok h).2.2
  have hstart : signatureStart kind = 144 := by
    cases kind with
    | add => rfl
    | update => exact absurd rfl hkind
    | remove => rfl
  by_cases hmade : signatureStart (commitType made) = 144
  · rw [hstart, ← hmade, drop_serializeCommit, hsig.fromBytes_toBytes] at hread
    exact (Except.ok.inj hread).symm
  · cases made with
    | add made => exact absurd rfl hmade
    | remove made => exact absurd rfl hmade
    | update made =>
      have hbytes := congrArg List.length (hsig.toBytes_fromBytes hread)
      rw [hstart] at hbytes
      simp [serializeCommit, serializeUpdateCommit] at hbytes

/-! ## What is accepted -/

theorem deltaRootOf_nil {P : Primitives} {s : CocoaSession P} {nodeUpdates : List (NodeUpdate P)}
    {delta : Seed} (hconverted : convertPathUpdatesToNodeUpdates P [] = .ok nodeUpdates)
    (h : deltaRootOf nodeUpdates s = .ok delta) : delta = zero32 := by
  obtain rfl : [] = nodeUpdates := Except.ok.inj hconverted
  exact (Except.ok.inj h).symm

/-- A commit without a path that is accepted is no update.  Its signature passes for a
commit without a path, and the session moves on with an all-zero root seed. -/
theorem process_of_nil {c : Commit W.toPrimitives} {signer : W.IdentityPublicKey}
    {s s' : CocoaSession W.toPrimitives} (hnil : c.pathUpdates = [])
    (h : c.process signer s = .ok () s') :
    commitType c ≠ .update ∧ PassesWith W signer [] (commitSignature c) ∧
      ∃ transcript, Advanced s s' zero32 transcript := by
  cases c with
  | add c =>
    have hnil : c.pathUpdates = [] := hnil
    obtain ⟨delta, transcript, hcheck, rfl⟩ := processAdd_eq_ok.mp h
    obtain ⟨_, _, _, nodeUpdates, hchecked, hdelta, _⟩ := (checkAdd_eq_ok rfl).mp hcheck
    obtain rfl := deltaRootOf_nil (hnil ▸ hchecked.converted) hdelta
    refine ⟨nofun, ⟨c.content signer, ?_, hchecked.signed⟩, transcript, applyAdd_advanced s _ _ c⟩
    rw [← hnil]
    rfl
  | update c =>
    have hnil : c.pathUpdates = [] := hnil
    obtain ⟨delta, transcript, hcheck, rfl⟩ := processUpdate_eq_ok.mp h
    obtain ⟨_, nodeUpdates, hchecked, hdelta, _⟩ := checkUpdate_eq_ok.mp hcheck
    have hconverted := hchecked.converted
    rw [hnil] at hconverted
    obtain rfl : [] = nodeUpdates := Except.ok.inj hconverted
    cases hdelta
  | remove c =>
    have hnil : c.pathUpdates = [] := hnil
    obtain ⟨delta, transcript, hcheck, rfl⟩ := processRemove_eq_ok.mp h
    obtain ⟨_, _, nodeUpdates, hchecked, hdelta, _⟩ := checkRemove_eq_ok.mp hcheck
    obtain rfl := deltaRootOf_nil (hnil ▸ hchecked.converted) hdelta
    refine ⟨nofun, ⟨c.content signer, ?_, hchecked.signed⟩, transcript,
      applyRemove_advanced s _ _ c⟩
    rw [← hnil]
    rfl

/-- What a call does that processes a commit. -/
theorem processCall_eq_ok {kind : CommitType} {session bytes signer : Bytes}
    {reply : SessionReply} :
    processCall W kind session bytes signer = .ok reply ↔
      ∃ s c pk s', deserializeCocoaSession W.toWirePrimitives session = .ok s ∧
        deserializeCommit W.toWirePrimitives kind bytes = .ok c ∧
        W.identityPublicFromBytes signer = .ok pk ∧ c.process pk s = .ok () s' ∧
        reply = ⟨serializeCocoaSession s', asF64 s'.epochNumber⟩ := by
  simp only [processCall, Except.bind_eq_ok, loadSession_eq_ok, orThrow_eq_ok, runSession_eq_ok,
    Except.mapError_eq_ok, Except.pure_eq_ok]
  constructor
  · rintro ⟨s, hload, c, hread, pk, hsigner, ⟨_, s'⟩, hprocess, rfl⟩
    exact ⟨s, c, pk, s', hload, hread, hsigner, hprocess, rfl⟩
  · rintro ⟨s, c, pk, s', hload, hread, hsigner, hprocess, rfl⟩
    exact ⟨s, hload, c, hread, pk, hsigner, ⟨(), s'⟩, hprocess, rfl⟩

/-- No byte string is processed as an update.  Whatever is processed as an add or a removal
moves the session on with an all-zero root seed.  If it is what a call has returned, for a
commit of this or of another kind, then a signature that was made for a commit with a path
passes for one without. -/
theorem commit_calls (hsig : W.SignatureCodec) :
    (∀ session bytes signer reply, cocoaProcessUpdate W session bytes signer ≠ .ok reply) ∧
    (∀ kind session bytes signer reply, processCall W kind session bytes signer = .ok reply →
      ∃ s s' transcript, deserializeCocoaSession W.toWirePrimitives session = .ok s ∧
        reply.session = serializeCocoaSession s' ∧ Advanced s s' zero32 transcript) ∧
    ∀ made kind identity bytes, Emitted W made identity bytes →
      ∀ session signer reply, processCall W kind session bytes signer = .ok reply →
        ∃ pk path signature, W.identityPublicFromBytes signer = .ok pk ∧ path ≠ [] ∧
          SignedWith W identity path signature ∧ PassesWith W pk [] signature := by
  refine ⟨?_, ?_, ?_⟩
  · intro session bytes signer reply h
    obtain ⟨s, c, pk, s', _, hread, _, hprocess, _⟩ := processCall_eq_ok.mp h
    obtain ⟨hkind, hnil, _⟩ := deserializeCommit_ok hread
    exact (process_of_nil hnil hprocess).1 hkind
  · intro kind session bytes signer reply h
    obtain ⟨s, c, pk, s', hload, hread, _, hprocess, rfl⟩ := processCall_eq_ok.mp h
    obtain ⟨_, hnil, _⟩ := deserializeCommit_ok hread
    obtain ⟨_, _, transcript, hadvanced⟩ := process_of_nil hnil hprocess
    exact ⟨s, s', transcript, hload, rfl, hadvanced⟩
  · intro made kind identity bytes hemitted session signer reply h
    obtain ⟨s, c, pk, s', _, hread, hsigner, hprocess, _⟩ := processCall_eq_ok.mp h
    obtain ⟨commit, rfl, rfl, hpath, hsigned⟩ := hemitted.signed
    obtain ⟨hkind, hnil, _⟩ := deserializeCommit_ok hread
    obtain ⟨hnotUpdate, hpasses, _⟩ := process_of_nil hnil hprocess
    rw [commitSignature_of_read hsig (hkind ▸ hnotUpdate) hread] at hpasses
    exact ⟨pk, commit.pathUpdates, commitSignature commit, hsigner, hpath, hsigned, hpasses⟩

section Sample

open Symbolic

/-- An add at leaf 2 that was signed without a path. -/
def pathlessAdd : AddCommit wireSample.toPrimitives :=
  let roundHash := h3RoundHash wireSample.toPrimitives
    (wireSample.deriveKey rootLabelContext zero32.val) [] [word 9]
  let commit : AddCommit wireSample.toPrimitives :=
    { groupId := word 1, newMemberId := word 9, newLeafPosition := 2
      committerLeafPosition := 1, epoch := 1, pathUpdates := []
      signature := FixedBytes.zero 3366, roundHash
      confirmationTag := computeConfirmationTag wireSample.toPrimitives zero32
        (h3TranscriptHash wireSample.toPrimitives zero32 roundHash) 1 }
  { commit with
    signature := wireSign (word 50) (commit.content (word 50)).toBytes commitSignContext }

/-- The first of two members, as it is stored. -/
theorem load_wireMember :
    deserializeCocoaSession wireSample (serializeCocoaSession (wireMember 0 10 wireTree)) =
      .ok (wireMember 0 10 wireTree).reloaded :=
  deserialize_serializeCocoaSession wireSample_keyPairCodec
    ⟨by decide, by decide, by decide, by decide, by decide⟩ ⟨rfl, rfl⟩

theorem pathlessAdd_accepted :
    ∃ reply, processCall groupSample .add (serializeCocoaSession (wireMember 0 10 wireTree))
      (serializeAddCommit (W := wireSample) pathlessAdd) (word 50).val = .ok reply := by
  have hrun : okAnd ((Commit.add pathlessAdd).process (word 50)
      (wireMember 0 10 wireTree).reloaded) fun _ _ => true := by
    decide +kernel
  obtain ⟨_, s', hprocess, _⟩ := okAnd_eq_true.mp hrun
  have hwords : InWords (W := wireSample) (.add pathlessAdd) :=
    ⟨show 2 < 2 ^ 32 by decide, show (1 : Nat) < 2 ^ 32 by decide,
      show (1 : Nat) < 2 ^ 64 by decide⟩
  obtain ⟨_, hread, rfl, _⟩ := (carriesCommit_iff wireSample_signatureCodec hwords).mpr rfl
  exact ⟨_, processCall_eq_ok.mpr ⟨_, _, word 50, s', load_wireMember, hread,
    publicKeyFromBytes_coe (word 50), hprocess, rfl⟩⟩

theorem wireMember_updates :
    ∃ reply, cocoaCreateUpdate groupSample (serializeCocoaSession (wireMember 0 10 wireTree))
      (word 50).val (wireDraws 500) = .ok reply := by
  have hrun : okAnd (createUpdate (P := wireSample.toPrimitives) (word 50) (wireDraws 500)
      (wireMember 0 10 wireTree).reloaded) fun _ _ => true := by
    decide +kernel
  obtain ⟨c, s', hcreate, _⟩ := okAnd_eq_true.mp hrun
  refine ⟨⟨serializeCocoaSession s', serializeUpdateCommit c, asF64 s'.epochNumber⟩, ?_⟩
  simp only [cocoaCreateUpdate, Except.bind_eq_ok, loadSession_eq_ok, orThrow_eq_ok,
    runSession_eq_ok, Except.pure_eq_ok]
  exact ⟨_, load_wireMember, word 50, publicKeyFromBytes_coe (word 50), ⟨c, s'⟩, hcreate, rfl⟩

/-- One of two members accepts it, and moves on with an all-zero root seed.  An update that
one of them makes is accepted by nobody. -/
theorem commit_calls_pathless :
    (∃ session reply, cocoaProcessAdd groupSample session
        (serializeAddCommit (W := wireSample) pathlessAdd) (word 50).val = .ok reply ∧
      ∃ s s' transcript, deserializeCocoaSession wireSample session = .ok s ∧
        reply.session = serializeCocoaSession s' ∧ Advanced s s' zero32 transcript) ∧
    ∃ session reply, cocoaCreateUpdate groupSample session (word 50).val (wireDraws 500) =
        .ok reply ∧
      ∀ other signer r, cocoaProcessUpdate groupSample other reply.commit signer ≠ .ok r := by
  obtain ⟨hupdate, haccepted, _⟩ := commit_calls (W := groupSample) wireSample_signatureCodec
  constructor
  · obtain ⟨reply, hcall⟩ := pathlessAdd_accepted
    exact ⟨_, reply, hcall, haccepted .add _ _ _ _ hcall⟩
  · obtain ⟨reply, hcall⟩ := wireMember_updates
    exact ⟨_, reply, hcall, fun other signer r => hupdate other _ signer r⟩

end Sample

end Trelis.Wasm
