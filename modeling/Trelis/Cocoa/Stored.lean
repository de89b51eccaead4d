import Trelis.Cocoa.Geometry
import Trelis.Cocoa.Messaging

/-!
# Sessions that are stored and loaded

What is stored of a session is a fixed set of values (`Snapshot`).  The nodes of
the tree and the members are not among them: the session that comes back
(`CocoaSession.reloaded`) has an empty tree of the same size, and knows itself
only.

The calls that send and receive messages do not use either.  They use the group,
our leaf and the epoch, and two sessions that have these in common
(`SameChannel`) answer every sequence of such calls alike.  All other calls see
the difference, unless the tree was empty.
-/

namespace Trelis.Cocoa

open PartialTreeView

variable {P : Primitives}

/-- One call at a member: a builder, an accepted commit, or a message sent. -/
inductive SessionStep (cipher : MessageCipher) : CocoaSession P → CocoaSession P → Prop
  | moved {s s'} (h : MemberStep (fun _ _ => True) s s') : SessionStep cipher s s'
  | sent {s plaintext m s'} (h : s.encrypt cipher plaintext = some (.ok m s')) :
      SessionStep cipher s s'
  | sendFailed {s plaintext e s'} (h : s.encrypt cipher plaintext = some (.error e s')) :
      SessionStep cipher s s'

/-- The session that comes back from a store. -/
def CocoaSession.reloaded (s : CocoaSession P) : CocoaSession P :=
  { s with
    tree := (PartialTreeView.new P s.ourLeafPosition s.tree.treeDepth).setMemberCount s.memberCount
    members := {s.ourUserId} }

/-! ## What is not stored because it follows -/

/-- The tree has our leaf where the session has it, and the epoch has the
transcript of the session. -/
structure Storable (s : CocoaSession P) : Prop where
  ourLeaf_eq : s.tree.ourLeaf = .leaf s.tree.treeDepth s.ourLeafPosition
  transcriptHash_eq : s.epoch.transcriptHash = s.transcriptHash

theorem transcriptHash_iterate_advance {s : CocoaSession P} (transcript : Bytes32)
    (h : s.epoch.transcriptHash = s.transcriptHash) (n : Nat) :
    let t := (fun s : CocoaSession P => s.advanceEpoch zero32 transcript)^[n] s
    t.epoch.transcriptHash = t.transcriptHash := by
  exact Function.Iterate.rec (fun t : CocoaSession P => t.epoch.transcriptHash = t.transcriptHash) h
    (fun _ _ => rfl) n

theorem started_transcriptHash {admits : Welcome P → Prop} {s : CocoaSession P}
    (h : Started admits s) : s.epoch.transcriptHash = s.transcriptHash := by
  cases h with
  | created h =>
    simp only [createGroup, CocoaSession.createGroup, Except.bind_eq_ok, rejectIf_eq_ok,
      Except.pure_eq_ok, Prod.mk.injEq] at h
    obtain ⟨_, _, _, _, _, _, _, ⟨_, _, rfl⟩, _, _, rfl, _⟩ := h
    rfl
  | welcomed h _ =>
    simp only [processWelcome, Except.bind_eq_ok] at h
    obtain ⟨_, _, _, _, _, _, _, _, _, _, _, _, _, _, _, _, _, _, transcript, _, h⟩ := h
    split at h
    · rw [Except.pure_eq_ok] at h
      rw [← h]
      exact transcriptHash_iterate_advance transcript rfl _
    · simp only [Except.bind_eq_ok, Except.pure_eq_ok] at h
      obtain ⟨_, _, _, _, rfl⟩ := h
      exact transcriptHash_iterate_advance transcript rfl _

theorem Advanced.transcriptHash {s s' : CocoaSession P} {delta : Seed} {transcript : Bytes32}
    (h : Advanced s s' delta transcript) : s'.epoch.transcriptHash = s'.transcriptHash := by
  rw [h.epoch_eq, h.transcriptHash_eq]
  rfl

/-- A builder that fails keeps the transcript. -/
theorem Operation.transcriptHash_of_error {op : Operation P} {identity : P.IdentityKeyPair}
    {draws : Draws P} {s s' : CocoaSession P} {e : CryptoError}
    (h : op.build identity draws s = .error e s') : s'.transcriptHash = s.transcriptHash := by
  have hsession : (op.session s).transcriptHash = s.transcriptHash := by
    cases op <;> rfl
  obtain ⟨_, rfl⟩ | ⟨_, _, rfl⟩ | ⟨path, _, _, ⟨_, rfl⟩ | ⟨t, hprepare, _, rfl⟩⟩ :=
    Operation.build_eq_error.mp h
  · rfl
  · exact hsession
  · exact hsession
  · cases op with
    | add bundle newMemberId =>
      cases hprepare
      rfl
    | update =>
      simp only [Operation.prepare, CocoaSession.rotateKeypair, Except.bind_eq_ok,
        Except.pure_eq_ok] at hprepare
      obtain ⟨_, _, rfl⟩ := hprepare
      rfl
    | remove removedMemberId removedPosition =>
      cases hprepare
      rfl

namespace Storable

variable {s s' : CocoaSession P}

theorem of_started {admits : Welcome P → Prop} (h : Started admits s) : Storable s := by
  refine ⟨?_, started_transcriptHash h⟩
  cases h with
  | created h =>
    have hs := createGroup_ok h
    obtain ⟨count, _, htree⟩ := hs.tree_eq
    rw [htree, hs.ourLeafPosition_eq]
    rfl
  | welcomed h _ =>
    have hs := processWelcome_ok h
    rw [hs.tree_eq, hs.ourLeafPosition_eq]
    rfl

theorem moved (h : Storable s) (hstep : MemberStep (fun _ _ => True) s s') : Storable s' := by
  cases hstep with
  | built hbuild =>
    obtain ⟨_, _, hadvanced⟩ := Operation.advanced_of_ok hbuild
    obtain ⟨htree, hleaf⟩ := Operation.leavesTree_of_ok hbuild
    exact ⟨by rw [hleaf]; exact ourLeaf_leavesTree h.ourLeaf_eq htree, hadvanced.transcriptHash⟩
  | failed hbuild =>
    obtain ⟨htree, hleaf, hepoch⟩ := Operation.leavesTree_of_error hbuild
    refine ⟨by rw [hleaf]; exact ourLeaf_leavesTree h.ourLeaf_eq htree, ?_⟩
    rw [hepoch, Operation.transcriptHash_of_error hbuild, h.transcriptHash_eq]
  | accepted hprocess _ =>
    obtain ⟨_, _, hadvanced⟩ := Commit.advanced hprocess
    exact ⟨ourLeaf_process h.ourLeaf_eq hprocess, hadvanced.transcriptHash⟩

theorem step {cipher : MessageCipher} (h : Storable s) (hstep : SessionStep cipher s s') :
    Storable s' := by
  cases hstep with
  | moved hmove => exact h.moved hmove
  | sent hsend =>
    obtain ⟨_, _, _, rfl⟩ := encrypt_ok hsend
    exact ⟨h.ourLeaf_eq, h.transcriptHash_eq⟩
  | sendFailed hsend =>
    obtain rfl | rfl := encrypt_error hsend
    · exact h
    · exact ⟨h.ourLeaf_eq, h.transcriptHash_eq⟩

theorem of_reachable {cipher : MessageCipher} {admits : Welcome P → Prop}
    (h : Reachable (Started admits) (SessionStep cipher) s) : Storable s :=
  h.invariant (fun _ => of_started) fun _ _ hs => hs.step

/-- What was stored comes back as the reloaded session. -/
theorem restore (h : Storable s) :
    (Snapshot.ofSession s).restoreSession.setMessageCounter s.epoch.messageCounter =
      .ok s.reloaded := by
  have hsecrets : EpochSecrets.derive s.currentEpochSecret = s.epoch.secrets :=
    EpochSecrets.ext_epochSecret rfl
  have hepoch : { (Snapshot.ofSession s).restoreSession.epoch with
      messageCounter := s.epoch.messageCounter } = s.epoch := by
    show Epoch.mk _ (EpochSecrets.derive s.currentEpochSecret) _ s.transcriptHash = s.epoch
    rw [hsecrets, ← h.transcriptHash_eq]
    rfl
  rw [setMessageCounter_eq_ok]
  refine ⟨Nat.zero_le _, ?_⟩
  rw [hepoch]
  rfl

/-- A session without nodes comes back with itself as its only member, and with
nothing else changed. -/
theorem reloaded_of_empty (h : Storable s) (hempty : s.tree.nodes = ∅) :
    s.reloaded = { s with members := {s.ourUserId} } := by
  have htree : (PartialTreeView.new P s.ourLeafPosition s.tree.treeDepth).setMemberCount
      s.memberCount = s.tree := by
    apply PartialTreeView.ext
    · exact hempty.symm
    · exact h.ourLeaf_eq.symm
    · rfl
    · rfl
  rw [CocoaSession.reloaded, htree]

end Storable

/-! ## Messages after a reload -/

/-- The calls that send and receive messages. -/
inductive MessageCall where
  | encrypt (plaintext : Bytes)
  | decrypt (message : EncryptedMessage)
  | setMessageCounter (counter : Nat)

/-- What such a call returns. -/
inductive Reply where
  | message (message : EncryptedMessage)
  | plaintext (plaintext : Bytes)
  | done

/-- Runs a call: its result, and the session behind it.  No result where the
counter overflows. -/
def MessageCall.run (cipher decipher : MessageCipher) (s : CocoaSession P) :
    MessageCall → Option (Result Reply × CocoaSession P)
  | .encrypt plaintext => (s.encrypt cipher plaintext).map fun
    | .ok m s' => (.ok (.message m), s')
    | .error e s' => (.error e, s')
  | .decrypt m => some (Reply.plaintext <$> s.decrypt decipher m, s)
  | .setMessageCounter counter =>
    match s.setMessageCounter counter with
    | .ok s' => some (.ok .done, s')
    | .error e => some (.error e, s)

/-- The results of a sequence of calls, up to the first that has none. -/
def replies (cipher decipher : MessageCipher) (s : CocoaSession P) :
    List MessageCall → List (Result Reply)
  | [] => []
  | call :: calls =>
    match call.run cipher decipher s with
    | some (reply, s') => reply :: replies cipher decipher s' calls
    | none => []

/-- Two sessions with the same group, leaf and epoch. -/
structure SameChannel (a b : CocoaSession P) : Prop where
  groupId : a.groupId = b.groupId
  ourLeafPosition : a.ourLeafPosition = b.ourLeafPosition
  epoch : a.epoch = b.epoch

namespace SameChannel

variable {a b : CocoaSession P} (cipher decipher : MessageCipher)

theorem decrypt_eq (h : SameChannel a b) (message : EncryptedMessage) :
    a.decrypt decipher message = b.decrypt decipher message := by
  unfold CocoaSession.decrypt
  rw [h.groupId, h.epoch]

/-- A call is answered alike, and keeps what they have in common. -/
theorem run (h : SameChannel a b) (call : MessageCall) :
    Option.Rel (fun x y => x.1 = y.1 ∧ SameChannel x.2 y.2) (call.run cipher decipher a)
      (call.run cipher decipher b) := by
  cases call with
  | encrypt plaintext =>
    simp only [MessageCall.run, CocoaSession.encrypt, h.groupId, h.ourLeafPosition, h.epoch]
    cases checkSizeLimits plaintext.length 0 0 0 0 with
    | error e => exact .some ⟨rfl, h⟩
    | ok =>
      cases hnext : b.epoch.nextMessageKey b.ourLeafPosition with
      | none => exact .none
      | some next =>
        obtain ⟨key, epoch⟩ := next
        simp only [Option.map_some]
        cases cipher key.key key.nonce plaintext (b.groupId.val ++ leBytes 8 b.epoch.number ++
            leBytes 4 b.ourLeafPosition ++ leBytes 8 key.counter) with
        | error e => exact .some ⟨rfl, rfl, rfl, rfl⟩
        | ok ciphertext => exact .some ⟨rfl, rfl, rfl, rfl⟩
  | decrypt message => exact .some ⟨by rw [h.decrypt_eq], h⟩
  | setMessageCounter counter =>
    simp only [MessageCall.run, CocoaSession.setMessageCounter, h.epoch]
    cases b.epoch.setMessageCounter counter with
    | error e => exact .some ⟨rfl, h⟩
    | ok epoch => exact .some ⟨rfl, h.groupId, h.ourLeafPosition, rfl⟩

theorem replies_eq (h : SameChannel a b) (calls : List MessageCall) :
    replies cipher decipher a calls = replies cipher decipher b calls := by
  induction calls generalizing a b with
  | nil => rfl
  | cons call calls ih =>
    have hrun := h.run cipher decipher call
    unfold replies
    cases ha : call.run cipher decipher a with
    | none =>
      cases hb : call.run cipher decipher b with
      | none => rfl
      | some y => simp [ha, hb] at hrun
    | some x =>
      cases hb : call.run cipher decipher b with
      | none => simp [ha, hb] at hrun
      | some y =>
        rw [ha, hb, Option.rel_some_some] at hrun
        simp only [hrun.1, ih hrun.2]

end SameChannel

theorem sameChannel_reloaded (s : CocoaSession P) : SameChannel s.reloaded s := ⟨rfl, rfl, rfl⟩

end Trelis.Cocoa
