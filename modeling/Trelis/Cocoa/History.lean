import Mathlib.Data.List.Range
import Trelis.Lib.KeyChain
import Trelis.Cocoa.Overflow
import Trelis.Cocoa.Run
import Trelis.Symbolic

/-!
# What a member has been through

The history of a member: the commits that it has built or accepted, in order,
each with the root seed and the transcript hash that it has moved to the next
epoch with.

The transcript hash is a chain over the root seeds and the changes of the members
(`History.transcriptHash_eq`), the init secret one over the root seeds and the
transcript hashes (`History.initSecret_eq`), and the epochs of the commits follow
one another without a gap (`History.epochs_eq`).
-/

namespace Trelis.Cocoa

variable {P : Primitives}

/-! ## The fields of a commit -/

namespace Commit

def groupId : Commit P → GroupId
  | add c => c.groupId
  | update c => c.groupId
  | remove c => c.groupId

def epoch : Commit P → Nat
  | add c => c.epoch
  | update c => c.epoch
  | remove c => c.epoch

def confirmationTag : Commit P → Bytes32
  | add c => c.confirmationTag
  | update c => c.confirmationTag
  | remove c => c.confirmationTag

/-- The users that the round hash names as removed. -/
def removedUsers : Commit P → List UserId
  | add _ => []
  | update _ => []
  | remove c => [c.removedMemberId]

/-- The users that the round hash names as added. -/
def addedUsers : Commit P → List UserId
  | add c => [c.newMemberId]
  | update _ => []
  | remove _ => []

theorem users_short (c : Commit P) : c.removedUsers.length ≤ 1 ∧ c.addedUsers.length ≤ 1 := by
  cases c <;> simp [removedUsers, addedUsers]

end Commit

/-! ## Steps -/

/-- What a commit adds to the transcript. -/
structure EpochChange where
  delta : Seed
  removed : List UserId
  added : List UserId
deriving DecidableEq

def EpochChange.roundHash (P : Primitives) (x : EpochChange) : Bytes32 :=
  h3RoundHash P (P.deriveKey rootLabelContext x.delta.val) x.removed x.added

/-- The step of the transcript hash. -/
def mixTranscript (P : Primitives) (transcript : Bytes32) (x : EpochChange) : Bytes32 :=
  h3TranscriptHash P transcript (x.roundHash P)

/-- The epoch secret behind an init secret, a root seed and the new transcript
hash. -/
def mixEpoch (P : Primitives) (initSecret : Bytes32) (x : Seed × Bytes32) : Bytes32 :=
  h5EpochSecret P initSecret x.1 x.2

/-- The step of the init secret. -/
def mixInit (P : Primitives) (initSecret : Bytes32) (x : Seed × Bytes32) : Bytes32 :=
  deriveInitSecret P (mixEpoch P initSecret x)

/-- The step of the epoch secret and the transcript hash. -/
def mixState (P : Primitives) (k : Bytes32 × Bytes32) (x : EpochChange) : Bytes32 × Bytes32 :=
  (mixEpoch P (deriveInitSecret P k.1) (x.delta, mixTranscript P k.2 x), mixTranscript P k.2 x)

/-- A commit that a member has moved to the next epoch with. -/
structure Advance (P : Primitives) where
  commit : Commit P
  /-- The root seed. -/
  delta : Seed
  /-- The transcript hash after the commit. -/
  transcript : Bytes32

namespace Advance

def change (e : Advance P) : EpochChange := ⟨e.delta, e.commit.removedUsers, e.commit.addedUsers⟩

/-- What goes into the epoch secret. -/
def inputs (e : Advance P) : Seed × Bytes32 := (e.delta, e.transcript)

/-- The commit takes the session to the next epoch. -/
structure Moves (e : Advance P) (s s' : CocoaSession P) : Prop where
  groupId_eq : e.commit.groupId = s.groupId
  epoch_eq : e.commit.epoch = s.epochNumber + 1
  transcript_eq : e.transcript = mixTranscript P s.transcriptHash e.change
  tag_eq : e.commit.confirmationTag = computeConfirmationTag P e.delta e.transcript e.commit.epoch
  advanced : Advanced s s' e.delta e.transcript

namespace Moves

variable {e : Advance P} {s s' : CocoaSession P}

theorem epochNumber_eq (h : e.Moves s s') : s'.epochNumber = s.epochNumber + 1 := by
  rw [CocoaSession.epochNumber, h.advanced.epoch_eq]
  rfl

theorem transcriptHash_eq (h : e.Moves s s') :
    s'.transcriptHash = mixTranscript P s.transcriptHash e.change :=
  h.advanced.transcriptHash_eq.trans h.transcript_eq

theorem epochSecret_eq (h : e.Moves s s') :
    s'.currentEpochSecret = mixEpoch P s.initSecret e.inputs := by
  rw [CocoaSession.currentEpochSecret, h.advanced.epoch_eq]
  rfl

theorem initSecret_eq (h : e.Moves s s') : s'.initSecret = mixInit P s.initSecret e.inputs := by
  rw [CocoaSession.initSecret, h.advanced.epoch_eq]
  rfl

end Moves

end Advance

/-- The session has stayed in its epoch. -/
structure CocoaSession.Stays (s s' : CocoaSession P) : Prop where
  groupId_eq : s'.groupId = s.groupId
  number_eq : s'.epochNumber = s.epochNumber
  secrets_eq : s'.epoch.secrets = s.epoch.secrets
  transcriptHash_eq : s'.transcriptHash = s.transcriptHash

/-! ## One call -/

/-- A call at a member, with the commit that it has moved on with.  A commit that
is rejected changes nothing. -/
inductive CocoaSession.Does : CocoaSession P → Option (Advance P) → CocoaSession P → Prop
  | built {op : Operation P} {identity draws m s s' leafSeed}
      (h : op.build identity draws s = .ok m s') (hseed : draws.leafSeed = .ok leafSeed) :
      Does s (some ⟨m.commit, (deriveH1Seed P)^[(op.session s).tree.treeDepth] leafSeed,
        s'.transcriptHash⟩) s'
  | accepted {c : Commit P} {signer s s' delta transcript} (h : c.process signer s = .ok () s')
      (hcheck : c.check signer s = .ok (delta, transcript)) :
      Does s (some ⟨c, delta, transcript⟩) s'
  | failed {op : Operation P} {identity draws e s s'}
      (h : op.build identity draws s = .error e s') : Does s none s'
  | sent {cipher plaintext m s s'} (h : s.encrypt cipher plaintext = some (.ok m s')) :
      Does s none s'
  | sendFailed {cipher plaintext e s s'} (h : s.encrypt cipher plaintext = some (.error e s')) :
      Does s none s'

/-- A builder that succeeds has made a commit for the next epoch. -/
theorem Operation.moves_of_ok {op : Operation P} {identity : P.IdentityKeyPair} {draws : Draws P}
    {s s' : CocoaSession P} {m : Message P} {leafSeed : Seed}
    (h : op.build identity draws s = .ok m s') (hseed : draws.leafSeed = .ok leafSeed) :
    Advance.Moves ⟨m.commit, (deriveH1Seed P)^[(op.session s).tree.treeDepth] leafSeed,
      s'.transcriptHash⟩ s s' := by
  cases op with
  | add bundle newMemberId =>
    simp only [build, EStateM.bind_eq_ok, EStateM.pure_eq_ok] at h
    rcases h with ⟨⟨c, w⟩, _, hadd, rfl, rfl⟩
    rcases addMember_ok hadd with ⟨seed, result, _, hdraw, hpath, hhonest, ⟨hid, _⟩, _, rfl⟩
    obtain rfl : seed = leafSeed := Except.ok.inj (hdraw.symm.trans hseed)
    have hdelta : (deriveH1Seed P)^[s.grownFor.tree.treeDepth] seed = result.deltaRoot :=
      hpath.deltaRoot_eq.symm
    have hround : c.roundHash =
        h3RoundHash P (P.deriveKey rootLabelContext result.deltaRoot.val) [] [c.newMemberId] := by
      rw [hid]
      exact hhonest.roundHash_eq
    have hadvanced : Advanced s (((markMemberAsUnmerged
        (s.grownFor.modifyTree (·.setMemberCount (s.memberCount + 1))) s.memberCount).advanceEpoch
          result.deltaRoot (h3TranscriptHash P s.transcriptHash c.roundHash)).insertMember
            newMemberId) result.deltaRoot (h3TranscriptHash P s.transcriptHash c.roundHash) := by
      constructor <;> simp [markMemberAsUnmerged, CocoaSession.grownFor]
    simp only [session, hdelta, hadvanced.transcriptHash_eq]
    exact ⟨hhonest.groupId_eq, hhonest.epoch_eq,
      congrArg (h3TranscriptHash P s.transcriptHash) hround, hhonest.tag_eq, hadvanced⟩
  | update =>
    simp only [build, EStateM.bind_eq_ok, EStateM.pure_eq_ok] at h
    rcases h with ⟨c, _, hcreate, rfl, rfl⟩
    rcases createUpdate_ok hcreate with ⟨seed, result, _, hdraw, hpath, hhonest, _, rfl⟩
    obtain rfl : seed = leafSeed := Except.ok.inj (hdraw.symm.trans hseed)
    have hdelta : (deriveH1Seed P)^[s.tree.treeDepth] seed = result.deltaRoot :=
      hpath.deltaRoot_eq.symm
    simp only [session, hdelta]
    exact ⟨hhonest.groupId_eq, hhonest.epoch_eq,
      congrArg (h3TranscriptHash P s.transcriptHash) hhonest.roundHash_eq, hhonest.tag_eq,
      rfl, rfl, rfl⟩
  | remove removedMemberId removedPosition =>
    simp only [build, EStateM.bind_eq_ok, EStateM.pure_eq_ok] at h
    rcases h with ⟨c, _, hremove, rfl, rfl⟩
    rcases removeMember_ok hremove with ⟨seed, result, _, hdraw, hpath, hhonest, ⟨hid, _⟩, rfl⟩
    obtain rfl : seed = leafSeed := Except.ok.inj (hdraw.symm.trans hseed)
    have hdelta : (deriveH1Seed P)^[(s.blankedFor removedPosition).tree.treeDepth] seed =
        result.deltaRoot := hpath.deltaRoot_eq.symm
    have hround : c.roundHash =
        h3RoundHash P (P.deriveKey rootLabelContext result.deltaRoot.val) [c.removedMemberId]
          [] := by
      rw [hid]
      exact hhonest.roundHash_eq
    simp only [session, hdelta]
    exact ⟨hhonest.groupId_eq, hhonest.epoch_eq,
      congrArg (h3TranscriptHash P s.transcriptHash) hround, hhonest.tag_eq, rfl, rfl, rfl⟩

/-- What the checks of an accepted commit have returned. -/
theorem Commit.exists_check {c : Commit P} {signer : P.IdentityPublicKey} {s s' : CocoaSession P}
    (h : c.process signer s = .ok () s') :
    ∃ delta transcript, c.check signer s = .ok (delta, transcript) := by
  cases c with
  | add c =>
    rcases processAdd_eq_ok.mp h with ⟨_, _, hcheck, _⟩
    exact ⟨_, _, hcheck⟩
  | update c =>
    rcases processUpdate_eq_ok.mp h with ⟨_, _, hcheck, _⟩
    exact ⟨_, _, hcheck⟩
  | remove c =>
    rcases processRemove_eq_ok.mp h with ⟨_, _, hcheck, _⟩
    exact ⟨_, _, hcheck⟩

/-- So has the sender of a commit that is accepted. -/
theorem Commit.moves_of_ok {c : Commit P} {signer : P.IdentityPublicKey} {s s' : CocoaSession P}
    {delta : Seed} {transcript : Bytes32} (h : c.process signer s = .ok () s')
    (hcheck : c.check signer s = .ok (delta, transcript)) :
    Advance.Moves ⟨c, delta, transcript⟩ s s' := by
  cases c with
  | add c =>
    simp only [Commit.check] at hcheck
    rcases processAdd_eq_ok.mp h with ⟨_, _, hcheck', rfl⟩
    cases hcheck.symm.trans hcheck'
    rcases (checkAdd_eq_ok rfl).mp hcheck with ⟨_, _, _, _, hc, _, htranscript⟩
    obtain rfl : transcript = _ := htranscript
    exact ⟨hc.groupId_eq, hc.epoch_eq,
      congrArg (h3TranscriptHash P s.transcriptHash) hc.roundHash_eq.symm, hc.tag_eq.symm,
      applyAdd_advanced ..⟩
  | update c =>
    simp only [Commit.check] at hcheck
    rcases processUpdate_eq_ok.mp h with ⟨_, _, hcheck', rfl⟩
    cases hcheck.symm.trans hcheck'
    rcases checkUpdate_eq_ok.mp hcheck with ⟨_, _, hc, _, htranscript⟩
    obtain rfl : transcript = _ := htranscript
    exact ⟨hc.groupId_eq, hc.epoch_eq,
      congrArg (h3TranscriptHash P s.transcriptHash) hc.roundHash_eq.symm, hc.tag_eq.symm,
      applyUpdate_advanced ..⟩
  | remove c =>
    simp only [Commit.check] at hcheck
    rcases processRemove_eq_ok.mp h with ⟨_, _, hcheck', rfl⟩
    cases hcheck.symm.trans hcheck'
    rcases checkRemove_eq_ok.mp hcheck with ⟨_, _, _, hc, _, htranscript⟩
    obtain rfl : transcript = _ := htranscript
    exact ⟨hc.groupId_eq, hc.epoch_eq,
      congrArg (h3TranscriptHash P s.transcriptHash) hc.roundHash_eq.symm, hc.tag_eq.symm,
      applyRemove_advanced ..⟩

/-- A builder that fails stays where it is. -/
theorem Operation.stays_of_error {op : Operation P} {identity : P.IdentityKeyPair}
    {draws : Draws P} {s s' : CocoaSession P} {e : CryptoError}
    (h : op.build identity draws s = .error e s') : s.Stays s' := by
  have hsession : s.Stays (op.session s) := by
    cases op with
    | add bundle newMemberId => exact ⟨rfl, rfl, rfl, rfl⟩
    | update => exact ⟨rfl, rfl, rfl, rfl⟩
    | remove removedMemberId removedPosition => exact ⟨rfl, rfl, rfl, rfl⟩
  rcases build_eq_error.mp h with ⟨_, rfl⟩ | ⟨_, _, rfl⟩ |
    ⟨path, _, _, ⟨_, rfl⟩ | ⟨t, hprepare, _, rfl⟩⟩
  · exact ⟨rfl, rfl, rfl, rfl⟩
  · exact hsession
  · exact hsession
  · cases op with
    | add bundle newMemberId =>
      cases hprepare
      exact ⟨rfl, rfl, rfl, rfl⟩
    | update =>
      simp only [prepare, CocoaSession.rotateKeypair, Except.bind_eq_ok,
        Except.pure_eq_ok] at hprepare
      rcases hprepare with ⟨_, _, rfl⟩
      exact ⟨rfl, rfl, rfl, rfl⟩
    | remove removedMemberId removedPosition =>
      cases hprepare
      exact ⟨rfl, rfl, rfl, rfl⟩

namespace CocoaSession.Does

variable {s s' : CocoaSession P} {e : Advance P}

theorem moves (h : s.Does (some e) s') : e.Moves s s' := by
  cases h with
  | built h hseed => exact Operation.moves_of_ok h hseed
  | accepted h hcheck => exact Commit.moves_of_ok h hcheck

theorem stays (h : s.Does none s') : s.Stays s' := by
  cases h with
  | failed h => exact Operation.stays_of_error h
  | sent h =>
    rw [(encrypt_ok h).2.2.2]
    exact ⟨rfl, rfl, rfl, rfl⟩
  | sendFailed h =>
    rcases encrypt_error h with rfl | rfl
    · exact ⟨rfl, rfl, rfl, rfl⟩
    · exact ⟨rfl, rfl, rfl, rfl⟩

/-- Each step of a member is such a call. -/
theorem exists_of_memberStep {admits : CocoaSession P → Commit P → Prop}
    (h : MemberStep admits s s') : ∃ entry, s.Does entry s' := by
  cases h with
  | built h =>
    rcases Operation.build_ok h with ⟨_, _, hsent⟩
    exact ⟨_, .built h hsent.leafSeed_eq⟩
  | failed h => exact ⟨none, .failed h⟩
  | accepted h _ =>
    rcases Commit.exists_check h with ⟨_, _, hcheck⟩
    exact ⟨_, .accepted h hcheck⟩

end CocoaSession.Does

/-! ## Whole runs -/

/-- The runs of a member from `s₀`, with the commits that it has moved on with. -/
inductive History (s₀ : CocoaSession P) : List (Advance P) → CocoaSession P → Prop
  | start : History s₀ [] s₀
  | next {log s entry s'} (h : History s₀ log s) (hdoes : s.Does entry s') :
      History s₀ (log ++ entry.toList) s'

namespace History

variable {s₀ s : CocoaSession P} {log before after : List (Advance P)} {e : Advance P}

theorem epochNumber_eq (h : History s₀ log s) : s.epochNumber = s₀.epochNumber + log.length := by
  induction h with
  | start => rfl
  | @next log s entry s' _ hdoes ih =>
    cases entry with
    | none => rw [hdoes.stays.number_eq, ih, Option.toList_none, List.append_nil]
    | some e =>
      rw [hdoes.moves.epochNumber_eq, ih, Option.toList_some, List.length_append,
        List.length_singleton, Nat.add_assoc]

/-- The commits are for one epoch after the other. -/
theorem epochs_eq (h : History s₀ log s) :
    log.map (·.commit.epoch) = List.range' (s₀.epochNumber + 1) log.length := by
  induction h with
  | start => rfl
  | @next log s entry s' hlog hdoes ih =>
    cases entry with
    | none => simpa using ih
    | some e =>
      rw [Option.toList_some, List.map_append, ih, List.map_singleton, hdoes.moves.epoch_eq,
        hlog.epochNumber_eq, List.length_append, List.length_singleton, List.range'_concat,
        Nat.one_mul, Nat.add_right_comm]

/-- The transcript hash is the chain of the changes. -/
theorem transcriptHash_eq (h : History s₀ log s) :
    s.transcriptHash = chainKey (mixTranscript P) s₀.transcriptHash (log.map (·.change)) := by
  induction h with
  | start => rfl
  | @next log s entry s' _ hdoes ih =>
    cases entry with
    | none => rw [hdoes.stays.transcriptHash_eq, ih, Option.toList_none, List.append_nil]
    | some e =>
      rw [hdoes.moves.transcriptHash_eq, ih, Option.toList_some, List.map_append,
        List.map_singleton, chainKey_append_singleton]

/-- The init secret is the chain of the root seeds and the transcript hashes. -/
theorem initSecret_eq (h : History s₀ log s) :
    s.initSecret = chainKey (mixInit P) s₀.initSecret (log.map (·.inputs)) := by
  induction h with
  | start => rfl
  | @next log s entry s' _ hdoes ih =>
    cases entry with
    | none =>
      rw [Option.toList_none, List.append_nil, ← ih]
      exact congrArg EpochSecrets.initSecret hdoes.stays.secrets_eq
    | some e =>
      rw [hdoes.moves.initSecret_eq, ih, Option.toList_some, List.map_append,
        List.map_singleton, chainKey_append_singleton]

/-- The epoch secret and the transcript hash are the chain of the changes. -/
theorem epoch_eq (h : History s₀ log s) :
    (s.currentEpochSecret, s.transcriptHash) =
      chainKey (mixState P) (s₀.currentEpochSecret, s₀.transcriptHash) (log.map (·.change)) := by
  induction h with
  | start => rfl
  | @next log s entry s' _ hdoes ih =>
    cases entry with
    | none =>
      rw [Option.toList_none, List.append_nil, ← ih, hdoes.stays.transcriptHash_eq,
        CocoaSession.currentEpochSecret, hdoes.stays.secrets_eq]
      rfl
    | some e =>
      have hinit : s.initSecret = deriveInitSecret P s.currentEpochSecret :=
        s.epoch.secrets.initSecret_eq
      rw [Option.toList_some, List.map_append, List.map_singleton, chainKey_append_singleton, ← ih,
        mixState, ← hinit, ← hdoes.moves.transcript_eq, hdoes.moves.epochSecret_eq,
        hdoes.moves.transcriptHash_eq, ← hdoes.moves.transcript_eq]
      rfl

/-- A run goes on from where another has stopped. -/
theorem append {t : CocoaSession P} (h : History s₀ before t) (hafter : History t after s) :
    History s₀ (before ++ after) s := by
  induction hafter with
  | start => rwa [List.append_nil]
  | next _ hdoes ih =>
    rw [← List.append_assoc]
    exact ih.next hdoes

/-- Where a run was before one of its commits. -/
theorem exists_before (h : History s₀ log s) (hstart : before ++ [e] <+: log) :
    ∃ t t', History s₀ before t ∧ e.Moves t t' := by
  induction h with
  | start => simp at hstart
  | @next log s entry s' hlog hdoes ih =>
    cases entry with
    | none => exact ih (by simpa using hstart)
    | some e' =>
      obtain hlast | hearlier := List.prefix_concat_iff.mp hstart
      · obtain ⟨rfl, hsame⟩ := List.append_inj' hlast rfl
        obtain rfl := List.singleton_inj.mp hsame
        exact ⟨s, s', hlog, hdoes.moves⟩
      · exact ih hearlier

end History

/-! ## A shared update -/

section Sample

open Symbolic

/-- Two members, with the keys 10 and 11. -/
def pairTree : PartialTreeView symbolic := tree 1 2 [node ⟨1, 0⟩ 10, node ⟨1, 1⟩ 11]

def pairReceiver : CocoaSession symbolic := member 0 10 pairTree

def pairUpdater : CocoaSession symbolic := member 1 11 pairTree

/-- The change that the update makes. -/
def pairChange : EpochChange := ⟨deriveH1Seed symbolic (word 500), [], []⟩

def pairTranscript : Bytes32 := mixTranscript symbolic zero32 pairChange

/-- The update of one member is accepted by the other. -/
theorem exists_pair_update : ∃ e s' r', pairUpdater.Does (some e) s' ∧
    pairReceiver.Does (some e) r' ∧ e.commit.epoch = 1 ∧ e.change = pairChange ∧
    e.transcript = pairTranscript := by
  have hrun : okAnd (Operation.update.build (word 50) (draws 500) pairUpdater) (fun m s' =>
      okAnd (m.commit.process (word 50) pairReceiver) (fun _ _ =>
        okWith (m.commit.check (word 50) pairReceiver) fun r =>
          decide (r = (pairChange.delta, pairTranscript) ∧ s'.transcriptHash = pairTranscript ∧
            m.commit.epoch = 1 ∧ m.commit.removedUsers = [] ∧ m.commit.addedUsers = []))) := by
    decide +kernel
  rcases okAnd_eq_true.mp hrun with ⟨m, s', hbuild, hrun⟩
  rcases okAnd_eq_true.mp hrun with ⟨_, r', hprocess, hrun⟩
  rcases okWith_eq_true.mp hrun with ⟨r, hcheck, htest⟩
  rcases of_decide_eq_true htest with ⟨rfl, htranscript, hepoch, hremoved, hadded⟩
  have hbuilt : pairUpdater.Does (some ⟨m.commit, pairChange.delta, pairTranscript⟩) s' := by
    rw [← htranscript]
    exact .built hbuild rfl
  refine ⟨_, s', r', hbuilt, .accepted hprocess hcheck, hepoch, ?_, rfl⟩
  rw [Advance.change, hremoved, hadded]
  rfl

end Sample

end Trelis.Cocoa
