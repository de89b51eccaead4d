import Trelis.Wasm.IdentityApi
import Trelis.Wasm.KeyStoreApi

/-!
# Sharing the history with a new device

The `history_key_share_` calls of the WASM crate, between the key stores of two devices.
The old device takes the keys out of its store and signs them in a share; the new device
verifies the share, takes the keys out of it and merges them into an empty store.

`history_sync` is the law of the whole way.  The new store has the content of the old
one, and where the sequence numbers differ it has its bytes.
-/

namespace Trelis.MultiDevice.HistoryKeyShareMessage

open Hybrid X3dh

variable {P : HandshakePrimitives}

/-- `HistoryKeyShareMessage::new`. -/
def new (threadId : Bytes32) (keys : List RetainedKey)
    (signingKey : HybridSigningKeypair P.toSignaturePrimitives) (sharedAt : UInt64)
    (coins : SigningCoins P.toSignaturePrimitives) : Result (HistoryKeyShareMessage P) := do
  let signature ← CanonicalSignature.sign signingKey (signingData P threadId keys sharedAt) coins
  pure { threadId, keys, signature, sharedAt }

/-- `HistoryKeyShareMessage::verify`. -/
def verify (m : HistoryKeyShareMessage P)
    (senderKey : HybridSigningPublicKey P.toSignaturePrimitives) : Result Unit :=
  senderKey.verify (signingData P m.threadId m.keys m.sharedAt) m.signature.val

theorem new_eq_ok {threadId : Bytes32} {keys : List RetainedKey}
    {signingKey : HybridSigningKeypair P.toSignaturePrimitives} {sharedAt : UInt64}
    {coins : SigningCoins P.toSignaturePrimitives} {m : HistoryKeyShareMessage P} :
    new threadId keys signingKey sharedAt coins = .ok m ↔
      signingKey.sign (signingData P threadId keys sharedAt) coins = .ok m.signature.val ∧
        m.threadId = threadId ∧ m.keys = keys ∧ m.sharedAt = sharedAt := by
  simp only [new, Except.bind_eq_ok, CanonicalSignature.sign_eq_ok, Except.pure_eq_ok]
  constructor
  · intro hex
    rcases hex with ⟨signature, hsign, rfl⟩
    exact ⟨hsign, rfl, rfl, rfl⟩
  · intro hboth
    rcases hboth with ⟨hsign, rfl, rfl, rfl⟩
    exact ⟨m.signature, hsign, rfl⟩

/-- A share verifies under the key that signed it. -/
theorem verify_new (hcurve : P.Rfc8032) (hmldsa : P.Correct) {threadId : Bytes32}
    {keys : List RetainedKey} {signingKey : HybridSigningKeypair P.toSignaturePrimitives}
    {sharedAt : UInt64} {coins : SigningCoins P.toSignaturePrimitives}
    {m : HistoryKeyShareMessage P} (h : new threadId keys signingKey sharedAt coins = .ok m) :
    m.verify signingKey.publicKey = .ok () := by
  obtain ⟨hsign, hthread, hkeys, hat⟩ := new_eq_ok.mp h
  rw [verify, hthread, hkeys, hat]
  exact bopVerifyCore_bopSignCore hcurve hmldsa hsign

end Trelis.MultiDevice.HistoryKeyShareMessage

namespace Trelis.Wasm

open Hybrid X3dh MultiDevice MachineM

variable {P : HandshakePrimitives} (D : KeyDecoders P) (S : KeyPairCodecs P)

/-! ## The calls -/

/-- An error that JavaScript sees, of a computation that may panic. -/
def debugMachine {α : Type} (x : MachineM CryptoError α) : MachineM JsError α :=
  ExceptT.mk (x.run.map debugError)

def retainedKeyCreate (messageId messageKey : Bytes) (sequence timestamp : UInt64) :
    Except JsError Bytes := do
  rejectIf (messageId.length ≠ 32) (.text "Message ID must be 32 bytes")
  rejectIf (messageKey.length ≠ 32) (.text "Message key must be 32 bytes")
  let mid ← debugError (arrayFromBytes 32 messageId .malformedMessage)
  let mkey ← debugError (arrayFromBytes 32 messageKey .malformedMessage)
  pure (RetainedKey.toBytes ⟨mid, mkey, sequence, timestamp⟩)

def historyKeyShareCreate (threadId retainedKeys signingSecret : Bytes) (sharedAt : UInt64)
    (coins : SigningCoins P.toSignaturePrimitives) : Except JsError Bytes := do
  rejectIf (threadId.length ≠ 32) (.text "Thread ID must be 32 bytes")
  rejectIf (retainedKeys.length % 80 ≠ 0) (.text "Retained keys must be multiples of 80 bytes")
  let tid ← debugError (arrayFromBytes 32 threadId .malformedMessage)
  let keys ← parseKeys "Invalid retained key in array" retainedKeys
  let keypair ← debugError (signingFromBytes S signingSecret)
  let msg ← debugError (HistoryKeyShareMessage.new tid keys keypair sharedAt coins)
  pure msg.toBytes

/-- The result of a verification. -/
structure ShareInfo where
  valid : Bool
  threadId : Bytes32
  keyCount : JsNumber
  sharedAt : JsNumber

def historyKeyShareVerify (t : Target) (messageBytes senderPublic : Bytes) :
    MachineM JsError ShareInfo := do
  let msg ← debugMachine (HistoryKeyShareMessage.fromBytes D t messageBytes)
  let senderPk ← returns (debugError (ReadableKey.fromBytes D senderPublic))
  let valid := (msg.verify senderPk.val).isOk
  pure { valid, threadId := msg.threadId, keyCount := asF64 msg.keys.length,
         sharedAt := asF64 msg.sharedAt.toNat }

def historyKeyShareExtractKeys (t : Target) (messageBytes : Bytes) : MachineM JsError Bytes := do
  let msg ← debugMachine (HistoryKeyShareMessage.fromBytes D t messageBytes)
  pure (hashedKeys msg.keys)

/-! ## A share on its way -/

variable {D S} {t : Target}

theorem debugMachine_returns_ok {α : Type} {x : MachineM CryptoError α} {a : α}
    (h : x = returns (.ok a)) : debugMachine x = returns (.ok a) := by
  rw [h]
  rfl

/-- The bytes of a key are made of its fields. -/
theorem retainedKeyCreate_fields (key : RetainedKey) :
    retainedKeyCreate key.messageId.val key.messageKey.val key.sequence key.timestamp =
      .ok key.toBytes := by
  have hid : arrayFromBytes 32 key.messageId.val .malformedMessage = .ok key.messageId :=
    arrayFromBytes_eq_ok.mpr rfl
  have hkey : arrayFromBytes 32 key.messageKey.val .malformedMessage = .ok key.messageKey :=
    arrayFromBytes_eq_ok.mpr rfl
  simp only [retainedKeyCreate, Except.bind_eq_ok, rejectIf_eq_ok, not_not, debugError_eq_ok, hid,
    hkey, Except.pure_eq_ok]
  exact ⟨(), FixedBytes.length_coe _, (), FixedBytes.length_coe _, _, rfl, _, rfl, rfl⟩

theorem historyKeyShareCreate_eq_ok (hS : S.Exact) {threadId : Bytes32} {keys : List RetainedKey}
    {kp : HybridSigningKeypair P.toSignaturePrimitives} {sharedAt : UInt64}
    {coins : SigningCoins P.toSignaturePrimitives} {message : Bytes} :
    historyKeyShareCreate S threadId.val (hashedKeys keys) (signingToBytes S kp).val sharedAt
        coins = .ok message ↔
      ∃ m, HistoryKeyShareMessage.new threadId keys kp sharedAt coins = .ok m ∧
        message = m.toBytes := by
  have hsize : ¬ (hashedKeys keys).length % 80 ≠ 0 := by
    rw [length_hashedKeys]
    omega
  have hid : arrayFromBytes 32 threadId.val .malformedMessage = .ok threadId :=
    arrayFromBytes_eq_ok.mpr rfl
  have hkeypair : signingFromBytes S (signingToBytes S kp).val = .ok kp :=
    (signingFromBytes_eq_ok hS).mpr rfl
  simp only [historyKeyShareCreate, Except.bind_eq_ok, rejectIf_eq_ok, debugError_eq_ok,
    Except.pure_eq_ok, hid, parseKeys_hashedKeys, hkeypair]
  constructor
  · intro hex
    rcases hex with ⟨_, _, _, _, tid, htid, ks, hks, keypair, hkp, m, hm, hmessage⟩
    obtain rfl := Except.ok.inj htid
    obtain rfl := Except.ok.inj hks
    obtain rfl := Except.ok.inj hkp
    exact ⟨m, hm, hmessage.symm⟩
  · intro hex
    rcases hex with ⟨m, hm, hmessage⟩
    exact ⟨(), by simp, (), hsize, threadId, rfl, keys, rfl, kp, rfl, m, hm, hmessage.symm⟩

/-- A share of no more keys than a store may hold is short enough for every target. -/
theorem length_share_lt {m : HistoryKeyShareMessage P} (h : m.keys.length ≤ maxRetainedKeys) :
    m.toBytes.length < 2 ^ (t.bits - 1) := by
  unfold maxRetainedKeys at h
  rw [HistoryKeyShareMessage.toBytes, HistoryKeyShareMessage.length_encodeWith]
  cases t with
  | word32 =>
    show _ < 2 ^ 31
    omega
  | word64 =>
    show _ < 2 ^ 63
    omega

theorem fromBytes_share (hD : D.Exact) {m : HistoryKeyShareMessage P}
    (h : m.keys.length ≤ maxRetainedKeys) :
    HistoryKeyShareMessage.fromBytes D t m.toBytes = returns (.ok m) := by
  have hword := maxRetainedKeys_fits t
  have hbits := HistoryKeyShareMessage.bits_le t
  exact (HistoryKeyShareMessage.fromBytes_eq_returns_ok hD (length_share_lt h)).mpr
    ⟨m.keys.length, by omega, Nat.mod_eq_of_lt (by omega), rfl⟩

/-! ## The store of the new device -/

/-- The store into which some keys are merged. -/
def synced (threadId : Bytes32) (keys : List RetainedKey) : ThreadKeyStore :=
  (ThreadKeyStore.new threadId).merge keys

theorem create_merge (t : Target) (threadId : Bytes32) (keys : List RetainedKey) :
    (threadKeyStoreCreate threadId.val >>= fun store =>
      threadKeyStoreMerge t store (hashedKeys keys)) =
        .ok (serializeThreadKeyStore (synced threadId keys)) := by
  have hrun := storedRun_append (.merge keys) (ThreadKeyStore.new_kept threadId)
    (storedRun_nil t threadId)
  simp only [storedRun, List.nil_append, List.foldlM_cons, List.foldlM_nil, bind_pure] at hrun
  exact hrun

theorem synced_keys (threadId : Bytes32) {keys : List RetainedKey}
    (hlength : keys.length ≤ maxRetainedKeys) (hall : ThreadKeyStore.Consistent keys) :
    StrictlySortedBy sequenceOf (synced threadId keys).keys ∧
      (synced threadId keys).keys.toFinset = keys.toFinset := by
  have hnone : StrictlySortedBy sequenceOf ([] : List RetainedKey) := List.Pairwise.nil
  obtain ⟨hsorted, hset⟩ := ThreadKeyStore.foldl_absorb_spec hnone
    (show ThreadKeyStore.Consistent ([] ++ keys) from hall)
  have hle := length_foldl_absorb_le (StrictlySortedBy.sortedBy hnone) keys
  have hkeys : (synced threadId keys).keys = keys.foldl ThreadKeyStore.absorb [] := by
    rw [synced, ThreadKeyStore.merge, enforceCap_of_le]
    · rfl
    · show (keys.foldl ThreadKeyStore.absorb []).length ≤ _
      rw [List.length_nil] at hle
      omega
  rw [hkeys]
  refine ⟨hsorted, ?_⟩
  rw [hset, List.toFinset_nil, Finset.empty_union]

/-- Different keys of a consistent store have different sequence numbers. -/
theorem strict_of_consistent {keys : List RetainedKey} (hsorted : SortedBy sequenceOf keys)
    (hnodup : keys.Nodup) (hall : ThreadKeyStore.Consistent keys) :
    StrictlySortedBy sequenceOf keys := by
  refine List.Pairwise.imp_of_mem ?_ (List.Pairwise.and hsorted hnodup)
  intro a b ha hb hboth
  rcases hboth with ⟨hle, hne⟩
  have hids : a.messageId ≠ b.messageId := fun hsame => hne ((hall a ha b hb).1 hsame)
  refine Nat.lt_of_le_of_ne hle ?_
  intro hsame
  exact (hall a ha b hb).2 hids (UInt64.toNat_inj.mp hsame)

/-! ## The law -/

/-- The share of a stored store verifies at the new device, under the public key of the
old one and with the fields of the store, the time as exact as doubles are, and the keys
come out as they went in.  Merged into an empty store they make one that is sorted and
under the cap.  If ids determine keys and sequence numbers ids, it has the content of the
old one, and its bytes too if the old one has no key twice. -/
theorem history_sync (hcurve : P.Rfc8032) (hmldsa : P.Correct) (hS : S.Exact) (hD : D.Exact)
    (hread : ReadsDerived D) (t : Target) {s : ThreadKeyStore} (hs : s.Kept)
    {kp : HybridSigningKeypair P.toSignaturePrimitives} {sharedAt : UInt64}
    {coins : SigningCoins P.toSignaturePrimitives} {keys message : Bytes}
    (hkeys : threadKeyStoreGetAllKeys t (serializeThreadKeyStore s) = .ok keys)
    (hshare : historyKeyShareCreate S s.threadId.val keys (signingToBytes S kp).val sharedAt
      coins = .ok message) :
    historyKeyShareVerify D t message kp.publicKey.toBytes.val =
      returns (.ok ⟨true, s.threadId, asF64 s.keys.length, asF64 sharedAt.toNat⟩) ∧
    (asF64 s.keys.length).value = s.keys.length ∧
    (sharedAt.toNat ≤ 2 ^ 53 → (asF64 sharedAt.toNat).value = sharedAt.toNat) ∧
    historyKeyShareExtractKeys D t message = returns (.ok keys) ∧
    ∃ copy : ThreadKeyStore,
      (threadKeyStoreCreate s.threadId.val >>= fun store => threadKeyStoreMerge t store keys) =
        .ok (serializeThreadKeyStore copy) ∧
      copy.Kept ∧ copy.threadId = s.threadId ∧
      (ThreadKeyStore.Consistent s.keys →
        StrictlySortedBy sequenceOf copy.keys ∧ (∀ key, key ∈ copy.keys ↔ key ∈ s.keys) ∧
        (s.keys.Nodup → copy = s)) := by
  obtain ⟨_, hid, hperm⟩ := reload_spec hs
  have hcount : (reload s).keys.length ≤ maxRetainedKeys := hperm.length_eq ▸ hs.length_le
  rw [threadKeyStoreGetAllKeys, deserialize_serializeThreadKeyStore hs] at hkeys
  obtain rfl : hashedKeys (reload s).keys = keys := Except.ok.inj hkeys
  obtain ⟨m, hm, rfl⟩ := (historyKeyShareCreate_eq_ok hS).mp hshare
  have hverify := HistoryKeyShareMessage.verify_new hcurve hmldsa hm
  obtain ⟨_, hthread, hmkeys, hat⟩ := HistoryKeyShareMessage.new_eq_ok.mp hm
  have hmessage : debugMachine (HistoryKeyShareMessage.fromBytes D t m.toBytes) =
      returns (.ok m) := debugMachine_returns_ok (fromBytes_share hD (hmkeys ▸ hcount))
  have hsafe : s.keys.length ≤ 2 ^ 53 := by
    have hcap := hs.length_le
    unfold maxRetainedKeys at hcap
    omega
  refine ⟨?_, asF64_value hsafe, asF64_value, ?_, synced s.threadId (reload s).keys,
    create_merge t _ _, ?_, ?_, ?_⟩
  · rw [historyKeyShareVerify, hmessage, returns_ok_bind, readableKey_publicKey hD hread]
    show (returns (.ok ⟨(m.verify kp.publicKey).isOk, m.threadId, asF64 m.keys.length,
      asF64 m.sharedAt.toNat⟩) : MachineM JsError ShareInfo) = _
    rw [hverify, hthread, hmkeys, hat, hperm.length_eq]
    rfl
  · rw [historyKeyShareExtractKeys, hmessage, returns_ok_bind, hmkeys]
    rfl
  · exact ThreadKeyStore.apply_kept (ThreadKeyStore.new_kept _) (.merge _)
  · exact ThreadKeyStore.threadId_merge _
  · intro hall
    obtain ⟨hsorted, hset⟩ := synced_keys s.threadId hcount
      (hall.subset hperm.subset)
    have hsame : (synced s.threadId (reload s).keys).keys.toFinset = s.keys.toFinset :=
      hset.trans (List.toFinset_eq_of_perm _ _ hperm)
    refine ⟨hsorted, ?_, ?_⟩
    · intro key
      rw [← List.mem_toFinset, hsame, List.mem_toFinset]
    · intro hnodup
      have hkeys := hsorted.eq_of_toFinset (strict_of_consistent hs.sorted hnodup hall) hsame
      exact store_ext (ThreadKeyStore.threadId_merge _) hkeys

/-! ## A sample share -/

section Sample

/-- The store of the old device. -/
def sharedStore : ThreadKeyStore := ⟨zero32, [keyNumbered 0 3 10, keyNumbered 1 7 20]⟩

theorem sharedStore_kept : sharedStore.Kept := by
  have hsorted : sharedStore.keys.Pairwise fun x y => sequenceOf x ≤ sequenceOf y := by decide
  exact ⟨hsorted, by unfold maxRetainedKeys; decide⟩

/-- The calls that fill it. -/
def sharedCalls : Except JsError Bytes := do
  let store ← threadKeyStoreCreate zero32.val
  let first ← retainedKeyCreate (leBytes 32 0) zero32.val 3 10
  let store ← threadKeyStoreRetain .word32 store first
  let second ← retainedKeyCreate (leBytes 32 1) zero32.val 7 20
  threadKeyStoreRetain .word32 store second

theorem sharedCalls_eq : sharedCalls = .ok (serializeThreadKeyStore sharedStore) := by
  have hfirst : retainedKeyCreate (leBytes 32 0) zero32.val 3 10 =
      .ok (keyNumbered 0 3 10).toBytes := retainedKeyCreate_fields (keyNumbered 0 3 10)
  have hsecond : retainedKeyCreate (leBytes 32 1) zero32.val 7 20 =
      .ok (keyNumbered 1 7 20).toBytes := retainedKeyCreate_fields (keyNumbered 1 7 20)
  have hnew := ThreadKeyStore.new_kept zero32
  have hloaded := (reload_spec hnew).1
  have hrun := storedRun_append (.retain (keyNumbered 1 7 20))
    (ThreadKeyStore.apply_kept hloaded (.retainKey (keyNumbered 0 3 10)))
    (storedRun_append (.retain (keyNumbered 0 3 10)) hnew (storedRun_nil .word32 zero32))
  have hstore : (reload ((reload (.new zero32)).retainKey (keyNumbered 0 3 10))).retainKey
      (keyNumbered 1 7 20) = sharedStore :=
    store_ext (by decide +kernel) (by decide +kernel)
  rw [← hstore]
  simp only [storedRun, List.nil_append, List.cons_append, List.foldlM_cons, List.foldlM_nil,
    bind_pure] at hrun
  simp only [sharedCalls, hfirst, hsecond]
  exact hrun

theorem sharedStore_consistent : ThreadKeyStore.Consistent sharedStore.keys := by
  unfold ThreadKeyStore.Consistent
  decide +kernel

/-- The new device ends up with the bytes of the old one. -/
theorem history_sync_sample : ∃ store keys message,
    sharedCalls = .ok store ∧ threadKeyStoreGetAllKeys .word32 store = .ok keys ∧
    historyKeyShareExtractKeys (sampleDecoders additiveCurve) .word32 message =
      returns (.ok keys) ∧
    (threadKeyStoreCreate zero32.val >>= fun store =>
      threadKeyStoreMerge .word32 store keys) = .ok store := by
  have hkeys : threadKeyStoreGetAllKeys .word32 (serializeThreadKeyStore sharedStore) =
      .ok (hashedKeys (reload sharedStore).keys) := by
    rw [threadKeyStoreGetAllKeys, deserialize_serializeThreadKeyStore sharedStore_kept]
    rfl
  obtain ⟨sig, hsig⟩ := sample_signs 1 (HistoryKeyShareMessage.signingData
    (samplePrimitives additiveCurve) sharedStore.threadId (reload sharedStore).keys 30)
  have hcanonical := guardCanonical_of_sign (P := samplePrimitives additiveCurve) hsig
  have hshare := (historyKeyShareCreate_eq_ok (sampleCodecs_exact additiveCurve)).mpr
    ⟨⟨_, _, ⟨sig, hcanonical⟩, 30⟩,
      HistoryKeyShareMessage.new_eq_ok.mpr ⟨hsig, rfl, rfl, rfl⟩, rfl⟩
  obtain ⟨_, _, _, hextract, copy, hcopy, _, _, hsame⟩ := history_sync scalarCurve_rfc8032
    transparentMlDsa_correct (sampleCodecs_exact additiveCurve) (sampleDecoders_exact additiveCurve)
    (sampleDecoders_readsDerived additiveCurve) .word32 sharedStore_kept hkeys hshare
  obtain ⟨_, _, hcopied⟩ := hsame sharedStore_consistent
  rw [hcopied (by decide +kernel)] at hcopy
  exact ⟨_, _, _, sharedCalls_eq, hkeys, hextract, hcopy⟩

end Sample

end Trelis.Wasm
