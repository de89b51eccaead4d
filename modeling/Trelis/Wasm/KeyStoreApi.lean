import Trelis.MultiDevice.HistoryShare
import Trelis.MultiDevice.KeyStore
import Trelis.Wasm.Primitives

/-!
# The key store as JavaScript calls it

`thread_key_store_create`, `_retain`, `_merge`, `_prune` and `_get_all_keys` of the
WASM crate.  JavaScript keeps the bytes of a store, and each call loads them, works
on the store, and returns the bytes of the new one.

Loading retains the stored keys one after another.  A key goes in front of one
with the same sequence number, so that such keys change places when they are loaded,
and a call that has nothing to do returns other bytes (`stored_unchanged_iff`).  The
content stays what the store in memory would have, as long as no more keys are given
than the store may hold (`stored_run_content`); and where all sequence numbers differ,
the stored bytes are those of the store in memory after every call
(`stored_run_exact`).
-/

namespace Trelis.Wasm

open MultiDevice

/-! ## Stored bytes -/

def serializeThreadKeyStore (store : ThreadKeyStore) : Bytes :=
  store.threadId.val ++ leBytes 8 store.keys.length ++ hashedKeys store.keys

/-- The loop that retains the stored keys, from an offset. -/
def loadKeys (bytes : Bytes) : Nat → Nat → ThreadKeyStore → Except JsError ThreadKeyStore
  | 0, _, store => pure store
  | n + 1, offset, store => do
    let key ← (RetainedKey.fromBytes (sliceAt bytes offset 80)).mapError
      fun _ => .text "Invalid retained key in store"
    loadKeys bytes n (offset + 80) (store.retainKey key)

def deserializeThreadKeyStore (t : Target) (bytes : Bytes) : Except JsError ThreadKeyStore := do
  rejectIf (bytes.length < 40) (.text "ThreadKeyStore too short")
  -- The slice has the length of the array, so that the copy does not fail.
  let threadId ← debugError (X3dh.arrayFromBytes 32 (sliceAt bytes 0 32) .malformedMessage)
  let keyCount := leValue (sliceAt bytes 32 8)
  rejectIf (keyCount ≥ 2 ^ t.bits) (.text "ThreadKeyStore key_count exceeds platform usize")
  let keysSize ← checkedMul t.bits keyCount 80 (.text "ThreadKeyStore length overflow")
  let required ← checkedAdd t.bits keysSize 40 (.text "ThreadKeyStore length overflow")
  rejectIf (bytes.length < required) (.text "ThreadKeyStore truncated")
  loadKeys bytes keyCount 40 (.new threadId)

/-! ## The calls -/

/-- The keys in the chunks of 80 bytes. -/
def parseKeys (message : String) (bytes : Bytes) : Except JsError (List RetainedKey) :=
  (List.range (bytes.length / 80)).mapM fun i =>
    (RetainedKey.fromBytes (sliceAt bytes (80 * i) 80)).mapError fun _ => .text message

def threadKeyStoreCreate (threadId : Bytes) : Except JsError Bytes :=
  match FixedBytes.ofBytes? 32 threadId with
  | some threadId => .ok (serializeThreadKeyStore (.new threadId))
  | none => .error (.text "Thread ID must be 32 bytes")

def threadKeyStoreRetain (t : Target) (storeBytes retainedKey : Bytes) : Except JsError Bytes := do
  let store ← deserializeThreadKeyStore t storeBytes
  let key ← (RetainedKey.fromBytes retainedKey).mapError fun _ => .text "Invalid retained key"
  pure (serializeThreadKeyStore (store.retainKey key))

def threadKeyStoreGetAllKeys (t : Target) (storeBytes : Bytes) : Except JsError Bytes := do
  let store ← deserializeThreadKeyStore t storeBytes
  pure (hashedKeys store.keys)

def threadKeyStorePrune (t : Target) (storeBytes : Bytes) (beforeTimestamp : UInt64) :
    Except JsError Bytes := do
  let store ← deserializeThreadKeyStore t storeBytes
  pure (serializeThreadKeyStore (store.pruneBefore beforeTimestamp))

def threadKeyStoreMerge (t : Target) (storeBytes otherKeys : Bytes) : Except JsError Bytes := do
  rejectIf (otherKeys.length % 80 ≠ 0) (.text "Other keys must be multiples of 80 bytes")
  let store ← deserializeThreadKeyStore t storeBytes
  let keys ← parseKeys "Invalid retained key" otherKeys
  pure (serializeThreadKeyStore (store.merge keys))

/-! ## Reading keys -/

variable {t : Target} {bytes : Bytes} {keys : List RetainedKey} {s : ThreadKeyStore}

theorem length_toBytes (key : RetainedKey) : key.toBytes.length = 80 := by
  simp [RetainedKey.toBytes]

theorem length_hashedKeys (keys : List RetainedKey) :
    (hashedKeys keys).length = 80 * keys.length :=
  HistoryKeyShareMessage.length_hashedKeys keys

/-- The chunks of some keys. -/
theorem sliceAt_hashedKeys {i : Nat} (hi : i < keys.length) :
    sliceAt (hashedKeys keys) (80 * i) 80 = keys[i].toBytes := by
  induction keys generalizing i with
  | nil => simp at hi
  | cons key keys ih =>
    show sliceAt (key.toBytes ++ hashedKeys keys) _ _ = _
    have hlen := length_toBytes key
    cases i with
    | zero =>
      rw [sliceAt, Nat.mul_zero, List.drop_zero, List.take_left' hlen]
      rfl
    | succ i =>
      have hdrop : (key.toBytes ++ hashedKeys keys).drop (80 * (i + 1)) =
          (hashedKeys keys).drop (80 * i) := by
        rw [show 80 * (i + 1) = 80 + 80 * i by omega, ← List.drop_drop, List.drop_left' hlen]
      rw [sliceAt, hdrop, ← sliceAt, ih (by simpa using hi)]
      rfl

/-- The keys in a row are read back. -/
theorem parseKeys_hashedKeys (message : String) (keys : List RetainedKey) :
    parseKeys message (hashedKeys keys) = .ok keys := by
  have hcount : (hashedKeys keys).length / 80 = keys.length := by
    rw [length_hashedKeys]
    omega
  rw [parseKeys, hcount, Except.mapM_eq_ok, List.forall₂_iff_get]
  refine ⟨by simp, ?_⟩
  intro i hi hi'
  have hlt : i < keys.length := by simpa using hi
  simp only [List.get_eq_getElem, List.getElem_range, sliceAt_hashedKeys hlt,
    RetainedKey.fromBytes_eq_ok.mpr rfl]
  rfl

/-- The loop retains the keys in order. -/
theorem loadKeys_eq {front : Bytes} (keys : List RetainedKey) {offset : Nat}
    (hoffset : front.length = offset) (s : ThreadKeyStore) :
    loadKeys (front ++ hashedKeys keys) keys.length offset s =
      .ok (keys.foldl ThreadKeyStore.retainKey s) := by
  induction keys generalizing front offset s with
  | nil => rfl
  | cons key keys ih =>
    have hslice : sliceAt (front ++ hashedKeys (key :: keys)) offset 80 = key.toBytes := by
      rw [sliceAt, List.drop_left' hoffset]
      exact List.take_left' (length_toBytes key)
    have hnext : (front ++ key.toBytes).length = offset + 80 := by
      rw [List.length_append, hoffset, length_toBytes]
    rw [List.length_cons, loadKeys, hslice, RetainedKey.fromBytes_eq_ok.mpr rfl]
    show loadKeys (front ++ (key.toBytes ++ hashedKeys keys)) _ _ _ = _
    rw [← List.append_assoc front, ih hnext]
    rfl

theorem loadKeys_kept {n offset : Nat} {s' : ThreadKeyStore} (hs : s.Kept)
    (h : loadKeys bytes n offset s = .ok s') : s'.Kept := by
  induction n generalizing offset s with
  | zero =>
    rw [loadKeys, Except.pure_eq_ok] at h
    rwa [← h]
  | succ n ih =>
    simp only [loadKeys, Except.bind_eq_ok] at h
    rcases h with ⟨key, _, hrest⟩
    exact ih (ThreadKeyStore.apply_kept hs (.retainKey key)) hrest

/-- Whatever bytes are accepted, the store is sorted and under the cap. -/
theorem deserializeThreadKeyStore_kept (h : deserializeThreadKeyStore t bytes = .ok s) :
    s.Kept := by
  simp only [deserializeThreadKeyStore, Except.bind_eq_ok] at h
  rcases h with ⟨_, _, threadId, _, _, _, _, _, _, _, _, _, hload⟩
  exact loadKeys_kept (ThreadKeyStore.new_kept threadId) hload

theorem checkedMul_eq_ok {w a b c : Nat} {e : JsError} :
    checkedMul w a b e = .ok c ↔ a * b < 2 ^ w ∧ c = a * b := by
  unfold checkedMul
  split <;> simp [*, eq_comm]

/-- What is loaded from the fields of a store. -/
theorem deserialize_fields (threadId : Bytes32) (keys : List RetainedKey)
    (hfit : keys.length * 80 + 40 < 2 ^ t.bits) :
    deserializeThreadKeyStore t (threadId.val ++ leBytes 8 keys.length ++ hashedKeys keys) =
      .ok (keys.foldl ThreadKeyStore.retainKey (.new threadId)) := by
  have hbits := HistoryKeyShareMessage.bits_le t
  have hid : sliceAt (threadId.val ++ leBytes 8 keys.length ++ hashedKeys keys) 0 32 =
      threadId.val := by
    rw [sliceAt, List.drop_zero, List.append_assoc, List.take_left' (FixedBytes.length_coe _)]
  have hcount : leValue (sliceAt (threadId.val ++ leBytes 8 keys.length ++ hashedKeys keys) 32 8) =
      keys.length := by
    rw [sliceAt, List.append_assoc, List.drop_left' (FixedBytes.length_coe _),
      List.take_left' (leBytes_length _ _), leValue_leBytes (lt_word8 (by omega))]
  have hhead : (threadId.val ++ leBytes 8 keys.length).length = 40 := by simp
  have hlen : (threadId.val ++ leBytes 8 keys.length ++ hashedKeys keys).length =
      40 + 80 * keys.length := by
    rw [List.length_append, hhead, length_hashedKeys]
  have hload := loadKeys_eq keys hhead (.new threadId)
  simp only [deserializeThreadKeyStore, Except.bind_eq_ok, rejectIf_eq_ok, debugError_eq_ok,
    X3dh.arrayFromBytes_eq_ok, checkedMul_eq_ok, checkedAdd_eq_ok, hid, hcount, hlen]
  refine ⟨(), by omega, threadId, rfl, (), by omega, _, ⟨by omega, rfl⟩, _, ⟨by omega, rfl⟩, (),
    by omega, hload⟩

/-! ## Loading a store -/

/-- A store after it has been stored and loaded. -/
def reload (s : ThreadKeyStore) : ThreadKeyStore :=
  s.keys.foldl ThreadKeyStore.retainKey (.new s.threadId)

theorem maxRetainedKeys_fits (t : Target) : maxRetainedKeys * 80 + 40 < 2 ^ t.bits := by
  unfold maxRetainedKeys
  cases t <;> decide

theorem deserialize_serializeThreadKeyStore (hs : s.Kept) :
    deserializeThreadKeyStore t (serializeThreadKeyStore s) = .ok (reload s) := by
  have hfit := maxRetainedKeys_fits t
  have hlength := hs.length_le
  exact deserialize_fields s.threadId s.keys (by omega)

theorem enforceCap_of_le (h : s.keys.length ≤ maxRetainedKeys) : s.enforceCap = s :=
  if_neg (Nat.not_lt.mpr h)

theorem threadId_enforceCap : s.enforceCap.threadId = s.threadId := by
  rw [ThreadKeyStore.enforceCap_eq]

/-- The keys go in one after another, as long as the cap is not reached. -/
theorem foldl_retainKey (hs : s.Kept) (hfit : s.keys.length + keys.length ≤ maxRetainedKeys) :
    (keys.foldl ThreadKeyStore.retainKey s).Kept ∧
      (keys.foldl ThreadKeyStore.retainKey s).threadId = s.threadId ∧
      (keys.foldl ThreadKeyStore.retainKey s).keys.Perm (keys ++ s.keys) := by
  induction keys generalizing s with
  | nil => exact ⟨hs, rfl, List.Perm.refl _⟩
  | cons key keys ih =>
    have hinsert := insertByKey_perm hs.sorted key
    have hlen := hinsert.length_eq
    simp only [List.length_cons] at hfit hlen
    have hnext : s.retainKey key = { s with keys := insertByKey sequenceOf s.keys key } :=
      enforceCap_of_le (show (insertByKey sequenceOf s.keys key).length ≤ _ by omega)
    have hkept : (s.retainKey key).Kept := ThreadKeyStore.apply_kept hs (.retainKey key)
    obtain ⟨hkept', hid, hperm⟩ := ih hkept (by rw [hnext]; show _ + _ ≤ _; simp only; omega)
    refine ⟨hkept', by rw [List.foldl_cons, hid, hnext], hperm.trans ?_⟩
    rw [hnext]
    exact (hinsert.append_left keys).trans List.perm_middle

theorem reload_spec (hs : s.Kept) :
    (reload s).Kept ∧ (reload s).threadId = s.threadId ∧ (reload s).keys.Perm s.keys := by
  have hfit : (ThreadKeyStore.new s.threadId).keys.length + s.keys.length ≤ maxRetainedKeys := by
    rw [show (ThreadKeyStore.new s.threadId).keys = [] from rfl, List.length_nil, Nat.zero_add]
    exact hs.length_le
  obtain ⟨hkept, hid, hperm⟩ := foldl_retainKey (ThreadKeyStore.new_kept s.threadId) hfit
  refine ⟨hkept, hid, ?_⟩
  rwa [show (ThreadKeyStore.new s.threadId).keys = [] from rfl, List.append_nil] at hperm

/-- A key above all others goes to the end. -/
theorem insertByKey_last {key : RetainedKey} (h : StrictlySortedBy sequenceOf (keys ++ [key])) :
    insertByKey sequenceOf keys key = keys ++ [key] := by
  obtain ⟨hkeys, _, hbelow⟩ := List.pairwise_append.mp h
  obtain ⟨p, ⟨_, _, habove⟩, heq⟩ := insertByKey_eq (StrictlySortedBy.sortedBy hkeys) key
  have hnone : keys.drop p = [] := by
    rw [List.eq_nil_iff_forall_not_mem]
    intro x hx
    have hlt := hbelow x (List.mem_of_mem_drop hx) key (List.mem_singleton_self key)
    exact absurd (habove x hx) (Nat.not_le.mpr hlt)
  have hall : keys.take p = keys := by
    have hsplit := List.take_append_drop p keys
    rwa [hnone, List.append_nil] at hsplit
  rw [heq, hnone, hall]

theorem foldl_retainKey_strict {threadId : Bytes32} (front : List RetainedKey)
    (hstrict : StrictlySortedBy sequenceOf (front ++ keys))
    (hfit : (front ++ keys).length ≤ maxRetainedKeys) :
    keys.foldl ThreadKeyStore.retainKey ⟨threadId, front⟩ = ⟨threadId, front ++ keys⟩ := by
  induction keys generalizing front with
  | nil => rw [List.append_nil, List.foldl_nil]
  | cons key keys ih =>
    have hsplit : front ++ key :: keys = (front ++ [key]) ++ keys := by simp
    rw [hsplit] at hstrict hfit ⊢
    have hfirst : StrictlySortedBy sequenceOf (front ++ [key]) :=
      (List.pairwise_append.mp hstrict).1
    have hcap : (front ++ [key]).length ≤ maxRetainedKeys :=
      (List.length_append ▸ hfit).trans' (Nat.le_add_right _ _)
    have hnext : ThreadKeyStore.retainKey ⟨threadId, front⟩ key = ⟨threadId, front ++ [key]⟩ := by
      rw [ThreadKeyStore.retainKey, insertByKey_last hfirst]
      exact enforceCap_of_le hcap
    rw [List.foldl_cons, hnext]
    exact ih _ hstrict hfit

/-- Where all sequence numbers differ, a store is loaded as it was. -/
theorem reload_of_strict (hs : s.Kept) (hstrict : StrictlySortedBy sequenceOf s.keys) :
    reload s = s :=
  foldl_retainKey_strict [] hstrict hs.length_le

/-! ## Calls in a row -/

/-- A call that changes a store. -/
inductive StoredOp where
  | retain (key : RetainedKey)
  | merge (otherKeys : List RetainedKey)
  | prune (beforeTimestamp : UInt64)

namespace StoredOp

/-- The operation on the store in memory. -/
def toOp : StoredOp → ThreadKeyStore.Op
  | retain key => .retainKey key
  | merge otherKeys => .merge otherKeys
  | prune beforeTimestamp => .pruneBefore beforeTimestamp

/-- How many keys a call is given. -/
def given : StoredOp → Nat
  | retain _ => 1
  | merge otherKeys => otherKeys.length
  | prune _ => 0

/-- The call, with its keys as bytes. -/
def call (t : Target) (storeBytes : Bytes) : StoredOp → Except JsError Bytes
  | retain key => threadKeyStoreRetain t storeBytes key.toBytes
  | merge otherKeys => threadKeyStoreMerge t storeBytes (hashedKeys otherKeys)
  | prune beforeTimestamp => threadKeyStorePrune t storeBytes beforeTimestamp

end StoredOp

/-- The bytes that JavaScript has after some calls. -/
def storedRun (t : Target) (threadId : Bytes32) (ops : List StoredOp) : Except JsError Bytes := do
  let created ← threadKeyStoreCreate threadId.val
  ops.foldlM (StoredOp.call t) created

/-- The store in memory after the same operations. -/
def memoryRun (threadId : Bytes32) (ops : List StoredOp) : ThreadKeyStore :=
  .run threadId (ops.map StoredOp.toOp)

theorem memoryRun_kept (threadId : Bytes32) (ops : List StoredOp) : (memoryRun threadId ops).Kept :=
  ThreadKeyStore.run_kept _ _

theorem memoryRun_append (threadId : Bytes32) (ops : List StoredOp) (op : StoredOp) :
    memoryRun threadId (ops ++ [op]) = (memoryRun threadId ops).apply op.toOp := by
  simp [memoryRun, ThreadKeyStore.run]

/-- A call works on the store that it has loaded. -/
theorem StoredOp.call_eq (hs : s.Kept) (op : StoredOp) :
    op.call t (serializeThreadKeyStore s) =
      .ok (serializeThreadKeyStore ((reload s).apply op.toOp)) := by
  cases op with
  | retain key =>
    rw [call, threadKeyStoreRetain, deserialize_serializeThreadKeyStore hs,
      RetainedKey.fromBytes_eq_ok.mpr rfl]
    rfl
  | merge otherKeys =>
    have hsize : ¬ (hashedKeys otherKeys).length % 80 ≠ 0 := by
      rw [length_hashedKeys]
      omega
    rw [call, threadKeyStoreMerge, rejectIf, if_neg hsize, deserialize_serializeThreadKeyStore hs,
      parseKeys_hashedKeys]
    rfl
  | prune beforeTimestamp =>
    rw [call, threadKeyStorePrune, deserialize_serializeThreadKeyStore hs]
    rfl

theorem storedRun_append {threadId : Bytes32} {ops : List StoredOp} (op : StoredOp) (hs : s.Kept)
    (h : storedRun t threadId ops = .ok (serializeThreadKeyStore s)) :
    storedRun t threadId (ops ++ [op]) =
      .ok (serializeThreadKeyStore ((reload s).apply op.toOp)) := by
  simp only [storedRun, Except.bind_eq_ok] at h ⊢
  rcases h with ⟨created, hcreated, hops⟩
  refine ⟨created, hcreated, ?_⟩
  rw [List.foldlM_append, hops]
  simp only [List.foldlM_cons, List.foldlM_nil, Except.bind_eq_ok, Except.pure_eq_ok]
  exact ⟨_, rfl, _, StoredOp.call_eq hs op, rfl⟩

theorem storedRun_nil (t : Target) (threadId : Bytes32) :
    storedRun t threadId [] = .ok (serializeThreadKeyStore (.new threadId)) := by
  rw [storedRun, threadKeyStoreCreate, FixedBytes.ofBytes?_coe]
  rfl

/-! ## The same content -/

variable {keys' : List RetainedKey}

theorem absorb_perm (hs : SortedBy sequenceOf keys) (hs' : SortedBy sequenceOf keys')
    (h : keys.Perm keys') (key : RetainedKey) :
    (ThreadKeyStore.absorb keys key).Perm (ThreadKeyStore.absorb keys' key) := by
  have hany : keys.any (fun k => k.messageId = key.messageId) =
      keys'.any (fun k => k.messageId = key.messageId) := h.any_eq
  unfold ThreadKeyStore.absorb
  rw [hany]
  split
  · exact h
  · exact (insertByKey_perm hs key).trans ((h.cons key).trans (insertByKey_perm hs' key).symm)

theorem foldl_absorb_congr (others : List RetainedKey) (hs : SortedBy sequenceOf keys)
    (hs' : SortedBy sequenceOf keys') (h : keys.Perm keys') :
    (others.foldl ThreadKeyStore.absorb keys).Perm (others.foldl ThreadKeyStore.absorb keys') := by
  induction others generalizing keys keys' with
  | nil => exact h
  | cons key others ih =>
    exact ih (ThreadKeyStore.absorb_sorted hs key) (ThreadKeyStore.absorb_sorted hs' key)
      (absorb_perm hs hs' h key)

theorem length_foldl_absorb_le (hs : SortedBy sequenceOf keys) (others : List RetainedKey) :
    (others.foldl ThreadKeyStore.absorb keys).length ≤ keys.length + others.length := by
  obtain ⟨fresh, hsub, hperm, _⟩ := ThreadKeyStore.foldl_absorb_perm hs others
  have hle := hsub.length_le
  rw [hperm.length_eq, List.length_append]
  omega

/-- Stores with the same content have the same content after an operation that does
not reach the cap. -/
theorem apply_perm {s' : ThreadKeyStore} (op : StoredOp) (hs : s.Kept) (hs' : s'.Kept)
    (h : s.keys.Perm s'.keys) (hfit : s.keys.length + op.given ≤ maxRetainedKeys) :
    (s.apply op.toOp).keys.Perm (s'.apply op.toOp).keys ∧
      (s.apply op.toOp).keys.length ≤ s.keys.length + op.given := by
  have hsize := h.length_eq
  cases op with
  | retain key =>
    have hfit : s.keys.length + 1 ≤ maxRetainedKeys := hfit
    have hperm := insertByKey_perm hs.sorted key
    have hperm' := insertByKey_perm hs'.sorted key
    have hlen : (insertByKey sequenceOf s.keys key).length = s.keys.length + 1 := hperm.length_eq
    have hlen' : (insertByKey sequenceOf s'.keys key).length = s'.keys.length + 1 :=
      hperm'.length_eq
    have hleft : (s.retainKey key).keys = insertByKey sequenceOf s.keys key := by
      rw [ThreadKeyStore.retainKey, enforceCap_of_le (by simp only; omega)]
    have hright : (s'.retainKey key).keys = insertByKey sequenceOf s'.keys key := by
      rw [ThreadKeyStore.retainKey, enforceCap_of_le (by simp only; omega)]
    show (s.retainKey key).keys.Perm (s'.retainKey key).keys ∧
      (s.retainKey key).keys.length ≤ s.keys.length + 1
    rw [hleft, hright]
    exact ⟨hperm.trans ((h.cons key).trans hperm'.symm), hlen.le⟩
  | merge otherKeys =>
    have hfit : s.keys.length + otherKeys.length ≤ maxRetainedKeys := hfit
    have hperm := foldl_absorb_congr otherKeys hs.sorted hs'.sorted h
    have hlen := length_foldl_absorb_le hs.sorted otherKeys
    have hsame := hperm.length_eq
    have hleft : (s.merge otherKeys).keys = otherKeys.foldl ThreadKeyStore.absorb s.keys := by
      rw [ThreadKeyStore.merge, enforceCap_of_le (by simp only; omega)]
    have hright : (s'.merge otherKeys).keys = otherKeys.foldl ThreadKeyStore.absorb s'.keys := by
      rw [ThreadKeyStore.merge, enforceCap_of_le (by simp only; omega)]
    show (s.merge otherKeys).keys.Perm (s'.merge otherKeys).keys ∧
      (s.merge otherKeys).keys.length ≤ s.keys.length + otherKeys.length
    rw [hleft, hright]
    exact ⟨hperm, hlen⟩
  | prune beforeTimestamp =>
    exact ⟨h.filter _, List.length_filter_le _ _⟩

theorem threadId_apply (op : StoredOp) : (s.apply op.toOp).threadId = s.threadId := by
  cases op with
  | retain key => exact threadId_enforceCap
  | merge otherKeys => exact threadId_enforceCap
  | prune beforeTimestamp => rfl

/-! ## The same bytes -/

/-- A key goes in front of the one that has its sequence number. -/
theorem insertByKey_before {front : List RetainedKey} {a b : RetainedKey}
    (hstrict : StrictlySortedBy sequenceOf (front ++ [a])) (hsame : b.sequence = a.sequence) :
    insertByKey sequenceOf (front ++ [a]) b = front ++ [b, a] := by
  have hkey : sequenceOf b = sequenceOf a := congrArg UInt64.toNat hsame
  have hlast : (front ++ [a])[front.length]? = some a := by simp
  obtain ⟨hfound, hmissed⟩ :=
    binarySearchByKey_spec (b := sequenceOf b) (StrictlySortedBy.sortedBy hstrict)
  unfold insertByKey
  cases hsearch : binarySearchByKey sequenceOf (sequenceOf b) (front ++ [a]) with
  | ok p =>
    obtain ⟨hp, hget⟩ := key_of_binarySearchByKey hsearch
    -- Only the last key has this sequence number.
    have hpos : p = front.length := by
      by_contra hne
      have hlt : p < front.length := by
        rw [List.length_append, List.length_singleton] at hp
        omega
      have hbelow := (List.pairwise_append.mp hstrict).2.2 _ (List.getElem_mem hlt) a
        (List.mem_singleton_self a)
      rw [List.get_eq_getElem, List.getElem_append_left hlt, hkey] at hget
      omega
    show (front ++ [a]).insertIdx p b = _
    rw [hpos, insertIdx_eq_append (by simp)]
    simp
  | error p => exact absurd hkey.symm ((hmissed p hsearch).2 a (by simp))

/-- The first two keys of one sequence number. -/
theorem exists_first_pair (front : List RetainedKey) {a : RetainedKey}
    (hfront : StrictlySortedBy sequenceOf (front ++ [a]))
    (hsorted : SortedBy sequenceOf (front ++ [a] ++ keys))
    (h : ¬ StrictlySortedBy sequenceOf (front ++ [a] ++ keys)) :
    ∃ front' a' b rest, front ++ [a] ++ keys = front' ++ a' :: b :: rest ∧
      StrictlySortedBy sequenceOf (front' ++ [a']) ∧ b.sequence = a'.sequence := by
  induction keys generalizing front a with
  | nil => exact absurd (by rwa [List.append_nil]) h
  | cons key keys ih =>
    have hsplit : front ++ [a] ++ key :: keys = front ++ [a] ++ [key] ++ keys := by simp
    by_cases hsame : key.sequence = a.sequence
    · exact ⟨front, a, key, keys, by simp, hfront, hsame⟩
    · have hle : sequenceOf a ≤ sequenceOf key :=
        (List.pairwise_append.mp hsorted).2.2 a (by simp) key List.mem_cons_self
      have hlt : sequenceOf a < sequenceOf key :=
        Nat.lt_of_le_of_ne hle fun heq => hsame (UInt64.toNat_inj.mp heq.symm)
      have hnext : StrictlySortedBy sequenceOf (front ++ [a] ++ [key]) := by
        refine List.pairwise_append.mpr ⟨hfront, List.pairwise_singleton _ _, ?_⟩
        intro x hx y hy
        obtain rfl := List.mem_singleton.mp hy
        obtain hx | hx := List.mem_append.mp hx
        · exact ((List.pairwise_append.mp hfront).2.2 x hx a (by simp)).trans hlt
        · rwa [List.mem_singleton.mp hx]
      rw [hsplit] at hsorted h ⊢
      exact ih _ hnext hsorted h

/-- Keys that are retained later leave the order of the others. -/
theorem sublist_foldl_retainKey {kept : List RetainedKey} (hs : s.Kept)
    (hfit : s.keys.length + keys.length ≤ maxRetainedKeys) (h : kept.Sublist s.keys) :
    kept.Sublist (keys.foldl ThreadKeyStore.retainKey s).keys := by
  induction keys generalizing s with
  | nil => exact h
  | cons key keys ih =>
    obtain ⟨p, _, heq⟩ := insertByKey_eq hs.sorted key
    have hinsert : s.keys.Sublist (insertByKey sequenceOf s.keys key) := by
      rw [heq]
      conv => lhs; rw [← List.take_append_drop p s.keys]
      exact (List.Sublist.refl _).append (List.sublist_cons_self _ _)
    have hlen := (insertByKey_perm hs.sorted key).length_eq
    rw [List.length_cons] at hlen hfit
    have hnext : (s.retainKey key).keys = insertByKey sequenceOf s.keys key := by
      rw [ThreadKeyStore.retainKey, enforceCap_of_le (by simp only; omega)]
    exact ih (ThreadKeyStore.apply_kept hs (.retainKey key)) (by rw [hnext]; omega)
      (hnext ▸ h.trans hinsert)

/-- Two elements stand in one order only. -/
theorem not_sublist_swap {α : Type*} {l : List α} {a b : α} (h : l.Nodup)
    (hab : [a, b].Sublist l) : ¬ [b, a].Sublist l := by
  induction l with
  | nil => exact absurd hab (by simp)
  | cons x l ih =>
    obtain ⟨hx, hl⟩ := List.nodup_cons.mp h
    intro hba
    cases hab with
    | cons _ hab =>
      cases hba with
      | cons _ hba => exact ih hl hab hba
      | cons_cons _ _ => exact hx (hab.subset (by simp))
    | cons_cons _ hb =>
      cases hba with
      | cons _ hba => exact hx (hba.subset (by simp))
      | cons_cons _ _ => exact hx (hb.subset (by simp))

/-- The first two keys of one sequence number change places. -/
theorem reload_pair {threadId : Bytes32} {front rest : List RetainedKey} {a b : RetainedKey}
    (hs : ThreadKeyStore.Kept ⟨threadId, front ++ a :: b :: rest⟩)
    (hstrict : StrictlySortedBy sequenceOf (front ++ [a])) (hsame : b.sequence = a.sequence) :
    [b, a].Sublist (reload ⟨threadId, front ++ a :: b :: rest⟩).keys := by
  have hsize : (front ++ a :: b :: rest).length ≤ maxRetainedKeys := hs.length_le
  simp only [List.length_append, List.length_cons] at hsize
  have hfirst : (front ++ [a]).foldl ThreadKeyStore.retainKey (.new threadId) =
      ⟨threadId, front ++ [a]⟩ := by
    refine foldl_retainKey_strict [] hstrict ?_
    simp only [List.nil_append, List.length_append, List.length_singleton]
    omega
  have hsecond : ThreadKeyStore.retainKey ⟨threadId, front ++ [a]⟩ b =
      ⟨threadId, front ++ [b, a]⟩ := by
    rw [ThreadKeyStore.retainKey, insertByKey_before hstrict hsame]
    refine enforceCap_of_le ?_
    simp only [List.length_append, List.length_cons, List.length_nil]
    omega
  have hkept : ThreadKeyStore.Kept ⟨threadId, front ++ [b, a]⟩ := by
    rw [← hsecond, ← hfirst]
    refine ThreadKeyStore.apply_kept (foldl_retainKey (ThreadKeyStore.new_kept threadId) ?_).1
      (.retainKey b)
    simp only [ThreadKeyStore.new, List.length_append, List.length_singleton, List.length_nil]
    omega
  have hload : reload ⟨threadId, front ++ a :: b :: rest⟩ =
      rest.foldl ThreadKeyStore.retainKey ⟨threadId, front ++ [b, a]⟩ := by
    rw [reload, show front ++ a :: b :: rest = (front ++ [a]) ++ b :: rest by simp,
      List.foldl_append, hfirst, List.foldl_cons, hsecond]
  rw [hload]
  refine sublist_foldl_retainKey hkept ?_ (List.sublist_append_right front [b, a])
  simp only [List.length_append, List.length_cons, List.length_nil]
  omega

/-- A store of different keys is loaded as it was only if their sequence numbers
differ. -/
theorem reload_eq_iff (hs : s.Kept) (hnodup : s.keys.Nodup) :
    reload s = s ↔ StrictlySortedBy sequenceOf s.keys := by
  refine ⟨?_, reload_of_strict hs⟩
  intro hload
  by_contra hloose
  obtain ⟨threadId, keys⟩ := s
  cases keys with
  | nil => exact hloose List.Pairwise.nil
  | cons first keys =>
    obtain ⟨front, a, b, rest, hkeys, hstrict, hsame⟩ := exists_first_pair []
      (List.pairwise_singleton _ first) hs.sorted hloose
    rw [show first :: keys = front ++ a :: b :: rest from hkeys] at hs hnodup hload
    have hpair := reload_pair hs hstrict hsame
    rw [hload] at hpair
    refine not_sublist_swap hnodup ?_ hpair
    exact (List.sublist_append_left [a, b] rest).trans (List.sublist_append_right front _)

theorem store_ext {s' : ThreadKeyStore} (hid : s.threadId = s'.threadId)
    (hkeys : s.keys = s'.keys) : s = s' := by
  obtain ⟨threadId, keys⟩ := s
  obtain ⟨threadId', keys'⟩ := s'
  rw [ThreadKeyStore.mk.injEq]
  exact ⟨hid, hkeys⟩

theorem serializeThreadKeyStore_inj {s' : ThreadKeyStore} :
    serializeThreadKeyStore s = serializeThreadKeyStore s' ↔ s = s' := by
  refine ⟨?_, congrArg serializeThreadKeyStore⟩
  intro h
  obtain ⟨hfront, hkeys⟩ := List.append_inj h (by simp)
  obtain ⟨hid, _⟩ := List.append_inj hfront (by simp)
  have hread := parseKeys_hashedKeys "" s.keys
  rw [hkeys, parseKeys_hashedKeys, Except.ok.injEq] at hread
  exact store_ext (Subtype.ext hid) hread.symm

/-! ## The laws -/

/-- Every sequence of calls goes through, and the bytes are those of a store that is
sorted and under the cap.  It has the content of the store in memory, as long as no
more keys were given than the cap. -/
theorem stored_run_content (t : Target) (threadId : Bytes32) (ops : List StoredOp) :
    ∃ s : ThreadKeyStore, storedRun t threadId ops = .ok (serializeThreadKeyStore s) ∧
      s.Kept ∧ s.threadId = threadId ∧
      ((ops.map StoredOp.given).sum ≤ maxRetainedKeys →
        s.keys.Perm (memoryRun threadId ops).keys) := by
  suffices hsize : ∃ s : ThreadKeyStore, storedRun t threadId ops =
      .ok (serializeThreadKeyStore s) ∧ s.Kept ∧ s.threadId = threadId ∧
      ((ops.map StoredOp.given).sum ≤ maxRetainedKeys →
        s.keys.Perm (memoryRun threadId ops).keys ∧
          s.keys.length ≤ (ops.map StoredOp.given).sum) by
    obtain ⟨s, hrun, hkept, hid, hcontent⟩ := hsize
    exact ⟨s, hrun, hkept, hid, fun hgiven => (hcontent hgiven).1⟩
  induction ops using List.reverseRecOn with
  | nil =>
    exact ⟨.new threadId, storedRun_nil t threadId, ThreadKeyStore.new_kept threadId, rfl,
      fun _ => ⟨List.Perm.refl _, Nat.zero_le _⟩⟩
  | append_singleton ops op ih =>
    obtain ⟨s, hrun, hkept, hid, hcontent⟩ := ih
    obtain ⟨hloaded, hsameId, hperm⟩ := reload_spec hkept
    refine ⟨(reload s).apply op.toOp, storedRun_append op hkept hrun,
      ThreadKeyStore.apply_kept hloaded op.toOp, by rw [threadId_apply, hsameId, hid], ?_⟩
    intro hgiven
    rw [List.map_append, List.sum_append, List.map_singleton, List.sum_singleton] at hgiven ⊢
    obtain ⟨hsame, hlen⟩ := hcontent (by omega)
    have hsize := hperm.length_eq
    rw [memoryRun_append]
    obtain ⟨hnext, hle⟩ := apply_perm op hloaded (memoryRun_kept threadId ops)
      (hperm.trans hsame) (by omega)
    exact ⟨hnext, by omega⟩

/-- Where the sequence numbers always differ, the bytes are those of the store in
memory. -/
theorem stored_run_exact (t : Target) (threadId : Bytes32) (ops : List StoredOp)
    (hstrict : ∀ done, done <+: ops → StrictlySortedBy sequenceOf (memoryRun threadId done).keys) :
    storedRun t threadId ops = .ok (serializeThreadKeyStore (memoryRun threadId ops)) := by
  induction ops using List.reverseRecOn with
  | nil => exact storedRun_nil t threadId
  | append_singleton ops op ih =>
    have hstart : ops <+: ops ++ [op] := List.prefix_append ops [op]
    have hrun := ih fun done hdone => hstrict done (hdone.trans hstart)
    have hkept := memoryRun_kept threadId ops
    rw [storedRun_append op hkept hrun, reload_of_strict hkept (hstrict ops hstart),
      memoryRun_append]

theorem length_id (id : Nat) : (leBytes 32 id).length = 32 := leBytes_length 32 id

/-- The key of a message. -/
def keyNumbered (id : Nat) (sequence timestamp : UInt64) : RetainedKey :=
  ⟨⟨leBytes 32 id, length_id id⟩, zero32, sequence, timestamp⟩

/-- Some keys arrive out of order and twice, and an old one is pruned. -/
def busyOps : List StoredOp :=
  [.retain (keyNumbered 0 7 20),
    .merge [keyNumbered 1 3 10, keyNumbered 0 7 20], .prune 15,
    .retain (keyNumbered 2 4 30)]

theorem stored_run_exact_busy :
    storedRun .word32 zero32 busyOps =
      .ok (serializeThreadKeyStore (memoryRun zero32 busyOps)) := by
  refine stored_run_exact .word32 zero32 busyOps ?_
  have hall : ∀ done ∈ busyOps.inits,
      (memoryRun zero32 done).keys.Pairwise fun x y => sequenceOf x < sequenceOf y := by
    decide +kernel
  intro done hdone
  exact hall done ((List.mem_inits _ _).mpr hdone)

/-- A call that has nothing to do returns the bytes that it was given only if the
sequence numbers differ. -/
theorem stored_unchanged_iff (t : Target) (s : ThreadKeyStore) (hs : s.Kept)
    (hnodup : s.keys.Nodup) :
    threadKeyStorePrune t (serializeThreadKeyStore s) 0 = .ok (serializeThreadKeyStore s) ↔
      StrictlySortedBy sequenceOf s.keys := by
  have hcall : threadKeyStorePrune t (serializeThreadKeyStore s) 0 =
      .ok (serializeThreadKeyStore ((reload s).pruneBefore 0)) := StoredOp.call_eq hs (.prune 0)
  have hall : (reload s).pruneBefore 0 = reload s := by
    rw [ThreadKeyStore.pruneBefore, List.filter_eq_self.mpr]
    intro key _
    exact decide_eq_true (UInt64.zero_le)
  rw [hcall, hall, Except.ok.injEq, serializeThreadKeyStore_inj, reload_eq_iff hs hnodup]

/-- Two keys of one sequence number. -/
def pairStore : ThreadKeyStore :=
  ⟨zero32, [keyNumbered 0 7 20, keyNumbered 1 7 20]⟩

theorem stored_unchanged_iff_pair :
    threadKeyStorePrune .word32 (serializeThreadKeyStore pairStore) 0 ≠
      .ok (serializeThreadKeyStore pairStore) := by
  have hsorted : pairStore.keys.Pairwise fun x y => sequenceOf x ≤ sequenceOf y := by decide
  have hloose : ¬ pairStore.keys.Pairwise fun x y => sequenceOf x < sequenceOf y := by decide
  have hkept : pairStore.Kept := ⟨hsorted, by unfold maxRetainedKeys; decide⟩
  exact fun h => hloose ((stored_unchanged_iff .word32 pairStore hkept (by decide)).mp h)

end Trelis.Wasm
