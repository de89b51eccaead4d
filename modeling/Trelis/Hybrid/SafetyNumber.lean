import Mathlib.Data.List.Sort
import Mathlib.Data.Sym.Sym2
import Trelis.X3dh.Binding
import Trelis.X3dh.Sample

/-!
# Safety numbers

A safety number hashes two parties that compare it out of band
(`safety_number.rs`).  A party is an identity, and in the recommended
construction also its devices; a number may be bound to a thread as well.

Each party becomes a digest of 32 bytes, and the two digests are put in order.
The fingerprints of a party's devices are sorted before they are hashed.  So the
number is a function of the unordered pair of parties, and of the multiset of
each one's devices.

For the converse every step is inverted, with no collision among the values that
the two computations hash: fields of fixed length are read back from their
concatenation, an ordered pair of digests determines the unordered one
(`sym2_of_ordered`), and a sorted list the multiset.  `unordered_pair` has both
directions.
-/

namespace Trelis.Hybrid

open X3dh

/-! ## The order of digests -/

/-- The order of `[u8; 32]`. -/
def digestLe (a b : Bytes32) : Prop := a.val ≤ b.val

instance : DecidableRel digestLe := fun a b => inferInstanceAs (Decidable (a.val ≤ b.val))

instance : Std.Total digestLe := ⟨fun a b => List.le_total a.val b.val⟩

instance : IsTrans Bytes32 digestLe := ⟨fun _ _ _ hab hbc => List.le_trans hab hbc⟩

instance : Std.Antisymm digestLe := ⟨fun _ _ hab hba => Subtype.ext (List.le_antisymm hab hba)⟩

/-- `sort_unstable` on digests. -/
def sortUnstable (digests : List Bytes32) : List Bytes32 := digests.insertionSort digestLe

/-- The two digests with the smaller one first. -/
def ordered (a b : Bytes32) : Bytes32 × Bytes32 := if a.val < b.val then (a, b) else (b, a)

/-- A sorted list does not depend on the order before. -/
theorem sortUnstable_eq_of_perm {ds ds' : List Bytes32} (h : ds.Perm ds') :
    sortUnstable ds = sortUnstable ds' := by
  apply List.Perm.eq_of_pairwise' (List.pairwise_insertionSort digestLe ds)
    (List.pairwise_insertionSort digestLe ds')
  calc ds.insertionSort digestLe
      |>.Perm ds := List.perm_insertionSort digestLe ds
    _ |>.Perm ds' := h
    _ |>.Perm (ds'.insertionSort digestLe) := (List.perm_insertionSort digestLe ds').symm

/-- A sorted list has the elements of the list before. -/
theorem perm_of_sortUnstable_eq {ds ds' : List Bytes32}
    (h : sortUnstable ds = sortUnstable ds') : ds.Perm ds' := by
  have hleft : (sortUnstable ds).Perm ds := List.perm_insertionSort digestLe ds
  have hright : (sortUnstable ds').Perm ds' := List.perm_insertionSort digestLe ds'
  exact hleft.symm.trans (h ▸ hright)

theorem ordered_comm (a b : Bytes32) : ordered a b = ordered b a := by
  unfold ordered
  by_cases hab : a.val < b.val
  · rw [if_pos hab, if_neg (List.lt_asymm hab)]
  · by_cases hba : b.val < a.val
    · rw [if_neg hab, if_pos hba]
    · have heq : a = b := Subtype.ext (List.le_antisymm hba hab)
      rw [heq]

/-- A list is determined up to order by its images, where the images tell its
elements apart. -/
theorem perm_of_map {α β : Type} {f : α → β} {xs ys : List α}
    (hinj : ∀ x ∈ xs, ∀ y ∈ ys, f x = f y → x = y) (h : (xs.map f).Perm (ys.map f)) :
    xs.Perm ys := by
  induction xs generalizing ys with
  | nil =>
    rw [List.map_nil, List.nil_perm, List.map_eq_nil_iff] at h
    rw [h]
  | cons x xs ih =>
    have hmem : f x ∈ ys.map f := h.subset (by simp)
    obtain ⟨y, hy, hfy⟩ := List.mem_map.mp hmem
    have hxy : x = y := hinj x (by simp) y hy hfy.symm
    subst hxy
    obtain ⟨front, back, rfl⟩ := List.append_of_mem hy
    have hmiddle : (front ++ x :: back).Perm (x :: (front ++ back)) := List.perm_middle
    have hrest : (xs.map f).Perm ((front ++ back).map f) :=
      (h.trans (hmiddle.map f)).cons_inv
    have hperm : xs.Perm (front ++ back) := by
      refine ih (fun a ha b hb => hinj a (by simp [ha]) b ?_) hrest
      exact hmiddle.symm.subset (List.mem_cons_of_mem _ hb)
    exact (hperm.cons x).trans hmiddle.symm

/-- The pair in order is the pair. -/
theorem sym2_ordered (a b : Bytes32) : s((ordered a b).1, (ordered a b).2) = s(a, b) := by
  unfold ordered
  split
  · rfl
  · exact Sym2.eq_swap

theorem sym2_of_ordered {a b a' b' : Bytes32} (h : ordered a b = ordered a' b') :
    s(a, b) = s(a', b') := by
  rw [← sym2_ordered a b, h, sym2_ordered]

/-! ## The constructors -/

variable (P : HandshakePrimitives)

/-- The public key of a device. -/
abbrev DeviceKey := HybridSigningPublicKey P.toSignaturePrimitives

/-- `SafetyNumber`. -/
structure SafetyNumber where
  fingerprint : Bytes32
deriving DecidableEq

def safetyNumberContext : String := "trelis-safety-number-v1"
def safetyNumberSyncContext : String := "trelis-safety-number-sync-v1"
def safetyNumberDeviceSetContext : String := "trelis-safety-number-device-set-v1"

variable {P}

/-- The bytes of two digests in order, with what is bound to them. -/
def pairInput (a b : Bytes32) (bound : Bytes) : Bytes :=
  (ordered a b).1.val ++ (ordered a b).2.val ++ bound

namespace SafetyNumber

/-- `SafetyNumber::hash_identity`.  It puts the bytes of the two keys together as
`HybridIdentityPublicKey::to_bytes` does. -/
def hashIdentity (key : HybridIdentityPublicKey P) : Bytes32 := P.hash key.toBytes

/-- The fingerprints of the devices, sorted, in one byte string. -/
def deviceSetInput (devices : List (DeviceKey P)) : Bytes :=
  (sortUnstable (devices.map fun pk => P.hash pk.toBytes.val)).flatMap (·.val)

/-- The bytes that stand for a party with its devices. -/
def partyInput (key : HybridIdentityPublicKey P) (devices : List (DeviceKey P)) : Bytes :=
  (hashIdentity key).val ++ (P.hash (deviceSetInput devices)).val

/-- `SafetyNumber::hash_identity_with_devices`. -/
def hashIdentityWithDevices (key : HybridIdentityPublicKey P) (devices : List (DeviceKey P)) :
    Bytes32 :=
  P.hash (partyInput key devices)

/-- What the three constructors do with the digests of the parties. -/
def ofDigests (P : HandshakePrimitives) (context : String) (a b : Bytes32) (bound : Bytes) :
    SafetyNumber :=
  ⟨P.deriveKey context (pairInput a b bound)⟩

/-- `SafetyNumber::new`. -/
def new (keyA keyB : HybridIdentityPublicKey P) : SafetyNumber :=
  ofDigests P safetyNumberContext (hashIdentity keyA) (hashIdentity keyB) []

/-- `SafetyNumber::new_with_history_sync`. -/
def newWithHistorySync (keyA keyB : HybridIdentityPublicKey P) (threadId : Bytes32) :
    SafetyNumber :=
  ofDigests P safetyNumberSyncContext (hashIdentity keyA) (hashIdentity keyB) threadId.val

/-- `SafetyNumber::new_with_device_set`. -/
def newWithDeviceSet (keyA keyB : HybridIdentityPublicKey P)
    (devicesA devicesB : List (DeviceKey P)) : SafetyNumber :=
  ofDigests P safetyNumberDeviceSetContext (hashIdentityWithDevices keyA devicesA)
    (hashIdentityWithDevices keyB devicesB) []

/-! ## The unordered pair -/

theorem ofDigests_comm (context : String) (a b : Bytes32) (bound : Bytes) :
    ofDigests P context a b bound = ofDigests P context b a bound := by
  rw [ofDigests, ofDigests, pairInput, pairInput, ordered_comm]

theorem deviceSetInput_perm {devices devices' : List (DeviceKey P)} (h : devices.Perm devices') :
    deviceSetInput devices = deviceSetInput devices' := by
  rw [deviceSetInput, deviceSetInput, sortUnstable_eq_of_perm (h.map _)]

theorem hashIdentityWithDevices_perm (key : HybridIdentityPublicKey P)
    {devices devices' : List (DeviceKey P)} (h : devices.Perm devices') :
    hashIdentityWithDevices key devices = hashIdentityWithDevices key devices' := by
  rw [hashIdentityWithDevices, hashIdentityWithDevices, partyInput, partyInput,
    deviceSetInput_perm h]

theorem pairInput_inj {a b a' b' : Bytes32} {bound bound' : Bytes}
    (h : pairInput a b bound = pairInput a' b' bound') : s(a, b) = s(a', b') ∧ bound = bound' := by
  obtain ⟨hpair, hbound⟩ := List.append_inj h (by simp)
  obtain ⟨hfirst, hsecond⟩ := List.append_inj hpair (by simp)
  exact ⟨sym2_of_ordered (Prod.ext (Subtype.ext hfirst) (Subtype.ext hsecond)), hbound⟩

theorem ofDigests_inj {context : String} {a b a' b' : Bytes32} {bound bound' : Bytes}
    (hfree : Set.InjOn (P.deriveKey context)
      {input | input ∈ [pairInput a b bound, pairInput a' b' bound']})
    (h : ofDigests P context a b bound = ofDigests P context a' b' bound') :
    s(a, b) = s(a', b') ∧ bound = bound' :=
  pairInput_inj (hfree (by simp) (by simp) (SafetyNumber.mk.inj h))

/-! ## No collisions -/

/-- What hashing an identity with its devices hashes. -/
def hashedValues (key : HybridIdentityPublicKey P) (devices : List (DeviceKey P)) : List Bytes :=
  key.toBytes :: deviceSetInput devices :: partyInput key devices ::
    devices.map fun pk => pk.toBytes.val

theorem hashedValues_perm (key : HybridIdentityPublicKey P)
    {devices devices' : List (DeviceKey P)} (h : devices.Perm devices') :
    (hashedValues key devices).Perm (hashedValues key devices') := by
  rw [hashedValues, hashedValues, partyInput, partyInput, deviceSetInput_perm h]
  exact (((h.map _).cons _).cons _).cons _

/-- The digests are read back from their concatenation. -/
theorem flatMap_digest_inj {ds ds' : List Bytes32}
    (h : ds.flatMap (·.val) = ds'.flatMap (·.val)) : ds = ds' := by
  apply (SelfDelimiting.array 32).flatMap_inj _ (fun _ _ => trivial) (fun _ _ => trivial) h
  intro digest _ hnil
  have hlen := digest.property
  rw [hnil] at hlen
  cases hlen

/-- The digest of a party determines its identity, and its devices up to their
order. -/
theorem hashIdentityWithDevices_inj (hkeys : Function.Injective P.verifyingKeyToBytes)
    {key key' : HybridIdentityPublicKey P} {devices devices' : List (DeviceKey P)}
    {inputs : Set Bytes} (hfree : Set.InjOn P.hash inputs)
    (hin : ∀ b ∈ hashedValues key devices, b ∈ inputs)
    (hin' : ∀ b ∈ hashedValues key' devices', b ∈ inputs)
    (h : hashIdentityWithDevices key devices = hashIdentityWithDevices key' devices') :
    key = key' ∧ devices.Perm devices' := by
  simp only [hashedValues, List.forall_mem_cons, List.forall_mem_map] at hin hin'
  obtain ⟨hdata, hset, hparty, hdevices⟩ := hin
  obtain ⟨hdata', hset', hparty', hdevices'⟩ := hin'
  obtain ⟨hidentity, hdeviceSet⟩ := List.append_inj (hfree hparty hparty' h) (by simp)
  have hkey := hfree hdata hdata' (Subtype.ext hidentity)
  have hsorted := flatMap_digest_inj (hfree hset hset' (Subtype.ext hdeviceSet))
  refine ⟨HybridIdentityPublicKey.toBytes_inj hkeys hkey, ?_⟩
  -- Two devices with one fingerprint are one device.
  refine perm_of_map (fun d hd d' hd' heq => ?_) (perm_of_sortUnstable_eq hsorted)
  exact signingPublicKey_toBytes_inj hkeys (hfree (hdevices d hd) (hdevices' d' hd') heq)

/-- What two computations hash does not collide: the values of the parties, and
the pairs under the context string. -/
structure CollisionFree (P : HandshakePrimitives) (context : String) (values pairs : List Bytes) :
    Prop where
  hash : Set.InjOn P.hash {b | b ∈ values}
  deriveKey : Set.InjOn (P.deriveKey context) {b | b ∈ pairs}

/-- No collision between two numbers of identities, of which one value each is
hashed. -/
def IdentitiesCollisionFree (context : String) (a b a' b' : HybridIdentityPublicKey P)
    (bound bound' : Bytes) : Prop :=
  CollisionFree P context [a.toBytes, b.toBytes, a'.toBytes, b'.toBytes]
    [pairInput (hashIdentity a) (hashIdentity b) bound,
      pairInput (hashIdentity a') (hashIdentity b') bound']

/-- No collision between two numbers of identities with their devices. -/
def DeviceSetsCollisionFree (a b a' b' : HybridIdentityPublicKey P)
    (da db da' db' : List (DeviceKey P)) : Prop :=
  CollisionFree P safetyNumberDeviceSetContext
    (hashedValues a da ++ hashedValues b db ++ hashedValues a' da' ++ hashedValues b' db')
    [pairInput (hashIdentityWithDevices a da) (hashIdentityWithDevices b db) [],
      pairInput (hashIdentityWithDevices a' da') (hashIdentityWithDevices b' db') []]

/-- A number of identities determines the unordered pair of them, and what is
bound to it. -/
theorem identities_inj (hkeys : Function.Injective P.verifyingKeyToBytes) {context : String}
    {a b a' b' : HybridIdentityPublicKey P} {bound bound' : Bytes}
    (hfree : IdentitiesCollisionFree context a b a' b' bound bound')
    (h : ofDigests P context (hashIdentity a) (hashIdentity b) bound =
      ofDigests P context (hashIdentity a') (hashIdentity b') bound') :
    s(a, b) = s(a', b') ∧ bound = bound' := by
  obtain ⟨hpair, hbound⟩ := ofDigests_inj hfree.deriveKey h
  refine ⟨?_, hbound⟩
  rw [Sym2.eq_iff] at hpair ⊢
  obtain ⟨ha, hb⟩ | ⟨ha, hb⟩ := hpair
  · exact .inl ⟨HybridIdentityPublicKey.toBytes_inj hkeys (hfree.hash (by simp) (by simp) ha),
      HybridIdentityPublicKey.toBytes_inj hkeys (hfree.hash (by simp) (by simp) hb)⟩
  · exact .inr ⟨HybridIdentityPublicKey.toBytes_inj hkeys (hfree.hash (by simp) (by simp) ha),
      HybridIdentityPublicKey.toBytes_inj hkeys (hfree.hash (by simp) (by simp) hb)⟩

/-- A number of identities with their devices determines the unordered pair of
identities with the multisets of their devices. -/
theorem deviceSets_inj (hkeys : Function.Injective P.verifyingKeyToBytes)
    {a b a' b' : HybridIdentityPublicKey P} {da db da' db' : List (DeviceKey P)}
    (hfree : DeviceSetsCollisionFree a b a' b' da db da' db')
    (h : newWithDeviceSet a b da db = newWithDeviceSet a' b' da' db') :
    s((a, (da : Multiset (DeviceKey P))), (b, (db : Multiset (DeviceKey P)))) =
      s((a', (da' : Multiset (DeviceKey P))), (b', (db' : Multiset (DeviceKey P)))) := by
  obtain ⟨hpair, _⟩ := ofDigests_inj hfree.deriveKey h
  -- One party of either number, from its digest.
  have hparty : ∀ {x x' : HybridIdentityPublicKey P} {dx dx' : List (DeviceKey P)},
      (∀ v ∈ hashedValues x dx, v ∈ hashedValues a da ++ hashedValues b db) →
      (∀ v ∈ hashedValues x' dx', v ∈ hashedValues a' da' ++ hashedValues b' db') →
      hashIdentityWithDevices x dx = hashIdentityWithDevices x' dx' →
      (x, (dx : Multiset (DeviceKey P))) = (x', (dx' : Multiset (DeviceKey P))) := by
    intro x x' dx dx' hin hin' heq
    have hinj := hashIdentityWithDevices_inj hkeys hfree.hash
      (fun v hv => by
        rw [List.append_assoc]
        exact List.mem_append_left _ (hin v hv))
      (fun v hv => by
        rw [List.append_assoc]
        exact List.mem_append_right _ (hin' v hv)) heq
    rw [hinj.1, Multiset.coe_eq_coe.mpr hinj.2]
  rw [Sym2.eq_iff] at hpair ⊢
  obtain ⟨ha, hb⟩ | ⟨ha, hb⟩ := hpair
  · exact .inl ⟨hparty (fun _ => List.mem_append_left _) (fun _ => List.mem_append_left _) ha,
      hparty (fun _ => List.mem_append_right _) (fun _ => List.mem_append_right _) hb⟩
  · exact .inr ⟨hparty (fun _ => List.mem_append_left _) (fun _ => List.mem_append_right _) ha,
      hparty (fun _ => List.mem_append_right _) (fun _ => List.mem_append_left _) hb⟩

/-- A safety number is a function of the unordered pair of parties, and, with no
collision among the values that two numbers hash, tells unordered pairs apart. -/
theorem unordered_pair (hkeys : Function.Injective P.verifyingKeyToBytes) :
    (∀ (a b : HybridIdentityPublicKey P) (da db : List (DeviceKey P)),
        newWithDeviceSet a b da db = newWithDeviceSet b a db da) ∧
      (∀ (a b : HybridIdentityPublicKey P) {da db da' db' : List (DeviceKey P)},
        da.Perm da' → db.Perm db' →
          newWithDeviceSet a b da db = newWithDeviceSet a b da' db') ∧
      (∀ {a b a' b' : HybridIdentityPublicKey P} {da db da' db' : List (DeviceKey P)},
        DeviceSetsCollisionFree a b a' b' da db da' db' →
        newWithDeviceSet a b da db = newWithDeviceSet a' b' da' db' →
          s((a, (da : Multiset (DeviceKey P))), (b, (db : Multiset (DeviceKey P)))) =
            s((a', (da' : Multiset (DeviceKey P))), (b', (db' : Multiset (DeviceKey P))))) ∧
      (∀ a b : HybridIdentityPublicKey P, new a b = new b a) ∧
      (∀ {a b a' b' : HybridIdentityPublicKey P},
        IdentitiesCollisionFree safetyNumberContext a b a' b' [] [] →
        new a b = new a' b' → s(a, b) = s(a', b')) ∧
      (∀ (a b : HybridIdentityPublicKey P) (threadId : Bytes32),
        newWithHistorySync a b threadId = newWithHistorySync b a threadId) ∧
      ∀ {a b a' b' : HybridIdentityPublicKey P} {threadId threadId' : Bytes32},
        IdentitiesCollisionFree safetyNumberSyncContext a b a' b' threadId.val threadId'.val →
        newWithHistorySync a b threadId = newWithHistorySync a' b' threadId' →
          s(a, b) = s(a', b') ∧ threadId = threadId' := by
  refine ⟨fun a b da db => ofDigests_comm _ _ _ _, ?_, fun hfree h => deviceSets_inj hkeys hfree h,
    fun a b => ofDigests_comm _ _ _ _, fun hfree h => (identities_inj hkeys hfree h).1,
    fun a b threadId => ofDigests_comm _ _ _ _, ?_⟩
  · intro a b da db da' db' hda hdb
    rw [newWithDeviceSet, newWithDeviceSet, hashIdentityWithDevices_perm a hda,
      hashIdentityWithDevices_perm b hdb]
  · intro a b a' b' threadId threadId' hfree h
    have hinj := identities_inj hkeys hfree h
    exact ⟨hinj.1, Subtype.ext hinj.2⟩

/-- Primitives whose digests tell the values of the example apart. -/
def checksumPrimitives : HandshakePrimitives :=
  { samplePrimitives rfc7748Curve with
    hash := fun b => ⟨leBytes 32 (leValue (1 :: b) % (2 ^ 255 - 19)), leBytes_length _ _⟩ }

/-- A device, by the byte that fills its keys. -/
def sampleDevice (b : UInt8) : DeviceKey checksumPrimitives := ⟨⟨filled 57 b⟩, filled 1952 b⟩

/-- An identity, by the byte that fills its keys. -/
def sampleIdentityKey (b : UInt8) : HybridIdentityPublicKey checksumPrimitives :=
  ⟨sampleDevice b, ⟨filled 56 b, filled 1158 b⟩⟩

/-- Three devices, in the order in which one of the parties lists them. -/
def sampleDevices : List (DeviceKey checksumPrimitives) :=
  [sampleDevice 3, sampleDevice 4, sampleDevice 5]

/-- The same devices in another order. -/
def rotatedDevices : List (DeviceKey checksumPrimitives) :=
  [sampleDevice 5, sampleDevice 3, sampleDevice 4]

theorem sampleDevices_perm : sampleDevices.Perm rotatedDevices :=
  show ([sampleDevice 3, sampleDevice 4] ++ [sampleDevice 5]).Perm
    ([sampleDevice 5] ++ [sampleDevice 3, sampleDevice 4]) from List.perm_append_comm

/-- Both parties arrive at one number, each with itself in front and with another order
of the devices, and it stands for one pair. -/
theorem unordered_pair_sample :
    newWithDeviceSet (sampleIdentityKey 1) (sampleIdentityKey 2) sampleDevices [sampleDevice 6] =
        newWithDeviceSet (sampleIdentityKey 2) (sampleIdentityKey 1) [sampleDevice 6]
          rotatedDevices ∧
      s((sampleIdentityKey 1, (sampleDevices : Multiset (DeviceKey checksumPrimitives))),
          (sampleIdentityKey 2, ([sampleDevice 6] : Multiset (DeviceKey checksumPrimitives)))) =
        s((sampleIdentityKey 2, ([sampleDevice 6] : Multiset (DeviceKey checksumPrimitives))),
          (sampleIdentityKey 1, (rotatedDevices : Multiset (DeviceKey checksumPrimitives)))) := by
  obtain ⟨hcomm, hperm, hinj, _⟩ := unordered_pair (P := checksumPrimitives) Function.injective_id
  have hnumber := (hperm (sampleIdentityKey 1) (sampleIdentityKey 2) sampleDevices_perm
    (.refl [sampleDevice 6])).trans (hcomm _ _ _ _)
  refine ⟨hnumber, hinj ⟨?_, ?_⟩ hnumber⟩
  · have hvalues : ((hashedValues (sampleIdentityKey 1) sampleDevices ++
        hashedValues (sampleIdentityKey 2) [sampleDevice 6]).map
          checksumPrimitives.hash).Nodup := by
      decide +kernel
    -- The second number hashes the same values as the first.
    have hsame := (hashedValues_perm (sampleIdentityKey 1) sampleDevices_perm).symm.subset
    have hin : ∀ x ∈ hashedValues (sampleIdentityKey 1) sampleDevices ++
        hashedValues (sampleIdentityKey 2) [sampleDevice 6] ++
          hashedValues (sampleIdentityKey 2) [sampleDevice 6] ++
            hashedValues (sampleIdentityKey 1) rotatedDevices,
        x ∈ hashedValues (sampleIdentityKey 1) sampleDevices ++
          hashedValues (sampleIdentityKey 2) [sampleDevice 6] := by
      intro x hx
      simp only [List.mem_append] at hx ⊢
      obtain ((hx | hx) | hx) | hx := hx
      · exact .inl hx
      · exact .inr hx
      · exact .inr hx
      · exact .inl (hsame hx)
    intro x hx y hy
    exact List.inj_on_of_nodup_map hvalues (hin x hx) (hin y hy)
  · rw [hashIdentityWithDevices_perm _ sampleDevices_perm, pairInput, pairInput, ordered_comm]
    intro x hx y hy _
    simp only [Set.mem_ofPred_eq, List.mem_cons, List.not_mem_nil, or_false, or_self] at hx hy
    rw [hx, hy]

end SafetyNumber

end Trelis.Hybrid
