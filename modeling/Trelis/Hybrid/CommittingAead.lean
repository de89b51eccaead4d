import Trelis.Hybrid.Sample

/-!
# The committing AEAD

`encrypt_committing` and `decrypt_committing` (`aead.rs`) put a commitment behind
a ciphertext of the base cipher: a keyed hash, under a key derived from the AEAD
key, of the nonce, the associated data and the ciphertext, each behind its length.

XChaCha20-Poly1305 and BLAKE3 are parameters.  The last 32 bytes of what is opened
are the commitment, so two openings of one byte string recompute one commitment
from one ciphertext.  The frames are then equal, up to a collision, and a frame
determines what it was made of (`commitmentFrame_inj`).
-/

namespace Trelis.Hybrid

/-- The primitives of the committing AEAD. -/
structure AeadPrimitives where
  /-- `blake3_kdf::derive_key`. -/
  deriveKey : String → Bytes → Bytes32
  /-- `blake3_kdf::keyed_hash`. -/
  keyedHash : Bytes32 → Bytes → Bytes32
  /-- `aead::encrypt`: key, nonce, plaintext, associated data. -/
  encrypt : Bytes32 → FixedBytes 24 → Bytes → Bytes → Result Bytes
  /-- `aead::decrypt`: key, nonce, ciphertext, associated data. -/
  decrypt : Bytes32 → FixedBytes 24 → Bytes → Bytes → Result Bytes

/-- The base cipher is ideal: what a key, a nonce and associated data open is what
they make of the plaintext, and has a tag of 16 bytes. -/
structure AeadPrimitives.Ideal (P : AeadPrimitives) : Prop where
  decrypt_iff : ∀ {k n ct aad pt}, P.decrypt k n ct aad = .ok pt ↔ P.encrypt k n pt aad = .ok ct
  length_eq : ∀ {k n pt aad ct}, P.encrypt k n pt aad = .ok ct → ct.length = pt.length + 16

def aeadCommitContext : String := "trelis-aead-commit-v1"

/-- What `aead_commitment` hashes. -/
def commitmentFrame (nonce : FixedBytes 24) (aad ct : Bytes) : Bytes :=
  leBytes 8 24 ++ nonce.val ++ leBytes 8 aad.length ++ aad ++ leBytes 8 ct.length ++ ct

namespace AeadPrimitives

variable (P : AeadPrimitives)

/-- `K_commit`. -/
def commitKey (key : Bytes32) : Bytes32 := P.deriveKey aeadCommitContext key.val

/-- `aead_commitment`. -/
def aeadCommitment (key : Bytes32) (nonce : FixedBytes 24) (aad ct : Bytes) : Bytes32 :=
  P.keyedHash (P.commitKey key) (commitmentFrame nonce aad ct)

/-- `encrypt_committing`. -/
def encryptCommitting (key : Bytes32) (nonce : FixedBytes 24) (plaintext aad : Bytes) :
    Result Bytes := do
  let out ← P.encrypt key nonce plaintext aad
  pure (out ++ (P.aeadCommitment key nonce aad out).val)

/-- `decrypt_committing`. -/
def decryptCommitting (key : Bytes32) (nonce : FixedBytes 24) (committingCt aad : Bytes) :
    Result Bytes := do
  rejectIf (committingCt.length < 16 + 32) .invalidCiphertext
  let split := committingCt.length - 32
  let ct := committingCt.take split
  let commitment := committingCt.drop split
  rejectIf ((P.aeadCommitment key nonce aad ct).val ≠ commitment) .aeadAuthenticationFailed
  P.decrypt key nonce ct aad

/-- Two computations of a commitment do not collide. -/
structure NoCollision (k k' : Bytes32) (frame frame' : Bytes) : Prop where
  subkey : P.commitKey k = P.commitKey k' → k = k'
  commitment : P.keyedHash (P.commitKey k) frame = P.keyedHash (P.commitKey k') frame' →
    P.commitKey k = P.commitKey k' ∧ frame = frame'

end AeadPrimitives

/-! ## The frame -/

/-- A frame determines its fields, for fields whose lengths fit in 64 bits. -/
theorem commitmentFrame_inj {nonce nonce' : FixedBytes 24} {aad aad' ct ct' : Bytes}
    (haad : aad.length < 2 ^ 64) (haad' : aad'.length < 2 ^ 64)
    (h : commitmentFrame nonce aad ct = commitmentFrame nonce' aad' ct') :
    nonce = nonce' ∧ aad = aad' ∧ ct = ct' := by
  simp only [commitmentFrame, List.append_assoc] at h
  obtain ⟨hnonce, hrest⟩ := List.append_inj (List.append_cancel_left h) (by simp)
  obtain ⟨hlength, hrest⟩ := List.append_inj hrest (by simp)
  have hword : (2 : Nat) ^ 64 = 256 ^ 8 := by decide
  have hsize : aad.length = aad'.length := leBytes_inj (hword ▸ haad) (hword ▸ haad') hlength
  obtain ⟨haads, hrest⟩ := List.append_inj hrest hsize
  obtain ⟨_, hcts⟩ := List.append_inj hrest (by simp)
  exact ⟨Subtype.ext hnonce, haads, hcts⟩

/-- Of two frames around ciphertexts of one length no bound is needed. -/
theorem commitmentFrame_inj_of_length {nonce nonce' : FixedBytes 24} {aad aad' ct ct' : Bytes}
    (hct : ct.length = ct'.length)
    (h : commitmentFrame nonce aad ct = commitmentFrame nonce' aad' ct') :
    nonce = nonce' ∧ aad = aad' ∧ ct = ct' := by
  have hlength := congrArg List.length h
  simp only [commitmentFrame, List.length_append, leBytes_length, FixedBytes.length_coe] at hlength
  simp only [commitmentFrame, List.append_assoc] at h
  obtain ⟨hnonce, hrest⟩ := List.append_inj (List.append_cancel_left h) (by simp)
  obtain ⟨_, hrest⟩ := List.append_inj hrest (by simp)
  obtain ⟨haads, hrest⟩ := List.append_inj hrest (by omega)
  obtain ⟨_, hcts⟩ := List.append_inj hrest (by simp)
  exact ⟨Subtype.ext hnonce, haads, hcts⟩

/-! ## Opening -/

namespace AeadPrimitives

variable {P : AeadPrimitives}

/-- What is opened is a ciphertext of the base cipher with its commitment. -/
theorem decryptCommitting_eq_ok (hP : P.Ideal) {k : Bytes32} {n : FixedBytes 24}
    {committingCt aad pt : Bytes} :
    P.decryptCommitting k n committingCt aad = .ok pt ↔
      ∃ ct, P.encrypt k n pt aad = .ok ct ∧
        committingCt = ct ++ (P.aeadCommitment k n aad ct).val := by
  simp only [decryptCommitting, Except.check_bind_eq_ok, rejectIf_eq_ok, not_not, hP.decrypt_iff]
  constructor
  · intro hboth
    rcases hboth with ⟨_, hcommitment, hct⟩
    refine ⟨_, hct, ?_⟩
    rw [hcommitment, List.take_append_drop]
  · intro hex
    rcases hex with ⟨ct, hct, hsplit⟩
    have hlength := hP.length_eq hct
    have htotal : committingCt.length = ct.length + 32 := by
      rw [hsplit, List.length_append, FixedBytes.length_coe]
    have hend : committingCt.length - 32 = ct.length := by omega
    have htake : committingCt.take (committingCt.length - 32) = ct := by
      rw [hend, hsplit, List.take_left]
    have hdrop : committingCt.drop (committingCt.length - 32)
        = (P.aeadCommitment k n aad ct).val := by
      rw [hend, hsplit, List.drop_left]
    rw [htake, hdrop]
    exact ⟨by omega, rfl, hct⟩

theorem encryptCommitting_eq_ok {k : Bytes32} {n : FixedBytes 24} {pt aad committingCt : Bytes} :
    P.encryptCommitting k n pt aad = .ok committingCt ↔
      ∃ ct, P.encrypt k n pt aad = .ok ct ∧
        committingCt = ct ++ (P.aeadCommitment k n aad ct).val := by
  simp only [encryptCommitting, Except.bind_eq_ok, Except.pure_eq_ok]
  refine exists_congr fun ct => and_congr_right fun _ => eq_comm

/-- Opening and sealing are inverse to each other. -/
theorem decryptCommitting_iff (hP : P.Ideal) {k : Bytes32} {n : FixedBytes 24}
    {pt aad committingCt : Bytes} :
    P.decryptCommitting k n committingCt aad = .ok pt ↔
      P.encryptCommitting k n pt aad = .ok committingCt :=
  (decryptCommitting_eq_ok hP).trans encryptCommitting_eq_ok.symm

/-- The part in front of the commitment. -/
def body (committingCt : Bytes) : Bytes := committingCt.take (committingCt.length - 32)

/-- Two openings of one byte string are under one key, nonce and associated data. -/
theorem decryptCommitting_binds {k k' : Bytes32} {n n' : FixedBytes 24}
    {committingCt aad aad' pt pt' : Bytes}
    (hfree : P.NoCollision k k' (commitmentFrame n aad (body committingCt))
      (commitmentFrame n' aad' (body committingCt)))
    (h : P.decryptCommitting k n committingCt aad = .ok pt)
    (h' : P.decryptCommitting k' n' committingCt aad' = .ok pt') :
    k = k' ∧ n = n' ∧ aad = aad' := by
  simp only [decryptCommitting, Except.check_bind_eq_ok, rejectIf_eq_ok, not_not] at h h'
  obtain ⟨_, hcommitment, _⟩ := h
  obtain ⟨_, hcommitment', _⟩ := h'
  have hsame : P.aeadCommitment k n aad (body committingCt)
      = P.aeadCommitment k' n' aad' (body committingCt) :=
    Subtype.ext (hcommitment.trans hcommitment'.symm)
  obtain ⟨hsubkey, hframe⟩ := hfree.commitment hsame
  obtain ⟨hnonce, haad, _⟩ := commitmentFrame_inj_of_length rfl hframe
  exact ⟨hfree.subkey hsubkey, hnonce, haad⟩

/-- Opening undoes sealing and opens nothing else; and what opens twice, without a
collision among the two commitments, does so under one key, nonce and associated
data. -/
theorem committing_aead (hP : P.Ideal) :
    (∀ k n pt aad committingCt, P.encryptCommitting k n pt aad = .ok committingCt →
      P.decryptCommitting k n committingCt aad = .ok pt) ∧
    (∀ k n committingCt aad pt, P.decryptCommitting k n committingCt aad = .ok pt →
      P.encryptCommitting k n pt aad = .ok committingCt) ∧
    (∀ k k' n n' committingCt aad aad' pt pt',
      P.NoCollision k k' (commitmentFrame n aad (body committingCt))
        (commitmentFrame n' aad' (body committingCt)) →
      P.decryptCommitting k n committingCt aad = .ok pt →
      P.decryptCommitting k' n' committingCt aad' = .ok pt' → k = k' ∧ n = n' ∧ aad = aad') ∧
    ∀ (n n' : FixedBytes 24) (aad aad' ct ct' : Bytes),
      aad.length < 2 ^ 64 → aad'.length < 2 ^ 64 →
      commitmentFrame n aad ct = commitmentFrame n' aad' ct' → n = n' ∧ aad = aad' ∧ ct = ct' :=
  ⟨fun _ _ _ _ _ h => (decryptCommitting_iff hP).mpr h,
    fun _ _ _ _ _ h => (decryptCommitting_iff hP).mp h,
    fun _ _ _ _ _ _ _ _ _ hfree h h' => decryptCommitting_binds hfree h h',
    fun _ _ _ _ _ _ haad haad' h => commitmentFrame_inj haad haad' h⟩

end AeadPrimitives

/-! ## A sample cipher -/

section Sample

/-- A tag that sums up all that it covers. -/
def sampleTag (key : Bytes32) (nonce : FixedBytes 24) (aad plaintext : Bytes) : FixedBytes 16 :=
  ⟨leBytes 16 (leValue (key.val ++ nonce.val ++ aad ++ plaintext)), leBytes_length _ _⟩

/-- The plaintext with its tag. -/
def sampleEncrypt (key : Bytes32) (nonce : FixedBytes 24) (plaintext aad : Bytes) : Bytes :=
  plaintext ++ (sampleTag key nonce aad plaintext).val

def sampleDecrypt (key : Bytes32) (nonce : FixedBytes 24) (ciphertext aad : Bytes) :
    Result Bytes :=
  if sampleEncrypt key nonce (ciphertext.take (ciphertext.length - 16)) aad = ciphertext then
    .ok (ciphertext.take (ciphertext.length - 16))
  else .error .aeadAuthenticationFailed

/-- A cipher without secrecy, and checksums in place of the hash. -/
def sampleAead : AeadPrimitives where
  deriveKey := checksum
  keyedHash key input := checksum "" (key.val ++ input)
  encrypt key nonce plaintext aad := .ok (sampleEncrypt key nonce plaintext aad)
  decrypt := sampleDecrypt

theorem sampleAead_ideal : sampleAead.Ideal where
  decrypt_iff {k n ct aad pt} := by
    show sampleDecrypt k n ct aad = .ok pt ↔
      .ok (sampleEncrypt k n pt aad) = (.ok ct : Result Bytes)
    unfold sampleDecrypt
    constructor
    · intro h
      split at h
      · next hmade =>
        rw [← Except.ok.inj h]
        exact congrArg Except.ok hmade
      · cases h
    · intro h
      have hmade : sampleEncrypt k n pt aad = ct := Except.ok.inj h
      have hlength : ct.length = pt.length + 16 := by
        rw [← hmade, sampleEncrypt, List.length_append, FixedBytes.length_coe]
      have hfront : ct.take (ct.length - 16) = pt := by
        rw [hlength, Nat.add_sub_cancel, ← hmade]
        exact List.take_left
      simp only [hfront, if_pos hmade]
  length_eq {k n pt aad ct} h := by
    have hmade : sampleEncrypt k n pt aad = ct := Except.ok.inj h
    rw [← hmade, sampleEncrypt, List.length_append, FixedBytes.length_coe]

/-- A sealed message opens, and without a collision under nothing else. -/
theorem committing_aead_sample :
    ∃ ct, sampleAead.encryptCommitting (filled 32 1) (filled 24 2) (ascii "hello") [7] = .ok ct ∧
      sampleAead.decryptCommitting (filled 32 1) (filled 24 2) ct [7] = .ok (ascii "hello") ∧
      ∀ k n aad pt, sampleAead.NoCollision (filled 32 1) k
          (commitmentFrame (filled 24 2) [7] (AeadPrimitives.body ct))
          (commitmentFrame n aad (AeadPrimitives.body ct)) →
        sampleAead.decryptCommitting k n ct aad = .ok pt →
          filled 32 1 = k ∧ filled 24 2 = n ∧ [7] = aad := by
  obtain ⟨hopens, _, hbinds, _⟩ := AeadPrimitives.committing_aead sampleAead_ideal
  have hsealed : sampleAead.encryptCommitting (filled 32 1) (filled 24 2) (ascii "hello") [7]
      = .ok (sampleEncrypt (filled 32 1) (filled 24 2) (ascii "hello") [7] ++
        (sampleAead.aeadCommitment (filled 32 1) (filled 24 2) [7]
          (sampleEncrypt (filled 32 1) (filled 24 2) (ascii "hello") [7])).val) := rfl
  have hopened := hopens _ _ _ _ _ hsealed
  refine ⟨_, hsealed, hopened, ?_⟩
  intro k n aad pt hfree h
  exact hbinds _ _ _ _ _ _ _ _ _ hfree hopened h

end Sample

end Trelis.Hybrid
