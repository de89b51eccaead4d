import Mathlib.Data.Set.Function
import Trelis.Hybrid.Ed448
import Trelis.Lib.Outcome

/-!
# The hybrid signature

The combiner of Ed448 and ML-DSA-65.  A key pair signs in one of three modes,
and each mode hashes its message under a context string of its own:

* plain, where the hashed region is the message;
* with a context, where the region is the context behind its length in one
  byte, and then the message;
* prehashed, where the region is the digest of the message under a context.

`bopMPrime` is the digest that ML-DSA signs.  It covers the verifying key, the
region and the commitment, and the challenge to the Schnorr half is the hash of
the ML-DSA signature.

Three groups of results follow the definitions.  `sign_verifies` says that what a
key pair signs verifies.  `signature_determines` says that one signature
verifies for at most one verifying key, mode, message and context, unless two
of the inputs that the verifications hash collide.  `bopVerifyCore_commitment` is
the first half of the uniqueness of responses, for which the ML-DSA half has to be
bound to its message under one key only.
-/

namespace Trelis.Hybrid

/-! ## The two components and the hash -/

/-- `MlDsaScheme`: the types and functions of an ML-DSA variant. -/
structure MlDsaScheme where
  SigningKey : Type
  VerifyingKey : Type
  Signature : Type
  /-- The random draw of one signature. -/
  Coins : Type
  /-- `MlDsaScheme::verifying_key`. -/
  verifyingKey : SigningKey → VerifyingKey
  /-- `MlDsaScheme::sign_hedged`. -/
  signHedged : SigningKey → Bytes → Coins → Result Signature
  /-- `MlDsaScheme::verify`. -/
  verify : VerifyingKey → Bytes → Signature → Result Unit
  /-- `MlDsaScheme::verifying_key_to_bytes`. -/
  verifyingKeyToBytes : VerifyingKey → FixedBytes 1952
  /-- `MlDsaScheme::signature_to_bytes`. -/
  signatureToBytes : Signature → FixedBytes 3309

/-- The primitives that the combiner is built of. -/
structure SignaturePrimitives extends Curve, MlDsaScheme where
  /-- `blake3_kdf::derive_key`. -/
  deriveKey : String → Bytes → Bytes32
  /-- The first 114 bytes of `Hasher::new_derive_key(..).finalize_xof()`. -/
  deriveKeyXof : String → Bytes → FixedBytes 114

/-- What ML-DSA signs, it verifies. -/
structure MlDsaScheme.Correct (S : MlDsaScheme) : Prop where
  verify_sign : ∀ {sk msg coins sig}, S.signHedged sk msg coins = .ok sig →
    S.verify (S.verifyingKey sk) msg sig = .ok ()

/-- One ML-DSA signature string verifies for at most one key and message. -/
structure MlDsaScheme.Binding (S : MlDsaScheme) : Prop where
  verify_unique : ∀ {vk msg sig vk' msg' sig'}, S.verify vk msg sig = .ok () →
    S.verify vk' msg' sig' = .ok () → S.signatureToBytes sig = S.signatureToBytes sig' →
      vk = vk' ∧ msg = msg'

/-- One ML-DSA signature string verifies under one key for at most one message. -/
structure MlDsaScheme.MessageBound (S : MlDsaScheme) : Prop where
  message_unique : ∀ {vk msg sig msg' sig'}, S.verify vk msg sig = .ok () →
    S.verify vk msg' sig' = .ok () → S.signatureToBytes sig = S.signatureToBytes sig' →
      msg = msg'

theorem MlDsaScheme.Binding.messageBound {S : MlDsaScheme} (h : S.Binding) : S.MessageBound where
  message_unique hv hv' hsig := (h.verify_unique hv hv' hsig).2

variable {P : SignaturePrimitives}

/-! ## Transcripts -/

/-- `H1Domain`. -/
inductive H1Domain where
  | plain
  | context
  | prehashed
deriving DecidableEq

/-- `H1Domain::h1_context`. -/
def H1Domain.h1Context : H1Domain → String
  | plain => "trelis-hybrid-sig-bop2-h1-v1"
  | context => "trelis-hybrid-sig-bop2-h1-ctx-v1"
  | prehashed => "trelis-hybrid-sig-bop2-h1-prehash-v1"

theorem H1Domain.h1Context_inj {d e : H1Domain} (h : d.h1Context = e.h1Context) : d = e := by
  revert h
  cases d <;> cases e <;> decide

/-- The bytes that `bop_m_prime` hashes. -/
def bopFrame (pkId : FixedBytes 57) (pkSig : FixedBytes 1952) (message : Bytes)
    (com : FixedBytes 57) : Bytes :=
  pkId.val ++ pkSig.val ++ message ++ com.val

/-- `bop_m_prime`. -/
def bopMPrime (P : SignaturePrimitives) (domain : H1Domain) (pkId : FixedBytes 57)
    (pkSig : FixedBytes 1952) (message : Bytes) (com : FixedBytes 57) : Bytes32 :=
  P.deriveKey domain.h1Context (bopFrame pkId pkSig message com)

/-- `h2_challenge`. -/
def h2Challenge (P : SignaturePrimitives) (sigma2 : Bytes) : FixedBytes 114 :=
  P.deriveKeyXof "trelis-hybrid-sig-bop2-h2-v1" sigma2

/-- `bop_context_region`. -/
def bopContextRegion (context message : Bytes) : Result Bytes :=
  if context.length ≤ 255 then .ok (UInt8.ofNat context.length :: (context ++ message))
  else .error (.invalidContextLength context.length 255)

theorem bopFrame_inj {pkId pkId' : FixedBytes 57} {pkSig pkSig' : FixedBytes 1952}
    {message message' : Bytes} {com com' : FixedBytes 57}
    (h : bopFrame pkId pkSig message com = bopFrame pkId' pkSig' message' com') :
    pkId = pkId' ∧ pkSig = pkSig' ∧ message = message' ∧ com = com' := by
  have hlen := congrArg List.length h
  simp only [bopFrame, List.length_append, FixedBytes.length_coe] at hlen
  obtain ⟨hfront, hcom⟩ := List.append_inj h (by simp; omega)
  obtain ⟨hkeys, hmessage⟩ := List.append_inj hfront (by simp)
  obtain ⟨hid, hsig⟩ := List.append_inj hkeys (by simp)
  exact ⟨Subtype.ext hid, Subtype.ext hsig, hmessage, Subtype.ext hcom⟩

theorem bopContextRegion_inj {context context' message message' region : Bytes}
    (h : bopContextRegion context message = .ok region)
    (h' : bopContextRegion context' message' = .ok region) :
    context = context' ∧ message = message' := by
  unfold bopContextRegion at h h'
  split at h
  · next hle =>
    split at h'
    · next hle' =>
      have hregion := Except.ok.inj (h.trans h'.symm)
      obtain ⟨hlen, hrest⟩ := List.cons.inj hregion
      have hsame : context.length = context'.length := by
        have := congrArg UInt8.toNat hlen
        rw [UInt8.toNat_ofNat', UInt8.toNat_ofNat'] at this
        omega
      exact List.append_inj hrest hsame
    · cases h'
  · cases h

/-! ## Keys and signatures -/

/-- `HybridSigningPublicKey`. -/
structure HybridSigningPublicKey (P : SignaturePrimitives) where
  ed448 : Ed448VerifyingKey
  mldsa : P.VerifyingKey

/-- `HybridSigningPublicKey::to_bytes`. -/
def HybridSigningPublicKey.toBytes (vk : HybridSigningPublicKey P) : FixedBytes 2009 :=
  ⟨vk.ed448.inner.val ++ (P.verifyingKeyToBytes vk.mldsa).val, by simp⟩

/-- `HybridSignature`. -/
structure HybridSignature (P : SignaturePrimitives) where
  rsp : Ed448BopResponse
  mldsa : P.Signature

/-- `HybridSignature::to_bytes`. -/
def HybridSignature.toBytes (sig : HybridSignature P) : FixedBytes 3366 :=
  ⟨sig.rsp.bytes.val ++ (P.signatureToBytes sig.mldsa).val, by simp⟩

theorem HybridSignature.toBytes_inj {sig sig' : HybridSignature P}
    (h : sig.toBytes = sig'.toBytes) :
    sig.rsp = sig'.rsp ∧ P.signatureToBytes sig.mldsa = P.signatureToBytes sig'.mldsa := by
  obtain ⟨hrsp, hmldsa⟩ := List.append_inj (congrArg Subtype.val h) (by simp)
  refine ⟨?_, Subtype.ext hmldsa⟩
  cases hr : sig.rsp
  cases hr' : sig'.rsp
  rw [hr, hr'] at hrsp
  exact congrArg _ (Subtype.ext hrsp)

/-- `HybridSigningKeypair`.  Every constructor of the source derives the public
key from the two secret keys. -/
structure HybridSigningKeypair (P : SignaturePrimitives) where
  publicKey : HybridSigningPublicKey P
  ed448Secret : Ed448SigningKey P.toCurve
  mldsaSecret : P.SigningKey
  publicKey_eq : publicKey = ⟨ed448Secret.verifyingKey, P.verifyingKey mldsaSecret⟩

/-- `HybridSigningKeypair::from_components`. -/
def HybridSigningKeypair.fromComponents (ed448Secret : Ed448SigningKey P.toCurve)
    (mldsaSecret : P.SigningKey) : HybridSigningKeypair P :=
  ⟨⟨ed448Secret.verifyingKey, P.verifyingKey mldsaSecret⟩, ed448Secret, mldsaSecret, rfl⟩

/-! ## Signing -/

/-- The random draws of one signature: the buffer of the Schnorr nonce, and the
entropy of the ML-DSA signer. -/
structure SigningCoins (P : SignaturePrimitives) where
  nonce : Option (FixedBytes 114)
  mldsa : P.Coins

namespace HybridSigningKeypair

variable (kp : HybridSigningKeypair P)

/-- `HybridSigningKeypair::bop_sign_core`. -/
def bopSignCore (domain : H1Domain) (message : Bytes) (coins : SigningCoins P) :
    Result (HybridSignature P) := do
  let pkId := kp.publicKey.ed448.inner
  let pkSig := P.verifyingKeyToBytes kp.publicKey.mldsa
  let (com, nonce) ← kp.ed448Secret.bopCommit coins.nonce
  let mPrime := bopMPrime P domain pkId pkSig message com
  let mldsaSig ← P.signHedged kp.mldsaSecret mPrime.val coins.mldsa
  let chl := h2Challenge P (P.signatureToBytes mldsaSig).val
  pure ⟨nonce.respond chl, mldsaSig⟩

variable {kp} in
/-- The core signs when both draws are good. -/
theorem bopSignCore_of_ok {domain : H1Domain} {message : Bytes} {coins : SigningCoins P}
    {com : FixedBytes 57} {nonce : Ed448BopSecretNonce} {sigma2 : P.Signature}
    (hcommit : kp.ed448Secret.bopCommit coins.nonce = .ok (com, nonce))
    (hsign : P.signHedged kp.mldsaSecret (bopMPrime P domain kp.publicKey.ed448.inner
      (P.verifyingKeyToBytes kp.publicKey.mldsa) message com).val coins.mldsa = .ok sigma2) :
    kp.bopSignCore domain message coins =
      .ok ⟨nonce.respond (h2Challenge P (P.signatureToBytes sigma2).val), sigma2⟩ := by
  simp only [bopSignCore, hcommit, Except.bind_eq_ok]
  exact ⟨_, rfl, _, hsign, rfl⟩

/-- `HybridSigningKeypair::sign`. -/
def sign (message : Bytes) (coins : SigningCoins P) : Result (HybridSignature P) :=
  kp.bopSignCore .plain message coins

/-- `HybridSigningKeypair::sign_with_context`. -/
def signWithContext (message context : Bytes) (coins : SigningCoins P) :
    Result (HybridSignature P) := do
  let region ← bopContextRegion context message
  kp.bopSignCore .context region coins

/-- `HybridSigningKeypair::sign_prehashed`. -/
def signPrehashed (context : String) (message : Bytes) (coins : SigningCoins P) :
    Result (HybridSignature P) :=
  kp.bopSignCore .prehashed (P.deriveKey context message).val coins

end HybridSigningKeypair

/-! ## Verifying -/

namespace HybridSigningPublicKey

variable (vk : HybridSigningPublicKey P)

/-- `HybridSigningPublicKey::bop_verify_core`. -/
def bopVerifyCore (domain : H1Domain) (message : Bytes) (signature : HybridSignature P) :
    Result Unit := do
  let sigma2 := P.signatureToBytes signature.mldsa
  let chl := h2Challenge P sigma2.val
  let com ← vk.ed448.bopExtcom P.toCurve chl signature.rsp
  let pkId := vk.ed448.inner
  let pkSig := P.verifyingKeyToBytes vk.mldsa
  let mPrime := bopMPrime P domain pkId pkSig message com
  match P.verify vk.mldsa mPrime.val signature.mldsa with
  | .ok () => pure ()
  | .error _ => throw .signatureVerificationFailed

/-- `HybridSigningPublicKey::verify`. -/
def verify (message : Bytes) (signature : HybridSignature P) : Result Unit :=
  vk.bopVerifyCore .plain message signature

/-- `HybridSigningPublicKey::verify_with_context`. -/
def verifyWithContext (message context : Bytes) (signature : HybridSignature P) :
    Result Unit := do
  let region ← bopContextRegion context message
  vk.bopVerifyCore .context region signature

/-- `HybridSigningPublicKey::verify_prehashed`. -/
def verifyPrehashed (context : String) (message : Bytes) (signature : HybridSignature P) :
    Result Unit :=
  vk.bopVerifyCore .prehashed (P.deriveKey context message).val signature

/-- The core accepts exactly when the extractor finds a commitment, and ML-DSA
verifies the digest that covers it. -/
theorem bopVerifyCore_eq_ok {domain : H1Domain} {message : Bytes} {sig : HybridSignature P} :
    vk.bopVerifyCore domain message sig = .ok () ↔
      ∃ com, vk.ed448.bopExtcom P.toCurve
          (h2Challenge P (P.signatureToBytes sig.mldsa).val) sig.rsp = .ok com ∧
        P.verify vk.mldsa (bopMPrime P domain vk.ed448.inner (P.verifyingKeyToBytes vk.mldsa)
          message com).val sig.mldsa = .ok () := by
  rw [bopVerifyCore, Except.bind_eq_ok]
  refine exists_congr fun com => and_congr_right fun _ => ?_
  simp only
  split
  · next h => simp [h]
  · next h => simp [h]

end HybridSigningPublicKey

/-- A core signature verifies. -/
theorem bopVerifyCore_bopSignCore (hcurve : P.Rfc8032) (hmldsa : P.Correct)
    {kp : HybridSigningKeypair P} {domain : H1Domain} {message : Bytes} {coins : SigningCoins P}
    {sig : HybridSignature P} (h : kp.bopSignCore domain message coins = .ok sig) :
    kp.publicKey.bopVerifyCore domain message sig = .ok () := by
  simp only [HybridSigningKeypair.bopSignCore, Except.bind_eq_ok, Except.pure_eq_ok] at h
  obtain ⟨⟨com, nonce⟩, hcommit, mldsaSig, hsign, rfl⟩ := h
  refine (kp.publicKey.bopVerifyCore_eq_ok).mpr ⟨com, ?_, ?_⟩
  · rw [kp.publicKey_eq]
    exact bopExtcom_respond hcurve hcommit _
  · have hverify := hmldsa.verify_sign hsign
    rw [kp.publicKey_eq] at hverify ⊢
    exact hverify

/-! ## The three modes -/

/-- What a signature is about: a message in one of the modes. -/
inductive Statement where
  | plain (message : Bytes)
  | withContext (message context : Bytes)
  | prehashed (context : String) (message : Bytes)
deriving DecidableEq

/-- The signing function of the mode. -/
def HybridSigningKeypair.signStatement (kp : HybridSigningKeypair P) (statement : Statement)
    (coins : SigningCoins P) : Result (HybridSignature P) :=
  match statement with
  | .plain message => kp.sign message coins
  | .withContext message context => kp.signWithContext message context coins
  | .prehashed context message => kp.signPrehashed context message coins

/-- The verifying function of the mode. -/
def HybridSigningPublicKey.verifyStatement (vk : HybridSigningPublicKey P) (statement : Statement)
    (sig : HybridSignature P) : Result Unit :=
  match statement with
  | .plain message => vk.verify message sig
  | .withContext message context => vk.verifyWithContext message context sig
  | .prehashed context message => vk.verifyPrehashed context message sig

namespace Statement

/-- The domain of the mode. -/
def domain : Statement → H1Domain
  | plain _ => .plain
  | withContext _ _ => .context
  | prehashed _ _ => .prehashed

/-- The message region of the mode. -/
def region (P : SignaturePrimitives) : Statement → Result Bytes
  | plain message => .ok message
  | withContext message context => bopContextRegion context message
  | prehashed context message => .ok (P.deriveKey context message).val

/-- What the prehashed mode hashes to get its region. -/
def prehashes : Statement → List (String × Bytes)
  | prehashed context message => [(context, message)]
  | _ => []

end Statement

theorem signStatement_eq (kp : HybridSigningKeypair P) (statement : Statement)
    (coins : SigningCoins P) :
    kp.signStatement statement coins =
      statement.region P >>= fun region => kp.bopSignCore statement.domain region coins := by
  cases statement <;> rfl

theorem verifyStatement_eq (vk : HybridSigningPublicKey P) (statement : Statement)
    (sig : HybridSignature P) :
    vk.verifyStatement statement sig =
      statement.region P >>= fun region => vk.bopVerifyCore statement.domain region sig := by
  cases statement <;> rfl

/-- What a key pair signs, its public key verifies for the same statement. -/
theorem sign_verifies (hcurve : P.Rfc8032) (hmldsa : P.Correct) {kp : HybridSigningKeypair P}
    {statement : Statement} {coins : SigningCoins P} {sig : HybridSignature P}
    (h : kp.signStatement statement coins = .ok sig) :
    kp.publicKey.verifyStatement statement sig = .ok () := by
  rw [signStatement_eq, Except.bind_eq_ok] at h
  obtain ⟨region, hregion, hsign⟩ := h
  rw [verifyStatement_eq, Except.bind_eq_ok]
  exact ⟨region, hregion, bopVerifyCore_bopSignCore hcurve hmldsa hsign⟩

/-! ## Separation -/

/-- The inputs that verifying hashes under a context string: the prehash, and
the frame under the domain of the mode. -/
def hashedInputs (vk : HybridSigningPublicKey P) (statement : Statement)
    (sig : HybridSignature P) : List (String × Bytes) :=
  statement.prehashes ++
    match statement.region P,
      vk.ed448.bopExtcom P.toCurve (h2Challenge P (P.signatureToBytes sig.mldsa).val) sig.rsp with
    | .ok region, .ok com =>
      [(statement.domain.h1Context,
        bopFrame vk.ed448.inner (P.verifyingKeyToBytes vk.mldsa) region com)]
    | _, _ => []

/-- The hash has no collision among the given inputs. -/
def CollisionFreeOn (P : SignaturePrimitives) (inputs : List (String × Bytes)) : Prop :=
  Set.InjOn (fun input => P.deriveKey input.1 input.2) {input | input ∈ inputs}

/-- A mode and its region determine the statement, up to a collision of the
prehashes. -/
theorem Statement.eq_of_region {s s' : Statement} {region : Bytes}
    (hdomain : s.domain = s'.domain) (h : s.region P = .ok region)
    (h' : s'.region P = .ok region) (hfree : CollisionFreeOn P (s.prehashes ++ s'.prehashes)) :
    s = s' := by
  cases s with
  | plain message =>
    cases s' with
    | plain message' => rw [Except.ok.inj h, Except.ok.inj h']
    | withContext => cases hdomain
    | prehashed => cases hdomain
  | withContext message context =>
    cases s' with
    | plain => cases hdomain
    | withContext message' context' =>
      obtain ⟨rfl, rfl⟩ := bopContextRegion_inj h h'
      rfl
    | prehashed => cases hdomain
  | prehashed context message =>
    cases s' with
    | plain => cases hdomain
    | withContext => cases hdomain
    | prehashed context' message' =>
      have hdigest : P.deriveKey context message = P.deriveKey context' message' :=
        Subtype.ext (Except.ok.inj (h.trans h'.symm))
      obtain ⟨rfl, rfl⟩ := Prod.mk.inj
        (hfree (show (context, message) ∈ _ by simp [Statement.prehashes])
          (show (context', message') ∈ _ by simp [Statement.prehashes]) hdigest)
      rfl

/-- One signature verifies for at most one verifying key and statement. -/
theorem signature_determines (hmldsa : P.Binding) {vk vk' : HybridSigningPublicKey P}
    {s s' : Statement} {sig sig' : HybridSignature P} (hsig : sig.toBytes = sig'.toBytes)
    (hfree : CollisionFreeOn P (hashedInputs vk s sig ++ hashedInputs vk' s' sig'))
    (h : vk.verifyStatement s sig = .ok ()) (h' : vk'.verifyStatement s' sig' = .ok ()) :
    vk = vk' ∧ s = s' := by
  obtain ⟨_, hbytes⟩ := HybridSignature.toBytes_inj hsig
  rw [verifyStatement_eq, Except.bind_eq_ok] at h h'
  obtain ⟨region, hregion, h⟩ := h
  obtain ⟨region', hregion', h'⟩ := h'
  obtain ⟨com, hcom, hverify⟩ := (vk.bopVerifyCore_eq_ok).mp h
  obtain ⟨com', hcom', hverify'⟩ := (vk'.bopVerifyCore_eq_ok).mp h'
  obtain ⟨hmldsaKey, hdigest⟩ := hmldsa.verify_unique hverify hverify' hbytes
  have hframe := hfree
    (show (s.domain.h1Context, bopFrame vk.ed448.inner (P.verifyingKeyToBytes vk.mldsa) region com)
      ∈ _ by simp [hashedInputs, hregion, hcom])
    (show (s'.domain.h1Context,
      bopFrame vk'.ed448.inner (P.verifyingKeyToBytes vk'.mldsa) region' com') ∈ _ by
        simp [hashedInputs, hregion', hcom']) (Subtype.ext hdigest)
  obtain ⟨hcontext, hbody⟩ := Prod.mk.inj hframe
  obtain ⟨hid, _, rfl, _⟩ := bopFrame_inj hbody
  refine ⟨?_, ?_⟩
  · rcases vk with ⟨⟨inner⟩, mldsa⟩
    rcases vk' with ⟨⟨inner'⟩, mldsa'⟩
    rw [show inner = inner' from hid, show mldsa = mldsa' from hmldsaKey]
  · refine Statement.eq_of_region (H1Domain.h1Context_inj hcontext) hregion hregion'
      (hfree.mono fun input hinput => ?_)
    simp only [Set.mem_ofPred_eq, List.mem_append, hashedInputs] at hinput ⊢
    tauto

/-! ## Unique responses -/

/-- Two accepted signatures with one ML-DSA half have one commitment. -/
theorem bopVerifyCore_commitment (hmldsa : P.MessageBound) {vk : HybridSigningPublicKey P}
    {s : Statement} {region : Bytes} {sig sig' : HybridSignature P}
    (hregion : s.region P = .ok region)
    (hsig : P.signatureToBytes sig.mldsa = P.signatureToBytes sig'.mldsa)
    (hfree : CollisionFreeOn P (hashedInputs vk s sig ++ hashedInputs vk s sig'))
    (h : vk.bopVerifyCore s.domain region sig = .ok ())
    (h' : vk.bopVerifyCore s.domain region sig' = .ok ()) :
    ∃ com, vk.ed448.bopExtcom P.toCurve
        (h2Challenge P (P.signatureToBytes sig.mldsa).val) sig.rsp = .ok com ∧
      vk.ed448.bopExtcom P.toCurve
        (h2Challenge P (P.signatureToBytes sig'.mldsa).val) sig'.rsp = .ok com := by
  obtain ⟨com, hcom, hverify⟩ := (vk.bopVerifyCore_eq_ok).mp h
  obtain ⟨com', hcom', hverify'⟩ := (vk.bopVerifyCore_eq_ok).mp h'
  have hdigest := hmldsa.message_unique hverify hverify' hsig
  have hframe := hfree
    (show (s.domain.h1Context, bopFrame vk.ed448.inner (P.verifyingKeyToBytes vk.mldsa) region com)
      ∈ _ by simp [hashedInputs, hregion, hcom])
    (show (s.domain.h1Context,
      bopFrame vk.ed448.inner (P.verifyingKeyToBytes vk.mldsa) region com') ∈ _ by
        simp [hashedInputs, hregion, hcom']) (Subtype.ext hdigest)
  obtain ⟨_, _, _, rfl⟩ := bopFrame_inj (Prod.mk.inj hframe).2
  exact ⟨com, hcom, hcom'⟩

end Trelis.Hybrid
