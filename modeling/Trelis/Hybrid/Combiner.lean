import Trelis.Hybrid.Sample

/-!
# Completeness and separation of the combiner

The two halves of what the hybrid signature promises, over every key pair, mode,
message and context: an honest signature verifies, and one signature string
never verifies for two statements.

The frame under the hash is where the second half comes from.  The domain has
its own context string, the region stands between parts of fixed size, and the
context inside it is behind its length.
-/

namespace Trelis.Hybrid

variable {P : SignaturePrimitives}

/-- What a key pair signs verifies for the same mode, message and context.  A
signature that verifies twice, with no collision among the hashed inputs, does
so for one verifying key, mode, message and context. -/
theorem combiner_complete_and_separated (hcurve : P.Rfc8032) (hcorrect : P.Correct)
    (hbinding : P.Binding) :
    (∀ (kp : HybridSigningKeypair P) (s : Statement) (coins : SigningCoins P)
        (sig : HybridSignature P), kp.signStatement s coins = .ok sig →
      kp.publicKey.verifyStatement s sig = .ok ()) ∧
    ∀ (vk vk' : HybridSigningPublicKey P) (s s' : Statement) (sig sig' : HybridSignature P),
      sig.toBytes = sig'.toBytes →
      CollisionFreeOn P (hashedInputs vk s sig ++ hashedInputs vk' s' sig') →
      vk.verifyStatement s sig = .ok () → vk'.verifyStatement s' sig' = .ok () →
        vk = vk' ∧ s = s' := by
  constructor
  · intro kp s coins sig h
    exact sign_verifies hcurve hcorrect h
  · intro vk vk' s s' sig sig' hbytes hfree h h'
    exact signature_determines hbinding hbytes hfree h h'

/-- A signature of the sample scheme verifies, and verifies for nothing else
without a collision. -/
theorem combiner_complete_and_separated_sample :
    ∃ sig, (sampleKeypair 1).sign (ascii "message") sampleCoins = .ok sig ∧
      (sampleKeypair 1).publicKey.verify (ascii "message") sig = .ok () ∧
      ∀ vk s, CollisionFreeOn sampleScheme
          (hashedInputs (sampleKeypair 1).publicKey (.plain (ascii "message")) sig ++
            hashedInputs vk s sig) →
        vk.verifyStatement s sig = .ok () →
          (sampleKeypair 1).publicKey = vk ∧ .plain (ascii "message") = s := by
  obtain ⟨sig, hsign⟩ := sample_signs 1 (ascii "message")
  obtain ⟨hcomplete, hseparated⟩ :=
    combiner_complete_and_separated (P := sampleScheme) scalarCurve_rfc8032
      transparentMlDsa_correct transparentMlDsa_binding
  have hverify := hcomplete (sampleKeypair 1) (.plain (ascii "message")) sampleCoins sig hsign
  refine ⟨sig, hsign, hverify, ?_⟩
  intro vk s hfree h
  exact hseparated _ _ _ _ sig sig rfl hfree hverify h

/-! ## Unique responses -/

/-- Under one verifying key, statement and ML-DSA half, with no collision among the
hashed inputs, at most one response string is accepted. -/
theorem unique_response (hcurve : P.CanonicalEncoding) (hmldsa : P.MessageBound)
    {vk : HybridSigningPublicKey P} {s : Statement} {sig sig' : HybridSignature P}
    (hsig : P.signatureToBytes sig.mldsa = P.signatureToBytes sig'.mldsa)
    (hfree : CollisionFreeOn P (hashedInputs vk s sig ++ hashedInputs vk s sig'))
    (h : vk.verifyStatement s sig = .ok ()) (h' : vk.verifyStatement s sig' = .ok ()) :
    sig.toBytes = sig'.toBytes := by
  rw [verifyStatement_eq, Except.bind_eq_ok] at h h'
  obtain ⟨region, hregion, h⟩ := h
  obtain ⟨region', hregion', h'⟩ := h'
  obtain rfl : region = region' := Except.ok.inj (hregion.symm.trans hregion')
  obtain ⟨com, hcom, hcom'⟩ := bopVerifyCore_commitment hmldsa hregion hsig hfree h h'
  rw [← hsig] at hcom'
  have hrsp : sig.rsp = sig'.rsp := bopExtcom_inj hcurve hcom hcom'
  apply Subtype.ext
  show sig.rsp.bytes.val ++ _ = sig'.rsp.bytes.val ++ _
  rw [hrsp, hsig]

theorem scalarCurve_canonicalEncoding : scalarCurve.CanonicalEncoding where
  addOrderOf_generator := by
    show addOrderOf (1 : ZMod scalarOrder) = scalarOrder
    rw [ZMod.addOrderOf_one]
  compress_inj p p' h := by
    have hread := congrArg decodePoint h
    exact Option.some.inj ((decodePoint_encodePoint p).symm.trans
      (hread.trans (decodePoint_encodePoint p')))

/-- Of the response strings that lead to the hashed input of a sample signature, only
its own is accepted. -/
theorem unique_response_sample :
    ∃ sig, (sampleKeypair 1).sign (ascii "message") sampleCoins = .ok sig ∧
      ∀ rsp, hashedInputs (sampleKeypair 1).publicKey (.plain (ascii "message")) ⟨rsp, sig.mldsa⟩ =
          hashedInputs (sampleKeypair 1).publicKey (.plain (ascii "message")) sig →
        (sampleKeypair 1).publicKey.verify (ascii "message") ⟨rsp, sig.mldsa⟩ = .ok () →
          sig.toBytes = (HybridSignature.mk rsp sig.mldsa).toBytes := by
  obtain ⟨sig, hsign⟩ := sample_signs 1 (ascii "message")
  have hverify : (sampleKeypair 1).publicKey.verifyStatement (.plain (ascii "message")) sig =
      .ok () :=
    sign_verifies (P := sampleScheme) scalarCurve_rfc8032 transparentMlDsa_correct hsign
  refine ⟨sig, hsign, ?_⟩
  intro rsp hinputs h
  refine unique_response (P := sampleScheme) scalarCurve_canonicalEncoding
    transparentMlDsa_binding.messageBound rfl ?_ hverify h
  rw [hinputs]
  intro x hx y hy _
  rw [verifyStatement_eq, Except.bind_eq_ok] at hverify
  obtain ⟨region, hregion, hverify⟩ := hverify
  obtain ⟨com, hcom, _⟩ := (HybridSigningPublicKey.bopVerifyCore_eq_ok _).mp hverify
  simp only [hashedInputs, hregion, hcom, Statement.prehashes, List.nil_append, Set.mem_ofPred_eq,
    List.mem_append, List.mem_cons, List.not_mem_nil, or_false, or_self] at hx hy
  rw [hx, hy]

end Trelis.Hybrid
