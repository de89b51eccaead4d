import Trelis.Sntrup.Decapsulation
import Trelis.X3dh.Keys

/-!
# sntrup761 as the KEM of the hybrid keys

`scheme` is the code of `pure_rust.rs` behind the interface `KemScheme`, which
splits the two operations in front of their last hash.  `scheme_encapsulate` and
`scheme_decapsulate` put the halves together again, and `scheme_correct` is the
law that the hybrid KEM relies on.
-/

namespace Trelis.Sntrup

variable {Rng : Type} (sha512 : Bytes → FixedBytes 64) (S : Samplers Rng)

/-- The tag and the hash that `decapsulate` selects. -/
def selectHash (sk : FixedBytes 1763) (ct : FixedBytes 1039) : UInt8 × Bytes32 :=
  if accepts sha512 sk ct then (1, hashREncoding sha512 (smallEncode (decryptR sk ct).val))
  else (0, hashREncoding sha512 (keyRho sk).val)

/-- The `r_hash` and the ciphertext of `r`. -/
def hashAndCiphertext (pk : FixedBytes 1158) (r : Coeffs) : Bytes32 × FixedBytes 1039 :=
  (hashREncoding sha512 (smallEncode r.val), (encapsulateWith sha512 pk r).2)

/-- sntrup761 with its samplers; the coins are a state of the generator. -/
def scheme : X3dh.KemScheme where
  SecretKey := FixedBytes 1763
  Coins := Rng
  generate rng := (generateFromRng sha512 S rng).map Prod.fst
  publicKey := publicKey
  encrypt pk rng :=
    (sampleShort S maxKeygenAttempts rng).map fun r => hashAndCiphertext sha512 pk r.1
  decrypt := selectHash sha512
  sha512 := sha512

/-- The scheme encapsulates as the code does. -/
theorem scheme_encapsulate (pk : FixedBytes 1158) (rng : Rng) :
    (scheme sha512 S).encapsulate pk rng = (encapsulate sha512 S pk rng).map Prod.fst := by
  show (do
    let out ← (sampleShort S maxKeygenAttempts rng).map fun r => hashAndCiphertext sha512 pk r.1
    pure ((scheme sha512 S).hashSession 1 out.1 out.2, out.2)) =
      Except.map Prod.fst (do
        let r ← sampleShort S maxKeygenAttempts rng
        pure (encapsulateWith sha512 pk r.1, r.2))
  cases sampleShort S maxKeygenAttempts rng with
  | error e => rfl
  | ok r => rfl

/-- The scheme decapsulates as the code does. -/
theorem scheme_decapsulate (sk : FixedBytes 1763) (ct : FixedBytes 1039) :
    (scheme sha512 S).decapsulate sk ct = decapsulate sha512 sk ct := by
  show Except.ok ((scheme sha512 S).hashSession (selectHash sha512 sk ct).1
    (selectHash sha512 sk ct).2 ct) = _
  unfold selectHash decapsulate
  by_cases haccepts : accepts sha512 sk ct = true
  · rw [if_pos haccepts, if_pos haccepts]
    rfl
  · rw [if_neg haccepts, if_neg haccepts]
    rfl

variable {S}

/-- What is encapsulated to a generated key is accepted by it. -/
theorem scheme_correct (hS : S.Lawful) : (scheme sha512 S).Correct where
  decrypt_encrypt {rng sk rng' rHash ct} hgen hencrypt := by
    obtain ⟨key, hkey, rfl⟩ := Except.map_eq_ok.mp hgen
    obtain ⟨r, hr, hpair⟩ := Except.map_eq_ok.mp hencrypt
    have hspec := generateFromRng_spec hS hkey
    obtain ⟨hsmall, hweight⟩ := sampleShort_spec hS hr
    obtain ⟨rfl, rfl⟩ := Prod.mk.inj hpair
    have hdecrypt : decryptR key.1 (encapsulateWith sha512 (publicKey key.1) r.1).2 = r.1 := by
      rw [decryptR_encapsulateWith_iff hspec hsmall.abs_le]
      apply abs_keyNoise_le hspec hsmall.abs_le
      rw [hweight, show w = 286 from rfl]
      norm_num
    show selectHash sha512 key.1 (encapsulateWith sha512 (publicKey key.1) r.1).2 = _
    rw [selectHash, if_pos (accepts_of_decryptR_eq hspec hdecrypt), hdecrypt]

end Trelis.Sntrup
