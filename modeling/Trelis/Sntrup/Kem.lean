import Trelis.Error
import Trelis.Lib.Outcome
import Trelis.Lib.Slices
import Trelis.Sntrup.Encoding
import Trelis.Sntrup.Reciprocal

/-!
# The sntrup761 KEM

Key generation, encapsulation and decapsulation (`pure_rust.rs`).  The samplers
of the `ntrulp` crate and SHA-512 are parameters.

`encapsulateWith` is `encapsulate` after the draw of `r`; `accepts` is the
comparison that `decapsulate` selects its result with.
-/

namespace Trelis.Sntrup

/-- The coefficient arrays `[i8; P]` and `[i16; P]`. -/
abbrev Coeffs := { a : List Int // a.length = p }

/-- `W`. -/
def w : Nat := 286

/-- `MAX_KEYGEN_ATTEMPTS`. -/
def maxKeygenAttempts : Nat := 10000

/-- The draws from a generator: `random_small` and `short_random` of `ntrulp`,
and `fill_bytes`. -/
structure Samplers (Rng : Type) where
  randomSmall : Rng → Coeffs × Rng
  shortRandom : Rng → Option Coeffs × Rng
  fillBytes : (n : Nat) → Rng → FixedBytes n × Rng

/-- Both samplers return coefficients in {-1, 0, 1}. -/
structure Samplers.Lawful {Rng : Type} (S : Samplers Rng) : Prop where
  randomSmall_abs_le : ∀ rng, ∀ c ∈ (S.randomSmall rng).1.val, |c| ≤ 1
  shortRandom_abs_le : ∀ rng short, (S.shortRandom rng).1 = some short →
    ∀ c ∈ short.val, |c| ≤ 1

section

variable (sha512 : Bytes → FixedBytes 64)

/-! ## Hashes -/

/-- `hash_with_prefix`. -/
def hashWithPrefix (tag : UInt8) (data : Bytes) : Bytes32 :=
  ⟨(sha512 (tag :: data)).val.take 32, by simp⟩

/-- `hash_r_encoding`. -/
def hashREncoding (rEnc : Bytes) : Bytes32 := hashWithPrefix sha512 3 rEnc

/-- `hash_pk_cache`. -/
def hashPkCache (pk : FixedBytes 1158) : Bytes32 := hashWithPrefix sha512 4 pk.val

/-- `hash_confirm`. -/
def hashConfirm (rHash cache : Bytes32) : Bytes32 :=
  hashWithPrefix sha512 2 (rHash.val ++ cache.val)

/-- `hash_session`. -/
def hashSession (tag : UInt8) (rHash : Bytes32) (ciphertext : FixedBytes 1039) : Bytes32 :=
  ⟨(sha512 (tag :: (rHash.val ++ ciphertext.val))).val.take 32, by simp⟩

/-! ## Key generation -/

section Generate

variable {Rng : Type} (S : Samplers Rng)

/-- `R3::recip` on an array. -/
def invertSmall (g : Coeffs) : Option Coeffs :=
  (r3Recip g.val).pmap (fun ginv h => ⟨ginv, h⟩) fun _ h => length_r3Recip h

/-- The loop that draws an invertible `g`. -/
def sampleInvertible : Nat → Rng → Result ((Coeffs × Coeffs) × Rng)
  | 0, _ => .error .keyGenerationFailed
  | attempts + 1, rng =>
    let draw := S.randomSmall rng
    match invertSmall draw.1 with
    | some ginv => .ok ((draw.1, ginv), draw.2)
    | none => sampleInvertible attempts draw.2

/-- `short[i] as i8`. -/
def toI8 (a : Coeffs) : Coeffs :=
  ⟨a.val.map (Int.bmod · (2 ^ 8)), by rw [List.length_map, a.property]⟩

/-- The loop that draws a polynomial of weight `W`. -/
def sampleShort : Nat → Rng → Result (Coeffs × Rng)
  | 0, _ => .error .keyGenerationFailed
  | attempts + 1, rng =>
    let (short, rng) := S.shortRandom rng
    match short with
    | none => sampleShort attempts rng
    | some short =>
      let f := toI8 short
      if weight f.val = w then .ok (f, rng) else sampleShort attempts rng

/-- The encoding of a small polynomial. -/
def smallBytes (a : Coeffs) : FixedBytes 191 := ⟨smallEncode a.val, length_smallEncode a.property⟩

/-- The encoding of `h = finv * g`. -/
def publicKeyBytes (finv g : List Int) : FixedBytes 1158 :=
  ⟨rqEncode (rqMultR3 finv g), length_rqEncode (length_rqMultR3 finv g) (abs_rqMultR3_le finv g)⟩

/-- `f || ginv || pk || rho || cache`. -/
def assembleKey (f ginv : Coeffs) (pk : FixedBytes 1158) (rho : FixedBytes 191)
    (cache : Bytes32) : FixedBytes 1763 :=
  ⟨[(smallBytes f).val, (smallBytes ginv).val, pk.val, rho.val, cache.val].flatten, by simp⟩

/-- The key for `f` and `g`, unless `f` has no inverse. -/
def completeKey (f g ginv : Coeffs) (rng : Rng) : Option (FixedBytes 1763 × Rng) :=
  -- `rq_from_r3` freezes the coefficients.
  (rqRecip (recip 3) (f.val.map freeze)).map fun finv =>
    let pk := publicKeyBytes finv g.val
    let (rho, rng) := S.fillBytes 191 rng
    (assembleKey f ginv pk rho (hashPkCache sha512 pk), rng)

/-- The outer loop of `generate_from_rng`. -/
def generateLoop : Nat → Rng → Result (FixedBytes 1763 × Rng)
  | 0, _ => .error .keyGenerationFailed
  | attempts + 1, rng => do
    let pair ← sampleInvertible S maxKeygenAttempts rng
    let short ← sampleShort S maxKeygenAttempts pair.2
    match completeKey sha512 S short.1 pair.1.1 pair.1.2 short.2 with
    | none => generateLoop attempts short.2
    | some key => .ok key

/-- `generate_from_rng`. -/
def generateFromRng (rng : Rng) : Result (FixedBytes 1763 × Rng) :=
  generateLoop sha512 S maxKeygenAttempts rng

end Generate

/-! ## Encapsulation -/

theorem isRounded_roundRq (a b : List Int) : ∀ c ∈ roundRq (rqMultR3 a b), IsRounded c := by
  intro c hc
  obtain ⟨x, hx, rfl⟩ := List.mem_map.mp hc
  exact isRounded_roundCoeff (abs_rqMultR3_le a b x hx)

/-- The ciphertext body, `Round(h * r)`. -/
def encryptBody (h r : List Int) : FixedBytes 1007 :=
  ⟨roundedEncode (roundRq (rqMultR3 h r)),
    length_roundedEncode (by rw [roundRq, List.length_map, length_rqMultR3])
      (isRounded_roundRq h r)⟩

/-- `Sntrup761PublicKey::encapsulate`, after the draw of `r`. -/
def encapsulateWith (pk : FixedBytes 1158) (r : Coeffs) : Bytes32 × FixedBytes 1039 :=
  let h := rqDecode pk.val
  let body := encryptBody h r.val
  let rHash := hashREncoding sha512 (smallEncode r.val)
  let cache := hashPkCache sha512 pk
  let confirm := hashConfirm sha512 rHash cache
  let ct : FixedBytes 1039 := ⟨[body.val, confirm.val].flatten, by simp⟩
  (hashSession sha512 1 rHash ct, ct)

/-- `Sntrup761PublicKey::encapsulate`. -/
def encapsulate {Rng : Type} (S : Samplers Rng) (pk : FixedBytes 1158) (rng : Rng) :
    Result ((Bytes32 × FixedBytes 1039) × Rng) := do
  let (r, rng) ← sampleShort S maxKeygenAttempts rng
  pure (encapsulateWith sha512 pk r, rng)

/-! ## Decapsulation -/

/-- Scaling by 3 in an `i16`, and one correction. -/
def scaleByThree (c : Int) : Int :=
  let v := (c * 3).bmod (2 ^ 16)
  if v > 2295 then v - q else if v < -2295 then v + q else v

/-- The residue modulo 3 of a coefficient. -/
def residueThree (c : Int) : Int :=
  let r := (c.tmod 3 + 3).tmod 3
  if r = 0 then 0 else if r = 1 then 1 else -1

theorem abs_residueThree_le (c : Int) : |residueThree c| ≤ 1 := by
  rw [residueThree]
  split
  · simp
  · split <;> simp

/-- `e = 3 * (c * f)`. -/
def scaledProduct (c f : List Int) : List Int := (rqMultR3 c f).map scaleByThree

/-- `r'`, from the decoded ciphertext. -/
def decryptBody (c f ginv : List Int) : Coeffs :=
  ⟨r3MultR3 ((scaledProduct c f).map residueThree) ginv, length_r3MultR3 _ _⟩

section Key

variable (sk : FixedBytes 1763)

/-- The encoding of `f` in a secret key. -/
def keyFBytes : FixedBytes 191 := arrayAt 191 sk.val 0 (by simp)

/-- The encoding of `ginv`. -/
def keyGinvBytes : FixedBytes 191 := arrayAt 191 sk.val 191 (by simp)

/-- The polynomial `f`. -/
def keyF : List Int := smallDecode (keyFBytes sk).val

/-- The polynomial `ginv`. -/
def keyGinv : List Int := smallDecode (keyGinvBytes sk).val

/-- `public_key`. -/
def publicKey : FixedBytes 1158 := arrayAt 1158 sk.val 382 (by simp)

/-- The field `rho`. -/
def keyRho : FixedBytes 191 := arrayAt 191 sk.val 1540 (by simp)

/-- The field `cache`. -/
def keyCache : Bytes32 := arrayAt 32 sk.val 1731 (by simp)

variable (ct : FixedBytes 1039)

/-- The body of a ciphertext. -/
def ctBody : FixedBytes 1007 := arrayAt 1007 ct.val 0 (by simp)

/-- The confirmation of a ciphertext. -/
def ctConfirm : Bytes32 := arrayAt 32 ct.val 1007 (by simp)

/-- The `r'` that `decapsulate` gets. -/
def decryptR : Coeffs := decryptBody (roundedDecode (ctBody ct).val) (keyF sk) (keyGinv sk)

/-- The re-encryption and the confirmation agree with the ciphertext. -/
def accepts : Bool :=
  let r := decryptR sk ct
  let rHash := hashREncoding sha512 (smallEncode r.val)
  let body := encryptBody (rqDecode (publicKey sk).val) r.val
  let confirm := hashConfirm sha512 rHash (keyCache sk)
  ctBody ct = body ∧ ctConfirm ct = confirm

/-- The secret of a rejected ciphertext. -/
def rejectionSecret : Bytes32 :=
  hashSession sha512 0 (hashREncoding sha512 (keyRho sk).val) ct

/-- The secret of an accepted ciphertext. -/
def acceptedSecret : Bytes32 :=
  hashSession sha512 1 (hashREncoding sha512 (smallEncode (decryptR sk ct).val)) ct

/-- `decapsulate`. -/
def decapsulate : Result Bytes32 :=
  .ok (if accepts sha512 sk ct then acceptedSecret sha512 sk ct else rejectionSecret sha512 sk ct)

end Key

end

end Trelis.Sntrup
