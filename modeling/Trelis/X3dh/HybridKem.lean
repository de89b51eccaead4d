import Trelis.Lib.Slices
import Trelis.Sntrup.Scheme
import Trelis.X3dh.KeyCodec

/-!
# The hybrid KEM

`combine_v2` (`combiner.rs`) and the two operations around it (`kem.rs`).  What an
operation feeds to the combiner is `CombinerInput`; `encapsulateInput` and
`decapsulateInput` are the operations up to that call.

The combiner hashes the three components that have any length, so that its input
has a fixed layout and determines the tuple, up to a collision
(`combineV2_inj`).  `decapsulateInput_of_encapsulateInput` is the other half: the
owner of the key feeds the tuple that the sender fed.
-/

namespace Trelis.X3dh

variable {P : HandshakePrimitives}

/-! ## The combiner -/

/-- The arguments of `combine_v2`. -/
structure CombinerInput where
  x448Ss : FixedBytes 56
  sntrupSs : Bytes32
  ctSntrup : Bytes
  x448Eph : Bytes
  pkHybrid : Bytes

def hybridKemV2Context : String := "trelis-hybrid-kem-v2"

/-- The fields of the KDF input, in order. -/
def combinedFields (P : HandshakePrimitives) (t : CombinerInput) : List Bytes :=
  [(P.hash t.ctSntrup).val, (P.hash t.x448Eph).val, (P.hash t.pkHybrid).val, t.x448Ss.val,
    t.sntrupSs.val]

/-- `HybridSharedSecret::combine_v2`. -/
def combineV2 (P : HandshakePrimitives) (t : CombinerInput) : Bytes32 :=
  P.deriveKey hybridKemV2Context (combinedFields P t).flatten

/-- Two computations of the combiner do not collide. -/
structure CombinerInput.NoCollision (P : HandshakePrimitives) (t t' : CombinerInput) : Prop where
  derive : combineV2 P t = combineV2 P t' →
    (combinedFields P t).flatten = (combinedFields P t').flatten
  ctSntrup : P.hash t.ctSntrup = P.hash t'.ctSntrup → t.ctSntrup = t'.ctSntrup
  x448Eph : P.hash t.x448Eph = P.hash t'.x448Eph → t.x448Eph = t'.x448Eph
  pkHybrid : P.hash t.pkHybrid = P.hash t'.pkHybrid → t.pkHybrid = t'.pkHybrid

/-- The combiner determines its arguments. -/
theorem combineV2_inj {t t' : CombinerInput} (hfree : t.NoCollision P t')
    (h : combineV2 P t = combineV2 P t') : t = t' := by
  have hfields : combinedFields P t = combinedFields P t' :=
    flatten_inj (by simp [combinedFields]) (hfree.derive h)
  simp only [combinedFields, List.cons.injEq, and_true] at hfields
  obtain ⟨hct, heph, hpk, hx448, hsntrup⟩ := hfields
  have hct := hfree.ctSntrup (Subtype.ext hct)
  have heph := hfree.x448Eph (Subtype.ext heph)
  have hpk := hfree.pkHybrid (Subtype.ext hpk)
  have hx448 := Subtype.ext hx448
  have hsntrup := Subtype.ext hsntrup
  cases t
  cases t'
  rw [CombinerInput.mk.injEq]
  exact ⟨hx448, hsntrup, hct, heph, hpk⟩

/-! ## The two operations -/

/-- `X448Secret::generate`, from the bytes that are drawn. -/
def X448Secret.generate (draw : Result (FixedBytes 56)) : Result X448Secret := do
  let bytes ← draw
  pure ⟨Rfc7748.clamp bytes, clamp_clamp bytes⟩

namespace HybridKemPublicKey

/-- What `encapsulate` feeds to the combiner, with the encapsulation. -/
def encapsulateInput (P : HandshakePrimitives) (pk : HybridKemPublicKey)
    (x448 : Result (FixedBytes 56)) (sntrup : P.sntrup.Coins) :
    Result (CombinerInput × HybridEncapsulation) := do
  let x448EphemeralSecret ← X448Secret.generate x448
  let x448Ephemeral := P.x448.publicKey x448EphemeralSecret
  let x448Ss ← P.x448.diffieHellman x448EphemeralSecret pk.x448
  let (sntrupSs, sntrupCiphertext) ← P.sntrup.encapsulate pk.sntrup sntrup
  pure (⟨x448Ss, sntrupSs, sntrupCiphertext.val, x448Ephemeral.val, pk.toBytes.val⟩,
    ⟨x448Ephemeral, sntrupCiphertext⟩)

/-- `HybridKemPublicKey::encapsulate`. -/
def encapsulate (P : HandshakePrimitives) (pk : HybridKemPublicKey)
    (x448 : Result (FixedBytes 56)) (sntrup : P.sntrup.Coins) :
    Result (Bytes32 × HybridEncapsulation) := do
  let (input, encapsulation) ← pk.encapsulateInput P x448 sntrup
  pure (combineV2 P input, encapsulation)

variable {pk : HybridKemPublicKey} {x448 : Result (FixedBytes 56)} {sntrup : P.sntrup.Coins}
  {t : CombinerInput} {e : HybridEncapsulation} {key : Bytes32}

theorem encapsulateInput_eq_ok :
    pk.encapsulateInput P x448 sntrup = .ok (t, e) ↔
      ∃ secret x448Ss sntrupSs, X448Secret.generate x448 = .ok secret ∧
        P.x448.diffieHellman secret pk.x448 = .ok x448Ss ∧
        P.sntrup.encapsulate pk.sntrup sntrup = .ok (sntrupSs, e.sntrupCiphertext) ∧
        e.x448Ephemeral = P.x448.publicKey secret ∧
        t = ⟨x448Ss, sntrupSs, e.sntrupCiphertext.val, e.x448Ephemeral.val, pk.toBytes.val⟩ := by
  simp only [encapsulateInput, Except.bind_eq_ok, Except.pure_eq_ok, Prod.mk.injEq]
  constructor
  · intro hex
    rcases hex with ⟨secret, hsecret, x448Ss, hx448, ⟨sntrupSs, ct⟩, hsntrup, ht, he⟩
    subst he
    exact ⟨secret, x448Ss, sntrupSs, hsecret, hx448, hsntrup, rfl, ht.symm⟩
  · intro hex
    rcases hex with ⟨secret, x448Ss, sntrupSs, hsecret, hx448, hsntrup, heph, ht⟩
    refine ⟨secret, hsecret, x448Ss, hx448, _, hsntrup, ?_⟩
    rw [ht, ← heph]
    exact ⟨rfl, rfl⟩

theorem encapsulate_eq_ok :
    pk.encapsulate P x448 sntrup = .ok (key, e) ↔
      ∃ t, pk.encapsulateInput P x448 sntrup = .ok (t, e) ∧ combineV2 P t = key := by
  simp only [encapsulate, Except.bind_eq_ok, Except.pure_eq_ok, Prod.mk.injEq]
  constructor
  · intro hex
    rcases hex with ⟨⟨t, e'⟩, ht, hkey, he⟩
    subst he
    exact ⟨t, ht, hkey⟩
  · intro hex
    rcases hex with ⟨t, ht, hkey⟩
    exact ⟨(t, e), ht, hkey, rfl⟩

end HybridKemPublicKey

namespace HybridKemKeypair

/-- What `decapsulate` feeds to the combiner. -/
def decapsulateInput (kp : HybridKemKeypair P) (e : HybridEncapsulation) :
    Result CombinerInput := do
  let x448Ss ← P.x448.diffieHellman kp.x448Secret e.x448Ephemeral
  let sntrupSs ← P.sntrup.decapsulate kp.sntrupSecret e.sntrupCiphertext
  pure ⟨x448Ss, sntrupSs, e.sntrupCiphertext.val, e.x448Ephemeral.val, kp.publicKey.toBytes.val⟩

/-- `HybridKemKeypair::decapsulate`. -/
def decapsulate (kp : HybridKemKeypair P) (e : HybridEncapsulation) : Result Bytes32 := do
  let input ← kp.decapsulateInput e
  pure (combineV2 P input)

/-- The sntrup761 half comes out of key generation.  The other half can be any
clamped secret. -/
def Generated (kp : HybridKemKeypair P) : Prop :=
  ∃ coins, P.sntrup.generate coins = .ok kp.sntrupSecret

variable {kp : HybridKemKeypair P} {t : CombinerInput} {e : HybridEncapsulation} {key : Bytes32}

theorem generated_of_generate {x448 : Result (FixedBytes 56)} {sntrup : P.sntrup.Coins}
    (h : generate P x448 sntrup = .ok kp) : kp.Generated := by
  simp only [generate, Except.bind_eq_ok, Except.pure_eq_ok] at h
  obtain ⟨_, _, secret, hsecret, rfl⟩ := h
  exact ⟨sntrup, hsecret⟩

theorem decapsulateInput_eq_ok :
    kp.decapsulateInput e = .ok t ↔
      ∃ x448Ss sntrupSs, P.x448.diffieHellman kp.x448Secret e.x448Ephemeral = .ok x448Ss ∧
        P.sntrup.decapsulate kp.sntrupSecret e.sntrupCiphertext = .ok sntrupSs ∧
        t = ⟨x448Ss, sntrupSs, e.sntrupCiphertext.val, e.x448Ephemeral.val,
          kp.publicKey.toBytes.val⟩ := by
  simp only [decapsulateInput, Except.bind_eq_ok, Except.pure_eq_ok]
  constructor
  · intro hex
    rcases hex with ⟨x448Ss, hx448, sntrupSs, hsntrup, ht⟩
    exact ⟨x448Ss, sntrupSs, hx448, hsntrup, ht.symm⟩
  · intro hex
    rcases hex with ⟨x448Ss, sntrupSs, hx448, hsntrup, ht⟩
    exact ⟨x448Ss, hx448, sntrupSs, hsntrup, ht.symm⟩

theorem decapsulate_eq_ok :
    kp.decapsulate e = .ok key ↔ ∃ t, kp.decapsulateInput e = .ok t ∧ combineV2 P t = key := by
  simp only [decapsulate, Except.bind_eq_ok, Except.pure_eq_ok]

/-- What is encapsulated to a generated key comes out of it, up to the hash. -/
theorem sntrup_decapsulate_of_encapsulate (hkem : P.sntrup.Correct) (hkp : kp.Generated)
    {coins : P.sntrup.Coins} {ss : Bytes32} {ct : FixedBytes 1039}
    (h : P.sntrup.encapsulate kp.publicKey.sntrup coins = .ok (ss, ct)) :
    P.sntrup.decapsulate kp.sntrupSecret ct = .ok ss := by
  simp only [KemScheme.encapsulate, Except.bind_eq_ok, Except.pure_eq_ok, Prod.mk.injEq] at h
  obtain ⟨⟨rHash, _⟩, hencrypt, hss, rfl⟩ := h
  rw [kp.publicKey_eq] at hencrypt
  obtain ⟨_, hgen⟩ := hkp
  rw [KemScheme.decapsulate, hkem.decrypt_encrypt hgen hencrypt]
  exact congrArg Except.ok hss

/-- The owner of the key feeds the tuple that the sender fed. -/
theorem decapsulateInput_of_encapsulateInput (hcurve : P.x448.Rfc7748)
    (hkem : P.sntrup.Correct) (hkp : kp.Generated) {x448 : Result (FixedBytes 56)}
    {sntrup : P.sntrup.Coins} (h : kp.publicKey.encapsulateInput P x448 sntrup = .ok (t, e)) :
    kp.decapsulateInput e = .ok t := by
  obtain ⟨secret, x448Ss, sntrupSs, _, hdh, hss, heph, ht⟩ :=
    HybridKemPublicKey.encapsulateInput_eq_ok.mp h
  have hshared : P.x448.diffieHellman kp.x448Secret e.x448Ephemeral = .ok x448Ss := by
    rw [kp.publicKey_eq] at hdh
    rw [heph]
    exact MontgomeryCurve.diffieHellman_comm hcurve hdh
  exact decapsulateInput_eq_ok.mpr
    ⟨x448Ss, sntrupSs, hshared, sntrup_decapsulate_of_encapsulate hkem hkp hss, ht⟩

/-- And gets the same key. -/
theorem decapsulate_of_encapsulate (hcurve : P.x448.Rfc7748) (hkem : P.sntrup.Correct)
    (hkp : kp.Generated) {x448 : Result (FixedBytes 56)} {sntrup : P.sntrup.Coins}
    (h : kp.publicKey.encapsulate P x448 sntrup = .ok (key, e)) : kp.decapsulate e = .ok key := by
  obtain ⟨t, ht, hkey⟩ := HybridKemPublicKey.encapsulate_eq_ok.mp h
  exact decapsulate_eq_ok.mpr
    ⟨t, decapsulateInput_of_encapsulateInput hcurve hkem hkp ht, hkey⟩

end HybridKemKeypair

/-! ## Transcripts -/

/-- One of the two sides feeds `t` to the combiner, for a public key and an
encapsulation. -/
inductive Feeds (P : HandshakePrimitives) :
    HybridKemPublicKey → HybridEncapsulation → CombinerInput → Prop
  | encapsulated {pk x448 sntrup t e} :
    HybridKemPublicKey.encapsulateInput P pk x448 sntrup = .ok (t, e) → Feeds P pk e t
  | decapsulated {e t} {kp : HybridKemKeypair P} :
    kp.decapsulateInput e = .ok t → Feeds P kp.publicKey e t

/-- Either side feeds the public key and the encapsulation. -/
theorem Feeds.transcript_eq {pk : HybridKemPublicKey} {e : HybridEncapsulation}
    {t : CombinerInput} (h : Feeds P pk e t) :
    t.ctSntrup = e.sntrupCiphertext.val ∧ t.x448Eph = e.x448Ephemeral.val ∧
      t.pkHybrid = pk.toBytes.val := by
  cases h with
  | encapsulated h =>
    obtain ⟨_, _, _, _, _, _, _, rfl⟩ := HybridKemPublicKey.encapsulateInput_eq_ok.mp h
    exact ⟨rfl, rfl, rfl⟩
  | decapsulated h =>
    obtain ⟨_, _, _, _, rfl⟩ := HybridKemKeypair.decapsulateInput_eq_ok.mp h
    exact ⟨rfl, rfl, rfl⟩

/-- Equal tuples are of one transcript. -/
theorem Feeds.unique {pk pk' : HybridKemPublicKey} {e e' : HybridEncapsulation}
    {t : CombinerInput} (h : Feeds P pk e t) (h' : Feeds P pk' e' t) : e = e' ∧ pk = pk' := by
  obtain ⟨hct, heph, hpk⟩ := h.transcript_eq
  obtain ⟨hct', heph', hpk'⟩ := h'.transcript_eq
  refine ⟨?_, HybridKemPublicKey.toBytes_inj (Subtype.ext (hpk.symm.trans hpk'))⟩
  cases e
  cases e'
  rw [HybridEncapsulation.mk.injEq]
  exact ⟨Subtype.ext (heph.symm.trans heph'), Subtype.ext (hct.symm.trans hct')⟩

/-- The combiner determines the tuple, both sides feed the same tuple and get the same
key, and one key is of one encapsulation and public key. -/
theorem combiner_binding (hcurve : P.x448.Rfc7748) (hkem : P.sntrup.Correct) :
    (∀ t t' : CombinerInput, t.NoCollision P t' → combineV2 P t = combineV2 P t' → t = t') ∧
    (∀ (kp : HybridKemKeypair P) x448 sntrup t e, kp.Generated →
      kp.publicKey.encapsulateInput P x448 sntrup = .ok (t, e) → kp.decapsulateInput e = .ok t) ∧
    (∀ (kp : HybridKemKeypair P) x448 sntrup key e, kp.Generated →
      kp.publicKey.encapsulate P x448 sntrup = .ok (key, e) → kp.decapsulate e = .ok key) ∧
    ∀ pk pk' e e' t t', Feeds P pk e t → Feeds P pk' e' t' → t.NoCollision P t' →
      combineV2 P t = combineV2 P t' → e = e' ∧ pk = pk' := by
  refine ⟨?_, ?_, ?_, ?_⟩
  · intro t t' hfree h
    exact combineV2_inj hfree h
  · intro kp x448 sntrup t e hkp h
    exact HybridKemKeypair.decapsulateInput_of_encapsulateInput hcurve hkem hkp h
  · intro kp x448 sntrup key e hkp h
    exact HybridKemKeypair.decapsulate_of_encapsulate hcurve hkem hkp h
  · intro pk pk' e e' t t' h h' hfree hkey
    have ht := combineV2_inj hfree hkey
    subst ht
    exact h.unique h'

/-! ## A sample run -/

section Sample

/-- The curve of the concrete runs with the code of sntrup761. -/
def sampleHybridKem : HandshakePrimitives :=
  { samplePrimitives additiveCurve with
    sntrup := Sntrup.scheme Sntrup.sampleSha512 Sntrup.sampleSamplers }

theorem sampleHybridKem_correct : sampleHybridKem.sntrup.Correct :=
  Sntrup.scheme_correct _ Sntrup.sampleSamplers_lawful

/-- The draw of an X448 secret that is filled with one byte. -/
def sampleDraw (b : UInt8) : Result (FixedBytes 56) := .ok (Hybrid.filled 56 b)

/-- The secret of that draw. -/
def sampleSecret (b : UInt8) : X448Secret :=
  ⟨Rfc7748.clamp (Hybrid.filled 56 b), clamp_clamp _⟩

theorem sampleHybridKem_generates :
    ∃ kp, HybridKemKeypair.generate sampleHybridKem (sampleDraw 1) () = .ok kp ∧
      kp.publicKey.x448 = additiveCurve.publicKey (sampleSecret 1) := by
  obtain ⟨sk, hsk⟩ := Sntrup.sample_generates Sntrup.sampleSha512
  have hgen : sampleHybridKem.sntrup.generate () = .ok sk := Except.map_eq_ok.mpr ⟨_, hsk, rfl⟩
  refine ⟨⟨_, sampleSecret 1, sk, rfl⟩, ?_, rfl⟩
  exact Except.bind_eq_ok.mpr ⟨_, rfl, Except.bind_eq_ok.mpr ⟨sk, hgen, rfl⟩⟩

theorem sampleHybridKem_encapsulates {pk : HybridKemPublicKey}
    (hpk : pk.x448 = additiveCurve.publicKey (sampleSecret 1)) :
    ∃ key e, pk.encapsulate sampleHybridKem (sampleDraw 2) () = .ok (key, e) := by
  have hdh : ∃ ss, additiveCurve.diffieHellman (sampleSecret 2) pk.x448 = .ok ss := by
    rw [hpk]
    refine ⟨_, MontgomeryCurve.diffieHellman_eq_ok.mpr ⟨?_, ?_, rfl⟩⟩
    · decide +kernel
    · decide +kernel
  obtain ⟨ss, hss⟩ := hdh
  have hshort : Sntrup.sampleShort Sntrup.sampleSamplers Sntrup.maxKeygenAttempts ()
      = .ok (Sntrup.samplePoly, ()) :=
    Sntrup.sampleShort_eq_ok rfl Sntrup.samplePoly_abs_le Sntrup.weight_samplePoly
  have hencrypt : sampleHybridKem.sntrup.encrypt pk.sntrup ()
      = .ok (Sntrup.hashAndCiphertext Sntrup.sampleSha512 pk.sntrup Sntrup.samplePoly) :=
    Except.map_eq_ok.mpr ⟨_, hshort, rfl⟩
  have hencapsulate : ∃ out, sampleHybridKem.sntrup.encapsulate pk.sntrup () = .ok out :=
    ⟨_, Except.bind_eq_ok.mpr ⟨_, hencrypt, rfl⟩⟩
  obtain ⟨⟨sntrupSs, ct⟩, hout⟩ := hencapsulate
  exact ⟨_, ⟨_, ct⟩, HybridKemPublicKey.encapsulate_eq_ok.mpr
    ⟨_, HybridKemPublicKey.encapsulateInput_eq_ok.mpr
      ⟨sampleSecret 2, ss, sntrupSs, rfl, hss, hout, rfl, rfl⟩, rfl⟩⟩

/-- Both sides of a sample encapsulation get one key. -/
theorem combiner_binding_sample :
    ∃ kp key e, HybridKemKeypair.generate sampleHybridKem (sampleDraw 1) () = .ok kp ∧
      kp.publicKey.encapsulate sampleHybridKem (sampleDraw 2) () = .ok (key, e) ∧
        kp.decapsulate e = .ok key := by
  obtain ⟨_, _, hagree, _⟩ :=
    combiner_binding (P := sampleHybridKem) additiveCurve_rfc7748 sampleHybridKem_correct
  obtain ⟨kp, hkp, hpk⟩ := sampleHybridKem_generates
  obtain ⟨key, e, he⟩ := sampleHybridKem_encapsulates hpk
  refine ⟨kp, key, e, hkp, he, ?_⟩
  exact hagree kp _ _ key e (HybridKemKeypair.generated_of_generate hkp) he

end Sample

end Trelis.X3dh
