import Mathlib.Algebra.Order.BigOperators.Group.List
import Trelis.Cocoa.Accept

/-!
# The bytes under the path hash

`serialisePathUpdates` writes a path as length-prefixed fields.  The prefixes
have four bytes, so that two paths with the same bytes are the same path once
their lengths fit (`serialisePathUpdates_inj`).  The size gate and the parser
see to that in every commit that a receiver accepts (`PathUpdate.fits_of_accepted`).
-/

namespace Trelis.Cocoa

variable {P : Primitives}

/-! ## Fields that fit -/

/-- The position and the lengths of an encrypted seed fit in four bytes. -/
structure EncryptedSeed.Fits (e : EncryptedSeed) : Prop where
  position : e.recipientPosition < 256 ^ 4
  encapsulation : e.encapsulation.length < 256 ^ 4
  ciphertext : e.ciphertext.length < 256 ^ 4

/-- The index and the lengths of a path update fit in four bytes. -/
structure PathUpdate.Fits (pu : PathUpdate) : Prop where
  depth : pu.nodeIndex.depth < 256 ^ 4
  position : pu.nodeIndex.position < 256 ^ 4
  key : pu.newPublicKey.length < 256 ^ 4
  seeds_length : pu.encryptedSeeds.length < 256 ^ 4
  seeds : ∀ e ∈ pu.encryptedSeeds, e.Fits

/-- The `u32` fields of a path update hold `u32` values. -/
structure PathUpdate.InRange (pu : PathUpdate) : Prop where
  depth : pu.nodeIndex.depth < 2 ^ 32
  position : pu.nodeIndex.position < 2 ^ 32
  recipients : ∀ e ∈ pu.encryptedSeeds, e.recipientPosition < 2 ^ 32

/-! ## Injectivity -/

theorem EncryptedSeed.selfDelimiting :
    SelfDelimiting EncryptedSeed.Fits EncryptedSeed.serialise := by
  have hparts : SelfDelimiting
      (fun p : Bytes × Bytes => p.1.length < 256 ^ 4 ∧ p.2.length < 256 ^ 4)
      (fun p => leBytes 4 p.1.length ++ p.1 ++ (leBytes 4 p.2.length ++ p.2)) :=
    (SelfDelimiting.sized 4).append (SelfDelimiting.sized 4) (fun _ h => h)
      fun _ _ h h' => Prod.ext h h'
  apply (SelfDelimiting.word 4).append (f := recipientPosition)
    (g := fun e => (e.encapsulation, e.ciphertext)) hparts
  · intro e h
    exact ⟨h.position, h.encapsulation, h.ciphertext⟩
  · intro a b hpos hrest
    cases a
    cases b
    simp_all

theorem PathUpdate.selfDelimiting : SelfDelimiting PathUpdate.Fits PathUpdate.serialise := by
  have hseeds : SelfDelimiting
      (fun es : List EncryptedSeed => es.length < 256 ^ 4 ∧ ∀ e ∈ es, e.Fits)
      (fun es => leBytes 4 es.length ++ es.flatMap EncryptedSeed.serialise) :=
    EncryptedSeed.selfDelimiting.counted 4
  have hsecond : SelfDelimiting
      (fun p : Bytes32 × List EncryptedSeed => p.2.length < 256 ^ 4 ∧ ∀ e ∈ p.2, e.Fits)
      (fun p => p.1.val ++ (leBytes 4 p.2.length ++ p.2.flatMap EncryptedSeed.serialise)) :=
    (SelfDelimiting.array 32).append hseeds (fun _ h => ⟨trivial, h⟩) fun _ _ h h' => Prod.ext h h'
  have hfirst : SelfDelimiting
      (fun p : Bytes32 × Bytes32 × List EncryptedSeed =>
        p.2.2.length < 256 ^ 4 ∧ ∀ e ∈ p.2.2, e.Fits)
      (fun p => p.1.val ++ (p.2.1.val ++
        (leBytes 4 p.2.2.length ++ p.2.2.flatMap EncryptedSeed.serialise))) :=
    (SelfDelimiting.array 32).append hsecond (fun _ h => ⟨trivial, h⟩)
      fun _ _ h h' => Prod.ext h h'
  have hkey : SelfDelimiting
      (fun p : Bytes × Bytes32 × Bytes32 × List EncryptedSeed =>
        p.1.length < 256 ^ 4 ∧ p.2.2.2.length < 256 ^ 4 ∧ ∀ e ∈ p.2.2.2, e.Fits)
      (fun p => leBytes 4 p.1.length ++ p.1 ++ (p.2.1.val ++ (p.2.2.1.val ++
        (leBytes 4 p.2.2.2.length ++ p.2.2.2.flatMap EncryptedSeed.serialise)))) :=
    (SelfDelimiting.sized 4).append hfirst (fun _ h => h) fun _ _ h h' => Prod.ext h h'
  have hposition : SelfDelimiting
      (fun p : Nat × Bytes × Bytes32 × Bytes32 × List EncryptedSeed =>
        p.1 < 256 ^ 4 ∧ p.2.1.length < 256 ^ 4 ∧ p.2.2.2.2.length < 256 ^ 4 ∧
          ∀ e ∈ p.2.2.2.2, e.Fits)
      (fun p => leBytes 4 p.1 ++ (leBytes 4 p.2.1.length ++ p.2.1 ++ (p.2.2.1.val ++
        (p.2.2.2.1.val ++ (leBytes 4 p.2.2.2.2.length ++
          p.2.2.2.2.flatMap EncryptedSeed.serialise))))) :=
    (SelfDelimiting.word 4).append hkey (fun _ h => h) fun _ _ h h' => Prod.ext h h'
  apply (SelfDelimiting.word 4).append (f := fun pu : PathUpdate => pu.nodeIndex.depth)
    (g := fun pu : PathUpdate => (pu.nodeIndex.position, pu.newPublicKey, pu.parentHash.1,
      pu.parentHash.2, pu.encryptedSeeds)) hposition
  · intro pu h
    exact ⟨h.depth, h.position, h.key, h.seeds_length, h.seeds⟩
  · intro a b hdepth hrest
    rcases a with ⟨⟨_, _⟩, _, ⟨_, _⟩, _⟩
    rcases b with ⟨⟨_, _⟩, _, ⟨_, _⟩, _⟩
    simp_all

/-- Two paths that fit and have the same bytes are the same path. -/
theorem serialisePathUpdates_inj {us vs : List PathUpdate} (hu : ∀ pu ∈ us, pu.Fits)
    (hv : ∀ pu ∈ vs, pu.Fits) (h : serialisePathUpdates us = serialisePathUpdates vs) :
    us = vs := by
  apply PathUpdate.selfDelimiting.flatMap_inj _ hu hv h
  intro pu _ hempty
  have hlen := congrArg List.length hempty
  simp [PathUpdate.serialise] at hlen

/-! ## Accepted paths fit -/

/-- What one path update adds to the measured size of a path. -/
def PathUpdate.wireLen (pu : PathUpdate) : Nat :=
  pu.newPublicKey.length +
    (pu.encryptedSeeds.map fun e => e.encapsulation.length + e.ciphertext.length).sum

private theorem foldl_seeds (es : List EncryptedSeed) (n : Nat) :
    es.foldl (fun total e => total + e.encapsulation.length + e.ciphertext.length) n =
      n + (es.map fun e => e.encapsulation.length + e.ciphertext.length).sum := by
  induction es generalizing n with
  | nil => rfl
  | cons e es ih =>
    rw [List.foldl_cons, ih, List.map_cons, List.sum_cons]
    omega

/-- The measured size of a path is the sum over its updates. -/
theorem pathUpdatesWireLen_eq (us : List PathUpdate) :
    pathUpdatesWireLen us = (us.map PathUpdate.wireLen).sum := by
  have hfold : ∀ (us : List PathUpdate) (n : Nat),
      us.foldl (fun total update => update.encryptedSeeds.foldl
        (fun total seed => total + seed.encapsulation.length + seed.ciphertext.length)
        (total + update.newPublicKey.length)) n = n + (us.map PathUpdate.wireLen).sum := by
    intro us
    induction us with
    | nil => intro n; rfl
    | cons u us ih =>
      intro n
      rw [List.foldl_cons, ih, foldl_seeds, List.map_cons, List.sum_cons, PathUpdate.wireLen]
      omega
  rw [pathUpdatesWireLen, hfold, Nat.zero_add]

/-- The ciphertexts of a commit that parses have the size of an encrypted
seed. -/
theorem ciphertext_length_of_converted {pathUpdates : List PathUpdate}
    {nodeUpdates : List (NodeUpdate P)}
    (h : convertPathUpdatesToNodeUpdates P pathUpdates = .ok nodeUpdates) {pu : PathUpdate}
    (hpu : pu ∈ pathUpdates) {e : EncryptedSeed} (he : e ∈ pu.encryptedSeeds) :
    e.ciphertext.length = encryptedSeedCiphertextSize := by
  have hmem : ∀ {α β : Type} {f : α → Result β} {xs : List α} {ys : List β},
      xs.mapM f = .ok ys → ∀ x ∈ xs, ∃ y, f x = .ok y := by
    intro α β f xs ys hmap
    rw [Except.mapM_eq_ok] at hmap
    induction hmap with
    | nil => simp
    | cons hxy _ ih =>
      intro x hx
      rcases List.mem_cons.mp hx with rfl | hx
      · exact ⟨_, hxy⟩
      · exact ih x hx
  rcases hmem h pu hpu with ⟨u, hu⟩
  simp only [convertPathUpdate, Except.bind_eq_ok] at hu
  rcases hu with ⟨_, _, seeds, hseeds, _⟩
  rcases hmem hseeds e he with ⟨s, hs⟩
  simp only [convertEncryptedSeed, Except.bind_eq_ok, toArray_eq_ok] at hs
  rcases hs with ⟨_, _, ct, hct, _⟩
  rw [hct]
  exact ct.property

/-- The path of a commit that passes the size gate and parses fits. -/
theorem PathUpdate.fits_of_accepted {pathUpdates : List PathUpdate}
    {nodeUpdates : List (NodeUpdate P)} (hrange : ∀ pu ∈ pathUpdates, pu.InRange)
    (hsize : pathUpdatesWireLen pathUpdates ≤ maxMessageSize)
    (h : convertPathUpdatesToNodeUpdates P pathUpdates = .ok nodeUpdates) :
    ∀ pu ∈ pathUpdates, pu.Fits := by
  intro pu hpu
  have hbound : maxMessageSize < 256 ^ 4 := by decide
  have hpow : (2 : Nat) ^ 32 = 256 ^ 4 := by decide
  have hle : pu.wireLen ≤ maxMessageSize := by
    rw [pathUpdatesWireLen_eq] at hsize
    exact (List.single_le_sum (fun _ _ => Nat.zero_le _) _ (List.mem_map_of_mem hpu)).trans hsize
  have hseeds : (pu.encryptedSeeds.map fun e => e.encapsulation.length + e.ciphertext.length).sum ≤
      maxMessageSize := by
    rw [PathUpdate.wireLen] at hle
    omega
  have hseed : ∀ e ∈ pu.encryptedSeeds,
      e.encapsulation.length + e.ciphertext.length ≤ maxMessageSize := fun e he =>
    (List.single_le_sum (fun _ _ => Nat.zero_le _) _ (List.mem_map_of_mem he)).trans hseeds
  have hcount : pu.encryptedSeeds.length ≤ maxMessageSize := by
    have hone := List.length_le_sum_of_one_le
      (pu.encryptedSeeds.map fun e => e.encapsulation.length + e.ciphertext.length) (by
        intro n hn
        rcases List.mem_map.mp hn with ⟨e, he, rfl⟩
        rw [ciphertext_length_of_converted h hpu he, encryptedSeedCiphertextSize]
        omega)
    rw [List.length_map] at hone
    omega
  have hr := hrange pu hpu
  rw [PathUpdate.wireLen] at hle
  refine ⟨hpow ▸ hr.depth, hpow ▸ hr.position, by omega, by omega, ?_⟩
  intro e he
  have hlen := hseed e he
  exact ⟨hpow ▸ hr.recipients e he, by omega, by omega⟩

end Trelis.Cocoa
