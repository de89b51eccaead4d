import Trelis.Cocoa.WireCodec
import Trelis.Cocoa.WireFormat

/-!
# What a signature covers

The bytes under the signatures of commits and welcomes determine what was
signed: the path, the content of the commit, the welcome.

`add.rs`, `update.rs` and `remove.rs` each keep a private `serialise_path_updates`.
The three loops are here as they stand, and `serialisePathUpdates` of
`Cocoa/Commit.lean` is what all of them compute (`serialisePathUpdates_copies`).
A welcome is signed over `welcomeSignBody`, which frames its two byte strings
with their lengths.  That is all of a welcome, but not all of a commit
(`one_signature_two_adds`).
-/

namespace Trelis.Cocoa

variable {P : Primitives}

/-! ## The three copies -/

/-- `serialise_path_updates` of `add.rs`. -/
def Add.serialisePathUpdates (updates : List PathUpdate) : Bytes := Id.run do
  let mut bytes : Bytes := []
  for update in updates do
    bytes := bytes ++ leBytes 4 update.nodeIndex.depth
    bytes := bytes ++ leBytes 4 update.nodeIndex.position
    let pkLen := update.newPublicKey.length
    bytes := bytes ++ leBytes 4 pkLen
    bytes := bytes ++ update.newPublicKey
    bytes := bytes ++ update.parentHash.1.val
    bytes := bytes ++ update.parentHash.2.val
    let seedCount := update.encryptedSeeds.length
    bytes := bytes ++ leBytes 4 seedCount
    for seed in update.encryptedSeeds do
      bytes := bytes ++ leBytes 4 seed.recipientPosition
      let encLen := seed.encapsulation.length
      bytes := bytes ++ leBytes 4 encLen
      bytes := bytes ++ seed.encapsulation
      let ctLen := seed.ciphertext.length
      bytes := bytes ++ leBytes 4 ctLen
      bytes := bytes ++ seed.ciphertext
  return bytes

/-- `serialise_path_updates` of `update.rs`. -/
def Update.serialisePathUpdates (updates : List PathUpdate) : Bytes := Id.run do
  let mut bytes : Bytes := []
  for update in updates do
    -- Node index
    bytes := bytes ++ leBytes 4 update.nodeIndex.depth
    bytes := bytes ++ leBytes 4 update.nodeIndex.position
    -- Public key length and data
    let pkLen := update.newPublicKey.length
    bytes := bytes ++ leBytes 4 pkLen
    bytes := bytes ++ update.newPublicKey
    -- Parent hash
    bytes := bytes ++ update.parentHash.1.val
    bytes := bytes ++ update.parentHash.2.val
    -- Encrypted seeds
    let seedCount := update.encryptedSeeds.length
    bytes := bytes ++ leBytes 4 seedCount
    for seed in update.encryptedSeeds do
      bytes := bytes ++ leBytes 4 seed.recipientPosition
      let encLen := seed.encapsulation.length
      bytes := bytes ++ leBytes 4 encLen
      bytes := bytes ++ seed.encapsulation
      let ctLen := seed.ciphertext.length
      bytes := bytes ++ leBytes 4 ctLen
      bytes := bytes ++ seed.ciphertext
  return bytes

/-- `serialise_path_updates` of `remove.rs`. -/
def Remove.serialisePathUpdates (updates : List PathUpdate) : Bytes := Id.run do
  let mut bytes : Bytes := []
  for update in updates do
    bytes := bytes ++ leBytes 4 update.nodeIndex.depth
    bytes := bytes ++ leBytes 4 update.nodeIndex.position
    let pkLen := update.newPublicKey.length
    bytes := bytes ++ leBytes 4 pkLen
    bytes := bytes ++ update.newPublicKey
    bytes := bytes ++ update.parentHash.1.val
    bytes := bytes ++ update.parentHash.2.val
    let seedCount := update.encryptedSeeds.length
    bytes := bytes ++ leBytes 4 seedCount
    for seed in update.encryptedSeeds do
      bytes := bytes ++ leBytes 4 seed.recipientPosition
      let encLen := seed.encapsulation.length
      bytes := bytes ++ leBytes 4 encLen
      bytes := bytes ++ seed.encapsulation
      let ctLen := seed.ciphertext.length
      bytes := bytes ++ leBytes 4 ctLen
      bytes := bytes ++ seed.ciphertext
  return bytes

/-- A loop that appends to its accumulator. -/
theorem foldl_append_eq_flatMap {α : Type} {f : Bytes → α → Bytes} {g : α → Bytes}
    (h : ∀ bytes x, f bytes x = bytes ++ g x) (xs : List α) (bytes : Bytes) :
    xs.foldl f bytes = bytes ++ xs.flatMap g := by
  induction xs generalizing bytes with
  | nil => simp
  | cons x xs ih => rw [List.foldl_cons, ih, h, List.flatMap_cons, List.append_assoc]

theorem Add.serialisePathUpdates_eq (updates : List PathUpdate) :
    Add.serialisePathUpdates updates = Cocoa.serialisePathUpdates updates := by
  have hseed : ∀ (seeds : List EncryptedSeed) (bytes : Bytes),
      seeds.foldl (fun bytes seed => bytes ++ leBytes 4 seed.recipientPosition ++
        leBytes 4 seed.encapsulation.length ++ seed.encapsulation ++
        leBytes 4 seed.ciphertext.length ++ seed.ciphertext) bytes =
      bytes ++ seeds.flatMap EncryptedSeed.serialise :=
    fun seeds bytes => foldl_append_eq_flatMap
      (fun bytes seed => by simp only [EncryptedSeed.serialise, List.append_assoc]) seeds bytes
  simp only [Add.serialisePathUpdates, List.forIn_pure_yield_eq_foldl, pure_bind,
    Id.run_pure, hseed]
  rw [foldl_append_eq_flatMap (g := PathUpdate.serialise), List.nil_append]
  · rfl
  · intro bytes update
    simp only [PathUpdate.serialise, List.append_assoc]

/-- The three copies write the same bytes. -/
theorem serialisePathUpdates_copies (updates : List PathUpdate) :
    Add.serialisePathUpdates updates = Cocoa.serialisePathUpdates updates ∧
      Update.serialisePathUpdates updates = Cocoa.serialisePathUpdates updates ∧
      Remove.serialisePathUpdates updates = Cocoa.serialisePathUpdates updates :=
  ⟨Add.serialisePathUpdates_eq updates, Add.serialisePathUpdates_eq updates,
    Add.serialisePathUpdates_eq updates⟩

/-! ## The signed part of a welcome -/

/-- The integers of a welcome hold values of their types, and the lengths of its
two byte strings fit in four bytes. -/
structure Welcome.FieldsFit (w : Welcome P) : Prop where
  epoch : w.epoch < 256 ^ 8
  leafPosition : w.leafPosition < 256 ^ 4
  treeDepth : w.treeDepth < 256 ^ 4
  memberCount : w.memberCount < 256 ^ 4
  encapsulation : w.encapsulation.length < 256 ^ 4
  encryptedInfo : w.encryptedInfo.length < 256 ^ 4

/-- The bytes under the signature of a welcome. -/
def Welcome.signBody (w : Welcome P) : Bytes :=
  welcomeSignBody w.groupId w.epoch w.leafPosition w.treeDepth w.memberCount w.encapsulation
    w.encryptedInfo

theorem lengthPrefix_of_fits {b : Bytes} (h : b.length < 256 ^ 4) :
    lengthPrefix b = leBytes 4 b.length := by
  rw [lengthPrefix, Nat.min_eq_left (by omega)]

/-- Two welcomes that are signed over the same bytes differ at most in the
signature. -/
theorem Welcome.signBody_inj {w w' : Welcome P} (hw : w.FieldsFit) (hw' : w'.FieldsFit)
    (h : w.signBody = w'.signBody) : { w with signature := w'.signature } = w' := by
  simp only [signBody, welcomeSignBody, lengthPrefix_of_fits hw.encapsulation,
    lengthPrefix_of_fits hw.encryptedInfo, lengthPrefix_of_fits hw'.encapsulation,
    lengthPrefix_of_fits hw'.encryptedInfo, List.append_assoc] at h
  obtain ⟨hgroup, h⟩ := SelfDelimiting.array 32 _ _ trivial trivial _ _ h
  obtain ⟨hepoch, h⟩ := SelfDelimiting.word 8 _ _ hw.epoch hw'.epoch _ _ h
  obtain ⟨hleaf, h⟩ := SelfDelimiting.word 4 _ _ hw.leafPosition hw'.leafPosition _ _ h
  obtain ⟨hdepth, h⟩ := SelfDelimiting.word 4 _ _ hw.treeDepth hw'.treeDepth _ _ h
  obtain ⟨hcount, h⟩ := SelfDelimiting.word 4 _ _ hw.memberCount hw'.memberCount _ _ h
  obtain ⟨henc, hinfo⟩ := SelfDelimiting.sized 4 _ _ hw.encapsulation hw'.encapsulation _ _
    (by simpa only [List.append_assoc] using h)
  have hinfo := (SelfDelimiting.sized 4).inj hw.encryptedInfo hw'.encryptedInfo hinfo
  cases w
  cases w'
  simp_all

/-! ## Signed bytes determine the message -/

/-- The three serialisers agree on every path, paths with the same bytes are the
same path, contents of commits with the same bytes are the same content, and
welcomes that are signed over the same bytes have the same contents. -/
theorem signed_bytes_determine_contents (us vs : List PathUpdate) (c c' : CommitContent)
    (w w' : Welcome P) :
    (Add.serialisePathUpdates us = Update.serialisePathUpdates us ∧
      Update.serialisePathUpdates us = Remove.serialisePathUpdates us) ∧
    ((∀ pu ∈ us, pu.Fits) → (∀ pu ∈ vs, pu.Fits) →
      Add.serialisePathUpdates us = Add.serialisePathUpdates vs → us = vs) ∧
    (c.Fits → c'.Fits → c.toBytes = c'.toBytes → c = c') ∧
    (w.FieldsFit → w'.FieldsFit → w.signBody = w'.signBody →
      { w with signature := w'.signature } = w') := by
  obtain ⟨hadd, hupdate, hremove⟩ := serialisePathUpdates_copies us
  refine ⟨⟨hadd.trans hupdate.symm, hupdate.trans hremove.symm⟩, ?_, CommitContent.toBytes_inj,
    Welcome.signBody_inj⟩
  intro hus hvs h
  rw [hadd, (serialisePathUpdates_copies vs).1] at h
  exact serialisePathUpdates_inj hus hvs h

section Sample

open Symbolic

/-- A path of one level with one recipient. -/
def cutPath (encapsulation ciphertext : Bytes) : List PathUpdate :=
  [⟨⟨1, 0⟩, [1, 2, 3], (zero32, zero32), [⟨0, encapsulation, ciphertext⟩]⟩]

/-- A welcome to the second leaf of a group of two. -/
def cutWelcome (encapsulation encryptedInfo : Bytes) : Welcome symbolic :=
  { groupId := word 60, epoch := 1, leafPosition := 1, treeDepth := 1, memberCount := 2
    encryptedInfo, encapsulation, signature := (⟨word 50, [], []⟩ : Signature) }

theorem cutPath_fits {encapsulation ciphertext : Bytes} (henc : encapsulation.length < 256 ^ 4)
    (hct : ciphertext.length < 256 ^ 4) : ∀ pu ∈ cutPath encapsulation ciphertext, pu.Fits := by
  intro pu hpu
  rw [List.mem_singleton.mp hpu]
  have hsmall : ∀ n, n < 4 → n < 256 ^ 4 := fun n hn => by omega
  refine ⟨hsmall 1 (by omega), hsmall 0 (by omega), hsmall 3 (by omega), hsmall 1 (by omega), ?_⟩
  intro e he
  rw [List.mem_singleton.mp he]
  exact ⟨hsmall 0 (by omega), henc, hct⟩

/-- A byte that moves from one field to the next changes the signed bytes, and so
does the kind of a commit. -/
theorem signed_bytes_determine_cut :
    Add.serialisePathUpdates (cutPath [4, 5] [6]) ≠ Add.serialisePathUpdates (cutPath [4] [5, 6]) ∧
      ((addWithoutPath 3).content (word 50)).toBytes ≠
        { (addWithoutPath 3).content (word 50) with commitType := .remove }.toBytes ∧
      (cutWelcome [4, 5] [6]).signBody ≠ (cutWelcome [4] [5, 6]).signBody := by
  have h := signed_bytes_determine_contents (cutPath [4, 5] [6]) (cutPath [4] [5, 6])
    ((addWithoutPath 3).content (word 50))
    { (addWithoutPath 3).content (word 50) with commitType := .remove }
    (cutWelcome [4, 5] [6]) (cutWelcome [4] [5, 6])
  obtain ⟨_, hpath, hcontent, hwelcome⟩ := h
  refine ⟨?_, ?_, ?_⟩
  · intro hbytes
    have heq := hpath (cutPath_fits (by decide) (by decide)) (cutPath_fits (by decide) (by decide))
      hbytes
    exact absurd heq (by decide)
  · intro hbytes
    have heq := hcontent ⟨by decide, by decide⟩ ⟨by decide, by decide⟩ hbytes
    exact absurd (congrArg CommitContent.commitType heq)
      (show CommitType.add ≠ CommitType.remove by decide)
  · intro hbytes
    have hfits : ∀ {a b : Bytes}, a.length < 256 ^ 4 → b.length < 256 ^ 4 →
        (cutWelcome a b).FieldsFit := by
      intro a b ha hb
      have hsmall : ∀ n, n < 4 → n < 256 ^ 4 := fun n hn => by omega
      exact ⟨show 1 < 256 ^ 8 by omega, hsmall 1 (by omega), hsmall 1 (by omega),
        hsmall 2 (by omega), ha, hb⟩
    have heq := hwelcome (hfits (by decide) (by decide)) (hfits (by decide) (by decide)) hbytes
    exact absurd (congrArg Welcome.encapsulation heq)
      (show ([4, 5] : Bytes) ≠ [4] by decide)

/-- Two commits that add a member at different leaves, with one content and one
signature, which verifies. -/
theorem one_signature_two_adds :
    ∃ c c' : AddCommit symbolic, c ≠ c' ∧
      (c.content (word 50)).toBytes = (c'.content (word 50)).toBytes ∧
      c.signature = c'.signature ∧
      verifyCommitSignature (P := symbolic) (word 50) (c.content (word 50)) c.signature = .ok () ∧
      verifyCommitSignature (P := symbolic) (word 50) (c'.content (word 50)) c'.signature =
        .ok () := by
  refine ⟨addWithoutPath 3, addWithoutPath 4, ?_, rfl, rfl, if_pos rfl, if_pos rfl⟩
  intro heq
  exact absurd (congrArg AddCommit.newLeafPosition heq) (show 3 ≠ 4 by decide)

end Sample

end Trelis.Cocoa
