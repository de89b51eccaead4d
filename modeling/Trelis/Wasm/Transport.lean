import Trelis.Cocoa.Operation
import Trelis.Cocoa.Welcome
import Trelis.Wasm.Sample

/-!
# Commits and welcomes as bytes

The codecs by which JavaScript carries commits and welcomes between members.

A commit is written without its path updates, and is read with none.  The
fields that are written come back, so a commit is carried faithfully exactly
when it has no path updates.  A welcome is written whole, with the lengths of
its two parts in 32-bit words.  The decoder reads the signature behind the
second part and stops, so a byte string that it accepts is the encoding of the
result exactly when nothing is behind the signature.
-/

namespace Trelis.Wasm

open Cocoa

variable {W : WirePrimitives}

/-! ## Commits -/

/-- `serialize_add_commit`. -/
def serializeAddCommit (commit : AddCommit W.toPrimitives) : Bytes :=
  [commit.groupId.val, commit.newMemberId.val, leBytes 4 commit.newLeafPosition,
    leBytes 8 commit.epoch, commit.roundHash.val, commit.confirmationTag.val,
    leBytes 4 commit.committerLeafPosition, (W.signatureToBytes commit.signature).val].flatten

/-- `deserialize_add_commit`. -/
def deserializeAddCommit (W : WirePrimitives) (bytes : Bytes) :
    Except JsError (AddCommit W.toPrimitives) :=
  if h : bytes.length < 32 + 32 + 4 + 8 + 32 + 32 + 4 then .error (.text "AddCommit too short")
  else do
    let signature ← debugError (W.signatureFromBytes (bytes.drop 144))
    pure
      { groupId := arrayAt 32 bytes 0 (by omega)
        newMemberId := arrayAt 32 bytes 32 (by omega)
        newLeafPosition := wordAt 4 bytes 64 (by omega)
        committerLeafPosition := wordAt 4 bytes 140 (by omega)
        epoch := wordAt 8 bytes 68 (by omega)
        pathUpdates := []
        signature
        roundHash := arrayAt 32 bytes 76 (by omega)
        confirmationTag := arrayAt 32 bytes 108 (by omega) }

/-- `serialize_update_commit`. -/
def serializeUpdateCommit (commit : UpdateCommit W.toPrimitives) : Bytes :=
  [commit.groupId.val, leBytes 4 commit.updaterLeafPosition, leBytes 8 commit.epoch,
    commit.roundHash.val, commit.confirmationTag.val,
    (W.signatureToBytes commit.signature).val].flatten

/-- `deserialize_update_commit`. -/
def deserializeUpdateCommit (W : WirePrimitives) (bytes : Bytes) :
    Except JsError (UpdateCommit W.toPrimitives) :=
  if h : bytes.length < 32 + 4 + 8 + 32 + 32 then .error (.text "UpdateCommit too short")
  else do
    let signature ← debugError (W.signatureFromBytes (bytes.drop 108))
    pure
      { groupId := arrayAt 32 bytes 0 (by omega)
        updaterLeafPosition := wordAt 4 bytes 32 (by omega)
        epoch := wordAt 8 bytes 36 (by omega)
        pathUpdates := []
        signature
        roundHash := arrayAt 32 bytes 44 (by omega)
        confirmationTag := arrayAt 32 bytes 76 (by omega) }

/-- `serialize_remove_commit`. -/
def serializeRemoveCommit (commit : RemoveCommit W.toPrimitives) : Bytes :=
  [commit.groupId.val, commit.removedMemberId.val, leBytes 4 commit.removedLeafPosition,
    leBytes 8 commit.epoch, commit.roundHash.val, commit.confirmationTag.val,
    leBytes 4 commit.committerLeafPosition, (W.signatureToBytes commit.signature).val].flatten

/-- `deserialize_remove_commit`. -/
def deserializeRemoveCommit (W : WirePrimitives) (bytes : Bytes) :
    Except JsError (RemoveCommit W.toPrimitives) :=
  if h : bytes.length < 32 + 32 + 4 + 8 + 32 + 32 + 4 then .error (.text "RemoveCommit too short")
  else do
    let signature ← debugError (W.signatureFromBytes (bytes.drop 144))
    pure
      { groupId := arrayAt 32 bytes 0 (by omega)
        removedMemberId := arrayAt 32 bytes 32 (by omega)
        removedLeafPosition := wordAt 4 bytes 64 (by omega)
        committerLeafPosition := wordAt 4 bytes 140 (by omega)
        epoch := wordAt 8 bytes 68 (by omega)
        pathUpdates := []
        signature
        roundHash := arrayAt 32 bytes 76 (by omega)
        confirmationTag := arrayAt 32 bytes 108 (by omega) }

/-- The encoder of the kind of commit. -/
def serializeCommit : Commit W.toPrimitives → Bytes
  | .add c => serializeAddCommit c
  | .update c => serializeUpdateCommit c
  | .remove c => serializeRemoveCommit c

/-- The decoder of the kind of commit. -/
def deserializeCommit (W : WirePrimitives) :
    CommitType → Bytes → Except JsError (Commit W.toPrimitives)
  | .add, bytes => .add <$> deserializeAddCommit W bytes
  | .update, bytes => .update <$> deserializeUpdateCommit W bytes
  | .remove, bytes => .remove <$> deserializeRemoveCommit W bytes

/-- The kind of a commit. -/
def commitType : Commit W.toPrimitives → CommitType
  | .add _ => .add
  | .update _ => .update
  | .remove _ => .remove

/-- The commit without its path updates. -/
def withoutPath : Commit W.toPrimitives → Commit W.toPrimitives
  | .add c => .add { c with pathUpdates := [] }
  | .update c => .update { c with pathUpdates := [] }
  | .remove c => .remove { c with pathUpdates := [] }

/-- The numbers of a commit are words of the types that the source gives
them. -/
def InWords : Commit W.toPrimitives → Prop
  | .add c => c.newLeafPosition < 2 ^ 32 ∧ c.committerLeafPosition < 2 ^ 32 ∧ c.epoch < 2 ^ 64
  | .update c => c.updaterLeafPosition < 2 ^ 32 ∧ c.epoch < 2 ^ 64
  | .remove c => c.removedLeafPosition < 2 ^ 32 ∧ c.committerLeafPosition < 2 ^ 32 ∧
      c.epoch < 2 ^ 64

theorem deserialize_serializeAddCommit (hsig : W.SignatureCodec) {c : AddCommit W.toPrimitives}
    (h : InWords (.add c)) :
    deserializeAddCommit W (serializeAddCommit c) = .ok { c with pathUpdates := [] } := by
  obtain ⟨hnew, hcommitter, hepoch⟩ := h
  have hlen : ¬ (serializeAddCommit c).length < 32 + 32 + 4 + 8 + 32 + 32 + 4 := by
    simp [serializeAddCommit]
  have hlast : (serializeAddCommit c).drop 144 = (W.signatureToBytes c.signature).val :=
    drop_flatten (i := 7) rfl (by simp)
  rw [deserializeAddCommit, dif_neg hlen, hlast, hsig.fromBytes_toBytes]
  show Except.ok (AddCommit.mk _ _ _ _ _ _ _ _ _) = _
  rw [Except.ok.injEq, AddCommit.mk.injEq]
  exact ⟨arrayAt_flatten (i := 0) rfl rfl _, arrayAt_flatten (i := 1) rfl (by simp) _,
    wordAt_flatten (i := 2) rfl (by simp) (lt_word4 hnew) _,
    wordAt_flatten (i := 6) rfl (by simp) (lt_word4 hcommitter) _,
    wordAt_flatten (i := 3) rfl (by simp) (lt_word8 hepoch) _, rfl, rfl,
    arrayAt_flatten (i := 4) rfl (by simp) _, arrayAt_flatten (i := 5) rfl (by simp) _⟩

theorem deserialize_serializeUpdateCommit (hsig : W.SignatureCodec)
    {c : UpdateCommit W.toPrimitives} (h : InWords (.update c)) :
    deserializeUpdateCommit W (serializeUpdateCommit c) = .ok { c with pathUpdates := [] } := by
  obtain ⟨hupdater, hepoch⟩ := h
  have hlen : ¬ (serializeUpdateCommit c).length < 32 + 4 + 8 + 32 + 32 := by
    simp [serializeUpdateCommit]
  have hlast : (serializeUpdateCommit c).drop 108 = (W.signatureToBytes c.signature).val :=
    drop_flatten (i := 5) rfl (by simp)
  rw [deserializeUpdateCommit, dif_neg hlen, hlast, hsig.fromBytes_toBytes]
  show Except.ok (UpdateCommit.mk _ _ _ _ _ _ _) = _
  rw [Except.ok.injEq, UpdateCommit.mk.injEq]
  exact ⟨arrayAt_flatten (i := 0) rfl rfl _,
    wordAt_flatten (i := 1) rfl (by simp) (lt_word4 hupdater) _,
    wordAt_flatten (i := 2) rfl (by simp) (lt_word8 hepoch) _, rfl, rfl,
    arrayAt_flatten (i := 3) rfl (by simp) _, arrayAt_flatten (i := 4) rfl (by simp) _⟩

theorem deserialize_serializeRemoveCommit (hsig : W.SignatureCodec)
    {c : RemoveCommit W.toPrimitives} (h : InWords (.remove c)) :
    deserializeRemoveCommit W (serializeRemoveCommit c) = .ok { c with pathUpdates := [] } := by
  obtain ⟨hremoved, hcommitter, hepoch⟩ := h
  have hlen : ¬ (serializeRemoveCommit c).length < 32 + 32 + 4 + 8 + 32 + 32 + 4 := by
    simp [serializeRemoveCommit]
  have hlast : (serializeRemoveCommit c).drop 144 = (W.signatureToBytes c.signature).val :=
    drop_flatten (i := 7) rfl (by simp)
  rw [deserializeRemoveCommit, dif_neg hlen, hlast, hsig.fromBytes_toBytes]
  show Except.ok (RemoveCommit.mk _ _ _ _ _ _ _ _ _) = _
  rw [Except.ok.injEq, RemoveCommit.mk.injEq]
  exact ⟨arrayAt_flatten (i := 0) rfl rfl _, arrayAt_flatten (i := 1) rfl (by simp) _,
    wordAt_flatten (i := 2) rfl (by simp) (lt_word4 hremoved) _,
    wordAt_flatten (i := 6) rfl (by simp) (lt_word4 hcommitter) _,
    wordAt_flatten (i := 3) rfl (by simp) (lt_word8 hepoch) _, rfl, rfl,
    arrayAt_flatten (i := 4) rfl (by simp) _, arrayAt_flatten (i := 5) rfl (by simp) _⟩

/-- A commit that is written and read comes back without its path updates. -/
theorem deserialize_serializeCommit (hsig : W.SignatureCodec) {c : Commit W.toPrimitives}
    (h : InWords c) :
    deserializeCommit W (commitType c) (serializeCommit c) = .ok (withoutPath c) := by
  cases c with
  | add c => exact congrArg (Except.map Commit.add) (deserialize_serializeAddCommit hsig h)
  | update c => exact congrArg (Except.map Commit.update) (deserialize_serializeUpdateCommit hsig h)
  | remove c => exact congrArg (Except.map Commit.remove) (deserialize_serializeRemoveCommit hsig h)

theorem withoutPath_eq_iff {c : Commit W.toPrimitives} :
    withoutPath c = c ↔ c.pathUpdates = [] := by
  cases c with
  | add c => cases c; simp [withoutPath, Commit.pathUpdates, eq_comm]
  | update c => cases c; simp [withoutPath, Commit.pathUpdates, eq_comm]
  | remove c => cases c; simp [withoutPath, Commit.pathUpdates, eq_comm]

theorem serialize_deserializeAddCommit (hsig : W.SignatureCodec) {bytes : Bytes}
    {c : AddCommit W.toPrimitives} (h : deserializeAddCommit W bytes = .ok c) :
    serializeAddCommit c = bytes := by
  unfold deserializeAddCommit at h
  split at h
  · cases h
  · simp only [Except.bind_eq_ok, debugError_eq_ok, Except.pure_eq_ok] at h
    obtain ⟨signature, hsignature, rfl⟩ := h
    simp only [serializeAddCommit, arrayAt, leBytes_wordAt, hsig.toBytes_fromBytes hsignature,
      List.flatten_cons, List.flatten_nil, List.append_nil, sliceAt_append_drop, Nat.reduceAdd,
      List.drop_zero]

theorem serialize_deserializeUpdateCommit (hsig : W.SignatureCodec) {bytes : Bytes}
    {c : UpdateCommit W.toPrimitives} (h : deserializeUpdateCommit W bytes = .ok c) :
    serializeUpdateCommit c = bytes := by
  unfold deserializeUpdateCommit at h
  split at h
  · cases h
  · simp only [Except.bind_eq_ok, debugError_eq_ok, Except.pure_eq_ok] at h
    obtain ⟨signature, hsignature, rfl⟩ := h
    simp only [serializeUpdateCommit, arrayAt, leBytes_wordAt, hsig.toBytes_fromBytes hsignature,
      List.flatten_cons, List.flatten_nil, List.append_nil, sliceAt_append_drop, Nat.reduceAdd,
      List.drop_zero]

theorem serialize_deserializeRemoveCommit (hsig : W.SignatureCodec) {bytes : Bytes}
    {c : RemoveCommit W.toPrimitives} (h : deserializeRemoveCommit W bytes = .ok c) :
    serializeRemoveCommit c = bytes := by
  unfold deserializeRemoveCommit at h
  split at h
  · cases h
  · simp only [Except.bind_eq_ok, debugError_eq_ok, Except.pure_eq_ok] at h
    obtain ⟨signature, hsignature, rfl⟩ := h
    simp only [serializeRemoveCommit, arrayAt, leBytes_wordAt, hsig.toBytes_fromBytes hsignature,
      List.flatten_cons, List.flatten_nil, List.append_nil, sliceAt_append_drop, Nat.reduceAdd,
      List.drop_zero]

/-- A byte string that is read as a commit is what the commit is written as. -/
theorem serialize_deserializeCommit (hsig : W.SignatureCodec) {kind : CommitType} {bytes : Bytes}
    {c : Commit W.toPrimitives} (h : deserializeCommit W kind bytes = .ok c) :
    serializeCommit c = bytes := by
  cases kind with
  | add =>
    obtain ⟨commit, hcommit, rfl⟩ := Except.map_eq_ok.mp h
    exact serialize_deserializeAddCommit hsig hcommit
  | update =>
    obtain ⟨commit, hcommit, rfl⟩ := Except.map_eq_ok.mp h
    exact serialize_deserializeUpdateCommit hsig hcommit
  | remove =>
    obtain ⟨commit, hcommit, rfl⟩ := Except.map_eq_ok.mp h
    exact serialize_deserializeRemoveCommit hsig hcommit

/-! ## Welcomes -/

/-- `serialize_welcome`. -/
def serializeWelcome (welcome : Welcome W.toPrimitives) : Bytes :=
  [welcome.groupId.val, leBytes 8 welcome.epoch, leBytes 4 welcome.leafPosition,
    leBytes 4 welcome.treeDepth, leBytes 4 welcome.memberCount,
    leBytes 4 welcome.encryptedInfo.length, welcome.encryptedInfo,
    leBytes 4 welcome.encapsulation.length, welcome.encapsulation,
    (W.signatureToBytes welcome.signature).val].flatten

/-- `deserialize_welcome`, for a `usize` of `bits` bits: a `checked_add` fails
where the sum needs more. -/
def deserializeWelcome (W : WirePrimitives) (bits : Nat) (bytes : Bytes) :
    Except JsError (Welcome W.toPrimitives) :=
  if h : bytes.length < 32 + 8 + 4 + 4 + 4 + 4 + 4 + 3366 then
    .error (.text "Welcome message too short")
  else
    let encryptedInfoLen := wordAt 4 bytes 52 (by omega)
    let encryptedInfoEnd := 56 + encryptedInfoLen
    let afterEncryptedInfo := encryptedInfoEnd + 4
    if 2 ^ bits ≤ encryptedInfoEnd then .error (.text "Welcome message length overflow")
    else if 2 ^ bits ≤ afterEncryptedInfo then .error (.text "Welcome message length overflow")
    else if hinfo : bytes.length < afterEncryptedInfo then
      .error (.text "Welcome message truncated")
    else
      let encapsulationLen := wordAt 4 bytes encryptedInfoEnd (by omega)
      let encapsulationEnd := afterEncryptedInfo + encapsulationLen
      if 2 ^ bits ≤ encapsulationEnd then .error (.text "Welcome message length overflow")
      else if bytes.length < encapsulationEnd then .error (.text "Welcome message truncated")
      else
        let signatureEnd := encapsulationEnd + 3366
        if 2 ^ bits ≤ signatureEnd then .error (.text "Welcome message length overflow")
        else if bytes.length < signatureEnd then .error (.text "Welcome message truncated")
        else do
          let signature ← debugError (W.signatureFromBytes (sliceAt bytes encapsulationEnd 3366))
          pure
            { groupId := arrayAt 32 bytes 0 (by omega)
              epoch := wordAt 8 bytes 32 (by omega)
              leafPosition := wordAt 4 bytes 40 (by omega)
              treeDepth := wordAt 4 bytes 44 (by omega)
              memberCount := wordAt 4 bytes 48 (by omega)
              encryptedInfo := sliceAt bytes 56 encryptedInfoLen
              encapsulation := sliceAt bytes afterEncryptedInfo encapsulationLen
              signature }

/-- The numbers of a welcome are words of the types that the source gives
them. -/
structure WelcomeInWords (w : Welcome W.toPrimitives) : Prop where
  epoch_lt : w.epoch < 2 ^ 64
  leafPosition_lt : w.leafPosition < 2 ^ 32
  treeDepth_lt : w.treeDepth < 2 ^ 32
  memberCount_lt : w.memberCount < 2 ^ 32

/-- The lengths of the two parts of a welcome fit the words that they are
written in. -/
def LengthsFit (w : Welcome W.toPrimitives) : Prop :=
  w.encryptedInfo.length < 2 ^ 32 ∧ w.encapsulation.length < 2 ^ 32

/-- The length word at an offset of a byte string. -/
def lengthAt (bytes : Bytes) (start : Nat) : Nat := leValue (sliceAt bytes start 4)

/-- Where the signature of a welcome ends, by its two length words. -/
def welcomeEnd (bytes : Bytes) : Nat :=
  60 + lengthAt bytes 52 + lengthAt bytes (56 + lengthAt bytes 52) + 3366

theorem length_serializeWelcome (w : Welcome W.toPrimitives) :
    (serializeWelcome w).length = 60 + w.encryptedInfo.length + w.encapsulation.length + 3366 := by
  simp [serializeWelcome]
  omega

/-- A welcome that is written and read comes back. -/
theorem deserialize_serializeWelcome (hsig : W.SignatureCodec) {bits : Nat}
    {w : Welcome W.toPrimitives} (h : WelcomeInWords w) (hfit : LengthsFit w)
    (hbits : (serializeWelcome w).length < 2 ^ bits) :
    deserializeWelcome W bits (serializeWelcome w) = .ok w := by
  have hlen := length_serializeWelcome w
  have hinfo : wordAt 4 (serializeWelcome w) 52 (by omega) = w.encryptedInfo.length :=
    wordAt_flatten (i := 5) rfl (by simp) (lt_word4 hfit.1) _
  have hencap : wordAt 4 (serializeWelcome w) (56 + w.encryptedInfo.length) (by omega) =
      w.encapsulation.length :=
    wordAt_flatten (i := 7) rfl (by simp; omega) (lt_word4 hfit.2) _
  have hsignature : sliceAt (serializeWelcome w)
      (56 + w.encryptedInfo.length + 4 + w.encapsulation.length) 3366 =
        (W.signatureToBytes w.signature).val :=
    sliceAt_flatten (i := 9) rfl (by simp; omega) (by simp)
  unfold deserializeWelcome
  rw [dif_neg (by omega)]
  simp only [hinfo]
  rw [if_neg (by omega), if_neg (by omega), dif_neg (by omega)]
  simp only [hencap]
  rw [if_neg (by omega), if_neg (by omega), if_neg (by omega), if_neg (by omega), hsignature,
    hsig.fromBytes_toBytes]
  show Except.ok (Welcome.mk _ _ _ _ _ _ _ _) = Except.ok (Welcome.mk _ _ _ _ _ _ _ _)
  rw [Except.ok.injEq, Welcome.mk.injEq]
  exact ⟨arrayAt_flatten (i := 0) rfl rfl _,
    wordAt_flatten (i := 1) rfl (by simp) (lt_word8 h.epoch_lt) _,
    wordAt_flatten (i := 2) rfl (by simp) (lt_word4 h.leafPosition_lt) _,
    wordAt_flatten (i := 3) rfl (by simp) (lt_word4 h.treeDepth_lt) _,
    wordAt_flatten (i := 4) rfl (by simp) (lt_word4 h.memberCount_lt) _,
    sliceAt_flatten (i := 6) rfl (by simp) rfl,
    sliceAt_flatten (i := 8) rfl (by simp; omega) rfl, rfl⟩

/-- The slices that a welcome is read from are its encoding. -/
theorem serializeWelcome_slices (hsig : W.SignatureCodec) {bytes : Bytes} {m n : Nat}
    (hend : 56 + m + 4 + n + 3366 ≤ bytes.length) (hm : lengthAt bytes 52 = m)
    (hn : lengthAt bytes (56 + m) = n) {signature : W.Signature}
    (hsignature : W.signatureFromBytes (sliceAt bytes (56 + m + 4 + n) 3366) = .ok signature) :
    serializeWelcome (W := W)
        { groupId := arrayAt 32 bytes 0 (by omega)
          epoch := wordAt 8 bytes 32 (by omega)
          leafPosition := wordAt 4 bytes 40 (by omega)
          treeDepth := wordAt 4 bytes 44 (by omega)
          memberCount := wordAt 4 bytes 48 (by omega)
          encryptedInfo := sliceAt bytes 56 m
          encapsulation := sliceAt bytes (56 + m + 4) n
          signature } ++ bytes.drop (56 + m + 4 + n + 3366) = bytes := by
  have hinfo : leBytes 4 m = sliceAt bytes 52 4 := by
    rw [← hm]
    exact leBytes_wordAt (show 52 + 4 ≤ bytes.length by omega)
  have hencap : leBytes 4 n = sliceAt bytes (56 + m) 4 := by
    rw [← hn]
    exact leBytes_wordAt (by omega)
  simp only [serializeWelcome, length_sliceAt (show 56 + m ≤ bytes.length by omega),
    length_sliceAt (show 56 + m + 4 + n ≤ bytes.length by omega), hinfo, hencap, arrayAt,
    leBytes_wordAt, hsig.toBytes_fromBytes hsignature, List.flatten_cons, List.flatten_nil,
    List.append_nil, List.append_assoc]
  simp (disch := omega) only [sliceAt_append_drop]
  rfl

/-- What an accepted byte string begins with: the encoding of the result, up to
the end of the signature. -/
theorem serialize_deserializeWelcome (hsig : W.SignatureCodec) {bits : Nat} {bytes : Bytes}
    {w : Welcome W.toPrimitives} (h : deserializeWelcome W bits bytes = .ok w) :
    serializeWelcome w ++ bytes.drop (welcomeEnd bytes) = bytes ∧
      welcomeEnd bytes ≤ bytes.length ∧ LengthsFit w := by
  unfold deserializeWelcome at h
  split at h
  · cases h
  · next hmin =>
    simp only at h
    split_ifs at h with hover₁ hover₂ htrunc hover₃ htrunc' hover₄ hend
    simp only [Except.bind_eq_ok, debugError_eq_ok, Except.pure_eq_ok] at h
    obtain ⟨signature, hsignature, rfl⟩ := h
    have hstop : welcomeEnd bytes = 56 + wordAt 4 bytes 52 (by omega) + 4 +
        wordAt 4 bytes (56 + wordAt 4 bytes 52 (by omega)) (by omega) + 3366 := by
      have hsum : ∀ m n, 60 + m + n + 3366 = 56 + m + 4 + n + 3366 := by omega
      exact hsum _ _
    refine ⟨?_, by omega, ?_, ?_⟩
    · rw [hstop]
      exact serializeWelcome_slices (m := wordAt 4 bytes 52 (by omega))
        (n := wordAt 4 bytes (56 + wordAt 4 bytes 52 (by omega)) (by omega)) hsig (by omega) rfl rfl
        hsignature
    · show (sliceAt bytes 56 (wordAt 4 bytes 52 _)).length < 2 ^ 32
      rw [length_sliceAt (by omega)]
      exact (wordAt_lt _).trans_eq (by decide)
    · show (sliceAt bytes _ (wordAt 4 bytes _ _)).length < 2 ^ 32
      rw [length_sliceAt (by omega)]
      exact (wordAt_lt _).trans_eq (by decide)

/-- A welcome comes back exactly when its lengths fit their words. -/
theorem deserialize_serializeWelcome_iff (hsig : W.SignatureCodec) {bits : Nat}
    {w : Welcome W.toPrimitives} (h : WelcomeInWords w)
    (hbits : (serializeWelcome w).length < 2 ^ bits) :
    deserializeWelcome W bits (serializeWelcome w) = .ok w ↔ LengthsFit w := by
  constructor
  · intro hread
    exact (serialize_deserializeWelcome hsig hread).2.2
  · intro hfit
    exact deserialize_serializeWelcome hsig h hfit hbits

/-- An accepted byte string is the encoding of the result exactly when nothing
is behind the signature. -/
theorem serialize_deserializeWelcome_iff (hsig : W.SignatureCodec) {bits : Nat} {bytes : Bytes}
    {w : Welcome W.toPrimitives} (h : deserializeWelcome W bits bytes = .ok w) :
    serializeWelcome w = bytes ↔ bytes.length = welcomeEnd bytes := by
  obtain ⟨hbytes, hend, _⟩ := serialize_deserializeWelcome hsig h
  constructor
  · intro heq
    have hlen := congrArg List.length hbytes
    rw [heq, List.length_append, List.length_drop] at hlen
    omega
  · intro hlen
    rw [← hlen, List.drop_length, List.append_nil] at hbytes
    exact hbytes

/-! ## Faithful transport -/

/-- A commit is carried faithfully when the commit is what is read, and every
member treats it so. -/
def CarriesCommit (c : Commit W.toPrimitives) : Prop :=
  ∃ c', deserializeCommit W (commitType c) (serializeCommit c) = .ok c' ∧ c' = c ∧
    ∀ signer s, c'.process signer s = c.process signer s

/-- A welcome is carried faithfully when the welcome is what is read, and every
newcomer treats it so. -/
def CarriesWelcome (bits : Nat) (w : Welcome W.toPrimitives) : Prop :=
  ∃ w', deserializeWelcome W bits (serializeWelcome w) = .ok w' ∧ w' = w ∧
    ∀ ourUserId ourKem committer,
      processWelcome ourUserId ourKem w' committer = processWelcome ourUserId ourKem w committer

theorem carriesCommit_iff (hsig : W.SignatureCodec) {c : Commit W.toPrimitives} (h : InWords c) :
    CarriesCommit c ↔ c.pathUpdates = [] := by
  rw [← withoutPath_eq_iff]
  constructor
  · intro hex
    rcases hex with ⟨c', hread, heq, _⟩
    rw [deserialize_serializeCommit hsig h] at hread
    rw [Except.ok.inj hread, heq]
  · intro heq
    exact ⟨withoutPath c, deserialize_serializeCommit hsig h, heq,
      by rw [heq]; exact fun _ _ => rfl⟩

theorem carriesWelcome_iff (hsig : W.SignatureCodec) {bits : Nat} {w : Welcome W.toPrimitives}
    (h : WelcomeInWords w) (hbits : (serializeWelcome w).length < 2 ^ bits) :
    CarriesWelcome bits w ↔ LengthsFit w := by
  rw [← deserialize_serializeWelcome_iff hsig h hbits]
  constructor
  · intro hex
    rcases hex with ⟨w', hread, heq, _⟩
    rw [hread, heq]
  · intro hread
    exact ⟨w, hread, rfl, fun _ _ _ => rfl⟩

/-- A commit is carried faithfully exactly when it has no path updates, and a
welcome exactly when its lengths fit their words.  A byte string that is read as
a commit is the encoding of it.  One that is read as a welcome is the encoding
of it exactly when nothing is behind the signature. -/
theorem transport_faithful_iff (hsig : W.SignatureCodec) (bits : Nat) :
    (∀ c : Commit W.toPrimitives, InWords c → (CarriesCommit c ↔ c.pathUpdates = [])) ∧
    (∀ w : Welcome W.toPrimitives, WelcomeInWords w → (serializeWelcome w).length < 2 ^ bits →
      (CarriesWelcome bits w ↔ LengthsFit w)) ∧
    (∀ kind bytes (c : Commit W.toPrimitives), deserializeCommit W kind bytes = .ok c →
      serializeCommit c = bytes) ∧
    ∀ bytes (w : Welcome W.toPrimitives), deserializeWelcome W bits bytes = .ok w →
      (serializeWelcome w = bytes ↔ bytes.length = welcomeEnd bytes) := by
  refine ⟨?_, ?_, ?_, ?_⟩
  · intro c h
    exact carriesCommit_iff hsig h
  · intro w h hbits
    exact carriesWelcome_iff hsig h hbits
  · intro kind bytes c h
    exact serialize_deserializeCommit hsig h
  · intro bytes w h
    exact serialize_deserializeWelcome_iff hsig h

section Sample

open Symbolic

/-- The second of two members processes a commit that went through the wire. -/
def processCarried (c : Commit wireSample.toPrimitives) :
    EStateM.Result CryptoError (CocoaSession wireSample.toPrimitives) Bool :=
  match deserializeCommit wireSample (commitType c) (serializeCommit c) with
  | .ok c' => ((fun _ => true) <$> c'.process (word 50)) (wireMember 1 11 wireTree)
  | .error _ => .ok false (wireMember 1 11 wireTree)

/-- An update without a path is carried. -/
theorem transport_faithful_iff_empty :
    CarriesCommit (W := wireSample) (.update ⟨word 1, 0, 1, [], .zero 3366, zero32, zero32⟩) := by
  obtain ⟨hcommit, _⟩ := transport_faithful_iff wireSample_signatureCodec 32
  exact (hcommit (.update _) ⟨by decide, by decide⟩).mpr rfl

/-- A member makes an update, and the other one accepts it.  What the other one
reads from its bytes is another commit, and is rejected as wrongly signed. -/
theorem update_lost_on_the_wire :
    ∃ c s s' t, createUpdate (P := wireSample.toPrimitives) (word 50) (wireDraws 500)
        (wireMember 0 10 wireTree) = .ok c s ∧
      (Commit.update c).process (word 50) (wireMember 1 11 wireTree) = .ok () s' ∧
      ¬ CarriesCommit (W := wireSample) (.update c) ∧
      processCarried (.update c) = .error .signatureVerificationFailed t := by
  have hrun : okAnd (createUpdate (P := wireSample.toPrimitives) (word 50) (wireDraws 500)
      (wireMember 0 10 wireTree)) fun c _ =>
        okAnd ((Commit.update c).process (word 50) (wireMember 1 11 wireTree)) (fun _ _ => true) &&
          (failsWith (processCarried (.update c)) .signatureVerificationFailed &&
            (!c.pathUpdates.isEmpty && (c.updaterLeafPosition < 2 ^ 32 && c.epoch < 2 ^ 64))) := by
    decide +kernel
  obtain ⟨c, s, hcreate, htest⟩ := okAnd_eq_true.mp hrun
  simp only [Bool.and_eq_true, okAnd_eq_true, failsWith_eq_true, decide_eq_true_eq,
    Bool.not_eq_true', List.isEmpty_eq_false_iff] at htest
  obtain ⟨⟨_, s', hprocess, _⟩, ⟨t, hcarried⟩, hpath, hwords⟩ := htest
  exact ⟨c, s, s', t, hcreate, hprocess,
    fun hcarries => hpath ((carriesCommit_iff wireSample_signatureCodec
      (show InWords (.update c) from hwords)).mp hcarries), hcarried⟩

end Sample

end Trelis.Wasm
