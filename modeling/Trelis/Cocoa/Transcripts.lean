import Trelis.Cocoa.History

/-!
# Members with the same transcript

Two members whose transcript hashes are equal have been through the same changes:
the same root seeds, and the same users removed and added
(`transcriptHash_eq_iff`).  The confirmation tag of a commit binds the transcript
hash, so a member moves on with a commit only if it has been through what the
sender of the commit has (`common_commit`).  Members of a group that has split do
not meet again.

The hash is BLAKE3.  A theorem asks that it has no collision on what the two
members hash.
-/

namespace Trelis.Cocoa

variable {P : Primitives}

/-! ## What is hashed -/

/-- Of the given inputs of the hash no two collide. -/
def NoHashCollision (P : Primitives) (H : Set (String × Bytes)) : Prop :=
  H.InjOn fun p => P.deriveKey p.1 p.2

theorem NoHashCollision.eq {H : Set (String × Bytes)} (h : NoHashCollision P H) {context : String}
    {a b : Bytes} (ha : (context, a) ∈ H) (hb : (context, b) ∈ H)
    (heq : P.deriveKey context a = P.deriveKey context b) : a = b :=
  (Prod.mk.inj (h ha hb heq)).2

/-- The bytes under a round hash. -/
def EpochChange.roundInput (P : Primitives) (x : EpochChange) : Bytes :=
  (P.deriveKey rootLabelContext x.delta.val).val ++ leBytes 4 x.removed.length ++
    x.removed.flatMap (·.val) ++ leBytes 4 x.added.length ++ x.added.flatMap (·.val)

/-- The inputs of the three hashes of a step. -/
def EpochChange.hashInputs (P : Primitives) (transcript : Bytes32) (x : EpochChange) :
    Set (String × Bytes) :=
  {(rootLabelContext, x.delta.val), (roundHashContext, x.roundInput P),
    (transcriptHashContext, transcript.val ++ (x.roundHash P).val)}

/-- The lists of users have lengths that fit their fields. -/
def EpochChange.Fits (x : EpochChange) : Prop :=
  x.removed.length < 256 ^ 4 ∧ x.added.length < 256 ^ 4

theorem Advance.fits_change (e : Advance P) : e.change.Fits := by
  have hshort := e.commit.users_short
  exact ⟨lt_of_le_of_lt hshort.1 (by norm_num), lt_of_le_of_lt hshort.2 (by norm_num)⟩

/-- All inputs of the hashes behind a transcript hash. -/
def transcriptInputs (P : Primitives) (transcript : Bytes32) (changes : List EpochChange) :
    Set (String × Bytes) :=
  {p | ∃ q ∈ chainInputs (mixTranscript P) transcript changes, p ∈ q.2.hashInputs P q.1}

/-- A round hash stands for the label of the root and the two lists. -/
theorem EpochChange.roundInput_inj {x y : EpochChange} (hx : x.Fits) (hy : y.Fits)
    (heq : x.roundInput P = y.roundInput P) :
    P.deriveKey rootLabelContext x.delta.val = P.deriveKey rootLabelContext y.delta.val ∧
      x.removed = y.removed ∧ x.added = y.added := by
  have husers := (SelfDelimiting.array 32).counted 4
  simp only [roundInput, List.append_assoc] at heq
  obtain ⟨hlabel, hlists⟩ := SelfDelimiting.array 32 _ _ trivial trivial _ _ heq
  obtain ⟨hremoved, hrest⟩ := husers x.removed y.removed ⟨hx.1, fun _ _ => trivial⟩
    ⟨hy.1, fun _ _ => trivial⟩ _ _ (by simpa using hlists)
  exact ⟨hlabel, hremoved, husers.inj ⟨hx.2, fun _ _ => trivial⟩ ⟨hy.2, fun _ _ => trivial⟩ hrest⟩

/-- Where the hash has no collision, neither has the step of the transcript
hash. -/
theorem NoHashCollision.injectiveOn {H : Set (String × Bytes)} (h : NoHashCollision P H)
    {D : Set (Bytes32 × EpochChange)} (hfits : ∀ q ∈ D, q.2.Fits)
    (hD : ∀ q ∈ D, q.2.hashInputs P q.1 ⊆ H) : InjectiveOn (mixTranscript P) D := by
  rintro ⟨t, x⟩ hx ⟨u, y⟩ hy (heq : mixTranscript P t x = mixTranscript P u y)
  have hHx := hD _ hx
  have hHy := hD _ hy
  simp only [EpochChange.hashInputs, Set.insert_subset_iff, Set.singleton_subset_iff] at hHx hHy
  have hinput := h.eq hHx.2.2 hHy.2.2 heq
  obtain ⟨htranscript, hround⟩ := SelfDelimiting.array 32 _ _ trivial trivial _ _ hinput
  have hround : x.roundInput P = y.roundInput P := h.eq hHx.2.1 hHy.2.1 (Subtype.ext hround)
  obtain ⟨hlabel, hremoved, hadded⟩ := EpochChange.roundInput_inj (hfits _ hx) (hfits _ hy) hround
  have hdelta : x.delta = y.delta := Subtype.ext (h.eq hHx.1 hHy.1 hlabel)
  obtain rfl : t = u := htranscript
  cases x
  cases y
  simp only at hdelta hremoved hadded
  rw [hdelta, hremoved, hadded]

/-! ## The same transcript hash -/

section Transcripts

variable {s₀ t₀ s t s' t' : CocoaSession P} {log log' : List (Advance P)} {e e' : Advance P}

theorem changes_fit {q : Bytes32 × EpochChange} {transcript : Bytes32}
    (hq : q ∈ chainInputs (mixTranscript P) transcript (log.map (·.change))) : q.2.Fits := by
  obtain ⟨ys, hstart, _⟩ := hq
  have hmem : q.2 ∈ log.map (·.change) := hstart.subset (by simp)
  obtain ⟨e, _, he⟩ := List.mem_map.mp hmem
  rw [← he]
  exact e.fits_change

/-- Chains of one length with the same end have the same changes. -/
theorem changes_eq {transcript transcript' : Bytes32}
    (hfree : NoHashCollision P (transcriptInputs P transcript (log.map (·.change)) ∪
      transcriptInputs P transcript' (log'.map (·.change))))
    (hlen : log.length = log'.length)
    (heq : chainKey (mixTranscript P) transcript (log.map (·.change)) =
      chainKey (mixTranscript P) transcript' (log'.map (·.change))) :
    transcript = transcript' ∧ log.map (·.change) = log'.map (·.change) := by
  have hinj : InjectiveOn (mixTranscript P)
      (chainInputs (mixTranscript P) transcript (log.map (·.change)) ∪
        chainInputs (mixTranscript P) transcript' (log'.map (·.change))) := by
    apply hfree.injectiveOn
    · rintro q (hq | hq)
      · exact changes_fit hq
      · exact changes_fit hq
    · rintro q (hq | hq) p hp
      · exact .inl ⟨q, hq, hp⟩
      · exact .inr ⟨q, hq, hp⟩
  exact hinj.steps_eq_of_length (by simpa using hlen) Set.subset_union_left
    Set.subset_union_right heq

theorem epochSecret_eq_of_changes (hs : History s₀ log s) (ht : History t₀ log' t)
    (htranscript : s₀.transcriptHash = t₀.transcriptHash)
    (hchanges : log.map (·.change) = log'.map (·.change))
    (hsecret : s₀.currentEpochSecret = t₀.currentEpochSecret) :
    s.currentEpochSecret = t.currentEpochSecret := by
  have heq := hs.epoch_eq
  rw [htranscript, hchanges, hsecret, ← ht.epoch_eq] at heq
  exact congrArg Prod.fst heq

/-- What the two members of a pair hash for an update. -/
def pairInputs : List (String × Bytes) :=
  [(rootLabelContext, pairChange.delta.val), (roundHashContext, pairChange.roundInput symbolic),
    (transcriptHashContext, zero32.val ++ (pairChange.roundHash symbolic).val),
    (confirmationTagContext, pairChange.delta.val ++ pairTranscript.val ++ leBytes 8 1)]

theorem noHashCollision_pairInputs : NoHashCollision symbolic {p | p ∈ pairInputs} := by
  have hdistinct : ∀ p ∈ pairInputs, ∀ q ∈ pairInputs,
      Symbolic.deriveKey p.1 p.2 = Symbolic.deriveKey q.1 q.2 → p = q := by decide +kernel
  intro p hp q hq
  exact hdistinct p hp q hq

theorem transcriptInputs_pair {e : Advance symbolic} (hchange : e.change = pairChange) :
    transcriptInputs symbolic zero32 (([] ++ [e]).map Advance.change) ⊆ {p | p ∈ pairInputs} := by
  rw [List.nil_append, List.map_singleton, hchange]
  rintro p ⟨⟨t, x⟩, ⟨ys, hstart, rfl⟩, hp⟩
  have hlen := hstart.length_le
  obtain rfl : ys = [] := by
    rw [← List.length_eq_zero_iff]
    simpa using hlen
  obtain rfl : x = pairChange := by simpa using hstart
  rcases hp with rfl | rfl | rfl <;> simp [pairInputs]

/-- Members at the same epoch have the same transcript hash exactly when they
have started from the same and been through the same changes; and then they have
the same epoch secret, if they have started from the same. -/
theorem transcriptHash_eq_iff (hs : History s₀ log s) (ht : History t₀ log' t)
    (hstart : s₀.epochNumber = t₀.epochNumber) (hepoch : s.epochNumber = t.epochNumber)
    (hfree : NoHashCollision P (transcriptInputs P s₀.transcriptHash (log.map (·.change)) ∪
      transcriptInputs P t₀.transcriptHash (log'.map (·.change)))) :
    (s.transcriptHash = t.transcriptHash ↔
      s₀.transcriptHash = t₀.transcriptHash ∧ log.map (·.change) = log'.map (·.change)) ∧
    (s.transcriptHash = t.transcriptHash → s₀.currentEpochSecret = t₀.currentEpochSecret →
      s.currentEpochSecret = t.currentEpochSecret) := by
  have hlen : log.length = log'.length := by
    rw [hs.epochNumber_eq, ht.epochNumber_eq, hstart] at hepoch
    exact Nat.add_left_cancel hepoch
  have hsame : s.transcriptHash = t.transcriptHash →
      s₀.transcriptHash = t₀.transcriptHash ∧ log.map (·.change) = log'.map (·.change) := by
    intro heq
    rw [hs.transcriptHash_eq, ht.transcriptHash_eq] at heq
    exact changes_eq hfree hlen heq
  refine ⟨⟨hsame, ?_⟩, ?_⟩
  · rintro ⟨htranscript, hchanges⟩
    rw [hs.transcriptHash_eq, ht.transcriptHash_eq, htranscript, hchanges]
  · intro heq hsecret
    obtain ⟨htranscript, hchanges⟩ := hsame heq
    exact epochSecret_eq_of_changes hs ht htranscript hchanges hsecret

theorem transcriptHash_eq_iff_pair : ∃ e s r, History pairUpdater [e] s ∧
    History pairReceiver [e] r ∧ s.transcriptHash = r.transcriptHash ∧
    s.currentEpochSecret = r.currentEpochSecret := by
  obtain ⟨e, s, r, hs, hr, _, hchange, _⟩ := exists_pair_update
  have hs' : History pairUpdater ([] ++ [e]) s := History.start.next hs
  have hr' : History pairReceiver ([] ++ [e]) r := History.start.next hr
  have hepoch : s.epochNumber = r.epochNumber := by rw [hs'.epochNumber_eq, hr'.epochNumber_eq]; rfl
  have hinputs := transcriptInputs_pair hchange
  have hsame := transcriptHash_eq_iff hs' hr' rfl hepoch
    (noHashCollision_pairInputs.mono (Set.union_subset hinputs hinputs))
  have htranscript := hsame.1.mpr ⟨rfl, rfl⟩
  exact ⟨e, s, r, hs', hr', htranscript, hsame.2 htranscript rfl⟩

/-! ## The same commit -/

/-- The input of the confirmation tag. -/
def Advance.tagInput (e : Advance P) : String × Bytes :=
  (confirmationTagContext, e.delta.val ++ e.transcript.val ++ leBytes 8 e.commit.epoch)

/-- Two members that have moved on with the same commit have been through the same
changes before, and share the epoch secret. -/
theorem common_commit (hs : History s₀ (log ++ [e]) s) (ht : History t₀ (log' ++ [e']) t)
    (hstart : s₀.epochNumber = t₀.epochNumber) (hcommit : e.commit = e'.commit)
    (hfree : NoHashCollision P ({e.tagInput, e'.tagInput} ∪
      (transcriptInputs P s₀.transcriptHash ((log ++ [e]).map (·.change)) ∪
        transcriptInputs P t₀.transcriptHash ((log' ++ [e']).map (·.change))))) :
    s₀.transcriptHash = t₀.transcriptHash ∧
      (log ++ [e]).map (·.change) = (log' ++ [e']).map (·.change) ∧
      (s₀.currentEpochSecret = t₀.currentEpochSecret →
        s.currentEpochSecret = t.currentEpochSecret) := by
  obtain ⟨u, u', hu, hmoves⟩ := hs.exists_before (List.prefix_refl _)
  obtain ⟨v, v', hv, hmoves'⟩ := ht.exists_before (List.prefix_refl _)
  -- the tag binds the transcript hash
  have htag : e.tagInput.2 = e'.tagInput.2 := by
    apply hfree.eq (.inl (.inl rfl)) (.inl (.inr rfl))
    calc P.deriveKey confirmationTagContext e.tagInput.2
      _ = e.commit.confirmationTag := hmoves.tag_eq.symm
      _ = e'.commit.confirmationTag := by rw [hcommit]
      _ = P.deriveKey confirmationTagContext e'.tagInput.2 := hmoves'.tag_eq
  have htranscript : e.transcript = e'.transcript := by
    simp only [Advance.tagInput, List.append_assoc] at htag
    obtain ⟨_, hrest⟩ := SelfDelimiting.array 32 _ _ trivial trivial _ _ htag
    exact (SelfDelimiting.array 32 _ _ trivial trivial _ _ hrest).1
  have hlen : (log ++ [e]).length = (log' ++ [e']).length := by
    have hepoch := hmoves.epoch_eq
    rw [hcommit, hmoves'.epoch_eq, hu.epochNumber_eq, hv.epochNumber_eq, hstart] at hepoch
    simp only [List.length_append, List.length_singleton]
    omega
  have hchain : ∀ {s₀ u u' : CocoaSession P} {log : List (Advance P)} {e : Advance P},
      History s₀ log u → e.Moves u u' →
        e.transcript =
          chainKey (mixTranscript P) s₀.transcriptHash ((log ++ [e]).map (·.change)) := by
    intro s₀ u u' log e hu hmoves
    rw [hmoves.transcript_eq, hu.transcriptHash_eq, List.map_append, List.map_singleton,
      chainKey_append_singleton]
  have hsame := changes_eq (hfree.mono Set.subset_union_right) hlen
    ((hchain hu hmoves).symm.trans (htranscript.trans (hchain hv hmoves')))
  exact ⟨hsame.1, hsame.2, epochSecret_eq_of_changes hs ht hsame.1 hsame.2⟩

theorem common_commit_pair : ∃ e s r, History pairUpdater [e] s ∧ History pairReceiver [e] r ∧
    s.currentEpochSecret = r.currentEpochSecret := by
  obtain ⟨e, s, r, hs, hr, hepoch, hchange, htranscript⟩ := exists_pair_update
  have hs' : History pairUpdater ([] ++ [e]) s := History.start.next hs
  have hr' : History pairReceiver ([] ++ [e]) r := History.start.next hr
  have hinputs := transcriptInputs_pair hchange
  have htag : e.tagInput ∈ {p | p ∈ pairInputs} := by
    have hdelta : e.delta = pairChange.delta := congrArg EpochChange.delta hchange
    rw [Advance.tagInput, hdelta, htranscript, hepoch]
    simp [pairInputs]
  have hsame := common_commit hs' hr' rfl rfl (noHashCollision_pairInputs.mono
    (Set.union_subset (Set.pair_subset htag htag) (Set.union_subset hinputs hinputs)))
  exact ⟨e, s, r, hs', hr', hsame.2.2 rfl⟩

/-- A member takes commits for one epoch after the other, and none a second
time. -/
theorem no_commit_twice (hs : History s₀ log s) :
    log.map (·.commit.epoch) = List.range' (s₀.epochNumber + 1) log.length ∧
      ∀ e ∈ log, ∀ signer s', e.commit.process signer s ≠ .ok () s' := by
  refine ⟨hs.epochs_eq, ?_⟩
  intro e he signer s' hprocess
  have hmem : e.commit.epoch ∈ log.map (·.commit.epoch) := List.mem_map_of_mem he
  rw [hs.epochs_eq, List.mem_range'_1] at hmem
  obtain ⟨_, _, hcheck⟩ := Commit.exists_check hprocess
  have hepoch : e.commit.epoch = s.epochNumber + 1 := (Commit.moves_of_ok hprocess hcheck).epoch_eq
  rw [hs.epochNumber_eq] at hepoch
  omega

theorem no_commit_twice_pair : ∃ e s, History pairUpdater [e] s ∧
    ∀ signer s', e.commit.process signer s ≠ .ok () s' := by
  obtain ⟨e, s, _, hs, _⟩ := exists_pair_update
  have hs' : History pairUpdater ([] ++ [e]) s := History.start.next hs
  exact ⟨e, s, hs', (no_commit_twice hs').2 e (by simp)⟩

end Transcripts

end Trelis.Cocoa
