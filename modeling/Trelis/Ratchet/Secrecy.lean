import Trelis.Ratchet.History

/-!
# Who can compute the keys of a session

An attacker reads the whole wire, makes encapsulations of its own, and seizes the
state of an end at some times.  What it computes from that is `LearnsRootKey` and
`LearnsMessageKey`: it opens what it has key pairs for, and runs the key
derivation.

Each root key is a hash of the one before and of a KEM secret.  So the attacker
has the key of a message only if it has seized a root key of an earlier time and
every secret since (`learnsMessageKey_iff`).  A state that is seized later says
nothing about the message (`forward_secrecy`), and one that was seized before is
of no use once the end has sent to a key that the attacker lacks
(`secret_after_send`).

The key derivation is a hash.  `NoCollision` asks that no two of the inputs on
which the attacker or an end runs it collide.
-/

namespace Trelis.Ratchet

variable {P : RatchetPrimitives}

/-! ## The attacker -/

/-- What an attacker has got hold of. -/
structure Attacker (P : RatchetPrimitives) where
  /-- The states that it has seized. -/
  states : Set (KemRatchet P)
  /-- The encapsulations that it has seen. -/
  wire : Set P.Encapsulation
  /-- The secrets of its own encapsulations. -/
  secrets : Set Bytes32
  /-- The inputs on which the key derivation is run, by the attacker or by an
  end. -/
  evaluated : Set (Bytes32 × Bytes32)

namespace Attacker

variable (A : Attacker P)

def rootKeys : Set Bytes32 := KemRatchet.rootKey '' A.states

def keypairs : Set P.KeyPair := {kp | ∃ s ∈ A.states, ∃ keyId, (keyId, kp) ∈ s.keypairs}

/-- Its own secrets, and those that it opens. -/
def kemSecrets : Set Bytes32 :=
  A.secrets ∪ {k | ∃ kp ∈ A.keypairs, ∃ c ∈ A.wire, P.decapsulate kp c = .ok k}

def LearnsRootKey (rootKey : Bytes32) : Prop :=
  Learns (mixRoot P) A.evaluated A.rootKeys A.kemSecrets rootKey

def LearnsMessageKey (messageKey : Bytes32) : Prop :=
  ∃ rootKey secret, A.LearnsRootKey rootKey ∧ secret ∈ A.kemSecrets ∧
    (rootKey, secret) ∈ A.evaluated ∧ mixMessage P rootKey secret = messageKey

/-- The session is among what is evaluated, no two of the inputs collide, and none
gives the first root key. -/
structure NoCollision (rootKey : Bytes32) (log : List (Exchange P)) : Prop where
  inputs : chainInputs (mixRoot P) rootKey (log.map (·.secret)) ⊆ A.evaluated
  root : InjectiveOn (mixRoot P) A.evaluated
  message : InjectiveOn (mixMessage P) A.evaluated
  first : Avoids (mixRoot P) A.evaluated rootKey

variable {A} {rootKey : Bytes32} {log before after : List (Exchange P)} {e : Exchange P}
  {s₀ s t t' : KemRatchet P}

theorem NoCollision.mono (h : A.NoCollision rootKey log) (hstart : before <+: log) :
    A.NoCollision rootKey before :=
  ⟨(chainInputs_mono (hstart.map _)).trans h.inputs, h.root, h.message, h.first⟩

/-! ## Root keys -/

/-- A root key is learned from an earlier one, and every secret since. -/
theorem NoCollision.learnsRootKey_iff (h : A.NoCollision rootKey log) :
    A.LearnsRootKey (rootAfter rootKey log) ↔
      ∃ early late, early ++ late = log ∧ rootAfter rootKey early ∈ A.rootKeys ∧
        ∀ x ∈ late, x.secret ∈ A.kemSecrets := by
  rw [LearnsRootKey, rootAfter, h.root.learns_iff h.first h.inputs]
  constructor
  · rintro ⟨early, late, hsplit, hearly, hlate⟩
    obtain ⟨early, late, rfl, rfl, rfl⟩ := List.map_eq_append_iff.mp hsplit.symm
    exact ⟨early, late, rfl, hearly, by simpa using hlate⟩
  · rintro ⟨early, late, rfl, hearly, hlate⟩
    exact ⟨_, _, List.map_append.symm, hearly, by simpa using hlate⟩

/-- Two times of the session with the same root key are the same. -/
theorem NoCollision.rootAfter_inj (h : A.NoCollision rootKey log) (hbefore : before <+: log)
    (hafter : after <+: log) (heq : rootAfter rootKey before = rootAfter rootKey after) :
    before = after := by
  have hsecrets := h.root.steps_eq h.first (h.mono hbefore).inputs (h.mono hafter).inputs heq
  have hlen : before.length = after.length := by simpa using congrArg List.length hsecrets
  rw [List.prefix_iff_eq_take.mp hbefore, List.prefix_iff_eq_take.mp hafter, hlen]

/-! ## Message keys -/

/-- The key of a message is computed from its own root key and secret only. -/
theorem NoCollision.learnsMessageKey (h : A.NoCollision rootKey log)
    (hroot : e.rootKey = rootAfter rootKey before) (hstart : before ++ [e] <+: log) :
    A.LearnsMessageKey e.messageKey ↔
      A.LearnsRootKey (rootAfter rootKey before) ∧ e.secret ∈ A.kemSecrets := by
  have hmem : (rootAfter rootKey before, e.secret) ∈ A.evaluated := by
    refine h.inputs ⟨before.map (·.secret), ?_, rfl⟩
    simpa using hstart.map (·.secret)
  constructor
  · rintro ⟨root, secret, hlearns, hsecret, hD, heq⟩
    rw [Exchange.messageKey, hroot] at heq
    obtain ⟨rfl, rfl⟩ := h.message.pair_eq hD hmem heq
    exact ⟨hlearns, hsecret⟩
  · rintro ⟨hlearns, hsecret⟩
    refine ⟨_, _, hlearns, hsecret, hmem, ?_⟩
    rw [← hroot]
    rfl

/-! ## A first message -/

/-- An attacker that has seized some states, sees what the initiator sends first,
and runs the key derivation as the ends do. -/
def sampleAttacker (states : Set (KemRatchet symbolicRatchet)) : Attacker symbolicRatchet where
  states := states
  wire := {firstEncapsulation}
  secrets := ∅
  evaluated := {(sampleInitiator.rootKey, Symbolic.word 111)}

/-- The initiator does not store the key pair of the responder. -/
theorem keypairs_seized_before {kp : symbolicRatchet.KeyPair}
    (h : kp ∈ (sampleAttacker {sampleInitiator}).keypairs) : kp ≠ responderKeypair := by
  have hnone : ∀ entry ∈ sampleInitiator.keypairs, entry.2 ≠ responderKeypair := by decide +kernel
  rcases h with ⟨s, rfl, keyId, hkp⟩
  exact hnone _ hkp

/-- Who has seized only the initiator opens nothing. -/
theorem kemSecrets_seized_before : (sampleAttacker {sampleInitiator}).kemSecrets = ∅ := by
  rw [Set.eq_empty_iff_forall_notMem]
  rintro k (hown | ⟨kp, hkp, c, rfl, hopen⟩)
  · exact hown
  · exact keypairs_seized_before hkp (Symbolic.decapsulate_eq_ok.mp hopen).1

/-- The first message of the initiator. -/
theorem exists_first_message : ∃ e s', sampleInitiator.Does (some e) s' ∧ e.direction = .sent ∧
    e.message.header.encapsulation = firstEncapsulation ∧ e.secret = Symbolic.word 111 ∧
    s'.rootKey ≠ sampleInitiator.rootKey := by
  have hreturns : okAnd KemRatchet.sampleFirstSend (fun result s' =>
      decide (result.message.header.encapsulation = firstEncapsulation ∧
        s'.rootKey ≠ sampleInitiator.rootKey)) := by decide +kernel
  obtain ⟨result, s', hsend, hholds⟩ := okAnd_eq_true.mp hreturns
  obtain ⟨henc, hne⟩ := of_decide_eq_true hholds
  have hencaps : symbolicRatchet.encapsulate responderKeypair (sampleDraws 11).encapsulation =
      .ok (Symbolic.word 111, result.message.header.encapsulation) := by
    rw [henc]
    rfl
  exact ⟨_, s', .sent hsend rfl hencaps, rfl, henc, rfl, hne⟩

/-- There is no collision in a session of one message. -/
theorem noCollision_first_message {states : Set (KemRatchet symbolicRatchet)}
    {e : Exchange symbolicRatchet} (hsecret : e.secret = Symbolic.word 111)
    (hne : mixRoot symbolicRatchet sampleInitiator.rootKey e.secret ≠ sampleInitiator.rootKey) :
    (sampleAttacker states).NoCollision sampleInitiator.rootKey [e] where
  inputs := by
    rintro ⟨k, x⟩ ⟨ys, hstart, rfl⟩
    have hlen := hstart.length_le
    obtain rfl : ys = [] := by
      rw [← List.length_eq_zero_iff]
      simpa using hlen
    have hx : x = e.secret := by simpa using hstart
    rw [hx, hsecret]
    rfl
  root := Set.injOn_singleton _ _
  message := Set.injOn_singleton _ _
  first := by
    rintro p rfl
    rwa [hsecret] at hne

/-! ## Secrecy over whole runs -/

/-- An attacker has the key of a message if and only if it has its KEM secret, and
has seized a state with an earlier root key and got every secret between. -/
theorem learnsMessageKey_iff (hrun : History s₀ log s) (hfree : A.NoCollision s₀.rootKey log)
    (he : before ++ [e] <+: log) :
    A.LearnsMessageKey e.messageKey ↔
      e.secret ∈ A.kemSecrets ∧
        ∃ early late, early ++ late = before ∧ rootAfter s₀.rootKey early ∈ A.rootKeys ∧
          ∀ x ∈ late, x.secret ∈ A.kemSecrets := by
  have hbefore := hfree.mono ((List.prefix_append before [e]).trans he)
  rw [hfree.learnsMessageKey (hrun.rootKey_of_prefix he) he, hbefore.learnsRootKey_iff, and_comm]

theorem learnsMessageKey_iff_first_message : ∃ e s', History sampleInitiator [e] s' ∧
    ¬ (sampleAttacker {sampleInitiator}).LearnsMessageKey e.messageKey := by
  obtain ⟨e, s', hdoes, _, _, hsecret, hne⟩ := exists_first_message
  have hrun : History sampleInitiator ([] ++ [e]) s' := History.start.next hdoes
  rw [hdoes.rootKey_eq.2] at hne
  refine ⟨e, s', hrun, ?_⟩
  rw [learnsMessageKey_iff hrun (noCollision_first_message hsecret hne)
    (List.prefix_refl _), kemSecrets_seized_before]
  exact fun h => h.1

/-- The states that an end is in behind a message do not reveal its key. -/
theorem forward_secrecy (hrun : History s₀ log s) (hfree : A.NoCollision s₀.rootKey log)
    (he : before ++ [e] <+: log)
    (hseized : ∀ t ∈ A.states, ∃ later, before ++ [e] <+: later ∧ later <+: log ∧
      History s₀ later t) :
    ¬ A.LearnsMessageKey e.messageKey := by
  rw [learnsMessageKey_iff hrun hfree he]
  rintro ⟨_, early, late, rfl, ⟨t, ht, hkey⟩, _⟩
  obtain ⟨later, hbehind, hlater, hhistory⟩ := hseized t ht
  rw [hhistory.rootKey_eq] at hkey
  -- the seized root key would be one from before the message
  have hearly : early <+: log :=
    (List.prefix_append early late).trans ((List.prefix_append _ [e]).trans he)
  obtain rfl := hfree.rootAfter_inj hlater hearly hkey
  have hlen := hbehind.length_le
  simp only [List.length_append, List.length_singleton] at hlen
  omega

theorem forward_secrecy_first_message : ∃ e s', History sampleInitiator [e] s' ∧
    ¬ (sampleAttacker {s'}).LearnsMessageKey e.messageKey := by
  obtain ⟨e, s', hdoes, _, _, hsecret, hne⟩ := exists_first_message
  have hrun : History sampleInitiator ([] ++ [e]) s' := History.start.next hdoes
  rw [hdoes.rootKey_eq.2] at hne
  refine ⟨e, s', hrun, forward_secrecy hrun (noCollision_first_message hsecret hne)
    (List.prefix_refl _) ?_⟩
  rintro t rfl
  exact ⟨[e], List.prefix_refl _, List.prefix_refl _, hrun⟩

/-- If the secret of a message is missing, the earlier root key is one from behind
the message. -/
theorem exists_later_of_split {secrets : Set Bytes32} {early late mid : List (Exchange P)}
    (hsecret : e.secret ∉ secrets) (hsplit : early ++ late = before ++ e :: mid)
    (hlate : ∀ x ∈ late, x.secret ∈ secrets) :
    ∃ later, early = before ++ e :: later ∧ later <+: mid := by
  obtain ⟨rest, _, rfl⟩ | ⟨rest, rfl, hrest⟩ := List.append_eq_append_iff.mp hsplit
  · exact absurd (hlate e (by simp)) hsecret
  · cases rest with
    | nil =>
      obtain rfl : e :: mid = late := hrest
      exact absurd (hlate e List.mem_cons_self) hsecret
    | cons x later =>
      obtain ⟨rfl, rfl⟩ := List.cons.inj hrest
      exact ⟨later, rfl, List.prefix_append later late⟩

/-- The secret of a message to another key is not opened. -/
theorem secret_notMem_kemSecrets (hkem : P.IdealKem) (hsent : t.Does (some e) t')
    (hdir : e.direction = .sent)
    (hpeer : ∀ kp ∈ A.keypairs, t.theirPublicKey ≠ some (P.publicKey kp))
    (hown : e.secret ∉ A.secrets)
    (hother : ∀ kp ∈ A.keypairs, ∀ c ∈ A.wire, P.decapsulate kp c = .ok e.secret →
      c = e.message.header.encapsulation) :
    e.secret ∉ A.kemSecrets := by
  rintro (hmem | ⟨kp, hkp, c, hc, hopen⟩)
  · exact hown hmem
  · cases hsent with
    | sent hsend hpk henc =>
      have hne := hpeer kp hkp
      rw [hpk, ne_eq, Option.some.injEq, eq_comm] at hne
      rw [hother kp hkp c hc hopen] at hopen
      exact hkem.decapsulate_other henc hne hopen
    | accepted => simp at hdir

/-- Once an end has sent to a key that the attacker lacks, all keys are secret
until a later state is seized. -/
theorem secret_after_send (hkem : P.IdealKem) (hbefore : History s₀ before t)
    (hsent : t.Does (some e) t') (hdir : e.direction = .sent) (hafter : History t' after s)
    (hfree : A.NoCollision s₀.rootKey (before ++ e :: after))
    (hpeer : ∀ kp ∈ A.keypairs, t.theirPublicKey ≠ some (P.publicKey kp))
    (hown : e.secret ∉ A.secrets)
    (hother : ∀ kp ∈ A.keypairs, ∀ c ∈ A.wire, P.decapsulate kp c = .ok e.secret →
      c = e.message.header.encapsulation)
    (hseized : ∀ u ∈ A.states, ∀ later, later <+: after →
      u.rootKey ≠ rootAfter t'.rootKey later) :
    ¬ A.LearnsRootKey s.rootKey ∧ ∀ x ∈ e :: after, ¬ A.LearnsMessageKey x.messageKey := by
  have hsecret := secret_notMem_kemSecrets hkem hsent hdir hpeer hown hother
  have hmid : History s₀ (before ++ [e]) t' := hbefore.next hsent
  have hrun : History s₀ (before ++ e :: after) s := by
    simpa using hmid.append hafter
  -- no root key from behind the message is seized
  have hlater : ∀ later, later <+: after →
      rootAfter s₀.rootKey (before ++ e :: later) ∉ A.rootKeys := by
    rintro later hstart ⟨u, hu, hkey⟩
    refine hseized u hu later hstart ?_
    rw [hkey, hmid.rootKey_eq, ← rootAfter_append]
    simp
  have hnone : ∀ mid, mid <+: after → ¬ ∃ early late, early ++ late = before ++ e :: mid ∧
      rootAfter s₀.rootKey early ∈ A.rootKeys ∧ ∀ x ∈ late, x.secret ∈ A.kemSecrets := by
    rintro mid hmid ⟨early, late, hsplit, hearly, hlate⟩
    obtain ⟨later, rfl, hstart⟩ := exists_later_of_split hsecret hsplit hlate
    exact hlater later (hstart.trans hmid) hearly
  constructor
  · rw [hrun.rootKey_eq, hfree.learnsRootKey_iff]
    exact hnone after (List.prefix_refl _)
  · intro x hx
    obtain rfl | hx := List.mem_cons.mp hx
    · have hstart : before ++ [x] <+: before ++ x :: after := by simp
      rw [learnsMessageKey_iff hrun hfree hstart]
      exact fun h => hsecret h.1
    · obtain ⟨mid, rest, rfl⟩ := List.append_of_mem hx
      have hstart : before ++ e :: mid ++ [x] <+: before ++ e :: (mid ++ x :: rest) := by simp
      rw [learnsMessageKey_iff hrun hfree hstart]
      exact fun h => hnone mid (List.prefix_append _ _) h.2

theorem secret_after_first_message : ∃ e s', History sampleInitiator [e] s' ∧
    ¬ (sampleAttacker {sampleInitiator}).LearnsRootKey s'.rootKey := by
  obtain ⟨e, s', hdoes, hdir, henc, hsecret, hne⟩ := exists_first_message
  have hrun : History sampleInitiator ([] ++ [e]) s' := History.start.next hdoes
  refine ⟨e, s', hrun, (secret_after_send Symbolic.idealKem .start hdoes hdir .start
    (noCollision_first_message hsecret (hdoes.rootKey_eq.2 ▸ hne)) ?_ id ?_ ?_).1⟩
  · intro kp hkp heq
    exact keypairs_seized_before hkp (Option.some.inj heq).symm
  · rintro kp hkp c rfl _
    exact henc.symm
  · rintro u rfl later hlater heq
    rw [List.prefix_nil.mp hlater] at heq
    exact hne heq.symm

end Attacker

end Trelis.Ratchet
