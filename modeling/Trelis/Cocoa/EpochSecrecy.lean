import Trelis.Cocoa.Transcripts
import Trelis.Cocoa.TreeSecrecy

/-!
# Who can compute an epoch secret

An attacker reads all commits and welcomes, has some key pairs and seeds of its
own, and seizes the sessions of members at some times.  It derives the seeds of
nodes (`Derivable`), and runs the key schedule on what it has.

The epoch secret is a hash of the init secret before it and of the root seed.  So
the attacker computes it only from an init secret that it has got hold of, and
every root seed since (`learnsEpochSecret_iff`).  A session that is seized later
does not reveal it (`past_epochs_secret`), and a commit whose entries the attacker
cannot open shuts it out until it gets hold of a later session
(`commit_shuts_out`).
-/

namespace Trelis.Cocoa

variable {P : Primitives}

/-- The seed belongs to a node of the committer's path. -/
def HonestCommit.OnPath (c : HonestCommit P) (seed : Seed) : Prop :=
  ∃ k ≤ c.leaf.depth, c.SeedAt k seed

/-- What a recipient parses is what the committer has encrypted. -/
theorem EncryptedSeed.Carries.parsed (hcodec : P.EncapsulationCodec) {es : EncryptedSeed}
    {seed : Seed} {node : NodeIndex} {pk : P.PublicKey} {depth : Nat} {r : RecipientSeed P}
    (h : es.Carries seed node pk) (hparse : convertEncryptedSeed P depth es = .ok r) :
    ∃ encrypted, (∃ coins, encryptSeedToRecipient seed pk node coins = .ok encrypted) ∧
      r.encrypted = encrypted := by
  obtain ⟨coins, encrypted, henc, hbytes, hct⟩ := h
  refine ⟨encrypted, ⟨coins, henc⟩, ?_⟩
  simp only [encryptSeedToRecipient, Except.bind_eq_ok, toArray_eq_ok, Except.pure_eq_ok] at henc
  obtain ⟨shared, hencap, _, _, ciphertext, _, rfl⟩ := henc
  simp only [convertEncryptedSeed, Except.bind_eq_ok, toArray_eq_ok, Except.pure_eq_ok, hbytes,
    hct, hcodec.fromBytes_toBytes hencap] at hparse
  obtain ⟨_, hfrom, _, hsame, rfl⟩ := hparse
  rw [Except.ok.injEq] at hfrom
  rw [← hfrom, Subtype.ext hsame]

/-! ## The attacker -/

/-- A key pair opens the welcome of a message and reads the init secret. -/
inductive Message.ReadsInit (m : Message P) (kp : P.KeyPair) (initSecret : Bytes32) : Prop
  | welcome {w encapsulation shared aad plaintext} {nonce : FixedBytes 24}
      (hw : m.welcome = some w) (hnonce : w.encryptedInfo.take 24 = nonce.val)
      (hparse : P.encapsulationFromBytes w.encapsulation = .ok encapsulation)
      (hdecap : P.decapsulate kp encapsulation = .ok shared)
      (hopen : P.decryptCommitting (deriveWelcomeKey P shared) nonce (w.encryptedInfo.drop 24) aad =
        .ok plaintext)
      (hinit : plaintext.take 32 = initSecret.val)

/-- What an attacker has got hold of. -/
structure GroupAttacker (P : Primitives) where
  /-- The sessions that it has seized. -/
  sessions : Set (CocoaSession P)
  keypairs : Set P.KeyPair
  seeds : Set Seed
  /-- What it has read. -/
  sent : List (Message P)
  /-- The inputs on which the key schedule is run, by the attacker or by a
  member. -/
  evaluated : Set (Bytes32 × Seed × Bytes32)

namespace GroupAttacker

variable (A : GroupAttacker P)

/-- Its own key pairs, and those of the sessions. -/
def Holds (kp : P.KeyPair) : Prop := kp ∈ A.keypairs ∨ ∃ u ∈ A.sessions, u.ourKeypair = kp

def Derives (seed : Seed) : Prop := Derivable A.Holds (· ∈ A.seeds) A.sent seed

/-- The key pairs that it can use: those that it holds, and those of the seeds
that it derives. -/
def Uses (kp : P.KeyPair) : Prop :=
  A.Holds kp ∨ ∃ seed, A.Derives seed ∧ deriveNodeKeypair seed = .ok kp

/-- The init secrets of the sessions and of the welcomes that it opens. -/
def initSecrets : Set Bytes32 :=
  CocoaSession.initSecret '' A.sessions ∪
    {i | ∃ m ∈ A.sent, ∃ kp, A.Uses kp ∧ m.ReadsInit kp i}

def LearnsInitSecret (initSecret : Bytes32) : Prop :=
  Learns (mixInit P) A.evaluated A.initSecrets {x | A.Derives x.1} initSecret

def LearnsEpochSecret (epochSecret : Bytes32) : Prop :=
  (∃ u ∈ A.sessions, u.currentEpochSecret = epochSecret) ∨
    ∃ initSecret x, A.LearnsInitSecret initSecret ∧ A.Derives x.1 ∧
      (initSecret, x) ∈ A.evaluated ∧ mixEpoch P initSecret x = epochSecret

/-- The init secret behind some commits. -/
def initAfter (initSecret : Bytes32) (log : List (Advance P)) : Bytes32 :=
  chainKey (mixInit P) initSecret (log.map (·.inputs))

/-- The run is among what is evaluated, no two of the inputs collide, and none
gives the first init secret. -/
structure NoCollision (initSecret : Bytes32) (log : List (Advance P)) : Prop where
  inputs : chainInputs (mixInit P) initSecret (log.map (·.inputs)) ⊆ A.evaluated
  init : InjectiveOn (mixInit P) A.evaluated
  epoch : InjectiveOn (mixEpoch P) A.evaluated
  first : Avoids (mixInit P) A.evaluated initSecret

variable {A} {initSecret : Bytes32} {log before after : List (Advance P)} {e : Advance P}
  {s₀ s t : CocoaSession P}

theorem NoCollision.mono (h : A.NoCollision initSecret log) (hstart : before <+: log) :
    A.NoCollision initSecret before :=
  ⟨(chainInputs_mono (hstart.map _)).trans h.inputs, h.init, h.epoch, h.first⟩

/-- An init secret is learned from an earlier one, and every root seed since. -/
theorem NoCollision.learnsInitSecret_iff (h : A.NoCollision initSecret log) :
    A.LearnsInitSecret (initAfter initSecret log) ↔
      ∃ early late, early ++ late = log ∧ initAfter initSecret early ∈ A.initSecrets ∧
        ∀ x ∈ late, A.Derives x.delta := by
  rw [LearnsInitSecret, initAfter, h.init.learns_iff h.first h.inputs]
  constructor
  · rintro ⟨early, late, hsplit, hearly, hlate⟩
    obtain ⟨early, late, rfl, rfl, rfl⟩ := List.map_eq_append_iff.mp hsplit.symm
    exact ⟨early, late, rfl, hearly, fun x hx => hlate _ (List.mem_map_of_mem hx)⟩
  · rintro ⟨early, late, rfl, hearly, hlate⟩
    refine ⟨_, _, List.map_append.symm, hearly, ?_⟩
    intro x hx
    obtain ⟨y, hy, rfl⟩ := List.mem_map.mp hx
    exact hlate y hy

/-- Two times of the run with the same init secret are the same. -/
theorem NoCollision.initAfter_inj (h : A.NoCollision initSecret log) (hbefore : before <+: log)
    (hafter : after <+: log) (heq : initAfter initSecret before = initAfter initSecret after) :
    before = after := by
  have hinputs := h.init.steps_eq h.first (h.mono hbefore).inputs (h.mono hafter).inputs heq
  have hlen : before.length = after.length := by simpa using congrArg List.length hinputs
  rw [List.prefix_iff_eq_take.mp hbefore, List.prefix_iff_eq_take.mp hafter, hlen]

/-- The epoch secret of a commit. -/
def epochSecretOf (initSecret : Bytes32) (before : List (Advance P)) (e : Advance P) : Bytes32 :=
  mixEpoch P (initAfter initSecret before) e.inputs

/-- The epoch secrets of two commits of the run are different. -/
theorem NoCollision.epochSecretOf_inj (h : A.NoCollision initSecret log) {x : Advance P}
    (hbefore : before ++ [e] <+: log) (hafter : after ++ [x] <+: log)
    (heq : epochSecretOf initSecret before e = epochSecretOf initSecret after x) :
    before = after := by
  have hinputs : ∀ {before : List (Advance P)} {e : Advance P}, before ++ [e] <+: log →
      (initAfter initSecret before, e.inputs) ∈ A.evaluated := by
    intro before e hstart
    refine h.inputs ⟨before.map (·.inputs), ?_, rfl⟩
    simpa using hstart.map Advance.inputs
  obtain ⟨hinit, _⟩ := h.epoch.pair_eq (hinputs hbefore) (hinputs hafter) heq
  exact h.initAfter_inj ((List.prefix_append _ _).trans hbefore)
    ((List.prefix_append _ _).trans hafter) hinit

/-- An epoch secret that is not seized is computed from its own init secret and
root seed only. -/
theorem NoCollision.learnsEpochSecret (h : A.NoCollision initSecret (before ++ [e])) :
    A.LearnsEpochSecret (epochSecretOf initSecret before e) ↔
      (∃ u ∈ A.sessions, u.currentEpochSecret = epochSecretOf initSecret before e) ∨
        A.Derives e.delta ∧ ∃ early late, early ++ late = before ∧
          initAfter initSecret early ∈ A.initSecrets ∧ ∀ x ∈ late, A.Derives x.delta := by
  have hmem : (initAfter initSecret before, e.inputs) ∈ A.evaluated := by
    refine h.inputs ⟨before.map (·.inputs), ?_, rfl⟩
    simp
  rw [← (h.mono (List.prefix_append before [e])).learnsInitSecret_iff]
  refine or_congr_right ⟨?_, ?_⟩
  · rintro ⟨i, x, hlearns, hdelta, hD, heq⟩
    obtain ⟨rfl, rfl⟩ := h.epoch.pair_eq hD hmem heq
    exact ⟨hdelta, hlearns⟩
  · rintro ⟨hdelta, hlearns⟩
    exact ⟨_, _, hlearns, hdelta, hmem, rfl⟩

/-- The epoch secret of a member is that of the last commit. -/
theorem currentEpochSecret_eq (hrun : History s₀ (before ++ [e]) s) :
    s.currentEpochSecret = epochSecretOf s₀.initSecret before e := by
  generalize hlog : before ++ [e] = log at hrun
  induction hrun with
  | start => simp at hlog
  | @next log s entry s' hlog' hdoes ih =>
    cases entry with
    | none =>
      rw [CocoaSession.currentEpochSecret, hdoes.stays.secrets_eq]
      exact ih (by simpa using hlog)
    | some e' =>
      obtain ⟨rfl, hsame⟩ := List.append_inj' hlog rfl
      obtain rfl := List.singleton_inj.mp hsame
      rw [hdoes.moves.epochSecret_eq, hlog'.initSecret_eq]
      rfl

/-! ## A commit that shuts the attacker out -/

/-- The commit is an honest update or removal among those that the attacker has
read.  The attacker uses none of the keys that it encrypts to; its seeds are not
the attacker's or those of another commit, and none of them is hashed to from
outside the path. -/
structure ShutOut (A : GroupAttacker P) (run : List (HonestCommit P)) (c : HonestCommit P) :
    Prop where
  sent_eq : A.sent = run.map (·.message)
  mem : c ∈ run
  no_welcome : c.message.welcome = none
  recipients : ∀ k ≤ c.leaf.depth, ∀ r ∈ c.operation.recipients c.session (c.leaf.ancestor k),
    ∀ kp, A.Uses kp → P.publicKey kp ≠ r.2
  own : ∀ seed, c.OnPath seed → seed ∉ A.seeds
  others : ∀ seed, c.OnPath seed → ∀ c' ∈ run, c' ≠ c → ¬ c'.OnPath seed
  hash : ∀ seed, A.Derives seed → c.OnPath (deriveH1Seed P seed) → c.OnPath seed

namespace ShutOut

variable {run : List (HonestCommit P)} {c : HonestCommit P} {seed : Seed}

/-- The attacker reads no seed of the path. -/
theorem not_reads (h : A.ShutOut run c) (hkem : P.IdealKem) (haead : P.IdealAead)
    (hcodec : P.EncapsulationCodec) {m : Message P} (hm : m ∈ A.sent) {kp : P.KeyPair}
    (hkp : A.Uses kp) (hread : m.Reads kp seed) : ¬ c.OnPath seed := by
  intro hpath
  rw [h.sent_eq] at hm
  obtain ⟨c', hc', rfl⟩ := List.mem_map.mp hm
  by_cases hsame : c' = c
  · subst hsame
    cases hread with
    | entry hpu hes hparse hopen =>
      obtain ⟨k, hk, _, r, hr, _, _, hcarries⟩ := c'.entry hpu hes
      obtain ⟨encrypted, ⟨_, henc⟩, hparsed⟩ := hcarries.parsed hcodec hparse
      rw [hparsed] at hopen
      exact decryptSeed_other hkem haead henc (h.recipients k hk r hr kp hkp) seed hopen
    | welcome hw => simp [h.no_welcome] at hw
  · apply h.others seed hpath c' hc' hsame
    obtain ⟨k, hk, _, hat⟩ | ⟨_, hat⟩ := c'.discloses_of_reads haead hread
    · exact ⟨k, hk, hat⟩
    · exact ⟨_, le_rfl, hat⟩

/-- It derives no seed of the path. -/
theorem not_derives (h : A.ShutOut run c) (hkem : P.IdealKem) (haead : P.IdealAead)
    (hcodec : P.EncapsulationCodec) (hderives : A.Derives seed) : ¬ c.OnPath seed := by
  induction hderives with
  | own hown => exact fun hpath => h.own _ hpath hown
  | next hderives ih => exact fun hpath => ih (h.hash _ hderives hpath)
  | read hm hkp hread => exact h.not_reads hkem haead hcodec hm (.inl hkp) hread
  | readWith hderives hkp hm hread _ =>
    exact h.not_reads hkem haead hcodec hm (.inr ⟨_, hderives, hkp⟩) hread

end ShutOut

/-! ## A group of two -/

section Sample

open Symbolic

/-- Who has seized some sessions, and has some seeds. -/
def pairAttacker (sessions : Set (CocoaSession symbolic)) (seeds : Set Seed)
    (sent : List (Message symbolic)) : GroupAttacker symbolic where
  sessions := sessions
  keypairs := ∅
  seeds := seeds
  sent := sent
  evaluated := {(pairUpdater.initSecret, pairChange.delta, pairTranscript)}

theorem mixInit_pair_ne :
    mixInit symbolic pairUpdater.initSecret (pairChange.delta, pairTranscript) ≠
      pairUpdater.initSecret := by
  decide +kernel

/-- There is no collision in a run of one commit. -/
theorem noCollision_pair {sessions : Set (CocoaSession symbolic)} {seeds : Set Seed}
    {sent : List (Message symbolic)} {e : Advance symbolic}
    (hinputs : e.inputs = (pairChange.delta, pairTranscript)) :
    (pairAttacker sessions seeds sent).NoCollision pairUpdater.initSecret [e] where
  inputs := by
    rintro ⟨i, x⟩ ⟨ys, hstart, rfl⟩
    have hlen := hstart.length_le
    obtain rfl : ys = [] := by
      rw [← List.length_eq_zero_iff]
      simpa using hlen
    have hx : x = e.inputs := by simpa using hstart
    rw [hx, hinputs]
    rfl
  init := Set.injOn_singleton _ _
  epoch := Set.injOn_singleton _ _
  first := by
    rintro p rfl
    exact mixInit_pair_ne

theorem inputs_pair {e : Advance symbolic} (hchange : e.change = pairChange)
    (htranscript : e.transcript = pairTranscript) :
    e.inputs = (pairChange.delta, pairTranscript) := by
  rw [Advance.inputs, htranscript, ← hchange]
  rfl

end Sample

/-! ## Secrecy over whole runs -/

variable {t' : CocoaSession P}

/-- An attacker has the epoch secret that a member moves to if and only if it has
seized a session with it, or it derives the root seed, and has got hold of an
earlier init secret and every root seed between. -/
theorem learnsEpochSecret_iff (hbefore : History s₀ before t) (hdoes : t.Does (some e) t')
    (hfree : A.NoCollision s₀.initSecret (before ++ [e])) :
    A.LearnsEpochSecret t'.currentEpochSecret ↔
      (∃ u ∈ A.sessions, u.currentEpochSecret = t'.currentEpochSecret) ∨
        A.Derives e.delta ∧ ∃ early late, early ++ late = before ∧
          initAfter s₀.initSecret early ∈ A.initSecrets ∧ ∀ x ∈ late, A.Derives x.delta := by
  rw [currentEpochSecret_eq (hbefore.next hdoes)]
  exact hfree.learnsEpochSecret

/-- The receiver is seized, and the leaf seed of the update is known. -/
theorem learnsEpochSecret_iff_pair : ∃ e s', History pairUpdater [e] s' ∧
    (pairAttacker {pairReceiver} {Symbolic.word 500} []).LearnsEpochSecret
      s'.currentEpochSecret := by
  obtain ⟨e, s', _, hdoes, _, _, hchange, htranscript⟩ := exists_pair_update
  have hrun : History pairUpdater ([] ++ [e]) s' := History.start.next hdoes
  refine ⟨e, s', hrun, (learnsEpochSecret_iff .start hdoes
    (noCollision_pair (inputs_pair hchange htranscript))).mpr (.inr ⟨?_, [], [], rfl, ?_, ?_⟩)⟩
  · have hdelta : e.delta = deriveH1Seed symbolic (Symbolic.word 500) :=
      congrArg EpochChange.delta hchange
    rw [hdelta]
    exact .next (.own rfl)
  · exact .inl ⟨pairReceiver, rfl, rfl⟩
  · simp

/-- The sessions of a member in later epochs, and the init secrets from then on,
do not reveal an epoch secret. -/
theorem past_epochs_secret (hbefore : History s₀ before t) (hdoes : t.Does (some e) t')
    (hlog : before ++ [e] <+: log) (hfree : A.NoCollision s₀.initSecret log)
    (hsessions : ∀ u ∈ A.sessions, ∃ later x, before ++ [e] <+: later ∧ later ++ [x] <+: log ∧
      History s₀ (later ++ [x]) u)
    (hwelcomes : ∀ m ∈ A.sent, ∀ kp i, A.Uses kp → m.ReadsInit kp i →
      ∃ later, before ++ [e] <+: later ∧ later <+: log ∧ i = initAfter s₀.initSecret later) :
    ¬ A.LearnsEpochSecret t'.currentEpochSecret := by
  rw [learnsEpochSecret_iff hbefore hdoes (hfree.mono hlog)]
  have hshorter : ∀ {early later : List (Advance P)}, early <+: before →
      before ++ [e] <+: later → early ≠ later := by
    rintro early later hearly hlater rfl
    have hlen := hlater.length_le
    have hle := hearly.length_le
    simp only [List.length_append, List.length_singleton] at hlen
    omega
  rintro (⟨u, hu, heq⟩ | ⟨_, early, late, hsplit, hearly, _⟩)
  · obtain ⟨later, x, hlater, hstart, hhistory⟩ := hsessions u hu
    rw [currentEpochSecret_eq hhistory, currentEpochSecret_eq (hbefore.next hdoes)] at heq
    exact hshorter (List.prefix_refl _) hlater
      (hfree.epochSecretOf_inj hlog hstart heq.symm)
  · -- the init secret is one from before the commit
    have hstart : early <+: before := ⟨late, hsplit⟩
    suffices hlater : ∃ later, before ++ [e] <+: later ∧ later <+: log ∧
        initAfter s₀.initSecret early = initAfter s₀.initSecret later by
      obtain ⟨later, hbehind, hlater, heq⟩ := hlater
      exact hshorter hstart hbehind (hfree.initAfter_inj
        (hstart.trans ((List.prefix_append _ _).trans hlog)) hlater heq)
    obtain ⟨u, hu, heq⟩ | ⟨m, hm, kp, hkp, hread⟩ := hearly
    · obtain ⟨later, x, hlater, hafter, hhistory⟩ := hsessions u hu
      exact ⟨later ++ [x], hlater.trans (List.prefix_append _ _), hafter,
        heq.symm.trans hhistory.initSecret_eq⟩
    · exact hwelcomes m hm kp _ hkp hread

section Sample

open Symbolic

/-- The inputs of a second update. -/
def secondInputs : Seed × Bytes32 :=
  (deriveH1Seed symbolic (word 700),
    mixTranscript symbolic pairTranscript ⟨deriveH1Seed symbolic (word 700), [], []⟩)

theorem exists_second_update : ∃ e x s' s'', pairUpdater.Does (some e) s' ∧ s'.Does (some x) s'' ∧
    e.inputs = (pairChange.delta, pairTranscript) ∧ x.inputs = secondInputs := by
  have hrun : okAnd (Operation.update.build (word 50) (draws 500) pairUpdater) (fun _ s' =>
      okAnd (Operation.update.build (word 50) (draws 700) s') fun _ s'' =>
        decide (s'.transcriptHash = pairTranscript ∧ s'.tree.treeDepth = 1 ∧
          s''.transcriptHash = secondInputs.2)) := by
    decide +kernel
  rcases okAnd_eq_true.mp hrun with ⟨m, s', hbuild, hrun⟩
  rcases okAnd_eq_true.mp hrun with ⟨m', s'', hbuild', htest⟩
  rcases of_decide_eq_true htest with ⟨htranscript, hdepth, htranscript'⟩
  refine ⟨_, _, s', s'', .built hbuild rfl, .built hbuild' rfl, ?_, ?_⟩
  · rw [Advance.inputs, htranscript]
    rfl
  · simp only [Advance.inputs, htranscript', Operation.session, hdepth]
    rfl

/-- Where the key schedule is run. -/
def secondEvaluated : List (Bytes32 × Seed × Bytes32) :=
  [(pairUpdater.initSecret, pairChange.delta, pairTranscript),
    (mixInit symbolic pairUpdater.initSecret (pairChange.delta, pairTranscript), secondInputs)]

/-- Who has seized some sessions after the second update. -/
def lateAttacker (sessions : Set (CocoaSession symbolic)) : GroupAttacker symbolic where
  sessions := sessions
  keypairs := ∅
  seeds := ∅
  sent := []
  evaluated := {p | p ∈ secondEvaluated}

/-- There is no collision in a run of two commits. -/
theorem noCollision_second {sessions : Set (CocoaSession symbolic)} {e x : Advance symbolic}
    (he : e.inputs = (pairChange.delta, pairTranscript)) (hx : x.inputs = secondInputs) :
    (lateAttacker sessions).NoCollision pairUpdater.initSecret [e, x] := by
  have hinit : ∀ p ∈ secondEvaluated, ∀ q ∈ secondEvaluated,
      mixInit symbolic p.1 p.2 = mixInit symbolic q.1 q.2 → p = q := by decide +kernel
  have hepoch : ∀ p ∈ secondEvaluated, ∀ q ∈ secondEvaluated,
      mixEpoch symbolic p.1 p.2 = mixEpoch symbolic q.1 q.2 → p = q := by decide +kernel
  have hfirst : ∀ p ∈ secondEvaluated, mixInit symbolic p.1 p.2 ≠ pairUpdater.initSecret := by
    decide +kernel
  refine ⟨?_, fun p hp q hq => hinit p hp q hq, fun p hp q hq => hepoch p hp q hq, hfirst⟩
  rintro ⟨i, y⟩ ⟨ys, hstart, rfl⟩
  simp only [List.map_cons, List.map_nil, he, hx] at hstart
  rcases ys with _ | ⟨y', _ | ⟨_, _⟩⟩
  · obtain rfl : y = (pairChange.delta, pairTranscript) := by simpa using hstart
    exact List.mem_cons_self
  · obtain ⟨rfl, rfl⟩ : y' = (pairChange.delta, pairTranscript) ∧ y = secondInputs := by
      simpa using hstart
    exact List.mem_cons_of_mem _ (List.mem_singleton_self _)
  · have hlen := hstart.length_le
    simp at hlen

theorem past_epochs_secret_second : ∃ e x s' s'', History pairUpdater [e] s' ∧
    History pairUpdater [e, x] s'' ∧
    ¬ (lateAttacker {s''}).LearnsEpochSecret s'.currentEpochSecret := by
  obtain ⟨e, x, s', s'', hdoes, hdoes', he, hx⟩ := exists_second_update
  have hfirst : History pairUpdater ([] ++ [e]) s' := History.start.next hdoes
  have hsecond : History pairUpdater ([e] ++ [x]) s'' := hfirst.next hdoes'
  have hlog : [] ++ [e] <+: [e, x] := ⟨[x], rfl⟩
  refine ⟨e, x, s', s'', hfirst, hsecond,
    past_epochs_secret .start hdoes hlog (noCollision_second he hx) ?_ ?_⟩
  · rintro u rfl
    exact ⟨[e], x, List.prefix_refl _, List.prefix_refl _, hsecond⟩
  · intro m hm
    cases hm

end Sample

/-- If a root seed is missing, the earlier init secret is one from behind its
commit. -/
theorem exists_later_of_split {early late mid : List (Advance P)} (hdelta : ¬ A.Derives e.delta)
    (hsplit : early ++ late = before ++ e :: mid) (hlate : ∀ x ∈ late, A.Derives x.delta) :
    ∃ later, early = before ++ e :: later ∧ later <+: mid := by
  obtain ⟨rest, _, rfl⟩ | ⟨rest, rfl, hrest⟩ := List.append_eq_append_iff.mp hsplit
  · exact absurd (hlate e (by simp)) hdelta
  · cases rest with
    | nil =>
      obtain rfl : e :: mid = late := hrest
      exact absurd (hlate e List.mem_cons_self) hdelta
    | cons x later =>
      obtain ⟨rfl, rfl⟩ := List.cons.inj hrest
      exact ⟨later, rfl, List.prefix_append later late⟩

/-- Behind an honest update or removal whose entries the attacker cannot open, all
epoch secrets are secret until a later session is seized or a later welcome is
opened. -/
theorem commit_shuts_out (hkem : P.IdealKem) (haead : P.IdealAead) (hcodec : P.EncapsulationCodec)
    {run : List (HonestCommit P)} {c : HonestCommit P} (hshut : A.ShutOut run c)
    (hbefore : History s₀ before t) (hdoes : t.Does (some e) t')
    (hdelta : c.SeedAt c.leaf.depth e.delta) (hafter : History t' after s)
    (hfree : A.NoCollision s₀.initSecret (before ++ e :: after))
    (hinit : ∀ later, later <+: after → initAfter t'.initSecret later ∉ A.initSecrets)
    (hsessions : ∀ u ∈ A.sessions, u.currentEpochSecret ≠ s.currentEpochSecret) :
    ¬ A.LearnsEpochSecret s.currentEpochSecret := by
  have hnot : ¬ A.Derives e.delta := fun hderives =>
    hshut.not_derives hkem haead hcodec hderives ⟨_, le_rfl, hdelta⟩
  have hmid : History s₀ (before ++ [e]) t' := hbefore.next hdoes
  have hrun := hmid.append hafter
  cases after using List.reverseRecOn with
  | nil =>
    rw [List.append_nil] at hrun
    rw [currentEpochSecret_eq hrun] at hsessions ⊢
    rw [hfree.learnsEpochSecret]
    rintro (⟨u, hu, heq⟩ | ⟨hderives, _⟩)
    · exact hsessions u hu heq
    · exact hnot hderives
  | append_singleton mid x =>
    have hlog : before ++ e :: (mid ++ [x]) = (before ++ e :: mid) ++ [x] := by simp
    rw [show before ++ [e] ++ (mid ++ [x]) = (before ++ e :: mid) ++ [x] by simp] at hrun
    rw [hlog] at hfree
    rw [currentEpochSecret_eq hrun] at hsessions ⊢
    rw [hfree.learnsEpochSecret]
    rintro (⟨u, hu, heq⟩ | ⟨_, early, late, hsplit, hearly, hlate⟩)
    · exact hsessions u hu heq
    · obtain ⟨later, rfl, hstart⟩ := exists_later_of_split hnot hsplit hlate
      refine hinit later (hstart.trans (List.prefix_append _ _)) ?_
      have hsame : initAfter s₀.initSecret (before ++ e :: later) =
          initAfter t'.initSecret later := by
        rw [hmid.initSecret_eq, initAfter, initAfter, ← chainKey_append, ← List.map_append,
          List.append_assoc, List.singleton_append]
      rwa [← hsame]

section Sample

open Symbolic

/-- The update of the pair. -/
theorem exists_pair_commit : ∃ c : HonestCommit symbolic, c.operation = .update ∧
    c.session = pairUpdater ∧ c.message.welcome = none ∧
    ∃ e, pairUpdater.Does (some e) c.after ∧ c.SeedAt c.leaf.depth e.delta ∧
      e.inputs = (pairChange.delta, pairTranscript) := by
  have hrun : okAnd (Operation.update.build (word 50) (draws 500) pairUpdater) (fun m s' =>
      decide (m.welcome.isNone ∧ s'.transcriptHash = pairTranscript)) := by
    decide +kernel
  rcases okAnd_eq_true.mp hrun with ⟨m, s', hbuild, htest⟩
  rcases of_decide_eq_true htest with ⟨hwelcome, htranscript⟩
  refine ⟨⟨.update, word 50, draws 500, pairUpdater, m, s', hbuild⟩, rfl, rfl,
    Option.isNone_iff_eq_none.mp hwelcome, _, .built hbuild rfl, ⟨word 500, rfl, rfl⟩, ?_⟩
  rw [Advance.inputs, htranscript]
  rfl

/-- The update is encrypted to the receiver only. -/
theorem recipients_pair {k : Nat} (hk : k ≤ 1) {r : NodeIndex × symbolic.PublicKey}
    (hr : r ∈ Operation.update.recipients pairUpdater ((NodeIndex.leaf 1 1).ancestor k)) :
    r.2 = key 10 := by
  have hall : ∀ k ≤ 1, ∀ r ∈ Operation.update.recipients pairUpdater
      ((NodeIndex.leaf 1 1).ancestor k), r.2 = key 10 := by decide +kernel
  exact hall k hk r hr

/-- The attacker has seized the updater before the update. -/
theorem uses_pair {c : HonestCommit symbolic} (hoperation : c.operation = .update)
    (hsession : c.session = pairUpdater) (hwelcome : c.message.welcome = none) {seed : Seed} :
    ¬ (pairAttacker {pairUpdater} ∅ [c.message]).Derives seed := by
  have hother : ∀ m ∈ [c.message], ∀ seed, ¬ m.Reads (keyPair 11) seed := by
    intro m hm seed hread
    rw [List.mem_singleton.mp hm] at hread
    cases hread with
    | entry hpu hes hparse hopen =>
      obtain ⟨k, hk, _, r, hr, _, _, hcarries⟩ := c.entry hpu hes
      obtain ⟨encrypted, ⟨_, henc⟩, hparsed⟩ := hcarries.parsed encapsulationCodec hparse
      rw [HonestCommit.leaf, hoperation, hsession] at hk hr
      rw [hparsed] at hopen
      refine decryptSeed_other idealKem idealAead henc ?_ seed hopen
      rw [recipients_pair hk hr]
      decide
    | welcome hw => simp [hwelcome] at hw
  intro hderives
  induction hderives with
  | own hown => exact hown
  | next _ ih => exact ih
  | read hm hkp hread =>
    obtain hnone | ⟨u, rfl, rfl⟩ := hkp
    · exact hnone
    · exact hother _ hm _ hread
  | readWith _ _ _ _ ih => exact ih

theorem commit_shuts_out_pair : ∃ c : HonestCommit symbolic, ∃ e,
    pairUpdater.Does (some e) c.after ∧
    ¬ (pairAttacker {pairUpdater} ∅ [c.message]).LearnsEpochSecret c.after.currentEpochSecret := by
  obtain ⟨c, hoperation, hsession, hwelcome, e, hdoes, hdelta, hinputs⟩ := exists_pair_commit
  have hnone : ∀ {seed : Seed}, ¬ (pairAttacker {pairUpdater} ∅ [c.message]).Derives seed :=
    uses_pair hoperation hsession hwelcome
  have hshut : (pairAttacker {pairUpdater} ∅ [c.message]).ShutOut [c] c := by
    refine ⟨rfl, List.mem_singleton_self c, hwelcome, ?_, fun _ _ => id, ?_, ?_⟩
    · intro k hk r hr kp hkp
      rw [HonestCommit.leaf, hoperation, hsession] at hk hr
      rw [recipients_pair hk hr]
      obtain (hempty | ⟨u, rfl, rfl⟩) | ⟨seed, hderives, _⟩ := hkp
      · exact hempty.elim
      · decide
      · exact (hnone hderives).elim
    · intro _ _ c' hc' hne
      exact absurd (List.mem_singleton.mp hc') hne
    · exact fun _ hderives => (hnone hderives).elim
  refine ⟨c, e, hdoes, commit_shuts_out idealKem idealAead encapsulationCodec hshut .start hdoes
    hdelta .start (noCollision_pair hinputs) ?_ ?_⟩
  · intro later hlater
    obtain rfl := List.prefix_nil.mp hlater
    rintro (⟨u, rfl, heq⟩ | ⟨m, hm, kp, _, hread⟩)
    · have hinit := hdoes.moves.initSecret_eq
      rw [hinputs] at hinit
      exact mixInit_pair_ne (hinit.symm.trans heq.symm)
    · rw [List.mem_singleton.mp hm] at hread
      obtain ⟨hw⟩ := hread
      simp [hwelcome] at hw
  · rintro u rfl heq
    rw [hdoes.moves.epochSecret_eq, hinputs] at heq
    revert heq
    decide +kernel

end Sample

end GroupAttacker

end Trelis.Cocoa
