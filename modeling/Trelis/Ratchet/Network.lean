import Trelis.Ratchet.Conversation
import Trelis.Ratchet.History

/-!
# A session over a hostile network

The two ends of a session call `send_message` and `receive_message` when they
like, and the network delivers whatever it likes: it drops, delays, repeats and
reflects messages, and writes headers and nonces of its own around their
ciphertexts.  All that it cannot do is to seal a ciphertext.

A message key is a hash of the root key, and so of everything that its owner has
exchanged before.  So an end accepts a message only if its peer had the same
history when it sent it.  Then the histories of the two ends have a common part,
message for message, behind which each end has only sent (`Agreed`).
-/

namespace Trelis.Ratchet

variable {P : RatchetPrimitives}

/-- An ideal AEAD: what opens a sealed ciphertext has its key and its associated
data, and yields its plaintext. -/
structure RatchetPrimitives.IdealAead (P : RatchetPrimitives) : Prop where
  decrypt_sealed : ∀ {k n pt aad ct k' n' aad' pt'}, P.encrypt k n pt aad = .ok ct →
    P.decrypt k' n' ct aad' = .ok pt' → k' = k ∧ aad' = aad ∧ pt' = pt

/-- The two ends, with their histories. -/
structure Network (P : RatchetPrimitives) where
  state : Party → KemRatchet P
  log : Party → List (Exchange P)

namespace Network

variable {n n' : Network P} {sessionKey : Bytes32} {p q : Party} {e x y : Exchange P}

/-- Two ends that have been opened with a session key. -/
def Opens (sessionKey : Bytes32) (n : Network P) : Prop :=
  (∃ theirPublicKey coins currentTime, KemRatchet.initInitiator sessionKey theirPublicKey
      currentTime coins = .ok (n.state .initiator)) ∧
    (∃ ourKeypair currentTime,
      n.state .responder = KemRatchet.initResponder sessionKey ourKeypair currentTime) ∧
    ∀ p, n.log p = []

/-- The ciphertext was sealed by an end. -/
def Sealed (n : Network P) (ciphertext : Bytes) : Prop :=
  ∃ q, ∃ x ∈ n.log q, x.direction = .sent ∧ x.message.ciphertext = ciphertext

/-- An end makes a call. -/
def record (n : Network P) (p : Party) (entry : Option (Exchange P)) (s : KemRatchet P) :
    Network P where
  state := Function.update n.state p s
  log := Function.update n.log p (n.log p ++ entry.toList)

/-- An end sends, or is given a message of which the network did not make the
ciphertext. -/
def Step (n n' : Network P) : Prop :=
  ∃ p entry s, (n.state p).Does entry s ∧
    (∀ e, entry = some e → e.direction = .accepted → n.Sealed e.message.ciphertext) ∧
    n' = n.record p entry s

/-! ## Agreement -/

/-- One message, at its sender and at its receiver. -/
structure Mirrors (x y : Exchange P) : Prop where
  direction : x.direction ≠ y.direction
  plaintext : x.plaintext = y.plaintext
  ciphertext : x.message.ciphertext = y.message.ciphertext
  header : x.message.header.toBytes = y.message.header.toBytes
  rootKey : x.rootKey = y.rootKey
  secret : x.secret = y.secret

theorem Mirrors.symm (h : Mirrors x y) : Mirrors y x :=
  ⟨h.direction.symm, h.plaintext.symm, h.ciphertext.symm, h.header.symm, h.rootKey.symm,
    h.secret.symm⟩

/-- The histories of the two ends begin alike, and go on with messages that the
other end has not accepted. -/
def Agreed (n : Network P) : Prop :=
  ∃ shared ahead : Party → List (Exchange P),
    (∀ p, n.log p = shared p ++ ahead p ∧ ∀ e ∈ ahead p, e.direction = .sent) ∧
      ∀ p, List.Forall₂ Mirrors (shared p) (shared p.other)

/-- What an end has accepted, and what it has sent. -/
def plaintexts (n : Network P) (p : Party) (direction : Direction) : List Bytes :=
  ((n.log p).filter (·.direction = direction)).map (·.plaintext)

/-- The inputs on which the ends have run the key derivation. -/
def kdfInputs (n : Network P) : Set (Bytes32 × Bytes32) :=
  {i | ∃ p, ∃ e ∈ n.log p, i = (e.rootKey, e.secret)}

/-- None of these collide, and the two ends have not drawn the same secret. -/
structure Fresh (sessionKey : Bytes32) (n : Network P) : Prop where
  root : InjectiveOn (mixRoot P) n.kdfInputs
  message : InjectiveOn (mixMessage P) n.kdfInputs
  first : Avoids (mixRoot P) n.kdfInputs (deriveInitialRootKey P sessionKey)
  secret : ∀ x ∈ n.log .initiator, ∀ y ∈ n.log .responder, x.direction = .sent →
    y.direction = .sent → x.secret ≠ y.secret

theorem Fresh.secret_ne (h : n.Fresh sessionKey) (hx : x ∈ n.log p) (hy : y ∈ n.log p.other)
    (hxs : x.direction = .sent) (hys : y.direction = .sent) : x.secret ≠ y.secret := by
  cases p with
  | initiator => exact h.secret x hx y hy hxs hys
  | responder => exact (h.secret y hy x hx hys hxs).symm

/-- The histories only grow. -/
theorem log_prefix_of_step (h : n.Step n') (p : Party) : n.log p <+: n'.log p := by
  obtain ⟨q, entry, s, _, _, rfl⟩ := h
  by_cases hpq : p = q
  · subst hpq
    simp [record]
  · simp [record, Function.update_of_ne hpq]

theorem kdfInputs_mono (h : ∀ p, n.log p <+: n'.log p) : n.kdfInputs ⊆ n'.kdfInputs := by
  rintro i ⟨p, e, he, rfl⟩
  exact ⟨p, e, (h p).subset he, rfl⟩

theorem Fresh.mono (h : n'.Fresh sessionKey) (hlog : ∀ p, n.log p <+: n'.log p) :
    n.Fresh sessionKey where
  root := h.root.mono (kdfInputs_mono hlog)
  message := h.message.mono (kdfInputs_mono hlog)
  first i hi := h.first i (kdfInputs_mono hlog hi)
  secret x hx y hy := h.secret x ((hlog _).subset hx) y ((hlog _).subset hy)

/-! ## Histories -/

/-- Each end has got from its first root key to its state by its history. -/
def Recorded (sessionKey : Bytes32) (n : Network P) : Prop :=
  ∀ p, ∃ s₀, s₀.rootKey = deriveInitialRootKey P sessionKey ∧ History s₀ (n.log p) (n.state p)

theorem Opens.recorded (h : n.Opens sessionKey) : n.Recorded sessionKey := by
  obtain ⟨⟨theirPublicKey, coins, currentTime, hinit⟩, ⟨ourKeypair, answeredAt, hresp⟩, hempty⟩ := h
  intro p
  refine ⟨n.state p, ?_, by rw [hempty]; exact .start⟩
  cases p with
  | initiator =>
    simp only [KemRatchet.initInitiator, Except.bind_eq_ok, Except.pure_eq_ok] at hinit
    obtain ⟨_, _, hinit⟩ := hinit
    rw [← hinit]
  | responder => rw [hresp]; rfl

theorem Recorded.step (h : n.Recorded sessionKey) (hstep : n.Step n') : n'.Recorded sessionKey := by
  obtain ⟨q, entry, s, hdoes, _, rfl⟩ := hstep
  intro p
  obtain ⟨s₀, hroot, hrun⟩ := h p
  refine ⟨s₀, hroot, ?_⟩
  by_cases hpq : p = q
  · subst hpq
    simpa [record] using hrun.next hdoes
  · simpa [record, Function.update_of_ne hpq] using hrun

/-- The root key before a message of the history. -/
theorem Recorded.rootKey (h : n.Recorded sessionKey) {before : List (Exchange P)}
    (hstart : before ++ [e] <+: n.log p) :
    e.rootKey = rootAfter (deriveInitialRootKey P sessionKey) before := by
  obtain ⟨s₀, hroot, hrun⟩ := h p
  rw [hrun.rootKey_of_prefix hstart, hroot]

/-- What an end has sent was sealed. -/
theorem Recorded.sealed (h : n.Recorded sessionKey) (he : e ∈ n.log p)
    (hdir : e.direction = .sent) :
    P.encrypt e.messageKey e.message.nonce e.plaintext e.message.header.toBytes =
      .ok e.message.ciphertext := by
  obtain ⟨s₀, _, hrun⟩ := h p
  obtain ⟨t, t', hdoes⟩ := hrun.exists_does he
  exact hdoes.sealed hdir

/-- The chain of a history is among the inputs. -/
theorem Recorded.chainInputs_subset (h : n.Recorded sessionKey) {log : List (Exchange P)}
    (hlog : log <+: n.log p) :
    chainInputs (mixRoot P) (deriveInitialRootKey P sessionKey) (log.map (·.secret)) ⊆
      n.kdfInputs := by
  rintro ⟨k, secret⟩ ⟨secrets, hstart, rfl⟩
  obtain ⟨rest, hsplit⟩ := hstart.trans (hlog.map _)
  obtain ⟨front, back, hfront, hmap, _⟩ := List.map_eq_append_iff.mp hsplit.symm
  obtain ⟨before, last, rfl, rfl, hlast⟩ := List.map_eq_append_iff.mp hmap
  obtain ⟨e, rfl, rfl⟩ := List.map_eq_singleton_iff.mp hlast
  have he : before ++ [e] <+: n.log p := ⟨back, hfront.symm⟩
  refine ⟨p, e, he.subset (by simp), ?_⟩
  rw [h.rootKey he]
  rfl

/-- Two times, at whichever ends, with the same root key have the same secrets
behind them. -/
theorem Recorded.secrets_eq (h : n.Recorded sessionKey) (hfresh : n.Fresh sessionKey)
    {log log' : List (Exchange P)} (hp : log <+: n.log p) (hq : log' <+: n.log q)
    (heq : rootAfter (deriveInitialRootKey P sessionKey) log =
      rootAfter (deriveInitialRootKey P sessionKey) log') :
    log.map (·.secret) = log'.map (·.secret) :=
  hfresh.root.steps_eq hfresh.first (h.chainInputs_subset hp) (h.chainInputs_subset hq) heq

/-! ## Accepted messages -/

/-- What an end accepts is a message that its peer has sent with the same secrets
behind it. -/
theorem exists_sent_of_accepted (haead : P.IdealAead) {s : KemRatchet P}
    (h : n.Recorded sessionKey) (hfresh : (n.record p (some e) s).Fresh sessionKey)
    (hdoes : (n.state p).Does (some e) s) (hdir : e.direction = .accepted)
    (hsealed : n.Sealed e.message.ciphertext) :
    ∃ x before after, n.log p.other = before ++ x :: after ∧ x.direction = .sent ∧
      before.map (·.secret) = (n.log p).map (·.secret) ∧ Mirrors e x := by
  have hgrow : ∀ q, n.log q <+: (n.record p (some e) s).log q :=
    log_prefix_of_step ⟨p, some e, s, hdoes, by simpa using fun _ => hsealed, rfl⟩
  obtain ⟨q, x, hx, hxdir, hct⟩ := hsealed
  -- the key, the associated data and the plaintext are those of the sender
  have hopen := hdoes.opened hdir
  rw [← hct] at hopen
  obtain ⟨hkey, hheader, hplain⟩ := haead.decrypt_sealed (h.sealed hx hxdir) hopen
  have hein : (e.rootKey, e.secret) ∈ (n.record p (some e) s).kdfInputs :=
    ⟨p, e, by simp [record], rfl⟩
  have hxin : (x.rootKey, x.secret) ∈ (n.record p (some e) s).kdfInputs :=
    ⟨q, x, (hgrow q).subset hx, rfl⟩
  obtain ⟨hroot, hsecret⟩ := hfresh.message.pair_eq hein hxin hkey
  obtain ⟨before, after, hsplit⟩ := List.append_of_mem hx
  -- so is the root key, and with it the history
  have hsecrets : before.map (·.secret) = (n.log p).map (·.secret) := by
    have hbefore : before ++ [x] <+: n.log q := ⟨after, by simp [hsplit]⟩
    obtain ⟨s₀, hs₀, hrun⟩ := h p
    refine h.secrets_eq (hfresh.mono hgrow) ((List.prefix_append _ _).trans hbefore)
      (List.prefix_refl (n.log p)) ?_
    rw [← h.rootKey hbefore, ← hroot, hdoes.rootKey_eq.1, hrun.rootKey_eq, hs₀]
  have hmirrors : Mirrors e x :=
    ⟨by rw [hdir, hxdir]; decide, hplain, hct.symm, hheader, hroot, hsecret⟩
  obtain rfl | rfl := p.eq_or_eq_other q
  · -- an end has not yet the root key of a message that it has sent
    have hlen := congrArg List.length hsecrets
    rw [hsplit] at hlen
    simp only [List.length_map, List.length_append, List.length_cons] at hlen
    omega
  · exact ⟨x, before, after, hsplit, hxdir, hsecrets, hmirrors⟩

/-! ## Whole runs -/

theorem Opens.agreed (h : n.Opens sessionKey) : n.Agreed :=
  ⟨fun _ => [], fun _ => [], fun p => ⟨h.2.2 p, by simp⟩, fun _ => .nil⟩

/-- A sent message is ahead of the peer. -/
theorem Agreed.send (h : n.Agreed) (hdir : e.direction = .sent) (s : KemRatchet P) :
    (n.record p (some e) s).Agreed := by
  obtain ⟨shared, ahead, hlog, hmirrors⟩ := h
  refine ⟨shared, Function.update ahead p (ahead p ++ [e]), ?_, hmirrors⟩
  intro q
  by_cases hq : q = p
  · subst hq
    obtain ⟨hsplit, hsent⟩ := hlog q
    simp only [record, Function.update_self, Option.toList_some, hsplit, List.append_assoc,
      true_and, List.forall_mem_append, List.forall_mem_singleton]
    exact ⟨hsent, hdir⟩
  · simpa only [record, Function.update_of_ne hq] using hlog q

/-- An accepted message is the next that the peer is ahead. -/
theorem Agreed.accept (h : n.Agreed) (hfresh : n.Fresh sessionKey) {s : KemRatchet P}
    {before after : List (Exchange P)} (hsplit : n.log p.other = before ++ x :: after)
    (hsecrets : before.map (·.secret) = (n.log p).map (·.secret)) (hmirrors : Mirrors e x) :
    (n.record p (some e) s).Agreed := by
  obtain ⟨shared, ahead, hlog, hshared⟩ := h
  have hlen : (shared p.other).length = (shared p).length := (hshared p).length_eq.symm
  obtain ⟨hlogp, hsentp⟩ := hlog p
  obtain ⟨hlogq, hsentq⟩ := hlog p.other
  -- the peer's history up to the message is the common one, and a part of its own
  have hle : (shared p.other).length ≤ before.length := by
    have hlenp := congrArg List.length hsecrets
    rw [hlogp] at hlenp
    simp only [List.length_map, List.length_append] at hlenp
    omega
  obtain ⟨own, rfl, hown⟩ : ∃ own, before = shared p.other ++ own ∧
      ahead p.other = own ++ x :: after := by
    rw [hlogq] at hsplit
    obtain ⟨rest, hrest⟩ :=
      List.prefix_of_prefix_length_le ⟨_, hsplit⟩ (List.prefix_append before (x :: after)) hle
    rw [← hrest, List.append_assoc, List.append_cancel_left_eq] at hsplit
    exact ⟨rest, hrest.symm, hsplit⟩
  rw [hlogp, List.map_append, List.map_append] at hsecrets
  obtain ⟨-, hsecrets⟩ := List.append_inj hsecrets (by simpa using hlen)
  -- the receiver has sent nothing that the sender had not seen
  have hnone : ahead p = [] := by
    cases hp : ahead p with
    | nil => rfl
    | cons y ys =>
      cases hq : own with
      | nil => simp [hp, hq] at hsecrets
      | cons z zs =>
        have hy : y ∈ n.log p := by simp [hlogp, hp]
        have hz : z ∈ n.log p.other := by simp [hlogq, hown, hq]
        have hne := hfresh.secret_ne hy hz (hsentp y (by simp [hp]))
          (hsentq z (by simp [hown, hq]))
        simp only [hp, hq, List.map_cons, List.cons.injEq] at hsecrets
        exact absurd hsecrets.1.symm hne
  obtain rfl : own = [] := by simpa [hnone] using hsecrets
  refine ⟨fun q => if q = p then shared p ++ [e] else shared p.other ++ [x],
    fun q => if q = p then [] else after, ?_, ?_⟩
  · intro q
    obtain rfl | rfl := p.eq_or_eq_other q
    · simp [record, hlogp, hnone]
    · rw [hown] at hsentq hlogq
      simp only [record, Function.update_of_ne (Party.other_ne p), if_neg (Party.other_ne p), hlogq,
        List.nil_append, List.append_assoc, List.singleton_append, true_and]
      exact fun y hy => hsentq y (by simp [hy])
  · intro q
    obtain rfl | rfl := p.eq_or_eq_other q
    · simp only [if_true, if_neg (Party.other_ne q)]
      exact List.rel_append (hshared q) (.cons hmirrors .nil)
    · simp only [Party.other_other, if_true, if_neg (Party.other_ne p)]
      have hback := hshared p.other
      rw [Party.other_other] at hback
      exact List.rel_append hback (.cons hmirrors.symm .nil)

/-- Every step keeps the agreement. -/
theorem Agreed.step (haead : P.IdealAead) (h : n.Agreed) (hrecorded : n.Recorded sessionKey)
    (hstep : n.Step n') (hfresh : n'.Fresh sessionKey) : n'.Agreed := by
  have hgrow := log_prefix_of_step hstep
  obtain ⟨p, entry, s, hdoes, hsealed, rfl⟩ := hstep
  cases entry with
  | none =>
    rw [hdoes.of_none]
    simpa [record] using h
  | some e =>
    cases hdir : e.direction with
    | sent => exact h.send hdir s
    | accepted =>
      obtain ⟨x, before, after, hsplit, _, hsecrets, hmirrors⟩ :=
        exists_sent_of_accepted haead hrecorded hfresh hdoes hdir (hsealed e rfl hdir)
      exact h.accept (hfresh.mono hgrow) hsplit hsecrets hmirrors

/-- Whatever the network does, the histories of the two ends have a common part,
behind which each end has only sent. -/
theorem agreed_of_reachable (haead : P.IdealAead) (h : Reachable (Opens sessionKey) Step n)
    (hfresh : n.Fresh sessionKey) : n.Agreed := by
  refine (h.invariant (I := fun n => n.Recorded sessionKey ∧ (n.Fresh sessionKey → n.Agreed))
    ?_ ?_).2 hfresh
  · intro n hopens
    exact ⟨hopens.recorded, fun _ => hopens.agreed⟩
  · rintro n n' ⟨hrecorded, hagreed⟩ hstep
    refine ⟨hrecorded.step hstep, fun hfresh => ?_⟩
    exact (hagreed (hfresh.mono (log_prefix_of_step hstep))).step haead hrecorded hstep hfresh

/-- The accepted part of the common history is what the peer has sent in it. -/
theorem plaintexts_of_mirrors {log log' : List (Exchange P)} (h : List.Forall₂ Mirrors log log') :
    (log.filter (·.direction = .accepted)).map (·.plaintext) =
      (log'.filter (·.direction = .sent)).map (·.plaintext) := by
  induction h with
  | nil => rfl
  | @cons x y log log' hmirrors _ ih =>
    have hdir := hmirrors.direction
    cases hx : x.direction <;> cases hy : y.direction <;>
      simp_all [hmirrors.plaintext]

/-- What an end has accepted is the beginning of what its peer has sent. -/
theorem Agreed.accepted_beginning (h : n.Agreed) (p : Party) :
    n.plaintexts p .accepted <+: n.plaintexts p.other .sent := by
  obtain ⟨shared, ahead, hlog, hshared⟩ := h
  have hnone : (ahead p).filter (·.direction = .accepted) = [] := by
    rw [List.filter_eq_nil_iff]
    intro e he
    simp [(hlog p).2 e he]
  rw [plaintexts, plaintexts, (hlog p).1, (hlog p.other).1, List.filter_append, hnone,
    List.append_nil, List.filter_append, List.map_append, plaintexts_of_mirrors (hshared p)]
  exact List.prefix_append _ _

/-- Whatever the network does, the two ends agree on a common history, and what an
end has accepted is the beginning of what its peer has sent. -/
theorem matching_histories (haead : P.IdealAead) (h : Reachable (Opens sessionKey) Step n)
    (hfresh : n.Fresh sessionKey) :
    n.Agreed ∧ ∀ p, n.plaintexts p .accepted <+: n.plaintexts p.other .sent :=
  ⟨agreed_of_reachable haead h hfresh, (agreed_of_reachable haead h hfresh).accepted_beginning⟩

/-! ## A first message -/

theorem idealAead_symbolicRatchet : symbolicRatchet.IdealAead where
  decrypt_sealed := by
    intro k n pt aad ct k' n' aad' pt' hseal hopen
    -- the symbolic AEAD does not use its nonce
    have hopen' : symbolic.decryptCommitting k' n ct aad' = .ok pt' := hopen
    have hpair : (k', aad') = (k, aad) := by
      by_contra hne
      exact Symbolic.idealAead.decrypt_other hseal hne pt' hopen'
    obtain ⟨hk, haad⟩ := Prod.mk.inj hpair
    exact ⟨hk, haad, Symbolic.idealAead.decrypt_eq hseal hopen'⟩

/-- The initiator greets the responder. -/
theorem exists_greeting : ∃ e e' s r, sampleInitiator.Does (some e) s ∧
    sampleResponder.Does (some e') r ∧ e.direction = .sent ∧ e'.direction = .accepted ∧
    e'.plaintext = ascii "hello" ∧ e'.message.ciphertext = e.message.ciphertext ∧
    e.secret = Symbolic.word 111 ∧ e'.secret = Symbolic.word 111 ∧
    s.rootKey ≠ sampleInitiator.rootKey := by
  have hreturns : okAnd KemRatchet.sampleFirstSend (fun result s =>
      decide (result.message.header.encapsulation = firstEncapsulation ∧
        s.rootKey ≠ sampleInitiator.rootKey ∧
        sampleResponder.findKeypair result.message.header.recipientKeyId = some responderKeypair) &&
      okAnd (receiveMessage result.message 2 sampleResponder) fun plaintext _ =>
        decide (plaintext = ascii "hello")) := by decide +kernel
  obtain ⟨result, s, hsend, hholds⟩ := okAnd_eq_true.mp hreturns
  obtain ⟨hfacts, hreceives⟩ := Bool.and_eq_true_iff.mp hholds
  obtain ⟨henc, hne, hkeypair⟩ := of_decide_eq_true hfacts
  obtain ⟨plaintext, r, hreceive, hplain⟩ := okAnd_eq_true.mp hreceives
  have hencaps : symbolicRatchet.encapsulate responderKeypair (sampleDraws 11).encapsulation =
      .ok (Symbolic.word 111, result.message.header.encapsulation) := by
    rw [henc]
    rfl
  have hsecret : symbolicRatchet.decapsulate responderKeypair result.message.header.encapsulation =
      .ok (Symbolic.word 111) := by
    rw [henc]
    rfl
  exact ⟨_, _, s, r, .sent hsend rfl hencaps, .accepted hreceive hkeypair hsecret, rfl, rfl,
    of_decide_eq_true hplain, rfl, rfl, rfl, hne⟩

/-- The two ends of a new session. -/
def sampleNetwork : Network symbolicRatchet where
  state
    | .initiator => sampleInitiator
    | .responder => sampleResponder
  log _ := []

theorem opens_sampleNetwork : sampleNetwork.Opens (Symbolic.word 7) :=
  ⟨⟨(Symbolic.word 2 : Bytes32), (1 : Nat), 0, rfl⟩, ⟨(Symbolic.word 2 : Bytes32), 0, rfl⟩,
    fun _ => rfl⟩

theorem matching_histories_greeting : ∃ n : Network symbolicRatchet,
    Reachable (Opens (Symbolic.word 7)) Step n ∧
    n.plaintexts .responder .accepted = [ascii "hello"] ∧
    n.plaintexts .responder .accepted <+: n.plaintexts .initiator .sent := by
  obtain ⟨e, e', s, r, hsend, hreceive, hdir, hdir', hplain, hct, hsecret, hsecret', hne⟩ :=
    exists_greeting
  let n := (sampleNetwork.record .initiator (some e) s).record .responder (some e') r
  have hrun : Reachable (Opens (Symbolic.word 7)) Step n := by
    refine .next (.next (.start opens_sampleNetwork) ⟨.initiator, some e, s, hsend, ?_, rfl⟩)
      ⟨.responder, some e', r, hreceive, ?_, rfl⟩
    · intro x hx haccepted
      rw [← Option.some.inj hx, hdir] at haccepted
      cases haccepted
    · intro x hx _
      obtain rfl := Option.some.inj hx
      exact ⟨.initiator, e, by simp [record], hdir, hct.symm⟩
  have hlog : n.log .initiator = [e] ∧ n.log .responder = [e'] := by
    simp [n, record, sampleNetwork, Function.update]
  refine ⟨n, hrun, ?_, (matching_histories idealAead_symbolicRatchet hrun ?_).2 .responder⟩
  · simp [plaintexts, hlog.2, hdir', hplain]
  · have hsingle : ∀ i ∈ n.kdfInputs, i = (sampleInitiator.rootKey, Symbolic.word 111) := by
      rintro i ⟨p, x, hx, rfl⟩
      cases p with
      | initiator =>
        rw [hlog.1, List.mem_singleton] at hx
        rw [hx, hsend.rootKey_eq.1, hsecret]
      | responder =>
        rw [hlog.2, List.mem_singleton] at hx
        rw [hx, hreceive.rootKey_eq.1, hsecret']
        rfl
    refine ⟨?_, ?_, ?_, ?_⟩
    · intro i hi j hj _
      rw [hsingle i hi, hsingle j hj]
    · intro i hi j hj _
      rw [hsingle i hi, hsingle j hj]
    · intro i hi
      rw [hsend.rootKey_eq.2, hsecret] at hne
      rw [hsingle i hi]
      exact hne
    · intro x _ y hy _ hysent
      rw [hlog.2, List.mem_singleton] at hy
      simp [hy, hdir'] at hysent

end Network

end Trelis.Ratchet
