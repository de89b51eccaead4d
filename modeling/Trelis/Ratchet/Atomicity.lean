import Trelis.Ratchet.Sample

/-!
# Failed calls of the ratchet

A call of `send_message` or `receive_message` that returns an error has changed
nothing.  Below the end of the counters no call panics either
(`receiveMessage_error`, `sendMessage_error`), so messages that are rejected can
be left out of what a session has received (`receiveAll_accepted`).
-/

namespace Trelis.Ratchet

variable {P : RatchetPrimitives}

/-! ## Panics -/

section Panics

variable {α β σ : Type}

theorem orFail_bind_eq_panic {x : Result α} {f : α → EStateM Failure σ β} {s s' : σ}
    (h : (orFail x >>= f) s = .error .panic s') : ∃ a, x = .ok a ∧ f a s = .error .panic s' := by
  cases x with
  | error e => cases h
  | ok a => exact ⟨a, rfl, h⟩

theorem expect_bind_eq_panic {x : Option α} {f : α → EStateM Failure σ β} {s s' : σ}
    (hx : x.isSome) (h : (expect x >>= f) s = .error .panic s') :
    ∃ a, x = some a ∧ f a s = .error .panic s' := by
  cases x with
  | none => cases hx
  | some a => exact ⟨a, rfl, h⟩

end Panics

/-- The largest `u64`. -/
def counterMax : Nat := 2 ^ 64 - 1

/-- A receive panics at the end of the counter only. -/
theorem receiveMessage_ne_panic {message : RatchetMessage P} {currentTime : Nat}
    {s s' : KemRatchet P} (hcount : s.recvCount < counterMax) :
    receiveMessage message currentTime s ≠ .error .panic s' := by
  intro hrun
  unfold receiveMessage at hrun
  obtain ⟨_, _, hrun⟩ := orFail_bind_eq_panic hrun
  obtain ⟨_, hnumber, hrun⟩ := orFail_bind_eq_panic hrun
  obtain ⟨_, hfound, hrun⟩ := orFail_bind_eq_panic hrun
  have hkeypair : (s.findKeypair message.header.recipientKeyId).isSome := by
    rw [Option.isSome_iff_ne_none]
    simpa using hfound
  obtain ⟨_, _, hrun⟩ := expect_bind_eq_panic hkeypair hrun
  obtain ⟨_, _, hrun⟩ := orFail_bind_eq_panic hrun
  obtain ⟨_, _, hrun⟩ := orFail_bind_eq_panic hrun
  have hnumber : message.header.messageNumber = s.recvCount :=
    not_not.mp (rejectIf_eq_ok.mp hnumber)
  have hset : ∀ t : KemRatchet P, t.setRecvCount message.header.messageNumber =
      some { t with recvCount := message.header.messageNumber + 1 } := by
    intro t
    refine KemRatchet.setRecvCount_eq_some.mpr ⟨?_, rfl⟩
    rw [hnumber]
    show s.recvCount + 1 < 2 ^ 64
    have hmax : s.recvCount < 2 ^ 64 - 1 := hcount
    omega
  change (expect (KemRatchet.setRecvCount message.header.messageNumber _) >>= _) _ = _ at hrun
  rw [hset] at hrun
  cases hrun

/-- A send does not panic. -/
theorem sendMessage_ne_panic {plaintext : Bytes} {currentTime : Nat} {draws : SendDraws P}
    {s s' : KemRatchet P} : sendMessage plaintext currentTime draws s ≠ .error .panic s' := by
  intro hrun
  unfold sendMessage at hrun
  obtain ⟨_, hsend, hrun⟩ := orFail_bind_eq_panic hrun
  obtain ⟨_, _, hpk, hid⟩ := KemRatchet.validateCanSend_eq_ok.mp hsend
  obtain ⟨_, _, hrun⟩ := orFail_bind_eq_panic hrun
  obtain ⟨_, _, hrun⟩ := expect_bind_eq_panic hpk hrun
  obtain ⟨_, _, hrun⟩ := orFail_bind_eq_panic hrun
  obtain ⟨_, _, hrun⟩ := expect_bind_eq_panic hid hrun
  obtain ⟨_, _, hrun⟩ := orFail_bind_eq_panic hrun
  obtain ⟨_, _, hrun⟩ := orFail_bind_eq_panic hrun
  cases hrun

/-! ## Atomicity -/

/-- Below the end of the counter, a receive that does not return has failed with
an error, and has changed nothing. -/
theorem receiveMessage_error {message : RatchetMessage P} {currentTime : Nat} {s s' : KemRatchet P}
    {e : Failure} (hcount : s.recvCount < counterMax)
    (h : receiveMessage message currentTime s = .error e s') : e ≠ .panic ∧ s' = s := by
  have hpanic : e ≠ .panic := by
    intro he
    rw [he] at h
    exact receiveMessage_ne_panic hcount h
  exact ⟨hpanic, failsClean_receiveMessage message currentTime s e s' hpanic h⟩

theorem sendMessage_error {plaintext : Bytes} {currentTime : Nat} {draws : SendDraws P}
    {s s' : KemRatchet P} {e : Failure}
    (h : sendMessage plaintext currentTime draws s = .error e s') : e ≠ .panic ∧ s' = s := by
  constructor
  · intro he
    rw [he] at h
    exact sendMessage_ne_panic h
  · exact failsClean_sendMessage plaintext currentTime draws s e s' trivial h

/-! ## Runs -/

/-- The state that a call leaves behind, whether or not it returns. -/
def stateAfter {ε σ α : Type} : EStateM.Result ε σ α → σ
  | .ok _ s => s
  | .error _ s => s

/-- The state after a list of messages and the times at which they arrive. -/
def receiveAll : List (RatchetMessage P × Nat) → KemRatchet P → KemRatchet P
  | [], s => s
  | (message, currentTime) :: rest, s =>
    receiveAll rest (stateAfter (receiveMessage message currentTime s))

/-- The messages of a list that are received. -/
def accepted : List (RatchetMessage P × Nat) → KemRatchet P → List (RatchetMessage P × Nat)
  | [], _ => []
  | (message, currentTime) :: rest, s =>
    match receiveMessage message currentTime s with
    | .ok _ s' => (message, currentTime) :: accepted rest s'
    | .error _ s' => accepted rest s'

/-- Rejected messages can be left out, wherever they stand. -/
theorem receiveAll_accepted {messages : List (RatchetMessage P × Nat)} {s : KemRatchet P}
    (hcount : s.recvCount + messages.length ≤ counterMax) :
    receiveAll (accepted messages s) s = receiveAll messages s := by
  induction messages generalizing s with
  | nil => rfl
  | cons head rest ih =>
    rw [List.length_cons] at hcount
    cases hreceive : receiveMessage head.1 head.2 s with
    | ok plaintext s' =>
      obtain ⟨_, hnumber, _, _, _, _, _, _, hs'⟩ := receiveMessage_eq_ok.mp hreceive
      have hnext : s'.recvCount = s.recvCount + 1 := by
        rw [hs', ← hnumber]
        rfl
      have hrest := ih (s := s') (by omega)
      simp only [accepted, receiveAll, hreceive, stateAfter, hrest]
    | error e s' =>
      obtain ⟨_, rfl⟩ := receiveMessage_error (by omega) hreceive
      have hrest := ih (s := s') (by omega)
      simp only [accepted, receiveAll, hreceive, stateAfter, hrest]

/-- Messages that a session rejects leave it as it was. -/
theorem receiveAll_rejected {messages : List (RatchetMessage P × Nat)} {s : KemRatchet P}
    (hcount : s.recvCount < counterMax)
    (hrejected : ∀ m ∈ messages, ∀ plaintext s',
      receiveMessage m.1 m.2 s ≠ .ok plaintext s') : receiveAll messages s = s := by
  induction messages with
  | nil => rfl
  | cons head rest ih =>
    have hhead := hrejected head List.mem_cons_self
    have hrest := ih fun m hm => hrejected m (List.mem_cons_of_mem _ hm)
    cases hreceive : receiveMessage head.1 head.2 s with
    | ok plaintext s' => exact absurd hreceive (hhead plaintext s')
    | error e s' =>
      obtain ⟨_, rfl⟩ := receiveMessage_error hcount hreceive
      simp only [receiveAll, hreceive, stateAfter, hrest]

/-- Below the end of the counters, a call that fails has not panicked and leaves
the state as it was.  So after any messages that are rejected, a session sends and
receives as before. -/
theorem ratchet_operations_atomic {s : KemRatchet P} (hrecv : s.recvCount < counterMax) :
    (∀ message currentTime e s', receiveMessage message currentTime s = .error e s' →
      e ≠ .panic ∧ s' = s) ∧
    (∀ plaintext currentTime draws e s', sendMessage plaintext currentTime draws s = .error e s' →
      e ≠ .panic ∧ s' = s) ∧
    ∀ forged : List (RatchetMessage P × Nat),
      (∀ m ∈ forged, ∀ plaintext s', receiveMessage m.1 m.2 s ≠ .ok plaintext s') →
        ∀ message currentTime, receiveMessage message currentTime (receiveAll forged s) =
          receiveMessage message currentTime s := by
  refine ⟨?_, ?_, ?_⟩
  · intro message currentTime e s' h
    exact receiveMessage_error hrecv h
  · intro plaintext currentTime draws e s' h
    exact sendMessage_error h
  · intro forged hforged message currentTime
    rw [receiveAll_rejected hrecv hforged]

section Sample

/-- A message for a key pair that the responder of a new session does not have. -/
def strayMessage : RatchetMessage symbolicRatchet where
  header := MessageHeader.new (0 : Nat) (Symbolic.word 1) (Symbolic.word 2, Symbolic.word 3) 0
  nonce := FixedBytes.zero 24
  ciphertext := []

/-- The responder of a new session rejects a stray message, and then does with the next
one what it would have done before. -/
theorem ratchet_operations_atomic_sample :
    receiveMessage strayMessage 1 (receiveAll [(strayMessage, 0)] sampleResponder) =
      receiveMessage strayMessage 1 sampleResponder := by
  have hzero : (0 : Nat) < counterMax := by decide
  refine (ratchet_operations_atomic (s := sampleResponder) hzero).2.2 _ ?_ _ _
  intro m hm plaintext s' hreceive
  rw [List.mem_singleton.mp hm] at hreceive
  obtain ⟨_, _, _, keypair, _, hfind, _⟩ := receiveMessage_eq_ok.mp hreceive
  have hnone : sampleResponder.findKeypair (0 : Nat) = none :=
    Option.isNone_iff_eq_none.mp (by decide +kernel)
  change sampleResponder.findKeypair (0 : Nat) = some keypair at hfind
  rw [hnone] at hfind
  cases hfind

end Sample

end Trelis.Ratchet
