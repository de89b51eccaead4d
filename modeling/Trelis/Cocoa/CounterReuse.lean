import Trelis.Cocoa.Run

/-!
# No message counter is used twice

A member sends messages, moves from epoch to epoch, stores snapshots of its
session and restores them.  It moves its watermark past every message that it
sends, before it does anything else.

The position of the live session and the watermark both stay above every
message that was sent (`Sender.Ahead`): a send, a commit and a change of the
counter only move the session forward, and a restore is not below the
watermark.
-/

namespace Trelis.Cocoa

variable {P : Primitives} {cipher : MessageCipher}

/-- A member with its live session, its snapshots, its watermark, and the
messages that it has sent. -/
structure Sender (P : Primitives) where
  session : CocoaSession P
  snapshots : List (Snapshot P)
  watermark : SessionWatermark
  emitted : List EncryptedMessage

/-- Nothing has been sent or stored. -/
def Sender.Fresh (st : Sender P) : Prop := st.snapshots = [] ∧ st.emitted = []

/-- What the member does next. -/
inductive SenderStep (cipher : MessageCipher) : Sender P → Sender P → Prop
  /-- Sends a message, and moves the watermark to the position after it. -/
  | sent {st plaintext m s'} (h : st.session.encrypt cipher plaintext = some (.ok m s')) :
      SenderStep cipher st
        { st with
          session := s'
          watermark := st.watermark.advanced s'.epochNumber s'.epoch.messageCounter
          emitted := st.emitted ++ [m] }
  | sendFailed {st plaintext e s'} (h : st.session.encrypt cipher plaintext = some (.error e s')) :
      SenderStep cipher st { st with session := s' }
  /-- Accepts a commit or calls a builder. -/
  | moved {st s'} (h : MemberStep (fun _ _ => True) st.session s') :
      SenderStep cipher st { st with session := s' }
  | counterSet {st counter s'} (h : st.session.setMessageCounter counter = .ok s') :
      SenderStep cipher st { st with session := s' }
  /-- Stores the live session. -/
  | saved {st} :
      SenderStep cipher st { st with snapshots := st.snapshots ++ [.ofSession st.session] }
  /-- Replaces the live session by a stored one. -/
  | restored {st snap s'} (hsnap : snap ∈ st.snapshots)
      (h : snap.restoreSessionChecked st.watermark = .ok s') :
      SenderStep cipher st { st with session := s' }

/-- Where a message was sent. -/
def EncryptedMessage.position (m : EncryptedMessage) : Position := toLex (m.epoch, m.counter)

/-- The session and the watermark are past every message that was sent, and no
two were sent at one position. -/
structure Sender.Ahead (st : Sender P) : Prop where
  session : ∀ m ∈ st.emitted, m.position < st.session.position
  watermark : ∀ m ∈ st.emitted, m.position < st.watermark.position
  nodup : (st.emitted.map EncryptedMessage.position).Nodup

/-! ## A session only moves forward -/

theorem position_counted (s : CocoaSession P) : s.position < s.counted.position :=
  Prod.Lex.toLex_lt_toLex.mpr (.inr ⟨rfl, Nat.lt_succ_self _⟩)

theorem Advanced.position_lt {s s' : CocoaSession P} {delta : Seed} {transcript : Bytes32}
    (h : Advanced s s' delta transcript) : s.position < s'.position := by
  apply Prod.Lex.toLex_lt_toLex.mpr
  left
  rw [h.epoch_eq]
  exact Nat.lt_succ_self _

theorem MemberStep.position_le {admits : CocoaSession P → Commit P → Prop} {s s' : CocoaSession P}
    (h : MemberStep admits s s') : s.position ≤ s'.position := by
  cases h with
  | built h =>
    rcases Operation.advanced_of_ok h with ⟨_, _, hadvanced⟩
    exact hadvanced.position_lt.le
  | failed h =>
    have hepoch : s'.epoch = s.epoch := (Operation.leavesTree_of_error h).2.2
    rw [CocoaSession.position, CocoaSession.position, hepoch]
  | accepted h =>
    rcases Commit.advanced h with ⟨_, _, hadvanced⟩
    exact hadvanced.position_lt.le

theorem setMessageCounter_position_le {s s' : CocoaSession P} {counter : Nat}
    (h : s.setMessageCounter counter = .ok s') : s.position ≤ s'.position := by
  rcases setMessageCounter_eq_ok.mp h with ⟨hle, rfl⟩
  exact Prod.Lex.toLex_le_toLex.mpr (.inr ⟨rfl, hle⟩)

/-! ## The invariant -/

namespace Sender.Ahead

variable {st : Sender P}

theorem of_fresh (h : st.Fresh) : st.Ahead := by
  constructor <;> simp [h.2]

/-- A session that is not behind the live one may take its place. -/
theorem forward (h : st.Ahead) {s' : CocoaSession P} (hle : st.session.position ≤ s'.position) :
    Ahead { st with session := s' } where
  session m hm := (h.session m hm).trans_le hle
  watermark := h.watermark
  nodup := h.nodup

/-- So may a session that is not behind the watermark. -/
theorem restored (h : st.Ahead) {s' : CocoaSession P} (hle : st.watermark.position ≤ s'.position) :
    Ahead { st with session := s' } where
  session m hm := (h.watermark m hm).trans_le hle
  watermark := h.watermark
  nodup := h.nodup

/-- A message is sent at a position at which none was sent before. -/
theorem sent (h : st.Ahead) {m : EncryptedMessage} (hm : m.position = st.session.position) :
    Ahead
      { st with
        session := st.session.counted
        watermark := st.watermark.advanced st.session.counted.epochNumber
          st.session.counted.epoch.messageCounter
        emitted := st.emitted ++ [m] } where
  session x hx := by
    rcases List.mem_append.mp hx with hx | hx
    · exact (h.session x hx).trans (position_counted _)
    · rw [List.mem_singleton.mp hx, hm]
      exact position_counted _
  watermark x hx := by
    rcases List.mem_append.mp hx with hx | hx
    · exact (h.watermark x hx).trans_le (position_le_advanced _ _ _)
    · rw [List.mem_singleton.mp hx, hm]
      exact (position_counted st.session).trans_le (le_position_advanced _ _ _)
  nodup := by
    rw [List.map_append, List.map_singleton]
    refine List.nodup_append'.mpr ⟨h.nodup, List.nodup_singleton _, ?_⟩
    rw [List.disjoint_singleton, List.mem_map, hm]
    rintro ⟨x, hx, heq⟩
    exact (h.session x hx).ne heq

theorem step (h : st.Ahead) {st' : Sender P} (hstep : SenderStep cipher st st') : st'.Ahead := by
  cases hstep with
  | sent hsend =>
    rcases encrypt_ok hsend with ⟨hm, _, _, rfl⟩
    exact h.sent hm
  | sendFailed hsend =>
    rcases encrypt_error hsend with rfl | rfl
    · exact h
    · exact h.forward (position_counted _).le
  | moved hmove => exact h.forward hmove.position_le
  | counterSet hset => exact h.forward (setMessageCounter_position_le hset)
  | saved => exact ⟨h.session, h.watermark, h.nodup⟩
  | restored _ hrestore =>
    rcases restoreSessionChecked_eq_ok hrestore with ⟨hle, heq⟩
    exact h.restored (hle.trans_eq heq.symm)

end Sender.Ahead

/-! ## The run -/

/-- Over any run of sends, commits and restores: no two messages have the same
epoch, leaf and counter; a stored session whose next messages could repeat one
is not restored; a send moves the counter past the one that it used, and at the
last counter there is no send. -/
theorem no_counter_reuse {st : Sender P}
    (h : Reachable Sender.Fresh (SenderStep cipher) st) :
    (st.emitted.map fun m => (m.epoch, m.senderLeafPosition, m.counter)).Nodup ∧
    (∀ snap : Snapshot P, ∀ m ∈ st.emitted, snap.position ≤ m.position →
      snap.restoreSessionChecked st.watermark = .error .messageCounterTooOld) ∧
    (∀ plaintext m s', st.session.encrypt cipher plaintext = some (.ok m s') →
      m.counter = st.session.epoch.messageCounter ∧ s'.epoch.messageCounter = m.counter + 1 ∧
        s'.epoch.messageCounter < counterRange) ∧
    ∀ plaintext, plaintext.length ≤ maxMessageSize →
      counterRange ≤ st.session.epoch.messageCounter + 1 →
        st.session.encrypt cipher plaintext = none := by
  have hahead : st.Ahead :=
    h.invariant (fun _ hfresh => .of_fresh hfresh) fun _ _ hahead hstep => hahead.step hstep
  refine ⟨?_, ?_, ?_, ?_⟩
  · refine List.Nodup.of_map (fun triple => toLex (triple.1, triple.2.2)) ?_
    rw [List.map_map]
    exact hahead.nodup
  · intro snap m hm hle
    exact restoreSessionChecked_of_lt (hle.trans_lt (hahead.watermark m hm))
  · intro plaintext m s' hsend
    rcases encrypt_ok hsend with ⟨hm, _, hlt, rfl⟩
    have hcounter : m.counter = st.session.epoch.messageCounter := congrArg (·.2) hm
    exact ⟨hcounter, by rw [hcounter]; rfl, hlt⟩
  · intro plaintext hsize hlast
    exact encrypt_exhausted cipher hsize hlast

section Sample

open Symbolic

/-- A cipher that leaves the plaintext as it is. -/
private def plain : MessageCipher := fun _ _ plaintext _ => .ok plaintext

/-- A member sends, stores its session, restores it and sends again. -/
theorem no_counter_reuse_restored :
    ∃ st : Sender symbolic, st.emitted.length = 2 ∧
      (st.emitted.map fun m => (m.epoch, m.senderLeafPosition, m.counter)).Nodup := by
  let start : Sender symbolic := ⟨member 0 10 (tree 0 1 []), [], ⟨0, 0⟩, []⟩
  have hstart : Reachable Sender.Fresh (SenderStep plain) start := .start ⟨rfl, rfl⟩
  have hfirst : start.session.encrypt plain [] =
      some (.ok ⟨0, 0, 0, []⟩ start.session.counted) := rfl
  have hsaved := (hstart.next (.sent hfirst)).next .saved
  have hrestored := hsaved.next (.restored (List.mem_singleton_self _) rfl)
  let stored := (Snapshot.ofSession start.session.counted).restoreSession.counted
  have hsecond : stored.encrypt plain [] = some (.ok ⟨0, 0, 1, []⟩ stored.counted) := rfl
  have hagain := hrestored.next (.sent hsecond)
  exact ⟨_, rfl, (no_counter_reuse hagain).1⟩

end Sample

end Trelis.Cocoa
