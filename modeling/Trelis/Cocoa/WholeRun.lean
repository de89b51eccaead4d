import Trelis.Cocoa.GroupRun
import Trelis.Symbolic

/-!
# Agreement over a whole run

A run in which every commit is delivered, in order, to every other member.  A
`Round` is one commit with its deliveries, and `HonestRun` is a new group whose
first members have joined, followed by rounds.

The commits of an honest run have no entry for any current member, and nobody
opens the welcome of an add.  So the members agree after every round exactly
when no round has anybody to deliver to (`whole_run_agreement_iff`).
-/

namespace Trelis.Cocoa

open PartialTreeView

variable {P : Primitives}

/-- Two members agree on the epoch, its secret, the transcript and the number of
members. -/
structure SameEpoch (a b : CocoaSession P) : Prop where
  epochNumber_eq : a.epochNumber = b.epochNumber
  epochSecret_eq : a.currentEpochSecret = b.currentEpochSecret
  transcriptHash_eq : a.transcriptHash = b.transcriptHash
  memberCount_eq : a.memberCount = b.memberCount

/-- The leaf that an operation removes. -/
def Operation.removedPosition : Operation P → Option Nat
  | add _ _ => none
  | update => none
  | remove _ removedPosition => some removedPosition

/-! ## Rounds -/

/-- A commit of one current member, the other current members, and the newcomer
of an add with its one-time key pair. -/
structure Round (P : Primitives) where
  committer : CocoaSession P
  others : List (CocoaSession P)
  operation : Operation P
  identity : P.IdentityKeyPair
  draws : Draws P
  message : Message P
  after : CocoaSession P
  built : operation.build identity draws committer = .ok message after
  newcomer : Option (UserId × P.KeyPair)
  newcomer_eq : ∀ bundle ∈ operation.bundle, ∃ userId kem,
    newcomer = some (userId, kem) ∧ P.publicKey kem = bundle.oneTimeKem

namespace Round

/-- The other members that stay in the group. -/
def receivers (r : Round P) : List (CocoaSession P) :=
  r.others.filter fun o => r.operation.removedPosition ≠ some o.ourLeafPosition

/-- The state of a receiver after the delivery; a commit that it rejects changes
nothing. -/
def deliver (r : Round P) (o : CocoaSession P) : CocoaSession P :=
  match r.message.commit.process (P.identityPublicKey r.identity) o with
  | .ok _ o' => o'
  | .error _ _ => o

/-- The session of the newcomer, if it joins. -/
def welcomed (r : Round P) : List (CocoaSession P) :=
  match r.message.welcome, r.newcomer with
  | some w, some (userId, kem) =>
    match processWelcome userId kem w (P.identityPublicKey r.identity) with
    | .ok joined => [joined]
    | .error _ => []
  | _, _ => []

/-- The current members after the round. -/
def outcome (r : Round P) : List (CocoaSession P) :=
  r.after :: (r.receivers.map r.deliver ++ r.welcomed)

/-- Every delivery succeeds, and then all current members agree. -/
structure Agrees (r : Round P) : Prop where
  delivered : ∀ o ∈ r.receivers, ∃ o',
    r.message.commit.process (P.identityPublicKey r.identity) o = .ok () o'
  joined : ∀ w ∈ r.message.welcome, ∃ userId kem joined, r.newcomer = some (userId, kem) ∧
    processWelcome userId kem w (P.identityPublicKey r.identity) = .ok joined
  same : ∀ s ∈ r.outcome, SameEpoch s r.after

/-- There is nobody to deliver to: no other member stays, and none is added. -/
def Alone (r : Round P) : Prop := r.receivers = [] ∧ r.operation.bundle = none

end Round

/-- The group, its current members, and the rounds so far. -/
inductive HonestRun : Group P → List (CocoaSession P) → List (Round P) → Prop
  | start {identity kem userId bundles draws s welcomes joined}
      (h : createGroup identity kem userId bundles draws = .ok (s, welcomes))
      (hjoined : List.Forall₂ (fun (entry : PreKeyBundle P × Welcome P) j =>
        ∃ userId kem, P.publicKey kem = entry.1.identityKem ∧
          processWelcome userId kem entry.2 (P.identityPublicKey identity) = .ok j)
        (bundles.zip welcomes) joined) :
      HonestRun (joined.foldl Group.hold (Group.create kem bundles s welcomes)) (s :: joined) []
  | next {G current rounds} (h : HonestRun G current rounds) (r : Round P)
      (hcurrent : current.Perm (r.committer :: r.others))
      (hfresh : G.Fresh r.operation r.committer r.after) :
      HonestRun ((r.receivers.map r.deliver ++ r.welcomed).foldl Group.hold
        (G.send r.operation r.message r.after)) r.outcome (rounds ++ [r])

/-! ## One round -/

theorem welcome_eq_none_iff {op : Operation P} {identity : P.IdentityKeyPair} {draws : Draws P}
    {s s' : CocoaSession P} {m : Message P} (h : op.build identity draws s = .ok m s') :
    m.welcome = none ↔ op.bundle = none := by
  cases op with
  | add bundle newMemberId =>
    simp only [Operation.build, EStateM.bind_eq_ok, EStateM.pure_eq_ok] at h
    rcases h with ⟨_, _, _, rfl, _⟩
    simp [Operation.bundle]
  | update =>
    simp only [Operation.build, EStateM.bind_eq_ok, EStateM.pure_eq_ok] at h
    rcases h with ⟨_, _, _, rfl, _⟩
    simp [Operation.bundle]
  | remove removedMemberId removedPosition =>
    simp only [Operation.build, EStateM.bind_eq_ok, EStateM.pure_eq_ok] at h
    rcases h with ⟨_, _, _, rfl, _⟩
    simp [Operation.bundle]

section Rounds

variable {size : Nat} {G : Group P} {r : Round P}

/-- Nobody accepts the commit of a round. -/
theorem Round.not_delivered (hpk : P.PublicKeyCodec size) (henc : P.EncapsulationCodec)
    (hkem : P.IdealKem) (haead : P.IdealAead) (h : G.Sound) (hs : r.committer ∈ G.sessions)
    (hothers : ∀ o ∈ r.others, o ∈ G.sessions)
    (hfresh : G.Fresh r.operation r.committer r.after) {o o' : CocoaSession P}
    (ho : o ∈ r.receivers) :
    r.message.commit.process (P.identityPublicKey r.identity) o ≠ .ok () o' := by
  have hnext := h.send haead hs r.built hfresh
  have hsent : (r.operation, r.message) ∈ (G.send r.operation r.message r.after).sent :=
    List.mem_append_right _ (List.mem_singleton_self _)
  exact hnext.not_accepted hpk henc hkem haead (.inr (hothers o (List.mem_of_mem_filter ho))) hsent

/-- The newcomer of a round does not join. -/
theorem Round.welcomed_eq_nil (haead : P.IdealAead) (r : Round P) : r.welcomed = [] := by
  unfold welcomed
  split
  · next w userId kem hw _ =>
    split
    · next joined hjoined => exact absurd hjoined (not_joined_of_build haead r.built hw _ _ _ _)
    · rfl
  · rfl

/-- A receiver stays where it is. -/
theorem Round.deliver_eq (hpk : P.PublicKeyCodec size) (henc : P.EncapsulationCodec)
    (hkem : P.IdealKem) (haead : P.IdealAead) (h : G.Sound) (hs : r.committer ∈ G.sessions)
    (hothers : ∀ o ∈ r.others, o ∈ G.sessions)
    (hfresh : G.Fresh r.operation r.committer r.after) {o : CocoaSession P}
    (ho : o ∈ r.receivers) : r.deliver o = o := by
  unfold deliver
  split
  · next hprocess =>
    exact absurd hprocess (r.not_delivered hpk henc hkem haead h hs hothers hfresh ho)
  · rfl

/-- The members agree after a round exactly when there is nobody to deliver
to. -/
theorem Round.agrees_iff (hpk : P.PublicKeyCodec size) (henc : P.EncapsulationCodec)
    (hkem : P.IdealKem) (haead : P.IdealAead) (h : G.Sound) (hs : r.committer ∈ G.sessions)
    (hothers : ∀ o ∈ r.others, o ∈ G.sessions)
    (hfresh : G.Fresh r.operation r.committer r.after) : r.Agrees ↔ r.Alone := by
  constructor
  · intro hagrees
    constructor
    · rw [List.eq_nil_iff_forall_not_mem]
      intro o ho
      rcases hagrees.delivered o ho with ⟨o', hprocess⟩
      exact r.not_delivered hpk henc hkem haead h hs hothers hfresh ho hprocess
    · rw [← welcome_eq_none_iff r.built, Option.eq_none_iff_forall_not_mem]
      intro w hw
      rcases hagrees.joined w hw with ⟨userId, kem, joined, _, hjoined⟩
      exact not_joined_of_build haead r.built hw _ _ _ _ hjoined
  · rintro ⟨hreceivers, hbundle⟩
    refine ⟨?_, ?_, ?_⟩
    · intro o ho
      rw [hreceivers] at ho
      cases ho
    · intro w hw
      rw [(welcome_eq_none_iff r.built).mpr hbundle] at hw
      cases hw
    · intro s hs'
      rw [outcome, hreceivers, r.welcomed_eq_nil haead] at hs'
      rw [List.mem_singleton.mp hs']
      exact ⟨rfl, rfl, rfl, rfl⟩

end Rounds

/-! ## The whole run -/

/-- Members in new states, one after another. -/
theorem Group.Sound.holdAll {members : List (CocoaSession P)} :
    ∀ {G : Group P}, G.Sound →
      (∀ s ∈ members, s.tree.Bare ∧ ¬ G.OneTime (P.publicKey s.ourKeypair)) →
      (members.foldl Group.hold G).Sound ∧
        ∀ s, s ∈ members ∨ s ∈ G.sessions → s ∈ (members.foldl Group.hold G).sessions := by
  induction members with
  | nil =>
    intro G h _
    refine ⟨h, ?_⟩
    rintro s (hs | hs)
    · cases hs
    · exact hs
  | cons member members ih =>
    intro G h hmembers
    rcases hmembers member List.mem_cons_self with ⟨hbare, hown⟩
    rcases ih (h.hold hbare hown) (fun s hs => hmembers s (List.mem_cons_of_mem _ hs)) with
      ⟨hsound, hheld⟩
    refine ⟨hsound, ?_⟩
    rintro s (hs | hs)
    · rcases List.mem_cons.mp hs with rfl | hs
      · exact hheld _ (.inr (.inl rfl))
      · exact hheld s (.inl hs)
    · exact hheld s (.inr (.inr hs))

/-- The current members of an honest run are members of a sound group. -/
theorem HonestRun.sound {size : Nat} (hpk : P.PublicKeyCodec size) (henc : P.EncapsulationCodec)
    (hkem : P.IdealKem) (haead : P.IdealAead) {G : Group P} {current : List (CocoaSession P)}
    {rounds : List (Round P)} (h : HonestRun G current rounds) :
    G.Sound ∧ ∀ s ∈ current, s ∈ G.sessions := by
  induction h with
  | @start identity kem userId bundles draws s welcomes joined h hjoined =>
    have hbare : ∀ j ∈ joined, j.tree.Bare := by
      generalize bundles.zip welcomes = entries at hjoined
      clear h
      induction hjoined with
      | nil => simp
      | cons head _ ih =>
        rcases head with ⟨_, _, _, hwelcome⟩
        intro j hj
        rcases List.mem_cons.mp hj with rfl | hj
        · rw [(processWelcome_ok hwelcome).tree_eq]
          exact all_new _ _ _
        · exact ih j hj
    rcases (Group.Sound.of_start (.created h)).holdAll
      (fun j hj => ⟨hbare j hj, fun ⟨_, hsent, _⟩ => nomatch hsent⟩) with ⟨hsound, hheld⟩
    refine ⟨hsound, ?_⟩
    intro s hs
    rcases List.mem_cons.mp hs with rfl | hs
    · exact hheld s (.inr rfl)
    · exact hheld s (.inl hs)
  | @next G current rounds _ r hcurrent hfresh ih =>
    rcases ih with ⟨hsound, hheld⟩
    have hmem : ∀ s, s ∈ r.committer :: r.others → s ∈ G.sessions := fun s hs =>
      hheld s (hcurrent.mem_iff.mpr hs)
    have hs := hmem r.committer List.mem_cons_self
    have hothers : ∀ o ∈ r.others, o ∈ G.sessions := fun o ho => hmem o (List.mem_cons_of_mem _ ho)
    have hnext := hsound.send haead hs r.built hfresh
    have hreceived : ∀ o ∈ r.receivers.map r.deliver ++ r.welcomed,
        o ∈ (G.send r.operation r.message r.after).sessions := by
      intro o ho
      rw [r.welcomed_eq_nil haead, List.append_nil, List.mem_map] at ho
      rcases ho with ⟨x, hx, rfl⟩
      rw [Round.deliver_eq hpk henc hkem haead hsound hs hothers hfresh hx]
      exact .inr (hothers x (List.mem_of_mem_filter hx))
    rcases hnext.holdAll (fun o ho => ⟨hnext.bare o (hreceived o ho),
      (hnext.own o (hreceived o ho)).2⟩)
      with ⟨hsound', hheld'⟩
    refine ⟨hsound', ?_⟩
    intro s hs
    rcases List.mem_cons.mp hs with rfl | hs
    · exact hheld' _ (.inr (.inl rfl))
    · exact hheld' s (.inl hs)

/-- In an honest run every delivery succeeds and the current members agree after
every round, exactly when no round has anybody to deliver to. -/
theorem whole_run_agreement_iff {size : Nat} (hpk : P.PublicKeyCodec size)
    (henc : P.EncapsulationCodec) (hkem : P.IdealKem) (haead : P.IdealAead) {G : Group P}
    {current : List (CocoaSession P)} {rounds : List (Round P)} (h : HonestRun G current rounds) :
    (∀ r ∈ rounds, r.Agrees) ↔ ∀ r ∈ rounds, r.Alone := by
  induction h with
  | start => simp
  | @next G current rounds hrun r hcurrent hfresh ih =>
    rcases hrun.sound hpk henc hkem haead with ⟨hsound, hheld⟩
    have hmem : ∀ s, s ∈ r.committer :: r.others → s ∈ G.sessions := fun s hs =>
      hheld s (hcurrent.mem_iff.mpr hs)
    have hround := Round.agrees_iff hpk henc hkem haead hsound (hmem _ List.mem_cons_self)
      (fun o ho => hmem o (List.mem_cons_of_mem _ ho)) hfresh
    simp only [List.forall_mem_append, List.forall_mem_singleton, ih, hround]

section Sample

open Symbolic

/-- The creator of a group of one makes an update, and agrees with itself. -/
theorem whole_run_agreement_alone :
    ∃ G current, ∃ r : Round symbolic, HonestRun G current [r] ∧ r.Agrees := by
  have hcreate : createGroup (word 60) (keyPair 10) (word 0) [] groupDraws =
      .ok (member 0 10 (tree 0 1 []), []) := rfl
  have hrun : okAnd (Operation.update.build (word 60) (draws 500) (member 0 10 (tree 0 1 [])))
      fun _ s' => s'.ourKeypair = keyPair 1500 := by
    decide +kernel
  rcases okAnd_eq_true.mp hrun with ⟨m, s', hbuild, htest⟩
  have hkeypair : s'.ourKeypair = keyPair 1500 := of_decide_eq_true htest
  let r : Round symbolic :=
    { committer := member 0 10 (tree 0 1 []), others := [], operation := .update
      identity := word 60, draws := draws 500, message := m, after := s', built := hbuild
      newcomer := none
      newcomer_eq := fun _ hbundle => absurd hbundle.symm (Option.some_ne_none _) }
  have hstart : HonestRun (Group.create (keyPair 10) [] (member 0 10 (tree 0 1 [])) [])
      [member 0 10 (tree 0 1 [])] [] := .start hcreate .nil
  have hfresh : (Group.create (keyPair 10) [] (member 0 10 (tree 0 1 [])) []).Fresh r.operation
      r.committer r.after := by
    refine ⟨.inr ?_, fun _ hbundle => absurd hbundle.symm (Option.some_ne_none _)⟩
    rintro (hkey | ⟨_, hbundle, _⟩)
    · change s'.ourKeypair = keyPair 10 at hkey
      rw [hkeypair] at hkey
      revert hkey
      decide
    · cases hbundle
  have hhonest := hstart.next r (.refl _) hfresh
  refine ⟨_, _, r, hhonest, ?_⟩
  have hagree := (whole_run_agreement_iff publicKeyCodec encapsulationCodec idealKem idealAead
    hhonest).mpr
  refine hagree ?_ r (List.mem_singleton_self r)
  intro r' hr'
  rw [List.mem_singleton.mp hr']
  exact ⟨rfl, rfl⟩

/-- Whether the one member that a created group has invited joins, and then fails
on the creator's update. -/
def joinedCannotDecrypt (created : CocoaSession symbolic × List (Welcome symbolic)) :
    Bool :=
  match created.2 with
  | [w] => okWith (processWelcome (word 1) (keyPair 11) w (word 60)) fun j =>
    okAnd (Operation.update.build (word 60) (draws 500) created.1) fun m s' =>
      s'.ourKeypair = keyPair 1500 ∧ failsWith (m.commit.process (word 60) j) .decryptionFailed
  | _ => false

/-- The creator of a group of two makes an update, and the other member, which has
joined, cannot decrypt it. -/
theorem whole_run_disagrees :
    ∃ G current, ∃ r : Round symbolic, HonestRun G current [r] ∧ r.operation = .update ∧
      ∃ o ∈ r.receivers, ∃ o', r.message.commit.process (symbolic.identityPublicKey r.identity) o =
        .error .decryptionFailed o' := by
  have hrun : okWith (createGroup (word 60) (keyPair 10) (word 0) [⟨key 11, key 21⟩] groupDraws)
      joinedCannotDecrypt := by
    decide +kernel
  rcases okWith_eq_true.mp hrun with ⟨⟨s, welcomes⟩, hcreate, hrun⟩
  rcases welcomes with _ | ⟨w, _ | ⟨_, _⟩⟩
  · cases hrun
  · rcases okWith_eq_true.mp hrun with ⟨j, hwelcome, hrun⟩
    rcases okAnd_eq_true.mp hrun with ⟨m, s', hbuild, htest⟩
    rcases of_decide_eq_true htest with ⟨hkeypair, hfails⟩
    let r : Round symbolic :=
      { committer := s, others := [j], operation := .update
        identity := word 60, draws := draws 500, message := m, after := s', built := hbuild
        newcomer := none
        newcomer_eq := fun _ hbundle => absurd hbundle.symm (Option.some_ne_none _) }
    let G : Group symbolic := .hold (.create (keyPair 10) [⟨key 11, key 21⟩] s [w]) j
    have hjoined : HonestRun G [s, j] [] :=
      .start hcreate (.cons ⟨word 1, keyPair 11, rfl, hwelcome⟩ .nil)
    have hfresh : G.Fresh r.operation r.committer r.after := by
      refine ⟨.inr ?_, fun _ hbundle => absurd hbundle.symm (Option.some_ne_none _)⟩
      have hkeyj : j.ourKeypair = keyPair 11 := (processWelcome_ok hwelcome).ourKeypair_eq
      rintro (hkey | hkey | ⟨_, hbundle, hkey⟩)
      · change s'.ourKeypair = j.ourKeypair at hkey
        rw [hkeypair, hkeyj] at hkey
        revert hkey
        decide
      · change s'.ourKeypair = keyPair 10 at hkey
        rw [hkeypair] at hkey
        revert hkey
        decide
      · rw [List.mem_singleton.mp hbundle] at hkey
        change s'.ourKeypair = keyPair 11 ∨ s'.ourKeypair = keyPair 21 at hkey
        rw [hkeypair] at hkey
        revert hkey
        decide
    refine ⟨_, _, r, hjoined.next r (.refl _) hfresh, rfl, j, ?_, failsWith_eq_true.mp hfails⟩
    exact List.mem_filter.mpr ⟨List.mem_singleton_self _, rfl⟩
  · cases hrun

end Sample

end Trelis.Cocoa
