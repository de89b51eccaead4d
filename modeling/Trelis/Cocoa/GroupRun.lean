import Mathlib.Data.Set.Insert
import Trelis.Cocoa.NodeInvariant
import Trelis.Cocoa.WelcomeJoin

/-!
# Honest runs of a group

A group runs honestly when its messages are made by the builders.  `Group` holds
the sessions that its members have been in, the messages sent, the invitations
of newcomers and the KEM keys in use, and `GroupStep` is one call at one member,
with the messages delivered to anybody, in any order and any number of times.
Key pairs and one-time keys are fresh.

The trees of an honest run have no keys at all (`Group.Sound`).  A new tree has
none, a builder writes none, and so the recipients of a commit are at most the
newcomer, whose one-time key is nobody else's: nobody accepts the commit, and no
path is ever written.
-/

namespace Trelis.Cocoa

open PartialTreeView

variable {P : Primitives}

/-! ## Trees without keys -/

/-- No node of the tree has a key. -/
def PartialTreeView.Bare (t : PartialTreeView P) : Prop := t.All fun _ _ k => k = none

theorem inherited_bare : Inherited (P := P) fun _ _ k => k = none where
  deepen := id
  blank := fun _ => rfl

theorem PartialTreeView.Bare.keyAt {t : PartialTreeView P} (h : t.Bare) (i : NodeIndex) :
    t.keyAt i = none := by
  rw [Option.eq_none_iff_forall_not_mem]
  intro pk hpk
  rcases Option.bind_eq_some_iff.mp hpk with ⟨node, hget, hkey⟩
  rw [h i node hget] at hkey
  cases hkey

theorem PartialTreeView.Bare.session {s : CocoaSession P} (h : s.tree.Bare) (op : Operation P) :
    (op.session s).tree.Bare := by
  cases op with
  | add bundle newMemberId => exact h.growIfNeeded inherited_bare _
  | update => exact h
  | remove removedMemberId removedPosition => exact h.blankNode inherited_bare _

/-- The bundle of the newcomer. -/
def Operation.bundle : Operation P → Option (PreKeyBundle P)
  | add bundle _ => some bundle
  | update => none
  | remove _ _ => none

/-- In a tree without keys, the newcomer is the only recipient. -/
theorem Operation.mem_recipients_bare {op : Operation P} {s : CocoaSession P} (h : s.tree.Bare)
    {v : NodeIndex} {r : NodeIndex × P.PublicKey} (hr : r ∈ op.recipients s v) :
    ∃ bundle ∈ op.bundle, r.2 = bundle.oneTimeKem := by
  rcases mem_recipients.mp hr with ⟨_, _, ⟨_, hkey, _⟩ | ⟨hnewcomer, _⟩⟩
  · rw [(h.session op).keyAt] at hkey
    cases hkey
  · cases op with
    | add bundle newMemberId =>
      cases hnewcomer
      exact ⟨bundle, rfl, rfl⟩
    | update => cases hnewcomer
    | remove removedMemberId removedPosition => cases hnewcomer

/-! ## Who opens an honest message -/

section Opens

variable {size : Nat} {op : Operation P} {identity : P.IdentityKeyPair} {draws : Draws P}
  {s s' : CocoaSession P} {m : Message P}

/-- An entry of a commit that was built over a tree without keys opens only for
the newcomer. -/
theorem newcomer_of_decrypts (hpk : P.PublicKeyCodec size) (henc : P.EncapsulationCodec)
    (hkem : P.IdealKem) (haead : P.IdealAead) (h : op.build identity draws s = .ok m s')
    (hbare : s.tree.Bare) {us : List (NodeUpdate P)}
    (hus : convertPathUpdatesToNodeUpdates P m.commit.pathUpdates = .ok us) {u : NodeUpdate P}
    (hu : u ∈ us) {e : RecipientSeed P} (he : e ∈ u.encryptedSeeds) {kp : P.KeyPair} {seed : Seed}
    (hopen : decryptSeed e.encrypted kp u.nodeIndex = .ok seed) :
    ∃ bundle ∈ op.bundle, P.publicKey kp = bundle.oneTimeKem := by
  rcases Operation.build_ok h with ⟨_, result, hsent⟩
  rw [hsent.pathUpdates_eq, convert_built hpk henc hsent.path.levels, Except.ok.injEq] at hus
  subst hus
  rcases List.mem_map.mp hu with ⟨built, hbuilt, rfl⟩
  rcases List.mem_map.mp he with ⟨entry, hentry, rfl⟩
  rcases hsent.path.levels.of_mem built hbuilt with ⟨_, _, _, _, hlevel⟩
  rcases hlevel.entry hentry with ⟨r, hr, _, coins, hencrypt⟩
  rcases Operation.mem_recipients_bare hbare hr with ⟨bundle, hbundle, hkey⟩
  refine ⟨bundle, hbundle, ?_⟩
  rw [← hkey]
  by_contra hne
  exact decryptSeed_other hkem haead hencrypt hne seed hopen

/-- Whoever accepts a commit with path updates has opened one of its entries. -/
theorem Commit.decrypts_of_process {c : Commit P} {signer : P.IdentityPublicKey}
    (h : c.process signer s = .ok () s') :
    ∃ us, convertPathUpdatesToNodeUpdates P c.pathUpdates = .ok us ∧ (us ≠ [] →
      ∃ u ∈ us, ∃ e ∈ u.encryptedSeeds, ∃ seed,
        decryptSeed e.encrypted s.ourKeypair u.nodeIndex = .ok seed) := by
  have hopened : ∀ {us : List (NodeUpdate P)} {delta : Seed}, OpenedPath us s.ourKeypair delta →
      ∃ u ∈ us, ∃ e ∈ u.encryptedSeeds, ∃ seed,
        decryptSeed e.encrypted s.ourKeypair u.nodeIndex = .ok seed := by
    rintro us delta ⟨level, seed, u, hu, ⟨e, he, hopen⟩, _⟩
    exact ⟨u, List.mem_of_getElem? hu, e, he, seed, hopen⟩
  cases c with
  | add c =>
    rcases processAdd_eq_ok.mp h with ⟨_, _, hcheck, _⟩
    rcases ((checkAdd_eq_ok rfl).mp hcheck).2.2.2 with ⟨us, hchecked, hdelta, _⟩
    refine ⟨us, hchecked.converted, fun hne => ?_⟩
    rcases deltaRootOf_eq_ok hdelta with ⟨hnil, _⟩ | hopen
    · exact absurd hnil hne
    · exact hopened hopen
  | update c =>
    rcases processUpdate_eq_ok.mp h with ⟨_, _, hcheck, _⟩
    rcases (checkUpdate_eq_ok.mp hcheck).2 with ⟨us, hchecked, hdelta, _⟩
    exact ⟨us, hchecked.converted, fun _ => hopened (applyPathUpdates_ok hdelta)⟩
  | remove c =>
    rcases processRemove_eq_ok.mp h with ⟨_, _, hcheck, _⟩
    rcases (checkRemove_eq_ok.mp hcheck).2.2 with ⟨us, hchecked, hdelta, _⟩
    refine ⟨us, hchecked.converted, fun hne => ?_⟩
    rcases deltaRootOf_eq_ok hdelta with ⟨hnil, _⟩ | hopen
    · exact absurd hnil hne
    · exact hopened hopen

/-- A commit that was built over a tree without keys is accepted by the newcomer
at most. -/
theorem newcomer_of_accepts (hpk : P.PublicKeyCodec size) (henc : P.EncapsulationCodec)
    (hkem : P.IdealKem) (haead : P.IdealAead) (h : op.build identity draws s = .ok m s')
    (hbare : s.tree.Bare) {signer : P.IdentityPublicKey} {o o' : CocoaSession P}
    (hprocess : m.commit.process signer o = .ok () o') :
    ∃ bundle ∈ op.bundle, P.publicKey o.ourKeypair = bundle.oneTimeKem := by
  rcases Commit.decrypts_of_process hprocess with ⟨us, hus, hopened⟩
  have hne : us ≠ [] := by
    rintro rfl
    rcases Operation.build_ok h with ⟨_, result, hsent⟩
    have hlength := hsent.path.levels.length_eq
    rw [derivePathSeeds_length] at hlength
    rw [hsent.pathUpdates_eq, convert_built hpk henc hsent.path.levels, Except.ok.injEq,
      List.map_eq_nil_iff] at hus
    rw [hus] at hlength
    cases hlength
  rcases hopened hne with ⟨u, hu, e, he, seed, hopen⟩
  exact newcomer_of_decrypts hpk henc hkem haead h hbare hus hu he hopen

/-- The newcomer does not join. -/
theorem not_joined_of_build (haead : P.IdealAead) (h : op.build identity draws s = .ok m s')
    {w : Welcome P} (hw : w ∈ m.welcome) (userId : UserId) (kp : P.KeyPair)
    (committer : P.IdentityPublicKey) (joined : CocoaSession P) :
    processWelcome userId kp w committer ≠ .ok joined := by
  rcases Operation.build_ok h with ⟨_, _, hsent⟩
  rcases hsent.welcome w hw with ⟨_, _, _, _, _, _, _, _, hwelcome⟩
  exact createWelcomeMessage_never_opens haead hwelcome userId kp committer joined

end Opens

/-! ## Groups -/

/-- The KEM keys of a bundle. -/
def kemKeys (bundle : PreKeyBundle P) : Set P.PublicKey :=
  {bundle.identityKem, bundle.oneTimeKem}

/-- The sessions that the members of a group have been in, the calls of builders
with their messages, the welcomes with the keys that they are meant for, and the
KEM keys in use. -/
structure Group (P : Primitives) where
  sessions : Set (CocoaSession P)
  sent : List (Operation P × Message P)
  invitations : Set (P.PublicKey × Welcome P)
  keys : Set P.PublicKey

namespace Group

/-- A new group and its invitations. -/
def create (kem : P.KeyPair) (bundles : List (PreKeyBundle P)) (s : CocoaSession P)
    (welcomes : List (Welcome P)) : Group P where
  sessions := {s}
  sent := []
  invitations := { x | ∃ entry ∈ bundles.zip welcomes, x = (entry.1.identityKem, entry.2) }
  keys := {P.publicKey kem} ∪ { pk | ∃ bundle ∈ bundles, pk ∈ kemKeys bundle }

/-- A member is in a new state. -/
def hold (G : Group P) (s' : CocoaSession P) : Group P where
  sessions := insert s' G.sessions
  sent := G.sent
  invitations := G.invitations
  keys := insert (P.publicKey s'.ourKeypair) G.keys

/-- A member has called a builder. -/
def send (G : Group P) (op : Operation P) (m : Message P) (s' : CocoaSession P) : Group P where
  sessions := insert s' G.sessions
  sent := G.sent ++ [(op, m)]
  invitations := G.invitations ∪
    { x | ∃ bundle ∈ op.bundle, ∃ w ∈ m.welcome, x = (bundle.oneTimeKem, w) }
  keys := insert (P.publicKey s'.ourKeypair) G.keys ∪
    { pk | ∃ bundle ∈ op.bundle, pk ∈ kemKeys bundle }

/-- The key is the one-time key of a member that was added. -/
def OneTime (G : Group P) (pk : P.PublicKey) : Prop :=
  ∃ e ∈ G.sent, ∃ bundle ∈ e.1.bundle, pk = bundle.oneTimeKem

/-- The key pair after a call of a builder is the one before, or new. -/
def FreshKeypair (G : Group P) (s s' : CocoaSession P) : Prop :=
  s'.ourKeypair = s.ourKeypair ∨ P.publicKey s'.ourKeypair ∉ G.keys

/-- The key pair, and the one-time key of a newcomer, are new. -/
structure Fresh (G : Group P) (op : Operation P) (s s' : CocoaSession P) : Prop where
  keypair : G.FreshKeypair s s'
  oneTime : ∀ bundle ∈ op.bundle, bundle.oneTimeKem ∉ insert (P.publicKey s'.ourKeypair) G.keys

end Group

/-- A group starts with `create_group`. -/
inductive GroupStart : Group P → Prop
  | created {identity kem userId bundles draws s welcomes}
      (h : createGroup identity kem userId bundles draws = .ok (s, welcomes)) :
      GroupStart (Group.create kem bundles s welcomes)

/-- One call at one member. -/
inductive GroupStep : Group P → Group P → Prop
  | built {G : Group P} {op : Operation P} {identity draws s m s'} (hs : s ∈ G.sessions)
      (h : op.build identity draws s = .ok m s') (hfresh : G.Fresh op s s') :
      GroupStep G (G.send op m s')
  | failed {G : Group P} {op : Operation P} {identity draws s e s'} (hs : s ∈ G.sessions)
      (h : op.build identity draws s = .error e s') (hfresh : G.FreshKeypair s s') :
      GroupStep G (G.hold s')
  | accepted {G : Group P} {entry signer s s'} (hs : s ∈ G.sessions) (hsent : entry ∈ G.sent)
      (h : entry.2.commit.process signer s = .ok () s') : GroupStep G (G.hold s')
  | joined {G : Group P} {invitation userId kem committer s'}
      (hinvited : invitation ∈ G.invitations) (hkem : P.publicKey kem = invitation.1)
      (h : processWelcome userId kem invitation.2 committer = .ok s') : GroupStep G (G.hold s')

/-- What holds in every honest run: no tree has a key, the key pair of a member
is not the one-time key of another, every message was built over a tree without
keys, an invitation is one of the first members' or opens for nobody, and the
one-time keys are new. -/
structure Group.Sound (G : Group P) : Prop where
  bare : ∀ s ∈ G.sessions, s.tree.Bare
  own : ∀ s ∈ G.sessions, P.publicKey s.ourKeypair ∈ G.keys ∧ ¬ G.OneTime (P.publicKey s.ourKeypair)
  built : ∀ e ∈ G.sent, ∃ identity draws s s', e.1.build identity draws s = .ok e.2 s' ∧
    s.tree.Bare
  announced : ∀ e ∈ G.sent, ∀ bundle ∈ e.1.bundle, ∀ pk ∈ kemKeys bundle, pk ∈ G.keys
  invited : ∀ x ∈ G.invitations, (x.1 ∈ G.keys ∧ ¬ G.OneTime x.1) ∨
    ∀ userId kem committer joined, processWelcome userId kem x.2 committer ≠ .ok joined
  ordered : G.sent.Pairwise fun e e' =>
    ∀ bundle ∈ e.1.bundle, ∀ bundle' ∈ e'.1.bundle, bundle'.oneTimeKem ∉ kemKeys bundle

namespace Group.Sound

variable {G : Group P}

theorem of_start (h : GroupStart G) : G.Sound := by
  cases h with
  | created h =>
    have hcreated := createGroup_ok h
    refine ⟨?_, ?_, ?_, ?_, ?_, List.Pairwise.nil⟩
    · rintro _ rfl
      rcases hcreated.tree_eq with ⟨_, _, htree⟩
      rw [htree]
      exact all_new _ _ _
    · rintro _ rfl
      refine ⟨.inl ?_, fun ⟨_, hsent, _⟩ => (nomatch hsent)⟩
      rw [hcreated.ourKeypair_eq]
      rfl
    · exact fun _ hsent => nomatch hsent
    · exact fun _ hsent => nomatch hsent
    · rintro _ ⟨entry, hentry, rfl⟩
      refine .inl ⟨.inr ⟨entry.1, (List.of_mem_zip hentry).1, .inl rfl⟩, ?_⟩
      exact fun ⟨_, hsent, _⟩ => nomatch hsent

/-- A member in a new state, with a tree without keys and a key pair that is
nobody's one-time key. -/
theorem hold (h : G.Sound) {s' : CocoaSession P} (hbare : s'.tree.Bare)
    (hown : ¬ G.OneTime (P.publicKey s'.ourKeypair)) : (G.hold s').Sound where
  bare := by
    rintro s (rfl | hs)
    · exact hbare
    · exact h.bare s hs
  own := by
    rintro s (rfl | hs)
    · exact ⟨.inl rfl, hown⟩
    · exact ⟨.inr (h.own s hs).1, (h.own s hs).2⟩
  built := h.built
  announced e he bundle hbundle pk hpk := .inr (h.announced e he bundle hbundle pk hpk)
  invited x hx := (h.invited x hx).imp_left fun hkey => ⟨.inr hkey.1, hkey.2⟩
  ordered := h.ordered

/-- A fresh key pair is nobody's one-time key. -/
theorem not_oneTime (h : G.Sound) {s s' : CocoaSession P} (hs : s ∈ G.sessions)
    (hfresh : G.FreshKeypair s s') : ¬ G.OneTime (P.publicKey s'.ourKeypair) := by
  rcases hfresh with hsame | hnew
  · rw [hsame]
    exact (h.own s hs).2
  · rintro ⟨e, he, bundle, hbundle, hkey⟩
    exact hnew (h.announced e he bundle hbundle _ (.inr hkey))

/-- Nobody accepts a message. -/
theorem not_accepted (h : G.Sound) {size : Nat} (hpk : P.PublicKeyCodec size)
    (henc : P.EncapsulationCodec) (hkem : P.IdealKem) (haead : P.IdealAead)
    {s s' : CocoaSession P} (hs : s ∈ G.sessions) {e : Operation P × Message P} (he : e ∈ G.sent)
    {signer : P.IdentityPublicKey} : e.2.commit.process signer s ≠ .ok () s' := by
  intro hprocess
  rcases h.built e he with ⟨_, _, _, _, hbuild, hbare⟩
  rcases newcomer_of_accepts hpk henc hkem haead hbuild hbare hprocess with ⟨bundle, hbundle, hkey⟩
  exact (h.own s hs).2 ⟨e, he, bundle, hbundle, hkey⟩

theorem send (h : G.Sound) (haead : P.IdealAead) {op : Operation P} {identity : P.IdentityKeyPair}
    {draws : Draws P} {s s' : CocoaSession P} {m : Message P} (hs : s ∈ G.sessions)
    (hbuild : op.build identity draws s = .ok m s') (hfresh : G.Fresh op s s') :
    (G.send op m s').Sound := by
  have honeTime : ∀ {pk}, pk ∈ insert (P.publicKey s'.ourKeypair) G.keys → ¬ G.OneTime pk →
      ¬ (G.send op m s').OneTime pk := by
    rintro pk hpk hold ⟨e, he, bundle, hbundle, rfl⟩
    rcases List.mem_append.mp he with he | he
    · exact hold ⟨e, he, bundle, hbundle, rfl⟩
    · rw [List.mem_singleton.mp he] at hbundle
      exact hfresh.oneTime bundle hbundle hpk
  constructor
  case bare =>
    rintro t (rfl | ht)
    · exact (h.bare s hs).leavesTree inherited_bare (Operation.leavesTree_of_ok hbuild).1
    · exact h.bare t ht
  case own =>
    rintro t (rfl | ht)
    · exact ⟨.inl (.inl rfl), honeTime (.inl rfl) (h.not_oneTime hs hfresh.keypair)⟩
    · exact ⟨.inl (.inr (h.own t ht).1), honeTime (.inr (h.own t ht).1) (h.own t ht).2⟩
  case built =>
    intro e he
    rcases List.mem_append.mp he with he | he
    · exact h.built e he
    · rw [List.mem_singleton.mp he]
      exact ⟨identity, draws, s, s', hbuild, h.bare s hs⟩
  case announced =>
    intro e he bundle hbundle pk hpk
    rcases List.mem_append.mp he with he | he
    · exact .inl (.inr (h.announced e he bundle hbundle pk hpk))
    · rw [List.mem_singleton.mp he] at hbundle
      exact .inr ⟨bundle, hbundle, hpk⟩
  case invited =>
    rintro x (hx | ⟨bundle, _, w, hw, rfl⟩)
    · refine (h.invited x hx).imp_left fun hkey => ⟨.inl (.inr hkey.1), ?_⟩
      exact honeTime (.inr hkey.1) hkey.2
    · exact .inr (not_joined_of_build haead hbuild hw)
  case ordered =>
    refine List.pairwise_append.mpr ⟨h.ordered, List.pairwise_singleton _ _, ?_⟩
    intro e he e' he' bundle hbundle bundle' hbundle' hkey
    rw [List.mem_singleton.mp he'] at hbundle'
    exact hfresh.oneTime bundle' hbundle' (.inr (h.announced e he bundle hbundle _ hkey))

theorem step (h : G.Sound) {size : Nat} (hpk : P.PublicKeyCodec size) (henc : P.EncapsulationCodec)
    (hkem : P.IdealKem) (haead : P.IdealAead) {G' : Group P} (hstep : GroupStep G G') :
    G'.Sound := by
  cases hstep with
  | built hs hbuild hfresh => exact h.send haead hs hbuild hfresh
  | failed hs hbuild hfresh =>
    apply h.hold _ (h.not_oneTime hs hfresh)
    exact (h.bare _ hs).leavesTree inherited_bare (Operation.leavesTree_of_error hbuild).1
  | accepted hs he hprocess => exact absurd hprocess (h.not_accepted hpk henc hkem haead hs he)
  | joined hinvited hkey hwelcome =>
    rcases h.invited _ hinvited with ⟨_, hown⟩ | hnever
    · have hjoined := processWelcome_ok hwelcome
      apply h.hold
      · rw [hjoined.tree_eq]
        exact all_new _ _ _
      · rw [hjoined.ourKeypair_eq, hkey]
        exact hown
    · exact absurd hwelcome (hnever _ _ _ _)

theorem of_reachable {size : Nat} (hpk : P.PublicKeyCodec size) (henc : P.EncapsulationCodec)
    (hkem : P.IdealKem) (haead : P.IdealAead) (h : Reachable GroupStart GroupStep G) : G.Sound :=
  h.invariant (fun _ => of_start) fun _ _ hsound => hsound.step hpk henc hkem haead

end Group.Sound

end Trelis.Cocoa
