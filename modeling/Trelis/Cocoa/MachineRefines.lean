import Trelis.Cocoa.Machine

/-!
# Machine arithmetic and unbounded numbers

Every function of the machine layer returns what its namesake over unbounded
numbers returns, unless it panics; `process_refines` and `processWelcome_refines`
say so of the four entry points.  What is proved of the unbounded functions then
holds of every call that does not panic.
-/

namespace Trelis.Cocoa.Machine

open PartialTreeView MachineM

variable {P : Primitives} {β : Type}

/-! ## Indices and views -/

/-- The linear index of the node can be computed. -/
structure Addressable (i : NodeIndex) : Prop where
  depth_lt : i.depth < 64
  toLinear_lt : i.toLinear < 2 ^ 64

instance (i : NodeIndex) : Decidable (Addressable i) :=
  decidable_of_iff (i.depth < 64 ∧ i.toLinear < 2 ^ 64) ⟨fun h => ⟨h.1, h.2⟩, fun h => ⟨h.1, h.2⟩⟩

/-- A node with a `u32` position can be addressed down to depth 63. -/
theorem addressable_iff {i : NodeIndex} (h : i.position < 2 ^ 32) :
    Addressable i ↔ i.depth < 64 := by
  refine ⟨Addressable.depth_lt, fun hd => ⟨hd, ?_⟩⟩
  have hpow : 2 ^ i.depth ≤ 2 ^ 63 := Nat.pow_le_pow_right (by decide) (by omega)
  unfold NodeIndex.toLinear
  omega

theorem toLinear_eq (i : NodeIndex) :
    toLinear i = if Addressable i then some i.toLinear else none := by
  unfold toLinear shlWord
  by_cases hd : i.depth < 64
  · have hpow : 1 <<< i.depth % 2 ^ 64 = 2 ^ i.depth := by
      rw [Nat.one_shiftLeft, Nat.mod_eq_of_lt (Nat.pow_lt_pow_right (by decide) hd)]
    have hpos : 1 ≤ 2 ^ i.depth := Nat.one_le_two_pow
    rw [if_pos hd, hpow]
    show (subWord (2 ^ i.depth) 1).bind (fun before => addWord 64 before i.position) = _
    rw [subWord, if_pos hpos]
    show addWord 64 (2 ^ i.depth - 1) i.position = _
    by_cases hlt : i.toLinear < 2 ^ 64
    · rw [if_pos (⟨hd, hlt⟩ : Addressable i)]
      exact if_pos hlt
    · rw [if_neg fun h : Addressable i => hlt h.toLinear_lt]
      exact if_neg hlt
  · rw [if_neg hd, if_neg fun h => hd h.depth_lt]
    rfl

theorem get_eq (t : PartialTreeView P) (i : NodeIndex) :
    get t i = if Addressable i then some (t.get i) else none := by
  unfold get
  rw [toLinear_eq]
  split <;> rfl

theorem insert_eq (t : PartialTreeView P) (node : TreeNode P) :
    insert t node = if Addressable node.index then some (t.insert node) else none := by
  unfold insert
  rw [toLinear_eq]
  split <;> rfl

theorem modifyState_eq (t : PartialTreeView P) (i : NodeIndex) (f : NodeState P → NodeState P) :
    modifyState t i f = if Addressable i then some (t.modifyState i f) else none := by
  unfold modifyState
  rw [toLinear_eq]
  split <;> rfl

theorem lookups_eq (is : List NodeIndex) :
    lookups is = if ∃ i ∈ is, ¬ Addressable i then none else some () := by
  have hround : ∀ i ∈ is, ∀ _ : Unit, ((toLinear i).map fun _ => ()) =
      if ¬ Addressable i then none else some () := by
    intro i _ _
    rw [toLinear_eq]
    split <;> simp [*]
  unfold lookups
  rw [foldlM_eq hround]

theorem get_eq_some {t : PartialTreeView P} {i : NodeIndex} {o : Option (TreeNode P)}
    (h : get t i = some o) : o = t.get i := by
  rw [get_eq] at h
  split at h
  · exact (Option.some.inj h).symm
  · cases h

theorem insert_eq_some {s t : PartialTreeView P} {node : TreeNode P}
    (h : insert t node = some s) : s = t.insert node := by
  rw [insert_eq] at h
  split at h
  · exact (Option.some.inj h).symm
  · cases h

theorem modifyState_eq_some {s t : PartialTreeView P} {i : NodeIndex}
    {f : NodeState P → NodeState P} (h : modifyState t i f = some s) : s = t.modifyState i f := by
  rw [modifyState_eq] at h
  split at h
  · exact (Option.some.inj h).symm
  · cases h

theorem leftChild_eq_some {i j : NodeIndex} (h : leftChild i = some j) : j = i.leftChild := by
  simp only [leftChild, Option.bind_eq_bind, Option.bind_eq_some_iff, addWord_eq_some,
    mulWord_eq_some, Option.pure_def, Option.some.injEq] at h
  rcases h with ⟨_, ⟨_, rfl⟩, _, ⟨_, rfl⟩, rfl⟩
  rfl

theorem rightChild_eq_some {i j : NodeIndex} (h : rightChild i = some j) : j = i.rightChild := by
  simp only [rightChild, Option.bind_eq_bind, Option.bind_eq_some_iff, addWord_eq_some,
    mulWord_eq_some, Option.pure_def, Option.some.injEq] at h
  rcases h with ⟨_, ⟨_, rfl⟩, _, ⟨_, rfl⟩, _, ⟨_, rfl⟩, rfl⟩
  rfl

theorem growIfNeeded_eq_some {s t : PartialTreeView P} {n : Nat}
    (h : growIfNeeded t n = some s) : s = t.growIfNeeded n := by
  unfold growIfNeeded at h
  unfold PartialTreeView.growIfNeeded
  split at h
  · next hdepth =>
    simp only [growTree, Option.bind_eq_bind, Option.bind_eq_some_iff, Option.pure_def,
      Option.some.injEq] at h
    rcases h with ⟨_, _, _, _, rfl⟩
    rw [if_pos hdepth]
  · next hdepth =>
    cases h
    rw [if_neg hdepth]

/-! ## Resolutions -/

/-- The walk finds what the walk over unbounded indices finds. -/
theorem foldBlankAux_eq_some {t : PartialTreeView P} {absent : β} {populated : NodeIndex → β}
    {blankLeaf : β} {blank : β → β → β} {n : Nat} {i : NodeIndex} {b : β}
    (h : foldBlankAux t absent populated blankLeaf blank n i = some b) :
    b = t.foldBlank absent populated blankLeaf blank i := by
  induction n generalizing i b with
  | zero => cases h
  | succ n ih =>
    rw [foldBlankAux, Option.bind_eq_bind, Option.bind_eq_some_iff] at h
    rcases h with ⟨o, hget, h⟩
    rw [PartialTreeView.foldBlank_eq, ← get_eq_some hget]
    cases o with
    | none => exact (Option.some.inj h).symm
    | some node =>
      simp only at h ⊢
      split at h
      · next hpop =>
        rw [if_pos hpop]
        exact (Option.some.inj h).symm
      · next hpop =>
        rw [if_neg hpop]
        split at h
        · next hleaf =>
          rw [if_pos hleaf]
          exact (Option.some.inj h).symm
        · next hleaf =>
          simp only [Option.bind_eq_bind, Option.bind_eq_some_iff, Option.pure_def,
            Option.some.injEq] at h
          rcases h with ⟨l, hl, left, hleft, r, hr, right, hright, rfl⟩
          rw [if_neg hleaf, ih hleft, ih hright, leftChild_eq_some hl, rightChild_eq_some hr]

theorem computeLj_eq_some {t : PartialTreeView P} {v : NodeIndex} {r : Resolution}
    (h : computeLj t v = some r) : r = t.computeLj v t.unmergedLeafNodes := by
  unfold computeLj at h
  split at h
  · next hs =>
    cases h
    simp [PartialTreeView.computeLj, hs]
  · simp only [Option.bind_eq_bind, Option.bind_eq_some_iff, Option.pure_def, Option.some.injEq]
    at h
    rcases h with ⟨_, _, _, _, _, _, rfl⟩
    rfl

/-! ## Parent hashes -/

theorem siblingLabel_eq_some {t : PartialTreeView P} {v : NodeIndex} {label : Bytes32}
    (h : siblingLabel t v = some label) : label = t.siblingLabel v := by
  unfold siblingLabel at h
  unfold PartialTreeView.siblingLabel
  cases hs : v.sibling with
  | none =>
    rw [hs] at h
    exact (Option.some.inj h).symm
  | some sibling =>
    rw [hs] at h
    simp only [Option.bind_eq_bind] at h
    rw [Option.bind_eq_some_iff] at h
    rcases h with ⟨o, hget, h⟩
    rw [get_eq_some hget] at h
    change _ = some label at h
    simp only
    cases hkey : t.keyAt sibling with
    | none =>
      rw [show (t.get sibling).bind (·.state.publicKey) = none from hkey] at h
      exact (Option.some.inj h).symm
    | some pk =>
      rw [show (t.get sibling).bind (·.state.publicKey) = some pk from hkey] at h
      exact (Option.some.inj h).symm

theorem reconstructResolutionKeys_eq_some {t : PartialTreeView P} {v : NodeIndex}
    {keys : List P.PublicKey} (h : reconstructResolutionKeys t v = some keys) :
    keys = t.reconstructResolutionKeys v := by
  simp only [reconstructResolutionKeys, Option.bind_eq_bind, Option.bind_eq_some_iff,
    Option.pure_def, Option.some.injEq] at h
  rcases h with ⟨resolution, hlj, _, _, _, _, _, _, rfl⟩
  rw [computeLj_eq_some hlj]
  rfl

theorem reconstructResolutionComplete_eq_some {t : PartialTreeView P} {v : NodeIndex}
    {r : List NodeIndex × Bool} (h : reconstructResolutionComplete t v = some r) :
    r = t.reconstructResolutionComplete v := by
  unfold reconstructResolutionComplete at h
  unfold PartialTreeView.reconstructResolutionComplete
  cases hs : v.sibling with
  | none =>
    rw [hs] at h
    exact (Option.some.inj h).symm
  | some sibling =>
    rw [hs] at h
    simp only [Option.bind_eq_bind, Option.bind_eq_some_iff, Option.pure_def, Option.some.injEq]
      at h
    rcases h with ⟨res, hres, _, _, _, _, rfl⟩
    rw [show res = t.resolveComplete sibling from foldBlankAux_eq_some hres]

theorem verifyLevel_refines (t : PartialTreeView P) (level : Nat) (prevH2 : Bytes32)
    (predecessors : List P.PublicKey) (update : NodeUpdate P) :
    (verifyLevel t level prevH2 predecessors update).Refines
      (Cocoa.verifyLevel t level prevH2 predecessors update) := by
  unfold verifyLevel Cocoa.verifyLevel
  split
  · exact refines_returns
  · refine .arith fun label hlabel => ?_
    rw [siblingLabel_eq_some hlabel]
    refine refines_returns.bind fun _ _ => ?_
    refine .arith fun rLocal hlocal => ?_
    rw [reconstructResolutionComplete_eq_some hlocal]
    by_cases hcomplete : (t.reconstructResolutionComplete update.nodeIndex).2 = true
    · simp only [hcomplete, if_true]
      refine refines_returns.bind fun _ _ => ?_
      refine .arith fun keys hkeys => ?_
      rw [reconstructResolutionKeys_eq_some hkeys]
      exact refines_returns
    · simp only [hcomplete, Bool.false_eq_true, if_false]
      exact refines_pure _

theorem verifyLevels_refines (t : PartialTreeView P) (updates : List (NodeUpdate P)) (level : Nat)
    (prevH2 : Bytes32) (predecessors : List P.PublicKey) :
    (verifyLevels t level prevH2 predecessors updates).Refines
      (Cocoa.verifyLevels t level prevH2 predecessors updates) := by
  induction updates generalizing level prevH2 predecessors with
  | nil => exact refines_pure _
  | cons update updates ih =>
    exact (verifyLevel_refines t level prevH2 predecessors update).bind fun _ _ => ih _ _ _

/-! ## Changes to the session -/

theorem writePathUpdate_eq_some {transcriptHash : Bytes32} {epochNumber : Nat} {sig : P.Signature}
    {updaterId : UserId} {s t : PartialTreeView P} {pu : PathUpdate}
    (h : writePathUpdate transcriptHash epochNumber sig updaterId t pu = some s) :
    s = Cocoa.writePathUpdate transcriptHash epochNumber sig updaterId t pu := by
  unfold writePathUpdate at h
  unfold Cocoa.writePathUpdate
  cases hpk : P.publicKeyFromBytes pu.newPublicKey with
  | ok pk =>
    rw [hpk] at h
    simp only [Option.bind_eq_bind, Option.bind_eq_some_iff, addWord_eq_some] at h
    rcases h with ⟨o, hget, _, ⟨_, rfl⟩, hinsert⟩
    rw [insert_eq_some hinsert, get_eq_some hget]
    rfl
  | error e =>
    rw [hpk] at h
    exact (Option.some.inj h).symm

theorem updateTreeFromPathUpdates_eq_some {s s' : CocoaSession P} {pus : List PathUpdate}
    {sig : P.Signature} {updaterId : UserId}
    (h : updateTreeFromPathUpdates s pus sig updaterId = some s') :
    s' = Cocoa.updateTreeFromPathUpdates s pus sig updaterId := by
  simp only [updateTreeFromPathUpdates, Option.bind_eq_bind, Option.bind_eq_some_iff,
    Option.pure_def, Option.some.injEq] at h
  rcases h with ⟨tree, htree, rfl⟩
  rw [foldlM_refines (fun _ _ _ => writePathUpdate_eq_some) htree]
  rfl

theorem clearUnmergedOnPath_eq_some {s s' : CocoaSession P} {leafPosition : Nat}
    (h : clearUnmergedOnPath s leafPosition = some s') :
    s' = Cocoa.clearUnmergedOnPath s leafPosition := by
  simp only [clearUnmergedOnPath, Option.bind_eq_bind, Option.bind_eq_some_iff, Option.pure_def,
    Option.some.injEq] at h
  rcases h with ⟨tree, htree, rfl⟩
  rw [foldlM_refines (fun _ _ _ => modifyState_eq_some) htree]
  rfl

/-- One round of the loop that marks a leaf as unmerged. -/
theorem markRound_eq_some {leafPosition : Nat} {t t' : PartialTreeView P} {current : NodeIndex}
    (h : ((get t current).bind fun o =>
      match o with
      | some node =>
        if node.state.isBlank then modifyState t current (·.addUnmergedLeaf leafPosition)
        else some t
      | none => some t) = some t') :
    t' = match t.get current with
      | some node => if node.state.isBlank then t.addUnmergedLeaf current leafPosition else t
      | none => t := by
  rw [Option.bind_eq_some_iff] at h
  rcases h with ⟨o, hget, hrun⟩
  rw [← get_eq_some hget]
  cases o with
  | none => exact (Option.some.inj hrun).symm
  | some node =>
    simp only at hrun ⊢
    split at hrun
    · next hblank =>
      rw [if_pos hblank]
      exact modifyState_eq_some hrun
    · next hblank =>
      rw [if_neg hblank]
      exact (Option.some.inj hrun).symm

theorem markMemberAsUnmerged_eq_some {s s' : CocoaSession P} {leafPosition : Nat}
    (h : markMemberAsUnmerged s leafPosition = some s') :
    s' = Cocoa.markMemberAsUnmerged s leafPosition := by
  simp only [markMemberAsUnmerged, Option.bind_eq_bind, Option.bind_eq_some_iff, Option.pure_def,
    Option.some.injEq] at h
  rcases h with ⟨tree, htree, rfl⟩
  rw [foldlM_refines (fun _ _ _ => markRound_eq_some) htree]
  rfl

theorem advanceEpoch_eq_some {s s' : CocoaSession P} {delta transcript : Bytes32}
    (h : advanceEpoch s delta transcript = some s') : s' = s.advanceEpoch delta transcript := by
  simp only [advanceEpoch, Option.bind_eq_bind, Option.bind_eq_some_iff, Option.pure_def,
    Option.some.injEq] at h
  rcases h with ⟨_, _, rfl⟩
  rfl

/-! ## The tree info of a welcome -/

/-- An array can be filled from a slice of its own length. -/
theorem exists_copy {bytes : Bytes} {n start stop : Nat} (hstop : stop = start + n)
    (hlen : stop ≤ bytes.length) :
    ∃ a, (slice bytes start stop).bind (FixedBytes.ofBytes? n) = some a := by
  have hsize : ((bytes.drop start).take (stop - start)).length = n := by
    rw [List.length_take, List.length_drop]
    omega
  rw [slice_of_le (by omega) hlen, Option.bind_some]
  exact ⟨⟨_, hsize⟩, dif_pos hsize⟩

/-- The conversion of that slice into the array. -/
theorem arith_copy_eq {bytes : Bytes} {n start stop : Nat} (e : CryptoError)
    (hstop : stop = start + n) (hlen : stop ≤ bytes.length) :
    arith ((slice bytes start stop).bind (FixedBytes.ofBytes? n)) =
      returns (toArray n ((bytes.drop start).take n) e) := by
  have hsize : ((bytes.drop start).take n).length = n := by
    rw [List.length_take, List.length_drop]
    omega
  have hcopy : FixedBytes.ofBytes? n ((bytes.drop start).take n) = some ⟨_, hsize⟩ := dif_pos hsize
  rw [slice_of_le (by omega) hlen, show stop - start = n by omega, toArray, Option.bind_some, hcopy]
  rfl

/-- A parser that stays within the bytes it has been given: for every byte string
that a vector can hold, no step of it panics. -/
theorem parseWelcomeTreeInfoAux_eq {info : Bytes} (hlen : info.length < 2 ^ 64) (n off : Nat) :
    parseWelcomeTreeInfoAux P info n off =
      returns (Cocoa.parseWelcomeTreeInfoAux P n (info.drop off)) := by
  induction n generalizing off with
  | zero => rfl
  | succ n ih =>
    rw [parseWelcomeTreeInfoAux, Cocoa.parseWelcomeTreeInfoAux]
    by_cases hoff : off < info.length
    · have hne : (info.drop off).isEmpty = false := by
        simpa [List.isEmpty_eq_false_iff] using hoff
      rw [if_pos hoff, hne, if_neg Bool.false_ne_true, checkedAdd_reject hlen,
        rejectIf_congr (show info.length < off + 9 ↔ (info.drop off).length < 9 by
          rw [List.length_drop]; omega)]
      refine returns_bind_eq fun _ hhdr => ?_
      rw [rejectIf_eq_ok, List.length_drop] at hhdr
      rw [addWord_of_lt (by omega), addWord_of_lt (by omega)]
      simp only [Option.bind_eq_bind, Option.bind_some]
      rw [slice_of_le (by omega) (by omega), slice_of_le (by omega) (by omega)]
      have hlt : off + 8 < info.length := by omega
      have hflag : ((info.drop off).drop 8).headD 0 = info[off + 8] := by
        rw [List.drop_drop, List.headD_eq_head?_getD, List.head?_drop, List.getElem?_eq_getElem hlt]
        rfl
      rw [hflag, List.getElem?_eq_getElem hlt]
      simp only [arith_some, returns_ok_bind, List.drop_drop, show off + 4 - off = 4 by omega,
        show off + 8 - (off + 4) = 4 by omega]
      by_cases hstate : info[off + 8] = 1
      · rw [if_pos hstate, if_pos hstate, checkedAdd_reject hlen,
          rejectIf_congr (show info.length < off + 9 + 2 ↔ (info.drop (off + 9)).length < 2 by
            rw [List.length_drop]; omega)]
        refine returns_bind_eq fun _ hkey => ?_
        rw [rejectIf_eq_ok, List.length_drop] at hkey
        rw [slice_of_le (by omega) (by omega)]
        simp only [arith_some, returns_ok_bind, show off + 9 + 2 - (off + 9) = 2 by omega]
        generalize leValue ((info.drop (off + 9)).take 2) = pkLen
        rw [checkedAdd_checkedAdd_reject hlen,
          rejectIf_congr (show info.length < off + 9 + 2 + pkLen + 64 ↔
            (info.drop (off + 9 + 2)).length < pkLen + 64 by rw [List.length_drop]; omega)]
        refine returns_bind_eq fun _ hhashes => ?_
        rw [rejectIf_eq_ok, List.length_drop] at hhashes
        rw [slice_of_le (by omega) (by omega), addWord_of_lt (by omega)]
        simp only [arith_some, returns_ok_bind, Option.bind_some,
          show off + 9 + 2 + pkLen - (off + 9 + 2) = pkLen by omega]
        refine returns_bind_eq fun publicKey _ => ?_
        rw [arith_copy_eq .malformedMessage rfl (by omega)]
        refine returns_bind_eq fun h1 _ => ?_
        rw [arith_copy_eq .malformedMessage (by omega) (by omega)]
        refine returns_bind_eq fun h2 _ => ?_
        rw [ih]
        exact returns_bind_eq fun _ _ => rfl
      · rw [if_neg hstate, if_neg hstate]
        exact ih _
    · have hnil : info.drop off = [] := List.drop_eq_nil_of_le (by omega)
      rw [if_neg hoff, hnil]
      rfl

/-! ## The receivers -/

/-- The committer's leaf is looked up where the source needs it. -/
theorem rejectIf_committerNode {s : CocoaSession P} {view : PartialTreeView P} {position : Nat}
    {committer : Option (TreeNode P)} (h : committerNode s view position = some committer)
    (e : CryptoError) :
    rejectIf (position ≥ s.memberCount ∨ committer.any (·.state.isBlank)) e =
      rejectIf (position ≥ s.memberCount ∨
        (view.get (.leaf view.treeDepth position)).any (·.state.isBlank)) e := by
  unfold committerNode at h
  split at h
  · next hge => exact rejectIf_congr (iff_of_true (.inl hge) (.inl hge))
  · rw [get_eq_some h]

theorem rejectIf_newcomer {s : CocoaSession P} {view : PartialTreeView P} {userId : UserId}
    {i : NodeIndex} {newcomer : Option (TreeNode P)}
    (h : (if s.isMember userId then pure none else get view i) = some newcomer) (e : CryptoError) :
    rejectIf (s.isMember userId ∨ newcomer.any (·.state.isPopulated)) e =
      rejectIf (s.isMember userId ∨ (view.get i).any (·.state.isPopulated)) e := by
  split at h
  · next hmember => exact rejectIf_congr (iff_of_true (.inl hmember) (.inl hmember))
  · rw [get_eq_some h]

theorem checkUpdate_refines (s : CocoaSession P) (c : UpdateCommit P)
    (signer : P.IdentityPublicKey) :
    (checkUpdate s c signer).Refines (Cocoa.checkUpdate s c signer) := by
  unfold checkUpdate Cocoa.checkUpdate
  refine refines_returns.bind fun _ _ => ?_
  refine refines_returns.bind fun _ _ => ?_
  refine refines_returns.bind fun _ _ => ?_
  refine .arith fun next hnext => ?_
  rw [(addWord_eq_some.mp hnext).2]
  refine refines_returns.bind fun _ _ => ?_
  refine refines_returns.bind fun _ _ => ?_
  refine .arith fun committer hcommitter => ?_
  rw [rejectIf_committerNode hcommitter]
  refine refines_returns.bind fun _ _ => ?_
  refine refines_returns.bind fun nodeUpdates _ => ?_
  refine refines_returns.bind fun delta _ => ?_
  refine refines_returns.bind fun _ _ => ?_
  refine refines_returns.bind fun _ _ => ?_
  exact (verifyLevels_refines _ _ _ _ _).bind fun _ _ => refines_pure _

theorem checkAdd_refines (s : CocoaSession P) (c : AddCommit P) (signer : P.IdentityPublicKey) :
    (checkAdd s c signer).Refines (Cocoa.checkAdd s c signer) := by
  unfold checkAdd Cocoa.checkAdd
  refine .checkedAdd ?_
  refine refines_returns.bind fun _ _ => ?_
  refine refines_returns.bind fun _ _ => ?_
  refine .arith fun next hnext => ?_
  rw [(addWord_eq_some.mp hnext).2]
  refine refines_returns.bind fun _ _ => ?_
  refine refines_returns.bind fun _ _ => ?_
  refine .arith fun scratch hscratch => ?_
  rw [growIfNeeded_eq_some hscratch]
  refine .arith fun committer hcommitter => ?_
  rw [rejectIf_committerNode hcommitter]
  refine refines_returns.bind fun _ _ => ?_
  refine .arith fun newcomer hnewcomer => ?_
  rw [rejectIf_newcomer hnewcomer]
  refine refines_returns.bind fun _ _ => ?_
  refine refines_returns.bind fun nodeUpdates _ => ?_
  refine refines_returns.bind fun delta _ => ?_
  refine refines_returns.bind fun _ _ => ?_
  refine refines_returns.bind fun _ _ => ?_
  exact (verifyLevels_refines _ _ _ _ _).bind fun _ _ => refines_pure _

theorem checkRemove_refines (s : CocoaSession P) (c : RemoveCommit P)
    (signer : P.IdentityPublicKey) :
    (checkRemove s c signer).Refines (Cocoa.checkRemove s c signer) := by
  unfold checkRemove Cocoa.checkRemove
  refine refines_returns.bind fun _ _ => ?_
  refine refines_returns.bind fun _ _ => ?_
  refine refines_returns.bind fun _ _ => ?_
  refine .arith fun next hnext => ?_
  rw [(addWord_eq_some.mp hnext).2]
  refine refines_returns.bind fun _ _ => ?_
  refine refines_returns.bind fun _ _ => ?_
  refine .arith fun committer hcommitter => ?_
  rw [rejectIf_committerNode hcommitter]
  refine refines_returns.bind fun _ _ => ?_
  refine refines_returns.bind fun nodeUpdates _ => ?_
  refine refines_returns.bind fun delta _ => ?_
  refine refines_returns.bind fun _ _ => ?_
  refine refines_returns.bind fun _ _ => ?_
  refine .arith fun scratch hscratch => ?_
  rw [modifyState_eq_some hscratch]
  exact (verifyLevels_refines _ _ _ _ _).bind fun _ _ => refines_pure _

/-- What a receiver returns over unbounded numbers: the error of its checks, or
the session that its mutations leave. -/
def outcome (signer : P.IdentityPublicKey) (s : CocoaSession P) :
    Commit P → Result (CocoaSession P)
  | .add c => do
    let checked ← Cocoa.checkAdd s c signer
    pure (applyAdd s c checked.1 checked.2)
  | .update c => do
    let checked ← Cocoa.checkUpdate s c signer
    pure (applyUpdate s c signer checked.1 checked.2)
  | .remove c => do
    let checked ← Cocoa.checkRemove s c signer
    pure (applyRemove s c checked.1 checked.2)

theorem process_refines_outcome (signer : P.IdentityPublicKey) (s : CocoaSession P)
    (c : Commit P) : (process signer s c).Refines (outcome signer s c) := by
  cases c with
  | add c =>
    refine (checkAdd_refines s c signer).bind fun checked _ => ?_
    refine .arith fun grown hgrown => ?_
    refine .arith fun written hwritten => ?_
    refine .arith fun marked hmarked => ?_
    refine .arith fun advanced hadvanced => ?_
    rw [advanceEpoch_eq_some hadvanced, markMemberAsUnmerged_eq_some hmarked,
      updateTreeFromPathUpdates_eq_some hwritten, growIfNeeded_eq_some hgrown]
    exact refines_pure _
  | update c =>
    refine (checkUpdate_refines s c signer).bind fun checked _ => ?_
    refine .arith fun written hwritten => ?_
    refine .arith fun cleared hcleared => ?_
    apply refines_arith
    intro advanced hadvanced
    rw [advanceEpoch_eq_some hadvanced, clearUnmergedOnPath_eq_some hcleared,
      updateTreeFromPathUpdates_eq_some hwritten]
    rfl
  | remove c =>
    refine (checkRemove_refines s c signer).bind fun checked _ => ?_
    refine .arith fun blanked hblanked => ?_
    refine .arith fun written hwritten => ?_
    refine .arith fun advanced hadvanced => ?_
    rw [advanceEpoch_eq_some hadvanced, updateTreeFromPathUpdates_eq_some hwritten,
      modifyState_eq_some hblanked]
    exact refines_pure _

theorem process_eq_outcome (signer : P.IdentityPublicKey) (s : CocoaSession P) (c : Commit P) :
    c.process signer s = validated s (outcome signer s c) := by
  cases c with
  | add c =>
    exact EStateM.lift_bind_set (Cocoa.checkAdd s c signer) (fun r => applyAdd s c r.1 r.2) s
  | update c =>
    exact EStateM.lift_bind_set (Cocoa.checkUpdate s c signer)
      (fun r => applyUpdate s c signer r.1 r.2) s
  | remove c =>
    exact EStateM.lift_bind_set (Cocoa.checkRemove s c signer) (fun r => applyRemove s c r.1 r.2) s

/-- A receiver that does not panic returns what it returns over unbounded
numbers, and leaves the session that it leaves there. -/
theorem process_refines {signer : P.IdentityPublicKey} {s : CocoaSession P} {c : Commit P}
    {r : Result (CocoaSession P)} (h : (process signer s c).run = some r) :
    c.process signer s = validated s r := by
  rw [process_refines_outcome signer s c r h]
  exact process_eq_outcome signer s c

theorem verifyWelcomeTreeInfo_refines (nodes : List (NodeUpdate P)) (treeDepth : Nat) :
    (verifyWelcomeTreeInfo nodes treeDepth).Refines
      (Cocoa.verifyWelcomeTreeInfo nodes treeDepth) := by
  unfold verifyWelcomeTreeInfo Cocoa.verifyWelcomeTreeInfo
  refine .arith fun _ _ => ?_
  apply refines_forM
  intro node
  split
  · exact refines_returns
  · cases node.nodeIndex.sibling with
    | none => exact refines_pure _
    | some sibling =>
      refine .arith fun linear hlinear => ?_
      rw [toLinear_eq] at hlinear
      split at hlinear
      · cases hlinear
        simp only
        generalize Option.map _ _ = siblingKey
        cases siblingKey with
        | none => exact refines_pure _
        | some pk => exact refines_returns
      · cases hlinear

theorem advanceTimes_eq_some {transcript : Bytes32} {n : Nat} {s s' : CocoaSession P}
    (h : advanceTimes transcript n s = some s') :
    s' = (fun s => s.advanceEpoch zero32 transcript)^[n] s := by
  induction n generalizing s with
  | zero => exact (Option.some.inj h).symm
  | succ n ih =>
    rw [advanceTimes, Option.bind_eq_bind, Option.bind_eq_some_iff] at h
    rcases h with ⟨t, ht, h⟩
    rw [Function.iterate_succ_apply, ← advanceEpoch_eq_some ht]
    exact ih h

/-- A joiner that does not panic returns what it returns over unbounded
numbers. -/
theorem processWelcome_refines (hsize : P.SizedAead) (userId : UserId) (kem : P.KeyPair)
    (w : Welcome P) (committer : P.IdentityPublicKey) :
    (processWelcome userId kem w committer).Refines
      (Cocoa.processWelcome userId kem w committer) := by
  unfold processWelcome Cocoa.processWelcome
  refine refines_returns.bind fun _ hlim => ?_
  refine refines_returns.bind fun _ _ => ?_
  refine refines_returns.bind fun encapsulation _ => ?_
  refine refines_returns.bind fun sharedSecret _ => ?_
  refine refines_returns.bind fun _ hinfo => ?_
  have hinfo' : 24 ≤ w.encryptedInfo.length := Nat.not_lt.mp (rejectIf_eq_ok.mp hinfo)
  rw [Option.bind_eq_bind, arith_copy_eq .malformedMessage (show 24 = 0 + 24 from rfl) hinfo']
  refine refines_returns.bind fun nonce _ => ?_
  rw [slice_of_le hinfo' le_rfl, ← List.length_drop, List.take_length, arith_some, returns_ok_bind]
  refine refines_returns.bind fun plaintext hopen => ?_
  refine refines_returns.bind fun _ hplain => ?_
  have hplain' : 64 ≤ plaintext.length := Nat.not_lt.mp (rejectIf_eq_ok.mp hplain)
  rw [Option.bind_eq_bind,
    arith_copy_eq .malformedMessage (show 32 = 0 + 32 from rfl) (Nat.le_trans (by decide) hplain')]
  refine refines_returns.bind fun epochSecret _ => ?_
  rw [welcomeInfoPlaintextSize,
    arith_copy_eq .malformedMessage (show 64 = 32 + 32 from rfl) hplain']
  refine refines_returns.bind fun transcriptHash _ => ?_
  rw [slice_of_le hplain' le_rfl, ← List.length_drop, List.take_length, arith_some, returns_ok_bind]
  have hadvance : (arith (advanceTimes transcriptHash w.epoch (CocoaSession.joinGroup w.groupId
      userId kem w.leafPosition w.treeDepth w.memberCount epochSecret transcriptHash)) :
        MachineM CryptoError (CocoaSession P)).Refines
      (pure ((fun s : CocoaSession P => s.advanceEpoch zero32 transcriptHash)^[w.epoch]
        (CocoaSession.joinGroup w.groupId userId kem w.leafPosition w.treeDepth w.memberCount
          epochSecret transcriptHash))) := refines_arith fun _ => advanceTimes_eq_some
  simp only
  by_cases hempty : (plaintext.drop 64).isEmpty
  · rw [if_pos hempty, if_pos hempty]
    exact hadvance
  · rw [if_neg hempty, if_neg hempty]
    have hlen : (plaintext.drop 64).length < 2 ^ 64 := by
      have hle := hsize.length_le hopen
      have hmax := (checkSizeLimits_eq_ok.mp hlim).messageLen_le
      simp only [List.length_drop, maxMessageSize] at hle hmax ⊢
      omega
    rw [parseWelcomeTreeInfo, parseWelcomeTreeInfoAux_eq hlen]
    refine refines_returns.bind fun nodes _ => ?_
    exact (verifyWelcomeTreeInfo_refines nodes w.treeDepth).bind fun _ _ => hadvance

end Trelis.Cocoa.Machine
