import Trelis.Lib.TopElements
import Trelis.MultiDevice.SignedStatements

/-!
# The store of retained keys

`ThreadKeyStore` (`settings.rs`): the message keys of a thread that are retained for
new devices, in the order of their sequence numbers, and at most
`MAX_RETAINED_KEYS` of them.

`run_kept` is the invariant of every run.  A store that only merges shares keeps the
highest sequence numbers of everything that it was given (`built_spec`); since that is
a function of the union of the shares, neither their order nor a repetition matters.
-/

namespace Trelis.MultiDevice

@[irreducible] def maxRetainedKeys : Nat := 100000

/-- The key of the order. -/
def sequenceOf (key : RetainedKey) : Nat := key.sequence.toNat

/-- `ThreadKeyStore`. -/
structure ThreadKeyStore where
  threadId : Bytes32
  keys : List RetainedKey

namespace ThreadKeyStore

/-- `ThreadKeyStore::new`. -/
def new (threadId : Bytes32) : ThreadKeyStore := ⟨threadId, []⟩

variable (s : ThreadKeyStore)

/-- `enforce_cap`. -/
def enforceCap : ThreadKeyStore :=
  if s.keys.length > maxRetainedKeys then
    { s with keys := s.keys.drop (s.keys.length - maxRetainedKeys) }
  else s

/-- `retain_key`. -/
def retainKey (key : RetainedKey) : ThreadKeyStore :=
  enforceCap { s with keys := insertByKey sequenceOf s.keys key }

/-- `get_key_by_sequence`. -/
def getKeyBySequence (sequence : UInt64) : Option RetainedKey :=
  match binarySearchByKey sequenceOf sequence.toNat s.keys with
  | .ok idx => s.keys[idx]?
  | .error _ => none

/-- `clear`. -/
def clear : ThreadKeyStore := { s with keys := [] }

/-- `prune_before`. -/
def pruneBefore (timestamp : UInt64) : ThreadKeyStore :=
  { s with keys := s.keys.filter fun k => k.timestamp ≥ timestamp }

/-- One turn of the loop of `merge`. -/
def absorb (keys : List RetainedKey) (key : RetainedKey) : List RetainedKey :=
  if keys.any (fun k => k.messageId = key.messageId) then keys
  else insertByKey sequenceOf keys key

/-- `merge`. -/
def merge (otherKeys : List RetainedKey) : ThreadKeyStore :=
  enforceCap { s with keys := otherKeys.foldl absorb s.keys }

variable {s}

/-! ## The cap -/

theorem enforceCap_eq :
    s.enforceCap = { s with keys := s.keys.drop (s.keys.length - maxRetainedKeys) } := by
  unfold enforceCap
  by_cases h : s.keys.length > maxRetainedKeys
  · rw [if_pos h]
  · rw [if_neg h, Nat.sub_eq_zero_of_le (by omega), List.drop_zero]

/-- Sorted, and not over the cap. -/
structure Kept (s : ThreadKeyStore) : Prop where
  sorted : SortedBy sequenceOf s.keys
  length_le : s.keys.length ≤ maxRetainedKeys

theorem enforceCap_kept (h : SortedBy sequenceOf s.keys) : s.enforceCap.Kept := by
  rw [enforceCap_eq]
  constructor
  · exact List.Pairwise.sublist (List.drop_sublist _ _) h
  · rw [List.length_drop]
    omega

/-- What the cap evicts is in front of what it keeps. -/
theorem enforceCap_evicts (h : SortedBy sequenceOf s.keys) :
    ∃ evicted, evicted ++ s.enforceCap.keys = s.keys ∧
      ∀ e ∈ evicted, ∀ k ∈ s.enforceCap.keys, e.sequence ≤ k.sequence := by
  rw [enforceCap_eq]
  refine ⟨_, List.take_append_drop (s.keys.length - maxRetainedKeys) s.keys, ?_⟩
  have hparts := List.pairwise_append.mp (show SortedBy sequenceOf
      (s.keys.take (s.keys.length - maxRetainedKeys) ++
        s.keys.drop (s.keys.length - maxRetainedKeys)) by rwa [List.take_append_drop])
  intro e he k hk
  exact UInt64.le_iff_toNat_le.mpr (hparts.2.2 e he k hk)

/-! ## The loop of `merge` -/

variable {keys others : List RetainedKey}

theorem absorb_sorted (h : SortedBy sequenceOf keys) (key : RetainedKey) :
    SortedBy sequenceOf (absorb keys key) := by
  unfold absorb
  split
  · exact h
  · exact h.insertByKey key

theorem foldl_absorb_sorted (h : SortedBy sequenceOf keys) :
    SortedBy sequenceOf (others.foldl absorb keys) := by
  induction others generalizing keys with
  | nil => exact h
  | cons key others ih => exact ih (absorb_sorted h key)

/-- The loop adds some of the keys, and one for every message id. -/
theorem foldl_absorb_perm (h : SortedBy sequenceOf keys) (others : List RetainedKey) :
    ∃ fresh : List RetainedKey, fresh.Sublist others ∧
      (others.foldl absorb keys).Perm (fresh ++ keys) ∧
      ∀ e ∈ others, ∃ d ∈ fresh ++ keys, d.messageId = e.messageId := by
  induction others generalizing keys with
  | nil => exact ⟨[], List.Sublist.refl [], List.Perm.refl keys, by simp⟩
  | cons key others ih =>
    obtain ⟨fresh, hsub, hperm, hids⟩ := ih (absorb_sorted h key)
    rw [List.foldl_cons]
    by_cases hknown : keys.any (fun k => k.messageId = key.messageId) = true
    · have hskip : absorb keys key = keys := if_pos hknown
      rw [hskip] at hperm hids ⊢
      obtain ⟨d, hd, hsame⟩ := List.any_eq_true.mp hknown
      refine ⟨fresh, hsub.cons key, hperm, ?_⟩
      intro e he
      obtain rfl | he := List.mem_cons.mp he
      · exact ⟨d, List.mem_append_right fresh hd, of_decide_eq_true hsame⟩
      · exact hids e he
    · have hinsert : absorb keys key = insertByKey sequenceOf keys key := if_neg hknown
      have hmore : (fresh ++ absorb keys key).Perm (key :: fresh ++ keys) := by
        rw [hinsert]
        exact ((insertByKey_perm h key).append_left fresh).trans List.perm_middle
      refine ⟨key :: fresh, hsub.cons_cons key, hperm.trans hmore, ?_⟩
      intro e he
      obtain rfl | he := List.mem_cons.mp he
      · exact ⟨e, List.mem_cons_self, rfl⟩
      · obtain ⟨d, hd, hsame⟩ := hids e he
        exact ⟨d, hmore.mem_iff.mp hd, hsame⟩

/-! ## Runs -/

/-- The operations that change a store. -/
inductive Op where
  | retainKey (key : RetainedKey)
  | merge (otherKeys : List RetainedKey)
  | pruneBefore (timestamp : UInt64)
  | clear

def apply (s : ThreadKeyStore) : Op → ThreadKeyStore
  | .retainKey key => s.retainKey key
  | .merge otherKeys => s.merge otherKeys
  | .pruneBefore timestamp => s.pruneBefore timestamp
  | .clear => s.clear

/-- The store after some operations. -/
def run (threadId : Bytes32) (ops : List Op) : ThreadKeyStore := ops.foldl apply (new threadId)

theorem apply_kept (h : s.Kept) (op : Op) : (s.apply op).Kept := by
  cases op with
  | retainKey key => exact enforceCap_kept (h.sorted.insertByKey key)
  | merge otherKeys => exact enforceCap_kept (foldl_absorb_sorted h.sorted)
  | pruneBefore timestamp =>
    refine ⟨List.Pairwise.sublist List.filter_sublist h.sorted, ?_⟩
    exact (List.length_filter_le _ _).trans h.length_le
  | clear => exact ⟨List.Pairwise.nil, Nat.zero_le _⟩

theorem new_kept (threadId : Bytes32) : (new threadId).Kept :=
  ⟨List.Pairwise.nil, Nat.zero_le _⟩

theorem foldl_apply_kept (h : s.Kept) (ops : List Op) : (ops.foldl apply s).Kept := by
  induction ops generalizing s with
  | nil => exact h
  | cons op ops ih => exact ih (apply_kept h op)

theorem run_kept (threadId : Bytes32) (ops : List Op) : (run threadId ops).Kept :=
  foldl_apply_kept (new_kept threadId) ops

theorem retainKey_evicts (h : SortedBy sequenceOf s.keys) (key : RetainedKey) :
    ∃ evicted, (evicted ++ (s.retainKey key).keys).Perm (key :: s.keys) ∧
      ∀ e ∈ evicted, ∀ k ∈ (s.retainKey key).keys, e.sequence ≤ k.sequence := by
  obtain ⟨evicted, hsplit, hlow⟩ := enforceCap_evicts
    (s := { s with keys := insertByKey sequenceOf s.keys key }) (h.insertByKey key)
  refine ⟨evicted, ?_, hlow⟩
  exact hsplit ▸ insertByKey_perm h key

theorem merge_evicts (h : SortedBy sequenceOf s.keys) (otherKeys : List RetainedKey) :
    ∃ fresh evicted, fresh.Sublist otherKeys ∧
      (∀ e ∈ otherKeys, ∃ d ∈ fresh ++ s.keys, d.messageId = e.messageId) ∧
      (evicted ++ (s.merge otherKeys).keys).Perm (fresh ++ s.keys) ∧
      ∀ e ∈ evicted, ∀ k ∈ (s.merge otherKeys).keys, e.sequence ≤ k.sequence := by
  obtain ⟨fresh, hsub, hperm, hids⟩ := foldl_absorb_perm h otherKeys
  obtain ⟨evicted, hsplit, hlow⟩ := enforceCap_evicts
    (s := { s with keys := otherKeys.foldl absorb s.keys }) (foldl_absorb_sorted h)
  refine ⟨fresh, evicted, hsub, hids, ?_, hlow⟩
  exact hsplit ▸ hperm

/-! ## Lookup -/

theorem getKeyBySequence_mem {sequence : UInt64} {key : RetainedKey}
    (h : s.getKeyBySequence sequence = some key) : key ∈ s.keys ∧ key.sequence = sequence := by
  unfold getKeyBySequence at h
  split at h
  · next idx hfound =>
    obtain ⟨hidx, hkey⟩ := key_of_binarySearchByKey hfound
    rw [List.getElem?_eq_getElem hidx, Option.some.injEq] at h
    subst h
    exact ⟨List.getElem_mem hidx, UInt64.toNat_inj.mp hkey⟩
  · cases h

theorem getKeyBySequence_isSome_iff (h : SortedBy sequenceOf s.keys) (sequence : UInt64) :
    (∃ key, s.getKeyBySequence sequence = some key) ↔ ∃ key ∈ s.keys, key.sequence = sequence := by
  constructor
  · intro hex
    rcases hex with ⟨key, hkey⟩
    exact ⟨key, getKeyBySequence_mem hkey⟩
  · intro hex
    rcases hex with ⟨key, hmem, hsequence⟩
    unfold getKeyBySequence
    split
    · next idx hfound =>
      obtain ⟨hidx, _⟩ := key_of_binarySearchByKey hfound
      exact ⟨_, List.getElem?_eq_getElem hidx⟩
    · next idx hmissed =>
      exact absurd (congrArg UInt64.toNat hsequence)
        (((binarySearchByKey_spec h).2 idx hmissed).2 key hmem)

/-! ## Merges alone -/

/-- An id determines its key, and different ids have different sequence numbers. -/
def Consistent (keys : List RetainedKey) : Prop :=
  ∀ a ∈ keys, ∀ b ∈ keys, (a.messageId = b.messageId → a = b) ∧
    (a.messageId ≠ b.messageId → a.sequence ≠ b.sequence)

theorem Consistent.subset (h : Consistent keys) (hsub : others ⊆ keys) : Consistent others :=
  fun a ha b hb => h a (hsub ha) b (hsub hb)

/-- Among consistent keys the loop adds one key to the set. -/
theorem absorb_spec {key : RetainedKey} (hkeys : StrictlySortedBy sequenceOf keys)
    (hall : Consistent (key :: keys)) :
    StrictlySortedBy sequenceOf (absorb keys key) ∧
      (absorb keys key).toFinset = (key :: keys).toFinset := by
  unfold absorb
  by_cases hknown : keys.any (fun k => k.messageId = key.messageId) = true
  · rw [if_pos hknown]
    obtain ⟨d, hd, hsame⟩ := List.any_eq_true.mp hknown
    have hdkey : d = key := (hall d (List.mem_cons_of_mem key hd) key List.mem_cons_self).1
      (of_decide_eq_true hsame)
    refine ⟨hkeys, ?_⟩
    rw [List.toFinset_cons, Finset.insert_eq_of_mem (List.mem_toFinset.mpr (hdkey ▸ hd))]
  · rw [if_neg hknown]
    have hnew : ∀ x ∈ keys, sequenceOf x ≠ sequenceOf key := by
      intro x hx hsame
      refine (hall x (List.mem_cons_of_mem key hx) key List.mem_cons_self).2 ?_
        (UInt64.toNat_inj.mp hsame)
      intro hid
      exact hknown (List.any_eq_true.mpr ⟨x, hx, decide_eq_true hid⟩)
    exact ⟨hkeys.insertByKey hnew, List.toFinset_eq_of_perm _ _
      (insertByKey_perm hkeys.sortedBy key)⟩

theorem foldl_absorb_spec (hkeys : StrictlySortedBy sequenceOf keys)
    (hall : Consistent (keys ++ others)) :
    StrictlySortedBy sequenceOf (others.foldl absorb keys) ∧
      (others.foldl absorb keys).toFinset = keys.toFinset ∪ others.toFinset := by
  induction others generalizing keys with
  | nil => exact ⟨hkeys, by simp⟩
  | cons key others ih =>
    have hfirst : Consistent (key :: keys) := hall.subset fun x hx => by
      obtain hhead | htail := List.mem_cons.mp hx
      · rw [hhead]
        exact List.mem_append_right keys List.mem_cons_self
      · exact List.mem_append_left _ htail
    obtain ⟨hsorted, hset⟩ := absorb_spec hkeys hfirst
    have hmem (x : RetainedKey) : x ∈ absorb keys key ↔ x = key ∨ x ∈ keys := by
      rw [← List.mem_toFinset, hset, List.mem_toFinset, List.mem_cons]
    have hrest : Consistent (absorb keys key ++ others) := hall.subset fun x hx => by
      rw [List.mem_append, hmem] at hx
      rw [List.mem_append, List.mem_cons]
      tauto
    obtain ⟨hfinal, hsets⟩ := ih hsorted hrest
    refine ⟨hfinal, ?_⟩
    rw [List.foldl_cons, hsets, hset]
    ext x
    simp only [Finset.mem_union, List.mem_toFinset, List.mem_cons]
    tauto

/-- The store that merges shares in order. -/
def built (threadId : Bytes32) (shares : List (List RetainedKey)) : ThreadKeyStore :=
  shares.foldl merge (new threadId)

theorem merge_spec {union : List RetainedKey} (hkeys : StrictlySortedBy sequenceOf s.keys)
    (hset : s.keys.toFinset = topElements sequenceOf maxRetainedKeys union.toFinset)
    (hall : Consistent (union ++ others)) :
    StrictlySortedBy sequenceOf (s.merge others).keys ∧
      (s.merge others).keys.toFinset =
        topElements sequenceOf maxRetainedKeys (union ++ others).toFinset := by
  have hsub : s.keys ⊆ union := by
    intro x hx
    exact List.mem_toFinset.mp (topElements_subset (hset ▸ List.mem_toFinset.mpr hx))
  have hused : Consistent (s.keys ++ others) := hall.subset (List.append_subset.mpr
    ⟨fun x hx => List.mem_append_left _ (hsub hx), List.subset_append_right _ _⟩)
  obtain ⟨hsorted, habsorbed⟩ := foldl_absorb_spec hkeys hused
  rw [merge, enforceCap_eq]
  refine ⟨List.Pairwise.sublist (List.drop_sublist _ _) hsorted, ?_⟩
  show (((others.foldl absorb s.keys).drop _).toFinset) = _
  rw [hsorted.toFinset_drop, habsorbed, hset, topElements_union, List.toFinset_append]

/-- What a store that only merges holds. -/
theorem foldl_merge_spec {union : List RetainedKey} {shares : List (List RetainedKey)}
    (hkeys : StrictlySortedBy sequenceOf s.keys)
    (hset : s.keys.toFinset = topElements sequenceOf maxRetainedKeys union.toFinset)
    (hall : Consistent (union ++ shares.flatten)) :
    StrictlySortedBy sequenceOf (shares.foldl merge s).keys ∧
      (shares.foldl merge s).keys.toFinset =
        topElements sequenceOf maxRetainedKeys (union ++ shares.flatten).toFinset := by
  induction shares generalizing s union with
  | nil =>
    rw [List.flatten_nil, List.append_nil]
    exact ⟨hkeys, hset⟩
  | cons share shares ih =>
    rw [List.flatten_cons, ← List.append_assoc] at hall ⊢
    obtain ⟨hkeys', hset'⟩ := merge_spec hkeys hset (hall.subset (List.subset_append_left _ _))
    exact ih hkeys' hset' hall

theorem threadId_merge (otherKeys : List RetainedKey) :
    (s.merge otherKeys).threadId = s.threadId := by
  rw [merge, enforceCap_eq]

theorem threadId_foldl_merge (shares : List (List RetainedKey)) :
    (shares.foldl merge s).threadId = s.threadId := by
  induction shares generalizing s with
  | nil => rfl
  | cons share shares ih => rw [List.foldl_cons, ih, threadId_merge]

theorem built_spec (threadId : Bytes32) {shares : List (List RetainedKey)}
    (hall : Consistent shares.flatten) :
    StrictlySortedBy sequenceOf (built threadId shares).keys ∧
      (built threadId shares).keys.toFinset =
        topElements sequenceOf maxRetainedKeys shares.flatten.toFinset := by
  have hnone : (new threadId).keys.toFinset =
      topElements sequenceOf maxRetainedKeys ([] : List RetainedKey).toFinset := by
    show ∅ = topElements sequenceOf maxRetainedKeys ∅
    rw [topElements, Finset.filter_empty]
  have hempty : StrictlySortedBy sequenceOf (new threadId).keys := List.Pairwise.nil
  have h : Consistent ([] ++ shares.flatten) → _ := foldl_merge_spec hempty hnone
  rw [List.nil_append] at h
  exact h hall

/-- Stores that were given the same keys are equal. -/
theorem built_congr (threadId : Bytes32) {shares shares' : List (List RetainedKey)}
    (hall : Consistent shares.flatten) (h : ∀ key, key ∈ shares.flatten ↔ key ∈ shares'.flatten) :
    built threadId shares = built threadId shares' := by
  obtain ⟨hsorted, hset⟩ := built_spec threadId hall
  obtain ⟨hsorted', hset'⟩ := built_spec threadId (hall.subset fun key hkey => (h key).mpr hkey)
  have hunion : shares.flatten.toFinset = shares'.flatten.toFinset := by
    ext key
    rw [List.mem_toFinset, List.mem_toFinset, h]
  have hkeys := hsorted.eq_of_toFinset hsorted' (by rw [hset, hset', hunion])
  have hid : (built threadId shares).threadId = (built threadId shares').threadId := by
    rw [built, built, threadId_foldl_merge, threadId_foldl_merge]
  cases hb : built threadId shares
  cases hb' : built threadId shares'
  rw [hb, hb'] at hkeys hid
  rw [mk.injEq]
  exact ⟨hid, hkeys⟩

/-! ## The law -/

/-- In every run the store is sorted and under the cap, additions evict from the front
only, and lookup finds what is there.  A store that merges consistent shares keeps the
highest sequence numbers of their union, whatever the order and the repetitions. -/
theorem retention_and_merge :
    (∀ threadId ops, SortedBy sequenceOf (run threadId ops).keys ∧
      (run threadId ops).keys.length ≤ maxRetainedKeys) ∧
    (∀ threadId ops key, ∃ evicted,
      (evicted ++ ((run threadId ops).retainKey key).keys).Perm (key :: (run threadId ops).keys) ∧
        ∀ e ∈ evicted, ∀ k ∈ ((run threadId ops).retainKey key).keys, e.sequence ≤ k.sequence) ∧
    (∀ threadId ops otherKeys, ∃ fresh evicted, fresh.Sublist otherKeys ∧
      (∀ e ∈ otherKeys, ∃ d ∈ fresh ++ (run threadId ops).keys, d.messageId = e.messageId) ∧
      (evicted ++ ((run threadId ops).merge otherKeys).keys).Perm
        (fresh ++ (run threadId ops).keys) ∧
      ∀ e ∈ evicted, ∀ k ∈ ((run threadId ops).merge otherKeys).keys,
        e.sequence ≤ k.sequence) ∧
    (∀ threadId ops sequence,
      ((∃ key, (run threadId ops).getKeyBySequence sequence = some key) ↔
        ∃ key ∈ (run threadId ops).keys, key.sequence = sequence) ∧
      ∀ key, (run threadId ops).getKeyBySequence sequence = some key →
        key ∈ (run threadId ops).keys ∧ key.sequence = sequence) ∧
    ∀ threadId shares, Consistent shares.flatten →
      (∀ shares', shares.Perm shares' → built threadId shares' = built threadId shares) ∧
      (∀ share ∈ shares, (built threadId shares).merge share = built threadId shares) ∧
      ∀ key, key ∈ (built threadId shares).keys ↔ key ∈ shares.flatten ∧
        (higherIn sequenceOf shares.flatten.toFinset key).card < maxRetainedKeys := by
  refine ⟨fun threadId ops => ⟨(run_kept threadId ops).sorted, (run_kept threadId ops).length_le⟩,
    fun threadId ops key => retainKey_evicts (run_kept threadId ops).sorted key,
    fun threadId ops otherKeys => merge_evicts (run_kept threadId ops).sorted otherKeys,
    fun threadId ops sequence =>
      ⟨getKeyBySequence_isSome_iff (run_kept threadId ops).sorted sequence,
        fun key h => getKeyBySequence_mem h⟩, ?_⟩
  intro threadId shares hall
  refine ⟨?_, ?_, ?_⟩
  · intro shares' hperm
    refine (built_congr threadId hall ?_).symm
    intro key
    exact hperm.flatten.mem_iff
  · intro share hshare
    have hagain : (built threadId shares).merge share = built threadId (shares ++ [share]) := by
      rw [built, built, List.foldl_append]
      rfl
    rw [hagain]
    refine (built_congr threadId hall ?_).symm
    intro key
    rw [List.flatten_append, List.mem_append, List.flatten_singleton]
    constructor
    · intro hkey
      exact .inl hkey
    · intro hkey
      rcases hkey with hkey | hkey
      · exact hkey
      · exact List.mem_flatten.mpr ⟨share, hshare, hkey⟩
  · intro key
    rw [← List.mem_toFinset, (built_spec threadId hall).2, mem_topElements, List.mem_toFinset]

end ThreadKeyStore

end Trelis.MultiDevice
