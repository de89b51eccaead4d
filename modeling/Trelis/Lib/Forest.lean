import Mathlib.Data.Option.Basic
import Mathlib.Tactic.Common

/-!
# Forests

A forest is a set of nodes and a partial function `parent`.  `climb parent k a` is
the node `k` steps above `a`, and `Above parent a b` says that `b` is `a` or an
ancestor of it.

Where every parent is one level less deep (`Graded`), the ancestors of a node are
linearly ordered by their depths (`Graded.above_of_depth_le`).  Two nodes with a
common ancestor then have a lowest one, and the loops `climbTo` and `climbTogether`
find it (`climbTo_climbTogether`): bring both nodes to one depth, and climb in
step until they meet.
-/

namespace Trelis

variable {α : Type*} {parent : α → Option α} {depth : α → Nat} {a b c d : α}

/-! ## Climbing -/

/-- The node that is `k` steps above, where there is one. -/
def climb (parent : α → Option α) : Nat → α → Option α
  | 0, a => some a
  | k + 1, a => (parent a).bind (climb parent k)

theorem climb_succ_eq_some {k : Nat} :
    climb parent (k + 1) a = some c ↔ ∃ p, parent a = some p ∧ climb parent k p = some c :=
  Option.bind_eq_some_iff

theorem climb_add (parent : α → Option α) (j k : Nat) (a : α) :
    climb parent (j + k) a = (climb parent j a).bind (climb parent k) := by
  induction j generalizing a with
  | zero =>
    rw [Nat.zero_add]
    rfl
  | succ j ih =>
    rw [Nat.succ_add]
    show (parent a).bind (climb parent (j + k)) = ((parent a).bind (climb parent j)).bind _
    rw [Option.bind_assoc]
    congr 1
    funext p
    exact ih p

/-- `b` is `a`, or an ancestor of it. -/
def Above (parent : α → Option α) (a b : α) : Prop := ∃ k, climb parent k a = some b

theorem Above.refl (parent : α → Option α) (a : α) : Above parent a a := ⟨0, rfl⟩

theorem Above.trans (hab : Above parent a b) (hbc : Above parent b c) : Above parent a c := by
  obtain ⟨j, hj⟩ := hab
  obtain ⟨k, hk⟩ := hbc
  refine ⟨j + k, ?_⟩
  rw [climb_add, hj]
  exact hk

/-- A common ancestor that every other one is above of. -/
structure LowestCommonAncestor (parent : α → Option α) (a b c : α) : Prop where
  left : Above parent a c
  right : Above parent b c
  lowest : ∀ d, Above parent a d → Above parent b d → Above parent c d

theorem LowestCommonAncestor.self (parent : α → Option α) (a : α) :
    LowestCommonAncestor parent a a a :=
  ⟨.refl parent a, .refl parent a, fun _ h _ => h⟩

/-! ## Depths -/

/-- A parent is one level less deep than its children. -/
def Graded (parent : α → Option α) (depth : α → Nat) : Prop :=
  ∀ a p, parent a = some p → depth a = depth p + 1

namespace Graded

variable (hgraded : Graded parent depth)
include hgraded

theorem depth_climb {k : Nat} (h : climb parent k a = some b) : depth a = depth b + k := by
  induction k generalizing a with
  | zero => rw [Option.some.inj h, Nat.add_zero]
  | succ k ih =>
    obtain ⟨p, hp, hclimb⟩ := climb_succ_eq_some.mp h
    have hstep := hgraded a p hp
    have hrest := ih hclimb
    omega

theorem depth_le_of_above (h : Above parent a b) : depth b ≤ depth a := by
  obtain ⟨k, hk⟩ := h
  have hdepth := hgraded.depth_climb hk
  omega

/-- The steps to an ancestor are the difference of the depths. -/
theorem climb_of_above (h : Above parent a b) : climb parent (depth a - depth b) a = some b := by
  obtain ⟨k, hk⟩ := h
  have hdepth := hgraded.depth_climb hk
  rwa [show depth a - depth b = k by omega]

theorem eq_of_above (h : Above parent a b) (hdepth : depth a ≤ depth b) : a = b := by
  have hclimb := hgraded.climb_of_above h
  rw [Nat.sub_eq_zero_of_le hdepth] at hclimb
  exact Option.some.inj hclimb

/-- Of two ancestors of a node, the less deep one is above the other. -/
theorem above_of_depth_le (hb : Above parent a b) (hc : Above parent a c)
    (hdepth : depth c ≤ depth b) : Above parent b c := by
  have hclimb := hgraded.climb_of_above hc
  have hle := hgraded.depth_le_of_above hb
  have hsplit : depth a - depth c = (depth a - depth b) + (depth b - depth c) := by omega
  rw [hsplit, climb_add, hgraded.climb_of_above hb] at hclimb
  exact ⟨_, hclimb⟩

/-- The lowest common ancestor is the deepest one. -/
theorem depth_le_of_lowest (h : LowestCommonAncestor parent a b c) (ha : Above parent a d)
    (hb : Above parent b d) : depth d ≤ depth c :=
  hgraded.depth_le_of_above (h.lowest d ha hb)

/-- It can be looked for among the ancestors of both that are no deeper. -/
theorem lowest_of_above {a' b' : α} (ha : Above parent a a') (hb : Above parent b b')
    (hdepth : min (depth a) (depth b) ≤ depth a' ∧ min (depth a) (depth b) ≤ depth b')
    (h : LowestCommonAncestor parent a' b' c) : LowestCommonAncestor parent a b c := by
  refine ⟨ha.trans h.left, hb.trans h.right, ?_⟩
  intro d had hbd
  have hle := hgraded.depth_le_of_above had
  have hle' := hgraded.depth_le_of_above hbd
  refine h.lowest d ?_ ?_
  · exact hgraded.above_of_depth_le ha had (by omega)
  · exact hgraded.above_of_depth_le hb hbd (by omega)

end Graded

/-! ## The two loops -/

/-- Climbs while the node is below a depth.  The fuel counts the levels that are
left to climb, and there is no result where a node has no parent. -/
def climbTo (parent : α → Option α) (depth : α → Nat) (target : Nat) : Nat → α → Option α
  | 0, a => some a
  | n + 1, a =>
    if target < depth a then (parent a).bind (climbTo parent depth target n) else some a

/-- Climbs from two nodes in step until they meet. -/
def climbTogether [DecidableEq α] (parent : α → Option α) : Nat → α → α → Option α
  | 0, a, b => if a = b then some a else none
  | n + 1, a, b =>
    if a = b then some a
    else (parent a).bind fun p => (parent b).bind fun q => climbTogether parent n p q

section Loops

variable (hgraded : Graded parent depth)
include hgraded

/-- With fuel for the depth, the first loop ends at the ancestor of that depth. -/
theorem climbTo_eq_climb {target n : Nat} (hn : depth a ≤ n)
    (hclimb : climb parent (depth a - target) a = some b) :
    climbTo parent depth target n a = some b := by
  induction n generalizing a with
  | zero =>
    rw [Nat.le_zero.mp hn, Nat.zero_sub] at hclimb
    exact hclimb
  | succ n ih =>
    unfold climbTo
    by_cases hbelow : target < depth a
    · rw [if_pos hbelow]
      rw [show depth a - target = (depth a - target - 1) + 1 by omega] at hclimb
      obtain ⟨p, hp, hrest⟩ := climb_succ_eq_some.mp hclimb
      have hdepth := hgraded a p hp
      rw [show depth a - target - 1 = depth p - target by omega] at hrest
      rw [hp]
      exact ih (by omega) hrest
    · rw [if_neg hbelow]
      rwa [Nat.sub_eq_zero_of_le (by omega)] at hclimb

/-- Two different nodes of one depth have their common ancestors above their
parents. -/
theorem above_parents (hdepth : depth a = depth b) (hne : a ≠ b) (ha : Above parent a d)
    (hb : Above parent b d) :
    ∃ p q, parent a = some p ∧ parent b = some q ∧ Above parent p d ∧ Above parent q d := by
  obtain ⟨j, hj⟩ := ha
  obtain ⟨k, hk⟩ := hb
  have hja := hgraded.depth_climb hj
  have hkb := hgraded.depth_climb hk
  obtain rfl : j = k := by omega
  cases j with
  | zero => exact absurd ((Option.some.inj hj).trans (Option.some.inj hk).symm) hne
  | succ j =>
    obtain ⟨p, hp, hpd⟩ := climb_succ_eq_some.mp hj
    obtain ⟨q, hq, hqd⟩ := climb_succ_eq_some.mp hk
    exact ⟨p, q, hp, hq, ⟨j, hpd⟩, ⟨j, hqd⟩⟩

/-- Two nodes of one depth that have a common ancestor meet in the lowest one. -/
theorem exists_climbTogether [DecidableEq α] {n : Nat} (ha : depth a = n) (hb : depth b = n)
    (had : Above parent a d) (hbd : Above parent b d) :
    ∃ c, climbTogether parent n a b = some c ∧ LowestCommonAncestor parent a b c := by
  induction n generalizing a b with
  | zero =>
    obtain rfl := hgraded.eq_of_above had (by omega)
    obtain rfl := hgraded.eq_of_above hbd (by omega)
    exact ⟨_, if_pos rfl, .self parent _⟩
  | succ n ih =>
    unfold climbTogether
    by_cases hab : a = b
    · rw [if_pos hab, hab]
      exact ⟨b, rfl, .self parent b⟩
    · rw [if_neg hab]
      obtain ⟨p, q, hp, hq, hpd, hqd⟩ := above_parents hgraded (ha.trans hb.symm) hab had hbd
      have hdp := hgraded a p hp
      have hdq := hgraded b q hq
      obtain ⟨c, hmeet, hlowest⟩ := ih (by omega) (by omega) hpd hqd
      have hap : Above parent a p := ⟨1, by rw [climb, hp]; rfl⟩
      have hbq : Above parent b q := ⟨1, by rw [climb, hq]; rfl⟩
      refine ⟨c, ?_, hap.trans hlowest.left, hbq.trans hlowest.right, ?_⟩
      · rw [hp, hq]
        exact hmeet
      · intro e hae hbe
        obtain ⟨p', q', hp', hq', hpe, hqe⟩ :=
          above_parents hgraded (ha.trans hb.symm) hab hae hbe
        obtain rfl : p = p' := Option.some.inj (hp.symm.trans hp')
        obtain rfl : q = q' := Option.some.inj (hq.symm.trans hq')
        exact hlowest.lowest e hpe hqe

/-- The loops find the lowest common ancestor of two nodes that have a common
one. -/
theorem climbTo_climbTogether [DecidableEq α] (had : Above parent a d) (hbd : Above parent b d) :
    ∃ a' b' c, climbTo parent depth (depth b) (depth a) a = some a' ∧
      climbTo parent depth (depth a') (depth b) b = some b' ∧
      climbTogether parent (depth a') a' b' = some c ∧ LowestCommonAncestor parent a b c := by
  have hda := hgraded.depth_le_of_above had
  have hdb := hgraded.depth_le_of_above hbd
  have hraised : ∀ {x : α} (target : Nat), Above parent x d → depth d ≤ target →
      ∃ x', climb parent (depth x - target) x = some x' ∧ depth x' = min (depth x) target := by
    intro x target hxd hle
    have hclimb := hgraded.climb_of_above hxd
    have hdx := hgraded.depth_le_of_above hxd
    rw [show depth x - depth d = (depth x - target) + (min (depth x) target - depth d) by omega,
      climb_add, Option.bind_eq_some_iff] at hclimb
    obtain ⟨x', hx', _⟩ := hclimb
    have hdepth := hgraded.depth_climb hx'
    exact ⟨x', hx', by omega⟩
  obtain ⟨a', ha', hda'⟩ := hraised (depth b) had hdb
  obtain ⟨b', hb', hdb'⟩ := hraised (depth a') hbd (by omega)
  have haa' : Above parent a a' := ⟨_, ha'⟩
  have hbb' : Above parent b b' := ⟨_, hb'⟩
  have ha'd := hgraded.above_of_depth_le haa' had (by omega)
  have hb'd := hgraded.above_of_depth_le hbb' hbd (by omega)
  have hsame : depth b' = depth a' := by omega
  obtain ⟨c, hmeet, hlowest⟩ := exists_climbTogether hgraded rfl hsame ha'd hb'd
  refine ⟨a', b', c, climbTo_eq_climb hgraded (Nat.le_refl _) ha',
    climbTo_eq_climb hgraded (Nat.le_refl _) hb', hmeet, ?_⟩
  exact hgraded.lowest_of_above haa' hbb' (by omega) hlowest

end Loops

end Trelis
