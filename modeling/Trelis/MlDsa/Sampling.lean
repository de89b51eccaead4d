import Trelis.Lib.Bytes
import Trelis.Lib.Calls
import Trelis.Lib.Panic
import Trelis.MlDsa.Encode
import Trelis.MlDsa.Ntt

/-!
# Sampling in ML-DSA

`mldsa_core/sampling.rs` over the hash functions of `mldsa_core/hash.rs`, which draw
bytes and keep those that fit.  Three of the loops end only when enough bytes did, and
have no result where that never happens (`whileLoop`).

What is drawn is small, whatever the hash function: the coefficients of a secret vector
have a norm of at most `Eta` (`norm_expandS_le`), and the norms of a challenge add up
to at most `TAU` (`weight_sampleInBall_le`).
-/

namespace Trelis.MlDsa

/-! ## Hash functions -/

/-- `HashState`: input is absorbed, and then output is squeezed. -/
structure HashState where
  State : Type
  /-- `default`. -/
  init : State
  absorb : State → Bytes → State
  squeeze : State → (n : Nat) → FixedBytes n × State

/-- `HashSuite`. -/
structure HashSuite where
  G : HashState
  H : HashState

/-- The first output of a state that has absorbed some strings: `squeeze_new`. -/
def HashState.hash (H : HashState) (inputs : List Bytes) (n : Nat) : FixedBytes n :=
  (H.squeeze (inputs.foldl H.absorb H.init) n).1

/-! ## Coefficients -/

/-- `bit_set`. -/
def bitSet (z : Bytes) (i : Nat) : Bool := (z.getD (i >>> 3) 0).toNat.testBit (i % 8)

/-- `coeff_from_three_bytes`. -/
def coeffFromThreeBytes (b : FixedBytes 3) : Option Elem :=
  let b0 := (b.val.getD 0 0).toNat
  let b1 := (b.val.getD 1 0).toNat
  let b2 := (b.val.getD 2 0).toNat
  let b2p := if b2 > 127 then b2 - 128 else b2
  let z := (b2p <<< 16) + (b1 <<< 8) + b0
  if z < q then some (Elem.new z) else none

/-- `Eta`. -/
inductive Eta
  | two
  | four
deriving DecidableEq

/-- The number that an `Eta` stands for. -/
def Eta.bound : Eta → Nat
  | two => 2
  | four => 4

/-- `P::Eta::ETA`. -/
def ParameterSet.etaCase : ParameterSet → Eta
  | mlDsa44 => .two
  | mlDsa65 => .four
  | mlDsa87 => .two

theorem bound_etaCase (p : ParameterSet) : p.etaCase.bound = p.eta := by
  cases p <;> rfl

/-- `coeff_from_half_byte`. -/
def coeffFromHalfByte (b : Nat) : Eta → Option Elem
  | .two =>
    if b < 15 then
      let b := if b < 5 then b else if b < 10 then b - 5 else b - 10
      some (if b ≤ 2 then Elem.new (2 - b) else -Elem.new (b - 2))
    else none
  | .four =>
    if b < 9 then some (if b ≤ 4 then Elem.new (4 - b) else -Elem.new (b - 4)) else none

/-- `coeffs_from_byte`. -/
def coeffsFromByte (z : UInt8) (eta : Eta) : Option Elem × Option Elem :=
  (coeffFromHalfByte (z.toNat % 16) eta, coeffFromHalfByte (z.toNat / 16) eta)

/-- The polynomial whose first coefficients are listed. -/
def ofPrefix (a : List Elem) : Polynomial := fun i => a.getD i.val 0

/-- A coefficient that fits is stored behind those before it. -/
def push (a : List Elem) : Option Elem → List Elem
  | some x => a ++ [x]
  | none => a

/-! ## Sampling -/

section Sampling

variable (H : HashState)

/-- One round of the inner loop of `sample_in_ball`. -/
def drawAtMostRound (i : Nat) (ctx : H.State) : (UInt8 × H.State) ⊕ H.State :=
  let (j, ctx) := H.squeeze ctx 1
  if (j.val.getD 0 0).toNat > i then .inr ctx else .inl (j.val.getD 0 0, ctx)

/-- The inner loop of `sample_in_ball`: draws bytes until one is at most `i`. -/
noncomputable def drawAtMost (i : Nat) (ctx : H.State) : Option (UInt8 × H.State) :=
  whileLoop (drawAtMostRound H i) ctx

/-- One round of the outer loop: the coefficient at `j` moves to `i`, and a sign takes
its place. -/
def place (c : Polynomial) (i j : Fin 256) (negative : Bool) : Polynomial :=
  Function.update (Function.update c i (c j)) j
    (if negative then Elem.new (q - 1) else Elem.new 1)

/-- The outer loop of `sample_in_ball`. -/
noncomputable def sampleInBallRound (tau : Nat) (s : Bytes) (state : Polynomial × H.State)
    (i : Fin 256) : Option (Polynomial × H.State) := do
  let (j, ctx) ← drawAtMost H i.val state.2
  pure (place state.1 i ⟨j.toNat, j.toNat_lt⟩ (bitSet s (i.val + tau - 256)), ctx)

/-- `sample_in_ball`. -/
noncomputable def sampleInBall (rho : Bytes) (tau : Nat) : Option Polynomial := do
  let (s, ctx) := H.squeeze (H.absorb H.init rho) 8
  let (c, _) ← ((List.finRange 256).drop (256 - tau)).foldlM (sampleInBallRound H tau s.val)
    (fun _ => Elem.new 0, ctx)
  pure c

/-- One round of the loop of `rej_ntt_poly`, over what is left to squeeze and the
coefficients so far. -/
def rejNttRound (state : H.State × List Elem) : List Elem ⊕ (H.State × List Elem) :=
  let (ctx, a) := state
  if a.length < 256 then
    let (s, ctx) := H.squeeze ctx 3
    .inr (ctx, push a (coeffFromThreeBytes s))
  else .inl a

/-- The loop of `rej_ntt_poly`. -/
noncomputable def rejNttLoop (ctx : H.State) (a : List Elem) : Option (List Elem) :=
  whileLoop (rejNttRound H) (ctx, a)

/-- `rej_ntt_poly`. -/
noncomputable def rejNttPoly (rho : Bytes) (r s : UInt8) : Option NttPolynomial :=
  (rejNttLoop H (H.absorb (H.absorb (H.absorb H.init rho) [s]) [r]) []).map ofPrefix

/-- One round of the loop of `rej_bounded_poly`, which may end after half a byte. -/
def rejBoundedRound (eta : Eta) (state : H.State × List Elem) :
    List Elem ⊕ (H.State × List Elem) :=
  let (ctx, a) := state
  if a.length < 256 then
    let (z, ctx) := H.squeeze ctx 1
    let (z0, z1) := coeffsFromByte (z.val.getD 0 0) eta
    if (push a z0).length = 256 then .inl (push a z0)
    else .inr (ctx, push (push a z0) z1)
  else .inl a

/-- The loop of `rej_bounded_poly`. -/
noncomputable def rejBoundedLoop (eta : Eta) (ctx : H.State) (a : List Elem) :
    Option (List Elem) :=
  whileLoop (rejBoundedRound H eta) (ctx, a)

/-- `rej_bounded_poly`. -/
noncomputable def rejBoundedPoly (rho : Bytes) (eta : Eta) (r : Nat) : Option Polynomial :=
  (rejBoundedLoop H eta (H.absorb (H.absorb H.init rho) (leBytes 2 r)) []).map ofPrefix

/-- `expand_a`. -/
noncomputable def expandA (k l : Nat) (rho : Bytes) : Option (NttMatrix k l) :=
  arrayFromFn fun r => arrayFromFn fun s =>
    rejNttPoly H rho (UInt8.ofNat r.val) (UInt8.ofNat s.val)

/-- `expand_s`. -/
noncomputable def expandS (n : Nat) (rho : Bytes) (eta : Eta) (base : Nat) : Option (Vector n) :=
  arrayFromFn fun r => rejBoundedPoly H rho eta ((r.val + base) % 2 ^ 16)

/-- `expand_mask`.  No result where the sum of the counter and the row overflows. -/
def expandMask (p : ParameterSet) (rho : Bytes) (mu : Nat) : Option (Vector p.l) :=
  arrayFromFn fun r => do
    let s ← addWord 16 mu r.val
    let v := H.hash [rho, leBytes 2 s] (32 * p.zBits)
    pure (unpack p.gamma1 p.zBits v.val)

end Sampling

/-! ## Norms -/

theorem norm_new_le (n : Nat) : (Elem.new n).infinityNorm ≤ n := by
  have hle := Elem.infinityNorm_le_of_cast (x := Elem.new n) (n := n) (Int.cast_natCast n).symm
  rw [Nat.abs_cast] at hle
  exact_mod_cast hle

/-- The distance of a number to the middle of a range. -/
theorem norm_centre_le {b eta : Nat} (hb : b ≤ 2 * eta) :
    (if b ≤ eta then Elem.new (eta - b) else -Elem.new (b - eta)).infinityNorm ≤ eta := by
  split
  · exact (norm_new_le _).trans (Nat.sub_le _ _)
  · rw [Elem.infinityNorm_neg]
    exact (norm_new_le _).trans (by omega)

theorem norm_coeffFromHalfByte_le {b : Nat} {eta : Eta} {x : Elem}
    (hx : coeffFromHalfByte b eta = some x) : x.infinityNorm ≤ eta.bound := by
  cases eta with
  | two =>
    change (if b < 15 then _ else _) = _ at hx
    split at hx
    · rw [← Option.some.inj hx]
      apply norm_centre_le
      split_ifs <;> omega
    · cases hx
  | four =>
    change (if b < 9 then _ else _) = _ at hx
    split at hx
    · rw [← Option.some.inj hx]
      apply norm_centre_le
      omega
    · cases hx

/-- What is pushed fits when it was drawn from half a byte. -/
theorem norm_push_le {eta : Eta} {a : List Elem} {b : Nat}
    (ha : ∀ x ∈ a, x.infinityNorm ≤ eta.bound) :
    ∀ x ∈ push a (coeffFromHalfByte b eta), x.infinityNorm ≤ eta.bound := by
  cases hcoeff : coeffFromHalfByte b eta with
  | none => exact ha
  | some y =>
    intro x hx
    rcases List.mem_append.mp hx with hx | hx
    · exact ha x hx
    · rw [List.mem_singleton.mp hx]
      exact norm_coeffFromHalfByte_le hcoeff

section Norms

variable {H : HashState}

theorem norm_rejBoundedLoop_le (eta : Eta) (ctx : H.State) (a b : List Elem)
    (hloop : rejBoundedLoop H eta ctx a = some b) (ha : ∀ x ∈ a, x.infinityNorm ≤ eta.bound) :
    ∀ x ∈ b, x.infinityNorm ≤ eta.bound := by
  refine whileLoop_rule (fun state => ∀ x ∈ state.2, x.infinityNorm ≤ eta.bound)
    (fun b => ∀ x ∈ b, x.infinityNorm ≤ eta.bound) ?_ ?_ ha hloop
  · intro state next hstate hround
    change (if state.2.length < 256 then if _ then Sum.inl _ else Sum.inr _ else Sum.inl _) = _
      at hround
    split_ifs at hround
    rw [← Sum.inr.inj hround]
    exact norm_push_le (norm_push_le hstate)
  · intro state b hstate hround
    change (if state.2.length < 256 then if _ then Sum.inl _ else Sum.inr _ else Sum.inl _) = _
      at hround
    split_ifs at hround
    · rw [← Sum.inl.inj hround]
      exact norm_push_le hstate
    · rw [← Sum.inl.inj hround]
      exact hstate

theorem norm_ofPrefix_le {a : List Elem} {bound : Nat} (ha : ∀ x ∈ a, x.infinityNorm ≤ bound)
    (i : Fin 256) : (ofPrefix a i).infinityNorm ≤ bound := by
  unfold ofPrefix
  by_cases hlt : i.val < a.length
  · rw [List.getD_eq_getElem _ _ hlt]
    exact ha _ (List.getElem_mem hlt)
  · rw [List.getD_eq_default _ _ (Nat.not_lt.mp hlt), Elem.infinityNorm_zero]
    exact Nat.zero_le _

/-- The coefficients of a secret vector are bounded by `Eta`. -/
theorem norm_expandS_le {n base : Nat} {rho : Bytes} {eta : Eta} {v : Vector n}
    (hv : expandS H n rho eta base = some v) (r : Fin n) (i : Fin 256) :
    (v r i).infinityNorm ≤ eta.bound := by
  obtain ⟨a, hloop, hrow⟩ := Option.map_eq_some_iff.mp (arrayFromFn_eq_some.mp hv r)
  rw [← hrow]
  apply norm_ofPrefix_le
  apply norm_rejBoundedLoop_le eta _ [] a hloop
  simp

/-! ## Challenges -/

/-- Replacing a coefficient exchanges one norm for another. -/
theorem weight_update (c : Polynomial) (i : Fin 256) (x : Elem) :
    weight (Function.update c i x) + (c i).infinityNorm = weight c + x.infinityNorm := by
  have hcomp : (fun r => (Function.update c i x r).infinityNorm) =
      Function.update (fun r => (c r).infinityNorm) i x.infinityNorm := by
    funext r
    exact Function.apply_update (fun _ => Elem.infinityNorm) c i x r
  rw [weight, weight, hcomp, Finset.sum_update_of_mem (Finset.mem_univ i),
    ← Finset.add_sum_erase _ _ (Finset.mem_univ i), Finset.sdiff_singleton_eq_erase]
  omega

theorem norm_sign (negative : Bool) :
    (if negative then Elem.new (q - 1) else Elem.new 1).infinityNorm = 1 := by
  cases negative <;> decide +kernel

theorem weight_place_le (c : Polynomial) (i j : Fin 256) (negative : Bool) :
    weight (place c i j negative) ≤ weight c + 1 := by
  have hkept : Function.update c i (c j) j = c j := by
    by_cases hij : j = i
    · rw [hij, Function.update_self]
    · rw [Function.update_of_ne hij]
  have hmove := weight_update c i (c j)
  have hsign := weight_update (Function.update c i (c j)) j
    (if negative then Elem.new (q - 1) else Elem.new 1)
  rw [hkept, norm_sign] at hsign
  unfold place
  omega

theorem weight_rounds_le {tau : Nat} {s : Bytes} (is : List (Fin 256)) :
    ∀ {state state' : Polynomial × H.State},
      is.foldlM (sampleInBallRound H tau s) state = some state' →
      weight state'.1 ≤ weight state.1 + is.length := by
  induction is with
  | nil =>
    intro state state' hfold
    rw [Option.some.inj hfold]
    exact Nat.le_add_right _ _
  | cons i is ih =>
    intro state state' hfold
    rw [List.foldlM_cons] at hfold
    obtain ⟨next, hround, hrest⟩ := Option.bind_eq_some_iff.mp hfold
    obtain ⟨drawn, hdraw, hnext⟩ := Option.bind_eq_some_iff.mp hround
    have hplace := weight_place_le state.1 i ⟨drawn.1.toNat, drawn.1.toNat_lt⟩
      (bitSet s (i.val + tau - 256))
    have hlen := ih hrest
    rw [← Option.some.inj hnext] at hlen
    rw [List.length_cons]
    exact hlen.trans ((Nat.add_le_add_right hplace _).trans (by omega))

theorem weight_zero : weight (fun _ => Elem.new 0) = 0 :=
  Finset.sum_eq_zero fun _ _ => Elem.infinityNorm_zero

/-- The norms of the coefficients of a challenge add up to at most `TAU`. -/
theorem weight_sampleInBall_le {rho : Bytes} {tau : Nat} {c : Polynomial} (htau : tau ≤ 256)
    (hc : sampleInBall H rho tau = some c) : weight c ≤ tau := by
  obtain ⟨last, hfold, hlast⟩ := Option.bind_eq_some_iff.mp hc
  have hle := weight_rounds_le _ hfold
  rw [weight_zero, List.length_drop, List.length_finRange] at hle
  rw [← Option.some.inj hlast]
  exact hle.trans (by omega)

end Norms

/-! ## Termination -/

section Termination

variable {H : HashState}

/-- A sampler ends when every draw fits. -/
theorem exists_rejNttPoly (hfit : ∀ ctx, ∃ x, coeffFromThreeBytes (H.squeeze ctx 3).1 = some x)
    (rho : Bytes) (r s : UInt8) : ∃ a, rejNttPoly H rho r s = some a := by
  have hloop : ∀ n ctx a, a.length + n = 256 → ∃ b, rejNttLoop H ctx a = some b := by
    intro n
    induction n with
    | zero =>
      intro ctx a ha
      refine ⟨a, ?_⟩
      exact whileLoop_of_inl (if_neg (by omega))
    | succ n ih =>
      intro ctx a ha
      obtain ⟨x, hx⟩ := hfit ctx
      have hround : rejNttRound H (ctx, a) = .inr ((H.squeeze ctx 3).2, a ++ [x]) := by
        change (if a.length < 256 then
          Sum.inr (_, push a (coeffFromThreeBytes (H.squeeze ctx 3).1)) else _) = _
        rw [if_pos (by omega), hx]
        rfl
      rw [rejNttLoop, whileLoop_of_inr hround]
      apply ih
      show (a ++ [x]).length + n = 256
      rw [List.length_append, List.length_singleton]
      omega
  obtain ⟨b, hb⟩ := hloop 256 _ [] rfl
  exact ⟨ofPrefix b, congrArg (Option.map ofPrefix) hb⟩

/-- A polynomial of equal draws. -/
theorem rejBoundedPoly_eq {eta : Eta} {x : Elem}
    (hfit : ∀ ctx, coeffsFromByte ((H.squeeze ctx 1).1.val.getD 0 0) eta = (some x, some x))
    (rho : Bytes) (r : Nat) : rejBoundedPoly H rho eta r = some fun _ => x := by
  have hloop : ∀ n ctx, n ≤ 128 →
      rejBoundedLoop H eta ctx (List.replicate (256 - 2 * n) x) = some (List.replicate 256 x) := by
    intro n
    induction n with
    | zero =>
      intro ctx _
      have hround : rejBoundedRound H eta (ctx, List.replicate 256 x) =
          .inl (List.replicate 256 x) := by
        simp only [rejBoundedRound]
        rw [if_neg (by rw [List.length_replicate]; omega)]
      exact whileLoop_of_inl hround
    | succ n ih =>
      intro ctx hn
      have hround : rejBoundedRound H eta (ctx, List.replicate (256 - 2 * (n + 1)) x) =
          .inr ((H.squeeze ctx 1).2, List.replicate (256 - 2 * n) x) := by
        simp only [rejBoundedRound, hfit, push]
        rw [if_pos (by rw [List.length_replicate]; omega), if_neg (by
            rw [List.length_append, List.length_replicate, List.length_singleton]; omega),
          ← List.replicate_succ', ← List.replicate_succ',
          show 256 - 2 * (n + 1) + 1 + 1 = 256 - 2 * n by omega]
      rw [rejBoundedLoop, whileLoop_of_inr hround]
      exact ih _ (by omega)
  have hpoly : ofPrefix (List.replicate 256 x) = fun _ => x := by
    funext i
    rw [ofPrefix, List.getD_eq_getElem _ _ (by rw [List.length_replicate]; exact i.isLt),
      List.getElem_replicate]
  rw [rejBoundedPoly]
  exact (congrArg (Option.map ofPrefix) (hloop 128 _ (Nat.le_refl _))).trans (congrArg some hpoly)

theorem exists_sampleInBall {tau : Nat}
    (hfit : ∀ ctx, ((H.squeeze ctx 1).1.val.getD 0 0).toNat ≤ 256 - tau) (rho : Bytes) :
    ∃ c, sampleInBall H rho tau = some c := by
  have hdraw : ∀ i ctx, 256 - tau ≤ i → ∃ drawn, drawAtMost H i ctx = some drawn := by
    intro i ctx hi
    exact ⟨_, whileLoop_of_inl (if_neg (Nat.not_lt.mpr ((hfit ctx).trans hi)))⟩
  have hrounds : ∀ (is : List (Fin 256)) (state : Polynomial × H.State) (s : Bytes),
      (∀ i ∈ is, 256 - tau ≤ i.val) →
      ∃ state', is.foldlM (sampleInBallRound H tau s) state = some state' := by
    intro is
    induction is with
    | nil =>
      intro state _ _
      exact ⟨state, rfl⟩
    | cons i is ih =>
      intro state s his
      obtain ⟨drawn, hdrawn⟩ := hdraw i.val state.2 (his i List.mem_cons_self)
      rw [List.foldlM_cons, sampleInBallRound, hdrawn]
      exact ih _ s fun j hj => his j (List.mem_cons_of_mem i hj)
  have hmem : ∀ i ∈ (List.finRange 256).drop (256 - tau), 256 - tau ≤ i.val := by
    intro i hi
    obtain ⟨n, hn, rfl⟩ := List.mem_iff_getElem.mp hi
    rw [List.getElem_drop, List.getElem_finRange]
    exact Nat.le_add_right _ n
  obtain ⟨state, hstate⟩ := hrounds _ (fun _ => Elem.new 0, _) _ hmem
  exact ⟨state.1, Option.bind_eq_some_iff.mpr ⟨state, hstate, rfl⟩⟩

end Termination

/-- The packed mask of zeros, in twenty bits for each coefficient. -/
def zeroMask : Bytes := (List.range 128).flatMap fun _ => [0, 0, 8, 0, 128]

/-- A hash suite whose output is always the same: every sampler ends, and the secret
vectors and the masks of `MlDsa65` are zero. -/
def constantSuite : HashSuite where
  G := ⟨Unit, (), fun _ _ => (), fun _ n => (FixedBytes.zero n, ())⟩
  H := ⟨Unit, (), fun _ _ => (), fun _ n =>
    (if h : n = 640 then ⟨zeroMask, h ▸ length_flatMap_range fun _ _ => rfl⟩
      else ⟨List.replicate n 0x44, List.length_replicate⟩, ())⟩

theorem rejNttPoly_constantSuite (rho : Bytes) (r s : UInt8) :
    ∃ a, rejNttPoly constantSuite.G rho r s = some a :=
  exists_rejNttPoly (fun ctx => ⟨Elem.new 0, by cases ctx; decide +kernel⟩) rho r s

theorem rejBoundedPoly_constantSuite (rho : Bytes) (r : Nat) :
    rejBoundedPoly constantSuite.H rho .four r = some 0 :=
  rejBoundedPoly_eq (fun ctx => by cases ctx; decide +kernel) rho r

theorem sampleInBall_constantSuite (rho : Bytes) :
    ∃ c, sampleInBall constantSuite.H rho ParameterSet.mlDsa65.tau = some c :=
  exists_sampleInBall (fun ctx => by cases ctx; decide +kernel) rho

end Trelis.MlDsa
