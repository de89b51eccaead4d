import Mathlib.Algebra.Group.Nat.Defs
import Mathlib.Data.List.Basic

/-!
# Byte strings and self-delimiting encodings

Byte strings, byte arrays of a fixed size, and the little-endian words that
wire formats are made of.  Nothing here is about any particular format.

There are three groups.

* Words.  `leBytes w n` is the `w`-byte little-endian form of `n`, and
  `leBytes_inj` says that it determines `n` below `256 ^ w`.
* Fixed-size arrays.  `FixedBytes n` is the type of byte strings of length
  `n`, the `[u8; n]` of Rust.
* Self-delimiting encodings.  `SelfDelimiting D enc` says that an encoded value
  of the domain `D` can be read off the front of any longer byte string.  The
  closure rules below it (`SelfDelimiting.append`, `SelfDelimiting.flatMap_inj`,
  `SelfDelimiting.counted`) build the injectivity of a composite format from
  that of its fields.
-/

namespace Trelis

/-- A byte string. -/
abbrev Bytes := List UInt8

/-- The bytes of a Rust byte-string literal. -/
def ascii (s : String) : Bytes := s.toUTF8.toList

/-! ## Little-endian words -/

/-- The `w`-byte little-endian form of `n`.  Higher bits are dropped. -/
def leBytes : Nat → Nat → Bytes
  | 0, _ => []
  | w + 1, n => UInt8.ofNat n :: leBytes w (n / 256)

/-- The `w`-byte big-endian form of `n`. -/
def beBytes (w n : Nat) : Bytes := (leBytes w n).reverse

/-- The number that a little-endian byte string stands for. -/
def leValue : Bytes → Nat
  | [] => 0
  | b :: bs => b.toNat + 256 * leValue bs

@[simp] theorem leBytes_length (w n : Nat) : (leBytes w n).length = w := by
  induction w generalizing n with
  | zero => rfl
  | succ w ih => simp [leBytes, ih]

@[simp] theorem beBytes_length (w n : Nat) : (beBytes w n).length = w := by
  simp [beBytes]

/-- A word of `w` bytes is below the bound of its width. -/
theorem leValue_lt (b : Bytes) : leValue b < 256 ^ b.length := by
  induction b with
  | nil => exact Nat.one_pos
  | cons x b ih =>
    have hx := x.toNat_lt
    rw [leValue, List.length_cons, Nat.pow_succ]
    omega

/-- Reading a word back, for any number that the width can hold. -/
theorem leValue_leBytes {w n : Nat} (h : n < 256 ^ w) :
    leValue (leBytes w n) = n := by
  induction w generalizing n with
  | zero =>
    have hn : n = 0 := by simpa using h
    rw [hn]; rfl
  | succ w ih =>
    have hdiv : n / 256 < 256 ^ w := by
      rw [Nat.div_lt_iff_lt_mul (by decide)]
      rwa [Nat.pow_succ] at h
    rw [leBytes, leValue, ih hdiv, UInt8.toNat_ofNat']
    omega

/-- The word of a byte string has the bytes that it was read from. -/
theorem leBytes_leValue (b : Bytes) : leBytes b.length (leValue b) = b := by
  induction b with
  | nil => rfl
  | cons x b ih =>
    have hx := x.toNat_lt
    have hlow : UInt8.ofNat (x.toNat + 256 * leValue b) = x := by
      apply UInt8.toNat_inj.mp
      rw [UInt8.toNat_ofNat']
      omega
    have hhigh : (x.toNat + 256 * leValue b) / 256 = leValue b := by omega
    rw [List.length_cons, leValue, leBytes, hlow, hhigh, ih]

/-- A little-endian word determines the number below the bound of its width. -/
theorem leBytes_inj {w m n : Nat} (hm : m < 256 ^ w) (hn : n < 256 ^ w)
    (h : leBytes w m = leBytes w n) : m = n := by
  rw [← leValue_leBytes hm, ← leValue_leBytes hn, h]

/-! ## Arrays of a fixed size -/

/-- The byte strings of length `n`: the `[u8; n]` of Rust. -/
abbrev FixedBytes (n : Nat) := { b : Bytes // b.length = n }

/-- A 32-byte value: a key, a seed, a hash or an identifier. -/
abbrev Bytes32 := FixedBytes 32

namespace FixedBytes

/-- The array whose bytes are all zero. -/
def zero (n : Nat) : FixedBytes n := ⟨List.replicate n 0, by simp⟩

/-- The conversion of a slice into an array, defined exactly on the slices of
the right length. -/
def ofBytes? (n : Nat) (b : Bytes) : Option (FixedBytes n) :=
  if h : b.length = n then some ⟨b, h⟩ else none

@[simp] theorem length_coe {n : Nat} (b : FixedBytes n) : b.val.length = n := b.property

theorem ofBytes?_eq_some {n : Nat} {b : Bytes} {a : FixedBytes n} :
    ofBytes? n b = some a ↔ b = a.val := by
  unfold ofBytes?
  split
  · next h => simp [Subtype.ext_iff]
  · next h =>
    simp only [reduceCtorEq, false_iff]
    rintro rfl
    exact h a.property

@[simp] theorem ofBytes?_coe {n : Nat} (a : FixedBytes n) : ofBytes? n a.val = some a :=
  ofBytes?_eq_some.mpr rfl

end FixedBytes

/-- The all-zero 32-byte value. -/
abbrev zero32 : Bytes32 := FixedBytes.zero 32

/-! ## Self-delimiting encodings -/

/-- The encoding `enc` is self-delimiting on the domain `D`: two encoded values
at the front of the same byte string are the same value, and leave the same
rest. -/
def SelfDelimiting {α : Type} (D : α → Prop) (enc : α → Bytes) : Prop :=
  ∀ a b, D a → D b → ∀ r s, enc a ++ r = enc b ++ s → a = b ∧ r = s

namespace SelfDelimiting

variable {α β γ : Type} {D : α → Prop} {E : β → Prop}

/-- A self-delimiting encoding is injective on its domain. -/
theorem inj {enc : α → Bytes} (h : SelfDelimiting D enc) {a b : α} (ha : D a) (hb : D b)
    (he : enc a = enc b) : a = b :=
  (h a b ha hb [] [] (by rw [he])).1

/-- An injective encoding of constant length is self-delimiting. -/
theorem ofLength {enc : α → Bytes} (n : Nat) (hlen : ∀ a, D a → (enc a).length = n)
    (hinj : ∀ a b, D a → D b → enc a = enc b → a = b) : SelfDelimiting D enc := by
  intro a b ha hb r s h
  have hl : (enc a).length = (enc b).length := by rw [hlen a ha, hlen b hb]
  obtain ⟨he, hr⟩ := List.append_inj h hl
  exact ⟨hinj a b ha hb he, hr⟩

/-- Words of `w` bytes. -/
theorem word (w : Nat) : SelfDelimiting (· < 256 ^ w) (leBytes w) :=
  ofLength w (fun _ _ => leBytes_length w _) fun _ _ ha hb => leBytes_inj ha hb

/-- Arrays of a fixed size. -/
theorem array (n : Nat) : SelfDelimiting (fun _ : FixedBytes n => True) (·.val) :=
  ofLength n (fun a _ => a.property) fun _ _ _ _ h => Subtype.ext h

/-- Two fields in a row, read off one value by the two projections `f` and
`g`. -/
theorem append {enc₁ : β → Bytes} {enc₂ : γ → Bytes} {F : γ → Prop} {f : α → β} {g : α → γ}
    (h₁ : SelfDelimiting E enc₁) (h₂ : SelfDelimiting F enc₂)
    (hD : ∀ a, D a → E (f a) ∧ F (g a)) (hext : ∀ a b, f a = f b → g a = g b → a = b) :
    SelfDelimiting D (fun a => enc₁ (f a) ++ enc₂ (g a)) := by
  intro a b ha hb r s h
  simp only [List.append_assoc] at h
  obtain ⟨hf, hrest⟩ := h₁ _ _ (hD a ha).1 (hD b hb).1 _ _ h
  obtain ⟨hg, hr⟩ := h₂ _ _ (hD a ha).2 (hD b hb).2 _ _ hrest
  exact ⟨hext a b hf hg, hr⟩

/-- A byte string behind its length, in a word of `w` bytes. -/
theorem sized (w : Nat) :
    SelfDelimiting (fun b : Bytes => b.length < 256 ^ w)
      (fun b => leBytes w b.length ++ b) := by
  intro a b ha hb r s h
  simp only [List.append_assoc] at h
  obtain ⟨hlen, hrest⟩ := word w _ _ ha hb _ _ h
  exact List.append_inj hrest hlen

/-- Two lists of the same length, encoded element by element. -/
theorem flatMap_of_length {enc : α → Bytes} (h : SelfDelimiting D enc) :
    ∀ {xs ys : List α}, (∀ x ∈ xs, D x) → (∀ y ∈ ys, D y) → xs.length = ys.length →
      ∀ {r s : Bytes}, xs.flatMap enc ++ r = ys.flatMap enc ++ s → xs = ys ∧ r = s := by
  intro xs
  induction xs with
  | nil =>
    intro ys _ _ hlen r s he
    rw [List.length_nil, eq_comm, List.length_eq_zero_iff] at hlen
    subst hlen
    exact ⟨rfl, by simpa using he⟩
  | cons x xs ih =>
    intro ys hxs hys hlen r s he
    cases ys with
    | nil => simp at hlen
    | cons y ys =>
      simp only [List.flatMap_cons, List.append_assoc] at he
      obtain ⟨hxy, hrest⟩ := h x y (hxs x (by simp)) (hys y (by simp)) _ _ he
      obtain ⟨hl, hr⟩ := ih (fun a ha => hxs a (List.mem_cons_of_mem _ ha))
        (fun b hb => hys b (List.mem_cons_of_mem _ hb)) (by simpa using hlen) hrest
      exact ⟨by rw [hxy, hl], hr⟩

/-- A list behind its number of elements, in a word of `w` bytes. -/
theorem counted {enc : α → Bytes} (h : SelfDelimiting D enc) (w : Nat) :
    SelfDelimiting (fun xs : List α => xs.length < 256 ^ w ∧ ∀ x ∈ xs, D x)
      (fun xs => leBytes w xs.length ++ xs.flatMap enc) := by
  intro xs ys hx hy r s he
  simp only [List.append_assoc] at he
  obtain ⟨hlen, hrest⟩ := word w _ _ hx.1 hy.1 _ _ he
  exact h.flatMap_of_length hx.2 hy.2 hlen hrest

/-- A whole byte string made of encoded elements determines the list of the
elements, provided that no element has the empty encoding. -/
theorem flatMap_inj {enc : α → Bytes} (h : SelfDelimiting D enc)
    (hne : ∀ a, D a → enc a ≠ []) :
    ∀ {xs ys : List α}, (∀ x ∈ xs, D x) → (∀ y ∈ ys, D y) →
      xs.flatMap enc = ys.flatMap enc → xs = ys := by
  intro xs
  induction xs with
  | nil =>
    intro ys _ hys he
    cases ys with
    | nil => rfl
    | cons y ys =>
      simp only [List.flatMap_nil, List.flatMap_cons, List.nil_eq, List.append_eq_nil_iff] at he
      exact absurd he.1 (hne y (hys y (by simp)))
  | cons x xs ih =>
    intro ys hxs hys he
    cases ys with
    | nil =>
      simp only [List.flatMap_nil, List.flatMap_cons, List.append_eq_nil_iff] at he
      exact absurd he.1 (hne x (hxs x (by simp)))
    | cons y ys =>
      simp only [List.flatMap_cons] at he
      obtain ⟨hxy, hrest⟩ := h x y (hxs x (by simp)) (hys y (by simp)) _ _ he
      have hl : xs = ys := ih (fun a ha => hxs a (List.mem_cons_of_mem _ ha))
        (fun b hb => hys b (List.mem_cons_of_mem _ hb)) hrest
      rw [hxy, hl]

end SelfDelimiting

end Trelis
