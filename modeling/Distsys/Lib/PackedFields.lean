import Mathlib.Algebra.BigOperators.Group.Finset.Basic
import Mathlib.Algebra.Order.Ring.Nat
import Mathlib.Data.Nat.Bitwise
import Mathlib.Tactic.Ring

/-!
# Numbers with fields

A word can be read as a sequence of fields of `w` bits, and arithmetic on the word is then
arithmetic on all fields at once, as long as no field overflows. `packed B k f` is the number that
has the values `f 0, …, f (k - 1)` in its fields, in base `B`; for fields of `w` bits, `B = 2 ^ w`.

Sums of packed numbers need no bounds. Bounds enter where fields are told apart: by a mask, by a
reduction modulo the width of the word, and in the product with the number that has a `1` in every
field. In that product the field `k` is the sum of the fields `0` to `k`. What is below the highest
field is at most the sum of all fields in each of the lower ones, so if the sum fits into a field
there is no carry.

## Main definitions

* `packed`

## Main results

* `packed_and` — masks act on each field
* `packed_pairs`, `packed_and_low`, `packed_and_high` — fields of twice the width
* `packed_mul_ones` — the sum of all fields
* `toNat_pairSums`, `toNat_fieldSum` — sums of fields in a word
-/

namespace Distsys

/-- The number with the fields `f 0, …, f (k - 1)` in base `B`. -/
def packed (B : ℕ) : ℕ → (ℕ → ℕ) → ℕ
  | 0, _ => 0
  | k + 1, f => f 0 + B * packed B k fun i => f (i + 1)

variable {B k w : ℕ} {f g : ℕ → ℕ}

theorem packed_congr (h : ∀ i < k, f i = g i) : packed B k f = packed B k g := by
  induction k generalizing f g with
  | zero => rfl
  | succ k ih =>
    rw [packed, packed, h 0 (Nat.succ_pos k), ih fun i hi => h (i + 1) (Nat.succ_lt_succ hi)]

theorem packed_add (B k : ℕ) (f g : ℕ → ℕ) :
    packed B k f + packed B k g = packed B k fun i => f i + g i := by
  induction k generalizing f g with
  | zero => rfl
  | succ k ih =>
    rw [packed, packed, packed, ← ih]
    ring

theorem packed_mul_left (B k m : ℕ) (f : ℕ → ℕ) :
    (packed B k fun i => m * f i) = m * packed B k f := by
  induction k generalizing f with
  | zero => rfl
  | succ k ih =>
    rw [packed, packed, ih fun i => f (i + 1)]
    ring

theorem packed_lt (h : ∀ i < k, f i < B) : packed B k f < B ^ k := by
  induction k generalizing f with
  | zero => exact Nat.one_pos
  | succ k ih =>
    have hrest := ih fun i hi => h (i + 1) (Nat.succ_lt_succ hi)
    have h₀ := h 0 (Nat.succ_pos k)
    calc packed B (k + 1) f < B + B * packed B k fun i => f (i + 1) := Nat.add_lt_add_right h₀ _
      _ = B * ((packed B k fun i => f (i + 1)) + 1) := by ring
      _ ≤ B * B ^ k := Nat.mul_le_mul_left B hrest
      _ = B ^ (k + 1) := by ring

/-! ### Masks

`&&&` on numbers acts bit by bit, so it acts field by field when the fields are as wide as those of
the mask. A mask that keeps every second field is at the same time a mask for fields of twice the
width, which is how the sums of neighbours are put together. -/

/-- A mask acts on the low bits and on the high bits. -/
theorem add_and_add {a b : ℕ} (ha : a < 2 ^ w) (hb : b < 2 ^ w) (x y : ℕ) :
    (a + 2 ^ w * x) &&& (b + 2 ^ w * y) = (a &&& b) + 2 ^ w * (x &&& y) := by
  refine Nat.eq_of_testBit_eq fun i => ?_
  have hab : a &&& b < 2 ^ w := Nat.and_lt_two_pow a hb
  rw [Nat.testBit_and, add_comm a, add_comm b, add_comm (a &&& b),
    Nat.testBit_two_pow_mul_add x ha, Nat.testBit_two_pow_mul_add y hb,
    Nat.testBit_two_pow_mul_add _ hab]
  split
  · rw [Nat.testBit_and]
  · rw [Nat.testBit_and]

/-- **Masks act on each field.** -/
theorem packed_and (hf : ∀ i < k, f i < 2 ^ w) (hg : ∀ i < k, g i < 2 ^ w) :
    packed (2 ^ w) k f &&& packed (2 ^ w) k g = packed (2 ^ w) k fun i => f i &&& g i := by
  induction k generalizing f g with
  | zero => exact Nat.and_self 0
  | succ k ih =>
    rw [packed, packed, packed, add_and_add (hf 0 (Nat.succ_pos k)) (hg 0 (Nat.succ_pos k)),
      ih (fun i hi => hf (i + 1) (Nat.succ_lt_succ hi))
        fun i hi => hg (i + 1) (Nat.succ_lt_succ hi)]

/-- Two fields are one of twice the width. -/
theorem packed_pairs (B k : ℕ) (f : ℕ → ℕ) :
    packed B (2 * k) f = packed (B * B) k fun i => f (2 * i) + B * f (2 * i + 1) := by
  induction k generalizing f with
  | zero => rfl
  | succ k ih =>
    rw [show 2 * (k + 1) = 2 * k + 1 + 1 by ring, packed, packed, packed, ih]
    ring_nf

/-- The number of a word of `k` bits is packed from its bits. -/
theorem packed_testBit {x : ℕ} (hx : x < 2 ^ k) :
    (packed 2 k fun i => (x.testBit i).toNat) = x := by
  induction k generalizing x with
  | zero =>
    rw [packed]
    omega
  | succ k ih =>
    have hbit : (x.testBit 0).toNat = x % 2 := by
      rw [Nat.testBit_zero]
      rcases Nat.mod_two_eq_zero_or_one x with h | h <;> simp [h]
    have hhalf : x / 2 < 2 ^ k := by
      rw [pow_succ] at hx
      omega
    simp only [packed, hbit, Nat.testBit_succ, ih hhalf]
    omega

section Pairs

variable {a b : ℕ → ℕ} (ha : ∀ i < k, a i < 2 ^ w) (hb : ∀ i < k, b i < 2 ^ w)

include ha hb

/-- Two fields fit into one of twice the width. -/
theorem add_mul_lt {i : ℕ} (hi : i < k) : a i + 2 ^ w * b i < 2 ^ (w + w) := by
  have hle : 2 ^ w * (b i + 1) ≤ 2 ^ w * 2 ^ w := Nat.mul_le_mul_left _ (hb i hi)
  have := ha i hi
  rw [pow_add]
  rw [mul_add] at hle
  omega

/-- The mask of the low halves. -/
theorem packed_and_low :
    ((packed (2 ^ (w + w)) k fun i => a i + 2 ^ w * b i) &&&
      packed (2 ^ (w + w)) k fun _ => 2 ^ w - 1) = packed (2 ^ (w + w)) k a := by
  have hpos := Nat.two_pow_pos w
  have hmask : 2 ^ w - 1 < 2 ^ (w + w) :=
    (Nat.sub_one_lt hpos.ne').trans_le (Nat.pow_le_pow_right Nat.two_pos (Nat.le_add_left w w))
  rw [packed_and (fun i hi => add_mul_lt ha hb hi) fun _ _ => hmask]
  refine packed_congr fun i hi => ?_
  rw [Nat.and_two_pow_sub_one_eq_mod, Nat.add_mul_mod_self_left, Nat.mod_eq_of_lt (ha i hi)]

/-- The mask of the high halves. -/
theorem packed_and_high :
    ((packed (2 ^ (w + w)) k fun i => a i + 2 ^ w * b i) &&&
      packed (2 ^ (w + w)) k fun _ => 2 ^ w * (2 ^ w - 1)) =
      2 ^ w * packed (2 ^ (w + w)) k b := by
  have hpos := Nat.two_pow_pos w
  have hmask : 2 ^ w * (2 ^ w - 1) < 2 ^ (w + w) := by
    rw [pow_add]
    exact Nat.mul_lt_mul_of_pos_left (Nat.sub_one_lt hpos.ne') hpos
  rw [packed_and (fun i hi => add_mul_lt ha hb hi) fun _ _ => hmask, ← packed_mul_left]
  refine packed_congr fun i hi => ?_
  have hand := add_and_add (ha i hi) hpos (b i) (2 ^ w - 1)
  rw [Nat.zero_add, Nat.and_zero, Nat.zero_add] at hand
  rw [hand, Nat.and_two_pow_sub_one_eq_mod, Nat.mod_eq_of_lt (hb i hi)]

end Pairs

/-! ### The sum of the fields

The product with `1 + B + ⋯ + B ^ k` adds up `k + 1` shifted copies. The highest field that is kept
gets a contribution from each of the fields, and the division by `B ^ k` drops the others. -/

theorem sum_range_pairs (k : ℕ) (f : ℕ → ℕ) :
    ∑ i ∈ Finset.range k, (f (2 * i) + f (2 * i + 1)) = ∑ i ∈ Finset.range (2 * k), f i := by
  induction k with
  | zero => rfl
  | succ k ih =>
    rw [Finset.sum_range_succ, ih, show 2 * (k + 1) = 2 * k + 1 + 1 by ring,
      Finset.sum_range_succ, Finset.sum_range_succ, add_assoc]

/-- The number with a `1` in every field, and one more. -/
theorem packed_ones_succ (B k : ℕ) :
    (packed B (k + 1) fun _ => 1) = (packed B k fun _ => 1) + B ^ k := by
  induction k with
  | zero => simp [packed]
  | succ k ih =>
    calc (packed B (k + 1 + 1) fun _ => 1) = 1 + B * packed B (k + 1) fun _ => 1 := rfl
      _ = 1 + B * ((packed B k fun _ => 1) + B ^ k) := by rw [ih]
      _ = (1 + B * packed B k fun _ => 1) + B ^ (k + 1) := by ring
      _ = (packed B (k + 1) fun _ => 1) + B ^ (k + 1) := rfl

/-- A number that fits into a field can be put into all of them. -/
theorem mul_packed_ones_lt {s : ℕ} (hs : s < B) (k : ℕ) :
    s * (packed B k fun _ => 1) < B ^ k := by
  rw [← packed_mul_left]
  exact packed_lt fun _ _ => by rwa [Nat.mul_one]

/-- **The product with ones** has the sum of all fields in its field `k`. Below it there is at most
that sum in every field. -/
theorem packed_mul_ones (B k : ℕ) (f : ℕ → ℕ) :
    ∃ low high, low ≤ (∑ i ∈ Finset.range (k + 1), f i) * (packed B k fun _ => 1) ∧
      packed B (k + 1) f * (packed B (k + 1) fun _ => 1) =
        low + B ^ k * ((∑ i ∈ Finset.range (k + 1), f i) + B * high) := by
  induction k generalizing f with
  | zero => exact ⟨0, 0, Nat.zero_le _, by simp [packed]⟩
  | succ k ih =>
    obtain ⟨low, high, hlow, hmul⟩ := ih fun i => f (i + 1)
    rw [Finset.sum_range_succ']
    set rest := ∑ i ∈ Finset.range (k + 1), f (i + 1)
    refine ⟨f 0 * (packed B (k + 1) fun _ => 1) + B * low,
      high + packed B (k + 1) fun i => f (i + 1), ?_, ?_⟩
    · have hones : B * (packed B k fun _ => 1) ≤ packed B (k + 1) fun _ => 1 :=
        Nat.le_add_left _ 1
      calc f 0 * (packed B (k + 1) fun _ => 1) + B * low
          ≤ f 0 * (packed B (k + 1) fun _ => 1) + B * (rest * packed B k fun _ => 1) :=
            Nat.add_le_add_left (Nat.mul_le_mul_left B hlow) _
        _ = f 0 * (packed B (k + 1) fun _ => 1) + rest * (B * packed B k fun _ => 1) := by ring
        _ ≤ f 0 * (packed B (k + 1) fun _ => 1) + rest * packed B (k + 1) fun _ => 1 :=
            Nat.add_le_add_left (Nat.mul_le_mul_left rest hones) _
        _ = (rest + f 0) * packed B (k + 1) fun _ => 1 := by ring
    · calc packed B (k + 1 + 1) f * (packed B (k + 1 + 1) fun _ => 1)
          = f 0 * (packed B (k + 1 + 1) fun _ => 1) +
            B * (packed B (k + 1) fun i => f (i + 1)) * packed B (k + 1 + 1) fun _ => 1 := by
            rw [packed, add_mul]
        _ = f 0 * ((packed B (k + 1) fun _ => 1) + B ^ (k + 1)) +
            B * ((packed B (k + 1) fun i => f (i + 1)) * (packed B (k + 1) fun _ => 1)) +
            B * (packed B (k + 1) fun i => f (i + 1)) * B ^ (k + 1) := by
            rw [packed_ones_succ B (k + 1)]
            ring
        _ = _ := by
            rw [hmul]
            ring

/-- The field `k` of the product. -/
theorem packed_mul_ones_div (h : ∑ i ∈ Finset.range (k + 1), f i < B) :
    packed B (k + 1) f * (packed B (k + 1) fun _ => 1) % B ^ (k + 1) / B ^ k =
      ∑ i ∈ Finset.range (k + 1), f i := by
  obtain ⟨low, high, hlow, hmul⟩ := packed_mul_ones B k f
  have hlt : low < B ^ k := hlow.trans_lt (mul_packed_ones_lt h k)
  rw [pow_succ, Nat.mod_mul_right_div_self, hmul,
    Nat.add_mul_div_left _ _ (Nat.zero_lt_of_lt hlt), Nat.div_eq_of_lt hlt, Nat.zero_add,
    Nat.add_mul_mod_self_left, Nat.mod_eq_of_lt h]

/-! ### Words

The same for bit vectors, where sums and products are taken modulo the width. The word is as wide as
all fields together, so nothing but the fields above the highest one is cut off. -/

variable {N : ℕ} {v : BitVec N}

theorem toNat_eq_packed (v : BitVec N) : v.toNat = packed 2 N fun i => (v.getLsbD i).toNat :=
  (packed_testBit v.isLt).symm

/-- **One step of a sum over fields**: neighbouring fields are added, in fields of twice the
width. -/
theorem toNat_pairSums (hw : 1 ≤ w) (hN : (w + w) * k = N) (low high : BitVec N)
    (hlow : low.toNat = packed (2 ^ (w + w)) k fun _ => 2 ^ w - 1)
    (hhigh : high.toNat = packed (2 ^ (w + w)) k fun _ => 2 ^ w * (2 ^ w - 1))
    (hv : v.toNat = packed (2 ^ w) (2 * k) f) (hf : ∀ i < 2 * k, f i < 2 ^ w) :
    ((v &&& low) + ((v &&& high) >>> w)).toNat =
      packed (2 ^ (w + w)) k fun i => f (2 * i) + f (2 * i + 1) := by
  have ha : ∀ i < k, f (2 * i) < 2 ^ w := fun i hi => hf _ (by omega)
  have hb : ∀ i < k, f (2 * i + 1) < 2 ^ w := fun i hi => hf _ (by omega)
  have hfit : (packed (2 ^ (w + w)) k fun i => f (2 * i) + f (2 * i + 1)) < 2 ^ N := by
    rw [← hN, pow_mul]
    refine packed_lt fun i hi => ?_
    have hle : 2 ^ w * 2 ≤ 2 ^ w * 2 ^ w :=
      Nat.mul_le_mul_left _ (Nat.pow_le_pow_right Nat.two_pos hw)
    have := ha i hi
    have := hb i hi
    rw [pow_add]
    omega
  rw [BitVec.toNat_add, BitVec.toNat_ushiftRight, BitVec.toNat_and, BitVec.toNat_and, hv, hlow,
    hhigh, packed_pairs, ← pow_add, packed_and_low ha hb, packed_and_high ha hb,
    Nat.shiftRight_eq_div_pow, Nat.mul_div_cancel_left _ (Nat.two_pow_pos w), packed_add,
    Nat.mod_eq_of_lt hfit]

/-- **The last step**: the sum of all fields is the highest field of the product. -/
theorem toNat_fieldSum (hN : w * (k + 1) = N) (ones : BitVec N)
    (hones : ones.toNat = packed (2 ^ w) (k + 1) fun _ => 1)
    (hv : v.toNat = packed (2 ^ w) (k + 1) f)
    (hsum : ∑ i ∈ Finset.range (k + 1), f i < 2 ^ w) :
    ((v * ones) >>> (w * k)).toNat = ∑ i ∈ Finset.range (k + 1), f i := by
  rw [BitVec.toNat_ushiftRight, BitVec.toNat_mul, hv, hones, Nat.shiftRight_eq_div_pow, ← hN,
    pow_mul, pow_mul, packed_mul_ones_div hsum]

end Distsys
