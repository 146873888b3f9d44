import Mathlib.Data.Nat.Init
import Mathlib.Data.List.Basic
import Distsys.Lib.GoSlice

/-!
# `bitset`

A set of positions in words of 64 bits. An access behind the last word panics.

Here a bitset is a value. In the source it is a slice, which `set` and `clear` write to and `clone`
copies; what this means for those who share a bitset is the subject of
`Distsys.Linearizability.BitsetSlice`. The search only ever writes to a bitset it has just cloned,
or to one nobody else has kept, so it may be modelled with values.

## Main definitions

* `Bitset`, `Bitset.new`, `Bitset.clone`, `Bitset.set`, `Bitset.clear`, `Bitset.get`
* `Bitset.popcnt`, `Bitset.hash`, `Bitset.equals`
* `Bitset.contains` — the bit at a position, without the check

## Main results

* `Bitset.set_spec`, `Bitset.clear_spec`, `Bitset.get_eq` — what the operations do to the bits
* `Bitset.clear_of_set` — a set bit can be taken back
-/

namespace Distsys

namespace Linearizability

/-- `bitset`. -/
structure Bitset where
  words : List (BitVec 64)
  deriving DecidableEq, Repr

namespace Bitset

/-- `newBitset`. -/
def new (bits : ℕ) : Bitset :=
  ⟨List.replicate (bits / 64 + if bits % 64 ≠ 0 then 1 else 0) 0⟩

/-- `clone`. -/
def clone (b : Bitset) : Bitset := ⟨GoSlice.copy (List.replicate b.words.length 0) b.words⟩

/-- `bitsetIndex`. -/
def index (pos : ℕ) : ℕ × ℕ := (pos / 64, pos % 64)

/-- `set`. -/
def set (b : Bitset) (pos : ℕ) : Option Bitset :=
  let (major, minor) := index pos
  b.words[major]?.map fun v => ⟨b.words.set major (v ||| (1#64 <<< minor))⟩

/-- `clear`. -/
def clear (b : Bitset) (pos : ℕ) : Option Bitset :=
  let (major, minor) := index pos
  b.words[major]?.map fun v => ⟨b.words.set major (v &&& ~~~(1#64 <<< minor))⟩

/-- `get`. -/
def get (b : Bitset) (pos : ℕ) : Option Bool :=
  let (major, minor) := index pos
  b.words[major]?.map fun v => v &&& (1#64 <<< minor) != 0

/-- The body of the loop of `popcnt`. -/
def popcntWord (v : BitVec 64) : ℕ :=
  let v := (v &&& 0x5555555555555555) + ((v &&& 0xAAAAAAAAAAAAAAAA) >>> 1)
  let v := (v &&& 0x3333333333333333) + ((v &&& 0xCCCCCCCCCCCCCCCC) >>> 2)
  let v := (v &&& 0x0F0F0F0F0F0F0F0F) + ((v &&& 0xF0F0F0F0F0F0F0F0) >>> 4)
  let v := v * 0x0101010101010101
  ((v >>> 56) &&& 0xFF).toNat

/-- `popcnt`. -/
def popcnt (b : Bitset) : ℕ := b.words.foldl (fun total v => total + popcntWord v) 0

/-- `hash`. -/
def hash (b : Bitset) : BitVec 64 :=
  b.words.foldl (fun hash v => hash ^^^ v) (BitVec.ofNat 64 b.popcnt)

/-- `equals`. -/
def equals (b b2 : Bitset) : Bool := b.words == b2.words

/-- Is the bit at `pos` set? -/
def contains (b : Bitset) (pos : ℕ) : Bool := (b.words[pos / 64]?.getD 0).getLsbD (pos % 64)

theorem equals_iff {b b2 : Bitset} : b.equals b2 = true ↔ b = b2 := by
  rw [equals, beq_iff_eq, Bitset.mk.injEq]

theorem clone_eq (b : Bitset) : b.clone = b := by
  rw [clone, GoSlice.copy_of_length_eq List.length_replicate]

theorem length_new (bits : ℕ) : bits ≤ 64 * (new bits).words.length := by
  simp only [new, List.length_replicate]
  split <;> omega

theorem contains_new (bits pos : ℕ) : (new bits).contains pos = false := by
  have hzero : ((new bits).words[pos / 64]?.getD 0) = 0 := by
    rw [new, List.getElem?_replicate]
    split <;> split <;> rfl
  rw [contains, hzero, BitVec.ofNat_eq_ofNat, BitVec.getLsbD_zero]

variable {b b' : Bitset} {pos : ℕ}

/-- A word that is replaced by one that differs in one bit. -/
theorem contains_setWord {v : BitVec 64} {c : Bool} (hlt : pos / 64 < b.words.length)
    (hv : ∀ i < 64, v.getLsbD i =
      if i = pos % 64 then c else b.words[pos / 64].getLsbD i) (p : ℕ) :
    (Bitset.mk (b.words.set (pos / 64) v)).contains p = if p = pos then c else b.contains p := by
  simp only [contains]
  rcases eq_or_ne (pos / 64) (p / 64) with hword | hword
  · rw [← hword, List.getElem?_set_self hlt, List.getElem?_eq_getElem hlt, Option.getD_some,
      Option.getD_some, hv _ (Nat.mod_lt p (by omega))]
    exact if_congr (by omega) rfl rfl
  · rw [List.getElem?_set_ne hword, if_neg fun h => hword (by rw [h])]

/-- **`set`** sets one bit. -/
theorem set_spec (h : pos < 64 * b.words.length) :
    ∃ b', b.set pos = some b' ∧ b'.words.length = b.words.length ∧
      ∀ p, b'.contains p = (decide (p = pos) || b.contains p) := by
  have hlt : pos / 64 < b.words.length := by omega
  refine ⟨⟨b.words.set (pos / 64) (b.words[pos / 64] ||| (1#64 <<< (pos % 64)))⟩, ?_,
    List.length_set, fun p => ?_⟩
  · simp only [set, index, List.getElem?_eq_getElem hlt, Option.map_some]
  · rw [contains_setWord (c := true) hlt fun i hi => ?_]
    · by_cases hp : p = pos <;> simp [hp]
    · rw [BitVec.getLsbD_or, ← BitVec.twoPow_eq, BitVec.getLsbD_twoPow]
      by_cases h : i = pos % 64
      · simp [h, Nat.mod_lt]
      · simp [h, Ne.symm h]

/-- **`clear`** clears one bit. -/
theorem clear_spec (h : pos < 64 * b.words.length) :
    ∃ b', b.clear pos = some b' ∧ b'.words.length = b.words.length ∧
      ∀ p, b'.contains p = (!decide (p = pos) && b.contains p) := by
  have hlt : pos / 64 < b.words.length := by omega
  refine ⟨⟨b.words.set (pos / 64) (b.words[pos / 64] &&& ~~~(1#64 <<< (pos % 64)))⟩, ?_,
    List.length_set, fun p => ?_⟩
  · simp only [clear, index, List.getElem?_eq_getElem hlt, Option.map_some]
  · rw [contains_setWord (c := false) hlt fun i hi => ?_]
    · by_cases hp : p = pos <;> simp [hp]
    · rw [BitVec.getLsbD_and, BitVec.getLsbD_not, ← BitVec.twoPow_eq, BitVec.getLsbD_twoPow]
      by_cases h : i = pos % 64
      · simp [h, Nat.mod_lt]
      · simp [h, hi, Ne.symm h]

/-- **`get`** reads one bit. -/
theorem get_eq (h : pos < 64 * b.words.length) : b.get pos = some (b.contains pos) := by
  have hlt : pos / 64 < b.words.length := by omega
  have hne : BitVec.twoPow 64 (pos % 64) ≠ 0#64 := by
    intro h₀
    have hbit := congrArg (fun v : BitVec 64 => v.getLsbD (pos % 64)) h₀
    simp [Nat.mod_lt] at hbit
  simp only [get, index, contains, List.getElem?_eq_getElem hlt, Option.map_some,
    Option.getD_some, ← BitVec.twoPow_eq, BitVec.and_twoPow]
  cases b.words[pos / 64].getLsbD (pos % 64) with
  | false => rfl
  | true => simpa using hne

/-- The bits and the number of words are all there is. -/
theorem eq_of_contains (hlen : b.words.length = b'.words.length)
    (h : ∀ p, b.contains p = b'.contains p) : b = b' := by
  refine congrArg Bitset.mk (List.ext_getElem hlen fun j hj hj' => ?_)
  refine BitVec.eq_of_getLsbD_eq fun i hi => ?_
  have hp := h (64 * j + i)
  have hdiv : (64 * j + i) / 64 = j := by omega
  have hmod : (64 * j + i) % 64 = i := by omega
  simpa only [contains, hdiv, hmod, List.getElem?_eq_getElem hj, List.getElem?_eq_getElem hj',
    Option.getD_some] using hp

/-- A bit that was not set is cleared again. -/
theorem clear_of_set (h : b.set pos = some b') (hpos : b.contains pos = false) :
    b'.clear pos = some b := by
  obtain ⟨v, hv, rfl⟩ := Option.map_eq_some_iff.mp h
  have hlt : pos / 64 < b.words.length := (List.getElem?_eq_some_iff.mp hv).1
  have hbit : v.getLsbD (pos % 64) = false := by
    rw [contains, hv, Option.getD_some] at hpos
    exact hpos
  have hback : (v ||| 1#64 <<< (pos % 64)) &&& ~~~(1#64 <<< (pos % 64)) = v := by
    refine BitVec.eq_of_getLsbD_eq fun i hi => ?_
    rw [← BitVec.twoPow_eq, BitVec.getLsbD_and, BitVec.getLsbD_or, BitVec.getLsbD_not,
      BitVec.getLsbD_twoPow]
    by_cases hi' : pos % 64 = i
    · rw [← hi', hbit]
      simp
    · simp [hi, hi']
  simp only [clear, index, List.getElem?_set_self hlt, Option.map_some, List.set_set, hback]
  rw [(List.getElem?_eq_some_iff.mp hv).2.symm, List.set_getElem_self]

end Bitset

end Linearizability

end Distsys
