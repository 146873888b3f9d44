import Mathlib.Data.List.Basic
import Mathlib.Data.Int.Order.Basic

/-!
# Go slices

A Go slice is a list here, indexed by an integer. An access outside the bounds panics in Go; the
operations below return `none` in that case, so that a caller has to say what the panic does.

Indices are integers because the code computes them by subtraction, and a negative one is an error
that has to be visible. The lemmas relate each operation to the one on lists, with a natural number
for the index.

Capacities are not modelled: `upTo` refuses a bound past the length where Go would still reslice
into spare capacity.

## Main definitions

* `GoSlice.get`, `GoSlice.set` — `s[i]` and `s[i] = v`
* `GoSlice.suffixFrom`, `GoSlice.upTo` — `s[i:]` and `s[:i]`
* `GoSlice.copy` — `copy(dst, src)`
-/

namespace Distsys

namespace GoSlice

variable {β : Type*}

/-- `s[i]`. -/
def get (s : List β) (i : ℤ) : Option β := if i < 0 then none else s[i.toNat]?

/-- `s[i] = v`. -/
def set (s : List β) (i : ℤ) (v : β) : Option (List β) :=
  if 0 ≤ i ∧ i < s.length then some (s.set i.toNat v) else none

/-- `s[i:]`. -/
def suffixFrom (s : List β) (i : ℤ) : Option (List β) :=
  if 0 ≤ i ∧ i ≤ s.length then some (s.drop i.toNat) else none

/-- `s[:i]`. -/
def upTo (s : List β) (i : ℤ) : Option (List β) :=
  if 0 ≤ i ∧ i ≤ s.length then some (s.take i.toNat) else none

/-- What is in `dst` after `copy(dst, src)`. -/
def copy (dst src : List β) : List β := src.take dst.length ++ dst.drop src.length

theorem copy_of_length_eq {dst src : List β} (h : dst.length = src.length) :
    copy dst src = src := by
  rw [copy, h, List.take_length, ← h, List.drop_length, List.append_nil]

@[simp] theorem get_natCast (s : List β) (i : ℕ) : get s i = s[i]? := by
  rw [get, if_neg (by omega), Int.toNat_natCast]

theorem get_eq_some_iff {s : List β} {i : ℤ} {b : β} :
    get s i = some b ↔ ∃ k : ℕ, i = k ∧ s[k]? = some b := by
  constructor
  · intro h
    by_cases hi : i < 0
    · simp [get, hi] at h
    · exact ⟨i.toNat, by omega, by simpa [get, hi] using h⟩
  · rintro ⟨k, rfl, hk⟩
    simpa using hk

theorem get_lt {s : List β} {i : ℤ} {b : β} (h : get s i = some b) : 0 ≤ i ∧ i < s.length := by
  obtain ⟨k, rfl, hk⟩ := get_eq_some_iff.mp h
  have := (List.getElem?_eq_some_iff.mp hk).1
  omega

theorem get_isSome {s : List β} {i : ℤ} (h₀ : 0 ≤ i) (h : i < s.length) :
    ∃ b, get s i = some b := by
  lift i to ℕ using h₀
  exact ⟨s.get ⟨i, by omega⟩, by simp⟩

theorem set_eq_some_iff {s t : List β} {i : ℤ} {v : β} :
    set s i v = some t ↔ ∃ k : ℕ, i = k ∧ k < s.length ∧ t = s.set k v := by
  constructor
  · intro h
    unfold set at h
    split at h
    · rename_i hi
      exact ⟨i.toNat, by omega, by omega, (Option.some.inj h).symm⟩
    · cases h
  · rintro ⟨k, rfl, hk, rfl⟩
    simp [set, hk]

theorem set_natCast {s : List β} {i : ℕ} (h : i < s.length) (v : β) :
    set s i v = some (s.set i v) :=
  set_eq_some_iff.mpr ⟨i, rfl, h, rfl⟩

theorem suffixFrom_eq_some_iff {s t : List β} {i : ℤ} :
    suffixFrom s i = some t ↔ ∃ k : ℕ, i = k ∧ k ≤ s.length ∧ t = s.drop k := by
  constructor
  · intro h
    unfold suffixFrom at h
    split at h
    · rename_i hi
      exact ⟨i.toNat, by omega, by omega, (Option.some.inj h).symm⟩
    · cases h
  · rintro ⟨k, rfl, hk, rfl⟩
    simp [suffixFrom, hk]

theorem upTo_eq_some_iff {s t : List β} {i : ℤ} :
    upTo s i = some t ↔ ∃ k : ℕ, i = k ∧ k ≤ s.length ∧ t = s.take k := by
  constructor
  · intro h
    unfold upTo at h
    split at h
    · rename_i hi
      exact ⟨i.toNat, by omega, by omega, (Option.some.inj h).symm⟩
    · cases h
  · rintro ⟨k, rfl, hk, rfl⟩
    simp [upTo, hk]

end GoSlice

end Distsys
