import Mathlib.Data.List.Induction
import Mathlib.Data.List.Lex
import Mathlib.Data.List.Sort
import Mathlib.Data.Nat.Digits.Defs
import Mathlib.Order.Fin.Basic

/-!
# Strings, `strconv.Itoa`, package `sort` and maps of Go

A Go string is a sequence of bytes, not of characters, and `<` compares the bytes from the left. So
a string is a list of bytes here, with the lexicographic order.

`sort.Slice` and `sort.Sort` do not promise to keep equal elements in their order. What they promise
is a permutation of the slice that is sorted: `UnstableSort` is any function that keeps this
promise. On pairwise different strings there is only one such permutation, and `sortStrings`
computes it.

A map is the list of its entries. A `range` over it visits them in an order of its own.

## Main definitions

* `GoString`, `GoString.lit`, `GoString.itoa`
* `UnstableSort`, `UnstableSort.ascending`, `UnstableSort.descending`, `sortStrings`
* `RangeOrder`, `appendTo`

## Main results

* `GoString.itoa_injective`, `GoString.not_mem_itoa` — a decimal number is one, and nothing but
  digits
* `pairwise_lt_sortStrings`
* `foldl_appendTo` — a map into which a list was appended has the elements of each key, in their
  order
-/

namespace Distsys

instance neZeroByte : NeZero 256 := ⟨Nat.succ_ne_zero 255⟩

/-- A byte. -/
abbrev Byte := Fin 256

/-- A Go string. -/
abbrev GoString := List Byte

namespace GoString

/-- The bytes of a string literal. -/
def lit (s : String) : GoString := s.toUTF8.toList.map UInt8.toFin

/-- The digit `d` in ASCII. -/
def digit (d : ℕ) : Byte := Fin.ofNat 256 (48 + d)

/-- `strconv.Itoa`, of a number that is not negative. -/
def itoa (n : ℕ) : GoString := if n = 0 then [digit 0] else (Nat.digits 10 n).reverse.map digit

theorem val_digit {d : ℕ} (h : d < 10) : (digit d).val = 48 + d := by
  simp [digit, Fin.ofNat]
  omega

/-- The bytes of a number are `0` to `9`. -/
theorem mem_itoa {n : ℕ} {b : Byte} (h : b ∈ itoa n) : ∃ d < 10, b = digit d := by
  unfold itoa at h
  split at h
  · exact ⟨0, by omega, List.mem_singleton.mp h⟩
  · obtain ⟨d, hd, rfl⟩ := List.mem_map.mp h
    exact ⟨d, Nat.digits_lt_base (by omega) (List.mem_reverse.mp hd), rfl⟩

theorem not_mem_itoa {n : ℕ} {b : Byte} (h : b.val < 48 ∨ 58 ≤ b.val) : b ∉ itoa n := by
  intro hb
  obtain ⟨d, hd, rfl⟩ := mem_itoa hb
  rw [val_digit hd] at h
  omega

/-- A number can be read back from its text. -/
theorem ofDigits_itoa (n : ℕ) :
    Nat.ofDigits 10 ((itoa n).reverse.map fun b : Byte => b.val - 48) = n := by
  unfold itoa
  split
  · rename_i h
    simp [h, digit]
  · rw [← List.map_reverse, List.reverse_reverse, List.map_map]
    have hid : (Nat.digits 10 n).map ((fun b : Byte => b.val - 48) ∘ digit) = Nat.digits 10 n := by
      refine (List.map_congr_left fun d hd => ?_).trans (List.map_id _)
      rw [Function.comp_apply, val_digit (Nat.digits_lt_base (by omega) hd), id]
      omega
    rw [hid, Nat.ofDigits_digits]

theorem itoa_injective : Function.Injective itoa := by
  intro m n h
  rw [← ofDigits_itoa m, h, ofDigits_itoa]

end GoString

/-! ### Sorting

Whoever uses a sort that is not stable has to be right for every one of them. A theorem about code
that sorts is therefore about any `UnstableSort`, and a run on a fixed input takes insertion sort.
-/

/-- A sort by `less` that keeps the promise of `sort.Slice` and `sort.Sort`. -/
structure UnstableSort (β : Type) (less : β → β → Prop) where
  sort : List β → List β
  perm : ∀ l, (sort l).Perm l
  /-- No element is less than one before it. -/
  sorted : ∀ l, (sort l).Pairwise fun a b => ¬ less b a

/-- Insertion sort keeps it, for a comparison of keys. -/
def UnstableSort.ascending {β γ : Type} [LinearOrder γ] (key : β → γ) :
    UnstableSort β fun a b => key a < key b where
  sort := List.insertionSort fun a b => key a ≤ key b
  perm := List.perm_insertionSort _
  sorted l := by
    have : Std.Total fun a b : β => key a ≤ key b := ⟨fun a b => le_total (key a) (key b)⟩
    have : IsTrans β fun a b => key a ≤ key b := ⟨fun _ _ _ => le_trans⟩
    exact (List.pairwise_insertionSort _ l).imp not_lt.mpr

/-- The same in descending order. -/
def UnstableSort.descending {β γ : Type} [LinearOrder γ] (key : β → γ) :
    UnstableSort β fun a b => key a > key b where
  sort := List.insertionSort fun a b => key b ≤ key a
  perm := List.perm_insertionSort _
  sorted l := by
    have : Std.Total fun a b : β => key b ≤ key a := ⟨fun a b => le_total (key b) (key a)⟩
    have : IsTrans β fun a b => key b ≤ key a := ⟨fun _ _ _ h h' => le_trans h' h⟩
    exact (List.pairwise_insertionSort _ l).imp not_lt.mpr

/-- `sort.Strings`. -/
def sortStrings (l : List GoString) : List GoString := l.insertionSort (· ≤ ·)

theorem perm_sortStrings (l : List GoString) : (sortStrings l).Perm l := List.perm_insertionSort _ l

/-- Different strings are sorted strictly. -/
theorem pairwise_lt_sortStrings {l : List GoString} (h : l.Nodup) :
    (sortStrings l).Pairwise (· < ·) := by
  have hnodup : (sortStrings l).Nodup := (perm_sortStrings l).nodup_iff.mpr h
  exact ((List.pairwise_insertionSort (· ≤ ·) l).and hnodup).imp fun h => lt_of_le_of_ne h.1 h.2

/-! ### Maps

The order of a `range` over a map is not specified, and it is not the same in two loops. A
`RangeOrder` is one such choice; what depends on it is said for any. -/

/-- The order in which a `range` visits the entries of a map. -/
structure RangeOrder (β : Type) where
  order : List β → List β
  perm : ∀ l, (order l).Perm l

/-- The order in which the entries were made. -/
def RangeOrder.insertion (β : Type) : RangeOrder β := ⟨id, List.Perm.refl⟩

section Append

variable {κ β : Type} [DecidableEq κ]

/-- `m[key] = append(m[key], v)`. -/
def appendTo (key : κ) (v : β) : List (κ × List β) → List (κ × List β)
  | [] => [(key, [v])]
  | (k, vs) :: m => if k = key then (k, vs ++ [v]) :: m else (k, vs) :: appendTo key v m

theorem appendTo_of_notMem {key : κ} {v : β} {m : List (κ × List β)} (h : key ∉ m.map Prod.fst) :
    appendTo key v m = m ++ [(key, [v])] := by
  induction m with
  | nil => rfl
  | cons e m ih =>
    obtain ⟨hne, hm⟩ := not_or.mp (mt List.mem_cons.mpr h)
    rw [appendTo, if_neg fun heq => hne heq.symm, ih hm]
    rfl

theorem appendTo_of_mem {key : κ} {v : β} {keys : List κ} (hkeys : keys.Nodup) (h : key ∈ keys)
    {f g : κ → List β} (hkey : g key = f key ++ [v]) (hother : ∀ k, k ≠ key → g k = f k) :
    appendTo key v (keys.map fun k => (k, f k)) = keys.map fun k => (k, g k) := by
  induction keys with
  | nil => cases h
  | cons k keys ih =>
    obtain ⟨hk, hkeys⟩ := List.nodup_cons.mp hkeys
    rw [List.map_cons, List.map_cons, appendTo]
    split
    · rename_i heq
      subst heq
      rw [hkey]
      refine congrArg _ (List.map_congr_left fun k' hk' => ?_)
      rw [hother k' fun heq => hk (heq ▸ hk')]
    · rename_i hne
      rw [hother k hne, ih hkeys ((List.mem_cons.mp h).resolve_left fun heq => hne heq.symm)]

/-- **A list, appended to a map one by one.** Each key has an entry with its elements. -/
theorem foldl_appendTo (key : β → κ) (l : List β) :
    ∃ keys : List κ, keys.Nodup ∧ (∀ v ∈ l, key v ∈ keys) ∧
      l.foldl (fun m v => appendTo (key v) v m) [] =
        keys.map fun k => (k, l.filter fun v => key v = k) := by
  induction l using List.reverseRecOn with
  | nil => exact ⟨[], List.nodup_nil, nofun, rfl⟩
  | append_singleton l v ih =>
    obtain ⟨keys, hnodup, hmem, heq⟩ := ih
    rw [List.foldl_append, heq, List.foldl_cons, List.foldl_nil]
    by_cases hv : key v ∈ keys
    · refine ⟨keys, hnodup, ?_, appendTo_of_mem hnodup hv (by simp) fun k hk => ?_⟩
      · rw [List.forall_mem_append, List.forall_mem_singleton]
        exact ⟨hmem, hv⟩
      · simp [List.filter_append, hk.symm]
    · have hnil : l.filter (fun w => key w = key v) = [] :=
        List.filter_eq_nil_iff.mpr fun w hw heq => hv (of_decide_eq_true heq ▸ hmem w hw)
      refine ⟨keys ++ [key v], ?_, ?_, ?_⟩
      · exact List.nodup_append.mpr ⟨hnodup, List.nodup_singleton _, fun k hk k' hk' hkk' =>
          hv (List.mem_singleton.mp hk' ▸ hkk' ▸ hk)⟩
      · rw [List.forall_mem_append, List.forall_mem_singleton]
        exact ⟨fun w hw => List.mem_append_left _ (hmem w hw), by simp⟩
      · rw [appendTo_of_notMem (by simpa using hv), List.map_append]
        refine congrArg₂ _ (List.map_congr_left fun k hk => ?_) (by simp [hnil])
        have hne : key v ≠ k := fun heq => hv (heq ▸ hk)
        simp [List.filter_append, hne]

end Append

end Distsys
