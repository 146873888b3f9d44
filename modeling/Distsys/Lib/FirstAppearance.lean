import Mathlib.Data.Finset.Card
import Mathlib.Data.List.Basic
import Mathlib.Data.Set.Function

/-!
# Numbers in order of first appearance

The values of a list can be numbered in the order in which they first appear. With `eraseDups` as
the table of the values that have a number, the number of a value is its index there.

The numbering depends only on which places of the list hold the same value. So an injective
relabelling does not change it, and numbering the numbers gives the numbers again.

## Main definitions

* `appearance` — the number of a value

## Main results

* `appearance_inj`, `appearance_map`
* `eraseDups_map_appearance` — the numbers appear in their order
-/

namespace Distsys

variable {α β : Type*} [DecidableEq α] [DecidableEq β] {l : List α} {x : α}

/-! ### The table of values

A table that is built along the list is the list of values without duplicates, in the order of their
first places. A value that is in it already changes nothing. -/

theorem eraseDups_concat_of_mem (hx : x ∈ l) : (l ++ [x]).eraseDups = l.eraseDups := by
  rw [List.eraseDups_append]
  simp [List.removeAll, hx]

theorem eraseDups_concat_of_notMem (hx : x ∉ l) :
    (l ++ [x]).eraseDups = l.eraseDups ++ [x] := by
  rw [List.eraseDups_append]
  simp [List.removeAll, hx, List.eraseDups_cons]

theorem nodup_eraseDups (l : List α) : l.eraseDups.Nodup := by
  induction l using List.reverseRecOn with
  | nil => exact List.nodup_nil
  | append_singleton l x ih =>
    by_cases hx : x ∈ l
    · rwa [eraseDups_concat_of_mem hx]
    · rw [eraseDups_concat_of_notMem hx, ← List.concat_eq_append]
      exact ih.concat (mt List.mem_eraseDups.mp hx)

/-- There are as many numbers as there are values. -/
theorem length_eraseDups (l : List α) : l.eraseDups.length = l.toFinset.card := by
  rw [← List.toFinset_card_of_nodup (nodup_eraseDups l)]
  congr 1
  ext x
  simp

theorem eraseDups_map {f : α → β} (hf : Set.InjOn f {x | x ∈ l}) :
    (l.map f).eraseDups = l.eraseDups.map f := by
  induction l using List.reverseRecOn with
  | nil => rfl
  | append_singleton l x ih =>
    have hl : Set.InjOn f {y | y ∈ l} := hf.mono fun _ hy => List.mem_append_left _ hy
    rw [List.map_append, List.map_singleton]
    by_cases hx : x ∈ l
    · rw [eraseDups_concat_of_mem hx, eraseDups_concat_of_mem (List.mem_map_of_mem hx), ih hl]
    · have hfx : f x ∉ l.map f := by
        intro hmem
        obtain ⟨y, hy, hyx⟩ := List.mem_map.mp hmem
        exact hx (hf (List.mem_append_left _ hy) (by simp) hyx ▸ hy)
      rw [eraseDups_concat_of_notMem hx, eraseDups_concat_of_notMem hfx, ih hl, List.map_append,
        List.map_singleton]

/-! ### The number of a value

The index in the table, which does not change any more when the list grows. So a loop that gives the
next number to a value it has not seen gives every value the number that it has in the whole list.
-/

/-- The number of a value of `l`, in order of first appearance. -/
def appearance (l : List α) (x : α) : ℕ := l.eraseDups.idxOf x

theorem appearance_inj (hx : x ∈ l) {y : α} : appearance l x = appearance l y ↔ x = y :=
  List.idxOf_inj (List.mem_eraseDups.mpr hx)

theorem appearance_lt (hx : x ∈ l) : appearance l x < l.toFinset.card := by
  rw [← length_eraseDups]
  exact List.idxOf_lt_length_of_mem (List.mem_eraseDups.mpr hx)

/-- What comes later does not change the number. -/
theorem appearance_append (hx : x ∈ l) (l' : List α) :
    appearance (l ++ l') x = appearance l x := by
  rw [appearance, List.eraseDups_append]
  exact List.idxOf_append_of_mem (List.mem_eraseDups.mpr hx)

/-- A new value has the next number. -/
theorem appearance_concat_self (hx : x ∉ l) :
    appearance (l ++ [x]) x = l.eraseDups.length := by
  rw [appearance, eraseDups_concat_of_notMem hx,
    List.idxOf_append_of_notMem (mt List.mem_eraseDups.mp hx)]
  simp

theorem idxOf_map {f : α → β} (hf : Set.InjOn f {y | y ∈ x :: l}) :
    (l.map f).idxOf (f x) = l.idxOf x := by
  induction l with
  | nil => rfl
  | cons y l ih =>
    have hxy : (f y == f x) = (y == x) := by
      rw [Bool.eq_iff_iff, beq_iff_eq, beq_iff_eq]
      exact hf.eq_iff (by simp) (by simp)
    have hl : Set.InjOn f {y | y ∈ x :: l} := hf.mono fun z hz => by
      rcases List.mem_cons.mp hz with rfl | hz <;> simp [*]
    simp only [List.map_cons, List.idxOf_cons, hxy, ih hl]

/-- **An injective relabelling** does not change the numbers. -/
theorem appearance_map {f : α → β} (hf : Set.InjOn f {y | y ∈ l}) (hx : x ∈ l) :
    appearance (l.map f) (f x) = appearance l x := by
  rw [appearance, eraseDups_map hf]
  refine idxOf_map (hf.mono fun y hy => ?_)
  rcases List.mem_cons.mp hy with rfl | hy
  · exact hx
  · exact List.mem_eraseDups.mp hy

theorem appearance_injOn (l : List α) : Set.InjOn (appearance l) {x | x ∈ l} :=
  fun _ hx _ _ h => (appearance_inj hx).mp h

/-- **The numbers appear in their order**, without gaps. -/
theorem eraseDups_map_appearance (l : List α) :
    (l.map (appearance l)).eraseDups = List.range l.toFinset.card := by
  rw [eraseDups_map (appearance_injOn l), ← length_eraseDups]
  refine List.ext_getElem (by simp) fun i hi _ => ?_
  rw [List.getElem_map, List.getElem_range]
  exact (nodup_eraseDups l).idxOf_getElem i (by simpa using hi)

end Distsys
