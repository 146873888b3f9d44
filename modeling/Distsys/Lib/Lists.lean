import Mathlib.Algebra.BigOperators.Group.List.Basic
import Mathlib.Algebra.GroupWithZero.Nat
import Mathlib.Data.List.Forall2
import Mathlib.Data.List.Perm.Basic

/-!
# Lists

Facts about lists that several developments use: lists built by a partial function, and lists in
which one element is taken out or replaced.

A list is often a table here, of goroutines, packets, requests or cells, and a step takes one of its
elements and puts others in its place. What is left is then told by membership, by counting or by a
sum over the list; these are the three forms that the lemmas come in.

## Main results

* `mapM_eq_some_iff` — the elements correspond one by one
* `count_map_eraseIdx`, `mem_eraseIdx_of_ne` — the element at a place is taken out
* `forall₂_set`, `sum_map_set` — it is replaced
-/

namespace Distsys

variable {β γ : Type*}

/-! ### Partial functions -/

theorem mapM_eq_some_iff {f : β → Option γ} {l : List β} {m : List γ} :
    l.mapM f = some m ↔ List.Forall₂ (fun b c => f b = some c) l m := by
  induction l generalizing m with
  | nil => simp
  | cons b l ih =>
    rw [List.mapM_cons]
    constructor
    · intro h
      obtain ⟨c, hc, h⟩ := Option.bind_eq_some_iff.mp h
      obtain ⟨m', hm', h⟩ := Option.bind_eq_some_iff.mp h
      cases h
      exact .cons hc (ih.mp hm')
    · intro h
      cases h with
      | cons hc h => simp [hc, ih.mpr h]

theorem mapM_eq_some {f : β → Option γ} {g : β → γ} {l : List β}
    (h : ∀ b ∈ l, f b = some (g b)) : l.mapM f = some (l.map g) :=
  mapM_eq_some_iff.mpr (List.forall₂_map_right_iff.mpr (List.forall₂_same.mpr h))

theorem exists_mapM_eq_some {f : β → Option γ} {l : List β} (h : ∀ b ∈ l, ∃ c, f b = some c) :
    ∃ m, l.mapM f = some m := by
  induction l with
  | nil => exact ⟨[], rfl⟩
  | cons b l ih =>
    obtain ⟨c, hc⟩ := h b List.mem_cons_self
    obtain ⟨m, hm⟩ := ih fun b' hb' => h b' (List.mem_cons_of_mem b hb')
    exact ⟨c :: m, mapM_eq_some_iff.mpr (.cons hc (mapM_eq_some_iff.mp hm))⟩

theorem exists_of_forall₂_left {R : β → γ → Prop} {l : List β} {m : List γ}
    (h : List.Forall₂ R l m) {b : β} (hb : b ∈ l) : ∃ c ∈ m, R b c := by
  induction h with
  | nil => cases hb
  | @cons b' c' l m hR _ ih =>
    rcases List.mem_cons.mp hb with rfl | hb
    · exact ⟨c', List.mem_cons_self, hR⟩
    · obtain ⟨c, hc, hR'⟩ := ih hb
      exact ⟨c, List.mem_cons_of_mem _ hc, hR'⟩

/-- Every element has a value in the result, -/
theorem exists_of_mapM_eq_some {f : β → Option γ} {l : List β} {m : List γ}
    (h : l.mapM f = some m) {b : β} (hb : b ∈ l) : ∃ c ∈ m, f b = some c :=
  exists_of_forall₂_left (mapM_eq_some_iff.mp h) hb

/-- and every value comes from an element. -/
theorem exists_of_mem_mapM {f : β → Option γ} {l : List β} {m : List γ}
    (h : l.mapM f = some m) {c : γ} (hc : c ∈ m) : ∃ b ∈ l, f b = some c :=
  exists_of_forall₂_left (mapM_eq_some_iff.mp h).flip hc

/-! ### Taking one element out -/

section EraseIdx

variable {l : List β} {i : ℕ} {x y : β}

theorem length_eraseIdx (h : l[i]? = some x) : (l.eraseIdx i).length + 1 = l.length :=
  List.length_eraseIdx_add_one (List.getElem?_eq_some_iff.mp h).1

/-- The others are still there. -/
theorem mem_eraseIdx_of_ne (hx : l[i]? = some x) (hy : y ∈ l) (hne : y ≠ x) :
    y ∈ l.eraseIdx i := by
  obtain ⟨j, hj⟩ := List.mem_iff_getElem?.mp hy
  refine List.mem_eraseIdx_iff_getElem?.mpr ⟨j, ?_, hj⟩
  rintro rfl
  exact hne (Option.some.inj (hj.symm.trans hx))

theorem count_map_eraseIdx [DecidableEq γ] (f : β → γ) (h : l[i]? = some x) (c : γ) :
    ((l.eraseIdx i).map f).count c + (if f x = c then 1 else 0) = (l.map f).count c := by
  obtain ⟨hi, rfl⟩ := List.getElem?_eq_some_iff.mp h
  rw [← ((List.getElem_cons_eraseIdx_perm hi).map f).count_eq c, List.map_cons, List.count_cons]
  simp

theorem count_eraseIdx [DecidableEq β] (h : l[i]? = some x) (y : β) :
    (l.eraseIdx i).count y + (if x = y then 1 else 0) = l.count y := by
  simpa using count_map_eraseIdx id h y

end EraseIdx

/-! ### Replacing one element -/

theorem replace_self [DecidableEq β] (b : β) (l : List β) : l.replace b b = l := by
  induction l with
  | nil => rfl
  | cons x l ih =>
    rw [List.replace_cons]
    split
    · rename_i hx
      rw [beq_iff_eq.mp hx]
    · rw [ih]

theorem sum_map_set (f : β → ℕ) {l : List β} {i : ℕ} {x : β} (h : l[i]? = some x) (y : β) :
    ((l.set i y).map f).sum + f x = (l.map f).sum + f y := by
  induction l generalizing i with
  | nil => cases h
  | cons z l ih =>
    cases i with
    | zero =>
      cases h
      simp only [List.set_cons_zero, List.map_cons, List.sum_cons]
      omega
    | succ i =>
      have := ih h
      simp only [List.set_cons_succ, List.map_cons, List.sum_cons]
      omega

theorem forall₂_set {R : β → γ → Prop} {l : List β} {l' : List γ} (h : List.Forall₂ R l l')
    {i : ℕ} {b : β} (hi : l[i]? = some b) :
    ∃ l₁ c l₂, l' = l₁ ++ c :: l₂ ∧ R b c ∧
      ∀ b' c', R b' c' → List.Forall₂ R (l.set i b') (l₁ ++ c' :: l₂) := by
  induction h generalizing i with
  | nil => cases hi
  | cons hbc hl ih =>
    rename_i c l l'
    cases i with
    | zero =>
      cases hi
      exact ⟨[], c, l', rfl, hbc, fun _ _ h => .cons h hl⟩
    | succ i =>
      obtain ⟨l₁, c', l₂, rfl, hR, hset⟩ := ih hi
      exact ⟨c :: l₁, c', l₂, rfl, hR, fun b' c' h => .cons hbc (hset b' c' h)⟩

end Distsys
