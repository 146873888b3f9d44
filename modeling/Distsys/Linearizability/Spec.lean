import Distsys.Lib.Linearization
import Distsys.Linearizability.Linked
import Mathlib.Tactic.IntervalCases

/-!
# What the search is for

The operations of a list of entries are `0` to `n - 1`. One precedes another if its return comes
before the other's call, and the model accepts an order or does not; so a list of entries has
linearizations in the sense of `Linearizable`.

A state of the search stands for a smaller problem: the operations that are not in the bitset, from
the state of the model that the others have led to. The nodes that are still linked are the entries
of these operations.

## Main definitions

* `PairAt`, `Matched`, `Paired` — an operation has one call and, behind it, one return
* `Precedes`, `Model.accept`, `applyOp`
* `unlifted` — the nodes that are left
* `remaining` — the operations that are not in a bitset

## Main results

* `PairAt.exists_pointers` — the two nodes of an operation
* `unlifted_set` — the nodes that are left when an operation is taken out
-/

namespace Distsys

namespace Linearizability

variable {σ ι ο : Type}

/-- There is one call entry for `id`, followed later by one return entry. -/
def PairAt (entries : List (Entry ι ο)) (id : ℕ) : Prop :=
  ∃ input t output t', entries.filter (fun e => e.id = id) =
    [⟨.callEntry input, id, t⟩, ⟨.returnEntry output, id, t'⟩]

/-- Each id has one call entry, followed later by one return entry. -/
def Matched (entries : List (Entry ι ο)) : Prop := ∀ e ∈ entries, PairAt entries e.id

/-- The ids are `0` to `n - 1`, and each has one call entry, followed later by one return entry. -/
structure Paired (n : ℕ) (entries : List (Entry ι ο)) : Prop where
  lt : ∀ e ∈ entries, e.id < n
  pair : ∀ id < n, PairAt entries id

/-- The return of `a` comes before the call of `b`. -/
def Precedes (entries : List (Entry ι ο)) (a b : ℕ) : Prop :=
  ∃ i j : ℕ, i < j ∧ (∃ output t, entries[i]? = some ⟨.returnEntry output, a, t⟩) ∧
    ∃ input t, entries[j]? = some ⟨.callEntry input, b, t⟩

/-- The input of operation `id`. -/
def inputOf (entries : List (Entry ι ο)) (id : ℕ) : Option ι :=
  entries.findSome? fun e => match e.value with
    | .callEntry input => if e.id = id then some input else none
    | .returnEntry _ => none

/-- The output of operation `id`. -/
def outputOf (entries : List (Entry ι ο)) (id : ℕ) : Option ο :=
  entries.findSome? fun e => match e.value with
    | .callEntry _ => none
    | .returnEntry output => if e.id = id then some output else none

/-- `Step` as a partial function. -/
def Model.accept (model : Model σ ι ο) (state : σ) (input : ι) (output : ο) : Option σ :=
  let (ok, newState) := model.step state input output
  if ok then some newState else none

/-- A specification for the input and the output of operation `id`. -/
def applyOp (spec : σ → ι → ο → Option σ) (entries : List (Entry ι ο)) (state : σ) (id : ℕ) :
    Option σ := do
  let input ← inputOf entries id
  let output ← outputOf entries id
  spec state input output

/-! ### The nodes of an operation

Entries are told apart by their place in the list. An operation has two places, that of its call
and, further back, that of its return; since nodes are numbered from the end of the list, the call
has the higher pointer. -/

variable {n : ℕ} {entries : List (Entry ι ο)}

/-- The list around the two entries of an operation. -/
theorem PairAt.split {id : ℕ} (h : PairAt entries id) :
    ∃ A B C input t output t', entries =
        A ++ ⟨.callEntry input, id, t⟩ :: (B ++ ⟨.returnEntry output, id, t'⟩ :: C) ∧
      ∀ e, e ∈ A ∨ e ∈ B ∨ e ∈ C → e.id ≠ id := by
  obtain ⟨input, t, output, t', hfilter⟩ := h
  obtain ⟨A, rest, rfl, hA, -, hrest⟩ := List.filter_eq_cons_iff.mp hfilter
  obtain ⟨B, C, rfl, hB, -, hC⟩ := List.filter_eq_cons_iff.mp hrest
  refine ⟨A, B, C, input, t, output, t', rfl, fun e he => ?_⟩
  rcases he with he | he | he
  · simpa using hA e he
  · simpa using hB e he
  · simpa using List.filter_eq_nil_iff.mp hC e he

/-- An element of a list is the one in the middle, or in front of it, or behind it. -/
theorem getElem?_append_cons {β : Type*} {l₁ l₂ : List β} {a x : β} {p : ℕ}
    (h : (l₁ ++ a :: l₂)[p]? = some x) :
    p = l₁.length ∨ x ∈ l₁ ∨ ∃ k, p = l₁.length + (k + 1) ∧ l₂[k]? = some x := by
  rcases lt_trichotomy p l₁.length with hlt | heq | hgt
  · rw [List.getElem?_append_left hlt] at h
    exact Or.inr (Or.inl (List.mem_of_getElem? h))
  · exact Or.inl heq
  · obtain ⟨k, rfl⟩ := Nat.exists_eq_add_of_lt hgt
    rw [Nat.add_assoc, List.getElem?_append_right (by omega), Nat.add_sub_cancel_left,
      List.getElem?_cons_succ] at h
    exact Or.inr (Or.inr ⟨k, by omega, h⟩)

theorem findSome?_append_of_none {β γ : Type*} {l₁ l₂ : List β} {f : β → Option γ}
    (h : ∀ a ∈ l₁, f a = none) : (l₁ ++ l₂).findSome? f = l₂.findSome? f := by
  rw [List.findSome?_append, List.findSome?_eq_none_iff.mpr h, Option.none_or]

/-- **The two nodes of an operation**: the pointer `c` of its call and, below it, the pointer `r` of
its return. -/
theorem PairAt.exists_pointers {id : ℕ} (h : PairAt entries id) :
    ∃ (c r : ℕ) (input : ι) (t : ℤ) (output : ο) (t' : ℤ), r < c ∧
      entries.reverse[c]? = some ⟨.callEntry input, id, t⟩ ∧
      entries.reverse[r]? = some ⟨.returnEntry output, id, t'⟩ ∧
      (∀ (p : ℕ) e, entries.reverse[p]? = some e → e.id = id → p = c ∨ p = r) ∧
      inputOf entries id = some input ∧ outputOf entries id = some output := by
  obtain ⟨A, B, C, input, t, output, t', rfl, hne⟩ := h.split
  have hA : ∀ e ∈ A, e.id ≠ id := fun e he => hne e (Or.inl he)
  have hB : ∀ e ∈ B, e.id ≠ id := fun e he => hne e (Or.inr (Or.inl he))
  have hC : ∀ e ∈ C, e.id ≠ id := fun e he => hne e (Or.inr (Or.inr he))
  have hrev :
      (A ++ ⟨.callEntry input, id, t⟩ :: (B ++ ⟨.returnEntry output, id, t'⟩ :: C)).reverse =
      C.reverse ++ ⟨.returnEntry output, id, t'⟩ ::
        (B.reverse ++ ⟨.callEntry input, id, t⟩ :: A.reverse) := by simp
  refine ⟨C.length + (B.length + 1), C.length, input, t, output, t', by omega, ?_, ?_,
    fun p e hp he => ?_, ?_, ?_⟩
  · rw [hrev, List.getElem?_append_right (by simp)]
    simp
  · rw [hrev, List.getElem?_append_right (by simp)]
    simp
  · -- any other pointer belongs to `A`, `B` or `C`
    rw [hrev] at hp
    rcases getElem?_append_cons hp with heq | hmem | ⟨k, rfl, hk⟩
    · exact Or.inr (heq.trans List.length_reverse)
    · exact absurd he (hC e (List.mem_reverse.mp hmem))
    · rcases getElem?_append_cons hk with heq | hmem | ⟨l, -, hl⟩
      · rw [heq, List.length_reverse, List.length_reverse]
        exact Or.inl rfl
      · exact absurd he (hB e (List.mem_reverse.mp hmem))
      · exact absurd he (hA e (List.mem_reverse.mp (List.mem_of_getElem? hl)))
  · rw [inputOf, findSome?_append_of_none fun e he => ?_, List.findSome?_cons]
    · simp
    · split
      · rw [if_neg (hA e he)]
      · rfl
  · have hskip : ∀ {l : List (Entry ι ο)}, (∀ e ∈ l, e.id ≠ id) → ∀ l', outputOf (l ++ l') id =
        outputOf l' id := by
      intro l hl l'
      refine findSome?_append_of_none fun e he => ?_
      split
      · rfl
      · rw [if_neg (hl e he)]
    rw [hskip hA, outputOf, List.findSome?_cons]
    refine (hskip hB _).trans ?_
    simp [outputOf]

theorem Paired.id_lt (h : Paired n entries) {p : ℕ} {e : Entry ι ο}
    (he : entries.reverse[p]? = some e) : e.id < n :=
  h.lt e (List.mem_reverse.mp (List.mem_of_getElem? he))

theorem Paired.matched (h : Paired n entries) : Matched entries :=
  fun e he => h.pair e.id (h.lt e he)

/-- A register: an input is a value to write, or nothing for a read. -/
def register : Model ℕ (Option ℕ) ℕ where
  init := 0
  step state input output :=
    match input with
    | none => (output == state, state)
    | some v => (true, v)
  equal s t := s == t

/-- During a write of `1` there is a read of `0`, and then a read of `1`. -/
def registerEntries : List (Entry (Option ℕ) ℕ) :=
  [⟨.callEntry (some 1), 0, 0⟩, ⟨.callEntry none, 1, 1⟩, ⟨.returnEntry 0, 1, 2⟩,
    ⟨.callEntry none, 2, 3⟩, ⟨.returnEntry 1, 2, 4⟩, ⟨.returnEntry 0, 0, 5⟩]

theorem registerEntries_paired : Paired 3 registerEntries := by
  refine ⟨by decide, fun id hid => ?_⟩
  interval_cases id
  · exact ⟨some 1, 0, 0, 5, rfl⟩
  · exact ⟨none, 1, 0, 2, rfl⟩
  · exact ⟨none, 3, 1, 4, rfl⟩

/-- There are two entries for each operation. -/
theorem Paired.length (h : Paired n entries) : entries.length = 2 * n := by
  have hperm : (entries.map Entry.id).Perm (List.range n ++ List.range n) := by
    rw [List.perm_iff_count]
    intro id
    have hcount : (entries.map Entry.id).count id = (entries.filter fun e => e.id = id).length := by
      rw [List.count, List.countP_map, List.countP_eq_length_filter]
      rfl
    rw [hcount, List.count_append]
    by_cases hid : id < n
    · obtain ⟨input, t, output, t', hfilter⟩ := h.pair id hid
      rw [hfilter, List.count_eq_one_of_mem List.nodup_range (List.mem_range.mpr hid)]
      rfl
    · rw [List.count_eq_zero_of_not_mem fun h => hid (List.mem_range.mp h),
        List.filter_eq_nil_iff.mpr]
      · rfl
      · intro e he heq
        exact hid (of_decide_eq_true heq ▸ h.lt e he)
  have hlen := hperm.length_eq
  simp only [List.length_map, List.length_append, List.length_range] at hlen
  omega

theorem Paired.length_div_two (h : Paired n entries) : entries.length / 2 = n := by
  rw [h.length]
  omega

/-- `Precedes` in terms of pointers, which go down along the list. -/
theorem precedes_iff {a b : ℕ} : Precedes entries a b ↔ ∃ r c : ℕ, c < r ∧
    (∃ output t, entries.reverse[r]? = some ⟨.returnEntry output, a, t⟩) ∧
      ∃ input t, entries.reverse[c]? = some ⟨.callEntry input, b, t⟩ := by
  constructor
  · rintro ⟨i, j, hij, ⟨output, t, hi⟩, input, t', hj⟩
    have hlt := (List.getElem?_eq_some_iff.mp hj).1
    refine ⟨entries.length - 1 - i, entries.length - 1 - j, by omega, ⟨output, t, ?_⟩,
      input, t', ?_⟩
    · rw [List.getElem?_reverse (by omega), ← hi]
      congr 1
      omega
    · rw [List.getElem?_reverse (by omega), ← hj]
      congr 1
      omega
  · rintro ⟨r, c, hcr, ⟨output, t, hr⟩, input, t', hc⟩
    have hlt := (List.getElem?_eq_some_iff.mp hr).1
    rw [List.length_reverse] at hlt
    rw [List.getElem?_reverse (by omega)] at hr hc
    exact ⟨_, _, by omega, ⟨output, t, hr⟩, input, t', hc⟩

/-! ### What is left

A bitset and a set of pointers describe the same thing. The nodes that are left are those whose
operation is not in the set, and taking one more operation out removes its two nodes and changes
nothing in the order of the others. -/

/-- The nodes that are left when the operations in `out` are taken out, in the order of the list.
-/
def unlifted (entries : List (Entry ι ο)) (out : ℕ → Bool) : List ℕ :=
  (pointers entries.length).filter fun p => entries.reverse[p]?.any fun e => !out e.id

section Unlifted

variable {out out' : ℕ → Bool} {id : ℕ}

theorem mem_unlifted {p : ℕ} :
    p ∈ unlifted entries out ↔ ∃ e, entries.reverse[p]? = some e ∧ out e.id = false := by
  simp only [unlifted, List.mem_filter, mem_pointers, Option.any_eq_true, Bool.not_eq_true']
  constructor
  · rintro ⟨_, e, he, hb⟩
    exact ⟨e, he, hb⟩
  · rintro ⟨e, he, hb⟩
    refine ⟨?_, e, he, hb⟩
    rw [← List.length_reverse]
    exact (List.getElem?_eq_some_iff.mp he).1

theorem pairwise_unlifted (entries : List (Entry ι ο)) (out : ℕ → Bool) :
    (unlifted entries out).Pairwise (· > ·) :=
  (pairwise_pointers _).filter _

theorem unlifted_none (entries : List (Entry ι ο)) :
    unlifted entries (fun _ => false) = pointers entries.length := by
  refine List.filter_eq_self.mpr fun p hp => ?_
  have hlt : p < entries.reverse.length := by
    rw [List.length_reverse]
    exact mem_pointers.mp hp
  rw [List.getElem?_eq_getElem hlt]
  rfl

theorem filter_of_two {keep : ℕ → Bool} {c r : ℕ} (hc : keep c = false) (hr : keep r = false)
    {X B C : List ℕ} (h : ∀ p ∈ X ++ (B ++ C), keep p = true) :
    (X ++ c :: (B ++ r :: C)).filter keep = X ++ (B ++ C) := by
  rw [List.filter_append, List.filter_cons_of_neg (by simp [hc]), List.filter_append,
    List.filter_cons_of_neg (by simp [hr]), ← List.filter_append, ← List.filter_append,
    List.filter_eq_self.mpr h]

/-- The two nodes of an operation are taken out. -/
theorem unlifted_set (hout : ∀ p, out' p = (decide (p = id) || out p)) {c r : ℕ}
    (huniq : ∀ (p : ℕ) e, entries.reverse[p]? = some e → e.id = id → p = c ∨ p = r)
    (hc : ∃ e, entries.reverse[c]? = some e ∧ e.id = id)
    (hr : ∃ e, entries.reverse[r]? = some e ∧ e.id = id) {X B C : List ℕ}
    (hleft : unlifted entries out = X ++ c :: (B ++ r :: C)) :
    unlifted entries out' = X ++ (B ++ C) := by
  have hfilter : unlifted entries out' =
      (unlifted entries out).filter fun p => entries.reverse[p]?.any fun e => e.id ≠ id := by
    rw [unlifted, unlifted, List.filter_filter]
    refine List.filter_congr fun p _ => ?_
    rcases entries.reverse[p]? with _ | e
    · rfl
    · by_cases he : e.id = id <;> simp [hout, he]
  have hperm : (X ++ c :: (B ++ r :: C)).Perm (c :: r :: (X ++ (B ++ C))) := by
    refine List.perm_middle.trans (List.Perm.cons c ?_)
    rw [← List.append_assoc, ← List.append_assoc]
    exact List.perm_middle
  have hnodup : (c :: r :: (X ++ (B ++ C))).Nodup :=
    hperm.nodup (hleft ▸ (pairwise_unlifted entries out).imp ne_of_gt)
  obtain ⟨hcX, hrX⟩ := List.nodup_cons.mp hnodup
  have hdrop : ∀ {p : ℕ}, (∃ e, entries.reverse[p]? = some e ∧ e.id = id) →
      (entries.reverse[p]?.any fun e => e.id ≠ id) = false := by
    rintro p ⟨e, he, hid⟩
    simp [he, hid]
  rw [hfilter, hleft]
  refine filter_of_two (hdrop hc) (hdrop hr) fun p hp => ?_
  obtain ⟨e, he, -⟩ := mem_unlifted.mp (hleft ▸ hperm.mem_iff.mpr
    (List.mem_cons_of_mem _ (List.mem_cons_of_mem _ hp)))
  rw [he, Option.any_some, decide_eq_true_eq]
  intro hid
  rcases huniq p e he hid with rfl | rfl
  · exact hcX (List.mem_cons_of_mem _ hp)
  · exact (List.nodup_cons.mp hrX).1 hp

end Unlifted

/-- The operations that are left. -/
def remaining (n : ℕ) (b : Bitset) : List ℕ := (List.range n).filter fun id => !b.contains id

variable {b b' : Bitset} {id : ℕ}

theorem mem_remaining : id ∈ remaining n b ↔ id < n ∧ b.contains id = false := by
  simp [remaining]

theorem nodup_remaining (n : ℕ) (b : Bitset) : (remaining n b).Nodup := List.nodup_range.filter _

/-- An operation is taken out. -/
theorem remaining_set (hb : ∀ p, b'.contains p = (decide (p = id) || b.contains p)) :
    remaining n b' = (remaining n b).erase id := by
  rw [(nodup_remaining n b).erase_eq_filter, remaining, remaining, List.filter_filter]
  refine List.filter_congr fun p _ => ?_
  rw [hb p]
  by_cases hp : p = id <;> simp [hp]

theorem length_remaining_set (hb : ∀ p, b'.contains p = (decide (p = id) || b.contains p))
    (hid : id ∈ remaining n b) : (remaining n b').length + 1 = (remaining n b).length := by
  rw [remaining_set hb, List.length_erase_of_mem hid]
  have := List.length_pos_of_mem hid
  omega

/-- Without nodes there are no operations. -/
theorem Paired.remaining_eq_nil (h : Paired n entries) (hrest : unlifted entries b.contains = []) :
    remaining n b = [] := by
  refine List.eq_nil_iff_forall_not_mem.mpr fun id hid => ?_
  obtain ⟨hlt, hnot⟩ := mem_remaining.mp hid
  obtain ⟨c, _, _, _, _, _, _, hc, _⟩ := (h.pair _ hlt).exists_pointers
  exact List.not_mem_nil (hrest ▸ mem_unlifted.mpr ⟨_, hc, hnot⟩)

/-- When the search has met nothing but calls before the call of `id`, no operation that is left
precedes `id`. -/
theorem Paired.not_precedes (h : Paired n entries) {X Y : List ℕ} {p : ℕ} {input : ι} {t : ℤ}
    (hrest : unlifted entries b.contains = X ++ p :: Y)
    (hX : ∀ x ∈ X, ∃ e input, entries.reverse[x]? = some e ∧ e.value = .callEntry input)
    (hp : entries.reverse[p]? = some ⟨.callEntry input, id, t⟩) (hid : id < n) {a : ℕ}
    (ha : a ∈ remaining n b) : ¬ Precedes entries a id := by
  intro hprec
  obtain ⟨r, c, hcr, ⟨output, t', hr⟩, input', t'', hc⟩ := precedes_iff.mp hprec
  -- `p` and `c` are both the call of `id`
  obtain ⟨c₀, r₀, _, _, output₀, _, _, _, hr₀, huniq, _, _⟩ := (h.pair _ hid).exists_pointers
  have hcall : ∀ {q input t}, entries.reverse[q]? = some ⟨.callEntry input, id, t⟩ → q = c₀ := by
    intro q input t hq
    rcases huniq q _ hq rfl with rfl | rfl
    · rfl
    · cases hr₀.symm.trans hq
  obtain rfl : c = p := (hcall hc).trans (hcall hp).symm
  -- the return of `a` is before it in the list
  have hmem : r ∈ X ++ c :: Y := hrest ▸ mem_unlifted.mpr ⟨_, hr, (mem_remaining.mp ha).2⟩
  rcases List.mem_append.mp hmem with hmem | hmem
  · obtain ⟨e, input, he, hv⟩ := hX r hmem
    cases hr.symm.trans he
    cases hv
  · rcases List.mem_cons.mp hmem with rfl | hmem
    · omega
    · have hpw := hrest ▸ pairwise_unlifted entries b.contains
      have := (List.pairwise_cons.mp (List.pairwise_append.mp hpw).2.1).1 r hmem
      omega

end Linearizability

end Distsys
