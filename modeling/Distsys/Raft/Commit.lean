import Mathlib.Algebra.Ring.Parity
import Mathlib.Data.Finset.Card
import Mathlib.Data.Fintype.Card
import Distsys.Raft.InFlight

/-!
# The commit phase

`heartbeat` sorts a copy of `matchIndex` in which the leader's slot is `0`, and takes the entry at
index `⌈n/2⌉` of the ascending order. A positive index is at most this entry just if it is matched
by so many other peers that they and the leader are more than half of all peers.

## The index of the order statistic

With the leader's own slot at zero, the sorted list has `n` entries of which the first is zero. The
entry at index `⌈n/2⌉` has `n - ⌈n/2⌉ - 1` entries behind it, and together with itself and the
leader these are `n - ⌈n/2⌉ + 1` peers, which is more than half of `n` for even and for odd `n`.

## Main definitions

* `Raft.matched` — the leader and the peers that have acknowledged an index

## Main results

* `Raft.le_sortedMatchIndex_iff`
* `Raft.matchIndex_of_adjustIndices`, `Runs.matchIndex_cases` — where the entries of `matchIndex`
  come from
-/

namespace Distsys

/-- An order statistic of a list in ascending order, as a count: the entry at `j` is at least `i`
just if as many members of the list are at least `i` as there are from `j` on. -/
theorem le_getElem_iff_le_countP {β : Type} [LinearOrder β] {s : List β} (hs : s.Pairwise (· ≤ ·))
    {j : ℕ} {m i : β} (hj : s[j]? = some m) : i ≤ m ↔ s.length - j ≤ s.countP (i ≤ ·) := by
  obtain ⟨hlt, rfl⟩ := List.getElem?_eq_some_iff.mp hj
  constructor
  · intro him
    have hall : ∀ x ∈ s.drop j, decide (i ≤ x) = true := by
      have hpair := hs.sublist (List.drop_sublist j s)
      rw [List.drop_eq_getElem_cons hlt] at hpair ⊢
      intro x hx
      rcases List.mem_cons.mp hx with rfl | hx
      · exact decide_eq_true him
      · exact decide_eq_true (him.trans ((List.pairwise_cons.mp hpair).1 x hx))
    calc s.length - j = (s.drop j).length := (List.length_drop ..).symm
      _ = (s.drop j).countP (i ≤ ·) := (List.countP_eq_length.mpr hall).symm
      _ ≤ s.countP (i ≤ ·) := (List.drop_sublist j s).countP_le
  · intro hcount
    by_contra him
    -- Nothing up to `j` counts.
    have hnone : (s.take (j + 1)).countP (i ≤ ·) = 0 := by
      refine List.countP_eq_zero.mpr fun x hx => ?_
      obtain ⟨l, hl, rfl⟩ := List.mem_take_iff_getElem.mp hx
      have hle : s[l] ≤ s[j] := by
        rcases eq_or_ne l j with rfl | hne
        · exact le_refl _
        · exact List.pairwise_iff_getElem.mp hs l j (by omega) hlt (by omega)
      simpa using hle.trans_lt (not_le.mp him)
    have hrest := List.countP_le_length (p := (i ≤ ·)) (l := s.drop (j + 1))
    rw [← List.take_append_drop (j + 1) s, List.countP_append, hnone, List.take_append_drop]
      at hcount
    rw [List.length_drop] at hrest
    omega

/-- The number of members of a list of length `n` that satisfy a condition, as a set of indices. -/
theorem countP_eq_card {n : ℕ} {l : List ℤ} (hl : l.length = n) (i : ℤ) :
    l.countP (i ≤ ·) = (Finset.univ.filter fun F : Fin n => i ≤ l.get (F.cast hl.symm)).card := by
  subst hl
  have hmap : l = (List.finRange l.length).map l.get := by simp
  conv_lhs => rw [hmap, List.countP_map]
  rw [← List.toFinset_finRange, List.Nodup.card_eq_countP (List.nodup_finRange _)]
  rfl

variable {n : ℕ} {α : Type} {gob : Labgob n α} {rf : Raft n α}

namespace Raft

/-- The copy of `matchIndex` that is sorted. -/
theorem length_sortedMatchIndex (rf : Raft n α) :
    ((rf.matchIndex.take n ++ List.replicate (n - rf.matchIndex.length) 0).set rf.me 0).length =
      n := by
  simp
  omega

/-- The positive entries of the copy are those of `matchIndex` without the leader's. -/
theorem copied_eq_some_iff {F : Fin n} {x : ℤ} (hx : 0 < x) :
    ((rf.matchIndex.take n ++ List.replicate (n - rf.matchIndex.length) 0).set rf.me 0)[
      (F : ℕ)]? = some x ↔ F ≠ rf.me ∧ GoSlice.get rf.matchIndex (F : ℕ) = some x := by
  rw [List.getElem?_set, GoSlice.get_natCast]
  by_cases hF : F = rf.me
  · subst hF
    rw [if_pos rfl]
    constructor
    · intro h
      split at h
      · cases h
        exact absurd hx (lt_irrefl 0)
      · cases h
    · exact fun h => absurd rfl h.1
  · rw [if_neg fun h => hF (Fin.ext h.symm)]
    simp only [ne_eq, hF, not_false_eq_true, true_and]
    rcases Nat.lt_or_ge F (rf.matchIndex.take n).length with hlt | hge
    · rw [List.getElem?_append_left hlt, List.getElem?_take_of_lt F.isLt]
    · rw [List.getElem?_append_right hge]
      have hnone : rf.matchIndex[(F : ℕ)]? = none := by
        have := F.isLt
        rw [List.length_take] at hge
        exact List.getElem?_eq_none (by omega)
      rw [hnone]
      refine iff_of_false (fun h => ?_) nofun
      cases List.eq_of_mem_replicate (List.mem_of_getElem? h)
      exact lt_irrefl 0 hx

/-- The peers that hold the log up to index `i` for all the leader knows: itself, and those whose
`matchIndex` is at least `i`. -/
def matched (rf : Raft n α) (i : ℤ) : Finset (Fin n) :=
  insert rf.me (Finset.univ.filter fun F => ∃ k ∈ GoSlice.get rf.matchIndex (F : ℕ), i ≤ k)

theorem mem_matched {F : Fin n} {i : ℤ} : F ∈ rf.matched i ↔
    F = rf.me ∨ ∃ k, GoSlice.get rf.matchIndex (F : ℕ) = some k ∧ i ≤ k := by
  simp [matched]

/-- **The commit phase asks for more than half of the peers**, for any number of them. -/
theorem le_sortedMatchIndex_iff {m i : ℤ}
    (h : GoSlice.get rf.sortedMatchIndex ((n + 1) / 2 : ℕ) = some m) (hi : 0 < i) :
    i ≤ m ↔ n < 2 * (rf.matched i).card := by
  rw [GoSlice.get_natCast, sortedMatchIndex] at h
  have hlen := rf.length_sortedMatchIndex
  have hcopied := @copied_eq_some_iff n α rf
  generalize (rf.matchIndex.take n ++ List.replicate (n - rf.matchIndex.length) 0).set rf.me 0 = l
    at h hlen hcopied
  have hget : ∀ F : Fin n, l[(F : ℕ)]? = some (l.get (F.cast hlen.symm)) :=
    fun F => List.getElem?_eq_getElem _
  have hcard : (rf.matched i).card = l.countP (i ≤ ·) + 1 := by
    rw [countP_eq_card hlen, ← Finset.card_insert_of_notMem (a := rf.me)]
    · congr 1
      ext F
      rw [mem_matched, Finset.mem_insert, Finset.mem_filter]
      refine or_congr_right' fun hF => ⟨?_, ?_⟩
      · rintro ⟨k, hk, hik⟩
        have := (hget F).symm.trans ((hcopied (hi.trans_le hik)).mpr ⟨hF, hk⟩)
        exact ⟨Finset.mem_univ F, (Option.some.inj this).symm ▸ hik⟩
      · rintro ⟨_, hik⟩
        exact ⟨_, ((hcopied (hi.trans_le hik)).mp (hget F)).2, hik⟩
    · intro hme
      have hik := (Finset.mem_filter.mp hme).2
      exact ((hcopied (hi.trans_le hik)).mp (hget rf.me)).1 rfl
  rw [le_getElem_iff_le_countP (List.pairwise_insertionSort _ l) h, List.length_insertionSort,
    hlen, (List.perm_insertionSort _ l).countP_eq, hcard]
  omega

theorem majority_le_matched {m i : ℤ}
    (h : GoSlice.get rf.sortedMatchIndex ((n + 1) / 2 : ℕ) = some m) (hi : 0 < i) (him : i ≤ m) :
    majority n ≤ (rf.matched i).card := by
  have := (le_sortedMatchIndex_iff h hi).mp him
  rw [majority]
  omega

/-- An entry of `matchIndex` after the loop was there before, or is the `myLastIndex` of the
heartbeat and comes with a successful reply. -/
theorem matchIndex_of_adjustIndices {rf' : Raft n α} {myLastIndex : ℤ}
    {replies : List AppendEntriesReply} (h : rf.adjustIndices myLastIndex replies = some rf')
    {F : Fin n} {k : ℤ} (hk : GoSlice.get rf'.matchIndex (F : ℕ) = some k) :
    GoSlice.get rf.matchIndex (F : ℕ) = some k ∨
      k = myLastIndex ∧ ∃ reply, replies[(F : ℕ)]? = some reply ∧ reply.success = true := by
  refine adjustIndices_induction (P := fun r => ∀ k, GoSlice.get r.matchIndex (F : ℕ) = some k →
    GoSlice.get rf.matchIndex (F : ℕ) = some k ∨
      k = myLastIndex ∧ ∃ reply, replies[(F : ℕ)]? = some reply ∧ reply.success = true) h
    (fun k hk => Or.inl hk) ?_ k hk
  intro ID _ r r' hr hadjust k hk
  obtain ⟨reply, hreply, hadjust⟩ := Option.bind_eq_some_iff.mp hadjust
  split at hadjust
  · rename_i hsuccess
    obtain ⟨ni, _, hadjust⟩ := Option.bind_eq_some_iff.mp hadjust
    obtain ⟨mi, hmi, hadjust⟩ := Option.bind_eq_some_iff.mp hadjust
    cases hadjust
    obtain ⟨j, hj, hjlt, rfl⟩ := GoSlice.set_eq_some_iff.mp hmi
    obtain rfl := Int.ofNat.inj hj
    rw [GoSlice.get_natCast] at hreply
    simp only [GoSlice.get_natCast, List.getElem?_set] at hk
    split at hk
    · rename_i hID
      exact Or.inr ⟨(Option.some.inj hk).symm, reply, hID ▸ hreply, hsuccess⟩
    · exact hr k (by simpa using hk)
  · split at hadjust
    · obtain ⟨ni, _, hadjust⟩ := Option.bind_eq_some_iff.mp hadjust
      cases hadjust
      exact hr k hk
    · cases hadjust
      exact hr k hk

end Raft

/-- What a critical section does to `matchIndex`. -/
theorem Runs.matchIndex_cases {gr : Goroutine n α} {e : Effect n α} (h : Runs gob rf gr e) :
    e.rf.matchIndex = rf.matchIndex ∨ e.rf.matchIndex = List.replicate n 0 ∨
      ∃ beat replies, gr = .heartbeatSleep beat replies ∧ rf.phase = .leader ∧
        ∀ (F : Fin n) (k : ℤ), GoSlice.get e.rf.matchIndex (F : ℕ) = some k →
          GoSlice.get rf.matchIndex (F : ℕ) = some k ∨
            k = beat.myLastIndex ∧ ∃ reply, replies[(F : ℕ)]? = some reply ∧
              reply.success = true := by
  cases h with
  | initLeader => exact Or.inr (Or.inl rfl)
  | commit hl hadjust hcommit =>
    refine Or.inr (Or.inr ⟨_, _, rfl, hl, fun F k hk => ?_⟩)
    refine Raft.matchIndex_of_adjustIndices hadjust ?_
    rcases Raft.commitPhase_eq_some hcommit with ⟨rfl, _⟩ | ⟨_, _, _, _, rfl, _⟩
    · exact hk
    · exact hk
  | applyEntries h =>
    obtain rfl := Raft.applyEntries_eq_some h
    exact Or.inl rfl
  | merge _ _ hr =>
    obtain ⟨_, _, _, rfl⟩ := Raft.mergeLog_eq_some hr
    exact Or.inl rfl
  | react | ignore | demote | demoteSame => exact Or.inl (by simp)
  | _ => exact Or.inl rfl

end Distsys
