import Mathlib.Data.Fintype.Fin
import Mathlib.Logic.Relation
import Mathlib.Order.Lattice.Nat
import Distsys.Raft.Commit
import Distsys.Raft.Election
import Distsys.Raft.UnaryGob

/-!
# Quorums

Two places of the source count peers. `callElection` takes `⌈n/2⌉` votes for a majority, and for an
even number of peers that is half of them: two disjoint halves can both elect a leader. The commit
phase of `heartbeat` takes an order statistic of `matchIndex` instead, which asks for more than half
of the peers whatever `n` is, so what is committed is known to somebody in every quorum of an
election.

## Counting with an order statistic

The commit phase does not count peers for a given index. It sorts `matchIndex` and takes the entry
at the index `⌈n/2⌉`; that as many peers have matched this entry follows from its place in the
sorted list. The code then goes down from there to an entry of the current term.

## Main definitions

* `Raft.countVotes` — the loop of `callElection` that awaits votes
* `Raft.Wins`, `QuorumsIntersect` — the sets of votes that win an election, and what they should
  have in common
* `Raft.Committable` — the indices that a leader may commit

## Main results

* `Raft.countVotes_runs`, `Raft.wins_iff`
* `quorumsIntersect_iff_odd`
* `Raft.commitPhase_rule`
-/

namespace Distsys

variable {n : ℕ} {α : Type}

/-! ### Elections

The loop receives one vote from each peer, its own included, and leaves as soon as it has enough.
Who wins depends only on the set of peers that vote, not on the order in which the votes come in. -/

namespace Raft

/-- The loop of `callElection` that awaits votes, from round `i` on: its last `voteCount`, for the
votes in the order in which they are received, or `none` if it still waits after the last one. -/
def countVotes (n : ℕ) : ℕ → ℕ → List Bool → Option ℕ
  | _, _, [] => none
  | i, voteCount, vote :: votes =>
    let voteCount := if vote then voteCount + 1 else voteCount
    if voteCount ≥ majority n ∨ i + 1 ≥ n then some voteCount
    else countVotes n (i + 1) voteCount votes

/-- The goroutine of `callElection` counts like this. -/
theorem countVotes_runs (gob : Labgob n α) (rf : Raft n α) (election : ℕ) {i voteCount k : ℕ}
    {votes : List Bool} (h : countVotes n i voteCount votes = some k) :
    Relation.ReflTransGen
      (fun gr gr' : Goroutine n α => gr.run gob rf = some (.ok { rf, next := [gr'] }))
      (.awaitVotes election i voteCount votes) (.candidateCheck election k) := by
  induction votes generalizing i voteCount with
  | nil => cases h
  | cons vote votes ih =>
    rw [countVotes] at h
    by_cases hend : (if vote then voteCount + 1 else voteCount) ≥ majority n ∨ i + 1 ≥ n
    · rw [if_pos hend] at h
      cases h
      refine .single ?_
      show some (Except.ok (rf.runVote election i voteCount vote votes)) = _
      rw [runVote, if_pos hend]
    · rw [if_neg hend] at h
      refine .head ?_ (ih h)
      show some (Except.ok (rf.runVote election i voteCount vote votes)) = _
      rw [runVote, if_neg hend]

theorem countVotes_le {i voteCount k : ℕ} {votes : List Bool}
    (h : countVotes n i voteCount votes = some k) : k ≤ voteCount + votes.count true := by
  induction votes generalizing i voteCount with
  | nil => cases h
  | cons vote votes ih =>
    rw [countVotes] at h
    rw [← count_vote]
    by_cases hend : (if vote then voteCount + 1 else voteCount) ≥ majority n ∨ i + 1 ≥ n
    · rw [if_pos hend] at h
      cases h
      exact Nat.le_add_right _ _
    · rw [if_neg hend] at h
      exact ih h

/-- If there are at most `n` votes, and a majority of them are granted, the loop finds it. -/
theorem countVotes_majority {i voteCount : ℕ} {votes : List Bool} (hi : i + votes.length ≤ n)
    (hlt : voteCount < majority n) (h : majority n ≤ voteCount + votes.count true) :
    ∃ k, countVotes n i voteCount votes = some k ∧ majority n ≤ k := by
  induction votes generalizing i voteCount with
  | nil =>
    simp only [List.count_nil] at h
    omega
  | cons vote votes ih =>
    rw [List.length_cons] at hi
    rw [← count_vote] at h
    rw [countVotes]
    by_cases hc : majority n ≤ if vote then voteCount + 1 else voteCount
    · exact ⟨_, if_pos (Or.inl hc), hc⟩
    · have hlast : ¬ i + 1 ≥ n := by
        intro hge
        have : votes = [] := List.length_eq_zero_iff.mp (by omega)
        subst this
        exact hc h
      rw [if_neg (not_or.mpr ⟨hc, hlast⟩)]
      exact ih (by omega) (not_le.mp hc) h

/-- The votes of the peers in `Q` win the election: `callElection` receives votes, each peer's at
most once, and its `voteCount` reaches the majority. -/
def Wins (Q : Finset (Fin n)) : Prop :=
  ∃ voters : List (Fin n), voters.Nodup ∧
    ∃ voteCount, countVotes n 0 0 (voters.map fun v => decide (v ∈ Q)) = some voteCount ∧
      majority n ≤ voteCount

theorem wins_iff (hn : 1 ≤ n) {Q : Finset (Fin n)} : Wins Q ↔ majority n ≤ Q.card := by
  constructor
  · rintro ⟨voters, hnodup, k, hk, hmaj⟩
    have hcount : (voters.map fun v => decide (v ∈ Q)).count true ≤ Q.card := by
      rw [List.count, List.countP_map, List.countP_eq_length_filter]
      refine (List.toFinset_card_of_nodup (hnodup.filter _)).symm.trans_le
        (Finset.card_le_card fun v hv => ?_)
      simpa using (List.mem_filter.mp (List.mem_toFinset.mp hv)).2
    have := countVotes_le hk
    omega
  · intro hQ
    have hall : (Q.toList.map fun v => decide (v ∈ Q)) = List.replicate Q.card true := by
      refine List.eq_replicate_iff.mpr ⟨by simp, fun b hb => ?_⟩
      obtain ⟨v, hv, rfl⟩ := List.mem_map.mp hb
      exact decide_eq_true (Finset.mem_toList.mp hv)
    refine ⟨Q.toList, Q.nodup_toList, ?_⟩
    rw [hall]
    refine countVotes_majority ?_ ?_ ?_
    · simpa using Finset.card_le_univ Q
    · rw [majority]
      omega
    · simpa using hQ

end Raft

/-- What the elections of a term rely on. -/
structure QuorumsIntersect (n : ℕ) : Prop where
  /-- Two sets of peers whose votes win have a peer in common. -/
  inter : ∀ Q Q' : Finset (Fin n), Raft.Wins Q → Raft.Wins Q' → ∃ v ∈ Q, v ∈ Q'
  /-- If every peer votes once, two candidates, who vote for themselves, do not both win. -/
  unique : ∀ (votedFor : Fin n → Option (Fin n)) (a b : Fin n),
    votedFor a = some a → votedFor b = some b →
    Raft.Wins (Finset.univ.filter fun v => votedFor v = some a) →
    Raft.Wins (Finset.univ.filter fun v => votedFor v = some b) → a = b

/-- Half of an even number of peers wins. -/
theorem wins_half {k : ℕ} (hk : 1 ≤ k) {Q : Finset (Fin (k + k))} (hQ : Q.card = k) :
    Raft.Wins Q := by
  rw [Raft.wins_iff (by omega), Raft.majority]
  omega

/-- **Election quorums intersect for an odd number of peers only.** -/
theorem quorumsIntersect_iff_odd (n : ℕ) (hn : 1 ≤ n) : QuorumsIntersect n ↔ Odd n := by
  constructor
  · intro h
    by_contra heven
    obtain ⟨k, rfl⟩ := Nat.not_odd_iff_even.mp heven
    -- The lower and the upper half of the peers.
    have hcard : (Finset.univ.filter fun v : Fin (k + k) => (v : ℕ) < k).card = k := by
      rw [Fin.card_filter_val_lt]
      omega
    have hcard' : (Finset.univ.filter fun v : Fin (k + k) => (v : ℕ) < k)ᶜ.card = k := by
      rw [Finset.card_compl, hcard, Fintype.card_fin]
      omega
    obtain ⟨v, hv, hv'⟩ := h.inter _ _ (wins_half (by omega) hcard) (wins_half (by omega) hcard')
    exact Finset.mem_compl.mp hv' hv
  · intro hodd
    have hinter : ∀ Q Q' : Finset (Fin n), Raft.Wins Q → Raft.Wins Q' → ∃ v ∈ Q, v ∈ Q' := by
      intro Q Q' hQ hQ'
      exact Cluster.majority_inter hodd ((Raft.wins_iff hn).mp hQ) ((Raft.wins_iff hn).mp hQ')
    refine ⟨hinter, fun votedFor a b _ _ ha hb => ?_⟩
    obtain ⟨v, hv, hv'⟩ := hinter _ _ ha hb
    have hva := (Finset.mem_filter.mp hv).2
    have hvb := (Finset.mem_filter.mp hv').2
    exact Option.some.inj (hva.symm.trans hvb)

theorem quorumsIntersect_iff_odd_three : QuorumsIntersect 3 :=
  (quorumsIntersect_iff_odd 3 (by decide)).mpr (by decide)

namespace Cluster

/-- The runs of `halvesRun` are runs of two peers. -/
instance twoPeers : NeZero 2 :=
  ⟨Nat.succ_ne_zero 1⟩

/-- Two peers start, and each elects itself for term `1` with its own vote. -/
def halvesRun : List (Action 2 ℕ) :=
  [.make 0, .make 1, .run 0 0, .timeout 0 0, .run 0 0, .run 0 0, .run 0 0, .run 0 1, .run 0 1,
    .run 1 0, .timeout 1 0, .run 1 0, .run 1 0, .run 1 0, .run 1 1, .run 1 1]

/-- **Of two peers both win**: the quorums are disjoint, and `halvesRun` ends with two leaders of
term `1`. -/
theorem halvesRun_two_leaders :
    (Raft.Wins ({0} : Finset (Fin 2)) ∧ Raft.Wins ({1} : Finset (Fin 2)) ∧
      ¬ ∃ v : Fin 2, v ∈ ({0} : Finset (Fin 2)) ∧ v ∈ ({1} : Finset (Fin 2))) ∧
    ∃ c rf₀ rf₁ gs₀ gs₁,
      (system (Labgob.unary 2)).exec (system (Labgob.unary 2)).start halvesRun = some c ∧
      c.state.node 0 = .up rf₀ gs₀ ∧ c.state.node 1 = .up rf₁ gs₁ ∧
      (rf₀.phase = .leader ∧ rf₀.currentTerm = 1) ∧ rf₁.phase = .leader ∧ rf₁.currentTerm = 1 := by
  refine ⟨⟨⟨[0], by simp, 1, by decide, by decide⟩, ⟨[1], by simp, 1, by decide, by decide⟩,
    by decide⟩, ?_⟩
  obtain ⟨c, hc, h⟩ := exists_of_exec (Labgob.unary 2) halvesRun
    (fun c => (c.state.node 0).check (fun rf => decide (rf.phase = .leader ∧ rf.currentTerm = 1)) &&
      (c.state.node 1).check fun rf => decide (rf.phase = .leader ∧ rf.currentTerm = 1))
    (by decide +kernel)
  obtain ⟨rf₀, rf₁, gs₀, gs₁, hnd₀, hnd₁, h₀, h₁⟩ := Node.exists_of_checks h
  exact ⟨c, rf₀, rf₁, gs₀, gs₁, hc, hnd₀, hnd₁, h₀, h₁⟩

end Cluster

/-! ### Commitment

The order statistic, the comparison with `commitIndex` and the check of the term together say that
the index is one that may be committed, and that there is no higher one. -/

namespace Raft

variable {rf : Raft n α}

/-- The entry at index `i` has the current term. -/
def CurrentAt (rf : Raft n α) (i : ℤ) : Prop :=
  ∃ e, GoSlice.get rf.log i = some e ∧ e.term = rf.currentTerm

/-- The scan of the commit phase returns the last index of the current term in its range. -/
theorem commitScan_spec (rf : Raft n α) {i : ℤ} {k : ℕ}
    (h : ∀ j, i - k < j → j ≤ i → 0 ≤ j ∧ j < rf.log.length) :
    (rf.commitScan i k = some none ∧ ∀ j, i - k < j → j ≤ i → ¬ rf.CurrentAt j) ∨
      ∃ j, rf.commitScan i k = some (some j) ∧ i - k < j ∧ j ≤ i ∧ rf.CurrentAt j ∧
        ∀ j', j < j' → j' ≤ i → ¬ rf.CurrentAt j' := by
  induction k generalizing i with
  | zero => exact Or.inl ⟨rfl, fun j hj hji => by omega⟩
  | succ k ih =>
    obtain ⟨h₀, hlt⟩ := h i (by omega) (le_refl i)
    obtain ⟨e, he⟩ := GoSlice.get_isSome h₀ hlt
    rw [commitScan, he]
    dsimp only
    by_cases ht : e.term = rf.currentTerm
    · rw [if_pos ht]
      exact Or.inr ⟨i, rfl, by omega, le_refl i, ⟨e, he, ht⟩, fun j' hj hji => by omega⟩
    · rw [if_neg ht]
      have hi : ¬ rf.CurrentAt i := by
        rintro ⟨e', he', ht'⟩
        cases he.symm.trans he'
        exact ht ht'
      rcases ih (i := i - 1) fun j hj hji => h j (by omega) (by omega) with
        ⟨hscan, hnone⟩ | ⟨j, hscan, hj, hji, hcur, hlast⟩
      · refine Or.inl ⟨hscan, fun j hj hji => ?_⟩
        rcases eq_or_ne j i with rfl | hne
        · exact hi
        · exact hnone j (by omega) (by omega)
      · refine Or.inr ⟨j, hscan, by omega, by omega, hcur, fun j' hj' hji' => ?_⟩
        rcases eq_or_ne j' i with rfl | hne
        · exact hi
        · exact hlast j' hj' (by omega)

/-- The commit phase of two or more peers does not panic, and raises `commitIndex` to the last index
of the current term that is at most the order statistic, if there is one. -/
theorem commitPhase_spec (hn : 2 ≤ n) (rf : Raft n α) (hcommit : 0 ≤ rf.commitIndex) :
    ∃ m, GoSlice.get rf.sortedMatchIndex ((n + 1) / 2 : ℕ) = some m ∧
      ((rf.commitPhase = some (rf, false) ∧
          ∀ j, rf.commitIndex < j → j ≤ m → ¬ rf.CurrentAt j) ∨
        ∃ i, rf.commitPhase = some ({ rf with commitIndex := i }, true) ∧ rf.commitIndex < i ∧
          i ≤ m ∧ rf.CurrentAt i ∧ ∀ j, i < j → j ≤ m → ¬ rf.CurrentAt j) := by
  have hlen : rf.sortedMatchIndex.length = n :=
    (List.length_insertionSort ..).trans rf.length_sortedMatchIndex
  obtain ⟨m, hm⟩ := GoSlice.get_isSome (s := rf.sortedMatchIndex) (i := ((n + 1) / 2 : ℕ))
    (by omega) (by omega)
  refine ⟨m, hm, ?_⟩
  -- An index of an entry is not cut off by `len(rf.log)-1`.
  have hcut : ∀ j, j ≤ m → rf.CurrentAt j → j ≤ min m (rf.log.length - 1) := by
    rintro j hjm ⟨e, he, _⟩
    have := GoSlice.get_lt he
    omega
  rcases commitScan_spec rf (i := min m (rf.log.length - 1))
      (k := (min m (rf.log.length - 1) - rf.commitIndex).toNat) (by omega) with
    ⟨hscan, hnone⟩ | ⟨i, hscan, hi, him, hcur, hlast⟩
  · refine Or.inl ⟨?_, fun j hj hjm hcur => ?_⟩
    · simp only [commitPhase, hm, hscan, Option.bind_eq_bind, Option.bind_some]
      rfl
    · have := hcut j hjm hcur
      exact hnone j (by omega) this hcur
  · refine Or.inr ⟨i, ?_, by omega, by omega, hcur, fun j hj hjm hcur' => ?_⟩
    · simp only [commitPhase, hm, hscan, Option.bind_eq_bind, Option.bind_some]
      rfl
    · exact hlast j hj (hcut j hjm hcur') hcur'

/-- The commit phase of two or more peers changes `commitIndex` at most. -/
theorem commitPhase_isSome (hn : 2 ≤ n) (rf : Raft n α) (hcommit : 0 ≤ rf.commitIndex) :
    ∃ commitIndex commits, rf.commitPhase = some ({ rf with commitIndex }, commits) := by
  obtain ⟨_, _, ⟨hphase, _⟩ | ⟨i, hphase, _⟩⟩ := commitPhase_spec hn rf hcommit
  · exact ⟨rf.commitIndex, false, hphase⟩
  · exact ⟨i, true, hphase⟩

/-- A leader may commit index `N`: it holds an entry of the current term, and more than half of the
peers have matched it. -/
structure Committable (rf : Raft n α) (N : ℕ) : Prop where
  pos : 1 ≤ N
  /-- Entries of earlier terms are committed by later ones, never by counting. -/
  current : ∃ e, rf.log[N]? = some e ∧ e.term = rf.currentTerm
  majority : n < 2 * (rf.matched N).card

theorem committable_iff {m : ℤ} (hm : GoSlice.get rf.sortedMatchIndex ((n + 1) / 2 : ℕ) = some m)
    {N : ℕ} (hN : 1 ≤ N) : rf.Committable N ↔ (N : ℤ) ≤ m ∧ rf.CurrentAt N := by
  have hle := le_sortedMatchIndex_iff (i := (N : ℤ)) hm (by omega)
  constructor
  · intro h
    obtain ⟨e, he, ht⟩ := h.current
    exact ⟨hle.mpr h.majority, e, by simpa using he, ht⟩
  · rintro ⟨hNm, e, he, ht⟩
    exact ⟨hN, ⟨e, by simpa using he, ht⟩, hle.mp hNm⟩

/-- Indices are bounded by the log, so there is a largest one. -/
theorem exists_greatest {N : ℕ} (h : rf.Committable N) :
    ∃ N', IsGreatest {N | rf.Committable N} N' := by
  have hbdd : BddAbove {N | rf.Committable N} := by
    refine ⟨rf.log.length, fun N' hN' => ?_⟩
    obtain ⟨e, he, _⟩ := hN'.current
    exact (List.getElem?_eq_some_iff.mp he).1.le
  exact ⟨_, Nat.sSup_mem ⟨N, h⟩ hbdd, fun N' hN' => le_csSup hbdd hN'⟩

/-- **The commit rule.** The commit phase raises `commitIndex` to the largest index that may be
committed, if that is larger; and what may be committed is matched by somebody in every quorum of
an election. -/
theorem commitPhase_rule (hn : 2 ≤ n) (rf : Raft n α) (k : ℕ) (hk : rf.commitIndex = k) :
    ∃ rf' commits, rf.commitPhase = some (rf', commits) ∧
      (((∀ N, ¬ rf.Committable N) ∧ rf' = rf) ∨
        ∃ N : ℕ, IsGreatest {N | rf.Committable N} N ∧
          rf' = { rf with commitIndex := max k N } ∧
          ∀ Q : Finset (Fin n), Raft.majority n ≤ Q.card → ∃ v ∈ rf.matched N, v ∈ Q) := by
  have hquorum : ∀ N : ℕ, rf.Committable N →
      ∀ Q : Finset (Fin n), Raft.majority n ≤ Q.card → ∃ v ∈ rf.matched N, v ∈ Q := by
    intro N hN Q hQ
    have := hN.majority
    refine Cluster.exists_mem_inter ?_
    rw [Raft.majority] at hQ
    omega
  obtain ⟨m, hm, ⟨hphase, hnone⟩ | ⟨i, hphase, hki, him, hcur, hlast⟩⟩ :=
    commitPhase_spec hn rf (by omega)
  · refine ⟨rf, false, hphase, ?_⟩
    by_cases hex : ∃ N, rf.Committable N
    · obtain ⟨N, hN⟩ := exists_greatest hex.choose_spec
      refine Or.inr ⟨N, hN, ?_, hquorum N hN.1⟩
      -- An index above `commitIndex` would have been found.
      have hNk : N ≤ k := by
        by_contra hlt
        obtain ⟨hNm, hNcur⟩ := (committable_iff hm hN.1.pos).mp hN.1
        exact hnone N (by omega) hNm hNcur
      rw [max_eq_left (by exact_mod_cast hNk), ← hk]
    · exact Or.inl ⟨not_exists.mp hex, rfl⟩
  · lift i to ℕ using by omega
    have hN : IsGreatest {N | rf.Committable N} i := by
      refine ⟨(committable_iff hm (by omega)).mpr ⟨him, hcur⟩, fun N' hN' => ?_⟩
      by_contra hlt
      obtain ⟨hNm, hNcur⟩ := (committable_iff hm hN'.pos).mp hN'
      exact hlast N' (by omega) hNm hNcur
    exact ⟨_, true, hphase, Or.inr ⟨i, hN, by rw [max_eq_right (by omega)], hquorum i hN.1⟩⟩

/-- A leader of three peers whose last entry has reached peer `1` only. -/
def halfway : Raft 3 ℕ where
  persister := []
  me := 0
  phase := .leader
  currentTerm := 2
  votedFor := some 0
  log := [⟨0, 0⟩, ⟨1, 5⟩, ⟨2, 6⟩]
  commitIndex := 0
  lastApplied := 0
  nextIndex := [3, 3, 2]
  matchIndex := [0, 2, 1]

theorem commitPhase_rule_halfway :
    IsGreatest {N | halfway.Committable N} 2 ∧
      halfway.commitPhase = some ({ halfway with commitIndex := 2 }, true) ∧
      ∀ Q : Finset (Fin 3), Raft.majority 3 ≤ Q.card → ∃ v ∈ halfway.matched 2, v ∈ Q := by
  have hphase : halfway.commitPhase = some ({ halfway with commitIndex := 2 }, true) := by
    decide +kernel
  obtain ⟨rf', commits, h, ⟨_, hsame⟩ | ⟨N, hN, hrf, hQ⟩⟩ :=
    commitPhase_rule (by decide) halfway 0 rfl
  · cases hphase.symm.trans h
    cases congrArg Raft.commitIndex hsame
  · cases hphase.symm.trans h
    have hmax : (2 : ℤ) = max 0 N := congrArg Raft.commitIndex hrf
    obtain rfl : N = 2 := by omega
    exact ⟨hN, hphase, hQ⟩

end Raft

end Distsys
