import Distsys.Raft.StateMachine

/-!
# Leader completeness

What a peer takes as committed at some moment is in the log of every peer that has won its term,
then or later, if that term is not below the one the peer was in. The history of the run decides:
entries up to `commitIndex` are settled, settled entries stay settled while the history grows, and
the chronicle of a term, which is the log of its leader, has what was settled before.

The terms have to be compared. A candidate that was held up can win its term after a later one has
committed something.

The same entries are at all later times on the disks of a majority, whichever peers are crashed by
then. As for state machine safety, requests have to be encoded as they were built.

## Main results

* `Cluster.History.extend` — the history of a longer run
* `Cluster.leader_completeness`
* `Cluster.committed_on_majority`
-/

namespace Distsys

open ReplicatedLog (State Setting)
open Encoding (AsBuilt view)

variable {n : ℕ} {α : Type} {gob : Labgob n α} {rf rf' : Raft n α}
  {A : State (Fin n) (LogEntry α)}

namespace Cluster

variable [Inhabited α] [DecidableEq α] {ok : Cfg n α → Action n α → Prop} {c c' : Cfg n α}
  {p q : Fin n} {gs gs' : List (Goroutine n α)} {hodd : Odd n}

/-- A history goes on with its run, and only grows. -/
theorem History.extend (hok : ∀ c a, ok c a → Timely c a ∧ KeepsUnrefuted c a)
    (h : History gob ok hodd c A) (hr : (system gob).Reaches ok c c') :
    ∃ A', History gob ok hodd c' A' ∧ A.Grows A' := by
  induction hr with
  | refl => exact ⟨A, h, .refl A⟩
  | @tail c₁ c₂ _ hs ih =>
    obtain ⟨A₁, hA₁, hg⟩ := ih
    obtain ⟨a, ha, hn⟩ := hs
    have hc₁ := System.Tracks.reachable hA₁
    obtain ⟨mean, hm⟩ := meant_of_next hc₁ hn
    obtain ⟨hreach, hR⟩ := History.keeps hok hA₁
    have hI := (setting hodd).inv_of_reachable hreach
    refine ⟨after A₁ mean, hA₁.next ha hn ⟨mean, hm, rfl⟩, hg.trans ?_⟩
    exact grows_after hR hI (fun c a h => (hok c a h).1) hc₁ ha hn hm

omit [DecidableEq α] in
theorem Refines.take_one (hR : Refines gob c A) (hI : (setting hodd).Inv A) (q : Fin n) :
    (saved gob c q).2.2.take 1 = [default] := by
  rw [← hR.log]
  exact (hI.log_wf q).take_one

/-- The first entry is the same in all logs. -/
theorem take_one_of_reachable (hodd : Odd n)
    (hc : (system gob).Reachable (fun c a => Timely c a ∧ KeepsUnrefuted c a) c) (q : Fin n) :
    (saved gob c q).2.2.take 1 = [default] := by
  obtain ⟨A, hA⟩ := exists_history hodd hc
  obtain ⟨hreach, hR⟩ := hA.keeps fun _ _ h => h
  exact hR.take_one ((setting hodd).inv_of_reachable hreach) q

/-- What a peer takes as committed is settled from then on. -/
theorem settled_later (hodd : Odd n)
    (hc : (system gob).Reachable (fun c a => Timely c a ∧ KeepsUnrefuted c a) c)
    (hcc' : (system gob).Reaches (fun c a => Timely c a ∧ KeepsUnrefuted c a) c c')
    (hnd : c.state.node p = .up rf gs) (hpos : 0 < rf.commitIndex) :
    ∃ A', (setting hodd).Inv A' ∧ Refines gob c' A' ∧ A'.Retained ∧
      A'.SettledUpTo rf.currentTerm (rf.commitIndex + 1).toNat rf.log := by
  obtain ⟨A, hA⟩ := exists_history hodd hc
  obtain ⟨A', hA', hg⟩ := hA.extend (fun _ _ h => h) hcc'
  obtain ⟨hreach, _⟩ := hA.keeps fun _ _ h => h
  obtain ⟨hreach', hR'⟩ := hA'.keeps fun _ _ h => h
  have hset := (hA.informed fun _ _ h => h).node hnd hpos
  refine ⟨A', (setting hodd).inv_of_reachable hreach', hR',
    Setting.retained_of_reachable hreach', ?_⟩
  exact hset.mono ((setting hodd).inv_of_reachable hreach) hg (le_refl _) (le_refl _)
    (List.prefix_refl _)

theorem committed_prefix (hodd : Odd n)
    (hc : (system gob).Reachable (fun c a => Timely c a ∧ KeepsUnrefuted c a) c)
    (hcc' : (system gob).Reaches (fun c a => Timely c a ∧ KeepsUnrefuted c a) c c')
    (hnd : c.state.node p = .up rf gs) {rf' : Raft n α} (hnd' : c'.state.node q = .up rf' gs')
    (helected : .elected q rf'.currentTerm ∈ c'.trace)
    (hterm : rf.currentTerm ≤ rf'.currentTerm) :
    rf.commitIndex < rf.log.length ∧
      rf.log.take (rf.commitIndex + 1).toNat <+: rf'.log := by
  have hc' := System.Reaches.trans hc hcc'
  have hbounds := indices_of_reachable hc hnd
  rcases lt_or_ge 0 rf.commitIndex with hpos | hzero
  · obtain ⟨A', hI', hR', hret', hset⟩ := settled_later hodd hc hcc' hnd hpos
    have hlead : A'.leader rf'.currentTerm = some q := hR'.leader.mpr helected
    constructor
    · have hlen := hset.length_take hI'
      rw [List.length_take] at hlen
      omega
    · rw [hR'.log_eq_chron hI' hc' hnd' hlead]
      exact hret'.settledUpTo_chron hI' hset hterm hlead
  · have hone := take_one_of_reachable hodd hc p
    have hone' := take_one_of_reachable hodd hc' q
    rw [← durable_eq_saved hc hnd] at hone
    rw [← durable_eq_saved hc' hnd'] at hone'
    rw [show rf.commitIndex = 0 by omega]
    constructor
    · have hlen := congrArg List.length hone
      rw [List.length_take, List.length_singleton] at hlen
      exact Int.natCast_pos.mpr (lt_of_lt_of_le Nat.one_pos (min_eq_left_iff.mp hlen))
    · rw [show ((0 : ℤ) + 1).toNat = 1 from rfl, show rf.log.take 1 = _ from hone,
        ← show rf'.log.take 1 = _ from hone']
      exact List.take_prefix _ _

/-- **Leader completeness**, for an odd number of peers and in every run whose critical sections are
timely, in which no message cuts off entries that it does not contradict, and whose requests are
encoded as they were built. At any moment a peer has all entries up to its `commitIndex`, and from
then on every peer that has won its current term has them too, if that is at least the term of the
first. -/
theorem leader_completeness (hodd : Odd n) (gob : Labgob n α) (s s' : Encoding.Cfg n α)
    (hs : (Encoding.system gob).Reachable (AsBuilt fun c a => Timely c a ∧ KeepsUnrefuted c a) s)
    (hss' : (Encoding.system gob).Reaches
      (AsBuilt fun c a => Timely c a ∧ KeepsUnrefuted c a) s s') (p q : Fin n)
    (rf rf' : Raft n α) (gs gs' : List (Goroutine n α))
    (hnd : s.state.cluster.node p = .up rf gs) (hnd' : s'.state.cluster.node q = .up rf' gs')
    (helected : .cluster (.elected q rf'.currentTerm) ∈ s'.trace)
    (hterm : rf.currentTerm ≤ rf'.currentTerm) :
    rf.commitIndex < rf.log.length ∧
      rf.log.take (rf.commitIndex + 1).toNat <+: rf'.log :=
  committed_prefix hodd (Encoding.view_reachable hs) (Encoding.view_reaches hss') hnd hnd'
    (Encoding.mem_view_trace.mpr helected) hterm

/-- After `bothApplyRun` peer `1` wins term `2` with the vote of peer `2`. -/
def successionRun : List (Action 3 ℕ) :=
  [.run 1 0, .timeout 1 0, .run 1 0, .run 1 0, .deliver 7, .run 2 1, .run 2 1, .run 2 1,
    .deliver 7, .run 1 2, .run 1 2, .run 1 0, .run 1 1, .run 1 1, .run 1 1]

/-- Peer `0` has committed index `1` before `successionRun`, and peer `1` is elected in it. -/
theorem leader_completeness_successionRun :
    ∃ s s' rf gs rf' gs', (Encoding.system (Labgob.unary 3)).Reachable
        (AsBuilt fun c a => Timely c a ∧ KeepsUnrefuted c a) s ∧
      (Encoding.system (Labgob.unary 3)).Reaches
        (AsBuilt fun c a => Timely c a ∧ KeepsUnrefuted c a) s s' ∧
      s.state.cluster.node 0 = .up rf gs ∧ s'.state.cluster.node 1 = .up rf' gs' ∧
      rf.commitIndex = 1 ∧ rf'.currentTerm = 2 ∧
      rf.log.take (rf.commitIndex + 1).toNat <+: rf'.log := by
  obtain ⟨c, hc, h⟩ := exists_of_execOk (Labgob.unary 3) bothApplyRun
    (fun c a => Timely c a ∧ KeepsUnrefuted c a)
    (fun c => ((system (Labgob.unary 3)).execOk (fun c a => Timely c a ∧ KeepsUnrefuted c a) c
        successionRun).any fun c' => decide (Event.elected 1 2 ∈ (c' : Cfg 3 ℕ).trace) &&
      ((c.state.node 0).check (fun rf => decide (rf.commitIndex = 1 ∧ rf.currentTerm = 1)) &&
      (c'.state.node 1).check fun rf => decide (rf.currentTerm = 2)))
    (by decide +kernel)
  obtain ⟨c', hc', h⟩ := (Option.any_eq_true _ _).mp h
  obtain ⟨s, hs, rfl, hsettled⟩ := Encoding.exists_reachable hc
  obtain ⟨s', hss', rfl, _⟩ := hsettled.exists_reaches (System.reaches_of_execOk hc')
  obtain ⟨hel, h⟩ := Bool.and_eq_true_iff.mp h
  obtain ⟨rf, rf', gs, gs', hnd, hnd', ⟨hcommit, hterm⟩, hterm'⟩ := Node.exists_of_checks h
  refine ⟨s, s', rf, gs, rf', gs', hs, hss', hnd, hnd', hcommit, hterm', ?_⟩
  refine (leader_completeness (by decide) (Labgob.unary 3) s s' hs hss' 0 1 rf rf' gs gs' hnd hnd'
    ?_ (by omega)).2
  rw [hterm']
  exact Encoding.mem_view_trace.mp (of_decide_eq_true hel)

theorem committed_quorum (hodd : Odd n)
    (hc : (system gob).Reachable (fun c a => Timely c a ∧ KeepsUnrefuted c a) c)
    (hcc' : (system gob).Reaches (fun c a => Timely c a ∧ KeepsUnrefuted c a) c c')
    (hnd : c.state.node p = .up rf gs) :
    ∃ Q : Finset (Fin n), Raft.majority n ≤ Q.card ∧
      ∀ q ∈ Q, rf.log.take (rf.commitIndex + 1).toNat <+: (saved gob c' q).2.2 := by
  have hbounds := indices_of_reachable hc hnd
  rcases lt_or_ge 0 rf.commitIndex with hpos | hzero
  · obtain ⟨A', hI', hR', hret', hset⟩ := settled_later hodd hc hcc' hnd hpos
    obtain ⟨Q, hQ, hlog⟩ := hret'.settledUpTo_quorum hI' hset
    refine ⟨Q, hQ, fun q hq => ?_⟩
    rw [← hR'.log]
    exact hlog q hq
  · refine ⟨Finset.univ, ?_, fun q _ => ?_⟩
    · rw [Finset.card_univ, Fintype.card_fin, Raft.majority]
      have hn := p.pos
      omega
    · have hone := take_one_of_reachable hodd hc p
      rw [← durable_eq_saved hc hnd] at hone
      rw [show rf.commitIndex = 0 by omega, show ((0 : ℤ) + 1).toNat = 1 from rfl,
        show rf.log.take 1 = _ from hone,
        ← take_one_of_reachable hodd (System.Reaches.trans hc hcc') q]
      exact List.take_prefix _ _

/-- **What is committed is on a majority of disks**, for an odd number of peers and in the same
runs. All entries up to the `commitIndex` that a peer has at some moment are, from then on, at any
time in the logs that a majority of peers would start with from their `Persister`s. -/
theorem committed_on_majority (hodd : Odd n) (gob : Labgob n α) (s s' : Encoding.Cfg n α)
    (hs : (Encoding.system gob).Reachable (AsBuilt fun c a => Timely c a ∧ KeepsUnrefuted c a) s)
    (hss' : (Encoding.system gob).Reaches
      (AsBuilt fun c a => Timely c a ∧ KeepsUnrefuted c a) s s') (p : Fin n) (rf : Raft n α)
    (gs : List (Goroutine n α)) (hnd : s.state.cluster.node p = .up rf gs) :
    ∃ Q : Finset (Fin n), Raft.majority n ≤ Q.card ∧
      ∀ q ∈ Q, rf.log.take (rf.commitIndex + 1).toNat <+: (saved gob (view s') q).2.2 :=
  committed_quorum hodd (Encoding.view_reachable hs) (Encoding.view_reaches hss') hnd

/-- After `bothApplyRun` peer `0`, which has committed index `1`, crashes. -/
theorem committed_on_majority_bothApplyRun :
    ∃ s s' rf gs, (Encoding.system (Labgob.unary 3)).Reachable
        (AsBuilt fun c a => Timely c a ∧ KeepsUnrefuted c a) s ∧
      (Encoding.system (Labgob.unary 3)).Reaches
        (AsBuilt fun c a => Timely c a ∧ KeepsUnrefuted c a) s s' ∧
      s.state.cluster.node 0 = .up rf gs ∧ rf.commitIndex = 1 ∧
      (s'.state.cluster.node 0).check (fun _ => true) = false ∧
      ∃ Q : Finset (Fin 3), Raft.majority 3 ≤ Q.card ∧
        ∀ q ∈ Q, rf.log.take (rf.commitIndex + 1).toNat <+:
          (saved (Labgob.unary 3) (view s') q).2.2 := by
  obtain ⟨c, hc, h⟩ := exists_of_execOk (Labgob.unary 3) bothApplyRun
    (fun c a => Timely c a ∧ KeepsUnrefuted c a)
    (fun c => ((system (Labgob.unary 3)).execOk (fun c a => Timely c a ∧ KeepsUnrefuted c a) c
        [.crash 0]).any fun c' =>
      (c.state.node 0).check (fun rf => decide (rf.commitIndex = 1)) &&
        !((c' : Cfg 3 ℕ).state.node 0).check fun _ => true)
    (by decide +kernel)
  obtain ⟨c', hc', h⟩ := (Option.any_eq_true _ _).mp h
  obtain ⟨s, hs, rfl, hsettled⟩ := Encoding.exists_reachable hc
  obtain ⟨s', hss', rfl, _⟩ := hsettled.exists_reaches (System.reaches_of_execOk hc')
  obtain ⟨hup, hdown⟩ := Bool.and_eq_true_iff.mp h
  obtain ⟨rf, gs, hnd, hcommit⟩ := Node.exists_of_check hup
  exact ⟨s, s', rf, gs, hs, hss', hnd, of_decide_eq_true hcommit, (Bool.not_eq_true' _).mp hdown,
    committed_on_majority (by decide) (Labgob.unary 3) s s' hs hss' 0 rf gs hnd⟩

end Cluster

end Distsys
