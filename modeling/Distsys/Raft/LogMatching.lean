import Distsys.Raft.Encoding
import Distsys.Raft.Simulation

/-!
# Logs that match

Two logs that have an entry of the same term at the same index are equal up to it. In terms of the
protocol both are the start of the chronicle of that term. For the cluster this holds in every run
whose critical sections are timely. The condition on `Start` is needed: between the two critical
sections of `termSync` a leader of an old term is in phase leader with the term of its successor,
and a command started then gets the same index and term as one that the successor starts.

A leader relies on more. It takes `matchIndex[F] = k` as a promise that the peer `F` has its log up
to index `k`, and keeps it while they are in the same term. Here it matters that `AppendEntries`
replaces everything behind `PrevLogIndex`: an earlier heartbeat of the same term that arrives late
takes away what a later one has brought, and what was acknowledged. The two critical sections of
`termSync` matter as well: a leader of an old term that is about to step down holds the `matchIndex`
of that term together with the new one.

Both are first shown for the cluster, whose requests are values, and then for the level below it, in
which they are encoded from shared arrays. The second statement needs that they are encoded as they
were built.

## Main results

* `Cluster.log_matching`
* `Cluster.raised_leader_logs_differ` — without the condition on `Start`
* `Cluster.matchIndex_agrees`
* `Cluster.late_heartbeat_cuts_matched` — without the condition on the splice
-/

namespace Distsys

namespace Cluster

open Encoding (AsBuilt view)

variable {n : ℕ} {α : Type} [Inhabited α] [DecidableEq α]

/-! ### Log matching

By the history, each log is a part of the chronicles of its terms. -/

theorem logs_match (hodd : Odd n) {gob : Labgob n α} {c : Cfg n α}
    (hc : (system gob).Reachable Timely c) {p q : Fin n} {rf rf' : Raft n α}
    {gs gs' : List (Goroutine n α)} (hnd : c.state.node p = .up rf gs)
    (hnd' : c.state.node q = .up rf' gs') {i : ℕ} {e e' : LogEntry α}
    (he : rf.log[i]? = some e) (he' : rf'.log[i]? = some e') (hterm : e.term = e'.term) :
    ∀ j ≤ i, rf.log[j]? = rf'.log[j]? := by
  obtain ⟨A, hR, hI⟩ := exists_refines hodd (fun _ _ h => h) hc
  have htake : rf.log.take (i + 1) = rf'.log.take (i + 1) := by
    have hlog := hI.log_wf p
    have hlog' := hI.log_wf q
    rw [(hR.up hc hnd).2] at hlog
    rw [(hR.up hc hnd').2] at hlog'
    exact hlog.take_eq hlog' he he' hterm
  intro j hj
  rw [← List.getElem?_take_of_lt (Nat.lt_succ_of_le hj), htake,
    List.getElem?_take_of_lt (Nat.lt_succ_of_le hj)]

/-- **Log matching**, for an odd number of peers and in every run whose critical sections are
timely and whose requests are encoded as they were built. -/
theorem log_matching (hodd : Odd n) (gob : Labgob n α) (s : Encoding.Cfg n α)
    (hs : (Encoding.system gob).Reachable (AsBuilt Timely) s) (p q : Fin n) (rf rf' : Raft n α)
    (gs gs' : List (Goroutine n α)) (hnd : s.state.cluster.node p = .up rf gs)
    (hnd' : s.state.cluster.node q = .up rf' gs') (i : ℕ) (e e' : LogEntry α)
    (he : rf.log[i]? = some e) (he' : rf'.log[i]? = some e') (hterm : e.term = e'.term) :
    ∀ j ≤ i, rf.log[j]? = rf'.log[j]? :=
  logs_match hodd (Encoding.view_reachable hs) hnd hnd' he he' hterm

/-- After `ackRun` peers `0` and `1` have an entry of term `1` at index `1`. -/
theorem log_matching_ackRun :
    ∃ s rf rf' gs gs', (Encoding.system (Labgob.unary 3)).Reachable (AsBuilt Timely) s ∧
      s.state.cluster.node 0 = .up rf gs ∧ s.state.cluster.node 1 = .up rf' gs' ∧
      rf.log[1]? = some (⟨1, 7⟩ : LogEntry ℕ) ∧ ∀ j ≤ 1, rf.log[j]? = rf'.log[j]? := by
  obtain ⟨c, hc, hchk⟩ := exists_of_execOk (Labgob.unary 3) ackRun Timely
    (fun c => (c.state.node 0).check (fun rf => decide (rf.log[1]? = some (⟨1, 7⟩ : LogEntry ℕ))) &&
      (c.state.node 1).check (fun rf => decide (rf.log[1]? = some (⟨1, 7⟩ : LogEntry ℕ))))
    (by decide +kernel)
  obtain ⟨s, hs, rfl, _⟩ := Encoding.exists_reachable hc
  obtain ⟨rf, rf', gs, gs', hnd, hnd', h, h'⟩ := Node.exists_of_checks hchk
  exact ⟨s, rf, rf', gs, gs', hs, hnd, hnd', h,
    log_matching (by decide) (Labgob.unary 3) s hs 0 1 rf rf' gs gs' hnd hnd' 1 _ _ h h' rfl⟩

/-- After `raisedLeaderRun` peer `0`, in phase leader of the old term with the new one, starts the
command `8`, and peer `2`, the leader of the new term, the command `9`. -/
def twoStartsRun : List (Action 3 ℕ) := raisedLeaderRun ++ [.start 0 8, .start 2 9]

/-- **Two entries with the same index and term and different commands**, although every request is
encoded as it was built. -/
theorem raised_leader_logs_differ :
    ∃ s rf rf' gs gs' e e',
      (Encoding.system (Labgob.unary 3)).Reachable (AsBuilt fun _ _ => True) s ∧
      s.state.cluster.node 0 = .up rf gs ∧ s.state.cluster.node 2 = .up rf' gs' ∧
      rf.log[1]? = some e ∧ rf'.log[1]? = some e' ∧ e.term = e'.term ∧
      ¬ ∀ j ≤ 1, rf.log[j]? = rf'.log[j]? := by
  obtain ⟨c, hc, hchk⟩ := exists_of_exec (Labgob.unary 3) twoStartsRun
    (fun c => (c.state.node 0).check (fun rf => decide (rf.log[1]? = some (⟨2, 8⟩ : LogEntry ℕ))) &&
      (c.state.node 2).check (fun rf => decide (rf.log[1]? = some (⟨2, 9⟩ : LogEntry ℕ))))
    (by decide +kernel)
  obtain ⟨s, hs, rfl, _⟩ := Encoding.exists_reachable (System.reaches_of_exec hc)
  obtain ⟨rf, rf', gs, gs', hnd, hnd', h₈, h₉⟩ := Node.exists_of_checks hchk
  refine ⟨s, rf, rf', gs, gs', _, _, hs, hnd, hnd', h₈, h₉, rfl, fun hall => ?_⟩
  have := hall 1 (le_refl 1)
  rw [h₈, h₉] at this
  cases this

/-! ### Acknowledged entries

An entry of `matchIndex` is backed by an acknowledgement of the peer in the term of the leader, and
what was acknowledged is kept while the peer stays in that term. -/

/-- The leader need not be in phase leader any more. -/
theorem acknowledged_agrees (hodd : Odd n) {gob : Labgob n α} {c : Cfg n α}
    (hc : (system gob).Reachable (fun c a => Timely c a ∧ KeepsUnrefuted c a) c) {L F : Fin n}
    {rf rf' : Raft n α} {gs gs' : List (Goroutine n α)} (hnd : c.state.node L = .up rf gs)
    (hnd' : c.state.node F = .up rf' gs') (hinit : .initLeader L rf.currentTerm ∈ c.trace)
    (hF : F ≠ L) {k : ℤ} (hk : GoSlice.get rf.matchIndex (F : ℕ) = some k)
    (hterm : rf'.currentTerm = rf.currentTerm) :
    k < rf'.log.length ∧ ∀ i : ℕ, (i : ℤ) ≤ k → rf'.log[i]? = rf.log[i]? := by
  obtain ⟨A, hR, hI, hret⟩ := exists_retained hodd (fun _ _ h => h) hc
  obtain ⟨_, hAl⟩ := hR.up hc hnd
  obtain ⟨hAt', hAl'⟩ := hR.up hc hnd'
  rcases lt_or_ge 0 k with hpos | hle
  · have hack := hR.matched hnd hinit F hF k hk hpos
    have hlead := hR.leader.mpr (elected_of_initLeader hc hinit)
    have hlog := hR.log_eq_chron hI hc hnd hlead
    have hlen : (k + 1).toNat ≤ rf.log.length := hlog ▸ (hI.acked_chron hack).2
    obtain ⟨X, hX⟩ : rf.log.take (k + 1).toNat <+: rf'.log := by
      rw [← hterm, ← hAt'] at hack
      rw [hlog, ← hterm, ← hAt', ← hAl']
      exact hret.take_prefix_log hack
    have hlen' := congrArg List.length hX
    rw [List.length_append, List.length_take, min_eq_left hlen] at hlen'
    refine ⟨by omega, fun i hi => ?_⟩
    have hlt : i < (k + 1).toNat := by omega
    rw [← hX, List.getElem?_append_left (by rw [List.length_take]; omega),
      List.getElem?_take_of_lt hlt]
  · -- before the first acknowledgement there is only the entry at index 0
    have hhead := (hI.log_wf F).head
    have hpos := (List.getElem?_eq_some_iff.mp hhead).1
    rw [hAl'] at hhead hpos
    refine ⟨by omega, fun i hi => ?_⟩
    obtain rfl : i = 0 := by omega
    rw [hhead, ← hAl, (hI.log_wf L).head]

/-- **`matchIndex` can be relied on**, for an odd number of peers and in every run whose critical
sections are timely, in which `termSync` never raises the term of a leader, no message cuts off
entries that it does not contradict, and requests are encoded as they were built. A peer leads by
its last election, and `initLeader` has run for it. -/
theorem matchIndex_agrees (hodd : Odd n) (gob : Labgob n α) (s : Encoding.Cfg n α)
    (hs : (Encoding.system gob).Reachable
      (AsBuilt fun c a => Timely c a ∧ LeaderTermFixed c a ∧ KeepsUnrefuted c a) s) (L F : Fin n)
    (rf rf' : Raft n α) (gs gs' : List (Goroutine n α))
    (hnd : s.state.cluster.node L = .up rf gs) (hnd' : s.state.cluster.node F = .up rf' gs')
    (hl : rf.phase = .leader) (election : ℕ)
    (helection : lastElected L (view s).trace = some election)
    (hinit : .cluster (.initLeader L election) ∈ s.trace) (hF : F ≠ L) (k : ℤ)
    (hk : GoSlice.get rf.matchIndex (F : ℕ) = some k) (hterm : rf'.currentTerm = rf.currentTerm) :
    k < rf'.log.length ∧ ∀ i : ℕ, (i : ℤ) ≤ k → rf'.log[i]? = rf.log[i]? := by
  have hc := Encoding.view_reachable hs
  have hlast := lastElected_of_leader (fun _ _ h => ⟨h.1.wins, h.2.1⟩) hc hnd hl
  cases helection.symm.trans hlast
  exact acknowledged_agrees hodd (hc.mono fun _ _ h => ⟨h.1, h.2.2⟩) hnd hnd'
    (Encoding.mem_view_trace.mpr hinit) hF hk hterm

/-- After `ackRun` peer `1` has acknowledged the entry at index `1`. -/
theorem matchIndex_agrees_ackRun :
    ∃ s rf rf' gs gs', (Encoding.system (Labgob.unary 3)).Reachable
        (AsBuilt fun c a => Timely c a ∧ LeaderTermFixed c a ∧ KeepsUnrefuted c a) s ∧
      s.state.cluster.node 0 = .up rf gs ∧ s.state.cluster.node 1 = .up rf' gs' ∧
      rf.phase = .leader ∧ lastElected 0 (view s).trace = some 1 ∧
      .cluster (.initLeader 0 1) ∈ s.trace ∧ rf'.currentTerm = rf.currentTerm ∧
      GoSlice.get rf.matchIndex ((1 : Fin 3) : ℕ) = some 1 ∧
      1 < (rf'.log.length : ℤ) ∧ ∀ i : ℕ, (i : ℤ) ≤ 1 → rf'.log[i]? = rf.log[i]? := by
  obtain ⟨c, hc, hchk⟩ := exists_of_execOk (Labgob.unary 3) ackRun
    (fun c a => Timely c a ∧ LeaderTermFixed c a ∧ KeepsUnrefuted c a)
    (fun c => (c.state.node 0).check (fun rf => decide (rf.phase = .leader ∧ rf.currentTerm = 1 ∧
        lastElected 0 c.trace = some 1 ∧ .initLeader 0 1 ∈ c.trace ∧
        GoSlice.get rf.matchIndex ((1 : Fin 3) : ℕ) = some 1)) &&
      (c.state.node 1).check (fun rf => decide (rf.currentTerm = 1)))
    (by decide +kernel)
  obtain ⟨s, hs, rfl, _⟩ := Encoding.exists_reachable hc
  obtain ⟨rf, rf', gs, gs', hnd, hnd', ⟨hl, ht, hlast, hinit, hk⟩, ht'⟩ :=
    Node.exists_of_checks hchk
  have hterm := ht'.trans ht.symm
  rw [Encoding.mem_view_trace] at hinit
  exact ⟨s, rf, rf', gs, gs', hs, hnd, hnd', hl, hlast, hinit, hterm, hk,
    matchIndex_agrees (by decide) (Labgob.unary 3) s hs 0 1 rf rf' gs gs' hnd hnd' hl 1 hlast hinit
      (by decide) 1 hk hterm⟩

/-- After `ackRun` the first heartbeat, which was sent before the command was started, reaches
peer `1`. -/
def lateFirstRun : List (Action 3 ℕ) := ackRun ++ [.deliver 1, .run 1 1, .run 1 1]

/-- **A late heartbeat takes an acknowledged entry away**, within the term. The critical sections
are timely, the term of the leader is not raised, and requests are encoded as they were built. -/
theorem late_heartbeat_cuts_matched :
    ∃ s rf rf' gs gs', (Encoding.system (Labgob.unary 3)).Reachable
        (AsBuilt fun c a => Timely c a ∧ LeaderTermFixed c a) s ∧
      s.state.cluster.node 0 = .up rf gs ∧ s.state.cluster.node 1 = .up rf' gs' ∧
      rf.phase = .leader ∧ lastElected 0 (view s).trace = some 1 ∧
      .cluster (.initLeader 0 1) ∈ s.trace ∧ rf'.currentTerm = rf.currentTerm ∧
      GoSlice.get rf.matchIndex ((1 : Fin 3) : ℕ) = some 1 ∧ ¬ 1 < (rf'.log.length : ℤ) := by
  obtain ⟨c, hc, hchk⟩ := exists_of_execOk (Labgob.unary 3) lateFirstRun
    (fun c a => Timely c a ∧ LeaderTermFixed c a)
    (fun c => (c.state.node 0).check (fun rf => decide (rf.phase = .leader ∧ rf.currentTerm = 1 ∧
        lastElected 0 c.trace = some 1 ∧ .initLeader 0 1 ∈ c.trace ∧
        GoSlice.get rf.matchIndex ((1 : Fin 3) : ℕ) = some 1)) &&
      (c.state.node 1).check (fun rf => decide (rf.currentTerm = 1 ∧ rf.log.length = 1)))
    (by decide +kernel)
  obtain ⟨s, hs, rfl, _⟩ := Encoding.exists_reachable hc
  obtain ⟨rf, rf', gs, gs', hnd, hnd', ⟨hl, ht, hlast, hinit, hk⟩, ht', hlen⟩ :=
    Node.exists_of_checks hchk
  rw [Encoding.mem_view_trace] at hinit
  refine ⟨s, rf, rf', gs, gs', hs, hnd, hnd', hl, hlast, hinit, ht'.trans ht.symm, hk, ?_⟩
  rw [hlen]
  decide

end Cluster

end Distsys
