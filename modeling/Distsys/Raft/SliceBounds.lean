import Distsys.Raft.Backup
import Distsys.Raft.Quorums
import Distsys.Raft.WellFormed

/-!
# Slice accesses

Apart from `applyEntries`, which reads the log up to a `commitIndex` that may lie beyond it, the
critical sections index slices in five places, and each relies on an invariant that is kept
elsewhere:

* `callElection` and `RequestVote` read the last entry: no log is ever empty;
* `AppendEntries` reads at `PrevLogIndex`, cuts after it and scans down from it: the leader never
  sends a negative index, and the handler checks the upper bound itself;
* the first part of `heartbeat` reads `nextIndex` and the log below it: `nextIndex` has a slot for
  every peer once `initLeader` has run, and its values are at least `1`;
* the second part writes `nextIndex` and `matchIndex`, and reads `replies`: these too have a slot
  for every peer;
* the commit phase reads the order statistic at `⌈n/2⌉` and the log above `commitIndex`.

The last place is the one that fails: a cluster of one peer has a slot at index `0` only, and
`⌈1/2⌉ = 1`. The single peer elects itself and panics in its first heartbeat.

## Main definitions

* `Goroutine.Sized` — the lengths of the slices that a heartbeat uses
* `Cluster.InBounds` — no critical section but `applyEntries` panics

## Main results

* `Goroutine.run_ne_error`
* `Cluster.inBounds_iff`
-/

namespace Distsys

variable {n : ℕ} {α : Type} {gob : Labgob n α} {rf : Raft n α}

/-! ### The slices of a leader

`initLeader` makes them, and every later assignment is to a slot. The length is lost in a restart,
but a peer that has restarted is no leader. -/

/-- `nextIndex` and `matchIndex` have a slot for every peer. -/
def Raft.Sized (rf : Raft n α) : Prop := rf.nextIndex.length = n ∧ rf.matchIndex.length = n

/-- A call can be built for every peer. -/
theorem Raft.Sized.appendEntriesArgs (h : rf.Sized) (hnext : ∀ i ∈ rf.nextIndex, 1 ≤ i)
    (hlog : rf.log ≠ []) (ID : Fin n) : ∃ args, rf.appendEntriesArgs ID = some args := by
  have hlt : (ID : ℕ) < rf.nextIndex.length := ID.isLt.trans_eq h.1.symm
  have hslot : GoSlice.get rf.nextIndex (ID : ℕ) = some rf.nextIndex[(ID : ℕ)] := by
    rw [GoSlice.get_natCast, List.getElem?_eq_getElem hlt]
  exact Raft.appendEntriesArgs_isSome hslot (hnext _ (List.getElem_mem hlt)) hlog

/-- One round of the loop of `heartbeat` finds its slots. -/
theorem Raft.Sized.adjustIndex (h : rf.Sized) (myLastIndex : ℤ)
    {replies : List AppendEntriesReply} (hlen : replies.length = n) (ID : Fin n) :
    ∃ rf', Raft.adjustIndex myLastIndex replies rf ID = some rf' ∧ rf'.Sized := by
  have hnext : (ID : ℕ) < rf.nextIndex.length := ID.isLt.trans_eq h.1.symm
  have hmatch : (ID : ℕ) < rf.matchIndex.length := ID.isLt.trans_eq h.2.symm
  obtain ⟨reply, hreply⟩ : ∃ reply, replies[(ID : ℕ)]? = some reply :=
    ⟨_, List.getElem?_eq_getElem (ID.isLt.trans_eq hlen.symm)⟩
  by_cases hs : reply.success = true
  · exact ⟨_, Raft.adjustIndex_success hreply hnext hmatch hs,
      (List.length_set ..).trans h.1, (List.length_set ..).trans h.2⟩
  · rw [Bool.not_eq_true] at hs
    by_cases hpos : 1 ≤ reply.nextIndex
    · exact ⟨_, Raft.adjustIndex_refusal hreply hnext hs hpos, (List.length_set ..).trans h.1, h.2⟩
    · exact ⟨rf, by simp [Raft.adjustIndex, hreply, hs, hpos], h⟩

/-- The whole loop. -/
theorem Raft.Sized.adjustIndices (h : rf.Sized) (myLastIndex : ℤ)
    {replies : List AppendEntriesReply} (hlen : replies.length = n) :
    ∃ rf', rf.adjustIndices myLastIndex replies = some rf' ∧ rf'.Sized := by
  unfold Raft.adjustIndices
  generalize Raft.others rf.me = IDs
  induction IDs generalizing rf with
  | nil => exact ⟨rf, rfl, h⟩
  | cons ID IDs ih =>
    obtain ⟨rf₁, h₁, hsized⟩ := h.adjustIndex myLastIndex hlen ID
    rw [List.foldlM_cons, h₁]
    exact ih hsized

/-- Critical sections keep the lengths. -/
theorem Runs.sized {gr : Goroutine n α} {e : Effect n α} (h : Runs gob rf gr e) (hrf : rf.Sized)
    (hlen : ∀ beat replies, gr = .heartbeatSleep beat replies → replies.length = n) :
    e.rf.Sized := by
  cases h with
  | initLeader => exact ⟨List.length_replicate, List.length_replicate⟩
  | @commit beat replies rf₁ rf₂ commits _ hadjust hcommit =>
    obtain ⟨rf', hadjust', hsized⟩ := hrf.adjustIndices beat.myLastIndex (hlen beat replies rfl)
    cases hadjust.symm.trans hadjust'
    rcases Raft.commitPhase_eq_some hcommit with ⟨rfl, _⟩ | ⟨_, _, _, _, rfl, _⟩ <;> exact hsized
  | merge hprev _ hr =>
    obtain ⟨_, _, _, _, _, _, hr⟩ := mergeLog_at hprev hr
    rw [hr]
    exact hrf
  | applyEntries h => obtain rfl := Raft.applyEntries_eq_some h; exact hrf
  | react | ignore | demote | demoteSame => simpa [Raft.Sized] using hrf
  | _ => exact hrf

/-- The lengths of the slices that a call of `heartbeat` uses. -/
def Goroutine.Sized (rf : Raft n α) : Goroutine n α → Prop
  | .heartbeat _ _ => rf.Sized
  | .heartbeatSleep _ replies => rf.Sized ∧ replies.length = n
  | _ => True

theorem Goroutine.Sized.mono {rf rf' : Raft n α} {gr : Goroutine n α} (h : gr.Sized rf)
    (hrf : rf.Sized → rf'.Sized) : gr.Sized rf' := by
  cases gr with
  | heartbeat => exact hrf h
  | heartbeatSleep => exact ⟨hrf h.1, h.2⟩
  | _ => trivial

theorem Goroutine.Sized.length {beat : Beat} {replies : List AppendEntriesReply}
    {gr : Goroutine n α} (h : gr.Sized rf) (hgr : gr = .heartbeatSleep beat replies) :
    replies.length = n := by
  subst hgr
  exact h.2

/-- The step lemma for a goroutine that is started. -/
theorem Spawns.sized {gr gr' : Goroutine n α} {e : Effect n α} {es : List (Event n α)}
    (h : Spawns rf gr gr' es) (hrun : Runs gob rf gr e) (hgr : gr.Sized rf) : gr'.Sized e.rf := by
  have hrf : rf.Sized → e.rf.Sized := fun hrf =>
    hrun.sized hrf fun beat replies heq => hgr.length heq
  cases h with
  | routine h => cases h <;> trivial
  | initLeader =>
    cases hrun
    exact ⟨List.length_replicate, List.length_replicate⟩
  | heartbeatSleep => exact ⟨hrf hgr, List.length_replicate⟩
  | commit => exact hrf hgr.1
  | _ => trivial

/-! ### One critical section

Each access of the source is met by one hypothesis, and these are the invariants of the list above.
-/

/-- **No critical section of two or more peers panics**, except `applyEntries`, if the indices and
slices are as they should be. -/
theorem Goroutine.run_ne_error (hn : 2 ≤ n) {gr : Goroutine n α} (hlog : rf.log ≠ [])
    (hnext : ∀ i ∈ rf.nextIndex, 1 ≤ i) (hcommit : 0 ≤ rf.commitIndex) (hgr : gr.Sized rf)
    (hargs : ∀ call myTerm, gr = .appendEntries call myTerm → 0 ≤ call.args.prevLogIndex)
    (happly : gr ≠ .applyEntries) (e : Panic n α) : gr.run gob rf ≠ some (.error e) := by
  have hpos := List.length_pos_of_ne_nil hlog
  obtain ⟨last, hlast⟩ := GoSlice.get_isSome (s := rf.log) (i := rf.log.length - 1)
    (by omega) (by omega)
  intro h
  cases gr with
  | callElection =>
    simp only [Goroutine.run, Raft.runElection, Raft.callElection, Raft.persist, hlast,
      Option.map_some] at h
    split at h <;> cases h
  | heartbeat election beatNumber =>
    obtain ⟨calls, hcalls⟩ : ∃ calls, (Raft.others rf.me).mapM (fun ID =>
        (rf.appendEntriesArgs ID).map
          (EntriesCall.mk ID ⟨election, beatNumber, rf.log.length - 1⟩)) = some calls := by
      refine exists_mapM_eq_some fun ID _ => ?_
      obtain ⟨args, hargs⟩ := Raft.Sized.appendEntriesArgs hgr hnext hlog ID
      exact ⟨_, by rw [hargs, Option.map_some]⟩
    simp only [Goroutine.run, Raft.runHeartbeat, hcalls] at h
    split at h <;> cases h
  | heartbeatSleep beat replies =>
    obtain ⟨rf₁, hadjust, _⟩ := hgr.1.adjustIndices beat.myLastIndex hgr.2
    have hcommit₁ : 0 ≤ rf₁.commitIndex := by
      obtain ⟨_, _, rfl⟩ := Raft.adjustIndices_eq hadjust
      exact hcommit
    obtain ⟨_, _, hr⟩ := Raft.commitPhase_isSome hn rf₁ hcommit₁
    simp only [Goroutine.run, Raft.runCommit, hadjust, Option.bind_some, hr] at h
    split at h <;> cases h
  | requestVote call myTerm =>
    obtain ⟨⟨rf', voteGranted⟩, hr⟩ : ∃ r, rf.requestVote gob call.args = some r := by
      simp only [Raft.requestVote, hlast, Option.map_some]
      split <;> exact ⟨_, rfl⟩
    simp only [Goroutine.run, Raft.runRequestVote, hr] at h
    cases h
  | appendEntries call myTerm =>
    obtain ⟨p, hp⟩ := Int.eq_ofNat_of_zero_le (hargs call myTerm rfl)
    obtain ⟨r, hr, _⟩ := Raft.appendEntries_answers gob rf hp
    simp only [Goroutine.run, Raft.runAppendEntries, hr] at h
    cases h
  | applyEntries => exact happly rfl
  | awaitVotes election i voteCount votes => cases votes <;> cases h
  | _ => cases h

/-! ### Whole runs

For a cluster of one peer a run is given that ends in the panic. -/

namespace Cluster

variable [Inhabited α] [DecidableEq α] {ok : Cfg n α → Action n α → Prop} {c : Cfg n α}
  {p : Fin n} {gs : List (Goroutine n α)}

theorem sized_of_reachable (hc : (system gob).Reachable ok c)
    (hnd : c.state.node p = .up rf gs) : ∀ gr ∈ gs, gr.Sized rf := by
  refine node_invariant (I := fun _ _ nd => ∀ rf gs, nd = .up rf gs → ∀ gr ∈ gs, gr.Sized rf)
    (fun _ => nofun) (fun _ _ _ _ _ _ h => h) ?_ hc p rf gs hnd
  intro c a c' p nd es _ hI _ hn _ hstep hnd' rf' gs' hup gr' hgr'
  subst hup
  have horigin := hstep.origin hgr'
  have hstruct := hstep.struct
  have hI := hI p
  generalize hnd : c.state.node p = nd₀ at horigin hstruct hI
  -- The slices are only re-created by `Make`, and then the goroutines are new as well.
  have hkeep : ∀ rf gs, nd₀ = .up rf gs → rf.Sized → rf'.Sized := by
    intro rf gs hnd₀ hrf
    cases hstruct with
    | make => cases hnd₀
    | run hat h =>
      cases hnd₀
      exact h.sized hrf fun beat replies heq => (hI _ _ rfl _ hat.mem).length heq
    | _ => cases hnd₀; exact hrf
  cases horigin with
  | kept hg => exact (hI _ _ rfl _ hg).mono (hkeep _ _ rfl)
  | @spawned rf gs gr _ e hat hrun hnext =>
    rcases runs_of_at hn hnd hat with ⟨e', _, hrun', hup, _⟩ | ⟨_, _, hdown, _⟩
    · cases hnd'.symm.trans hup
      exact (hrun.spawns hnext).sized hrun' (hI _ _ rfl _ hat.mem)
    · cases hnd'.symm.trans hdown
  | answered hg =>
    obtain ⟨hrf, hlen⟩ := hI _ _ rfl _ hg
    exact ⟨hkeep _ _ rfl hrf, (List.length_set ..).trans hlen⟩
  | interrupted h => rcases h with rfl | ⟨_, rfl, _⟩ <;> trivial
  | _ => trivial

/-- Every slice access that a goroutine of a peer would evaluate next is within bounds, unless it is
one of `applyEntries`. -/
def InBounds (gob : Labgob n α) (c : Cfg n α) : Prop :=
  ∀ p rf gs gr e, c.state.node p = .up rf gs → gr ∈ gs → gr ≠ .applyEntries →
    gr.run gob rf ≠ some (.error e)

theorem inBounds_of_reachable (hn : 2 ≤ n) (hc : (system gob).Reachable ok c) : InBounds gob c := by
  intro p rf gs gr e hnd hgr happly
  have hwf := wellFormed_of_reachable hc
  have hlog : rf.log ≠ [] := by
    have := saved_log_ne_nil hc p
    rwa [← durable_eq_saved hc hnd] at this
  refine Goroutine.run_ne_error hn hlog (nextIndex_pos hc hnd) ?_ (sized_of_reachable hc hnd gr hgr)
    ?_ happly e
  · have := indices_of_reachable hc hnd
    omega
  · rintro call myTerm rfl
    have hsrc := (inFlight_of_reachable hc).node p
    rw [hnd] at hsrc
    exact (hwf.sent call (hsrc.2 _ hgr).1).1.prevLogIndex

/-- The runs of `loneRun` are runs of one peer. -/
instance onePeer : NeZero 1 :=
  ⟨Nat.succ_ne_zero 0⟩

/-- The only peer of a cluster starts, elects itself and sends its first heartbeat, to nobody. -/
def loneRun : List (Action 1 ℕ) :=
  [.make 0, .run 0 0, .timeout 0 0, .run 0 0, .run 0 0, .run 0 0, .run 0 0, .run 0 0, .run 0 0,
    .run 0 0]

/-- The only goroutine of a peer is a `heartbeat` whose second part panics. -/
def panicsInCommit : Node n α → Bool
  | .up rf [.heartbeatSleep beat replies] => !(rf.runCommit beat replies).isOk
  | _ => false

omit [Inhabited α] [DecidableEq α] in
theorem not_inBounds_of_panicsInCommit (h : panicsInCommit (c.state.node p) = true) :
    ¬ InBounds gob c := by
  unfold panicsInCommit at h
  split at h
  · rename_i rf beat replies hnd
    cases hr : rf.runCommit beat replies with
    | ok e => simp [hr, Except.isOk, Except.toBool] at h
    | error e =>
      intro hin
      exact hin p rf _ _ e hnd List.mem_cons_self nofun (congrArg some hr)
  · cases h

/-- At the end of `loneRun`, the commit phase reads the second slot of a slice of one. -/
theorem loneRun_panics :
    ∃ c, (system (Labgob.unary 1)).exec (system (Labgob.unary 1)).start loneRun = some c ∧
      panicsInCommit (c.state.node 0) = true :=
  exists_of_exec (Labgob.unary 1) loneRun (fun c => panicsInCommit (c.state.node 0))
    (by decide +kernel)

/-- **Slice accesses stay within bounds** in every run of `n` peers, exactly if `n` is not `1`. -/
theorem inBounds_iff (n : ℕ) (hn : 1 ≤ n) :
    (∀ (α : Type) [Inhabited α] [DecidableEq α] (gob : Labgob n α) (as : List (Action n α))
      (c : Cfg n α), (system gob).exec (system gob).start as = some c → InBounds gob c) ↔
      n ≠ 1 := by
  constructor
  · rintro h rfl
    obtain ⟨c, hc, hpanics⟩ := loneRun_panics
    exact not_inBounds_of_panicsInCommit hpanics (h ℕ (Labgob.unary 1) loneRun c hc)
  · intro hne α _ _ gob as c hc
    exact inBounds_of_reachable (by omega) (System.reaches_of_exec hc)

/-- At the end of `ackRun` the leader is in the middle of a heartbeat. -/
theorem inBounds_iff_ackRun :
    ∃ c, (system (Labgob.unary 3)).exec (system (Labgob.unary 3)).start ackRun = some c ∧
      InBounds (Labgob.unary 3) c := by
  obtain ⟨c, hc, _⟩ := exists_of_exec (Labgob.unary 3) ackRun (fun _ => true) (by decide +kernel)
  exact ⟨c, hc, (inBounds_iff 3 (by decide)).mpr (by decide) ℕ (Labgob.unary 3) ackRun c hc⟩

/-- **A cluster of one peer panics.** -/
theorem loneRun_out_of_bounds :
    ∃ c, (system (Labgob.unary 1)).exec (system (Labgob.unary 1)).start loneRun = some c ∧
      ¬ InBounds (Labgob.unary 1) c := by
  obtain ⟨c, hc, hpanics⟩ := loneRun_panics
  exact ⟨c, hc, not_inBounds_of_panicsInCommit hpanics⟩

end Cluster

end Distsys
