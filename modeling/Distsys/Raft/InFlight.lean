import Distsys.Raft.Steps

/-!
# Everything in flight was sent

A packet on the network, a handler that works on a request and a goroutine that holds a reply all
go back to a `sent` event, and the goroutine of an election or a leadership to the events of that
election. Since the trace only grows, a fact about messages therefore has to be proved once, for the
step that sends them, and is then available wherever the message turns up.

## Why membership is enough

A packet that is delivered is removed from the network, and at most one copy is delivered. None of
the invariants needs this. They only need that what is delivered was sent, and when it was, certain
facts held that still hold. So the trace is used as a set.

## Main definitions

* `Packet.Sourced`, `Goroutine.Sourced`, `Node.Sourced`
* `Cluster.InFlight` — the invariant

## Main results

* `Cluster.inFlight_of_reachable`
-/

namespace Distsys

variable {n : ℕ} {α : Type} {gob : Labgob n α} {rf : Raft n α} {tr es : List (Event n α)}
  {p : Fin n}

/-- A request comes from a candidacy or a heartbeat of another peer, a reply answers a request. -/
def Packet.Sourced (tr : List (Event n α)) : Packet n α → Prop
  | .requestVote call =>
    .candidacy call.args.candidateID call.args.term ∈ tr ∧ call.server ≠ call.args.candidateID
  | .requestVoteReply call _ => .sent (.requestVote call) ∈ tr
  | .appendEntries call => call.server ≠ call.args.leaderID
  | .appendEntriesReply call _ => .sent (.appendEntries call) ∈ tr

/-- What a caller of `termSync` at peer `p` works on was sent to `p`. -/
def Job.Sourced (tr : List (Event n α)) (p : Fin n) : Job n α → Prop
  | .requestVote call => .sent (.requestVote call) ∈ tr ∧ call.server = p
  | .appendEntries call => .sent (.appendEntries call) ∈ tr ∧ call.server = p
  | .sendRequestVote call reply =>
    .sent (.requestVote call) ∈ tr ∧ call.args.candidateID = p ∧
      .sent (.requestVoteReply call reply) ∈ tr
  | .sendAppendEntries call reply =>
    .sent (.appendEntriesReply call reply) ∈ tr ∧ call.args.leaderID = p

/-- What a goroutine of `p` holds was sent to `p`, what it waits for was sent by `p`, and its
election took place. `phaseChange` is never called asynchronously for a leader. -/
def Goroutine.Sourced (tr : List (Event n α)) (p : Fin n) : Goroutine n α → Prop
  | .phaseChange ph => ph ≠ .leader
  | .awaitVotes election _ _ _ => .candidacy p election ∈ tr
  | .candidateCheck election _ => .candidacy p election ∈ tr
  | .callResult election _ => .candidacy p election ∈ tr
  | .initLeader election => .elected p election ∈ tr
  | .heartbeat election _ => .elected p election ∈ tr ∧ .initLeader p election ∈ tr
  | .heartbeatSleep beat replies =>
    (.elected p beat.election ∈ tr ∧ .initLeader p beat.election ∈ tr) ∧
      ∀ (ID : ℕ) reply, replies[ID]? = some reply → reply.success = true →
        ∃ call, .sent (.appendEntriesReply call reply) ∈ tr ∧ call.beat = beat ∧
          (call.server : ℕ) = ID ∧ call.args.leaderID = p
  | .callRequestVote call => .sent (.requestVote call) ∈ tr ∧ call.args.candidateID = p
  | .doneCh call vote =>
    .sent (.requestVote call) ∈ tr ∧ call.args.candidateID = p ∧ (vote = true →
      ∃ reply, .sent (.requestVoteReply call reply) ∈ tr ∧ reply.voteGranted = true)
  | .callAppendEntries call => .sent (.appendEntries call) ∈ tr ∧ call.args.leaderID = p
  | .termSync job => job.Sourced tr p
  | .demote job _ => job.Sourced tr p
  | .requestVote call _ => .sent (.requestVote call) ∈ tr ∧ call.server = p
  | .appendEntries call _ => .sent (.appendEntries call) ∈ tr ∧ call.server = p
  | _ => True

/-- A node that is up is the peer it should be, and all its goroutines are accounted for. -/
def Node.Sourced (tr : List (Event n α)) (p : Fin n) : Node n α → Prop
  | .down _ => True
  | .up rf gs => rf.me = p ∧ ∀ gr ∈ gs, gr.Sourced tr p

theorem Job.Sourced.append {job : Job n α} (h : job.Sourced tr p) : job.Sourced (tr ++ es) p := by
  cases job with
  | sendRequestVote call reply =>
    exact ⟨List.mem_append_left _ h.1, h.2.1, List.mem_append_left _ h.2.2⟩
  | _ => exact ⟨List.mem_append_left _ h.1, h.2⟩

theorem Goroutine.Sourced.append {gr : Goroutine n α} (h : gr.Sourced tr p) :
    gr.Sourced (tr ++ es) p := by
  cases gr with
  | phaseChange => exact h
  | awaitVotes | candidateCheck | callResult | initLeader => exact List.mem_append_left _ h
  | heartbeat => exact ⟨List.mem_append_left _ h.1, List.mem_append_left _ h.2⟩
  | heartbeatSleep beat replies =>
    refine ⟨⟨List.mem_append_left _ h.1.1, List.mem_append_left _ h.1.2⟩, fun ID reply hr hs => ?_⟩
    obtain ⟨call, hc, hrest⟩ := h.2 ID reply hr hs
    exact ⟨call, List.mem_append_left _ hc, hrest⟩
  | doneCh call vote =>
    refine ⟨List.mem_append_left _ h.1, h.2.1, fun hv => ?_⟩
    obtain ⟨reply, hr, hg⟩ := h.2.2 hv
    exact ⟨reply, List.mem_append_left _ hr, hg⟩
  | callRequestVote | callAppendEntries | requestVote | appendEntries =>
    exact ⟨List.mem_append_left _ h.1, h.2⟩
  | termSync job => exact Job.Sourced.append h
  | demote job myTerm => exact Job.Sourced.append h
  | _ => trivial

theorem Node.Sourced.append {nd : Node n α} (h : nd.Sourced tr p) : nd.Sourced (tr ++ es) p := by
  cases nd with
  | down persister => trivial
  | up rf gs => exact ⟨h.1, fun gr hgr => (h.2 gr hgr).append⟩

theorem Packet.Sourced.append {packet : Packet n α} (h : packet.Sourced tr) :
    packet.Sourced (tr ++ es) := by
  cases packet with
  | requestVote call => exact ⟨List.mem_append_left _ h.1, h.2⟩
  | appendEntries call => exact h
  | _ => exact List.mem_append_left _ h

/-! ### One critical section

What a critical section sends goes into the trace at once; what it keeps in a goroutine comes from
the goroutine it was, or from an event that it has just emitted. -/

@[simp] theorem Job.react_rf (job : Job n α) (rf : Raft n α) (myTerm : ℕ) :
    (job.react rf myTerm).rf = rf := by
  cases job <;> rfl

@[simp] theorem Job.ignore_rf (job : Job n α) (rf : Raft n α) (myTerm : ℕ) :
    (job.ignore rf myTerm).rf = rf := by
  cases job <;> rfl

theorem Raft.appendEntriesArgs_leaderID {ID : Fin n} {args : AppendEntriesArgs n α}
    (h : rf.appendEntriesArgs ID = some args) : args.leaderID = rf.me := by
  obtain ⟨_, _, _, _, _, _, rfl⟩ := Raft.appendEntriesArgs_eq_some h
  rfl

/-- What a goroutine goes on with, and what it starts, is accounted for. -/
theorem Spawns.sourced {gr gr' : Goroutine n α} (h : Spawns rf gr gr' es) (hme : rf.me = p)
    (hgr : gr.Sourced tr p) : gr'.Sourced (tr ++ es) p := by
  cases h with
  | routine h => cases h <;> trivial
  | awaitVotes _ he => exact List.mem_append_right _ (hme ▸ he)
  | callRequestVote he hcand => exact ⟨List.mem_append_right _ he, hcand.trans hme⟩
  | vote | lastVote | candidateCheck => exact List.mem_append_left _ hgr
  | elected => exact List.mem_append_right _ (hme ▸ List.mem_singleton.mpr rfl)
  | initLeader =>
    exact ⟨List.mem_append_left _ hgr, List.mem_append_right _ (hme ▸ List.mem_singleton.mpr rfl)⟩
  | heartbeatSleep =>
    refine ⟨⟨List.mem_append_left _ hgr.1, List.mem_append_left _ hgr.2⟩, fun ID reply hr hs => ?_⟩
    cases List.eq_of_mem_replicate (List.mem_of_getElem? hr)
    cases hs
  | callAppendEntries he hargs =>
    exact ⟨List.mem_append_right _ he, (Raft.appendEntriesArgs_leaderID hargs).trans hme⟩
  | commit => exact ⟨List.mem_append_left _ hgr.1.1, List.mem_append_left _ hgr.1.2⟩
  | raise => exact hgr.append
  | requestVote | appendEntries | demoteRequestVote | demoteAppendEntries =>
    exact ⟨List.mem_append_left _ hgr.1, hgr.2⟩
  | doneCh | demoteDoneCh =>
    exact ⟨List.mem_append_left _ hgr.1, hgr.2.1,
      fun hv => ⟨_, List.mem_append_left _ hgr.2.2, hv⟩⟩

/-- No critical section changes `rf.me`. -/
theorem Runs.me_eq {gr : Goroutine n α} {e : Effect n α} (h : Runs gob rf gr e) :
    e.rf.me = rf.me := by
  cases h with
  | commit _ hadjust hcommit =>
    obtain ⟨_, _, rfl⟩ := Raft.adjustIndices_eq hadjust
    rcases Raft.commitPhase_eq_some hcommit with ⟨rfl, _⟩ | ⟨_, _, _, _, rfl, _⟩ <;> rfl
  | applyEntries h =>
    obtain rfl := Raft.applyEntries_eq_some h
    rfl
  | merge _ _ hr =>
    obtain ⟨_, _, _, rfl⟩ := Raft.mergeLog_eq_some hr
    rfl
  | react | ignore | demote | demoteSame => simp
  | _ => rfl

/-- What a critical section sends goes back to something. -/
theorem Runs.sent_sourced {gr : Goroutine n α} {e : Effect n α} (h : Runs gob rf gr e)
    (hgr : gr.Sourced tr p) {packet : Packet n α} (hp : .sent packet ∈ e.events) :
    packet.Sourced (tr ++ e.events) := by
  have hsend := h.sends hp
  generalize e.rf = rf' at hsend
  cases hsend with
  | requestVote _ _ hs hargs =>
    refine ⟨List.mem_append_right _ ?_, by rw [hargs]; exact hs⟩
    cases h with
    | callElection _ _ hargs' => rw [hargs, hargs']; exact List.mem_cons_self
    | callElectionExit => cases hp
  | appendEntries _ hs _ hargs =>
    exact fun h => hs (h.trans (Raft.appendEntriesArgs_leaderID hargs))
  | _ => exact List.mem_append_left _ hgr.1

/-- A reply that is put in its slot is accounted for. -/
theorem Goroutine.Sourced.set {call : EntriesCall n α} {reply : AppendEntriesReply}
    {replies : List AppendEntriesReply}
    (h : (Goroutine.heartbeatSleep call.beat replies : Goroutine n α).Sourced tr p)
    (hr : .sent (.appendEntriesReply call reply) ∈ tr) (hp : call.args.leaderID = p) :
    (Goroutine.heartbeatSleep call.beat (replies.set call.server reply) :
      Goroutine n α).Sourced tr p := by
  refine ⟨h.1, fun ID r hr' hs => ?_⟩
  rw [List.getElem?_set] at hr'
  split at hr'
  · rename_i hID
    split at hr'
    · cases hr'
      exact ⟨call, hr, rfl, hID, hp⟩
    · cases hr'
  · exact h.2 ID r hr' hs

/-! ### The invariant

Packets refer to the trace by membership, so nothing has to be said about order or multiplicity. -/

theorem Raft.make_me [Inhabited α] (gob : Labgob n α) (p : Fin n) (persister : List UInt8) :
    (Raft.make gob p persister).me = p := by
  obtain ⟨_, _, _, h⟩ := Raft.make_eq gob p persister
  rw [h]

theorem StructStep.me_eq [Inhabited α] {a : Action n α} {nd : Node n α} {rf' : Raft n α}
    (h : StructStep gob p a nd rf') (hnd : ∀ rf gs, nd = .up rf gs → rf.me = p) : rf'.me = p := by
  cases h with
  | make => exact Raft.make_me ..
  | same => exact hnd _ _ rfl
  | kill => exact (hnd _ _ rfl :)
  | start => exact (hnd _ _ rfl :)
  | run _ h => exact h.me_eq.trans (hnd _ _ rfl)

namespace Cluster

variable [Inhabited α]

/-- Everything in flight goes back to the trace. -/
structure InFlight (c : Cfg n α) : Prop where
  net : ∀ packet ∈ c.state.net, .sent packet ∈ c.trace
  /-- Goroutines work on what was sent. -/
  node : ∀ p, (c.state.node p).Sourced c.trace p
  /-- A reply goes back to a request, and a request to an election. -/
  sent : ∀ packet, .sent packet ∈ c.trace → packet.Sourced c.trace

omit [Inhabited α] in
/-- The step lemma for a goroutine. -/
theorem InFlight.origin {c : Cfg n α} (hc : InFlight c) {a : Action n α} {gr : Goroutine n α}
    (h : Origin gob c.state.net p a (c.state.node p) gr es) : gr.Sourced (c.trace ++ es) p := by
  have hnode := hc.node p
  generalize c.state.node p = nd at h hnode
  cases h with
  | booted => trivial
  | kept hg => exact (hnode.2 _ hg).append
  | spawned ha h hn => exact (h.spawns hn).sourced hnode.1 (hnode.2 _ ha.mem)
  | voted hg => exact (hnode.2 _ hg).append
  | answered hg hk hp => exact ((hnode.2 _ hg).set (hc.net _ hk) hp).append
  | interrupted h =>
    rcases h with rfl | ⟨_, rfl, hph⟩
    · trivial
    · exact hph
  | failed hg =>
    exact ⟨List.mem_append_left _ (hnode.2 _ hg).1, (hnode.2 _ hg).2, nofun⟩
  | requestVote hk hp => exact ⟨List.mem_append_left _ (hc.net _ hk), hp⟩
  | appendEntries hk hp => exact ⟨List.mem_append_left _ (hc.net _ hk), hp⟩
  | requestVoteReply hk hp hg =>
    exact ⟨List.mem_append_left _ (hnode.2 _ hg).1, hp, List.mem_append_left _ (hc.net _ hk)⟩
  | appendEntriesReply hk hp hg => exact ⟨List.mem_append_left _ (hc.net _ hk), hp⟩

/-- The step lemma for one node. -/
theorem InFlight.node_step {c : Cfg n α} (hc : InFlight c) {a : Action n α} {nd : Node n α}
    (h : NodeStep gob c.state.net p a (c.state.node p) nd es) : nd.Sourced (c.trace ++ es) p := by
  cases nd with
  | down persister => trivial
  | up rf gs =>
    refine ⟨h.struct.me_eq fun rf₀ gs₀ hnd => ?_, fun gr hgr => hc.origin (h.origin hgr)⟩
    have hnode := hc.node p
    rw [hnd] at hnode
    exact hnode.1

/-- The step lemma for the packets a step sends. -/
theorem InFlight.sends {c : Cfg n α} (hc : InFlight c) {a : Action n α} {nd : Node n α}
    (h : NodeStep gob c.state.net p a (c.state.node p) nd es) {packet : Packet n α}
    (hp : .sent packet ∈ es) : packet.Sourced (c.trace ++ es) := by
  have hnode := hc.node p
  have hemits := h.emits hp
  generalize c.state.node p = nd₀ at hnode hemits
  cases hemits with
  | sent ha hr _ => exact hr.sent_sourced (hnode.2 _ ha.mem) hp

variable [DecidableEq α] {ok : Cfg n α → Action n α → Prop} {c : Cfg n α}

theorem inFlight_of_reachable (hc : (system gob).Reachable ok c) : InFlight c := by
  refine System.Reachable.invariant (M := system gob) ?_ ?_ hc
  · exact ⟨nofun, fun _ => trivial, nofun⟩
  · intro c a c' _ hI _ hn
    obtain ⟨es, p, nd, hm, ht⟩ := next_moves hn
    refine ⟨fun packet hp => ?_, fun q => ?_, fun packet hp => ?_⟩
    · rw [ht]
      rcases hm.mem_net packet hp with hp | hp
      · exact List.mem_append_left _ (hI.net packet hp)
      · exact List.mem_append_right _ hp
    · rw [ht, hm.node_eq]
      rcases eq_or_ne q p with rfl | hq
      · rw [Function.update_self]
        exact hI.node_step hm.node_step
      · rw [Function.update_of_ne hq]
        exact (hI.node q).append
    · rw [ht] at hp ⊢
      rcases List.mem_append.mp hp with hp | hp
      · exact (hI.sent packet hp).append
      · exact hI.sends hm.node_step hp

end Cluster

end Distsys
