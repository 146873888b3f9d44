import Distsys.Raft.Bounds
import Distsys.Raft.Commit
import Distsys.Raft.History

/-!
# The cluster refines the protocol

In a run whose critical sections are timely (`Cluster.Timely`), every action of the history is one
that the protocol allows. The relation that is carried along (`Cluster.Refines`) says how the state
of the protocol is spread over the cluster: terms and logs are the durable state of the peers,
leaders are the elections won, and every message and every entry of `matchIndex` is backed by the
history.

| In the cluster | In the protocol |
|---|---|
| a request for votes | the log its candidate stood with |
| a vote | a ballot, unless the term has a leader already |
| an `AppendEntries` request | a part of the chronicle of its term |
| a successful reply, an entry of `matchIndex` | what the peer has acknowledged |

## Main definitions

* `Carries`, `Matched`
* `Cluster.Refines` — the relation between cluster and protocol

## Main results

* `Cluster.allowed_of_meant` — what a step means is allowed

That the relation is kept is `Distsys.Raft.Simulation`.
-/

namespace Distsys

open ReplicatedLog (State Setting)

variable {n : ℕ} {α : Type} {gob : Labgob n α} {rf : Raft n α}
  {A A' : State (Fin n) (LogEntry α)}

/-! ### Messages and the protocol

The state of the protocol has no messages. What a message says is a fact about the history, and
since the history only grows it is still a fact when the message arrives. -/

/-- A call of `sendAppendEntries` comes from the leader of its term and carries the entries behind
`PrevLogIndex` of the first `myLastIndex + 1` entries of the chronicle. -/
structure Carries (A : State (Fin n) (LogEntry α)) (call : EntriesCall n α) : Prop where
  leader : A.leader call.args.term = some call.args.leaderID
  /-- The heartbeat belongs to the leadership of this term. -/
  election : call.beat.election = call.args.term
  part : ∃ (k m : ℕ) (prev : LogEntry α), call.args.prevLogIndex = k ∧ k < m ∧
    call.beat.myLastIndex + 1 = m ∧ m ≤ (A.chron call.args.term).length ∧
    (A.chron call.args.term)[k]? = some prev ∧ prev.term = call.args.prevLogTerm ∧
    call.args.entries = ((A.chron call.args.term).take m).drop (k + 1)

theorem Carries.mono {call : EntriesCall n α} (h : Carries A call) (hg : A.Grows A') :
    Carries A' call := by
  obtain ⟨hl, he, k, m, prev, hk, hkm, hm, hle, hprev, hterm, hentries⟩ := h
  refine ⟨hg.leader hl, he, k, m, prev, hk, hkm, hm, hle.trans (hg.chron hl).length_le, ?_, hterm,
    ?_⟩
  · obtain ⟨X, hX⟩ := hg.chron hl
    rw [← hX, List.getElem?_append_left (hkm.trans_le hle)]
    exact hprev
  · rw [hg.take_eq hl hle]
    exact hentries

/-- **What is merged is the part of the chronicle that the call carries**, from the start, whenever
the log is well formed and agrees at `PrevLogIndex`. -/
theorem Carries.merge [Inhabited α] {hodd : Odd n} {call : EntriesCall n α} (h : Carries A call)
    (hI : (setting hodd).Inv A) {log : List (LogEntry α)}
    (hlog : (setting hodd).WellFormed A.leader A.chron log) {k : ℕ} {prev : LogEntry α}
    (hk : call.args.prevLogIndex = k) (hprev : log[k]? = some prev)
    (hterm : prev.term = call.args.prevLogTerm) :
    ∃ m : ℕ, call.beat.myLastIndex + 1 = m ∧
      call.args.prevLogIndex + 1 + call.args.entries.length = m ∧ 0 < m ∧
      m ≤ (A.chron call.args.term).length ∧
      log.take (k + 1) ++ call.args.entries = (A.chron call.args.term).take m := by
  obtain ⟨hl, _, k', m, prev', hk', hkm, hm, hle, hprev', hterm', hentries⟩ := h
  obtain rfl : k = k' := by omega
  have htake : log.take (k + 1) = (A.chron call.args.term).take (k + 1) :=
    hlog.take_eq (hI.chron_wf hl) hprev hprev' (hterm.trans hterm'.symm)
  have hlen : call.args.entries.length = m - (k + 1) := by
    rw [hentries, List.length_drop, List.length_take, min_eq_left hle]
  refine ⟨m, hm, by omega, by omega, hle, ?_⟩
  rw [htake, hentries, ← min_eq_left (show k + 1 ≤ m from hkm), ← List.take_take, min_eq_left hkm,
    List.take_append_drop]

/-- Every positive entry of `matchIndex` was acknowledged in the current term. -/
def Matched (A : State (Fin n) (LogEntry α)) (p : Fin n) (rf : Raft n α) : Prop :=
  ∀ F, F ≠ p → ∀ k, GoSlice.get rf.matchIndex (F : ℕ) = some k → 0 < k →
    A.acked F rf.currentTerm (k + 1).toNat

namespace Cluster

variable [Inhabited α]

/-- The state `A` of the protocol is that of the cluster in the configuration `c`. -/
structure Refines (gob : Labgob n α) (c : Cfg n α) (A : State (Fin n) (LogEntry α)) : Prop where
  /-- Terms and logs are those that are saved. -/
  term : ∀ p, A.term p = (saved gob c p).1
  log : ∀ p, A.log p = (saved gob c p).2.2
  /-- Leaders are those that were elected. -/
  leader : ∀ {p T}, A.leader T = some p ↔ .elected p T ∈ c.trace
  /-- A candidate asks for votes with the log it stood with. -/
  stood : ∀ {call : VoteCall n}, .sent (.requestVote call) ∈ c.trace →
    ∃ (L : List (LogEntry α)) (last : LogEntry α),
      A.stood call.args.candidateID call.args.term = some L ∧ L.getLast? = some last ∧
      call.args.lastLogTerm = last.term ∧ call.args.lastLogIndex = L.length - 1
  /-- Votes are ballots. A vote that comes after the election is decided need not be one. -/
  ballot : ∀ {v T p}, Voted c.trace v T p → A.leader T = none → ∃ B, A.ballot v T p B
  /-- Messages of a leader are parts of its chronicle. -/
  entries : ∀ {call : EntriesCall n α}, .sent (.appendEntries call) ∈ c.trace → Carries A call
  /-- A reply acknowledges the log up to the end of the message. -/
  acked : ∀ {call : EntriesCall n α} {reply}, .sent (.appendEntriesReply call reply) ∈ c.trace →
    reply.success = true → A.acked call.server call.args.term (call.beat.myLastIndex + 1).toNat
  /-- A leader knows of acknowledgements only, once `initLeader` has reset its indices. -/
  matched : ∀ {p rf gs}, c.state.node p = .up rf gs → .initLeader p rf.currentTerm ∈ c.trace →
    Matched A p rf

variable [DecidableEq α] {ok : Cfg n α → Action n α → Prop} {c c' : Cfg n α} {a : Action n α}
  {p : Fin n} {gs : List (Goroutine n α)} {es : List (Event n α)} {hodd : Odd n}

/-! ### Every action is allowed

The protocol asks something of each action: that a candidate that is elected has ballots of a
majority, that entries come from the chronicle, and so on. Each of these is read off the relation
and the condition of the critical section that is at work. -/

theorem Refines.up (hR : Refines gob c A) (hc : (system gob).Reachable ok c)
    (hnd : c.state.node p = .up rf gs) : A.term p = rf.currentTerm ∧ A.log p = rf.log := by
  rw [hR.term, hR.log, ← durable_eq_saved hc hnd]
  exact ⟨rfl, rfl⟩

/-- A `heartbeat` that finds its peer in phase leader is one of the leader of the current term. -/
theorem Refines.leads (hR : Refines gob c A) (hc : (system gob).Reachable ok c)
    (hb : BeatsInTerm c a) (hnd : c.state.node p = .up rf gs) {gr : Goroutine n α}
    (ha : At p gs a (some gr)) {election : ℕ} (hgr : election ∈ gr.heartbeat?)
    (hl : rf.phase = .leader) :
    A.leader rf.currentTerm = some p ∧ rf.currentTerm = election ∧
      .initLeader p rf.currentTerm ∈ c.trace := by
  have hterm := hb.at hnd ha election hgr hl
  have hsrc := (inFlight_of_reachable hc).node p
  rw [hnd] at hsrc
  have hgs := hsrc.2 gr ha.mem
  have hev : .elected p election ∈ c.trace ∧ .initLeader p election ∈ c.trace := by
    cases gr with
    | heartbeat => cases hgr; exact hgs
    | heartbeatSleep => cases hgr; exact hgs.1
    | _ => cases hgr
  rw [hR.leader, hterm]
  exact ⟨hev.1, rfl, hev.2⟩

/-- While the leader of a term is in it, its log is the chronicle. -/
theorem Refines.log_eq_chron (hR : Refines gob c A) (hI : (setting hodd).Inv A)
    (hc : (system gob).Reachable ok c) (hnd : c.state.node p = .up rf gs)
    (hl : A.leader rf.currentTerm = some p) : rf.log = A.chron rf.currentTerm := by
  obtain ⟨hAt, hAl⟩ := hR.up hc hnd
  rw [← hAt] at hl
  rw [← hAl, hI.current hl, hAt]

theorem allowed_grant (hR : Refines gob c A) (hc : (system gob).Reachable ok c)
    (hg : GrantsInTerm c a) (hnd : c.state.node p = .up rf gs) {call : VoteCall n} {myTerm : ℕ}
    (ha : At p gs a (some (.requestVote call myTerm))) {last : LogEntry α}
    (hfree : rf.freeToVote call.args)
    (hlast : GoSlice.get rf.log (rf.log.length - 1) = some last)
    (hdate : Raft.upToDate call.args (rf.log.length - 1) last.term)
    (hnone : ¬ ∃ q, .elected q call.args.term ∈ c.trace) :
    (setting hodd).Allowed A (.grant p call.args.candidateID) := by
  have hterm := hg.at hnd ha call rfl ⟨hfree, last, hlast, hdate⟩
  obtain ⟨hAt, hAl⟩ := hR.up hc hnd
  have hsrc := (inFlight_of_reachable hc).node p
  rw [hnd] at hsrc
  obtain ⟨L, lastL, hL, hgl, ht, hi⟩ := hR.stood (hsrc.2 _ ha.mem).1
  rw [← hterm] at hL hnone
  refine ⟨?_, L, by rw [hAt]; exact hL, ?_⟩
  · rw [hAt, Option.eq_none_iff_forall_ne_some]
    exact fun q hq => hnone ⟨q, hR.leader.mp hq⟩
  · have hstampL : (setting hodd).lastStamp L = lastL.term := by
      rw [Setting.lastStamp, hgl]
      rfl
    have hstampB : (setting hodd).lastStamp (A.log p) = last.term := by
      obtain ⟨k, hk, hget⟩ := GoSlice.get_eq_some_iff.mp hlast
      rw [hAl, Setting.lastStamp, List.getLast?_eq_getElem?, show rf.log.length - 1 = k by omega,
        hget]
      rfl
    rw [Setting.UpToDate, hstampL, hstampB, hAl]
    rcases hdate with h | ⟨h, h'⟩
    · exact Or.inl (by omega)
    · exact Or.inr ⟨by omega, by omega⟩

/-- A merge takes over the part of the chronicle that its call carries. -/
theorem allowed_accept (hR : Refines gob c A) (hI : (setting hodd).Inv A)
    (hc : (system gob).Reachable ok c) (hg : AcceptsInTerm c a)
    (hnd : c.state.node p = .up rf gs) {call : EntriesCall n α} {myTerm k : ℕ}
    (ha : At p gs a (some (.appendEntries call myTerm))) {prev : LogEntry α}
    (hk : call.args.prevLogIndex = k) (hprev : rf.log[k]? = some prev)
    (hterm : prev.term = call.args.prevLogTerm) :
    ∃ m : ℕ, call.args.prevLogIndex + 1 + call.args.entries.length = m ∧
      call.beat.myLastIndex + 1 = m ∧ call.args.term = A.term p ∧ call.server = p ∧
      rf.log.take (k + 1) ++ call.args.entries = (A.chron (A.term p)).take m ∧
      (setting hodd).Allowed A (.accept p m) := by
  obtain ⟨hAt, hAl⟩ := hR.up hc hnd
  have hin := inFlight_of_reachable hc
  have hsrc := hin.node p
  rw [hnd] at hsrc
  obtain ⟨hsent, hserver⟩ := hsrc.2 _ ha.mem
  have hcarries := hR.entries hsent
  have heq : A.term p = call.args.term := by
    refine hAt.trans (hg.at hnd ha call rfl ⟨prev, ?_, hterm⟩)
    rw [hk, Option.mem_def, GoSlice.get_natCast]
    exact hprev
  obtain ⟨m, hm, hlen, hpos, hle, hmerge⟩ :=
    hcarries.merge hI (hAl ▸ hI.log_wf p) hk hprev hterm
  rw [← heq] at hmerge hle
  refine ⟨m, hlen, hm, heq.symm, hserver, hmerge, ⟨_, heq ▸ hcarries.leader, ?_⟩, hpos, hle⟩
  exact fun h => hin.sent _ hsent (hserver.trans h.symm)

/-- Nobody leads the term of an election that is won for the first time. -/
theorem Refines.unled (hodd : Odd n) (hR : Refines gob c A) (hok : ∀ c a, ok c a → Timely c a)
    (hc : (system gob).Reachable ok c) (ha : ok c a) (hn : (system gob).next c a = some c')
    {election voteCount : ℕ} (ht : c'.trace = c.trace ++ [.elected p election])
    (hnd : c.state.node p = .up rf gs) (hat : At p gs a (some (.callResult election voteCount)))
    (hvotes : Raft.majority n ≤ voteCount) (h : rf.phase ≠ .exit) (h' : rf.phase ≠ .leader)
    (hnew : .elected p election ∉ c.trace) :
    A.term p = election ∧ A.leader election = none := by
  have hel : .elected p election ∈ c'.trace := by
    rw [ht]
    exact List.mem_append_right _ (List.mem_singleton.mpr rfl)
  refine ⟨(hR.up hc hnd).1.trans
    ((hok c a ha).wins.at hnd hat (election, voteCount) rfl hvotes h h'), ?_⟩
  rw [Option.eq_none_iff_forall_ne_some]
  intro q hq
  have hq' := hR.leader.mp hq
  have : p = q := elected_unique hodd (fun c a h => (hok c a h).grants) (hc.tail ha hn) hel
    (ht ▸ List.mem_append_left _ hq')
  exact hnew (this ▸ hq')

/-- An election that is won has a quorum of ballots. -/
theorem allowed_elect (hR : Refines gob c A) (hc' : (system gob).Reachable ok c') {election : ℕ}
    (ht : c'.trace = c.trace ++ [.elected p election]) (hterm : A.term p = election)
    (hnone : A.leader election = none) : (setting hodd).Allowed A (.elect p) := by
  have hel : .elected p election ∈ c'.trace := by
    rw [ht]
    exact List.mem_append_right _ (List.mem_singleton.mpr rfl)
  refine ⟨hterm ▸ hnone, voters c'.trace p election, majority_of_elected hc' hel, fun v hv => ?_⟩
  rw [mem_voters, ht, voted_append] at hv
  rw [hterm]
  refine hR.ballot (hv.resolve_right (not_voted_of_quiet fun ev hev => ?_)) hnone
  cases List.mem_singleton.mp hev
  trivial

/-- A successful reply that `heartbeat` has received is an acknowledgement. -/
theorem Refines.replied (hR : Refines gob c A) (hc : (system gob).Reachable ok c)
    (hnd : c.state.node p = .up rf gs) {beat : Beat} {replies : List AppendEntriesReply}
    (hg : .heartbeatSleep beat replies ∈ gs) {F : Fin n} {reply : AppendEntriesReply}
    (hr : replies[(F : ℕ)]? = some reply) (hs : reply.success = true) :
    A.acked F beat.election (beat.myLastIndex + 1).toNat := by
  have hin := inFlight_of_reachable hc
  have hsrc := hin.node p
  rw [hnd] at hsrc
  obtain ⟨call, hsent, rfl, hF, _⟩ := (hsrc.2 _ hg).2 F reply hr hs
  obtain rfl := Fin.ext hF
  rw [(hR.entries (hin.sent _ hsent)).election]
  exact hR.acked hsent hs

/-- After the loop over the replies, `matchIndex` is still backed by acknowledgements. -/
theorem Refines.adjusted (hR : Refines gob c A) (hc : (system gob).Reachable ok c)
    (hb : BeatsInTerm c a) (hnd : c.state.node p = .up rf gs) {beat : Beat}
    {replies : List AppendEntriesReply} (ha : At p gs a (some (.heartbeatSleep beat replies)))
    (hl : rf.phase = .leader) {F : Fin n} (hF : F ≠ p) {k : ℤ} (hk : 0 < k)
    (h : GoSlice.get rf.matchIndex (F : ℕ) = some k ∨
      k = beat.myLastIndex ∧ ∃ reply, replies[(F : ℕ)]? = some reply ∧ reply.success = true) :
    A.acked F rf.currentTerm (k + 1).toNat := by
  obtain ⟨_, hterm, hinit⟩ := hR.leads hc hb hnd ha rfl hl
  rcases h with h | ⟨rfl, reply, hr, hs⟩
  · exact hR.matched hnd hinit F hF k h hk
  · rw [hterm]
    exact hR.replied hc hnd ha.mem hr hs

/-- A raised `commitIndex` is the index of an entry of the current term that a majority has
acknowledged. -/
theorem allowed_commit (hR : Refines gob c A) (hI : (setting hodd).Inv A)
    (hc : (system gob).Reachable ok c) (hb : BeatsInTerm c a) {i : ℤ} (h : Commits c a p i) :
    (setting hodd).Allowed A (.commit p (i + 1).toNat) := by
  obtain ⟨rf, gs, beat, replies, rf₁, rf₂, hnd, ha, hl, hadjust, hcommit, hi⟩ := h
  obtain ⟨hAt, hAl⟩ := hR.up hc hnd
  have hlead : A.leader (A.term p) = some p := hAt ▸ (hR.leads hc hb hnd ha rfl hl).1
  have hme := me_of_reachable hc hnd
  have hmatch := fun F k => Raft.matchIndex_of_adjustIndices (F := F) (k := k) hadjust
  obtain ⟨ni, mi, rfl⟩ := Raft.adjustIndices_eq hadjust
  rcases Raft.commitPhase_eq_some hcommit with
    ⟨_, hfalse⟩ | ⟨m, j, e, hm, rfl, _, hlt, hjm, hget, ht⟩
  · cases hfalse
  · obtain rfl : j = i := hi
    have hpos : 0 < j := by
      have := indices_of_reachable hc hnd
      have : rf.commitIndex < j := hlt
      omega
    refine ⟨hlead, ?_, _, Raft.majority_le_matched hm hpos hjm, fun F hFQ => ?_⟩
    · obtain ⟨k, rfl, hk⟩ := GoSlice.get_eq_some_iff.mp hget
      refine ⟨k, e, by omega, ?_, ht.trans hAt.symm⟩
      rw [← hI.current hlead, hAl]
      exact hk
    · rcases Raft.mem_matched.mp hFQ with rfl | ⟨k, hk, hjk⟩
      · exact Or.inl hme
      · rcases eq_or_ne F p with rfl | hne
        · exact Or.inl rfl
        · refine Or.inr (hI.acked_down ?_ (Int.toNat_le_toNat (Int.add_le_add_right hjk 1)))
          rw [hAt]
          exact hR.adjusted hc hb hnd ha hl hne (hpos.trans_le hjk) (hmatch F k hk)

/-- **What a step means is allowed.** -/
theorem allowed_of_meant (hR : Refines gob c A) (hI : (setting hodd).Inv A)
    (hok : ∀ c a, ok c a → Timely c a) (hc : (system gob).Reachable ok c) (ha : ok c a)
    (hn : (system gob).next c a = some c')
    {mean : Option (ReplicatedLog.Action (Fin n) (LogEntry α))} (hm : Meant gob c a c' mean)
    {act : ReplicatedLog.Action (Fin n) (LogEntry α)} (hact : mean = some act) :
    (setting hodd).Allowed A act := by
  have htime := hok c a ha
  cases hm with
  | nothing => cases hact
  | start ht hnd hat hl =>
    cases hact
    obtain ⟨hAt, _⟩ := hR.up hc hnd
    exact ⟨hR.leader.mpr (hAt ▸ htime.starts.elected hnd hat hl), hAt.symm⟩
  | @write p rf gs gr es ht hnd hat hw hs =>
    obtain rfl := me_of_reachable hc hnd
    generalize saved gob c' rf.me = d at hw
    cases hw with
    | campaign => cases hact; trivial
    | raise h =>
      cases hact
      exact (hR.up hc hnd).1.trans_lt h
    | vote hfree hlast hdate =>
      simp only [Goroutine.means] at hact
      split at hact
      · cases hact
      · rename_i hnone
        cases hact
        exact allowed_grant hR hc htime.grants hnd hat hfree hlast hdate hnone
    | merge hk hprev hterm =>
      cases hact
      obtain ⟨m, hm, _, _, _, _, hall⟩ :=
        allowed_accept hR hI hc htime.accepts hnd hat hk hprev hterm
      rw [hm]
      exact hall
  | elect ht hnd hat hvotes h h' hs hnew =>
    cases hact
    obtain ⟨hterm, hnone⟩ := hR.unled hodd hok hc ha hn ht hnd hat hvotes h h' hnew
    exact allowed_elect hR (hc.tail ha hn) ht hterm hnone
  | commit ht hcommit hs =>
    cases hact
    exact allowed_commit hR hI hc htime.beats hcommit

end Cluster

end Distsys
