import Distsys.Raft.Encoding
import Distsys.Raft.Simulation

/-!
# State machine safety

Two peers never hand different commands for the same index to their services. Every peer takes an
entry as committed because the leader said so, and the leader because a majority has acknowledged
it. In terms of the protocol everything up to `commitIndex` is settled, and of two settled entries
at one index the later leader has both.

The cluster keeps this promise in every run whose critical sections are timely and in which no
message cuts off entries that it does not contradict. The second condition is needed even if the
first one holds throughout: a late heartbeat can take an entry away from a peer that has
acknowledged it, and the peers that are left can then decide on another command for its index.
Since requests are encoded from the array of the log after the critical section that builds them,
the final statement also asks that they are encoded as they were built.

## Main definitions

* `Cluster.Informed` — what peers take as committed is settled

## Main results

* `Cluster.History.informed`
* `Cluster.state_machine_safety`
* `Cluster.late_heartbeat_splits_state_machines` — without the condition on the splice
-/

namespace Distsys

open ReplicatedLog (State Setting)
open Encoding (AsBuilt)

variable {n : ℕ} {α : Type} {gob : Labgob n α} {rf : Raft n α}
  {A A' : State (Fin n) (LogEntry α)}

namespace Cluster

variable [Inhabited α] [DecidableEq α] {ok : Cfg n α → Action n α → Prop} {c c' : Cfg n α}
  {a : Action n α} {p : Fin n} {gs : List (Goroutine n α)} {hodd : Odd n}
  {mean : Option (ReplicatedLog.Action (Fin n) (LogEntry α))}

/-! ### Commits

What a leader commits has been acknowledged by a majority, in the term of the leader and up to an
entry of that term. This is the rule of the protocol. -/

omit [Inhabited α] [DecidableEq α] in
/-- An action runs one goroutine of one peer. -/
theorem At.unique {q : Fin n} {rf' : Raft n α} {gs' : List (Goroutine n α)} {gr gr' : Goroutine n α}
    (hnd : c.state.node p = .up rf gs) (ha : At p gs a (some gr))
    (hnd' : c.state.node q = .up rf' gs') (ha' : At q gs' a (some gr')) :
    p = q ∧ rf = rf' ∧ gr = gr' := by
  cases ha with
  | run hg =>
    cases ha' with
    | run hg' =>
      cases hnd.symm.trans hnd'
      cases hg.symm.trans hg'
      exact ⟨rfl, rfl, rfl⟩

omit [DecidableEq α] in
/-- A step that raises `commitIndex` of a leader means just that. -/
theorem Meant.of_commits {i : ℤ} (hm : Meant gob c a c' mean) (h : Commits c a p i) :
    mean = some (.commit p (i + 1).toNat) := by
  obtain ⟨rf, gs, beat, replies, rf₁, rf₂, hnd, ha, hl, hadjust, hcommit, hi⟩ := id h
  cases hm with
  | nothing _ _ _ _ _ hc => exact absurd h (hc p i)
  | start _ _ ha' => cases ha'; cases ha
  | write _ hnd' ha' hw =>
    obtain ⟨_, _, rfl⟩ := At.unique hnd ha hnd' ha'
    cases hw
  | elect _ hnd' ha' => cases (At.unique hnd ha hnd' ha').2.2
  | commit _ h' =>
    obtain ⟨_, _, _, _, _, _, hnd', ha', _, hadjust', hcommit', rfl⟩ := h'
    obtain ⟨rfl, rfl, hgr⟩ := At.unique hnd ha hnd' ha'
    cases hgr
    cases hadjust.symm.trans hadjust'
    cases hcommit.symm.trans hcommit'
    rw [hi]

omit [Inhabited α] [DecidableEq α] in
/-- `heartbeat` raises `commitIndex` by a commit. -/
theorem commits_of_lt {beat : Beat} {replies : List AppendEntriesReply} {e : Effect n α}
    (hnd : c.state.node p = .up rf gs) (ha : At p gs a (some (.heartbeatSleep beat replies)))
    (hr : Runs gob rf (.heartbeatSleep beat replies) e)
    (hlt : rf.commitIndex < e.rf.commitIndex) : Commits c a p e.rf.commitIndex := by
  cases hr with
  | @commit _ _ rf₁ rf₂ commits hl hadjust hcommit =>
    obtain rfl : commits = true := by
      rcases Raft.commitPhase_eq_some hcommit with ⟨rfl, _⟩ | ⟨_, _, _, _, _, h, _⟩
      · obtain ⟨_, _, rfl⟩ := Raft.adjustIndices_eq hadjust
        exact absurd hlt (lt_irrefl _)
      · exact h
    exact ⟨rf, gs, beat, replies, rf₁, rf₂, hnd, ha, hl, hadjust, hcommit, rfl⟩
  | commitExit => exact absurd hlt (lt_irrefl _)

/-! ### What peers take as committed

`commitIndex` travels in messages. A follower takes the smaller of `LeaderCommit` and the end of the
message, so it commits nothing that it does not have from the leader. -/

/-- Everything up to a positive `commitIndex`, of a peer or in a message, is settled, and so is
everything that was applied. -/
structure Informed (c : Cfg n α) (A : State (Fin n) (LogEntry α)) : Prop where
  /-- The log of a peer, up to its `commitIndex`. -/
  node : ∀ {p rf gs}, c.state.node p = .up rf gs → 0 < rf.commitIndex →
    A.SettledUpTo rf.currentTerm (rf.commitIndex + 1).toNat rf.log
  /-- The chronicle of the sender, up to `LeaderCommit`. -/
  sent : ∀ {call : EntriesCall n α}, .sent (.appendEntries call) ∈ c.trace →
    0 < call.args.leaderCommit →
    A.SettledUpTo call.args.term (call.args.leaderCommit + 1).toNat (A.chron call.args.term)
  /-- What a service was given, also by an earlier incarnation of its peer. -/
  applied : ∀ {p : Fin n} {msg : ApplyMsg α}, .applied p msg ∈ c.trace →
    ∃ (i : ℕ) (e : LogEntry α), msg.commandIndex = i ∧ A.Settled i e ∧ e.data = msg.command

/-- A new `AppendEntries` request tells what its leader takes as committed. -/
theorem Informed.sent_next (hN : Informed c A) (hR : Refines gob c A) (hI : (setting hodd).Inv A)
    (hb : BeatsInTerm c a) (hc : (system gob).Reachable ok c)
    (hn : (system gob).next c a = some c') (hg : A.Grows A') {call : EntriesCall n α}
    (h : .sent (.appendEntries call) ∈ c'.trace) (hpos : 0 < call.args.leaderCommit) :
    A'.SettledUpTo call.args.term (call.args.leaderCommit + 1).toNat (A'.chron call.args.term) := by
  suffices hold : A.leader call.args.term = some call.args.leaderID ∧
      A.SettledUpTo call.args.term (call.args.leaderCommit + 1).toNat
        (A.chron call.args.term) from
    hold.2.mono hI hg (le_refl _) (le_refl _) (hg.chron hold.1)
  rcases emits_of_next hn h with h | ⟨p, _, _, _, hnd, hemits⟩
  · exact ⟨(hR.entries h).leader, hN.sent h hpos⟩
  · cases hemits with
    | @sent rf gs gs' gr e _ hat hr hp =>
      have hsend := hr.sends hp
      generalize e.rf = rf' at hsend
      cases hsend with
      | appendEntries hl _ _ hargs =>
        have hlead := (hR.leads hc hb hnd hat rfl hl).1
        obtain ⟨_, k, prev, _, _, _, hargs⟩ := Raft.appendEntriesArgs_eq_some hargs
        rw [hargs] at hpos ⊢
        refine ⟨me_of_reachable hc hnd ▸ hlead, ?_⟩
        dsimp only
        rw [← hR.log_eq_chron hI hc hnd hlead]
        exact hN.node hnd hpos

/-- What is applied is settled. -/
theorem Informed.applied_next (hN : Informed c A) (hI : (setting hodd).Inv A)
    (hc : (system gob).Reachable ok c) (hn : (system gob).next c a = some c') (hg : A.Grows A')
    {q : Fin n} {msg : ApplyMsg α} (h : .applied q msg ∈ c'.trace) :
    ∃ (i : ℕ) (e : LogEntry α), msg.commandIndex = i ∧ A'.Settled i e ∧ e.data = msg.command := by
  suffices hold : ∃ (i : ℕ) (e : LogEntry α),
      msg.commandIndex = i ∧ A.Settled i e ∧ e.data = msg.command by
    obtain ⟨i, e, hi, he, hdata⟩ := hold
    exact ⟨i, e, hi, he.mono hI hg, hdata⟩
  rcases emits_of_next hn h with h | ⟨p, _, _, _, hnd, hemits⟩
  · exact hN.applied h
  · cases hemits with
    | @applied rf gs _ _ _ e hlt hle hget hdata =>
      obtain ⟨i, hi, he⟩ := GoSlice.get_eq_some_iff.mp hget
      have hbounds := indices_of_reachable hc hnd
      have hpos : 0 < rf.commitIndex := by omega
      exact ⟨i, e, hi, (hN.node hnd hpos).settled hI (by omega) he, hdata⟩

/-- A merge raises `commitIndex` to what the leader says, as far as its entries reach. -/
theorem Informed.merge (hN : Informed c A) (hR : Refines gob c A) (hI : (setting hodd).Inv A)
    (hret : A.Retained) (hg : AcceptsInTerm c a) (hk : KeepsUnrefuted c a)
    (hc : (system gob).Reachable ok c) (hnd : c.state.node p = .up rf gs)
    {call : EntriesCall n α} {myTerm k : ℕ}
    (hat : At p gs a (some (.appendEntries call myTerm))) {prev : LogEntry α}
    (hprevIndex : call.args.prevLogIndex = k) (hprev : rf.log[k]? = some prev)
    (hterm : prev.term = call.args.prevLogTerm) {i : ℤ} (hpos : 0 < i)
    (hi : i ≤ rf.commitIndex ∨
      i ≤ call.args.leaderCommit ∧ i ≤ k + call.args.entries.length) :
    A.SettledUpTo rf.currentTerm (i + 1).toNat (rf.log.take (k + 1) ++ call.args.entries) := by
  obtain ⟨hAt, hAl⟩ := hR.up hc hnd
  obtain ⟨m, hm, _, heq, _, hmerge, hall⟩ :=
    allowed_accept hR hI hc hg hnd hat hprevIndex hprev hterm
  rw [hmerge]
  rcases hi with hi | ⟨hi, hle⟩
  · have hold := hN.node hnd (hpos.trans_le hi)
    rw [← hAt, ← hAl] at hold
    rw [← hAt]
    refine (hret.settledUpTo_accept hI hall ?_ hold).mono hI (.refl A) (le_refl _) (by omega)
      (List.prefix_refl _)
    exact keeps_of_merge hR hI hg hk hc hnd hat hprevIndex hprev hterm hm
  · have hsrc := (inFlight_of_reachable hc).node p
    rw [hnd] at hsrc
    have hold := hN.sent (hsrc.2 _ hat.mem).1 (hpos.trans_le hi)
    rw [heq, hAt] at hold
    rw [hAt]
    exact (hold.mono hI (.refl A) (le_refl _) (by omega) (List.prefix_refl _)).take (by omega)

/-- A critical section raises `commitIndex` to what is settled. -/
theorem Informed.run (hN : Informed c A) (hR : Refines gob c A) (hI : (setting hodd).Inv A)
    (hret : A.Retained) (htime : Timely c a) (hk : KeepsUnrefuted c a)
    (hc : (system gob).Reachable ok c) (hm : Meant gob c a c' mean)
    (hg : A.Grows (after A mean)) (hnd : c.state.node p = .up rf gs) {gr : Goroutine n α}
    {e : Effect n α} (hat : At p gs a (some gr)) (hr : Runs gob rf gr e)
    (hpos : 0 < e.rf.commitIndex) :
    (after A mean).SettledUpTo e.rf.currentTerm (e.rf.commitIndex + 1).toNat e.rf.log := by
  have hle := hr.term_le
  have hadvance := hr.advance
  generalize hrf : e.rf = rf' at hpos hle hadvance
  have hsame : rf'.log = rf.log → rf'.commitIndex = rf.commitIndex →
      (after A mean).SettledUpTo rf'.currentTerm (rf'.commitIndex + 1).toNat rf'.log := by
    intro hlog hci
    rw [hci] at hpos ⊢
    rw [hlog]
    exact (hN.node hnd hpos).mono hI hg hle (le_refl _) (List.prefix_refl _)
  cases hadvance with
  | same hlog hci => exact hsame hlog hci
  | apply hlog hci => exact hsame hlog hci
  | commit hlog hlt =>
    have hcommits : Commits c a p rf'.commitIndex := hrf ▸ commits_of_lt hnd hat hr (hrf ▸ hlt)
    obtain ⟨hAt, _⟩ := hR.up hc hnd
    obtain ⟨hlead, _⟩ := allowed_commit hR hI hc htime.beats hcommits
    obtain rfl := hm.of_commits hcommits
    refine ⟨rf.currentTerm, _, Or.inr ⟨hAt.symm, rfl⟩, hle, le_refl _, ?_⟩
    rw [hlog, hR.log_eq_chron hI hc hnd (hAt ▸ hlead)]
    exact List.take_prefix _ _
  | @merge call _ k _ _ hprevIndex hprev hterm hlog hci =>
    rw [hci] at hpos ⊢
    rw [hlog]
    refine (hN.merge hR hI hret htime.accepts hk hc hnd hat hprevIndex hprev hterm hpos ?_).mono hI
      hg hle (le_refl _) (List.prefix_refl _)
    rcases le_total rf.commitIndex
      (min call.args.leaderCommit (k + call.args.entries.length)) with h | h
    · exact Or.inr ⟨by omega, by omega⟩
    · exact Or.inl (by omega)

/-- `commitIndex` stays settled. -/
theorem Informed.node_next (hN : Informed c A) (hR : Refines gob c A) (hI : (setting hodd).Inv A)
    (hret : A.Retained) (htime : Timely c a) (hk : KeepsUnrefuted c a)
    (hc : (system gob).Reachable ok c) (hn : (system gob).next c a = some c')
    (hm : Meant gob c a c' mean) (hg : A.Grows (after A mean)) {q : Fin n} {rf' : Raft n α}
    {gs' : List (Goroutine n α)} (hnd' : c'.state.node q = .up rf' gs')
    (hpos : 0 < rf'.commitIndex) :
    (after A mean).SettledUpTo rf'.currentTerm (rf'.commitIndex + 1).toNat rf'.log := by
  have hsame : ∀ {rf : Raft n α} {gs}, c.state.node q = .up rf gs → 0 < rf.commitIndex →
      ∀ {log}, rf.log <+: log →
        (after A mean).SettledUpTo rf.currentTerm (rf.commitIndex + 1).toNat log :=
    fun hnd hpos _ hlog => (hN.node hnd hpos).mono hI hg (le_refl _) (le_refl _) hlog
  obtain ⟨es, p, nd, hmoves, _⟩ := next_moves hn
  rw [hmoves.node_eq] at hnd'
  rcases eq_or_ne q p with rfl | hq
  · rw [Function.update_self] at hnd'
    subst hnd'
    have hstruct := hmoves.node_step.struct
    generalize hnd : c.state.node q = nd₀ at hstruct
    cases hstruct with
    | make => exact absurd hpos (by simp [Raft.make_indices])
    | same => exact hsame hnd hpos (List.prefix_refl _)
    | kill => exact (hsame hnd hpos (List.prefix_refl _) :)
    | start => exact (hsame hnd hpos (List.prefix_append _ _) :)
    | run hat hr => exact hN.run hR hI hret htime hk hc hm hg hnd hat hr hpos
  · rw [Function.update_of_ne hq] at hnd'
    exact hsame hnd' hpos (List.prefix_refl _)

/-- **What peers take as committed is settled**, along every timely run that cuts nothing
unrefuted. -/
theorem History.informed (hok : ∀ c a, ok c a → Timely c a ∧ KeepsUnrefuted c a)
    (h : History gob ok hodd c A) : Informed c A := by
  induction h with
  | start => exact ⟨nofun, nofun, nofun⟩
  | @next c c' a A A' ht ha hn hR ih =>
    obtain ⟨hreach, hrel⟩ := History.keeps hok ht
    obtain ⟨mean, hm, rfl⟩ := hR
    have hc := System.Tracks.reachable ht
    have hI := (setting hodd).inv_of_reachable hreach
    have hret := Setting.retained_of_reachable hreach
    have hg := grows_after hrel hI (fun c a h => (hok c a h).1) hc ha hn hm
    obtain ⟨htime, hk⟩ := hok c a ha
    exact {
      node := ih.node_next hrel hI hret htime hk hc hn hm hg
      sent := ih.sent_next hrel hI htime.beats hc hn hg
      applied := ih.applied_next hI hc hn hg }

/-! ### State machine safety

Two applied commands with the same index are two settled entries at one index. -/

theorem applied_agree (hodd : Odd n)
    (hc : (system gob).Reachable (fun c a => Timely c a ∧ KeepsUnrefuted c a) c) {p q : Fin n}
    {msg msg' : ApplyMsg α} (h : .applied p msg ∈ c.trace) (h' : .applied q msg' ∈ c.trace)
    (hindex : msg.commandIndex = msg'.commandIndex) : msg.command = msg'.command := by
  obtain ⟨A, hA⟩ := exists_history hodd hc
  obtain ⟨hreach, _⟩ := hA.keeps fun _ _ h => h
  have hN := hA.informed fun _ _ h => h
  obtain ⟨i, e, hi, he, hdata⟩ := hN.applied h
  obtain ⟨i', e', hi', he', hdata'⟩ := hN.applied h'
  obtain rfl : i = i' := by omega
  have hret : A.Retained := Setting.retained_of_reachable hreach
  rw [← hdata, ← hdata', hret.settled_unique ((setting hodd).inv_of_reachable hreach) he he']

/-- **State machine safety**, for an odd number of peers and in every run whose critical sections
are timely, in which no message cuts off entries that it does not contradict, and whose requests are
encoded as they were built. -/
theorem state_machine_safety (hodd : Odd n) (gob : Labgob n α) (s : Encoding.Cfg n α)
    (hs : (Encoding.system gob).Reachable
      (AsBuilt fun c a => Timely c a ∧ KeepsUnrefuted c a) s) (p q : Fin n)
    (msg msg' : ApplyMsg α) (h : .cluster (.applied p msg) ∈ s.trace)
    (h' : .cluster (.applied q msg') ∈ s.trace) (hindex : msg.commandIndex = msg'.commandIndex) :
    msg.command = msg'.command :=
  applied_agree hodd (Encoding.view_reachable hs) (Encoding.mem_view_trace.mpr h)
    (Encoding.mem_view_trace.mpr h') hindex

/-- After `ackRun` peer `0` applies index `1`, and so does peer `1` when the third heartbeat tells
it that it is committed. -/
def bothApplyRun : List (Action 3 ℕ) :=
  ackRun ++ [.run 0 6, .run 0 5, .deliver 4, .run 1 1, .run 1 1, .run 1 1]

/-- Both peers apply at index `1` in `bothApplyRun`. -/
theorem state_machine_safety_bothApplyRun :
    ∃ s msg msg', (Encoding.system (Labgob.unary 3)).Reachable
        (AsBuilt fun c a => Timely c a ∧ KeepsUnrefuted c a) s ∧
      .cluster (.applied 0 msg) ∈ s.trace ∧ .cluster (.applied 1 msg') ∈ s.trace ∧
      msg.commandIndex = msg'.commandIndex ∧ msg.command = msg'.command := by
  obtain ⟨c, hc, h⟩ := exists_of_execOk (Labgob.unary 3) bothApplyRun
    (fun c a => Timely c a ∧ KeepsUnrefuted c a)
    (fun c => decide (.applied 0 ⟨true, 7, 1⟩ ∈ c.trace ∧ .applied 1 ⟨true, 7, 1⟩ ∈ c.trace))
    (by decide +kernel)
  obtain ⟨s, hs, rfl, _⟩ := Encoding.exists_reachable hc
  obtain ⟨h₀, h₁⟩ := of_decide_eq_true h
  rw [Encoding.mem_view_trace] at h₀ h₁
  exact ⟨s, _, _, hs, h₀, h₁, rfl,
    state_machine_safety (by decide) (Labgob.unary 3) s hs 0 1 _ _ h₀ h₁ rfl⟩

/-- After `ackRun` peer `0` applies index `1`. Then the first heartbeat, which was sent before the
command was started, reaches peer `1` and takes the entry away. Peer `1` wins term `2` with the vote
of peer `2`, starts another command and commits it. -/
def splitRun : List (Action 3 ℕ) :=
  ackRun ++ [.run 0 6, .deliver 1, .run 1 1, .run 1 1, .run 1 0, .timeout 1 0, .run 1 0, .run 1 0,
    .deliver 5, .run 2 1, .run 2 1, .run 2 1, .deliver 5, .run 1 2, .run 1 2, .run 1 0, .run 1 1,
    .run 1 1, .run 1 1, .run 1 1, .start 1 8, .run 1 1, .deliver 6, .run 2 1, .run 2 1, .deliver 6,
    .run 1 1, .run 1 4]

/-- **A late heartbeat splits the state machines**, although every critical section is timely and
every request is encoded as it was built. -/
theorem late_heartbeat_splits_state_machines :
    ∃ s msg msg', (Encoding.system (Labgob.unary 3)).Reachable (AsBuilt Timely) s ∧
      .cluster (.applied 0 msg) ∈ s.trace ∧ .cluster (.applied 1 msg') ∈ s.trace ∧
      msg.commandIndex = msg'.commandIndex ∧ msg.command ≠ msg'.command := by
  obtain ⟨c, hc, h⟩ := exists_of_execOk (Labgob.unary 3) splitRun Timely
    (fun c => decide (.applied 0 ⟨true, 7, 1⟩ ∈ c.trace ∧ .applied 1 ⟨true, 8, 1⟩ ∈ c.trace))
    (by decide +kernel)
  obtain ⟨s, hs, rfl, _⟩ := Encoding.exists_reachable hc
  obtain ⟨h₀, h₁⟩ := of_decide_eq_true h
  rw [Encoding.mem_view_trace] at h₀ h₁
  exact ⟨s, _, _, hs, h₀, h₁, rfl, by decide⟩

end Cluster

end Distsys
