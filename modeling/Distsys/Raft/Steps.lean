import Distsys.Lib.Lists
import Distsys.Raft.Cluster

/-!
# What one step can do

`Cluster.step` is read off once, as two inductive relations, and every invariant of the development
is proved by cases on them. `Runs` lists what a goroutine can do in one critical section, one
constructor for each path through the source. `NodeStep` lists what a step of the cluster can do to
the one node it changes, and `Cluster.step_moves` says that there is no other step.

## Several views of one step

A step is looked at in different ways by different invariants, and each way is an inductive relation
with its own inversion lemma.

* `Runs` and `Panics` — the goroutine that runs, and all it does
* `Sends` — one event that it emits
* `Spawns`, `Origin` — one goroutine that is there afterwards
* `StructStep` — the struct of the peer, without its goroutines
* `Emits` — one event of the whole step

They are used in one direction only, from a step to its cases, so a constructor has the hypotheses
that somebody needs and not all of them: a vote that is denied, for example, is denied for one of
several reasons, and none is recorded. When a method of the source changes, the constructor for its
critical section changes with it, and the proofs that have a case for it.

## Main definitions

* `Runs` — the paths of `Goroutine.run` that do not panic
* `NodeStep` — the effect of an action on the node it is about

## Main results

* `runs_of_run`, `Cluster.step_moves` — the inversion of `Goroutine.run` and of `Cluster.step`
* `Cluster.emits_of_next` — the inversion of an event
* `Cluster.node_invariant`, `Cluster.struct_invariant` — invariants of one peer at a time
-/

namespace Distsys

variable {n : ℕ} {α : Type} {gob : Labgob n α} {rf : Raft n α}

/-! ### One critical section

The constructors are named after the critical sections, with the condition of the branch as
hypotheses and the effect as index. Branches that differ only in debug output are one. -/

/-- `Runs gob rf gr e`: from the struct `rf`, goroutine `gr` can run to the end of its next critical
section with effect `e`. -/
inductive Runs (gob : Labgob n α) (rf : Raft n α) : Goroutine n α → Effect n α → Prop where
  | awaitElection (h : rf.phase = .follower) :
    Runs gob rf .awaitElection { rf, next := [.awaitTimeout] }
  | awaitElectionExit (h : rf.phase ≠ .follower) : Runs gob rf .awaitElection { rf }
  | phaseChange {ph : Phase} (h : rf.phase ≠ .exit) (h' : rf.phase ≠ ph) :
    Runs gob rf (.phaseChange ph) { rf := { rf with phase := ph }, next := initPhase ph }
  | phaseChangeSame {ph : Phase} (h : rf.phase = .exit ∨ rf.phase = ph) :
    Runs gob rf (.phaseChange ph) { rf }
  | callElection {last : LogEntry α} (h : rf.phase = .candidate)
      (hlast : GoSlice.get rf.log (rf.log.length - 1) = some last) {args : RequestVoteArgs n}
      (hargs : args = ⟨rf.currentTerm + 1, rf.me, rf.log.length - 1, last.term⟩) :
    Runs gob rf .callElection {
      rf := Raft.persist gob { rf with currentTerm := rf.currentTerm + 1, votedFor := some rf.me }
      next := .awaitVotes args.term 0 0 [true]
        :: ((Raft.others rf.me).map fun ID => ⟨ID, args⟩).map .callRequestVote
      events := .candidacy rf.me args.term
        :: ((Raft.others rf.me).map fun ID => ⟨ID, args⟩).map fun call =>
          .sent (.requestVote call) }
  | callElectionExit (h : rf.phase ≠ .candidate) : Runs gob rf .callElection { rf }
  | lastVote {election i voteCount : ℕ} {vote : Bool} {votes : List Bool} :
    Runs gob rf (.awaitVotes election i voteCount (vote :: votes))
      { rf, next := [.candidateCheck election (if vote then voteCount + 1 else voteCount)] }
  | vote {election i voteCount : ℕ} {vote : Bool} {votes : List Bool} :
    Runs gob rf (.awaitVotes election i voteCount (vote :: votes))
      { rf
        next := [.awaitVotes election (i + 1) (if vote then voteCount + 1 else voteCount) votes] }
  | candidateCheck {election voteCount : ℕ} (h : rf.phase = .candidate) :
    Runs gob rf (.candidateCheck election voteCount)
      { rf, next := [.callResult election voteCount] }
  | candidateCheckExit {election voteCount : ℕ} (h : rf.phase ≠ .candidate) :
    Runs gob rf (.candidateCheck election voteCount) { rf }
  | elected {election voteCount : ℕ} (hvotes : Raft.majority n ≤ voteCount)
      (h : rf.phase ≠ .exit) (h' : rf.phase ≠ .leader) :
    Runs gob rf (.callResult election voteCount) {
      rf := { rf with phase := .leader }
      next := [.initLeader election]
      events := [.elected rf.me election] }
  | lost {election voteCount : ℕ} (h : rf.phase ≠ .exit) (h' : rf.phase ≠ .follower) :
    Runs gob rf (.callResult election voteCount)
      { rf := { rf with phase := .follower }, next := initPhase .follower }
  | callResultSame {election voteCount : ℕ} : Runs gob rf (.callResult election voteCount) { rf }
  | initLeader {election : ℕ} :
    Runs gob rf (.initLeader election) {
      rf := rf.initLeader
      next := [.heartbeat election 1]
      events := [.initLeader rf.me election] }
  | heartbeat {election beatNumber : ℕ} {beat : Beat} {calls : List (EntriesCall n α)}
      (h : rf.phase = .leader) (hbeat : beat = ⟨election, beatNumber, rf.log.length - 1⟩)
      (hcalls : (Raft.others rf.me).mapM
        (fun ID => (rf.appendEntriesArgs ID).map (EntriesCall.mk ID beat)) = some calls) :
    Runs gob rf (.heartbeat election beatNumber) {
      rf
      next := .heartbeatSleep beat (List.replicate n default) :: calls.map .callAppendEntries
      events := calls.map fun call => .sent (.appendEntries call) }
  | heartbeatExit {election beatNumber : ℕ} (h : rf.phase ≠ .leader) :
    Runs gob rf (.heartbeat election beatNumber) { rf }
  | commit {beat : Beat} {replies : List AppendEntriesReply} {rf₁ rf₂ : Raft n α} {commits : Bool}
      (h : rf.phase = .leader) (hadjust : rf.adjustIndices beat.myLastIndex replies = some rf₁)
      (hcommit : rf₁.commitPhase = some (rf₂, commits)) :
    Runs gob rf (.heartbeatSleep beat replies) {
      rf := rf₂
      next := .heartbeat beat.election (beat.beatNumber + 1)
        :: if commits then [.applyEntries] else [] }
  | commitExit {beat : Beat} {replies : List AppendEntriesReply} (h : rf.phase ≠ .leader) :
    Runs gob rf (.heartbeatSleep beat replies) { rf }
  | applyEntries {msgs : List (ApplyMsg α)} {rf' : Raft n α}
      (h : rf.applyEntries = (msgs, some rf')) :
    Runs gob rf .applyEntries { rf := rf', events := msgs.map (.applied rf.me) }
  | doneCh {call : VoteCall n} {vote : Bool} :
    Runs gob rf (.doneCh call vote) { rf, wake := Goroutine.pushVote call.args.term vote }
  | raise {job : Job n α} (h : rf.currentTerm < job.otherTerm) :
    Runs gob rf (.termSync job) {
      rf := Raft.persist gob { rf with currentTerm := job.otherTerm, votedFor := none }
      next := [.demote job rf.currentTerm] }
  | react {job : Job n α} (h : rf.currentTerm = job.otherTerm) :
    Runs gob rf (.termSync job) (job.react rf rf.currentTerm)
  | ignore {job : Job n α} (h : job.otherTerm < rf.currentTerm) :
    Runs gob rf (.termSync job) (job.ignore rf rf.currentTerm)
  | demote {job : Job n α} {myTerm : ℕ} (h : rf.phase ≠ .exit) (h' : rf.phase ≠ .follower) :
    Runs gob rf (.demote job myTerm) {
      job.react { rf with phase := .follower } myTerm with
      next := (job.react { rf with phase := .follower } myTerm).next ++ initPhase .follower }
  | demoteSame {job : Job n α} {myTerm : ℕ} (h : rf.phase = .exit ∨ rf.phase = .follower) :
    Runs gob rf (.demote job myTerm) (job.react rf myTerm)
  | grant {call : VoteCall n} {myTerm : ℕ} {last : LogEntry α} (h : rf.freeToVote call.args)
      (hlast : GoSlice.get rf.log (rf.log.length - 1) = some last)
      (hdate : Raft.upToDate call.args (rf.log.length - 1) last.term) :
    Runs gob rf (.requestVote call myTerm) {
      rf := Raft.persist gob { rf with votedFor := some call.args.candidateID }
      events := [.sent (.requestVoteReply call ⟨myTerm, true⟩)] }
  | deny {call : VoteCall n} {myTerm : ℕ} :
    Runs gob rf (.requestVote call myTerm)
      { rf, events := [.sent (.requestVoteReply call ⟨myTerm, false⟩)] }
  | merge {call : EntriesCall n α} {myTerm : ℕ} {prev : LogEntry α} {r : Raft.AppendResult n α}
      (hprev : GoSlice.get rf.log call.args.prevLogIndex = some prev)
      (hterm : prev.term = call.args.prevLogTerm) (hr : rf.mergeLog gob call.args = some r) :
    Runs gob rf (.appendEntries call myTerm) {
      rf := r.rf
      next := if r.commits then [.applyEntries] else []
      events := [.sent (.appendEntriesReply call ⟨myTerm, r.success, r.nextIndex⟩)] }
  | conflict {call : EntriesCall n α} {myTerm : ℕ} {prev : LogEntry α} {nextIndex : ℤ}
      (hprev : GoSlice.get rf.log call.args.prevLogIndex = some prev)
      (hterm : prev.term ≠ call.args.prevLogTerm)
      (hscan : Raft.conflictScan rf.log prev.term call.args.prevLogIndex
        call.args.prevLogIndex.toNat = some nextIndex) :
    Runs gob rf (.appendEntries call myTerm)
      { rf, events := [.sent (.appendEntriesReply call ⟨myTerm, false, nextIndex⟩)] }
  | short {call : EntriesCall n α} {myTerm : ℕ}
      (h : (rf.log.length : ℤ) ≤ call.args.prevLogIndex) :
    Runs gob rf (.appendEntries call myTerm)
      { rf, events := [.sent (.appendEntriesReply call ⟨myTerm, false, rf.log.length⟩)] }

private theorem phaseChangeGo_cases (rf : Raft n α) (ph : Phase) :
    (rf.phase ≠ .exit ∧ rf.phase ≠ ph ∧
      rf.phaseChangeGo ph = { rf := { rf with phase := ph }, next := initPhase ph }) ∨
    ((rf.phase = .exit ∨ rf.phase = ph) ∧ rf.phaseChangeGo ph = { rf }) := by
  by_cases h : rf.phase = .exit
  · exact Or.inr ⟨Or.inl h, by simp [Raft.phaseChangeGo, Raft.phaseChange, h]⟩
  · by_cases h' : rf.phase = ph
    · exact Or.inr ⟨Or.inr h', by simp [Raft.phaseChangeGo, Raft.phaseChange, h']⟩
    · exact Or.inl ⟨h, h', by simp [Raft.phaseChangeGo, Raft.phaseChange, h, h']⟩

private theorem runs_sync (job : Job n α) : Runs gob rf (.termSync job) (job.sync gob rf) := by
  rcases Nat.lt_trichotomy rf.currentTerm job.otherTerm with h | h | h
  · simpa [Job.sync, Raft.termSync, h] using Runs.raise h
  · have : job.sync gob rf = job.react rf rf.currentTerm := by
      simp [Job.sync, Raft.termSync, h]
    rw [this]
    exact .react h
  · have : job.sync gob rf = job.ignore rf rf.currentTerm := by
      simp [Job.sync, Raft.termSync, Nat.not_lt.mpr h.le, h.ne']
    rw [this]
    exact .ignore h

private theorem runs_result (election voteCount : ℕ) :
    Runs gob rf (.callResult election voteCount) (rf.runResult election voteCount) := by
  unfold Raft.runResult
  split
  · rename_i hv
    by_cases h : rf.phase = .exit
    · simpa [Raft.phaseChange, h] using Runs.callResultSame
    · by_cases h' : rf.phase = .leader
      · simpa [Raft.phaseChange, h'] using Runs.callResultSame
      · simpa [Raft.phaseChange, h, h'] using Runs.elected hv h h'
  · rcases phaseChangeGo_cases rf .follower with ⟨h, h', he⟩ | ⟨_, he⟩
    · rw [he]; exact .lost h h'
    · rw [he]; exact .callResultSame

private theorem runs_election {e : Effect n α} (h : rf.runElection gob = .ok e) :
    Runs gob rf .callElection e := by
  unfold Raft.runElection at h
  split at h
  · cases h; exact .callElectionExit ‹_›
  · rename_i hc
    cases hl : GoSlice.get rf.log ((rf.log.length : ℤ) - 1) with
    | none => simp [Raft.callElection, Raft.persist, hl] at h
    | some last =>
      simp only [Raft.callElection, Raft.persist, hl, Option.map_some] at h
      cases h
      exact .callElection (not_not.mp hc) hl rfl

private theorem runs_requestVote {call : VoteCall n} {myTerm : ℕ} {e : Effect n α}
    (h : rf.runRequestVote gob call myTerm = .ok e) : Runs gob rf (.requestVote call myTerm) e := by
  unfold Raft.runRequestVote Raft.requestVote at h
  by_cases hf : rf.freeToVote call.args
  · rw [if_pos hf] at h
    cases hl : GoSlice.get rf.log ((rf.log.length : ℤ) - 1) with
    | none => simp [hl] at h
    | some last =>
      by_cases hd : Raft.upToDate call.args (rf.log.length - 1) last.term
      · simp only [hl, Option.map_some, if_pos hd] at h
        cases h
        exact .grant hf hl hd
      · simp only [hl, Option.map_some, if_neg hd] at h
        cases h
        exact .deny
  · rw [if_neg hf] at h
    cases h
    exact .deny

private theorem runs_appendEntries {call : EntriesCall n α} {myTerm : ℕ} {e : Effect n α}
    (h : rf.runAppendEntries gob call myTerm = .ok e) :
    Runs gob rf (.appendEntries call myTerm) e := by
  unfold Raft.runAppendEntries Raft.appendEntries at h
  by_cases hb : call.args.prevLogIndex < rf.log.length
  · rw [if_pos hb] at h
    cases hp : GoSlice.get rf.log call.args.prevLogIndex with
    | none => simp [hp] at h
    | some prev =>
      by_cases ht : prev.term = call.args.prevLogTerm
      · simp only [hp, Option.bind_eq_bind, Option.bind_some, if_pos ht] at h
        split at h
        · cases h
        · rename_i r hr
          cases h
          exact .merge hp ht hr
      · simp only [hp, Option.bind_eq_bind, Option.bind_some, if_neg ht] at h
        cases hs : Raft.conflictScan rf.log prev.term call.args.prevLogIndex
            call.args.prevLogIndex.toNat with
        | none => simp [hs] at h
        | some i =>
          simp only [hs, Option.bind_some] at h
          cases h
          exact .conflict hp ht hs
  · rw [if_neg hb] at h
    cases h
    exact .short (not_lt.mp hb)

/-- **Inversion of `Goroutine.run`.** -/
theorem runs_of_run {gr : Goroutine n α} {e : Effect n α} (h : gr.run gob rf = some (.ok e)) :
    Runs gob rf gr e := by
  cases gr with
  | awaitElection =>
    by_cases hf : rf.phase = .follower
    · simp only [Goroutine.run, hf, ne_eq, not_true_eq_false, if_false] at h
      cases h; exact .awaitElection hf
    · simp only [Goroutine.run, ne_eq, hf, not_false_eq_true, if_true] at h
      cases h; exact .awaitElectionExit hf
  | awaitTimeout => cases h
  | phaseChange ph =>
    cases h
    rcases phaseChangeGo_cases rf ph with ⟨h, h', he⟩ | ⟨h, he⟩
    · rw [he]; exact .phaseChange h h'
    · rw [he]; exact .phaseChangeSame h
  | callElection => exact runs_election (Option.some.inj h)
  | awaitVotes election i voteCount votes =>
    cases votes with
    | nil => cases h
    | cons vote votes =>
      cases h
      unfold Raft.runVote
      by_cases hv : (if vote then voteCount + 1 else voteCount) ≥ Raft.majority n ∨ i + 1 ≥ n
      · rw [if_pos hv]; exact .lastVote
      · rw [if_neg hv]; exact .vote
  | candidateCheck election voteCount =>
    by_cases hc : rf.phase = .candidate
    · simp only [Goroutine.run, hc, ne_eq, not_true_eq_false, if_false] at h
      cases h; exact .candidateCheck hc
    · simp only [Goroutine.run, ne_eq, hc, not_false_eq_true, if_true] at h
      cases h; exact .candidateCheckExit hc
  | callResult election voteCount => cases h; exact runs_result election voteCount
  | initLeader election => cases h; exact .initLeader
  | heartbeat election beatNumber =>
    have h := Option.some.inj h
    unfold Raft.runHeartbeat at h
    split at h
    · cases h; exact .heartbeatExit ‹_›
    · rename_i hl
      dsimp only at h
      split at h
      · cases h
      · rename_i calls hcalls
        cases h; exact .heartbeat (not_not.mp hl) rfl hcalls
  | heartbeatSleep beat replies =>
    have h := Option.some.inj h
    unfold Raft.runCommit at h
    split at h
    · cases h; exact .commitExit ‹_›
    · rename_i hl
      split at h
      · cases h
      · rename_i rf₂ commits hc
        obtain ⟨rf₁, h₁, h₂⟩ := Option.bind_eq_some_iff.mp hc
        cases h; exact .commit (not_not.mp hl) h₁ h₂
  | applyEntries =>
    have h := Option.some.inj h
    unfold Raft.runApply at h
    split at h
    · cases h
    · cases h; exact .applyEntries ‹_›
  | callRequestVote call => cases h
  | doneCh call vote => cases h; exact .doneCh
  | callAppendEntries call => cases h
  | termSync job => cases h; exact runs_sync job
  | demote job myTerm =>
    cases h
    rcases phaseChangeGo_cases rf .follower with ⟨h, h', he⟩ | ⟨h, he⟩
    · rw [he]; exact .demote h h'
    · rw [he]
      simpa using Runs.demoteSame h
  | requestVote call myTerm => exact runs_requestVote (Option.some.inj h)
  | appendEntries call myTerm => exact runs_appendEntries (Option.some.inj h)

/-- `Panics gob rf gr e`: from the struct `rf`, goroutine `gr` panics in its next critical section
and leaves `e` behind. -/
inductive Panics (gob : Labgob n α) (rf : Raft n α) : Goroutine n α → Panic n α → Prop where
  | callElection (h : rf.phase = .candidate)
      (hlast : GoSlice.get rf.log (rf.log.length - 1) = none) :
    Panics gob rf .callElection {
      rf := Raft.persist gob { rf with currentTerm := rf.currentTerm + 1, votedFor := some rf.me }
      events := [.candidacy rf.me (rf.currentTerm + 1)] }
  | applyEntries {msgs : List (ApplyMsg α)} (h : rf.applyEntries = (msgs, none)) :
    Panics gob rf .applyEntries { rf, events := msgs.map (.applied rf.me) }
  | other {gr : Goroutine n α} (h : gr.run gob rf = some (.error { rf })) : Panics gob rf gr { rf }

/-- **Inversion of a panic.** -/
theorem panics_of_run {gr : Goroutine n α} {e : Panic n α} (h : gr.run gob rf = some (.error e)) :
    Panics gob rf gr e := by
  cases gr with
  | callElection =>
    have h := Option.some.inj h
    unfold Raft.runElection at h
    split at h
    · cases h
    · rename_i hc
      cases hl : GoSlice.get rf.log ((rf.log.length : ℤ) - 1) with
      | none =>
        simp only [Raft.callElection, Raft.persist, hl, Option.map_none] at h
        cases h
        exact .callElection (not_not.mp hc) hl
      | some last => simp [Raft.callElection, Raft.persist, hl] at h
  | awaitVotes election i voteCount votes => cases votes <;> cases h
  | heartbeat election beatNumber =>
    have he : e = { rf } := by
      have h := Option.some.inj h
      unfold Raft.runHeartbeat at h
      split at h
      · cases h
      · dsimp only at h
        split at h <;> cases h
        rfl
    exact he ▸ .other (he ▸ h)
  | heartbeatSleep beat replies =>
    have he : e = { rf } := by
      have h := Option.some.inj h
      unfold Raft.runCommit at h
      split at h
      · cases h
      · split at h <;> cases h
        rfl
    exact he ▸ .other (he ▸ h)
  | applyEntries =>
    have h := Option.some.inj h
    unfold Raft.runApply at h
    split at h
    · cases h; exact .applyEntries ‹_›
    · cases h
  | requestVote call myTerm =>
    have he : e = { rf } := by
      have h := Option.some.inj h
      unfold Raft.runRequestVote at h
      split at h <;> cases h
      rfl
    exact he ▸ .other (he ▸ h)
  | appendEntries call myTerm =>
    have he : e = { rf } := by
      have h := Option.some.inj h
      unfold Raft.runAppendEntries at h
      split at h <;> cases h
      rfl
    exact he ▸ .other (he ▸ h)
  | awaitElection => cases h
  | awaitTimeout => cases h
  | phaseChange ph => cases h
  | candidateCheck election voteCount => cases h
  | callResult election voteCount => cases h
  | initLeader election => cases h
  | callRequestVote call => cases h
  | doneCh call vote => cases h
  | callAppendEntries call => cases h
  | termSync job => cases h
  | demote job myTerm => cases h

/-! ### What a critical section sends

The same from the point of view of one event: who emits it, and what is then known of the struct. -/

theorem Raft.mem_others {me ID : Fin n} : ID ∈ Raft.others me ↔ ID ≠ me := by
  simp [Raft.others]

/-- The calls of one heartbeat. -/
theorem mem_calls {beat : Beat} {calls : List (EntriesCall n α)}
    (h : (Raft.others rf.me).mapM
      (fun ID => (rf.appendEntriesArgs ID).map (EntriesCall.mk ID beat)) = some calls)
    {call : EntriesCall n α} (hc : call ∈ calls) :
    call.server ≠ rf.me ∧ call.beat = beat ∧ rf.appendEntriesArgs call.server = some call.args := by
  obtain ⟨ID, hID, hcall⟩ := exists_of_mem_mapM h hc
  obtain ⟨args, hargs, rfl⟩ := Option.map_eq_some_iff.mp hcall
  exact ⟨Raft.mem_others.mp hID, rfl, hargs⟩

/-- `Sends gob rf gr packet rf'`: from the struct `rf`, goroutine `gr` can send `packet` in its next
critical section and leave `rf'` behind. -/
inductive Sends (gob : Labgob n α) (rf : Raft n α) :
    Goroutine n α → Packet n α → Raft n α → Prop where
  | requestVote {call : VoteCall n} {last : LogEntry α} (h : rf.phase = .candidate)
      (hlast : GoSlice.get rf.log (rf.log.length - 1) = some last) (hs : call.server ≠ rf.me)
      (hargs : call.args = ⟨rf.currentTerm + 1, rf.me, rf.log.length - 1, last.term⟩) :
    Sends gob rf .callElection (.requestVote call)
      (Raft.persist gob { rf with currentTerm := rf.currentTerm + 1, votedFor := some rf.me })
  | appendEntries {election beatNumber : ℕ} {call : EntriesCall n α} (h : rf.phase = .leader)
      (hs : call.server ≠ rf.me) (hbeat : call.beat = ⟨election, beatNumber, rf.log.length - 1⟩)
      (hargs : rf.appendEntriesArgs call.server = some call.args) :
    Sends gob rf (.heartbeat election beatNumber) (.appendEntries call) rf
  | ignoreVote {call : VoteCall n} (h : call.args.term < rf.currentTerm) :
    Sends gob rf (.termSync (.requestVote call))
      (.requestVoteReply call ⟨rf.currentTerm, false⟩) rf
  | ignoreEntries {call : EntriesCall n α} (h : call.args.term < rf.currentTerm) :
    Sends gob rf (.termSync (.appendEntries call))
      (.appendEntriesReply call ⟨rf.currentTerm, false, 0⟩) rf
  | grant {call : VoteCall n} {myTerm : ℕ} {last : LogEntry α} (h : rf.freeToVote call.args)
      (hlast : GoSlice.get rf.log (rf.log.length - 1) = some last)
      (hdate : Raft.upToDate call.args (rf.log.length - 1) last.term) :
    Sends gob rf (.requestVote call myTerm) (.requestVoteReply call ⟨myTerm, true⟩)
      (Raft.persist gob { rf with votedFor := some call.args.candidateID })
  | deny {call : VoteCall n} {myTerm : ℕ} :
    Sends gob rf (.requestVote call myTerm) (.requestVoteReply call ⟨myTerm, false⟩) rf
  | merge {call : EntriesCall n α} {myTerm k : ℕ} {prev : LogEntry α}
      (hk : call.args.prevLogIndex = k) (hprev : rf.log[k]? = some prev)
      (hterm : prev.term = call.args.prevLogTerm) :
    Sends gob rf (.appendEntries call myTerm) (.appendEntriesReply call ⟨myTerm, true, 0⟩)
      (Raft.persist gob { rf with
        log := rf.log.take (k + 1) ++ call.args.entries
        commitIndex := max rf.commitIndex
          (min call.args.leaderCommit (k + call.args.entries.length)) })
  | conflict {call : EntriesCall n α} {myTerm : ℕ} {prev : LogEntry α} {nextIndex : ℤ}
      (hprev : GoSlice.get rf.log call.args.prevLogIndex = some prev)
      (hterm : prev.term ≠ call.args.prevLogTerm)
      (hscan : Raft.conflictScan rf.log prev.term call.args.prevLogIndex
        call.args.prevLogIndex.toNat = some nextIndex) :
    Sends gob rf (.appendEntries call myTerm) (.appendEntriesReply call ⟨myTerm, false, nextIndex⟩)
      rf
  | short {call : EntriesCall n α} {myTerm : ℕ}
      (h : (rf.log.length : ℤ) ≤ call.args.prevLogIndex) :
    Sends gob rf (.appendEntries call myTerm)
      (.appendEntriesReply call ⟨myTerm, false, rf.log.length⟩) rf

/-- The successful branch of `AppendEntries`, with `PrevLogIndex` as a natural number. -/
theorem mergeLog_at {call : EntriesCall n α} {prev : LogEntry α} {r : Raft.AppendResult n α}
    (hprev : GoSlice.get rf.log call.args.prevLogIndex = some prev)
    (hr : rf.mergeLog gob call.args = some r) :
    ∃ k : ℕ, call.args.prevLogIndex = k ∧ rf.log[k]? = some prev ∧ r.success = true ∧
      r.nextIndex = 0 ∧
      r.commits =
        decide (rf.commitIndex < min call.args.leaderCommit (k + call.args.entries.length)) ∧
      r.rf = Raft.persist gob { rf with
        log := rf.log.take (k + 1) ++ call.args.entries
        commitIndex := max rf.commitIndex
          (min call.args.leaderCommit (k + call.args.entries.length)) } := by
  obtain ⟨m, hm, _, rfl⟩ := Raft.mergeLog_eq_some hr
  obtain ⟨k, hk, hprev⟩ := GoSlice.get_eq_some_iff.mp hprev
  obtain rfl : m = k + 1 := by omega
  have hlast : ((k + 1 : ℕ) : ℤ) + call.args.entries.length - 1 = k + call.args.entries.length := by
    omega
  exact ⟨k, hk, hprev, rfl, rfl, by rw [hlast], by rw [hlast]⟩

/-- **Inversion of a send.** -/
theorem Runs.sends {gr : Goroutine n α} {e : Effect n α} (h : Runs gob rf gr e)
    {packet : Packet n α} (hp : .sent packet ∈ e.events) : Sends gob rf gr packet e.rf := by
  cases h with
  | callElection hc hlast hargs =>
    rcases List.mem_cons.mp hp with hp | hp
    · cases hp
    · obtain ⟨call, hcall, heq⟩ := List.mem_map.mp hp
      cases heq
      obtain ⟨ID, hID, rfl⟩ := List.mem_map.mp hcall
      exact .requestVote hc hlast (Raft.mem_others.mp hID) hargs
  | heartbeat hl hbeat hcalls =>
    obtain ⟨call, hcall, heq⟩ := List.mem_map.mp hp
    cases heq
    obtain ⟨hs, hb, hargs⟩ := mem_calls hcalls hcall
    exact .appendEntries hl hs (hb.trans hbeat) hargs
  | ignore h =>
    rename_i job
    cases job with
    | requestVote call => cases List.mem_singleton.mp hp; exact .ignoreVote h
    | appendEntries call => cases List.mem_singleton.mp hp; exact .ignoreEntries h
    | sendRequestVote call reply => cases hp
    | sendAppendEntries call reply => cases hp
  | react => rename_i job _; cases job <;> cases hp
  | demote => rename_i job _ _ _; cases job <;> cases hp
  | demoteSame => rename_i job _ _; cases job <;> cases hp
  | applyEntries => obtain ⟨_, _, hm⟩ := List.mem_map.mp hp; cases hm
  | grant h hlast hdate => cases List.mem_singleton.mp hp; exact .grant h hlast hdate
  | deny => cases List.mem_singleton.mp hp; exact .deny
  | merge hprev hterm hr =>
    cases List.mem_singleton.mp hp
    obtain ⟨k, hk, hlog, hs, hni, _, hrf⟩ := mergeLog_at hprev hr
    rw [hs, hni]
    exact hrf ▸ Sends.merge hk hlog hterm
  | conflict hprev hterm hscan =>
    cases List.mem_singleton.mp hp
    exact .conflict hprev hterm hscan
  | short h => cases List.mem_singleton.mp hp; exact .short h
  | elected => cases List.mem_singleton.mp hp
  | initLeader => cases List.mem_singleton.mp hp
  | _ => cases hp

/-! ### What a critical section starts

And from the point of view of one goroutine: it was there before, or `Spawns` says who started it
and why. -/

/-- The goroutines without a local variable that are started along the way. -/
inductive Goroutine.Routine : Goroutine n α → Prop where
  | awaitElection : Routine .awaitElection
  | awaitTimeout : Routine .awaitTimeout
  | callElection : Routine .callElection
  | applyEntries : Routine .applyEntries

theorem routine_of_initPhase {ph : Phase} {gr : Goroutine n α} (h : gr ∈ initPhase ph) :
    gr.Routine := by
  cases ph with
  | follower => cases List.mem_singleton.mp h; exact .awaitElection
  | candidate => cases List.mem_singleton.mp h; exact .callElection
  | _ => cases h

/-- `Spawns rf gr gr' es`: from the struct `rf`, goroutine `gr` can go on as, or start, the
goroutine `gr'` while it emits `es`. -/
inductive Spawns (rf : Raft n α) :
    Goroutine n α → Goroutine n α → List (Event n α) → Prop where
  | routine {gr gr' : Goroutine n α} {es : List (Event n α)} (h : gr'.Routine) : Spawns rf gr gr' es
  | awaitVotes {es : List (Event n α)} (h : rf.phase = .candidate)
      (he : .candidacy rf.me (rf.currentTerm + 1) ∈ es) :
    Spawns rf .callElection (.awaitVotes (rf.currentTerm + 1) 0 0 [true]) es
  | callRequestVote {call : VoteCall n} {es : List (Event n α)}
      (he : .sent (.requestVote call) ∈ es) (hme : call.args.candidateID = rf.me)
      (hterm : call.args.term = rf.currentTerm + 1) :
    Spawns rf .callElection (.callRequestVote call) es
  | vote {election i voteCount : ℕ} {vote : Bool} {votes : List Bool} :
    Spawns rf (.awaitVotes election i voteCount (vote :: votes))
      (.awaitVotes election (i + 1) (if vote then voteCount + 1 else voteCount) votes) []
  | lastVote {election i voteCount : ℕ} {vote : Bool} {votes : List Bool} :
    Spawns rf (.awaitVotes election i voteCount (vote :: votes))
      (.candidateCheck election (if vote then voteCount + 1 else voteCount)) []
  | candidateCheck {election voteCount : ℕ} (h : rf.phase = .candidate) :
    Spawns rf (.candidateCheck election voteCount) (.callResult election voteCount) []
  | elected {election voteCount : ℕ} (hvotes : Raft.majority n ≤ voteCount) :
    Spawns rf (.callResult election voteCount) (.initLeader election) [.elected rf.me election]
  | initLeader {election : ℕ} :
    Spawns rf (.initLeader election) (.heartbeat election 1) [.initLeader rf.me election]
  | heartbeatSleep {election beatNumber : ℕ} {es : List (Event n α)} (h : rf.phase = .leader) :
    Spawns rf (.heartbeat election beatNumber)
      (.heartbeatSleep ⟨election, beatNumber, rf.log.length - 1⟩ (List.replicate n default)) es
  | callAppendEntries {election beatNumber : ℕ} {call : EntriesCall n α} {es : List (Event n α)}
      (he : .sent (.appendEntries call) ∈ es)
      (hargs : rf.appendEntriesArgs call.server = some call.args) :
    Spawns rf (.heartbeat election beatNumber) (.callAppendEntries call) es
  | commit {beat : Beat} {replies : List AppendEntriesReply} (h : rf.phase = .leader) :
    Spawns rf (.heartbeatSleep beat replies) (.heartbeat beat.election (beat.beatNumber + 1)) []
  | raise {job : Job n α} (h : rf.currentTerm < job.otherTerm) :
    Spawns rf (.termSync job) (.demote job rf.currentTerm) []
  | requestVote {call : VoteCall n} (h : rf.currentTerm = call.args.term) :
    Spawns rf (.termSync (.requestVote call)) (.requestVote call rf.currentTerm) []
  | appendEntries {call : EntriesCall n α} (h : rf.currentTerm = call.args.term) :
    Spawns rf (.termSync (.appendEntries call)) (.appendEntries call rf.currentTerm) []
  | doneCh {call : VoteCall n} {reply : RequestVoteReply} :
    Spawns rf (.termSync (.sendRequestVote call reply)) (.doneCh call reply.voteGranted) []
  | demoteRequestVote {call : VoteCall n} {myTerm : ℕ} :
    Spawns rf (.demote (.requestVote call) myTerm) (.requestVote call myTerm) []
  | demoteAppendEntries {call : EntriesCall n α} {myTerm : ℕ} :
    Spawns rf (.demote (.appendEntries call) myTerm) (.appendEntries call myTerm) []
  | demoteDoneCh {call : VoteCall n} {reply : RequestVoteReply} {myTerm : ℕ} :
    Spawns rf (.demote (.sendRequestVote call reply) myTerm) (.doneCh call reply.voteGranted) []

private theorem spawns_demote {job : Job n α} {rf' : Raft n α} {myTerm : ℕ} {gr : Goroutine n α}
    (h : gr ∈ (job.react rf' myTerm).next) :
    Spawns rf (.demote job myTerm) gr (job.react rf' myTerm).events := by
  cases job with
  | requestVote call => cases List.mem_singleton.mp h; exact .demoteRequestVote
  | appendEntries call => cases List.mem_singleton.mp h; exact .demoteAppendEntries
  | sendRequestVote call reply => cases List.mem_singleton.mp h; exact .demoteDoneCh
  | sendAppendEntries call reply => cases h

/-- **Inversion of a `go` statement.** -/
theorem Runs.spawns {gr gr' : Goroutine n α} {e : Effect n α} (h : Runs gob rf gr e)
    (hn : gr' ∈ e.next) : Spawns rf gr gr' e.events := by
  cases h with
  | phaseChange => exact .routine (routine_of_initPhase hn)
  | lost => exact .routine (@routine_of_initPhase _ _ .follower _ hn)
  | awaitElection => cases List.mem_singleton.mp hn; exact .routine .awaitTimeout
  | callElection hc _ hargs =>
    subst hargs
    rcases List.mem_cons.mp hn with rfl | hn
    · exact .awaitVotes hc List.mem_cons_self
    · obtain ⟨call, hcall, rfl⟩ := List.mem_map.mp hn
      have he :=
        List.mem_map_of_mem (f := fun call => Event.sent (α := α) (.requestVote call)) hcall
      obtain ⟨ID, _, rfl⟩ := List.mem_map.mp hcall
      exact .callRequestVote (List.mem_cons_of_mem _ he) rfl rfl
  | lastVote => cases List.mem_singleton.mp hn; exact .lastVote
  | vote => cases List.mem_singleton.mp hn; exact .vote
  | candidateCheck h => cases List.mem_singleton.mp hn; exact .candidateCheck h
  | elected hv => cases List.mem_singleton.mp hn; exact .elected hv
  | initLeader => cases List.mem_singleton.mp hn; exact .initLeader
  | heartbeat hl hbeat hcalls =>
    rcases List.mem_cons.mp hn with rfl | hn
    · rw [hbeat]; exact .heartbeatSleep hl
    · obtain ⟨call, hcall, rfl⟩ := List.mem_map.mp hn
      exact .callAppendEntries (List.mem_map_of_mem hcall) (mem_calls hcalls hcall).2.2
  | commit hl =>
    rcases List.mem_cons.mp hn with rfl | hn
    · exact .commit hl
    · split at hn
      · cases List.mem_singleton.mp hn; exact .routine .applyEntries
      · cases hn
  | raise h => cases List.mem_singleton.mp hn; exact .raise h
  | react h =>
    rename_i job
    cases job with
    | requestVote call => cases List.mem_singleton.mp hn; exact .requestVote h
    | appendEntries call => cases List.mem_singleton.mp hn; exact .appendEntries h
    | sendRequestVote call reply => cases List.mem_singleton.mp hn; exact .doneCh
    | sendAppendEntries call reply => cases hn
  | ignore =>
    rename_i job _
    cases job with
    | sendRequestVote call reply => cases List.mem_singleton.mp hn; exact .doneCh
    | _ => cases hn
  | demote =>
    rcases List.mem_append.mp hn with hn | hn
    · exact spawns_demote hn
    · exact .routine (routine_of_initPhase hn)
  | demoteSame => exact spawns_demote hn
  | merge =>
    dsimp only at hn
    split at hn
    · cases List.mem_singleton.mp hn; exact .routine .applyEntries
    · cases hn
  | _ => cases hn

/-! ### One step of the cluster

A step concerns one node. It may run a critical section there, hand it a packet, or change nothing
but where a goroutine stands. -/

/-- `NodeStep gob net p a nd nd' es`: with the packets `net` in flight, action `a` can take the node
of `p` from `nd` to `nd'` while it emits `es`. -/
inductive NodeStep [Inhabited α] (gob : Labgob n α) (net : List (Packet n α)) (p : Fin n) :
    Action n α → Node n α → Node n α → List (Event n α) → Prop where
  | make {persister : List UInt8} :
    NodeStep gob net p (.make p) (.down persister)
      (.up (Raft.make gob p persister) [.awaitElection]) [.made p]
  | crash {rf : Raft n α} {gs : List (Goroutine n α)} :
    NodeStep gob net p (.crash p) (.up rf gs) (.down rf.persister) []
  | kill {rf : Raft n α} {gs : List (Goroutine n α)} :
    NodeStep gob net p (.kill p) (.up rf gs) (.up rf.kill gs) []
  | start {rf : Raft n α} {gs : List (Goroutine n α)} {command : α} (h : rf.phase = .leader) :
    NodeStep gob net p (.start p command) (.up rf gs)
      (.up (Raft.persist gob { rf with log := rf.log ++ [⟨rf.currentTerm, command⟩] }) gs)
      [.started p command rf.log.length rf.currentTerm]
  | startRefused {rf : Raft n α} {gs : List (Goroutine n α)} {command : α}
      (h : rf.phase ≠ .leader) :
    NodeStep gob net p (.start p command) (.up rf gs) (.up rf gs) []
  | panic {rf : Raft n α} {gs : List (Goroutine n α)} {g : ℕ} {gr : Goroutine n α}
      {e : Panic n α} (hg : gs[g]? = some gr) (h : Panics gob rf gr e) :
    NodeStep gob net p (.run p g) (.up rf gs) (.down e.rf.persister) e.events
  | run {rf : Raft n α} {gs : List (Goroutine n α)} {g : ℕ} {gr : Goroutine n α}
      {e : Effect n α} (hg : gs[g]? = some gr) (h : Runs gob rf gr e) :
    NodeStep gob net p (.run p g) (.up rf gs)
      (.up e.rf ((gs.eraseIdx g).map e.wake ++ e.next)) e.events
  | timeout {rf : Raft n α} {gs : List (Goroutine n α)} {g : ℕ} {gr gr' : Goroutine n α}
      (hg : gs[g]? = some gr) (h : gr.timeout = some gr') :
    NodeStep gob net p (.timeout p g) (.up rf gs) (.up rf (gs.eraseIdx g ++ [gr'])) []
  | reset {rf : Raft n α} {gs : List (Goroutine n α)} {g : ℕ} {gr gr' : Goroutine n α}
      (hg : gs[g]? = some gr) (h : gr.reset = some gr') :
    NodeStep gob net p (.reset p g) (.up rf gs) (.up rf (gs.eraseIdx g ++ [gr'])) []
  | fail {rf : Raft n α} {gs : List (Goroutine n α)} {g : ℕ} {gr : Goroutine n α}
      {next : List (Goroutine n α)} (hg : gs[g]? = some gr) (h : gr.fail = some next) :
    NodeStep gob net p (.fail p g) (.up rf gs) (.up rf (gs.eraseIdx g ++ next)) []
  | requestVote {rf : Raft n α} {gs : List (Goroutine n α)} {k : ℕ} {call : VoteCall n}
      (hk : .requestVote call ∈ net) (hp : call.server = p) :
    NodeStep gob net p (.deliver k) (.up rf gs)
      (.up rf (gs ++ [.termSync (.requestVote call)])) []
  | appendEntries {rf : Raft n α} {gs : List (Goroutine n α)} {k : ℕ} {call : EntriesCall n α}
      (hk : .appendEntries call ∈ net) (hp : call.server = p) :
    NodeStep gob net p (.deliver k) (.up rf gs)
      (.up rf (gs ++ [.termSync (.appendEntries call)])) []
  | requestVoteReply [DecidableEq α] {rf : Raft n α} {gs : List (Goroutine n α)} {k : ℕ}
      {call : VoteCall n} {reply : RequestVoteReply} (hk : .requestVoteReply call reply ∈ net)
      (hp : call.args.candidateID = p) (hg : .callRequestVote call ∈ gs) :
    NodeStep gob net p (.deliver k) (.up rf gs)
      (.up rf (gs.erase (.callRequestVote call) ++ [.termSync (.sendRequestVote call reply)])) []
  | appendEntriesReply [DecidableEq α] {rf : Raft n α} {gs : List (Goroutine n α)} {k : ℕ}
      {call : EntriesCall n α} {reply : AppendEntriesReply}
      (hk : .appendEntriesReply call reply ∈ net) (hp : call.args.leaderID = p)
      (hg : .callAppendEntries call ∈ gs) :
    NodeStep gob net p (.deliver k) (.up rf gs)
      (.up rf ((gs.erase (.callAppendEntries call)).map (Goroutine.pushReply call reply)
        ++ [.termSync (.sendAppendEntries call reply)])) []

/-- The goroutine at work in an action of a peer with goroutines `gs`, `none` for a call of
`Start`. -/
inductive Cluster.At (p : Fin n) (gs : List (Goroutine n α)) :
    Action n α → Option (Goroutine n α) → Prop where
  | start {command : α} : At p gs (.start p command) none
  | run {g : ℕ} {gr : Goroutine n α} (hg : gs[g]? = some gr) : At p gs (.run p g) (some gr)

theorem Cluster.At.mem {p : Fin n} {gs : List (Goroutine n α)} {a : Action n α}
    {gr : Goroutine n α} (h : Cluster.At p gs a (some gr)) : gr ∈ gs := by
  cases h with
  | run hg => exact List.mem_of_getElem? hg

/-- `Origin gob net p a nd gr es`: where a goroutine `gr` of `p` comes from after a step that finds
the node `nd` and emits `es`. -/
inductive Origin (gob : Labgob n α) (net : List (Packet n α)) (p : Fin n) (a : Action n α) :
    Node n α → Goroutine n α → List (Event n α) → Prop where
  | booted {persister : List UInt8} {es : List (Event n α)} :
    Origin gob net p a (.down persister) .awaitElection es
  | kept {rf : Raft n α} {gs : List (Goroutine n α)} {gr : Goroutine n α} {es : List (Event n α)}
      (hg : gr ∈ gs) : Origin gob net p a (.up rf gs) gr es
  | spawned {rf : Raft n α} {gs : List (Goroutine n α)} {gr gr' : Goroutine n α} {e : Effect n α}
      (ha : Cluster.At p gs a (some gr)) (h : Runs gob rf gr e) (hn : gr' ∈ e.next) :
    Origin gob net p a (.up rf gs) gr' e.events
  /-- A vote was pushed. -/
  | voted {rf : Raft n α} {gs : List (Goroutine n α)} {i voteCount : ℕ} {votes : List Bool}
      {call : VoteCall n} {vote : Bool} (hg : .awaitVotes call.args.term i voteCount votes ∈ gs)
      (ha : Cluster.At p gs a (some (.doneCh call vote))) :
    Origin gob net p a (.up rf gs) (.awaitVotes call.args.term i voteCount (votes ++ [vote])) []
  /-- A reply was pushed. -/
  | answered {rf : Raft n α} {gs : List (Goroutine n α)} {replies : List AppendEntriesReply}
      {call : EntriesCall n α} {reply : AppendEntriesReply}
      (hg : .heartbeatSleep call.beat replies ∈ gs) (hk : .appendEntriesReply call reply ∈ net)
      (hp : call.args.leaderID = p) :
    Origin gob net p a (.up rf gs) (.heartbeatSleep call.beat (replies.set call.server reply)) []
  /-- A `select` was left otherwise than with a vote. -/
  | interrupted {rf : Raft n α} {gs : List (Goroutine n α)} {gr : Goroutine n α}
      (h : gr = .awaitElection ∨ ∃ ph, gr = .phaseChange ph ∧ ph ≠ .leader) :
    Origin gob net p a (.up rf gs) gr []
  | failed {rf : Raft n α} {gs : List (Goroutine n α)} {call : VoteCall n}
      (hg : .callRequestVote call ∈ gs) : Origin gob net p a (.up rf gs) (.doneCh call false) []
  | requestVote {rf : Raft n α} {gs : List (Goroutine n α)} {call : VoteCall n}
      (hk : .requestVote call ∈ net) (hp : call.server = p) :
    Origin gob net p a (.up rf gs) (.termSync (.requestVote call)) []
  | appendEntries {rf : Raft n α} {gs : List (Goroutine n α)} {call : EntriesCall n α}
      (hk : .appendEntries call ∈ net) (hp : call.server = p) :
    Origin gob net p a (.up rf gs) (.termSync (.appendEntries call)) []
  | requestVoteReply {rf : Raft n α} {gs : List (Goroutine n α)} {call : VoteCall n}
      {reply : RequestVoteReply} (hk : .requestVoteReply call reply ∈ net)
      (hp : call.args.candidateID = p) (hg : .callRequestVote call ∈ gs) :
    Origin gob net p a (.up rf gs) (.termSync (.sendRequestVote call reply)) []
  | appendEntriesReply {rf : Raft n α} {gs : List (Goroutine n α)} {call : EntriesCall n α}
      {reply : AppendEntriesReply} (hk : .appendEntriesReply call reply ∈ net)
      (hp : call.args.leaderID = p) (hg : .callAppendEntries call ∈ gs) :
    Origin gob net p a (.up rf gs) (.termSync (.sendAppendEntries call reply)) []

theorem Goroutine.pushVote_cases (gr : Goroutine n α) (election : ℕ) (vote : Bool) :
    gr.pushVote election vote = gr ∨ ∃ i voteCount votes,
      gr = .awaitVotes election i voteCount votes ∧
      gr.pushVote election vote = .awaitVotes election i voteCount (votes ++ [vote]) := by
  cases gr with
  | awaitVotes e i voteCount votes =>
    by_cases h : e = election
    · subst h
      exact Or.inr ⟨i, voteCount, votes, rfl, by simp [Goroutine.pushVote]⟩
    · exact Or.inl (by simp [Goroutine.pushVote, h])
  | _ => exact Or.inl rfl

theorem Goroutine.pushReply_cases (gr : Goroutine n α) (call : EntriesCall n α)
    (reply : AppendEntriesReply) :
    gr.pushReply call reply = gr ∨ ∃ replies, gr = .heartbeatSleep call.beat replies ∧
      gr.pushReply call reply = .heartbeatSleep call.beat (replies.set call.server reply) := by
  cases gr with
  | heartbeatSleep beat replies =>
    by_cases h : beat = call.beat
    · subst h
      exact Or.inr ⟨replies, rfl, by simp [Goroutine.pushReply]⟩
    · exact Or.inl (by simp [Goroutine.pushReply, h])
  | _ => exact Or.inl rfl

/-- Only `doneCh` touches other goroutines. -/
theorem Runs.wake_cases {gr : Goroutine n α} {e : Effect n α} (h : Runs gob rf gr e) :
    e.wake = id ∨ ∃ call vote, gr = .doneCh call vote ∧ e.events = [] ∧
      e.wake = Goroutine.pushVote call.args.term vote := by
  cases h with
  | doneCh => exact Or.inr ⟨_, _, rfl, rfl, rfl⟩
  | react => rename_i job _; cases job <;> exact Or.inl rfl
  | ignore => rename_i job _; cases job <;> exact Or.inl rfl
  | demote => rename_i job _ _ _; cases job <;> exact Or.inl rfl
  | demoteSame => rename_i job _ _; cases job <;> exact Or.inl rfl
  | _ => exact Or.inl rfl

private theorem origin_of_timeout {gr gr' : Goroutine n α} (h : gr.timeout = some gr') :
    gr' = .awaitElection ∨ ∃ ph, gr' = .phaseChange ph ∧ ph ≠ .leader := by
  cases gr with
  | awaitTimeout => cases h; exact Or.inr ⟨_, rfl, nofun⟩
  | awaitVotes => cases h; exact Or.inr ⟨_, rfl, nofun⟩
  | _ => cases h

private theorem origin_of_reset {gr gr' : Goroutine n α} (h : gr.reset = some gr') :
    gr' = .awaitElection ∨ ∃ ph, gr' = .phaseChange ph ∧ ph ≠ .leader := by
  cases gr with
  | awaitTimeout => cases h; exact Or.inl rfl
  | awaitVotes => cases h; exact Or.inr ⟨_, rfl, nofun⟩
  | _ => cases h

private theorem origin_of_fail {gr gr' : Goroutine n α} {next : List (Goroutine n α)}
    (h : gr.fail = some next) (hn : gr' ∈ next) :
    ∃ call, gr = .callRequestVote call ∧ gr' = .doneCh call false := by
  cases gr with
  | callRequestVote call => cases h; exact ⟨call, rfl, List.mem_singleton.mp hn⟩
  | callAppendEntries call => cases h; cases hn
  | _ => cases h

/-- **Inversion of a goroutine.** -/
theorem NodeStep.origin [Inhabited α] {net : List (Packet n α)} {p : Fin n} {a : Action n α}
    {nd : Node n α} {rf' : Raft n α} {gs' : List (Goroutine n α)} {es : List (Event n α)}
    (h : NodeStep gob net p a nd (.up rf' gs') es) {gr' : Goroutine n α} (hgr' : gr' ∈ gs') :
    Origin gob net p a nd gr' es := by
  cases h with
  | make => cases List.mem_singleton.mp hgr'; exact .booted
  | kill => exact .kept hgr'
  | start => exact .kept hgr'
  | startRefused => exact .kept hgr'
  | run hg h =>
    rcases List.mem_append.mp hgr' with hgr' | hgr'
    · obtain ⟨gr₀, hgr₀, rfl⟩ := List.mem_map.mp hgr'
      have hgr₀ := List.mem_of_mem_eraseIdx hgr₀
      rcases h.wake_cases with hw | ⟨call, vote, rfl, he, hw⟩
      · rw [hw]; exact .kept hgr₀
      · rw [hw, he]
        rcases gr₀.pushVote_cases call.args.term vote with hv | ⟨_, _, _, rfl, hv⟩
        · rw [hv]; exact .kept hgr₀
        · rw [hv]; exact .voted hgr₀ (.run hg)
    · exact .spawned (.run hg) h hgr'
  | timeout hg h =>
    rcases List.mem_append.mp hgr' with hgr' | hgr'
    · exact .kept (List.mem_of_mem_eraseIdx hgr')
    · cases List.mem_singleton.mp hgr'
      exact .interrupted (origin_of_timeout h)
  | reset hg h =>
    rcases List.mem_append.mp hgr' with hgr' | hgr'
    · exact .kept (List.mem_of_mem_eraseIdx hgr')
    · cases List.mem_singleton.mp hgr'
      exact .interrupted (origin_of_reset h)
  | fail hg h =>
    rcases List.mem_append.mp hgr' with hgr' | hgr'
    · exact .kept (List.mem_of_mem_eraseIdx hgr')
    · obtain ⟨call, rfl, rfl⟩ := origin_of_fail h hgr'
      exact .failed (List.mem_of_getElem? hg)
  | requestVote hk hp =>
    rcases List.mem_append.mp hgr' with hgr' | hgr'
    · exact .kept hgr'
    · cases List.mem_singleton.mp hgr'
      exact .requestVote hk hp
  | appendEntries hk hp =>
    rcases List.mem_append.mp hgr' with hgr' | hgr'
    · exact .kept hgr'
    · cases List.mem_singleton.mp hgr'
      exact .appendEntries hk hp
  | requestVoteReply hk hp hg =>
    rcases List.mem_append.mp hgr' with hgr' | hgr'
    · exact .kept (List.mem_of_mem_erase hgr')
    · cases List.mem_singleton.mp hgr'
      exact .requestVoteReply hk hp hg
  | appendEntriesReply hk hp hg =>
    rename_i call reply
    rcases List.mem_append.mp hgr' with hgr' | hgr'
    · obtain ⟨gr₀, hgr₀, rfl⟩ := List.mem_map.mp hgr'
      have hgr₀ := List.mem_of_mem_erase hgr₀
      rcases gr₀.pushReply_cases call reply with hv | ⟨_, rfl, hv⟩
      · rw [hv]; exact .kept hgr₀
      · rw [hv]; exact .answered hgr₀ hk hp
    · cases List.mem_singleton.mp hgr'
      exact .appendEntriesReply hk hp hg

/-- `StructStep gob p a nd rf`: what the struct of a peer `p` that is up after a step comes from. -/
inductive StructStep [Inhabited α] (gob : Labgob n α) (p : Fin n) (a : Action n α) :
    Node n α → Raft n α → Prop where
  | make {persister : List UInt8} :
    StructStep gob p a (.down persister) (Raft.make gob p persister)
  | same {rf : Raft n α} {gs : List (Goroutine n α)} : StructStep gob p a (.up rf gs) rf
  | kill {rf : Raft n α} {gs : List (Goroutine n α)} : StructStep gob p a (.up rf gs) rf.kill
  | start {rf : Raft n α} {gs : List (Goroutine n α)} {command : α} (h : rf.phase = .leader)
      (ha : Cluster.At p gs a none) :
    StructStep gob p a (.up rf gs)
      (Raft.persist gob { rf with log := rf.log ++ [⟨rf.currentTerm, command⟩] })
  | run {rf : Raft n α} {gs : List (Goroutine n α)} {gr : Goroutine n α} {e : Effect n α}
      (ha : Cluster.At p gs a (some gr)) (h : Runs gob rf gr e) :
    StructStep gob p a (.up rf gs) e.rf

/-- **Inversion of the struct.** -/
theorem NodeStep.struct [Inhabited α] {net : List (Packet n α)} {p : Fin n} {a : Action n α}
    {nd : Node n α} {rf' : Raft n α} {gs' : List (Goroutine n α)} {es : List (Event n α)}
    (h : NodeStep gob net p a nd (.up rf' gs') es) : StructStep gob p a nd rf' := by
  cases h with
  | make => exact .make
  | kill => exact .kill
  | start h => exact .start h .start
  | run hg h => exact .run (.run hg) h
  | _ => exact .same

/-- `Emits gob p a nd nd' es ev`: what an event `ev` among the events `es` of a step of peer `p`
from `nd` to `nd'` tells about that step. -/
inductive Emits (gob : Labgob n α) (p : Fin n) (a : Action n α) :
    Node n α → Node n α → List (Event n α) → Event n α → Prop where
  | made {nd nd' : Node n α} {es : List (Event n α)} : Emits gob p a nd nd' es (.made p)
  | started {rf : Raft n α} {gs : List (Goroutine n α)} {nd' : Node n α} {es : List (Event n α)}
      {command : α} (ha : a = .start p command) (h : rf.phase = .leader) :
    Emits gob p a (.up rf gs) nd' es (.started p command rf.log.length rf.currentTerm)
  | candidacy {rf : Raft n α} {gs : List (Goroutine n α)} {nd' : Node n α} {es : List (Event n α)}
      (ha : Cluster.At p gs a (some .callElection)) (h : rf.phase = .candidate) :
    Emits gob p a (.up rf gs) nd' es (.candidacy rf.me (rf.currentTerm + 1))
  | elected {rf : Raft n α} {gs : List (Goroutine n α)} {nd' : Node n α} {es : List (Event n α)}
      {election voteCount : ℕ} (ha : Cluster.At p gs a (some (.callResult election voteCount)))
      (hvotes : Raft.majority n ≤ voteCount) (h : rf.phase ≠ .exit) (h' : rf.phase ≠ .leader) :
    Emits gob p a (.up rf gs) nd' es (.elected rf.me election)
  | initLeader {rf : Raft n α} {gs : List (Goroutine n α)} {nd' : Node n α}
      {es : List (Event n α)} {election : ℕ}
      (ha : Cluster.At p gs a (some (.initLeader election))) :
    Emits gob p a (.up rf gs) nd' es (.initLeader rf.me election)
  | applied {rf : Raft n α} {gs : List (Goroutine n α)} {nd' : Node n α} {es : List (Event n α)}
      {msg : ApplyMsg α} {e : LogEntry α} (hlt : rf.lastApplied < msg.commandIndex)
      (hle : msg.commandIndex ≤ rf.commitIndex)
      (hget : GoSlice.get rf.log msg.commandIndex = some e) (hdata : e.data = msg.command) :
    Emits gob p a (.up rf gs) nd' es (.applied rf.me msg)
  | sent {rf : Raft n α} {gs gs' : List (Goroutine n α)} {gr : Goroutine n α} {e : Effect n α}
      {packet : Packet n α} (ha : Cluster.At p gs a (some gr)) (h : Runs gob rf gr e)
      (hp : .sent packet ∈ e.events) :
    Emits gob p a (.up rf gs) (.up e.rf gs') e.events (.sent packet)

private theorem emits_applied {p : Fin n} {a : Action n α} {gs : List (Goroutine n α)}
    {nd' : Node n α} {es : List (Event n α)} {msgs : List (ApplyMsg α)} {r : Option (Raft n α)}
    (h : rf.applyEntries = (msgs, r)) {ev : Event n α} (hev : ev ∈ msgs.map (.applied rf.me)) :
    Emits gob p a (.up rf gs) nd' es ev := by
  obtain ⟨msg, hm, rfl⟩ := List.mem_map.mp hev
  obtain ⟨h₁, h₂, e, he, hd⟩ := Raft.mem_applyEntries h hm
  exact .applied h₁ h₂ he hd

/-- Everything that is not a packet comes from a few places. -/
private theorem Runs.emits {p : Fin n} {a : Action n α} {gs gs' : List (Goroutine n α)}
    {gr : Goroutine n α} {e : Effect n α} (h : Runs gob rf gr e)
    (ha : Cluster.At p gs a (some gr)) {ev : Event n α} (hev : ev ∈ e.events) :
    Emits gob p a (.up rf gs) (.up e.rf gs') e.events ev := by
  have hr := h
  have hev' := hev
  cases h with
  | callElection hc _ hargs =>
    subst hargs
    rcases List.mem_cons.mp hev with rfl | hev
    · exact .candidacy ha hc
    · obtain ⟨_, _, rfl⟩ := List.mem_map.mp hev
      exact .sent ha hr hev'
  | heartbeat =>
    obtain ⟨_, _, rfl⟩ := List.mem_map.mp hev
    exact .sent ha hr hev'
  | applyEntries h => exact emits_applied h hev
  | react => rename_i job _; cases job <;> cases hev
  | ignore =>
    rename_i job _
    cases job with
    | requestVote call => cases List.mem_singleton.mp hev; exact .sent ha hr hev'
    | appendEntries call => cases List.mem_singleton.mp hev; exact .sent ha hr hev'
    | _ => cases hev
  | demote => rename_i job _ _ _; cases job <;> cases hev
  | demoteSame => rename_i job _ _; cases job <;> cases hev
  | elected hv h h' => cases List.mem_singleton.mp hev; exact .elected ha hv h h'
  | initLeader => cases List.mem_singleton.mp hev; exact .initLeader ha
  | grant | deny | merge | conflict | short =>
    cases List.mem_singleton.mp hev
    exact .sent ha hr hev'
  | _ => cases hev

/-- **Inversion of an event.** -/
theorem NodeStep.emits [Inhabited α] {net : List (Packet n α)} {p : Fin n} {a : Action n α}
    {nd nd' : Node n α} {es : List (Event n α)} (h : NodeStep gob net p a nd nd' es)
    {ev : Event n α} (hev : ev ∈ es) : Emits gob p a nd nd' es ev := by
  cases h with
  | make => cases List.mem_singleton.mp hev; exact .made
  | start h => cases List.mem_singleton.mp hev; exact .started rfl h
  | run hg h => exact h.emits (.run hg) hev
  | panic hg h =>
    cases h with
    | callElection hc _ => cases List.mem_singleton.mp hev; exact .candidacy (.run hg) hc
    | applyEntries h => exact emits_applied h hev
    | other => cases hev
  | _ => cases hev

namespace Cluster

variable [Inhabited α] [DecidableEq α] {s s' : Cluster n α} {a : Action n α}
  {es es' : List (Event n α)}

omit [Inhabited α] [DecidableEq α] in
theorem mem_packets {packet : Packet n α} : packet ∈ packets es ↔ .sent packet ∈ es := by
  simp only [packets, List.mem_filterMap]
  constructor
  · rintro ⟨e, he, h⟩
    cases e <;> simp_all
  · intro h
    exact ⟨_, h, rfl⟩

/-- A step changes one node, by `NodeStep`, and only adds packets that it sends. -/
structure Moves (gob : Labgob n α) (s : Cluster n α) (a : Action n α) (s' : Cluster n α)
    (es : List (Event n α)) (p : Fin n) (nd : Node n α) : Prop where
  /-- What happens to the node. -/
  node_step : NodeStep gob s.net p a (s.node p) nd es
  node_eq : s'.node = Function.update s.node p nd
  /-- A packet is removed when it is delivered; none is altered. -/
  mem_net : ∀ packet ∈ s'.net, packet ∈ s.net ∨ .sent packet ∈ es

omit [DecidableEq α] in
/-- The cluster may differ in what neither `put` nor `Moves` looks at. -/
private theorem moves_put {s₀ : Cluster n α} {p : Fin n} {nd : Node n α}
    (he : s₀.put p nd es = (s', es')) (hnode : s₀.node = s.node)
    (hnet : ∀ packet ∈ s₀.net, packet ∈ s.net) (h : NodeStep gob s.net p a (s.node p) nd es) :
    ∃ p nd, Moves gob s a s' es' p nd := by
  cases he
  refine ⟨p, nd, h, by rw [hnode], fun packet hp => ?_⟩
  rcases List.mem_append.mp hp with hp | hp
  · exact Or.inl (hnet packet hp)
  · exact Or.inr (mem_packets.mp hp)

omit [DecidableEq α] in
private theorem resume_moves {s₀ : Cluster n α} {p : Fin n} {g : ℕ}
    {f : Goroutine n α → Option (List (Goroutine n α))}
    (h : s₀.resume p g f = some (s', es)) (hnode : s₀.node = s.node)
    (hnet : ∀ packet ∈ s₀.net, packet ∈ s.net)
    (hstep : ∀ rf gs gr next, gs[g]? = some gr → f gr = some next →
      NodeStep gob s.net p a (.up rf gs) (.up rf (gs.eraseIdx g ++ next)) []) :
    ∃ p nd, Moves gob s a s' es p nd := by
  unfold resume at h
  split at h
  · cases h
  · rename_i rf gs hnd
    obtain ⟨next, hn, he⟩ := Option.map_eq_some_iff.mp h
    obtain ⟨gr, hg, hf⟩ := Option.bind_eq_some_iff.mp hn
    refine moves_put he hnode hnet ?_
    rw [← hnode, hnd]
    exact hstep rf gs gr next hg hf

private theorem deliver_moves {k : ℕ} {packet : Packet n α} (hk : packet ∈ s.net)
    (h : Cluster.deliver { s with net := s.net.eraseIdx k } packet = some (s', es)) :
    ∃ p nd, Moves gob s (.deliver k) s' es p nd := by
  have hnet : ∀ pkt ∈ s.net.eraseIdx k, pkt ∈ s.net := fun _ => List.mem_of_mem_eraseIdx
  cases packet with
  | requestVote call =>
    simp only [deliver] at h
    split at h
    · cases h
    · rename_i rf gs hnd
      refine moves_put (Option.some.inj h) rfl hnet ?_
      rw [hnd]
      exact .requestVote hk rfl
  | appendEntries call =>
    simp only [deliver] at h
    split at h
    · cases h
    · rename_i rf gs hnd
      refine moves_put (Option.some.inj h) rfl hnet ?_
      rw [hnd]
      exact .appendEntries hk rfl
  | requestVoteReply call reply =>
    simp only [deliver] at h
    split at h
    · cases h
    · rename_i rf gs hnd
      split at h
      · rename_i hg
        refine moves_put (Option.some.inj h) rfl hnet ?_
        rw [hnd]
        exact .requestVoteReply hk rfl hg
      · cases h
  | appendEntriesReply call reply =>
    simp only [deliver] at h
    split at h
    · cases h
    · rename_i rf gs hnd
      split at h
      · rename_i hg
        refine moves_put (Option.some.inj h) rfl hnet ?_
        rw [hnd]
        exact .appendEntriesReply hk rfl hg
      · cases h

private theorem start_moves {p : Fin n} {command : α} {rf : Raft n α}
    {gs : List (Goroutine n α)} (hnd : s.node p = .up rf gs)
    (h : step gob s (.start p command) = some (s', es)) :
    ∃ p' nd, Moves gob s (.start p command) s' es p' nd := by
  simp only [step, hnd] at h
  refine moves_put (Option.some.inj h) rfl (fun _ => id) ?_
  rw [hnd]
  by_cases hl : rf.phase = .leader
  · simpa [Raft.start, hl] using NodeStep.start hl
  · simpa [Raft.start, hl] using NodeStep.startRefused hl

/-- **Inversion of `Cluster.step`.** -/
theorem step_moves (h : step gob s a = some (s', es)) : ∃ p nd, Moves gob s a s' es p nd := by
  cases a with
  | make p =>
    simp only [step] at h
    split at h
    · cases h
    · rename_i persister hnd
      exact moves_put (Option.some.inj h) rfl (fun _ => id) (by rw [hnd]; exact .make)
  | crash p =>
    simp only [step] at h
    split at h
    · cases h
    · rename_i rf gs hnd
      exact moves_put (Option.some.inj h) rfl (fun _ => id) (by rw [hnd]; exact .crash)
  | kill p =>
    simp only [step] at h
    split at h
    · cases h
    · rename_i rf gs hnd
      exact moves_put (Option.some.inj h) rfl (fun _ => id) (by rw [hnd]; exact .kill)
  | start p command =>
    cases hnd : s.node p with
    | down persister => simp [step, hnd] at h
    | up rf gs => exact start_moves hnd h
  | run p g =>
    simp only [step] at h
    split at h
    · cases h
    · rename_i rf gs hnd
      split at h
      · cases h
      · rename_i e he
        obtain ⟨gr, hg, hr⟩ := Option.bind_eq_some_iff.mp he
        refine moves_put (Option.some.inj h) rfl (fun _ => id) ?_
        rw [hnd]
        exact .panic hg (panics_of_run hr)
      · rename_i e he
        obtain ⟨gr, hg, hr⟩ := Option.bind_eq_some_iff.mp he
        refine moves_put (Option.some.inj h) rfl (fun _ => id) ?_
        rw [hnd]
        exact .run hg (runs_of_run hr)
  | timeout p g =>
    refine resume_moves h rfl (fun _ => id) fun rf gs gr next hg hf => ?_
    obtain ⟨gr', hgr, rfl⟩ := Option.map_eq_some_iff.mp hf
    exact .timeout hg hgr
  | reset p g =>
    simp only [step] at h
    split at h
    · cases h
    · refine resume_moves h rfl (fun _ => id) fun rf gs gr next hg hf => ?_
      obtain ⟨gr', hgr, rfl⟩ := Option.map_eq_some_iff.mp hf
      exact .reset hg hgr
  | fail p g => exact resume_moves h rfl (fun _ => id) fun rf gs gr next hg hf => .fail hg hf
  | deliver k =>
    simp only [step] at h
    split at h
    · cases h
    · rename_i packet hk
      exact deliver_moves (List.mem_of_getElem? hk) h

/-! ### Invariants of the cluster

Rules that do the bookkeeping of `System.Reachable.invariant` once and for all: for an event, for
the node of one peer, and for its struct. -/

/-- A configuration of the cluster. -/
abbrev Cfg (n : ℕ) (α : Type) : Type := System.Config (Cluster n α) (Event n α)

variable {ok : Cfg n α → Action n α → Prop} {c c' : Cfg n α}

theorem next_moves (h : (system gob).next c a = some c') :
    ∃ es p nd, Moves gob c.state a c'.state es p nd ∧ c'.trace = c.trace ++ es := by
  obtain ⟨es, hs, ht⟩ := System.next_eq_some_iff.mp h
  obtain ⟨p, nd, hm⟩ := step_moves hs
  exact ⟨es, p, nd, hm, ht⟩

/-- **Inversion of an event of a run.** It was there before the last step, or that step emitted
it. -/
theorem emits_of_next (hn : (system gob).next c a = some c') {ev : Event n α}
    (h : ev ∈ c'.trace) :
    ev ∈ c.trace ∨ ∃ p nd nd' es, c.state.node p = nd ∧ Emits gob p a nd nd' es ev := by
  obtain ⟨es, p, nd', hm, ht⟩ := next_moves hn
  rw [ht] at h
  rcases List.mem_append.mp h with h | h
  · exact Or.inl h
  · exact Or.inr ⟨p, _, nd', es, rfl, hm.node_step.emits h⟩

/-- A step of a goroutine, given that goroutine. -/
theorem runs_of_at {p : Fin n} {rf : Raft n α} {gs : List (Goroutine n α)} {gr : Goroutine n α}
    (hn : (system gob).next c a = some c') (hnd : c.state.node p = .up rf gs)
    (ha : At p gs a (some gr)) :
    (∃ e gs', Runs gob rf gr e ∧ c'.state.node p = .up e.rf gs' ∧ c'.trace = c.trace ++ e.events) ∨
      ∃ e, Panics gob rf gr e ∧ c'.state.node p = .down e.rf.persister ∧
        c'.trace = c.trace ++ e.events := by
  obtain ⟨es, q, nd, hm, ht⟩ := next_moves hn
  have hstep := hm.node_step
  have hnode := hm.node_eq
  cases ha with
  | run hg =>
    generalize hq : c.state.node q = nd₀ at hstep
    cases hstep with
    | run hg' h =>
      cases hq.symm.trans hnd
      cases hg.symm.trans hg'
      exact Or.inl ⟨_, _, h, by rw [hnode, Function.update_self], ht⟩
    | panic hg' h =>
      cases hq.symm.trans hnd
      cases hg.symm.trans hg'
      exact Or.inr ⟨_, h, by rw [hnode, Function.update_self], ht⟩

/-- **The invariant rule for one peer at a time.** A property of a node that no step of another peer
can end is an invariant as soon as the node of the peer that moves keeps it. -/
theorem node_invariant {I : Cfg n α → Fin n → Node n α → Prop}
    (init : ∀ p, I (system gob).start p (.down []))
    (mono : ∀ c a c' p nd, (system gob).next c a = some c' → I c p nd → I c' p nd)
    (hstep : ∀ c a c' p nd es, (system gob).Reachable ok c → (∀ q, I c q (c.state.node q)) →
      ok c a → (system gob).next c a = some c' → c'.trace = c.trace ++ es →
      NodeStep gob c.state.net p a (c.state.node p) nd es → c'.state.node p = nd → I c' p nd)
    (hc : (system gob).Reachable ok c) (p : Fin n) : I c p (c.state.node p) := by
  refine System.Reachable.invariant (M := system gob)
    (P := fun c => ∀ p, I c p (c.state.node p)) init ?_ hc p
  intro c a c' hc hI ha hn q
  obtain ⟨es, p, nd, hm, ht⟩ := next_moves hn
  have hp : c'.state.node p = nd := by rw [hm.node_eq, Function.update_self]
  rcases eq_or_ne q p with rfl | hq
  · rw [hp]
    exact hstep c a c' q nd es hc hI ha hn ht hm.node_step hp
  · rw [hm.node_eq, Function.update_of_ne hq]
    exact mono c a c' q _ hn (hI q)

/-- **The invariant rule for the struct of a peer that is up.** -/
theorem struct_invariant {I : Fin n → Raft n α → Prop}
    (hstep : ∀ c a p rf', (system gob).Reachable ok c → ok c a →
      (∀ rf gs, c.state.node p = .up rf gs → I p rf) →
      StructStep gob p a (c.state.node p) rf' → I p rf')
    (hc : (system gob).Reachable ok c) {p : Fin n} {rf : Raft n α} {gs : List (Goroutine n α)}
    (hnd : c.state.node p = .up rf gs) : I p rf := by
  refine node_invariant (I := fun _ p nd => ∀ rf gs, nd = .up rf gs → I p rf)
    (fun _ => nofun) (fun _ _ _ _ _ _ h => h) ?_ hc p rf gs hnd
  intro c a c' p nd es hc hI ha _ _ hs _ rf' gs' hnd'
  subst hnd'
  exact hstep c a p rf' hc ha (hI p) hs.struct

end Cluster

end Distsys
