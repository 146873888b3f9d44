import Distsys.Raft.Frame
import Distsys.Raft.SliceBounds

/-!
# An election that succeeds

However a cluster has got to where it is, a majority of its peers can be made again and elect one of
them. `Make` starts each of them as a follower with what its `Persister` holds. The peer whose log
is the most up to date calls elections that nobody hears of until its term is not below the others',
and then one in which its requests and their replies arrive. Everybody in the majority grants its
vote: the term is new to it, so it has not voted in it.

## The conditions on the run

The run has to meet the guard `Proper`, since what is reached is used together with the safety
results. Votes are granted in their term and the election is won in its term, because nothing else
happens in between. That is why the run is so quiet: old packets stay where they are, and peers
outside the majority do not move. None of this asks anything of the configuration it starts from.

## Main definitions

* `Cluster.restarted`, `Cluster.Waiting`, `Cluster.Polling`, `Cluster.Crowned` — what is known of
  the majority behind `Make`, before the election, during it, and behind it

## Main results

* `Cluster.can_restart`
* `Cluster.can_campaign`, `Cluster.can_withdraw` — a call of an election, and its end
* `Cluster.can_grant`, `Cluster.can_count` — one request for a vote
* `Cluster.Waiting.can_elect`
-/

namespace Distsys

variable {n : ℕ} {α : Type}

namespace Cluster

variable {gob : Labgob n α} {base : Cfg n α} {Q : Finset (Fin n)} {D : Part n α} {L : Fin n}

/-- The calls of `RequestVote` that are not answered. -/
def asking (args : RequestVoteArgs n) (R : Set (Fin n)) : Set (Goroutine n α) :=
  {gr | ∃ q ∈ R, gr = .callRequestVote ⟨q, args⟩}

theorem asking_mono {args : RequestVoteArgs n} {R R' : Set (Fin n)} (h : R ⊆ R') :
    asking (α := α) args R ⊆ asking args R' := by
  rintro gr ⟨q, hq, rfl⟩
  exact ⟨q, h hq, rfl⟩

/-- A follower that has done nothing since it was made, other than to learn of terms and to vote. -/
structure Idle (logs : Fin n → List (LogEntry α)) (p : Fin n) (rf : Raft n α) : Prop where
  me : rf.me = p
  phase : rf.phase = .follower
  /-- The log is the one that was saved. -/
  log : rf.log = logs p
  commitIndex : rf.commitIndex = 0
  lastApplied : rf.lastApplied = 0

/-- The other peers while `L` is at work in term `T`. -/
def Bystanders (logs : Fin n → List (LogEntry α)) (Q : Finset (Fin n)) (L : Fin n) (T : ℕ)
    (D : Part n α) : Prop :=
  ∀ q ∈ Q, q ≠ L → Idle logs q (D.rf q) ∧ (D.rf q).currentTerm ≤ T ∧ D.gs q = ∅

theorem Bystanders.put {logs : Fin n → List (LogEntry α)} {T : ℕ} (h : Bystanders logs Q L T D)
    (rf : Raft n α) (X : Set (Goroutine n α)) (es : List (Event n α)) :
    Bystanders logs Q L T (D.put L rf X es) := by
  intro q hq hne
  rw [Part.rf_put_of_ne hne, Part.gs_put_of_ne hne]
  exact h q hq hne

variable [Inhabited α] [DecidableEq α]

/-! ### Restart

The peers of the majority are crashed if they are up, and then made again. This clears whatever they
were in the middle of. -/

/-- The peers have just been made again, from what their `Persister`s hold. -/
def restarted (gob : Labgob n α) (base : Cfg n α) : Part n α where
  rf p := Raft.make gob p (base.state.node p).persister
  gs _ := {.awaitElection}
  net := ∅
  trace := ∅

theorem reaches_crash {c : Cfg n α} {p : Fin n} {rf : Raft n α} {gs : List (Goroutine n α)}
    (hnd : c.state.node p = .up rf gs) :
    (system gob).Reaches Proper c ⟨(c.state.put p (.down rf.persister) []).1, c.trace⟩ := by
  refine (System.Reaches.refl c).tail (a := .crash p) (Permits.of_running _ _ rfl trivial) ?_
  refine System.next_eq_some_iff.mpr ⟨[], ?_, (List.append_nil _).symm⟩
  simp only [system, step, hnd]
  rfl

theorem reaches_make {c : Cfg n α} {p : Fin n} {persister : List UInt8}
    (hnd : c.state.node p = .down persister) :
    (system gob).Reaches Proper c
      ⟨(c.state.put p (.up (Raft.make gob p persister) [.awaitElection]) [.made p]).1,
        c.trace ++ [.made p]⟩ := by
  refine (System.Reaches.refl c).tail (a := .make p) (Permits.of_running _ _ rfl trivial) ?_
  refine System.next_eq_some_iff.mpr ⟨[.made p], ?_, rfl⟩
  simp only [system, step, hnd]
  rfl

/-- Peers can be made again, in whatever state they are. -/
theorem can_restart : (system gob).Can Proper (· = base) (Holds base Q (restarted gob base)) := by
  let P (done : Finset (Fin n)) (c : Cfg n α) : Prop := (∃ es, c.trace = base.trace ++ es) ∧
    ∀ p, c.state.node p = if p ∈ done then
      .up (Raft.make gob p (base.state.node p).persister) [.awaitElection]
      else base.state.node p
  refine (System.Can.of_imp (Q := P ∅) ?_).trans
    ((System.Can.forEach Q ?_).trans (System.Can.of_imp ?_))
  · rintro c rfl
    exact ⟨⟨[], (List.append_nil _).symm⟩, fun p => by simp⟩
  · rintro done p hp hdone c ⟨⟨es, hes⟩, hnode⟩
    have hnd := (hnode p).trans (if_neg hdone)
    -- it is enough that the peer is down, with the same `Persister`
    have hmake : ∀ d : Cfg n α, d.trace = c.trace →
        d.state.node p = .down (base.state.node p).persister →
        (∀ q, q ≠ p → d.state.node q = c.state.node q) → ∃ d', (system gob).Reaches Proper d d' ∧
          (∃ es, d'.trace = base.trace ++ es) ∧ ∀ q, d'.state.node q = if q ∈ insert p done then
            .up (Raft.make gob q (base.state.node q).persister) [.awaitElection]
            else base.state.node q := by
      intro d htrace hdown hother
      refine ⟨_, reaches_make hdown, ⟨es ++ [.made p], ?_⟩, fun q => ?_⟩
      · rw [htrace, hes, List.append_assoc]
      · rcases eq_or_ne q p with rfl | hne
        · simp [put]
        · simp [put, hne, hother q hne, hnode q]
    cases hbase : base.state.node p with
    | down persister => exact hmake c rfl (by rw [hnd, hbase]; rfl) fun _ _ => rfl
    | up rf gs =>
      obtain ⟨d', hd', h⟩ := hmake ⟨(c.state.put p (.down rf.persister) []).1, c.trace⟩ rfl
        (by simp [put, hbase, Node.persister]) fun q hq => Function.update_of_ne hq ..
      exact ⟨d', (reaches_crash (hnd.trans hbase)).trans hd', h⟩
  · rintro c ⟨⟨es, hes⟩, hnode⟩
    refine ⟨fun p hp => ?_, fun p hp => ?_, ?_, es, hes, ?_⟩
    · exact ⟨_, (hnode p).trans (if_pos hp), fun gr hgr => hgr ▸ List.mem_singleton_self _⟩
    · exact (hnode p).trans (if_neg hp)
    · exact fun _ h => absurd h (Set.notMem_empty _)
    · exact fun _ h => absurd h (Set.notMem_empty _)

/-! ### Elections

Every rule has a peer that moves and says what the others may rely on: they are still idle, in a
term that is not above a given one. -/

omit [Inhabited α] [DecidableEq α] in
theorem run_awaitElection {rf : Raft n α} (h : rf.phase = .follower) :
    Goroutine.run gob rf .awaitElection = some (.ok { rf, next := [.awaitTimeout] }) := by
  simp [Goroutine.run, h]

omit [Inhabited α] [DecidableEq α] in
theorem run_phaseChange {rf : Raft n α} {ph : Phase} (h : rf.phase ≠ .exit) (h' : rf.phase ≠ ph) :
    Goroutine.run gob rf (.phaseChange ph) = some (.ok
      { rf := { rf with phase := ph }, next := initPhase ph }) := by
  simp [Goroutine.run, Raft.phaseChangeGo, Raft.phaseChange, h, h']

/-- The struct of a peer that has called an election. -/
def campaigner (gob : Labgob n α) (rf : Raft n α) : Raft n α :=
  Raft.persist gob
    { rf with phase := .candidate, currentTerm := rf.currentTerm + 1, votedFor := some rf.me }

/-- What is known of a peer that has called one, and of its requests. -/
def calling (gob : Labgob n α) (D : Part n α) (rf : Raft n α) (es : List (Event n α))
    (args : RequestVoteArgs n) : Part n α :=
  D.put args.candidateID (campaigner gob rf)
    (insert (.awaitVotes args.term 0 0 [true]) (asking args {q | q ≠ args.candidateID}))
    (es ++ .candidacy args.candidateID args.term
      :: ((Raft.others args.candidateID).map fun ID => ⟨ID, args⟩).map fun call =>
        .sent (.requestVote call))

section Campaign

variable {rf : Raft n α} {X : Set (Goroutine n α)} {es : List (Event n α)}
  {args : RequestVoteArgs n} {last : LogEntry α} (hL : args.candidateID ∈ Q)
  (hlast : GoSlice.get rf.log (rf.log.length - 1) = some last)
  (hargs : args = ⟨rf.currentTerm + 1, rf.me, rf.log.length - 1, last.term⟩)

include hL hlast hargs

/-- A candidate can call an election. -/
theorem can_call (hphase : rf.phase = .candidate) (hx : .callElection ∈ X) :
    (system gob).Can Proper (Holds base Q (D.put args.candidateID rf X es))
      (Holds base Q (calling gob D rf es args)) := by
  have hme : args.candidateID = rf.me := by rw [hargs]
  refine can_run_put hL hx (e := {
      rf := campaigner gob rf
      next := .awaitVotes args.term 0 0 [true]
        :: ((Raft.others args.candidateID).map fun ID => ⟨ID, args⟩).map .callRequestVote
      events := .candidacy args.candidateID args.term
        :: ((Raft.others args.candidateID).map fun ID => ⟨ID, args⟩).map fun call =>
          .sent (.requestVote call) })
    ?_ (allows_of_none rfl rfl rfl rfl) ?_
  · rw [hme]
    simp [Goroutine.run, Raft.runElection, Raft.callElection, campaigner, Raft.persist, hlast,
      hargs, hphase]
  · rintro y (rfl | ⟨q, hq, rfl⟩)
    · exact Or.inl List.mem_cons_self
    · refine Or.inl (List.mem_cons_of_mem _ ?_)
      simpa [Raft.mem_others] using hq

/-- So can a follower whose timer has fired, -/
theorem can_stand (hphase : rf.phase = .follower) (hx : .phaseChange .candidate ∈ X) :
    (system gob).Can Proper (Holds base Q (D.put args.candidateID rf X es))
      (Holds base Q (calling gob D rf es args)) := by
  have hcall : (system gob).Can Proper
      (Holds base Q (D.put args.candidateID { rf with phase := .candidate } {.callElection} es))
      (Holds base Q (calling gob D rf es args)) :=
    can_call hL hlast hargs rfl (Set.mem_singleton _)
  refine (can_run_put (Y := {.callElection}) hL hx
    (run_phaseChange (by simp [hphase]) (by simp [hphase])) (allows_of_none rfl rfl rfl rfl)
    fun y hy => Or.inl (by simpa [initPhase] using hy)).trans ?_
  rwa [List.append_nil]

/-- one that waits for it, -/
theorem can_await (hphase : rf.phase = .follower) (hx : .awaitTimeout ∈ X) :
    (system gob).Can Proper (Holds base Q (D.put args.candidateID rf X es))
      (Holds base Q (calling gob D rf es args)) :=
  (can_timeout_put hL hx rfl).trans (can_stand hL hlast hargs hphase (Set.mem_singleton _))

/-- and one that is about to set it. -/
theorem can_campaign (hphase : rf.phase = .follower) (hx : .awaitElection ∈ X) :
    (system gob).Can Proper (Holds base Q (D.put args.candidateID rf X es))
      (Holds base Q (calling gob D rf es args)) := by
  have hawait : (system gob).Can Proper
      (Holds base Q (D.put args.candidateID rf {.awaitTimeout} es))
      (Holds base Q (calling gob D rf es args)) :=
    can_await hL hlast hargs hphase (Set.mem_singleton _)
  refine (can_run_put (Y := {.awaitTimeout}) hL hx (run_awaitElection hphase)
    (allows_of_none rfl rfl rfl rfl) fun y hy => Or.inl (by simpa using hy)).trans ?_
  rwa [List.append_nil]

end Campaign

/-- A candidate can give up, -/
theorem can_withdraw {rf : Raft n α} {X : Set (Goroutine n α)} {es : List (Event n α)}
    (hL : L ∈ Q) (hphase : rf.phase = .candidate) (hx : .phaseChange .follower ∈ X) :
    (system gob).Can Proper (Holds base Q (D.put L rf X es))
      (Holds base Q (D.put L { rf with phase := .follower } {.awaitElection} es)) := by
  have h : (system gob).Can Proper (Holds base Q (D.put L rf X es)) (Holds base Q
      (D.put L { rf with phase := .follower } {.awaitElection} (es ++ []))) :=
    can_run_put hL hx (run_phaseChange (by simp [hphase]) (by simp [hphase]))
      (allows_of_none rfl rfl rfl rfl) fun y hy => Or.inl (by simpa [initPhase] using hy)
  rwa [List.append_nil] at h

/-- The struct of a peer that has granted its vote in a new term. -/
def voter (gob : Labgob n α) (rf : Raft n α) (args : RequestVoteArgs n) : Raft n α :=
  Raft.persist gob { rf with currentTerm := args.term, votedFor := some args.candidateID }

/-- A follower of an older term grants its vote, if the log of the candidate is up to date. -/
theorem can_grant (call : VoteCall n) (hq : call.server ∈ Q) (hk : .requestVote call ∈ D.net)
    (hgs : D.gs call.server = ∅) (hphase : (D.rf call.server).phase = .follower)
    (hterm : (D.rf call.server).currentTerm < call.args.term) {last : LogEntry α}
    (hlast : GoSlice.get (D.rf call.server).log ((D.rf call.server).log.length - 1) = some last)
    (hdate : Raft.upToDate call.args ((D.rf call.server).log.length - 1) last.term) :
    (system gob).Can Proper (Holds base Q D) (Holds base Q ((D.take (.requestVote call)).put
      call.server (voter gob (D.rf call.server) call.args) ∅
      [.sent (.requestVoteReply call ⟨(D.rf call.server).currentTerm, true⟩)])) := by
  refine (can_deliver_requestVote hq hk).trans ?_
  rw [hgs]
  refine (can_run_put (Y := {.demote (.requestVote call) (D.rf call.server).currentTerm}) hq
    (x := .termSync (.requestVote call)) (Set.mem_insert _ _) (e := {
      rf := Raft.persist gob
        { D.rf call.server with currentTerm := call.args.term, votedFor := none }
      next := [.demote (.requestVote call) (D.rf call.server).currentTerm] }) ?_
    (allows_of_none rfl rfl rfl rfl) fun y hy => Or.inl (by simpa using hy)).trans ?_
  · simp [Goroutine.run, Job.sync, Raft.termSync, Job.otherTerm, hterm]
  refine (can_run_put (Y := {.requestVote call (D.rf call.server).currentTerm}) hq
    (Set.mem_singleton (.demote (.requestVote call) (D.rf call.server).currentTerm)) (e := {
      rf := Raft.persist gob
        { D.rf call.server with currentTerm := call.args.term, votedFor := none }
      next := [.requestVote call (D.rf call.server).currentTerm] }) ?_
    (allows_of_none rfl rfl rfl rfl) fun y hy => Or.inl (by simpa using hy)).trans ?_
  · simp [Goroutine.run, Raft.phaseChangeGo, Raft.phaseChange, Raft.persist, hphase, Job.react]
  refine can_run_put hq
    (Set.mem_singleton (.requestVote call (D.rf call.server).currentTerm)) (e := {
      rf := voter gob (D.rf call.server) call.args
      events := [.sent (.requestVoteReply call ⟨(D.rf call.server).currentTerm, true⟩)] })
    ?_ ?_ fun _ hy => absurd hy (Set.notMem_empty _)
  · simp [Goroutine.run, Raft.runRequestVote, Raft.requestVote, Raft.freeToVote, Raft.persist,
      hlast, hdate, voter]
  · exact allows_of_fits (fits_requestVote rfl)

/-- The vote reaches the candidate. -/
theorem can_count (call : VoteCall n) (reply : RequestVoteReply) {T k : ℕ} {R : Set (Fin n)}
    (hL : L ∈ Q) (hcand : call.args.candidateID = L) (hT : call.args.term = T)
    (hk : .requestVoteReply call reply ∈ D.net) (hvote : reply.voteGranted = true)
    (hterm : reply.term < (D.rf L).currentTerm) (hR : call.server ∈ R)
    (hgs : insert (.awaitVotes T k k []) (asking call.args R) ⊆ D.gs L) :
    (system gob).Can Proper (Holds base Q D) (Holds base Q
      ((D.take (.requestVoteReply call reply)).put L (D.rf L)
        (insert (.awaitVotes T k k [true]) (asking call.args (R \ {call.server}))) [])) := by
  have hasking : ∀ y ∈ asking (α := α) call.args (R \ {call.server}),
      y ∈ D.gs L ∧ y ≠ .callRequestVote call := by
    rintro y ⟨q, ⟨hq, hne⟩, rfl⟩
    refine ⟨hgs (Set.mem_insert_of_mem _ ⟨q, hq, rfl⟩), fun heq => hne ?_⟩
    exact congrArg VoteCall.server (Goroutine.callRequestVote.inj heq)
  refine (can_deliver_requestVoteReply hL hcand hk (hgs (Set.mem_insert_of_mem _ ⟨_, hR, rfl⟩))
    (X := insert (.termSync (.sendRequestVote call reply))
      (insert (.awaitVotes T k k []) (asking call.args (R \ {call.server})))) ?_).trans ?_
  · rintro y (rfl | rfl | hy)
    · exact Or.inl rfl
    · exact Or.inr ⟨hgs (Set.mem_insert _ _), by simp⟩
    · exact Or.inr (hasking y hy)
  refine (can_run_put (Y := insert (.doneCh call true)
      (insert (.awaitVotes T k k []) (asking call.args (R \ {call.server})))) hL
    (Set.mem_insert (.termSync (.sendRequestVote call reply)) _) (e := {
      rf := D.rf L, next := [.doneCh call true] }) ?_
    (allows_of_none rfl rfl rfl rfl) ?_).trans ?_
  · have hne : ¬ (D.rf L).currentTerm = reply.term := by omega
    have hnlt : ¬ (D.rf L).currentTerm < reply.term := by omega
    simp [Goroutine.run, Job.sync, Raft.termSync, Job.otherTerm, Job.ignore, hne, hnlt, hvote]
  · rintro y (rfl | rfl | hy)
    · exact Or.inl (List.mem_singleton_self _)
    · exact Or.inr ⟨_, Set.mem_insert_of_mem _ (Set.mem_insert _ _), by simp, rfl⟩
    · refine Or.inr ⟨y, Set.mem_insert_of_mem _ (Set.mem_insert_of_mem _ hy), ?_, rfl⟩
      obtain ⟨q, _, rfl⟩ := hy
      simp
  refine can_run_put hL (Set.mem_insert (.doneCh call true) _)
    (e := { rf := D.rf L, wake := .pushVote call.args.term true }) rfl
    (allows_of_none rfl rfl rfl rfl) ?_
  rintro y (rfl | hy)
  · refine Or.inr ⟨_, Set.mem_insert_of_mem _ (Set.mem_insert _ _), by simp, ?_⟩
    simp [Goroutine.pushVote, hT]
  · refine Or.inr ⟨y, Set.mem_insert_of_mem _ (Set.mem_insert_of_mem _ hy), ?_, ?_⟩
    all_goals obtain ⟨q, _, rfl⟩ := hy
    · simp
    · rfl

/-- A candidate that has sent these arguments. -/
structure Candidate (logs : Fin n → List (LogEntry α)) (args : RequestVoteArgs n) (rf : Raft n α) :
    Prop where
  me : rf.me = args.candidateID
  phase : rf.phase = .candidate
  currentTerm : rf.currentTerm = args.term
  log : rf.log = logs args.candidateID
  commitIndex : rf.commitIndex = 0
  lastApplied : rf.lastApplied = 0

/-- `L` has called an election, the peers in `S` have voted for it, and it has read `k` votes. -/
structure Polling (logs : Fin n → List (LogEntry α)) (Q : Finset (Fin n)) (candidate : Raft n α)
    (args : RequestVoteArgs n) (S : Finset (Fin n)) (k : ℕ) (votes : List Bool) (D : Part n α) :
    Prop where
  struct : D.rf args.candidateID = candidate
  /-- It waits for votes, and its calls to those who have not voted are under way. -/
  gs : insert (.awaitVotes args.term k k votes)
    (asking args {q | q ≠ args.candidateID ∧ q ∉ S}) ⊆ D.gs args.candidateID
  /-- The requests to them have not been delivered, and the term will be new to them. -/
  net : ∀ q ∈ Q, q ≠ args.candidateID → q ∉ S →
    .requestVote ⟨q, args⟩ ∈ D.net ∧ (D.rf q).currentTerm < args.term
  /-- The others are followers, and have not gone past the term of the election. -/
  peers : Bystanders logs Q args.candidateID args.term D

section Election

variable {logs : Fin n → List (LogEntry α)} {candidate : Raft n α} {args : RequestVoteArgs n}
  {S : Finset (Fin n)} {k : ℕ} {votes : List Bool}

/-- A vote is read, and it is not the last one that is needed. -/
theorem Polling.can_read (hL : args.candidateID ∈ Q)
    (h : Polling logs Q candidate args S k [true] D) (hk : k + 1 < Raft.majority n) :
    (system gob).Can Proper (Holds base Q D) fun c =>
      ∃ D', Holds base Q D' c ∧ Polling logs Q candidate args S (k + 1) [] D' := by
  have hn : Raft.majority n ≤ n := by
    have := args.candidateID.pos
    unfold Raft.majority
    omega
  refine (can_run (X := insert (.awaitVotes args.term (k + 1) (k + 1) [])
    (asking args {q | q ≠ args.candidateID ∧ q ∉ S})) hL (h.gs (Set.mem_insert _ _))
    (e := { rf := candidate, next := [.awaitVotes args.term (k + 1) (k + 1) []] }) ?_
    (allows_of_none rfl rfl rfl rfl) ?_).trans (System.Can.of_imp fun c hc => ⟨_, hc, ?_⟩)
  · have h₁ : ¬ Raft.majority n ≤ k + 1 := by omega
    have h₂ : ¬ n ≤ k + 1 := by omega
    simp [Goroutine.run, Raft.runVote, h₁, h₂, h.struct]
  · rintro y (rfl | hy)
    · exact Or.inl (List.mem_singleton_self _)
    · refine Or.inr ⟨y, h.gs (Set.mem_insert_of_mem _ hy), ?_, rfl⟩
      obtain ⟨q, _, rfl⟩ := hy
      simp
  · refine ⟨Part.rf_put, by rw [Part.gs_put], fun q hq hne hS => ?_, h.peers.put _ _ _⟩
    obtain ⟨hnet, hterm⟩ := h.net q hq hne hS
    rw [Part.rf_put_of_ne hne]
    exact ⟨Or.inl hnet, hterm⟩

/-- Another peer votes for the candidate. -/
theorem Polling.can_ask (hL : args.candidateID ∈ Q)
    (h : Polling logs Q candidate args S k [] D) (hcand : Candidate logs args candidate)
    {q : Fin n} (hq : q ∈ Q) (hne : q ≠ args.candidateID) (hS : q ∉ S) {last : LogEntry α}
    (hlast : GoSlice.get (logs q) ((logs q).length - 1) = some last)
    (hdate : Raft.upToDate args ((logs q).length - 1) last.term) :
    (system gob).Can Proper (Holds base Q D) fun c =>
      ∃ D', Holds base Q D' c ∧ Polling logs Q candidate args (insert q S) k [true] D' := by
  obtain ⟨hidle, _, hgs⟩ := h.peers q hq hne
  obtain ⟨hnet, hlt⟩ := h.net q hq hne hS
  rw [← hidle.log] at hlast hdate
  refine (can_grant ⟨q, args⟩ hq hnet hgs hidle.phase hlt hlast hdate).trans ?_
  refine (can_count ⟨q, args⟩ ⟨(D.rf q).currentTerm, true⟩ (T := args.term) (k := k)
    (R := {q | q ≠ args.candidateID ∧ q ∉ S}) hL rfl rfl ?_ rfl ?_ ⟨hne, hS⟩ ?_).trans
    (System.Can.of_imp fun c hc => ⟨_, hc, ?_⟩)
  · exact Or.inr (by simp [packets])
  · rw [Part.rf_put_of_ne hne.symm, Part.rf_take, h.struct, hcand.currentTerm]
    exact hlt
  · rw [Part.gs_put_of_ne hne.symm]
    exact h.gs
  refine ⟨?_, ?_, fun r hr hrL hrS => ?_, fun r hr hrL => ?_⟩
  · rw [Part.rf_put, Part.rf_put_of_ne hne.symm]
    exact h.struct
  · rw [Part.gs_put]
    refine Set.insert_subset_insert (asking_mono fun r hr => ⟨⟨hr.1, fun hrS => ?_⟩, ?_⟩)
    · exact hr.2 (Finset.mem_insert_of_mem hrS)
    · rintro rfl
      exact hr.2 (Finset.mem_insert_self _ _)
  · obtain ⟨hrq, hrS⟩ := not_or.mp (mt Finset.mem_insert.mpr hrS)
    obtain ⟨hrnet, hrlt⟩ := h.net r hr hrL hrS
    rw [Part.rf_put_of_ne hrL, Part.rf_take, Part.rf_put_of_ne hrq]
    refine ⟨Or.inl ⟨Or.inl ⟨hrnet, fun heq => hrq ?_⟩, by simp⟩, hrlt⟩
    exact congrArg VoteCall.server (Packet.requestVote.inj heq)
  · rw [Part.rf_put_of_ne hrL, Part.gs_put_of_ne hrL, Part.rf_take, Part.gs_take]
    rcases eq_or_ne r q with rfl | hrq
    · rw [Part.rf_put, Part.gs_put]
      exact ⟨⟨hidle.me, hidle.phase, hidle.log, hidle.commitIndex, hidle.lastApplied⟩, le_rfl, rfl⟩
    · rw [Part.rf_put_of_ne hrq, Part.gs_put_of_ne hrq]
      exact h.peers r hr hrL

/-- What is known of the cluster when `L` has become the leader of term `T`. -/
structure Crowned (logs : Fin n → List (LogEntry α)) (Q : Finset (Fin n)) (L : Fin n) (T : ℕ)
    (D : Part n α) : Prop where
  me : (D.rf L).me = L
  phase : (D.rf L).phase = .leader
  currentTerm : (D.rf L).currentTerm = T
  log : (D.rf L).log = logs L
  commitIndex : (D.rf L).commitIndex = 0
  lastApplied : (D.rf L).lastApplied = 0
  nextIndex : (D.rf L).nextIndex = List.replicate n ((logs L).length : ℤ)
  matchIndex : (D.rf L).matchIndex = List.replicate n 0
  /-- The first heartbeat is about to be sent. -/
  gs : .heartbeat T 1 ∈ D.gs L
  elected : .elected L T ∈ D.trace
  peers : Bystanders logs Q L T D

/-- The last vote makes the candidate a leader. -/
theorem Polling.can_win (hL : args.candidateID ∈ Q) (hcand : Candidate logs args candidate)
    (h : Polling logs Q candidate args S k [true] D) (hk : k + 1 = Raft.majority n) :
    (system gob).Can Proper (Holds base Q D) fun c =>
      ∃ D', Holds base Q D' c ∧ Crowned logs Q args.candidateID args.term D' := by
  refine (can_run (X := {.candidateCheck args.term (k + 1)}) hL (h.gs (Set.mem_insert _ _))
    (e := { rf := candidate, next := [.candidateCheck args.term (k + 1)] }) ?_
    (allows_of_none rfl rfl rfl rfl) fun y hy => Or.inl (by simpa using hy)).trans ?_
  · simp [Goroutine.run, Raft.runVote, hk, h.struct]
  refine (can_run_put (Y := {.callResult args.term (k + 1)}) hL (Set.mem_singleton _)
    (e := { rf := candidate, next := [.callResult args.term (k + 1)] }) ?_
    (allows_of_none rfl rfl rfl rfl) fun y hy => Or.inl (by simpa using hy)).trans ?_
  · simp [Goroutine.run, hcand.phase]
  refine (can_run_put (Y := {.initLeader args.term}) hL (Set.mem_singleton _) (e := {
      rf := { candidate with phase := .leader }
      next := [.initLeader args.term]
      events := [.elected args.candidateID args.term] }) ?_
    (allows_of_fits (fits_callResult hcand.currentTerm))
    fun y hy => Or.inl (by simpa using hy)).trans ?_
  · simp [Goroutine.run, Raft.runResult, hk, Raft.phaseChange, hcand.phase, hcand.me]
  refine (can_run_put (Y := {.heartbeat args.term 1}) hL (Set.mem_singleton _) (e := {
      rf := Raft.initLeader { candidate with phase := .leader }
      next := [.heartbeat args.term 1]
      events := [.initLeader args.candidateID args.term] }) ?_
    (allows_of_none rfl rfl rfl rfl) fun y hy => Or.inl (by simpa using hy)).trans
    (System.Can.of_imp fun c hc => ⟨_, hc, ?_⟩)
  · simp [Goroutine.run, Raft.initLeader, hcand.me]
  constructor
  case gs => simp
  case elected => exact Or.inr (by simp)
  case peers => exact h.peers.put _ _ _
  all_goals simp [Raft.initLeader, hcand.me, hcand.currentTerm, hcand.log, hcand.commitIndex,
    hcand.lastApplied]

/-- `L` waits for its election timeout in term `t`, and the others are in term `M` at most. -/
structure Waiting (logs : Fin n → List (LogEntry α)) (Q : Finset (Fin n)) (L : Fin n) (M t : ℕ)
    (D : Part n α) : Prop where
  idle : Idle logs L (D.rf L)
  currentTerm : (D.rf L).currentTerm = t
  /-- It will call an election when its timer fires. -/
  gs : .awaitElection ∈ D.gs L
  peers : Bystanders logs Q L M D

variable {M t : ℕ} {last : LogEntry α}

theorem Waiting.can_call (hL : L ∈ Q) (h : Waiting logs Q L M t D)
    (hlast : GoSlice.get (logs L) ((logs L).length - 1) = some last)
    (hargs : args = ⟨t + 1, L, (logs L).length - 1, last.term⟩) :
    (system gob).Can Proper (Holds base Q D)
      (Holds base Q (calling gob D (D.rf L) [] args)) := by
  obtain rfl : args.candidateID = L := by rw [hargs]
  have hcampaign : (system gob).Can Proper (Holds base Q (D.put args.candidateID _ _ [])) _ :=
    can_campaign hL (h.idle.log ▸ hlast) (by rw [h.idle.me, h.idle.log, h.currentTerm, ← hargs])
      h.idle.phase h.gs
  exact (System.Can.of_imp fun c hc => hc.put_self _).trans hcampaign

/-- `L` calls an election. -/
theorem Waiting.can_poll (hL : L ∈ Q) (h : Waiting logs Q L M t D)
    (hlast : GoSlice.get (logs L) ((logs L).length - 1) = some last) (hM : M ≤ t)
    (hargs : args = ⟨t + 1, L, (logs L).length - 1, last.term⟩) :
    (system gob).Can Proper (Holds base Q D) fun c => ∃ candidate D', Holds base Q D' c ∧
      Candidate logs args candidate ∧ Polling logs Q candidate args ∅ 0 [true] D' := by
  obtain rfl : args.candidateID = L := by rw [hargs]
  refine (h.can_call hL hlast hargs).trans
    (System.Can.of_imp fun c hc => ⟨campaigner gob (D.rf args.candidateID), _, hc, ?_, ?_⟩)
  · refine ⟨h.idle.me, rfl, ?_, h.idle.log, h.idle.commitIndex, h.idle.lastApplied⟩
    rw [hargs]
    exact congrArg (· + 1) h.currentTerm
  · have hterm : args.term = t + 1 := by rw [hargs]
    refine ⟨Part.rf_put, ?_, fun q hq hne _ => ⟨Or.inr ?_, ?_⟩, fun q hq hne => ?_⟩
    · rw [calling, Part.gs_put]
      exact Set.insert_subset_insert (asking_mono fun q hq => hq.1)
    · simp [packets, Raft.mem_others, hne]
    · rw [calling, Part.rf_put_of_ne hne, hterm]
      exact Nat.lt_succ_of_le ((h.peers q hq hne).2.1.trans hM)
    · obtain ⟨hidle, hle, hgs⟩ := h.peers.put _ _ _ q hq hne
      exact ⟨hidle, hle.trans (by omega), hgs⟩

/-- An election that nobody hears of raises the term of `L`. -/
theorem Waiting.can_raise (hL : L ∈ Q) (h : Waiting logs Q L M t D)
    (hlast : GoSlice.get (logs L) ((logs L).length - 1) = some last) :
    (system gob).Can Proper (Holds base Q D) fun c =>
      ∃ D', Holds base Q D' c ∧ Waiting logs Q L M (t + 1) D' := by
  have hcall : (system gob).Can Proper (Holds base Q D)
      (Holds base Q (calling gob D (D.rf L) [] ⟨t + 1, L, (logs L).length - 1, last.term⟩)) :=
    h.can_call hL hlast rfl
  refine hcall.trans ?_
  refine (can_timeout_put hL (Set.mem_insert _ _) rfl).trans ?_
  refine (can_withdraw hL rfl (Set.mem_singleton _)).trans ?_
  refine System.Can.of_imp fun c hc => ⟨_, hc, ?_, ?_, ?_, h.peers.put _ _ _⟩
  · rw [Part.rf_put]
    exact ⟨h.idle.me, rfl, h.idle.log, h.idle.commitIndex, h.idle.lastApplied⟩
  · rw [Part.rf_put]
    exact congrArg (· + 1) h.currentTerm
  · rw [Part.gs_put]
    exact Set.mem_singleton _

/-- All peers of `Q` would vote for a candidate with this log. -/
def UpToDate (logs : Fin n → List (LogEntry α)) (Q : Finset (Fin n)) (args : RequestVoteArgs n) :
    Prop :=
  ∀ q ∈ Q, ∃ last, GoSlice.get (logs q) ((logs q).length - 1) = some last ∧
    Raft.upToDate args ((logs q).length - 1) last.term

/-- The votes come in one after the other. -/
theorem Polling.can_collect (hL : args.candidateID ∈ Q) (hQ : n < 2 * Q.card)
    (hcand : Candidate logs args candidate) (hdate : UpToDate logs Q args)
    (h : Polling logs Q candidate args ∅ 0 [true] D) (hk : k < Raft.majority n) :
    (system gob).Can Proper (Holds base Q D) fun c =>
      ∃ S D', Holds base Q D' c ∧ S.card = k ∧ Polling logs Q candidate args S k [true] D' := by
  induction k with
  | zero => exact System.Can.of_imp fun c hc => ⟨∅, D, hc, rfl, h⟩
  | succ k ih =>
    refine (ih (by omega)).trans fun c hc => ?_
    obtain ⟨S, D₁, hD₁, hcard, h₁⟩ := hc
    obtain ⟨c₂, hreach₂, D₂, hD₂, h₂⟩ := h₁.can_read hL hk c hD₁
    -- there is a peer that has not been asked
    have hlt : S.card < (Q.erase args.candidateID).card := by
      rw [Finset.card_erase_of_mem hL]
      unfold Raft.majority at hk
      omega
    obtain ⟨q, hq, hqS⟩ := Finset.exists_mem_notMem_of_card_lt_card hlt
    obtain ⟨hne, hqQ⟩ := Finset.mem_erase.mp hq
    obtain ⟨last, hlast, hup⟩ := hdate q hqQ
    obtain ⟨c₃, hreach₃, D₃, hD₃, h₃⟩ := h₂.can_ask hL hcand hqQ hne hqS hlast hup c₂ hD₂
    refine ⟨c₃, hreach₂.trans hreach₃, insert q S, D₃, hD₃, ?_, h₃⟩
    rw [Finset.card_insert_of_notMem hqS, hcard]

/-- **A candidate whose log is up to date can win.** -/
theorem Waiting.can_elect (hL : L ∈ Q) (hQ : n < 2 * Q.card) (h : Waiting logs Q L M t D)
    (hlast : GoSlice.get (logs L) ((logs L).length - 1) = some last)
    (hdate : ∀ T, UpToDate logs Q ⟨T, L, (logs L).length - 1, last.term⟩) :
    (system gob).Can Proper (Holds base Q D) fun c =>
      ∃ T D', Holds base Q D' c ∧ M < T ∧ Crowned logs Q L T D' := by
  -- first some elections of its own, until no other peer is in a later term
  have hraise : ∀ k, (system gob).Can Proper (Holds base Q D) fun c =>
      ∃ D', Holds base Q D' c ∧ Waiting logs Q L M (t + k) D' := by
    intro k
    induction k with
    | zero => exact System.Can.of_imp fun c hc => ⟨D, hc, h⟩
    | succ k ih =>
      refine ih.trans fun c hc => ?_
      obtain ⟨D', hD', hw⟩ := hc
      exact hw.can_raise hL hlast c hD'
  refine (hraise M).trans fun c hc => ?_
  obtain ⟨D₁, hD₁, hw⟩ := hc
  have hpoll : (system gob).Can Proper (Holds base Q D₁) _ :=
    hw.can_poll hL hlast (Nat.le_add_left M t) rfl
  obtain ⟨c₂, hreach₂, candidate, D₂, hD₂, hcand, h₂⟩ := hpoll c hD₁
  have hmajority : Raft.majority n - 1 < Raft.majority n := by
    have := L.pos
    unfold Raft.majority
    omega
  have hcollect : (system gob).Can Proper (Holds base Q D₂) _ :=
    h₂.can_collect hL hQ hcand (hdate _) hmajority
  obtain ⟨c₃, hreach₃, S, D₃, hD₃, _, h₃⟩ := hcollect c₂ hD₂
  obtain ⟨c₄, hreach₄, D₄, hD₄, h₄⟩ := h₃.can_win hL hcand (by omega) c₃ hD₃
  exact ⟨c₄, (hreach₂.trans hreach₃).trans hreach₄, _, D₄, hD₄, by dsimp only; omega, h₄⟩

end Election

end Cluster

end Distsys
