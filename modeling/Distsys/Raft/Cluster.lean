import Distsys.Lib.TransitionSystem
import Distsys.Raft.Basic

/-!
# A cluster of Raft peers

All peers, their goroutines, the RPCs in flight, and one step of any of them. A step is one
critical section of `rf.mu`, or an action that takes no lock: a packet arrives, a timer fires, a
channel is read, a call returns `false`, a peer crashes or is made again.

## Goroutines

A goroutine of a peer is the place where it stands between two critical sections, with the local
variables that it still uses. Three points are worth knowing when reading it against the source.

* `callElection`, `phaseChange("leader", true, ..)`, `initLeader` and `heartbeat` call each other
  synchronously, so they are one goroutine, and `args.Term` of `callElection` stays on its stack.
  A peer never calls two elections of the same term, so that number names the goroutine, and with
  it the `votes` channel. A call of `heartbeat` owns one `replies` slice and is named by `Beat`.
* All four callers of `termSync` are a `Job`. The window between the critical section of `termSync`
  that raises the term and that of the `phaseChange` after it is the goroutine `demote`.
* `electionReset` is a variable of the package. Every `AppendEntries` handler leaves a goroutine
  behind that blocks on sending to it, and any `select` of any peer may take what it sends.

## The network

A request is delivered at most once and a reply only to the goroutine that waits for it. A packet
that is lost is one that is never delivered, and `Call` may return `false` at any time.

A panic ends the peer: its goroutines are gone and the `Persister` stays, as in a crash.

## Main definitions

* `Goroutine`, `Job`, `Packet`, `Event`, `Node`, `Cluster`
* `Goroutine.run` — from one critical section to the next
* `Cluster.step`, `Cluster.system`
-/

namespace Distsys

variable {n : ℕ} {α : Type}

/-- One call of `sendRequestVote`. -/
structure VoteCall (n : ℕ) where
  server : Fin n
  args : RequestVoteArgs n
  deriving DecidableEq, Repr

/-- One call of `heartbeat`: the term of the election its loop was started by, its `beatNumber`
and its `myLastIndex`. -/
structure Beat where
  election : ℕ
  beatNumber : ℕ
  myLastIndex : ℤ
  deriving DecidableEq, Repr

/-- One call of `sendAppendEntries`, with the call of `heartbeat` whose `replies` it fills. -/
structure EntriesCall (n : ℕ) (α : Type) where
  server : Fin n
  beat : Beat
  args : AppendEntriesArgs n α
  deriving DecidableEq, Repr

/-- What travels between peers. A reply carries the call it answers. -/
inductive Packet (n : ℕ) (α : Type) where
  | requestVote (call : VoteCall n)
  | requestVoteReply (call : VoteCall n) (reply : RequestVoteReply)
  | appendEntries (call : EntriesCall n α)
  | appendEntriesReply (call : EntriesCall n α) (reply : AppendEntriesReply)
  deriving DecidableEq, Repr

/-- The callers of `termSync`: the two handlers, and the two senders once their reply is in. -/
inductive Job (n : ℕ) (α : Type) where
  | requestVote (call : VoteCall n)
  | appendEntries (call : EntriesCall n α)
  | sendRequestVote (call : VoteCall n) (reply : RequestVoteReply)
  | sendAppendEntries (call : EntriesCall n α) (reply : AppendEntriesReply)
  deriving DecidableEq, Repr

/-- `otherTerm`. -/
def Job.otherTerm : Job n α → ℕ
  | .requestVote call => call.args.term
  | .appendEntries call => call.args.term
  | .sendRequestVote _ reply => reply.term
  | .sendAppendEntries _ reply => reply.term

/-- Where a goroutine of a peer stands. -/
inductive Goroutine (n : ℕ) (α : Type) where
  /-- `awaitElection`, before its critical section. -/
  | awaitElection
  /-- `awaitElection`, in its `select`. -/
  | awaitTimeout
  /-- Before `phaseChange(toPhase, false, ..)`, after which the goroutine ends. -/
  | phaseChange (toPhase : Phase)
  /-- `callElection`, before its first critical section. -/
  | callElection
  /-- `callElection`, in the loop that awaits votes. -/
  | awaitVotes (election i voteCount : ℕ) (votes : List Bool)
  /-- `callElection`, before candidate check 2. -/
  | candidateCheck (election voteCount : ℕ)
  /-- `callElection`, before the `phaseChange` that ends it. -/
  | callResult (election voteCount : ℕ)
  /-- `initLeader`, before its critical section. -/
  | initLeader (election : ℕ)
  /-- `heartbeat`, before its first critical section. -/
  | heartbeat (election beatNumber : ℕ)
  /-- `heartbeat`, before its second critical section. -/
  | heartbeatSleep (beat : Beat) (replies : List AppendEntriesReply)
  /-- `applyEntries`. -/
  | applyEntries
  /-- `sendRequestVote`, in `Call`. -/
  | callRequestVote (call : VoteCall n)
  /-- `sendRequestVote`, before it sends on `doneCh`. -/
  | doneCh (call : VoteCall n) (vote : Bool)
  /-- `sendAppendEntries`, in `Call`. -/
  | callAppendEntries (call : EntriesCall n α)
  /-- Before the critical section of `termSync`. -/
  | termSync (job : Job n α)
  /-- `termSync` has raised the term and is before its `phaseChange("follower", ..)`. -/
  | demote (job : Job n α) (myTerm : ℕ)
  /-- `RequestVote`, before its body. -/
  | requestVote (call : VoteCall n) (myTerm : ℕ)
  /-- `AppendEntries`, before its body. -/
  | appendEntries (call : EntriesCall n α) (myTerm : ℕ)
  deriving DecidableEq, Repr

/-- What an observer of a run sees. -/
inductive Event (n : ℕ) (α : Type) where
  /-- `Make` returned. -/
  | made (p : Fin n)
  /-- `Start(command)` returned `(index, term, true)`. -/
  | started (p : Fin n) (command : α) (index : ℤ) (term : ℕ)
  /-- `callElection` incremented `currentTerm` to `term` and set `votedFor` to `p` itself. -/
  | candidacy (p : Fin n) (term : ℕ)
  /-- The `phaseChange` to leader of the election of `term` took effect. -/
  | elected (p : Fin n) (term : ℕ)
  /-- The critical section of `initLeader` ran for the election of `term`. -/
  | initLeader (p : Fin n) (term : ℕ)
  /-- `applyEntries` sent on `applyCh`. -/
  | applied (p : Fin n) (msg : ApplyMsg α)
  /-- A request or a reply was sent. -/
  | sent (packet : Packet n α)
  deriving DecidableEq, Repr

/-! ### From one critical section to the next

`Goroutine.run` is a match on where the goroutine stands. Each branch is one critical section of the
source, and returns what the goroutine will do next. -/

/-- What a goroutine does up to the end of its next critical section. -/
structure Effect (n : ℕ) (α : Type) where
  /-- The struct when the lock is released. -/
  rf : Raft n α
  /-- The goroutine itself if it goes on, and the goroutines it starts. -/
  next : List (Goroutine n α) := []
  events : List (Event n α) := []
  /-- The goroutines left behind that send on `electionReset`. -/
  resets : ℕ := 0
  /-- What changes in the other goroutines of the peer: the contents of `votes` and `replies`. -/
  wake : Goroutine n α → Goroutine n α := id

/-- How `initPhase` goes on in a goroutine of its own. The entry of a leader is not started this
way. -/
def initPhase : Phase → List (Goroutine n α)
  | .follower => [.awaitElection]
  | .candidate => [.callElection]
  | _ => []

/-- `phaseChange(toPhase, false, ..)`. -/
def Raft.phaseChangeGo (rf : Raft n α) (toPhase : Phase) : Effect n α :=
  let r := rf.phaseChange toPhase
  { rf := r.1, next := if r.2 then initPhase toPhase else [] }

/-- A vote arrives on the `votes` channel of an election. -/
def Goroutine.pushVote (election : ℕ) (vote : Bool) : Goroutine n α → Goroutine n α
  | .awaitVotes e i voteCount votes =>
    if e = election then .awaitVotes e i voteCount (votes ++ [vote])
    else .awaitVotes e i voteCount votes
  | g => g

/-- A reply arrives in the `replies` slice of a call of `heartbeat`. -/
def Goroutine.pushReply (call : EntriesCall n α) (reply : AppendEntriesReply) :
    Goroutine n α → Goroutine n α
  | .heartbeatSleep beat replies =>
    if beat = call.beat then .heartbeatSleep beat (replies.set call.server reply)
    else .heartbeatSleep beat replies
  | g => g

/-- What is left of a caller of `termSync` that reacts to the other's term. -/
def Job.react (rf : Raft n α) (myTerm : ℕ) : Job n α → Effect n α
  | .requestVote call => { rf, next := [.requestVote call myTerm] }
  | .appendEntries call => { rf, next := [.appendEntries call myTerm], resets := 1 }
  | .sendRequestVote call reply => { rf, next := [.doneCh call reply.voteGranted] }
  | .sendAppendEntries _ _ => { rf }

/-- What is left of a caller of `termSync` that found the other's term to be behind: a handler
replies at once. -/
def Job.ignore (rf : Raft n α) (myTerm : ℕ) : Job n α → Effect n α
  | .requestVote call => { rf, events := [.sent (.requestVoteReply call ⟨myTerm, false⟩)] }
  | .appendEntries call => { rf, events := [.sent (.appendEntriesReply call ⟨myTerm, false, 0⟩)] }
  | .sendRequestVote call reply => { rf, next := [.doneCh call reply.voteGranted] }
  | .sendAppendEntries _ _ => { rf }

/-- A panic: the struct and the events up to it. -/
structure Panic (n : ℕ) (α : Type) where
  rf : Raft n α
  events : List (Event n α) := []

/-- The critical section of `termSync`. -/
def Job.sync (gob : Labgob n α) (rf : Raft n α) (job : Job n α) : Effect n α :=
  let r := rf.termSync gob job.otherTerm
  if r.2.1 = -1 then { rf := r.1, next := [.demote job r.2.2] }
  else if r.2.1 ≤ 0 then job.react r.1 r.2.2
  else job.ignore r.1 r.2.2

/-- `applyEntries`. -/
def Raft.runApply (rf : Raft n α) : Except (Panic n α) (Effect n α) :=
  match rf.applyEntries with
  | (msgs, none) => .error { rf, events := msgs.map (.applied rf.me) }
  | (msgs, some rf') => .ok { rf := rf', events := msgs.map (.applied rf.me) }

/-- The first critical section of `callElection`, and the calls of `sendRequestVote` after it. -/
def Raft.runElection (gob : Labgob n α) (rf : Raft n α) : Except (Panic n α) (Effect n α) :=
  if rf.phase ≠ .candidate then .ok { rf }
  else
    match rf.callElection gob with
    | (rf', none) => .error { rf := rf', events := [.candidacy rf.me rf'.currentTerm] }
    | (rf', some args) =>
      let calls : List (VoteCall n) := (others rf.me).map fun ID => ⟨ID, args⟩
      .ok {
        rf := rf'
        next := .awaitVotes args.term 0 0 [true] :: calls.map .callRequestVote
        events := .candidacy rf.me args.term :: calls.map fun call => .sent (.requestVote call) }

/-- One round of the loop of `callElection` that awaits votes, on the vote received. -/
def Raft.runVote (rf : Raft n α) (election i voteCount : ℕ) (vote : Bool) (votes : List Bool) :
    Effect n α :=
  let voteCount := if vote then voteCount + 1 else voteCount
  if voteCount ≥ majority n ∨ i + 1 ≥ n then { rf, next := [.candidateCheck election voteCount] }
  else { rf, next := [.awaitVotes election (i + 1) voteCount votes] }

/-- The end of `callElection` and, for the winner, the start of `initLeader`. -/
def Raft.runResult (rf : Raft n α) (election voteCount : ℕ) : Effect n α :=
  if voteCount ≥ majority n then
    let r := rf.phaseChange .leader
    if r.2 then
      { rf := r.1, next := [.initLeader election], events := [.elected rf.me election] }
    else { rf := r.1 }
  else rf.phaseChangeGo .follower

/-- The first critical section of `heartbeat`, and the calls of `sendAppendEntries` in it. -/
def Raft.runHeartbeat (rf : Raft n α) (election beatNumber : ℕ) :
    Except (Panic n α) (Effect n α) :=
  if rf.phase ≠ .leader then .ok { rf }
  else
    let beat : Beat := ⟨election, beatNumber, rf.log.length - 1⟩
    match (others rf.me).mapM fun ID => (rf.appendEntriesArgs ID).map (EntriesCall.mk ID beat) with
    | none => .error { rf }
    | some calls =>
      .ok {
        rf
        next := .heartbeatSleep beat (List.replicate n default) :: calls.map .callAppendEntries
        events := calls.map fun call => .sent (.appendEntries call) }

/-- The second critical section of `heartbeat`. -/
def Raft.runCommit (rf : Raft n α) (beat : Beat) (replies : List AppendEntriesReply) :
    Except (Panic n α) (Effect n α) :=
  if rf.phase ≠ .leader then .ok { rf }
  else
    match (rf.adjustIndices beat.myLastIndex replies).bind commitPhase with
    | none => .error { rf }
    | some (rf', commits) =>
      .ok {
        rf := rf'
        next := .heartbeat beat.election (beat.beatNumber + 1)
          :: if commits then [.applyEntries] else [] }

/-- The body of `RequestVote` and its reply. -/
def Raft.runRequestVote (gob : Labgob n α) (rf : Raft n α) (call : VoteCall n) (myTerm : ℕ) :
    Except (Panic n α) (Effect n α) :=
  match rf.requestVote gob call.args with
  | none => .error { rf }
  | some (rf', voteGranted) =>
    .ok { rf := rf', events := [.sent (.requestVoteReply call ⟨myTerm, voteGranted⟩)] }

/-- The body of `AppendEntries` and its reply. -/
def Raft.runAppendEntries (gob : Labgob n α) (rf : Raft n α) (call : EntriesCall n α)
    (myTerm : ℕ) : Except (Panic n α) (Effect n α) :=
  match rf.appendEntries gob call.args with
  | none => .error { rf }
  | some r =>
    .ok {
      rf := r.rf
      next := if r.commits then [.applyEntries] else []
      events := [.sent (.appendEntriesReply call ⟨myTerm, r.success, r.nextIndex⟩)] }

/-- Run a goroutine to the end of its next critical section; `none` while it is blocked. -/
def Goroutine.run (gob : Labgob n α) (rf : Raft n α) :
    Goroutine n α → Option (Except (Panic n α) (Effect n α))
  | .awaitElection =>
    some (.ok { rf, next := if rf.phase ≠ .follower then [] else [.awaitTimeout] })
  | .awaitTimeout => none
  | .phaseChange toPhase => some (.ok (rf.phaseChangeGo toPhase))
  | .callElection => some (rf.runElection gob)
  | .awaitVotes _ _ _ [] => none
  | .awaitVotes election i voteCount (vote :: votes) =>
    some (.ok (rf.runVote election i voteCount vote votes))
  | .candidateCheck election voteCount =>
    some (.ok {
      rf
      next := if rf.phase ≠ .candidate then [] else [.callResult election voteCount] })
  | .callResult election voteCount => some (.ok (rf.runResult election voteCount))
  | .initLeader election =>
    some (.ok {
      rf := rf.initLeader
      next := [.heartbeat election 1]
      events := [.initLeader rf.me election] })
  | .heartbeat election beatNumber => some (rf.runHeartbeat election beatNumber)
  | .heartbeatSleep beat replies => some (rf.runCommit beat replies)
  | .applyEntries => some rf.runApply
  | .callRequestVote _ => none
  | .doneCh call vote => some (.ok { rf, wake := pushVote call.args.term vote })
  | .callAppendEntries _ => none
  | .termSync job => some (.ok (job.sync gob rf))
  | .demote job myTerm =>
    let e := rf.phaseChangeGo .follower
    let e' := job.react e.rf myTerm
    some (.ok { e' with next := e'.next ++ e.next })
  | .requestVote call myTerm => some (rf.runRequestVote gob call myTerm)
  | .appendEntries call myTerm => some (rf.runAppendEntries gob call myTerm)

/-- The timer of a `select` fires. -/
def Goroutine.timeout : Goroutine n α → Option (Goroutine n α)
  | .awaitTimeout => some (.phaseChange .candidate)
  | .awaitVotes _ _ _ _ => some (.phaseChange .follower)
  | _ => none

/-- A `select` receives from `electionReset`. -/
def Goroutine.reset : Goroutine n α → Option (Goroutine n α)
  | .awaitTimeout => some .awaitElection
  | .awaitVotes _ _ _ _ => some (.phaseChange .follower)
  | _ => none

/-- `Call` returns `false`. -/
def Goroutine.fail : Goroutine n α → Option (List (Goroutine n α))
  | .callRequestVote call => some [.doneCh call false]
  | .callAppendEntries _ => some []
  | _ => none

/-! ### The cluster

A step takes one goroutine, or one packet, or one of the few actions from outside. Which one is
named by the action, so a run is a list of actions and can be executed. -/

/-- A peer that is down, with what its `Persister` holds, or up, with its goroutines. -/
inductive Node (n : ℕ) (α : Type) where
  | down (persister : List UInt8)
  | up (rf : Raft n α) (gs : List (Goroutine n α))

/-- What the `Persister` of a peer holds. -/
def Node.persister : Node n α → List UInt8
  | .down persister => persister
  | .up rf _ => rf.persister

/-- All peers, the packets in flight, and the goroutines blocked on sending to `electionReset`. -/
structure Cluster (n : ℕ) (α : Type) where
  node : Fin n → Node n α
  /-- Packets that were sent and not delivered. The order means nothing. -/
  net : List (Packet n α)
  electionReset : ℕ

/-- What happens next. Goroutines and packets are named by their place in their list. -/
inductive Action (n : ℕ) (α : Type) where
  /-- `Make` is called for a peer that is down. -/
  | make (p : Fin n)
  | crash (p : Fin n)
  | kill (p : Fin n)
  | start (p : Fin n) (command : α)
  /-- Goroutine `g` of `p` runs to the end of its next critical section. -/
  | run (p : Fin n) (g : ℕ)
  | timeout (p : Fin n) (g : ℕ)
  | reset (p : Fin n) (g : ℕ)
  /-- `Call` returns `false` in goroutine `g` of `p`. -/
  | fail (p : Fin n) (g : ℕ)
  /-- The network hands over packet `k`. -/
  | deliver (k : ℕ)
  deriving DecidableEq, Repr

/-- The packets sent by a list of events. -/
def packets (es : List (Event n α)) : List (Packet n α) :=
  es.filterMap fun
    | .sent packet => some packet
    | _ => none

namespace Cluster

/-- Replace the node of `p`, emit events and put what they send on the network. -/
def put (s : Cluster n α) (p : Fin n) (node : Node n α) (es : List (Event n α)) :
    Cluster n α × List (Event n α) :=
  ({ s with node := Function.update s.node p node, net := s.net ++ packets es }, es)

/-- The network hands over one packet. A request starts a handler, a reply wakes the goroutine that
waits for it. -/
def deliver [DecidableEq α] (s : Cluster n α) :
    Packet n α → Option (Cluster n α × List (Event n α))
  | .requestVote call =>
    match s.node call.server with
    | .down _ => none
    | .up rf gs => some (s.put call.server (.up rf (gs ++ [.termSync (.requestVote call)])) [])
  | .appendEntries call =>
    match s.node call.server with
    | .down _ => none
    | .up rf gs => some (s.put call.server (.up rf (gs ++ [.termSync (.appendEntries call)])) [])
  | .requestVoteReply call reply =>
    match s.node call.args.candidateID with
    | .down _ => none
    | .up rf gs =>
      if .callRequestVote call ∈ gs then
        some (s.put call.args.candidateID
          (.up rf (gs.erase (.callRequestVote call)
            ++ [.termSync (.sendRequestVote call reply)])) [])
      else none
  | .appendEntriesReply call reply =>
    match s.node call.args.leaderID with
    | .down _ => none
    | .up rf gs =>
      if .callAppendEntries call ∈ gs then
        some (s.put call.args.leaderID
          (.up rf ((gs.erase (.callAppendEntries call)).map (Goroutine.pushReply call reply)
            ++ [.termSync (.sendAppendEntries call reply)])) [])
      else none

/-- Goroutine `g` of `p` goes on as the goroutines `f` says, without a critical section. -/
def resume (s : Cluster n α) (p : Fin n) (g : ℕ)
    (f : Goroutine n α → Option (List (Goroutine n α))) :
    Option (Cluster n α × List (Event n α)) :=
  match s.node p with
  | .down _ => none
  | .up rf gs =>
    (gs[g]?.bind f).map fun next => s.put p (.up rf (gs.eraseIdx g ++ next)) []

/-- One step of the cluster, with the events it emits. -/
def step [Inhabited α] [DecidableEq α] (gob : Labgob n α) (s : Cluster n α) :
    Action n α → Option (Cluster n α × List (Event n α))
  | .make p =>
    match s.node p with
    | .up _ _ => none
    | .down persister =>
      some (s.put p (.up (Raft.make gob p persister) [.awaitElection]) [.made p])
  | .crash p =>
    match s.node p with
    | .down _ => none
    | .up rf _ => some (s.put p (.down rf.persister) [])
  | .kill p =>
    match s.node p with
    | .down _ => none
    | .up rf gs => some (s.put p (.up rf.kill gs) [])
  | .start p command =>
    match s.node p with
    | .down _ => none
    | .up rf gs =>
      let r := rf.start gob command
      some (s.put p (.up r.1 gs) (if r.2.2.2 then [.started p command r.2.1 r.2.2.1] else []))
  | .run p g =>
    match s.node p with
    | .down _ => none
    | .up rf gs =>
      match gs[g]?.bind (Goroutine.run gob rf) with
      | none => none
      | some (.error e) => some (s.put p (.down e.rf.persister) e.events)
      | some (.ok e) =>
        some ({ s with electionReset := s.electionReset + e.resets }.put p
          (.up e.rf ((gs.eraseIdx g).map e.wake ++ e.next)) e.events)
  | .timeout p g => s.resume p g fun gr => gr.timeout.map ([·])
  | .reset p g =>
    if s.electionReset = 0 then none
    else
      { s with electionReset := s.electionReset - 1 }.resume p g fun gr => gr.reset.map ([·])
  | .fail p g => s.resume p g Goroutine.fail
  | .deliver k =>
    match s.net[k]? with
    | none => none
    | some packet => { s with net := s.net.eraseIdx k }.deliver packet

/-- The cluster as a transition system: at first every peer is down and its `Persister` empty. -/
def system [Inhabited α] [DecidableEq α] (gob : Labgob n α) :
    System (Cluster n α) (Action n α) (Event n α) where
  init := { node := fun _ => .down [], net := [], electionReset := 0 }
  step := step gob

end Cluster

end Distsys
