import Distsys.Raft.Steps

/-!
# Conditions on the critical sections of a run

Between two critical sections of one method everything can change, and several methods do not look
again. The conditions below say, for one critical section each, that what was decided before still
holds when it is carried out. A run whose steps all meet such a condition behaves as if the method
had held the lock throughout, in that one respect; which properties of the cluster depend on which
of them is the subject of the following modules.

| Condition | What the source does not check again |
|---|---|
| `GrantsInTerm` | the body of `RequestVote`: the term |
| `AcceptsInTerm` | the body of `AppendEntries`: the term |
| `WinsInTerm` | `callElection`: the term, before it becomes leader |
| `BeatsInTerm` | `heartbeat`: that the leadership is still the one it was started for |
| `StartsInTerm`, `LeaderTermFixed` | `termSync`: raises the term before it ends the phase |

The last three conditions are about the splice of `AppendEntries`, which replaces everything behind
`PrevLogIndex`: `ReachesCommitted`, `ExtendsLeader` and `KeepsUnrefuted` say that this does no harm
to the entries up to `commitIndex`, to the log of a leader, and to entries that the message does not
contradict.

## Main definitions

* `Cluster.Guard` — a condition on the goroutine that runs and the struct it finds
* the conditions above, and `Cluster.Timely`, which is the first five together without
  `LeaderTermFixed`
-/

namespace Distsys

variable {n : ℕ} {α : Type} {rf : Raft n α}

/-! ### What a goroutine is about to do

Partial functions that recognize the critical sections the conditions are about, with the data that
was decided on before. -/

namespace Goroutine

/-- The call a body of `RequestVote` works on. -/
def requestVote? : Goroutine n α → Option (VoteCall n)
  | .requestVote call _ => some call
  | _ => none

/-- The call a body of `AppendEntries` works on. -/
def appendEntries? : Goroutine n α → Option (EntriesCall n α)
  | .appendEntries call _ => some call
  | _ => none

/-- The election that has just been decided, and its `voteCount`. -/
def callResult? : Goroutine n α → Option (ℕ × ℕ)
  | .callResult election voteCount => some (election, voteCount)
  | _ => none

/-- The election whose leadership `heartbeat` belongs to. -/
def heartbeat? : Goroutine n α → Option ℕ
  | .heartbeat election _ => some election
  | .heartbeatSleep beat _ => some beat.election
  | _ => none

/-- The term that `termSync` compares with. -/
def otherTerm? : Goroutine n α → Option ℕ
  | .termSync job => some job.otherTerm
  | _ => none

end Goroutine

theorem appendEntries_of_mem {gr : Goroutine n α} {call : EntriesCall n α}
    (h : call ∈ gr.appendEntries?) : ∃ myTerm, gr = .appendEntries call myTerm := by
  cases gr with
  | appendEntries call' myTerm => cases h; exact ⟨myTerm, rfl⟩
  | _ => cases h

/-- The body of `RequestVote` would grant its vote. -/
def Raft.Grants (rf : Raft n α) (args : RequestVoteArgs n) : Prop :=
  rf.freeToVote args ∧ ∃ last ∈ GoSlice.get rf.log (rf.log.length - 1),
    Raft.upToDate args (rf.log.length - 1) last.term

/-- The body of `AppendEntries` would report success:
`rf.log[args.PrevLogIndex].Term == args.PrevLogTerm`. -/
def Raft.Accepts (rf : Raft n α) (args : AppendEntriesArgs n α) : Prop :=
  ∃ prev ∈ GoSlice.get rf.log args.prevLogIndex, prev.term = args.prevLogTerm

instance (rf : Raft n α) (args : RequestVoteArgs n) : Decidable (rf.Grants args) :=
  inferInstanceAs (Decidable (_ ∧ _))

instance (rf : Raft n α) (args : AppendEntriesArgs n α) : Decidable (rf.Accepts args) :=
  inferInstanceAs (Decidable (∃ prev ∈ GoSlice.get rf.log args.prevLogIndex, _))

namespace Cluster

variable {c : Cfg n α} {a : Action n α} {p : Fin n} {gs : List (Goroutine n α)}
  {gr : Goroutine n α}

/-! ### Guards

A guard of this kind looks at one goroutine and one struct. Other steps are free, in particular
those of the network, and crashes. -/

/-- The struct and the goroutine of the critical section that an action runs. -/
def running (c : Cfg n α) : Action n α → Option (Raft n α × Goroutine n α)
  | .run p g =>
    match c.state.node p with
    | .up rf gs => gs[g]?.map (Prod.mk rf)
    | .down _ => none
  | _ => none

/-- The guard that asks `f` of every critical section of a goroutine, before it runs. -/
def Guard (f : Raft n α → Goroutine n α → Prop) (c : Cfg n α) (a : Action n α) : Prop :=
  ∀ r ∈ running c a, f r.1 r.2

instance (f : Raft n α → Goroutine n α → Prop) [∀ rf gr, Decidable (f rf gr)] (c : Cfg n α)
    (a : Action n α) : Decidable (Guard f c a) :=
  inferInstanceAs (Decidable (∀ r ∈ running c a, f r.1 r.2))

theorem Guard.at {f : Raft n α → Goroutine n α → Prop} (h : Guard f c a)
    (hnd : c.state.node p = .up rf gs) (ha : At p gs a (some gr)) : f rf gr := by
  cases ha with
  | run hg => exact h (rf, gr) (by simp [running, hnd, hg])

theorem guard_iff {f : Raft n α → Goroutine n α → Prop} :
    Guard f c a ↔ ∀ p rf gs gr, c.state.node p = .up rf gs → At p gs a (some gr) → f rf gr := by
  refine ⟨fun h p rf gs gr hnd ha => h.at hnd ha, fun h => ?_⟩
  rintro ⟨rf, gr⟩ hr
  cases a with
  | run p g =>
    simp only [running, Option.mem_def] at hr
    split at hr
    · rename_i rf' gs hnd
      obtain ⟨gr', hg, heq⟩ := Option.map_eq_some_iff.mp hr
      cases heq
      exact h p rf gs gr hnd (.run hg)
    · cases hr
  | _ => cases hr

/-! ### Terms

The source compares terms in `termSync`, or when an election or a leadership begins. These
conditions say that the comparison would still come out the same. -/

/-- A vote is only granted while `currentTerm` is the term it is asked for. -/
def GrantsInTerm : Cfg n α → Action n α → Prop :=
  Guard fun rf gr => ∀ call ∈ gr.requestVote?, rf.Grants call.args →
    rf.currentTerm = call.args.term

/-- Entries are only accepted while `currentTerm` is the term of the leader that sent them. -/
def AcceptsInTerm : Cfg n α → Action n α → Prop :=
  Guard fun rf gr => ∀ call ∈ gr.appendEntries?, rf.Accepts call.args →
    rf.currentTerm = call.args.term

/-- An election only makes a peer leader while `currentTerm` is its term. -/
def WinsInTerm : Cfg n α → Action n α → Prop :=
  Guard fun rf gr => ∀ result ∈ gr.callResult?, Raft.majority n ≤ result.2 → rf.phase ≠ .exit →
    rf.phase ≠ .leader → rf.currentTerm = result.1

/-- `heartbeat` only finds the peer in phase leader while `currentTerm` is the term of the election
it was started by. -/
def BeatsInTerm : Cfg n α → Action n α → Prop :=
  Guard fun rf gr => ∀ election ∈ gr.heartbeat?, rf.phase = .leader → rf.currentTerm = election

/-- `termSync` never raises the term of a peer in phase leader. -/
def LeaderTermFixed : Cfg n α → Action n α → Prop :=
  Guard fun rf gr => ∀ otherTerm ∈ gr.otherTerm?, rf.phase = .leader → otherTerm ≤ rf.currentTerm

/-- `Start` only finds a peer in phase leader while `currentTerm` is a term it was elected in. -/
def StartsInTerm (c : Cfg n α) : Action n α → Prop
  | .start p _ =>
    match c.state.node p with
    | .up rf _ => rf.phase = .leader → .elected p rf.currentTerm ∈ c.trace
    | .down _ => True
  | _ => True

/-! ### The splice of `AppendEntries`

Raft removes entries only if they conflict with new ones. The source removes all entries behind
`PrevLogIndex`, and a message that was sent earlier than others of the same leader has fewer
entries. -/

/-- Accepted entries reach up to `commitIndex`: `PrevLogIndex + len(Entries) ≥ commitIndex`. -/
def ReachesCommitted : Cfg n α → Action n α → Prop :=
  Guard fun rf gr => ∀ call ∈ gr.appendEntries?, rf.Accepts call.args →
    rf.commitIndex ≤ call.args.prevLogIndex + call.args.entries.length

/-- Entries that are accepted in phase leader repeat everything behind `PrevLogIndex`. -/
def ExtendsLeader : Cfg n α → Action n α → Prop :=
  Guard fun rf gr => ∀ call ∈ gr.appendEntries?, rf.Accepts call.args → rf.phase = .leader →
    rf.log.drop (call.args.prevLogIndex + 1).toNat <+: call.args.entries

/-- Accepted entries do not end before the log does, unless one of them has another term than the
entry of the log at its index. -/
def KeepsUnrefuted : Cfg n α → Action n α → Prop :=
  Guard fun rf gr => ∀ call ∈ gr.appendEntries?, rf.Accepts call.args →
    rf.log.length ≤ call.args.prevLogIndex + 1 + call.args.entries.length ∨
      ∃ e ∈ (rf.log.drop (call.args.prevLogIndex + 1).toNat).zip call.args.entries,
        e.1.term ≠ e.2.term

instance (c : Cfg n α) (a : Action n α) : Decidable (GrantsInTerm c a) :=
  inferInstanceAs (Decidable (Guard _ c a))

instance (c : Cfg n α) (a : Action n α) : Decidable (AcceptsInTerm c a) :=
  inferInstanceAs (Decidable (Guard _ c a))

instance (c : Cfg n α) (a : Action n α) : Decidable (WinsInTerm c a) :=
  inferInstanceAs (Decidable (Guard _ c a))

instance (c : Cfg n α) (a : Action n α) : Decidable (BeatsInTerm c a) :=
  inferInstanceAs (Decidable (Guard _ c a))

instance (c : Cfg n α) (a : Action n α) : Decidable (LeaderTermFixed c a) :=
  inferInstanceAs (Decidable (Guard _ c a))

instance (c : Cfg n α) (a : Action n α) : Decidable (KeepsUnrefuted c a) :=
  inferInstanceAs (Decidable (Guard _ c a))

instance [DecidableEq α] (c : Cfg n α) (a : Action n α) : Decidable (StartsInTerm c a) :=
  match a with
  | .start p _ =>
    match h : c.state.node p with
    | .up rf _ =>
      decidable_of_iff (rf.phase = .leader → .elected p rf.currentTerm ∈ c.trace)
        (by simp only [StartsInTerm, h])
    | .down _ => isTrue (by simp only [StartsInTerm, h])
  | .make _ | .crash _ | .kill _ | .run _ _ | .timeout _ _ | .reset _ _ | .fail _ _ | .deliver _ =>
    isTrue trivial

/-- Every critical section that acts on a term finds that it is still the current one. -/
structure Timely (c : Cfg n α) (a : Action n α) : Prop where
  /-- The body of `RequestVote`. -/
  grants : GrantsInTerm c a
  /-- The body of `AppendEntries`. -/
  accepts : AcceptsInTerm c a
  /-- The end of `callElection`. -/
  wins : WinsInTerm c a
  /-- Both critical sections of `heartbeat`. -/
  beats : BeatsInTerm c a
  /-- `Start` on a leader. -/
  starts : StartsInTerm c a

instance [DecidableEq α] (c : Cfg n α) (a : Action n α) : Decidable (Timely c a) :=
  decidable_of_iff
    (GrantsInTerm c a ∧ AcceptsInTerm c a ∧ WinsInTerm c a ∧ BeatsInTerm c a ∧ StartsInTerm c a)
    ⟨fun ⟨h₁, h₂, h₃, h₄, h₅⟩ => ⟨h₁, h₂, h₃, h₄, h₅⟩,
      fun ⟨h₁, h₂, h₃, h₄, h₅⟩ => ⟨h₁, h₂, h₃, h₄, h₅⟩⟩

theorem StartsInTerm.elected (h : StartsInTerm c a) (hnd : c.state.node p = .up rf gs)
    (ha : At p gs a none) (hl : rf.phase = .leader) : .elected p rf.currentTerm ∈ c.trace := by
  cases ha with
  | start =>
    simp only [StartsInTerm, hnd] at h
    exact h hl

end Cluster

end Distsys
