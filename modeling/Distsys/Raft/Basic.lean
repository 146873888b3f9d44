import Mathlib.Data.Fintype.Basic
import Mathlib.Data.List.FinRange
import Mathlib.Data.List.Sort
import Distsys.Lib.GoSlice

/-!
# One Raft peer

The `Raft` struct of `src/raft` and what its methods do while they hold `rf.mu`. A method that
locks and unlocks more than once is cut at the unlocks, one definition for each critical section;
`Distsys.Raft.Cluster` puts the pieces back in order.

## Representation

* `n` is `len(rf.peers)` and a peer is an element of `Fin n`. `votedFor` is an `Option (Fin n)`,
  with `none` for `-1`.
* `α` stands for the `interface{}` of a command and `default` for its zero value `nil`.
* Terms and vote counts are natural numbers; every index is an integer, since the source subtracts
  one from indices. That an `int` has 64 bits is not modelled. An access outside a slice is `none`,
  the panic.
* The `Persister` is its `raftstate`. What `labgob` writes and reads is a parameter, `Labgob`,
  together with the two facts about it that the source relies on.

Left out: `mu` (a critical section is one definition), `peers` (only its length is used), `applyCh`
(messages are returned), the `snapshot` of the `Persister`, all debug output and `GetState`.

## Main definitions

* `Raft`, `Labgob`, and the arguments and replies of the two RPCs
* `Raft.persist`, `Raft.readPersist`, `Raft.make`, `Raft.start`, `Raft.kill`, `Raft.applyEntries`
* `Raft.phaseChange`, `Raft.termSync`
* `Raft.callElection`, `Raft.requestVote`
* `Raft.initLeader`, `Raft.appendEntriesArgs`, `Raft.adjustIndices`, `Raft.commitPhase`
* `Raft.appendEntries`
-/

namespace Distsys

/-- `LogEntry`. -/
structure LogEntry (α : Type) where
  term : ℕ
  data : α
  deriving DecidableEq, Repr

/-- `LogEntry{}`, the entry at index `0` of every log. -/
instance {α : Type} [Inhabited α] : Inhabited (LogEntry α) := ⟨⟨0, default⟩⟩

/-- `ApplyMsg`. -/
structure ApplyMsg (α : Type) where
  commandValid : Bool
  command : α
  commandIndex : ℤ
  deriving DecidableEq, Repr

/-- The values of `rf.phase`; `unset` is the empty string of a struct under construction. -/
inductive Phase where
  | unset
  | follower
  | candidate
  | leader
  | exit
  deriving DecidableEq, Repr

/-- `RequestVoteArgs`. -/
structure RequestVoteArgs (n : ℕ) where
  term : ℕ
  candidateID : Fin n
  lastLogIndex : ℤ
  lastLogTerm : ℕ
  deriving DecidableEq, Repr

/-- `RequestVoteReply`. -/
structure RequestVoteReply where
  term : ℕ
  voteGranted : Bool
  deriving DecidableEq, Repr

/-- `AppendEntriesArgs`. -/
structure AppendEntriesArgs (n : ℕ) (α : Type) where
  term : ℕ
  leaderID : Fin n
  prevLogIndex : ℤ
  prevLogTerm : ℕ
  entries : List (LogEntry α)
  leaderCommit : ℤ
  deriving DecidableEq, Repr

/-- `AppendEntriesReply`. -/
structure AppendEntriesReply where
  term : ℕ
  success : Bool
  nextIndex : ℤ
  deriving DecidableEq, Repr

/-- `AppendEntriesReply{}`, what a slot of `replies` holds until the RPC returns. -/
instance : Inhabited AppendEntriesReply := ⟨⟨0, false, 0⟩⟩

/-- What `labgob` does on the triple `(currentTerm, votedFor, log)`: `encode` is the buffer after
the three calls of `Encode`, and `decode` is `none` when one of the three calls of `Decode` fails.
-/
structure Labgob (n : ℕ) (α : Type) where
  encode : ℕ → Option (Fin n) → List (LogEntry α) → List UInt8
  decode : List UInt8 → Option (ℕ × Option (Fin n) × List (LogEntry α))
  /-- Decoding inverts encoding. -/
  decode_encode : ∀ t v l, decode (encode t v l) = some (t, v, l)
  /-- An encoded value takes at least one byte. -/
  encode_ne_nil : ∀ t v l, encode t v l ≠ []

/-- The `Raft` struct. -/
structure Raft (n : ℕ) (α : Type) where
  /-- The `raftstate` of the peer's `Persister`. -/
  persister : List UInt8
  /-- The index of this peer. -/
  me : Fin n
  phase : Phase
  currentTerm : ℕ
  /-- Whom it has voted for in this term. -/
  votedFor : Option (Fin n)
  /-- The entry at index `0` is an empty one, so that commands have the indices `1, 2, …`. -/
  log : List (LogEntry α)
  commitIndex : ℤ
  lastApplied : ℤ
  /-- For each peer, where the entries begin that a leader will send it next. -/
  nextIndex : List ℤ
  /-- For each peer, up to where its log is known to be that of the leader. -/
  matchIndex : List ℤ
  deriving DecidableEq, Repr

namespace Raft

variable {n : ℕ} {α : Type}

/-- `majority` of `callElection`: `int(math.Ceil(float64(len(rf.peers)) / 2))`. -/
def majority (n : ℕ) : ℕ := (n + 1) / 2

/-- The IDs of the loops over `rf.peers` that skip `rf.me`, in order. -/
def others (me : Fin n) : List (Fin n) := (List.finRange n).filter (· ≠ me)

/-! ### Persistence

`persist` writes three fields, and `readPersist` reads them. A buffer that cannot be decoded leaves
the struct as it was. -/

/-- `persist`. -/
def persist (gob : Labgob n α) (rf : Raft n α) : Raft n α :=
  { rf with persister := gob.encode rf.currentTerm rf.votedFor rf.log }

/-- `readPersist`. A decoding error leaves the struct as it is. -/
def readPersist (gob : Labgob n α) (rf : Raft n α) (data : List UInt8) : Raft n α :=
  if data = [] then rf
  else
    match gob.decode data with
    | none => rf
    | some (currentTerm, votedFor, log) => { rf with currentTerm, votedFor, log }

/-! ### `Start`, `Kill`, `Make`

The interface to the service above. `Make` starts with the state of a new peer, and then reads what
was saved. -/

/-- `Start`, with its results `(index, term, isLeader)`. -/
def start (gob : Labgob n α) (rf : Raft n α) (command : α) : Raft n α × ℤ × ℕ × Bool :=
  if rf.phase = .leader then
    let rf' : Raft n α := { rf with log := rf.log ++ [⟨rf.currentTerm, command⟩] }
    (rf'.persist gob, rf'.log.length - 1, rf.currentTerm, true)
  else (rf, 0, rf.currentTerm, false)

/-- `Kill`. -/
def kill (rf : Raft n α) : Raft n α := { rf with phase := .exit }

/-- The critical section of `phaseChange`, with its result. On `true` the caller goes on with the
entry of `initPhase` for `toPhase`. -/
def phaseChange (rf : Raft n α) (toPhase : Phase) : Raft n α × Bool :=
  if rf.phase = .exit then (rf, false)
  else if rf.phase ≠ toPhase then ({ rf with phase := toPhase }, true)
  else (rf, false)

/-- `Make`, up to the `phaseChange` that ends it. -/
def boot [Inhabited α] (gob : Labgob n α) (me : Fin n) (persister : List UInt8) : Raft n α :=
  readPersist gob
    { persister, me, phase := .unset, currentTerm := 0, votedFor := none, log := [default],
      commitIndex := 0, lastApplied := 0, nextIndex := [], matchIndex := [] } persister

/-- `Make`. -/
def make [Inhabited α] (gob : Labgob n α) (me : Fin n) (persister : List UInt8) : Raft n α :=
  ((boot gob me persister).phaseChange .follower).1

/-- `Make` returns a follower that takes nothing as committed. -/
theorem make_eq [Inhabited α] (gob : Labgob n α) (me : Fin n) (persister : List UInt8) :
    ∃ currentTerm votedFor log, make gob me persister =
      { persister, me, phase := .follower, currentTerm, votedFor, log, commitIndex := 0,
        lastApplied := 0, nextIndex := [], matchIndex := [] } := by
  unfold make boot readPersist
  split
  · exact ⟨_, _, _, rfl⟩
  · split <;> exact ⟨_, _, _, rfl⟩

/-- The loop of `applyEntries`: the messages sent from `lastApplied` on, with `k` rounds to go, and
the last `lastApplied`, `none` when `rf.log[rf.lastApplied]` panicked. -/
def applyLoop (log : List (LogEntry α)) : ℤ → ℕ → List (ApplyMsg α) × Option ℤ
  | lastApplied, 0 => ([], some lastApplied)
  | lastApplied, k + 1 =>
    match GoSlice.get log (lastApplied + 1) with
    | none => ([], none)
    | some e =>
      let r := applyLoop log (lastApplied + 1) k
      (⟨true, e.data, lastApplied + 1⟩ :: r.1, r.2)

/-- A message of the loop carries the entry at its index, and the indices are the next `k`. -/
theorem mem_applyLoop {log : List (LogEntry α)} {lastApplied : ℤ} {k : ℕ} {msg : ApplyMsg α}
    (h : msg ∈ (applyLoop log lastApplied k).1) :
    lastApplied < msg.commandIndex ∧ msg.commandIndex ≤ lastApplied + k ∧
      ∃ e, GoSlice.get log msg.commandIndex = some e ∧ e.data = msg.command := by
  induction k generalizing lastApplied with
  | zero => cases h
  | succ k ih =>
    unfold applyLoop at h
    split at h
    · cases h
    · rename_i e he
      rcases List.mem_cons.mp h with rfl | h
      · exact ⟨by dsimp only; omega, by dsimp only; omega, e, he, rfl⟩
      · obtain ⟨h₁, h₂, h₃⟩ := ih h
        exact ⟨by omega, by omega, h₃⟩

/-- The loop that does not panic counts up to the end. -/
theorem applyLoop_eq_some {log : List (LogEntry α)} {lastApplied i : ℤ} {k : ℕ}
    (h : (applyLoop log lastApplied k).2 = some i) : i = lastApplied + k := by
  induction k generalizing lastApplied with
  | zero => cases h; simp
  | succ k ih =>
    unfold applyLoop at h
    split at h
    · cases h
    · have := ih h
      omega

/-- `applyEntries`: the messages sent on `applyCh`, and the struct afterwards. -/
def applyEntries (rf : Raft n α) : List (ApplyMsg α) × Option (Raft n α) :=
  let r := applyLoop rf.log rf.lastApplied (rf.commitIndex - rf.lastApplied).toNat
  (r.1, r.2.map fun lastApplied => { rf with lastApplied })

theorem applyEntries_eq_some {rf rf' : Raft n α} {msgs : List (ApplyMsg α)}
    (h : rf.applyEntries = (msgs, some rf')) :
    rf' = { rf with lastApplied := max rf.lastApplied rf.commitIndex } := by
  obtain ⟨i, hi, hrf⟩ := Option.map_eq_some_iff.mp (congrArg Prod.snd h)
  have := applyLoop_eq_some hi
  rw [← hrf, show i = max rf.lastApplied rf.commitIndex by omega]

/-- `applyEntries` delivers the entries of the log after `lastApplied`, up to `commitIndex`. -/
theorem mem_applyEntries {rf : Raft n α} {msgs : List (ApplyMsg α)} {r : Option (Raft n α)}
    (h : rf.applyEntries = (msgs, r)) {msg : ApplyMsg α} (hm : msg ∈ msgs) :
    rf.lastApplied < msg.commandIndex ∧ msg.commandIndex ≤ rf.commitIndex ∧
      ∃ e, GoSlice.get rf.log msg.commandIndex = some e ∧ e.data = msg.command := by
  obtain rfl := congrArg Prod.fst h
  obtain ⟨h₁, h₂, h₃⟩ := mem_applyLoop hm
  exact ⟨h₁, by omega, h₃⟩

/-- The critical section of `termSync`, with its results `(outcome, myTerm)`. After the outcome
`-1` the caller goes on with `phaseChange("follower", ..)`. -/
def termSync (gob : Labgob n α) (rf : Raft n α) (otherTerm : ℕ) : Raft n α × ℤ × ℕ :=
  let myTerm := rf.currentTerm
  if myTerm < otherTerm then
    (persist gob { rf with currentTerm := otherTerm, votedFor := none }, -1, myTerm)
  else if myTerm = otherTerm then (rf, 0, myTerm)
  else (rf, 1, myTerm)

/-! ### Elections

`callElection` up to the calls of `sendRequestVote`, and the body of `RequestVote` behind
`termSync`. -/

/-- The first critical section of `callElection`, past its candidate check. The second component
is `none` when `rf.log[args.LastLogIndex]` panics. -/
def callElection (gob : Labgob n α) (rf : Raft n α) : Raft n α × Option (RequestVoteArgs n) :=
  let rf' := persist gob { rf with currentTerm := rf.currentTerm + 1, votedFor := some rf.me }
  let lastLogIndex : ℤ := rf'.log.length - 1
  (rf', (GoSlice.get rf'.log lastLogIndex).map fun e =>
    { term := rf'.currentTerm, candidateID := rf.me, lastLogIndex, lastLogTerm := e.term })

/-- The first test of the body of `RequestVote`: the peer has not voted for somebody else. -/
def freeToVote (rf : Raft n α) (args : RequestVoteArgs n) : Prop :=
  rf.votedFor = none ∨ rf.votedFor = some args.candidateID

instance (rf : Raft n α) (args : RequestVoteArgs n) : Decidable (rf.freeToVote args) :=
  inferInstanceAs (Decidable (_ ∨ _))

/-- The data up-to-date test of the body of `RequestVote`, against the voter's last index and
term. -/
def upToDate (args : RequestVoteArgs n) (myLastEntryIndex : ℤ) (myLastEntryTerm : ℕ) : Prop :=
  args.lastLogTerm > myLastEntryTerm ∨
    (args.lastLogTerm = myLastEntryTerm ∧ args.lastLogIndex ≥ myLastEntryIndex)

instance (args : RequestVoteArgs n) (i : ℤ) (t : ℕ) : Decidable (upToDate args i t) :=
  inferInstanceAs (Decidable (_ ∨ _))

/-- The body of `RequestVote` after `termSync`, with `reply.VoteGranted`. -/
def requestVote (gob : Labgob n α) (rf : Raft n α) (args : RequestVoteArgs n) :
    Option (Raft n α × Bool) :=
  if rf.freeToVote args then
    let myLastEntryIndex : ℤ := rf.log.length - 1
    (GoSlice.get rf.log myLastEntryIndex).map fun e =>
      if upToDate args myLastEntryIndex e.term then
        (persist gob { rf with votedFor := some args.candidateID }, true)
      else (rf, false)
  else some (rf, false)

/-! ### Leadership

The critical sections of a leader: `initLeader`, the two of `heartbeat`, and between the latter what
becomes of the replies. The commit phase is the end of the second one. -/

/-- The critical section of `initLeader`. -/
def initLeader (rf : Raft n α) : Raft n α :=
  { rf with
    nextIndex := List.replicate n (rf.log.length : ℤ)
    matchIndex := List.replicate n 0 }

/-- The arguments `heartbeat` builds for the peer `ID`. -/
def appendEntriesArgs (rf : Raft n α) (ID : Fin n) : Option (AppendEntriesArgs n α) := do
  let nextIndex ← GoSlice.get rf.nextIndex (ID : ℕ)
  let prevLogIndex := min nextIndex rf.log.length - 1
  let prev ← GoSlice.get rf.log prevLogIndex
  let entries ← if nextIndex < rf.log.length then GoSlice.suffixFrom rf.log nextIndex else some []
  return {
    term := rf.currentTerm
    leaderID := rf.me
    prevLogIndex
    prevLogTerm := prev.term
    entries
    leaderCommit := rf.commitIndex }

/-- The arguments split the log at `PrevLogIndex`, whatever `nextIndex` is: past the end of the log
the entries are empty and `PrevLogIndex` is the last index. -/
theorem appendEntriesArgs_eq_some {rf : Raft n α} {ID : Fin n} {args : AppendEntriesArgs n α}
    (h : rf.appendEntriesArgs ID = some args) :
    ∃ (nextIndex : ℤ) (k : ℕ) (prev : LogEntry α),
      GoSlice.get rf.nextIndex (ID : ℕ) = some nextIndex ∧
      (k : ℤ) = min nextIndex rf.log.length - 1 ∧ rf.log[k]? = some prev ∧
      args = {
        term := rf.currentTerm
        leaderID := rf.me
        prevLogIndex := k
        prevLogTerm := prev.term
        entries := rf.log.drop (k + 1)
        leaderCommit := rf.commitIndex } := by
  obtain ⟨nextIndex, hnext, h⟩ := Option.bind_eq_some_iff.mp h
  obtain ⟨prev, hprev, h⟩ := Option.bind_eq_some_iff.mp h
  obtain ⟨k, hk, hlog⟩ := GoSlice.get_eq_some_iff.mp hprev
  refine ⟨nextIndex, k, prev, hnext, hk.symm, hlog, ?_⟩
  dsimp only at h
  rw [hk] at h
  split at h
  · rename_i hlt
    obtain ⟨entries, he, h⟩ := Option.bind_eq_some_iff.mp h
    obtain ⟨j, rfl, _, rfl⟩ := GoSlice.suffixFrom_eq_some_iff.mp he
    cases h
    rw [show j = k + 1 by omega]
  · have hnil : rf.log.drop (k + 1) = [] := List.drop_eq_nil_of_le (by omega)
    rw [hnil]
    exact (Option.some.inj h).symm

/-- One round of the loop of `heartbeat` that adjusts the follower indices. -/
def adjustIndex (myLastIndex : ℤ) (replies : List AppendEntriesReply) (rf : Raft n α)
    (ID : Fin n) : Option (Raft n α) := do
  let reply ← GoSlice.get replies (ID : ℕ)
  if reply.success then
    let nextIndex ← GoSlice.set rf.nextIndex (ID : ℕ) (myLastIndex + 1)
    let matchIndex ← GoSlice.set rf.matchIndex (ID : ℕ) myLastIndex
    return { rf with nextIndex, matchIndex }
  else if reply.nextIndex ≥ 1 then
    let nextIndex ← GoSlice.set rf.nextIndex (ID : ℕ) reply.nextIndex
    return { rf with nextIndex }
  else return rf

/-- The loop of `heartbeat` that adjusts the follower indices depending on the responses. -/
def adjustIndices (rf : Raft n α) (myLastIndex : ℤ) (replies : List AppendEntriesReply) :
    Option (Raft n α) :=
  (others rf.me).foldlM (adjustIndex myLastIndex replies) rf

theorem adjustIndex_eq {rf rf' : Raft n α} {myLastIndex : ℤ} {replies : List AppendEntriesReply}
    {ID : Fin n} (h : adjustIndex myLastIndex replies rf ID = some rf') :
    ∃ nextIndex matchIndex, rf' = { rf with nextIndex, matchIndex } := by
  obtain ⟨reply, _, h⟩ := Option.bind_eq_some_iff.mp h
  split at h
  · obtain ⟨ni, _, h⟩ := Option.bind_eq_some_iff.mp h
    obtain ⟨mi, _, h⟩ := Option.bind_eq_some_iff.mp h
    exact ⟨ni, mi, (Option.some.inj h).symm⟩
  · split at h
    · obtain ⟨ni, _, h⟩ := Option.bind_eq_some_iff.mp h
      exact ⟨ni, rf.matchIndex, (Option.some.inj h).symm⟩
    · exact ⟨rf.nextIndex, rf.matchIndex, (Option.some.inj h).symm⟩

/-- A property of the struct that every round of the loop keeps is kept by the loop. -/
theorem adjustIndices_induction {P : Raft n α → Prop} {rf rf' : Raft n α} {myLastIndex : ℤ}
    {replies : List AppendEntriesReply} (h : rf.adjustIndices myLastIndex replies = some rf')
    (h₀ : P rf) (hstep : ∀ ID ∈ others rf.me, ∀ r r', P r →
      adjustIndex myLastIndex replies r ID = some r' → P r') : P rf' := by
  unfold adjustIndices at h
  revert h h₀ hstep
  generalize others rf.me = IDs
  intro h h₀ hstep
  induction IDs generalizing rf with
  | nil => cases h; exact h₀
  | cons ID IDs ih =>
    rw [List.foldlM_cons] at h
    obtain ⟨r, hr, h⟩ := Option.bind_eq_some_iff.mp h
    exact ih h (hstep ID List.mem_cons_self rf r h₀ hr) fun ID' hID' =>
      hstep ID' (List.mem_cons_of_mem _ hID')

/-- The loop only writes the two index slices. -/
theorem adjustIndices_eq {rf rf' : Raft n α} {myLastIndex : ℤ}
    {replies : List AppendEntriesReply} (h : rf.adjustIndices myLastIndex replies = some rf') :
    ∃ nextIndex matchIndex, rf' = { rf with nextIndex, matchIndex } := by
  refine adjustIndices_induction (P := fun r => ∃ nextIndex matchIndex,
    r = { rf with nextIndex, matchIndex }) h ⟨rf.nextIndex, rf.matchIndex, rfl⟩ ?_
  intro ID _ r r' hr hr'
  obtain ⟨ni, mi, rfl⟩ := hr
  obtain ⟨ni', mi', rfl⟩ := adjustIndex_eq hr'
  exact ⟨ni', mi', rfl⟩

/-- `sortedMatchIndex`: a copy of `matchIndex` of length `n` with the leader's slot set to `0`, in
ascending order. -/
def sortedMatchIndex (rf : Raft n α) : List ℤ :=
  let copied := rf.matchIndex.take n ++ List.replicate (n - rf.matchIndex.length) 0
  (copied.set rf.me 0).insertionSort (· ≤ ·)

/-- The scan of the commit phase from index `i` downwards, with `k` rounds to go. The result is the
new `commitIndex`, if one is found. -/
def commitScan (rf : Raft n α) : ℤ → ℕ → Option (Option ℤ)
  | _, 0 => some none
  | i, k + 1 =>
    match GoSlice.get rf.log i with
    | none => none
    | some e => if e.term = rf.currentTerm then some (some i) else commitScan rf (i - 1) k

/-- The commit phase of `heartbeat`. The second component says whether `applyEntries` is
started. -/
def commitPhase (rf : Raft n α) : Option (Raft n α × Bool) := do
  let m ← GoSlice.get rf.sortedMatchIndex ((n + 1) / 2 : ℕ)
  let maxCommit := min m (rf.log.length - 1)
  let found ← rf.commitScan maxCommit (maxCommit - rf.commitIndex).toNat
  match found with
  | some i => return ({ rf with commitIndex := i }, true)
  | none => return (rf, false)

/-- What the scan finds is an entry of the current term, at most `i` and above `i - k`. -/
theorem commitScan_eq_some {rf : Raft n α} {i j : ℤ} {k : ℕ}
    (h : rf.commitScan i k = some (some j)) :
    i - k < j ∧ j ≤ i ∧ ∃ e, GoSlice.get rf.log j = some e ∧ e.term = rf.currentTerm := by
  induction k generalizing i with
  | zero => cases h
  | succ k ih =>
    unfold commitScan at h
    split at h
    · cases h
    · rename_i e he
      split at h
      · cases h
        exact ⟨by omega, le_refl _, e, he, ‹_›⟩
      · obtain ⟨h₁, h₂, h₃⟩ := ih h
        exact ⟨by omega, by omega, h₃⟩

/-- The commit phase changes nothing, or raises `commitIndex` to the index of an entry of the
current term that is at most the chosen order statistic of `matchIndex`. -/
theorem commitPhase_eq_some {rf rf' : Raft n α} {commits : Bool}
    (h : rf.commitPhase = some (rf', commits)) :
    (rf' = rf ∧ commits = false) ∨
      ∃ m i e, GoSlice.get rf.sortedMatchIndex ((n + 1) / 2 : ℕ) = some m ∧
        rf' = { rf with commitIndex := i } ∧ commits = true ∧ rf.commitIndex < i ∧ i ≤ m ∧
        GoSlice.get rf.log i = some e ∧ e.term = rf.currentTerm := by
  obtain ⟨m, hm, h⟩ := Option.bind_eq_some_iff.mp h
  obtain ⟨found, hf, h⟩ := Option.bind_eq_some_iff.mp h
  cases found with
  | none =>
    cases h
    exact Or.inl ⟨rfl, rfl⟩
  | some i =>
    cases h
    obtain ⟨h₁, h₂, e, he, ht⟩ := commitScan_eq_some hf
    exact Or.inr ⟨m, i, e, hm, rfl, rfl, by omega, by omega, he, ht⟩

/-! ### Log replication

The body of `AppendEntries` behind `termSync`. It compares one entry, and then either replaces
everything behind this entry or looks for the index to answer with. -/

/-- The scan of the body of `AppendEntries` for the start of the run of `conflictTerm` that ends
before index `k`; `prevLogIndex` when the run reaches index `0`. -/
def conflictScan (log : List (LogEntry α)) (conflictTerm : ℕ) (prevLogIndex : ℤ) :
    ℕ → Option ℤ
  | 0 => some prevLogIndex
  | k + 1 =>
    match log[k]? with
    | none => none
    | some e =>
      if e.term ≠ conflictTerm then some (k + 1) else conflictScan log conflictTerm prevLogIndex k

/-- What the body of `AppendEntries` leaves behind. -/
structure AppendResult (n : ℕ) (α : Type) where
  rf : Raft n α
  /-- `reply.Success`. -/
  success : Bool
  /-- `reply.NextIndex`. -/
  nextIndex : ℤ
  /-- Whether `applyEntries` is started. -/
  commits : Bool

/-- The successful branch of the body of `AppendEntries`: merge the log, update `commitIndex`,
persist. -/
def mergeLog (gob : Labgob n α) (rf : Raft n α) (args : AppendEntriesArgs n α) :
    Option (AppendResult n α) := do
  let kept ← GoSlice.upTo rf.log (args.prevLogIndex + 1)
  let rf := { rf with log := kept ++ args.entries }
  let newCommitIndex := min args.leaderCommit (rf.log.length - 1)
  if newCommitIndex > rf.commitIndex then
    return ⟨persist gob { rf with commitIndex := newCommitIndex }, true, 0, true⟩
  else return ⟨persist gob rf, true, 0, false⟩

theorem mergeLog_eq_some {gob : Labgob n α} {rf : Raft n α} {args : AppendEntriesArgs n α}
    {r : AppendResult n α} (h : rf.mergeLog gob args = some r) :
    ∃ k : ℕ, args.prevLogIndex + 1 = k ∧ k ≤ rf.log.length ∧
      r = {
        rf := persist gob { rf with
          log := rf.log.take k ++ args.entries
          commitIndex := max rf.commitIndex (min args.leaderCommit (k + args.entries.length - 1)) }
        success := true
        nextIndex := 0
        commits :=
          decide (rf.commitIndex < min args.leaderCommit (k + args.entries.length - 1)) } := by
  obtain ⟨kept, hkept, h⟩ := Option.bind_eq_some_iff.mp h
  obtain ⟨k, hk, hle, rfl⟩ := GoSlice.upTo_eq_some_iff.mp hkept
  refine ⟨k, hk, hle, ?_⟩
  have hlen : ((rf.log.take k ++ args.entries).length : ℤ) = k + args.entries.length := by
    simp [hle]
  dsimp only at h
  rw [hlen] at h
  split at h
  · rename_i hc
    cases h
    simp [max_eq_right hc.le, hc]
  · rename_i hc
    cases h
    simp [max_eq_left (not_lt.mp hc), hc]

/-- The body of `AppendEntries` after `termSync`. -/
def appendEntries (gob : Labgob n α) (rf : Raft n α) (args : AppendEntriesArgs n α) :
    Option (AppendResult n α) :=
  if args.prevLogIndex < rf.log.length then do
    let prev ← GoSlice.get rf.log args.prevLogIndex
    if prev.term = args.prevLogTerm then rf.mergeLog gob args
    else
      let nextIndex ← conflictScan rf.log prev.term args.prevLogIndex args.prevLogIndex.toNat
      return ⟨rf, false, nextIndex, false⟩
  else some ⟨rf, false, rf.log.length, false⟩

end Raft

end Distsys
