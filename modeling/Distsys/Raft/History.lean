import Distsys.Lib.LeaderCompleteness
import Distsys.Raft.Election

/-!
# What the cluster does, in terms of the protocol

`Distsys.Lib.ReplicatedLog` is the protocol that the source implements. Here every step of the
cluster is given a meaning in it: one action of the protocol, or none. Five of the actions are the
five writes of durable state, `elect` is the `phaseChange` that ends a won election, and `commit` is
the second critical section of `heartbeat` when it raises `commitIndex`. Everything else, in
particular crashes, restarts and whatever happens on the network, means nothing.

The state of the protocol is carried along a run as a history variable. Nothing is claimed here
about whether the actions are allowed; that is `Distsys.Raft.Refinement`.

## Main definitions

* `setting` — the protocol for an odd number of peers
* `Cluster.Meant` — what a step means
* `Cluster.History` — the state of the protocol after a run

## Main results

* `Cluster.exists_history` — every run has a history
-/

namespace Distsys

open ReplicatedLog (State Setting)

variable {n : ℕ} {α : Type} {gob : Labgob n α} {rf : Raft n α}

/-- The protocol with log entries stamped by their term, `LogEntry{}` as the first entry, and
majorities of an odd number of peers as quorums. -/
def setting [Inhabited α] (hodd : Odd n) : Setting (Fin n) (LogEntry α) where
  stamp := LogEntry.term
  first := default
  stamp_first := rfl
  quorum Q := Raft.majority n ≤ Q.card
  inter := Cluster.majority_inter hodd

open scoped Classical in
/-- What a write of durable state by a goroutine means, after the events `tr`. A vote that is cast
when the term has a leader means nothing. -/
noncomputable def Goroutine.means (tr : List (Event n α)) (rf : Raft n α) :
    Goroutine n α → Option (ReplicatedLog.Action (Fin n) (LogEntry α))
  | .callElection => some (.stand rf.me)
  | .termSync job => some (.raise rf.me job.otherTerm)
  | .requestVote call _ =>
    if ∃ q, .elected q call.args.term ∈ tr then none
    else some (.grant rf.me call.args.candidateID)
  | .appendEntries call _ =>
    some (.accept rf.me (call.args.prevLogIndex + 1 + call.args.entries.length).toNat)
  | _ => none

namespace Cluster

variable [Inhabited α] {c c' : Cfg n α} {a : Action n α} {p : Fin n}
  {gs : List (Goroutine n α)}

/-- The step is the second critical section of a `heartbeat`, and it raises `commitIndex`. -/
def Commits (c : Cfg n α) (a : Action n α) (p : Fin n) (i : ℤ) : Prop :=
  ∃ rf gs beat replies rf₁ rf₂, c.state.node p = .up rf gs ∧
    At p gs a (some (.heartbeatSleep beat replies)) ∧ rf.phase = .leader ∧
    rf.adjustIndices beat.myLastIndex replies = some rf₁ ∧ rf₁.commitPhase = some (rf₂, true) ∧
    rf₂.commitIndex = i

/-- What a step from `c` to `c'` means for the protocol. -/
inductive Meant (gob : Labgob n α) (c : Cfg n α) (a : Action n α) (c' : Cfg n α) :
    Option (ReplicatedLog.Action (Fin n) (LogEntry α)) → Prop where
  | nothing {es : List (Event n α)} (ht : c'.trace = c.trace ++ es)
      (hs : ∀ q, saved gob c' q = saved gob c q) (hq : ∀ ev ∈ es, ev.Quiet)
      (hr : ∀ call, .sent (.requestVote call) ∉ es)
      (he : ∀ p T, .elected p T ∈ es → .elected p T ∈ c.trace) (hc : ∀ p i, ¬ Commits c a p i) :
    Meant gob c a c' none
  | start {p : Fin n} {rf : Raft n α} {gs : List (Goroutine n α)} {command : α}
      (ht : c'.trace = c.trace ++ [.started p command rf.log.length rf.currentTerm])
      (hnd : c.state.node p = .up rf gs) (ha : At p gs a none) (hl : rf.phase = .leader)
      (hp : saved gob c' p =
        (rf.currentTerm, rf.votedFor, rf.log ++ [⟨rf.currentTerm, command⟩]))
      (hs : ∀ q, q ≠ p → saved gob c' q = saved gob c q) :
    Meant gob c a c' (some (.append p ⟨rf.currentTerm, command⟩))
  | write {p : Fin n} {rf : Raft n α} {gs : List (Goroutine n α)} {gr : Goroutine n α}
      {es : List (Event n α)} (ht : c'.trace = c.trace ++ es) (hnd : c.state.node p = .up rf gs)
      (ha : At p gs a (some gr)) (hw : Write rf (some gr) es (saved gob c' p))
      (hs : ∀ q, q ≠ p → saved gob c' q = saved gob c q) :
    Meant gob c a c' (gr.means c.trace rf)
  | elect {p : Fin n} {rf : Raft n α} {gs : List (Goroutine n α)} {election voteCount : ℕ}
      (ht : c'.trace = c.trace ++ [.elected p election]) (hnd : c.state.node p = .up rf gs)
      (ha : At p gs a (some (.callResult election voteCount)))
      (hvotes : Raft.majority n ≤ voteCount) (h : rf.phase ≠ .exit) (h' : rf.phase ≠ .leader)
      (hs : ∀ q, saved gob c' q = saved gob c q) (hnew : .elected p election ∉ c.trace) :
    Meant gob c a c' (some (.elect p))
  | commit {p : Fin n} {i : ℤ} (ht : c'.trace = c.trace) (hc : Commits c a p i)
      (hs : ∀ q, saved gob c' q = saved gob c q) :
    Meant gob c a c' (some (.commit p (i + 1).toNat))

/-! ### Every step has a meaning

By cases on what a step does to the durable state. A step that writes nothing can still be an
election or a commit, which are told by their events. -/

variable [DecidableEq α] {ok : Cfg n α → Action n α → Prop} {es : List (Event n α)}

/-- A commit emits nothing. -/
theorem Commits.trace_eq {i : ℤ} (h : Commits c a p i) (hn : (system gob).next c a = some c') :
    c'.trace = c.trace := by
  obtain ⟨rf, gs, beat, replies, rf₁, rf₂, hnd, ha, _⟩ := h
  rcases runs_of_at hn hnd ha with ⟨e, gs', hr, _, ht⟩ | ⟨e, hr, _, ht⟩
  · cases hr <;> exact ht.trans (List.append_nil _)
  · cases hr
    exact ht.trans (List.append_nil _)

/-- A step that elects a peer emits nothing else. -/
theorem elects_of_next (hc : (system gob).Reachable ok c) (hn : (system gob).next c a = some c')
    (ht : c'.trace = c.trace ++ es) {T : ℕ} (hel : .elected p T ∈ es) :
    ∃ rf gs voteCount, c.state.node p = .up rf gs ∧
      At p gs a (some (.callResult T voteCount)) ∧ Raft.majority n ≤ voteCount ∧
      rf.phase ≠ .exit ∧ rf.phase ≠ .leader ∧ es = [.elected p T] := by
  obtain ⟨es', q, nd, hm, ht'⟩ := next_moves hn
  obtain rfl := List.append_cancel_left (ht.symm.trans ht')
  have hemits := hm.node_step.emits hel
  generalize hq : c.state.node q = nd₀ at hemits
  cases hemits with
  | @elected rf gs _ _ _ voteCount ha hvotes h h' =>
    obtain rfl := me_of_reachable hc hq
    refine ⟨rf, gs, voteCount, hq, ha, hvotes, h, h', ?_⟩
    rcases runs_of_at hn hq ha with ⟨e, gs', hr, _, he⟩ | ⟨e, hr, _, _⟩
    · obtain rfl := List.append_cancel_left (ht.symm.trans he)
      cases hr with
      | elected => rfl
      | lost | callResultSame => cases hel
    · cases hr with
      | other hr => cases hr

/-- A step that is quiet asks for no votes. -/
theorem not_requestVote_of_quiet (hn : (system gob).next c a = some c')
    (ht : c'.trace = c.trace ++ es) (hq : ∀ ev ∈ es, ev.Quiet) (call : VoteCall n) :
    .sent (.requestVote call) ∉ es := by
  intro hin
  obtain ⟨es', q, nd, hm, ht'⟩ := next_moves hn
  obtain rfl := List.append_cancel_left (ht.symm.trans ht')
  have hemits := hm.node_step.emits hin
  generalize c.state.node q = nd₀ at hemits
  cases hemits with
  | @sent rf gs gs' gr e _ _ hr hp =>
    have hsend := hr.sends hp
    generalize e.rf = rf' at hsend
    cases hsend with
    | requestVote =>
      cases hr with
      | callElection => exact hq _ List.mem_cons_self
      | callElectionExit => cases hp

/-- **Every step has a meaning.** -/
theorem meant_of_next (hc : (system gob).Reachable ok c) (hn : (system gob).next c a = some c') :
    ∃ act, Meant gob c a c' act := by
  cases saved_cases hc hn with
  | @write p rf gs gr es ht hnd ha hw hs =>
    cases gr with
    | none =>
      obtain rfl := me_of_reachable hc hnd
      generalize hp : saved gob c' rf.me = d at hw
      cases hw with
      | start hl => exact ⟨_, .start ht hnd ha hl hp hs⟩
    | some gr => exact ⟨_, .write ht hnd ha hw hs⟩
  | @quiet es ht hs hq =>
    by_cases hcommit : ∃ p i, Commits c a p i
    · obtain ⟨p, i, hcommit⟩ := hcommit
      exact ⟨_, .commit (hcommit.trace_eq hn) hcommit hs⟩
    · by_cases hel : ∃ p T, .elected p T ∈ es ∧ .elected p T ∉ c.trace
      · obtain ⟨p, T, hel, hnew⟩ := hel
        obtain ⟨rf, gs, voteCount, hnd, ha, hvotes, h, h', rfl⟩ := elects_of_next hc hn ht hel
        exact ⟨_, .elect ht hnd ha hvotes h h' hs hnew⟩
      · refine ⟨_, .nothing ht hs hq (not_requestVote_of_quiet hn ht hq) (fun p T h => ?_)
          fun p i h => hcommit ⟨p, i, h⟩⟩
        by_contra hnew
        exact hel ⟨p, T, h, hnew⟩

/-! ### Histories

The protocol's state follows a run whether or not the actions are allowed there. So a history exists
for every run, and what holds of it is a question for later. -/

/-- The effect of what a step means. -/
def after (A : State (Fin n) (LogEntry α)) :
    Option (ReplicatedLog.Action (Fin n) (LogEntry α)) → State (Fin n) (LogEntry α)
  | none => A
  | some act => A.apply act

/-- `A` is the state of the protocol after a guarded run to `c`. -/
def History (gob : Labgob n α) (ok : Cfg n α → Action n α → Prop) (hodd : Odd n) :
    Cfg n α → State (Fin n) (LogEntry α) → Prop :=
  (system gob).Tracks ok (setting hodd).init fun c a c' A A' =>
    ∃ act, Meant gob c a c' act ∧ A' = after A act

/-- **Every run has a history.** -/
theorem exists_history (hodd : Odd n) (hc : (system gob).Reachable ok c) :
    ∃ A, History gob ok hodd c A := by
  refine System.exists_tracks (fun c a c' A hc hn => ?_) hc
  obtain ⟨act, hm⟩ := meant_of_next hc hn
  exact ⟨after A act, act, hm, rfl⟩

end Cluster

end Distsys
