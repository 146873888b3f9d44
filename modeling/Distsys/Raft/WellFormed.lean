import Distsys.Raft.Bounds
import Distsys.Raft.Election

/-!
# Well-formed logs and messages

The terms along a log only go up, from the `0` of the empty entry at index `0` to at most
`currentTerm`. Neither the merge of `AppendEntries` nor the split of `heartbeat` looks at that: a
merged log is sorted because the entries of the message are, and because the entry before them has
the term `PrevLogTerm`. So logs and messages are well formed together or not at all.

A handler checks the term of its message in `termSync`, and other goroutines may raise the term
before it merges. Since terms never go down, `args.Term ≤ currentTerm` is still true then, which
bounds what is merged.

## Why logs and messages go together

A log is well formed on its own, but it is merged from a message, and a message is well formed with
respect to its sender's term. A message is sent by a leader whose log is well formed then. Each of
the two is therefore proved from the other at an earlier time. Messages stay in the trace, so the
statement about them is about all messages of the run.

## Main definitions

* `LogWF`, `ArgsWF` — well-formed logs and `AppendEntriesArgs`
* `Goroutine.Current` — what a goroutine knows about the term and the log from before its sleep

## Main results

* `Cluster.wellFormed_of_reachable`, `Cluster.nextIndex_pos`
* `Cluster.logs_and_messages_wellFormed`
-/

namespace Distsys

variable {n : ℕ} {α : Type} {gob : Labgob n α} {rf : Raft n α}

/-! ### Logs

Appending, splitting and merging keep terms sorted. All three are facts about lists of entries. -/

/-- A log of a peer in term `T`. -/
structure LogWF [Inhabited α] (T : ℕ) (log : List (LogEntry α)) : Prop where
  /-- The empty entry of `Make`. -/
  head : log[0]? = some ⟨0, default⟩
  pos : ∀ (i : ℕ) (e : LogEntry α), 1 ≤ i → log[i]? = some e → 1 ≤ e.term
  sorted : log.Pairwise fun e e' => e.term ≤ e'.term
  /-- Nothing is from the future. -/
  le : ∀ e ∈ log, e.term ≤ T

/-- The arguments of an `AppendEntries` call. -/
structure ArgsWF (args : AppendEntriesArgs n α) : Prop where
  prevLogIndex : 0 ≤ args.prevLogIndex
  pos : ∀ e ∈ args.entries, 1 ≤ e.term
  /-- The terms go up from `PrevLogTerm` on. -/
  sorted : (args.prevLogTerm :: args.entries.map LogEntry.term).Pairwise (· ≤ ·)
  le : ∀ t ∈ args.prevLogTerm :: args.entries.map LogEntry.term, t ≤ args.term

/-- The entries up to an index are bounded by the term there. -/
theorem term_le_of_mem_take {log : List (LogEntry α)}
    (hsorted : log.Pairwise fun e e' => e.term ≤ e'.term) {k : ℕ} {prev e : LogEntry α}
    (hprev : log[k]? = some prev) (he : e ∈ log.take (k + 1)) : e.term ≤ prev.term := by
  obtain ⟨i, hi⟩ := List.mem_iff_getElem?.mp he
  have hik : i < k + 1 := by
    by_contra hge
    rw [List.getElem?_take_eq_none (not_lt.mp hge)] at hi
    cases hi
  rw [List.getElem?_take_of_lt hik] at hi
  rcases Nat.lt_succ_iff_lt_or_eq.mp hik with hlt | rfl
  · obtain ⟨hk, rfl⟩ := List.getElem?_eq_some_iff.mp hprev
    obtain ⟨hi', rfl⟩ := List.getElem?_eq_some_iff.mp hi
    exact List.pairwise_iff_getElem.mp hsorted i k hi' hk hlt
  · rw [hprev] at hi
    cases hi
    exact le_refl _

variable [Inhabited α] {T T' : ℕ} {log : List (LogEntry α)}

theorem LogWF.ne_nil (h : LogWF T log) : log ≠ [] := by
  rintro rfl
  cases h.head

theorem LogWF.mono (h : LogWF T log) (hT : T ≤ T') : LogWF T' log :=
  ⟨h.head, h.pos, h.sorted, fun e he => (h.le e he).trans hT⟩

theorem logWF_default : LogWF T [(default : LogEntry α)] := by
  refine ⟨rfl, fun i e hi he => ?_, List.pairwise_singleton _ _, fun e he => ?_⟩
  · rw [List.getElem?_eq_none (by simpa using hi)] at he
    cases he
  · rw [List.mem_singleton.mp he]
    exact Nat.zero_le T

/-- `Start`. -/
theorem LogWF.concat (h : LogWF T log) (hT : 1 ≤ T) (command : α) :
    LogWF T (log ++ [⟨T, command⟩]) := by
  have hlen : 0 < log.length := List.length_pos_of_ne_nil h.ne_nil
  refine ⟨?_, fun i e hi he => ?_, ?_, fun e he => ?_⟩
  · rw [List.getElem?_append_left hlen]
    exact h.head
  · rcases lt_or_ge i log.length with hlt | hge
    · rw [List.getElem?_append_left hlt] at he
      exact h.pos i e hi he
    · rw [List.getElem?_append_right hge] at he
      rw [List.mem_singleton.mp (List.mem_of_getElem? he)]
      exact hT
  · refine List.pairwise_append.mpr ⟨h.sorted, List.pairwise_singleton _ _, fun e he e' he' => ?_⟩
    rw [List.mem_singleton.mp he']
    exact h.le e he
  · rcases List.mem_append.mp he with he | he
    · exact h.le e he
    · rw [List.mem_singleton.mp he]

/-- The merge of `AppendEntries`. -/
theorem LogWF.merge (h : LogWF T log) {args : AppendEntriesArgs n α} (hargs : ArgsWF args)
    (hT : args.term ≤ T) {k : ℕ} {prev : LogEntry α} (hprev : log[k]? = some prev)
    (hterm : prev.term = args.prevLogTerm) : LogWF T (log.take (k + 1) ++ args.entries) := by
  have hlen : (log.take (k + 1)).length = k + 1 :=
    List.length_take_of_le (List.getElem?_eq_some_iff.mp hprev).1
  obtain ⟨hhead, htail⟩ := List.pairwise_cons.mp hargs.sorted
  refine ⟨?_, fun i e hi he => ?_, ?_, fun e he => ?_⟩
  · rw [List.getElem?_append_left (by omega), List.getElem?_take_of_lt (Nat.succ_pos k)]
    exact h.head
  · rcases lt_or_ge i (k + 1) with hlt | hge
    · rw [List.getElem?_append_left (by omega), List.getElem?_take_of_lt hlt] at he
      exact h.pos i e hi he
    · rw [List.getElem?_append_right (by omega)] at he
      exact hargs.pos e (List.mem_of_getElem? he)
  · refine List.pairwise_append.mpr
      ⟨h.sorted.sublist (List.take_sublist ..), List.pairwise_map.mp htail, fun e he e' he' => ?_⟩
    calc e.term ≤ prev.term := term_le_of_mem_take h.sorted hprev he
      _ = args.prevLogTerm := hterm
      _ ≤ e'.term := hhead _ (List.mem_map_of_mem he')
  · rcases List.mem_append.mp he with he | he
    · exact h.le e (List.mem_of_mem_take he)
    · exact (hargs.le _ (List.mem_cons_of_mem _ (List.mem_map_of_mem he))).trans hT

/-- The split of `heartbeat`. -/
theorem LogWF.args (h : LogWF rf.currentTerm rf.log) {ID : Fin n} {args : AppendEntriesArgs n α}
    (hargs : rf.appendEntriesArgs ID = some args) : ArgsWF args := by
  obtain ⟨_, k, prev, _, _, hprev, rfl⟩ := Raft.appendEntriesArgs_eq_some hargs
  obtain ⟨hk, rfl⟩ := List.getElem?_eq_some_iff.mp hprev
  have hsplit : rf.log.drop k = rf.log[k] :: rf.log.drop (k + 1) := List.drop_eq_getElem_cons hk
  have hmem : ∀ e ∈ rf.log[k] :: rf.log.drop (k + 1), e ∈ rf.log := by
    rw [← hsplit]
    exact fun e => List.mem_of_mem_drop
  refine ⟨Int.natCast_nonneg k, fun e he => ?_, ?_, ?_⟩
  · obtain ⟨j, hj⟩ := List.mem_iff_getElem?.mp he
    rw [List.getElem?_drop] at hj
    exact h.pos (k + 1 + j) e (by omega) hj
  · have := h.sorted.sublist (List.drop_sublist k rf.log)
    rw [hsplit] at this
    exact List.pairwise_map.mpr this
  · show ∀ t ∈ (rf.log[k] :: rf.log.drop (k + 1)).map LogEntry.term, t ≤ rf.currentTerm
    intro t ht
    obtain ⟨e, he, rfl⟩ := List.mem_map.mp ht
    exact h.le e (hmem e he)

/-! ### What a goroutine knows from before

`Goroutine.Current` is a fact that was checked in an earlier critical section and that nothing can
make false, since terms only rise and logs only change in the ways above. -/

/-- What `termSync` has checked, and that the log was not empty, in the struct `rf` of a goroutine
that goes on. -/
def Goroutine.Current (rf : Raft n α) : Goroutine n α → Prop
  | .demote (.appendEntries call) _ => call.args.term ≤ rf.currentTerm
  | .appendEntries call _ => call.args.term ≤ rf.currentTerm
  | .heartbeatSleep beat _ => 0 ≤ beat.myLastIndex
  | _ => True

omit [Inhabited α] in
theorem Goroutine.Current.mono {rf rf' : Raft n α} {gr : Goroutine n α} (h : gr.Current rf)
    (hle : rf.currentTerm ≤ rf'.currentTerm) : gr.Current rf' := by
  cases gr with
  | demote job myTerm =>
    cases job with
    | appendEntries call => exact le_trans h hle
    | _ => trivial
  | appendEntries call myTerm => exact le_trans h hle
  | heartbeatSleep beat replies => exact h
  | _ => trivial

omit [Inhabited α] in
/-- The step lemma for a goroutine that is started. -/
theorem Spawns.current {gr gr' : Goroutine n α} {e : Effect n α} {es : List (Event n α)}
    (h : Spawns rf gr gr' es) (hrun : Runs gob rf gr e) (hgr : gr.Current rf) (hlog : rf.log ≠ []) :
    gr'.Current e.rf := by
  have hpos := List.length_pos_of_ne_nil hlog
  have hle := hrun.term_le
  cases h with
  | routine h => cases h <;> trivial
  | heartbeatSleep => show (0 : ℤ) ≤ rf.log.length - 1; omega
  | @raise job hlt =>
    cases job with
    | appendEntries call =>
      cases hrun with
      | raise => exact le_refl call.args.term
      | react h => exact absurd hlt h.not_lt
      | ignore h => exact absurd hlt h.not_gt
    | _ => trivial
  | appendEntries h => exact (h.ge.trans hle :)
  | demoteAppendEntries => exact le_trans hgr hle
  | _ => trivial

/-! ### `nextIndex`

A leader takes over the index of a refusal only if it is at least `1`, and that of a success is one
behind an index of its log. -/

omit [Inhabited α] in
/-- One round of the loop of `heartbeat`: a refusal is only taken over if its index is positive. -/
theorem Raft.adjustIndex_pos {rf rf' : Raft n α} {myLastIndex : ℤ}
    {replies : List AppendEntriesReply} {ID : Fin n} (hlast : 0 ≤ myLastIndex)
    (h : Raft.adjustIndex myLastIndex replies rf ID = some rf')
    (hrf : ∀ i ∈ rf.nextIndex, 1 ≤ i) : ∀ i ∈ rf'.nextIndex, 1 ≤ i := by
  have hset : ∀ {i v : ℤ} {ni : List ℤ}, GoSlice.set rf.nextIndex i v = some ni → 1 ≤ v →
      ∀ i ∈ ni, 1 ≤ i := by
    intro i v ni hni hv
    obtain ⟨k, _, _, rfl⟩ := GoSlice.set_eq_some_iff.mp hni
    intro i hi
    rcases List.mem_or_eq_of_mem_set hi with hi | rfl
    · exact hrf i hi
    · exact hv
  obtain ⟨reply, _, h⟩ := Option.bind_eq_some_iff.mp h
  split at h
  · obtain ⟨ni, hni, h⟩ := Option.bind_eq_some_iff.mp h
    obtain ⟨mi, _, h⟩ := Option.bind_eq_some_iff.mp h
    cases h
    exact hset hni (by omega)
  · split at h
    · rename_i hpos
      obtain ⟨ni, hni, h⟩ := Option.bind_eq_some_iff.mp h
      cases h
      exact hset hni hpos
    · cases h
      exact hrf

theorem Raft.make_nextIndex (gob : Labgob n α) (p : Fin n) (persister : List UInt8) :
    (Raft.make gob p persister).nextIndex = [] := by
  obtain ⟨_, _, _, h⟩ := Raft.make_eq gob p persister
  rw [h]

omit [Inhabited α] in
/-- The step lemma for `nextIndex`. -/
theorem Runs.nextIndex_pos {gr : Goroutine n α} {e : Effect n α} (h : Runs gob rf gr e)
    (hgr : gr.Current rf) (hlog : rf.log ≠ []) (hrf : ∀ i ∈ rf.nextIndex, 1 ≤ i) :
    ∀ i ∈ e.rf.nextIndex, 1 ≤ i := by
  have hpos := List.length_pos_of_ne_nil hlog
  cases h with
  | initLeader =>
    intro i hi
    rw [List.eq_of_mem_replicate hi]
    omega
  | commit _ hadjust hcommit =>
    have hadj := Raft.adjustIndices_induction (P := fun r => ∀ i ∈ r.nextIndex, 1 ≤ i) hadjust hrf
      fun ID _ r r' hr hr' => Raft.adjustIndex_pos hgr hr' hr
    rcases Raft.commitPhase_eq_some hcommit with ⟨rfl, _⟩ | ⟨_, _, _, _, rfl, _⟩ <;> exact hadj
  | merge hprev hterm hr =>
    obtain ⟨_, _, _, _, _, _, hr⟩ := mergeLog_at hprev hr
    rw [hr]
    exact hrf
  | applyEntries h => obtain rfl := Raft.applyEntries_eq_some h; exact hrf
  | react | ignore | demote | demoteSame => simpa using hrf
  | _ => exact hrf

namespace Cluster

variable [DecidableEq α] {ok : Cfg n α → Action n α → Prop} {c c' : Cfg n α} {a : Action n α}
  {p : Fin n} {gs : List (Goroutine n α)}

theorem current_of_reachable (hc : (system gob).Reachable ok c)
    (hnd : c.state.node p = .up rf gs) : ∀ gr ∈ gs, gr.Current rf := by
  refine node_invariant (I := fun _ _ nd => ∀ rf gs, nd = .up rf gs → ∀ gr ∈ gs, gr.Current rf)
    (fun _ => nofun) (fun _ _ _ _ _ _ h => h) ?_ hc p rf gs hnd
  intro c a c' p nd es hc hI ha hn _ hstep hnd' rf' gs' hup gr' hgr'
  subst hup
  have hle : ∀ rf gs, c.state.node p = .up rf gs → rf.currentTerm ≤ rf'.currentTerm := by
    intro rf gs hnd
    have := (saved_monotone hc hn p).1
    rwa [← durable_eq_saved hc hnd, ← durable_eq_saved (hc.tail ha hn) hnd'] at this
  have horigin := hstep.origin hgr'
  generalize hnd : c.state.node p = nd₀ at horigin
  cases horigin with
  | kept hg => exact (hI p _ _ hnd _ hg).mono (hle _ _ hnd)
  | @spawned rf gs gr _ e hat hrun hnext =>
    have hlog : rf.log ≠ [] := by
      have := saved_log_ne_nil hc p
      rwa [← durable_eq_saved hc hnd] at this
    rcases runs_of_at hn hnd hat with ⟨e', _, hrun', hup, _⟩ | ⟨_, _, hdown, _⟩
    · cases hnd'.symm.trans hup
      exact (hrun.spawns hnext).current hrun' (hI p _ _ hnd _ hat.mem) hlog
    · cases hnd'.symm.trans hdown
  | answered hg => exact (hI p _ _ hnd _ hg :)
  | interrupted h => rcases h with rfl | ⟨_, rfl, _⟩ <;> trivial
  | _ => trivial

/-! ### The invariant

Logs, messages and goroutines go together: a log is merged from a message, a message is split off a
log, and a handler holds a message. -/

theorem candidacy_pos (hc : (system gob).Reachable ok c) {T : ℕ}
    (h : .candidacy p T ∈ c.trace) : 1 ≤ T := by
  refine System.Reachable.invariant (M := system gob)
    (P := fun c => ∀ p T, .candidacy p T ∈ c.trace → 1 ≤ T) nofun ?_ hc p T h
  intro c a c' _ hI _ hn p T h
  rcases emits_of_next hn h with h | ⟨q, nd, nd', es, _, hemits⟩
  · exact hI p T h
  · cases hemits with
    | candidacy => exact Nat.succ_pos _

/-- A leader has stood for a term, and that is not term `0`. -/
theorem term_pos_of_leader (hc : (system gob).Reachable ok c) (hnd : c.state.node p = .up rf gs)
    (hl : rf.phase = .leader) : 1 ≤ rf.currentTerm := by
  refine struct_invariant (I := fun _ rf => rf.phase = .leader → 1 ≤ rf.currentTerm) ?_ hc hnd hl
  intro c a p rf' hc _ hI hs hl
  have hsrc := (inFlight_of_reachable hc).node p
  have hcand := fun T => candidacy_le (p := p) (T := T) hc
  generalize hnd : c.state.node p = nd at hI hs hsrc
  cases hs with
  | make => exact absurd hl (Raft.make_phase gob p _)
  | same => exact hI _ _ rfl hl
  | kill => cases hl
  | start h => exact (hI _ _ rfl h :)
  | @run rf gs gr e hat h =>
    rcases h.leads (hsrc.2 _ hat.mem) hl with ⟨hl, _⟩ | ⟨election, _, rfl, _, _, _, ht, _⟩
    · exact (hI _ _ rfl hl).trans h.term_le
    · have hc₁ := hsrc.2 _ hat.mem
      have := hcand _ hc₁
      rw [← durable_eq_saved hc hnd] at this
      exact ht ▸ (candidacy_pos hc hc₁).trans this

/-- Logs and messages, together. -/
structure WellFormed (gob : Labgob n α) (c : Cfg n α) : Prop where
  saved : ∀ p, LogWF (saved gob c p).1 (saved gob c p).2.2
  /-- The sender was in the term of the message, and terms do not fall. -/
  sent : ∀ call, .sent (.appendEntries call) ∈ c.trace →
    ArgsWF call.args ∧ call.args.term ≤ (Cluster.saved gob c call.args.leaderID).1

/-- The step lemma for the durable logs. -/
theorem WellFormed.saved_next (hI : WellFormed gob c) (hc : (system gob).Reachable ok c)
    (hn : (system gob).next c a = some c') (q : Fin n) :
    LogWF (Cluster.saved gob c' q).1 (Cluster.saved gob c' q).2.2 := by
  cases saved_cases hc hn with
  | quiet _ hs _ => rw [hs]; exact hI.saved q
  | @write p rf gs gr es _ hnd ha hw hs =>
    rcases eq_or_ne q p with rfl | hq
    · have hlog : LogWF rf.currentTerm rf.log := by
        have := hI.saved q
        rwa [← durable_eq_saved hc hnd] at this
      have hsrc := (inFlight_of_reachable hc).node q
      rw [hnd] at hsrc
      generalize Cluster.saved gob c' q = d at hw
      cases hw with
      | start hl => exact hlog.concat (term_pos_of_leader hc hnd hl) _
      | campaign => exact hlog.mono (Nat.le_succ _)
      | raise hlt => exact hlog.mono hlt.le
      | vote => exact hlog
      | merge hk hprev hterm =>
        have hargs := (hI.sent _ (hsrc.2 _ ha.mem).1).1
        exact hlog.merge hargs (current_of_reachable hc hnd _ ha.mem) hprev hterm
    · rw [hs q hq]; exact hI.saved q

theorem wellFormed_of_reachable (hc : (system gob).Reachable ok c) : WellFormed gob c := by
  refine System.Reachable.invariant (M := system gob) ?_ ?_ hc
  · refine ⟨fun p => ?_, nofun⟩
    rw [Cluster.saved, system, System.start, Node.persister, Raft.make_nil_durable]
    exact logWF_default
  · intro c a c' hc hI _ hn
    refine ⟨hI.saved_next hc hn, fun call hcall => ?_⟩
    rcases emits_of_next hn hcall with hcall | ⟨p, nd, nd', es, hnd, hemits⟩
    · obtain ⟨hargs, hle⟩ := hI.sent call hcall
      exact ⟨hargs, hle.trans (saved_monotone hc hn _).1⟩
    · have hlog := hI.saved p
      cases hemits with
      | @sent rf gs gs' gr e _ ha hrun hcall =>
        rw [← durable_eq_saved hc hnd] at hlog
        have hsend := hrun.sends hcall
        generalize e.rf = rf' at hsend
        cases hsend with
        | appendEntries _ _ _ hargs =>
          refine ⟨hlog.args hargs, ?_⟩
          have hmono := (saved_monotone hc hn p).1
          rw [← durable_eq_saved hc hnd] at hmono
          obtain ⟨_, _, _, _, _, _, heq⟩ := Raft.appendEntriesArgs_eq_some hargs
          rw [heq, me_of_reachable hc hnd]
          exact hmono

theorem nextIndex_pos (hc : (system gob).Reachable ok c) (hnd : c.state.node p = .up rf gs) :
    ∀ i ∈ rf.nextIndex, 1 ≤ i := by
  refine struct_invariant (I := fun _ rf => ∀ i ∈ rf.nextIndex, 1 ≤ i) ?_ hc hnd
  intro c a p rf' hc _ hI hs
  generalize hnd : c.state.node p = nd at hI hs
  cases hs with
  | make => rw [Raft.make_nextIndex]; exact nofun
  | same => exact hI _ _ rfl
  | kill => exact (hI _ _ rfl :)
  | start => exact (hI _ _ rfl :)
  | @run rf gs gr e hat h =>
    have hlog : rf.log ≠ [] := by
      have := saved_log_ne_nil hc p
      rwa [← durable_eq_saved hc hnd] at this
    exact h.nextIndex_pos (current_of_reachable hc hnd _ hat.mem) hlog (hI _ _ rfl)

/-- **Logs and messages are well formed** at the end of every run, and so after each of its steps:
the log of every peer, live or saved, with respect to its `currentTerm`; the `nextIndex` of every
peer (the slice is `nil` until `initLeader`); and every `AppendEntries` message in flight, whose
term is at most the `currentTerm` of the peer that sent it. -/
theorem logs_and_messages_wellFormed (gob : Labgob n α) (as : List (Action n α)) (c : Cfg n α)
    (h : (system gob).exec (system gob).start as = some c) :
    (∀ p rf gs, c.state.node p = .up rf gs →
      LogWF rf.currentTerm rf.log ∧ ∀ i ∈ rf.nextIndex, 1 ≤ i) ∧
    (∀ p, LogWF (saved gob c p).1 (saved gob c p).2.2) ∧
    ∀ call, .appendEntries call ∈ c.state.net → ArgsWF call.args ∧
      call.args.term ≤ (saved gob c call.args.leaderID).1 ∧
      ∀ rf gs, c.state.node call.args.leaderID = .up rf gs → call.args.term ≤ rf.currentTerm := by
  have hc := System.reaches_of_exec h
  have hwf := wellFormed_of_reachable hc
  refine ⟨fun p rf gs hnd => ⟨?_, nextIndex_pos hc hnd⟩, hwf.saved, fun call hcall => ?_⟩
  · have := hwf.saved p
    rwa [← durable_eq_saved hc hnd] at this
  · obtain ⟨hargs, hle⟩ := hwf.sent call ((inFlight_of_reachable hc).net _ hcall)
    refine ⟨hargs, hle, fun rf gs hnd => ?_⟩
    rwa [← durable_eq_saved hc hnd] at hle

/-- At the end of `ackRun` peer `1` has a log of two entries, peer `0` has run `initLeader`, and a
message is in flight. -/
theorem logs_and_messages_wellFormed_ackRun :
    ∃ c rf₀ rf₁ gs₀ gs₁ call,
      (system (Labgob.unary 3)).exec (system (Labgob.unary 3)).start ackRun = some c ∧
      c.state.node 0 = .up rf₀ gs₀ ∧ c.state.node 1 = .up rf₁ gs₁ ∧
      (rf₀.nextIndex = [1, 2, 1] ∧ ∀ i ∈ rf₀.nextIndex, 1 ≤ i) ∧
      (rf₁.log = [⟨0, 0⟩, ⟨1, 7⟩] ∧ LogWF rf₁.currentTerm rf₁.log) ∧
      .appendEntries call ∈ c.state.net ∧ ArgsWF call.args := by
  obtain ⟨c, hc, h⟩ := exists_of_exec (Labgob.unary 3) ackRun
    (fun c => decide (.appendEntries ⟨2, ⟨1, 2, 1⟩, ⟨1, 0, 0, 0, [⟨1, 7⟩], 0⟩⟩ ∈ c.state.net) &&
      ((c.state.node 0).check (fun rf => decide (rf.nextIndex = [1, 2, 1])) &&
      (c.state.node 1).check fun rf => decide (rf.log = ([⟨0, 0⟩, ⟨1, 7⟩] : List (LogEntry ℕ)))))
    (by decide +kernel)
  obtain ⟨hnet, h⟩ := (Bool.and_eq_true _ _).mp h
  obtain ⟨rf₀, rf₁, gs₀, gs₁, hnd₀, hnd₁, hni, hlog⟩ := Node.exists_of_checks h
  have hp := of_decide_eq_true hnet
  have hwf := logs_and_messages_wellFormed (Labgob.unary 3) ackRun c hc
  exact ⟨c, rf₀, rf₁, gs₀, gs₁, _, hc, hnd₀, hnd₁, ⟨hni, (hwf.1 0 rf₀ gs₀ hnd₀).2⟩,
    ⟨hlog, (hwf.1 1 rf₁ gs₁ hnd₁).1⟩, hp, (hwf.2.2 _ hp).1⟩

end Cluster

end Distsys
