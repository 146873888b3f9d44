import Distsys.Raft.Reelection

/-!
# A heartbeat

A leader sends its entries to all peers, one follower handles them and replies, and at the end of
the heartbeat the leader adjusts its indices with this reply and the zero values of the others. What
is left of the calls to the other peers does not matter.

## What is known during a heartbeat

The leader sleeps between its two critical sections, and the goroutines of its calls exist
meanwhile. Of these only the one to the follower `q` is run. The rules are those of a part of a
cluster, so the other calls need not be mentioned: their goroutines and packets are in the
configuration, and nobody asks for them.

`can_beat` has as parameters what the follower is before and what it replies. The two ways in which
it can reply are worked out separately and put in there.

## Main definitions

* `Raft.catchUp` — the struct of a peer behind `termSync`
* `Cluster.Beaten` — what a heartbeat changes
* `Cluster.AtBeat`, `Cluster.CatchesUp` — before a heartbeat, and what the heartbeats are to lead to

## Main results

* `Raft.appendEntries_merges`, `Raft.appendEntries_refuses` — the two answers of a follower
* `Cluster.can_beat`
* `Cluster.reaches_exchange` — a heartbeat to which one peer replies is `Raft.exchange` and the
  commit phase
* `Cluster.catchesUp_of_ready` — so the fast log backup is one of a run
-/

namespace Distsys

variable {n : ℕ} {α : Type} {gob : Labgob n α}

namespace Raft

variable {rf : Raft n α}

/-! ### One answer

A follower that gets the request learns of the term if it has to, and then merges or refuses. Either
way it replies, and the reply is what the leader has when its heartbeat wakes up. -/

/-- The struct of a follower that has learned of term `T`. -/
def catchUp (gob : Labgob n α) (rf : Raft n α) (T : ℕ) : Raft n α :=
  if rf.currentTerm < T then persist gob { rf with currentTerm := T, votedFor := none } else rf

theorem catchUp_eq (gob : Labgob n α) {T : ℕ} (h : rf.currentTerm ≤ T) :
    ∃ persister votedFor, rf.catchUp gob T = { rf with persister, currentTerm := T, votedFor } := by
  unfold catchUp
  split
  · exact ⟨_, _, rfl⟩
  · obtain rfl : rf.currentTerm = T := by omega
    exact ⟨_, _, rfl⟩

/-- The body of `AppendEntries` on a message that fits. -/
theorem appendEntries_merges (gob : Labgob n α) {args : AppendEntriesArgs n α} {k : ℕ}
    (hk : args.prevLogIndex = k) {prev : LogEntry α} (hprev : rf.log[k]? = some prev)
    (hterm : prev.term = args.prevLogTerm) :
    rf.appendEntries gob args = some {
      rf := persist gob { rf with
        log := rf.log.take (k + 1) ++ args.entries
        commitIndex := max rf.commitIndex (min args.leaderCommit (k + args.entries.length)) }
      success := true
      nextIndex := 0
      commits := decide (rf.commitIndex < min args.leaderCommit (k + args.entries.length)) } := by
  have hlt := (List.getElem?_eq_some_iff.mp hprev).1
  have hkept : GoSlice.upTo rf.log (args.prevLogIndex + 1) = some (rf.log.take (k + 1)) :=
    GoSlice.upTo_eq_some_iff.mpr ⟨k + 1, by omega, hlt, rfl⟩
  obtain ⟨r, hr⟩ : ∃ r, rf.mergeLog gob args = some r := by
    simp only [mergeLog, hkept, Option.bind_eq_bind, Option.bind_some]
    split <;> exact ⟨_, rfl⟩
  have hget : GoSlice.get rf.log args.prevLogIndex = some prev := by
    rw [hk, GoSlice.get_natCast, hprev]
  have happend : rf.appendEntries gob args = rf.mergeLog gob args := by
    rw [appendEntries, if_pos (by omega), hget]
    exact if_pos hterm
  obtain ⟨k', hk', _, heq⟩ := mergeLog_eq_some hr
  obtain rfl : k' = k + 1 := by omega
  rw [happend, hr, heq]
  have hcast : ((k + 1 : ℕ) : ℤ) + args.entries.length - 1 = k + args.entries.length := by
    push_cast
    omega
  rw [hcast]

/-- The body of `AppendEntries` on a message that does not fit: the index it names is smaller. -/
theorem appendEntries_refuses (gob : Labgob n α) {args : AppendEntriesArgs n α} {k : ℕ}
    (hk : args.prevLogIndex = k) (hpos : 1 ≤ k) (hlog : rf.log ≠ [])
    (hne : ∀ prev, rf.log[k]? = some prev → prev.term ≠ args.prevLogTerm) :
    ∃ i : ℤ, rf.appendEntries gob args = some ⟨rf, false, i, false⟩ ∧ 1 ≤ i ∧ i ≤ k := by
  obtain ⟨r, hr, hanswers⟩ := appendEntries_answers gob rf hk
  cases hanswers with
  | merge hprev hterm => exact absurd hterm (hne _ hprev)
  | @conflict prev nextIndex hprev _ hscan =>
    refine ⟨nextIndex, hr, ?_⟩
    have hlt := (List.getElem?_eq_some_iff.mp hprev).1
    rcases conflictScan_cases rf.log (t := prev.term) (p := (k : ℤ)) hlt.le with
      ⟨hscan', _⟩ | ⟨i, _, hi, _, _, hscan'⟩
    · cases hscan.symm.trans hscan'
      omega
    · cases hscan.symm.trans hscan'
      omega
  | short h =>
    have := List.length_pos_of_ne_nil hlog
    exact ⟨_, hr, by omega, by omega⟩

end Raft

namespace Cluster

variable [Inhabited α] [DecidableEq α] {base : Cfg n α} {Q : Finset (Fin n)} {D : Part n α}
  {ok : Cfg n α → Action n α → Prop} [Permits ok]

omit [Permits ok] in
/-- A goroutine of `q` hands over to another one, and the rest of `q` waits for its turn. -/
theorem can_hand {q : Fin n} {rf rf' : Raft n α} {x y : Goroutine n α} {X : Set (Goroutine n α)}
    {r : ℕ} (hq : q ∈ Q) (hX : X ⊆ {.applyEntries}) (hx : x ≠ .applyEntries)
    (hrun : x.run gob rf = some (.ok { rf := rf', next := [y], resets := r }))
    (hallows : Allows ok rf x) :
    (system gob).Can ok (Holds base Q (D.put q rf (insert x X) []))
      (Holds base Q (D.put q rf' (insert y X) [])) := by
  refine can_run_put hq (Set.mem_insert _ _) hrun hallows ?_
  rintro z (rfl | hz)
  · exact Or.inl (List.mem_singleton_self _)
  · refine Or.inr ⟨z, Set.mem_insert_of_mem _ hz, ?_, rfl⟩
    rintro rfl
    exact hx (hX hz)

/-- A handler of `AppendEntries` gets to its body, with or without a new term. -/
theorem can_reach_body (call : EntriesCall n α) {q : Fin n} {rf : Raft n α}
    {X : Set (Goroutine n α)} (hq : q ∈ Q) (hX : X ⊆ {.applyEntries})
    (hphase : rf.currentTerm < call.args.term → rf.phase = .follower)
    (hterm : rf.currentTerm ≤ call.args.term) :
    (system gob).Can ok
      (Holds base Q (D.put q rf (insert (.termSync (.appendEntries call)) X) []))
      (Holds base Q (D.put q (rf.catchUp gob call.args.term)
        (insert (.appendEntries call rf.currentTerm) X) [])) := by
  rcases hterm.lt_or_eq with hlt | heq
  · rw [Raft.catchUp, if_pos hlt]
    have hsync : (Goroutine.termSync (.appendEntries call)).run gob rf = some (.ok {
        rf := Raft.persist gob { rf with currentTerm := call.args.term, votedFor := none }
        next := [.demote (.appendEntries call) rf.currentTerm] }) := by
      simp [Goroutine.run, Job.sync, Raft.termSync, Job.otherTerm, hlt]
    refine (can_hand hq hX (by simp) hsync (Permits.allows _ _ rfl rfl rfl rfl)).trans
      (can_hand hq hX (by simp) (r := 1) ?_ (Permits.allows _ _ rfl rfl rfl rfl))
    simp [Goroutine.run, Raft.phaseChangeGo, Raft.phaseChange, Raft.persist, hphase hlt, Job.react]
  · rw [Raft.catchUp, if_neg (by omega)]
    refine can_hand (r := 1) hq hX (by simp) ?_ (Permits.allows _ _ rfl rfl rfl rfl)
    simp [Goroutine.run, Job.sync, Raft.termSync, Job.otherTerm, heq, Job.react]

/-- A follower handles a call of `AppendEntries`. -/
theorem can_append (call : EntriesCall n α) {q : Fin n} {rf : Raft n α} {X : Set (Goroutine n α)}
    (hq : q ∈ Q) (hserver : call.server = q) (hk : .appendEntries call ∈ D.net)
    (hrf : D.rf q = rf) (hgs : D.gs q = X) (hX : X ⊆ {.applyEntries})
    (hphase : rf.currentTerm < call.args.term → rf.phase = .follower)
    (hterm : rf.currentTerm ≤ call.args.term) {r : Raft.AppendResult n α}
    (hr : (rf.catchUp gob call.args.term).appendEntries gob call.args = some r)
    (hallows : Allows ok (rf.catchUp gob call.args.term) (.appendEntries call rf.currentTerm)) :
    (system gob).Can ok (Holds base Q D) (Holds base Q ((D.take (.appendEntries call)).put q
      r.rf {gr | gr = .applyEntries ∧ (gr ∈ X ∨ r.commits = true)}
      [.sent (.appendEntriesReply call ⟨rf.currentTerm, r.success, r.nextIndex⟩)])) := by
  subst hserver hrf hgs
  refine (can_deliver_appendEntries hq hk).trans ((can_reach_body call hq hX hphase hterm).trans ?_)
  refine can_run_put hq (Set.mem_insert _ _) (e := {
      rf := r.rf
      next := if r.commits then [.applyEntries] else []
      events := [.sent (.appendEntriesReply call
        ⟨(D.rf call.server).currentTerm, r.success, r.nextIndex⟩)] }) ?_ hallows ?_
  · simp [Goroutine.run, Raft.runAppendEntries, hr]
  · rintro y ⟨rfl, hy | hy⟩
    · exact Or.inr ⟨_, Set.mem_insert_of_mem _ hy, by simp, rfl⟩
    · exact Or.inl (by simp [hy])

/-- The goroutines of a leader during a heartbeat: the heartbeat itself, with the replies so far,
the call to one peer, and `applyEntries` if it was there. -/
def beating (X : Set (Goroutine n α)) (replies : List AppendEntriesReply)
    (call : EntriesCall n α) : Set (Goroutine n α) :=
  {gr | gr = .heartbeatSleep call.beat replies ∨ gr = .callAppendEntries call ∨
    gr = .applyEntries ∧ gr ∈ X}

omit [Permits ok] in
/-- A leader sends its heartbeat. -/
theorem can_send {L q : Fin n} {election b : ℕ} (hL : L ∈ Q) (hne : q ≠ L)
    (hme : (D.rf L).me = L) (hphase : (D.rf L).phase = .leader)
    (hx : .heartbeat election b ∈ D.gs L) (hallows : Allows ok (D.rf L) (.heartbeat election b))
    (hcalls : ∀ ID, ID ≠ L → ∃ args, (D.rf L).appendEntriesArgs ID = some args)
    {args : AppendEntriesArgs n α} (hargs : (D.rf L).appendEntriesArgs q = some args)
    {call : EntriesCall n α}
    (hcall : call = ⟨q, ⟨election, b, (D.rf L).log.length - 1⟩, args⟩) :
    (system gob).Can ok (Holds base Q D) (Holds base Q (D.put L (D.rf L)
      (beating (D.gs L) (List.replicate n default) call) [.sent (.appendEntries call)])) := by
  obtain ⟨calls, hmap⟩ := exists_mapM_eq_some (l := Raft.others (D.rf L).me)
    (f := fun ID => ((D.rf L).appendEntriesArgs ID).map (EntriesCall.mk ID call.beat))
    fun ID hID => by
      obtain ⟨args, hargs⟩ := hcalls ID (hme ▸ Raft.mem_others.mp hID)
      exact ⟨_, by rw [hargs]; rfl⟩
  obtain ⟨call', hmem, heq⟩ :=
    exists_of_mapM_eq_some hmap (Raft.mem_others.mpr (hme.symm ▸ hne))
  have hcall' : call' = call := by
    rw [hargs] at heq
    rw [← Option.some.inj heq, hcall]
  rw [hcall'] at hmem
  refine (can_run (X := beating (D.gs L) (List.replicate n default) call) hL hx (e := {
      rf := D.rf L
      next := .heartbeatSleep call.beat (List.replicate n default) :: calls.map .callAppendEntries
      events := calls.map fun call => .sent (.appendEntries call) }) ?_ hallows ?_).trans
    (System.Can.of_imp fun c hc => hc.of_put ?_)
  · subst hcall
    simp only [Goroutine.run, Raft.runHeartbeat, hphase, ne_eq, not_true_eq_false, if_false]
    rw [hmap]
  · rintro y (rfl | rfl | ⟨rfl, hy⟩)
    · exact Or.inl List.mem_cons_self
    · exact Or.inl (List.mem_cons_of_mem _ (List.mem_map_of_mem hmem))
    · exact Or.inr ⟨_, hy, by simp, rfl⟩
  · intro e he
    rw [List.mem_singleton.mp he]
    exact List.mem_map_of_mem hmem

/-- The leader gets one reply, and at the end of the heartbeat it adjusts its indices. -/
theorem can_settle (call : EntriesCall n α) (reply : AppendEntriesReply) (leader : Raft n α)
    (commits : Bool) {L : Fin n} {X : Set (Goroutine n α)} (hL : L ∈ Q)
    (hleader : call.args.leaderID = L)
    (hphase : (D.rf L).phase = .leader)
    (hallows : ∀ replies, Allows ok (D.rf L) (.heartbeatSleep call.beat replies))
    (hgs : D.gs L = beating X (List.replicate n default) call)
    (hk : .appendEntriesReply call reply ∈ D.net)
    (hcommit : ((D.rf L).adjustIndices call.beat.myLastIndex
      ((List.replicate n default).set call.server reply)).bind Raft.commitPhase =
        some (leader, commits)) :
    (system gob).Can ok (Holds base Q D) (Holds base Q
      ((D.take (.appendEntriesReply call reply)).put L leader
        {gr | gr = .heartbeat call.beat.election (call.beat.beatNumber + 1) ∨
          gr = .applyEntries ∧ (gr ∈ X ∨ commits = true)} [])) := by
  refine (can_deliver_appendEntriesReply (X := {gr |
      gr = .heartbeatSleep call.beat ((List.replicate n default).set call.server reply) ∨
        gr = .applyEntries ∧ gr ∈ X}) hL hleader hk ?_ ?_).trans ?_
  · rw [hgs]
    exact Or.inr (Or.inl rfl)
  · rintro y (rfl | ⟨rfl, hy⟩)
    · exact ⟨.heartbeatSleep call.beat (List.replicate n default), hgs ▸ Or.inl rfl, by simp,
        by simp [Goroutine.pushReply]⟩
    · exact ⟨.applyEntries, hgs ▸ Or.inr (Or.inr ⟨rfl, hy⟩), by simp, rfl⟩
  refine can_run_put hL (Or.inl rfl) (e := {
      rf := leader
      next := .heartbeat call.beat.election (call.beat.beatNumber + 1)
        :: if commits then [.applyEntries] else [] }) ?_ (hallows _) ?_
  · simp [Goroutine.run, Raft.runCommit, hphase, hcommit]
  · rintro y (rfl | ⟨rfl, hy | hy⟩)
    · exact Or.inl List.mem_cons_self
    · exact Or.inr ⟨.applyEntries, Or.inr ⟨rfl, hy⟩, by simp, rfl⟩
    · exact Or.inl (by simp [hy])

/-- What a heartbeat leaves behind to which only `q` has replied. -/
structure Beaten (L q : Fin n) (leader follower : Raft n α) (XL Xq : Set (Goroutine n α))
    (D D' : Part n α) : Prop where
  leader : D'.rf L = leader
  leaderGs : D'.gs L = XL
  follower : D'.rf q = follower
  followerGs : D'.gs q = Xq
  /-- Peers that did not reply have not moved. -/
  others : ∀ p, p ≠ L → p ≠ q → D'.rf p = D.rf p ∧ D'.gs p = D.gs p
  trace : D.trace ⊆ D'.trace

/-- A call of `AppendEntries` at `q` and its reply are among the events. -/
def Answered (q : Fin n) (args : AppendEntriesArgs n α) (reply : AppendEntriesReply)
    (es : Set (Event n α)) : Prop :=
  ∃ call : EntriesCall n α, call.server = q ∧ call.args = args ∧
    .sent (.appendEntries call) ∈ es ∧ .sent (.appendEntriesReply call reply) ∈ es

/-- **One heartbeat.** A leader sends its entries, one follower handles them and replies, and the
leader adjusts its indices. -/
theorem can_beat {L q : Fin n} {election b : ℕ} (hL : L ∈ Q) (hq : q ∈ Q) (hne : q ≠ L)
    (hme : (D.rf L).me = L) (hphase : (D.rf L).phase = .leader)
    (hx : .heartbeat election b ∈ D.gs L)
    (hbeats : ∀ gr : Goroutine n α, gr.heartbeat? = some election → Allows ok (D.rf L) gr)
    (hcalls : ∀ ID, ID ≠ L → ∃ args, (D.rf L).appendEntriesArgs ID = some args)
    {args : AppendEntriesArgs n α} (hargs : (D.rf L).appendEntriesArgs q = some args)
    (hgs : D.gs q ⊆ {.applyEntries})
    (hfollower : (D.rf q).currentTerm < (D.rf L).currentTerm → (D.rf q).phase = .follower)
    (hterm : (D.rf q).currentTerm ≤ (D.rf L).currentTerm) {r : Raft.AppendResult n α}
    (hr : ((D.rf q).catchUp gob (D.rf L).currentTerm).appendEntries gob args = some r)
    (hallows : ∀ call : EntriesCall n α, call.args = args →
      Allows ok ((D.rf q).catchUp gob (D.rf L).currentTerm)
        (.appendEntries call (D.rf q).currentTerm))
    {leader : Raft n α} {commits : Bool}
    (hcommit : ((D.rf L).adjustIndices ((D.rf L).log.length - 1) ((List.replicate n default).set q
      ⟨(D.rf q).currentTerm, r.success, r.nextIndex⟩)).bind Raft.commitPhase =
        some (leader, commits)) :
    (system gob).Can ok (Holds base Q D) fun c => ∃ D', Holds base Q D' c ∧
      Beaten L q leader r.rf
        {gr | gr = .heartbeat election (b + 1) ∨
          gr = .applyEntries ∧ (gr ∈ D.gs L ∨ commits = true)}
        {gr | gr = .applyEntries ∧ (gr ∈ D.gs q ∨ r.commits = true)} D D' ∧
      Answered q args ⟨(D.rf q).currentTerm, r.success, r.nextIndex⟩ D'.trace := by
  obtain ⟨_, _, _, _, _, _, hargs'⟩ := Raft.appendEntriesArgs_eq_some hargs
  have hargsTerm : args.term = (D.rf L).currentTerm := by rw [hargs']
  have hargsLeader : args.leaderID = L := by rw [hargs', hme]
  obtain ⟨call, hcall⟩ : ∃ call : EntriesCall n α,
    call = ⟨q, ⟨election, b, (D.rf L).log.length - 1⟩, args⟩ := ⟨_, rfl⟩
  have hcallArgs : call.args = args := by rw [hcall]
  have hcallTerm : call.args.term = (D.rf L).currentTerm := by rw [hcallArgs, hargsTerm]
  refine (can_send hL hne hme hphase hx (hbeats _ rfl) hcalls hargs hcall).trans ?_
  refine (can_append call (r := r) hq (by rw [hcall])
    (Part.mem_net_put (List.mem_singleton_self _)) (Part.rf_put_of_ne hne)
    (Part.gs_put_of_ne hne) hgs ?_ ?_ ?_ ?_).trans ?_
  · rw [hcallTerm]
    exact hfollower
  · rw [hcallTerm]
    exact hterm
  · rw [hcallTerm, hcallArgs]
    exact hr
  · rw [hcallTerm]
    exact hallows call hcallArgs
  refine (can_settle call ⟨(D.rf q).currentTerm, r.success, r.nextIndex⟩ leader commits
    (X := D.gs L) hL (by rw [hcallArgs]; exact hargsLeader) ?_ (fun replies => ?_) ?_
    (Part.mem_net_put (List.mem_singleton_self _)) ?_).trans
    (System.Can.of_imp fun c hc => ⟨_, hc, ?_, call, by rw [hcall], hcallArgs, ?_, ?_⟩)
  · rwa [Part.rf_put_of_ne hne.symm, Part.rf_take, Part.rf_put]
  · rw [Part.rf_put_of_ne hne.symm, Part.rf_take, Part.rf_put]
    exact hbeats _ (by rw [hcall]; rfl)
  · rw [Part.gs_put_of_ne hne.symm, Part.gs_take, Part.gs_put]
  · rw [Part.rf_put_of_ne hne.symm, Part.rf_take, Part.rf_put, hcall]
    exact hcommit
  · refine ⟨Part.rf_put, ?_, ?_, ?_, fun p hpL hpq => ⟨?_, ?_⟩, ?_⟩
    · rw [Part.gs_put, hcall]
    · rw [Part.rf_put_of_ne hne, Part.rf_take, Part.rf_put]
    · rw [Part.gs_put_of_ne hne, Part.gs_take, Part.gs_put]
    · rw [Part.rf_put_of_ne hpL, Part.rf_take, Part.rf_put_of_ne hpq, Part.rf_take,
        Part.rf_put_of_ne hpL]
    · rw [Part.gs_put_of_ne hpL, Part.gs_take, Part.gs_put_of_ne hpq, Part.gs_take,
        Part.gs_put_of_ne hpL]
    · exact fun e he => Or.inl (Or.inl (Or.inl he))
  · exact Or.inl (Or.inl (Or.inr (List.mem_singleton_self _)))
  · exact Or.inl (Or.inr (List.mem_singleton_self _))

/-! ### Exchanges

The fast log backup was described for two structs. Here each exchange becomes a heartbeat of a run:
the steps of the leader, of the network and of the follower, with everything else held back. -/

/-- The leader `L` is about to send the heartbeat `b` of the loop of an election, and `q` is up. -/
structure AtBeat (c : Cfg n α) (L q : Fin n) (leader follower : Raft n α) (election b : ℕ) :
    Prop where
  /-- The loop of the leader is at the start of a heartbeat. -/
  beats : ∃ gs, c.state.node L = .up leader gs ∧ .heartbeat election b ∈ gs
  phase : leader.phase = .leader
  up : ∃ gs, c.state.node q = .up follower gs

section

variable {c : Cfg n α} {L q : Fin n} {leader follower : Raft n α} {election b : ℕ}

/-- The part of a configuration that an exchange is about. -/
def AtBeat.part (L : Fin n) (leader follower : Raft n α) (election b : ℕ) : Part n α where
  rf p := if p = L then leader else follower
  gs p := if p = L then {.heartbeat election b} else ∅
  net := ∅
  trace := ∅

omit [Inhabited α] [DecidableEq α] in
theorem AtBeat.holds (h : AtBeat c L q leader follower election b) (hne : q ≠ L) :
    Holds c {L, q} (AtBeat.part L leader follower election b) c := by
  refine ⟨fun p hp => ?_, fun _ _ => rfl, fun _ hk => absurd hk (Set.notMem_empty _),
    [], (List.append_nil _).symm, fun _ he => absurd he (Set.notMem_empty _)⟩
  rcases Finset.mem_insert.mp hp with rfl | hp
  · obtain ⟨gs, hnd, hx⟩ := h.beats
    refine ⟨gs, by simpa [part] using hnd, fun gr hgr => ?_⟩
    obtain rfl : gr = .heartbeat election b := by simpa [part] using hgr
    exact hx
  · obtain rfl := Finset.mem_singleton.mp hp
    obtain ⟨gs, hnd⟩ := h.up
    exact ⟨gs, by simpa [part, hne] using hnd, fun gr hgr => by simp [part, hne] at hgr⟩

/-- In a run the arguments of every call of a heartbeat can be built. -/
theorem AtBeat.appendEntriesArgs (h : AtBeat c L q leader follower election b)
    (hc : (system gob).Reachable (fun _ _ => True) c) (ID : Fin n) :
    ∃ args, leader.appendEntriesArgs ID = some args := by
  obtain ⟨gs, hnd, hx⟩ := h.beats
  have hsized : leader.Sized := sized_of_reachable hc hnd _ hx
  have hlog := saved_log_ne_nil hc L
  rw [← durable_eq_saved hc hnd] at hlog
  exact hsized.appendEntriesArgs (nextIndex_pos hc hnd) hlog ID

/-- In a run the commit phase at the end of a heartbeat does not panic. -/
theorem AtBeat.commitPhase (h : AtBeat c L q leader follower election b) (hn : 2 ≤ n)
    (hc : (system gob).Reachable (fun _ _ => True) c) {myLastIndex : ℤ}
    {replies : List AppendEntriesReply} {leader' : Raft n α}
    (hadjust : leader.adjustIndices myLastIndex replies = some leader') :
    ∃ commitIndex commits,
      leader'.commitPhase = some ({ leader' with commitIndex }, commits) := by
  obtain ⟨gs, hnd, _⟩ := h.beats
  obtain ⟨_, _, rfl⟩ := Raft.adjustIndices_eq hadjust
  have hcommit : 0 ≤ leader.commitIndex := by
    have := indices_of_reachable hc hnd
    omega
  exact Raft.commitPhase_isSome hn _ hcommit

/-- The steps of an exchange, from the part of the configuration that they need. -/
theorem AtBeat.can_exchange (h : AtBeat c L q leader follower election b)
    (hc : (system gob).Reachable (fun _ _ => True) c) (hne : q ≠ L)
    (hterm : leader.currentTerm = follower.currentTerm) {args : AppendEntriesArgs n α}
    (hargs : leader.appendEntriesArgs q = some args) {r : Raft.AppendResult n α}
    (hr : follower.appendEntries gob args = some r) {leader' : Raft n α} {commits : Bool}
    (hcommit : (leader.adjustIndices (leader.log.length - 1) ((List.replicate n default).set q
      ⟨follower.currentTerm, r.success, r.nextIndex⟩)).bind Raft.commitPhase =
        some (leader', commits)) :
    (system gob).Can (fun _ _ => True)
      (Holds c {L, q} (AtBeat.part L leader follower election b)) fun c' =>
        ∃ D', Holds c {L, q} D' c' ∧ D'.rf L = leader' ∧ D'.rf q = r.rf ∧
          .heartbeat election (b + 1) ∈ D'.gs L ∧
          Answered q args ⟨follower.currentTerm, r.success, r.nextIndex⟩ D'.trace := by
  obtain ⟨gs, hnd, _⟩ := h.beats
  obtain ⟨D, hD⟩ : ∃ D, D = AtBeat.part L leader follower election b := ⟨_, rfl⟩
  have hrfL : D.rf L = leader := by rw [hD]; exact if_pos rfl
  have hrfq : D.rf q = follower := by rw [hD]; exact if_neg hne
  have hcatch : follower.catchUp gob leader.currentTerm = follower := by
    rw [Raft.catchUp, if_neg (by omega)]
  have hx : .heartbeat election b ∈ D.gs L := by simp [hD, AtBeat.part]
  have hgs : D.gs q ⊆ {.applyEntries} := by simp [hD, AtBeat.part, hne]
  rw [← hD]
  subst hrfL hrfq
  refine (can_beat (by simp) (by simp) hne (me_of_reachable hc hnd) h.phase hx
    (fun _ _ _ _ _ _ _ _ => trivial) (fun ID _ => h.appendEntriesArgs hc ID) hargs hgs ?_
    hterm.ge ?_ (fun _ _ _ _ _ _ _ _ => trivial) hcommit).trans
    (System.Can.of_imp fun c' ⟨D', hD', hbeaten, hanswered⟩ =>
      ⟨D', hD', hbeaten.leader, hbeaten.follower, ?_, hanswered⟩)
  · omega
  · rw [hcatch]
    exact hr
  · rw [hbeaten.leaderGs]
    exact Or.inl rfl

/-- **`Raft.exchange` is what the cluster does.** Whenever a leader is about to send a heartbeat and
another peer is in the same term, the two of them and the network can take the steps of an exchange:
the call and the reply are sent, and the leader is left with the adjusted indices and whatever its
commit phase makes of them. -/
theorem reaches_exchange (hn : 2 ≤ n) (hc : (system gob).Reachable (fun _ _ => True) c)
    (h : AtBeat c L q leader follower election b) (hne : q ≠ L)
    (hterm : leader.currentTerm = follower.currentTerm) {x : Raft.Exchange n α}
    (hexchange : Raft.exchange gob q leader follower = some x) :
    ∃ c' commitIndex es, (system gob).Reaches (fun _ _ => True) c c' ∧
      AtBeat c' L q { x.leader with commitIndex } x.follower election (b + 1) ∧
      (∀ p, p ≠ L → p ≠ q → c'.state.node p = c.state.node p) ∧
      c'.trace = c.trace ++ es ∧ Answered q x.args x.reply {e | e ∈ es} := by
  obtain ⟨r, hargs, hr, hfollower, hreply, hadjust⟩ := Raft.exchange_eq_some hterm hexchange
  obtain ⟨commitIndex, commits, hcommit⟩ := h.commitPhase hn hc hadjust
  obtain ⟨c', hreach, D', hD', hleader, hfollower', hbeats, hanswered⟩ :=
    h.can_exchange hc hne hterm hargs hr
      (by rw [← hreply, hadjust]; exact hcommit) c (h.holds hne)
  obtain ⟨gsL, hndL, hgsL⟩ := hD'.up L (by simp)
  obtain ⟨gsq, hndq, _⟩ := hD'.up q (by simp)
  obtain ⟨es, htrace, hes⟩ := hD'.trace
  refine ⟨c', commitIndex, es, hreach, ⟨⟨gsL, ?_, hgsL _ hbeats⟩, ?_, gsq, ?_⟩,
    fun p hpL hpq => hD'.rest p (by simp [hpL, hpq]), htrace, ?_⟩
  · rw [hndL, hleader]
  · obtain ⟨_, _, hxleader⟩ := Raft.adjustIndices_eq hadjust
    rw [hxleader]
    exact h.phase
  · rw [hndq, hfollower', hfollower]
  · obtain ⟨call, hserver, hcallArgs, hsent, hsentReply⟩ := hanswered
    rw [← hreply] at hsentReply
    exact ⟨call, hserver, hcallArgs, hes _ hsent, hes _ hsentReply⟩

/-- The heartbeats up to number `b` can bring `q` to the log of the leader. -/
def CatchesUp (gob : Labgob n α) (c : Cfg n α) (L q : Fin n) (leader follower : Raft n α)
    (election b : ℕ) : Prop :=
  ∃ c' leader' follower' b', (system gob).Reaches (fun _ _ => True) c c' ∧
    AtBeat c' L q leader' follower' election b' ∧ b' ≤ b ∧ leader'.log = leader.log ∧
    follower'.log.length = leader.log.length ∧
    (LogsMatch follower.log leader.log → follower'.log = leader.log) ∧
    GoSlice.get leader'.nextIndex (q : ℕ) = some (leader.log.length : ℤ) ∧
    GoSlice.get leader'.matchIndex (q : ℕ) = some (leader.log.length - 1 : ℤ)

/-- **Fast log backup in a run.** From any configuration of a run in which a leader is about to send
a heartbeat, and for any other peer in the same term, the next heartbeats can bring that peer to the
log of the leader; there need be no more of them than the peer has terms, and two. -/
theorem catchesUp_of_ready (hn : 2 ≤ n) (hc : (system gob).Reachable (fun _ _ => True) c)
    (h : AtBeat c L q leader follower election b) {i : ℕ}
    (hready : Raft.Ready leader follower q i) :
    CatchesUp gob c L q leader follower election (b + (distinctTerms follower.log + 2)) := by
  obtain ⟨p, rfl⟩ := Nat.exists_eq_add_of_le' hready.pos
  refine hready.induction (W := fun leader _ k => ∀ (c : Cfg n α) (b : ℕ),
    (system gob).Reachable (fun _ _ => True) c → AtBeat c L q leader follower election b →
      CatchesUp gob c L q leader follower election (b + k)) ?_ c b hc h
  intro leader p k hready hrest c b hc h
  have hne : q ≠ L := by
    obtain ⟨_, hnd, _⟩ := h.beats
    exact me_of_reachable hc hnd ▸ hready.ne
  obtain ⟨x, hx, houtcome⟩ := Raft.exchange_outcome gob hready
  obtain ⟨c', commitIndex, _, hreach, hbeat, _⟩ := reaches_exchange hn hc h hne hready.term hx
  cases houtcome with
  | success _ _ hprev hprev' hterm hlog hleader =>
    obtain ⟨hlength, hlogs⟩ := hready.merged hprev hprev' hterm hlog
    refine ⟨c', _, _, b + 1, hreach, hbeat, by omega, ?_, hlength, hlogs, ?_, ?_⟩
    · rw [hleader]
    · rw [hleader, GoSlice.get_natCast, List.getElem?_set_self hready.lt_nextIndex]
    · rw [hleader, GoSlice.get_natCast, List.getElem?_set_self hready.matchIndex]
  | refusal _ _ _ hj hfollower hleader hcase =>
    rw [hleader, hfollower] at hbeat
    obtain ⟨c'', leader'', follower'', b'', hreach', hbeat', hle, hgoal⟩ :=
      hrest _ _ hcase ((hready.refused hj).commit commitIndex) c' (b + 1) (hc.trans hreach) hbeat
    exact ⟨c'', leader'', follower'', b'', hreach.trans hreach', hbeat', by omega, hgoal⟩

end

end Cluster

end Distsys
