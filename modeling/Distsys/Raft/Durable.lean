import Distsys.Raft.InFlight

/-!
# Durable state

`(currentTerm, votedFor, log)` of a peer that is up is at all times what `Make` would read back from
its `Persister`. Each of the five operations that write one of the three fields saves them before it
unlocks, and nothing else touches them.

The second half is the form in which the rest of the development uses this. `saved c p` is the
durable triple of peer `p`, up or down, and `saved_cases` lists the only ways in which a step can
change it, each with the event that announces it. Crashes and restarts do not appear in that list.

## Main definitions

* `Raft.durable`, `Cluster.saved`
* `Write` — the five writes of durable state
* `Event.Quiet` — the events of a step that writes nothing

## Main results

* `Cluster.durable_eq_saved` — volatile and durable state agree
* `Cluster.saved_cases` — the inversion of a step, seen from the durable state
-/

namespace Distsys

variable {n : ℕ} {α : Type} {gob : Labgob n α} {rf : Raft n α}

/-- The three fields that `persist` saves. -/
def Raft.durable (rf : Raft n α) : ℕ × Option (Fin n) × List (LogEntry α) :=
  (rf.currentTerm, rf.votedFor, rf.log)

theorem Raft.phaseChange_durable (rf : Raft n α) (ph : Phase) :
    (rf.phaseChange ph).1.durable = rf.durable := by
  unfold Raft.phaseChange
  split
  · rfl
  · split <;> rfl

section Make

variable [Inhabited α]

/-- A peer without saved state starts from term `0`, no vote and the log of one empty entry. -/
theorem Raft.make_nil_durable (gob : Labgob n α) (p : Fin n) :
    (Raft.make gob p []).durable = (0, none, [default]) := by
  rw [Raft.make, Raft.phaseChange_durable]
  rfl

theorem Raft.make_encode_durable (gob : Labgob n α) (p : Fin n) (t : ℕ) (v : Option (Fin n))
    (l : List (LogEntry α)) : (Raft.make gob p (gob.encode t v l)).durable = (t, v, l) := by
  rw [Raft.make, Raft.phaseChange_durable, Raft.boot, Raft.readPersist,
    if_neg (gob.encode_ne_nil t v l), gob.decode_encode]
  rfl

theorem Raft.make_persister (gob : Labgob n α) (p : Fin n) (persister : List UInt8) :
    (Raft.make gob p persister).persister = persister := by
  obtain ⟨_, _, _, h⟩ := Raft.make_eq gob p persister
  rw [h]

/-- `rf` agrees with what its `Persister` holds. -/
def Raft.InSync (gob : Labgob n α) (rf : Raft n α) : Prop :=
  rf.durable = (Raft.make gob rf.me rf.persister).durable

theorem Raft.inSync_make (gob : Labgob n α) (p : Fin n) (persister : List UInt8) :
    (Raft.make gob p persister).InSync gob := by
  rw [Raft.InSync, Raft.make_me, Raft.make_persister]

theorem Raft.inSync_persist (gob : Labgob n α) (rf : Raft n α) : (rf.persist gob).InSync gob :=
  (Raft.make_encode_durable gob rf.me rf.currentTerm rf.votedFor rf.log).symm

/-- A critical section that leaves the durable fields and the `Persister` alone keeps them in
sync. -/
theorem Raft.InSync.of_eq {rf' : Raft n α} (h : rf.InSync gob) (hme : rf'.me = rf.me)
    (hp : rf'.persister = rf.persister) (hd : rf'.durable = rf.durable) : rf'.InSync gob := by
  rw [Raft.InSync, hd, hme, hp]
  exact h

end Make

/-! ### The five writes

In the source: `Start`, `callElection`, `termSync`, `RequestVote` and `AppendEntries`. Each has its
own constructor of `Write`, with the events by which the rest of the development recognizes it. -/

/-- `Write gob rf gr es d`: from the struct `rf`, the durable fields become `d` and are saved, while
the events `es` are emitted. `gr` is the goroutine at work, `none` for a call of `Start`. -/
inductive Write (rf : Raft n α) :
    Option (Goroutine n α) → List (Event n α) → ℕ × Option (Fin n) × List (LogEntry α) → Prop where
  | start {command : α} (h : rf.phase = .leader) :
    Write rf none [.started rf.me command rf.log.length rf.currentTerm]
      (rf.currentTerm, rf.votedFor, rf.log ++ [⟨rf.currentTerm, command⟩])
  | campaign {es : List (Event n α)} (h : rf.phase = .candidate)
      (he : ∀ e ∈ es, e = .candidacy rf.me (rf.currentTerm + 1) ∨
        ∃ call last, e = .sent (.requestVote call) ∧
          GoSlice.get rf.log (rf.log.length - 1) = some last ∧
          call.args = ⟨rf.currentTerm + 1, rf.me, rf.log.length - 1, last.term⟩)
      (hc : .candidacy rf.me (rf.currentTerm + 1) ∈ es) :
    Write rf (some .callElection) es (rf.currentTerm + 1, some rf.me, rf.log)
  | raise {job : Job n α} (h : rf.currentTerm < job.otherTerm) :
    Write rf (some (.termSync job)) [] (job.otherTerm, none, rf.log)
  | vote {call : VoteCall n} {myTerm : ℕ} {last : LogEntry α} (h : rf.freeToVote call.args)
      (hlast : GoSlice.get rf.log (rf.log.length - 1) = some last)
      (hdate : Raft.upToDate call.args (rf.log.length - 1) last.term) :
    Write rf (some (.requestVote call myTerm)) [.sent (.requestVoteReply call ⟨myTerm, true⟩)]
      (rf.currentTerm, some call.args.candidateID, rf.log)
  | merge {call : EntriesCall n α} {myTerm k : ℕ} {prev : LogEntry α}
      (hk : call.args.prevLogIndex = k) (hprev : rf.log[k]? = some prev)
      (hterm : prev.term = call.args.prevLogTerm) :
    Write rf (some (.appendEntries call myTerm))
      [.sent (.appendEntriesReply call ⟨myTerm, true, 0⟩)]
      (rf.currentTerm, rf.votedFor, rf.log.take (k + 1) ++ call.args.entries)

/-- An event that announces no write of durable state. -/
def Event.Quiet : Event n α → Prop
  | .started _ _ _ _ => False
  | .candidacy _ _ => False
  | .sent (.requestVoteReply _ reply) => reply.voteGranted = false
  | .sent (.appendEntriesReply _ reply) => reply.success = false
  | _ => True

/-- A critical section that does not panic writes nothing and is quiet, or is one of the writes. -/
theorem Runs.write {gr : Goroutine n α} {e : Effect n α} (h : Runs gob rf gr e) :
    (e.rf.persister = rf.persister ∧ e.rf.durable = rf.durable ∧ ∀ ev ∈ e.events, ev.Quiet) ∨
      (e.rf = e.rf.persist gob ∧ Write rf (some gr) e.events e.rf.durable) := by
  cases h with
  | callElection hc hlast hargs =>
    subst hargs
    refine Or.inr ⟨rfl, .campaign hc (fun ev hev => ?_) List.mem_cons_self⟩
    rcases List.mem_cons.mp hev with rfl | hev
    · exact Or.inl rfl
    · obtain ⟨call, hcall, rfl⟩ := List.mem_map.mp hev
      obtain ⟨ID, _, rfl⟩ := List.mem_map.mp hcall
      exact Or.inr ⟨_, _, rfl, hlast, rfl⟩
  | raise h => exact Or.inr ⟨rfl, .raise h⟩
  | grant h hlast hdate => exact Or.inr ⟨rfl, .vote h hlast hdate⟩
  | merge hprev hterm hr =>
    obtain ⟨k, hk, hlog, hs, hni, _, hrf⟩ := mergeLog_at hprev hr
    refine Or.inr ⟨by rw [hrf]; rfl, ?_⟩
    rw [hs, hni, hrf]
    exact .merge hk hlog hterm
  | heartbeat _ _ hcalls =>
    refine Or.inl ⟨rfl, rfl, fun ev hev => ?_⟩
    obtain ⟨call, _, rfl⟩ := List.mem_map.mp hev
    trivial
  | commit _ hadjust hcommit =>
    obtain ⟨_, _, rfl⟩ := Raft.adjustIndices_eq hadjust
    rcases Raft.commitPhase_eq_some hcommit with ⟨rfl, _⟩ | ⟨_, _, _, _, rfl, _⟩
    · exact Or.inl ⟨rfl, rfl, List.forall_mem_nil _⟩
    · exact Or.inl ⟨rfl, rfl, List.forall_mem_nil _⟩
  | applyEntries h =>
    obtain rfl := Raft.applyEntries_eq_some h
    refine Or.inl ⟨rfl, rfl, fun ev hev => ?_⟩
    obtain ⟨msg, _, rfl⟩ := List.mem_map.mp hev
    trivial
  | react => rename_i job _; cases job <;> exact Or.inl ⟨rfl, rfl, List.forall_mem_nil _⟩
  | ignore =>
    rename_i job _
    cases job with
    | requestVote call => exact Or.inl ⟨rfl, rfl, by simp [Job.ignore, Event.Quiet]⟩
    | appendEntries call => exact Or.inl ⟨rfl, rfl, by simp [Job.ignore, Event.Quiet]⟩
    | sendRequestVote call reply => exact Or.inl ⟨rfl, rfl, List.forall_mem_nil _⟩
    | sendAppendEntries call reply => exact Or.inl ⟨rfl, rfl, List.forall_mem_nil _⟩
  | demote => rename_i job _ _ _; cases job <;> exact Or.inl ⟨rfl, rfl, List.forall_mem_nil _⟩
  | demoteSame => rename_i job _ _; cases job <;> exact Or.inl ⟨rfl, rfl, List.forall_mem_nil _⟩
  | elected => exact Or.inl ⟨rfl, rfl, by simp [Event.Quiet]⟩
  | initLeader => exact Or.inl ⟨rfl, rfl, by simp [Event.Quiet]⟩
  | deny => exact Or.inl ⟨rfl, rfl, by simp [Event.Quiet]⟩
  | conflict => exact Or.inl ⟨rfl, rfl, by simp [Event.Quiet]⟩
  | short => exact Or.inl ⟨rfl, rfl, by simp [Event.Quiet]⟩
  | _ => exact Or.inl ⟨rfl, rfl, List.forall_mem_nil _⟩

/-- A panic writes nothing and is quiet, or comes after the write of a candidacy. -/
theorem Panics.write {gr : Goroutine n α} {e : Panic n α} (h : Panics gob rf gr e) :
    (e.rf.persister = rf.persister ∧ e.rf.durable = rf.durable ∧ ∀ ev ∈ e.events, ev.Quiet) ∨
      (e.rf = e.rf.persist gob ∧ Write rf (some gr) e.events e.rf.durable) := by
  cases h with
  | callElection hc hlast => exact Or.inr ⟨rfl, .campaign hc (by simp) (by simp)⟩
  | applyEntries h =>
    refine Or.inl ⟨rfl, rfl, fun ev hev => ?_⟩
    obtain ⟨msg, _, rfl⟩ := List.mem_map.mp hev
    trivial
  | other => exact Or.inl ⟨rfl, rfl, List.forall_mem_nil _⟩

/-! ### Volatile and durable state agree

An invariant of one peer at a time, since nobody but the peer touches its fields or its `Persister`.
-/

theorem StructStep.inSync [Inhabited α] {p : Fin n} {a : Action n α} {nd : Node n α}
    {rf' : Raft n α} (h : StructStep gob p a nd rf')
    (hnd : ∀ rf gs, nd = .up rf gs → rf.InSync gob) : rf'.InSync gob := by
  cases h with
  | make => exact Raft.inSync_make ..
  | same => exact hnd _ _ rfl
  | kill => exact (hnd _ _ rfl).of_eq rfl rfl rfl
  | start => exact Raft.inSync_persist ..
  | run _ h =>
    rcases h.write with ⟨hp, hd, _⟩ | ⟨he, _⟩
    · exact (hnd _ _ rfl).of_eq h.me_eq hp hd
    · rw [he]; exact Raft.inSync_persist ..

namespace Cluster

variable [Inhabited α] [DecidableEq α] {ok : Cfg n α → Action n α → Prop} {c c' : Cfg n α}
  {a : Action n α} {p : Fin n} {gs : List (Goroutine n α)}

/-- The triple that `Make` reconstructs from what the `Persister` of `p` holds. -/
def saved (gob : Labgob n α) (c : Cfg n α) (p : Fin n) :
    ℕ × Option (Fin n) × List (LogEntry α) :=
  (Raft.make gob p (c.state.node p).persister).durable

theorem inSync_of_reachable (hc : (system gob).Reachable ok c)
    (hnd : c.state.node p = .up rf gs) : rf.InSync gob :=
  struct_invariant (I := fun _ rf => rf.InSync gob) (fun _ _ _ _ _ _ hI hs => hs.inSync hI) hc hnd

theorem me_of_reachable (hc : (system gob).Reachable ok c) (hnd : c.state.node p = .up rf gs) :
    rf.me = p := by
  have h := (inFlight_of_reachable hc).node p
  rw [hnd] at h
  exact h.1

/-- **Volatile and durable state agree** in every reachable configuration. -/
theorem durable_eq_saved (hc : (system gob).Reachable ok c) (hnd : c.state.node p = .up rf gs) :
    rf.durable = saved gob c p := by
  have h := inSync_of_reachable hc hnd
  rw [Raft.InSync, me_of_reachable hc hnd] at h
  rw [h, saved, hnd]
  rfl

/-! ### A step, seen from the durable state

Invariants about terms, votes and logs are stated with `saved`, so that they speak of peers that are
down as well. Their step lemmas have two cases, `quiet` and `write`. -/

/-- What a step does to the durable state of the cluster. -/
inductive SavedStep (gob : Labgob n α) (c : Cfg n α) (a : Action n α) (c' : Cfg n α) : Prop where
  /-- Nothing is written and no write is announced. -/
  | quiet {es : List (Event n α)} (ht : c'.trace = c.trace ++ es)
      (hs : ∀ q, saved gob c' q = saved gob c q) (hq : ∀ ev ∈ es, ev.Quiet)
  /-- One peer writes. -/
  | write {p : Fin n} {rf : Raft n α} {gs : List (Goroutine n α)} {gr : Option (Goroutine n α)}
      {es : List (Event n α)} (ht : c'.trace = c.trace ++ es)
      (hnd : c.state.node p = .up rf gs) (ha : At p gs a gr)
      (hw : Write rf gr es (saved gob c' p)) (hs : ∀ q, q ≠ p → saved gob c' q = saved gob c q)

omit [DecidableEq α] in
theorem SavedStep.of_eq {es : List (Event n α)} {nd : Node n α} (ht : c'.trace = c.trace ++ es)
    (hnode : c'.state.node = Function.update c.state.node p nd)
    (hp : nd.persister = (c.state.node p).persister) (hq : ∀ ev ∈ es, ev.Quiet) :
    SavedStep gob c a c' := by
  refine .quiet ht (fun q => ?_) hq
  rw [saved, saved, hnode]
  rcases eq_or_ne q p with rfl | hne
  · rw [Function.update_self, hp]
  · rw [Function.update_of_ne hne]

omit [DecidableEq α] in
theorem SavedStep.of_write {es : List (Event n α)} {nd : Node n α} {rf' : Raft n α}
    {gr : Option (Goroutine n α)} (ht : c'.trace = c.trace ++ es)
    (hnode : c'.state.node = Function.update c.state.node p nd)
    (hnd : c.state.node p = .up rf gs) (ha : At p gs a gr)
    (hp : nd.persister = (rf'.persist gob).persister) (hw : Write rf gr es rf'.durable) :
    SavedStep gob c a c' := by
  refine .write ht hnd ha ?_ fun q hne => ?_
  · rw [saved, hnode, Function.update_self, hp, Raft.persist, Raft.make_encode_durable]
    exact hw
  · rw [saved, saved, hnode, Function.update_of_ne hne]

/-- **Inversion of a step on the durable state.** -/
theorem saved_cases (hc : (system gob).Reachable ok c) (hn : (system gob).next c a = some c') :
    SavedStep gob c a c' := by
  obtain ⟨es, p, nd, hm, ht⟩ := next_moves hn
  have hstep := hm.node_step
  generalize hnd : c.state.node p = nd₀ at hstep
  have hsame : nd.persister = nd₀.persister → (∀ ev ∈ es, ev.Quiet) → SavedStep gob c a c' :=
    fun hp hq => .of_eq ht hm.node_eq (hnd ▸ hp) hq
  cases hstep with
  | make => exact hsame (Raft.make_persister ..) (by simp [Event.Quiet])
  | start h =>
    have hme := me_of_reachable hc hnd
    refine .of_write ht hm.node_eq hnd .start rfl ?_
    exact hme ▸ Write.start h
  | panic hg h =>
    rcases h.write with ⟨hp, _, hq⟩ | ⟨he, hw⟩
    · exact hsame hp hq
    · exact .of_write ht hm.node_eq hnd (.run hg) (congrArg Raft.persister he) hw
  | run hg h =>
    rcases h.write with ⟨hp, _, hq⟩ | ⟨he, hw⟩
    · exact hsame hp hq
    · exact .of_write ht hm.node_eq hnd (.run hg) (congrArg Raft.persister he) hw
  | _ => exact hsame rfl (List.forall_mem_nil _)

end Cluster

end Distsys
