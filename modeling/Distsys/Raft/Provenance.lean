import Distsys.Raft.Bounds

/-!
# Where log entries come from

The index of an entry is carried implicitly: `PrevLogIndex` and `Entries` split the leader's log,
and the follower puts the pieces together at the same place. So an entry never moves. Every entry at
an index `i ≥ 1` of any log, any message and any `ApplyMsg` goes back to a call of `Start` that
returned `i`, and no entry is made up on the way.

The invariant is about the durable logs and the messages sent; the trace keeps the `started` events,
and `takes_start_of_started` reads such an event back as a call of `Start` on a leader.

## Main definitions

* `Created` — a `started` event for an entry and its index
* `Cluster.StartedIn` — a call of `Start` in a run

## Main results

* `Cluster.entries_started`
-/

namespace Distsys

variable {n : ℕ} {α : Type} {gob : Labgob n α} {rf : Raft n α} {tr es : List (Event n α)}

/-- Some `Start(e.Data)` returned `(i, e.Term, true)`. -/
def Created (tr : List (Event n α)) (i : ℤ) (e : LogEntry α) : Prop :=
  ∃ p, .started p e.data i e.term ∈ tr

theorem Created.append {i : ℤ} {e : LogEntry α} (h : Created tr i e) : Created (tr ++ es) i e := by
  obtain ⟨p, hp⟩ := h
  exact ⟨p, List.mem_append_left _ hp⟩

/-- Every entry of `log` from index `1` on was created there. -/
def CreatedLog (tr : List (Event n α)) (log : List (LogEntry α)) : Prop :=
  ∀ (i : ℕ) (e : LogEntry α), 1 ≤ i → log[i]? = some e → Created tr i e

/-- Every entry of a message was created at the index it belongs to. -/
def CreatedArgs (tr : List (Event n α)) (args : AppendEntriesArgs n α) : Prop :=
  ∀ (j : ℕ) (e : LogEntry α), args.entries[j]? = some e →
    Created tr (args.prevLogIndex + 1 + j) e

theorem CreatedLog.append {log : List (LogEntry α)} (h : CreatedLog tr log) :
    CreatedLog (tr ++ es) log :=
  fun i e hi he => (h i e hi he).append

theorem CreatedArgs.append {args : AppendEntriesArgs n α} (h : CreatedArgs tr args) :
    CreatedArgs (tr ++ es) args :=
  fun j e he => (h j e he).append

/-- `Start`. -/
theorem CreatedLog.concat {log : List (LogEntry α)} (h : CreatedLog tr log) {p : Fin n}
    {e : LogEntry α} (he : .started p e.data log.length e.term ∈ tr) :
    CreatedLog tr (log ++ [e]) := by
  intro i e' hi hget
  rcases Nat.lt_trichotomy i log.length with hlt | rfl | hgt
  · rw [List.getElem?_append_left hlt] at hget
    exact h i e' hi hget
  · rw [List.getElem?_concat_length] at hget
    cases hget
    exact ⟨p, he⟩
  · rw [List.getElem?_eq_none (by simp; omega)] at hget
    cases hget

/-- The splice of `AppendEntries`. -/
theorem CreatedLog.merge {log : List (LogEntry α)} (h : CreatedLog tr log)
    {args : AppendEntriesArgs n α} (hargs : CreatedArgs tr args) {k : ℕ}
    (hk : args.prevLogIndex = k) (hlt : k < log.length) :
    CreatedLog tr (log.take (k + 1) ++ args.entries) := by
  intro i e hi hget
  have hlen : (log.take (k + 1)).length = k + 1 := List.length_take_of_le hlt
  by_cases hik : i < k + 1
  · rw [List.getElem?_append_left (by omega), List.getElem?_take_of_lt hik] at hget
    exact h i e hi hget
  · rw [List.getElem?_append_right (by omega), hlen] at hget
    have := hargs _ e hget
    rwa [hk, show (k : ℤ) + 1 + ((i - (k + 1) : ℕ) : ℤ) = i by omega] at this

/-- The split of `heartbeat`. -/
theorem CreatedLog.args {ID : Fin n} {args : AppendEntriesArgs n α} (h : CreatedLog tr rf.log)
    (hargs : rf.appendEntriesArgs ID = some args) : CreatedArgs tr args := by
  obtain ⟨_, k, _, _, _, _, rfl⟩ := Raft.appendEntriesArgs_eq_some hargs
  intro j e he
  rw [List.getElem?_drop] at he
  have := h (k + 1 + j) e (by omega) he
  push_cast at this
  exact this

namespace Cluster

variable [Inhabited α] [DecidableEq α] {ok : Cfg n α → Action n α → Prop} {c c' : Cfg n α}
  {a : Action n α} {p : Fin n} {gs : List (Goroutine n α)} {as : List (Action n α)}

/-! ### The invariant

Messages are made of logs, and logs of messages and of calls of `Start`; so the two are shown
together. -/

/-- Nothing is invented: durable logs and messages. -/
structure Provenance (gob : Labgob n α) (c : Cfg n α) : Prop where
  /-- The log of a peer, up or down. -/
  saved : ∀ p, CreatedLog c.trace (saved gob c p).2.2
  /-- Entries in a message, at the indices they will have in the log of the receiver. -/
  sent : ∀ call, .sent (.appendEntries call) ∈ c.trace → CreatedArgs c.trace call.args

/-- The step lemma for the durable logs. -/
theorem Provenance.saved_next (hI : Provenance gob c) (hc : (system gob).Reachable ok c)
    (hn : (system gob).next c a = some c') (q : Fin n) :
    CreatedLog c'.trace (Cluster.saved gob c' q).2.2 := by
  cases saved_cases hc hn with
  | quiet ht hs _ => rw [ht, hs]; exact (hI.saved q).append
  | @write p rf gs gr es ht hnd ha hw hs =>
    rw [ht]
    rcases eq_or_ne q p with rfl | hq
    · have hlog : CreatedLog c.trace rf.log := by
        have := hI.saved q
        rwa [← durable_eq_saved hc hnd] at this
      have hsrc := (inFlight_of_reachable hc).node q
      rw [hnd] at hsrc
      generalize Cluster.saved gob c' q = d at hw
      cases hw with
      | start => exact hlog.append.concat (List.mem_append_right _ (List.mem_singleton.mpr rfl))
      | merge hk hprev =>
        have hsent := hsrc.2 _ ha.mem
        exact (hlog.merge (hI.sent _ hsent.1) hk (List.getElem?_eq_some_iff.mp hprev).1).append
      | _ => exact hlog.append
    · rw [hs q hq]; exact (hI.saved q).append

theorem provenance_of_reachable (hc : (system gob).Reachable ok c) : Provenance gob c := by
  refine System.Reachable.invariant (M := system gob) ?_ ?_ hc
  · refine ⟨fun p i e hi he => ?_, nofun⟩
    obtain ⟨i, rfl⟩ := Nat.exists_eq_succ_of_ne_zero (Nat.one_le_iff_ne_zero.mp hi)
    simp [Cluster.saved, system, System.start, Node.persister, Raft.make_nil_durable] at he
  · intro c a c' hc hI _ hn
    refine ⟨hI.saved_next hc hn, fun call hcall => ?_⟩
    obtain ⟨es, p, nd, hm, ht⟩ := next_moves hn
    rw [ht] at hcall ⊢
    rcases List.mem_append.mp hcall with hcall | hcall
    · exact (hI.sent call hcall).append
    · have hlog := hI.saved p
      have hemits := hm.node_step.emits hcall
      generalize hnd : c.state.node p = nd₀ at hemits
      cases hemits with
      | @sent rf gs gs' gr e _ ha hrun _ =>
        rw [← durable_eq_saved hc hnd] at hlog
        have hsend := hrun.sends hcall
        generalize e.rf = rf' at hsend
        cases hsend with
        | appendEntries _ _ _ hargs => exact (CreatedLog.args hlog hargs).append

/-- What is applied was created at the index it is applied with. -/
theorem created_of_applied (hc : (system gob).Reachable ok c) {msg : ApplyMsg α}
    (h : .applied p msg ∈ c.trace) :
    ∃ e : LogEntry α, e.data = msg.command ∧ 1 ≤ msg.commandIndex ∧
      Created c.trace msg.commandIndex e := by
  refine System.Reachable.invariant (M := system gob)
    (P := fun c => ∀ p msg, .applied p msg ∈ c.trace → ∃ e : LogEntry α, e.data = msg.command ∧
      1 ≤ msg.commandIndex ∧ Created c.trace msg.commandIndex e) nofun ?_ hc p msg h
  intro c a c' hc hI _ hn p msg h
  obtain ⟨es, q, nd, hm, ht⟩ := next_moves hn
  rw [ht] at h ⊢
  rcases List.mem_append.mp h with h | h
  · obtain ⟨e, he, hi, hcr⟩ := hI p msg h
    exact ⟨e, he, hi, hcr.append⟩
  · have hlog := (provenance_of_reachable hc).saved q
    have hemits := hm.node_step.emits h
    generalize hnd : c.state.node q = nd₀ at hemits
    cases hemits with
    | applied hlt _ hget hdata =>
      rw [← durable_eq_saved hc hnd] at hlog
      have h₀ := (indices_of_reachable hc hnd).1
      obtain ⟨k, hk, hget⟩ := GoSlice.get_eq_some_iff.mp hget
      have hcr := hlog k _ (by omega) hget
      rw [← hk] at hcr
      exact ⟨_, hdata, by omega, hcr.append⟩

/-! ### Back to calls of `Start`

The trace says that an entry was started, and the run which of its actions did it. -/

/-- In the run `as`, `Start(command)` was called on a peer in phase leader and returned
`(index, term, true)`. -/
def StartedIn (gob : Labgob n α) (as : List (Action n α)) (index : ℤ) (term : ℕ) (command : α) :
    Prop :=
  ∃ c p rf gs, (system gob).Takes as c (.start p command) ∧ c.state.node p = .up rf gs ∧
    rf.phase = .leader ∧ (rf.start gob command).2 = (index, term, true)

theorem takes_start_of_started (h : (system gob).exec (system gob).start as = some c)
    {command : α} {index : ℤ} {term : ℕ} (he : .started p command index term ∈ c.trace) :
    StartedIn gob as index term command := by
  refine System.exec_induction (M := system gob) (P := fun as c => ∀ p command index term,
    .started p command index term ∈ c.trace → StartedIn gob as index term command) nofun ?_ h
    p command index term he
  intro as c a c' hc hI hn p command index term he
  rcases emits_of_next hn he with he | ⟨q, _, _, _, hnd, hemits⟩
  · obtain ⟨c₀, p₀, rf, gs, htakes, hrest⟩ := hI p command index term he
    exact ⟨c₀, p₀, rf, gs, htakes.append [a], hrest⟩
  · cases hemits with
    | started ha hl =>
      subst ha
      exact ⟨c, _, _, _, ⟨as, List.prefix_refl _, hc⟩, hnd, hl, by simp [Raft.start, hl]⟩

/-- **No invented entries.** At the end of every run, and so after each of its steps: every entry at
an index `i ≥ 1` of a log, live or saved, every entry of a message at the offset that belongs to
index `i`, and every command delivered with `CommandIndex` `i`, was created by a call of `Start` in
this run, on a peer in phase leader, that returned `i`, the entry's term and `true`. -/
theorem entries_started (gob : Labgob n α) (as : List (Action n α)) (c : Cfg n α)
    (h : (system gob).exec (system gob).start as = some c) :
    (∀ p rf gs, c.state.node p = .up rf gs → ∀ (i : ℕ) (e : LogEntry α), 1 ≤ i →
      rf.log[i]? = some e → StartedIn gob as i e.term e.data) ∧
    (∀ p (i : ℕ) (e : LogEntry α), 1 ≤ i → (saved gob c p).2.2[i]? = some e →
      StartedIn gob as i e.term e.data) ∧
    (∀ call, .sent (.appendEntries call) ∈ c.trace → ∀ (i : ℤ) (e : LogEntry α),
      GoSlice.get call.args.entries (i - call.args.prevLogIndex - 1) = some e →
      StartedIn gob as i e.term e.data) ∧
    ∀ p msg, .applied p msg ∈ c.trace → 1 ≤ msg.commandIndex ∧
      ∃ term, StartedIn gob as msg.commandIndex term msg.command := by
  have hc := System.reaches_of_exec h
  have hprov := provenance_of_reachable hc
  have hstart : ∀ {i : ℤ} {e : LogEntry α}, Created c.trace i e →
      StartedIn gob as i e.term e.data := by
    rintro i e ⟨p, hp⟩
    exact takes_start_of_started h hp
  refine ⟨fun p rf gs hnd i e hi he => ?_, fun p i e hi he => hstart (hprov.saved p i e hi he),
    fun call hcall i e he => ?_, fun p msg hm => ?_⟩
  · have hlog := hprov.saved p
    rw [← durable_eq_saved hc hnd] at hlog
    exact hstart (hlog i e hi he)
  · obtain ⟨j, hj, he⟩ := GoSlice.get_eq_some_iff.mp he
    have := hprov.sent call hcall j e he
    rw [show call.args.prevLogIndex + 1 + j = i by omega] at this
    exact hstart this
  · obtain ⟨e, he, hi, hcr⟩ := created_of_applied hc hm
    exact ⟨hi, e.term, he ▸ hstart hcr⟩

/-- In `ackRun` the command `7` at index `1` of peer `1` goes back to `Start(7)`. -/
theorem entries_started_ackRun :
    ∃ c rf gs, (system (Labgob.unary 3)).exec (system (Labgob.unary 3)).start ackRun = some c ∧
      c.state.node 1 = .up rf gs ∧ rf.log[1]? = some ⟨1, 7⟩ ∧
      StartedIn (Labgob.unary 3) ackRun 1 1 7 := by
  obtain ⟨c, hc, hchk⟩ := exists_of_exec (Labgob.unary 3) ackRun
    (fun c => (c.state.node 1).check fun rf => decide (rf.log[1]? = some (⟨1, 7⟩ : LogEntry ℕ)))
    (by decide +kernel)
  obtain ⟨rf, gs, hnd, h⟩ := Node.exists_of_check hchk
  have hlog := of_decide_eq_true h
  exact ⟨c, rf, gs, hc, hnd, hlog,
    (entries_started (Labgob.unary 3) ackRun c hc).1 1 rf gs hnd 1 ⟨1, 7⟩ (le_refl 1) hlog⟩

end Cluster

end Distsys
