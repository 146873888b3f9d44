import Distsys.Raft.Durable
import Distsys.Raft.Guards
import Distsys.Raft.UnaryGob

/-!
# `lastApplied`, `commitIndex` and the length of the log

`commitIndex` is advanced by the commit phase of `heartbeat` and by `AppendEntries`, it is followed
by `lastApplied` in a goroutine of its own, and `AppendEntries` cuts the log. `Advance` lists what
one critical section can do to the three of them.

`0 ≤ lastApplied ≤ commitIndex` holds throughout. `commitIndex < len(log)` does not:
`rf.log = append(rf.log[:args.PrevLogIndex+1], args.Entries...)` drops what is behind the last entry
of the message, so a delayed heartbeat takes entries away that were committed in the meantime.
`inRange_iff_accepts` says that this is the only way to lose them.

## Main definitions

* `Advance` — what a critical section does to the log and the two indices
* `Raft.InRange` — the bounds

## Main results

* `Cluster.indices_of_reachable`, `Cluster.saved_log_ne_nil`
* `Cluster.inRange_iff_accepts` — a run keeps `commitIndex` inside the log exactly if every accepted
  message reaches up to it
-/

namespace Distsys

variable {n : ℕ} {α : Type} {gob : Labgob n α} {rf : Raft n α}

/-! ### One critical section

Who changes `commitIndex` and the log: the commit phase the former, `Start` the latter,
`AppendEntries` both. -/

/-- `Advance rf gr rf'`: what goroutine `gr` can make of the log, `commitIndex` and `lastApplied` of
`rf`. -/
inductive Advance (rf : Raft n α) : Goroutine n α → Raft n α → Prop where
  | same {gr : Goroutine n α} {rf' : Raft n α} (hlog : rf'.log = rf.log)
      (hc : rf'.commitIndex = rf.commitIndex) (ha : rf'.lastApplied = rf.lastApplied) :
    Advance rf gr rf'
  | apply {rf' : Raft n α} (hlog : rf'.log = rf.log) (hc : rf'.commitIndex = rf.commitIndex)
      (ha : rf'.lastApplied = max rf.lastApplied rf.commitIndex) : Advance rf .applyEntries rf'
  | commit {beat : Beat} {replies : List AppendEntriesReply} {rf' : Raft n α}
      (hlog : rf'.log = rf.log) (hlt : rf.commitIndex < rf'.commitIndex)
      (hin : rf'.commitIndex < rf.log.length) (ha : rf'.lastApplied = rf.lastApplied) :
    Advance rf (.heartbeatSleep beat replies) rf'
  | merge {call : EntriesCall n α} {myTerm k : ℕ} {prev : LogEntry α} {rf' : Raft n α}
      (hk : call.args.prevLogIndex = k) (hprev : rf.log[k]? = some prev)
      (hterm : prev.term = call.args.prevLogTerm)
      (hlog : rf'.log = rf.log.take (k + 1) ++ call.args.entries)
      (hc : rf'.commitIndex =
        max rf.commitIndex (min call.args.leaderCommit (k + call.args.entries.length)))
      (ha : rf'.lastApplied = rf.lastApplied) : Advance rf (.appendEntries call myTerm) rf'

theorem Runs.advance {gr : Goroutine n α} {e : Effect n α} (h : Runs gob rf gr e) :
    Advance rf gr e.rf := by
  cases h with
  | commit _ hadjust hcommit =>
    obtain ⟨_, _, rfl⟩ := Raft.adjustIndices_eq hadjust
    rcases Raft.commitPhase_eq_some hcommit with ⟨rfl, _⟩ | ⟨_, _, _, _, rfl, _, hlt, _, hget, _⟩
    · exact .same rfl rfl rfl
    · refine .commit rfl ?_ ?_ rfl
      · exact hlt
      · exact (GoSlice.get_lt hget).2
  | applyEntries h =>
    obtain rfl := Raft.applyEntries_eq_some h
    exact .apply rfl rfl rfl
  | merge hprev hterm hr =>
    obtain ⟨k, hk, hlog, _, _, _, hrf⟩ := mergeLog_at hprev hr
    rw [hrf]
    exact .merge hk hlog hterm rfl rfl rfl
  | react | ignore | demote | demoteSame => exact .same (by simp) (by simp) (by simp)
  | _ => exact .same rfl rfl rfl

/-- The length of a merged log. -/
theorem length_merge {log entries : List (LogEntry α)} {k : ℕ} {prev : LogEntry α}
    (hprev : log[k]? = some prev) :
    (log.take (k + 1) ++ entries).length = k + 1 + entries.length := by
  have hlt := (List.getElem?_eq_some_iff.mp hprev).1
  rw [List.length_append, List.length_take_of_le hlt]

/-- An accepted message does not make the body panic. -/
theorem Raft.Accepts.run_ne_error {call : EntriesCall n α} (h : rf.Accepts call.args) {myTerm : ℕ}
    {e : Panic n α} :
    (Goroutine.appendEntries call myTerm).run gob rf ≠ some (.error e) := by
  obtain ⟨prev, hprev, hterm⟩ := h
  rw [Option.mem_def] at hprev
  obtain ⟨k, hk, hlog⟩ := GoSlice.get_eq_some_iff.mp hprev
  have hlt := (List.getElem?_eq_some_iff.mp hlog).1
  have hkept : GoSlice.upTo rf.log (call.args.prevLogIndex + 1) = some (rf.log.take (k + 1)) :=
    GoSlice.upTo_eq_some_iff.mpr ⟨k + 1, by omega, hlt, rfl⟩
  intro he
  simp only [Goroutine.run, Raft.runAppendEntries, Raft.appendEntries, hprev, hterm,
    Raft.mergeLog, hkept, (GoSlice.get_lt hprev).2, Option.bind_eq_bind, Option.bind_some,
    if_true] at he
  split at he <;> rename_i hr <;> split at hr <;> simp at hr he

/-- The body of `AppendEntries` on a message it accepts. -/
theorem Runs.accepts {call : EntriesCall n α} {myTerm : ℕ} {e : Effect n α}
    (h : Runs gob rf (.appendEntries call myTerm) e) (hacc : rf.Accepts call.args) :
    ∃ (k : ℕ) (prev : LogEntry α), call.args.prevLogIndex = k ∧ rf.log[k]? = some prev ∧
      e.rf.log = rf.log.take (k + 1) ++ call.args.entries ∧ e.rf.phase = rf.phase ∧
      rf.commitIndex ≤ e.rf.commitIndex := by
  obtain ⟨prev, hprev, hterm⟩ := hacc
  cases h with
  | merge hprev' _ hr =>
    obtain ⟨k, hk, hlog, _, _, _, hrf⟩ := mergeLog_at hprev' hr
    exact ⟨k, _, hk, hlog, by rw [hrf]; rfl, by rw [hrf]; rfl, by rw [hrf]; exact le_max_left _ _⟩
  | conflict hprev' hterm' =>
    cases hprev.symm.trans hprev'
    exact absurd hterm hterm'
  | short h => exact absurd (GoSlice.get_lt hprev).2 (not_lt.mpr h)

/-- The bounds of the two indices. -/
def Raft.InRange (rf : Raft n α) : Prop :=
  0 ≤ rf.lastApplied ∧ rf.lastApplied ≤ rf.commitIndex ∧ rf.commitIndex < rf.log.length

/-- Inside the bounds the loop of `applyEntries` does not panic. -/
theorem Raft.applyLoop_isSome {log : List (LogEntry α)} {lastApplied : ℤ} {k : ℕ}
    (h₀ : 0 ≤ lastApplied) (h : lastApplied + k < log.length) :
    (Raft.applyLoop log lastApplied k).2.isSome := by
  induction k generalizing lastApplied with
  | zero => rfl
  | succ k ih =>
    push_cast at h
    obtain ⟨e, he⟩ := GoSlice.get_isSome (s := log) (i := lastApplied + 1) (by omega) (by omega)
    simp only [Raft.applyLoop, he]
    exact ih (by omega) (by omega)

theorem Raft.InRange.applyEntries_isSome (h : rf.InRange) : rf.applyEntries.2.isSome := by
  obtain ⟨h₀, h₁, h₂⟩ := h
  rw [Raft.applyEntries, Option.isSome_map]
  exact Raft.applyLoop_isSome h₀ (by omega)

theorem Raft.make_indices [Inhabited α] (gob : Labgob n α) (p : Fin n) (persister : List UInt8) :
    (Raft.make gob p persister).lastApplied = 0 ∧ (Raft.make gob p persister).commitIndex = 0 := by
  obtain ⟨_, _, _, h⟩ := Raft.make_eq gob p persister
  rw [h]
  exact ⟨rfl, rfl⟩

namespace Cluster

variable [Inhabited α] [DecidableEq α] {ok : Cfg n α → Action n α → Prop} {c c' : Cfg n α}
  {a : Action n α} {p : Fin n} {gs : List (Goroutine n α)}

/-! ### What always holds

These bounds do not depend on what messages say, and hold without any condition on a run. -/

/-- The entry at index `0` keeps every log from being empty. -/
theorem saved_log_ne_nil (hc : (system gob).Reachable ok c) (p : Fin n) :
    (saved gob c p).2.2 ≠ [] := by
  refine System.Reachable.invariant (M := system gob)
    (P := fun c => ∀ p, (saved gob c p).2.2 ≠ []) ?_ ?_ hc p
  · intro p
    simp [saved, system, System.start, Node.persister, Raft.make_nil_durable]
  · intro c a c' hc hI _ hn q
    cases saved_cases hc hn with
    | quiet _ hs _ => rw [hs]; exact hI q
    | @write p rf gs gr es _ hnd _ hw hs =>
      rcases eq_or_ne q p with rfl | hq
      · have hlog : rf.log ≠ [] := by
          have := hI q
          rwa [← durable_eq_saved hc hnd] at this
        generalize saved gob c' q = d at hw
        cases hw with
        | start => exact List.append_ne_nil_of_right_ne_nil _ (List.cons_ne_nil _ _)
        | merge _ hprev =>
          refine List.ne_nil_of_length_pos ?_
          rw [length_merge hprev]
          omega
        | _ => exact hlog
      · rw [hs q hq]; exact hI q

/-- `lastApplied` follows `commitIndex`. -/
theorem indices_of_reachable (hc : (system gob).Reachable ok c)
    (hnd : c.state.node p = .up rf gs) : 0 ≤ rf.lastApplied ∧ rf.lastApplied ≤ rf.commitIndex := by
  refine struct_invariant (I := fun _ rf => 0 ≤ rf.lastApplied ∧ rf.lastApplied ≤ rf.commitIndex)
    ?_ hc hnd
  intro c a p rf' _ _ hI hs
  generalize c.state.node p = nd at hI hs
  cases hs with
  | make => simp [Raft.make_indices]
  | same => exact hI _ _ rfl
  | kill => exact (hI _ _ rfl :)
  | start => exact (hI _ _ rfl :)
  | run _ h =>
    obtain ⟨h₀, h₁⟩ := hI _ _ rfl
    cases h.advance with
    | same _ hc ha => omega
    | apply _ hc ha => omega
    | commit _ hlt _ ha => omega
    | merge _ _ _ _ hc ha => omega

/-! ### When committed entries stay in the log

The upper bound holds as long as no accepted message ends before `commitIndex`. The condition cannot
be replaced by a weaker one: the first message that does not meet it breaks the bound. -/

/-- One step. -/
theorem StructStep.inRange (hc : (system gob).Reachable ok c) (ha : ReachesCommitted c a)
    (hI : ∀ rf gs, c.state.node p = .up rf gs → rf.InRange) {rf' : Raft n α}
    (hs : StructStep gob p a (c.state.node p) rf') : rf'.InRange := by
  have hlog := saved_log_ne_nil hc p
  have hguard := guard_iff.mp ha p
  rw [saved] at hlog
  generalize c.state.node p = nd at hI hs hlog hguard
  cases hs with
  | make =>
    obtain ⟨h₀, h₁⟩ := Raft.make_indices gob p ‹List UInt8›
    have := List.length_pos_of_ne_nil hlog
    refine ⟨h₀.ge, by rw [h₀, h₁], ?_⟩
    rw [h₁]
    exact_mod_cast this
  | same => exact hI _ _ rfl
  | kill => exact (hI _ _ rfl :)
  | start =>
    obtain ⟨h₀, h₁, h₂⟩ := hI _ _ rfl
    refine ⟨h₀, h₁, ?_⟩
    simp only [Raft.persist, List.length_append, List.length_singleton]
    omega
  | run hat h =>
    obtain ⟨h₀, h₁, h₂⟩ := hI _ _ rfl
    cases h.advance with
    | same hl hc ha => exact ⟨by omega, by omega, by rw [hl]; omega⟩
    | apply hl hc ha => exact ⟨by omega, by omega, by rw [hl]; omega⟩
    | commit hl hlt hin ha => exact ⟨by omega, by omega, by rw [hl]; exact hin⟩
    | merge hk hprev hterm hl hc ha =>
      have hreach := hguard _ _ _ rfl hat _ rfl ⟨_, by rw [hk, GoSlice.get_natCast]; exact hprev,
        hterm⟩
      refine ⟨by omega, by omega, ?_⟩
      rw [hl, length_merge hprev, hc]
      omega

/-- A step keeps the bounds exactly if it meets the guard. -/
theorem inRange_next_iff (hc : (system gob).Reachable ok c)
    (hI : ∀ p rf gs, c.state.node p = .up rf gs → rf.InRange)
    (hn : (system gob).next c a = some c') :
    (∀ p rf gs, c'.state.node p = .up rf gs → rf.InRange) ↔ ReachesCommitted c a := by
  constructor
  · intro h
    refine guard_iff.mpr fun p rf gs gr hnd hat call hcall hacc => ?_
    obtain ⟨myTerm, rfl⟩ := appendEntries_of_mem hcall
    rcases runs_of_at hn hnd hat with ⟨e, gs', hr, hnd', _⟩ | ⟨e, hp, _⟩
    · obtain ⟨k, prev, hk, hprev, hlog, _, hle⟩ := hr.accepts hacc
      have hlt := (h p e.rf gs' hnd').2.2
      rw [hlog, length_merge hprev] at hlt
      omega
    · cases hp with
      | other hp => exact absurd hp hacc.run_ne_error
  · intro ha p rf' gs' hnd'
    obtain ⟨es, q, nd, hm, _⟩ := next_moves hn
    have hstep := hm.node_step
    rw [hm.node_eq] at hnd'
    rcases eq_or_ne p q with rfl | hp
    · rw [Function.update_self] at hnd'
      subst hnd'
      exact StructStep.inRange hc ha (hI p) hstep.struct
    · rw [Function.update_of_ne hp] at hnd'
      exact hI p rf' gs' hnd'

/-- **Committed entries stay in the log** exactly in the runs in which every accepted message
reaches up to `commitIndex`. Then `applyEntries` never panics either. -/
theorem inRange_iff_accepts (gob : Labgob n α) (as : List (Action n α)) (d : Cfg n α)
    (hd : (system gob).exec (system gob).start as = some d) :
    (∀ c, (system gob).Visits as c → ∀ p rf gs, c.state.node p = .up rf gs →
      (0 ≤ rf.lastApplied ∧ rf.lastApplied ≤ rf.commitIndex ∧ rf.commitIndex < rf.log.length) ∧
        rf.applyEntries.2.isSome) ↔
      ∀ c a, (system gob).Takes as c a → ReachesCommitted c a := by
  rw [← System.visits_iff_takes (M := system gob)
    (P := fun c => ∀ p rf gs, c.state.node p = .up rf gs → rf.InRange) (fun _ _ _ h => nomatch h)
    (fun _ _ _ hc hI hn => inRange_next_iff hc hI hn) hd]
  constructor
  · intro h c hc p rf gs hnd
    exact (h c hc p rf gs hnd).1
  · intro h c hc p rf gs hnd
    exact ⟨h c hc p rf gs hnd, (h c hc p rf gs hnd).applyEntries_isSome⟩

/-- The bounds hold along `ackRun`. -/
theorem inRange_iff_accepts_ackRun :
    ∃ d, (system (Labgob.unary 3)).exec (system (Labgob.unary 3)).start ackRun = some d ∧
      ((∀ c, (system (Labgob.unary 3)).Visits ackRun c → ∀ p rf gs, c.state.node p = .up rf gs →
        (0 ≤ rf.lastApplied ∧ rf.lastApplied ≤ rf.commitIndex ∧ rf.commitIndex < rf.log.length) ∧
          rf.applyEntries.2.isSome) ↔
        ∀ c a, (system (Labgob.unary 3)).Takes ackRun c a → ReachesCommitted c a) := by
  obtain ⟨d, hd, _⟩ := exists_of_exec (Labgob.unary 3) ackRun (fun _ => true)
    (by decide +kernel)
  exact ⟨d, hd, inRange_iff_accepts (Labgob.unary 3) ackRun d hd⟩

/-- After `ackRun` the third heartbeat tells peer `1` that index `1` is committed. Before its
`applyEntries` runs, the first heartbeat arrives late and cuts the log back to index `0`. -/
def lateHeartbeatRun : List (Action 3 ℕ) :=
  ackRun ++ [.run 0 5, .deliver 4, .run 1 1, .run 1 1, .deliver 1, .run 1 2, .run 1 2]

/-- **A late heartbeat takes a committed entry away**, and `applyEntries` panics. -/
theorem late_heartbeat_cuts_committed :
    ∃ c rf gs, (system (Labgob.unary 3)).Reachable (fun _ _ => True) c ∧
      c.state.node 1 = .up rf gs ∧
      ¬ (0 ≤ rf.lastApplied ∧ rf.lastApplied ≤ rf.commitIndex ∧ rf.commitIndex < rf.log.length) ∧
      ¬ rf.applyEntries.2.isSome := by
  obtain ⟨c, hc, hchk⟩ := exists_of_exec (Labgob.unary 3) lateHeartbeatRun
    (fun c => (c.state.node 1).check fun rf => decide (rf.commitIndex = rf.log.length) &&
      rf.applyEntries.2.isNone) (by decide +kernel)
  obtain ⟨rf, gs, hnd, h⟩ := Node.exists_of_check hchk
  rw [Bool.and_eq_true, decide_eq_true_eq, Option.isNone_iff_eq_none] at h
  refine ⟨c, rf, gs, System.reaches_of_exec hc, hnd, fun hr => ?_, by simp [h.2]⟩
  omega

end Cluster

end Distsys
