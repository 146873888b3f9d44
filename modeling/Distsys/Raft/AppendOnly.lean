import Distsys.Raft.Bounds

/-!
# The log of a leader

While a peer stays in phase leader, `Start` appends to its log and nothing else should touch it. The
body of `AppendEntries` does not look at the phase, however, and runs in a later critical section
than its comparison of terms. A handler that was let in before the peer became leader can splice its
message into the leader's log.

The log of every leader only grows exactly in the runs in which such a message repeats everything it
replaces.

## Two directions

That the condition is sufficient is an induction along the run. That it is necessary is one step: a
handler that does not extend the leader's log, at the moment it runs, is itself the step after which
the log is not an extension of what it was.

## Main definitions

* `Cluster.Leads`, `Cluster.LeadsThrough` — a peer in phase leader, at one point and along a run

## Main results

* `Cluster.leader_appendOnly_iff`
-/

namespace Distsys

namespace Cluster

variable {n : ℕ} {α : Type} [Inhabited α] [DecidableEq α] {gob : Labgob n α} {c c' : Cfg n α}
  {a : Action n α} {p : Fin n} {rf rf' : Raft n α} {gs gs' : List (Goroutine n α)}
  {as : List (Action n α)}

/-- `p` is in phase leader. -/
def Leads (c : Cfg n α) (p : Fin n) : Prop :=
  ∃ rf gs, c.state.node p = .up rf gs ∧ rf.phase = .leader

/-- `p` is in phase leader after each step of the run `as` from `c`, and in `c` itself. -/
def LeadsThrough (gob : Labgob n α) (p : Fin n) (c : Cfg n α) (as : List (Action n α)) : Prop :=
  ∀ bs d, bs <+: as → (system gob).exec c bs = some d → Leads d p

omit [Inhabited α] [DecidableEq α] in
/-- A splice extends the log if it repeats what it replaces. -/
theorem prefix_merge_iff {log entries : List (LogEntry α)} {k : ℕ} :
    log <+: log.take (k + 1) ++ entries ↔ log.drop (k + 1) <+: entries := by
  have h : log.take (k + 1) ++ log.drop (k + 1) <+: log.take (k + 1) ++ entries ↔
      log.drop (k + 1) <+: entries := List.prefix_append_right_inj (log.take (k + 1))
  rwa [List.take_append_drop] at h

/-- One step of a leader that meets the guard. -/
theorem log_grows_of_next (ha : ExtendsLeader c a) (hn : (system gob).next c a = some c')
    (hnd : c.state.node p = .up rf gs) (hnd' : c'.state.node p = .up rf' gs')
    (hl : rf.phase = .leader) : rf.log <+: rf'.log := by
  obtain ⟨es, q, nd, hm, _⟩ := next_moves hn
  rw [hm.node_eq] at hnd'
  rcases eq_or_ne p q with rfl | hp
  · rw [Function.update_self] at hnd'
    subst hnd'
    have hs := hm.node_step.struct
    rw [hnd] at hs
    cases hs with
    | same | kill => exact List.prefix_refl _
    | start => exact List.prefix_append _ _
    | run hat h =>
      cases h.advance with
      | same hlog | apply hlog | commit hlog => rw [hlog]
      | @merge call myTerm k prev _ hk hprev hterm hlog =>
        have hext := ha.at hnd hat call rfl
          ⟨prev, by rw [hk, GoSlice.get_natCast]; exact hprev, hterm⟩ hl
        rw [hlog, prefix_merge_iff]
        rwa [hk, show ((k : ℤ) + 1).toNat = k + 1 by omega] at hext
  · rw [Function.update_of_ne hp, hnd] at hnd'
    cases hnd'
    exact List.prefix_refl _

/-- A whole run of a leader. -/
theorem log_grows_of_exec {as : List (Action n α)}
    (hok : ∀ bs a d, bs ++ [a] <+: as → (system gob).exec c bs = some d → ExtendsLeader d a)
    (h : (system gob).exec c as = some c') (hl : LeadsThrough gob p c as)
    (hnd : c.state.node p = .up rf gs) (hnd' : c'.state.node p = .up rf' gs') :
    rf.log <+: rf'.log := by
  induction as using List.reverseRecOn generalizing c' rf' gs' with
  | nil => cases h; rw [hnd] at hnd'; cases hnd'; exact List.prefix_refl _
  | append_singleton as a ih =>
    rw [System.exec_append] at h
    obtain ⟨d, hd, hn⟩ := Option.bind_eq_some_iff.mp h
    have hn : (system gob).next d a = some c' := by simpa [System.exec] using hn
    obtain ⟨rf₀, gs₀, hnd₀, hl₀⟩ := hl as d (List.prefix_append _ _) hd
    have hold := ih (fun bs b e hb he => hok bs b e (hb.trans (List.prefix_append _ _)) he) hd
      (fun bs e hb he => hl bs e (hb.trans (List.prefix_append _ _)) he) hnd₀
    exact hold.trans (log_grows_of_next (hok as a d (List.prefix_refl _) hd) hn hnd₀ hnd' hl₀)

/-- An accepted message leaves the phase alone, and shows in the log. -/
theorem extends_of_accepts (hn : (system gob).next c a = some c')
    (hnd : c.state.node p = .up rf gs) {call : EntriesCall n α} {myTerm : ℕ}
    (hat : At p gs a (some (.appendEntries call myTerm))) (hacc : rf.Accepts call.args) :
    ∃ rf' gs', c'.state.node p = .up rf' gs' ∧ rf'.phase = rf.phase ∧
      (rf.log <+: rf'.log →
        rf.log.drop (call.args.prevLogIndex + 1).toNat <+: call.args.entries) := by
  rcases runs_of_at hn hnd hat with ⟨e, gs', hr, hnd', _⟩ | ⟨e, hp, _⟩
  · obtain ⟨k, prev, hk, _, hlog, hphase, _⟩ := hr.accepts hacc
    refine ⟨e.rf, gs', hnd', hphase, fun hpre => ?_⟩
    rw [hlog, prefix_merge_iff] at hpre
    rwa [hk, show ((k : ℤ) + 1).toNat = k + 1 by omega]
  · cases hp with
    | other hp => exact absurd hp hacc.run_ne_error

/-- **The log of a leader only grows** exactly in the runs in which every message that is accepted
in phase leader repeats what it replaces: for every stretch `cs` of such a run in which a peer is in
phase leader throughout, its log at the end extends its log at the start. -/
theorem leader_appendOnly_iff (gob : Labgob n α) (as : List (Action n α)) (d : Cfg n α)
    (hd : (system gob).exec (system gob).start as = some d) :
    (∀ bs cs c c' p rf rf' gs gs', bs ++ cs <+: as →
      (system gob).exec (system gob).start bs = some c → (system gob).exec c cs = some c' →
      LeadsThrough gob p c cs → c.state.node p = .up rf gs → c'.state.node p = .up rf' gs' →
      rf.log <+: rf'.log) ↔
    ∀ c a, (system gob).Takes as c a → ExtendsLeader c a := by
  constructor
  · intro h c a ha
    refine guard_iff.mpr fun p rf gs gr hnd hat call hcall hacc hl => ?_
    obtain ⟨myTerm, rfl⟩ := appendEntries_of_mem hcall
    obtain ⟨c', hn, _⟩ := ha.next hd
    obtain ⟨bs, hbs, hc⟩ := ha
    obtain ⟨rf', gs', hnd', hphase, hlog⟩ := extends_of_accepts hn hnd hat hacc
    have hx : (system gob).exec c [a] = some c' := by simpa [System.exec] using hn
    refine hlog (h bs [a] c c' p rf rf' gs gs' hbs hc hx (fun es e hes he => ?_) hnd hnd')
    rcases List.prefix_concat_iff.mp (show es <+: [] ++ [a] from hes) with rfl | hnil
    · cases hx.symm.trans he; exact ⟨rf', gs', hnd', hphase.trans hl⟩
    · cases List.prefix_nil.mp hnil
      cases he; exact ⟨rf, gs, hnd, hl⟩
  · intro h bs cs c c' p rf rf' gs gs' hbs hc hx hl hnd hnd'
    refine log_grows_of_exec (fun es a e hes he => ?_) hx hl hnd hnd'
    refine h e a ⟨bs ++ es, ?_, by rw [System.exec_append, hc]; exact he⟩
    rw [List.append_assoc]
    exact ((List.prefix_append_right_inj bs).mpr hes).trans hbs

/-- The equivalence at `ackRun`. -/
theorem leader_appendOnly_iff_ackRun :
    ∃ d, (system (Labgob.unary 3)).exec (system (Labgob.unary 3)).start ackRun = some d ∧
      ((∀ bs cs c c' p rf rf' gs gs', bs ++ cs <+: ackRun →
        (system (Labgob.unary 3)).exec (system (Labgob.unary 3)).start bs = some c →
        (system (Labgob.unary 3)).exec c cs = some c' → LeadsThrough (Labgob.unary 3) p c cs →
        c.state.node p = .up rf gs → c'.state.node p = .up rf' gs' → rf.log <+: rf'.log) ↔
      ∀ c a, (system (Labgob.unary 3)).Takes ackRun c a → ExtendsLeader c a) := by
  obtain ⟨d, hd, _⟩ := exists_of_exec (Labgob.unary 3) ackRun (fun _ => true)
    (by decide +kernel)
  exact ⟨d, hd, leader_appendOnly_iff (Labgob.unary 3) ackRun d hd⟩

/-- After `electionRun` the handler of peer `1` for the first heartbeat of peer `0` passes
`termSync` and pauses. Peer `1` then wins term `2` with the vote of peer `2` and appends the command
`9`. -/
def pausedHandlerRun : List (Action 3 ℕ) :=
  electionRun ++ [.deliver 1, .run 1 1, .run 1 0, .timeout 1 1, .run 1 1, .run 1 1, .deliver 3,
    .run 2 1, .run 2 1, .run 2 1, .deliver 3, .run 1 3, .run 1 3, .run 1 1, .run 1 2, .run 1 2,
    .run 1 2, .start 1 9]

/-- **A paused handler cuts the log of a leader** when it goes on. -/
theorem paused_handler_cuts_leader :
    ∃ c c' rf rf' gs gs', (system (Labgob.unary 3)).Reachable (fun _ _ => True) c ∧
      (system (Labgob.unary 3)).next c (.run 1 0) = some c' ∧ c.state.node 1 = .up rf gs ∧
      c'.state.node 1 = .up rf' gs' ∧ rf.phase = .leader ∧ rf'.phase = .leader ∧
      ¬ rf.log <+: rf'.log := by
  obtain ⟨c, hc, hchk⟩ := exists_of_exec (Labgob.unary 3) pausedHandlerRun
    (fun c => (c.state.node 1).check (fun rf => decide (rf.phase = .leader ∧ rf.log.length = 2)) &&
      ((system (Labgob.unary 3)).next c (.run 1 0)).any fun c' => (c'.state.node 1).check
        fun rf => decide (rf.phase = .leader ∧ rf.log.length = 1)) (by decide +kernel)
  rw [Bool.and_eq_true] at hchk
  obtain ⟨c', hn, hchk'⟩ := (Option.any_eq_true _ _).mp hchk.2
  obtain ⟨rf, gs, hnd, h⟩ := Node.exists_of_check hchk.1
  obtain ⟨rf', gs', hnd', h'⟩ := Node.exists_of_check hchk'
  obtain ⟨hl, hlen⟩ := of_decide_eq_true h
  obtain ⟨hl', hlen'⟩ := of_decide_eq_true h'
  refine ⟨c, c', rf, rf', gs, gs', System.reaches_of_exec hc, hn, hnd, hnd', hl, hl',
    fun hpre => ?_⟩
  have := hpre.length_le
  omega

end Cluster

end Distsys
