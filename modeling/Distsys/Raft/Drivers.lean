import Distsys.Raft.Reelection

/-!
# No peer falls asleep

The phases of a peer are changed by many goroutines: those that drive the phase, and all callers of
`termSync`. A goroutine that finds its peer in another phase ends. So a peer would be lost if the
last goroutine of its phase had ended before the phase came back: it would neither call elections
nor send heartbeats any more, and no message could change that.

This does not happen. A goroutine of a phase only ends in another phase, or with a change of phase,
and every change of phase starts a goroutine of the new one. It is not the other way round: there
can be more than one, and the old ones go on if the phase comes back before they have looked.

So every peer that is up can get on with what its phase is for, and needs no message for that, only
its own critical sections and timers. A restart is not among these steps: it would wake up every
peer.

## Why there can be several

`phaseChange` starts a goroutine whenever the phase changes, and the goroutine of the old phase ends
when it looks the next time. If the phase has come back by then, it goes on beside the new one. A
follower may thus have two goroutines that wait for an election timeout, and a leader two loops of
heartbeats. The invariant asks for one at least.

## Main definitions

* `Goroutine.drives` — the phase that a goroutine keeps going
* `Raft.Driven`
* `Cluster.Own`, `Cluster.Gets` — the steps of one peer, and what it can get to by them

## Main results

* `Cluster.driven_of_reachable` — every peer has a goroutine of its phase
* `Cluster.peer_goes_on` — a leader can send heartbeats, and the other peers can call elections
-/

namespace Distsys

variable {n : ℕ} {α : Type} {gob : Labgob n α} {rf : Raft n α}

/-- The phase that this goroutine keeps going. -/
def Goroutine.drives : Goroutine n α → Option Phase
  | .awaitElection | .awaitTimeout | .phaseChange .candidate => some .follower
  | .callElection | .awaitVotes .. | .candidateCheck .. | .callResult .. | .phaseChange .follower =>
    some .candidate
  | .initLeader _ | .heartbeat .. | .heartbeatSleep .. => some .leader
  | _ => none

/-- The phases that are entered in a goroutine of their own. -/
def Phase.Entered (ph : Phase) : Prop := ph = .follower ∨ ph = .candidate

/-- The peer is killed or has a goroutine of its phase. -/
structure Raft.Driven (rf : Raft n α) (gs : List (Goroutine n α)) : Prop where
  /-- Somebody will look at the phase. -/
  driver : rf.phase = .exit ∨ ∃ gr ∈ gs, gr.drives = some rf.phase
  /-- Nobody is about to put the peer in phase leader, which only an election does. -/
  entered : ∀ ph, .phaseChange ph ∈ gs → ph.Entered

/-! ### One critical section

`Handover` is what a critical section does about the phase: it changes it and leaves a goroutine of
the new one, or it keeps it and goes on itself if it was of this phase. -/

theorem Goroutine.drives_pushVote (gr : Goroutine n α) (election : ℕ) (vote : Bool) :
    (gr.pushVote election vote).drives = gr.drives := by
  rcases gr.pushVote_cases election vote with heq | ⟨_, _, _, rfl, heq⟩
  · rw [heq]
  · rw [heq]
    rfl

theorem Goroutine.drives_pushReply (gr : Goroutine n α) (call : EntriesCall n α)
    (reply : AppendEntriesReply) : (gr.pushReply call reply).drives = gr.drives := by
  rcases gr.pushReply_cases call reply with heq | ⟨_, rfl, heq⟩
  · rw [heq]
  · rw [heq]
    rfl

theorem Goroutine.drives_ne_unset (gr : Goroutine n α) : gr.drives ≠ some .unset := by
  cases gr with
  | phaseChange ph => cases ph <;> simp [Goroutine.drives]
  | _ => simp [Goroutine.drives]

theorem Goroutine.pushReply_eq_phaseChange {gr : Goroutine n α} {call : EntriesCall n α}
    {reply : AppendEntriesReply} {ph : Phase} (h : gr.pushReply call reply = .phaseChange ph) :
    gr = .phaseChange ph := by
  rcases gr.pushReply_cases call reply with heq | ⟨_, _, heq⟩
  · exact heq.symm.trans h
  · cases heq.symm.trans h

theorem Runs.drives_wake {gr : Goroutine n α} {e : Effect n α} (h : Runs gob rf gr e)
    (x : Goroutine n α) : (e.wake x).drives = x.drives := by
  rcases h.wake_cases with hwake | ⟨call, vote, _, _, hwake⟩
  · rw [hwake]
    rfl
  · rw [hwake]
    exact x.drives_pushVote _ _

theorem Runs.wake_eq_phaseChange {gr x : Goroutine n α} {e : Effect n α} (h : Runs gob rf gr e)
    {ph : Phase} (hx : e.wake x = .phaseChange ph) : x = .phaseChange ph := by
  rcases h.wake_cases with hwake | ⟨call, vote, _, _, hwake⟩
  · rwa [hwake] at hx
  · rw [hwake] at hx
    rcases x.pushVote_cases call.args.term vote with heq | ⟨_, _, _, _, heq⟩
    · exact heq.symm.trans hx
    · cases heq.symm.trans hx

/-- The phase stays, and the goroutine goes on if it is one of this phase; or a goroutine of the new
phase is started. -/
inductive Handover (rf : Raft n α) (gr : Goroutine n α) (e : Effect n α) : Prop where
  | same (hphase : e.rf.phase = rf.phase)
      (hnext : gr.drives = some rf.phase → ∃ x ∈ e.next, x.drives = some rf.phase)
  | changed (hnext : ∃ x ∈ e.next, x.drives = some e.rf.phase)

theorem Handover.of_ne {gr : Goroutine n α} {e : Effect n α} (hphase : e.rf.phase = rf.phase)
    (hne : gr.drives ≠ some rf.phase) : Handover rf gr e :=
  .same hphase fun h => absurd h hne

theorem Handover.of_eq {gr x : Goroutine n α} {e : Effect n α} (hphase : e.rf.phase = rf.phase)
    (hx : x ∈ e.next) (hdrives : x.drives = gr.drives) : Handover rf gr e :=
  .same hphase fun h => ⟨x, hx, hdrives.trans h⟩

/-- A change of phase starts a goroutine of the new one. -/
theorem Raft.handover_phaseChangeGo (rf : Raft n α) {gr : Goroutine n α} {ph : Phase}
    (hph : ph.Entered) (hne : gr.drives ≠ some ph) (hexit : gr.drives ≠ some .exit) :
    Handover rf gr (rf.phaseChangeGo ph) := by
  by_cases h : rf.phase = .exit
  · exact .of_ne (by simp [Raft.phaseChangeGo, Raft.phaseChange, h]) (h ▸ hexit)
  by_cases h' : rf.phase = ph
  · exact .of_ne (by simp [Raft.phaseChangeGo, Raft.phaseChange, h']) (h' ▸ hne)
  rcases hph with rfl | rfl
  · exact .changed ⟨.awaitElection, by
      simp [Raft.phaseChangeGo, Raft.phaseChange, h, h', initPhase, Goroutine.drives]⟩
  · exact .changed ⟨.callElection, by
      simp [Raft.phaseChangeGo, Raft.phaseChange, h, h', initPhase, Goroutine.drives]⟩

theorem Raft.handover_runResult (rf : Raft n α) (election voteCount : ℕ) :
    Handover rf (.callResult election voteCount) (rf.runResult election voteCount) := by
  unfold Raft.runResult
  split
  · by_cases h : rf.phase = .exit
    · exact .of_ne (by simp [Raft.phaseChange, h]) (by simp [Goroutine.drives, h])
    by_cases h' : rf.phase = .leader
    · exact .of_ne (by simp [Raft.phaseChange, h']) (by simp [Goroutine.drives, h'])
    · exact .changed ⟨.initLeader election, by simp [Raft.phaseChange, h, h', Goroutine.drives]⟩
  · exact rf.handover_phaseChangeGo (Or.inl rfl) (by simp [Goroutine.drives])
      (by simp [Goroutine.drives])

/-- **One critical section.** -/
theorem handover_of_run {gr : Goroutine n α} {e : Effect n α}
    (hentered : ∀ ph, gr = .phaseChange ph → ph.Entered) (h : gr.run gob rf = some (.ok e)) :
    Handover rf gr e := by
  cases runs_of_run h with
  | phaseChange | phaseChangeSame =>
    have hph := hentered _ rfl
    rw [← Except.ok.inj (Option.some.inj h)]
    refine rf.handover_phaseChangeGo hph ?_ ?_ <;> rcases hph with rfl | rfl <;>
      simp [Goroutine.drives]
  -- `Runs` does not say that an election must change the phase of a candidate
  | elected | lost | callResultSame =>
    rw [← Except.ok.inj (Option.some.inj h)]
    exact rf.handover_runResult _ _
  | awaitElection | lastVote | vote | candidateCheck | initLeader =>
    exact .of_eq rfl (List.mem_singleton_self _) rfl
  | callElection | heartbeat => exact .of_eq rfl List.mem_cons_self rfl
  | commit _ hadjust hcommit =>
    refine .of_eq ?_ List.mem_cons_self rfl
    obtain ⟨_, _, rfl⟩ := Raft.adjustIndices_eq hadjust
    rcases Raft.commitPhase_eq_some hcommit with ⟨rfl, _⟩ | ⟨_, _, _, _, rfl, _⟩ <;> rfl
  | awaitElectionExit hne | callElectionExit hne | candidateCheckExit hne | heartbeatExit hne
  | commitExit hne => exact .of_ne rfl fun heq => hne (Option.some.inj heq).symm
  | applyEntries happly =>
    rw [Raft.applyEntries_eq_some happly]
    exact .of_ne rfl (by simp [Goroutine.drives])
  | demote =>
    refine .changed ⟨.awaitElection, List.mem_append_right _ (List.mem_singleton_self _), ?_⟩
    simp [Goroutine.drives]
  | react | ignore | demoteSame => exact .of_ne (by simp) (by simp [Goroutine.drives])
  | merge _ _ hr =>
    obtain ⟨_, _, _, rfl⟩ := Raft.mergeLog_eq_some hr
    exact .of_ne rfl (by simp [Goroutine.drives])
  | _ => exact .of_ne rfl (by simp [Goroutine.drives])

theorem Spawns.not_phaseChange {gr : Goroutine n α} {es : List (Event n α)} {ph : Phase}
    (h : Spawns rf gr (.phaseChange ph) es) : False := by
  cases h with
  | routine h => cases h

/-! ### One step

Goroutines that do not run are only changed in the contents of their channels, and these do not
matter here. -/

/-- The goroutines of a peer behind a step in which one of them is taken and others are added. -/
theorem Raft.Driven.replace {gs gs' : List (Goroutine n α)} {x : Goroutine n α} {e : Effect n α}
    (h : rf.Driven gs) (hover : Handover rf x e)
    (hkeep : ∀ gr ∈ gs, gr ≠ x → ∃ gr' ∈ gs', gr'.drives = gr.drives)
    (hnext : ∀ gr ∈ e.next, gr ∈ gs')
    (hentered : ∀ ph, .phaseChange ph ∈ gs' → ph.Entered) : e.rf.Driven gs' := by
  refine ⟨?_, hentered⟩
  cases hover with
  | changed hx =>
    obtain ⟨y, hy, hdrives⟩ := hx
    exact Or.inr ⟨y, hnext y hy, hdrives⟩
  | same hphase hx =>
    rw [hphase]
    rcases h.driver with hexit | ⟨gr, hgr, hdrives⟩
    · exact Or.inl hexit
    by_cases heq : gr = x
    · obtain ⟨y, hy, hdrives'⟩ := hx (heq ▸ hdrives)
      exact Or.inr ⟨y, hnext y hy, hdrives'⟩
    · obtain ⟨y, hy, hdrives'⟩ := hkeep gr hgr heq
      exact Or.inr ⟨y, hy, hdrives'.trans hdrives⟩

theorem drives_of_timeout {gr gr' : Goroutine n α} (h : gr.timeout = some gr') :
    gr'.drives = gr.drives ∧ ∀ ph, gr' = .phaseChange ph → ph.Entered := by
  cases gr with
  | awaitTimeout => cases h; exact ⟨rfl, by rintro _ ⟨⟩; exact Or.inr rfl⟩
  | awaitVotes => cases h; exact ⟨rfl, by rintro _ ⟨⟩; exact Or.inl rfl⟩
  | _ => cases h

theorem drives_of_reset {gr gr' : Goroutine n α} (h : gr.reset = some gr') :
    gr'.drives = gr.drives ∧ ∀ ph, gr' = .phaseChange ph → ph.Entered := by
  cases gr with
  | awaitTimeout => cases h; exact ⟨rfl, by rintro _ ⟨⟩⟩
  | awaitVotes => cases h; exact ⟨rfl, by rintro _ ⟨⟩; exact Or.inl rfl⟩
  | _ => cases h

theorem drives_of_fail {gr : Goroutine n α} {next : List (Goroutine n α)}
    (h : gr.fail = some next) : gr.drives = none ∧ ∀ ph, .phaseChange ph ∉ next := by
  cases gr with
  | callRequestVote => cases h; exact ⟨rfl, by simp⟩
  | callAppendEntries => cases h; exact ⟨rfl, by simp⟩
  | _ => cases h

/-- A `select` goes on. -/
theorem Raft.Driven.interrupt {gs : List (Goroutine n α)} {g : ℕ} {gr gr' : Goroutine n α}
    (h : rf.Driven gs) (hg : gs[g]? = some gr) (hdrives : gr'.drives = gr.drives)
    (hentered : ∀ ph, gr' = .phaseChange ph → ph.Entered) :
    rf.Driven (gs.eraseIdx g ++ [gr']) := by
  have hover : Handover rf gr { rf, next := [gr'] } :=
    .of_eq rfl (List.mem_singleton_self _) hdrives
  refine h.replace hover (fun y hy hne => ?_) ?_ fun ph hph => ?_
  · exact ⟨y, List.mem_append_left _ (mem_eraseIdx_of_ne hg hy hne), rfl⟩
  · exact fun y hy => List.mem_append_right _ hy
  · rcases List.mem_append.mp hph with hph | hph
    · exact h.entered ph (List.mem_of_mem_eraseIdx hph)
    · exact hentered ph (List.mem_singleton.mp hph).symm

/-- The goroutines that drive a phase stay, and no change of phase is added. -/
theorem Raft.Driven.mono {gs gs' : List (Goroutine n α)} (h : rf.Driven gs)
    (hkeep : ∀ gr ∈ gs, gr.drives ≠ none → ∃ gr' ∈ gs', gr'.drives = gr.drives)
    (hentered : ∀ ph, .phaseChange ph ∈ gs' → .phaseChange ph ∈ gs) : rf.Driven gs' := by
  refine ⟨?_, fun ph hph => h.entered ph (hentered ph hph)⟩
  rcases h.driver with hexit | ⟨gr, hgr, hdrives⟩
  · exact Or.inl hexit
  · obtain ⟨gr', hgr', heq⟩ := hkeep gr hgr (by rw [hdrives]; simp)
    exact Or.inr ⟨gr', hgr', heq.trans hdrives⟩

namespace Cluster

variable [Inhabited α] [DecidableEq α] {ok : Cfg n α → Action n α → Prop} {c c' : Cfg n α}
  {p : Fin n} {gs : List (Goroutine n α)}

/-- A step of a goroutine, as the function says. -/
theorem run_of_next {g : ℕ} {gr : Goroutine n α} (hn : (system gob).next c (.run p g) = some c')
    (hnd : c.state.node p = .up rf gs) (hg : gs[g]? = some gr) {rf' : Raft n α}
    {gs' : List (Goroutine n α)} (hup : c'.state.node p = .up rf' gs') :
    ∃ e, gr.run gob rf = some (.ok e) ∧ rf' = e.rf ∧
      gs' = (gs.eraseIdx g).map e.wake ++ e.next := by
  obtain ⟨es, hs, _⟩ := System.next_eq_some_iff.mp hn
  simp only [system, step, hnd, hg, Option.bind_some] at hs
  split at hs
  · cases hs
  · have hstate : _ = c'.state := congrArg Prod.fst (Option.some.inj hs)
    rw [← hstate] at hup
    cases (Function.update_self ..).symm.trans hup
  · rename_i e hrun
    have hstate : _ = c'.state := congrArg Prod.fst (Option.some.inj hs)
    rw [← hstate] at hup
    cases (Function.update_self ..).symm.trans hup
    exact ⟨e, hrun, rfl, rfl⟩

/-- **Every peer has a goroutine of its phase**, in any run. -/
theorem driven_of_reachable (hc : (system gob).Reachable ok c)
    (hnd : c.state.node p = .up rf gs) : rf.Driven gs := by
  refine node_invariant (I := fun _ _ nd => ∀ rf gs, nd = .up rf gs → rf.Driven gs)
    (fun _ => nofun) (fun _ _ _ _ _ _ h => h) ?_ hc p rf gs hnd
  intro c a c' p nd es _ hI _ hn _ hstep hnd' rf' gs' hup
  subst hup
  have hI := hI p
  generalize hnd : c.state.node p = nd₀ at hstep hI
  cases hstep with
  | make =>
    obtain ⟨_, _, _, h⟩ := Raft.make_eq gob p _
    rw [h]
    exact ⟨Or.inr ⟨_, List.mem_singleton_self _, rfl⟩, by simp⟩
  | kill => exact ⟨Or.inl rfl, (hI _ _ rfl).entered⟩
  | start h =>
    have hdriven := hI _ _ rfl
    exact ⟨hdriven.driver, hdriven.entered⟩
  | startRefused => exact hI _ _ rfl
  | @run _ _ _ gr _ hg =>
    obtain ⟨e, hrun, hrf, hgs⟩ := run_of_next hn hnd hg hnd'
    rw [hrf, hgs]
    have hdriven := hI _ _ rfl
    have hruns := runs_of_run hrun
    have hover := handover_of_run
      (fun ph heq => hdriven.entered ph (heq ▸ List.mem_of_getElem? hg)) hrun
    refine hdriven.replace hover (fun y hy hne => ?_) (fun y hy => List.mem_append_right _ hy)
      fun ph hph => ?_
    · exact ⟨e.wake y, List.mem_append_left _
        (List.mem_map_of_mem (mem_eraseIdx_of_ne hg hy hne)), hruns.drives_wake y⟩
    · rcases List.mem_append.mp hph with hph | hph
      · obtain ⟨y, hy, heq⟩ := List.mem_map.mp hph
        rw [hruns.wake_eq_phaseChange heq] at hy
        exact hdriven.entered ph (List.mem_of_mem_eraseIdx hy)
      · exact ((hruns.spawns hph).not_phaseChange).elim
  | timeout hg h => exact (hI _ _ rfl).interrupt hg (drives_of_timeout h).1 (drives_of_timeout h).2
  | reset hg h => exact (hI _ _ rfl).interrupt hg (drives_of_reset h).1 (drives_of_reset h).2
  | fail hg h =>
    obtain ⟨hnone, hnext⟩ := drives_of_fail h
    refine (hI _ _ rfl).mono (fun y hy hdrives => ⟨y, List.mem_append_left _ ?_, rfl⟩)
      fun ph hph => ?_
    · exact mem_eraseIdx_of_ne hg hy fun heq => hdrives (heq ▸ hnone)
    · rcases List.mem_append.mp hph with hph | hph
      · exact List.mem_of_mem_eraseIdx hph
      · exact absurd hph (hnext ph)
  | requestVote | appendEntries =>
    exact (hI _ _ rfl).mono (fun y hy _ => ⟨y, List.mem_append_left _ hy, rfl⟩) (by simp)
  | requestVoteReply _ _ hg =>
    refine (hI _ _ rfl).mono (fun y hy hdrives => ⟨y, List.mem_append_left _ ?_, rfl⟩)
      fun ph hph => ?_
    · refine (List.mem_erase_of_ne ?_).mpr hy
      rintro rfl
      exact hdrives rfl
    · rcases List.mem_append.mp hph with hph | hph
      · exact List.mem_of_mem_erase hph
      · simp at hph
  | @appendEntriesReply _ _ _ _ call reply =>
    refine (hI _ _ rfl).mono (fun y hy hdrives => ⟨y.pushReply call reply, ?_,
      y.drives_pushReply call reply⟩) fun ph hph => ?_
    · refine List.mem_append_left _ (List.mem_map_of_mem ((List.mem_erase_of_ne ?_).mpr hy))
      rintro rfl
      exact hdrives rfl
    · rcases List.mem_append.mp hph with hph | hph
      · obtain ⟨y, hy, heq⟩ := List.mem_map.mp hph
        rw [Goroutine.pushReply_eq_phaseChange heq] at hy
        exact List.mem_of_mem_erase hy
      · simp at hph

/-! ### What a peer can do alone

The run that leads to the goal is built step by step, for any configuration with the goroutine in
question. Other goroutines and other peers are left as they are. -/

/-- A critical section of a goroutine of `p`, or a timer of one that fires. -/
def Own (p : Fin n) (_ : Cfg n α) (a : Action n α) : Prop := ∃ g, a = .run p g ∨ a = .timeout p g

/-- By steps of its own, and with these events, `p` can come to have this struct and this
goroutine. -/
def Gets (gob : Labgob n α) (base : Cfg n α) (p : Fin n) (rf : Raft n α) (x : Goroutine n α)
    (es : List (Event n α)) : Prop :=
  ∃ c gs, (system gob).Reaches (Own p) base c ∧ c.state.node p = .up rf gs ∧ x ∈ gs ∧
    (∀ q, q ≠ p → c.state.node q = base.state.node q) ∧ c.trace = base.trace ++ es

section Gets

variable {base : Cfg n α} {x y : Goroutine n α} {es : List (Event n α)}

/-- A step that replaces the node of `p`. -/
theorem Gets.put (h : Gets gob base p rf x es) {rf' : Raft n α} {es' : List (Event n α)}
    (hstep : ∀ (c : Cfg n α) gs (g : ℕ), c.state.node p = .up rf gs → gs[g]? = some x →
      ∃ a gs' resets, Own p c a ∧ y ∈ gs' ∧ step gob c.state a = some
        (({ c.state with electionReset := resets } : Cluster n α).put p (.up rf' gs') es')) :
    Gets gob base p rf' y (es ++ es') := by
  obtain ⟨c, gs, hreach, hnd, hx, hrest, htrace⟩ := h
  obtain ⟨g, hg⟩ := List.mem_iff_getElem?.mp hx
  obtain ⟨a, gs', resets, ha, hy, hs⟩ := hstep c gs g hnd hg
  refine ⟨⟨_, c.trace ++ es'⟩, gs', hreach.tail ha (System.next_eq_some_iff.mpr ⟨es', hs, rfl⟩),
    Function.update_self .., hy, fun q hq => ?_, ?_⟩
  · exact (Function.update_of_ne hq ..).trans (hrest q hq)
  · rw [htrace, List.append_assoc]

theorem Gets.run (h : Gets gob base p rf x es) {e : Effect n α}
    (hrun : x.run gob rf = some (.ok e)) (hy : y ∈ e.next) :
    Gets gob base p e.rf y (es ++ e.events) := by
  refine h.put fun c gs g hnd hg => ⟨.run p g, (gs.eraseIdx g).map e.wake ++ e.next,
    c.state.electionReset + e.resets, ⟨g, Or.inl rfl⟩, List.mem_append_right _ hy, ?_⟩
  simp only [step, hnd, hg, Option.bind_some, hrun]

theorem Gets.timeout (h : Gets gob base p rf x es) (htimeout : x.timeout = some y) :
    Gets gob base p rf y es := by
  rw [← List.append_nil es]
  refine h.put fun c gs g hnd hg => ⟨.timeout p g, gs.eraseIdx g ++ [y], c.state.electionReset,
    ⟨g, Or.inr rfl⟩, List.mem_append_right _ (List.mem_singleton_self y), ?_⟩
  simp only [step, resume, hnd, hg, Option.bind_some, htimeout, Option.map_some]

/-- Nothing panics on the way. -/
theorem Gets.exists_run (hn : 2 ≤ n) (hbase : (system gob).Reachable (fun _ _ => True) base)
    (h : Gets gob base p rf x es) (happly : x ≠ .applyEntries) (hrun : x.run gob rf ≠ none) :
    ∃ e, x.run gob rf = some (.ok e) := by
  obtain ⟨c, gs, hreach, hnd, hx, _, _⟩ := h
  have hc : (system gob).Reachable (fun _ _ => True) c :=
    System.Reaches.trans hbase (hreach.mono fun _ _ _ => trivial)
  obtain ⟨r, hr⟩ := Option.ne_none_iff_exists'.mp hrun
  cases r with
  | ok e => exact ⟨e, hr⟩
  | error e => exact absurd hr (inBounds_of_reachable hn hc p rf gs x e hnd hx happly)

/-- `p` can call an election in term `T` or win one. -/
def Stands (gob : Labgob n α) (base : Cfg n α) (p : Fin n) (T : ℕ) : Prop :=
  ∃ rf x es, Gets gob base p rf x es ∧ (.candidacy p T ∈ es ∨ ∃ T', .elected p T' ∈ es)

/-- `p` can send heartbeats of term `T` to all other peers. -/
def Beats (gob : Labgob n α) (base : Cfg n α) (p : Fin n) (T : ℕ) : Prop :=
  ∃ rf x es, Gets gob base p rf x es ∧ ∀ q, q ≠ p → ∃ call : EntriesCall n α,
    call.server = q ∧ call.args.leaderID = p ∧ call.args.term = T ∧ .sent (.appendEntries call) ∈ es

section Phases

variable (hn : 2 ≤ n) (hbase : (system gob).Reachable (fun _ _ => True) base)

include hn hbase

/-- A candidate calls an election. -/
theorem Gets.call (h : Gets gob base p rf .callElection es) (hme : rf.me = p)
    (hphase : rf.phase = .candidate) : Stands gob base p (rf.currentTerm + 1) := by
  obtain ⟨e, hrun⟩ := h.exists_run hn hbase (by simp) (by simp [Goroutine.run])
  cases runs_of_run hrun with
  | callElectionExit hne => exact absurd hphase hne
  | callElection _ hlast hargs =>
    refine ⟨_, _, _, h.run hrun List.mem_cons_self, Or.inl (List.mem_append_right _ ?_)⟩
    rw [hargs, hme]
    exact List.mem_cons_self

/-- A follower becomes a candidate when its timer fires. -/
theorem Gets.follow {x : Goroutine n α} (h : Gets gob base p rf x es) (hme : rf.me = p)
    (hphase : rf.phase = .follower) (hx : x.drives = some .follower) :
    Stands gob base p (rf.currentTerm + 1) := by
  have hstand : Gets gob base p rf (.phaseChange .candidate) es →
      Stands gob base p (rf.currentTerm + 1) := by
    intro h
    have hcall := h.run (run_phaseChange (by simp [hphase]) (by simp [hphase]))
      (List.mem_singleton_self _)
    exact (hcall.call hn hbase hme rfl :)
  have hawait : Gets gob base p rf .awaitTimeout es → Stands gob base p (rf.currentTerm + 1) :=
    fun h => hstand (h.timeout rfl)
  cases x with
  | awaitElection =>
    have h' := h.run (run_awaitElection hphase) (List.mem_singleton_self _)
    rw [List.append_nil] at h'
    exact hawait h'
  | awaitTimeout => exact hawait h
  | phaseChange ph =>
    cases ph with
    | candidate => exact hstand h
    | _ => cases hx
  | _ => cases hx

/-- A candidate that has waited for too long starts again as a follower. -/
theorem Gets.withdraw (h : Gets gob base p rf (.phaseChange .follower) es) (hme : rf.me = p)
    (hphase : rf.phase = .candidate) : Stands gob base p (rf.currentTerm + 1) := by
  have hfollow := h.run (run_phaseChange (by simp [hphase]) (by simp [hphase]))
    (List.mem_singleton_self _)
  exact (hfollow.follow hn hbase hme rfl rfl :)

/-- The end of an election. A goroutine of an older one does not look at the term, so `election`
need not be the current one. -/
theorem Gets.result {election voteCount : ℕ}
    (h : Gets gob base p rf (.callResult election voteCount) es) (hme : rf.me = p)
    (hphase : rf.phase = .candidate) : Stands gob base p (rf.currentTerm + 1) := by
  by_cases hvotes : Raft.majority n ≤ voteCount
  · have hrun : Goroutine.run gob rf (.callResult election voteCount) = some (.ok {
        rf := { rf with phase := .leader }
        next := [.initLeader election]
        events := [.elected rf.me election] }) := by
      simp [Goroutine.run, Raft.runResult, Raft.phaseChange, hvotes, hphase]
    refine ⟨_, _, _, h.run hrun (List.mem_singleton_self _), Or.inr ⟨election, ?_⟩⟩
    rw [hme]
    exact List.mem_append_right _ (List.mem_singleton_self _)
  · have hrun : Goroutine.run gob rf (.callResult election voteCount) = some (.ok
        { rf := { rf with phase := .follower }, next := [.awaitElection] }) := by
      simp [Goroutine.run, Raft.runResult, Raft.phaseChangeGo, Raft.phaseChange, hvotes, hphase,
        initPhase]
    have hfollow := h.run hrun (List.mem_singleton_self _)
    exact (hfollow.follow hn hbase hme rfl rfl :)

/-- Each goroutine of a candidate ends its election or calls the next one. -/
theorem Gets.canvass {x : Goroutine n α} (h : Gets gob base p rf x es) (hme : rf.me = p)
    (hphase : rf.phase = .candidate) (hx : x.drives = some .candidate) :
    Stands gob base p (rf.currentTerm + 1) := by
  cases x with
  | callElection => exact h.call hn hbase hme hphase
  | awaitVotes election i voteCount votes => exact (h.timeout rfl).withdraw hn hbase hme hphase
  | candidateCheck election voteCount =>
    have hrun : Goroutine.run gob rf (.candidateCheck election voteCount) = some (.ok
        { rf, next := [.callResult election voteCount] }) := by
      simp [Goroutine.run, hphase]
    exact (h.run hrun (List.mem_singleton_self _)).result hn hbase hme hphase
  | callResult election voteCount => exact h.result hn hbase hme hphase
  | phaseChange ph =>
    cases ph with
    | follower => exact h.withdraw hn hbase hme hphase
    | _ => cases hx
  | _ => cases hx

/-- A leader sends its heartbeat. -/
theorem Gets.beat {election beatNumber : ℕ}
    (h : Gets gob base p rf (.heartbeat election beatNumber) es) (hme : rf.me = p)
    (hphase : rf.phase = .leader) : Beats gob base p rf.currentTerm := by
  obtain ⟨e, hrun⟩ := h.exists_run hn hbase (by simp) (by simp [Goroutine.run])
  cases runs_of_run hrun with
  | heartbeatExit hne => exact absurd hphase hne
  | heartbeat _ hbeat hcalls =>
    refine ⟨_, _, _, h.run hrun List.mem_cons_self, fun q hq => ?_⟩
    obtain ⟨call, hmem, hcall⟩ :=
      exists_of_mapM_eq_some hcalls (Raft.mem_others.mpr (hme.symm ▸ hq))
    obtain ⟨args, hargs, rfl⟩ := Option.map_eq_some_iff.mp hcall
    obtain ⟨_, _, _, _, _, _, hargs⟩ := Raft.appendEntriesArgs_eq_some hargs
    refine ⟨_, rfl, ?_, ?_, List.mem_append_right _ (List.mem_map_of_mem hmem)⟩
    · rw [hargs, hme]
    · rw [hargs]

/-- Each goroutine of a leader comes to its next heartbeat. -/
theorem Gets.lead {x : Goroutine n α} (h : Gets gob base p rf x es) (hme : rf.me = p)
    (hphase : rf.phase = .leader) (hx : x.drives = some .leader) :
    Beats gob base p rf.currentTerm := by
  cases x with
  | initLeader election =>
    have hbeat := h.run (e := {
      rf := rf.initLeader
      next := [.heartbeat election 1]
      events := [.initLeader rf.me election] }) rfl (List.mem_singleton_self _)
    exact (hbeat.beat hn hbase hme hphase :)
  | heartbeat election beatNumber => exact h.beat hn hbase hme hphase
  | heartbeatSleep beat replies =>
    obtain ⟨e, hrun⟩ := h.exists_run hn hbase (by simp) (by simp [Goroutine.run])
    cases runs_of_run hrun with
    | commitExit hne => exact absurd hphase hne
    | @commit _ _ rf₁ rf₂ _ _ hadjust hcommit =>
      have hsame : rf₂.me = rf.me ∧ rf₂.phase = rf.phase ∧ rf₂.currentTerm = rf.currentTerm := by
        obtain ⟨_, _, rfl⟩ := Raft.adjustIndices_eq hadjust
        rcases Raft.commitPhase_eq_some hcommit with ⟨rfl, _⟩ | ⟨_, _, _, _, rfl, _⟩ <;>
          exact ⟨rfl, rfl, rfl⟩
      have hbeat := (h.run hrun List.mem_cons_self).beat hn hbase (hsame.1.trans hme)
        (hsame.2.1.trans hphase)
      rwa [hsame.2.2] at hbeat
  | phaseChange ph => cases ph <;> cases hx
  | _ => cases hx

end Phases

end Gets

/-- **No peer falls asleep.** Whatever has happened to a cluster of two peers or more, a peer that
is up and not killed can go on by its own critical sections and timers: a leader sends a heartbeat
of its current term to every other peer, and a peer that does not lead calls an election in the next
term or is elected. The other peers take no step. -/
theorem peer_goes_on (hn : 2 ≤ n) (gob : Labgob n α) (c : Cfg n α)
    (hc : (system gob).Reachable (fun _ _ => True) c) (p : Fin n) (rf : Raft n α)
    (gs : List (Goroutine n α)) (hnd : c.state.node p = .up rf gs) (hexit : rf.phase ≠ .exit) :
    ∃ c' es, (system gob).Reaches (Own p) c c' ∧ c'.trace = c.trace ++ es ∧
      (∀ q, q ≠ p → c'.state.node q = c.state.node q) ∧
      (rf.phase = .leader → ∀ q, q ≠ p → ∃ call : EntriesCall n α, call.server = q ∧
        call.args.leaderID = p ∧ call.args.term = rf.currentTerm ∧
        .sent (.appendEntries call) ∈ es) ∧
      (rf.phase ≠ .leader →
        .candidacy p (rf.currentTerm + 1) ∈ es ∨ ∃ T, .elected p T ∈ es) := by
  have hme : rf.me = p := me_of_reachable hc hnd
  obtain ⟨x, hx, hdrives⟩ := (driven_of_reachable hc hnd).driver.resolve_left hexit
  have h : Gets gob c p rf x [] :=
    ⟨c, gs, System.Reaches.refl c, hnd, hx, fun _ _ => rfl, (List.append_nil _).symm⟩
  by_cases hl : rf.phase = .leader
  · obtain ⟨_, _, es, ⟨c', _, hreach, _, _, hrest, htrace⟩, hsent⟩ :=
      h.lead hn hc hme hl (hl ▸ hdrives)
    exact ⟨c', es, hreach, htrace, hrest, fun _ => hsent, fun hne => absurd hl hne⟩
  · have hstands : Stands gob c p (rf.currentTerm + 1) := by
      cases hphase : rf.phase with
      | follower => exact h.follow hn hc hme hphase (hphase ▸ hdrives)
      | candidate => exact h.canvass hn hc hme hphase (hphase ▸ hdrives)
      | leader => exact absurd hphase hl
      | unset => exact absurd (hphase ▸ hdrives) x.drives_ne_unset
      | exit => exact absurd hphase hexit
    obtain ⟨_, _, es, ⟨c', _, hreach, _, _, hrest, htrace⟩, hevent⟩ := hstands
    exact ⟨c', es, hreach, htrace, hrest, fun h => absurd h hl, fun _ => hevent⟩

/-- After `raisedLeaderRun` peer `0` leads in a term nobody elected it in, and still sends
heartbeats. -/
theorem peer_goes_on_raisedLeaderRun :
    ∃ c rf gs, (system (Labgob.unary 3)).Reachable (fun _ _ => True) c ∧
      c.state.node 0 = .up rf gs ∧ rf.phase = .leader ∧
      ∃ c' es, (system (Labgob.unary 3)).Reaches (Own 0) c c' ∧ c'.trace = c.trace ++ es ∧
        (∀ q, q ≠ 0 → c'.state.node q = c.state.node q) ∧
        (rf.phase = .leader → ∀ q, q ≠ 0 → ∃ call : EntriesCall 3 ℕ, call.server = q ∧
          call.args.leaderID = 0 ∧ call.args.term = rf.currentTerm ∧
          .sent (.appendEntries call) ∈ es) ∧
        (rf.phase ≠ .leader →
          .candidacy 0 (rf.currentTerm + 1) ∈ es ∨ ∃ T, .elected 0 T ∈ es) := by
  obtain ⟨c, hc, hchk⟩ := exists_of_exec (Labgob.unary 3) raisedLeaderRun
    (fun c => (c.state.node 0).check fun rf => decide (rf.phase = .leader)) (by decide +kernel)
  obtain ⟨rf, gs, hnd, h⟩ := Node.exists_of_check hchk
  have hr := System.reaches_of_exec hc
  have hphase : rf.phase = .leader := of_decide_eq_true h
  exact ⟨c, rf, gs, hr, hnd, hphase,
    peer_goes_on (by decide) (Labgob.unary 3) c hr 0 rf gs hnd (by rw [hphase]; decide)⟩

end Cluster

end Distsys
