import Distsys.Raft.Bounds

/-!
# Commands are applied in order

Every commit, of a leader or of a follower, starts a goroutine `applyEntries`, and that goroutine
may run much later. It does not know which commit started it: it applies whatever is committed when
it gets the lock, in one critical section, and the goroutines that come after it find nothing left
to do. Hence the commands of one incarnation of a peer are applied in the order of the log, without
gaps, each once; and a goroutine is pending for as long as something is left to apply.

`sentIndices` reads off the trace what an incarnation has sent on `applyCh`.

## Main definitions

* `sentIndices`, `indicesUpTo`
* `Node.InOrder` — the invariant

## Main results

* `Cluster.inOrder_of_reachable`, `Cluster.applied_in_order`
-/

namespace Distsys

variable {n : ℕ} {α : Type} {gob : Labgob n α} {rf : Raft n α} {p : Fin n}
  {es : List (Event n α)} {sent : List ℤ}

/-! ### What was sent on `applyCh`

A service that restarts with its peer begins with an empty state machine, so what counts is what an
incarnation has sent since its `Make`. -/

/-- An event, seen by somebody who writes down the `CommandIndex` values that `p` sends and starts a
new list with every `Make`. -/
def Event.track (p : Fin n) (sent : List ℤ) : Event n α → List ℤ
  | .made q => if q = p then [] else sent
  | .applied q msg => if q = p then sent ++ [msg.commandIndex] else sent
  | _ => sent

/-- The `CommandIndex` values that the current incarnation of `p`, the last one if `p` is down, has
sent on `applyCh`, in this order. -/
def sentIndices (tr : List (Event n α)) (p : Fin n) : List ℤ := tr.foldl (Event.track p) []

/-- `1, 2, ..., k`. -/
def indicesUpTo (k : ℕ) : List ℤ := (List.range k).map fun i => (i : ℤ) + 1

theorem foldl_track_of_silent (h : ∀ ev ∈ es, ∀ sent, Event.track p sent ev = sent)
    (sent : List ℤ) : es.foldl (Event.track p) sent = sent := by
  induction es generalizing sent with
  | nil => rfl
  | cons ev es ih =>
    rw [List.foldl_cons, h ev List.mem_cons_self,
      ih fun ev hev => h ev (List.mem_cons_of_mem _ hev)]

theorem foldl_track_applied (msgs : List (ApplyMsg α)) (sent : List ℤ) :
    (msgs.map (Event.applied p)).foldl (Event.track p) sent =
      sent ++ msgs.map ApplyMsg.commandIndex := by
  induction msgs generalizing sent with
  | nil => simp
  | cons msg msgs ih => simp [Event.track, ih]

/-- What the loop of `applyEntries` sends continues the list, also when it panics. -/
theorem Raft.applyLoop_indices (log : List (LogEntry α)) (lastApplied k : ℕ) :
    ∃ m, indicesUpTo lastApplied ++
        (Raft.applyLoop log lastApplied k).1.map ApplyMsg.commandIndex = indicesUpTo m ∧
      ∀ i, (Raft.applyLoop log lastApplied k).2 = some i → i = m := by
  induction k generalizing lastApplied with
  | zero => exact ⟨lastApplied, by simp [Raft.applyLoop], fun i hi => (Option.some.inj hi).symm⟩
  | succ k ih =>
    unfold Raft.applyLoop
    split
    · exact ⟨lastApplied, by simp, fun i hi => by cases hi⟩
    · obtain ⟨m, hm, hi⟩ := ih (lastApplied + 1)
      refine ⟨m, ?_, hi⟩
      rw [← hm]
      simp [indicesUpTo, List.range_succ]

theorem Raft.applyEntries_indices {msgs : List (ApplyMsg α)} {r : Option (Raft n α)}
    (h : rf.applyEntries = (msgs, r)) (h₀ : 0 ≤ rf.lastApplied) :
    ∃ m, indicesUpTo rf.lastApplied.toNat ++ msgs.map ApplyMsg.commandIndex = indicesUpTo m ∧
      ∀ rf', r = some rf' → rf'.lastApplied.toNat = m := by
  obtain ⟨m, hm, hi⟩ := Raft.applyLoop_indices rf.log rf.lastApplied.toNat
    (rf.commitIndex - rf.lastApplied).toNat
  rw [Int.toNat_of_nonneg h₀] at hm hi
  obtain ⟨rfl, rfl⟩ := Prod.mk.inj h
  refine ⟨m, hm, fun rf' hrf' => ?_⟩
  obtain ⟨i, hi', rfl⟩ := Option.map_eq_some_iff.mp hrf'
  rw [hi i hi']
  exact Int.toNat_natCast m

/-! ### One critical section

Two facts about a single critical section: nobody but `applyEntries` sends anything, and whoever
raises `commitIndex` starts an `applyEntries`. -/

/-- Every critical section but that of `applyEntries` sends nothing on `applyCh`. -/
theorem Runs.silent {gr : Goroutine n α} {e : Effect n α} (h : Runs gob rf gr e)
    (hgr : gr ≠ .applyEntries) : ∀ ev ∈ e.events, ∀ sent, Event.track p sent ev = sent := by
  cases h with
  | applyEntries => exact absurd rfl hgr
  | callElection =>
    intro ev hev sent
    rcases List.mem_cons.mp hev with rfl | hev
    · rfl
    · obtain ⟨call, _, rfl⟩ := List.mem_map.mp hev
      rfl
  | heartbeat =>
    intro ev hev sent
    obtain ⟨call, _, rfl⟩ := List.mem_map.mp hev
    rfl
  | @react job | @ignore job | @demote job | @demoteSame job =>
    cases job <;> simp [Job.react, Job.ignore, Event.track]
  | _ => simp [Event.track]

/-- A commit starts an `applyEntries`. -/
theorem Runs.applyEntries_mem_next {gr : Goroutine n α} {e : Effect n α} (h : Runs gob rf gr e)
    (hlt : rf.commitIndex < e.rf.commitIndex) : .applyEntries ∈ e.next := by
  cases h with
  | commit _ hadjust hcommit =>
    obtain ⟨_, _, rfl⟩ := Raft.adjustIndices_eq hadjust
    rcases Raft.commitPhase_eq_some hcommit with ⟨rfl, _⟩ | ⟨_, _, _, _, _, rfl, _⟩
    · exact absurd hlt (lt_irrefl _)
    · simp
  | merge hprev hterm hr =>
    obtain ⟨k, _, _, _, _, hcommits, hrf⟩ := mergeLog_at hprev hr
    have : rf.commitIndex < min _ _ := (lt_max_iff.mp (hrf ▸ hlt)).resolve_left (lt_irrefl _)
    simp [hcommits, this]
  | applyEntries h => obtain rfl := Raft.applyEntries_eq_some h; exact absurd hlt (lt_irrefl _)
  | react | ignore | demote | demoteSame => simp at hlt
  | _ => exact absurd hlt (lt_irrefl _)

/-! ### One step

The list that was sent is determined by `lastApplied`, so it need not be carried along in full: it
is `1, 2, …` up to there. -/

/-- What an incarnation has sent, and the goroutine that is pending while something is left. -/
def Node.InOrder (sent : List ℤ) : Node n α → Prop
  | .down _ => ∃ k, sent = indicesUpTo k
  | .up rf gs => sent = indicesUpTo rf.lastApplied.toNat ∧
      (rf.lastApplied < rf.commitIndex → .applyEntries ∈ gs)

theorem Runs.wake_applyEntries {gr : Goroutine n α} {e : Effect n α} (h : Runs gob rf gr e) :
    e.wake .applyEntries = .applyEntries := by
  rcases h.wake_cases with hw | ⟨call, vote, _, _, hw⟩ <;> rw [hw] <;> rfl

/-- The step lemma for a critical section. -/
theorem Runs.inOrder {gr : Goroutine n α} {e : Effect n α} {gs : List (Goroutine n α)} {g : ℕ}
    (h : Runs gob rf gr e) (hg : gs[g]? = some gr) (hme : rf.me = p) (h₀ : 0 ≤ rf.lastApplied)
    (hI : (Node.up rf gs).InOrder sent) :
    (Node.up e.rf ((gs.eraseIdx g).map e.wake ++ e.next)).InOrder
      (e.events.foldl (Event.track p) sent) := by
  obtain ⟨rfl, hpending⟩ := hI
  have hadv := h.advance
  by_cases hgr : gr = .applyEntries
  · subst hgr
    cases h with
    | applyEntries h =>
      subst hme
      obtain ⟨m, hm, hm'⟩ := Raft.applyEntries_indices h h₀
      obtain rfl := Raft.applyEntries_eq_some h
      rw [foldl_track_applied, hm, ← hm' _ rfl]
      exact ⟨rfl, fun hlt => absurd (le_max_right _ _) (not_le.mpr hlt)⟩
  · rw [foldl_track_of_silent (h.silent hgr)]
    have hla : e.rf.lastApplied = rf.lastApplied := by
      cases hadv with
      | apply => exact absurd rfl hgr
      | same _ _ ha | commit _ _ _ ha | merge _ _ _ _ _ ha => exact ha
    refine ⟨by rw [hla], fun hlt => ?_⟩
    rcases le_or_gt e.rf.commitIndex rf.commitIndex with hle | hrise
    · have hmem := mem_eraseIdx_of_ne hg (hpending (by omega)) (Ne.symm hgr)
      exact List.mem_append_left _ (List.mem_map.mpr ⟨_, hmem, h.wake_applyEntries⟩)
    · exact List.mem_append_right _ (h.applyEntries_mem_next hrise)

theorem Panics.inOrder {gr : Goroutine n α} {e : Panic n α} (h : Panics gob rf gr e)
    (hme : rf.me = p) (h₀ : 0 ≤ rf.lastApplied) :
    ∃ k, e.events.foldl (Event.track p) (indicesUpTo rf.lastApplied.toNat) = indicesUpTo k := by
  cases h with
  | callElection => exact ⟨_, rfl⟩
  | applyEntries h =>
    subst hme
    obtain ⟨m, hm, _⟩ := Raft.applyEntries_indices h h₀
    exact ⟨m, by rw [foldl_track_applied, hm]⟩
  | other => exact ⟨_, rfl⟩

/-- The step lemma for one node. -/
theorem NodeStep.inOrder [Inhabited α] {net : List (Packet n α)} {a : Action n α}
    {nd nd' : Node n α}
    (h : NodeStep gob net p a nd nd' es)
    (hnd : ∀ rf gs, nd = .up rf gs → rf.me = p ∧ 0 ≤ rf.lastApplied) (hI : nd.InOrder sent) :
    nd'.InOrder (es.foldl (Event.track p) sent) := by
  cases h with
  | make =>
    obtain ⟨ha, hc⟩ := Raft.make_indices gob p ‹_›
    simp [Node.InOrder, Event.track, indicesUpTo, ha, hc]
  | crash => exact ⟨_, hI.1⟩
  | kill | start | startRefused => exact hI
  | panic hg h =>
    obtain ⟨rfl, _⟩ := hI
    exact h.inOrder (hnd _ _ rfl).1 (hnd _ _ rfl).2
  | run hg h => exact h.inOrder hg (hnd _ _ rfl).1 (hnd _ _ rfl).2 hI
  | timeout hg h | reset hg h | fail hg h =>
    refine ⟨hI.1, fun hlt => List.mem_append_left _ (mem_eraseIdx_of_ne hg (hI.2 hlt) ?_)⟩
    rintro rfl
    cases h
  | requestVote | appendEntries => exact ⟨hI.1, fun hlt => List.mem_append_left _ (hI.2 hlt)⟩
  | @requestVoteReply _ _ _ _ call =>
    have hne : (.applyEntries : Goroutine n α) ≠ .callRequestVote call := nofun
    refine ⟨hI.1, fun hlt => List.mem_append_left _ ?_⟩
    exact (List.mem_erase_of_ne hne).mpr (hI.2 hlt)
  | @appendEntriesReply _ _ _ _ call =>
    have hne : (.applyEntries : Goroutine n α) ≠ .callAppendEntries call := nofun
    refine ⟨hI.1, fun hlt => List.mem_append_left _ (List.mem_map.mpr ⟨.applyEntries, ?_, rfl⟩)⟩
    exact (List.mem_erase_of_ne hne).mpr (hI.2 hlt)

/-- The step lemma for the two indices: only `Make` starts again from `0`. -/
theorem NodeStep.indices_le [Inhabited α] {net : List (Packet n α)} {a : Action n α} {nd : Node n α}
    {rf' : Raft n α} {gs' : List (Goroutine n α)} (h : NodeStep gob net p a nd (.up rf' gs') es)
    (ha : a ≠ .make p) : ∃ rf gs, nd = .up rf gs ∧ rf.commitIndex ≤ rf'.commitIndex ∧
      rf.lastApplied ≤ rf'.lastApplied := by
  cases h with
  | make => exact absurd rfl ha
  | run _ h =>
    refine ⟨_, _, rfl, ?_⟩
    cases h.advance with
    | same _ hc ha => exact ⟨hc.ge, ha.ge⟩
    | apply _ hc ha => exact ⟨hc.ge, ha ▸ le_max_left _ _⟩
    | commit _ hlt _ ha => exact ⟨hlt.le, ha.ge⟩
    | merge _ _ _ _ hc ha => exact ⟨hc ▸ le_max_left _ _, ha.ge⟩
  | _ => exact ⟨_, _, rfl, le_refl _, le_refl _⟩

/-- What one peer does is not written down for another. -/
theorem NodeStep.silent [Inhabited α] {net : List (Packet n α)} {a : Action n α} {nd nd' : Node n α}
    (h : NodeStep gob net p a nd nd' es) (hnd : ∀ rf gs, nd = .up rf gs → rf.me = p) {q : Fin n}
    (hq : q ≠ p) : ∀ ev ∈ es, ∀ sent, Event.track q sent ev = sent := by
  intro ev hev sent
  have hemits := h.emits hev
  cases hemits with
  | made => exact if_neg (Ne.symm hq)
  | applied =>
    have := hnd _ _ rfl
    exact if_neg fun h => hq (h.symm.trans this)
  | _ => rfl

namespace Cluster

variable [Inhabited α] [DecidableEq α] {ok : Cfg n α → Action n α → Prop} {c c' : Cfg n α}
  {a : Action n α} {gs : List (Goroutine n α)}

/-! ### Whole runs

A panic in the loop of `applyEntries` ends the peer in the middle of the loop. What it has sent by
then is in order too. -/

theorem inOrder_of_reachable (hc : (system gob).Reachable ok c) (p : Fin n) :
    (c.state.node p).InOrder (sentIndices c.trace p) := by
  refine System.Reachable.invariant (M := system gob)
    (P := fun c => ∀ p, (c.state.node p).InOrder (sentIndices c.trace p)) (fun p => ⟨0, rfl⟩) ?_
    hc p
  intro c a c' hc hI _ hn q
  obtain ⟨es, p, nd, hm, ht⟩ := next_moves hn
  have hme : ∀ rf gs, c.state.node p = .up rf gs → rf.me = p := fun rf gs => me_of_reachable hc
  rw [ht, hm.node_eq, sentIndices, List.foldl_append]
  rcases eq_or_ne q p with rfl | hq
  · rw [Function.update_self]
    exact hm.node_step.inOrder
      (fun rf gs hnd => ⟨hme rf gs hnd, (indices_of_reachable hc hnd).1⟩) (hI q)
  · rw [Function.update_of_ne hq, foldl_track_of_silent (hm.node_step.silent hme hq)]
    exact hI q

/-- The run lemma for the two indices of one incarnation. -/
theorem indices_le_of_exec {bs : List (Action n α)} (h : (system gob).exec c bs = some c')
    (hmake : .make p ∉ bs) {rf' : Raft n α} {gs' : List (Goroutine n α)}
    (hnd' : c'.state.node p = .up rf' gs') :
    ∃ rf gs, c.state.node p = .up rf gs ∧ rf.commitIndex ≤ rf'.commitIndex ∧
      rf.lastApplied ≤ rf'.lastApplied := by
  induction bs generalizing c with
  | nil =>
    cases h
    exact ⟨rf', gs', hnd', le_refl _, le_refl _⟩
  | cons b bs ih =>
    obtain ⟨c₁, hn, h⟩ := Option.bind_eq_some_iff.mp h
    obtain ⟨rf₁, gs₁, hnd₁, hcommit, happlied⟩ := ih h (List.not_mem_of_not_mem_cons hmake)
    obtain ⟨es, q, nd, hm, _⟩ := next_moves hn
    rw [hm.node_eq] at hnd₁
    rcases eq_or_ne p q with rfl | hp
    · rw [Function.update_self] at hnd₁
      subst hnd₁
      obtain ⟨rf, gs, hnd, hcommit', happlied'⟩ :=
        hm.node_step.indices_le fun hb => hmake (hb ▸ List.mem_cons_self)
      exact ⟨rf, gs, hnd, hcommit'.trans hcommit, happlied'.trans happlied⟩
    · rw [Function.update_of_ne hp] at hnd₁
      exact ⟨rf₁, gs₁, hnd₁, hcommit, happlied⟩

/-- **Commands are applied in order, without gaps, each once.** At the end of every run, and so
after each of its steps, for a peer that is up: its incarnation has sent the `CommandIndex` values
`1, 2, ..., lastApplied` on `applyCh`, in this order and nothing else; `lastApplied` is at most
`commitIndex`, and equal to it if no goroutine `applyEntries` is pending; and from then on neither
decreases until the peer is restarted. A panic takes the peer down. Even then, what was sent is `1,
2, ..., k` for some `k`. -/
theorem applied_in_order (gob : Labgob n α) (as : List (Action n α)) (c : Cfg n α)
    (h : (system gob).exec (system gob).start as = some c) (p : Fin n) :
    (∃ k, sentIndices c.trace p = indicesUpTo k) ∧
    ∀ rf gs, c.state.node p = .up rf gs →
      (0 ≤ rf.lastApplied ∧ sentIndices c.trace p = indicesUpTo rf.lastApplied.toNat) ∧
      rf.lastApplied ≤ rf.commitIndex ∧
      (.applyEntries ∉ gs → rf.lastApplied = rf.commitIndex) ∧
      ∀ bs c' rf' gs', (system gob).exec c bs = some c' → .make p ∉ bs →
        c'.state.node p = .up rf' gs' →
        rf.commitIndex ≤ rf'.commitIndex ∧ rf.lastApplied ≤ rf'.lastApplied := by
  have hc := System.reaches_of_exec h
  have hI := inOrder_of_reachable hc p
  refine ⟨?_, fun rf gs hnd => ?_⟩
  · generalize c.state.node p = nd at hI
    cases nd with
    | down persister => exact hI
    | up rf gs => exact ⟨_, hI.1⟩
  · rw [hnd] at hI
    obtain ⟨h₀, hle⟩ := indices_of_reachable hc hnd
    refine ⟨⟨h₀, hI.1⟩, hle, fun hgs => ?_, fun bs c' rf' gs' hbs hmake hnd' => ?_⟩
    · exact le_antisymm hle (not_lt.mp fun hlt => hgs (hI.2 hlt))
    · obtain ⟨rf₀, gs₀, hnd₀, hmono⟩ := indices_le_of_exec hbs hmake hnd'
      cases hnd.symm.trans hnd₀
      exact hmono

/-- In `ackRun` peer `0` commits index `1`; its next step applies it. -/
theorem applied_in_order_ackRun :
    ∃ c rf gs c' rf' gs',
      (system (Labgob.unary 3)).exec (system (Labgob.unary 3)).start ackRun = some c ∧
      (system (Labgob.unary 3)).exec c [.run 0 6] = some c' ∧
      c.state.node 0 = .up rf gs ∧ c'.state.node 0 = .up rf' gs' ∧
      (rf.commitIndex = 1 ∧ rf.lastApplied = 0 ∧ sentIndices c.trace 0 = indicesUpTo 0) ∧
      (rf'.lastApplied = 1 ∧ sentIndices c'.trace 0 = indicesUpTo 1) ∧
      rf.commitIndex ≤ rf'.commitIndex := by
  obtain ⟨c, hc, h⟩ := exists_of_exec (Labgob.unary 3) ackRun
    (fun c => ((system (Labgob.unary 3)).exec c [.run 0 6]).any fun c' =>
      (c.state.node 0).check (fun rf => decide (rf.commitIndex = 1 ∧ rf.lastApplied = 0)) &&
      (c'.state.node 0).check fun rf => decide (rf.lastApplied = 1))
    (by decide +kernel)
  obtain ⟨c', hc', h⟩ := (Option.any_eq_true _ _).mp h
  obtain ⟨rf, rf', gs, gs', hnd, hnd', ⟨hcommit, hla⟩, hla'⟩ := Node.exists_of_checks h
  have hall : (system (Labgob.unary 3)).exec (system (Labgob.unary 3)).start
      (ackRun ++ [.run 0 6]) = some c' := by rw [System.exec_append, hc]; exact hc'
  obtain ⟨_, hin⟩ := applied_in_order (Labgob.unary 3) ackRun c hc 0
  obtain ⟨_, hin'⟩ := applied_in_order (Labgob.unary 3) _ c' hall 0
  obtain ⟨⟨_, hsent⟩, _, _, hmono⟩ := hin rf gs hnd
  obtain ⟨⟨_, hsent'⟩, _⟩ := hin' rf' gs' hnd'
  rw [hla] at hsent
  rw [hla'] at hsent'
  exact ⟨c, rf, gs, c', rf', gs', hc, hc', hnd, hnd', ⟨hcommit, hla, hsent⟩, ⟨hla', hsent'⟩,
    (hmono _ c' rf' gs' hc' (by simp) hnd').1⟩

end Cluster

end Distsys
