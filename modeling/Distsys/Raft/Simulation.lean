import Distsys.Raft.Refinement

/-!
# The relation between cluster and protocol is kept

The second half of the refinement: `Cluster.Refines` holds again after every timely step. What was
recorded before stays recorded, since the history of the protocol only grows, so each part of the
relation comes down to the one kind of step that emits the events it is about.

## How the step lemma is put together

The relation has eight parts. The first two, terms and logs, are about the durable state, and the
five writes give what is needed. The next five are about events: an old event is covered by the
relation before the step, because the history grows, and a new one is emitted by a critical section
that is known. The last part is about `matchIndex`. It can become true by `initLeader`, which makes
all entries zero, and otherwise changes with a reply, which is an event.

The conditions on terms enter where a critical section acts for a term that the struct might have
left: then `Timely` says that it has not.

## Main results

* `Cluster.Refines.next` — the step lemma
* `Cluster.History.refines` — **the cluster refines the protocol**, along every timely run
* `Cluster.History.keeps` — and what was taken over is kept, if nothing is cut that is not refuted
-/

namespace Distsys

open ReplicatedLog (State Setting)

variable {n : ℕ} {α : Type} {gob : Labgob n α} {rf : Raft n α}
  {A A' : State (Fin n) (LogEntry α)}

theorem Raft.make_matchIndex [Inhabited α] (gob : Labgob n α) (p : Fin n)
    (persister : List UInt8) : (Raft.make gob p persister).matchIndex = [] := by
  obtain ⟨_, _, _, h⟩ := Raft.make_eq gob p persister
  rw [h]

/-- No write announces an election. -/
theorem Write.not_elected {gr : Option (Goroutine n α)} {es : List (Event n α)}
    {d : ℕ × Option (Fin n) × List (LogEntry α)} (h : Write rf gr es d) {p : Fin n} {T : ℕ} :
    .elected p T ∉ es := by
  intro hin
  cases h with
  | campaign _ he => rcases he _ hin with h | ⟨_, _, h, _⟩ <;> cases h
  | raise => cases hin
  | start | vote | merge => cases List.mem_singleton.mp hin

namespace Cluster

variable [Inhabited α] [DecidableEq α] {ok : Cfg n α → Action n α → Prop} {c c' : Cfg n α}
  {a : Action n α} {p : Fin n} {gs : List (Goroutine n α)} {es : List (Event n α)} {hodd : Odd n}
  {mean : Option (ReplicatedLog.Action (Fin n) (LogEntry α))}

/-! ### One step

One lemma for each part of the relation. Each goes through the ways in which a step can emit the
event or change the state that the part is about, and takes the meaning of the step from the
history. -/

omit [DecidableEq α] in
/-- An action by the one peer whose durable state changes. -/
theorem Refines.saved_apply (hR : Refines gob c A)
    (act : ReplicatedLog.Action (Fin n) (LogEntry α))
    {d : ℕ × Option (Fin n) × List (LogEntry α)} (hd : saved gob c' p = d) (hpeer : act.peer = p)
    (hp : (A.apply act).term p = d.1 ∧ (A.apply act).log p = d.2.2)
    (hs : ∀ q, q ≠ p → saved gob c' q = saved gob c q) (q : Fin n) :
    (A.apply act).term q = (saved gob c' q).1 ∧ (A.apply act).log q = (saved gob c' q).2.2 := by
  rcases eq_or_ne q p with rfl | hne
  · rw [hd]
    exact hp
  · obtain ⟨ht, hl⟩ := A.apply_of_ne (hpeer ▸ hne)
    rw [hs q hne, ht, hl]
    exact ⟨hR.term q, hR.log q⟩

/-- Terms and logs. -/
theorem Refines.saved_next (hR : Refines gob c A) (hI : (setting hodd).Inv A) (ht : Timely c a)
    (hc : (system gob).Reachable ok c) (hm : Meant gob c a c' mean) (q : Fin n) :
    (after A mean).term q = (saved gob c' q).1 ∧ (after A mean).log q = (saved gob c' q).2.2 := by
  cases hm with
  | nothing _ hs =>
    rw [hs]
    exact ⟨hR.term q, hR.log q⟩
  | start _ hnd _ _ hp hs =>
    obtain ⟨hAt, hAl⟩ := hR.up hc hnd
    refine hR.saved_apply (.append _ _) hp rfl ?_ hs q
    exact ⟨hAt, (Function.update_self ..).trans (by rw [hAl])⟩
  | @write p rf gs gr es _ hnd hat hw hs =>
    obtain ⟨hAt, hAl⟩ := hR.up hc hnd
    obtain rfl := me_of_reachable hc hnd
    generalize hp : saved gob c' rf.me = d at hw
    cases hw with
    | campaign =>
      refine hR.saved_apply (.stand _) hp rfl ?_ hs q
      exact ⟨(Function.update_self ..).trans (by rw [hAt]), hAl⟩
    | raise =>
      refine hR.saved_apply (.raise _ _) hp rfl ?_ hs q
      exact ⟨Function.update_self .., hAl⟩
    | @vote call myTerm =>
      have hsame : (after A ((Goroutine.requestVote call myTerm).means c.trace rf)).term q =
          A.term q ∧
          (after A ((Goroutine.requestVote call myTerm).means c.trace rf)).log q = A.log q := by
        simp only [Goroutine.means]
        split <;> exact ⟨rfl, rfl⟩
      rw [hsame.1, hsame.2]
      rcases eq_or_ne q rf.me with rfl | hq
      · rw [hp]
        exact ⟨hAt, hAl⟩
      · rw [hs q hq]
        exact ⟨hR.term q, hR.log q⟩
    | merge hk hprev hterm =>
      refine hR.saved_apply (.accept _ _) hp rfl ?_ hs q
      obtain ⟨m, hm, _, _, _, hmerge, _⟩ :=
        allowed_accept hR hI hc ht.accepts hnd hat hk hprev hterm
      rw [hmerge]
      refine ⟨hAt, (Function.update_self ..).trans ?_⟩
      rw [hm, Int.toNat_natCast]
  | elect _ _ _ _ _ _ hs =>
    rw [hs]
    exact ⟨hR.term q, hR.log q⟩
  | commit _ _ hs =>
    rw [hs]
    exact ⟨hR.term q, hR.log q⟩

/-- Leaders are the elections won. -/
theorem Refines.leader_next (hodd : Odd n) (hR : Refines gob c A) (hok : ∀ c a, ok c a → Timely c a)
    (hc : (system gob).Reachable ok c) (ha : ok c a) (hn : (system gob).next c a = some c')
    (hm : Meant gob c a c' mean) {q : Fin n} {T : ℕ} :
    (after A mean).leader T = some q ↔ .elected q T ∈ c'.trace := by
  cases hm with
  | nothing ht _ _ _ he =>
    rw [ht, List.mem_append]
    refine hR.leader.trans ⟨Or.inl, fun h => h.elim id (he q T)⟩
  | start ht =>
    rw [ht, List.mem_append]
    refine hR.leader.trans ⟨Or.inl, fun h => h.elim id fun h => ?_⟩
    cases List.mem_singleton.mp h
  | @write p rf gs gr es ht _ _ hw =>
    have hsame : (after A (gr.means c.trace rf)).leader = A.leader := by
      cases gr with
      | requestVote =>
        simp only [Goroutine.means]
        split <;> rfl
      | _ => rfl
    rw [ht, List.mem_append, hsame]
    exact hR.leader.trans ⟨Or.inl, fun h => h.resolve_right hw.not_elected⟩
  | @elect p rf gs election voteCount ht hnd hat hvotes h h' _ hnew =>
    obtain ⟨rfl, hnone⟩ := hR.unled hodd hok hc ha hn ht hnd hat hvotes h h' hnew
    rw [ht, List.mem_append, List.mem_singleton]
    rcases eq_or_ne T (A.term p) with rfl | hT
    · rw [show (after A (some (.elect p))).leader (A.term p) = some p from Function.update_self ..]
      constructor
      · intro hq
        cases hq
        exact Or.inr rfl
      · rintro (hq | hq)
        · cases hnone.symm.trans (hR.leader.mpr hq)
        · cases hq
          rfl
    · rw [show (after A (some (.elect p))).leader T = A.leader T from Function.update_of_ne hT ..]
      refine hR.leader.trans ⟨Or.inl, fun hq => hq.resolve_right fun hq => ?_⟩
      cases hq
      exact hT rfl
  | commit ht =>
    rw [ht]
    exact hR.leader

/-- A new request for votes names the log its candidate stands with. -/
theorem Refines.stood_next (hR : Refines gob c A) (hc : (system gob).Reachable ok c)
    (hm : Meant gob c a c' mean) (hg : A.Grows (after A mean)) {call : VoteCall n}
    (h : .sent (.requestVote call) ∈ c'.trace) :
    ∃ (L : List (LogEntry α)) (last : LogEntry α),
      (after A mean).stood call.args.candidateID call.args.term = some L ∧
      L.getLast? = some last ∧ call.args.lastLogTerm = last.term ∧
      call.args.lastLogIndex = L.length - 1 := by
  by_cases hold : .sent (.requestVote call) ∈ c.trace
  · obtain ⟨L, last, hL, hrest⟩ := hR.stood hold
    exact ⟨L, last, hg.stood hL, hrest⟩
  · cases hm with
    | nothing ht _ _ hr =>
      rw [ht] at h
      exact absurd ((List.mem_append.mp h).resolve_left hold) (hr call)
    | start ht =>
      rw [ht] at h
      cases List.mem_singleton.mp ((List.mem_append.mp h).resolve_left hold)
    | @write p rf gs gr es ht hnd _ hw =>
      rw [ht] at h
      have hnew := (List.mem_append.mp h).resolve_left hold
      obtain ⟨hAt, hAl⟩ := hR.up hc hnd
      obtain rfl := me_of_reachable hc hnd
      generalize saved gob c' rf.me = d at hw
      cases hw with
      | campaign _ he =>
        rcases he _ hnew with h | ⟨_, last, h, hlast, hargs⟩ <;> cases h
        refine ⟨A.log rf.me, last, ?_, ?_, by rw [hargs], by rw [hargs, hAl]⟩
        · rw [hargs, ← hAt]
          exact if_pos ⟨rfl, rfl⟩
        · obtain ⟨k, hk, hget⟩ := GoSlice.get_eq_some_iff.mp hlast
          rw [hAl, List.getLast?_eq_getElem?, show rf.log.length - 1 = k by omega]
          exact hget
      | raise => cases hnew
      | vote | merge => cases List.mem_singleton.mp hnew
    | elect ht =>
      rw [ht] at h
      cases List.mem_singleton.mp ((List.mem_append.mp h).resolve_left hold)
    | commit ht =>
      rw [ht] at h
      exact absurd h hold

/-- A new vote is a ballot, unless the term has a leader. -/
theorem Refines.ballot_next (hR : Refines gob c A) (htime : Timely c a)
    (hc : (system gob).Reachable ok c) (hm : Meant gob c a c' mean)
    (hg : A.Grows (after A mean)) {v q : Fin n} {T : ℕ} (h : Voted c'.trace v T q)
    (hnone : (after A mean).leader T = none) : ∃ B, (after A mean).ballot v T q B := by
  have hnone' : A.leader T = none := by
    rw [Option.eq_none_iff_forall_ne_some]
    intro l hl
    cases hnone.symm.trans (hg.leader hl)
  by_cases hold : Voted c.trace v T q
  · exact (hR.ballot hold hnone').imp fun _ => hg.ballot
  · cases hm with
    | nothing ht _ hq =>
      rw [ht, voted_append] at h
      exact absurd (h.resolve_left hold) (not_voted_of_quiet hq)
    | start ht =>
      rw [ht, voted_append] at h
      rcases h.resolve_left hold with ⟨_, h⟩ | ⟨_, _, h, _⟩ <;> cases List.mem_singleton.mp h
    | @write p rf gs gr es ht hnd hat hw =>
      rw [ht, voted_append] at h
      obtain ⟨hAt, hAl⟩ := hR.up hc hnd
      obtain rfl := me_of_reachable hc hnd
      rcases hw.voted (h.resolve_left hold) with
        ⟨hgr, rfl, rfl, rfl, _⟩ | ⟨call, myTerm, hgr, hgrants, rfl, rfl, rfl, _⟩
      · cases hgr
        exact ⟨A.log rf.me, Or.inr ⟨rfl, by rw [hAt], rfl, rfl⟩⟩
      · cases hgr
        have hterm := htime.grants.at hnd hat call rfl hgrants
        have hsrc := (inFlight_of_reachable hc).node rf.me
        rw [hnd] at hsrc
        have hnot : ¬ ∃ q, .elected q call.args.term ∈ c.trace := by
          rintro ⟨q, hq⟩
          cases hnone'.symm.trans (hR.leader.mpr hq)
        rw [show (Goroutine.requestVote call myTerm).means c.trace rf =
          some (.grant rf.me call.args.candidateID) from if_neg hnot]
        exact ⟨A.log rf.me, Or.inr ⟨(hsrc.2 _ hat.mem).2, (hAt.trans hterm).symm, rfl, rfl⟩⟩
    | elect ht =>
      rw [ht, voted_append] at h
      rcases h.resolve_left hold with ⟨_, h⟩ | ⟨_, _, h, _⟩ <;> cases List.mem_singleton.mp h
    | commit ht =>
      rw [ht] at h
      exact absurd h hold

/-- The leader of the current term sends parts of its log, which is the chronicle. -/
theorem Refines.carries (hR : Refines gob c A) (hI : (setting hodd).Inv A)
    (hc : (system gob).Reachable ok c) (hb : BeatsInTerm c a) (hnd : c.state.node p = .up rf gs)
    {election beatNumber : ℕ} (hat : At p gs a (some (.heartbeat election beatNumber)))
    (hl : rf.phase = .leader) {call : EntriesCall n α}
    (hbeat : call.beat = ⟨election, beatNumber, rf.log.length - 1⟩)
    (hargs : rf.appendEntriesArgs call.server = some call.args) : Carries A call := by
  obtain ⟨hlead, hterm, _⟩ := hR.leads hc hb hnd hat rfl hl
  have hchron := hR.log_eq_chron hI hc hnd hlead
  obtain ⟨_, k, prev, _, _, hprev, h⟩ := Raft.appendEntriesArgs_eq_some hargs
  have hlt := (List.getElem?_eq_some_iff.mp hprev).1
  refine ⟨?_, ?_, k, rf.log.length, prev, ?_, hlt, ?_, ?_, ?_, ?_, ?_⟩
  · rw [h, me_of_reachable hc hnd]
    exact hlead
  · rw [h, hbeat]
    exact hterm.symm
  · rw [h]
  · rw [hbeat]
    dsimp only
    omega
  · rw [h, ← hchron]
  · rw [h, ← hchron]
    exact hprev
  · rw [h]
  · rw [h, ← hchron, List.take_length]

/-- A new `AppendEntries` request carries a part of the chronicle. -/
theorem Refines.entries_next (hR : Refines gob c A) (hI : (setting hodd).Inv A)
    (htime : Timely c a) (hc : (system gob).Reachable ok c)
    (hn : (system gob).next c a = some c') (hg : A.Grows A') {call : EntriesCall n α}
    (h : .sent (.appendEntries call) ∈ c'.trace) : Carries A' call := by
  rcases emits_of_next hn h with h | ⟨p, _, _, _, hnd, hemits⟩
  · exact (hR.entries h).mono hg
  · cases hemits with
    | @sent rf gs gs' gr e _ hat hr hp =>
      have hsend := hr.sends hp
      generalize e.rf = rf' at hsend
      cases hsend with
      | appendEntries hl _ hbeat hargs =>
        exact (hR.carries hI hc htime.beats hnd hat hl hbeat hargs).mono hg

/-- A new successful reply is an acknowledgement. -/
theorem Refines.acked_next (hR : Refines gob c A) (hI : (setting hodd).Inv A)
    (htime : Timely c a) (hc : (system gob).Reachable ok c) (hm : Meant gob c a c' mean)
    (hg : A.Grows (after A mean)) {call : EntriesCall n α} {reply : AppendEntriesReply}
    (h : .sent (.appendEntriesReply call reply) ∈ c'.trace) (hs : reply.success = true) :
    (after A mean).acked call.server call.args.term (call.beat.myLastIndex + 1).toNat := by
  by_cases hold : .sent (.appendEntriesReply call reply) ∈ c.trace
  · exact hg.acked (hR.acked hold hs)
  · cases hm with
    | nothing ht _ hq =>
      rw [ht] at h
      have hfail : reply.success = false := hq _ ((List.mem_append.mp h).resolve_left hold)
      rw [hs] at hfail
      cases hfail
    | start ht =>
      rw [ht] at h
      cases List.mem_singleton.mp ((List.mem_append.mp h).resolve_left hold)
    | @write p rf gs gr es ht hnd hat hw =>
      rw [ht] at h
      have hnew := (List.mem_append.mp h).resolve_left hold
      obtain rfl := me_of_reachable hc hnd
      generalize saved gob c' rf.me = d at hw
      cases hw with
      | campaign _ he => rcases he _ hnew with h | ⟨_, _, h, _⟩ <;> cases h
      | raise => cases hnew
      | vote => cases List.mem_singleton.mp hnew
      | merge hk hprev hterm =>
        cases List.mem_singleton.mp hnew
        obtain ⟨m, hm, hlast, hT, hserver, _⟩ :=
          allowed_accept hR hI hc htime.accepts hnd hat hk hprev hterm
        exact Or.inr ⟨hserver, hT, by rw [hm, hlast]⟩
    | elect ht =>
      rw [ht] at h
      cases List.mem_singleton.mp ((List.mem_append.mp h).resolve_left hold)
    | commit ht =>
      rw [ht] at h
      exact absurd h hold

/-- `initLeader` only runs for an election that was won. -/
theorem elected_of_initLeader (hc : (system gob).Reachable ok c) {T : ℕ}
    (h : .initLeader p T ∈ c.trace) : .elected p T ∈ c.trace := by
  refine System.Reachable.invariant (M := system gob)
    (P := fun c => ∀ p T, .initLeader p T ∈ c.trace → .elected p T ∈ c.trace) nofun ?_ hc p T h
  intro c a c' hc hI _ hn p T h
  obtain ⟨es, _, ht⟩ := System.next_eq_some_iff.mp hn
  rw [ht]
  refine List.mem_append_left _ ?_
  rcases emits_of_next hn h with h | ⟨q, _, _, _, hnd, hemits⟩
  · exact hI p T h
  · have hsrc := (inFlight_of_reachable hc).node q
    rw [hnd] at hsrc
    cases hemits with
    | initLeader ha =>
      rw [hsrc.1]
      exact hsrc.2 _ ha.mem

/-- A critical section of a peer keeps `matchIndex` backed, as long as the term stays. -/
theorem Refines.matched_run (hR : Refines gob c A) (htime : Timely c a)
    (hc : (system gob).Reachable ok c) (hnd : c.state.node p = .up rf gs) {gr : Goroutine n α}
    {e : Effect n α} (hat : At p gs a (some gr)) (hr : Runs gob rf gr e)
    (hinit : .initLeader p e.rf.currentTerm ∈ c.trace) : Matched A p e.rf := by
  have hterm : e.rf.currentTerm = rf.currentTerm := by
    refine le_antisymm ?_ hr.term_le
    have := elected_le hc (elected_of_initLeader hc hinit)
    rwa [← durable_eq_saved hc hnd] at this
  intro F hF k hk hpos
  rw [hterm] at hinit ⊢
  rcases hr.matchIndex_cases with hsame | hzero | ⟨beat, replies, rfl, hl, hcases⟩
  · rw [hsame] at hk
    exact hR.matched hnd hinit F hF k hk hpos
  · rw [hzero, GoSlice.get_natCast] at hk
    cases List.eq_of_mem_replicate (List.mem_of_getElem? hk)
    exact absurd hpos (lt_irrefl 0)
  · exact hR.adjusted hc htime.beats hnd hat hl hF hpos (hcases F k hk)

/-- `matchIndex` stays backed by acknowledgements. -/
theorem Refines.matched_next (hR : Refines gob c A) (htime : Timely c a)
    (hc : (system gob).Reachable ok c) (hn : (system gob).next c a = some c')
    (hg : A.Grows A') {q : Fin n} {rf' : Raft n α} {gs' : List (Goroutine n α)}
    (hnd' : c'.state.node q = .up rf' gs') (hinit : .initLeader q rf'.currentTerm ∈ c'.trace) :
    Matched A' q rf' := by
  suffices h : Matched A q rf' from fun F hF k hk hpos => hg.acked (h F hF k hk hpos)
  obtain ⟨es, p, nd, hmoves, ht⟩ := next_moves hn
  rw [ht, List.mem_append] at hinit
  have hup := hnd'
  rw [hmoves.node_eq] at hnd'
  rcases eq_or_ne q p with rfl | hq
  · rw [Function.update_self] at hnd'
    subst hnd'
    rcases hinit with hinit | hinit
    · have hstruct := hmoves.node_step.struct
      generalize hnd : c.state.node q = nd₀ at hstruct
      cases hstruct with
      | make =>
        intro F _ k hk
        rw [Raft.make_matchIndex] at hk
        cases hk
      | same => exact hR.matched hnd hinit
      | kill => exact (hR.matched hnd hinit :)
      | start => exact (hR.matched hnd hinit :)
      | run hat hr => exact hR.matched_run htime hc hnd hat hr hinit
    · have hemits := hmoves.node_step.emits hinit
      generalize hnd : c.state.node q = nd₀ at hemits
      cases hemits with
      | initLeader hat =>
        rcases runs_of_at hn hnd hat with ⟨e, gs'', hr, he, _⟩ | ⟨e, _, he, _⟩
        · injection hup.symm.trans he with hrf
          have hzero : e.rf.matchIndex = List.replicate n 0 := by
            cases hr
            rfl
          intro F _ k hk hpos
          rw [hrf, hzero, GoSlice.get_natCast] at hk
          cases List.eq_of_mem_replicate (List.mem_of_getElem? hk)
          exact absurd hpos (lt_irrefl 0)
        · cases hup.symm.trans he
  · rw [Function.update_of_ne hq] at hnd'
    refine hR.matched hnd' (hinit.resolve_right fun hinit => hq ?_)
    have hemits := hmoves.node_step.emits hinit
    generalize hnd : c.state.node p = nd₀ at hemits
    cases hemits with
    | initLeader => exact me_of_reachable hc hnd

/-- What a step means lets the history grow. -/
theorem grows_after (hR : Refines gob c A) (hI : (setting hodd).Inv A)
    (hok : ∀ c a, ok c a → Timely c a) (hc : (system gob).Reachable ok c) (ha : ok c a)
    (hn : (system gob).next c a = some c') (hm : Meant gob c a c' mean) :
    A.Grows (after A mean) := by
  cases mean with
  | none => exact .refl A
  | some act => exact State.grows_apply hI (allowed_of_meant hR hI hok hc ha hn hm rfl)

/-- **The step lemma.** -/
theorem Refines.next (hR : Refines gob c A) (hI : (setting hodd).Inv A)
    (hok : ∀ c a, ok c a → Timely c a) (hc : (system gob).Reachable ok c) (ha : ok c a)
    (hn : (system gob).next c a = some c') (hm : Meant gob c a c' mean) :
    Refines gob c' (after A mean) := by
  have hg := grows_after hR hI hok hc ha hn hm
  have htime := hok c a ha
  exact {
    term := fun q => (hR.saved_next hI htime hc hm q).1
    log := fun q => (hR.saved_next hI htime hc hm q).2
    leader := hR.leader_next hodd hok hc ha hn hm
    stood := hR.stood_next hc hm hg
    ballot := hR.ballot_next htime hc hm hg
    entries := hR.entries_next hI htime hc hn hg
    acked := hR.acked_next hI htime hc hm hg
    matched := hR.matched_next htime hc hn hg }

/-! ### Whole runs

The relation is carried along together with the run of the protocol, whose invariant the step lemmas
use. -/

theorem refines_start (gob : Labgob n α) (hodd : Odd n) :
    Refines gob (system gob).start (setting hodd).init where
  term p := congrArg Prod.fst (Raft.make_nil_durable gob p).symm
  log p := congrArg (fun d => d.2.2) (Raft.make_nil_durable gob p).symm
  leader := ⟨nofun, nofun⟩
  stood := nofun
  ballot h := by rcases h with ⟨_, h⟩ | ⟨_, _, h, _⟩ <;> cases h
  entries := nofun
  acked := nofun
  matched := nofun

/-- **The cluster refines the protocol.** The history of a run whose critical sections are timely is
a run of the protocol, guarded by whatever its actions are shown to meet, and its state is that of
the cluster. -/
theorem History.refines
    (keep : System.Config (State (Fin n) (LogEntry α)) Empty →
      ReplicatedLog.Action (Fin n) (LogEntry α) → Prop)
    (hok : ∀ c a, ok c a → Timely c a)
    (hkeep : ∀ {c a c' A act}, (system gob).Reachable ok c → ok c a → Refines gob c A →
      (setting hodd).Inv A → (system gob).next c a = some c' → Meant gob c a c' (some act) →
      keep ⟨A, []⟩ act) (h : History gob ok hodd c A) :
    (setting hodd).protocol.Reachable keep ⟨A, []⟩ ∧ Refines gob c A := by
  induction h with
  | start => exact ⟨System.Reaches.refl _, refines_start gob hodd⟩
  | @next c c' a A A' ht ha hn hR ih =>
    obtain ⟨hreach, hrel⟩ := ih
    obtain ⟨mean, hm, rfl⟩ := hR
    have hc := System.Tracks.reachable ht
    have hI := (setting hodd).inv_of_reachable hreach
    refine ⟨?_, hrel.next hI hok hc ha hn hm⟩
    cases mean with
    | none => exact hreach
    | some act =>
      have hall := allowed_of_meant hrel hI hok hc ha hn hm rfl
      exact hreach.tail (hkeep hc ha hrel hI hn hm) ((setting hodd).next_of_allowed hall)

/-- A timely run has a history whose state is that of the cluster. -/
theorem exists_refines (hodd : Odd n) (hok : ∀ c a, ok c a → Timely c a)
    (hc : (system gob).Reachable ok c) : ∃ A, Refines gob c A ∧ (setting hodd).Inv A := by
  obtain ⟨A, hA⟩ := exists_history hodd hc
  obtain ⟨hreach, hR⟩ := hA.refines (fun _ _ => True) hok fun _ _ _ _ _ _ => trivial
  exact ⟨A, hR, (setting hodd).inv_of_reachable hreach⟩

/-! ### Runs that cut nothing unrefuted

Timeliness alone does not keep what was acknowledged, because of the splice. With `KeepsUnrefuted` a
peer in the term of a leader only ever takes over more of its chronicle. -/

omit [Inhabited α] [DecidableEq α] in
/-- Entries that repeat what the log has behind `PrevLogIndex` do not differ from it in any term. -/
theorem term_eq_of_mem_zip {l entries : List (LogEntry α)} (h : entries <+: l)
    {e : LogEntry α × LogEntry α} (he : e ∈ l.zip entries) : e.1.term = e.2.term := by
  obtain ⟨j, hj⟩ := List.mem_iff_getElem?.mp he
  obtain ⟨h₁, h₂⟩ := List.getElem?_zip_eq_some.mp hj
  obtain ⟨X, rfl⟩ := h
  rw [List.getElem?_append_left (List.getElem?_eq_some_iff.mp h₂).1, h₂] at h₁
  rw [Option.some.inj h₁]

/-- A merge that cuts nothing unrefuted keeps a log that starts with what it is given. -/
theorem keeps_of_merge (hR : Refines gob c A) (hI : (setting hodd).Inv A)
    (hg : AcceptsInTerm c a) (hk : KeepsUnrefuted c a) (hc : (system gob).Reachable ok c)
    (hnd : c.state.node p = .up rf gs) {call : EntriesCall n α} {myTerm k : ℕ}
    (hat : At p gs a (some (.appendEntries call myTerm))) {prev : LogEntry α}
    (hprevIndex : call.args.prevLogIndex = k) (hprev : rf.log[k]? = some prev)
    (hterm : prev.term = call.args.prevLogTerm) {m : ℕ}
    (hm : call.args.prevLogIndex + 1 + call.args.entries.length = m)
    (hpre : (A.chron (A.term p)).take m <+: A.log p) :
    A.log p <+: (A.chron (A.term p)).take m := by
  obtain ⟨m', hm', _, _, _, hmerge, _, _, hle⟩ :=
    allowed_accept hR hI hc hg hnd hat hprevIndex hprev hterm
  obtain rfl : m = m' := by omega
  rw [(hR.up hc hnd).2] at hpre ⊢
  have hacc : rf.Accepts call.args := by
    refine ⟨prev, ?_, hterm⟩
    rw [hprevIndex, Option.mem_def, GoSlice.get_natCast]
    exact hprev
  rcases hk.at hnd hat call rfl hacc with hlen | ⟨e, he, hne⟩
  · -- the log is not longer than what it is given
    have hlen' : rf.log.length ≤ ((A.chron (A.term p)).take m).length := by
      rw [List.length_take, min_eq_left hle]
      omega
    exact (hpre.eq_of_length_le hlen').symm ▸ List.prefix_refl _
  · -- some entry would differ from the log that starts with it
    refine absurd (term_eq_of_mem_zip ?_ he) hne
    rw [← hmerge] at hpre
    rw [hprevIndex, show ((k : ℤ) + 1).toNat = k + 1 by omega]
    refine (List.prefix_append_right_inj (rf.log.take (k + 1))).mp ?_
    rw [List.take_append_drop]
    exact hpre

/-- So what a step means keeps such a log. -/
theorem keeps_of_meant (hR : Refines gob c A) (hI : (setting hodd).Inv A)
    (hg : AcceptsInTerm c a) (hk : KeepsUnrefuted c a) (hc : (system gob).Reachable ok c)
    (hm : Meant gob c a c' mean) {act : ReplicatedLog.Action (Fin n) (LogEntry α)}
    (hact : mean = some act) : Setting.Keeps ⟨A, []⟩ act := by
  cases hm with
  | nothing => cases hact
  | @write p rf gs gr es ht hnd hat hw hs =>
    obtain rfl := me_of_reachable hc hnd
    generalize saved gob c' rf.me = d at hw
    cases hw with
    | vote =>
      simp only [Goroutine.means] at hact
      split at hact <;> cases hact
      trivial
    | merge hprevIndex hprev hterm =>
      cases hact
      intro hpre
      refine keeps_of_merge hR hI hg hk hc hnd hat hprevIndex hprev hterm ?_ hpre
      omega
    | _ => cases hact; trivial
  | _ => cases hact; trivial

/-- **What was taken over is kept**, in the history of a timely run that cuts nothing unrefuted. -/
theorem History.keeps (hok : ∀ c a, ok c a → Timely c a ∧ KeepsUnrefuted c a)
    (h : History gob ok hodd c A) :
    (setting hodd).protocol.Reachable Setting.Keeps ⟨A, []⟩ ∧ Refines gob c A :=
  h.refines Setting.Keeps (fun c a h => (hok c a h).1) fun hc ha hR hI _ hm =>
    keeps_of_meant hR hI (hok _ _ ha).1.accepts (hok _ _ ha).2 hc hm rfl

/-- Such a run has a history in which what was acknowledged is retained. -/
theorem exists_retained (hodd : Odd n) (hok : ∀ c a, ok c a → Timely c a ∧ KeepsUnrefuted c a)
    (hc : (system gob).Reachable ok c) :
    ∃ A, Refines gob c A ∧ (setting hodd).Inv A ∧ A.Retained := by
  obtain ⟨A, hA⟩ := exists_history hodd hc
  obtain ⟨hreach, hR⟩ := hA.keeps hok
  exact ⟨A, hR, (setting hodd).inv_of_reachable hreach, Setting.retained_of_reachable hreach⟩

end Cluster

end Distsys
