import Distsys.Raft.Encoding
import Distsys.Raft.Votes

/-!
# What is saved, recovered and revealed

A peer that crashes between two critical sections comes back with the triple it had, however long it
stays down and whatever the others do meanwhile. This holds in every run, whatever the encoders of
its requests read.

What a peer tells others is about triples that its `Persister` holds or held before, with two
exceptions. A vote is for a term and a candidate. The body of `RequestVote` does not look at the
term again, so a handler that pauses after `termSync` may grant the vote for a term that is over,
and what it saves is a vote in the term that has come since. And a request whose entries are encoded
late may carry entries of another log than the one it was built from. Without these two, everything
on the wire was saved before.

## What a packet reveals

`Packet.Reveals` says of each kind of packet which triples it speaks about: a request for votes has
the term of its candidate, its vote for itself and the end of its log; a reply has the term of the
voter and, if it is positive, its vote; an `AppendEntries` has the term of the leader and entries at
indices of its log. It is stated for an arbitrary notion of saved triples, so that it can be used at
both levels.

## Main definitions

* `Packet.Reveals` — the terms, votes and log entries a packet carries
* `Cluster.SavedIn`, `Encoding.SavedIn` — what a `Persister` held at some point of a run

## Main results

* `Encoding.recovers_and_reveals_saved`
* `Encoding.late_vote_unsaved`, `Encoding.late_encoding_unsaved` — the two exceptions
-/

namespace Distsys

variable {n : ℕ} {α : Type} {gob : Labgob n α} {rf : Raft n α}
  {S S' : Fin n → ℕ × Option (Fin n) × List (LogEntry α) → Prop} {p : Fin n}

/-- The terms, votes and log entries in a packet belong to triples in `S` of its sender. A candidate
shows its term, its vote for itself and its last entry; a leader its term and its log from
`PrevLogIndex` on. A reply shows the term the handler found and, if it is positive, the vote in the
term it was asked for or the merged log; if an `AppendEntries` fails, `NextIndex` is within a saved
log. -/
def Packet.Reveals (S : Fin n → ℕ × Option (Fin n) × List (LogEntry α) → Prop) :
    Packet n α → Prop
  | .requestVote call =>
    ∃ log last, S call.args.candidateID (call.args.term, some call.args.candidateID, log) ∧
      call.args.lastLogIndex = log.length - 1 ∧
      GoSlice.get log call.args.lastLogIndex = some last ∧ last.term = call.args.lastLogTerm
  | .requestVoteReply call reply =>
    (∃ v log, S call.server (reply.term, v, log)) ∧
      (reply.voteGranted = true →
        ∃ log, S call.server (call.args.term, some call.args.candidateID, log))
  | .appendEntries call =>
    ∃ v log prev, S call.args.leaderID (call.args.term, v, log) ∧
      GoSlice.get log call.args.prevLogIndex = some prev ∧ prev.term = call.args.prevLogTerm ∧
      GoSlice.suffixFrom log (call.args.prevLogIndex + 1) = some call.args.entries
  | .appendEntriesReply call reply =>
    (∃ v log, S call.server (reply.term, v, log)) ∧
      (reply.success = true → ∃ t v log, S call.server (t, v, log) ∧
        GoSlice.suffixFrom log (call.args.prevLogIndex + 1) = some call.args.entries) ∧
      ∃ t v log, S call.server (t, v, log) ∧ reply.nextIndex ≤ log.length

theorem Packet.Reveals.mono (hS : ∀ q d, S q d → S' q d) {packet : Packet n α}
    (h : packet.Reveals S) : packet.Reveals S' := by
  cases packet with
  | requestVote call =>
    obtain ⟨log, last, hd, hrest⟩ := h
    exact ⟨log, last, hS _ _ hd, hrest⟩
  | requestVoteReply call reply =>
    obtain ⟨⟨v, log, hd⟩, hv⟩ := h
    refine ⟨⟨v, log, hS _ _ hd⟩, fun hg => ?_⟩
    obtain ⟨log', hd'⟩ := hv hg
    exact ⟨log', hS _ _ hd'⟩
  | appendEntries call =>
    obtain ⟨v, log, prev, hd, hrest⟩ := h
    exact ⟨v, log, prev, hS _ _ hd, hrest⟩
  | appendEntriesReply call reply =>
    obtain ⟨⟨v, log, hd⟩, hs, t, v', log', hd', hn⟩ := h
    refine ⟨⟨v, log, hS _ _ hd⟩, fun hg => ?_, t, v', log', hS _ _ hd', hn⟩
    obtain ⟨t', v'', log'', hd'', he⟩ := hs hg
    exact ⟨t', v'', log'', hS _ _ hd'', he⟩

/-- `myTerm`, where a handler still holds it, belongs to a triple in `S`. -/
def Goroutine.Reveals (S : Fin n → ℕ × Option (Fin n) × List (LogEntry α) → Prop) (p : Fin n) :
    Goroutine n α → Prop
  | .demote _ myTerm => ∃ v log, S p (myTerm, v, log)
  | .requestVote _ myTerm => ∃ v log, S p (myTerm, v, log)
  | .appendEntries _ myTerm => ∃ v log, S p (myTerm, v, log)
  | _ => True

theorem Goroutine.Reveals.mono (hS : ∀ q d, S q d → S' q d) {gr : Goroutine n α}
    (h : gr.Reveals S p) : gr.Reveals S' p := by
  cases gr with
  | demote | requestVote | appendEntries =>
    obtain ⟨v, log, hd⟩ := h
    exact ⟨v, log, hS _ _ hd⟩
  | _ => trivial

/-! ### One critical section

What is sent in a critical section is computed from the struct, and the durable fields of the struct
are saved whenever the lock is released. Only the body of `RequestVote` may answer for another term
than that of the struct. -/

/-- `termSync` reads `myTerm` from the struct. -/
theorem Spawns.reveals {gr gr' : Goroutine n α} {es : List (Event n α)} (h : Spawns rf gr gr' es)
    (hrf : S p rf.durable) (hgr : gr.Reveals S p) : gr'.Reveals S p := by
  cases h with
  | routine h => cases h <;> trivial
  | raise => exact ⟨_, _, hrf⟩
  | requestVote => exact ⟨_, _, hrf⟩
  | appendEntries => exact ⟨_, _, hrf⟩
  | demoteRequestVote => exact hgr
  | demoteAppendEntries => exact hgr
  | _ => trivial

/-- `conflictScan` answers with an index of the log. -/
theorem Raft.conflictScan_le {log : List (LogEntry α)} {conflictTerm k : ℕ} {prevLogIndex i : ℤ}
    (h : Raft.conflictScan log conflictTerm prevLogIndex k = some i) (hk : k ≤ prevLogIndex) :
    i ≤ prevLogIndex := by
  induction k with
  | zero => cases h; exact le_refl _
  | succ k ih =>
    unfold Raft.conflictScan at h
    split at h
    · cases h
    · split at h
      · cases h; exact_mod_cast hk
      · exact ih h (by omega)

/-- What a critical section sends is about the triple before it or the triple it leaves saved, if
votes are granted in their term. -/
theorem Sends.reveals {gr : Goroutine n α} {packet : Packet n α} {rf' : Raft n α}
    (h : Sends gob rf gr packet rf') {tr : List (Event n α)} (hsrc : gr.Sourced tr p)
    (hme : rf.me = p) (hrf : S p rf.durable) (hrf' : S p rf'.durable) (hgr : gr.Reveals S p)
    (hgrant : ∀ call ∈ gr.requestVote?, rf.Grants call.args → rf.currentTerm = call.args.term) :
    packet.Reveals S := by
  subst hme
  cases h with
  | requestVote _ hlast _ hargs =>
    simp only [Packet.Reveals, hargs]
    exact ⟨rf.log, _, hrf', rfl, hlast, rfl⟩
  | appendEntries _ _ _ hargs =>
    obtain ⟨_, k, prev, _, _, hprev, he⟩ := Raft.appendEntriesArgs_eq_some hargs
    simp only [Packet.Reveals, he]
    refine ⟨rf.votedFor, rf.log, prev, hrf, ?_, rfl, ?_⟩
    · rwa [GoSlice.get_natCast]
    · rw [GoSlice.suffixFrom_eq_some_iff]
      have := (List.getElem?_eq_some_iff.mp hprev).1
      exact ⟨k + 1, by push_cast; rfl, this, rfl⟩
  | ignoreVote => exact ⟨⟨_, _, hsrc.2 ▸ hrf⟩, nofun⟩
  | ignoreEntries =>
    exact ⟨⟨_, _, hsrc.2 ▸ hrf⟩, nofun, _, _, _, hsrc.2 ▸ hrf, Int.natCast_nonneg _⟩
  | grant hfree hlast hdate =>
    refine ⟨hsrc.2 ▸ hgr, fun _ => ⟨rf.log, ?_⟩⟩
    rw [← hgrant _ rfl ⟨hfree, _, hlast, hdate⟩, hsrc.2]
    exact hrf'
  | deny => exact ⟨hsrc.2 ▸ hgr, nofun⟩
  | merge hk hprev =>
    rename_i call myTerm k prev _
    have hlt := (List.getElem?_eq_some_iff.mp hprev).1
    refine ⟨hsrc.2 ▸ hgr, fun _ => ⟨rf.currentTerm, rf.votedFor,
      rf.log.take (k + 1) ++ call.args.entries, hsrc.2 ▸ hrf', ?_⟩, _, _, _, hsrc.2 ▸ hrf,
      Int.natCast_nonneg _⟩
    rw [hk, GoSlice.suffixFrom_eq_some_iff]
    have hlen : (rf.log.take (k + 1)).length = k + 1 := List.length_take_of_le hlt
    refine ⟨k + 1, by push_cast; rfl, ?_, ?_⟩
    · rw [List.length_append, hlen]; omega
    · exact (List.drop_left' hlen).symm
  | conflict hprev _ hscan =>
    obtain ⟨k, hk, hprev⟩ := GoSlice.get_eq_some_iff.mp hprev
    have hlt := (List.getElem?_eq_some_iff.mp hprev).1
    have hle := Raft.conflictScan_le hscan (by omega)
    exact ⟨hsrc.2 ▸ hgr, nofun, _, _, _, hsrc.2 ▸ hrf, by dsimp only; omega⟩
  | short => exact ⟨hsrc.2 ▸ hgr, nofun, _, _, _, hsrc.2 ▸ hrf, le_refl _⟩

namespace Cluster

variable [Inhabited α] [DecidableEq α] {ok : Cfg n α → Action n α → Prop} {c c' : Cfg n α}
  {a : Action n α} {gs : List (Goroutine n α)} {as : List (Action n α)}

/-! ### Whole runs -/

/-- The `Persister` of `p` held the triple `d` at some point of the run `as`. -/
def SavedIn (gob : Labgob n α) (as : List (Action n α)) (p : Fin n)
    (d : ℕ × Option (Fin n) × List (LogEntry α)) : Prop :=
  ∃ c, (system gob).Visits as c ∧ saved gob c p = d

/-- Packets and handlers only reveal what was saved in the run. -/
structure Revealed (gob : Labgob n α) (as : List (Action n α)) (c : Cfg n α) : Prop where
  sent : ∀ packet, .sent packet ∈ c.trace → packet.Reveals (SavedIn gob as)
  /-- A handler that has not replied yet knows something that was saved, too. -/
  node : ∀ p rf gs, c.state.node p = .up rf gs → ∀ gr ∈ gs, gr.Reveals (SavedIn gob as) p

theorem SavedIn.append {d : ℕ × Option (Fin n) × List (LogEntry α)} (h : SavedIn gob as p d)
    (bs : List (Action n α)) : SavedIn gob (as ++ bs) p d := by
  obtain ⟨c, hc, hd⟩ := h
  exact ⟨c, hc.append bs, hd⟩

theorem savedIn_durable (h : (system gob).exec (system gob).start as = some c)
    (hnd : c.state.node p = .up rf gs) : SavedIn gob as p rf.durable :=
  ⟨c, System.visits_of_exec h, (durable_eq_saved (System.reaches_of_exec h) hnd).symm⟩

/-- The step lemma for a goroutine. -/
theorem Revealed.origin (h : Revealed gob as c)
    (hrf : ∀ rf gs, c.state.node p = .up rf gs → SavedIn gob as p rf.durable)
    {gr : Goroutine n α} {es : List (Event n α)}
    (ho : Origin gob c.state.net p a (c.state.node p) gr es) : gr.Reveals (SavedIn gob as) p := by
  have hnode := h.node p
  generalize c.state.node p = nd at ho hnode hrf
  cases ho with
  | kept hg => exact hnode _ _ rfl _ hg
  | spawned ha hr hn => exact (hr.spawns hn).reveals (hrf _ _ rfl) (hnode _ _ rfl _ ha.mem)
  | interrupted h => rcases h with rfl | ⟨_, rfl, _⟩ <;> trivial
  | _ => trivial

theorem revealed_of_path (h : (system gob).Path GrantsInTerm (system gob).start as c) :
    Revealed gob as c := by
  refine System.exec_induction (M := system gob) (P := fun bs d =>
    (system gob).Path GrantsInTerm (system gob).start bs d → Revealed gob bs d)
    (fun _ => ⟨nofun, fun _ _ _ h => nomatch h⟩) ?_ h.exec h
  intro as c a c' hc ih hn hpath
  have hgrant : GrantsInTerm c a := hpath.takes ⟨as, List.prefix_refl _, hc⟩
  obtain ⟨d, hd, _⟩ := hpath.exists_of_append
  cases hc.symm.trans hd.exec
  have hI := ih hd
  have hc' := hpath.exec
  have hmono : ∀ q d, SavedIn gob as q d → SavedIn gob (as ++ [a]) q d :=
    fun _ _ hd => hd.append [a]
  have hr := System.reaches_of_exec hc
  obtain ⟨es, p, nd, hm, ht⟩ := next_moves hn
  have hp : c'.state.node p = nd := by rw [hm.node_eq, Function.update_self]
  refine ⟨fun packet hpk => ?_, fun q rf gs hnd gr hgr => ?_⟩
  · rw [ht] at hpk
    rcases List.mem_append.mp hpk with hpk | hpk
    · exact (hI.sent packet hpk).mono hmono
    · have hsrc := (inFlight_of_reachable hr).node p
      have hemits := hm.node_step.emits hpk
      generalize hnd : c.state.node p = nd₀ at hsrc hemits
      cases hemits with
      | sent ha hrun _ =>
        exact (hrun.sends hpk).reveals (hsrc.2 _ ha.mem) hsrc.1
          (hmono _ _ (savedIn_durable hc hnd)) (savedIn_durable hc' hp)
          ((hI.node p _ _ hnd _ ha.mem).mono hmono) (hgrant.at hnd ha)
  · rcases eq_or_ne q p with rfl | hq
    · have hstep := hm.node_step
      rw [← hp, hnd] at hstep
      exact (hI.origin (fun _ _ => savedIn_durable hc) (hstep.origin hgr)).mono hmono
    · rw [hm.node_eq, Function.update_of_ne hq] at hnd
      exact (hI.node q rf gs hnd gr hgr).mono hmono

end Cluster

namespace Encoding

open Cluster (GrantsInTerm lateHandlerRun electionRun)

variable [Inhabited α] [DecidableEq α] {s s' : Cfg n α} {a : Action n α} {as : List (Action n α)}
  {gs : List (Goroutine n α)}

/-! ### Crashes

Nothing but `Make` touches a peer that is down, so its `Persister` is the same when it comes back.
-/

/-- Volatile and durable state agree, whatever the encoders read. -/
theorem durable_eq_make {ok : Cfg n α → Action n α → Prop} (hs : (system gob).Reachable ok s)
    (hnd : s.state.cluster.node p = .up rf gs) :
    rf.durable = (Raft.make gob p rf.persister).durable := by
  have hsync : rf.InSync gob :=
    struct_invariant (I := fun _ rf => rf.InSync gob) (fun _ _ _ _ hI h => h.inSync hI) hs hnd
  have hme : rf.me = p :=
    struct_invariant (I := fun p rf => rf.me = p) (fun _ _ _ _ hI h => h.me_eq hI) hs hnd
  rw [← hme]
  exact hsync

/-- Only `Make` brings a peer back. -/
theorem down_of_next {persister : List UInt8} (hnd : s.state.cluster.node p = .down persister)
    (ha : ∀ spare, a ≠ .cluster (.make p) spare) (hn : (system gob).next s a = some s') :
    s'.state.cluster.node p = .down persister := by
  rcases node_of_next hn p with ⟨a', es, ha', h⟩ | ⟨hdown, _⟩
  · rw [hnd] at h
    generalize s'.state.cluster.node p = nd at h
    cases h
    cases a with
    | cluster a spare =>
      cases ha'
      exact absurd rfl (ha spare)
    | _ => cases ha'
  · exact (hdown persister).mpr hnd

theorem down_of_exec {persister : List UInt8} (hnd : s.state.cluster.node p = .down persister)
    (ha : ∀ spare, .cluster (.make p) spare ∉ as) (h : (system gob).exec s as = some s') :
    s'.state.cluster.node p = .down persister := by
  induction as generalizing s with
  | nil => cases h; exact hnd
  | cons a as ih =>
    obtain ⟨d, hd, h⟩ := Option.bind_eq_some_iff.mp h
    refine ih (down_of_next hnd (fun spare heq => ha spare ?_) hd) (fun spare hmem => ha spare ?_) h
    · exact heq ▸ List.mem_cons_self
    · exact List.mem_cons_of_mem _ hmem

variable (gob) in
/-- A crash of a peer that is up. -/
theorem next_crash (hnd : s.state.cluster.node p = .up rf gs) (spare : ℕ) :
    ∃ d, (system gob).next s (.cluster (.crash p) spare) = some d ∧
      d.state.cluster.node p = .down rf.persister := by
  simp [System.next, system, step, Cluster.step, hnd, Cluster.put, ready]

variable (gob) in
/-- `Make` for a peer that is down. -/
theorem next_make {persister : List UInt8} (hnd : s.state.cluster.node p = .down persister)
    (spare : ℕ) :
    ∃ d gs, (system gob).next s (.cluster (.make p) spare) = some d ∧
      d.state.cluster.node p = .up (Raft.make gob p persister) gs := by
  simp [System.next, system, step, Cluster.step, hnd, Cluster.put, ready]

/-- A crash, any steps of the others, and `Make`. -/
theorem durable_of_restart {ok : Cfg n α → Action n α → Prop} (hs : (system gob).Reachable ok s)
    (hnd : s.state.cluster.node p = .up rf gs) {spare spare' : ℕ}
    (ha : ∀ spare, .cluster (.make p) spare ∉ as)
    (h : (system gob).exec s
      (.cluster (.crash p) spare :: as ++ [.cluster (.make p) spare']) = some s') :
    ∃ rf' gs', s'.state.cluster.node p = .up rf' gs' ∧ rf'.durable = rf.durable := by
  obtain ⟨s₁, h₁, hdown⟩ := next_crash gob hnd spare
  rw [List.cons_append, System.exec, h₁, Option.bind_some, System.exec_append] at h
  obtain ⟨s₂, h₂, h₃⟩ := Option.bind_eq_some_iff.mp h
  obtain ⟨s₃, gs₃, hmake, hup⟩ := next_make gob (down_of_exec hdown ha h₂) spare'
  rw [System.exec, hmake] at h₃
  cases h₃
  exact ⟨_, gs₃, hup, (durable_eq_make hs hnd).symm⟩

/-! ### Whole runs -/

/-- The `Persister` of `p` held the triple `d` at some point of the run `as`. -/
def SavedIn (gob : Labgob n α) (as : List (Action n α)) (p : Fin n)
    (d : ℕ × Option (Fin n) × List (LogEntry α)) : Prop :=
  ∃ s, (system gob).Visits as s ∧ Cluster.saved gob (view s) p = d

/-- What goes onto the wire was sent in the cluster. -/
theorem sent_of_packet {ok : Cluster.Cfg n α → Distsys.Action n α → Prop}
    (hs : (system gob).Reachable (AsBuilt ok) s) {e : Event n α} (he : e ∈ s.trace)
    {packet : Packet n α} (hpacket : packet ∈ e.packet?) :
    .cluster (.sent packet) ∈ s.trace := by
  refine System.Reachable.invariant (M := system gob) (P := fun s => ∀ e ∈ s.trace,
    ∀ packet ∈ e.packet?, .cluster (.sent packet) ∈ s.trace) nofun ?_ hs e he packet hpacket
  intro s a s' hs hI _ hn e he packet hpacket
  obtain ⟨es, hstep, ht⟩ := System.next_eq_some_iff.mp hn
  rw [ht] at he ⊢
  rcases List.mem_append.mp he with he | he
  · exact List.mem_append_left _ (hI e he packet hpacket)
  · cases e with
    | cluster e =>
      refine List.mem_append_right _ ?_
      cases e with
      | sent packet' => cases packet' <;> cases hpacket <;> exact he
      | _ => cases hpacket
    | encoded call =>
      cases hpacket
      obtain ⟨k, e, henc⟩ := encoding_of_encoded hstep he
      have hnet := List.mem_of_getElem? (encoding_eq_some.mp henc).1
      have hsent := (Cluster.inFlight_of_reachable (view_reachable hs)).net _ hnet
      exact List.mem_append_left _ (mem_view_trace.mp hsent)

/-- The events of the wire, in a run that grants votes in their term and encodes requests as they
were built. -/
theorem revealed_of_path (h : (system gob).Path (AsBuilt GrantsInTerm) (system gob).start as s)
    {e : Event n α} (he : e ∈ s.trace) {packet : Packet n α} (hpacket : packet ∈ e.packet?) :
    packet.Reveals (SavedIn gob as) := by
  have hsent := mem_view_trace.mpr (sent_of_packet h.reaches he hpacket)
  refine ((Cluster.revealed_of_path (view_path h)).sent packet hsent).mono ?_
  rintro q d ⟨c, hc, rfl⟩
  obtain ⟨s', hs', rfl⟩ := exists_visits h hc
  exact ⟨s', hs', rfl⟩

/-- **Durable state equals volatile state**, at the end of every run, and so after each of its
steps: the durable fields of a peer that is up are what `Make` reads back from its `Persister`, with
`(0, -1, [LogEntry{}])` if nothing was ever saved; and a crash and the next `Make` change
none of them, whatever happens in between. If votes are only granted in their term and requests are
encoded as they were built, then every packet sent so far only reveals terms, votes and log entries
that its sender has saved in this run. -/
theorem recovers_and_reveals_saved (gob : Labgob n α) (as : List (Action n α)) (s : Cfg n α)
    (h : (system gob).exec (system gob).start as = some s) :
    (∀ p rf gs, s.state.cluster.node p = .up rf gs →
      rf.durable = (Raft.make gob p rf.persister).durable ∧
      (rf.persister = [] → rf.durable = (0, none, [default])) ∧
      (∀ spare spare', ((system gob).exec s
        [.cluster (.crash p) spare, .cluster (.make p) spare']).isSome) ∧
      ∀ bs s' spare spare', (∀ spare, .cluster (.make p) spare ∉ bs) →
        (system gob).exec s
          (.cluster (.crash p) spare :: bs ++ [.cluster (.make p) spare']) = some s' →
        ∃ rf' gs', s'.state.cluster.node p = .up rf' gs' ∧ rf'.durable = rf.durable) ∧
    ((∀ d a, (system gob).Takes as d a → AsBuilt GrantsInTerm d a) →
      ∀ e ∈ s.trace, ∀ packet ∈ e.packet?, packet.Reveals (SavedIn gob as)) := by
  have hs := System.reaches_of_exec h
  refine ⟨fun p rf gs hnd => ⟨durable_eq_make hs hnd, fun hp => ?_, fun spare spare' => ?_, ?_⟩, ?_⟩
  · rw [durable_eq_make hs hnd, hp, Raft.make_nil_durable]
  · obtain ⟨s₁, h₁, hdown⟩ := next_crash gob hnd spare
    obtain ⟨s₂, _, h₂, _⟩ := next_make gob hdown spare'
    rw [System.exec, h₁, Option.bind_some, System.exec, h₂]
    rfl
  · intro bs s' spare spare' hbs hexec
    exact durable_of_restart hs hnd hbs hexec
  · intro hok e he packet hpacket
    exact revealed_of_path (System.path_of_exec h hok) he hpacket

/-- In a first election both sides of a vote are covered. -/
theorem recovers_and_reveals_saved_election :
    ∃ as s, (system (Labgob.unary 3)).exec (system (Labgob.unary 3)).start as = some s ∧
      as.filterMap Action.cluster? = electionRun ∧
      (∀ d a, (system (Labgob.unary 3)).Takes as d a → AsBuilt GrantsInTerm d a) ∧
      (∃ rf gs, s.state.cluster.node 1 = .up rf gs ∧
        rf.durable = (Raft.make (Labgob.unary 3) 1 rf.persister).durable) ∧
      Packet.Reveals (SavedIn (Labgob.unary 3) as)
        (.requestVoteReply ⟨1, 1, 0, 0, 0⟩ ⟨0, true⟩) := by
  obtain ⟨c, hc, hchk⟩ := System.exists_path_of_execOk (Cluster.system (Labgob.unary 3))
    electionRun GrantsInTerm
    (fun c => (c.state.node 1).check (fun _ => true) &&
      decide (.sent (.requestVoteReply ⟨1, 1, 0, 0, 0⟩ ⟨0, true⟩) ∈ c.trace)) (by decide +kernel)
  obtain ⟨as, s, hpath, has, rfl, _⟩ := settled_start.exists_path hc
  rw [Bool.and_eq_true, decide_eq_true_eq] at hchk
  obtain ⟨rf, gs, hnd, _⟩ := Node.exists_of_check hchk.1
  have h := recovers_and_reveals_saved (Labgob.unary 3) as s hpath.exec
  have hok : ∀ d a, (system (Labgob.unary 3)).Takes as d a → AsBuilt GrantsInTerm d a :=
    fun _ _ => hpath.takes
  exact ⟨as, s, hpath.exec, has, hok, ⟨rf, gs, hnd, (h.1 1 rf gs hnd).1⟩,
    h.2 hok _ (mem_view_trace.mp hchk.2) _ rfl⟩

/-- **A vote that was never saved.** In `lateHandlerRun` peer `1` tells peer `0` that it has its
vote in term `1`. What it has saved is a vote for peer `2` in term `1` and one for peer `0` in term
`2`. Requests are encoded as they were built. -/
theorem late_vote_unsaved :
    ∃ as s, (system (Labgob.unary 3)).exec (system (Labgob.unary 3)).start as = some s ∧
      as.filterMap Action.cluster? = lateHandlerRun ∧
      (∀ d a, (system (Labgob.unary 3)).Takes as d a → AsBuilt (fun _ _ => True) d a) ∧
      .cluster (.sent (.requestVoteReply ⟨1, 1, 0, 0, 0⟩ ⟨0, true⟩)) ∈ s.trace ∧
      ¬ Packet.Reveals (SavedIn (Labgob.unary 3) as)
        (.requestVoteReply ⟨1, 1, 0, 0, 0⟩ ⟨0, true⟩) := by
  -- peer 1 has not saved the vote before any step, nor at the end
  obtain ⟨c, hpath, hchk⟩ := System.exists_path_of_execOk (Cluster.system (Labgob.unary 3))
    lateHandlerRun
    (fun c _ => ¬ ((Cluster.saved (Labgob.unary 3) c 1).1 = 1 ∧
      (Cluster.saved (Labgob.unary 3) c 1).2.1 = some 0))
    (fun c => decide (¬ ((Cluster.saved (Labgob.unary 3) c 1).1 = 1 ∧
        (Cluster.saved (Labgob.unary 3) c 1).2.1 = some 0)) &&
      decide (.sent (.requestVoteReply ⟨1, 1, 0, 0, 0⟩ ⟨0, true⟩) ∈ c.trace)) (by decide +kernel)
  have hfree : (Cluster.system (Labgob.unary 3)).Path (fun _ _ => True) _ _ c :=
    hpath.mono fun _ _ _ => trivial
  obtain ⟨as, s, hlow, has, rfl, _⟩ := settled_start.exists_path hfree
  rw [Bool.and_eq_true, decide_eq_true_eq, decide_eq_true_eq] at hchk
  refine ⟨as, s, hlow.exec, has, fun _ _ => hlow.takes, mem_view_trace.mp hchk.2, ?_⟩
  rintro ⟨_, hvote⟩
  obtain ⟨log, d, hd, hsaved⟩ := hvote rfl
  have hview := visits_view hlow hd
  rw [has] at hview
  rcases hview.takes_or_eq hpath.exec with ⟨a, ha⟩ | heq
  · exact hpath.takes ha (by rw [hsaved]; exact ⟨rfl, rfl⟩)
  · exact hchk.1 (by rw [← heq, hsaved]; exact ⟨rfl, rfl⟩)

/-- Steps of the cluster, in which arrays are allocated with room for one more entry. -/
def roomy (as : List (Distsys.Action n α)) : List (Action n α) := as.map fun a => .cluster a 1

/-- After `electionRun`, peer `0` starts the command `7` and builds its second heartbeat, which
carries it. Before this is encoded, peer `2` wins term `2`, starts the command `9` and sends it to
peer `0`, which writes it over the other one, in the same array. Then the heartbeat is encoded. -/
def lateEncodingRun : List (Action 3 ℕ) :=
  roomy electionRun ++ [.send 1, .send 2] ++
  roomy [.start 0 7, .run 0 1, .run 0 3, .run 2 0, .timeout 2 0, .run 2 0, .run 2 0, .timeout 2 0,
    .run 2 2, .run 2 2, .timeout 2 2, .run 2 2, .run 2 2, .deliver 8, .run 1 1, .run 1 1, .run 1 1,
    .deliver 8, .run 2 4, .run 2 4, .run 2 2, .run 2 3, .run 2 3, .run 2 3, .run 2 3, .start 2 9,
    .run 2 3] ++ [.read 8, .send 8] ++
  roomy [.deliver 8, .run 0 6, .run 0 6, .run 0 6] ++ [.read 3, .send 3]

/-- **A request that was never built.** In `lateEncodingRun` peer `0` sends an entry of term `2` in
a request of term `1`. All critical sections are timely. -/
theorem late_encoding_unsaved :
    ∃ s, (system (Labgob.unary 3)).exec (system (Labgob.unary 3)).start lateEncodingRun = some s ∧
      (∀ d a, (system (Labgob.unary 3)).Takes lateEncodingRun d a →
        ∀ a' ∈ a.cluster?, Cluster.Timely (view d) a') ∧
      .encoded ⟨1, ⟨1, 2, 1⟩, ⟨1, 0, 0, 0, [⟨2, 9⟩], 0⟩⟩ ∈ s.trace ∧
      ¬ Packet.Reveals (SavedIn (Labgob.unary 3) lateEncodingRun)
        (.appendEntries ⟨1, ⟨1, 2, 1⟩, ⟨1, 0, 0, 0, [⟨2, 9⟩], 0⟩⟩) := by
  -- peer 0 has not saved such a log in term 1 before any step, nor at the end
  obtain ⟨s, hpath, hchk⟩ := System.exists_path_of_execOk (system (Labgob.unary 3)) lateEncodingRun
    (fun d a => (∀ a' ∈ a.cluster?, Cluster.Timely (view d) a') ∧
      ¬ ((Cluster.saved (Labgob.unary 3) (view d) 0).1 = 1 ∧
        (Cluster.saved (Labgob.unary 3) (view d) 0).2.2.drop 1 = [⟨2, 9⟩]))
    (fun s => decide (¬ ((Cluster.saved (Labgob.unary 3) (view s) 0).1 = 1 ∧
        (Cluster.saved (Labgob.unary 3) (view s) 0).2.2.drop 1 = [⟨2, 9⟩])) &&
      decide (.encoded ⟨1, ⟨1, 2, 1⟩, ⟨1, 0, 0, 0, [⟨2, 9⟩], 0⟩⟩ ∈ s.trace)) (by decide +kernel)
  rw [Bool.and_eq_true, decide_eq_true_eq, decide_eq_true_eq] at hchk
  refine ⟨s, hpath.exec, fun _ _ h => (hpath.takes h).1, hchk.2, ?_⟩
  rintro ⟨v, log, prev, ⟨d, hd, hsaved⟩, _, _, hsuffix⟩
  have hdrop : log.drop 1 = [⟨2, 9⟩] := by
    obtain ⟨k, hk, _, heq⟩ := GoSlice.suffixFrom_eq_some_iff.mp hsuffix
    dsimp only at hk
    obtain rfl : k = 1 := by omega
    exact heq.symm
  rcases hd.takes_or_eq hpath.exec with ⟨a, ha⟩ | heq
  · exact (hpath.takes ha).2 (by rw [hsaved]; exact ⟨rfl, hdrop⟩)
  · exact hchk.1 (by rw [← heq, hsaved]; exact ⟨rfl, hdrop⟩)

end Encoding

end Distsys
