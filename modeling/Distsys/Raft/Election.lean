import Mathlib.Algebra.Ring.Parity
import Mathlib.Data.Finset.Card
import Mathlib.Data.Fintype.Card
import Mathlib.Data.List.Perm.Basic
import Distsys.Raft.Votes

/-!
# Elections

`callElection` counts the votes on its channel. The count is right in every run: each call of
`sendRequestVote` sends one vote and there is one call for each other peer, so the votes received so
far come from different peers, none of which has a call under way. That a peer is elected therefore
always means that a majority voted for it in the term of that election.

Whether this is also the term in which it is then leader is another matter. `callElection` looks at
the phase again but not at the term, and `termSync` raises the term of a leader before it ends its
phase. In a run without these two, a peer in phase leader was elected in its current term; if votes
are unique as well, no other peer ever leads in that term.

## What is counted

The channel `votes` has a `bool` for each call, and the loop does not know whose it is. So that the
count is right has to come from the senders. A call is under way in one goroutine at a time, this
goroutine sends once and ends, and a candidate starts one for each other peer when it begins a term.
Terms are not repeated by a candidate, hence the calls of different elections do not mix.

That a reply `true` means a vote in the term of the call, and not in a later one, is what `voters`
says. It is read off the replies in the trace, so it is true whether or not the voter was still in
that term; whether votes are unique is another question.

## Main definitions

* `voters` — the peers that voted for a candidate in a term
* `lastElected` — the election behind the current leadership
* `Tally` — the invariant of the count

## Main results

* `Cluster.majority_of_elected` — holds in every run
* `Cluster.leader_elected_in_term`, `Cluster.one_leader_per_term`
-/

namespace Distsys

open scoped Classical in
/-- The peers that have voted for `a` in term `T`. -/
noncomputable def voters {n : ℕ} {α : Type} (tr : List (Event n α)) (a : Fin n) (T : ℕ) :
    Finset (Fin n) :=
  Finset.univ.filter fun v => Voted tr v T a

variable {n : ℕ} {α : Type} {gob : Labgob n α} {rf : Raft n α} {tr es : List (Event n α)}
  {gs : List (Goroutine n α)} {v p : Fin n} {T : ℕ}

theorem mem_voters : v ∈ voters tr p T ↔ Voted tr v T p := by
  simp [voters]

/-- The term for which an event elects `p`. -/
def Event.elected? (p : Fin n) : Event n α → Option ℕ
  | .elected q T => if q = p then some T else none
  | _ => none

/-- The term of the last election that `p` has won: that of its leadership, while it leads. -/
def lastElected (p : Fin n) (tr : List (Event n α)) : Option ℕ :=
  (tr.filterMap (Event.elected? p)).getLast?

theorem voters_append : voters tr p T ⊆ voters (tr ++ es) p T :=
  fun _ hv => mem_voters.mpr (mem_voters.mp hv).append

/-! ### Calls under way

A vote is on its way to the channel as long as the goroutine of its call exists, from `Call` over
`termSync` to the send. Each of these is one and the same `VoteCall`, and no two of them are to the
same peer in the same term. -/

/-- The call of `sendRequestVote` that works on a reply. -/
def Job.sender? : Job n α → Option (VoteCall n)
  | .sendRequestVote call _ => some call
  | _ => none

/-- The call of a `sendRequestVote` that has not sent its vote yet. -/
def Goroutine.sender? : Goroutine n α → Option (VoteCall n)
  | .callRequestVote call => some call
  | .termSync job => job.sender?
  | .demote job _ => job.sender?
  | .doneCh call _ => some call
  | _ => none

/-- The calls of `sendRequestVote` under way. -/
def senders (gs : List (Goroutine n α)) : List (VoteCall n) := gs.filterMap Goroutine.sender?

/-- Two calls of one election go to different peers. -/
def Separate (x y : VoteCall n) : Prop := x.args.term = y.args.term → x.server ≠ y.server

theorem Separate.symm {x y : VoteCall n} (h : Separate x y) : Separate y x :=
  fun ht hs => h ht.symm hs.symm

theorem senders_append (gs gs' : List (Goroutine n α)) :
    senders (gs ++ gs') = senders gs ++ senders gs' :=
  List.filterMap_append

theorem senders_singleton (gr : Goroutine n α) : senders [gr] = gr.sender?.toList := by
  cases h : gr.sender? <;> simp [senders, h]

theorem senders_react (job : Job n α) (rf : Raft n α) (myTerm : ℕ) :
    senders (job.react rf myTerm).next = job.sender?.toList := by
  cases job <;> rfl

theorem senders_ignore (job : Job n α) (rf : Raft n α) (myTerm : ℕ) :
    senders (job.ignore rf myTerm).next = job.sender?.toList := by
  cases job <;> rfl

theorem senders_eraseIdx {g : ℕ} {gr : Goroutine n α} (hg : gs[g]? = some gr) :
    (gr.sender?.toList ++ senders (gs.eraseIdx g)).Perm (senders gs) := by
  obtain ⟨hlt, rfl⟩ := List.getElem?_eq_some_iff.mp hg
  have h := (List.getElem_cons_eraseIdx_perm hlt).filterMap Goroutine.sender?
  rw [List.filterMap_cons] at h
  split at h
  · rename_i hnone; rw [hnone]; exact h
  · rename_i call hsome; rw [hsome]; exact h

theorem senders_erase [DecidableEq α] {gr : Goroutine n α} (hg : gr ∈ gs) :
    (gr.sender?.toList ++ senders (gs.erase gr)).Perm (senders gs) := by
  have h := (List.perm_cons_erase hg).symm.filterMap Goroutine.sender?
  rw [List.filterMap_cons] at h
  split at h
  · rename_i hnone; rw [hnone]; exact h
  · rename_i call hsome; rw [hsome]; exact h

theorem senders_map {f : Goroutine n α → Goroutine n α} (hf : ∀ gr, (f gr).sender? = gr.sender?)
    (gs : List (Goroutine n α)) : senders (gs.map f) = senders gs := by
  rw [senders, List.filterMap_map]
  exact congrArg (fun f => gs.filterMap f) (funext hf)

theorem sender?_pushVote (election : ℕ) (vote : Bool) (gr : Goroutine n α) :
    (gr.pushVote election vote).sender? = gr.sender? := by
  rcases gr.pushVote_cases election vote with h | ⟨_, _, _, rfl, h⟩ <;> rw [h]
  rfl

theorem sender?_pushReply (call : EntriesCall n α) (reply : AppendEntriesReply)
    (gr : Goroutine n α) : (gr.pushReply call reply).sender? = gr.sender? := by
  rcases gr.pushReply_cases call reply with h | ⟨_, rfl, h⟩ <;> rw [h]
  rfl

theorem Runs.calls_wake {gr : Goroutine n α} {e : Effect n α} (h : Runs gob rf gr e) :
    senders (gs.map e.wake) = senders gs := by
  rcases h.wake_cases with hw | ⟨call, vote, _, _, hw⟩ <;> rw [hw]
  · rw [List.map_id]
  · exact senders_map (sender?_pushVote _ _) gs

/-- A critical section starts calls only in `callElection`; otherwise it goes on with its own, or
ends it. -/
theorem Runs.calls {gr : Goroutine n α} {e : Effect n α} (h : Runs gob rf gr e) :
    (senders e.next = [] ∨ senders e.next = gr.sender?.toList) ∨
      gr = .callElection ∧ ∃ args : RequestVoteArgs n, args.term = rf.currentTerm + 1 ∧
        senders e.next = (Raft.others rf.me).map fun ID => ⟨ID, args⟩ := by
  cases h with
  | callElection _ _ hargs =>
    rename_i args
    refine Or.inr ⟨rfl, args, by rw [hargs], ?_⟩
    change List.filterMap _ (((Raft.others rf.me).map _).map _) = _
    rw [List.map_map, List.filterMap_map]
    exact congrFun List.filterMap_eq_map _
  | heartbeat =>
    refine Or.inl (Or.inl ?_)
    simp [senders, Goroutine.sender?]
  | phaseChange => rename_i ph _ _; cases ph <;> exact Or.inl (Or.inl rfl)
  | commit => rename_i commits _ _ _; cases commits <;> exact Or.inl (Or.inl rfl)
  | raise => exact Or.inl (Or.inr (senders_singleton _))
  | react => exact Or.inl (Or.inr (senders_react ..))
  | ignore => exact Or.inl (Or.inr (senders_ignore ..))
  | demote =>
    refine Or.inl (Or.inr ?_)
    rw [senders_append, senders_react]
    exact List.append_nil _
  | demoteSame => exact Or.inl (Or.inr (senders_react ..))
  | merge =>
    refine Or.inl (Or.inl ?_)
    dsimp only
    split <;> rfl
  | _ => exact Or.inl (Or.inl rfl)

theorem subperm_of_erase {x y z l : List (VoteCall n)} (h : (x ++ z).Perm l)
    (hy : y = [] ∨ y = x) : (z ++ y).Subperm l := by
  rcases hy with rfl | rfl
  · rw [List.append_nil]
    exact (List.sublist_append_right x z).subperm.trans h.subperm
  · exact (List.perm_append_comm.trans h).subperm

theorem sender?_of_timeout {gr gr' : Goroutine n α} (h : gr.timeout = some gr') :
    gr'.sender?.toList = [] := by
  cases gr <;> cases h <;> rfl

theorem sender?_of_reset {gr gr' : Goroutine n α} (h : gr.reset = some gr') :
    gr'.sender?.toList = [] := by
  cases gr <;> cases h <;> rfl

theorem senders_of_fail {gr : Goroutine n α} {next : List (Goroutine n α)}
    (h : gr.fail = some next) : senders next = [] ∨ senders next = gr.sender?.toList := by
  cases gr with
  | callRequestVote call => cases h; exact Or.inr rfl
  | callAppendEntries call => cases h; exact Or.inl rfl
  | _ => cases h

/-- What a step does to the calls under way. -/
theorem NodeStep.calls [Inhabited α] {net : List (Packet n α)} {a : Action n α} {rf' : Raft n α}
    {gs' : List (Goroutine n α)} (h : NodeStep gob net p a (.up rf gs) (.up rf' gs') es) :
    (senders gs').Subperm (senders gs) ∨
      Cluster.At p gs a (some .callElection) ∧ ∃ args : RequestVoteArgs n,
        args.term = rf.currentTerm + 1 ∧
        (senders gs').Perm (senders gs ++ (Raft.others rf.me).map fun ID => ⟨ID, args⟩) := by
  cases h with
  | kill | start | startRefused => exact Or.inl (List.Perm.refl _).subperm
  | run hg h =>
    have he := senders_eraseIdx hg
    rw [senders_append, h.calls_wake]
    rcases h.calls with hn | ⟨rfl, args, hargs, hn⟩
    · exact Or.inl (subperm_of_erase he hn)
    · rw [hn]
      exact Or.inr ⟨.run hg, args, hargs, he.append_right _⟩
  | timeout hg h =>
    rw [senders_append, senders_singleton]
    exact Or.inl (subperm_of_erase (senders_eraseIdx hg) (Or.inl (sender?_of_timeout h)))
  | reset hg h =>
    rw [senders_append, senders_singleton]
    exact Or.inl (subperm_of_erase (senders_eraseIdx hg) (Or.inl (sender?_of_reset h)))
  | fail hg h =>
    rw [senders_append]
    exact Or.inl (subperm_of_erase (senders_eraseIdx hg) (senders_of_fail h))
  | requestVote | appendEntries =>
    rw [senders_append, senders_singleton]
    exact Or.inl (subperm_of_erase (x := []) (List.Perm.refl _) (Or.inl rfl))
  | requestVoteReply _ _ hg =>
    rw [senders_append, senders_singleton]
    exact Or.inl (subperm_of_erase (senders_erase hg) (Or.inr rfl))
  | appendEntriesReply _ _ hg =>
    rw [senders_append, senders_singleton, senders_map (sender?_pushReply _ _)]
    exact Or.inl (subperm_of_erase (senders_erase hg) (Or.inl rfl))

/-- A vote that is sent ends its call. -/
theorem NodeStep.calls_doneCh [Inhabited α] {net : List (Packet n α)} {a : Action n α}
    {rf' : Raft n α} {gs' : List (Goroutine n α)} {call : VoteCall n} {vote : Bool}
    (h : NodeStep gob net p a (.up rf gs) (.up rf' gs') es)
    (ha : Cluster.At p gs a (some (.doneCh call vote))) :
    (call :: senders gs').Perm (senders gs) := by
  cases ha with
  | run hg =>
    cases h with
    | run hg' h =>
      cases hg.symm.trans hg'
      have he := senders_eraseIdx hg
      rw [senders_append, h.calls_wake]
      cases h
      rw [show senders ([] : List (Goroutine n α)) = [] from rfl, List.append_nil]
      exact he

/-! ### The count

The peers whose votes were received are those that have voted and have no call under way. A `true`
that is sent on the channel is a vote of the peer whose call ends with it, which was not received
before. -/

open scoped Classical in
/-- The peers whose vote for `p` in term `T` has reached the channel: no call to them is under
way. -/
noncomputable def received (tr : List (Event n α)) (p : Fin n) (T : ℕ)
    (gs : List (Goroutine n α)) : Finset (Fin n) :=
  (voters tr p T).filter fun v => ∀ call ∈ senders gs, call.args.term = T → call.server ≠ v

theorem mem_received : v ∈ received tr p T gs ↔
    Voted tr v T p ∧ ∀ call ∈ senders gs, call.args.term = T → call.server ≠ v := by
  simp [received, mem_voters]

theorem received_subset : received tr p T gs ⊆ voters tr p T :=
  fun _ hv => mem_voters.mpr (mem_received.mp hv).1

/-- The votes on the channel of an election, counted or not, and the counts that came of them are
backed by as many peers. -/
structure Tally (tr : List (Event n α)) (p : Fin n) (gs : List (Goroutine n α)) : Prop where
  separate : (senders gs).Pairwise Separate
  /-- While votes are counted: those counted and those in the channel come from different peers. -/
  votes : ∀ T i voteCount votes, .awaitVotes T i voteCount votes ∈ gs →
    voteCount + votes.count true ≤ (received tr p T gs).card
  /-- When they are counted. -/
  check : ∀ T voteCount, .candidateCheck T voteCount ∈ gs → voteCount ≤ (voters tr p T).card
  result : ∀ T voteCount, .callResult T voteCount ∈ gs → voteCount ≤ (voters tr p T).card

theorem pairwise_others (p : Fin n) (args : RequestVoteArgs n) :
    ((Raft.others p).map fun ID => (⟨ID, args⟩ : VoteCall n)).Pairwise Separate := by
  rw [List.pairwise_map]
  exact ((List.nodup_finRange n).filter _).imp fun h _ hs => h hs

theorem pairwise_subperm {l l' : List (VoteCall n)} (h : l.Pairwise Separate)
    (hs : l'.Subperm l) : l'.Pairwise Separate := by
  obtain ⟨l'', hp, hsub⟩ := hs
  exact hp.pairwise (h.sublist hsub) fun h => h.symm

/-- A vote taken from the channel is counted. -/
theorem count_vote (voteCount : ℕ) (vote : Bool) (votes : List Bool) :
    (if vote then voteCount + 1 else voteCount) + votes.count true =
      voteCount + (vote :: votes).count true := by
  cases vote
  · simp
  · simp; omega

section Step

variable [Inhabited α] {net : List (Packet n α)} {a : Action n α} {rf' : Raft n α}
  {gs' : List (Goroutine n α)}

/-- The calls under way in the next state: old ones, or new ones of a new election to others. -/
theorem NodeStep.calls_mem (h : NodeStep gob net p a (.up rf gs) (.up rf' gs') es)
    {call : VoteCall n} (hc : call ∈ senders gs') :
    call ∈ senders gs ∨ call.args.term = rf.currentTerm + 1 ∧ call.server ≠ rf.me := by
  rcases h.calls with hs | ⟨_, args, hargs, hp⟩
  · exact Or.inl (hs.subset hc)
  · rcases List.mem_append.mp (hp.subset hc) with hc | hc
    · exact Or.inl hc
    · obtain ⟨ID, hID, rfl⟩ := List.mem_map.mp hc
      exact Or.inr ⟨hargs, Raft.mem_others.mp hID⟩

theorem NodeStep.received_subset (h : NodeStep gob net p a (.up rf gs) (.up rf' gs') es)
    (hT : T ≤ rf.currentTerm) : received tr p T gs ⊆ received (tr ++ es) p T gs' := by
  intro v hv
  obtain ⟨hvoted, hfree⟩ := mem_received.mp hv
  refine mem_received.mpr ⟨hvoted.append, fun call hc ht => ?_⟩
  rcases h.calls_mem hc with hc | ⟨hnew, _⟩
  · exact hfree call hc ht
  · omega

theorem NodeStep.separate (h : NodeStep gob net p a (.up rf gs) (.up rf' gs') es)
    (hold : ∀ call ∈ senders gs, call.args.term ≤ rf.currentTerm)
    (hs : (senders gs).Pairwise Separate) : (senders gs').Pairwise Separate := by
  rcases h.calls with hsub | ⟨_, args, hargs, hp⟩
  · exact pairwise_subperm hs hsub
  · refine hp.symm.pairwise ?_ fun h => h.symm
    refine List.pairwise_append.mpr ⟨hs, pairwise_others rf.me args, fun x hx y hy ht _ => ?_⟩
    obtain ⟨ID, _, rfl⟩ := List.mem_map.mp hy
    have hx := hold x hx
    rw [show x.args.term = args.term from ht, hargs] at hx
    exact absurd hx (Nat.not_succ_le_self _)

/-- The step lemma for the votes on the channel. -/
theorem Tally.votes_next (hI : Tally tr p gs)
    (h : NodeStep gob net p a (.up rf gs) (.up rf' gs') es) (hme : rf.me = p)
    (hsrc : ∀ gr ∈ gs, gr.Sourced tr p) (hcand : ∀ T, .candidacy p T ∈ tr → T ≤ rf.currentTerm)
    (hold : ∀ call ∈ senders gs, call.args.term ≤ rf.currentTerm)
    {i voteCount : ℕ} {votes : List Bool} (hg : .awaitVotes T i voteCount votes ∈ gs') :
    voteCount + votes.count true ≤ (received (tr ++ es) p T gs').card := by
  have hmono : ∀ {i voteCount votes}, .awaitVotes T i voteCount votes ∈ gs →
      voteCount + votes.count true ≤ (received (tr ++ es) p T gs').card := by
    intro i voteCount votes hg
    exact (hI.votes T i voteCount votes hg).trans
      (Finset.card_le_card (h.received_subset (hcand T (hsrc _ hg))))
  cases h.origin hg with
  | kept hg => exact hmono hg
  | @spawned _ _ _ _ e ha hr hn =>
    have hspawn := hr.spawns hn
    generalize hev : e.events = ev at hspawn
    cases hspawn with
    | routine h => cases h
    | awaitVotes _ he =>
      refine Finset.card_pos.mpr ⟨p, mem_received.mpr ⟨?_, fun call hc ht => ?_⟩⟩
      · exact Or.inl ⟨rfl, List.mem_append_right _ (hme ▸ hev ▸ he)⟩
      · rcases h.calls_mem hc with hc | ⟨_, hs⟩
        · have := hold call hc
          omega
        · exact hme ▸ hs
    | vote => rw [count_vote, ← hev]; exact hmono ha.mem
  | @voted _ _ _ _ votes call vote hg₀ ha =>
    rw [List.count_append]
    cases vote with
    | false => exact hmono hg₀
    | true =>
      obtain ⟨_, hcandID, hv⟩ := hsrc _ ha.mem
      obtain ⟨reply, hreply, hgranted⟩ := hv rfl
      have hperm := h.calls_doneCh ha
      have hmem : call ∈ senders gs := hperm.subset List.mem_cons_self
      have hnot : call.server ∉ received tr p call.args.term gs := fun hin =>
        (mem_received.mp hin).2 call hmem rfl rfl
      have hin : call.server ∈ received (tr ++ []) p call.args.term gs' := by
        refine mem_received.mpr ⟨?_, fun call' hc' ht => ?_⟩
        · exact Voted.append (Or.inr ⟨call, reply, hreply, hgranted, rfl, rfl, hcandID⟩)
        · have hsep := hperm.symm.pairwise hI.separate fun h => h.symm
          exact ((List.pairwise_cons.mp hsep).1 call' hc' ht.symm).symm
      -- the peer that answered joins those received so far
      have hsub : received tr p call.args.term gs ⊆ _ := h.received_subset (hold call hmem)
      have hcard := Finset.card_le_card (Finset.insert_subset hin hsub)
      rw [Finset.card_insert_of_notMem hnot] at hcard
      have := hI.votes _ _ _ _ hg₀
      rw [List.count_singleton_self]
      omega
  | interrupted hi => rcases hi with hi | ⟨_, hi, _⟩ <;> cases hi

/-- **The step lemma of the count.** -/
theorem Tally.next (hI : Tally tr p gs) (h : NodeStep gob net p a (.up rf gs) (.up rf' gs') es)
    (hme : rf.me = p) (hsrc : ∀ gr ∈ gs, gr.Sourced tr p)
    (hcand : ∀ T, .candidacy p T ∈ tr → T ≤ rf.currentTerm)
    (hold : ∀ call ∈ senders gs, call.args.term ≤ rf.currentTerm) : Tally (tr ++ es) p gs' := by
  have hvoters : ∀ T, (voters tr p T).card ≤ (voters (tr ++ es) p T).card :=
    fun T => Finset.card_le_card voters_append
  refine ⟨h.separate hold hI.separate, fun T i k votes hg => hI.votes_next h hme hsrc hcand hold hg,
    fun T k hg => ?_, fun T k hg => ?_⟩
  · cases h.origin hg with
    | kept hg => exact (hI.check T k hg).trans (hvoters T)
    | @spawned _ _ _ _ e ha hr hn =>
      refine le_trans ?_ (hvoters T)
      have hspawn := hr.spawns hn
      generalize e.events = ev at hspawn
      cases hspawn with
      | routine h => cases h
      | @lastVote _ i voteCount vote votes =>
        have hle := (hI.votes T i voteCount (vote :: votes) ha.mem).trans
          (Finset.card_le_card received_subset)
        rw [← count_vote] at hle
        omega
    | interrupted hi => rcases hi with hi | ⟨_, hi, _⟩ <;> cases hi
  · cases h.origin hg with
    | kept hg => exact (hI.result T k hg).trans (hvoters T)
    | @spawned _ _ _ _ e ha hr hn =>
      refine le_trans ?_ (hvoters T)
      have hspawn := hr.spawns hn
      generalize e.events = ev at hspawn
      cases hspawn with
      | routine h => cases h
      | candidateCheck => exact hI.check T k ha.mem
    | interrupted hi => rcases hi with hi | ⟨_, hi, _⟩ <;> cases hi

end Step

/-- Steps of other peers. -/
theorem Tally.append (h : Tally tr p gs) : Tally (tr ++ es) p gs := by
  refine ⟨h.separate, fun T i k votes hg => (h.votes T i k votes hg).trans ?_,
    fun T k hg => (h.check T k hg).trans (Finset.card_le_card voters_append),
    fun T k hg => (h.result T k hg).trans (Finset.card_le_card voters_append)⟩
  refine Finset.card_le_card fun v hv => ?_
  obtain ⟨hvoted, hfree⟩ := mem_received.mp hv
  exact mem_received.mpr ⟨hvoted.append, hfree⟩

theorem Goroutine.Sourced.sender {gr : Goroutine n α} (h : gr.Sourced tr p) {call : VoteCall n}
    (hc : gr.sender? = some call) :
    .sent (.requestVote call) ∈ tr ∧ call.args.candidateID = p := by
  cases gr with
  | callRequestVote => cases hc; exact h
  | doneCh => cases hc; exact ⟨h.1, h.2.1⟩
  | termSync job | demote job =>
    cases job with
    | sendRequestVote => cases hc; exact ⟨h.1, h.2.1⟩
    | _ => cases hc
  | _ => cases hc

theorem Raft.make_phase [Inhabited α] (gob : Labgob n α) (p : Fin n) (persister : List UInt8) :
    (Raft.make gob p persister).phase ≠ .leader := by
  obtain ⟨_, _, _, h⟩ := Raft.make_eq gob p persister
  rw [h]
  exact nofun

/-- How a peer comes to be in phase leader. -/
theorem Runs.leads {gr : Goroutine n α} {e : Effect n α} (h : Runs gob rf gr e)
    (hsrc : gr.Sourced tr p) (hl : e.rf.phase = .leader) :
    (rf.phase = .leader ∧ (e.rf.currentTerm = rf.currentTerm ∨
      ∃ job, gr = .termSync job ∧ rf.currentTerm < job.otherTerm)) ∨
    ∃ election voteCount, gr = .callResult election voteCount ∧ Raft.majority n ≤ voteCount ∧
      rf.phase ≠ .exit ∧ rf.phase ≠ .leader ∧ e.rf.currentTerm = rf.currentTerm ∧
      .elected rf.me election ∈ e.events := by
  cases h with
  | phaseChange => exact absurd hl hsrc
  | callElection hc => exact absurd (hc.symm.trans hl) nofun
  | elected hv h h' => exact Or.inr ⟨_, _, rfl, hv, h, h', rfl, List.mem_singleton.mpr rfl⟩
  | lost => cases hl
  | raise h => exact Or.inl ⟨hl, Or.inr ⟨_, rfl, h⟩⟩
  | commit _ hadjust hcommit =>
    obtain ⟨_, _, rfl⟩ := Raft.adjustIndices_eq hadjust
    rcases Raft.commitPhase_eq_some hcommit with ⟨rfl, _⟩ | ⟨_, _, _, _, rfl, _⟩
    · exact Or.inl ⟨hl, Or.inl rfl⟩
    · exact Or.inl ⟨hl, Or.inl rfl⟩
  | applyEntries h =>
    obtain rfl := Raft.applyEntries_eq_some h
    exact Or.inl ⟨hl, Or.inl rfl⟩
  | merge _ _ hr =>
    obtain ⟨_, _, _, rfl⟩ := Raft.mergeLog_eq_some hr
    exact Or.inl ⟨hl, Or.inl rfl⟩
  | react | demoteSame => rw [Job.react_rf] at hl; exact Or.inl ⟨hl, Or.inl (by simp)⟩
  | ignore => rw [Job.ignore_rf] at hl; exact Or.inl ⟨hl, Or.inl (by simp)⟩
  | demote => rw [Job.react_rf] at hl; cases hl
  | _ => exact Or.inl ⟨hl, Or.inl rfl⟩

namespace Cluster

variable [Inhabited α] [DecidableEq α] {ok : Cfg n α → Action n α → Prop} {c c' : Cfg n α}

theorem tally_of_reachable (hc : (system gob).Reachable ok c)
    (hnd : c.state.node p = .up rf gs) : Tally c.trace p gs := by
  refine node_invariant (I := fun c p nd => ∀ rf gs, nd = .up rf gs → Tally c.trace p gs)
    (fun _ => nofun) ?_ ?_ hc p rf gs hnd
  · intro c a c' p nd hn h rf gs hnd
    obtain ⟨es, _, ht⟩ := System.next_eq_some_iff.mp hn
    rw [ht]
    exact (h rf gs hnd).append
  · rintro c a c' p nd es hc hI _ _ ht hs _ rf' gs' rfl
    rw [ht]
    have hin := inFlight_of_reachable hc
    have hsrc := hin.node p
    have hI := hI p
    generalize hnd : c.state.node p = nd at hs hI hsrc
    cases nd with
    | down persister =>
      cases hs
      exact ⟨List.Pairwise.nil, by simp, by simp, by simp⟩
    | up rf gs =>
      have hcand : ∀ T, .candidacy p T ∈ c.trace → T ≤ rf.currentTerm := by
        intro T h
        have := candidacy_le hc h
        rwa [← durable_eq_saved hc hnd] at this
      refine (hI rf gs rfl).next hs hsrc.1 hsrc.2 hcand fun call hcall => ?_
      obtain ⟨gr, hgr, hgc⟩ := List.mem_filterMap.mp hcall
      obtain ⟨hsent, hp⟩ := (hsrc.2 gr hgr).sender hgc
      exact hcand _ (hp ▸ (hin.sent _ hsent).1)

/-- **An election is won by a majority**, in every run. -/
theorem majority_of_elected (hc : (system gob).Reachable ok c) (h : .elected p T ∈ c.trace) :
    Raft.majority n ≤ (voters c.trace p T).card := by
  refine System.Reachable.invariant (M := system gob) (P := fun c => ∀ p T, .elected p T ∈ c.trace →
    Raft.majority n ≤ (voters c.trace p T).card) nofun ?_ hc p T h
  intro c a c' hc hI _ hn p T h
  obtain ⟨es, q, nd, hm, ht⟩ := next_moves hn
  rw [ht] at h ⊢
  refine le_trans ?_ (Finset.card_le_card voters_append)
  rcases List.mem_append.mp h with h | h
  · exact hI p T h
  · have hemits := hm.node_step.emits h
    generalize hnd : c.state.node q = nd₀ at hemits
    cases hemits with
    | elected ha hv _ _ =>
      rw [me_of_reachable hc hnd]
      exact hv.trans ((tally_of_reachable hc hnd).result T _ ha.mem)

/-- A vote is for a peer that stands. -/
theorem candidacy_of_voted (hc : (system gob).Reachable ok c) (h : Voted c.trace v T p) :
    .candidacy p T ∈ c.trace := by
  have hin := inFlight_of_reachable hc
  rcases h with ⟨rfl, h⟩ | ⟨call, reply, h, _, _, rfl, rfl⟩
  · exact h
  · have hcall : .sent (.requestVote call) ∈ c.trace := hin.sent _ h
    exact (hin.sent _ hcall).1

/-- A peer has reached every term it was elected in. -/
theorem elected_le (hc : (system gob).Reachable ok c) (h : .elected p T ∈ c.trace) :
    T ≤ (saved gob c p).1 := by
  have hpos : 0 < (voters c.trace p T).card := by
    have := majority_of_elected hc h
    have := p.pos
    rw [Raft.majority] at *
    omega
  obtain ⟨v, hv⟩ := Finset.card_pos.mp hpos
  exact candidacy_le hc (candidacy_of_voted hc (mem_voters.mp hv))

/-! ### Leaders

From elections to leaderships. The trace has an event for every election that is won, and the last
one of a peer is the one by which it leads, if it does. -/

omit [Inhabited α] [DecidableEq α] in
/-- Events that do not elect a peer leave its last election as it is. -/
theorem lastElected_append (h : ∀ T, .elected p T ∉ es) :
    lastElected p (tr ++ es) = lastElected p tr := by
  have hnil : es.filterMap (Event.elected? p) = [] := by
    rw [List.filterMap_eq_nil_iff]
    intro e he
    cases e with
    | elected q T =>
      have hq : q ≠ p := fun hq => h T (hq ▸ he)
      simp [Event.elected?, hq]
    | _ => rfl
  rw [lastElected, List.filterMap_append, hnil, List.append_nil, lastElected]

omit [Inhabited α] [DecidableEq α] in
theorem lastElected_concat (p : Fin n) (T : ℕ) (tr : List (Event n α)) :
    lastElected p (tr ++ [.elected p T]) = some T := by
  simp [lastElected, Event.elected?]

/-- Who is in phase leader leads by its last election, and that was for its current term. -/
theorem lastElected_of_leader (hok : ∀ c a, ok c a → WinsInTerm c a ∧ LeaderTermFixed c a)
    (hc : (system gob).Reachable ok c) (hnd : c.state.node p = .up rf gs)
    (hl : rf.phase = .leader) : lastElected p c.trace = some rf.currentTerm := by
  refine System.Reachable.invariant (M := system gob) (P := fun c => ∀ p rf gs,
    c.state.node p = .up rf gs → rf.phase = .leader → lastElected p c.trace = some rf.currentTerm)
    (fun _ _ _ h => nomatch h) ?_ hc p rf gs hnd hl
  intro c a c' hc hI ha hn q rf' gs' hnd' hl
  obtain ⟨es, p, nd, hm, ht⟩ := next_moves hn
  obtain ⟨hwins, hfixed⟩ := hok c a ha
  have helected : ∀ {q T}, .elected q T ∈ es →
      ∃ rf gs, c.state.node p = .up rf gs ∧ rf.me = q ∧ rf.phase ≠ .leader := by
    intro q T hT
    have hemits := hm.node_step.emits hT
    generalize c.state.node p = nd₀ at hemits ⊢
    cases hemits with
    | elected _ _ _ hne => exact ⟨_, _, rfl, rfl, hne⟩
  rw [hm.node_eq] at hnd'
  rw [ht]
  rcases eq_or_ne q p with rfl | hq
  · rw [Function.update_self] at hnd'
    subst hnd'
    have hsrc := (inFlight_of_reachable hc).node q
    have hs := hm.node_step
    have hI := hI q
    generalize hnd : c.state.node q = nd at hs hI hsrc helected
    cases hs with
    | make => exact absurd hl (Raft.make_phase gob q _)
    | kill => cases hl
    | start => exact (lastElected_append (by simp)).trans (hI _ _ rfl hl :)
    | run hg h =>
      rcases h.leads (hsrc.2 _ (List.mem_of_getElem? hg)) hl with
        ⟨hl', hterm | ⟨job, rfl, hlt⟩⟩ | ⟨election, k, rfl, hv, h₁, h₂, hterm, he⟩
      · rw [hterm, ← hI _ _ rfl hl']
        refine lastElected_append fun T hT => ?_
        obtain ⟨_, _, heq, _, hne⟩ := helected hT
        cases heq
        exact hne hl'
      · exact absurd (hfixed.at hnd (.run hg) _ rfl hl') (not_le.mpr hlt)
      · rw [hterm, hwins.at hnd (.run hg) _ rfl hv h₁ h₂]
        cases h with
        | elected =>
          rw [hsrc.1]
          exact lastElected_concat q _ _
        | lost => cases hl
        | callResultSame => cases he
    | _ => rw [List.append_nil]; exact hI _ _ rfl hl
  · rw [Function.update_of_ne hq] at hnd'
    rw [← hI q rf' gs' hnd' hl]
    refine lastElected_append fun T hT => ?_
    obtain ⟨_, _, hnd, hme, _⟩ := helected hT
    exact hq (hme.symm.trans (me_of_reachable hc hnd))

/-- A peer in phase leader was elected in its current term. -/
theorem elected_of_leader (hok : ∀ c a, ok c a → WinsInTerm c a ∧ LeaderTermFixed c a)
    (hc : (system gob).Reachable ok c) (hnd : c.state.node p = .up rf gs)
    (hl : rf.phase = .leader) : .elected p rf.currentTerm ∈ c.trace := by
  obtain ⟨e, he, helected⟩ := List.mem_filterMap.mp
    (List.mem_of_getLast? (lastElected_of_leader hok hc hnd hl))
  cases e with
  | elected q T =>
    simp only [Event.elected?, Option.ite_none_right_eq_some] at helected
    obtain ⟨rfl, hT⟩ := helected
    cases hT
    exact he
  | _ => cases helected

/-- **A leader was elected in its own term**, in every run in which elections only make a peer
leader while `currentTerm` is their term and `termSync` never raises the term of a leader. -/
theorem leader_elected_in_term (gob : Labgob n α) (c : Cfg n α)
    (hc : (system gob).Reachable (fun c a => WinsInTerm c a ∧ LeaderTermFixed c a) c)
    (p : Fin n) (rf : Raft n α) (gs : List (Goroutine n α)) (hnd : c.state.node p = .up rf gs)
    (hl : rf.phase = .leader) :
    ∃ S : Finset (Fin n), (n + 1) / 2 ≤ S.card ∧ ∀ v ∈ S, Voted c.trace v rf.currentTerm p :=
  ⟨voters c.trace p rf.currentTerm,
    majority_of_elected hc (elected_of_leader (fun _ _ h => h) hc hnd hl),
    fun _ hv => mem_voters.mp hv⟩

/-- In `electionRun` peer `0` leads in term `1`. -/
theorem leader_elected_in_term_electionRun :
    ∃ c rf gs, (system (Labgob.unary 3)).Reachable
        (fun c a => WinsInTerm c a ∧ LeaderTermFixed c a) c ∧
      c.state.node 0 = .up rf gs ∧ rf.phase = .leader ∧
      ∃ S : Finset (Fin 3), (3 + 1) / 2 ≤ S.card ∧ ∀ v ∈ S, Voted c.trace v rf.currentTerm 0 := by
  obtain ⟨c, hc, hchk⟩ := exists_of_execOk (Labgob.unary 3) electionRun
    (fun c a => WinsInTerm c a ∧ LeaderTermFixed c a)
    (fun c => (c.state.node 0).check fun rf => decide (rf.phase = .leader)) (by decide +kernel)
  obtain ⟨rf, gs, hnd, h⟩ := Node.exists_of_check hchk
  have hl := of_decide_eq_true h
  exact ⟨c, rf, gs, hc, hnd, hl,
    leader_elected_in_term (Labgob.unary 3) c hc 0 rf gs hnd hl⟩

/-- After `electionRun` peer `2` stands for terms `1` and `2` and wins the latter with the vote of
peer `1`. Its request then reaches peer `0`, where `termSync` raises the term of the leader. -/
def raisedLeaderRun : List (Action 3 ℕ) :=
  electionRun ++ [.run 2 0, .timeout 2 0, .run 2 0, .run 2 0, .timeout 2 0, .run 2 2, .run 2 2,
    .timeout 2 2, .run 2 2, .run 2 2, .deliver 6, .run 1 1, .run 1 1, .run 1 1, .deliver 6,
    .run 2 4, .run 2 4, .run 2 2, .run 2 3, .run 2 3, .run 2 3, .deliver 5, .run 0 4]

/-- **A leader in a term nobody elected it in.** -/
theorem raised_leader_not_elected :
    ∃ c rf gs, (system (Labgob.unary 3)).Reachable (fun _ _ => True) c ∧
      c.state.node 0 = .up rf gs ∧ rf.phase = .leader ∧
      ¬ ∃ S : Finset (Fin 3), (3 + 1) / 2 ≤ S.card ∧
        ∀ v ∈ S, Voted c.trace v rf.currentTerm 0 := by
  obtain ⟨c, hc, hchk⟩ := exists_of_exec (Labgob.unary 3) raisedLeaderRun
    (fun c => (c.state.node 0).check fun rf =>
      decide (rf.phase = .leader ∧ .candidacy 0 rf.currentTerm ∉ c.trace)) (by decide +kernel)
  obtain ⟨rf, gs, hnd, h⟩ := Node.exists_of_check hchk
  obtain ⟨hl, hnone⟩ := of_decide_eq_true h
  have hr := System.reaches_of_exec hc
  refine ⟨c, rf, gs, hr, hnd, hl, ?_⟩
  rintro ⟨S, hS, hvoted⟩
  obtain ⟨v, hv⟩ := Finset.card_pos.mp (by omega : 0 < S.card)
  exact hnone (candidacy_of_voted hr (hvoted v hv))

omit [Inhabited α] [DecidableEq α] in
/-- Two sets of peers that are more than `n` together have one in common. -/
theorem exists_mem_inter {Q Q' : Finset (Fin n)} (h : n < Q.card + Q'.card) :
    ∃ v ∈ Q, v ∈ Q' := by
  have hlt : (Finset.univ : Finset (Fin n)).card < Q.card + Q'.card := by
    rwa [Finset.card_univ, Fintype.card_fin]
  obtain ⟨v, hv⟩ := Finset.inter_nonempty_of_card_lt_card_add_card (Finset.subset_univ _)
    (Finset.subset_univ _) hlt
  rw [Finset.mem_inter] at hv
  exact ⟨v, hv.1, hv.2⟩

omit [Inhabited α] [DecidableEq α] in
/-- Of an odd number of peers, two majorities have one in common. -/
theorem majority_inter (hodd : Odd n) {Q Q' : Finset (Fin n)} (hQ : Raft.majority n ≤ Q.card)
    (hQ' : Raft.majority n ≤ Q'.card) : ∃ v ∈ Q, v ∈ Q' := by
  refine exists_mem_inter ?_
  obtain ⟨m, hm⟩ := hodd
  rw [Raft.majority] at hQ hQ'
  omega

/-- With unique votes, two majorities for one term are for the same peer. -/
theorem elected_unique (hodd : Odd n) (hok : ∀ c a, ok c a → GrantsInTerm c a)
    (hc : (system gob).Reachable ok c) {q : Fin n} (hp : .elected p T ∈ c.trace)
    (hq : .elected q T ∈ c.trace) : p = q := by
  obtain ⟨v, hv, hv'⟩ := majority_inter hodd (majority_of_elected hc hp)
    (majority_of_elected hc hq)
  exact (oneVote_of_reachable hok hc).unique v T p q (mem_voters.mp hv) (mem_voters.mp hv')

/-- **Election safety**, for an odd number of peers and in every run in which votes are only granted
in their term, elections only make a peer leader in theirs, and `termSync` never raises the term of
a leader: whoever leads in a term at one point of the run is the only one to lead in it later. -/
theorem one_leader_per_term (hodd : Odd n) (gob : Labgob n α) (c c' : Cfg n α)
    (hc : (system gob).Reachable
      (fun c a => GrantsInTerm c a ∧ WinsInTerm c a ∧ LeaderTermFixed c a) c)
    (hc' : (system gob).Reaches
      (fun c a => GrantsInTerm c a ∧ WinsInTerm c a ∧ LeaderTermFixed c a) c c')
    (p q : Fin n) (rf rf' : Raft n α) (gs gs' : List (Goroutine n α))
    (hnd : c.state.node p = .up rf gs) (hnd' : c'.state.node q = .up rf' gs')
    (hl : rf.phase = .leader) (hl' : rf'.phase = .leader)
    (hterm : rf.currentTerm = rf'.currentTerm) : p = q := by
  have hr : (system gob).Reachable _ c' := hc.trans hc'
  have hp := hc'.mem_trace (elected_of_leader (fun _ _ h => h.2) hc hnd hl)
  have hq := elected_of_leader (fun _ _ h => h.2) hr hnd' hl'
  exact elected_unique hodd (fun _ _ h => h.1) hr hp (hterm ▸ hq)

/-- At the end of `electionRun` peer `0` leads in term `1`. It goes on to start a command and to
send its second heartbeat, and whoever leads in term `1` after that is peer `0`. -/
theorem one_leader_per_term_electionRun :
    ∃ c c' rf rf' gs gs', (system (Labgob.unary 3)).Reachable
        (fun c a => GrantsInTerm c a ∧ WinsInTerm c a ∧ LeaderTermFixed c a) c ∧
      (system (Labgob.unary 3)).Reaches
        (fun c a => GrantsInTerm c a ∧ WinsInTerm c a ∧ LeaderTermFixed c a) c c' ∧
      c.state.node 0 = .up rf gs ∧ c'.state.node 0 = .up rf' gs' ∧ rf.phase = .leader ∧
      rf'.phase = .leader ∧ rf.currentTerm = 1 ∧ rf.log.length < rf'.log.length ∧
      ∀ q rf'' gs'', c'.state.node q = .up rf'' gs'' → rf''.phase = .leader →
        rf''.currentTerm = 1 → 0 = q := by
  obtain ⟨c, hc, h⟩ := exists_of_execOk (Labgob.unary 3) electionRun
    (fun c a => GrantsInTerm c a ∧ WinsInTerm c a ∧ LeaderTermFixed c a)
    (fun c => ((system (Labgob.unary 3)).execOk
        (fun c a => GrantsInTerm c a ∧ WinsInTerm c a ∧ LeaderTermFixed c a) c
        [.start 0 7, .run 0 1, .run 0 3]).any fun c' =>
      (c.state.node 0).check (fun rf =>
        decide (rf.phase = .leader ∧ rf.currentTerm = 1 ∧ rf.log.length = 1)) &&
      ((c' : Cfg 3 ℕ).state.node 0).check fun rf => decide (rf.phase = .leader ∧ rf.log.length = 2))
    (by decide +kernel)
  obtain ⟨c', hc', h⟩ := (Option.any_eq_true _ _).mp h
  obtain ⟨rf, rf', gs, gs', hnd, hnd', ⟨hl, hterm, hlen⟩, hl', hlen'⟩ := Node.exists_of_checks h
  have hreach := System.reaches_of_execOk hc'
  refine ⟨c, c', rf, rf', gs, gs', hc, hreach, hnd, hnd', hl, hl', hterm, by omega, ?_⟩
  intro q rf'' gs'' hnd'' hl'' hterm''
  exact one_leader_per_term (by decide) (Labgob.unary 3) c c' hc hreach 0 q rf rf'' gs gs'' hnd
    hnd'' hl hl'' (hterm.trans hterm''.symm)

/-- **Two leaders of one term**, at the same time. -/
theorem raised_leader_is_second :
    ∃ c rf rf' gs gs', (system (Labgob.unary 3)).Reachable (fun _ _ => True) c ∧
      c.state.node 0 = .up rf gs ∧ c.state.node 2 = .up rf' gs' ∧ rf.phase = .leader ∧
      rf'.phase = .leader ∧ rf.currentTerm = rf'.currentTerm := by
  obtain ⟨c, hc, hchk⟩ := exists_of_exec (Labgob.unary 3) raisedLeaderRun
    (fun c => (c.state.node 0).check (fun rf => decide (rf.phase = .leader ∧ rf.currentTerm = 2)) &&
      (c.state.node 2).check (fun rf => decide (rf.phase = .leader ∧ rf.currentTerm = 2)))
    (by decide +kernel)
  obtain ⟨rf, rf', gs, gs', hnd, hnd', ⟨hl, ht⟩, hl', ht'⟩ := Node.exists_of_checks hchk
  exact ⟨c, rf, rf', gs, gs', System.reaches_of_exec hc, hnd, hnd', hl, hl', ht.trans ht'.symm⟩

end Cluster

end Distsys
