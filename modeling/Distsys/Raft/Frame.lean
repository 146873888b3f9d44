import Distsys.Lib.Possibility
import Distsys.Raft.Guards
import Mathlib.Data.Set.Insert

/-!
# A part of a cluster

Whoever wants to lead a cluster from an arbitrary configuration to a certain goal finds things there
that are of no use: packets on their way, goroutines of former elections, peers that are down. None
of this can keep another goroutine from running, or another packet from being handed over. So it is
enough to know a *part* of the configuration, and to say for each step what part is known behind it.

A part is about some of the peers. It has their structs, but only some of their goroutines, some of
the packets, and some of the events since the start; the other peers are as they were at the start.
Goroutines and packets form sets: a step may take away a copy of what is there twice, and then
nothing is known about the other copy.

The rules are for any guard that is about some critical sections only (`Permits`), and ask of these
that the guard lets them run. Most of what follows is about the runs that are timely and in which no
message cuts off entries that it does not contradict, so that what is reached has all guarantees
that such runs have.

## Main definitions

* `Part`, `Cluster.Holds`
* `Cluster.Allows`, `Cluster.Permits` — what a guard says about one critical section, and what it
  leaves open
* `Cluster.Proper` — the guard of most of these runs
* `Fits` — this guard, for one critical section

## Main results

* `Cluster.Holds.mono` — less is known
* `Cluster.can_run`, `Cluster.can_timeout`, `Cluster.can_start` and the rules for each packet
-/

namespace Distsys

variable {n : ℕ} {α : Type}

/-- What is known of a configuration. -/
structure Part (n : ℕ) (α : Type) where
  /-- The structs of the peers. -/
  rf : Fin n → Raft n α
  /-- Some of their goroutines. -/
  gs : Fin n → Set (Goroutine n α)
  /-- Some packets. -/
  net : Set (Packet n α)
  /-- Some of the events since the start. -/
  trace : Set (Event n α)

namespace Part

/-- Peer `p` has the struct `rf` and the goroutines `gs`, and these events are emitted. -/
def put (D : Part n α) (p : Fin n) (rf : Raft n α) (gs : Set (Goroutine n α))
    (es : List (Event n α)) : Part n α where
  rf := Function.update D.rf p rf
  gs := Function.update D.gs p gs
  net := {packet | packet ∈ D.net ∨ packet ∈ packets es}
  trace := {e | e ∈ D.trace ∨ e ∈ es}

/-- A packet is handed over. -/
def take (D : Part n α) (packet : Packet n α) : Part n α :=
  { D with net := {packet' | packet' ∈ D.net ∧ packet' ≠ packet} }

section

variable {D : Part n α} {p q : Fin n} {rf : Raft n α} {gs : Set (Goroutine n α)}
  {es : List (Event n α)}

@[simp] theorem rf_put : (D.put p rf gs es).rf p = rf := Function.update_self ..

@[simp] theorem gs_put : (D.put p rf gs es).gs p = gs := Function.update_self ..

theorem rf_put_of_ne (h : q ≠ p) : (D.put p rf gs es).rf q = D.rf q := Function.update_of_ne h ..

theorem gs_put_of_ne (h : q ≠ p) : (D.put p rf gs es).gs q = D.gs q := Function.update_of_ne h ..

/-- Two steps of the same peer. -/
theorem put_put (rf' : Raft n α) (gs' : Set (Goroutine n α)) (es' : List (Event n α)) :
    (D.put p rf gs es).put p rf' gs' es' = D.put p rf' gs' (es ++ es') := by
  simp only [put, Function.update_idem, packets, List.filterMap_append, List.mem_append,
    or_assoc, Set.mem_ofPred_eq]

theorem mem_net_put {packet : Packet n α} (h : .sent packet ∈ es) :
    packet ∈ (D.put p rf gs es).net := Or.inr (Cluster.mem_packets.mpr h)

@[simp] theorem rf_take (packet : Packet n α) : (D.take packet).rf = D.rf := rfl

@[simp] theorem gs_take (packet : Packet n α) : (D.take packet).gs = D.gs := rfl

end

end Part

/-- What the guards ask of a critical section. -/
structure Fits (rf : Raft n α) (gr : Goroutine n α) : Prop where
  /-- A vote is granted in its term. -/
  grants : ∀ call ∈ gr.requestVote?, rf.Grants call.args → rf.currentTerm = call.args.term
  /-- A message is accepted in its term. -/
  accepts : ∀ call ∈ gr.appendEntries?, rf.Accepts call.args → rf.currentTerm = call.args.term
  /-- An election is won in its term. -/
  wins : ∀ result ∈ gr.callResult?, Raft.majority n ≤ result.2 → rf.phase ≠ .exit →
    rf.phase ≠ .leader → rf.currentTerm = result.1
  /-- A heartbeat is sent in the term of its election. -/
  beats : ∀ election ∈ gr.heartbeat?, rf.phase = .leader → rf.currentTerm = election
  /-- No entry is cut off that the message does not contradict. -/
  keeps : ∀ call ∈ gr.appendEntries?, rf.Accepts call.args →
    rf.log.length ≤ call.args.prevLogIndex + 1 + call.args.entries.length ∨
      ∃ e ∈ (rf.log.drop (call.args.prevLogIndex + 1).toNat).zip call.args.entries,
        e.1.term ≠ e.2.term

theorem fits_requestVote {rf : Raft n α} {call : VoteCall n} {myTerm : ℕ}
    (h : rf.currentTerm = call.args.term) : Fits rf (.requestVote call myTerm) := by
  refine ⟨?_, ?_, ?_, ?_, ?_⟩ <;> intro _ hmem <;> cases hmem
  exact fun _ => h

theorem fits_callResult {rf : Raft n α} {election voteCount : ℕ} (h : rf.currentTerm = election) :
    Fits rf (.callResult election voteCount) := by
  refine ⟨?_, ?_, ?_, ?_, ?_⟩ <;> intro _ hmem <;> cases hmem
  exact fun _ _ _ => h

theorem fits_heartbeat {rf : Raft n α} {gr : Goroutine n α}
    (h : gr.heartbeat? = some rf.currentTerm) : Fits rf gr := by
  cases gr with
  | heartbeat | heartbeatSleep =>
    refine ⟨?_, ?_, ?_, ?_, ?_⟩ <;> intro _ hmem <;> cases hmem
    exact fun _ => Option.some.inj h.symm
  | _ => cases h

theorem fits_appendEntries {rf : Raft n α} {call : EntriesCall n α} {myTerm : ℕ}
    (h : rf.currentTerm = call.args.term) (hkeeps : rf.Accepts call.args →
      rf.log.length ≤ call.args.prevLogIndex + 1 + call.args.entries.length ∨
        ∃ e ∈ (rf.log.drop (call.args.prevLogIndex + 1).toNat).zip call.args.entries,
          e.1.term ≠ e.2.term) : Fits rf (.appendEntries call myTerm) := by
  refine ⟨?_, ?_, ?_, ?_, ?_⟩ <;> intro _ hmem <;> cases hmem
  · exact fun _ => h
  · exact hkeeps

namespace Cluster

/-- The step is timely, and cuts off no entries that it does not contradict. -/
abbrev Proper (c : Cfg n α) (a : Action n α) : Prop := Timely c a ∧ KeepsUnrefuted c a

/-- `D` is true of the peers in `Q`, and the other peers are as in `base`. -/
structure Holds (base : Cfg n α) (Q : Finset (Fin n)) (D : Part n α) (c : Cfg n α) : Prop where
  /-- The peers that the part is about are up. -/
  up : ∀ p ∈ Q, ∃ gs, c.state.node p = .up (D.rf p) gs ∧ ∀ gr ∈ D.gs p, gr ∈ gs
  /-- The others are as they were at the start. -/
  rest : ∀ p ∉ Q, c.state.node p = base.state.node p
  /-- There may be more packets. -/
  net : ∀ packet ∈ D.net, packet ∈ c.state.net
  /-- There may be more events. -/
  trace : ∃ es, c.trace = base.trace ++ es ∧ ∀ e ∈ D.trace, e ∈ es

variable {gob : Labgob n α} {base c c' : Cfg n α} {Q : Finset (Fin n)} {D D' : Part n α}
  {p : Fin n}

theorem Holds.mono (h : Holds base Q D c) (hrf : ∀ p ∈ Q, D'.rf p = D.rf p)
    (hgs : ∀ p ∈ Q, D'.gs p ⊆ D.gs p) (hnet : D'.net ⊆ D.net) (htrace : D'.trace ⊆ D.trace) :
    Holds base Q D' c := by
  refine ⟨fun p hp => ?_, h.rest, fun packet hk => h.net packet (hnet hk), ?_⟩
  · obtain ⟨gs, hnd, hgs'⟩ := h.up p hp
    exact ⟨gs, by rw [hrf p hp, hnd], fun gr hgr => hgs' gr (hgs p hp hgr)⟩
  · obtain ⟨es, hes, hsub⟩ := h.trace
    exact ⟨es, hes, fun e he => hsub e (htrace he)⟩

theorem Holds.of_put {rf : Raft n α} {X : Set (Goroutine n α)} {es es' : List (Event n α)}
    (h : Holds base Q (D.put p rf X es) c) (hes : ∀ e ∈ es', e ∈ es) :
    Holds base Q (D.put p rf X es') c := by
  refine h.mono (fun _ _ => rfl) (fun _ _ => subset_rfl) ?_ ?_
  · rintro packet (hk | hk)
    · exact Or.inl hk
    · exact Or.inr (mem_packets.mpr (hes _ (mem_packets.mp hk)))
  · rintro e (he | he)
    · exact Or.inl he
    · exact Or.inr (hes e he)

theorem Holds.put_self (h : Holds base Q D c) (p : Fin n) :
    Holds base Q (D.put p (D.rf p) (D.gs p) []) c := by
  refine h.mono (fun q _ => ?_) (fun q _ => ?_) ?_ ?_
  · simp [Part.put]
  · simp [Part.put]
  · rintro packet (hk | hk)
    · exact hk
    · cases hk
  · rintro e (he | he)
    · exact he
    · cases he

/-! ### Guards

What a guard asks of a step is made a condition on the goroutine that runs and on the struct it
finds, since these are what a part has. Guards of this kind do not restrict steps that run no
critical section, other than `Start`. -/

/-- The guard lets a peer with the struct `rf` run its goroutine `gr`. -/
def Allows (ok : Cfg n α → Action n α → Prop) (rf : Raft n α) (gr : Goroutine n α) : Prop :=
  ∀ (c : Cfg n α) (p : Fin n) (gs : List (Goroutine n α)) (g : ℕ),
    c.state.node p = .up rf gs → gs[g]? = some gr → ok c (.run p g)

/-- The guard is only about the critical sections that act on a term, and about `Start`. -/
class Permits (ok : Cfg n α → Action n α → Prop) : Prop where
  /-- A critical section that acts on no term may run. -/
  allows : ∀ (rf : Raft n α) (gr : Goroutine n α), gr.requestVote? = none →
    gr.appendEntries? = none → gr.callResult? = none → gr.heartbeat? = none → Allows ok rf gr
  /-- And so may a step that runs none. -/
  of_running : ∀ (c : Cfg n α) (a : Action n α), running c a = none → StartsInTerm c a → ok c a

/-- Every run is one without a guard. -/
instance : Permits fun (_ : Cfg n α) (_ : Action n α) => True where
  allows _ _ _ _ _ _ _ _ _ _ _ _ := trivial
  of_running _ _ _ _ := trivial

theorem allows_of_fits {rf : Raft n α} {gr : Goroutine n α} (h : Fits rf gr) :
    Allows Proper rf gr := by
  intro c p gs g hnd hg
  have hr : running c (.run p g) = some (rf, gr) := by
    simp [running, hnd, hg]
  refine ⟨⟨?_, ?_, ?_, ?_, trivial⟩, ?_⟩ <;> intro r hmem <;> cases hr.symm.trans hmem
  · exact h.grants
  · exact h.accepts
  · exact h.wins
  · exact h.beats
  · exact h.keeps

/-- Most critical sections are not guarded. -/
theorem allows_of_none {rf : Raft n α} {gr : Goroutine n α} (h₁ : gr.requestVote? = none)
    (h₂ : gr.appendEntries? = none) (h₃ : gr.callResult? = none) (h₄ : gr.heartbeat? = none) :
    Allows Proper rf gr := by
  refine allows_of_fits ⟨?_, ?_, ?_, ?_, ?_⟩ <;> intro _ h
  · cases h₁.symm.trans h
  · cases h₂.symm.trans h
  · cases h₃.symm.trans h
  · cases h₄.symm.trans h
  · cases h₂.symm.trans h

instance : Permits (Proper : Cfg n α → Action n α → Prop) where
  allows _ _ := allows_of_none
  of_running c a h hs := by
    refine ⟨⟨?_, ?_, ?_, ?_, hs⟩, ?_⟩ <;> intro r hmem <;> cases h.symm.trans hmem

/-! ### Rules

One rule for each kind of step, of the form: from a configuration with this part, one with that part
can be reached. The parts are given by updates, so that what a step does not touch need not be
mentioned. -/

variable [Inhabited α] [DecidableEq α] {ok : Cfg n α → Action n α → Prop}

/-- A step that replaces the node of `p`, and keeps these packets. -/
theorem can_put (hp : p ∈ Q) {N : Set (Packet n α)} {rf : Raft n α} {X : Set (Goroutine n α)}
    {es : List (Event n α)}
    (h : ∀ c gs₀, Holds base Q D c → c.state.node p = .up (D.rf p) gs₀ →
      (∀ gr ∈ D.gs p, gr ∈ gs₀) → ∃ a gs net resets, ok c a ∧
        step gob c.state a = some (({ c.state with net, electionReset := resets } :
          Cluster n α).put p (.up rf gs) es) ∧
        (∀ gr ∈ X, gr ∈ gs) ∧ ∀ packet ∈ N, packet ∈ net) :
    (system gob).Can ok (Holds base Q D)
      (Holds base Q ({ D with net := N }.put p rf X es)) := by
  refine System.Can.step fun c hc => ?_
  obtain ⟨gs₀, hnd, hgs₀⟩ := hc.up p hp
  obtain ⟨a, gs, net, resets, ha, hs, hX, hN⟩ := h c gs₀ hc hnd hgs₀
  refine ⟨a, ⟨_, c.trace ++ es⟩, ha, System.next_eq_some_iff.mpr ⟨es, hs, rfl⟩, ?_⟩
  refine ⟨fun q hq => ?_, fun q hq => ?_, ?_, ?_⟩
  · rcases eq_or_ne q p with rfl | hne
    · exact ⟨gs, by simp, by rwa [Part.gs_put]⟩
    · obtain ⟨gs', hnd', hgs'⟩ := hc.up q hq
      refine ⟨gs', ?_, by rwa [Part.gs_put_of_ne hne]⟩
      rw [Part.rf_put_of_ne hne]
      exact (Function.update_of_ne hne ..).trans hnd'
  · exact (Function.update_of_ne (ne_of_mem_of_not_mem hp hq).symm ..).trans (hc.rest q hq)
  · rintro packet (hk | hk)
    · exact List.mem_append_left _ (hN packet hk)
    · exact List.mem_append_right _ hk
  · obtain ⟨es₀, hes, hsub⟩ := hc.trace
    refine ⟨es₀ ++ es, by rw [hes, List.append_assoc], ?_⟩
    rintro e (he | he)
    · exact List.mem_append_left es (hsub e he)
    · exact List.mem_append_right es₀ he

/-- A goroutine runs to the end of its critical section. -/
theorem can_run (hp : p ∈ Q) {x : Goroutine n α} (hx : x ∈ D.gs p) {e : Effect n α}
    (hrun : x.run gob (D.rf p) = some (.ok e)) (hallows : Allows ok (D.rf p) x)
    {X : Set (Goroutine n α)}
    (hX : ∀ y ∈ X, y ∈ e.next ∨ ∃ z ∈ D.gs p, z ≠ x ∧ e.wake z = y) :
    (system gob).Can ok (Holds base Q D) (Holds base Q (D.put p e.rf X e.events)) := by
  refine can_put hp fun c gs₀ hc hnd hgs₀ => ?_
  obtain ⟨g, hg⟩ := List.mem_iff_getElem?.mp (hgs₀ x hx)
  refine ⟨.run p g, (gs₀.eraseIdx g).map e.wake ++ e.next, c.state.net,
    c.state.electionReset + e.resets, hallows c p gs₀ g hnd hg, ?_, fun y hy => ?_, hc.net⟩
  · simp only [step, hnd, hg, Option.bind_some, hrun]
  · rcases hX y hy with hy | ⟨z, hz, hne, rfl⟩
    · exact List.mem_append_right _ hy
    · exact List.mem_append_left _
        (List.mem_map_of_mem (mem_eraseIdx_of_ne hg (hgs₀ z hz) hne))

/-- The same, behind another step of this peer. -/
theorem can_run_put (hp : p ∈ Q) {rf : Raft n α} {X : Set (Goroutine n α)} {es : List (Event n α)}
    {x : Goroutine n α} (hx : x ∈ X) {e : Effect n α} (hrun : x.run gob rf = some (.ok e))
    (hallows : Allows ok rf x) {Y : Set (Goroutine n α)}
    (hY : ∀ y ∈ Y, y ∈ e.next ∨ ∃ z ∈ X, z ≠ x ∧ e.wake z = y) :
    (system gob).Can ok (Holds base Q (D.put p rf X es))
      (Holds base Q (D.put p e.rf Y (es ++ e.events))) := by
  have h : (system gob).Can ok (Holds base Q (D.put p rf X es))
      (Holds base Q ((D.put p rf X es).put p e.rf Y e.events)) :=
    can_run (x := x) hp (by rwa [Part.gs_put]) (by rwa [Part.rf_put]) (by rwa [Part.rf_put])
      (by rwa [Part.gs_put])
  rwa [Part.put_put] at h

variable [Permits ok]

/-- The timer of a `select` fires. -/
theorem can_timeout (hp : p ∈ Q) {x y : Goroutine n α} (hx : x ∈ D.gs p)
    (htimeout : x.timeout = some y) {X : Set (Goroutine n α)}
    (hX : ∀ z ∈ X, z = y ∨ z ∈ D.gs p ∧ z ≠ x) :
    (system gob).Can ok (Holds base Q D) (Holds base Q (D.put p (D.rf p) X [])) := by
  refine can_put hp fun c gs₀ hc hnd hgs₀ => ?_
  obtain ⟨g, hg⟩ := List.mem_iff_getElem?.mp (hgs₀ x hx)
  refine ⟨.timeout p g, gs₀.eraseIdx g ++ [y], c.state.net, c.state.electionReset,
    Permits.of_running _ _ rfl trivial, ?_, fun z hz => ?_, hc.net⟩
  · simp only [step, resume, hnd, hg, Option.bind_some, htimeout, Option.map_some]
  · rcases hX z hz with rfl | ⟨hz, hne⟩
    · exact List.mem_append_right _ (List.mem_singleton_self z)
    · exact List.mem_append_left _ (mem_eraseIdx_of_ne hg (hgs₀ z hz) hne)

/-- The same, behind another step of this peer. -/
theorem can_timeout_put (hp : p ∈ Q) {rf : Raft n α} {X : Set (Goroutine n α)}
    {es : List (Event n α)} {x y : Goroutine n α} (hx : x ∈ X) (htimeout : x.timeout = some y) :
    (system gob).Can ok (Holds base Q (D.put p rf X es))
      (Holds base Q (D.put p rf {y} es)) := by
  have h : (system gob).Can ok (Holds base Q (D.put p rf X es))
      (Holds base Q ((D.put p rf X es).put p ((D.put p rf X es).rf p) {y} [])) :=
    can_timeout hp (by rwa [Part.gs_put]) htimeout fun z hz => Or.inl hz
  rwa [Part.put_put, Part.rf_put, List.append_nil] at h

/-- `Start` at a peer that has been elected in its current term. -/
theorem can_start (hp : p ∈ Q) (hl : (D.rf p).phase = .leader)
    (helected : .elected p (D.rf p).currentTerm ∈ D.trace) (command : α) :
    (system gob).Can ok (Holds base Q D) (Holds base Q (D.put p
      (Raft.persist gob
        { D.rf p with log := (D.rf p).log ++ [⟨(D.rf p).currentTerm, command⟩] })
      (D.gs p) [.started p command (D.rf p).log.length (D.rf p).currentTerm])) := by
  refine can_put hp fun c gs₀ hc hnd hgs₀ => ?_
  obtain ⟨es, hes, hsub⟩ := hc.trace
  refine ⟨.start p command, gs₀, c.state.net, c.state.electionReset,
    Permits.of_running _ _ rfl ?_, ?_, hgs₀, hc.net⟩
  · simp only [StartsInTerm, hnd]
    exact fun _ => hes ▸ List.mem_append_right _ (hsub _ helected)
  · simp [step, hnd, Raft.start, hl]

/-- The network hands over a request. -/
theorem can_deliver_requestVote {call : VoteCall n} (hp : call.server ∈ Q)
    (hk : .requestVote call ∈ D.net) :
    (system gob).Can ok (Holds base Q D) (Holds base Q ((D.take (.requestVote call)).put
      call.server (D.rf call.server)
      (insert (.termSync (.requestVote call)) (D.gs call.server)) [])) := by
  refine can_put hp fun c gs₀ hc hnd hgs₀ => ?_
  obtain ⟨k, hk⟩ := List.mem_iff_getElem?.mp (hc.net _ hk)
  refine ⟨.deliver k, gs₀ ++ [.termSync (.requestVote call)], c.state.net.eraseIdx k,
    c.state.electionReset, Permits.of_running _ _ rfl trivial, ?_, ?_, ?_⟩
  · simp only [step, hk, deliver, hnd]
  · rintro gr (rfl | hgr)
    · simp
    · exact List.mem_append_left _ (hgs₀ gr hgr)
  · exact fun packet hpacket => mem_eraseIdx_of_ne hk (hc.net packet hpacket.1) hpacket.2

theorem can_deliver_appendEntries {call : EntriesCall n α} (hp : call.server ∈ Q)
    (hk : .appendEntries call ∈ D.net) :
    (system gob).Can ok (Holds base Q D) (Holds base Q ((D.take (.appendEntries call)).put
      call.server (D.rf call.server)
      (insert (.termSync (.appendEntries call)) (D.gs call.server)) [])) := by
  refine can_put hp fun c gs₀ hc hnd hgs₀ => ?_
  obtain ⟨k, hk⟩ := List.mem_iff_getElem?.mp (hc.net _ hk)
  refine ⟨.deliver k, gs₀ ++ [.termSync (.appendEntries call)], c.state.net.eraseIdx k,
    c.state.electionReset, Permits.of_running _ _ rfl trivial, ?_, ?_, ?_⟩
  · simp only [step, hk, deliver, hnd]
  · rintro gr (rfl | hgr)
    · simp
    · exact List.mem_append_left _ (hgs₀ gr hgr)
  · exact fun packet hpacket => mem_eraseIdx_of_ne hk (hc.net packet hpacket.1) hpacket.2

/-- The network hands over a reply, and `Call` returns `true`. -/
theorem can_deliver_requestVoteReply {call : VoteCall n} {reply : RequestVoteReply} (hp : p ∈ Q)
    (hcand : call.args.candidateID = p) (hk : .requestVoteReply call reply ∈ D.net)
    (hcall : .callRequestVote call ∈ D.gs p) {X : Set (Goroutine n α)}
    (hX : ∀ y ∈ X, y = .termSync (.sendRequestVote call reply) ∨
      y ∈ D.gs p ∧ y ≠ .callRequestVote call) :
    (system gob).Can ok (Holds base Q D)
      (Holds base Q ((D.take (.requestVoteReply call reply)).put p (D.rf p) X [])) := by
  subst hcand
  refine can_put hp fun c gs₀ hc hnd hgs₀ => ?_
  obtain ⟨k, hk⟩ := List.mem_iff_getElem?.mp (hc.net _ hk)
  refine ⟨.deliver k,
    gs₀.erase (.callRequestVote call) ++ [.termSync (.sendRequestVote call reply)],
    c.state.net.eraseIdx k, c.state.electionReset,
    Permits.of_running _ _ rfl trivial, ?_, fun y hy => ?_, ?_⟩
  · simp only [step, hk, deliver, hnd, if_pos (hgs₀ _ hcall)]
  · rcases hX y hy with rfl | ⟨hy, hne⟩
    · exact List.mem_append_right _ (List.mem_singleton_self _)
    · exact List.mem_append_left _ ((List.mem_erase_of_ne hne).mpr (hgs₀ y hy))
  · exact fun packet hpacket => mem_eraseIdx_of_ne hk (hc.net packet hpacket.1) hpacket.2

/-- For a call of `heartbeat` the reply is stored in its slot of `replies`. -/
theorem can_deliver_appendEntriesReply {call : EntriesCall n α} {reply : AppendEntriesReply}
    (hp : p ∈ Q) (hleader : call.args.leaderID = p) (hk : .appendEntriesReply call reply ∈ D.net)
    (hcall : .callAppendEntries call ∈ D.gs p) {X : Set (Goroutine n α)}
    (hX : ∀ y ∈ X, ∃ z ∈ D.gs p, z ≠ .callAppendEntries call ∧
      Goroutine.pushReply call reply z = y) :
    (system gob).Can ok (Holds base Q D)
      (Holds base Q ((D.take (.appendEntriesReply call reply)).put p (D.rf p) X [])) := by
  subst hleader
  refine can_put hp fun c gs₀ hc hnd hgs₀ => ?_
  obtain ⟨k, hk⟩ := List.mem_iff_getElem?.mp (hc.net _ hk)
  refine ⟨.deliver k, (gs₀.erase (.callAppendEntries call)).map (Goroutine.pushReply call reply)
    ++ [.termSync (.sendAppendEntries call reply)], c.state.net.eraseIdx k, c.state.electionReset,
    Permits.of_running _ _ rfl trivial, ?_, fun y hy => ?_, ?_⟩
  · simp only [step, hk, deliver, hnd, if_pos (hgs₀ _ hcall)]
  · obtain ⟨z, hz, hne, rfl⟩ := hX y hy
    exact List.mem_append_left _
      (List.mem_map_of_mem ((List.mem_erase_of_ne hne).mpr (hgs₀ z hz)))
  · exact fun packet hpacket => mem_eraseIdx_of_ne hk (hc.net packet hpacket.1) hpacket.2

end Cluster

end Distsys
