import Distsys.Raft.Durable
import Distsys.Raft.Guards
import Distsys.Raft.UnaryGob

/-!
# One vote per voter per term

A peer votes in term `T` by standing for it in `callElection`, or by answering a `RequestVote` with
`args.Term = T` positively. `votedFor` is meant to keep these apart, and is reset whenever the term
rises. But `RequestVote` compares terms in `termSync` and looks at `votedFor` in a later critical
section. If the term rises in between, `votedFor` has become `-1` again and the handler grants a
vote for a term that is over and in which the peer may have voted for somebody else.

If votes are only granted while `currentTerm = args.Term`, there is one vote for each term.

## Two kinds of votes

What a peer has voted is in `votedFor`, which is saved with its term. What others believe it has
voted is in its replies. The first never changes within a term, in any run. The second can
contradict the first, and itself, when a handler is overtaken by a new term.

## Main definitions

* `Voted` — a vote, read off the trace
* `Cluster.OneVote` — the invariant

## Main results

* `Cluster.term_and_vote_monotone`
* `Cluster.oneVote_of_reachable`, `Cluster.one_vote_per_term`
-/

namespace Distsys

variable {n : ℕ} {α : Type} {gob : Labgob n α} {rf : Raft n α} {tr es : List (Event n α)}
  {v a b : Fin n} {T : ℕ}

/-- `v` has voted for `a` in term `T`: it is `a` and has stood for `T`, or it has replied
`VoteGranted = true` to a `RequestVote` of `a` with `args.Term = T`. -/
def Voted (tr : List (Event n α)) (v : Fin n) (T : ℕ) (a : Fin n) : Prop :=
  (v = a ∧ .candidacy v T ∈ tr) ∨
    ∃ call reply, .sent (.requestVoteReply call reply) ∈ tr ∧ reply.voteGranted = true ∧
      call.server = v ∧ call.args.term = T ∧ call.args.candidateID = a

theorem voted_append : Voted (tr ++ es) v T a ↔ Voted tr v T a ∨ Voted es v T a := by
  constructor
  · rintro (⟨rfl, h⟩ | ⟨call, reply, h, hrest⟩)
    · exact (List.mem_append.mp h).imp (fun h => Or.inl ⟨rfl, h⟩) fun h => Or.inl ⟨rfl, h⟩
    · exact (List.mem_append.mp h).imp (fun h => Or.inr ⟨call, reply, h, hrest⟩)
        fun h => Or.inr ⟨call, reply, h, hrest⟩
  · rintro (h | h)
    · exact h.imp (fun h => ⟨h.1, List.mem_append_left _ h.2⟩)
        fun ⟨call, reply, h, hrest⟩ => ⟨call, reply, List.mem_append_left _ h, hrest⟩
    · exact h.imp (fun h => ⟨h.1, List.mem_append_right _ h.2⟩)
        fun ⟨call, reply, h, hrest⟩ => ⟨call, reply, List.mem_append_right _ h, hrest⟩

theorem Voted.append (h : Voted tr v T a) : Voted (tr ++ es) v T a := voted_append.mpr (Or.inl h)

theorem not_voted_of_quiet (hq : ∀ ev ∈ es, ev.Quiet) : ¬ Voted es v T a := by
  rintro (⟨_, h⟩ | ⟨call, reply, h, hg, _⟩)
  · exact hq _ h
  · have : reply.voteGranted = false := hq _ h
    rw [hg] at this
    cases this

/-- The two writes that cast a vote. -/
theorem Write.voted {gr : Option (Goroutine n α)} {d : ℕ × Option (Fin n) × List (LogEntry α)}
    (h : Write rf gr es d) (hv : Voted es v T a) :
    (gr = some .callElection ∧ v = rf.me ∧ a = rf.me ∧ T = rf.currentTerm + 1 ∧ d.1 = T ∧
        d.2.1 = some a) ∨
      ∃ call myTerm, gr = some (.requestVote call myTerm) ∧ rf.Grants call.args ∧
        v = call.server ∧ T = call.args.term ∧ a = call.args.candidateID ∧
        d.1 = rf.currentTerm ∧ d.2.1 = some a := by
  cases h with
  | start | merge | raise =>
    rcases hv with ⟨_, h⟩ | ⟨call, reply, h, _⟩ <;> simp at h
  | campaign _ he =>
    rcases hv with ⟨rfl, h⟩ | ⟨call, reply, h, _⟩
    · rcases he _ h with h | ⟨_, _, h, _⟩ <;> cases h
      exact Or.inl ⟨rfl, rfl, rfl, rfl, rfl, rfl⟩
    · rcases he _ h with h | ⟨_, _, h, _⟩ <;> cases h
  | vote hfree hlast hdate =>
    rcases hv with ⟨_, h⟩ | ⟨call, reply, h, _, rfl, rfl, rfl⟩
    · cases List.mem_singleton.mp h
    · cases List.mem_singleton.mp h
      exact Or.inr ⟨_, _, rfl, ⟨hfree, _, hlast, hdate⟩, rfl, rfl, rfl, rfl, rfl⟩

/-- No write lowers the term. -/
theorem Write.term_le {gr : Option (Goroutine n α)}
    {d : ℕ × Option (Fin n) × List (LogEntry α)} (h : Write rf gr es d) : rf.currentTerm ≤ d.1 := by
  cases h with
  | campaign => exact Nat.le_succ _
  | raise h => exact h.le
  | _ => exact le_refl _

/-- A write that keeps the term keeps a vote that was cast. -/
theorem Write.votedFor {gr : Option (Goroutine n α)} {d : ℕ × Option (Fin n) × List (LogEntry α)}
    (h : Write rf gr es d) (ht : d.1 = rf.currentTerm) (hv : rf.votedFor = some a) :
    d.2.1 = some a := by
  cases h with
  | campaign => exact absurd ht (Nat.succ_ne_self _)
  | raise h => exact absurd ht h.ne'
  | vote h =>
    rcases h with h | h
    · rw [hv] at h; cases h
    · exact h ▸ hv
  | _ => exact hv

/-- No critical section lowers the term. -/
theorem Runs.term_le {gr : Goroutine n α} {e : Effect n α} (h : Runs gob rf gr e) :
    rf.currentTerm ≤ e.rf.currentTerm := by
  rcases h.write with ⟨_, hd, _⟩ | ⟨_, hw⟩
  · exact (congrArg Prod.fst hd).ge
  · exact hw.term_le

namespace Cluster

variable [Inhabited α] [DecidableEq α] {ok : Cfg n α → Action n α → Prop} {c c' : Cfg n α}
  {p : Fin n} {act : Action n α}

/-! ### Terms and votes over a whole run

First what holds always: the term of a peer never goes down, and its vote in a term is never
changed. What fails without the condition is that a vote which is announced for a term is a vote of
that term. -/

/-- The step lemma: whatever is written, and whoever crashes or restarts. -/
theorem saved_monotone (hc : (system gob).Reachable ok c)
    (hn : (system gob).next c act = some c') (p : Fin n) :
    (saved gob c p).1 ≤ (saved gob c' p).1 ∧
      ((saved gob c' p).1 = (saved gob c p).1 → ∀ a, (saved gob c p).2.1 = some a →
        (saved gob c' p).2.1 = some a) := by
  cases saved_cases hc hn with
  | quiet _ hs _ => rw [hs]; exact ⟨le_refl _, fun _ _ h => h⟩
  | @write q rf gs gr es _ hnd _ hw hs =>
    rcases eq_or_ne p q with rfl | hp
    · rw [← durable_eq_saved hc hnd]
      exact ⟨hw.term_le, fun ht a hv => hw.votedFor ht hv⟩
    · rw [hs p hp]; exact ⟨le_refl _, fun _ _ h => h⟩

/-- The run lemma. -/
theorem saved_monotone_of_reaches (hc : (system gob).Reachable ok c)
    (h : (system gob).Reaches ok c c') (p : Fin n) :
    (saved gob c p).1 ≤ (saved gob c' p).1 ∧
      ((saved gob c' p).1 = (saved gob c p).1 → ∀ a, (saved gob c p).2.1 = some a →
        (saved gob c' p).2.1 = some a) := by
  induction h with
  | refl => exact ⟨le_refl _, fun _ _ h => h⟩
  | @tail c₁ c₂ h₁ hstep ih =>
    obtain ⟨a, ha, hn⟩ := hstep
    obtain ⟨hle, hvote⟩ := saved_monotone (System.Reaches.trans hc h₁) hn p
    refine ⟨ih.1.trans hle, fun ht v hv => ?_⟩
    -- between two equal terms the term does not move
    have h₁ : (saved gob c₁ p).1 = (saved gob c p).1 := le_antisymm (hle.trans ht.le) ih.1
    exact hvote (ht.trans h₁.symm) v (ih.2 h₁ v hv)

/-- **Terms and votes are monotone**, over restarts of the peer too. From a configuration `c` of a
run to a later one `c'`, the `currentTerm` of a peer does not decrease; and if it is the same, then
`votedFor` is the same unless it was `-1` in `c`. This holds of the struct of a peer that is up in
both, and of what its `Persister` holds whether it is up or not. -/
theorem term_and_vote_monotone (gob : Labgob n α) (as bs : List (Action n α)) (c c' : Cfg n α)
    (h : (system gob).exec (system gob).start as = some c)
    (h' : (system gob).exec c bs = some c') (p : Fin n) :
    ((saved gob c p).1 ≤ (saved gob c' p).1 ∧
      ((saved gob c' p).1 = (saved gob c p).1 →
        (saved gob c p).2.1 = none ∨ (saved gob c' p).2.1 = (saved gob c p).2.1)) ∧
    ∀ rf gs rf' gs', c.state.node p = .up rf gs → c'.state.node p = .up rf' gs' →
      rf.currentTerm ≤ rf'.currentTerm ∧
        (rf'.currentTerm = rf.currentTerm → rf.votedFor = none ∨ rf'.votedFor = rf.votedFor) := by
  have hc := System.reaches_of_exec h
  have hcc' := System.reaches_of_exec h'
  have hsaved : (saved gob c p).1 ≤ (saved gob c' p).1 ∧
      ((saved gob c' p).1 = (saved gob c p).1 →
        (saved gob c p).2.1 = none ∨ (saved gob c' p).2.1 = (saved gob c p).2.1) := by
    obtain ⟨hle, hvote⟩ := saved_monotone_of_reaches hc hcc' p
    refine ⟨hle, fun ht => ?_⟩
    rcases hv : (saved gob c p).2.1 with _ | v
    · exact Or.inl rfl
    · exact Or.inr (hvote ht v hv)
  refine ⟨hsaved, fun rf gs rf' gs' hnd hnd' => ?_⟩
  rwa [← durable_eq_saved hc hnd, ← durable_eq_saved (System.Reaches.trans hc hcc') hnd'] at hsaved

/-- Peer `1` has voted for peer `0` in `electionRun`, and still has after a crash and a restart. -/
theorem term_and_vote_monotone_electionRun :
    ∃ c c' rf gs rf' gs',
      (system (Labgob.unary 3)).exec (system (Labgob.unary 3)).start electionRun = some c ∧
      (system (Labgob.unary 3)).exec c [.crash 1, .make 1] = some c' ∧
      c.state.node 1 = .up rf gs ∧ c'.state.node 1 = .up rf' gs' ∧ rf.votedFor = some 0 ∧
      rf'.currentTerm = rf.currentTerm ∧ rf'.votedFor = rf.votedFor := by
  obtain ⟨c, hc, h⟩ := exists_of_exec (Labgob.unary 3) electionRun
    (fun c => ((system (Labgob.unary 3)).exec c [.crash 1, .make 1]).any fun c' =>
      (c.state.node 1).check (fun rf => decide (rf.currentTerm = 1 ∧ rf.votedFor = some 0)) &&
      (c'.state.node 1).check fun rf => decide (rf.currentTerm = 1))
    (by decide +kernel)
  obtain ⟨c', hc', h⟩ := (Option.any_eq_true _ _).mp h
  obtain ⟨rf, rf', gs, gs', hnd, hnd', ⟨ht, hv⟩, ht'⟩ := Node.exists_of_checks h
  have hterm : rf'.currentTerm = rf.currentTerm := ht'.trans ht.symm
  have hmono := (term_and_vote_monotone (Labgob.unary 3) _ _ c c' hc hc' 1).2 rf gs rf' gs' hnd hnd'
  refine ⟨c, c', rf, gs, rf', gs', hc, hc', hnd, hnd', hv, hterm, ?_⟩
  exact (hmono.2 hterm).resolve_left fun h => by rw [hv] at h; cases h

/-- A peer has reached every term it has stood for. -/
theorem candidacy_le (hc : (system gob).Reachable ok c) (h : .candidacy p T ∈ c.trace) :
    T ≤ (saved gob c p).1 := by
  refine System.Reachable.invariant (M := system gob)
    (P := fun c => ∀ p T, .candidacy p T ∈ c.trace → T ≤ (saved gob c p).1) nofun ?_ hc p T h
  intro c a c' hc hI _ hn p T h
  cases saved_cases hc hn with
  | quiet ht hs hq =>
    rw [ht] at h
    rw [hs]
    rcases List.mem_append.mp h with h | h
    · exact hI p T h
    · exact absurd (hq _ h) id
  | @write q rf gs gr es ht hnd _ hw hs =>
    rw [ht] at h
    rcases List.mem_append.mp h with h | h
    · rcases eq_or_ne p q with rfl | hp
      · have hle := hI p T h
        rw [← durable_eq_saved hc hnd] at hle
        exact hle.trans hw.term_le
      · rw [hs p hp]; exact hI p T h
    · have hme := me_of_reachable hc hnd
      generalize hd : saved gob c' q = d at hw
      cases hw with
      | campaign _ he =>
        rcases he _ h with h | ⟨_, _, h, _⟩ <;> cases h
        rw [hme, hd]
      | _ => simp at h

/-- The term of the voter bounds the terms it has voted in, its `votedFor` is its vote in the
current one, and there is one vote for each. -/
structure OneVote (gob : Labgob n α) (c : Cfg n α) : Prop where
  /-- No vote is for a term to come. -/
  le : ∀ v T a, Voted c.trace v T a → T ≤ (saved gob c v).1
  /-- The vote of the current term is the one that is saved. -/
  current : ∀ v a, Voted c.trace v (saved gob c v).1 a → (saved gob c v).2.1 = some a
  unique : ∀ v T a b, Voted c.trace v T a → Voted c.trace v T b → a = b

omit [DecidableEq α] in
/-- The step lemma for the peer that writes. -/
theorem OneVote.write (hI : OneVote gob c) {gr : Option (Goroutine n α)}
    {d : ℕ × Option (Fin n) × List (LogEntry α)} (hrf : saved gob c p = rf.durable)
    (hw : Write rf gr es d) (hok : ∀ call myTerm, gr = some (.requestVote call myTerm) →
      rf.Grants call.args → rf.currentTerm = call.args.term) :
    (∀ T a, Voted c.trace p T a ∨ Voted es p T a → T ≤ d.1) ∧
      (∀ a, Voted c.trace p d.1 a ∨ Voted es p d.1 a → d.2.1 = some a) ∧
      ∀ T a b, Voted c.trace p T a ∨ Voted es p T a → Voted c.trace p T b ∨ Voted es p T b →
        a = b := by
  have hle : ∀ T a, Voted c.trace p T a → T ≤ rf.currentTerm := by
    intro T a h
    have := hI.le p T a h
    rwa [hrf] at this
  have hcur : ∀ a, Voted c.trace p rf.currentTerm a → rf.votedFor = some a := by
    intro a h
    have := hI.current p a
    rw [hrf] at this
    exact this h
  have hmixed : ∀ T a b, Voted c.trace p T a → Voted es p T b → a = b := by
    intro T a b h h'
    rcases hw.voted h' with ⟨_, _, _, hT, _⟩ | ⟨call, myTerm, hgr, hg, _, hT, hb, _⟩
    · have := hle T a h
      omega
    · have hv : rf.votedFor = some a := by
        rw [hT, ← hok call myTerm hgr hg] at h
        exact hcur a h
      rcases hg.1 with hf | hf
      · rw [hv] at hf; cases hf
      · rw [hv] at hf
        rw [hb]
        exact Option.some.inj hf
  refine ⟨?_, ?_, ?_⟩
  · rintro T a (h | h)
    · exact (hle T a h).trans hw.term_le
    · rcases hw.voted h with ⟨_, _, _, _, hd, _⟩ | ⟨call, myTerm, hgr, hg, _, hT, _, hd, _⟩
      · exact hd.ge
      · rw [hd, hok call myTerm hgr hg, hT]
  · rintro a (h | h)
    · have hd : d.1 = rf.currentTerm := le_antisymm (hle _ a h) hw.term_le
      exact hw.votedFor hd (hcur a (hd ▸ h))
    · rcases hw.voted h with ⟨_, _, _, _, _, hd⟩ | ⟨_, _, _, _, _, _, _, _, hd⟩ <;> exact hd
  · rintro T a b (h | h) (h' | h')
    · exact hI.unique p T a b h h'
    · exact hmixed T a b h h'
    · exact (hmixed T b a h' h).symm
    · have ha := (hw.voted h).elim (fun h => h.2.2.2.2.2) fun ⟨_, _, h⟩ => h.2.2.2.2.2.2
      have hb := (hw.voted h').elim (fun h => h.2.2.2.2.2) fun ⟨_, _, h⟩ => h.2.2.2.2.2.2
      exact Option.some.inj (ha.symm.trans hb)

theorem oneVote_of_reachable (hok : ∀ c a, ok c a → GrantsInTerm c a)
    (hc : (system gob).Reachable ok c) : OneVote gob c := by
  refine System.Reachable.invariant (M := system gob) ?_ ?_ hc
  · have hno : ∀ v T a, ¬ Voted (system gob).start.trace v T a := by
      rintro v T a (⟨_, h⟩ | ⟨_, _, h, _⟩) <;> cases h
    exact ⟨fun v T a h => absurd h (hno v T a), fun v a h => absurd h (hno v _ a),
      fun v T a b h => absurd h (hno v T a)⟩
  · intro c a c' hc hI ha hn
    cases saved_cases hc hn with
    | quiet ht hs hq =>
      have hold : ∀ {v T a}, Voted c'.trace v T a → Voted c.trace v T a := by
        intro v T a h
        rw [ht] at h
        exact (voted_append.mp h).resolve_right (not_voted_of_quiet hq)
      refine ⟨fun v T a h => ?_, fun v a h => ?_, fun v T a b h h' => hI.unique v T a b (hold h)
        (hold h')⟩
      · rw [hs]; exact hI.le v T a (hold h)
      · rw [hs] at h ⊢; exact hI.current v a (hold h)
    | @write p rf gs gr es ht hnd hat hw hs =>
      have hsrc := (inFlight_of_reachable hc).node p
      rw [hnd] at hsrc
      have hother : ∀ {v T a}, v ≠ p → Voted c'.trace v T a → Voted c.trace v T a := by
        intro v T a hv h
        rw [ht] at h
        refine (voted_append.mp h).resolve_right fun h => hv ?_
        rcases hw.voted h with ⟨_, hv, _⟩ | ⟨call, _, rfl, _, hv, _⟩
        · exact hv.trans hsrc.1
        · exact hv.trans (hsrc.2 _ hat.mem).2
      obtain ⟨h₁, h₂, h₃⟩ := hI.write (durable_eq_saved hc hnd).symm hw
        fun call myTerm hgr => (hok c a ha).at hnd (hgr ▸ hat) call rfl
      simp only [← voted_append, ← ht] at h₁ h₂ h₃
      refine ⟨fun v T a h => ?_, fun v a h => ?_, fun v T a b h h' => ?_⟩
      · rcases eq_or_ne v p with rfl | hv
        · exact h₁ T a h
        · rw [hs v hv]; exact hI.le v T a (hother hv h)
      · rcases eq_or_ne v p with rfl | hv
        · exact h₂ a h
        · rw [hs v hv] at h ⊢; exact hI.current v a (hother hv h)
      · rcases eq_or_ne v p with rfl | hv
        · exact h₃ T a b h h'
        · exact hI.unique v T a b (hother hv h) (hother hv h')

/-- **One vote per voter per term**, in every run that grants votes only while `currentTerm` is the
term they are asked for. -/
theorem one_vote_per_term (gob : Labgob n α) (c : Cfg n α)
    (hc : (system gob).Reachable GrantsInTerm c) (v : Fin n) (T : ℕ) (a b : Fin n)
    (ha : Voted c.trace v T a) (hb : Voted c.trace v T b) : a = b :=
  (oneVote_of_reachable (fun _ _ h => h) hc).unique v T a b ha hb

/-- In `electionRun` peer `1` votes for peer `0`. -/
theorem one_vote_per_term_electionRun :
    ∃ c, (system (Labgob.unary 3)).Reachable GrantsInTerm c ∧ Voted c.trace 1 1 0 ∧
      ∀ b, Voted c.trace 1 1 b → 0 = b := by
  obtain ⟨c, hc, h⟩ := exists_of_execOk (Labgob.unary 3) electionRun GrantsInTerm
    (fun c => decide (.sent (.requestVoteReply ⟨1, 1, 0, 0, 0⟩ ⟨0, true⟩) ∈ c.trace))
    (by decide +kernel)
  have hv : Voted c.trace 1 1 0 := Or.inr ⟨_, _, of_decide_eq_true h, rfl, rfl, rfl, rfl⟩
  exact ⟨c, hc, hv, fun b hb => one_vote_per_term (Labgob.unary 3) c hc 1 1 0 b hv hb⟩

/-- Peers `0` and `2` stand for term `1`. The handler of peer `1` for peer `0` passes `termSync` and
pauses; the one for peer `2` grants. Then peer `0` stands again, for term `2`, and its second
request resets the vote of peer `1` before the first handler goes on. -/
def lateHandlerRun : List (Action 3 ℕ) :=
  [.make 0, .make 1, .make 2, .run 0 0, .timeout 0 0, .run 0 0, .run 0 0, .run 2 0, .timeout 2 0,
    .run 2 0, .run 2 0, .deliver 0, .run 1 1, .run 1 1, .deliver 2, .run 1 2, .run 1 2,
    .timeout 0 0, .run 0 2, .run 0 2, .timeout 0 2, .run 0 2, .run 0 2, .deliver 3, .run 1 2,
    .run 1 1]

/-- **A late handler votes a second time** in a term that is over. -/
theorem late_handler_votes_twice :
    ∃ c, (system (Labgob.unary 3)).Reachable (fun _ _ => True) c ∧ Voted c.trace 1 1 2 ∧
      Voted c.trace 1 1 0 ∧ (2 : Fin 3) ≠ 0 := by
  obtain ⟨c, hc, h⟩ := exists_of_exec (Labgob.unary 3) lateHandlerRun
    (fun c => decide (.sent (.requestVoteReply ⟨1, 1, 2, 0, 0⟩ ⟨1, true⟩) ∈ c.trace ∧
      .sent (.requestVoteReply ⟨1, 1, 0, 0, 0⟩ ⟨0, true⟩) ∈ c.trace)) (by decide +kernel)
  obtain ⟨h₂, h₀⟩ := of_decide_eq_true h
  exact ⟨c, System.reaches_of_exec hc, Or.inr ⟨_, _, h₂, rfl, rfl, rfl, rfl⟩,
    Or.inr ⟨_, _, h₀, rfl, rfl, rfl, rfl⟩, by decide⟩

end Cluster

end Distsys
