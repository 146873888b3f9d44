import Distsys.Raft.Reign
import Mathlib.Data.Finset.Max
import Mathlib.Data.Prod.Lex

/-!
# Availability

Safety says what a cluster never does; a cluster that never does anything would satisfy it. Here is
the other half: no configuration that a cluster can get into keeps a majority of its peers from
electing a leader, and from committing and applying what this leader is given. The peers of the
majority are made again, the one whose log is the most up to date wins an election, and its
heartbeats do the rest.

The run that leads there has all the guarantees of runs that are timely and cut off no entries in
vain. It needs no step of the other peers. Nothing is said about how probable such a run is:
elections can fail again and again, as long as the timeouts of the candidates coincide.

## How the run is found

Each stage of the run has a description of what is known when it ends, and the next stage starts
from that: `restarted` and `Waiting` before the election, `Crowned` behind it, `Reign` while the
command is replicated, `Due` when it is committed. The stages are put together with the rules of
`Distsys.Lib.Possibility`. The loop over the followers uses `System.Can.forEach`, the heartbeats to
one follower `System.Can.descend`.

## Main results

* `Cluster.exists_upToDate` — the peer that is to win
* `Cluster.can_sync`, `Cluster.can_commit`, `Cluster.can_tell`, `Cluster.can_apply_all` — the way of
  a command from the leader's log to the state machines
* `Cluster.majority_available`
-/

namespace Distsys

variable {n : ℕ} {α : Type} {gob : Labgob n α}

/-- The loop of `applyEntries` inside the log. -/
theorem Raft.applyLoop_applies {log : List (LogEntry α)} {lastApplied : ℤ} {k : ℕ}
    (h₀ : 0 ≤ lastApplied) (h : lastApplied + k < log.length) :
    (Raft.applyLoop log lastApplied k).2 = some (lastApplied + k) ∧
      ∀ i e, lastApplied < i → i ≤ lastApplied + k → GoSlice.get log i = some e →
        ⟨true, e.data, i⟩ ∈ (Raft.applyLoop log lastApplied k).1 := by
  induction k generalizing lastApplied with
  | zero => exact ⟨by simp [Raft.applyLoop], fun i e hi hi' _ => by omega⟩
  | succ k ih =>
    obtain ⟨e₀, he₀⟩ := GoSlice.get_isSome (s := log) (i := lastApplied + 1) (by omega) (by omega)
    obtain ⟨hlast, hall⟩ := ih (by omega : 0 ≤ lastApplied + 1) (by omega)
    rw [Raft.applyLoop, he₀]
    refine ⟨hlast.trans (congrArg some (by omega)), fun i e hi hi' he => ?_⟩
    rcases eq_or_ne i (lastApplied + 1) with rfl | hne
    · cases he₀.symm.trans he
      exact List.mem_cons_self
    · exact List.mem_cons_of_mem _ (hall i e (by omega) (by omega) he)

namespace Cluster

variable {base : Cfg n α} {Q : Finset (Fin n)} {D : Part n α} {logs : Fin n → List (LogEntry α)}
  {m : Mandate n α} {b : ℕ} {E : Set (Event n α)}

/-- Among the peers of a set there is one for which all others would vote. -/
theorem exists_upToDate (hQ : Q.Nonempty)
    (hne : ∀ q, logs q ≠ []) :
    ∃ L ∈ Q, ∃ last, GoSlice.get (logs L) ((logs L).length - 1) = some last ∧
      ∀ T, UpToDate logs Q ⟨T, L, (logs L).length - 1, last.term⟩ := by
  have hget : ∀ q, ∃ last, GoSlice.get (logs q) ((logs q).length - 1) = some last := by
    intro q
    have := List.length_pos_of_ne_nil (hne q)
    exact GoSlice.get_isSome (by omega) (by omega)
  choose last hlast using hget
  -- later last terms come first, then longer logs
  obtain ⟨L, hL, hmax⟩ := Finset.exists_max_image Q
    (fun q => toLex ((last q).term, (logs q).length)) hQ
  refine ⟨L, hL, last L, hlast L, fun T q hq => ⟨last q, hlast q, ?_⟩⟩
  rcases Prod.Lex.toLex_le_toLex.mp (hmax q hq) with hlt | ⟨heq, hle⟩
  · exact Or.inl hlt
  · refine Or.inr ⟨heq.symm, ?_⟩
    dsimp only at hle ⊢
    omega

variable [Inhabited α]

/-- The log that a peer would start with. -/
def savedLog (gob : Labgob n α) (c : Cfg n α) (p : Fin n) : List (LogEntry α) := (saved gob c p).2.2

/-- A leader that gets a command. -/
theorem Crowned.reign (gob : Labgob n α)
    (h : Crowned logs Q m.leader m.term D) (hold : m.old = logs m.leader)
    (holder : ∀ q ∈ Q, m.Older (logs q)) (hL : m.leader ∈ Q) (es : List (Event n α)) :
    Reign m Q 1 (D.put m.leader (Raft.persist gob
      { D.rf m.leader with
        log := (D.rf m.leader).log ++ [⟨(D.rf m.leader).currentTerm, m.command⟩] })
      (D.gs m.leader) es) := by
  have hpos : 1 ≤ m.last := m.last_pos (hold ▸ holder m.leader hL)
  have hlast : ((logs m.leader).length : ℤ) = m.last := by rw [← hold]; rfl
  constructor
  case me => rw [Part.rf_put]; exact h.me
  case phase => rw [Part.rf_put]; exact h.phase
  case currentTerm => rw [Part.rf_put]; exact h.currentTerm
  case log =>
    rw [Part.rf_put, Mandate.log, Mandate.entry, hold, ← h.log, ← h.currentTerm]
    rfl
  case lastApplied => rw [Part.rf_put]; exact h.lastApplied
  case sized =>
    rw [Part.rf_put]
    simp [Raft.Sized, Raft.persist, h.nextIndex, h.matchIndex]
  case pos =>
    rw [Part.rf_put]
    intro i hi
    have hi' : i ∈ List.replicate n ((logs m.leader).length : ℤ) := h.nextIndex ▸ hi
    rw [List.eq_of_mem_replicate hi']
    omega
  case gs => rw [Part.gs_put]; exact h.gs
  case commit => rw [Part.rf_put]; exact Or.inl h.commitIndex
  case peers =>
    intro q hq hne
    obtain ⟨hidle, hterm, hgs⟩ := h.peers q hq hne
    rw [Part.rf_put_of_ne hne, Part.gs_put_of_ne hne, Part.rf_put]
    refine ⟨⟨hidle.me, hidle.phase, hterm, hidle.lastApplied, ?_, Or.inl hidle.commitIndex⟩,
      .older (i := m.last - 1) ?_ (by omega) (hidle.log ▸ holder q hq)⟩
    · rw [hgs]
      exact Set.empty_subset _
    · rw [GoSlice.get_natCast]
      simp only [Raft.persist, h.nextIndex, List.getElem?_replicate, q.isLt, if_true]
      exact congrArg some (by omega)

/-- A peer that will apply the entry. -/
structure Due (m : Mandate n α) (p : Fin n) (rf : Raft n α) (X : Set (Goroutine n α)) : Prop where
  me : rf.me = p
  /-- Nothing has been applied since the peer was made. -/
  lastApplied : rf.lastApplied = 0
  /-- It knows that the entry is committed, -/
  commitIndex : rf.commitIndex = m.last
  /-- has it, -/
  log : m.Synced rf.log
  /-- and has started the goroutine that will apply it. -/
  gs : .applyEntries ∈ X

/-- All peers that know of the commit will apply the entry. -/
theorem Reign.due (h : Reign m Q b D) (hold : m.Older m.old)
    (hall : ∀ q ∈ Q, (D.rf q).commitIndex = m.last) {p : Fin n} (hp : p ∈ Q) :
    Due m p (D.rf p) (D.gs p) := by
  have hpos := m.last_pos hold
  have hc := hall p hp
  rcases eq_or_ne p m.leader with rfl | hne
  · rcases h.commit with h₀ | ⟨_, hgs⟩
    · omega
    · refine ⟨h.me, h.lastApplied, hc, ?_, hgs⟩
      rw [h.log]
      exact ⟨m.length_log, m.getElem?_last⟩
  · obtain ⟨hf, _⟩ := h.peers p hp hne
    rcases hf.commit with h₀ | ⟨_, hsynced, hgs⟩
    · omega
    · exact ⟨hf.me, hf.lastApplied, hc, hsynced, hgs⟩

variable [DecidableEq α]

/-- **The followers get the entry**, one after the other. -/
theorem can_sync (hn : 2 ≤ n) (hold : m.Older m.old) (hQ : n < 2 * Q.card) (hL : m.leader ∈ Q) :
    (system gob).Can Proper
      (fun c => ∃ b D, Holds base Q D c ∧ Reign m Q b D ∧ E ⊆ D.trace)
      fun c => ∃ b D, Holds base Q D c ∧ Reign m Q b D ∧ E ⊆ D.trace ∧
        ∀ q ∈ Q, q ≠ m.leader → pending m D q = 0 := by
  let P (done : Finset (Fin n)) (c : Cfg n α) : Prop := ∃ b D, Holds base Q D c ∧ Reign m Q b D ∧
    E ⊆ D.trace ∧ ∀ q ∈ done, q ≠ m.leader → pending m D q = 0
  refine (System.Can.of_imp (Q := P ∅) ?_).trans (System.Can.forEach Q ?_)
  · rintro c ⟨b, D, hD, h, hE⟩
    exact ⟨b, D, hD, h, hE, by simp⟩
  · intro done q hq _
    -- the loop over the heartbeats that `q` refuses
    let P' (k : ℕ) (c : Cfg n α) : Prop := ∃ b D, Holds base Q D c ∧ Reign m Q b D ∧ E ⊆ D.trace ∧
      (∀ p ∈ done, p ≠ m.leader → pending m D p = 0) ∧ pending m D q = k
    suffices hround : ∀ k, (system gob).Can Proper (P' k)
        fun c => P (insert q done) c ∨ ∃ k' < k, P' k' c by
      rintro c ⟨b, D, hD, h, hE, hdone⟩
      exact System.Can.descend id hround _ c ⟨b, D, hD, h, hE, hdone, rfl⟩
    · rintro k c ⟨b, D, hD, h, hE, hdone, hk⟩
      have hnow : q = m.leader ∨ k = 0 → ∀ p ∈ insert q done, p ≠ m.leader → pending m D p = 0 := by
        intro hor p hp hne
        rcases Finset.mem_insert.mp hp with rfl | hp
        · exact hk.trans (hor.resolve_left hne)
        · exact hdone p hp hne
      by_cases hor : q = m.leader ∨ k = 0
      · exact ⟨c, System.Reaches.refl c, Or.inl ⟨b, D, hD, h, hE, hnow hor⟩⟩
      obtain ⟨hne, hk₀⟩ := not_or.mp hor
      obtain ⟨c', hreach, D', hD', h', hadv⟩ := h.can_advance hn hold hQ hL hq hne c hD
      have hothers : ∀ p ∈ done, p ≠ m.leader → pending m D' p = 0 := by
        intro p hp hpL
        rcases eq_or_ne p q with rfl | hpq
        · exact absurd (hk.symm.trans (hdone p hp hpL)) hk₀
        · exact (hadv.others p hpL hpq).2.trans (hdone p hp hpL)
      refine ⟨c', hreach, Or.inr ⟨pending m D' q, ?_, b + 1, D', hD', h',
        hE.trans hadv.trace, hothers, rfl⟩⟩
      rcases hadv.pending with hzero | hlt
      · exact hzero ▸ Nat.pos_of_ne_zero hk₀
      · exact hk ▸ hlt

/-- **The leader commits the entry** with the next heartbeat, whoever replies to it. -/
theorem can_commit (hn : 2 ≤ n) (hold : m.Older m.old) (hQ : n < 2 * Q.card) (hL : m.leader ∈ Q) :
    (system gob).Can Proper
      (fun c => ∃ b D, Holds base Q D c ∧ Reign m Q b D ∧ E ⊆ D.trace ∧
        ∀ q ∈ Q, q ≠ m.leader → pending m D q = 0)
      fun c => ∃ b D, Holds base Q D c ∧ Reign m Q b D ∧ E ⊆ D.trace ∧
        (∀ q ∈ Q, q ≠ m.leader → pending m D q = 0) ∧
          (D.rf m.leader).commitIndex = m.last := by
  rintro c ⟨b, D, hD, h, hE, hzero⟩
  obtain ⟨q, hq, hne⟩ := Finset.exists_mem_ne (by omega : 1 < Q.card) m.leader
  obtain ⟨c', hreach, D', hD', h', hadv⟩ := h.can_advance hn hold hQ hL hq hne c hD
  have hzero' := hadv.pending_eq_zero hzero hq hne
  exact ⟨c', hreach, b + 1, D', hD', h', hE.trans hadv.trace, hzero', hadv.commits hzero'⟩

/-- **The followers learn of the commit**, one after the other. -/
theorem can_tell (hn : 2 ≤ n) (hold : m.Older m.old) (hQ : n < 2 * Q.card) (hL : m.leader ∈ Q) :
    (system gob).Can Proper
      (fun c => ∃ b D, Holds base Q D c ∧ Reign m Q b D ∧ E ⊆ D.trace ∧
        (∀ q ∈ Q, q ≠ m.leader → pending m D q = 0) ∧
          (D.rf m.leader).commitIndex = m.last)
      fun c => ∃ b D, Holds base Q D c ∧ Reign m Q b D ∧ E ⊆ D.trace ∧
        ∀ q ∈ Q, (D.rf q).commitIndex = m.last := by
  let P (done : Finset (Fin n)) (c : Cfg n α) : Prop := ∃ b D, Holds base Q D c ∧ Reign m Q b D ∧
    E ⊆ D.trace ∧ (∀ q ∈ Q, q ≠ m.leader → pending m D q = 0) ∧
      (D.rf m.leader).commitIndex = m.last ∧ ∀ q ∈ done, (D.rf q).commitIndex = m.last
  refine (System.Can.of_imp (Q := P ∅) ?_).trans
    ((System.Can.forEach Q ?_).trans (System.Can.of_imp ?_))
  · rintro c ⟨b, D, hD, h, hE, hzero, hcommit⟩
    exact ⟨b, D, hD, h, hE, hzero, hcommit, by simp⟩
  · rintro done q hq _ c ⟨b, D, hD, h, hE, hzero, hcommit, hdone⟩
    by_cases hne : q = m.leader
    · refine ⟨c, System.Reaches.refl c, b, D, hD, h, hE, hzero, hcommit, ?_⟩
      rw [Finset.forall_mem_insert]
      exact ⟨hne ▸ hcommit, hdone⟩
    · obtain ⟨c', hreach, D', hD', h', hadv⟩ := h.can_advance hn hold hQ hL hq hne c hD
      refine ⟨c', hreach, b + 1, D', hD', h', hE.trans hadv.trace,
        hadv.pending_eq_zero hzero hq hne, hadv.commit hcommit, ?_⟩
      rw [Finset.forall_mem_insert]
      have hlearns := hadv.learns hcommit (hzero q hq hne)
      refine ⟨hlearns, fun p hp => ?_⟩
      rcases eq_or_ne p m.leader with rfl | hpL
      · exact hadv.commit hcommit
      rcases eq_or_ne p q with rfl | hpq
      · exact hlearns
      · rw [(hadv.others p hpL hpq).1]
        exact hdone p hp
  · rintro c ⟨b, D, hD, h, hE, _, _, hall⟩
    exact ⟨b, D, hD, h, hE, hall⟩

/-- It applies the entry. -/
theorem Due.can_apply {p : Fin n} (h : Due m p (D.rf p) (D.gs p)) (hold : m.Older m.old)
    (hp : p ∈ Q) :
    (system gob).Can Proper (Holds base Q D) fun c => ∃ rf es,
      Holds base Q (D.put p rf ∅ es) c ∧ .applied p ⟨true, m.command, m.last⟩ ∈ es := by
  have hpos := m.last_pos hold
  have hlen : 0 + (m.last : ℤ) < (D.rf p).log.length := by
    rw [h.log.1]
    omega
  obtain ⟨hlast, hmsgs⟩ := Raft.applyLoop_applies le_rfl hlen
  have hloop : Raft.applyEntries (D.rf p) = ((Raft.applyLoop (D.rf p).log 0 m.last).1,
      some { D.rf p with lastApplied := 0 + m.last }) := by
    simp only [Raft.applyEntries, h.lastApplied, h.commitIndex]
    rw [show ((m.last : ℤ) - 0).toNat = m.last by omega, hlast]
    rfl
  refine (can_run hp h.gs (X := ∅) (e := {
      rf := { D.rf p with lastApplied := 0 + m.last }
      events := (Raft.applyLoop (D.rf p).log 0 m.last).1.map (.applied p) }) ?_
    (allows_of_none rfl rfl rfl rfl) fun _ hy => absurd hy (Set.notMem_empty _)).trans
    (System.Can.of_imp fun c hc => ⟨_, _, hc, ?_⟩)
  · simp only [Goroutine.run, Raft.runApply, hloop, h.me]
  · refine List.mem_map_of_mem (hmsgs m.last m.entry (by omega) (by omega) ?_)
    rw [GoSlice.get_natCast]
    exact h.log.2

/-- **Everybody applies the entry.** -/
theorem can_apply_all (hold : m.Older m.old) :
    (system gob).Can Proper
      (fun c => ∃ b D, Holds base Q D c ∧ Reign m Q b D ∧ E ⊆ D.trace ∧
        ∀ q ∈ Q, (D.rf q).commitIndex = m.last)
      fun c => ∃ D, Holds base Q D c ∧ E ⊆ D.trace ∧
        ∀ p ∈ Q, .applied p ⟨true, m.command, m.last⟩ ∈ D.trace := by
  let P (done : Finset (Fin n)) (c : Cfg n α) : Prop := ∃ D, Holds base Q D c ∧ E ⊆ D.trace ∧
    (∀ p ∈ Q, p ∉ done → Due m p (D.rf p) (D.gs p)) ∧
      ∀ p ∈ done, .applied p ⟨true, m.command, m.last⟩ ∈ D.trace
  refine (System.Can.of_imp (Q := P ∅) ?_).trans
    ((System.Can.forEach Q ?_).trans (System.Can.of_imp ?_))
  · rintro c ⟨b, D, hD, h, hE, hall⟩
    exact ⟨D, hD, hE, fun p hp _ => h.due hold hall hp, by simp⟩
  · rintro done p hp hpd c ⟨D, hD, hE, hdue, hdone⟩
    obtain ⟨c', hreach, rf, es, hD', happlied⟩ := (hdue p hp hpd).can_apply hold hp c hD
    refine ⟨c', hreach, _, hD', fun e he => Or.inl (hE he), fun q hq hqd => ?_, ?_⟩
    · obtain ⟨hne, hqd⟩ := not_or.mp (mt Finset.mem_insert.mpr hqd)
      rw [Part.rf_put_of_ne hne, Part.gs_put_of_ne hne]
      exact hdue q hq hqd
    · rw [Finset.forall_mem_insert]
      exact ⟨Or.inr happlied, fun q hq => Or.inl (hdone q hq)⟩
  · rintro c ⟨D, hD, hE, _, hdone⟩
    exact ⟨D, hD, hE, hdone⟩

/-- All of this, one after the other. -/
theorem can_finish (hn : 2 ≤ n) (hold : m.Older m.old) (hQ : n < 2 * Q.card) (hL : m.leader ∈ Q) :
    (system gob).Can Proper
      (fun c => ∃ b D, Holds base Q D c ∧ Reign m Q b D ∧ E ⊆ D.trace)
      fun c => ∃ D, Holds base Q D c ∧ E ⊆ D.trace ∧
        ∀ p ∈ Q, .applied p ⟨true, m.command, m.last⟩ ∈ D.trace :=
  (((can_sync hn hold hQ hL).trans (can_commit hn hold hQ hL)).trans
    (can_tell hn hold hQ hL)).trans (can_apply_all hold)

/-- **A leader commits a command**, and everybody in the majority applies it. -/
theorem Crowned.can_serve (hn : 2 ≤ n) (hQ : n < 2 * Q.card) (hL : m.leader ∈ Q)
    (h : Crowned logs Q m.leader m.term D) (hold : m.old = logs m.leader)
    (holder : ∀ q ∈ Q, m.Older (logs q)) :
    (system gob).Can Proper (Holds base Q D) fun c => ∃ D, Holds base Q D c ∧
      .elected m.leader m.term ∈ D.trace ∧
      .started m.leader m.command m.last m.term ∈ D.trace ∧
      ∀ p ∈ Q, .applied p ⟨true, m.command, m.last⟩ ∈ D.trace := by
  have hold' : m.Older m.old := hold ▸ holder m.leader hL
  have hlen : ((D.rf m.leader).log.length : ℤ) = m.last := by rw [h.log, ← hold]; rfl
  let E : Set (Event n α) :=
    {.elected m.leader m.term, .started m.leader m.command m.last m.term}
  have hfinish : (system gob).Can Proper
      (fun c => ∃ b D, Holds base Q D c ∧ Reign m Q b D ∧ E ⊆ D.trace) _ :=
    can_finish hn hold' hQ hL
  refine (can_start hL h.phase (h.currentTerm.symm ▸ h.elected) m.command).trans
    ((System.Can.of_imp fun c hc => ?_).trans (hfinish.trans (System.Can.of_imp ?_)))
  · refine ⟨1, _, hc, h.reign gob hold holder hL _, ?_⟩
    rintro e (rfl | rfl)
    · exact Or.inl h.elected
    · exact Or.inr (by rw [hlen, h.currentTerm]; exact List.mem_singleton_self _)
  · rintro c ⟨D', hD', hE, happlied⟩
    exact ⟨D', hD', hE (Set.mem_insert _ _), hE (Set.mem_insert_of_mem _ rfl), happlied⟩

/-- **A majority is enough.** Whatever has happened to a cluster of two peers or more — messages
delayed or lost, crashes, elections in vain, a leader in a term nobody elected it in — the peers of
a majority can be made again, elect one of them and commit any command: all of them apply it at the
index that `Start` returned. The other peers are left as they are. The run there is timely and cuts
off no entries in vain. -/
theorem majority_available (hn : 2 ≤ n) (gob : Labgob n α) (c : Cfg n α)
    (hc : (system gob).Reachable (fun _ _ => True) c) (Q : Finset (Fin n)) (hQ : n < 2 * Q.card)
    (command : α) :
    ∃ c' es L T i, (system gob).Reaches (fun c a => Timely c a ∧ KeepsUnrefuted c a) c c' ∧
      c'.trace = c.trace ++ es ∧ (∀ p ∉ Q, c'.state.node p = c.state.node p) ∧ L ∈ Q ∧
      .elected L T ∈ es ∧ .started L command i T ∈ es ∧
      ∀ p ∈ Q, .applied p ⟨true, command, i⟩ ∈ es := by
  have hwf := (wellFormed_of_reachable hc).saved
  have hne : ∀ p, savedLog gob c p ≠ [] := fun p hnil => by
    have := (hwf p).head
    rw [savedLog] at hnil
    rw [hnil] at this
    cases this
  have hnonempty : Q.Nonempty := Finset.card_pos.mp (by omega)
  obtain ⟨L, hL, last, hlast, hdate⟩ := exists_upToDate hnonempty hne
  let M := Q.sup fun p => (saved gob c p).1
  have hM : ∀ p ∈ Q, (saved gob c p).1 ≤ M := fun p hp =>
    Finset.le_sup (f := fun p => (saved gob c p).1) hp
  have hidle : ∀ p, Idle (savedLog gob c) p (Raft.make gob p (c.state.node p).persister) := by
    intro p
    obtain ⟨_, _, _, h⟩ := Raft.make_eq gob p (c.state.node p).persister
    exact ⟨by rw [h], by rw [h], rfl, by rw [h], by rw [h]⟩
  -- only `L` is to wake up
  let D : Part n α := { restarted gob c with gs := fun p => if p = L then {.awaitElection} else ∅ }
  have hwaiting : Waiting (savedLog gob c) Q L M (saved gob c L).1 D :=
    ⟨hidle L, rfl, by simp [D], fun q hq hqL => ⟨hidle q, hM q hq, if_neg hqL⟩⟩
  have hrestart : (system gob).Can Proper (· = c) (Holds c Q _) := can_restart
  obtain ⟨c₁, hreach₁, hD₀⟩ := hrestart c rfl
  have hD : Holds c Q D c₁ := by
    refine hD₀.mono (fun _ _ => rfl) (fun p _ => ?_) subset_rfl subset_rfl
    by_cases hp : p = L
    · simp [D, hp, restarted]
    · simp [D, hp]
  obtain ⟨c₂, hreach₂, T, D₂, hD₂, hMT, hcrowned⟩ := hwaiting.can_elect hL hQ hlast hdate c₁ hD
  let m : Mandate n α := ⟨L, T, savedLog gob c L, command⟩
  have holder : ∀ q ∈ Q, m.Older (savedLog gob c q) := fun q hq =>
    ⟨(hwf q).head, fun e he => ((hwf q).le e he).trans_lt ((hM q hq).trans_lt hMT)⟩
  obtain ⟨c₃, hreach₃, D₃, hD₃, helected, hstarted, happlied⟩ :=
    Crowned.can_serve (m := m) hn hQ hL hcrowned rfl holder c₂ hD₂
  obtain ⟨es, hes, hsub⟩ := hD₃.trace
  exact ⟨c₃, es, L, T, m.last, (hreach₁.trans hreach₂).trans hreach₃, hes, hD₃.rest, hL,
    hsub _ helected, hsub _ hstarted, fun p hp => hsub _ (happlied p hp)⟩

/-- After `raisedLeaderRun` peer `0` leads in a term nobody elected it in. The other two can go on
without it. -/
theorem majority_available_raisedLeaderRun :
    ∃ c rf gs, (system (Labgob.unary 3)).Reachable (fun _ _ => True) c ∧
      c.state.node 0 = .up rf gs ∧ rf.phase = .leader ∧
      ∃ c' es L T i, (system (Labgob.unary 3)).Reaches
          (fun c a => Timely c a ∧ KeepsUnrefuted c a) c c' ∧
        c'.trace = c.trace ++ es ∧ (∀ p ∉ ({1, 2} : Finset (Fin 3)),
          c'.state.node p = c.state.node p) ∧ L ∈ ({1, 2} : Finset (Fin 3)) ∧
        .elected L T ∈ es ∧ .started L 5 i T ∈ es ∧
        ∀ p ∈ ({1, 2} : Finset (Fin 3)), .applied p ⟨true, 5, i⟩ ∈ es := by
  obtain ⟨c, hc, hchk⟩ := exists_of_exec (Labgob.unary 3) raisedLeaderRun
    (fun c => (c.state.node 0).check fun rf => decide (rf.phase = .leader)) (by decide +kernel)
  obtain ⟨rf, gs, hnd, h⟩ := Node.exists_of_check hchk
  have hr := System.reaches_of_exec hc
  exact ⟨c, rf, gs, hr, hnd, of_decide_eq_true h,
    majority_available (by decide) (Labgob.unary 3) c hr {1, 2} (by decide) 5⟩

end Cluster

end Distsys
