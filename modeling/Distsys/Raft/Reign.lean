import Distsys.Raft.Heartbeat

/-!
# A leader and its followers

A leader that has got a command wants its followers to have the entry, to commit it, and them to
learn of that. Each heartbeat that a follower replies to brings it closer to this: as long as the
logs differ at the index of the call the follower names a smaller one, and once they agree there it
takes over all that the leader has. When all followers of a majority have the entry, the next
heartbeat commits it, since it is of the leader's term; the one after that tells the follower.

The logs of the followers are only known to be from before the election, with the same first entry.
So each of them is either *older*, and all of its entries have smaller terms than the new one, or it
has the new entry at its end.

## Why heartbeats get on

A refusal lowers `nextIndex`, a success sets it to the end of the log, and `pending` measures both.
In these runs the leader hears of no other reply between two heartbeats, so what it knows of a
follower is right. Other followers do not matter for the one that replies, and the one that replies
does not matter for them: `Advances.others`. That makes it possible to deal with one follower after
the other.

## Main definitions

* `Cluster.Mandate` — the leader, its term and log, and the command
* `Cluster.Follows`, `Cluster.Known`, `Cluster.Reign` — a follower, what the leader knows of it, and
  both together
* `Cluster.Advances` — what a heartbeat achieves

## Main results

* `Cluster.Follows.answer` — what a follower replies
* `Cluster.Reign.settle`, `Cluster.Reign.next` — what the leader makes of it
* `Cluster.Reign.can_advance`
-/

namespace Distsys

variable {n : ℕ} {α : Type} {gob : Labgob n α}

namespace Cluster

variable {base : Cfg n α} {Q : Finset (Fin n)} {D : Part n α}

/-- A leader, its term, the log with which it was elected, and a command that it has got since. -/
structure Mandate (n : ℕ) (α : Type) where
  leader : Fin n
  term : ℕ
  /-- The log with which it was elected. -/
  old : List (LogEntry α)
  /-- The command behind it, which is to be applied everywhere. -/
  command : α

namespace Mandate

variable (m : Mandate n α)

/-- The entry for the command. -/
def entry : LogEntry α := ⟨m.term, m.command⟩

/-- Its index. -/
def last : ℕ := m.old.length

def log : List (LogEntry α) := m.old ++ [m.entry]

/-- The log has the entry. -/
def Synced (log : List (LogEntry α)) : Prop :=
  log.length = m.last + 1 ∧ log[m.last]? = some m.entry

variable {m}

theorem length_log : m.log.length = m.last + 1 := List.length_append

theorem getElem?_last : m.log[m.last]? = some m.entry := List.getElem?_concat_length ..

end Mandate

/-- A follower of the leader, and what is known of its goroutines. -/
structure Follows (m : Mandate n α) (q : Fin n) (rf : Raft n α) (X : Set (Goroutine n α)) :
    Prop where
  me : rf.me = q
  phase : rf.phase = .follower
  /-- It may not have heard of the leader yet. -/
  currentTerm : rf.currentTerm ≤ m.term
  lastApplied : rf.lastApplied = 0
  gs : X ⊆ {.applyEntries}
  /-- It knows of no commit, or of that of the command, and then it is about to apply it. -/
  commit : rf.commitIndex = 0 ∨
    rf.commitIndex = m.last ∧ m.Synced rf.log ∧ .applyEntries ∈ X

variable {m : Mandate n α} {q : Fin n} {rf : Raft n α}

theorem Follows.catchUp (gob : Labgob n α) {X : Set (Goroutine n α)} (h : Follows m q rf X) :
    Follows m q (rf.catchUp gob m.term) X ∧ (rf.catchUp gob m.term).log = rf.log := by
  obtain ⟨_, _, heq⟩ := rf.catchUp_eq gob h.currentTerm
  rw [heq]
  exact ⟨⟨h.me, h.phase, le_rfl, h.lastApplied, h.gs, h.commit⟩, rfl⟩

/-- What is known of the goroutines of a follower behind a call. -/
def applying (X : Set (Goroutine n α)) (commits : Bool) : Set (Goroutine n α) :=
  {gr | gr = .applyEntries ∧ (gr ∈ X ∨ commits = true)}

/-- The heartbeats that the peer `q` still has to refuse or accept, at most. -/
def pending (m : Mandate n α) (D : Part n α) (q : Fin n) : ℕ :=
  match GoSlice.get (D.rf m.leader).nextIndex (q : ℕ) with
  | some i => if i = m.last + 1 then 0 else i.toNat
  | none => 0

/-- What a heartbeat that `q` replies to has changed. -/
structure Advances (m : Mandate n α) (Q : Finset (Fin n)) (q : Fin n) (D D' : Part n α) :
    Prop where
  /-- For the other followers nothing has changed. -/
  others : ∀ p, p ≠ m.leader → p ≠ q → D'.rf p = D.rf p ∧ pending m D' p = pending m D p
  /-- The follower has the entry now, or is closer to it. -/
  pending : pending m D' q = 0 ∨ Cluster.pending m D' q < Cluster.pending m D q
  /-- The leader does not take back a commit. -/
  commit : (D.rf m.leader).commitIndex = m.last → (D'.rf m.leader).commitIndex = m.last
  /-- It commits once all of the majority have the entry. -/
  commits : (∀ p ∈ Q, p ≠ m.leader → Cluster.pending m D' p = 0) →
    (D'.rf m.leader).commitIndex = m.last
  /-- A follower that has the entry learns of the commit. -/
  learns : (D.rf m.leader).commitIndex = m.last → Cluster.pending m D q = 0 →
    (D'.rf q).commitIndex = m.last
  trace : D.trace ⊆ D'.trace

/-- A follower that has got the entry keeps it. -/
theorem Advances.pending_eq_zero {D' : Part n α} (h : Advances m Q q D D')
    (hzero : ∀ p ∈ Q, p ≠ m.leader → Cluster.pending m D p = 0) (hq : q ∈ Q) (hne : q ≠ m.leader) :
    ∀ p ∈ Q, p ≠ m.leader → Cluster.pending m D' p = 0 := by
  intro p hp hpL
  rcases eq_or_ne p q with rfl | hpq
  · rcases h.pending with h₀ | hlt
    · exact h₀
    · rw [hzero p hp hpL] at hlt
      exact absurd hlt (Nat.not_lt_zero _)
  · exact (h.others p hpL hpq).2.trans (hzero p hp hpL)

theorem pending_eq {i : ℕ}
    (h : GoSlice.get (D.rf m.leader).nextIndex (q : ℕ) = some (i + 1 : ℤ)) :
    pending m D q = if i = m.last then 0 else i + 1 := by
  rw [pending, h]
  dsimp only
  split <;> split <;> omega

variable [Inhabited α]

namespace Mandate

/-- The log is from before the election. -/
structure Older (m : Mandate n α) (log : List (LogEntry α)) : Prop where
  head : log[0]? = some ⟨0, default⟩
  /-- All entries are of earlier terms than that of the leader. -/
  lt : ∀ e ∈ log, e.term < m.term

theorem Older.ne_nil {log : List (LogEntry α)} (h : m.Older log) : log ≠ [] := by
  rintro rfl
  cases h.head

theorem last_pos (h : m.Older m.old) : 1 ≤ m.last := List.length_pos_of_ne_nil h.ne_nil

/-- Only the entry for the command has the current term. -/
theorem eq_last (h : m.Older m.old) {i : ℤ} {e : LogEntry α} (he : GoSlice.get m.log i = some e)
    (hterm : e.term = m.term) : i = m.last := by
  obtain ⟨k, rfl, hk⟩ := GoSlice.get_eq_some_iff.mp he
  rcases Nat.lt_or_ge k m.last with hlt | hge
  · rw [log, List.getElem?_append_left hlt] at hk
    exact absurd hterm (h.lt e (List.mem_of_getElem? hk)).ne
  · have := (List.getElem?_eq_some_iff.mp hk).1
    rw [length_log] at this
    omega

end Mandate

/-! ### The follower

A follower with an older log refuses with a smaller index, or merges and then has the entry. One
that has the entry accepts. -/

/-- How a follower answers to a call at index `k`. -/
inductive Answer (m : Mandate n α) (k : ℕ) (leaderCommit : ℤ) (r : Raft.AppendResult n α) :
    Prop where
  | success (hsuccess : r.success = true) (hsynced : m.Synced r.rf.log)
      (hcommit : leaderCommit = m.last → r.rf.commitIndex = m.last)
  | refusal (hsuccess : r.success = false) (hindex : 1 ≤ r.nextIndex) (hle : r.nextIndex ≤ k)
      (hk : k < m.last) (holder : m.Older r.rf.log)

section Follower

variable {X : Set (Goroutine n α)} {k : ℕ}
  {prev : LogEntry α} {args : AppendEntriesArgs n α}

/-- The log of a follower behind a call that it has accepted. -/
theorem synced_merge (hcase : k = m.last ∧ m.Synced rf.log ∨ k < m.last ∧ m.Older rf.log)
    {prev' : LogEntry α} (hprev' : rf.log[k]? = some prev') :
    m.Synced (rf.log.take (k + 1) ++ m.log.drop (k + 1)) := by
  have hlen : (rf.log.take (k + 1) ++ m.log.drop (k + 1)).length = _ := length_merge hprev'
  have hk := (List.getElem?_eq_some_iff.mp hprev').1
  have hlog := m.length_log
  rcases hcase with ⟨rfl, hsynced⟩ | ⟨hlt, _⟩
  · rw [List.drop_eq_nil_of_le hlog.le, List.append_nil, ← hsynced.1, List.take_length]
    exact hsynced
  · refine ⟨by rw [hlen, List.length_drop]; omega, ?_⟩
    rw [List.getElem?_append_right (by rw [List.length_take]; omega), List.length_take_of_le hk,
      List.getElem?_drop, show k + 1 + (m.last - (k + 1)) = m.last by omega]
    exact m.getElem?_last

/-- A call never cuts off an entry that it does not contradict. -/
theorem keeps_of_case (hcase : k = m.last ∧ m.Synced rf.log ∨ k < m.last ∧ m.Older rf.log) :
    (rf.log.length : ℤ) ≤ k + 1 + (m.log.drop (k + 1)).length ∨
      ∃ e ∈ (rf.log.drop (k + 1)).zip (m.log.drop (k + 1)), e.1.term ≠ e.2.term := by
  have hlen : (m.log.drop (k + 1)).length = m.last - k := by
    rw [List.length_drop, m.length_log]
    omega
  rcases hcase with ⟨rfl, hsynced⟩ | ⟨hlt, holder⟩
  · exact Or.inl (by rw [hsynced.1]; push_cast; omega)
  · rcases Nat.lt_or_ge m.last rf.log.length with hlong | hshort
    · -- the entry for the command contradicts what is there
      refine Or.inr ⟨(rf.log[m.last], m.entry), ?_, (holder.lt _ (List.getElem_mem hlong)).ne⟩
      refine List.mem_iff_getElem?.mpr ⟨m.last - (k + 1), List.getElem?_zip_eq_some.mpr ⟨?_, ?_⟩⟩
      · rw [List.getElem?_drop, show k + 1 + (m.last - (k + 1)) = m.last by omega]
        exact List.getElem?_eq_getElem hlong
      · rw [List.getElem?_drop, show k + 1 + (m.last - (k + 1)) = m.last by omega]
        exact m.getElem?_last
    · exact Or.inl (by omega)

section

variable (gob : Labgob n α) (h : Follows m q rf X) (hold : m.Older m.old)
  (hcase : k = m.last ∧ m.Synced rf.log ∨ k < m.last ∧ m.Older rf.log)
  (hprev : m.log[k]? = some prev) {leaderCommit : ℤ}
  (hargs : args = ⟨m.term, m.leader, k, prev.term, m.log.drop (k + 1), leaderCommit⟩)

include h hold hcase hargs in
/-- A follower that has the previous entry takes the entries of the leader, and applies what it did
not know to be committed. -/
theorem Follows.accepts (hcommit : leaderCommit = 0 ∨ leaderCommit = m.last) {prev' : LogEntry α}
    (hprev' : rf.log[k]? = some prev') (hterm : prev'.term = prev.term) :
    ∃ r, rf.appendEntries gob args = some r ∧ Answer m k leaderCommit r ∧
      Follows m q r.rf (applying X r.commits) := by
  have hpos := m.last_pos hold
  have hsynced := synced_merge hcase hprev'
  have hindex : args.prevLogIndex = k := by rw [hargs]
  have hmerge := Raft.appendEntries_merges gob hindex hprev' (by rw [hterm, hargs])
  have hlen : (k : ℤ) + args.entries.length = m.last := by
    rw [hargs, List.length_drop, m.length_log]
    rcases hcase with ⟨rfl, _⟩ | ⟨hlt, _⟩ <;> omega
  rw [hlen] at hmerge
  subst hargs
  refine ⟨_, hmerge, .success rfl hsynced fun hc => ?_,
    ⟨h.me, h.phase, h.currentTerm, h.lastApplied, fun gr hgr => hgr.1, ?_⟩⟩
  · rcases h.commit with hc' | ⟨hc', _⟩ <;> simp [Raft.persist, hc, hc']
  · rcases h.commit with hc' | ⟨hc', _, happly⟩
    · rcases hcommit with hc | hc
      · exact Or.inl (by simp [Raft.persist, hc, hc'])
      · refine Or.inr ⟨by simp [Raft.persist, hc, hc'], hsynced, rfl, Or.inr ?_⟩
        simp [hc, hc']
        omega
    · refine Or.inr ⟨?_, hsynced, rfl, Or.inl happly⟩
      rcases hcommit with hc | hc <;> simp [Raft.persist, hc, hc']

include hold hcase hprev in
/-- The heads of the logs agree, and the last index of the leader is only asked for if the follower
has the entry. -/
theorem Follows.lt_last_of_refusal
    (hrefuse : ∀ prev', rf.log[k]? = some prev' → prev'.term ≠ prev.term) :
    1 ≤ k ∧ k < m.last ∧ m.Older rf.log := by
  rcases hcase with ⟨rfl, hsynced⟩ | ⟨hlt, holder⟩
  · cases hprev.symm.trans m.getElem?_last
    exact absurd rfl (hrefuse m.entry hsynced.2)
  · refine ⟨Nat.one_le_iff_ne_zero.mpr ?_, hlt, holder⟩
    rintro rfl
    rw [Mandate.log, List.getElem?_append_left hlt, hold.head] at hprev
    cases hprev
    exact absurd rfl (hrefuse _ holder.head)

include h hold hcase hprev hargs in
/-- A follower that does not have the previous entry keeps its log. -/
theorem Follows.refuses
    (hrefuse : ∀ prev', rf.log[k]? = some prev' → prev'.term ≠ prev.term) :
    ∃ r, rf.appendEntries gob args = some r ∧ Answer m k leaderCommit r ∧
      Follows m q r.rf (applying X r.commits) := by
  obtain ⟨hk, hlt, holder⟩ := Follows.lt_last_of_refusal hold hcase hprev hrefuse
  have hindex : args.prevLogIndex = k := by rw [hargs]
  obtain ⟨i, hr, hi, hik⟩ := Raft.appendEntries_refuses gob hindex hk holder.ne_nil
    fun prev' hprev' hterm => hrefuse prev' hprev' (by rw [hterm, hargs])
  refine ⟨_, hr, .refusal rfl hi hik hlt holder,
    ⟨h.me, h.phase, h.currentTerm, h.lastApplied, fun gr hgr => hgr.1, ?_⟩⟩
  rcases h.commit with hc | ⟨hc, hsynced, happly⟩
  · exact Or.inl hc
  · exact Or.inr ⟨hc, hsynced, rfl, Or.inl happly⟩

include h hold hcase hprev hargs in
/-- A follower answers. -/
theorem Follows.answer (hcommit : leaderCommit = 0 ∨ leaderCommit = m.last) :
    ∃ r, rf.appendEntries gob args = some r ∧ Answer m k leaderCommit r ∧
      Follows m q r.rf (applying X r.commits) := by
  by_cases haccept : ∃ prev', rf.log[k]? = some prev' ∧ prev'.term = prev.term
  · obtain ⟨prev', hprev', hterm⟩ := haccept
    exact h.accepts gob hold hcase hargs hcommit hprev' hterm
  · exact h.refuses gob hold hcase hprev hargs fun prev' hprev' hterm =>
      haccept ⟨prev', hprev', hterm⟩

end

end Follower

/-! ### The leader

It adjusts the indices of the follower that has replied. The other slots of `replies` have the zero
value, which is no success and has no positive `NextIndex`, and are skipped. -/

/-- What the leader knows of a follower with this log. -/
inductive Known (m : Mandate n α) (leader : Raft n α) (q : Fin n) (log : List (LogEntry α)) :
    Prop where
  | synced (hnext : GoSlice.get leader.nextIndex (q : ℕ) = some (m.last + 1 : ℤ))
      (hmatch : GoSlice.get leader.matchIndex (q : ℕ) = some (m.last : ℤ)) (hlog : m.Synced log)
  | older {i : ℕ} (hnext : GoSlice.get leader.nextIndex (q : ℕ) = some (i + 1 : ℤ))
      (hi : i < m.last) (hlog : m.Older log)

/-- `L` is the leader and its next heartbeat has the number `b`. -/
structure Reign (m : Mandate n α) (Q : Finset (Fin n)) (b : ℕ) (D : Part n α) : Prop where
  me : (D.rf m.leader).me = m.leader
  phase : (D.rf m.leader).phase = .leader
  currentTerm : (D.rf m.leader).currentTerm = m.term
  log : (D.rf m.leader).log = m.log
  lastApplied : (D.rf m.leader).lastApplied = 0
  /-- `nextIndex` and `matchIndex` have a slot for each peer. -/
  sized : (D.rf m.leader).Sized
  pos : ∀ i ∈ (D.rf m.leader).nextIndex, 1 ≤ i
  gs : .heartbeat m.term b ∈ D.gs m.leader
  /-- Nothing is committed yet, or the command is and will be applied. -/
  commit : (D.rf m.leader).commitIndex = 0 ∨
    (D.rf m.leader).commitIndex = m.last ∧ .applyEntries ∈ D.gs m.leader
  peers : ∀ q ∈ Q, q ≠ m.leader →
    Follows m q (D.rf q) (D.gs q) ∧ Known m (D.rf m.leader) q (D.rf q).log

section Leader

/-- The commit phase of the leader. -/
theorem commit_cases (rf : Raft n α) (hn : 2 ≤ n) (hold : m.Older m.old)
    (hterm : rf.currentTerm = m.term) (hlog : rf.log = m.log)
    (hcommit : rf.commitIndex = 0 ∨ rf.commitIndex = m.last) :
    ∃ rf' commits, rf.commitPhase = some (rf', commits) ∧
      (rf' = rf ∧ commits = false ∧
          (n < 2 * (rf.matched m.last).card → rf.commitIndex = m.last) ∨
        rf' = { rf with commitIndex := m.last } ∧ commits = true) := by
  have hpos := m.last_pos hold
  obtain ⟨k, hk, ⟨hphase, hnone⟩ | ⟨i, hphase, _, _, ⟨e, he, ht⟩, _⟩⟩ :=
    Raft.commitPhase_spec hn rf (by omega)
  · refine ⟨rf, false, hphase, Or.inl ⟨rfl, rfl, fun hmatched => ?_⟩⟩
    by_contra hne
    have hle := (Raft.le_sortedMatchIndex_iff hk (i := (m.last : ℤ)) (by omega)).mpr hmatched
    refine hnone m.last (by omega) hle ⟨m.entry, ?_, hterm.symm⟩
    rw [hlog, GoSlice.get_natCast]
    exact m.getElem?_last
  · obtain rfl := m.eq_last hold (hlog ▸ he) (ht.trans hterm)
    exact ⟨_, true, hphase, Or.inr ⟨rfl, rfl⟩⟩

variable {b : ℕ}

/-- The end of a heartbeat to which only `q` has replied. -/
theorem Reign.settle (h : Reign m Q b D) (hn : 2 ≤ n) (hold : m.Older m.old) (hne : q ≠ m.leader)
    (reply : AppendEntriesReply) (hreply : reply.success = false → 1 ≤ reply.nextIndex) :
    ∃ nextIndex matchIndex commitIndex commits,
      ((D.rf m.leader).adjustIndices ((D.rf m.leader).log.length - 1)
        ((List.replicate n default).set q reply)).bind Raft.commitPhase =
          some ({ D.rf m.leader with nextIndex, matchIndex, commitIndex }, commits) ∧
      nextIndex = (D.rf m.leader).nextIndex.set q
        (if reply.success then m.last + 1 else reply.nextIndex) ∧
      matchIndex = (if reply.success then (D.rf m.leader).matchIndex.set q m.last
        else (D.rf m.leader).matchIndex) ∧
      (commitIndex = (D.rf m.leader).commitIndex ∧ commits = false ∧
          (n < 2 * (Raft.matched { D.rf m.leader with matchIndex } m.last).card →
            commitIndex = m.last) ∨
        commitIndex = m.last ∧ commits = true) := by
  have hlast : ((D.rf m.leader).log.length : ℤ) - 1 = m.last := by
    rw [h.log, m.length_log]
    omega
  have hnext : (q : ℕ) < (D.rf m.leader).nextIndex.length := h.sized.1.symm ▸ q.isLt
  have hmatch : (q : ℕ) < (D.rf m.leader).matchIndex.length := h.sized.2.symm ▸ q.isLt
  have hslot : ((List.replicate n default).set (q : ℕ) reply)[(q : ℕ)]? = some reply :=
    List.getElem?_set_self (by simp)
  rw [Raft.adjustIndices_set (h.me.symm ▸ hne), hlast]
  -- the indices, and then the commit phase with whatever they are
  obtain ⟨nextIndex, matchIndex, hadjust, hni, hmi⟩ : ∃ nextIndex matchIndex,
      Raft.adjustIndex m.last ((List.replicate n default).set q reply) (D.rf m.leader) q =
        some { D.rf m.leader with nextIndex, matchIndex } ∧
      nextIndex = (D.rf m.leader).nextIndex.set q
        (if reply.success then m.last + 1 else reply.nextIndex) ∧
      matchIndex = if reply.success then (D.rf m.leader).matchIndex.set q m.last
        else (D.rf m.leader).matchIndex := by
    cases hs : reply.success with
    | true => exact ⟨_, _, Raft.adjustIndex_success hslot hnext hmatch hs, rfl, rfl⟩
    | false => exact ⟨_, _, Raft.adjustIndex_refusal hslot hnext hs (hreply hs), rfl, rfl⟩
  obtain ⟨rf', commits, hphase, hcase⟩ := commit_cases { D.rf m.leader with nextIndex, matchIndex }
    hn hold h.currentTerm h.log (h.commit.imp_right And.left)
  rw [hadjust, Option.bind_some]
  refine ⟨_, _, rf'.commitIndex, commits, hphase.trans ?_, hni, hmi, ?_⟩
  · rcases hcase with ⟨rfl, _⟩ | ⟨rfl, _⟩ <;> rfl
  · rcases hcase with ⟨rfl, hc, hm⟩ | ⟨rfl, hc⟩
    · exact Or.inl ⟨rfl, hc, hm⟩
    · exact Or.inr ⟨rfl, hc⟩

/-- The index at which the leader calls `q`. -/
theorem Known.index {log : List (LogEntry α)} (h : Known m rf q log) :
    ∃ k : ℕ, GoSlice.get rf.nextIndex (q : ℕ) = some (k + 1 : ℤ) ∧
      (k = m.last ∧ m.Synced log ∨ k < m.last ∧ m.Older log) := by
  cases h with
  | synced hnext _ hlog => exact ⟨m.last, hnext, Or.inl ⟨rfl, hlog⟩⟩
  | older hnext hi hlog => exact ⟨_, hnext, Or.inr ⟨hi, hlog⟩⟩

/-- A follower without pending heartbeats has the entry, and the leader knows it. -/
theorem Known.synced_of_pending {log : List (LogEntry α)} (h : Known m (D.rf m.leader) q log)
    (hzero : pending m D q = 0) :
    GoSlice.get (D.rf m.leader).matchIndex (q : ℕ) = some (m.last : ℤ) ∧ m.Synced log := by
  cases h with
  | synced _ hmatch hlog => exact ⟨hmatch, hlog⟩
  | older hnext hi _ =>
    rw [pending_eq hnext, if_neg hi.ne] at hzero
    omega

section Beaten

variable {D' : Part n α} {k : ℕ} {r : Raft.AppendResult n α} {nextIndex matchIndex : List ℤ}
  {commitIndex : ℤ} {commits : Bool} {XL Xq : Set (Goroutine n α)}
  (hbeaten : Beaten m.leader q { D.rf m.leader with nextIndex, matchIndex, commitIndex } r.rf
    XL Xq D D')
  (hni : nextIndex = (D.rf m.leader).nextIndex.set q
    (if r.success then m.last + 1 else r.nextIndex))
  (hmi : matchIndex = if r.success then (D.rf m.leader).matchIndex.set q m.last
    else (D.rf m.leader).matchIndex)

include hbeaten hni

omit [Inhabited α] in
/-- What is known about other followers. -/
theorem Beaten.get_nextIndex_of_ne {p : Fin n} (hp : p ≠ q) :
    GoSlice.get (D'.rf m.leader).nextIndex (p : ℕ) =
      GoSlice.get (D.rf m.leader).nextIndex (p : ℕ) := by
  rw [hbeaten.leader, GoSlice.get_natCast, GoSlice.get_natCast, hni,
    List.getElem?_set_ne fun heq => hp (Fin.ext heq.symm)]

theorem Beaten.get_nextIndex (h : Reign m Q b D) :
    GoSlice.get (D'.rf m.leader).nextIndex (q : ℕ) =
      some (if r.success then (m.last + 1 : ℤ) else r.nextIndex) := by
  have hlt : (q : ℕ) < (D.rf m.leader).nextIndex.length := h.sized.1.symm ▸ q.isLt
  rw [hbeaten.leader, GoSlice.get_natCast, hni, List.getElem?_set_self hlt]

include hmi

theorem Beaten.known (h : Reign m Q b D) {leaderCommit : ℤ} (hanswer : Answer m k leaderCommit r)
    {p : Fin n} (hp : p ≠ m.leader) (hknown : Known m (D.rf m.leader) p (D.rf p).log) :
    Known m (D'.rf m.leader) p (D'.rf p).log := by
  rcases eq_or_ne p q with rfl | hpq
  · have hget := hbeaten.get_nextIndex hni h
    rw [hbeaten.follower]
    cases hanswer with
    | success hsuccess hsynced _ =>
      refine .synced (by rw [hget, hsuccess]; rfl) ?_ hsynced
      have hlt : (p : ℕ) < (D.rf m.leader).matchIndex.length := h.sized.2.symm ▸ p.isLt
      rw [hbeaten.leader, GoSlice.get_natCast, hmi, hsuccess, if_pos rfl,
        List.getElem?_set_self hlt]
    | refusal hsuccess hindex hle hk holder =>
      refine .older (i := (r.nextIndex - 1).toNat) ?_ (by omega) holder
      rw [hget, hsuccess]
      exact congrArg some (by simp; omega)
  · rw [(hbeaten.others p hp hpq).1]
    have hget := hbeaten.get_nextIndex_of_ne hni hpq
    cases hknown with
    | synced hnext hmatch hlog =>
      refine .synced (hget.trans hnext) ?_ hlog
      rw [hbeaten.leader, GoSlice.get_natCast, hmi]
      split
      · rw [List.getElem?_set_ne fun heq => hpq (Fin.ext heq.symm), ← GoSlice.get_natCast]
        exact hmatch
      · rw [← GoSlice.get_natCast]
        exact hmatch
    | older hnext hi hlog => exact .older (hget.trans hnext) hi hlog

/-- The reign goes on. -/
theorem Reign.next (h : Reign m Q b D) {leaderCommit : ℤ} (hanswer : Answer m k leaderCommit r)
    (hfollows : Follows m q r.rf Xq)
    (hXL : XL = {gr | gr = .heartbeat m.term (b + 1) ∨
      gr = .applyEntries ∧ (gr ∈ D.gs m.leader ∨ commits = true)})
    (hci : commitIndex = (D.rf m.leader).commitIndex ∨ commitIndex = m.last ∧ commits = true) :
    Reign m Q (b + 1) D' := by
  constructor
  case me => rw [hbeaten.leader]; exact h.me
  case phase => rw [hbeaten.leader]; exact h.phase
  case currentTerm => rw [hbeaten.leader]; exact h.currentTerm
  case log => rw [hbeaten.leader]; exact h.log
  case lastApplied => rw [hbeaten.leader]; exact h.lastApplied
  case sized =>
    rw [hbeaten.leader, hni, hmi]
    refine ⟨(List.length_set ..).trans h.sized.1, ?_⟩
    dsimp only
    split
    · exact (List.length_set ..).trans h.sized.2
    · exact h.sized.2
  case pos =>
    rw [hbeaten.leader, hni]
    intro i hi
    rcases List.mem_or_eq_of_mem_set hi with hi | rfl
    · exact h.pos i hi
    · cases hanswer with
      | success hsuccess => rw [hsuccess, if_pos rfl]; omega
      | refusal hsuccess hindex => rw [hsuccess]; exact hindex
  case gs =>
    rw [hbeaten.leaderGs, hXL]
    exact Or.inl rfl
  case commit =>
    rw [hbeaten.leader, hbeaten.leaderGs, hXL]
    rcases hci with rfl | ⟨rfl, hcommits⟩
    · exact h.commit.imp_right fun ⟨hc, happly⟩ => ⟨hc, Or.inr ⟨rfl, Or.inl happly⟩⟩
    · exact Or.inr ⟨rfl, Or.inr ⟨rfl, Or.inr hcommits⟩⟩
  case peers =>
    intro p hp hne
    refine ⟨?_, hbeaten.known hni hmi h hanswer hne (h.peers p hp hne).2⟩
    rcases eq_or_ne p q with rfl | hpq
    · rw [hbeaten.follower, hbeaten.followerGs]
      exact hfollows
    · obtain ⟨hrf, hgs⟩ := hbeaten.others p hne hpq
      rw [hrf, hgs]
      exact (h.peers p hp hne).1

omit hmi in
/-- What the heartbeat has changed. -/
theorem Beaten.advances (h : Reign m Q b D) (h' : Reign m Q (b + 1) D')
    (hQ : n < 2 * Q.card)
    (hnext : GoSlice.get (D.rf m.leader).nextIndex (q : ℕ) = some (k + 1 : ℤ))
    (hanswer : Answer m k (D.rf m.leader).commitIndex r)
    (hci : commitIndex = (D.rf m.leader).commitIndex ∧
        (n < 2 * (Raft.matched { D.rf m.leader with matchIndex } m.last).card →
          commitIndex = m.last) ∨ commitIndex = m.last) : Advances m Q q D D' := by
  constructor
  case others =>
    intro p hne hpq
    refine ⟨(hbeaten.others p hne hpq).1, ?_⟩
    rw [pending, hbeaten.get_nextIndex_of_ne hni hpq]
    rfl
  case pending =>
    have hget := hbeaten.get_nextIndex hni h
    cases hanswer with
    | success hsuccess =>
      rw [hsuccess, if_pos rfl] at hget
      exact Or.inl ((pending_eq hget).trans (if_pos rfl))
    | refusal hsuccess hindex hle hk =>
      have hget' : GoSlice.get (D'.rf m.leader).nextIndex (q : ℕ) =
          some (((r.nextIndex - 1).toNat : ℕ) + 1 : ℤ) := by
        rw [hget, hsuccess]
        exact congrArg some (by simp; omega)
      rw [pending_eq hget', pending_eq hnext, if_neg (by omega), if_neg (by omega)]
      exact Or.inr (by omega)
  case commit =>
    intro hc
    rw [hbeaten.leader]
    rcases hci with ⟨hci, _⟩ | hci
    · exact hci.trans hc
    · exact hci
  case commits =>
    intro hall
    rw [hbeaten.leader]
    rcases hci with ⟨_, hci⟩ | hci
    · refine hci (hQ.trans_le (Nat.mul_le_mul_left 2 (Finset.card_le_card fun p hp => ?_)))
      -- the leader knows of all peers of `Q` that they have the entry
      refine Raft.mem_matched.mpr ?_
      rcases eq_or_ne p m.leader with rfl | hne
      · exact Or.inl h.me.symm
      · have hmatch := ((h'.peers p hp hne).2.synced_of_pending (hall p hp hne)).1
        rw [hbeaten.leader] at hmatch
        exact Or.inr ⟨_, hmatch, le_rfl⟩
    · exact hci
  case learns =>
    intro hc hzero
    rw [hbeaten.follower]
    cases hanswer with
    | success _ _ hcommit => exact hcommit hc
    | refusal _ _ _ hk =>
      rw [pending_eq hnext, if_neg hk.ne] at hzero
      omega
  case trace => exact hbeaten.trace

end Beaten

variable [DecidableEq α]

/-- **A heartbeat brings `q` closer to the leader.** -/
theorem Reign.can_advance (h : Reign m Q b D) (hn : 2 ≤ n) (hold : m.Older m.old)
    (hQ : n < 2 * Q.card) (hL : m.leader ∈ Q) (hq : q ∈ Q) (hne : q ≠ m.leader) :
    (system gob).Can Proper (Holds base Q D) fun c =>
      ∃ D', Holds base Q D' c ∧ Reign m Q (b + 1) D' ∧ Advances m Q q D D' := by
  obtain ⟨hfollows, hknown⟩ := h.peers q hq hne
  obtain ⟨k, hnext, hcase⟩ := hknown.index
  have hne_nil : (D.rf m.leader).log ≠ [] := by
    rw [h.log, Mandate.log]
    simp
  have hcalls := h.sized.appendEntriesArgs h.pos hne_nil
  obtain ⟨args, hargs⟩ := hcalls q
  obtain ⟨i, k', prev, hi, hk', hprev, hargs'⟩ := Raft.appendEntriesArgs_eq_some hargs
  cases hnext.symm.trans hi
  rw [h.log, m.length_log] at hk'
  obtain rfl : k' = k := by
    rcases hcase with ⟨rfl, _⟩ | ⟨hlt, _⟩ <;> omega
  rw [h.log] at hprev
  rw [h.me, h.currentTerm, h.log] at hargs'
  obtain ⟨hcatch, hcatchLog⟩ := hfollows.catchUp gob
  obtain ⟨r, hr, hanswer, hfollows'⟩ := hcatch.answer gob hold (hcatchLog.symm ▸ hcase) hprev
    hargs' (h.commit.imp_right And.left)
  obtain ⟨nextIndex, matchIndex, commitIndex, commits, hsettle, hni, hmi, hci⟩ :=
    h.settle hn hold hne ⟨(D.rf q).currentTerm, r.success, r.nextIndex⟩ (by
      intro hs
      cases hanswer with
      | success hsuccess => cases hsuccess.symm.trans hs
      | refusal _ hindex => exact hindex)
  refine (can_beat hL hq hne h.me h.phase h.gs (fun gr hgr => ?_) (fun ID _ => hcalls ID) hargs
    hfollows.gs (fun _ => hfollows.phase) (h.currentTerm.symm ▸ hfollows.currentTerm)
    (h.currentTerm.symm ▸ hr) (fun call hcall => ?_) hsettle).trans
    (System.Can.of_imp fun c ⟨D', hD', hbeaten, _⟩ => ?_)
  · exact allows_of_fits (fits_heartbeat (hgr.trans (congrArg some h.currentTerm.symm)))
  · obtain ⟨_, _, heq⟩ := (D.rf q).catchUp_eq gob (h.currentTerm.symm ▸ hfollows.currentTerm)
    rw [heq]
    refine allows_of_fits (fits_appendEntries ?_ fun _ => ?_)
    · rw [hcall, hargs']
      exact h.currentTerm
    · rw [hcall, hargs']
      exact keeps_of_case hcase
  · have h' := Reign.next hbeaten hni hmi h hanswer hfollows' rfl (hci.imp_left And.left)
    refine ⟨D', hD', h', hbeaten.advances hni h h' hQ hnext hanswer ?_⟩
    exact hci.imp (fun ⟨hc, _, hm⟩ => ⟨hc, hm⟩) And.left

end Leader

end Cluster

end Distsys
