import Mathlib.Data.Finset.Card
import Mathlib.Data.List.Dedup
import Distsys.Raft.UnaryGob
import Distsys.Raft.WellFormed

/-!
# Fast log backup

A leader does not know where the log of a follower departs from its own, and probes downwards from
`nextIndex`. A follower that refuses does not answer "one less": it names the start of the run of
entries that have the conflicting term, or the end of its log if that is too short. A probe below
that start meets a smaller term of the follower. So apart from the first refusal of a log that is
too short, each refusal uses up one of the follower's terms, and the entry at index `0`, which all
logs share, is always accepted.

The logs here are any two logs whose terms go up, not only those of a run. That an exchange is what
two peers of a cluster do, step by step, is `Cluster.reaches_exchange`; it is proved where the rules
for such steps are.

## What counts as a refusal

The first message after an election has `PrevLogIndex` at the end of the leader's log. A follower
with a shorter log names the end of its own, and this refusal uses up none of its terms. From then
on `PrevLogIndex` is inside both logs. A refusal there has a term that is not the leader's, and
names the start of the run of this term. The next probe is below the start; if it is refused again,
then with a smaller term.

So there are at most as many refusals as the follower has terms, and one more. The bound does not
depend on the length of the logs.

## Main definitions

* `Raft.exchange` — one `AppendEntries` call, from the arguments to the adjusted indices
* `Raft.backup` — exchanges until one succeeds
* `Ascending`, `distinctTerms`, `LogsMatch` — what is assumed of the logs, and what counts

## Main results

* `Raft.exchange_outcome` — the inversion of an exchange
* `Raft.backup_converges`
-/

namespace Distsys

variable {n : ℕ} {α : Type}

/-! ### Logs

What matters of a log are its terms, in the order of the indices. They fall into runs of equal ones,
and there is one run for each term. -/

/-- The terms along a log: `0` at the entry at index `0`, and not falling from `1` on after it. -/
structure Ascending (log : List (LogEntry α)) : Prop where
  /-- Every log begins with the empty entry of `Make`. -/
  head : ∃ e, log[0]? = some e ∧ e.term = 0
  /-- Other entries are of a term in which somebody was elected. -/
  pos : ∀ (i : ℕ) (e : LogEntry α), 1 ≤ i → log[i]? = some e → 1 ≤ e.term
  sorted : log.Pairwise fun e e' => e.term ≤ e'.term

/-- The same as a check of the list. -/
theorem ascending_iff {log : List (LogEntry α)} :
    Ascending log ↔ (log[0]?.map LogEntry.term = some 0 ∧ ∀ e ∈ log.drop 1, 1 ≤ e.term) ∧
      log.Pairwise fun e e' => e.term ≤ e'.term := by
  constructor
  · intro h
    obtain ⟨e₀, he₀, h₀⟩ := h.head
    refine ⟨⟨by rw [he₀, Option.map_some, h₀], fun e he => ?_⟩, h.sorted⟩
    obtain ⟨i, hi⟩ := List.mem_iff_getElem?.mp he
    rw [List.getElem?_drop] at hi
    exact h.pos (1 + i) e (by omega) hi
  · rintro ⟨⟨hhead, hpos⟩, hsorted⟩
    refine ⟨Option.map_eq_some_iff.mp hhead, fun i e hi he => hpos e ?_, hsorted⟩
    refine List.mem_iff_getElem?.mpr ⟨i - 1, ?_⟩
    rw [List.getElem?_drop, show 1 + (i - 1) = i by omega]
    exact he

instance (log : List (LogEntry α)) : Decidable (Ascending log) :=
  decidable_of_iff _ ascending_iff.symm

/-- The number of terms other than `0` in a log. -/
def distinctTerms (log : List (LogEntry α)) : ℕ :=
  ((log.map LogEntry.term).toFinset.erase 0).card

/-- Two logs that have an entry of the same term at an index are equal up to it. -/
def LogsMatch (F L : List (LogEntry α)) : Prop :=
  ∀ (i : ℕ) (e e' : LogEntry α), F[i]? = some e → L[i]? = some e' → e.term = e'.term →
    ∀ j ≤ i, F[j]? = L[j]?

theorem LogsMatch.take_eq {F L : List (LogEntry α)} (h : LogsMatch F L) {p : ℕ}
    {e e' : LogEntry α} (hF : F[p]? = some e) (hL : L[p]? = some e') (hterm : e.term = e'.term) :
    F.take (p + 1) = L.take (p + 1) := by
  refine List.ext_getElem? fun j => ?_
  by_cases hj : j < p + 1
  · rw [List.getElem?_take_of_lt hj, List.getElem?_take_of_lt hj]
    exact h p e e' hF hL hterm j (by omega)
  · rw [List.getElem?_take_eq_none (not_lt.mp hj), List.getElem?_take_eq_none (not_lt.mp hj)]

theorem terms_subset {F F' : List (LogEntry α)} (h : F.Sublist F') :
    (F.map LogEntry.term).toFinset.erase 0 ⊆ (F'.map LogEntry.term).toFinset.erase 0 := by
  refine Finset.erase_subset_erase 0 fun t ht => ?_
  rw [List.mem_toFinset] at ht ⊢
  exact (h.map _).subset ht

namespace Ascending

variable {F : List (LogEntry α)}

theorem le_of_le (h : Ascending F) {i j : ℕ} {e e' : LogEntry α} (hi : F[i]? = some e)
    (hj : F[j]? = some e') (hij : i ≤ j) : e.term ≤ e'.term := by
  obtain ⟨hi', rfl⟩ := List.getElem?_eq_some_iff.mp hi
  obtain ⟨hj', rfl⟩ := List.getElem?_eq_some_iff.mp hj
  rcases Nat.lt_or_eq_of_le hij with hlt | rfl
  · exact List.pairwise_iff_getElem.mp h.sorted i j hi' hj' hlt
  · exact le_refl _

theorem pos_of_ne (h : Ascending F) {p : ℕ} {e : LogEntry α} (hp : F[p]? = some e)
    (hne : e.term ≠ 0) : 1 ≤ p := by
  by_contra hp₀
  obtain rfl : p = 0 := by omega
  obtain ⟨e₀, he₀, h₀⟩ := h.head
  cases hp.symm.trans he₀
  exact hne h₀

theorem length_pos (h : Ascending F) : 1 ≤ F.length := by
  obtain ⟨e, he, _⟩ := h.head
  exact (List.getElem?_eq_some_iff.mp he).1

/-- Below an entry of a smaller term, a term is missing. -/
theorem distinctTerms_lt (h : Ascending F) {j p : ℕ} {e prev : LogEntry α} (hj : F[j]? = some e)
    (hp : F[p]? = some prev) (hlt : e.term < prev.term) :
    distinctTerms (F.take (j + 1)) < distinctTerms (F.take (p + 1)) := by
  have hjp : j < p := by
    by_contra hge
    exact absurd (h.le_of_le hp hj (not_lt.mp hge)) (not_le.mpr hlt)
  refine Finset.card_lt_card (Finset.ssubset_iff_of_subset ?_ |>.mpr ⟨prev.term, ?_, ?_⟩)
  · exact terms_subset (List.take_sublist_take_left (by omega))
  · refine Finset.mem_erase.mpr ⟨by omega, List.mem_toFinset.mpr (List.mem_map_of_mem ?_)⟩
    exact List.mem_iff_getElem?.mpr ⟨p, by rw [List.getElem?_take_of_lt (Nat.lt_succ_self p), hp]⟩
  · intro ht
    obtain ⟨e', he', ht⟩ := List.mem_map.mp (List.mem_toFinset.mp (Finset.mem_of_mem_erase ht))
    have := term_le_of_mem_take h.sorted hj he'
    omega

end Ascending

theorem distinctTerms_take_le (F : List (LogEntry α)) (k : ℕ) :
    distinctTerms (F.take k) ≤ distinctTerms F :=
  Finset.card_le_card (terms_subset (List.take_sublist k F))

namespace Raft

/-! ### The follower

A refusal of `AppendEntries` comes from one of two branches: the log is too short, or it has another
term at `PrevLogIndex`. In the second one a loop scans down for the start of that term. -/

/-- The scan for the conflicting run stops behind an entry of another term, if there is one. -/
theorem conflictScan_cases (log : List (LogEntry α)) {t : ℕ} {p : ℤ} {k : ℕ}
    (hk : k ≤ log.length) :
    (conflictScan log t p k = some p ∧ ∀ j < k, ∀ e, log[j]? = some e → e.term = t) ∨
      ∃ (i : ℕ) (e : LogEntry α), i < k ∧ log[i]? = some e ∧ e.term ≠ t ∧
        conflictScan log t p k = some (i + 1) := by
  induction k with
  | zero => exact Or.inl ⟨rfl, fun j hj => absurd hj (Nat.not_lt_zero j)⟩
  | succ k ih =>
    have he : log[k]? = some log[k] := List.getElem?_eq_getElem hk
    rw [conflictScan, he]
    dsimp only
    by_cases ht : log[k].term = t
    · rw [if_neg (not_not.mpr ht)]
      rcases ih (by omega) with ⟨hscan, hall⟩ | ⟨i, e, hi, hie, hne, hscan⟩
      · refine Or.inl ⟨hscan, fun j hj e hje => ?_⟩
        rcases Nat.lt_succ_iff_lt_or_eq.mp hj with hj | rfl
        · exact hall j hj e hje
        · cases he.symm.trans hje
          exact ht
      · exact Or.inr ⟨i, e, by omega, hie, hne, hscan⟩
    · rw [if_pos ht]
      exact Or.inr ⟨k, _, Nat.lt_succ_self k, he, ht, rfl⟩

/-- What the body of `AppendEntries` does with a call at index `p`. -/
inductive Answers (gob : Labgob n α) (rf : Raft n α) (args : AppendEntriesArgs n α) (p : ℕ) :
    AppendResult n α → Prop where
  | merge {prev : LogEntry α} {r : AppendResult n α} (hprev : rf.log[p]? = some prev)
      (hterm : prev.term = args.prevLogTerm) (hsuccess : r.success = true)
      (hlog : r.rf.log = rf.log.take (p + 1) ++ args.entries) : Answers gob rf args p r
  | conflict {prev : LogEntry α} {nextIndex : ℤ} (hprev : rf.log[p]? = some prev)
      (hterm : prev.term ≠ args.prevLogTerm)
      (hscan : conflictScan rf.log prev.term p p = some nextIndex) :
    Answers gob rf args p ⟨rf, false, nextIndex, false⟩
  | short (h : rf.log.length ≤ p) : Answers gob rf args p ⟨rf, false, rf.log.length, false⟩

/-- The body of `AppendEntries` does not panic on an index that is not negative. -/
theorem appendEntries_answers (gob : Labgob n α) (rf : Raft n α) {args : AppendEntriesArgs n α}
    {p : ℕ} (hp : args.prevLogIndex = p) :
    ∃ r, rf.appendEntries gob args = some r ∧ Answers gob rf args p r := by
  unfold appendEntries
  rw [hp]
  by_cases hlt : p < rf.log.length
  · have hprev : rf.log[p]? = some rf.log[p] := List.getElem?_eq_getElem hlt
    rw [if_pos (by exact_mod_cast hlt), GoSlice.get_natCast, hprev]
    by_cases hterm : rf.log[p].term = args.prevLogTerm
    · have hkept : GoSlice.upTo rf.log (args.prevLogIndex + 1) = some (rf.log.take (p + 1)) :=
        GoSlice.upTo_eq_some_iff.mpr ⟨p + 1, by omega, hlt, rfl⟩
      have hmerge : ∃ r, rf.mergeLog gob args = some r := by
        simp only [mergeLog, hkept, Option.bind_eq_bind, Option.bind_some]
        split <;> exact ⟨_, rfl⟩
      obtain ⟨r, hr⟩ := hmerge
      refine ⟨r, by simp [hterm, hr], ?_⟩
      obtain ⟨k, hk, _, rfl⟩ := mergeLog_eq_some hr
      obtain rfl : k = p + 1 := by omega
      exact .merge hprev hterm rfl rfl
    · obtain ⟨nextIndex, hscan⟩ : ∃ i, conflictScan rf.log rf.log[p].term p p = some i := by
        rcases conflictScan_cases rf.log (t := rf.log[p].term) (p := (p : ℤ)) hlt.le with
          ⟨h, _⟩ | ⟨_, _, _, _, _, h⟩ <;> exact ⟨_, h⟩
      exact ⟨_, by simp [hterm, hscan], .conflict hprev hterm hscan⟩
  · rw [if_neg (by exact_mod_cast hlt)]
    exact ⟨_, rfl, .short (not_lt.mp hlt)⟩

/-! ### One exchange

The leader is the struct that sends and later adjusts its indices; what happens to it in between is
not part of an exchange. The pieces are those of the source, put one after the other. -/

/-- `termSync`, with the `phaseChange` at the end of it. -/
def termSyncAll (gob : Labgob n α) (rf : Raft n α) (otherTerm : ℕ) : Raft n α × ℤ × ℕ :=
  let r := rf.termSync gob otherTerm
  if r.2.1 = -1 then ((r.1.phaseChange .follower).1, r.2) else r

theorem termSyncAll_self (gob : Labgob n α) (rf : Raft n α) :
    rf.termSyncAll gob rf.currentTerm = (rf, 0, rf.currentTerm) := by
  simp [termSyncAll, termSync]

/-- What an exchange leaves behind. -/
structure Exchange (n : ℕ) (α : Type) where
  args : AppendEntriesArgs n α
  reply : AppendEntriesReply
  /-- The leader, with its indices adjusted. -/
  leader : Raft n α
  /-- The follower, with its log merged if it has accepted. -/
  follower : Raft n α

/-- One call of `AppendEntries` at the peer `ID` with no step of anybody else in between:
`heartbeat` builds the arguments, `AppendEntries` handles them, `sendAppendEntries` takes the reply,
and `heartbeat` adjusts the indices, with no reply of another peer. -/
def exchange (gob : Labgob n α) (ID : Fin n) (leader follower : Raft n α) :
    Option (Exchange n α) := do
  let args ← leader.appendEntriesArgs ID
  let (follower, outcome, myTerm) := follower.termSyncAll gob args.term
  let r ← if outcome ≤ 0 then follower.appendEntries gob args else some ⟨follower, false, 0, false⟩
  let reply : AppendEntriesReply := ⟨myTerm, r.success, r.nextIndex⟩
  let (leader', _) := leader.termSyncAll gob reply.term
  let leader' ← leader'.adjustIndices (leader.log.length - 1)
    ((List.replicate n default).set ID reply)
  return ⟨args, reply, leader', r.rf⟩

/-- The parts of an exchange between peers in the same term. -/
theorem exchange_eq_some {gob : Labgob n α} {ID : Fin n} {leader follower : Raft n α}
    {x : Exchange n α} (hterm : leader.currentTerm = follower.currentTerm)
    (h : exchange gob ID leader follower = some x) :
    ∃ r, leader.appendEntriesArgs ID = some x.args ∧ follower.appendEntries gob x.args = some r ∧
      x.follower = r.rf ∧ x.reply = ⟨follower.currentTerm, r.success, r.nextIndex⟩ ∧
      leader.adjustIndices (leader.log.length - 1) ((List.replicate n default).set ID x.reply) =
        some x.leader := by
  obtain ⟨args, hargs, h⟩ := Option.bind_eq_some_iff.mp h
  have hargsTerm : args.term = follower.currentTerm := by
    obtain ⟨_, _, _, _, _, _, rfl⟩ := appendEntriesArgs_eq_some hargs
    exact hterm
  rw [hargsTerm, termSyncAll_self] at h
  obtain ⟨r, hr, h⟩ := Option.bind_eq_some_iff.mp h
  dsimp only at h
  rw [← hterm, termSyncAll_self] at h
  obtain ⟨leader', hadjust, h⟩ := Option.bind_eq_some_iff.mp h
  cases h
  exact ⟨r, hargs, hr, rfl, by rw [← hterm], hadjust⟩

/-- Exchanges until one succeeds, `k` at most. -/
def backup (gob : Labgob n α) (ID : Fin n) :
    ℕ → Raft n α → Raft n α → Option (List (Exchange n α))
  | 0, _, _ => some []
  | k + 1, leader, follower => do
    let x ← exchange gob ID leader follower
    if x.reply.success then return [x]
    else
      let xs ← backup gob ID k x.leader x.follower
      return x :: xs

/-- A round of the loop of `heartbeat` does nothing for a peer that has not replied. -/
theorem adjustIndex_set_ne {rf : Raft n α} {myLastIndex : ℤ} {reply : AppendEntriesReply}
    {ID F : Fin n} (hne : ID ≠ F) :
    adjustIndex myLastIndex ((List.replicate n default).set ID reply) rf F = some rf := by
  have hreply : GoSlice.get ((List.replicate n default).set ID reply) (F : ℕ) =
      some (default : AppendEntriesReply) := by
    rw [GoSlice.get_natCast, List.getElem?_set_ne fun h => hne (Fin.ext h)]
    exact List.getElem?_replicate_of_lt F.isLt
  rw [adjustIndex, hreply]
  rfl

/-- The loop over the other peers does what its round for the one that has replied does. -/
theorem adjustIndices_set {rf : Raft n α} {myLastIndex : ℤ} {reply : AppendEntriesReply}
    {ID : Fin n} (hID : ID ≠ rf.me) :
    rf.adjustIndices myLastIndex ((List.replicate n default).set ID reply) =
      adjustIndex myLastIndex ((List.replicate n default).set ID reply) rf ID := by
  have hskip : ∀ IDs : List (Fin n), ID ∉ IDs → ∀ r : Raft n α,
      IDs.foldlM (adjustIndex myLastIndex ((List.replicate n default).set ID reply)) r =
        some r := by
    intro IDs hnot r
    induction IDs with
    | nil => rfl
    | cons F IDs ih =>
      obtain ⟨hne, hnot⟩ := not_or.mp (mt List.mem_cons.mpr hnot)
      rw [List.foldlM_cons, adjustIndex_set_ne hne]
      exact ih hnot
  obtain ⟨l₁, l₂, hsplit⟩ := List.append_of_mem (mem_others.mpr hID)
  have hnot : ID ∉ l₁ ++ l₂ := by
    have hnodup : (others rf.me).Nodup := (List.nodup_finRange n).filter _
    rw [hsplit, List.nodup_middle] at hnodup
    exact (List.nodup_cons.mp hnodup).1
  rw [List.mem_append, not_or] at hnot
  rw [adjustIndices, hsplit, List.foldlM_append, hskip l₁ hnot.1]
  show (adjustIndex _ _ rf ID).bind (fun r => l₂.foldlM _ r) = _
  simp only [hskip l₂ hnot.2, Option.bind_fun_some]

/-- The premises of an exchange: a leader that has `nextIndex = i` for the peer `ID`, and that peer,
in the same term. -/
structure Ready (leader follower : Raft n α) (ID : Fin n) (i : ℕ) : Prop where
  ne : ID ≠ leader.me
  /-- Otherwise one of them would learn of a new term, and the exchange would be about that. -/
  term : leader.currentTerm = follower.currentTerm
  leaderLog : Ascending leader.log
  followerLog : Ascending follower.log
  nextIndex : GoSlice.get leader.nextIndex (ID : ℕ) = some (i : ℤ)
  /-- There is a place for what the peer acknowledges. -/
  matchIndex : (ID : ℕ) < leader.matchIndex.length
  /-- The entry before `nextIndex` exists: it is the one whose term is compared. -/
  pos : 1 ≤ i
  le : i ≤ leader.log.length

/-- What a refusal at index `p` can name: the end of a log that is too short, or the index behind an
entry of a smaller term. -/
inductive Refuses (log : List (LogEntry α)) (p j : ℕ) : Prop where
  | short (h : log.length ≤ p) (hj : j + 1 = log.length)
  | conflict {e prev : LogEntry α} (he : log[j]? = some e) (hprev : log[p]? = some prev)
      (hlt : e.term < prev.term)

/-- How an exchange at index `p` ends. -/
inductive Outcome (leader follower : Raft n α) (ID : Fin n) (p : ℕ) : Exchange n α → Prop where
  | success {x : Exchange n α} {prev prev' : LogEntry α} (hsuccess : x.reply.success = true)
      (hindex : x.args.prevLogIndex = p) (hprev : follower.log[p]? = some prev)
      (hprev' : leader.log[p]? = some prev') (hterm : prev.term = prev'.term)
      (hlog : x.follower.log = follower.log.take (p + 1) ++ leader.log.drop (p + 1))
      (hleader : x.leader = { leader with
        nextIndex := leader.nextIndex.set ID leader.log.length
        matchIndex := leader.matchIndex.set ID (leader.log.length - 1) }) :
    Outcome leader follower ID p x
  | refusal {x : Exchange n α} {j : ℕ} (hsuccess : x.reply.success = false)
      (hindex : x.args.prevLogIndex = p) (hreply : x.reply.nextIndex = j + 1) (hj : j + 1 ≤ p)
      (hfollower : x.follower = follower)
      (hleader : x.leader = { leader with nextIndex := leader.nextIndex.set ID (j + 1) })
      (hcase : Refuses follower.log p j) : Outcome leader follower ID p x

/-- Arguments can be built for every positive `nextIndex`, past the end of the log or not. -/
theorem appendEntriesArgs_isSome {rf : Raft n α} {ID : Fin n} {i : ℤ}
    (hnext : GoSlice.get rf.nextIndex (ID : ℕ) = some i) (hi : 1 ≤ i) (hlog : rf.log ≠ []) :
    ∃ args, rf.appendEntriesArgs ID = some args := by
  have hpos := List.length_pos_of_ne_nil hlog
  obtain ⟨prev, hprev⟩ := GoSlice.get_isSome (s := rf.log) (i := min i rf.log.length - 1)
    (by omega) (by omega)
  rw [← Option.isSome_iff_exists]
  by_cases hlt : i < rf.log.length
  · have hsuffix := GoSlice.suffixFrom_eq_some_iff.mpr
      ⟨i.toNat, (by omega : i = i.toNat), (by omega : i.toNat ≤ rf.log.length), rfl⟩
    simp [appendEntriesArgs, hnext, hprev, hlt, hsuffix]
  · simp [appendEntriesArgs, hnext, hprev, hlt]

section

variable {rf : Raft n α} {ID : Fin n} {myLastIndex : ℤ} {replies : List AppendEntriesReply}
  {reply : AppendEntriesReply} (hreply : replies[(ID : ℕ)]? = some reply)
  (hnext : (ID : ℕ) < rf.nextIndex.length)

include hreply hnext

theorem adjustIndex_success (hmatch : (ID : ℕ) < rf.matchIndex.length)
    (h : reply.success = true) :
    adjustIndex myLastIndex replies rf ID = some { rf with
      nextIndex := rf.nextIndex.set ID (myLastIndex + 1)
      matchIndex := rf.matchIndex.set ID myLastIndex } := by
  simp [adjustIndex, hreply, h, GoSlice.set_natCast hnext, GoSlice.set_natCast hmatch]

theorem adjustIndex_refusal (h : reply.success = false) (hpos : 1 ≤ reply.nextIndex) :
    adjustIndex myLastIndex replies rf ID =
      some { rf with nextIndex := rf.nextIndex.set ID reply.nextIndex } := by
  simp [adjustIndex, hreply, h, hpos, GoSlice.set_natCast hnext]

end

theorem Ready.lt_nextIndex {leader follower : Raft n α} {ID : Fin n} {i : ℕ}
    (h : Ready leader follower ID i) : (ID : ℕ) < leader.nextIndex.length := by
  have := GoSlice.get_lt h.nextIndex
  omega

/-- A refusal names an index from `1` to `PrevLogIndex`: the scan stops at the entry at index `0` at
the latest. -/
theorem Ready.conflict {leader follower : Raft n α} {ID : Fin n} {p : ℕ}
    (h : Ready leader follower ID (p + 1)) {prev prev' : LogEntry α} {nextIndex : ℤ}
    (hprev : follower.log[p]? = some prev) (hprev' : leader.log[p]? = some prev')
    (hterm : prev.term ≠ prev'.term)
    (hscan : conflictScan follower.log prev.term p p = some nextIndex) :
    ∃ (j : ℕ) (e : LogEntry α), nextIndex = j + 1 ∧ j < p ∧ follower.log[j]? = some e ∧
      e.term < prev.term := by
  have hp : 1 ≤ p := by
    by_cases h₀ : prev.term = 0
    · exact h.leaderLog.pos_of_ne hprev' fun h₁ => hterm (h₀.trans h₁.symm)
    · exact h.followerLog.pos_of_ne hprev h₀
  have hlt := (List.getElem?_eq_some_iff.mp hprev).1
  rcases conflictScan_cases follower.log (t := prev.term) (p := (p : ℤ)) hlt.le with
    ⟨_, hall⟩ | ⟨j, e, hj, he, hne, hscan'⟩
  · obtain ⟨e₀, he₀, h₀⟩ := h.followerLog.head
    have := hall 0 hp e₀ he₀
    have := h.followerLog.pos p prev hp hprev
    omega
  · have hle := h.followerLog.le_of_le he hprev hj.le
    exact ⟨j, e, Option.some.inj (hscan.symm.trans hscan'), hj, he, by omega⟩

/-- **Inversion of an exchange.** -/
theorem exchange_outcome (gob : Labgob n α) {leader follower : Raft n α} {ID : Fin n} {p : ℕ}
    (h : Ready leader follower ID (p + 1)) :
    ∃ x, exchange gob ID leader follower = some x ∧ Outcome leader follower ID p x := by
  obtain ⟨args, hargs⟩ := appendEntriesArgs_isSome h.nextIndex (by omega)
    (List.ne_nil_of_length_pos h.leaderLog.length_pos)
  obtain ⟨i, k, prev', hi, hk, hprev', heq⟩ := appendEntriesArgs_eq_some hargs
  have hle := h.le
  cases h.nextIndex.symm.trans hi
  obtain rfl : k = p := by omega
  have hindex : args.prevLogIndex = k := by rw [heq]
  have hterm : args.term = follower.currentTerm := by rw [heq, ← h.term]
  have hprevTerm : args.prevLogTerm = prev'.term := by rw [heq]
  have hentries : args.entries = leader.log.drop (k + 1) := by rw [heq]
  obtain ⟨r, hr, hanswer⟩ := appendEntries_answers gob follower hindex
  -- Both sides are in the same term, so that `termSync` does nothing.
  have hx : exchange gob ID leader follower =
      (adjustIndex (leader.log.length - 1)
        ((List.replicate n default).set ID ⟨follower.currentTerm, r.success, r.nextIndex⟩)
        leader ID).bind
        fun leader' =>
          some ⟨args, ⟨follower.currentTerm, r.success, r.nextIndex⟩, leader', r.rf⟩ := by
    rw [← adjustIndices_set h.ne]
    simp only [exchange, hargs, hterm, termSyncAll_self, hr, Option.bind_eq_bind,
      Option.bind_some, le_refl, if_true]
    rw [← h.term, termSyncAll_self]
    rfl
  have hslot : ((List.replicate n default).set ID ⟨follower.currentTerm, r.success, r.nextIndex⟩)[
      (ID : ℕ)]? = some (⟨follower.currentTerm, r.success, r.nextIndex⟩ : AppendEntriesReply) :=
    List.getElem?_set_self (by simp)
  cases hanswer with
  | @merge prev r hprev ht hsuccess hlog =>
    rw [adjustIndex_success hslot h.lt_nextIndex h.matchIndex hsuccess] at hx
    refine ⟨_, hx, .success hsuccess hindex hprev hprev' (ht.trans hprevTerm) ?_ ?_⟩
    · rw [hlog, hentries]
    · simp
  | @conflict prev nextIndex hprev ht hscan =>
    obtain ⟨j, e, rfl, hj, he, hlt⟩ := h.conflict hprev hprev' (hprevTerm ▸ ht) hscan
    have hone : (1 : ℤ) ≤ j + 1 := by omega
    rw [adjustIndex_refusal hslot h.lt_nextIndex rfl hone] at hx
    exact ⟨_, hx, .refusal rfl hindex rfl hj rfl rfl (.conflict he hprev hlt)⟩
  | short hshort =>
    have hpos : (1 : ℤ) ≤ follower.log.length := by exact_mod_cast h.followerLog.length_pos
    rw [adjustIndex_refusal hslot h.lt_nextIndex rfl hpos] at hx
    have hlen : ((follower.log.length - 1 : ℕ) : ℤ) + 1 = follower.log.length := by omega
    exact ⟨_, hx, .refusal rfl hindex hlen.symm (by omega) rfl (by rw [hlen])
      (.short hshort (by omega))⟩

/-! ### Until one succeeds

The induction is on `nextIndex`, which every refusal lowers. The number of exchanges is bounded by
more than that: by the terms in the part of the follower's log that is still in question. -/

section Induction

-- `W leader p k`: from a call at index `p` on, `k` calls are enough
variable {follower : Raft n α} {ID : Fin n} {W : Raft n α → ℕ → ℕ → Prop}
  (hstep : ∀ leader p k, Ready leader follower ID (p + 1) →
    (∀ leader' j, Refuses follower.log p j → Ready leader' follower ID (j + 1) → W leader' j k) →
    W leader p (k + 1))

include hstep

/-- Within the follower's log, every refusal uses up one of its terms. -/
theorem Ready.induction_of_lt {leader : Raft n α} {p k : ℕ} (h : Ready leader follower ID (p + 1))
    (hp : p < follower.log.length) (hk : distinctTerms (follower.log.take (p + 1)) ≤ k) :
    W leader p (k + 1) := by
  induction k generalizing leader p with
  | zero =>
    refine hstep leader p 0 h fun leader' j hcase _ => ?_
    cases hcase with
    | short hge => omega
    | conflict he hprev hlt =>
      have := h.followerLog.distinctTerms_lt he hprev hlt
      omega
  | succ k ih =>
    refine hstep leader p (k + 1) h fun leader' j hcase hready => ?_
    cases hcase with
    | short hge => omega
    | conflict he hprev hlt =>
      have := h.followerLog.distinctTerms_lt he hprev hlt
      exact ih hready (List.getElem?_eq_some_iff.mp he).1 (by omega)

/-- **Induction on a backup.** A log that is too short costs one refusal more. -/
theorem Ready.induction {leader : Raft n α} {p : ℕ} (h : Ready leader follower ID (p + 1)) :
    W leader p (distinctTerms follower.log + 2) := by
  refine hstep leader p (distinctTerms follower.log + 1) h fun leader' j hcase hready => ?_
  have hj : j < follower.log.length := by
    cases hcase with
    | short _ hj => omega
    | conflict he => exact (List.getElem?_eq_some_iff.mp he).1
  exact hready.induction_of_lt hstep hj (distinctTerms_take_le follower.log (j + 1))

end Induction

/-- After a refusal the next exchange is one index lower than the index that was named. -/
theorem Ready.refused {leader follower : Raft n α} {ID : Fin n} {p j : ℕ}
    (h : Ready leader follower ID (p + 1)) (hj : j + 1 ≤ p) :
    Ready { leader with nextIndex := leader.nextIndex.set ID (j + 1) } follower ID (j + 1) where
  ne := h.ne
  term := h.term
  leaderLog := h.leaderLog
  followerLog := h.followerLog
  nextIndex := by
    rw [GoSlice.get_natCast, List.getElem?_set_self h.lt_nextIndex]
    rfl
  matchIndex := h.matchIndex
  pos := Nat.succ_pos j
  le := by
    have := h.le
    show j + 1 ≤ leader.log.length
    omega

/-- The commit phase does not matter. -/
theorem Ready.commit {leader follower : Raft n α} {ID : Fin n} {i : ℕ}
    (h : Ready leader follower ID i) (commitIndex : ℤ) :
    Ready { leader with commitIndex } follower ID i :=
  ⟨h.ne, h.term, h.leaderLog, h.followerLog, h.nextIndex, h.matchIndex, h.pos, h.le⟩

/-- The log of the follower behind a call that it has accepted. -/
theorem Ready.merged {leader follower : Raft n α} {ID : Fin n} {p : ℕ}
    (h : Ready leader follower ID (p + 1)) {prev prev' : LogEntry α}
    (hprev : follower.log[p]? = some prev) (hprev' : leader.log[p]? = some prev')
    (hterm : prev.term = prev'.term) {log : List (LogEntry α)}
    (hlog : log = follower.log.take (p + 1) ++ leader.log.drop (p + 1)) :
    log.length = leader.log.length ∧ (LogsMatch follower.log leader.log → log = leader.log) := by
  constructor
  · have := h.le
    rw [hlog, length_merge hprev, List.length_drop]
    omega
  · intro hmatch
    rw [hlog, hmatch.take_eq hprev hprev' hterm, List.take_append_drop]

/-- What a sequence of exchanges that ends with `x` is to achieve. -/
structure Converges (leader follower : Raft n α) (ID : Fin n) (failed : List (Exchange n α))
    (x : Exchange n α) : Prop where
  /-- A refusal names a positive index up to `PrevLogIndex`. -/
  refused : ∀ y ∈ failed, y.reply.success = false ∧
    1 ≤ y.reply.nextIndex ∧ y.reply.nextIndex ≤ y.args.prevLogIndex
  /-- `PrevLogIndex` goes down. -/
  down : (failed ++ [x]).Pairwise fun y z => z.args.prevLogIndex < y.args.prevLogIndex
  success : x.reply.success = true
  /-- The follower keeps its log up to the place of agreement and has the leader's behind it. -/
  log : ∃ p : ℕ, x.args.prevLogIndex = p ∧
    x.follower.log = follower.log.take (p + 1) ++ leader.log.drop (p + 1)
  length : x.follower.log.length = leader.log.length
  /-- If logs match in the sense of Raft, the two are then equal. -/
  log_eq : LogsMatch follower.log leader.log → x.follower.log = leader.log
  /-- And the leader knows of it. -/
  nextIndex : GoSlice.get x.leader.nextIndex (ID : ℕ) = some (leader.log.length : ℤ)
  matchIndex : GoSlice.get x.leader.matchIndex (ID : ℕ) = some (leader.log.length - 1 : ℤ)

/-- The invariant of the probing: `k` exchanges are enough, and none is above index `p`. -/
def Within (gob : Labgob n α) (leader follower : Raft n α) (ID : Fin n) (p k : ℕ) : Prop :=
  ∃ failed x, backup gob ID k leader follower = some (failed ++ [x]) ∧
    Converges leader follower ID failed x ∧ ∀ y ∈ failed ++ [x], y.args.prevLogIndex ≤ p

section

variable {gob : Labgob n α} {leader follower : Raft n α} {ID : Fin n} {p k : ℕ} {x : Exchange n α}

/-- The last step of a backup. -/
theorem within_of_success (h : Ready leader follower ID (p + 1))
    (hx : exchange gob ID leader follower = some x) {prev prev' : LogEntry α}
    (hsuccess : x.reply.success = true) (hindex : x.args.prevLogIndex = p)
    (hprev : follower.log[p]? = some prev) (hprev' : leader.log[p]? = some prev')
    (hterm : prev.term = prev'.term)
    (hlog : x.follower.log = follower.log.take (p + 1) ++ leader.log.drop (p + 1))
    (hleader : x.leader = { leader with
      nextIndex := leader.nextIndex.set ID leader.log.length
      matchIndex := leader.matchIndex.set ID (leader.log.length - 1) }) :
    Within gob leader follower ID p (k + 1) := by
  refine ⟨[], x, by simp [backup, hx, hsuccess], ?_, by simp [hindex]⟩
  refine
    { refused := fun y hy => absurd hy List.not_mem_nil
      down := List.pairwise_singleton _ _
      success := hsuccess
      log := ⟨p, hindex, hlog⟩
      length := (h.merged hprev hprev' hterm hlog).1
      log_eq := (h.merged hprev hprev' hterm hlog).2
      nextIndex := ?_
      matchIndex := ?_ }
  · rw [hleader, GoSlice.get_natCast, List.getElem?_set_self h.lt_nextIndex]
  · rw [hleader, GoSlice.get_natCast, List.getElem?_set_self h.matchIndex]

/-- The step of a backup that is refused. -/
theorem within_of_refusal {j : ℕ} (hx : exchange gob ID leader follower = some x)
    (hsuccess : x.reply.success = false) (hindex : x.args.prevLogIndex = p)
    (hreply : x.reply.nextIndex = j + 1) (hj : j + 1 ≤ p) (hfollower : x.follower = follower)
    (hleader : x.leader = { leader with nextIndex := leader.nextIndex.set ID (j + 1) })
    (hrest : Within gob { leader with nextIndex := leader.nextIndex.set ID (j + 1) } follower ID
      j k) : Within gob leader follower ID p (k + 1) := by
  obtain ⟨failed, z, hbackup, hconv, hle⟩ := hrest
  refine ⟨x :: failed, z, ?_, ?_, ?_⟩
  · simp [backup, hx, hsuccess, hfollower, hleader, hbackup]
  · refine
      { refused := fun y hy => ?_
        down := List.pairwise_cons.mpr ⟨fun y hy => ?_, hconv.down⟩
        success := hconv.success
        log := hconv.log
        length := hconv.length
        log_eq := hconv.log_eq
        nextIndex := hconv.nextIndex
        matchIndex := hconv.matchIndex }
    · rcases List.mem_cons.mp hy with rfl | hy
      · exact ⟨hsuccess, by omega, by omega⟩
      · exact hconv.refused y hy
    · have := hle y hy
      omega
  · intro y hy
    rcases List.mem_cons.mp hy with rfl | hy
    · exact hindex.le
    · have := hle y hy
      omega

/-- One exchange of a backup. -/
theorem within_succ (gob : Labgob n α) (h : Ready leader follower ID (p + 1))
    (hrest : ∀ leader' j, Refuses follower.log p j → Ready leader' follower ID (j + 1) →
      Within gob leader' follower ID j k) : Within gob leader follower ID p (k + 1) := by
  obtain ⟨x, hx, houtcome⟩ := exchange_outcome gob h
  cases houtcome with
  | success hs hi hprev hprev' ht hlog hl =>
    exact within_of_success h hx hs hi hprev hprev' ht hlog hl
  | refusal hs hi hr hj hf hl hcase =>
    exact within_of_refusal hx hs hi hr hj hf hl (hrest _ _ hcase (h.refused hj))

end

theorem length_backup_le {gob : Labgob n α} {ID : Fin n} {k : ℕ} {leader follower : Raft n α}
    {xs : List (Exchange n α)} (h : backup gob ID k leader follower = some xs) :
    xs.length ≤ k := by
  induction k generalizing leader follower xs with
  | zero => cases h; exact le_refl 0
  | succ k ih =>
    rw [backup] at h
    obtain ⟨x, _, h⟩ := Option.bind_eq_some_iff.mp h
    split at h
    · cases h
      exact Nat.succ_le_succ (Nat.zero_le k)
    · obtain ⟨xs', hxs', h⟩ := Option.bind_eq_some_iff.mp h
      cases h
      exact Nat.succ_le_succ (ih hxs')

/-- **Fast log backup converges**: from any `nextIndex` within the leader's log, some exchange
succeeds after at most as many refusals as the follower has terms, and one. -/
theorem backup_converges (gob : Labgob n α) (leader follower : Raft n α) (ID : Fin n) (i : ℕ)
    (h : Ready leader follower ID i) :
    ∃ failed x, backup gob ID (distinctTerms follower.log + 2) leader follower =
        some (failed ++ [x]) ∧
      (failed ++ [x]).length ≤ distinctTerms follower.log + 2 ∧
      Converges leader follower ID failed x := by
  obtain ⟨p, rfl⟩ := Nat.exists_eq_add_of_le' h.pos
  have hwithin : Within gob leader follower ID p (distinctTerms follower.log + 2) :=
    h.induction (W := fun leader p k => Within gob leader follower ID p k)
      fun _ _ _ => within_succ gob
  obtain ⟨failed, x, hbackup, hconv, _⟩ := hwithin
  exact ⟨failed, x, hbackup, length_backup_le hbackup, hconv⟩

/-- A leader of term `4` whose predecessors of terms `2` and `3` have reached peer `1` only. -/
def newLeader : Raft 3 ℕ where
  persister := []
  me := 0
  phase := .leader
  currentTerm := 4
  votedFor := some 0
  log := [⟨0, 0⟩, ⟨1, 5⟩, ⟨4, 6⟩, ⟨4, 7⟩]
  commitIndex := 0
  lastApplied := 0
  nextIndex := [4, 4, 4]
  matchIndex := [0, 0, 0]

/-- Peer `1`. -/
def oldFollower : Raft 3 ℕ :=
  { newLeader with
    me := 1
    phase := .follower
    log := [⟨0, 0⟩, ⟨1, 5⟩, ⟨2, 8⟩, ⟨2, 9⟩, ⟨3, 1⟩] }

/-- One refusal skips both entries of term `2`. -/
theorem backup_converges_oldFollower :
    Ready newLeader oldFollower 1 4 ∧ distinctTerms oldFollower.log = 3 ∧
      ∃ failed x, backup (Labgob.unary 3) 1 5 newLeader oldFollower = some (failed ++ [x]) ∧
        Converges newLeader oldFollower 1 failed x := by
  have hready : Ready newLeader oldFollower 1 4 :=
    { ne := by decide
      term := rfl
      leaderLog := by decide
      followerLog := by decide
      nextIndex := rfl
      matchIndex := by decide
      pos := by decide
      le := by decide }
  obtain ⟨failed, x, hbackup, _, hconv⟩ :=
    backup_converges (Labgob.unary 3) newLeader oldFollower 1 4 hready
  exact ⟨hready, by decide, failed, x, hbackup, hconv⟩

end Raft

end Distsys
