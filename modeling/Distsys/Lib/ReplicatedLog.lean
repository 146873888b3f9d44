import Mathlib.Data.Finset.Basic
import Mathlib.Data.List.TakeDrop
import Mathlib.Logic.Function.Basic
import Distsys.Lib.TransitionSystem

/-!
# A log replicated by elected leaders

The protocol without messages, timers or crashes. Peers have a term and a log of entries, each
stamped with the term it was created in. A peer stands for a term with the log it has, others vote
for it if their own log is not ahead, and with a quorum of votes it leads the term. The leader
appends entries, other peers take over a part of its log from the start and acknowledge it, and what
a quorum has acknowledged is committed.

The state keeps the history that the argument needs: the log each candidate stood with, the log each
voter voted with, and for each term its *chronicle*, the log of its leader as far as it has grown.
That a term has one leader is part of the protocol; how this is achieved is not.

## Keeping what was taken over

A peer that takes over a short part of the chronicle may thereby drop entries that it has
acknowledged before. `Keeps` asks that this does not happen: a log that starts with what it is given
is left as it is. Nothing in this module depends on it; that acknowledged and committed entries
survive does, see `Distsys.Lib.LeaderCompleteness`.

## Why the history is in the state

The argument for safety looks back: at the log with which a voter voted, from a later leader to an
earlier one. In a model that has only the present, these would have to be invariants about events
that are over. With the history in the state they are functions that only grow, and most proofs
about a step say that it does not touch them. An implementation does not have this history; it is a
variable that is carried along its runs.

## Main definitions

* `Setting` — stamps, the first entry of every log, and quorums that intersect
* `State`, `Action`, `Setting.Allowed`, `State.apply`, `Setting.protocol`
* `Setting.WellFormed` — a log whose entries all come from the chronicle of their term
* `Setting.Inv` — the invariant

## Main results

* `Setting.inv_of_reachable` — every log and every chronicle is well formed
* `Setting.WellFormed.take_eq` — log matching
-/

namespace Distsys

namespace ReplicatedLog

/-- What the protocol is run with. -/
structure Setting (P E : Type) where
  /-- The term an entry was created in. -/
  stamp : E → ℕ
  /-- The entry every log starts with. -/
  first : E
  stamp_first : stamp first = 0
  /-- The sets of peers that can elect a leader or commit an entry. -/
  quorum : Finset P → Prop
  /-- Any two of them have a peer in common. -/
  inter : ∀ {Q Q' : Finset P}, quorum Q → quorum Q' → ∃ p ∈ Q, p ∈ Q'

/-- The state of the protocol. -/
structure State (P E : Type) where
  term : P → ℕ
  log : P → List E
  /-- The log with which a peer stood for a term. -/
  stood : P → ℕ → Option (List E)
  /-- `ballot v T c B`: before term `T` had a leader, `v` voted in it for `c`, with the log `B`. -/
  ballot : P → ℕ → P → List E → Prop
  leader : ℕ → Option P
  /-- The log of the leader of a term, as long as it can get in that term. -/
  chron : ℕ → List E
  /-- `acked f T m`: `f` has taken over the first `m` entries of the chronicle of `T`. -/
  acked : P → ℕ → ℕ → Prop
  /-- `committed T m`: the first `m` entries of the chronicle of `T` are committed. -/
  committed : ℕ → ℕ → Prop

inductive Action (P E : Type) where
  | raise (p : P) (t : ℕ)
  | stand (p : P)
  | grant (v c : P)
  | elect (p : P)
  | append (p : P) (e : E)
  | accept (f : P) (m : ℕ)
  | commit (p : P) (m : ℕ)

variable {P E : Type}

/-- The effect of an action. -/
def State.apply [DecidableEq P] (A : State P E) : Action P E → State P E
  | .raise p t => { A with term := Function.update A.term p t }
  | .stand p =>
    { A with
      term := Function.update A.term p (A.term p + 1)
      stood := fun q T => if q = p ∧ T = A.term p + 1 then some (A.log p) else A.stood q T
      ballot := fun v T c B =>
        A.ballot v T c B ∨ v = p ∧ T = A.term p + 1 ∧ c = p ∧ B = A.log p }
  | .grant v c =>
    { A with
      ballot := fun v' T c' B =>
        A.ballot v' T c' B ∨ v' = v ∧ T = A.term v ∧ c' = c ∧ B = A.log v }
  | .elect p =>
    { A with
      leader := Function.update A.leader (A.term p) (some p)
      chron := Function.update A.chron (A.term p) (A.log p) }
  | .append p e =>
    { A with
      log := Function.update A.log p (A.log p ++ [e])
      chron := Function.update A.chron (A.term p) (A.log p ++ [e]) }
  | .accept f m =>
    { A with
      log := Function.update A.log f ((A.chron (A.term f)).take m)
      acked := fun g T k => A.acked g T k ∨ g = f ∧ T = A.term f ∧ k ≤ m }
  | .commit p m =>
    { A with
      acked := fun g T k => A.acked g T k ∨ g = p ∧ T = A.term p ∧ k ≤ m
      committed := fun T k => A.committed T k ∨ T = A.term p ∧ k = m }

/-- The peer that acts. -/
def Action.peer : Action P E → P
  | .raise p _ | .stand p | .grant p _ | .elect p | .append p _ | .accept p _ | .commit p _ => p

/-- An action leaves the terms and logs of other peers alone. -/
theorem State.apply_of_ne [DecidableEq P] (A : State P E) {a : Action P E} {q : P}
    (hq : q ≠ a.peer) : (A.apply a).term q = A.term q ∧ (A.apply a).log q = A.log q := by
  cases a with
  | raise | stand => exact ⟨Function.update_of_ne hq .., rfl⟩
  | append | accept => exact ⟨rfl, Function.update_of_ne hq ..⟩
  | grant | elect | commit => exact ⟨rfl, rfl⟩

namespace Setting

variable (S : Setting P E)

/-- The stamp of the last entry. -/
def lastStamp (L : List E) : ℕ := (L.getLast?.map S.stamp).getD 0

/-- `L` is not behind `B`: it ends in a later term, or in the same term and is not shorter. -/
def UpToDate (L B : List E) : Prop :=
  S.lastStamp B < S.lastStamp L ∨ S.lastStamp L = S.lastStamp B ∧ B.length ≤ L.length

/-- When an action may be taken. -/
def Allowed (A : State P E) : Action P E → Prop
  | .raise p t => A.term p < t
  | .stand _ => True
  | .grant v c =>
    A.leader (A.term v) = none ∧ ∃ L, A.stood c (A.term v) = some L ∧ S.UpToDate L (A.log v)
  | .elect p =>
    A.leader (A.term p) = none ∧ ∃ Q, S.quorum Q ∧ ∀ v ∈ Q, ∃ B, A.ballot v (A.term p) p B
  | .append p e => A.leader (A.term p) = some p ∧ S.stamp e = A.term p
  | .accept f m =>
    (∃ l, A.leader (A.term f) = some l ∧ l ≠ f) ∧ 0 < m ∧ m ≤ (A.chron (A.term f)).length
  | .commit p m =>
    A.leader (A.term p) = some p ∧
      (∃ i e, m = i + 1 ∧ (A.chron (A.term p))[i]? = some e ∧ S.stamp e = A.term p) ∧
      ∃ Q, S.quorum Q ∧ ∀ f ∈ Q, f = p ∨ A.acked f (A.term p) m

/-- At first every log has only its first entry. -/
def init : State P E where
  term _ := 0
  log _ := [S.first]
  stood _ _ := none
  ballot _ _ _ _ := False
  leader _ := none
  chron _ := []
  acked _ _ _ := False
  committed _ _ := False

open Classical in
/-- The protocol as a transition system that emits nothing. -/
noncomputable def protocol [DecidableEq P] : System (State P E) (Action P E) Empty where
  init := S.init
  step A a := if S.Allowed A a then some (A.apply a, []) else none

theorem protocol_next [DecidableEq P] {c c' : System.Config (State P E) Empty} {a : Action P E}
    (h : S.protocol.next c a = some c') :
    S.Allowed c.state a ∧ c'.state = c.state.apply a := by
  obtain ⟨es, hs, _⟩ := System.next_eq_some_iff.mp h
  simp only [protocol] at hs
  split at hs
  · rename_i ha
    exact ⟨ha, (congrArg Prod.fst (Option.some.inj hs)).symm⟩
  · cases hs

theorem next_of_allowed [DecidableEq P] {A : State P E} {a : Action P E} (ha : S.Allowed A a) :
    S.protocol.next ⟨A, []⟩ a = some ⟨A.apply a, []⟩ := by
  simp [System.next, protocol, ha]

/-- A peer whose log starts with what it is given does not drop the rest. -/
def Keeps (c : System.Config (State P E) Empty) : Action P E → Prop
  | .accept f m =>
    (c.state.chron (c.state.term f)).take m <+: c.state.log f →
      c.state.log f <+: (c.state.chron (c.state.term f)).take m
  | _ => True

/-! ### Well-formed logs

The argument about logs is one about origins. An entry with stamp `T` was created by the leader of
`T`, at the end of its log, and everything that was before it there is before it wherever it is. So
two logs with an entry of the same stamp at the same index have both got their beginning from the
same chronicle, and this is log matching; no induction over the run is needed for it any more. -/

/-- A log that starts with the first entry, and whose other entries all come from the chronicle of
their term, together with everything before them. -/
structure WellFormed (leader : ℕ → Option P) (chron : ℕ → List E) (L : List E) : Prop where
  head : L[0]? = some S.first
  origin : ∀ {i : ℕ} {e : E}, 0 < i → L[i]? = some e →
    (∃ l, leader (S.stamp e) = some l) ∧ L.take (i + 1) <+: chron (S.stamp e)

section WellFormed

variable {S} {leader leader' : ℕ → Option P} {chron chron' : ℕ → List E} {L L' : List E}

theorem length_take_of_getElem? {i : ℕ} {e : E} (h : L[i]? = some e) :
    (L.take (i + 1)).length = i + 1 := by
  obtain ⟨hlt, _⟩ := List.getElem?_eq_some_iff.mp h
  rw [List.length_take]
  omega

theorem WellFormed.take_one (h : S.WellFormed leader chron L) : L.take 1 = [S.first] := by
  cases L with
  | nil => cases h.head
  | cons e L => simpa using h.head

/-- **Log matching.** Two well-formed logs whose entries at one index have the same stamp agree up
to this index. -/
theorem WellFormed.take_eq (h : S.WellFormed leader chron L) (h' : S.WellFormed leader chron L')
    {i : ℕ} {e e' : E} (he : L[i]? = some e) (he' : L'[i]? = some e')
    (hs : S.stamp e = S.stamp e') : L.take (i + 1) = L'.take (i + 1) := by
  rcases Nat.eq_zero_or_pos i with rfl | hi
  · rw [h.take_one, h'.take_one]
  · have hp := (h.origin hi he).2
    have hp' := (h'.origin hi he').2
    rw [← hs] at hp'
    have hlen : (L.take (i + 1)).length = (L'.take (i + 1)).length := by
      rw [length_take_of_getElem? he, length_take_of_getElem? he']
    exact (List.prefix_of_prefix_length_le hp hp' hlen.le).eq_of_length hlen

/-- Chronicles only grow, and this keeps logs well formed. -/
theorem WellFormed.mono (h : S.WellFormed leader chron L)
    (hext : ∀ T l, leader T = some l → leader' T = some l ∧ chron T <+: chron' T) :
    S.WellFormed leader' chron' L := by
  refine ⟨h.head, fun hi he => ?_⟩
  obtain ⟨⟨l, hl⟩, hp⟩ := h.origin hi he
  obtain ⟨hl', hc⟩ := hext _ l hl
  exact ⟨⟨l, hl'⟩, hp.trans hc⟩

theorem WellFormed.take (h : S.WellFormed leader chron L) {m : ℕ} (hm : 0 < m) :
    S.WellFormed leader chron (L.take m) := by
  refine ⟨?_, fun {i e} hi he => ?_⟩
  · rw [List.getElem?_take_of_lt hm]
    exact h.head
  · have hlt : i < m := by
      by_contra hle
      rw [List.getElem?_take_eq_none (not_lt.mp hle)] at he
      cases he
    rw [List.getElem?_take_of_lt hlt] at he
    obtain ⟨hl, hp⟩ := h.origin hi he
    refine ⟨hl, ?_⟩
    rw [List.take_take, min_eq_left hlt]
    exact hp

theorem WellFormed.concat (h : S.WellFormed leader chron L) {e : E} {l : P}
    (hl : leader (S.stamp e) = some l) (hc : L ++ [e] <+: chron (S.stamp e)) :
    S.WellFormed leader chron (L ++ [e]) := by
  have hpos : 0 < L.length := (List.getElem?_eq_some_iff.mp h.head).1
  refine ⟨?_, fun {i x} hi hx => ?_⟩
  · rw [List.getElem?_append_left hpos]
    exact h.head
  · rcases Nat.lt_or_ge i L.length with hlt | hge
    · rw [List.getElem?_append_left hlt] at hx
      obtain ⟨hl, hp⟩ := h.origin hi hx
      rw [List.take_append_of_le_length hlt]
      exact ⟨hl, hp⟩
    · rw [List.getElem?_append_right hge] at hx
      cases List.mem_singleton.mp (List.mem_of_getElem? hx)
      have htake := List.take_prefix (i + 1) (L ++ [e])
      exact ⟨⟨l, hl⟩, htake.trans hc⟩

/-- The stamps of a well-formed log do not decrease. -/
theorem WellFormed.stamp_le (h : S.WellFormed leader chron L)
    (hc : ∀ T l, leader T = some l → ∀ e ∈ chron T, S.stamp e ≤ T) {i j : ℕ} {e e' : E}
    (hij : i ≤ j) (he : L[i]? = some e) (he' : L[j]? = some e') : S.stamp e ≤ S.stamp e' := by
  rcases Nat.eq_zero_or_pos j with rfl | hj
  · cases Nat.le_zero.mp hij
    rw [he] at he'
    cases he'
    exact le_refl _
  · obtain ⟨⟨l, hl⟩, hp⟩ := h.origin hj he'
    refine hc _ l hl e (hp.subset (List.mem_of_getElem? (i := i) ?_))
    rw [List.getElem?_take_of_lt (Nat.lt_succ_of_le hij)]
    exact he

theorem WellFormed.exists_last (h : S.WellFormed leader chron L) :
    ∃ last, L[L.length - 1]? = some last ∧ S.lastStamp L = S.stamp last := by
  have hpos := (List.getElem?_eq_some_iff.mp h.head).1
  have hlast : L[L.length - 1]? = some (L[L.length - 1]) := List.getElem?_eq_getElem (by omega)
  refine ⟨_, hlast, ?_⟩
  rw [lastStamp, List.getLast?_eq_getElem?, hlast]
  rfl

/-- A well-formed log that ends in a later term than `0` is the start of the chronicle of that
term. -/
theorem WellFormed.start_of_chron (h : S.WellFormed leader chron L) (hpos : 0 < S.lastStamp L) :
    (∃ l, leader (S.lastStamp L) = some l) ∧ L <+: chron (S.lastStamp L) := by
  obtain ⟨last, hlast, hstamp⟩ := h.exists_last
  have hi : 0 < L.length - 1 := by
    by_contra h0
    rw [Nat.eq_zero_of_not_pos h0, h.head] at hlast
    cases hlast
    rw [hstamp, S.stamp_first] at hpos
    exact lt_irrefl 0 hpos
  obtain ⟨hl, hp⟩ := h.origin hi hlast
  rw [hstamp]
  rw [List.take_of_length_le (by omega)] at hp
  exact ⟨hl, hp⟩

end WellFormed

/-! ### The invariant

Each field is there because some other field needs it in some step. The chain is: a leader was
elected by a quorum of ballots (`won`), a ballot was for a candidate that was not behind
(`ballot_stood`), the candidate has kept its log until then (`waiting`), and so the chronicle of the
term begins with it (`leads`). -/

/-- What holds in every state. -/
structure Inv (A : State P E) : Prop where
  /-- Nobody has stood for a term that is yet to come. -/
  stood_le : ∀ {p T L}, A.stood p T = some L → T ≤ A.term p
  /-- The log of a candidate is older than its term. -/
  stood_wf : ∀ {p T L}, A.stood p T = some L →
    S.WellFormed A.leader A.chron L ∧ ∀ e ∈ L, S.stamp e < T
  /-- Nobody has voted in a term that is yet to come. -/
  ballot_le : ∀ {v T c B}, A.ballot v T c B → T ≤ A.term v
  ballot_wf : ∀ {v T c B}, A.ballot v T c B → S.WellFormed A.leader A.chron B
  /-- A vote is for a candidate whose log is not behind that of the voter. -/
  ballot_stood : ∀ {v T c B}, A.ballot v T c B → ∃ L, A.stood c T = some L ∧ S.UpToDate L B
  /-- Until its term has a leader, a candidate keeps the log it stood with. -/
  waiting : ∀ {p L}, A.stood p (A.term p) = some L → A.leader (A.term p) = none → A.log p = L
  /-- A leader has the votes of a quorum. -/
  won : ∀ {T l}, A.leader T = some l → ∃ Q, S.quorum Q ∧ ∀ v ∈ Q, ∃ B, A.ballot v T l B
  /-- A chronicle is the log that the leader stood with and entries of its term. -/
  leads : ∀ {T l}, A.leader T = some l →
    ∃ L, A.stood l T = some L ∧ ∃ X, A.chron T = L ++ X ∧ ∀ e ∈ X, S.stamp e = T
  /-- While it is in its term, the leader has the chronicle as its log. -/
  current : ∀ {p}, A.leader (A.term p) = some p → A.log p = A.chron (A.term p)
  chron_wf : ∀ {T l}, A.leader T = some l → S.WellFormed A.leader A.chron (A.chron T)
  log_wf : ∀ p, S.WellFormed A.leader A.chron (A.log p)
  /-- No entry is from a term that is yet to come. -/
  log_le : ∀ p, ∀ e ∈ A.log p, S.stamp e ≤ A.term p
  /-- Who has acknowledged a part of a chronicle has acknowledged every shorter one. -/
  acked_down : ∀ {f T m k}, A.acked f T m → k ≤ m → A.acked f T k
  acked_le : ∀ {f T m}, A.acked f T m → T ≤ A.term f
  /-- What is acknowledged exists. -/
  acked_chron : ∀ {f T m}, A.acked f T m → (∃ l, A.leader T = some l) ∧ m ≤ (A.chron T).length
  /-- What is committed was acknowledged by a quorum, and ends with an entry of its own term. -/
  committed_iff : ∀ {T m}, A.committed T m → (∃ Q, S.quorum Q ∧ ∀ f ∈ Q, A.acked f T m) ∧
    ∃ i e, m = i + 1 ∧ (A.chron T)[i]? = some e ∧ S.stamp e = T

namespace Inv

variable {S} {A : State P E}

theorem init : S.Inv S.init where
  stood_le := nofun
  stood_wf := nofun
  ballot_le := nofun
  ballot_wf := nofun
  ballot_stood := nofun
  waiting := nofun
  won := nofun
  leads := nofun
  current := nofun
  chron_wf := nofun
  log_wf _ := by
    refine ⟨rfl, fun {i e} hi he => ?_⟩
    rw [show i = i - 1 + 1 by omega] at he
    cases he
  log_le _ e he := by
    cases List.mem_singleton.mp he
    exact S.stamp_first.le
  acked_down := nofun
  acked_le := nofun
  acked_chron := nofun
  committed_iff := nofun

/-- What is committed is in the chronicle of its term. -/
theorem committed_le (h : S.Inv A) {T m : ℕ} (hc : A.committed T m) :
    (∃ l, A.leader T = some l) ∧ m ≤ (A.chron T).length := by
  obtain ⟨⟨Q, hQ, hack⟩, _⟩ := h.committed_iff hc
  obtain ⟨f, hf, _⟩ := S.inter hQ hQ
  exact h.acked_chron (hack f hf)

/-- The leader of a term has reached it. -/
theorem leader_le (h : S.Inv A) {T : ℕ} {l : P} (hl : A.leader T = some l) : T ≤ A.term l := by
  obtain ⟨L, hL, _⟩ := h.leads hl
  exact h.stood_le hL

theorem chron_le (h : S.Inv A) {T : ℕ} {l : P} (hl : A.leader T = some l) :
    ∀ e ∈ A.chron T, S.stamp e ≤ T := by
  obtain ⟨L, hL, X, hX, hT⟩ := h.leads hl
  intro e he
  rw [hX] at he
  rcases List.mem_append.mp he with he | he
  · exact ((h.stood_wf hL).2 e he).le
  · exact (hT e he).le

/-- What is known of acknowledged and committed entries survives the growth of chronicles. -/
theorem extended (h : S.Inv A) {leader' : ℕ → Option P} {chron' : ℕ → List E}
    (hext : ∀ T l, A.leader T = some l → leader' T = some l ∧ A.chron T <+: chron' T) :
    (∀ {f T m}, A.acked f T m → (∃ l, leader' T = some l) ∧ m ≤ (chron' T).length) ∧
      ∀ {T m}, A.committed T m → (∃ Q, S.quorum Q ∧ ∀ f ∈ Q, A.acked f T m) ∧
        ∃ i e, m = i + 1 ∧ (chron' T)[i]? = some e ∧ S.stamp e = T := by
  refine ⟨fun {f T m} hm => ?_, fun {T m} hm => ?_⟩
  · obtain ⟨⟨l, hl⟩, hm⟩ := h.acked_chron hm
    exact ⟨⟨l, (hext T l hl).1⟩, hm.trans (hext T l hl).2.length_le⟩
  · obtain ⟨⟨l, hl⟩, _⟩ := h.committed_le hm
    obtain ⟨⟨Q, hQ, hf⟩, i, e, rfl, he, hs⟩ := h.committed_iff hm
    obtain ⟨X, hX⟩ := (hext T l hl).2
    refine ⟨⟨Q, hQ, hf⟩, i, e, rfl, ?_, hs⟩
    rw [← hX, List.getElem?_append_left (List.getElem?_eq_some_iff.mp he).1]
    exact he

variable [DecidableEq P]

theorem raise (h : S.Inv A) {p : P} {t : ℕ} (ht : A.term p < t) :
    S.Inv (A.apply (.raise p t)) := by
  have hle : ∀ q, A.term q ≤ (A.apply (.raise p t)).term q := by
    intro q
    rcases eq_or_ne q p with rfl | hq
    · simpa [State.apply] using ht.le
    · simp [State.apply, hq]
  refine { h with
    stood_le := fun hs => (h.stood_le hs).trans (hle _)
    ballot_le := fun hb => (h.ballot_le hb).trans (hle _)
    acked_le := fun ha => (h.acked_le ha).trans (hle _)
    log_le := fun q e he => (h.log_le q e he).trans (hle q)
    waiting := fun {q L} hs hl => ?_
    current := fun {q} hl => ?_ }
  · rcases eq_or_ne q p with rfl | hq
    · simp only [State.apply, Function.update_self] at hs
      exact absurd (h.stood_le hs) (not_le.mpr ht)
    · simp only [State.apply, Function.update_of_ne hq] at hs hl
      exact h.waiting hs hl
  · rcases eq_or_ne q p with rfl | hq
    · simp only [State.apply, Function.update_self] at hl
      exact absurd (h.leader_le hl) (not_le.mpr ht)
    · simp only [State.apply, Function.update_of_ne hq] at hl ⊢
      exact h.current hl

/-- What standing for the next term adds to the candidacies. -/
theorem stood_stand (h : S.Inv A) {p q : P} {T : ℕ} {L : List E} :
    (A.apply (.stand p)).stood q T = some L ↔
      (q = p ∧ T = A.term p + 1 ∧ L = A.log p) ∨ A.stood q T = some L := by
  simp only [State.apply]
  split
  · rename_i hnew
    obtain ⟨rfl, rfl⟩ := hnew
    constructor
    · intro hL
      exact Or.inl ⟨rfl, rfl, (Option.some.inj hL).symm⟩
    · rintro (⟨_, _, rfl⟩ | hL)
      · rfl
      · exact absurd (h.stood_le hL) (Nat.not_succ_le_self _)
  · rename_i hold
    exact ⟨Or.inr, fun hL => hL.resolve_left fun ⟨hq, hT, _⟩ => hold ⟨hq, hT⟩⟩

theorem stand (h : S.Inv A) (p : P) : S.Inv (A.apply (.stand p)) := by
  have hle : ∀ q, A.term q ≤ (A.apply (.stand p)).term q := by
    intro q
    rcases eq_or_ne q p with rfl | hq
    · simp [State.apply]
    · simp [State.apply, hq]
  have hp : (A.apply (.stand p)).term p = A.term p + 1 := Function.update_self ..
  have hq : ∀ {q}, q ≠ p → (A.apply (.stand p)).term q = A.term q := fun hq =>
    Function.update_of_ne hq ..
  have hkeep : ∀ {q T L}, A.stood q T = some L → (A.apply (.stand p)).stood q T = some L :=
    fun hL => h.stood_stand.mpr (Or.inr hL)
  refine { h with
    stood_le := fun {q T L} hs => ?_
    stood_wf := fun {q T L} hs => ?_
    ballot_le := fun {v T c B} hb => ?_
    ballot_wf := fun {v T c B} hb => ?_
    ballot_stood := fun {v T c B} hb => ?_
    waiting := fun {q L} hs hl => ?_
    won := fun {T l} hl => ?_
    leads := fun {T l} hl => ?_
    current := fun {q} hl => ?_
    log_le := fun q e he => (h.log_le q e he).trans (hle q)
    acked_le := fun ha => (h.acked_le ha).trans (hle _) }
  · rcases h.stood_stand.mp hs with ⟨rfl, rfl, _⟩ | hs
    · exact hp.ge
    · exact (h.stood_le hs).trans (hle q)
  · rcases h.stood_stand.mp hs with ⟨rfl, rfl, rfl⟩ | hs
    · exact ⟨h.log_wf q, fun e he => Nat.lt_succ_of_le (h.log_le q e he)⟩
    · exact h.stood_wf hs
  · rcases hb with hb | ⟨rfl, rfl, _⟩
    · exact (h.ballot_le hb).trans (hle v)
    · exact hp.ge
  · rcases hb with hb | ⟨_, _, _, rfl⟩
    · exact h.ballot_wf hb
    · exact h.log_wf p
  · rcases hb with hb | ⟨_, rfl, rfl, rfl⟩
    · obtain ⟨L, hL, hd⟩ := h.ballot_stood hb
      exact ⟨L, hkeep hL, hd⟩
    · exact ⟨A.log c, h.stood_stand.mpr (Or.inl ⟨rfl, rfl, rfl⟩), Or.inr ⟨rfl, le_refl _⟩⟩
  · rcases eq_or_ne q p with rfl | hne
    · rw [hp] at hs
      rcases h.stood_stand.mp hs with ⟨_, _, rfl⟩ | hs
      · rfl
      · exact absurd (h.stood_le hs) (Nat.not_succ_le_self _)
    · rw [hq hne] at hs hl
      rcases h.stood_stand.mp hs with ⟨rfl, _⟩ | hs
      · exact absurd rfl hne
      · exact h.waiting hs hl
  · obtain ⟨Q, hQ, hv⟩ := h.won hl
    exact ⟨Q, hQ, fun v hvQ => (hv v hvQ).imp fun _ => Or.inl⟩
  · obtain ⟨L, hL, hX⟩ := h.leads hl
    exact ⟨L, hkeep hL, hX⟩
  · rcases eq_or_ne q p with rfl | hne
    · rw [hp] at hl
      exact absurd (h.leader_le hl) (Nat.not_succ_le_self _)
    · rw [hq hne] at hl ⊢
      exact h.current hl

theorem grant (h : S.Inv A) {v c : P} (ha : S.Allowed A (.grant v c)) :
    S.Inv (A.apply (.grant v c)) := by
  refine { h with
    ballot_le := fun {w T c' B} hb => ?_
    ballot_wf := fun {w T c' B} hb => ?_
    ballot_stood := fun {w T c' B} hb => ?_
    won := fun {T l} hl => ?_ }
  · rcases hb with hb | ⟨rfl, rfl, _⟩
    · exact h.ballot_le hb
    · exact le_refl _
  · rcases hb with hb | ⟨_, _, _, rfl⟩
    · exact h.ballot_wf hb
    · exact h.log_wf v
  · rcases hb with hb | ⟨_, rfl, rfl, rfl⟩
    · exact h.ballot_stood hb
    · exact ha.2
  · obtain ⟨Q, hQ, hv⟩ := h.won hl
    exact ⟨Q, hQ, fun w hw => (hv w hw).imp fun _ => Or.inl⟩

theorem elect (h : S.Inv A) {p : P} (ha : S.Allowed A (.elect p)) :
    S.Inv (A.apply (.elect p)) := by
  obtain ⟨hnone, Q, hQ, hv⟩ := ha
  have hself : (A.apply (.elect p)).leader (A.term p) = some p ∧
      (A.apply (.elect p)).chron (A.term p) = A.log p :=
    ⟨Function.update_self .., Function.update_self ..⟩
  have hother : ∀ {T}, T ≠ A.term p → (A.apply (.elect p)).leader T = A.leader T ∧
      (A.apply (.elect p)).chron T = A.chron T :=
    fun hT => ⟨Function.update_of_ne hT .., Function.update_of_ne hT ..⟩
  have hold : ∀ {T l}, A.leader T = some l → T ≠ A.term p := by
    rintro T l hl rfl
    rw [hnone] at hl
    cases hl
  have hext : ∀ T l, A.leader T = some l → (A.apply (.elect p)).leader T = some l ∧
      A.chron T <+: (A.apply (.elect p)).chron T := by
    intro T l hl
    rw [(hother (hold hl)).1, (hother (hold hl)).2]
    exact ⟨hl, List.prefix_refl _⟩
  -- the candidate has kept the log it stood with
  obtain ⟨L, hL⟩ : ∃ L, A.stood p (A.term p) = some L := by
    obtain ⟨v, hvQ, _⟩ := S.inter hQ hQ
    obtain ⟨B, hB⟩ := hv v hvQ
    exact (h.ballot_stood hB).imp fun _ => And.left
  have hlog : A.log p = L := h.waiting hL hnone
  refine { h with
    stood_wf := fun hs => ⟨(h.stood_wf hs).1.mono hext, (h.stood_wf hs).2⟩
    ballot_wf := fun hb => (h.ballot_wf hb).mono hext
    log_wf := fun q => (h.log_wf q).mono hext
    waiting := fun {q M} hs hl => ?_
    won := fun {T l} hl => ?_
    leads := fun {T l} hl => ?_
    current := fun {q} hl => ?_
    chron_wf := fun {T l} hl => ?_
    acked_chron := (h.extended hext).1
    committed_iff := (h.extended hext).2 }
  · rcases eq_or_ne (A.term q) (A.term p) with hT | hT
    · rw [show (A.apply (.elect p)).term q = A.term p from hT, hself.1] at hl
      cases hl
    · rw [show (A.apply (.elect p)).term q = A.term q from rfl, (hother hT).1] at hl
      exact h.waiting hs hl
  · rcases eq_or_ne T (A.term p) with rfl | hT
    · rw [hself.1] at hl
      cases hl
      exact ⟨Q, hQ, hv⟩
    · rw [(hother hT).1] at hl
      exact h.won hl
  · rcases eq_or_ne T (A.term p) with rfl | hT
    · rw [hself.1] at hl
      cases hl
      refine ⟨L, hL, [], ?_, List.forall_mem_nil _⟩
      rw [hself.2, hlog, List.append_nil]
    · rw [(hother hT).1] at hl
      rw [(hother hT).2]
      exact h.leads hl
  · rw [show (A.apply (.elect p)).term q = A.term q from rfl] at hl ⊢
    rcases eq_or_ne (A.term q) (A.term p) with hT | hT
    · rw [hT, hself.1] at hl
      cases hl
      exact hself.2.symm
    · rw [(hother hT).1] at hl
      rw [(hother hT).2]
      exact h.current hl
  · rcases eq_or_ne T (A.term p) with rfl | hT
    · rw [hself.2]
      exact (h.log_wf p).mono hext
    · rw [(hother hT).1] at hl
      rw [(hother hT).2]
      exact (h.chron_wf hl).mono hext

theorem append (h : S.Inv A) {p : P} {e : E} (ha : S.Allowed A (.append p e)) :
    S.Inv (A.apply (.append p e)) := by
  obtain ⟨hlead, hstamp⟩ := ha
  have hlog : A.log p = A.chron (A.term p) := h.current hlead
  have hself : (A.apply (.append p e)).chron (A.term p) = A.log p ++ [e] :=
    Function.update_self ..
  have hother : ∀ {T}, T ≠ A.term p → (A.apply (.append p e)).chron T = A.chron T :=
    fun hT => Function.update_of_ne hT ..
  have hp : (A.apply (.append p e)).log p = A.log p ++ [e] := Function.update_self ..
  have hq : ∀ {q}, q ≠ p → (A.apply (.append p e)).log q = A.log q := fun hq =>
    Function.update_of_ne hq ..
  have hext : ∀ T l, A.leader T = some l → (A.apply (.append p e)).leader T = some l ∧
      A.chron T <+: (A.apply (.append p e)).chron T := by
    intro T l hl
    refine ⟨hl, ?_⟩
    rcases eq_or_ne T (A.term p) with rfl | hT
    · rw [hself, hlog]
      exact List.prefix_append _ _
    · rw [hother hT]
  have hwf : S.WellFormed A.leader (A.apply (.append p e)).chron (A.log p ++ [e]) := by
    refine ((h.log_wf p).mono hext).concat (hstamp ▸ hlead) ?_
    rw [hstamp, hself]
  refine { h with
    stood_wf := fun hs => ⟨(h.stood_wf hs).1.mono hext, (h.stood_wf hs).2⟩
    ballot_wf := fun hb => (h.ballot_wf hb).mono hext
    waiting := fun {q L} hs hl => ?_
    leads := fun {T l} hl => ?_
    current := fun {q} hl => ?_
    chron_wf := fun {T l} hl => ?_
    log_wf := fun q => ?_
    log_le := fun q x hx => ?_
    acked_chron := (h.extended hext).1
    committed_iff := (h.extended hext).2 }
  · rcases eq_or_ne q p with rfl | hne
    · exact absurd (hlead.symm.trans hl) (Option.some_ne_none q)
    · rw [hq hne]
      exact h.waiting hs hl
  · obtain ⟨L, hL, X, hX, hT⟩ := h.leads hl
    rcases eq_or_ne T (A.term p) with rfl | hne
    · refine ⟨L, hL, X ++ [e], ?_, fun x hx => ?_⟩
      · rw [hself, hlog, hX, List.append_assoc]
      · rcases List.mem_append.mp hx with hx | hx
        · exact hT x hx
        · cases List.mem_singleton.mp hx
          exact hstamp
    · rw [hother hne]
      exact ⟨L, hL, X, hX, hT⟩
  · rcases eq_or_ne q p with rfl | hne
    · exact hp.trans hself.symm
    · rw [hq hne]
      refine (h.current hl).trans (hother fun hT => hne ?_).symm
      exact Option.some.inj (hl.symm.trans ((congrArg A.leader hT).trans hlead))
  · rcases eq_or_ne T (A.term p) with rfl | hne
    · rw [hself]
      exact hwf
    · rw [hother hne]
      exact (h.chron_wf hl).mono hext
  · rcases eq_or_ne q p with rfl | hne
    · rw [hp]
      exact hwf
    · rw [hq hne]
      exact (h.log_wf q).mono hext
  · rcases eq_or_ne q p with rfl | hne
    · rw [hp] at hx
      rcases List.mem_append.mp hx with hx | hx
      · exact h.log_le q x hx
      · cases List.mem_singleton.mp hx
        exact hstamp.le
    · rw [hq hne] at hx
      exact h.log_le q x hx

theorem accept (h : S.Inv A) {f : P} {m : ℕ} (ha : S.Allowed A (.accept f m)) :
    S.Inv (A.apply (.accept f m)) := by
  obtain ⟨⟨l, hl, hne⟩, hpos, hm⟩ := ha
  have hf : (A.apply (.accept f m)).log f = (A.chron (A.term f)).take m := Function.update_self ..
  have hq : ∀ {q}, q ≠ f → (A.apply (.accept f m)).log q = A.log q := fun hq =>
    Function.update_of_ne hq ..
  refine { h with
    waiting := fun {q L} hs hnone => ?_
    current := fun {q} hlead => ?_
    log_wf := fun q => ?_
    log_le := fun q e he => ?_
    acked_down := fun {g T k j} hk hj => hk.imp (h.acked_down · hj) fun hk =>
      ⟨hk.1, hk.2.1, hj.trans hk.2.2⟩
    acked_le := fun {g T k} hk => ?_
    acked_chron := fun {g T k} hk => ?_
    committed_iff := fun {T k} hk => ?_ }
  · rcases eq_or_ne q f with rfl | hqf
    · exact absurd (hl.symm.trans hnone) (Option.some_ne_none l)
    · rw [hq hqf]
      exact h.waiting hs hnone
  · rcases eq_or_ne q f with rfl | hqf
    · exact absurd (Option.some.inj (hl.symm.trans hlead)) hne
    · rw [hq hqf]
      exact h.current hlead
  · rcases eq_or_ne q f with rfl | hqf
    · rw [hf]
      exact (h.chron_wf hl).take hpos
    · rw [hq hqf]
      exact h.log_wf q
  · rcases eq_or_ne q f with rfl | hqf
    · rw [hf] at he
      exact h.chron_le hl e (List.mem_of_mem_take he)
    · rw [hq hqf] at he
      exact h.log_le q e he
  · rcases hk with hk | ⟨rfl, rfl, _⟩
    · exact h.acked_le hk
    · exact le_refl _
  · rcases hk with hk | ⟨_, rfl, hk⟩
    · exact h.acked_chron hk
    · exact ⟨⟨l, hl⟩, hk.trans hm⟩
  · obtain ⟨⟨Q, hQ, hack⟩, hentry⟩ := h.committed_iff hk
    exact ⟨⟨Q, hQ, fun g hg => Or.inl (hack g hg)⟩, hentry⟩

theorem commit (h : S.Inv A) {p : P} {m : ℕ} (ha : S.Allowed A (.commit p m)) :
    S.Inv (A.apply (.commit p m)) := by
  obtain ⟨hlead, ⟨i, e, rfl, he, hs⟩, Q, hQ, hack⟩ := ha
  refine { h with
    acked_down := fun {g T k j} hk hj => hk.imp (h.acked_down · hj) fun hk =>
      ⟨hk.1, hk.2.1, hj.trans hk.2.2⟩
    acked_le := fun {g T k} hk => ?_
    acked_chron := fun {g T k} hk => ?_
    committed_iff := fun {T k} hk => ?_ }
  · rcases hk with hk | ⟨rfl, rfl, _⟩
    · exact h.acked_le hk
    · exact le_refl _
  · rcases hk with hk | ⟨_, rfl, hk⟩
    · exact h.acked_chron hk
    · exact ⟨⟨p, hlead⟩, hk.trans (List.getElem?_eq_some_iff.mp he).1⟩
  · rcases hk with hk | ⟨rfl, rfl⟩
    · obtain ⟨⟨Q, hQ, hack⟩, hentry⟩ := h.committed_iff hk
      exact ⟨⟨Q, hQ, fun g hg => Or.inl (hack g hg)⟩, hentry⟩
    · refine ⟨⟨Q, hQ, fun g hg => ?_⟩, i, e, rfl, he, hs⟩
      rcases hack g hg with rfl | hg
      · exact Or.inr ⟨rfl, rfl, le_refl _⟩
      · exact Or.inl hg

/-- The step lemma. -/
theorem apply (h : S.Inv A) {a : Action P E} (ha : S.Allowed A a) : S.Inv (A.apply a) := by
  cases a with
  | raise p t => exact h.raise ha
  | stand p => exact h.stand p
  | grant v c => exact h.grant ha
  | elect p => exact h.elect ha
  | append p e => exact h.append ha
  | accept f m => exact h.accept ha
  | commit p m => exact h.commit ha

end Inv

theorem inv_of_reachable [DecidableEq P]
    {ok : System.Config (State P E) Empty → Action P E → Prop}
    {c : System.Config (State P E) Empty} (hc : S.protocol.Reachable ok c) : S.Inv c.state := by
  refine System.Reachable.invariant (M := S.protocol) (P := fun c => S.Inv c.state) Inv.init ?_ hc
  intro c a c' _ hI _ hn
  obtain ⟨ha, hs⟩ := S.protocol_next hn
  rw [hs]
  exact hI.apply ha

end Setting

/-! ### The history grows

Records are never changed: a term keeps its leader, a ballot stays cast, and a chronicle only gets
longer at its end. So whatever was said about them in the past can still be said. -/

namespace State

/-- What is recorded in the history stays, and chronicles grow. -/
structure Grows (A A' : State P E) : Prop where
  leader : ∀ {T l}, A.leader T = some l → A'.leader T = some l
  /-- A leader appends to its chronicle. -/
  chron : ∀ {T l}, A.leader T = some l → A.chron T <+: A'.chron T
  /-- A candidate stands for a term once. -/
  stood : ∀ {p T L}, A.stood p T = some L → A'.stood p T = some L
  ballot : ∀ {v T c B}, A.ballot v T c B → A'.ballot v T c B
  acked : ∀ {f T m}, A.acked f T m → A'.acked f T m
  committed : ∀ {T m}, A.committed T m → A'.committed T m

variable {S : Setting P E} {A A' : State P E} {T m : ℕ}

theorem Grows.refl (A : State P E) : Grows A A :=
  ⟨id, fun _ => List.prefix_refl _, id, id, id, id⟩

theorem Grows.trans {A'' : State P E} (h : Grows A A') (h' : Grows A' A'') : Grows A A'' where
  leader hl := h'.leader (h.leader hl)
  chron hl := (h.chron hl).trans (h'.chron (h.leader hl))
  stood hL := h'.stood (h.stood hL)
  ballot hB := h'.ballot (h.ballot hB)
  acked ha := h'.acked (h.acked ha)
  committed hc := h'.committed (h.committed hc)

theorem Grows.take_eq (h : Grows A A') {l : P} (hl : A.leader T = some l)
    (hm : m ≤ (A.chron T).length) : (A'.chron T).take m = (A.chron T).take m := by
  obtain ⟨X, hX⟩ := h.chron hl
  rw [← hX, List.take_append_of_le_length hm]

theorem grows_apply [DecidableEq P] (hI : S.Inv A) {a : Action P E} (ha : S.Allowed A a) :
    Grows A (A.apply a) := by
  cases a with
  | stand p =>
    exact ⟨id, fun _ => List.prefix_refl _, fun hL => hI.stood_stand.mpr (Or.inr hL), Or.inl, id,
      id⟩
  | elect p =>
    have hne : ∀ {T l}, A.leader T = some l → T ≠ A.term p := by
      rintro T l hl rfl
      rw [ha.1] at hl
      cases hl
    refine ⟨fun hl => ?_, fun {T l} hl => ?_, id, id, id, id⟩
    · exact (Function.update_of_ne (hne hl) ..).trans hl
    · rw [show (A.apply (.elect p)).chron T = A.chron T from Function.update_of_ne (hne hl) ..]
  | append p e =>
    refine ⟨id, fun {T l} _ => ?_, id, id, id, id⟩
    rcases eq_or_ne T (A.term p) with rfl | hT
    · rw [← hI.current ha.1]
      simp [apply]
    · rw [show (A.apply (.append p e)).chron T = A.chron T from Function.update_of_ne hT ..]
  | raise p t => exact ⟨id, fun _ => List.prefix_refl _, id, id, id, id⟩
  | grant v c => exact ⟨id, fun _ => List.prefix_refl _, id, Or.inl, id, id⟩
  | accept f m => exact ⟨id, fun _ => List.prefix_refl _, id, id, Or.inl, id⟩
  | commit p m => exact ⟨id, fun _ => List.prefix_refl _, id, id, Or.inl, Or.inl⟩

end State

end ReplicatedLog

end Distsys
