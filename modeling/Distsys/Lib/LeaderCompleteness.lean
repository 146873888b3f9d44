import Distsys.Lib.ReplicatedLog

/-!
# Acknowledged entries stay and committed entries are final

The second half of the argument about `Distsys.Lib.ReplicatedLog`, for runs that keep what was taken
over. An acknowledged part of a chronicle stays in the log of the peer until a leader of a later
term comes along that does not have it, and the same holds of the log with which the peer votes in a
later term (`State.Retained`). If a quorum has acknowledged it, there is no such leader: the first
one would have been elected by a quorum, one of whose voters has the entries, and its log was not
behind the log of that voter (`leader_complete`, by induction on the term).

## Main definitions

* `State.Skips` — the leader of a term did not have some part of an earlier chronicle
* `State.Retained` — the invariant
* `State.Settled`, `State.SettledUpTo` — what is committed

## Main results

* `Setting.retained_of_reachable`
* `State.Retained.take_prefix_log` — an acknowledged entry is not lost within the term
* `State.Retained.leader_complete` — a committed entry is in the log of every later leader
* `State.Retained.committed_chron` — and in the chronicle of every later term
* `State.Retained.settledUpTo_quorum` — and, at all times, in the logs of a quorum
* `State.Retained.settled_unique` — so that committed entries at the same index are equal
-/

namespace Distsys

namespace ReplicatedLog

variable {P E : Type} {S : Setting P E} {A A' : State P E} {T m t t' : ℕ} {B B' : List E}

namespace State

/-- The leader of `t` stood without the first `m` entries of the chronicle of `T`. -/
def Skips (A : State P E) (T m t : ℕ) : Prop :=
  ∃ l L, A.leader t = some l ∧ A.stood l t = some L ∧ ¬ (A.chron T).take m <+: L

/-- `B` has the first `m` entries of the chronicle of `T`, or a leader between `T` and `t` had not.
-/
def Kept (A : State P E) (T m : ℕ) (B : List E) (t : ℕ) : Prop :=
  (A.chron T).take m <+: B ∨ ∃ t', T < t' ∧ t' < t ∧ A.Skips T m t'

/-- What was acknowledged is kept, in the log and in the ballots of later terms. -/
structure Retained (A : State P E) : Prop where
  /-- In the log, unless a leader up to the present term has skipped it. -/
  held : ∀ {f T m}, A.acked f T m → A.Kept T m (A.log f) (A.term f + 1)
  /-- In the log with which the peer votes later, unless a leader before that term has. -/
  balloted : ∀ {f T m t c B}, A.acked f T m → A.ballot f t c B → T < t → A.Kept T m B t

theorem Kept.mono (hk : A.Kept T m B t) (hI : S.Inv A) {f : P} (ha : A.acked f T m)
    (h : Grows A A') (hB : B <+: B') (ht : t ≤ t') : A'.Kept T m B' t' := by
  obtain ⟨⟨l, hl⟩, hm⟩ := hI.acked_chron ha
  rcases hk with hk | ⟨s, hT, hs, k, L, hk, hL, hnot⟩
  · exact Or.inl (h.take_eq hl hm ▸ hk.trans hB)
  · refine Or.inr ⟨s, hT, hs.trans_le ht, k, L, h.leader hk, h.stood hL, ?_⟩
    rwa [h.take_eq hl hm]

/-! ### The invariant

Most actions only add to logs and history, and `frame` deals with them. The two that are of interest
are a vote, where the present log becomes a ballot, and the acceptance of a part of a chronicle,
where a log can lose entries: it loses acknowledged ones only if the leader it follows skips them,
because `Keeps` rules out the other reason, a part that is shorter than what was acknowledged. -/

namespace Retained

theorem init : S.init.Retained := ⟨nofun, nofun⟩

section Step

variable [DecidableEq P] {p f : P}

/-- A term that is raised, a new leader and a longer log lose nothing. -/
theorem frame (hR : A.Retained) (hI : S.Inv A) {a : Action P E} (ha : S.Allowed A a)
    (hlog : ∀ f, A.log f <+: (A.apply a).log f) (hterm : ∀ f, A.term f ≤ (A.apply a).term f) :
    (∀ {f T m}, A.acked f T m →
        (A.apply a).Kept T m ((A.apply a).log f) ((A.apply a).term f + 1)) ∧
      ∀ {f T m t c B}, A.acked f T m → A.ballot f t c B → T < t → (A.apply a).Kept T m B t := by
  have hg := grows_apply hI ha
  refine ⟨fun {f T m} hm => ?_, fun {f T m t c B} hm hb ht => ?_⟩
  · exact (hR.held hm).mono hI hm hg (hlog f) (Nat.succ_le_succ (hterm f))
  · exact (hR.balloted hm hb ht).mono hI hm hg (List.prefix_refl B) (le_refl t)

theorem stand (hR : A.Retained) (hI : S.Inv A) (p : P) : (A.apply (.stand p)).Retained := by
  have hterm : ∀ f, A.term f ≤ (A.apply (.stand p)).term f := by
    intro f
    rcases eq_or_ne f p with rfl | hf
    · simp [apply]
    · simp [apply, hf]
  have ha : S.Allowed A (.stand p) := trivial
  obtain ⟨hheld, hold⟩ := hR.frame hI ha (fun f => List.prefix_refl _) hterm
  refine ⟨hheld, fun {f T m t c B} hm hb ht => ?_⟩
  rcases hb with hb | ⟨rfl, rfl, rfl, rfl⟩
  · exact hold hm hb ht
  · exact (hR.held hm).mono hI hm (grows_apply hI ha) (List.prefix_refl _) (le_refl _)

theorem grant (hR : A.Retained) (hI : S.Inv A) {v c : P} (ha : S.Allowed A (.grant v c)) :
    (A.apply (.grant v c)).Retained := by
  obtain ⟨hheld, hold⟩ := hR.frame hI ha (fun f => List.prefix_refl _) fun f => le_refl _
  refine ⟨hheld, fun {f T m t c' B} hm hb ht => ?_⟩
  rcases hb with hb | ⟨rfl, rfl, rfl, rfl⟩
  · exact hold hm hb ht
  · -- nobody leads the term of the vote yet, so the leader that lacks the entries is an earlier one
    rcases hR.held hm with hp | ⟨s, hT, hs, l, L, hl, hL, hnot⟩
    · exact Or.inl hp
    · refine Or.inr ⟨s, hT, lt_of_le_of_ne (Nat.le_of_lt_succ hs) ?_, l, L, hl, hL, hnot⟩
      rintro rfl
      rw [ha.1] at hl
      cases hl

/-- What is taken over contains what was acknowledged, if the log and the chronicle both did. -/
theorem take_of_keeps {X L C : List E} (hX : X <+: L) (hC : X <+: C)
    (hk : C.take m <+: L → L <+: C.take m) : X <+: C.take m := by
  have htake := List.take_prefix m C
  rcases List.prefix_or_prefix_of_prefix hC htake with h | h
  · exact h
  · exact hX.trans (hk (h.trans hX))

theorem accept (hR : A.Retained) (hI : S.Inv A) {m : ℕ} (ha : S.Allowed A (.accept f m))
    (hk : (A.chron (A.term f)).take m <+: A.log f → A.log f <+: (A.chron (A.term f)).take m) :
    (A.apply (.accept f m)).Retained := by
  obtain ⟨⟨l, hl, _⟩, _, _⟩ := ha
  have hf : (A.apply (.accept f m)).log f = (A.chron (A.term f)).take m := Function.update_self ..
  refine ⟨fun {g T k} hm => ?_, fun {g T k t c B} hm hb ht => ?_⟩
  · rcases hm with hm | ⟨rfl, rfl, hkm⟩
    · rcases eq_or_ne g f with rfl | hg
      · rw [hf]
        rcases hR.held hm with hX | hskip
        · -- the leader of the current term has the acknowledged entries, or skips them
          obtain ⟨L, hL, Y, hY, _⟩ := hI.leads hl
          rcases eq_or_lt_of_le (hI.acked_le hm) with rfl | hlt
          · have htake := List.take_prefix k (A.chron (A.term g))
            exact Or.inl (take_of_keeps hX htake hk)
          · by_cases hXL : (A.chron T).take k <+: L
            · refine Or.inl (take_of_keeps hX (hXL.trans ?_) hk)
              rw [hY]
              exact List.prefix_append _ _
            · exact Or.inr ⟨_, hlt, Nat.lt_succ_self _, l, L, hl, hL, hXL⟩
        · exact Or.inr hskip
      · rw [show (A.apply (.accept f m)).log g = A.log g from Function.update_of_ne hg ..]
        exact hR.held hm
    · rw [hf]
      exact Or.inl (List.take_prefix_take_left hkm)
  · rcases hm with hm | ⟨rfl, rfl, _⟩
    · exact hR.balloted hm hb ht
    · exact absurd (hI.ballot_le hb) (not_le.mpr ht)

theorem commit (hR : A.Retained) (hI : S.Inv A) {m : ℕ} (ha : S.Allowed A (.commit p m)) :
    (A.apply (.commit p m)).Retained := by
  refine ⟨fun {g T k} hm => ?_, fun {g T k t c B} hm hb ht => ?_⟩
  · rcases hm with hm | ⟨rfl, rfl, _⟩
    · exact hR.held hm
    · refine Or.inl ?_
      rw [show (A.apply (.commit g m)).log g = A.log g from rfl, hI.current ha.1]
      exact List.take_prefix _ _
  · rcases hm with hm | ⟨rfl, rfl, _⟩
    · exact hR.balloted hm hb ht
    · exact absurd (hI.ballot_le hb) (not_le.mpr ht)

/-- The step lemma. -/
theorem apply (hR : A.Retained) {c : System.Config (State P E) Empty} (hc : c.state = A)
    (hI : S.Inv A) {a : Action P E} (ha : S.Allowed A a) (hk : Setting.Keeps c a) :
    (A.apply a).Retained := by
  cases a with
  | raise p t =>
    have hterm : ∀ f, A.term f ≤ (A.apply (.raise p t)).term f := by
      intro f
      rcases eq_or_ne f p with rfl | hf
      · simpa [State.apply] using le_of_lt ha
      · simp [State.apply, hf]
    obtain ⟨h₁, h₂⟩ := hR.frame hI ha (fun f => List.prefix_refl _) hterm
    exact ⟨h₁, h₂⟩
  | stand p => exact hR.stand hI p
  | grant v c => exact hR.grant hI ha
  | elect p =>
    obtain ⟨h₁, h₂⟩ := hR.frame hI ha (fun f => List.prefix_refl _) fun f => le_refl _
    exact ⟨h₁, h₂⟩
  | append p e =>
    have hlog : ∀ f, A.log f <+: (A.apply (.append p e)).log f := by
      intro f
      rcases eq_or_ne f p with rfl | hf
      · simp [State.apply]
      · simp [State.apply, hf]
    obtain ⟨h₁, h₂⟩ := hR.frame hI ha hlog fun f => le_refl _
    exact ⟨h₁, h₂⟩
  | accept f m => exact hR.accept hI ha (hc ▸ hk)
  | commit p m => exact hR.commit hI ha

end Step

/-! ### Consequences

The induction of `leader_complete` is on the term of the later leader. Suppose that all leaders
between had the committed entries. The quorum that has acknowledged them and the quorum that has
elected the leader have a peer in common, and the ballot of this peer has them, since nobody has
skipped them. The log of the leader was not behind that ballot: if it ends in the same term as the
ballot it is at least as long and has the same beginning; if it ends in a later term, its last entry
comes from the chronicle of a leader that had the committed entries. -/

/-- **An acknowledged entry is not lost within the term.** -/
theorem take_prefix_log (hR : A.Retained) {f : P} (hm : A.acked f (A.term f) m) :
    (A.chron (A.term f)).take m <+: A.log f := by
  rcases hR.held hm with h | ⟨s, hlt, hle, _⟩
  · exact h
  · omega

/-- A log that is not behind one with the committed entries has them too, if all leaders up to the
term it ends in had them. -/
theorem prefix_of_upToDate (hI : S.Inv A) {L X : List E}
    (hL : S.WellFormed A.leader A.chron L) (hB : S.WellFormed A.leader A.chron B)
    (hd : S.UpToDate L B) (hX : X <+: B) {e : E} (he : e ∈ X) (hpos : 0 < S.stamp e)
    (hXe : ∀ x ∈ X, S.stamp x ≤ S.stamp e)
    (hlater : ∀ l, S.stamp e < S.lastStamp L → A.leader (S.lastStamp L) = some l →
      X <+: A.chron (S.lastStamp L)) : X <+: L := by
  have hle : S.stamp e ≤ S.lastStamp B := by
    obtain ⟨i, hi⟩ := List.mem_iff_getElem?.mp (hX.subset he)
    have hlt := (List.getElem?_eq_some_iff.mp hi).1
    obtain ⟨last, hlast, hstamp⟩ := hB.exists_last
    rw [hstamp]
    exact hB.stamp_le (fun T l hl => hI.chron_le hl) (by omega) hi hlast
  rcases hd with hlt | ⟨heq, hlen⟩
  · -- the log ends in a later term, whose leader had the entries
    obtain ⟨⟨l, hl⟩, hLc⟩ := hL.start_of_chron (by omega)
    have hXc := hlater l (by omega) hl
    rcases List.prefix_or_prefix_of_prefix hXc hLc with h | h
    · exact h
    · obtain ⟨last, hlast, hstamp⟩ := hL.exists_last
      have := hXe last (h.subset (List.mem_of_getElem? hlast))
      omega
  · -- both logs end in the same term, so the longer one contains the shorter
    obtain ⟨_, hLc⟩ := hL.start_of_chron (by omega)
    obtain ⟨_, hBc⟩ := hB.start_of_chron (by omega)
    rw [← heq] at hBc
    exact hX.trans (List.prefix_of_prefix_length_le hBc hLc hlen)

/-- **Leader completeness.** What was committed in `T` is in the log with which any later leader
stood. -/
theorem leader_complete (hR : A.Retained) (hI : S.Inv A) (hc : A.committed T m) :
    ∀ t l L, T < t → A.leader t = some l → A.stood l t = some L → (A.chron T).take m <+: L := by
  obtain ⟨⟨k, hk⟩, _⟩ := hI.committed_le hc
  obtain ⟨⟨Q, hQ, hack⟩, i, e, rfl, he, hstamp⟩ := hI.committed_iff hc
  intro t
  -- the induction is on the term of the later leader
  induction t using Nat.strong_induction_on with
  | _ t ih =>
    intro l L hTt hl hL
    obtain ⟨Q', hQ', hvote⟩ := hI.won hl
    obtain ⟨f, hf, hf'⟩ := S.inter hQ hQ'
    obtain ⟨B, hB⟩ := hvote f hf'
    obtain ⟨L', hL', hd⟩ := hI.ballot_stood hB
    cases hL.symm.trans hL'
    have hX : (A.chron T).take (i + 1) <+: B := by
      rcases hR.balloted (hack f hf) hB hTt with h | ⟨s, hTs, hst, l', L', hl', hL', hnot⟩
      · exact h
      · exact absurd (ih s hst l' L' hTs hl' hL') hnot
    have hmem : e ∈ (A.chron T).take (i + 1) := by
      refine List.mem_of_getElem? (i := i) ?_
      rw [List.getElem?_take_of_lt (Nat.lt_succ_self i)]
      exact he
    have hTpos : 0 < T := by
      obtain ⟨L₀, hL₀, _⟩ := hI.leads hk
      exact Nat.zero_lt_of_lt ((hI.stood_wf hL₀).2 S.first
        (List.mem_of_getElem? (hI.stood_wf hL₀).1.head))
    refine prefix_of_upToDate hI (hI.stood_wf hL).1 (hI.ballot_wf hB) hd hX hmem (hstamp ▸ hTpos)
      (fun x hx => ?_) fun l' hlt hl' => ?_
    · rw [hstamp]
      exact hI.chron_le hk x (List.mem_of_mem_take hx)
    · obtain ⟨M, hM, Y, hY, _⟩ := hI.leads hl'
      obtain ⟨last, hlast, hs⟩ := (hI.stood_wf hL).1.exists_last
      have hbefore : S.lastStamp L < t :=
        hs ▸ (hI.stood_wf hL).2 last (List.mem_of_getElem? hlast)
      rw [hY]
      exact (ih _ hbefore l' M (hstamp ▸ hlt) hl' hM).trans (List.prefix_append _ _)

/-- What was committed in `T` is in the chronicle of every later term that has a leader. -/
theorem committed_chron (hR : A.Retained) (hI : S.Inv A) (hc : A.committed T m) (hT : T ≤ t)
    {l : P} (hl : A.leader t = some l) : (A.chron T).take m <+: A.chron t := by
  rcases eq_or_lt_of_le hT with rfl | hlt
  · exact List.take_prefix _ _
  · obtain ⟨L, hL, X, hX, _⟩ := hI.leads hl
    rw [hX]
    exact (hR.leader_complete hI hc t l L hlt hl hL).trans (List.prefix_append _ _)

end Retained

/-! ### Settled entries

For a reader of the log it does not matter in which term an entry was committed, only at which index
it is. `Settled` and `SettledUpTo` forget the chronicle. -/

/-- The entry `e` at index `i` is committed. -/
def Settled (A : State P E) (i : ℕ) (e : E) : Prop :=
  ∃ T m, A.committed T m ∧ i < m ∧ (A.chron T)[i]? = some e

/-- The first `k` entries of `L` are committed, by the leader of a term up to `t`. -/
def SettledUpTo (A : State P E) (t k : ℕ) (L : List E) : Prop :=
  ∃ T m, A.committed T m ∧ T ≤ t ∧ k ≤ m ∧ (A.chron T).take k <+: L

theorem Settled.mono {i : ℕ} {e : E} (h : A.Settled i e) (hI : S.Inv A) (hg : Grows A A') :
    A'.Settled i e := by
  obtain ⟨T, m, hc, hi, he⟩ := h
  obtain ⟨⟨l, hl⟩, hm⟩ := hI.committed_le hc
  obtain ⟨X, hX⟩ := hg.chron hl
  refine ⟨T, m, hg.committed hc, hi, ?_⟩
  rw [← hX, List.getElem?_append_left (hi.trans_le hm)]
  exact he

theorem SettledUpTo.mono {k k' : ℕ} {L L' : List E} (h : A.SettledUpTo t k L) (hI : S.Inv A)
    (hg : Grows A A') (ht : t ≤ t') (hk : k' ≤ k) (hL : L <+: L') : A'.SettledUpTo t' k' L' := by
  obtain ⟨T, m, hc, hT, hkm, hX⟩ := h
  obtain ⟨⟨l, hl⟩, hm⟩ := hI.committed_le hc
  refine ⟨T, m, hg.committed hc, hT.trans ht, hk.trans hkm, ?_⟩
  rw [hg.take_eq hl (hk.trans (hkm.trans hm))]
  exact (List.take_prefix_take_left hk).trans (hX.trans hL)

theorem SettledUpTo.take {k : ℕ} {L : List E} (h : A.SettledUpTo t k L) (hk : k ≤ m) :
    A.SettledUpTo t k (L.take m) := by
  obtain ⟨T, M, hc, hT, hkM, hX⟩ := h
  refine ⟨T, M, hc, hT, hkM, List.prefix_take_iff.mpr ⟨hX, ?_⟩⟩
  exact (List.length_take_le _ _).trans hk

/-- A log that starts with committed entries has them at their indices. -/
theorem getElem?_of_committed (hI : S.Inv A) (hc : A.committed T m) {i k : ℕ} {L : List E}
    (hk : k ≤ m) (hi : i < k) (hX : (A.chron T).take k <+: L) : L[i]? = (A.chron T)[i]? := by
  have hlen : i < ((A.chron T).take k).length := by
    rw [List.length_take, min_eq_left (hk.trans (hI.committed_le hc).2)]
    exact hi
  obtain ⟨X, rfl⟩ := hX
  rw [List.getElem?_append_left hlen, List.getElem?_take_of_lt hi]

theorem SettledUpTo.settled {i k : ℕ} {e : E} {L : List E} (h : A.SettledUpTo t k L)
    (hI : S.Inv A) (hi : i < k) (he : L[i]? = some e) : A.Settled i e := by
  obtain ⟨T, m, hc, _, hkm, hX⟩ := h
  refine ⟨T, m, hc, hi.trans_le hkm, ?_⟩
  rw [← getElem?_of_committed hI hc hkm hi hX]
  exact he

theorem SettledUpTo.length_take {k : ℕ} {L : List E} (h : A.SettledUpTo t k L) (hI : S.Inv A) :
    (L.take k).length = k := by
  obtain ⟨T, m, hc, _, hkm, hX⟩ := h
  have hlen := hX.length_le
  rw [List.length_take, min_eq_left (hkm.trans (hI.committed_le hc).2)] at hlen
  rw [List.length_take, min_eq_left hlen]

/-- Settled entries of a log are committed entries of a chronicle. -/
theorem SettledUpTo.take_eq {k : ℕ} {L : List E} (h : A.SettledUpTo t k L) (hI : S.Inv A) :
    ∃ T m, A.committed T m ∧ T ≤ t ∧ k ≤ m ∧ L.take k = (A.chron T).take k := by
  have hlen := h.length_take hI
  obtain ⟨T, m, hc, hT, hkm, hX⟩ := h
  have hle : (L.take k).length ≤ ((A.chron T).take k).length := by
    rw [hlen, List.length_take, min_eq_left (hkm.trans (hI.committed_le hc).2)]
  exact ⟨T, m, hc, hT, hkm,
    ((List.prefix_take_iff.mpr ⟨hX, List.length_take_le _ _⟩).eq_of_length_le hle).symm⟩

namespace Retained

/-- Settled entries of a log are in the chronicle of every later term that has a leader. -/
theorem settledUpTo_chron (hR : A.Retained) (hI : S.Inv A) {k : ℕ} {L : List E}
    (h : A.SettledUpTo t k L) (ht : t ≤ t') {l : P} (hl : A.leader t' = some l) :
    L.take k <+: A.chron t' := by
  obtain ⟨T, m, hc, hT, hkm, htake⟩ := h.take_eq hI
  rw [htake]
  exact (List.take_prefix_take_left hkm).trans (hR.committed_chron hI hc (hT.trans ht) hl)

/-- Settled entries of a log are in the logs of a quorum. -/
theorem settledUpTo_quorum (hR : A.Retained) (hI : S.Inv A) {k : ℕ} {L : List E}
    (h : A.SettledUpTo t k L) : ∃ Q, S.quorum Q ∧ ∀ f ∈ Q, L.take k <+: A.log f := by
  obtain ⟨T, m, hc, _, hkm, htake⟩ := h.take_eq hI
  obtain ⟨⟨Q, hQ, hack⟩, _⟩ := hI.committed_iff hc
  refine ⟨Q, hQ, fun f hf => ?_⟩
  rw [htake]
  refine (List.take_prefix_take_left hkm).trans ?_
  rcases hR.held (hack f hf) with hp | ⟨s, hTs, _, l, L', hl, hL', hnot⟩
  · exact hp
  · exact absurd (hR.leader_complete hI hc s l L' hTs hl hL') hnot

/-- What a peer takes over does not undo what is settled in its log. -/
theorem settledUpTo_accept [DecidableEq P] (hR : A.Retained) (hI : S.Inv A) {f : P} {k : ℕ}
    (ha : S.Allowed A (.accept f m))
    (hk : (A.chron (A.term f)).take m <+: A.log f → A.log f <+: (A.chron (A.term f)).take m)
    (h : A.SettledUpTo (A.term f) k (A.log f)) :
    A.SettledUpTo (A.term f) k ((A.chron (A.term f)).take m) := by
  obtain ⟨T, M, hc, hT, hkM, hX⟩ := h
  obtain ⟨⟨l, hl, _⟩, _⟩ := ha
  refine ⟨T, M, hc, hT, hkM, take_of_keeps hX ?_ hk⟩
  exact (List.take_prefix_take_left hkM).trans (hR.committed_chron hI hc hT hl)

/-- **There is one settled entry at an index**, whoever commits it and when. -/
theorem settled_unique (hR : A.Retained) (hI : S.Inv A) {i : ℕ} {e e' : E} (h : A.Settled i e)
    (h' : A.Settled i e') : e = e' := by
  -- the chronicle of the later of the two terms has both
  have hlater : ∀ {T m T' m' e}, A.committed T m → A.committed T' m' → T ≤ T' → i < m →
      (A.chron T)[i]? = some e → (A.chron T')[i]? = some e := by
    intro T m T' m' e hc hc' hT hi he
    obtain ⟨⟨l, hl⟩, _⟩ := hI.committed_le hc'
    rw [getElem?_of_committed hI hc (le_refl m) hi (hR.committed_chron hI hc hT hl)]
    exact he
  obtain ⟨T, m, hc, hi, he⟩ := h
  obtain ⟨T', m', hc', hi', he'⟩ := h'
  rcases le_total T T' with hT | hT
  · exact Option.some.inj ((hlater hc hc' hT hi he).symm.trans he')
  · exact Option.some.inj (he.symm.trans (hlater hc' hc hT hi' he'))

end Retained

end State

theorem Setting.retained_of_reachable [DecidableEq P] {c : System.Config (State P E) Empty}
    (hc : S.protocol.Reachable Setting.Keeps c) : c.state.Retained := by
  refine System.Reachable.invariant (M := S.protocol) (P := fun c => c.state.Retained)
    State.Retained.init ?_ hc
  intro c a c' hc hR hk hn
  obtain ⟨ha, hs⟩ := S.protocol_next hn
  rw [hs]
  exact hR.apply rfl (S.inv_of_reachable hc) ha hk

end ReplicatedLog

end Distsys
