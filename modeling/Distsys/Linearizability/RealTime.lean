import Distsys.Linearizability.Events

/-!
# Real time

A history is judged by real time if `CheckOperations` finds out whether it is linearizable, in
whatever order its operations are given. Whether this can be relied on depends on the times alone:
no operation may return at the time of a call.

If one does, `sort.Sort` is free to put the return in front of the call. When both belong to one
operation, the call has no return behind it; the search then never takes the operation out of the
list, and does not return `true`. When they belong to two operations, the search takes the one as
over before the other has begun.

## Two directions

For a history without ties, all sorts agree on what matters, and the result about `CheckOperations`
applies. For one with a tie, a sort and a model are constructed for which the answer is wrong. The
model depends on the tie. So nothing is said about a fixed model or a fixed implementation of
`sort.Sort`; what is said is that the documentation of `sort.Sort` is not enough.

## Main definitions

* `JudgedByRealTime`
* `Search.Rounds` — the cases of a round of `checkSingle`
* `Stacked`, `Confined` — the list of a search that cannot take out one of the operations
* `returnsFirst`

## Main results

* `judgedByRealTime` — histories without ties
* `not_decided_true` — an operation whose return comes before its call
* `checkOperations_real_time_iff`
-/

namespace Distsys

namespace Linearizability

variable {σ ι ο : Type}

/-- There is one result, whatever the order of the operations in the slice and whatever `sort.Sort`
does with entries of the same time, and it says if the history is linearizable. -/
def JudgedByRealTime (model : Model σ ι ο) (history : List (Operation ι ο)) : Prop :=
  ∃ result : Bool,
    (result = true ↔ Linearizable (fun a b => a.ret < b.call) model.stepOperation model.init
      history) ∧
    ∀ (sort : UnstableSort (Entry ι ο) fun a b => a.time < b.time) history',
      history'.Perm history → ∃ init, Checker.start model sort history' = some init ∧
        Checker.AlwaysReturns model init result

/-- **A history without ties is judged by real time.** -/
theorem judgedByRealTime {model : Model σ ι ο} (hequal : model.LawfulEqual)
    (hpartition : model.partition = noPartition) {history : List (Operation ι ο)}
    (h : Untied history) : JudgedByRealTime model history := by
  classical
  refine ⟨decide (Linearizable (fun a b => a.ret < b.call) model.stepOperation model.init history),
    decide_eq_true_iff, fun sort history' hp => ?_⟩
  obtain ⟨verdict, hreturns, hiff⟩ := (h.perm hp).decided hequal sort
  obtain ⟨init, hinit, hall⟩ :=
    Checker.alwaysReturns_start_single (by rw [hpartition]; rfl) hreturns
  refine ⟨init, hinit, ?_⟩
  convert hall
  rw [Bool.eq_iff_iff, decide_eq_true_iff, hiff]
  exact ⟨fun hlin => hlin.perm hp.symm, fun hlin => hlin.perm hp⟩

/-! ### An operation that stays in the list

An operation whose return is not behind its call is never lifted, whatever else happens:
`checkSingle` takes its call for a return, as it has no match. So the list never becomes empty and
the search never returns `true`. This needs nothing of the model. -/

section Confined

variable {model : Model σ ι ο} {s s' : Search σ ι ο}

/-- The cases of a round. -/
inductive Search.Rounds (s : Search σ ι ο) : Search σ ι ο ⊕ Bool → Prop where
  | empty {head : Node ι ο} (hhead : s.heap.deref (some s.headEntry) = some head)
      (hnext : head.next = none) : Rounds s (.inr true)
  | skip {entry : Node ι ο} (hentry : s.heap.deref s.entry = some entry) :
    Rounds s (.inl { s with entry := entry.next })
  | lift {entry head : Node ι ο} {heap : Heap ι ο} {b : Bitset} {newState : σ}
      (hentry : s.heap.deref s.entry = some entry) (hmatch : entry.matching ≠ none)
      (hlift : s.heap.lift s.entry = some heap)
      (hhead : heap.deref (some s.headEntry) = some head) :
    Rounds s (.inl (s.pushed heap b newState head.next))
  | unlift {top : Option ℕ} {state : σ} {calls : List (Option ℕ × σ)} {b : Bitset}
      {heap : Heap ι ο} {node : Node ι ο} (hcalls : s.calls = (top, state) :: calls)
      (hunlift : s.heap.unlift top = some heap) (hnode : heap.deref top = some node) :
    Rounds s (.inl { s with heap, linearized := b, calls, state, entry := node.next })
  | exhausted : Rounds s (.inr false)

theorem Search.rounds_of_eq_some {r : Search σ ι ο ⊕ Bool} (h : s.step model false = some r) :
    Search.Rounds s r := by
  obtain ⟨head, hhead, h⟩ := Option.bind_eq_some_iff.mp h
  split at h
  · rename_i hnext
    cases h
    exact .empty hhead hnext
  · rw [if_neg Bool.false_ne_true] at h
    obtain ⟨entry, hentry, h⟩ := Option.bind_eq_some_iff.mp h
    split at h
    · rename_i hmatch
      obtain ⟨matching, hmatching, h⟩ := Option.bind_eq_some_iff.mp h
      obtain ⟨⟨ok, newState⟩, hvalues, h⟩ := Option.bind_eq_some_iff.mp h
      dsimp only at h
      split at h
      · obtain ⟨b, hset, h⟩ := Option.bind_eq_some_iff.mp h
        split at h
        · obtain ⟨b', hset', h⟩ := Option.bind_eq_some_iff.mp h
          cases hset.symm.trans hset'
          obtain ⟨heap, hlift, h⟩ := Option.bind_eq_some_iff.mp h
          obtain ⟨head', hhead', h⟩ := Option.bind_eq_some_iff.mp h
          cases h
          exact .lift hentry hmatch hlift hhead'
        · cases h
          exact .skip hentry
      · cases h
        exact .skip hentry
    · split at h
      · cases h
        exact .exhausted
      · rename_i top state calls hcalls
        obtain ⟨node, hnode, h⟩ := Option.bind_eq_some_iff.mp h
        obtain ⟨b, hclear, h⟩ := Option.bind_eq_some_iff.mp h
        obtain ⟨heap, hunlift, h⟩ := Option.bind_eq_some_iff.mp h
        obtain ⟨node', hnode', h⟩ := Option.bind_eq_some_iff.mp h
        cases h
        exact .unlift hcalls hunlift hnode'

variable {entries : List (Entry ι ο)} {out : ℕ → Bool} {h : Heap ι ο} {id : ℕ}

/-- The return of an operation is somewhere behind its call. -/
def ReturnsAfter (entries : List (Entry ι ο)) (id : ℕ) : Prop :=
  ∃ c r : ℕ, r < c ∧ (∃ input t, entries.reverse[c]? = some ⟨.callEntry input, id, t⟩) ∧
    ReturnAt entries.reverse r id

/-- A node with a match is a call whose return is behind it. -/
theorem Lifting.call_of_match (hL : Lifting entries out h) {p : ℕ} (hp : p ∈ unlifted entries out)
    {node : Node ι ο} (hnode : h.deref (some p) = some node) (hmatch : node.matching ≠ none) :
    ∃ input id t, entries.reverse[p]? = some ⟨.callEntry input, id, t⟩ ∧
      ReturnsAfter entries id := by
  obtain ⟨⟨value, id, t⟩, he, -⟩ := mem_unlifted.mp hp
  obtain ⟨-, -, hok⟩ := hL.node he hnode
  obtain ⟨q, hq⟩ := Option.ne_none_iff_exists'.mp hmatch
  obtain ⟨hqp, hret⟩ := hok.some q hq
  cases value with
  | callEntry input => exact ⟨input, id, t, he, p, q, hqp, ⟨input, t, he⟩, hret⟩
  | returnEntry output => exact absurd (hok.ofReturn output rfl) hmatch

/-- The next node of the list is in the list. -/
theorem Lifting.next_mem (hL : Lifting entries out h) {p q : ℕ} (hp : p ∈ unlifted entries out)
    {node : Node ι ο} (hnode : h.deref (some p) = some node) (hq : node.next = some q) :
    q ∈ unlifted entries out := by
  obtain ⟨e, he, -⟩ := mem_unlifted.mp hp
  obtain ⟨-, hnext, -⟩ := hL.node he hnode
  exact hL.linked.mem_of_transGen ((hL.linked.transGen_of_mem hp).tail (hnext.symm.trans hq))

/-- The stack of a search that has not taken out operation `id`, with the operations it has taken
out. Putting the last one back leads to the heap from before. -/
inductive Stacked (entries : List (Entry ι ο)) (id : ℕ) :
    List (Option ℕ × σ) → Heap ι ο → (ℕ → Bool) → Prop where
  | nil {h : Heap ι ο} (hL : Lifting entries (fun _ => false) h) :
    Stacked entries id [] h fun _ => false
  | cons {calls : List (Option ℕ × σ)} {h h' : Heap ι ο} {out out' : ℕ → Bool} {c : ℕ} {state : σ}
      (hs : Stacked entries id calls h out) (hc : c ∈ unlifted entries out)
      (hL : Lifting entries out' h') (hid : out' id = false)
      (hunlift : h'.unlift (some c) = some h) :
    Stacked entries id ((some c, state) :: calls) h' out'

theorem Stacked.lifting {calls : List (Option ℕ × σ)} (hs : Stacked entries id calls h out) :
    Lifting entries out h ∧ out id = false := by
  cases hs with
  | nil hL => exact ⟨hL, rfl⟩
  | cons _ _ hL hid _ => exact ⟨hL, hid⟩

/-- Operation `id` is in the list, and the search is at a node of the list. -/
structure Confined (entries : List (Entry ι ο)) (id : ℕ) (out : ℕ → Bool) (s : Search σ ι ο) :
    Prop where
  headEntry : s.headEntry = entries.length
  /-- The stack of the search leads back through heaps that all have the operation. -/
  stacked : Stacked entries id s.calls s.heap out
  entry : ∀ p, s.entry = some p → p ∈ unlifted entries out

/-- **A round** does not take out an operation whose return is not behind its call. -/
theorem Confined.step (hpair : ∀ id, ReturnsAfter entries id → PairAt entries id)
    (hid : ¬ ReturnsAfter entries id) (hC : Confined entries id out s)
    (hs : Search.Rounds s (.inl s')) : ∃ out', Confined entries id out' s' := by
  obtain ⟨hL, hout⟩ := hC.stacked.lifting
  cases hs with
  | skip hentry =>
    obtain ⟨p, hp, -⟩ := Option.bind_eq_some_iff.mp hentry
    rw [hp] at hentry
    exact ⟨out, hC.headEntry, hC.stacked, fun q hq => hL.next_mem (hC.entry p hp) hentry hq⟩
  | lift hentry hmatch hlift hhead =>
    obtain ⟨p, hp, -⟩ := Option.bind_eq_some_iff.mp hentry
    rw [hp] at hentry hlift
    obtain ⟨input, id', t, he, hafter⟩ := hL.call_of_match (hC.entry p hp) hentry hmatch
    obtain ⟨X, Y, hleft⟩ := List.append_of_mem (hC.entry p hp)
    obtain ⟨output, r, B, C, rfl, hcall, hret, -, -, hset⟩ := hL.atCall (hpair id' hafter) hleft he
    obtain ⟨h', hlift', -, hL', hunlift⟩ := hL.lift hleft hcall hret (hset _ fun _ => rfl)
    cases hlift.symm.trans hlift'
    have hne : id ≠ id' := by
      rintro rfl
      exact hid hafter
    refine ⟨fun q => decide (q = id') || out q, hC.headEntry, ?_, fun q hq => ?_⟩
    · rw [Search.pushed, hp]
      exact .cons hC.stacked (hC.entry p hp) hL' (by simp [hne, hout]) hunlift
    · obtain ⟨head, hhead', hnext⟩ := hL'.deref_head
      rw [hC.headEntry] at hhead
      cases hhead.symm.trans hhead'
      exact List.mem_of_mem_head? (hnext ▸ hq)
  | unlift hcalls hunlift hnode =>
    have hstacked := hC.stacked
    rw [hcalls] at hstacked
    cases hstacked with
    | cons hs hc _ _ hback =>
      cases hunlift.symm.trans hback
      exact ⟨_, hC.headEntry, hs, fun q hq => hs.lifting.1.next_mem hc hnode hq⟩

/-- As long as an operation is in the list the search does not return `true`. -/
theorem Confined.ne_true (hC : Confined entries id out s) (hmem : ∃ e ∈ entries, e.id = id) :
    ¬ Search.Rounds s (.inr true) := by
  intro hs
  obtain ⟨hL, hout⟩ := hC.stacked.lifting
  cases hs with
  | empty hhead hnext =>
    obtain ⟨head, hhead', hempty⟩ := hL.deref_head
    rw [hC.headEntry] at hhead
    cases hhead.symm.trans hhead'
    obtain ⟨e, he, rfl⟩ := hmem
    obtain ⟨p, hp⟩ := List.mem_iff_getElem?.mp (List.mem_reverse.mpr he)
    have hp : p ∈ unlifted entries out := mem_unlifted.mpr ⟨e, hp, hout⟩
    rw [List.head?_eq_none_iff.mp (hempty.symm.trans hnext)] at hp
    exact List.not_mem_nil hp

theorem Confined.not_returns (hpair : ∀ id, ReturnsAfter entries id → PairAt entries id)
    (hid : ¬ ReturnsAfter entries id) (hmem : ∃ e ∈ entries, e.id = id)
    (hC : Confined entries id out s) {k : ℕ} : ¬ Search.Returns model s k true := by
  intro hreturns
  induction k generalizing s out with
  | zero =>
    cases hreturns with
    | now hret => exact hC.ne_true hmem (Search.rounds_of_eq_some hret)
  | succ k ih =>
    cases hreturns with
    | later hstep hreturns =>
      obtain ⟨out', hC'⟩ := hC.step hpair hid (Search.rounds_of_eq_some hstep)
      exact ih hC' hreturns

/-- **An operation whose return comes before its call** keeps the search from returning `true`. -/
theorem not_decided_true (hpair : ∀ id, ReturnsAfter entries id → PairAt entries id)
    (hid : ¬ ReturnsAfter entries id) (hmem : ∃ e ∈ entries, e.id = id) :
    ¬ Decided model entries true := by
  rintro ⟨l, fuel, hl, hcheck⟩
  obtain ⟨l', hl', hB⟩ := makeLinkedEntries_spec entries
  cases hl.symm.trans hl'
  obtain ⟨heap, hstart, hL⟩ := Search.start_eq model hB
  rw [checkSingle, hstart] at hcheck
  obtain ⟨k, hk⟩ := Search.returns_of_run hcheck
  refine Confined.not_returns hpair hid hmem ⟨rfl, .nil hL, fun p hp => ?_⟩ hk
  rw [unlifted_none]
  exact List.mem_of_mem_head? (hB.root ▸ hp)

end Confined

/-! ### Returns in front of calls

Entries with the same time are in an order that `sort.Sort` is free to choose. For the two entries
of one operation this is a choice between an operation and none. -/

/-- The order of entries by time, with returns before calls. -/
def Entry.rank (e : Entry ι ο) : ℤ :=
  2 * e.time + match e.value with
    | .callEntry _ => 1
    | .returnEntry _ => 0

/-- A sort that puts the returns first among entries of the same time. -/
def returnsFirst (ι ο : Type) : UnstableSort (Entry ι ο) fun a b => a.time < b.time where
  sort := (UnstableSort.ascending Entry.rank).sort
  perm := (UnstableSort.ascending Entry.rank).perm
  sorted l := by
    refine ((UnstableSort.ascending Entry.rank).sorted l).imp fun {a b} hrank htime => hrank ?_
    simp only [Entry.rank]
    split <;> split <;> omega

section Ties

variable {history : List (Operation ι ο)}

theorem rank_le_of_lt {i j : ℕ} {e e' : Entry ι ο}
    (hi : (makeEntries (returnsFirst ι ο) history)[i]? = some e)
    (hj : (makeEntries (returnsFirst ι ο) history)[j]? = some e') (hij : i < j) :
    e.rank ≤ e'.rank := by
  obtain ⟨hlti, rfl⟩ := List.getElem?_eq_some_iff.mp hi
  obtain ⟨hltj, rfl⟩ := List.getElem?_eq_some_iff.mp hj
  exact not_lt.mp (List.pairwise_iff_getElem.mp
    ((UnstableSort.ascending Entry.rank).sorted (entriesFrom 0 history)) i j hlti hltj hij)

/-- A return comes before a call of the same time. -/
theorem precedes_of_tie {a b : ℕ} {opa opb : Operation ι ο} (ha : history[a]? = some opa)
    (hb : history[b]? = some opb) (htie : opa.ret = opb.call) :
    Precedes (makeEntries (returnsFirst ι ο) history) a b := by
  obtain ⟨i, hi⟩ := List.mem_iff_getElem?.mp (mem_makeEntries.mpr ⟨a, opa, ha, Or.inr rfl⟩ :
    opa.returnEntry a ∈ makeEntries (returnsFirst ι ο) history)
  obtain ⟨j, hj⟩ := List.mem_iff_getElem?.mp (mem_makeEntries.mpr ⟨b, opb, hb, Or.inl rfl⟩ :
    opb.callEntry b ∈ makeEntries (returnsFirst ι ο) history)
  refine ⟨i, j, ?_, ⟨_, _, hi⟩, _, _, hj⟩
  rcases lt_trichotomy i j with hij | rfl | hij
  · exact hij
  · cases hi.symm.trans hj
  · have hrank := rank_le_of_lt hj hi hij
    simp only [Entry.rank, Operation.callEntry, Operation.returnEntry] at hrank
    omega

/-- An operation whose return is behind its call is paired. -/
theorem pairAt_of_returnsAfter {sort : UnstableSort (Entry ι ο) fun a b => a.time < b.time} {id : ℕ}
    (h : ReturnsAfter (makeEntries sort history) id) : PairAt (makeEntries sort history) id := by
  obtain ⟨c, r, hrc, ⟨input, t, hc⟩, output, t', hr⟩ := h
  obtain ⟨op, hop, -⟩ := operation_of_mem (List.mem_reverse.mp (List.mem_of_getElem? hc))
  rcases filter_makeEntries sort hop with heq | heq
  · exact ⟨_, _, _, _, heq⟩
  · -- no entry of the operation is a call with a return behind it
    have hnot : (makeEntries sort history).Pairwise fun a b => decide (a.id = id) = true →
        decide (b.id = id) = true →
        ¬ ((∃ i, a.value = .callEntry i) ∧ ∃ o, b.value = .returnEntry o) := by
      rw [← List.pairwise_filter, heq]
      simp [Operation.callEntry, Operation.returnEntry]
    obtain ⟨hltc, hc⟩ := List.getElem?_eq_some_iff.mp hc
    obtain ⟨hltr, hr⟩ := List.getElem?_eq_some_iff.mp hr
    have hcr := List.pairwise_iff_getElem.mp (List.pairwise_reverse.mpr hnot) r c hltr hltc hrc
    rw [hc, hr] at hcr
    exact absurd ⟨⟨_, rfl⟩, _, rfl⟩ (hcr (by simp) (by simp))

/-- The return of an operation that returns when it is called comes before its call. -/
theorem not_returnsAfter_of_tie {a : ℕ} {op : Operation ι ο} (ha : history[a]? = some op)
    (htie : op.ret = op.call) : ¬ ReturnsAfter (makeEntries (returnsFirst ι ο) history) a := by
  intro hafter
  obtain ⟨input, t, output, t', hpair⟩ := pairAt_of_returnsAfter hafter
  rcases filter_makeEntries (returnsFirst ι ο) ha with heq | heq
  · have hsorted := ((UnstableSort.ascending Entry.rank).sorted (entriesFrom 0 history)).filter
      fun e => e.id = a
    have hsorted : ([op.callEntry a, op.returnEntry a].Pairwise fun e e' => ¬ e'.rank < e.rank) :=
      heq ▸ hsorted
    refine (List.pairwise_cons.mp hsorted).1 _ (List.mem_singleton.mpr rfl) ?_
    simp only [Entry.rank, Operation.callEntry, Operation.returnEntry]
    omega
  · cases hpair.symm.trans heq

end Ties

/-! ### Histories with ties

To see that a tie can be judged wrongly there has to be a model for which it matters. `gateModel` is
made for two given operations and refuses one of them until it has seen the other. If the first
returns when the second is called, a sort that puts returns in front of calls has the search insist
on the order that is refused, although the two overlap. -/

/-- Operations with the given times, numbered by their inputs. -/
def numbered (times : List (ℤ × ℤ)) : List (Operation ℕ Unit) :=
  times.zipIdx.map fun t => ⟨t.2, t.1.1, (), t.1.2⟩

section Numbered

variable {times : List (ℤ × ℤ)}

theorem getElem?_numbered (times : List (ℤ × ℤ)) (i : ℕ) :
    (numbered times)[i]? = times[i]?.map fun t => ⟨i, t.1, (), t.2⟩ := by
  simp [numbered, Function.comp_def]

theorem times_numbered (times : List (ℤ × ℤ)) :
    (numbered times).map (fun op => (op.call, op.ret)) = times := by
  simp [numbered, Function.comp_def]

theorem mem_numbered {op : Operation ℕ Unit} (h : op ∈ numbered times) :
    times[op.input]? = some (op.call, op.ret) := by
  obtain ⟨i, hi⟩ := List.mem_iff_getElem?.mp h
  rw [getElem?_numbered] at hi
  obtain ⟨t, ht, rfl⟩ := Option.map_eq_some_iff.mp hi
  exact ht

theorem nodup_numbered (times : List (ℤ × ℤ)) :
    ((numbered times).map Operation.input).Nodup := by
  have hmap : (numbered times).map Operation.input = times.zipIdx.map Prod.snd := by
    simp [numbered, Function.comp_def]
  rw [hmap, List.zipIdx_map_snd]
  exact List.nodup_range'

/-- An order by some key explains the operations, if the model accepts it. -/
theorem linearizable_of_key {model : Model σ ι ο} {history : List (Operation ι ο)}
    (key : Operation ι ο → ℤ)
    (hkey : ∀ a ∈ history, ∀ b ∈ history, key a ≤ key b → ¬ b.ret < a.call)
    (haccept : ∀ order : List (Operation ι ο), order.Perm history →
      order.Pairwise (fun a b => key a ≤ key b) →
        ∃ t, order.foldlM model.stepOperation model.init = some t) :
    Linearizable (fun a b => a.ret < b.call) model.stepOperation model.init history := by
  have hperm := (UnstableSort.ascending key).perm history
  have hsorted := ((UnstableSort.ascending key).sorted history).imp fun h => not_lt.mp h
  refine ⟨_, hperm, ?_, haccept _ hperm hsorted⟩
  exact hsorted.imp_of_mem fun ha hb hle =>
    hkey _ (hperm.mem_iff.mp ha) _ (hperm.mem_iff.mp hb) hle

/-- A model that accepts everything. -/
def anything : Model Unit ℕ Unit where
  init := ()
  step _ _ _ := (true, ())
  equal _ _ := true

/-- **An operation that returns when it is called.** -/
theorem not_judged_of_instant (hle : ∀ t ∈ times, t.1 ≤ t.2) {t : ℤ × ℤ} (ht : t ∈ times)
    (htie : t.2 = t.1) : ¬ JudgedByRealTime anything (numbered times) := by
  rintro ⟨result, hiff, hjudged⟩
  have haccept : ∀ order : List (Operation ℕ Unit),
      order.foldlM anything.stepOperation () = some () := by
    intro order
    induction order with
    | nil => rfl
    | cons op order ih => exact ih
  have hlin : Linearizable (fun a b => a.ret < b.call) anything.stepOperation anything.init
      (numbered times) := by
    refine linearizable_of_key Operation.call (fun a ha b hb hab => ?_)
      fun order _ _ => ⟨(), haccept order⟩
    have := hle _ (List.mem_of_getElem? (mem_numbered hb))
    exact not_lt.mpr (hab.trans this)
  obtain ⟨init, hinit, hreturns⟩ := hjudged (returnsFirst ℕ Unit) _ (List.Perm.refl _)
  rw [hiff.mpr hlin] at hreturns
  obtain ⟨as, c, hc, hret⟩ := hreturns.exists_run
  obtain ⟨workers, heq, hw⟩ := Checker.exists_workers anything
    (makeEntries (returnsFirst ℕ Unit)) (anything.partition (numbered times))
  obtain rfl : init = ⟨workers, true, false, 0, none⟩ := by
    rw [Checker.start, heq] at hinit
    cases hinit
    rfl
  have hdecided := ((Checker.aggregates_of_begins (List.cons_ne_nil _ _) hw).iff as c true hc
    hret).mp rfl _ List.mem_cons_self
  obtain ⟨i, hi⟩ := List.mem_iff_getElem?.mp ht
  have hop : (numbered times)[i]? = some ⟨i, t.1, (), t.2⟩ := by
    rw [getElem?_numbered, hi]
    rfl
  exact not_decided_true (fun _ => pairAt_of_returnsAfter) (not_returnsAfter_of_tie hop htie)
    ⟨_, mem_makeEntries.mpr ⟨i, _, hop, Or.inl rfl⟩, rfl⟩ hdecided

/-- The specification that refuses operation `i` until it has seen `j`. -/
def gate (i j : ℕ) (seen : Bool) (k : ℕ) : Option Bool :=
  if k = i then (if seen then some seen else none) else some (seen || decide (k = j))

theorem foldlM_gate {i j : ℕ} {order : List ℕ} (hi : i ∉ order) (seen : Bool) :
    order.foldlM (gate i j) seen = some (seen || decide (j ∈ order)) := by
  induction order generalizing seen with
  | nil => simp
  | cons k order ih =>
    obtain ⟨hk, hi⟩ := not_or.mp (mt List.mem_cons.mpr hi)
    rw [List.foldlM_cons, gate, if_neg (Ne.symm hk)]
    refine (ih hi _).trans ?_
    simp [Bool.or_assoc, eq_comm]

/-- It accepts the orders in which `j` comes before `i`. -/
theorem gate_accepts_iff {i j : ℕ} {A B : List ℕ} (hA : i ∉ A) (hB : i ∉ B) :
    (∃ t, (A ++ i :: B).foldlM (gate i j) false = some t) ↔ j ∈ A := by
  rw [List.foldlM_append, foldlM_gate hA, Bool.false_or]
  by_cases hj : j ∈ A
  · simp only [hj, decide_true, Option.bind_eq_bind, Option.bind_some, List.foldlM_cons, iff_true]
    exact ⟨true || decide (j ∈ B), by simpa [gate] using foldlM_gate hB true⟩
  · simp [hj, gate]

/-- The model with this specification. -/
def gateModel (i j : ℕ) : Model Bool ℕ Unit where
  init := false
  step seen k _ := ((gate i j seen k).isSome, (gate i j seen k).getD seen)
  equal s t := s == t

theorem gateModel_lawfulEqual (i j : ℕ) : (gateModel i j).LawfulEqual :=
  Model.lawfulEqual_of_eq fun _ _ => beq_iff_eq

theorem stepOperation_gateModel (i j : ℕ) (seen : Bool) (op : Operation ℕ Unit) :
    (gateModel i j).stepOperation seen op = gate i j seen op.input := by
  cases h : gate i j seen op.input <;> simp [Model.stepOperation, Model.accept, gateModel, h]

section Gate

variable {i j : ℕ} {s t : ℤ × ℤ}

/-- The operation that is called when another one returns may take effect before it. -/
theorem linearizable_of_tie (hlt : ∀ t ∈ times, t.1 < t.2) (hi : times[i]? = some s)
    (hj : times[j]? = some t) (htie : s.2 = t.1) :
    Linearizable (fun a b => a.ret < b.call) (gateModel i j).stepOperation (gateModel i j).init
      (numbered times) := by
  have hij : i ≠ j := by
    rintro rfl
    cases hi.symm.trans hj
    exact (hlt s (List.mem_of_getElem? hi)).ne htie.symm
  -- by the time of the call, but `i` right after `j`
  set key : Operation ℕ Unit → ℤ := fun op => if op.input = i then 2 * s.2 + 1 else 2 * op.call
    with hkey
  have htimes : ∀ op ∈ numbered times, op.call < op.ret := fun op hop =>
    hlt _ (List.mem_of_getElem? (mem_numbered hop))
  have htimes_i : ∀ op ∈ numbered times, op.input = i → op.call < s.2 ∧ op.ret = s.2 := by
    intro op hop hopi
    have hop' := mem_numbered hop
    rw [hopi] at hop'
    cases hi.symm.trans hop'
    exact ⟨htimes op hop, rfl⟩
  refine linearizable_of_key key (fun a ha b hb hab => ?_) fun order hperm hsorted => ?_
  · have := htimes a ha
    have := htimes b hb
    simp only [hkey] at hab
    split at hab <;> split at hab
    · rename_i hai hbi
      have := htimes_i a ha hai
      have := htimes_i b hb hbi
      omega
    · rename_i hai _
      have := htimes_i a ha hai
      omega
    · rename_i _ hbi
      have := htimes_i b hb hbi
      omega
    · omega
  · have hopi : (⟨i, s.1, (), s.2⟩ : Operation ℕ Unit) ∈ order := by
      refine hperm.mem_iff.mpr (List.mem_of_getElem? (i := i) ?_)
      rw [getElem?_numbered, hi]
      rfl
    have hopj : (⟨j, t.1, (), t.2⟩ : Operation ℕ Unit) ∈ order := by
      refine hperm.mem_iff.mpr (List.mem_of_getElem? (i := j) ?_)
      rw [getElem?_numbered, hj]
      rfl
    obtain ⟨A, B, rfl⟩ := List.append_of_mem hopi
    have hnodup : ((A ++ ⟨i, s.1, (), s.2⟩ :: B).map Operation.input).Nodup :=
      (hperm.map _).nodup_iff.mpr (nodup_numbered times)
    rw [List.map_append, List.map_cons] at hnodup
    obtain ⟨-, hB, hdisj⟩ := List.nodup_append'.mp hnodup
    have hA : i ∉ A.map Operation.input := fun h => hdisj h List.mem_cons_self
    have hjA : j ∈ A.map Operation.input := by
      rcases List.mem_append.mp hopj with hmem | hmem
      · exact List.mem_map.mpr ⟨_, hmem, rfl⟩
      · rcases List.mem_cons.mp hmem with heq | hmem
        · exact absurd (congrArg Operation.input heq).symm hij
        · have hle := (List.pairwise_cons.mp (List.pairwise_append.mp hsorted).2.1).1 _ hmem
          simp only [hkey, if_true, if_neg hij.symm] at hle
          omega
    have hgate : ∃ u, ((A ++ ⟨i, s.1, (), s.2⟩ :: B).map Operation.input).foldlM (gate i j) false =
        some u := by
      rw [List.map_append, List.map_cons]
      exact (gate_accepts_iff hA (List.nodup_cons.mp hB).1).mpr hjA
    rw [List.foldlM_map] at hgate
    simp only [← stepOperation_gateModel] at hgate
    exact hgate

/-- With the return in front, the list of entries has no such order. -/
theorem not_linearizable_of_tie (hlt : ∀ t ∈ times, t.1 < t.2) (hi : times[i]? = some s)
    (hj : times[j]? = some t) (htie : s.2 = t.1) :
    ¬ Linearizable (Precedes (makeEntries (returnsFirst ℕ Unit) (numbered times)))
      (applyOp (gateModel i j).accept (makeEntries (returnsFirst ℕ Unit) (numbered times)))
      (gateModel i j).init (List.range (numbered times).length) := by
  rintro ⟨order, hperm, hrespects, haccepted⟩
  have hopi : (numbered times)[i]? = some ⟨i, s.1, (), s.2⟩ := by
    rw [getElem?_numbered, hi]
    rfl
  have hopj : (numbered times)[j]? = some ⟨j, t.1, (), t.2⟩ := by
    rw [getElem?_numbered, hj]
    rfl
  have hprec := precedes_of_tie hopi hopj htie
  have hmem : i ∈ order := hperm.mem_iff.mpr
    (List.mem_range.mpr (List.getElem?_eq_some_iff.mp hopi).1)
  obtain ⟨A, B, rfl⟩ := List.append_of_mem hmem
  have hnodup : (A ++ i :: B).Nodup := hperm.nodup_iff.mpr List.nodup_range
  obtain ⟨-, hB, hdisj⟩ := List.nodup_append'.mp hnodup
  have hstep : ∀ seen, ∀ k ∈ A ++ i :: B, applyOp (gateModel i j).accept
      (makeEntries (returnsFirst ℕ Unit) (numbered times)) seen k = gate i j seen k := by
    intro seen k hk
    have hklt := List.mem_range.mp (hperm.mem_iff.mp hk)
    have hop := List.getElem?_eq_getElem hklt
    have hlt' : ∀ op ∈ numbered times, op.call < op.ret := fun op hop =>
      hlt _ (List.mem_of_getElem? (mem_numbered hop))
    have hinput : (numbered times)[k].input = k := by
      have hop' := hop
      rw [getElem?_numbered] at hop'
      obtain ⟨u, -, heq⟩ := Option.map_eq_some_iff.mp hop'
      rw [← heq]
    rw [applyOp_eq_of_lt hlt' hop, stepOperation_gateModel, hinput]
  obtain ⟨u, hu⟩ := haccepted
  rw [foldlM_congr_of_mem hstep] at hu
  have hjA := (gate_accepts_iff (fun h => hdisj h List.mem_cons_self)
    (List.nodup_cons.mp hB).1).mp ⟨u, hu⟩
  exact (List.pairwise_append.mp hrespects).2.2 j hjA i List.mem_cons_self hprec

/-- **An operation that is called when another one returns.** -/
theorem not_judged_of_tie (hlt : ∀ t ∈ times, t.1 < t.2) (hi : times[i]? = some s)
    (hj : times[j]? = some t) (htie : s.2 = t.1) :
    ¬ JudgedByRealTime (gateModel i j) (numbered times) := by
  rintro ⟨result, hiff, hjudged⟩
  obtain ⟨init, hinit, hreturns⟩ := hjudged (returnsFirst ℕ Unit) _ (List.Perm.refl _)
  rw [hiff.mpr (linearizable_of_tie hlt hi hj htie)] at hreturns
  obtain ⟨l, hl, hB⟩ := makeLinkedEntries_spec (makeEntries (returnsFirst ℕ Unit) (numbered times))
  have hlt' : ∀ op ∈ numbered times, op.call < op.ret := fun op hop =>
    hlt _ (List.mem_of_getElem? (mem_numbered hop))
  obtain ⟨s₀, s₁, verdict, hstart, hreach, hret, hverdict⟩ :=
    Search.decides (gateModel_lawfulEqual i j) (paired_of_lt hlt') hB
  obtain ⟨N, hN⟩ := Search.run_of_reach hreach hret
  have hfalse : verdict = false :=
    Bool.eq_false_iff.mpr (mt hverdict.mp (not_linearizable_of_tie hlt hi hj htie))
  have hsingle : Decided (gateModel i j) (makeEntries (returnsFirst ℕ Unit) (numbered times))
      false := by
    refine ⟨l, N, hl, ?_⟩
    rw [checkSingle, hstart, ← hfalse]
    exact hN N le_rfl
  obtain ⟨init', hinit', hreturns'⟩ :=
    Checker.alwaysReturns_start_single rfl hsingle
  cases hinit.symm.trans hinit'
  obtain ⟨as, c, hc, hr⟩ := hreturns.exists_run
  cases hreturns'.eq as c true hc hr

end Gate

end Numbered

/-- **Real time, exactly without ties.** Take the times of a history, with no operation that returns
before it is called. Whatever the operations are, and whatever the model, if only its `Equal` is
lawful and it has no `Partition` of its own: the history is judged by real time. This is true
exactly if no operation returns at the time of a call. -/
theorem checkOperations_real_time_iff (times : List (ℤ × ℤ)) (hle : ∀ t ∈ times, t.1 ≤ t.2) :
    (∀ (σ ι ο : Type) (model : Model σ ι ο), model.LawfulEqual → model.partition = noPartition →
      ∀ history : List (Operation ι ο), history.map (fun op => (op.call, op.ret)) = times →
        JudgedByRealTime model history) ↔
    ∀ s ∈ times, ∀ t ∈ times, s.2 ≠ t.1 := by
  constructor
  · intro hall s hs t ht htie
    by_cases hinstant : ∃ t ∈ times, t.2 = t.1
    · obtain ⟨u, hu, huu⟩ := hinstant
      exact not_judged_of_instant hle hu huu
        (hall _ _ _ anything ⟨⟨fun _ => rfl, fun _ => rfl, fun _ _ => rfl⟩, fun _ _ _ _ _ =>
          ⟨rfl, rfl⟩⟩ rfl _ (times_numbered times))
    · have hlt : ∀ t ∈ times, t.1 < t.2 := fun t ht =>
        lt_of_le_of_ne (hle t ht) fun heq => hinstant ⟨t, ht, heq.symm⟩
      obtain ⟨i, hi⟩ := List.mem_iff_getElem?.mp hs
      obtain ⟨j, hj⟩ := List.mem_iff_getElem?.mp ht
      exact not_judged_of_tie hlt hi hj htie
        (hall _ _ _ _ (gateModel_lawfulEqual i j) rfl _ (times_numbered times))
  · rintro hne σ ι ο model hequal hpartition history rfl
    refine judgedByRealTime hequal hpartition ⟨fun op hop => ?_, fun a ha b hb => ?_⟩
    · exact hle _ (List.mem_map_of_mem hop)
    · exact hne _ (List.mem_map_of_mem ha) _ (List.mem_map_of_mem hb)

/-- Two operations are called at once and return at once; the next one is called later. -/
theorem checkOperations_real_time_iff_overlap :
    (∀ t ∈ [((0 : ℤ), (5 : ℤ)), (0, 5), (6, 7)], t.1 ≤ t.2) ∧
    ∀ (σ ι ο : Type) (model : Model σ ι ο), model.LawfulEqual → model.partition = noPartition →
      ∀ history : List (Operation ι ο),
        history.map (fun op => (op.call, op.ret)) = [(0, 5), (0, 5), (6, 7)] →
          JudgedByRealTime model history := by
  have hle : ∀ t ∈ [((0 : ℤ), (5 : ℤ)), (0, 5), (6, 7)], t.1 ≤ t.2 := by decide
  exact ⟨hle, (checkOperations_real_time_iff _ hle).mpr (by decide)⟩

/-- A read of `1` returns at the moment at which the write of `1` is called. -/
def tiedHistory : List (Operation (Option ℕ) ℕ) := [⟨none, 0, 1, 5⟩, ⟨some 1, 5, 0, 6⟩]

theorem decided_of_eval {model : Model σ ι ο}
    {sort : UnstableSort (Entry ι ο) fun a b => a.time < b.time}
    {subhistory : List (Operation ι ο)} {verdict : Bool} (fuel : ℕ)
    (h : ((makeLinkedEntries (makeEntries sort subhistory)).bind fun l =>
      (checkSingle model l.heap l.root fuel).bind Sum.getRight?) = some verdict) :
    Decided model (makeEntries sort subhistory) verdict := by
  obtain ⟨l, hl, h⟩ := Option.bind_eq_some_iff.mp h
  obtain ⟨r, hr, h⟩ := Option.bind_eq_some_iff.mp h
  rw [Sum.getRight?_eq_some_iff.mp h] at hr
  exact ⟨l, fuel, hl, hr⟩

/-- **With a tie the order of the slice decides.** The write may take effect before the read, since
the read did not return before the write was called. `CheckOperations` returns `false` if the read
is first in the slice, and `true` if the write is, even with a sort that is stable. -/
theorem checkOperations_tiedHistory :
    (∀ op ∈ tiedHistory, op.call ≤ op.ret) ∧
    Linearizable (fun a b => a.ret < b.call) register.stepOperation register.init tiedHistory ∧
    (∃ init,
      Checker.start register (UnstableSort.ascending Entry.time) tiedHistory = some init ∧
      Checker.AlwaysReturns register init false) ∧
    ∃ init,
      Checker.start register (UnstableSort.ascending Entry.time) tiedHistory.reverse = some init ∧
      Checker.AlwaysReturns register init true := by
  refine ⟨by decide, ⟨tiedHistory.reverse, .swap .., by decide, 1, rfl⟩, ?_, ?_⟩
  · have hreturns : Decided register
        (makeEntries (UnstableSort.ascending Entry.time) tiedHistory) false :=
      decided_of_eval 9 (by decide +kernel)
    exact Checker.alwaysReturns_start_single rfl hreturns
  · have hreturns : Decided register
        (makeEntries (UnstableSort.ascending Entry.time) tiedHistory.reverse) true :=
      decided_of_eval 9 (by decide +kernel)
    exact Checker.alwaysReturns_start_single rfl hreturns

end Linearizability

end Distsys
