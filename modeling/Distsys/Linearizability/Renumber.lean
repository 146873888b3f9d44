import Distsys.Lib.FirstAppearance
import Distsys.Linearizability.RealTime

/-!
# Renumbered events

`CheckEvents` takes events with any ids, and `renumber` gives them the ids `0, 1, …` in order of
first appearance. Its loop has a map and a counter. They stay in step, and so the loop comes to a
relabelling of the events by `appearance`.

The bitset of `checkSingle` has room for half as many ids as there are entries. This is enough for
events in which each id has a call and a return. That it is, and that the search does not panic in
any other way, does not depend on the model: an `Equal` that is not lawful may give a wrong result,
but it does not lead out of the list.

## Main definitions

* `eventIds`, `Event.relabel`
* `Renumbering` — the map and the counter of the loop
* `Search.usedId` — the position at which a round accesses the bitset
* `Search.Ready`, `Safe` — the invariant of a search
* `InRange` — every access of every search is in range

## Main results

* `renumber_eq`
* `paired_renumber`
* `Safe.round`, `Safe.of_reach`
* `renumber_canonical`
-/

namespace Distsys

namespace Linearizability

variable {σ ι ο : Type}

/-! ### The loop

The source has a map from ids to numbers and a counter. What the map has after a prefix of the
events is the numbering by first appearance of the ids in this prefix. -/

section Loop

variable {events : List (Event ι ο)} {seen : List ℕ} {m : ℕ → Option ℕ} {id x : ℕ}

/-- The ids of the events. -/
def eventIds (events : List (Event ι ο)) : List ℕ := events.map Event.id

/-- An event with its id relabelled. -/
def Event.relabel (f : ℕ → ℕ) (e : Event ι ο) : Event ι ο := ⟨e.value, f e.id⟩

/-- The map and the counter of `renumber`, after the ids in `seen`. -/
structure Renumbering (seen : List ℕ) (m : ℕ → Option ℕ) (id : ℕ) : Prop where
  known : ∀ x ∈ seen, m x = some (appearance seen x)
  unknown : ∀ x, x ∉ seen → m x = none
  /-- The next number that is free. -/
  next : id = seen.eraseDups.length

/-- An id that is in the map. -/
theorem Renumbering.old (h : Renumbering seen m id) (hx : x ∈ seen) :
    Renumbering (seen ++ [x]) m id := by
  have hmem : ∀ y, y ∈ seen ++ [x] ↔ y ∈ seen := by
    intro y
    rw [List.mem_append, List.mem_singleton]
    exact ⟨fun hy => hy.elim (fun hy => hy) fun hy => hy ▸ hx, Or.inl⟩
  refine ⟨fun y hy => ?_, fun y hy => h.unknown y (mt (hmem y).mpr hy), ?_⟩
  · rw [appearance_append ((hmem y).mp hy)]
    exact h.known y ((hmem y).mp hy)
  · rw [eraseDups_concat_of_mem hx]
    exact h.next

/-- An id that is put into the map. -/
theorem Renumbering.new (h : Renumbering seen m id) (hx : x ∉ seen) :
    Renumbering (seen ++ [x]) (Function.update m x (some id)) (id + 1) := by
  refine ⟨fun y hy => ?_, fun y hy => ?_, ?_⟩
  · by_cases hyx : y = x
    · rw [hyx, Function.update_self, appearance_concat_self hx, h.next]
    · have hy : y ∈ seen := (List.mem_append.mp hy).resolve_right (mt List.mem_singleton.mp hyx)
      rw [Function.update_of_ne hyx, appearance_append hy]
      exact h.known y hy
  · rw [List.mem_append, List.mem_singleton, not_or] at hy
    rw [Function.update_of_ne hy.2]
    exact h.unknown y hy.1
  · rw [eraseDups_concat_of_notMem hx, List.length_append, List.length_singleton, h.next]

/-- **The loop** relabels the events that are left. -/
theorem Renumbering.loop (h : Renumbering seen m id) : renumberLoop m id events =
    events.map (Event.relabel (appearance (seen ++ eventIds events))) := by
  induction events generalizing seen m id with
  | nil => rfl
  | cons v events ih =>
    have happend : seen ++ eventIds (v :: events) = (seen ++ [v.id]) ++ eventIds events :=
      List.append_cons ..
    have hmem : v.id ∈ seen ++ [v.id] := List.mem_append_right _ (List.mem_singleton.mpr rfl)
    rw [renumberLoop, happend, List.map_cons, Event.relabel, appearance_append hmem]
    by_cases hv : v.id ∈ seen
    · rw [h.known _ hv, appearance_append hv, ih (h.old hv)]
    · rw [h.unknown _ hv, appearance_concat_self hv, ← h.next, ih (h.new hv)]

/-- **`renumber`** is a relabelling. -/
theorem renumber_eq (events : List (Event ι ο)) :
    renumber events = events.map (Event.relabel (appearance (eventIds events))) := by
  have h : Renumbering [] (fun _ => none) 0 := ⟨nofun, fun _ _ => rfl, rfl⟩
  exact h.loop

theorem eventIds_relabel (f : ℕ → ℕ) (events : List (Event ι ο)) :
    eventIds (events.map (Event.relabel f)) = (eventIds events).map f := by
  simp only [eventIds, List.map_map]
  rfl

theorem id_mem {e : Event ι ο} (he : e ∈ events) : e.id ∈ eventIds events := List.mem_map_of_mem he

theorem value_renumber (events : List (Event ι ο)) :
    (renumber events).map Event.value = events.map Event.value := by
  rw [renumber_eq, List.map_map]
  rfl

theorem id_renumber_inj {i j : ℕ} {a b a' b' : Event ι ο} (ha : events[i]? = some a)
    (hb : events[j]? = some b) (ha' : (renumber events)[i]? = some a')
    (hb' : (renumber events)[j]? = some b') : a'.id = b'.id ↔ a.id = b.id := by
  rw [renumber_eq, List.getElem?_map, ha] at ha'
  rw [renumber_eq, List.getElem?_map, hb] at hb'
  cases ha'
  cases hb'
  exact appearance_inj (id_mem (List.mem_of_getElem? ha))

theorem eraseDups_renumber (events : List (Event ι ο)) :
    (eventIds (renumber events)).eraseDups = List.range (eventIds events).toFinset.card := by
  rw [renumber_eq, eventIds_relabel, eraseDups_map_appearance]

/-- A relabelling before `renumber` is lost. -/
theorem renumber_relabel {f : ℕ → ℕ} (hf : Set.InjOn f {id | id ∈ eventIds events}) :
    renumber (events.map (Event.relabel f)) = renumber events := by
  rw [renumber_eq, renumber_eq, eventIds_relabel, List.map_map]
  refine List.map_congr_left fun e he => ?_
  rw [Function.comp_apply, Event.relabel, Event.relabel, Event.relabel,
    appearance_map hf (id_mem he)]

theorem renumber_renumber (events : List (Event ι ο)) :
    renumber (renumber events) = renumber events := by
  nth_rewrite 2 [renumber_eq]
  exact renumber_relabel (appearance_injOn _)

/-- **Renumbered events are paired**, if each of their ids has a call and a later return. -/
theorem paired_renumber (h : Matched (convertEntries events)) :
    Paired (eventIds events).toFinset.card (convertEntries (renumber events)) := by
  have hentries : convertEntries (renumber events) = (convertEntries events).map
      fun e => ⟨e.value, appearance (eventIds events) e.id, e.time⟩ := by
    rw [renumber_eq, convertEntries, convertEntries, List.map_map, List.map_map]
    rfl
  have hids : ∀ e ∈ convertEntries events, e.id ∈ eventIds events := by
    intro e he
    obtain ⟨v, hv, rfl⟩ := List.mem_map.mp he
    exact id_mem hv
  rw [hentries]
  refine ⟨fun e he => ?_, fun id hid => ?_⟩
  · obtain ⟨e, he', rfl⟩ := List.mem_map.mp he
    exact appearance_lt (hids e he')
  · -- the id is the number of some event
    have hmem : id ∈ (eventIds events).map (appearance (eventIds events)) := by
      rw [← List.mem_eraseDups, eraseDups_map_appearance]
      exact List.mem_range.mpr hid
    obtain ⟨x, hx, rfl⟩ := List.mem_map.mp hmem
    obtain ⟨v, hv, rfl⟩ := List.mem_map.mp hx
    obtain ⟨input, t, output, t', hpair⟩ := h ⟨v.value, v.id, -1⟩ (List.mem_map_of_mem hv)
    refine ⟨input, t, output, t', ?_⟩
    rw [List.filter_map, List.filter_congr fun e he => ?_, hpair]
    · rfl
    · exact decide_eq_decide.mpr (appearance_inj (hids e he))

end Loop

/-! ### Rounds of a search that does not panic

Correctness of the search is about lawful models. That it stays within the list and the bitset is a
separate matter, with an invariant of its own that asks nothing of `Equal`. -/

section Safe

variable {model : Model σ ι ο} {s s' : Search σ ι ο} {entries : List (Entry ι ο)}
  {out : ℕ → Bool} {h h' : Heap ι ο} {n id p : ℕ} {input : ι} {output : ο} {t : ℤ}

/-- A call that is left has its return somewhere behind it. -/
theorem Lifting.next_ne_none (hL : Lifting entries out h) (hpair : PairAt entries id)
    (hp : p ∈ unlifted entries out)
    (he : entries.reverse[p]? = some ⟨.callEntry input, id, t⟩) : h.links.next p ≠ none := by
  obtain ⟨X, Y, hleft⟩ := List.append_of_mem hp
  obtain ⟨_, r, B, C, rfl, -⟩ := hL.atCall hpair hleft he
  rw [hL.next_eq hleft]
  simp

/-- Only calls can be put back. -/
theorem Lifting.call_of_unlift (hL : Lifting entries out h) {e : Entry ι ο}
    (he : entries.reverse[p]? = some e) (hunlift : h.unlift (some p) = some h') :
    ∃ input, e.value = .callEntry input := by
  obtain ⟨node, hnode, hunlift⟩ := Option.bind_eq_some_iff.mp hunlift
  obtain ⟨_, hmatching, -⟩ := Option.bind_eq_some_iff.mp hunlift
  obtain ⟨-, -, hok⟩ := hL.node he hnode
  cases hvalue : e.value with
  | callEntry input => exact ⟨input, rfl⟩
  | returnEntry output =>
    rw [hok.ofReturn output hvalue] at hmatching
    cases hmatching

theorem Confined.deref_head (hC : Confined entries id out s) :
    ∃ head, s.heap.deref (some s.headEntry) = some head ∧
      head.next = s.heap.links.next s.headEntry := by
  have hL := hC.stacked.lifting.1
  obtain ⟨head, hhead, hnext⟩ := hL.deref_head
  rw [hC.headEntry]
  exact ⟨head, hhead, hnext.trans hL.linked.next_eq.symm⟩

/-- The search is at a node unless the list is empty, and the bitset has room for `n` ids. -/
structure Search.Ready (n : ℕ) (s : Search σ ι ο) : Prop where
  atNode : s.entry = none → s.heap.links.next s.headEntry = none
  size : n ≤ 64 * s.linearized.words.length

/-- The invariant of a search. No operation has id `n`, so `Confined` only says what its list is. -/
structure Safe (n : ℕ) (entries : List (Entry ι ο)) (s : Search σ ι ο) : Prop where
  confined : ∃ out, Confined entries n out s
  ready : s.Ready n

/-- A round at a call. -/
theorem Search.Ready.round_of_call (hP : Paired n entries) (hC : Confined entries n out s)
    (hR : s.Ready n) (hnext : s.heap.links.next s.headEntry ≠ none) (hp : s.entry = some p)
    (he : entries.reverse[p]? = some ⟨.callEntry input, id, t⟩) :
    ∃ s', s.step model false = some (.inl s') ∧ s'.Ready n := by
  have hL := hC.stacked.lifting.1
  have hid : id < n := hP.id_lt he
  obtain ⟨head, hhead, hheadnext⟩ := hC.deref_head
  obtain ⟨X, Y, hleft⟩ := List.append_of_mem (hC.entry p hp)
  obtain ⟨output, r, B, C, rfl, hcall, hret, -, -, hset⟩ := hL.atCall (hP.pair _ hid) hleft he
  obtain ⟨h', hlift, -, hL', -⟩ := hL.lift hleft hcall hret (hset _ fun _ => rfl)
  obtain ⟨b, hb, hlength, -⟩ := Bitset.set_spec (hid.trans_le hR.size)
  have hvalues : model.stepValues s.state (some (.callEntry input)) (some (.returnEntry output)) =
      some (model.step s.state input output) := rfl
  have hstep := Search.step_of_call hhead (hheadnext ▸ hnext) (hp ▸ Heap.deref_eq hcall)
    (Option.some_ne_none r) (Heap.deref_eq hret) hvalues hb
  split at hstep
  · -- the operation is taken out, and the search goes back to the front of the list
    obtain ⟨⟨value, matching, id'⟩, hinfo⟩ := Option.isSome_iff_exists.mp hL'.known
    rw [hp, hlift, Option.bind_some, hC.headEntry, Heap.deref_eq hinfo, Option.map_some] at hstep
    refine ⟨_, hstep, fun hnone => ?_, ?_⟩
    · rw [Search.pushed, hC.headEntry]
      exact hnone
    · rw [Search.pushed, hlength]
      exact hR.size
  · -- the search goes on behind the call, where its return is
    refine ⟨_, hstep, fun hnone => ?_, hR.size⟩
    exact absurd hnone (hL.next_ne_none (hP.pair _ hid) (hC.entry p hp) he)

/-- A round at a return, with an operation on the stack. -/
theorem Search.Ready.round_of_return (hP : Paired n entries) (hC : Confined entries n out s)
    (hR : s.Ready n) (hnext : s.heap.links.next s.headEntry ≠ none) {entry : Node ι ο}
    (hentry : s.heap.deref s.entry = some entry) (hmatch : entry.matching = none)
    {top : Option ℕ} {state : σ} {calls : List (Option ℕ × σ)}
    (hcalls : s.calls = (top, state) :: calls) :
    ∃ s', s.step model false = some (.inl s') ∧ s'.Ready n := by
  obtain ⟨head, hhead, hheadnext⟩ := hC.deref_head
  have hstacked := hC.stacked
  rw [hcalls] at hstacked
  cases hstacked with
  | cons hs hc hL _ hunlift =>
    obtain ⟨⟨value, id, t⟩, he, -⟩ := mem_unlifted.mp hc
    have hid : id < n := hP.id_lt he
    obtain ⟨matching, hinfo, -⟩ := hL.info _ _ he
    obtain ⟨matching', hinfo', -⟩ := hs.lifting.1.info _ _ he
    obtain ⟨b, hb, hlength, -⟩ := Bitset.clear_spec (hid.trans_le hR.size)
    obtain ⟨input, hvalue⟩ := hL.call_of_unlift he hunlift
    cases hvalue
    refine ⟨_, Search.step_of_unlift hhead (hheadnext ▸ hnext) hentry hmatch hcalls
      (Heap.deref_eq hinfo) hb hunlift (Heap.deref_eq hinfo'), fun hnone => ?_, ?_⟩
    · exact absurd hnone (hs.lifting.1.next_ne_none (hP.pair _ hid) hc he)
    · rw [hlength]
      exact hR.size

/-- **A round** does not panic, and it keeps the invariant. -/
theorem Safe.round (hP : Paired n entries) (hS : Safe n entries s) :
    (∃ s', s.step model false = some (.inl s') ∧ Safe n entries s') ∨
      ∃ verdict, s.step model false = some (.inr verdict) := by
  obtain ⟨⟨out, hC⟩, hR⟩ := hS
  have hlt : ∀ id, ReturnsAfter entries id → id < n := by
    rintro id ⟨c, r, -, ⟨input, t, hc⟩, -⟩
    exact hP.id_lt hc
  -- whatever the next state is, the list is as it should be
  have hsafe : (∃ s', s.step model false = some (.inl s') ∧ s'.Ready n) →
      ∃ s', s.step model false = some (.inl s') ∧ Safe n entries s' := by
    rintro ⟨s', hstep, hR'⟩
    exact ⟨s', hstep, hC.step (fun id hid => hP.pair _ (hlt id hid))
      (fun hid => (hlt n hid).false) (Search.rounds_of_eq_some hstep), hR'⟩
  obtain ⟨head, hhead, hheadnext⟩ := hC.deref_head
  by_cases hnext : s.heap.links.next s.headEntry = none
  · exact Or.inr ⟨true, Search.step_of_empty hhead (hheadnext.trans hnext) false⟩
  · obtain ⟨p, hp⟩ := Option.ne_none_iff_exists'.mp (mt hR.atNode hnext)
    obtain ⟨⟨value, id, t⟩, he, -⟩ := mem_unlifted.mp (hC.entry p hp)
    cases value with
    | callEntry input => exact Or.inl (hsafe (hR.round_of_call hP hC hnext hp he))
    | returnEntry output =>
      obtain ⟨matching, hinfo, hok⟩ := hC.stacked.lifting.1.info p _ he
      cases hok.ofReturn output rfl
      have hentry := hp ▸ Heap.deref_eq hinfo
      rcases hcalls : s.calls with _ | ⟨⟨top, state⟩, calls⟩
      · exact Or.inr ⟨false, Search.step_of_exhausted hhead (hheadnext ▸ hnext) hentry rfl hcalls⟩
      · exact Or.inl (hsafe (hR.round_of_return hP hC hnext hentry rfl hcalls))

/-- A search that is killed returns in the next round. -/
theorem Safe.killed (hS : Safe n entries s) :
    ∃ verdict, s.step model true = some (.inr verdict) := by
  obtain ⟨⟨out, hC⟩, -⟩ := hS
  obtain ⟨head, hhead, -⟩ := hC.deref_head
  by_cases hnext : head.next = none
  · exact ⟨true, Search.step_of_empty hhead hnext true⟩
  · refine ⟨false, ?_⟩
    simp only [Search.step, hhead, Option.bind_eq_bind, Option.bind_some, hnext, if_false, if_true]
    rfl

theorem Safe.of_reach (hP : Paired n entries) (hS : Safe n entries s)
    (hreach : Search.Reach model s s') : Safe n entries s' := by
  induction hreach with
  | refl => exact hS
  | tail _ hstep ih =>
    rcases ih.round hP with ⟨s', hstep', hS'⟩ | ⟨verdict, hret⟩
    · cases hstep.symm.trans hstep'
      exact hS'
    · cases hstep.symm.trans hret

theorem Safe.start (hP : Paired n entries) {list : Builder ι ο} (hB : Built entries list)
    (model : Model σ ι ο) : ∃ s, Search.start model list.heap list.root = some s ∧
      s.linearized = Bitset.new (entries.length / 2) ∧ Safe n entries s := by
  obtain ⟨heap, hstart, hL⟩ := Search.start_eq model hB
  have hroot : list.root = (unlifted entries fun _ => false).head? := by
    rw [hB.root, unlifted_none]
  refine ⟨_, hstart, rfl, ⟨_, rfl, .nil hL, fun p hp => ?_⟩, fun hnone => ?_,
    hP.length_div_two ▸ Bitset.length_new _⟩
  · exact List.mem_of_mem_head? (hroot ▸ hp)
  · exact hL.linked.next_eq.trans (hroot.symm.trans hnone)

/-! ### Accesses of the bitset

A round accesses the bitset at one position at most, the id of an entry. Ids are below the number of
operations, and there is a word for each 64 of them. -/

/-- The id that a round of `checkSingle` uses: that of the call it is at, or else that of the call
on top of the stack. -/
def Search.usedId (s : Search σ ι ο) : Option ℕ := do
  let entry ← s.heap.deref s.entry
  if entry.matching ≠ none then return entry.id
  else
    let (top, _) ← s.calls.head?
    return (← s.heap.deref top).id

/-- The nodes in the list, and those on the stack, are entries. -/
theorem Confined.usedId_mem (hC : Confined entries n out s) (hid : s.usedId = some id) :
    ∃ e ∈ entries, e.id = id := by
  have hL := hC.stacked.lifting.1
  -- a node of an entry has the id of the entry
  have hnode : ∀ {out' : ℕ → Bool} {p : ℕ} {node : Node ι ο}, p ∈ unlifted entries out' →
      s.heap.deref (some p) = some node → ∃ e ∈ entries, e.id = node.id := by
    intro out' p node hp hnode
    obtain ⟨e, he, -⟩ := mem_unlifted.mp hp
    obtain ⟨hid, -, -⟩ := hL.node he hnode
    exact ⟨e, List.mem_reverse.mp (List.mem_of_getElem? he), hid.symm⟩
  obtain ⟨entry, hentry, hid⟩ := Option.bind_eq_some_iff.mp hid
  obtain ⟨p, hp, -⟩ := Option.bind_eq_some_iff.mp hentry
  split at hid
  · cases hid
    exact hnode (hC.entry p hp) (hp ▸ hentry)
  · obtain ⟨⟨top, state⟩, htop, hid⟩ := Option.bind_eq_some_iff.mp hid
    obtain ⟨node, htop', hid⟩ := Option.bind_eq_some_iff.mp hid
    cases hid
    obtain ⟨calls, hcalls⟩ := List.head?_eq_some_iff.mp htop
    have hstacked := hC.stacked
    rw [hcalls] at hstacked
    cases hstacked with
    | cons _ hc _ _ _ => exact hnode hc htop'

/-- Every search of `entries`, with whatever model: the ids it uses are below half the number of
nodes, and positions of its bitset, which has that size; and it does not panic. -/
def InRange (entries : List (Entry ι ο)) : Prop :=
  (∀ e ∈ entries, e.id < entries.length / 2) ∧
  ∃ list, makeLinkedEntries entries = some list ∧
    list.heap.length list.root = some entries.length ∧
    ∀ (σ : Type) (model : Model σ ι ο), ∃ s₀, Search.start model list.heap list.root = some s₀ ∧
      s₀.linearized = Bitset.new (entries.length / 2) ∧ ∀ s, Search.Reach model s₀ s →
        (∀ id, s.usedId = some id → id < entries.length / 2 ∧
          (s.linearized.set id).isSome ∧ (s.linearized.clear id).isSome) ∧
        ∀ kill, (s.step model kill).isSome

theorem Paired.inRange (hP : Paired n entries) : InRange entries := by
  obtain ⟨list, hlist, hB⟩ := makeLinkedEntries_spec entries
  refine ⟨hP.length_div_two ▸ hP.lt, list, hlist, hB.heap_length, fun σ model => ?_⟩
  obtain ⟨s₀, hstart, hnew, hS₀⟩ := Safe.start hP hB model
  refine ⟨s₀, hstart, hnew, fun s hreach => ?_⟩
  have hS := hS₀.of_reach hP hreach
  refine ⟨fun id hid => ?_, fun kill => ?_⟩
  · obtain ⟨out, hC⟩ := hS.confined
    obtain ⟨e, he, rfl⟩ := hC.usedId_mem hid
    have hlt := hP.lt e he
    obtain ⟨b, hb, -⟩ := Bitset.set_spec (hlt.trans_le hS.ready.size)
    obtain ⟨b', hb', -⟩ := Bitset.clear_spec (hlt.trans_le hS.ready.size)
    rw [hP.length_div_two, hb, hb']
    exact ⟨hlt, rfl, rfl⟩
  · cases kill with
    | false =>
      rcases hS.round hP with ⟨s', hstep, -⟩ | ⟨verdict, hret⟩
      · rw [hstep]
        rfl
      · rw [hret]
        rfl
    | true =>
      obtain ⟨verdict, hret⟩ := hS.killed
      rw [hret]
      rfl

end Safe

/-- **`renumber` canonicalises ids.** It keeps the events up to their ids, and it keeps which of
them have the same id. The new ids are `0` to `k - 1`, in order of first appearance. They do not
change if the old ids are relabelled before, and `renumber` is idempotent. If each id has one call
and then one return, every id that `checkSingle` uses is below half the length of its list, and in
the range of its bitset. -/
theorem renumber_canonical (events : List (Event ι ο)) :
    (renumber events).map Event.value = events.map Event.value ∧
    (∀ (i j : ℕ) (a b a' b' : Event ι ο), events[i]? = some a → events[j]? = some b →
      (renumber events)[i]? = some a' → (renumber events)[j]? = some b' →
        (a'.id = b'.id ↔ a.id = b.id)) ∧
    (eventIds (renumber events)).eraseDups = List.range (eventIds events).toFinset.card ∧
    renumber (renumber events) = renumber events ∧
    (∀ f : ℕ → ℕ, Set.InjOn f {id | id ∈ eventIds events} →
      renumber (events.map (Event.relabel f)) = renumber events) ∧
    (Matched (convertEntries events) → InRange (convertEntries (renumber events))) :=
  ⟨value_renumber events, fun _ _ _ _ _ _ ha hb ha' hb' => id_renumber_inj ha hb ha' hb',
    eraseDups_renumber events, renumber_renumber events, fun _ hf => renumber_relabel hf,
    fun h => (paired_renumber h).inRange⟩

/-- A read during a write. -/
def overlappingEvents : List (Event (Option ℕ) ℕ) :=
  [⟨.callEntry (some 1), 7⟩, ⟨.callEntry none, 3⟩, ⟨.returnEntry 0, 3⟩, ⟨.returnEntry 0, 7⟩]

theorem overlappingEvents_matched : Matched (convertEntries overlappingEvents) := by
  intro e he
  simp only [convertEntries, overlappingEvents, List.map_cons, List.map_nil, List.mem_cons,
    List.not_mem_nil, or_false] at he
  rcases he with rfl | rfl | rfl | rfl
  · exact ⟨some 1, -1, 0, -1, rfl⟩
  · exact ⟨none, -1, 0, -1, rfl⟩
  · exact ⟨none, -1, 0, -1, rfl⟩
  · exact ⟨some 1, -1, 0, -1, rfl⟩

theorem renumber_canonical_overlappingEvents :
    eventIds (renumber overlappingEvents) = [0, 1, 1, 0] ∧
    InRange (convertEntries (renumber overlappingEvents)) ∧
    ((makeLinkedEntries (convertEntries (renumber overlappingEvents))).bind fun list =>
      (Search.start register list.heap list.root).bind Search.usedId) = some 0 ∧
    renumber (overlappingEvents.map (Event.relabel fun id => id + 5)) =
      renumber overlappingEvents ∧
    ((1 : ℕ) = 0 ↔ (3 : ℕ) = 7) := by
  obtain ⟨-, hinj, -, -, hrelabel, hrange⟩ := renumber_canonical overlappingEvents
  refine ⟨rfl, hrange overlappingEvents_matched, rfl, ?_, hinj 1 3 _ _ _ _ rfl rfl rfl rfl⟩
  exact hrelabel _ (add_left_injective 5).injOn

end Linearizability

end Distsys
