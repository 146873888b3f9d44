import Distsys.Linearizability.Kv

/-!
# How the results are put together

`CheckEventsTimeout` takes a history of call and return events, in the order in which they happened,
where `CheckOperationsTimeout` takes operations with times. Behind the entries both are the same
loop, over the goroutines of `Checker`.

Whether a search returns at all depends on the history: a list of events may have a call without a
return, and then `checkSingle` may panic. So what is shown of the loop does not assume that every
partition is decided. While `kill` is not set, each search goes through the states it would go
through alone; a result that was received before is `true`. Hence the caller returns `false` only
with a partition that is decided so, and without a timeout it returns `true` only when all are.

The loop ends only when it receives something. If there are no partitions, nothing is ever sent.

## Main definitions

* `Event`, `EventModel`, `renumber`, `convertEntries`, `Checker.startEvents`
* `Checker.Aggregates` — what the caller's answer has to do with the results
* `Checker.Collecting`, `Checker.Justified`, `Checker.Collects` — the invariant

## Main results

* `Decided.unique`
* `Checker.Collects.step`, `Checker.collects_of_exec`
* `check_aggregates_iff`
-/

namespace Distsys

namespace Linearizability

variable {σ ι ο : Type}

/-- `Event`, with the fields `Kind` and `Value` in one. -/
structure Event (ι ο : Type) where
  value : EntryValue ι ο
  id : ℕ
  deriving DecidableEq, Repr

/-- `NoPartitionEvent`. -/
def noPartitionEvent (history : List (Event ι ο)) : List (List (Event ι ο)) := [history]

/-- `Model` with its field `PartitionEvent`, after `fillDefault`. -/
structure EventModel (σ ι ο : Type) extends Model σ ι ο where
  partitionEvent : List (Event ι ο) → List (List (Event ι ο)) := noPartitionEvent

/-- The loop of `renumber`, with the map `m` and the counter `id`. -/
def renumberLoop (m : ℕ → Option ℕ) (id : ℕ) : List (Event ι ο) → List (Event ι ο)
  | [] => []
  | v :: events =>
    match m v.id with
    | some r => ⟨v.value, r⟩ :: renumberLoop m id events
    | none => ⟨v.value, id⟩ :: renumberLoop (Function.update m v.id (some id)) (id + 1) events

/-- `renumber`. -/
def renumber (events : List (Event ι ο)) : List (Event ι ο) := renumberLoop (fun _ => none) 0 events

/-- `convertEntries`. -/
def convertEntries (events : List (Event ι ο)) : List (Entry ι ο) :=
  events.map fun elem => ⟨elem.value, elem.id, -1⟩

/-- What `CheckEventsTimeout` does before its loop. -/
def Checker.startEvents (model : EventModel σ ι ο) (history : List (Event ι ο)) :
    Option (Checker σ ι ο) := do
  let workers ← (model.partitionEvent history).mapM fun subhistory => do
    let l ← makeLinkedEntries (convertEntries (renumber subhistory))
    let s ← Search.start model.toModel l.heap l.root
    return Worker.searching s
  return ⟨workers, true, false, 0, none⟩

/-- What the caller returns, when its goroutines search `lists`: without a timeout it returns once
every search is decided, and it returns `true` exactly if they all are `true`; with a timeout it
returns `false` only if one of them is `false`. -/
structure Checker.Aggregates (model : Model σ ι ο) (init : Checker σ ι ο)
    (lists : List (List (Entry ι ο))) : Prop where
  /-- If all searches end, so does the caller. -/
  returns : (∀ entries ∈ lists, ∃ verdict, Decided model entries verdict) →
    ∃ result, AlwaysReturns model init result
  /-- Without a timeout the answer is the conjunction of the results. -/
  iff : ∀ as c r, (system model false init).exec (system model false init).start as = some c →
    c.state.returned = some r → (r = true ↔ ∀ entries ∈ lists, Decided model entries true)
  /-- A timeout makes up no violation. -/
  timeout : ∀ as c, (system model true init).exec (system model true init).start as = some c →
    c.state.returned = some false → ∃ entries ∈ lists, Decided model entries false

/-! ### A search has one result

A round is a function of the state, so two runs of the same search agree. It has therefore a sense
to speak of the result of a list of entries. -/

variable {model : Model σ ι ο}

theorem Search.Returns.unique {s : Search σ ι ο} {k k' : ℕ} {v v' : Bool}
    (h : Search.Returns model s k v) (h' : Search.Returns model s k' v') : v = v' := by
  induction h generalizing k' with
  | now hret =>
    cases h' with
    | now hret' =>
      cases hret.symm.trans hret'
      rfl
    | later hstep _ => cases hret.symm.trans hstep
  | later hstep _ ih =>
    cases h' with
    | now hret => cases hstep.symm.trans hret
    | later hstep' h' =>
      cases hstep.symm.trans hstep'
      exact ih h'

theorem Decided.unique {entries : List (Entry ι ο)} {v v' : Bool} (h : Decided model entries v)
    (h' : Decided model entries v') : v = v' := by
  obtain ⟨l, fuel, hl, hcheck⟩ := h
  obtain ⟨l', fuel', hl', hcheck'⟩ := h'
  cases hl.symm.trans hl'
  obtain ⟨s, hs, hrun⟩ := Option.bind_eq_some_iff.mp hcheck
  obtain ⟨s', hs', hrun'⟩ := Option.bind_eq_some_iff.mp hcheck'
  cases hs.symm.trans hs'
  obtain ⟨k, hk⟩ := Search.returns_of_run hrun
  obtain ⟨k', hk'⟩ := Search.returns_of_run hrun'
  exact hk.unique hk'

/-! ### The invariant

Until the caller returns, all results it has received are `true`, and each search is somewhere on
its way. Nothing is said about where the way ends: it may be that a search never ends, or panics. -/

/-- A goroutine that nobody has killed. A result that was received was `true`. -/
inductive Alive (model : Model σ ι ο) (entries : List (Entry ι ο)) : Worker σ ι ο → Prop where
  | searching {l : Builder ι ο} {s₀ s : Search σ ι ο} (hl : makeLinkedEntries entries = some l)
      (hs₀ : Search.start model l.heap l.root = some s₀) (hreach : Search.Reach model s₀ s) :
    Alive model entries (.searching s)
  | sending {verdict : Bool} (h : Decided model entries verdict) :
    Alive model entries (.sending verdict)
  | done (h : Decided model entries true) : Alive model entries .done

/-- A round of a search that is not killed. -/
theorem Alive.round {entries : List (Entry ι ο)} {s : Search σ ι ο} {r : Search σ ι ο ⊕ Bool}
    (h : Alive model entries (.searching s)) (hstep : s.step model false = some r) :
    Alive model entries (r.elim .searching .sending) := by
  cases h with
  | searching hl hs₀ hreach =>
    cases r with
    | inl s' => exact .searching hl hs₀ (hreach.tail hstep)
    | inr verdict =>
      obtain ⟨N, hN⟩ := Search.run_of_reach hreach hstep
      refine .sending ⟨_, N, hl, ?_⟩
      rw [checkSingle, hs₀]
      exact hN N le_rfl

namespace Checker

/-- The caller has not returned. -/
structure Collecting (model : Model σ ι ο) (lists : List (List (Entry ι ο))) (c : Checker σ ι ο) :
    Prop where
  ok : c.ok = true
  kill : c.kill = false
  count : c.count = c.workers.countP Worker.isDone
  /-- Each goroutine is at a state of its search, or has sent `true`. -/
  alive : List.Forall₂ (Alive model) lists c.workers

/-- What the caller knows when it returns. -/
def Justified (model : Model σ ι ο) (timeout : Bool) (lists : List (List (Entry ι ο))) :
    Bool → Prop
  | true => timeout = true ∨ ∀ entries ∈ lists, Decided model entries true
  | false => ∃ entries ∈ lists, Decided model entries false

/-- What holds in every state. -/
def Collects (model : Model σ ι ο) (timeout : Bool) (lists : List (List (Entry ι ο)))
    (c : Checker σ ι ο) : Prop :=
  match c.returned with
  | none => Collecting model lists c
  | some r => Justified model timeout lists r

variable {timeout : Bool} {lists : List (List (Entry ι ο))} {c c' init : Checker σ ι ο}
  {a : CheckAction}

theorem Collecting.collects (h : Collecting model lists c) (hnone : c.returned = none) :
    Collects model timeout lists c := by
  rwa [Collects, hnone]

theorem collects_of_returned {r : Bool} (hsome : c.returned = some r)
    (h : Justified model timeout lists r) : Collects model timeout lists c := by
  rwa [Collects, hsome]

theorem Collects.justified {r : Bool} (h : Collects model timeout lists c)
    (hsome : c.returned = some r) : Justified model timeout lists r := by
  rwa [Collects, hsome] at h

/-- The list that a goroutine searches, and what it may become. -/
theorem Collecting.exists_list (h : Collecting model lists c) {i : ℕ} {w : Worker σ ι ο}
    (hi : c.workers[i]? = some w) : ∃ entries ∈ lists, Alive model entries w ∧
      ∀ w', Alive model entries w' → List.Forall₂ (Alive model) lists (c.workers.set i w') := by
  obtain ⟨lists₁, entries, lists₂, rfl, halive, hset⟩ := forall₂_set h.alive.flip hi
  exact ⟨entries, by simp, halive, fun w' hw' => (hset w' entries hw').flip⟩

/-- A step of a search. -/
theorem Collecting.round (h : Collecting model lists c) {i : ℕ} {s : Search σ ι ο}
    {r : Search σ ι ο ⊕ Bool} (hi : c.workers[i]? = some (.searching s))
    (hstep : s.step model c.kill = some r) :
    Collecting model lists { c with workers := c.workers.set i (r.elim .searching .sending) } := by
  obtain ⟨entries, -, halive, hset⟩ := h.exists_list hi
  rw [h.kill] at hstep
  have hdone : (r.elim Worker.searching Worker.sending).isDone = false := by cases r <;> rfl
  refine ⟨h.ok, h.kill, ?_, hset _ (halive.round hstep)⟩
  rw [countP_set_of_not_done hi rfl, hdone, h.count]
  rfl

/-- A result is received that is `true`. -/
theorem Collecting.receive (h : Collecting model lists c) {i : ℕ}
    (hi : c.workers[i]? = some (.sending true)) :
    List.Forall₂ (Alive model) lists (c.workers.set i .done) ∧
      c.count + 1 = (c.workers.set i .done).countP Worker.isDone := by
  obtain ⟨entries, -, halive, hset⟩ := h.exists_list hi
  cases halive with
  | sending hdecided =>
    refine ⟨hset _ (.done hdecided), ?_⟩
    rw [countP_set_of_not_done hi rfl, h.count]
    rfl

theorem decided_of_done {workers : List (Worker σ ι ο)}
    (h : List.Forall₂ (Alive model) lists workers) (hdone : ∀ w ∈ workers, w.isDone = true) :
    ∀ entries ∈ lists, Decided model entries true := by
  induction h with
  | nil => exact fun _ h => absurd h List.not_mem_nil
  | cons halive _ ih =>
    obtain ⟨hw, hrest⟩ := List.forall_mem_cons.mp hdone
    cases halive with
    | searching _ _ _ => cases hw
    | sending _ => cases hw
    | done hdecided => exact List.forall_mem_cons.mpr ⟨hdecided, ih hrest⟩

/-- A step while the caller waits. -/
theorem Collecting.step (h : Collecting model lists c) (hnone : c.returned = none)
    (hs : Steps model timeout c a c') : Collects model timeout lists c' := by
  cases hs with
  | round hi hstep => exact (h.round hi hstep).collects hnone
  | result hi hstep => exact (h.round hi hstep).collects hnone
  | refuted _ hi hok =>
    obtain ⟨entries, hmem, halive, -⟩ := h.exists_list hi
    rw [h.ok, Bool.true_and] at hok
    subst hok
    cases halive with
    | sending hdecided =>
      refine collects_of_returned rfl ?_
      rw [h.ok]
      exact ⟨entries, hmem, hdecided⟩
  | last _ hi hok hcount =>
    rw [h.ok, Bool.true_and] at hok
    subst hok
    obtain ⟨halive, hdone⟩ := h.receive hi
    refine collects_of_returned rfl ?_
    rw [h.ok]
    refine Or.inr (decided_of_done halive (List.countP_eq_length.mp ?_))
    refine le_antisymm List.countP_le_length ?_
    rw [← hdone, List.length_set]
    exact hcount
  | next _ hi hok hcount =>
    rw [h.ok, Bool.true_and] at hok
    subst hok
    obtain ⟨halive, hdone⟩ := h.receive hi
    rw [Bool.and_true]
    exact Collecting.collects ⟨h.ok, h.kill, hdone, halive⟩ hnone
  | timeout _ htimeout =>
    refine collects_of_returned rfl ?_
    rw [h.ok]
    exact Or.inl htimeout

/-- **A step keeps the invariant.** -/
theorem Collects.step (h : Collects model timeout lists c) (hs : Steps model timeout c a c') :
    Collects model timeout lists c' := by
  cases hr : c.returned with
  | none =>
    rw [Collects, hr] at h
    exact h.step hr hs
  | some r =>
    cases hs with
    | round => exact collects_of_returned hr (h.justified hr)
    | result => exact collects_of_returned hr (h.justified hr)
    | refuted hnone => cases hr.symm.trans hnone
    | last hnone => cases hr.symm.trans hnone
    | next hnone => cases hr.symm.trans hnone
    | timeout hnone => cases hr.symm.trans hnone

/-- **The invariant of a run.** -/
theorem collects_of_exec (h₀ : Collects model timeout lists init) {as : List CheckAction}
    {c : System.Config (Checker σ ι ο) Empty}
    (h : (system model timeout init).exec (system model timeout init).start as = some c) :
    Collects model timeout lists c.state := by
  refine System.exec_induction (M := system model timeout init)
    (P := fun _ c => Collects model timeout lists c.state) h₀ (fun as c a c' _ hc hn => ?_) h
  obtain ⟨es, hstep, -⟩ := System.next_eq_some_iff.mp hn
  obtain ⟨c'', hc'', heq⟩ := Option.map_eq_some_iff.mp hstep
  cases heq
  exact hc.step (steps_of_eq_some hc'')

/-- The invariant holds at the beginning. -/
theorem collecting_of_begins {workers : List (Worker σ ι ο)}
    (hw : List.Forall₂ (Begins model) lists workers) :
    Collecting model lists ⟨workers, true, false, 0, none⟩ := by
  refine ⟨rfl, rfl, ?_, hw.imp ?_⟩
  · induction hw with
    | nil => rfl
    | cons hbegins _ ih =>
      obtain ⟨l, s, -, -, rfl⟩ := hbegins
      rw [List.countP_cons_of_neg (by simp [Worker.isDone])]
      exact ih
  · rintro entries w ⟨l, s, hl, hs, rfl⟩
    exact .searching hl hs .refl

theorem aggregates_of_begins {workers : List (Worker σ ι ο)} (hne : lists ≠ [])
    (hw : List.Forall₂ (Begins model) lists workers) :
    Aggregates model ⟨workers, true, false, 0, none⟩ lists where
  returns hdecided := by
    choose! verdict hverdict using hdecided
    have hv : List.Forall₂ (Decided model) lists (lists.map verdict) :=
      List.forall₂_map_right_iff.mpr (List.forall₂_same.mpr hverdict)
    exact ⟨_, alwaysReturns_of_begins hne hw hv⟩
  iff as c r h hr := by
    have hc := (collects_of_exec ((collecting_of_begins hw).collects rfl) h).justified hr
    cases r with
    | true => exact ⟨fun _ => hc.resolve_left Bool.false_ne_true, fun _ => rfl⟩
    | false =>
      obtain ⟨entries, hmem, hfalse⟩ := hc
      exact ⟨fun h => absurd h Bool.false_ne_true, fun hall => hfalse.unique (hall entries hmem)⟩
  timeout as c h hr := (collects_of_exec ((collecting_of_begins hw).collects rfl) h).justified hr

/-- Without goroutines no step is possible. -/
theorem step_of_no_workers (model : Model σ ι ο) (a : CheckAction) :
    Checker.step model false ⟨[], true, false, 0, none⟩ a = none := by
  cases a <;> rfl

/-- Then the caller never returns. -/
theorem not_alwaysReturns_of_no_workers (result : Bool) :
    ¬ AlwaysReturns model ⟨[], true, false, 0, none⟩ result := by
  intro h
  obtain ⟨a, c', hnext⟩ := h.exists_next [] _ rfl rfl
  obtain ⟨es, hstep, -⟩ := System.next_eq_some_iff.mp hnext
  obtain ⟨c'', hc'', -⟩ := Option.map_eq_some_iff.mp hstep
  cases (step_of_no_workers model a).symm.trans hc''

theorem aggregates_iff {workers : List (Worker σ ι ο)}
    (hw : List.Forall₂ (Begins model) lists workers) :
    Aggregates model ⟨workers, true, false, 0, none⟩ lists ↔ lists ≠ [] := by
  refine ⟨?_, fun hne => aggregates_of_begins hne hw⟩
  rintro h rfl
  cases hw
  obtain ⟨result, hreturns⟩ := h.returns fun _ hmem => absurd hmem List.not_mem_nil
  exact not_alwaysReturns_of_no_workers result hreturns

end Checker

/-- **The results are put together.** For every model and every history both functions start, and
what they return depends on the searches alone, as `Aggregates` says, exactly if the model does not
partition the history into nothing. -/
theorem check_aggregates_iff (model : EventModel σ ι ο)
    (sort : UnstableSort (Entry ι ο) fun a b => a.time < b.time) (history : List (Operation ι ο))
    (events : List (Event ι ο)) :
    (∃ init, Checker.start model.toModel sort history = some init ∧
      (Checker.Aggregates model.toModel init ((model.partition history).map (makeEntries sort)) ↔
        model.partition history ≠ [])) ∧
    ∃ init, Checker.startEvents model events = some init ∧
      (Checker.Aggregates model.toModel init ((model.partitionEvent events).map fun subhistory =>
          convertEntries (renumber subhistory)) ↔
        model.partitionEvent events ≠ []) := by
  constructor
  · obtain ⟨workers, heq, hw⟩ :=
      Checker.exists_workers model.toModel (makeEntries sort) (model.partition history)
    refine ⟨⟨workers, true, false, 0, none⟩, ?_, ?_⟩
    · rw [Checker.start, heq]
      rfl
    · rw [Checker.aggregates_iff hw, ne_eq, ne_eq, List.map_eq_nil_iff]
  · obtain ⟨workers, heq, hw⟩ := Checker.exists_workers model.toModel
      (fun subhistory => convertEntries (renumber subhistory)) (model.partitionEvent events)
    refine ⟨⟨workers, true, false, 0, none⟩, ?_, ?_⟩
    · rw [Checker.startEvents, heq]
      rfl
    · rw [Checker.aggregates_iff hw, ne_eq, ne_eq, List.map_eq_nil_iff]

/-- **No partitions, no return.** The model of the store partitions the empty history into nothing.
All partitions are decided then, and `CheckOperations` waits for a result that nobody will send:
from its first state on no step is possible, and it has not returned. -/
theorem checkOperations_kv_empty :
    (kvModel (RangeOrder.insertion _)).partition [] = [] ∧
    ∃ init,
      Checker.start (kvModel (RangeOrder.insertion _)) (UnstableSort.ascending Entry.time) [] =
        some init ∧
      init.returned = none ∧
      ∀ a, Checker.step (kvModel (RangeOrder.insertion _)) false init a = none :=
  ⟨rfl, ⟨[], true, false, 0, none⟩, rfl, rfl, Checker.step_of_no_workers _⟩

end Linearizability

end Distsys
