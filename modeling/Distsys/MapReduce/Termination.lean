import Distsys.Lib.Termination
import Distsys.MapReduce.Scheduler

/-!
# Termination of `schedule`

Every task and every address of a worker is in one place, and a step moves it on. A task can come
back, from a call in flight to `idleTasks`, but then the address of the worker is dropped. So a
weight for each place makes a potential, to which only a registration adds.

What can keep `schedule` from returning is that it runs out of workers: it is at
`worker := <-idleWorkers` with a task, and the calls to all workers that have registered have
failed. There is one more case, a phase without tasks. The counter is compared after it is
incremented, so that it never meets `ntasks`.

## What is assumed of the workers

Nothing: a call may fail at any time, or never return. A call that fails costs a worker, of which
there are as many as were registered. So the number of steps is bounded by the tasks and the
registrations, and whether `schedule` returns is decided by whether it runs out of workers while
there are tasks.

## Main definitions

* `SchedulerAction.external` — what nobody can wait for
* `Scheduler.work`, `Scheduler.budget` — the steps and the calls that are left
* `Scheduler.Quiescent` — no goroutine of the master can go on and no call is in flight

## Main results

* `Scheduler.Quiescent.waits`
* `Scheduler.schedule_returns_iff`
-/

namespace Distsys

namespace MapReduce

/-- The steps that nobody can wait for: that another worker registers, and that a call fails. -/
def SchedulerAction.external {ω : Type} : SchedulerAction ω → Bool
  | .register _ => true
  | .reply _ false => true
  | _ => false

/-- A registration. -/
def SchedulerAction.isRegister {ω : Type} : SchedulerAction ω → Bool
  | .register _ => true
  | _ => false

namespace Scheduler

variable {ω : Type} {s s' : Scheduler ω} {a : SchedulerAction ω} {es : List (SchedulerEvent ω)}

/-! ### The potential

The weight of a place is at least one more than that of the next place, and a call in flight weighs
enough for the task to come back to `idleTasks` while the address is dropped. -/

/-- How many steps are left: a weight for every task and every address, by its place. -/
def work (s : Scheduler ω) : ℕ :=
  4 * s.idleTasks.length + 3 * (held s.main).length + 5 * s.calls.length + s.finishing.length +
    3 * (s.idleSenders.length + s.forwarding.toList.length) + 4 * s.senders.length +
    5 * (s.workers.length - s.forwarded)

/-- How many calls are left. A call in flight is among them, since it may have to be made again. -/
def budget (s : Scheduler ω) : ℕ :=
  s.idleTasks.length + (held s.main).length + s.calls.length + s.idleSenders.length +
    s.forwarding.toList.length + s.senders.length + (s.workers.length - s.forwarded)

/-- What a registration adds to the work. -/
def pay (a : SchedulerAction ω) : ℕ := if a.isRegister then 6 else 0

theorem work_init (ntasks : ℕ) (workers : List ω) :
    work (init ntasks workers) = 4 * ntasks + 5 * workers.length := by
  simp [work, init, held]

theorem budget_init (ntasks : ℕ) (workers : List ω) :
    budget (init ntasks workers) = ntasks + workers.length := by
  simp [budget, init, held]

/-- The step lemma. -/
theorem work_step (h : Step s a s' es) : work s' < work s + pay a := by
  cases h with
  | register =>
    simp only [work, pay, SchedulerAction.isRegister, if_true, List.length_append,
      List.length_singleton]
    omega
  | forward h =>
    have hlt := (List.getElem?_eq_some_iff.mp h).1
    simp only [work, List.length_append, List.length_singleton]
    omega
  | receive hf h =>
    have := length_eraseIdx h
    simp only [work, hf, Option.toList_none, Option.toList_some, List.length_nil,
      List.length_singleton]
    omega
  | takeTask hm h =>
    simp only [work, hm, h, held, List.length_cons, List.length_nil]
    omega
  | takeForwarded hm h =>
    simp only [work, hm, h, held, Option.toList_none, Option.toList_some, List.length_append,
      List.length_singleton, List.length_nil]
    omega
  | takeIdle hm h =>
    have := length_eraseIdx h
    simp only [work, hm, held, List.length_append, List.length_singleton, List.length_nil]
    omega
  | succeed h =>
    have := length_eraseIdx h
    simp only [work, List.length_append, List.length_singleton]
    omega
  | fail h hroom =>
    have := length_eraseIdx h
    simp only [work, List.length_append, List.length_singleton]
    omega
  | count hm h =>
    have := length_eraseIdx h
    have hheld : (held s.main).length = 0 := by rw [hm]; rfl
    simp only [work, held_after_count, List.length_nil]
    omega

/-- The step lemma for the calls. -/
theorem budget_step (h : Step s a s' es) :
    budget s' + (es.filterMap SchedulerEvent.called?).length ≤
      budget s + if a.isRegister then 1 else 0 := by
  cases h with
  | register =>
    simp only [budget, SchedulerAction.isRegister, if_true, List.length_append,
      List.length_singleton, List.filterMap_nil, List.length_nil]
    omega
  | forward h =>
    have hlt := (List.getElem?_eq_some_iff.mp h).1
    simp only [budget, List.length_append, List.length_singleton, List.filterMap_nil,
      List.length_nil]
    omega
  | receive hf h =>
    have := length_eraseIdx h
    simp only [budget, hf, Option.toList_none, Option.toList_some, List.length_nil,
      List.length_singleton, List.filterMap_nil]
    omega
  | takeTask hm h =>
    simp only [budget, hm, h, held, List.length_cons, List.length_nil, List.filterMap_nil]
    omega
  | takeForwarded hm h =>
    simp only [budget, hm, h, held, Option.toList_none, Option.toList_some, List.length_append,
      List.length_singleton, List.length_nil, List.filterMap_cons, SchedulerEvent.called?,
      List.filterMap_nil]
    omega
  | takeIdle hm h =>
    have := length_eraseIdx h
    simp only [budget, hm, held, List.length_append, List.length_singleton, List.length_nil,
      List.filterMap_cons, SchedulerEvent.called?, List.filterMap_nil]
    omega
  | succeed h =>
    have := length_eraseIdx h
    simp only [budget, List.length_append, List.length_singleton, List.filterMap_cons,
      SchedulerEvent.called?, List.filterMap_nil, List.length_nil]
    omega
  | fail h hroom =>
    have := length_eraseIdx h
    simp only [budget, List.length_append, List.length_singleton, List.filterMap_cons,
      SchedulerEvent.called?, List.filterMap_nil, List.length_nil]
    omega
  | count hm h =>
    have hheld : (held s.main).length = 0 := by rw [hm]; rfl
    simp only [budget, held_after_count, List.length_nil, List.filterMap_cons,
      SchedulerEvent.called?, List.filterMap_nil]
    omega

variable {ntasks : ℕ} {workers : List ω} {c c' : Cfg ω}
  {ok : Cfg ω → SchedulerAction ω → Prop}

/-- The potential of a phase. -/
def potential (ntasks : ℕ) (workers : List ω) : (system ntasks workers).Potential pay where
  value := work
  step_lt h := work_step (step_of_eq_some h)

/-! ### Progress

Where a scheduler is stuck is found by looking at the main loop. At the `select` there is a task to
take, or one that is counted, or a call in flight; so it can only wait for a worker, unless there
are no tasks at all. -/

/-- No step is left but that a worker registers or that a call fails. A call in flight could also
return `true`, so there is none. -/
def Quiescent (s : Scheduler ω) : Prop := ∀ a, a.external = false → s.step a = none

section Tokens

variable [DecidableEq ω]

/-- The addresses that were forwarded, and where they are. -/
theorem tokens_perm (hc : (system ntasks workers).Reachable ok c) :
    (tokens c.state ++ failures c.trace).Perm (c.state.workers.take c.state.forwarded) := by
  rw [List.perm_iff_count]
  intro w
  rw [List.count_append]
  exact tokens_add_failures hc w

theorem length_tokens_add_failures (hc : (system ntasks workers).Reachable ok c) :
    (tokens c.state).length + (failures c.trace).length =
      min c.state.forwarded c.state.workers.length := by
  rw [← List.length_append, (tokens_perm hc).length_eq, List.length_take]

/-- A worker whose address is somewhere has not failed. -/
theorem length_failures_lt (hc : (system ntasks workers).Reachable ok c)
    (h : tokens c.state ≠ []) : (failures c.trace).length < c.state.workers.length := by
  have := length_tokens_add_failures hc
  have := List.length_pos_iff.mpr h
  omega

/-- When all workers have failed, the task of the last one is still to be done. -/
theorem idle_or_held (hc : (system ntasks workers).Reachable ok c) (hpos : 0 < ntasks) :
    (failures c.trace).length < c.state.workers.length ∨ c.state.idleTasks ≠ [] ∨
      held c.state.main ≠ [] := by
  refine System.Reachable.invariant (M := system ntasks workers)
    (P := fun c => (failures c.trace).length < c.state.workers.length ∨ c.state.idleTasks ≠ [] ∨
      held c.state.main ≠ []) ?_ ?_ hc
  · refine Or.inr (Or.inl ?_)
    simpa [System.start, system, init] using hpos.ne'
  · intro c a c' hc hI ha hn
    have hlt : tokens c'.state ≠ [] → _ := length_failures_lt (hc.tail ha hn)
    obtain ⟨es, hs, ht⟩ := step_of_next hn
    rw [ht] at hlt ⊢
    obtain ⟨s, tr⟩ := c
    obtain ⟨s', tr'⟩ := c'
    simp only at hs hI hlt ⊢
    cases hs with
    | register =>
      refine hI.imp_left fun h => ?_
      simp only [List.append_nil, List.length_append, List.length_singleton]
      omega
    | forward | receive => simpa using hI
    | takeTask => exact Or.inr (Or.inr (List.cons_ne_nil _ _))
    | takeForwarded | takeIdle | succeed => exact Or.inl (hlt (by simp [tokens]))
    | fail => exact Or.inr (Or.inl (by simp))
    | count hm =>
      rw [hm] at hI
      rw [held_after_count, failures, List.filterMap_append]
      simpa [failures, List.filterMap_cons, SchedulerEvent.failed?, held] using hI

end Tokens

/-- When the main loop returns. -/
theorem returned_iff (hc : (system ntasks workers).Reachable ok c) :
    c.state.main = .returned ↔ 0 < ntasks ∧ c.state.doneCounter = ntasks := by
  refine System.Reachable.invariant (M := system ntasks workers)
    (P := fun c => c.state.main = .returned ↔ 0 < ntasks ∧ c.state.doneCounter = ntasks) ?_ ?_ hc
  · simp only [System.start, system, init]
    constructor
    · intro h
      cases h
    · omega
  · intro c a c' hc hI _ hn
    obtain ⟨es, hs, _⟩ := step_of_next hn
    have hsize := (counts_of_reachable hc).size
    obtain ⟨s, tr⟩ := c
    obtain ⟨s', tr'⟩ := c'
    simp only at hs hI hsize ⊢
    cases hs with
    | takeTask hm | takeForwarded hm | takeIdle hm => simpa [hm] using hI
    | count hm =>
      simp only [hsize]
      split <;> simp <;> omega
    | _ => exact hI

/-- When nothing is left in the other places, everything is counted. -/
theorem doneCounter_eq (hc : (system ntasks workers).Reachable ok c)
    (hidle : c.state.idleTasks = []) (hheld : held c.state.main = []) (hcalls : c.state.calls = [])
    (hfin : c.state.finishing = []) : c.state.doneCounter = ntasks := by
  have hperm : (countedTasks c.trace).Perm (List.range ntasks) := by
    rw [List.perm_iff_count]
    intro task
    have hsum := sum_occurrences hc task
    rw [List.nodup_range.count]
    simpa [occurrences, tasksAt, hidle, hheld, hcalls, hfin] using hsum
  rw [(counts_of_reachable hc).doneCounter, hperm.length_eq, List.length_range]

theorem idleTasks_eq_nil_of_returned (hc : (system ntasks workers).Reachable ok c)
    (hr : c.state.main = .returned) : c.state.idleTasks = [] := by
  by_contra hne
  obtain ⟨task, htask⟩ := List.exists_mem_of_ne_nil _ hne
  have hlt := lt_of_mem_tasksAt hc .idle htask
  have hsum := sum_occurrences hc task
  rw [if_pos hlt, occurrences, counted_of_returned hc hr hlt] at hsum
  have : 0 < (tasksAt c .idle).count task := List.count_pos_iff.mpr htask
  omega

section Quiescent

variable [DecidableEq ω]

/-- What a quiescent scheduler waits for. -/
theorem Quiescent.waits (hc : (system ntasks workers).Reachable ok c) (hq : Quiescent c.state)
    (hpos : 0 < ntasks) :
    c.state.main = .returned ∨ (failures c.trace).length = c.state.workers.length := by
  have hcalls : c.state.calls = [] := by
    have h := hq (.reply 0 true) rfl
    cases hcalls : c.state.calls with
    | nil => rfl
    | cons call calls => simp [step, hcalls] at h
  cases hm : c.state.main with
  | returned => exact Or.inl rfl
  | select =>
    have hidle : c.state.idleTasks = [] := by
      have h := hq .takeTask rfl
      cases hidle : c.state.idleTasks with
      | nil => rfl
      | cons task tasks => simp [step, hm, hidle] at h
    have hfin : c.state.finishing = [] := by
      have h := hq (.count 0) rfl
      cases hfin : c.state.finishing with
      | nil => rfl
      | cons task tasks => simp [step, hm, hfin] at h
    have hcount := doneCounter_eq hc hidle (by rw [hm]; rfl) hcalls hfin
    have hret := (returned_iff hc).mpr ⟨hpos, hcount⟩
    rw [hm] at hret
    cases hret
  | holding task =>
    have hforwarding : c.state.forwarding = none := by
      have h := hq .takeForwarded rfl
      cases hf : c.state.forwarding with
      | none => rfl
      | some w => simp [step, hm, hf] at h
    have hsenders : c.state.senders = [] := by
      have h := hq (.receive 0) rfl
      cases hs : c.state.senders with
      | nil => rfl
      | cons w ws => simp [step, hforwarding, hs] at h
    have hidle : c.state.idleSenders = [] := by
      have h := hq (.takeIdle 0) rfl
      cases hs : c.state.idleSenders with
      | nil => rfl
      | cons w ws => simp [step, hm, hs] at h
    have hforwarded : c.state.workers.length ≤ c.state.forwarded := by
      have h := hq .forward rfl
      by_contra hlt
      simp [step, List.getElem?_eq_getElem (Nat.lt_of_not_le hlt)] at h
    have htokens : tokens c.state = [] := by simp [tokens, hsenders, hforwarding, hidle, hcalls]
    have hlen := length_tokens_add_failures hc
    rw [htokens, List.length_nil, Nat.min_eq_right hforwarded, Nat.zero_add] at hlen
    exact Or.inr hlen

/-- **`schedule` terminates.** A run of a phase has at most `4` steps for each task, `5` for each
worker that was there at the start, and `6` for each that registers. When no goroutine of the master
can go on and no call is in flight, `schedule` has returned exactly if there are tasks and some
worker has not failed. -/
theorem schedule_returns_iff (ntasks : ℕ) (workers : List ω) (as : List (SchedulerAction ω))
    (c : Cfg ω) (hc : (system ntasks workers).exec (system ntasks workers).start as = some c) :
    as.length ≤
      4 * ntasks + 5 * workers.length + 6 * as.countP SchedulerAction.isRegister ∧
    (Quiescent c.state → (c.state.main = .returned ↔
      0 < ntasks ∧ (failures c.trace).length < c.state.workers.length)) := by
  have hreach := System.reaches_of_exec hc
  constructor
  · have hlen := (potential ntasks workers).length_le hc
    have hstart : (potential ntasks workers).value (system ntasks workers).start.state =
      4 * ntasks + 5 * workers.length := work_init ntasks workers
    rw [show (as.map pay).sum = _ from sum_map_ite _ _ as, hstart] at hlen
    omega
  · intro hq
    constructor
    · intro hret
      have hpos := ((returned_iff hreach).mp hret).1
      refine ⟨hpos, (idle_or_held hreach hpos).resolve_right ?_⟩
      rintro (hidle | hheld)
      · exact hidle (idleTasks_eq_nil_of_returned hreach hret)
      · rw [hret] at hheld
        exact hheld rfl
    · rintro ⟨hpos, hlt⟩
      exact (hq.waits hreach hpos).resolve_right hlt.ne

omit [DecidableEq ω] in
/-- Behind the return only forwarding is left. -/
theorem quiescent_of_returned (hm : s.main = .returned) (hcalls : s.calls = [])
    (hsenders : s.senders = []) (hforwarded : s.workers.length ≤ s.forwarded) : Quiescent s := by
  intro a ha
  cases a with
  | register => cases ha
  | forward => simp [step, List.getElem?_eq_none hforwarded]
  | receive => simp [step, hsenders]
  | takeTask | takeForwarded | takeIdle | count => simp [step, hm]
  | reply k ok =>
    cases ok with
    | true => simp [step, hcalls]
    | false => cases ha

/-- `failureRun` ends with the return of `schedule`: one of the two workers has failed. -/
theorem schedule_returns_iff_failureRun :
    ∃ c, (system 2 []).exec (system 2 []).start failureRun = some c ∧ Quiescent c.state ∧
      failureRun.length ≤ 20 ∧ failures c.trace = [10] ∧ c.state.main = .returned := by
  have hrun : ((system 2 []).exec (system 2 []).start failureRun).any (fun c =>
      decide (c.state.main = .returned ∧ c.state.calls = [] ∧ c.state.senders = [] ∧
        c.state.workers.length ≤ c.state.forwarded ∧ failures c.trace = [10] ∧
        c.state.workers.length = 2)) = true := by
    decide +kernel
  obtain ⟨c, hc, h⟩ := (Option.any_eq_true _ _).mp hrun
  obtain ⟨hmain, hcalls, hsenders, hforwarded, hfail, hworkers⟩ := of_decide_eq_true h
  have hq := quiescent_of_returned hmain hcalls hsenders hforwarded
  obtain ⟨hlen, hiff⟩ := schedule_returns_iff 2 [] failureRun c hc
  refine ⟨c, hc, hq, hlen.trans (by decide), hfail, (hiff hq).mpr ⟨by decide, ?_⟩⟩
  rw [hfail, hworkers]
  decide

end Quiescent

end Scheduler

end MapReduce

end Distsys
