import Distsys.Lib.Lists
import Distsys.Lib.TransitionSystem
import Mathlib.Data.List.Dedup
import Mathlib.Data.List.Perm.Subperm

/-!
# The scheduler

`schedule`, the goroutines `do` it starts, `forwardRegistrations` with its senders, and `Register`,
for one phase of a job. They are connected by channels, three of them unbuffered:

* `registerChan` from the senders of `forwardRegistrations` to the forwarding goroutine of
  `schedule`,
* `idleWorkers` from the forwarding goroutine, and from the goroutines started by a successful `do`,
  to the main loop,
* `doneTasks` from a successful `do` to the main loop,
* `idleTasks`, with room for `ntasks` tasks, from a failed `do` back to the main loop.

A step is one operation on a channel or on `mr.workers`, with the local computation before the next
one. An operation on an unbuffered channel is a step of both sides. A goroutine that has to wait is
not enabled. A call to a worker returns at any time, with any result.

The main loop counts what it receives from `doneTasks` and does not look at it. Why the count is
enough: a task is always in exactly one place. In the same way the address of a worker is a token of
which there is one, as long as nobody registers twice.

## Counting instead of tracing

To follow a single task through the channels would mean to name the goroutines. Instead the number
of places with the task is counted, over all buffers and goroutines, and a step moves one. The list
`finishing` may have the same task more than once for all that the type says; that it has not is a
consequence.

## Main definitions

* `Scheduler`, `Scheduler.step`, `Scheduler.system`
* `Place`, `Scheduler.occurrences` — where a task is
* `Scheduler.tokens` — where the address of a worker is

## Main results

* `Scheduler.sum_occurrences`, `Scheduler.tasks_conserved`
* `Scheduler.tokens_add_failures`, `Scheduler.one_task_per_worker`
-/

namespace Distsys

namespace MapReduce

/-- Where the main loop of `schedule` is. -/
inductive MainLoop where
  /-- At the `select`. -/
  | select
  /-- At `worker := <-idleWorkers`, with a task. -/
  | holding (task : ℕ)
  | returned
  deriving DecidableEq, Repr

/-- A call of `Worker.DoTask`, the `id`-th of the phase. -/
structure Call (ω : Type) where
  id : ℕ
  task : ℕ
  worker : ω
  deriving DecidableEq, Repr

/-- The state of one phase, for worker addresses in `ω`. -/
structure Scheduler (ω : Type) where
  ntasks : ℕ
  /-- `mr.workers`. -/
  workers : List ω
  /-- The variable `i` of `forwardRegistrations`. -/
  forwarded : ℕ
  /-- The goroutines at `ch <- w`. -/
  senders : List ω
  /-- What the forwarding goroutine has received and not passed on. -/
  forwarding : Option ω
  /-- The buffer of `idleTasks`. -/
  idleTasks : List ℕ
  /-- The goroutines at `idleWorkers <- worker`. -/
  idleSenders : List ω
  main : MainLoop
  /-- The number of calls made. -/
  issued : ℕ
  /-- The goroutines `do` in `call`. -/
  calls : List (Call ω)
  /-- The goroutines `do` at `doneTasks <- task`. -/
  finishing : List ℕ
  doneCounter : ℕ
  deriving DecidableEq, Repr

/-- What is seen of a phase. -/
inductive SchedulerEvent (ω : Type) where
  | called (call : Call ω)
  | returned (call : Call ω) (ok : Bool)
  /-- `doneCounter++` for a task received from `doneTasks`. -/
  | counted (task : ℕ)
  deriving DecidableEq, Repr

namespace SchedulerEvent

variable {ω : Type}

/-- The call that is made in an event. -/
def called? : SchedulerEvent ω → Option (Call ω)
  | .called call => some call
  | _ => none

/-- The task of a call that returns `true`. -/
def succeeded? : SchedulerEvent ω → Option ℕ
  | .returned call true => some call.task
  | _ => none

/-- The worker whose call returns `false`. -/
def failed? : SchedulerEvent ω → Option ω
  | .returned call false => some call.worker
  | _ => none

/-- The task that is counted in an event. -/
def counted? : SchedulerEvent ω → Option ℕ
  | .counted task => some task
  | _ => none

end SchedulerEvent

inductive SchedulerAction (ω : Type) where
  /-- The RPC `Master.Register`. -/
  | register (worker : ω)
  /-- `forwardRegistrations` starts the next sender. -/
  | forward
  /-- The forwarding goroutine receives from sender `j`. -/
  | receive (j : ℕ)
  /-- The main loop receives from `idleTasks`. -/
  | takeTask
  /-- The main loop receives a worker from the forwarding goroutine. -/
  | takeForwarded
  /-- The main loop receives a worker from sender `j` of `idleWorkers`. -/
  | takeIdle (j : ℕ)
  /-- Call `k` returns, and `do` gets to its next send; a send on `idleTasks` is done. -/
  | reply (k : ℕ) (ok : Bool)
  /-- The main loop receives from goroutine `j` at `doneTasks`. -/
  | count (j : ℕ)
  deriving DecidableEq, Repr

namespace Scheduler

variable {ω : Type}

/-- A phase starts: `idleTasks` is filled. Workers may have registered already. -/
def init (ntasks : ℕ) (workers : List ω) : Scheduler ω where
  ntasks
  workers
  forwarded := 0
  senders := []
  forwarding := none
  idleTasks := List.range ntasks
  idleSenders := []
  main := .select
  issued := 0
  calls := []
  finishing := []
  doneCounter := 0

/-- `go do(task, worker, ..)`. -/
def issue (s : Scheduler ω) (task : ℕ) (worker : ω) : Scheduler ω × List (SchedulerEvent ω) :=
  ({ s with
      main := .select
      issued := s.issued + 1
      calls := s.calls ++ [⟨s.issued, task, worker⟩] }, [.called ⟨s.issued, task, worker⟩])

/-- The step function. -/
def step (s : Scheduler ω) : SchedulerAction ω → Option (Scheduler ω × List (SchedulerEvent ω))
  | .register worker => some ({ s with workers := s.workers ++ [worker] }, [])
  | .forward =>
    match s.workers[s.forwarded]? with
    | some w => some ({ s with senders := s.senders ++ [w], forwarded := s.forwarded + 1 }, [])
    | none => none
  | .receive j =>
    match s.forwarding, s.senders[j]? with
    | none, some w => some ({ s with forwarding := some w, senders := s.senders.eraseIdx j }, [])
    | _, _ => none
  | .takeTask =>
    match s.main, s.idleTasks with
    | .select, task :: idleTasks => some ({ s with main := .holding task, idleTasks }, [])
    | _, _ => none
  | .takeForwarded =>
    match s.main, s.forwarding with
    | .holding task, some w => some ({ s with forwarding := none }.issue task w)
    | _, _ => none
  | .takeIdle j =>
    match s.main, s.idleSenders[j]? with
    | .holding task, some w =>
      some ({ s with idleSenders := s.idleSenders.eraseIdx j }.issue task w)
    | _, _ => none
  | .reply k true =>
    match s.calls[k]? with
    | some call =>
      some ({ s with
        calls := s.calls.eraseIdx k
        idleSenders := s.idleSenders ++ [call.worker]
        finishing := s.finishing ++ [call.task] }, [.returned call true])
    | none => none
  | .reply k false =>
    match s.calls[k]? with
    | some call =>
      -- a send on a channel whose buffer is full waits
      if s.idleTasks.length < s.ntasks then
        some ({ s with
          calls := s.calls.eraseIdx k
          idleTasks := s.idleTasks ++ [call.task] }, [.returned call false])
      else none
    | none => none
  | .count j =>
    match s.main, s.finishing[j]? with
    | .select, some task =>
      some ({ s with
        finishing := s.finishing.eraseIdx j
        doneCounter := s.doneCounter + 1
        main := if s.doneCounter + 1 = s.ntasks then .returned else .select }, [.counted task])
    | _, _ => none

/-- A phase. -/
def system (ntasks : ℕ) (workers : List ω) :
    System (Scheduler ω) (SchedulerAction ω) (SchedulerEvent ω) where
  init := init ntasks workers
  step := step

/-- Configurations of a phase. -/
abbrev Cfg (ω : Type) := System.Config (Scheduler ω) (SchedulerEvent ω)

/-! ### Inversion

One constructor for each operation on a channel, with what has to be there and what it leaves. -/

/-- What a step does, action by action. -/
inductive Step (s : Scheduler ω) :
    SchedulerAction ω → Scheduler ω → List (SchedulerEvent ω) → Prop where
  | register {worker : ω} :
    Step s (.register worker) { s with workers := s.workers ++ [worker] } []
  | forward {w : ω} (h : s.workers[s.forwarded]? = some w) :
    Step s .forward { s with senders := s.senders ++ [w], forwarded := s.forwarded + 1 } []
  | receive {j : ℕ} {w : ω} (hf : s.forwarding = none) (h : s.senders[j]? = some w) :
    Step s (.receive j) { s with forwarding := some w, senders := s.senders.eraseIdx j } []
  | takeTask {task : ℕ} {idleTasks : List ℕ} (hm : s.main = .select)
      (h : s.idleTasks = task :: idleTasks) :
    Step s .takeTask { s with main := .holding task, idleTasks } []
  | takeForwarded {task : ℕ} {w : ω} (hm : s.main = .holding task) (h : s.forwarding = some w) :
    Step s .takeForwarded
      { s with
        forwarding := none
        main := .select
        issued := s.issued + 1
        calls := s.calls ++ [⟨s.issued, task, w⟩] } [.called ⟨s.issued, task, w⟩]
  | takeIdle {j task : ℕ} {w : ω} (hm : s.main = .holding task) (h : s.idleSenders[j]? = some w) :
    Step s (.takeIdle j)
      { s with
        idleSenders := s.idleSenders.eraseIdx j
        main := .select
        issued := s.issued + 1
        calls := s.calls ++ [⟨s.issued, task, w⟩] } [.called ⟨s.issued, task, w⟩]
  | succeed {k : ℕ} {call : Call ω} (h : s.calls[k]? = some call) :
    Step s (.reply k true)
      { s with
        calls := s.calls.eraseIdx k
        idleSenders := s.idleSenders ++ [call.worker]
        finishing := s.finishing ++ [call.task] } [.returned call true]
  | fail {k : ℕ} {call : Call ω} (h : s.calls[k]? = some call)
      (hroom : s.idleTasks.length < s.ntasks) :
    Step s (.reply k false)
      { s with calls := s.calls.eraseIdx k, idleTasks := s.idleTasks ++ [call.task] }
      [.returned call false]
  | count {j task : ℕ} (hm : s.main = .select) (h : s.finishing[j]? = some task) :
    Step s (.count j)
      { s with
        finishing := s.finishing.eraseIdx j
        doneCounter := s.doneCounter + 1
        main := if s.doneCounter + 1 = s.ntasks then .returned else .select } [.counted task]

theorem step_of_eq_some {s s' : Scheduler ω} {a : SchedulerAction ω}
    {es : List (SchedulerEvent ω)} (h : s.step a = some (s', es)) : Step s a s' es := by
  cases a with
  | register worker => cases h; exact .register
  | forward =>
    simp only [step] at h
    split at h
    · cases h; exact .forward ‹_›
    · cases h
  | receive j =>
    simp only [step] at h
    split at h
    · cases h; exact .receive ‹_› ‹_›
    · cases h
  | takeTask =>
    simp only [step] at h
    split at h
    · cases h; exact .takeTask ‹_› ‹_›
    · cases h
  | takeForwarded =>
    simp only [step] at h
    split at h
    · cases h; exact .takeForwarded ‹_› ‹_›
    · cases h
  | takeIdle j =>
    simp only [step] at h
    split at h
    · cases h; exact .takeIdle ‹_› ‹_›
    · cases h
  | reply k ok =>
    cases ok with
    | true =>
      simp only [step] at h
      split at h
      · cases h; exact .succeed ‹_›
      · cases h
    | false =>
      simp only [step] at h
      split at h
      · split at h
        · cases h; exact .fail ‹_› ‹_›
        · cases h
      · cases h
  | count j =>
    simp only [step] at h
    split at h
    · cases h; exact .count ‹_› ‹_›
    · cases h

variable {ntasks : ℕ} {workers : List ω} {c c' : Cfg ω} {a : SchedulerAction ω}
  {ok : Cfg ω → SchedulerAction ω → Prop}

theorem step_of_next (h : (system ntasks workers).next c a = some c') :
    ∃ es, Step c.state a c'.state es ∧ c'.trace = c.trace ++ es := by
  obtain ⟨es, hs, ht⟩ := System.next_eq_some_iff.mp h
  exact ⟨es, step_of_eq_some hs, ht⟩

/-- A call that is made is in flight. -/
theorem mem_calls_of_called {s s' : Scheduler ω} {es : List (SchedulerEvent ω)} (h : Step s a s' es)
    {call : Call ω} (hcall : .called call ∈ es) : call ∈ s'.calls := by
  cases h with
  | takeForwarded | takeIdle =>
    cases List.mem_singleton.mp hcall
    simp
  | succeed | fail | count => cases List.mem_singleton.mp hcall
  | _ => cases hcall

/-! ### Tasks

A task is in `idleTasks` in the beginning and counted at the end. The number of places it is in is
one all the time. The invariant is a sum over all places, to which each step adds one and from which
it takes one. -/

/-- The places where a task can be. -/
inductive Place where
  /-- In the buffer of `idleTasks`. -/
  | idle
  /-- Held by the main loop, which waits for a worker. -/
  | held
  /-- In a call in flight. -/
  | inFlight
  /-- With a goroutine that waits to send it on `doneTasks`. -/
  | finishing
  /-- Counted in `doneCounter`. -/
  | counted
  deriving DecidableEq, Repr

/-- The task the main loop holds. -/
def held : MainLoop → List ℕ
  | .holding task => [task]
  | _ => []

theorem held_after_count (n m : ℕ) : held (if n = m then .returned else .select) = [] := by
  split <;> rfl

/-- The tasks counted so far. -/
def countedTasks (tr : List (SchedulerEvent ω)) : List ℕ :=
  tr.filterMap SchedulerEvent.counted?

/-- The tasks of the calls that have returned `true`. -/
def succeededTasks (tr : List (SchedulerEvent ω)) : List ℕ :=
  tr.filterMap SchedulerEvent.succeeded?

/-- The tasks in a place. -/
def tasksAt (c : Cfg ω) : Place → List ℕ
  | .idle => c.state.idleTasks
  | .held => held c.state.main
  | .inFlight => c.state.calls.map Call.task
  | .finishing => c.state.finishing
  | .counted => countedTasks c.trace

/-- How often a task is in some place. -/
def occurrences (c : Cfg ω) (task : ℕ) : ℕ :=
  (tasksAt c .idle).count task + (tasksAt c .held).count task + (tasksAt c .inFlight).count task +
    (tasksAt c .finishing).count task + (tasksAt c .counted).count task

theorem step_ntasks {s s' : Scheduler ω} {es : List (SchedulerEvent ω)} (h : Step s a s' es) :
    s'.ntasks = s.ntasks := by
  cases h <;> rfl

/-- The step lemma: a step moves a task from one place to another. -/
theorem occurrences_step {s s' : Scheduler ω} (tr : List (SchedulerEvent ω))
    {es : List (SchedulerEvent ω)}
    (h : Step s a s' es) (task : ℕ) :
    occurrences ⟨s', tr ++ es⟩ task = occurrences ⟨s, tr⟩ task := by
  simp only [occurrences, tasksAt, countedTasks, List.filterMap_append, List.count_append]
  cases h with
  | register | forward | receive => rfl
  | takeTask hm h =>
    simp only [hm, h, held, List.count_cons, List.count_nil, List.filterMap_nil]
    omega
  | takeForwarded hm | takeIdle hm =>
    simp only [hm, held, List.map_append, List.map_cons, List.map_nil, List.count_append,
      List.filterMap_cons, SchedulerEvent.counted?, List.filterMap_nil, List.count_nil]
    omega
  | succeed h =>
    have := count_map_eraseIdx Call.task h task
    simp only [List.count_append, List.count_singleton, List.filterMap_cons,
      SchedulerEvent.counted?, List.filterMap_nil, List.count_nil, beq_iff_eq]
    omega
  | fail h =>
    have := count_map_eraseIdx Call.task h task
    simp only [List.count_append, List.count_singleton, List.filterMap_cons,
      SchedulerEvent.counted?, List.filterMap_nil, List.count_nil, beq_iff_eq]
    omega
  | count hm h =>
    have := count_eraseIdx h task
    rw [held_after_count]
    simp only [hm, held, List.count_singleton, List.filterMap_cons, SchedulerEvent.counted?,
      List.filterMap_nil, List.count_nil, beq_iff_eq]
    omega

/-- **Tasks are conserved.** -/
theorem sum_occurrences (hc : (system ntasks workers).Reachable ok c) (task : ℕ) :
    occurrences c task = if task < ntasks then 1 else 0 := by
  refine System.Reachable.invariant (M := system ntasks workers)
    (P := fun c => occurrences c task = if task < ntasks then 1 else 0) ?_ ?_ hc
  · have : (List.range ntasks).count task = if task < ntasks then 1 else 0 := by
      rw [List.nodup_range.count]
      simp
    simp [occurrences, tasksAt, system, System.start, init, held, countedTasks, this]
  · intro c a c' _ hI _ hn
    obtain ⟨es, hs, ht⟩ := step_of_next hn
    rw [← hI]
    have := occurrences_step c.trace hs task
    rwa [← ht] at this

/-- What the counter of the main loop means, and when the loop ends. -/
structure Counts (ntasks : ℕ) (c : Cfg ω) : Prop where
  size : c.state.ntasks = ntasks
  /-- `doneCounter` is how often the main loop has received from `doneTasks`. -/
  doneCounter : c.state.doneCounter = (countedTasks c.trace).length
  returned : c.state.main = .returned → c.state.doneCounter = ntasks
  /-- A task that was done is counted, or its `do` still waits to send it. -/
  succeeded : ∀ task, (succeededTasks c.trace).count task =
    c.state.finishing.count task + (countedTasks c.trace).count task

theorem Counts.step {s s' : Scheduler ω} {tr es : List (SchedulerEvent ω)} (h : Step s a s' es)
    (hI : Counts ntasks ⟨s, tr⟩) : Counts ntasks ⟨s', tr ++ es⟩ := by
  obtain ⟨hsize, hdone, hret, hsucc⟩ := hI
  have hcount : countedTasks (tr ++ es) = countedTasks tr ++ countedTasks es :=
    List.filterMap_append ..
  have hsucceed : succeededTasks (tr ++ es) = succeededTasks tr ++ succeededTasks es :=
    List.filterMap_append ..
  refine ⟨(step_ntasks h).trans hsize, ?_, ?_, fun task => ?_⟩
  · show s'.doneCounter = (countedTasks (tr ++ es)).length
    rw [hcount, List.length_append, ← hdone]
    cases h <;> rfl
  · intro hr
    cases h with
    | takeTask | takeForwarded | takeIdle => cases hr
    | count hm h =>
      simp only at hr ⊢
      split at hr
      · rename_i hend
        exact hend.trans hsize
      · cases hr
    | _ => exact hret hr
  · show (succeededTasks (tr ++ es)).count task = _
    rw [hcount, hsucceed, List.count_append, List.count_append, hsucc]
    cases h with
    | succeed h =>
      simp only [succeededTasks, countedTasks, SchedulerEvent.succeeded?,
        SchedulerEvent.counted?, List.filterMap_cons, List.filterMap_nil, List.count_nil,
        List.count_append]
      omega
    | count hm h =>
      have := count_eraseIdx h task
      simp only [succeededTasks, countedTasks, SchedulerEvent.succeeded?,
        SchedulerEvent.counted?, List.filterMap_cons, List.filterMap_nil, List.count_nil,
        List.count_singleton, beq_iff_eq]
      omega
    | _ => rfl

theorem counts_of_reachable (hc : (system ntasks workers).Reachable ok c) : Counts ntasks c := by
  refine System.Reachable.invariant (M := system ntasks workers) ?_ ?_ hc
  · exact ⟨rfl, rfl, nofun, fun _ => rfl⟩
  · intro c a c' _ hI _ hn
    obtain ⟨es, hs, ht⟩ := step_of_next hn
    have := hI.step hs
    rwa [← ht] at this

theorem count_tasksAt_le (hc : (system ntasks workers).Reachable ok c) (place : Place)
    (task : ℕ) : (tasksAt c place).count task ≤ if task < ntasks then 1 else 0 := by
  rw [← sum_occurrences hc task, occurrences]
  cases place <;> omega

theorem nodup_tasksAt (hc : (system ntasks workers).Reachable ok c) (place : Place) :
    (tasksAt c place).Nodup :=
  List.nodup_iff_count_le_one.mpr fun t => (count_tasksAt_le hc place t).trans (by split <;> omega)

theorem lt_of_mem_tasksAt (hc : (system ntasks workers).Reachable ok c) (place : Place) {task : ℕ}
    (h : task ∈ tasksAt c place) : task < ntasks := by
  by_contra hge
  have := count_tasksAt_le hc place task
  rw [if_neg hge] at this
  exact (List.count_pos_iff.mpr h).ne' (Nat.le_zero.mp this)

/-- While a call is in flight there is room in the buffer for its task. -/
theorem length_idleTasks_lt (hc : (system ntasks workers).Reachable ok c) {call : Call ω}
    (h : call ∈ c.state.calls) : c.state.idleTasks.length < ntasks := by
  have hin : call.task ∈ tasksAt c .inFlight := List.mem_map_of_mem h
  have hnot : call.task ∉ c.state.idleTasks := by
    intro hidle
    have hsum := sum_occurrences hc call.task
    rw [if_pos (lt_of_mem_tasksAt hc _ hin), occurrences] at hsum
    have h₁ : 0 < (tasksAt c .inFlight).count call.task := List.count_pos_iff.mpr hin
    have h₂ : 0 < (tasksAt c .idle).count call.task := List.count_pos_iff.mpr hidle
    omega
  have hnodup : (call.task :: c.state.idleTasks).Nodup :=
    List.nodup_cons.mpr ⟨hnot, nodup_tasksAt hc .idle⟩
  have hsubset : call.task :: c.state.idleTasks ⊆ List.range ntasks := by
    intro t ht
    rw [List.mem_range]
    rcases List.mem_cons.mp ht with rfl | ht
    · exact lt_of_mem_tasksAt hc _ hin
    · exact lt_of_mem_tasksAt hc .idle ht
  have hlen := (hnodup.subperm hsubset).length_le
  rwa [List.length_range, List.length_cons] at hlen

theorem length_idleTasks_le (hc : (system ntasks workers).Reachable ok c) :
    c.state.idleTasks.length ≤ ntasks := by
  have hsubset : c.state.idleTasks ⊆ List.range ntasks := fun t ht =>
    List.mem_range.mpr (lt_of_mem_tasksAt hc .idle ht)
  have hlen := ((nodup_tasksAt hc .idle).subperm hsubset).length_le
  rwa [List.length_range] at hlen

/-- When the main loop has returned, everything is counted. -/
theorem counted_of_returned (hc : (system ntasks workers).Reachable ok c)
    (hr : c.state.main = .returned) {task : ℕ} (ht : task < ntasks) :
    (tasksAt c .counted).count task = 1 := by
  have hcounts := counts_of_reachable hc
  have hnodup := nodup_tasksAt hc .counted
  have hsubset : tasksAt c .counted ⊆ List.range ntasks := fun t ht =>
    List.mem_range.mpr (lt_of_mem_tasksAt hc _ ht)
  have hlen : (List.range ntasks).length ≤ (tasksAt c .counted).length := by
    rw [List.length_range, tasksAt, ← hcounts.doneCounter, hcounts.returned hr]
  have hperm := (hnodup.subperm hsubset).perm_of_length_le hlen
  exact List.count_eq_one_of_mem hnodup (hperm.mem_iff.mpr (List.mem_range.mpr ht))

theorem calls_eq_nil_of_returned (hc : (system ntasks workers).Reachable ok c)
    (hr : c.state.main = .returned) : c.state.calls = [] := by
  by_contra hne
  obtain ⟨call, hcall⟩ := List.exists_mem_of_ne_nil _ hne
  have hin : call.task ∈ tasksAt c .inFlight := List.mem_map_of_mem hcall
  have hlt := lt_of_mem_tasksAt hc _ hin
  have hsum := sum_occurrences hc call.task
  rw [if_pos hlt, occurrences, counted_of_returned hc hr hlt] at hsum
  have : 0 < (tasksAt c .inFlight).count call.task := List.count_pos_iff.mpr hin
  omega

theorem succeeded_of_returned (hc : (system ntasks workers).Reachable ok c)
    (hr : c.state.main = .returned) {task : ℕ} (ht : task < ntasks) :
    (succeededTasks c.trace).count task = 1 := by
  have hsum := sum_occurrences hc task
  have hcounted := counted_of_returned hc hr ht
  rw [if_pos ht, occurrences, hcounted] at hsum
  rw [(counts_of_reachable hc).succeeded task]
  simp only [tasksAt] at hsum hcounted
  omega

/-- **The scheduler neither loses nor duplicates tasks.** In every reachable state each task is in
exactly one place, and there once; the buffer of `idleTasks` never holds more than `ntasks` tasks,
and a goroutine `do` whose call fails can always send its task back at once; and when `schedule` has
returned, every task has had exactly one call that returned `true`, and no call is in flight. -/
theorem tasks_conserved (ntasks : ℕ) (workers : List ω) (c : Cfg ω)
    (hc : (system ntasks workers).Reachable (fun _ _ => True) c) :
    (∀ task < ntasks, ∃ place, (tasksAt c place).count task = 1 ∧
      ∀ place', place' ≠ place → (tasksAt c place').count task = 0) ∧
    c.state.idleTasks.length ≤ ntasks ∧
    (∀ k call, c.state.calls[k]? = some call →
      ((system ntasks workers).next c (.reply k false)).isSome) ∧
    (c.state.main = .returned → (∀ task < ntasks, (succeededTasks c.trace).count task = 1) ∧
      c.state.calls = []) := by
  refine ⟨fun task ht => ?_, length_idleTasks_le hc, fun k call hk => ?_,
    fun hr => ⟨fun task ht => succeeded_of_returned hc hr ht, calls_eq_nil_of_returned hc hr⟩⟩
  · have hsum := sum_occurrences hc task
    rw [if_pos ht, occurrences] at hsum
    have hplace : ∃ place, (tasksAt c place).count task ≠ 0 := by
      by_contra hnone
      push Not at hnone
      simp only [hnone] at hsum
      omega
    obtain ⟨place, hplace⟩ := hplace
    refine ⟨place, ?_, fun place' hne => ?_⟩
    · cases place <;> omega
    · cases place <;> cases place' <;> first | exact absurd rfl hne | omega
  · have hroom := length_idleTasks_lt hc (List.mem_of_getElem? hk)
    rw [← (counts_of_reachable hc).size] at hroom
    simp [System.next, system, step, hk, hroom]

/-- Two workers, `10` and `20`, and two tasks. The call to `10` fails; `20` does both tasks. -/
def failureRun : List (SchedulerAction ℕ) :=
  [.register 10, .register 20, .forward, .receive 0, .takeTask, .takeForwarded, .forward,
    .receive 0, .takeTask, .takeForwarded, .reply 0 false, .reply 0 true, .count 0, .takeTask,
    .takeIdle 0, .reply 0 true, .count 0]

theorem exists_of_exec (ntasks : ℕ) (workers : List ℕ) (as : List (SchedulerAction ℕ))
    (f : Cfg ℕ → Bool)
    (h : ((system ntasks workers).exec (system ntasks workers).start as).any f = true) :
    ∃ c, (system ntasks workers).Reachable (fun _ _ => True) c ∧ f c = true := by
  obtain ⟨c, hc, hf⟩ := (Option.any_eq_true f _).mp h
  exact ⟨c, System.reaches_of_exec hc, hf⟩

/-- `failureRun` ends with the return of `schedule`. -/
theorem tasks_conserved_failureRun :
    ∃ c, (system 2 []).Reachable (fun _ _ => True) c ∧ c.state.main = .returned ∧
      .returned ⟨0, 0, 10⟩ false ∈ c.trace ∧
      (∀ task < 2, (succeededTasks c.trace).count task = 1) ∧ c.state.calls = [] := by
  obtain ⟨c, hc, h⟩ := exists_of_exec 2 [] failureRun
    (fun c => decide (c.state.main = .returned ∧ .returned ⟨0, 0, 10⟩ false ∈ c.trace))
    (by decide +kernel)
  obtain ⟨hmain, hfail⟩ := of_decide_eq_true h
  exact ⟨c, hc, hmain, hfail, (tasks_conserved 2 [] c hc).2.2.2 hmain⟩

/-! ### Workers

The same for addresses, with the difference that an address can be lost: `do` puts it back only
after a call that has succeeded. An address that is registered twice is two tokens, and then a
worker can be given two tasks. -/

section Workers

variable [DecidableEq ω]

/-- Where the address of a worker is: on its way to the main loop, or in a call. -/
def tokens (s : Scheduler ω) : List ω :=
  s.senders ++ s.forwarding.toList ++ s.idleSenders ++ s.calls.map Call.worker

/-- The workers whose calls have returned `false`. -/
def failures (tr : List (SchedulerEvent ω)) : List ω := tr.filterMap SchedulerEvent.failed?

/-- The step lemma: a step moves an address from one place to another. It comes from `mr.workers`,
and is dropped when a call fails. -/
theorem tokens_step {s s' : Scheduler ω} {tr es : List (SchedulerEvent ω)} (h : Step s a s' es)
    (w : ω) (hI : (tokens s).count w + (failures tr).count w = (s.workers.take s.forwarded).count w)
    (hle : s.forwarded ≤ s.workers.length) :
    (tokens s').count w + (failures (tr ++ es)).count w =
      (s'.workers.take s'.forwarded).count w := by
  have hfail : failures (tr ++ es) = failures tr ++ failures es := List.filterMap_append ..
  rw [hfail, List.count_append]
  simp only [tokens, List.count_append] at hI ⊢
  cases h with
  | register =>
    rw [List.take_append_of_le_length hle]
    exact hI
  | forward h =>
    rw [List.take_add_one, h, List.count_append]
    simp only [failures, List.filterMap_nil, List.count_nil, List.count_append,
      Option.toList_some] at hI ⊢
    omega
  | receive hf h =>
    have := count_eraseIdx h w
    simp only [hf, failures, List.filterMap_nil, List.count_nil, Option.toList_none,
      Option.toList_some, List.count_singleton, beq_iff_eq] at hI ⊢
    omega
  | takeTask => exact hI
  | takeForwarded hm h =>
    simp only [h, failures, List.filterMap_cons, SchedulerEvent.failed?, List.filterMap_nil,
      List.count_nil, Option.toList_none, Option.toList_some, List.map_append, List.map_cons,
      List.map_nil, List.count_append] at hI ⊢
    omega
  | takeIdle hm h =>
    have := count_eraseIdx h w
    simp only [failures, List.filterMap_cons, SchedulerEvent.failed?, List.filterMap_nil,
      List.count_nil, List.map_append, List.map_cons, List.map_nil, List.count_append,
      List.count_singleton, beq_iff_eq] at hI ⊢
    omega
  | succeed h =>
    have := count_map_eraseIdx Call.worker h w
    simp only [failures, List.filterMap_cons, SchedulerEvent.failed?, List.filterMap_nil,
      List.count_nil, List.count_append, List.count_singleton, beq_iff_eq] at hI ⊢
    omega
  | fail h =>
    have := count_map_eraseIdx Call.worker h w
    simp only [failures, List.filterMap_cons, SchedulerEvent.failed?, List.filterMap_nil,
      List.count_singleton, beq_iff_eq] at hI ⊢
    omega
  | count => exact hI

omit [DecidableEq ω] in
theorem forwarded_step {s s' : Scheduler ω} {es : List (SchedulerEvent ω)} (h : Step s a s' es)
    (hle : s.forwarded ≤ s.workers.length) : s'.forwarded ≤ s'.workers.length := by
  cases h with
  | register => simp; omega
  | forward h => exact (List.getElem?_eq_some_iff.mp h).1
  | _ => exact hle

/-- **Addresses are conserved.** -/
theorem tokens_add_failures (hc : (system ntasks workers).Reachable ok c) (w : ω) :
    (tokens c.state).count w + (failures c.trace).count w =
      (c.state.workers.take c.state.forwarded).count w := by
  refine (System.Reachable.invariant (M := system ntasks workers)
    (P := fun c => (tokens c.state).count w + (failures c.trace).count w =
      (c.state.workers.take c.state.forwarded).count w ∧
        c.state.forwarded ≤ c.state.workers.length) ⟨rfl, Nat.zero_le _⟩ ?_ hc).1
  intro c a c' _ hI _ hn
  obtain ⟨es, hs, ht⟩ := step_of_next hn
  rw [ht]
  exact ⟨tokens_step hs w hI.1 hI.2, forwarded_step hs hI.2⟩

/-- Among different addresses there is one token for each, or one failure. -/
theorem tokens_add_failures_le_one (hc : (system ntasks workers).Reachable ok c)
    (hnodup : c.state.workers.Nodup) (w : ω) :
    (tokens c.state).count w + (failures c.trace).count w ≤ 1 := by
  rw [tokens_add_failures hc w]
  exact List.nodup_iff_count_le_one.mp (hnodup.sublist (List.take_sublist ..)) w

omit [DecidableEq ω] in
theorem workers_step {s s' : Scheduler ω} {es : List (SchedulerEvent ω)} (h : Step s a s' es) :
    s.workers.Sublist s'.workers := by
  cases h with
  | register => exact List.sublist_append_left ..
  | _ => exact List.Sublist.refl _

/-- A worker that is called has its token on the way to the main loop. -/
theorem called_step {s s' : Scheduler ω} {es : List (SchedulerEvent ω)} (h : Step s a s' es)
    {call : Call ω} (hcall : .called call ∈ es) : 0 < (tokens s).count call.worker := by
  rw [List.count_pos_iff]
  cases h with
  | takeForwarded hm h =>
    cases List.mem_singleton.mp hcall
    simp [tokens, h]
  | takeIdle hm h =>
    cases List.mem_singleton.mp hcall
    simp [tokens, List.mem_of_getElem? h]
  | succeed | fail | count => cases List.mem_singleton.mp hcall
  | _ => cases hcall

omit [DecidableEq ω] in
theorem length_events_le_one {s s' : Scheduler ω} {es : List (SchedulerEvent ω)}
    (h : Step s a s' es) : es.length ≤ 1 := by
  cases h <;> simp

/-- After a call that fails, its worker is not called again. -/
def Dismissed (e e' : SchedulerEvent ω) : Prop :=
  ∀ call call', e = .returned call false → e' = .called call' → call'.worker ≠ call.worker

theorem dismissed_of_reachable (hc : (system ntasks workers).Reachable ok c)
    (hnodup : c.state.workers.Nodup) : c.trace.Pairwise Dismissed := by
  refine System.Reachable.invariant (M := system ntasks workers)
    (P := fun c => c.state.workers.Nodup → c.trace.Pairwise Dismissed)
    (fun _ => List.Pairwise.nil) ?_ hc hnodup
  intro c a c' hc hI _ hn hnodup'
  obtain ⟨es, hs, ht⟩ := step_of_next hn
  have hnodup := hnodup'.sublist (workers_step hs)
  rw [ht]
  refine List.pairwise_append.mpr ⟨hI hnodup, ?_, fun e he e' he' call call' hret hcall hw => ?_⟩
  · have := length_events_le_one hs
    match es with
    | [] => exact List.Pairwise.nil
    | [e] => exact List.pairwise_singleton _ _
  · subst hret hcall
    have htoken := called_step hs he'
    have hfail : 0 < (failures c.trace).count call'.worker := by
      rw [List.count_pos_iff, failures, List.mem_filterMap]
      exact ⟨_, he, by rw [hw]; rfl⟩
    have := tokens_add_failures_le_one hc hnodup call'.worker
    omega

/-- **One task at a time for each worker.** If all registered addresses are different, then at every
moment of a phase a worker has at most one call in flight, and none if a call to it has returned
`false`, when the worker may still be busy with it; and after such a return it is never called again
in this phase. -/
theorem one_task_per_worker (ntasks : ℕ) (workers : List ω) (c : Cfg ω)
    (hc : (system ntasks workers).Reachable (fun _ _ => True) c)
    (hnodup : c.state.workers.Nodup) :
    (∀ w, (c.state.calls.map Call.worker).count w + (failures c.trace).count w ≤ 1) ∧
      c.trace.Pairwise fun e e' => ∀ call call', e = .returned call false → e' = .called call' →
        call'.worker ≠ call.worker := by
  refine ⟨fun w => ?_, dismissed_of_reachable hc hnodup⟩
  have := tokens_add_failures_le_one hc hnodup w
  simp only [tokens, List.count_append] at this
  omega

/-- In the middle of `failureRun` worker `10` has failed and worker `20` is at work. -/
theorem one_task_per_worker_failureRun :
    ∃ c, (system 2 []).Reachable (fun _ _ => True) c ∧ c.state.workers.Nodup ∧
      c.state.calls = [⟨2, 0, 20⟩] ∧ failures c.trace = [10] ∧
      ∀ w, (c.state.calls.map Call.worker).count w + (failures c.trace).count w ≤ 1 := by
  obtain ⟨c, hc, h⟩ := exists_of_exec 2 [] (failureRun.take 15)
    (fun c => decide (c.state.workers.Nodup ∧ c.state.calls = [⟨2, 0, 20⟩] ∧
      failures c.trace = [10])) (by decide +kernel)
  obtain ⟨hnodup, hcalls, hfail⟩ := of_decide_eq_true h
  exact ⟨c, hc, hnodup, hcalls, hfail, (one_task_per_worker 2 [] c hc hnodup).1⟩

end Workers

end Scheduler

end MapReduce

end Distsys
