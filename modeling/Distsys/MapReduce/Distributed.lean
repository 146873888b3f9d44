import Distsys.MapReduce.Scheduler
import Distsys.MapReduce.Sequential

/-!
# `Distributed`

The master runs the scheduler for the map tasks, then for the reduce tasks, then `merge`. A call to
a worker starts an execution of `Worker.DoTask` on the shared file system. The call returns `true`
only when the execution is finished, but it can return `false` at any time: the worker may not have
begun, may be done, or may go on with the task, also in the next phase, while another worker is
given the same task. So executions are never removed.

How far an execution gets in one step is left open: `Program` is the body of `Worker.DoTask` cut
into steps.

## Executions outlive their calls

A worker cannot be told to stop. When `call` returns `false`, the master does not know whether the
task was executed, and nothing in the model takes the execution away. It may be in any state, it may
go on later, and its phase may be over. Only a call that returns `true` has waited for its
execution.

The steps of the executions and those of the scheduler are one system. The file system is shared by
all workers, as in the source, where they run on one machine or have a common directory.

## Main definitions

* `DoTaskArgs`, `Job.taskArgs`, `Job.doTask`
* `Program`, `Exec`, `Distributed`, `Job.distributed`

## Main results

* `Job.progress_of_reachable` — when the reduce phase begins, an execution of every map task is
  finished, and the same for the reduce tasks at the end
-/

namespace Distsys

namespace MapReduce

/-- `jobPhase`. -/
inductive JobPhase where
  | mapPhase
  | reducePhase
  deriving DecidableEq, Repr

/-- `DoTaskArgs`. -/
structure DoTaskArgs where
  jobName : GoString
  file : GoString
  phase : JobPhase
  taskNumber : ℕ
  numOtherPhase : ℕ
  deriving DecidableEq, Repr

namespace Job

variable (job : Job)

/-- The variable `ntasks` of `schedule`. -/
def ntasks : JobPhase → ℕ
  | .mapPhase => job.files.length
  | .reducePhase => job.nReduce

/-- The variable `nOther` of `schedule`. -/
def nOther : JobPhase → ℕ
  | .mapPhase => job.nReduce
  | .reducePhase => job.files.length

/-- `taskArgs`. The access `mapFiles[task]` may panic. -/
def taskArgs (phase : JobPhase) (task : ℕ) : Option DoTaskArgs :=
  match phase with
  | .mapPhase => job.files[task]?.map fun file => ⟨job.jobName, file, phase, task, job.nOther phase⟩
  | .reducePhase => some ⟨job.jobName, [], phase, task, job.nOther phase⟩

/-- The body of `Worker.DoTask`. -/
def doTask (args : DoTaskArgs) (fs : FileSystem) : Option FileSystem :=
  match args.phase with
  | .mapPhase =>
    doMap job.json args.jobName args.taskNumber args.file args.numOtherPhase job.mapF fs
  | .reducePhase =>
    doReduce job.json job.sortSlice args.jobName args.taskNumber
      (mergeName args.jobName args.taskNumber) args.numOtherPhase job.reduceF fs

end Job

/-- A `doReduce` has read the file `reduceName(jobName, mapTask, reduceTask)`. -/
structure ReadEvent where
  mapTask : ℕ
  reduceTask : ℕ
  contents : List Byte
  deriving DecidableEq, Repr

/-- The body of `Worker.DoTask` in steps, with states in `τ`. -/
structure Program (τ : Type) where
  start : DoTaskArgs → τ
  /-- One step, `none` when it panics or there is none left. -/
  step : τ → FileSystem → Option (τ × FileSystem × List ReadEvent)
  /-- Whether `DoTask` has returned. -/
  finished : τ → Bool
  step_of_finished : ∀ {t}, finished t = true → ∀ fs, step t fs = none

/-- An execution of `Worker.DoTask`. -/
structure Exec (ω τ : Type) where
  phase : JobPhase
  /-- The call that has started it. -/
  call : Call ω
  /-- How far it is. -/
  state : τ
  deriving DecidableEq, Repr

/-- Where the master is. -/
inductive Stage where
  /-- In `schedule`. -/
  | scheduling (phase : JobPhase)
  /-- Behind `merge`. -/
  | merged
  deriving DecidableEq, Repr

/-- The master, the executions and the file system. -/
structure Distributed (ω τ : Type) where
  stage : Stage
  /-- The scheduler of the phase, with what has happened in it. -/
  sched : Scheduler.Cfg ω
  execs : List (Exec ω τ)
  /-- All workers and the master see the same files. -/
  fs : FileSystem

inductive DistributedAction (ω : Type) where
  /-- A step of the scheduler. -/
  | sched (a : SchedulerAction ω)
  /-- Execution `j` makes a step. -/
  | exec (j : ℕ)
  /-- `schedule(mapPhase)` has returned. -/
  | nextPhase
  /-- `schedule(reducePhase)` has returned. -/
  | merge
  deriving DecidableEq, Repr

namespace Distributed

variable {ω τ : Type} [DecidableEq ω] (P : Program τ)

/-- A call returns `true` when `Worker.DoTask` has returned. -/
def permits (d : Distributed ω τ) (phase : JobPhase) : SchedulerAction ω → Bool
  | .reply k true => d.sched.state.calls[k]?.any fun call =>
      d.execs.any fun x => x.phase = phase && x.call = call && P.finished x.state
  | _ => true

end Distributed

namespace Job

variable {ω τ : Type} [DecidableEq ω] (job : Job) (P : Program τ)

/-- The execution a call starts. -/
def begin (phase : JobPhase) (call : Call ω) : Option (Exec ω τ) :=
  (job.taskArgs phase call.task).map fun args => ⟨phase, call, P.start args⟩

/-- The step function. -/
def distributedStep (d : Distributed ω τ) :
    DistributedAction ω → Option (Distributed ω τ × List ReadEvent)
  | .sched a =>
    match d.stage with
    | .scheduling phase =>
      if d.permits P phase a then do
        let (state, es) ← d.sched.state.step a
        let execs ← (es.filterMap SchedulerEvent.called?).mapM (job.begin P phase)
        return ({ d with sched := ⟨state, d.sched.trace ++ es⟩, execs := d.execs ++ execs }, [])
      else none
    | .merged => none
  | .exec j => do
    let x ← d.execs[j]?
    let (state, fs, reads) ← P.step x.state d.fs
    return ({ d with execs := d.execs.set j { x with state }, fs }, reads)
  | .nextPhase =>
    if d.stage = .scheduling .mapPhase ∧ d.sched.state.main = .returned then
      some ({ d with
        stage := .scheduling .reducePhase
        sched :=
          (Scheduler.system (job.ntasks .reducePhase) d.sched.state.workers).start }, [])
    else none
  | .merge =>
    if d.stage = .scheduling .reducePhase ∧ d.sched.state.main = .returned then
      (MapReduce.merge job.json job.jobName job.nReduce d.fs).map fun r =>
        ({ d with stage := .merged, fs := r.2 }, [])
    else none

/-- `Distributed`, from the files `fs`. -/
def distributed (fs : FileSystem) :
    System (Distributed ω τ) (DistributedAction ω) ReadEvent where
  init := ⟨.scheduling .mapPhase, (Scheduler.system (job.ntasks .mapPhase) []).start, [], fs⟩
  step := job.distributedStep P

/-! ### Inversion

The constructors of `DistributedStep` have as hypotheses what makes a step possible and as indices
what comes of it. Proofs about a step go by cases on it. -/

variable {job P} {d d' : Distributed ω τ} {a : DistributedAction ω} {reads : List ReadEvent}

/-- What a step does. -/
inductive DistributedStep (job : Job) (P : Program τ) (d : Distributed ω τ) :
    DistributedAction ω → Distributed ω τ → List ReadEvent → Prop where
  | sched {phase : JobPhase} {a : SchedulerAction ω} {state : Scheduler ω}
      {es : List (SchedulerEvent ω)} {execs : List (Exec ω τ)}
      (hstage : d.stage = .scheduling phase) (hpermits : d.permits P phase a = true)
      (hstep : d.sched.state.step a = some (state, es))
      (hexecs : (es.filterMap SchedulerEvent.called?).mapM (job.begin P phase) = some execs) :
    DistributedStep job P d (.sched a)
      { d with sched := ⟨state, d.sched.trace ++ es⟩, execs := d.execs ++ execs } []
  | exec {j : ℕ} {x : Exec ω τ} {state : τ} {fs : FileSystem} {reads : List ReadEvent}
      (hx : d.execs[j]? = some x) (hstep : P.step x.state d.fs = some (state, fs, reads)) :
    DistributedStep job P d (.exec j)
      { d with execs := d.execs.set j { x with state }, fs } reads
  | nextPhase (hstage : d.stage = .scheduling .mapPhase)
      (hreturned : d.sched.state.main = .returned) :
    DistributedStep job P d .nextPhase
      { d with
        stage := .scheduling .reducePhase
        sched := (Scheduler.system (job.ntasks .reducePhase) d.sched.state.workers).start } []
  | merge {pairs : List KeyValue} {fs : FileSystem} (hstage : d.stage = .scheduling .reducePhase)
      (hreturned : d.sched.state.main = .returned)
      (hmerge : MapReduce.merge job.json job.jobName job.nReduce d.fs = some (pairs, fs)) :
    DistributedStep job P d .merge { d with stage := .merged, fs } []

theorem distributedStep_of_eq_some (h : job.distributedStep P d a = some (d', reads)) :
    DistributedStep job P d a d' reads := by
  cases a with
  | sched a =>
    simp only [distributedStep] at h
    split at h
    · split at h
      · obtain ⟨⟨state, es⟩, hstep, h⟩ := Option.bind_eq_some_iff.mp h
        obtain ⟨execs, hexecs, h⟩ := Option.bind_eq_some_iff.mp h
        cases h
        exact .sched ‹_› ‹_› hstep hexecs
      · cases h
    · cases h
  | exec j =>
    obtain ⟨x, hx, h⟩ := Option.bind_eq_some_iff.mp h
    obtain ⟨⟨state, fs, es⟩, hstep, h⟩ := Option.bind_eq_some_iff.mp h
    cases h
    exact .exec hx hstep
  | nextPhase =>
    simp only [distributedStep] at h
    split at h
    · rename_i hcond
      cases h
      exact .nextPhase hcond.1 hcond.2
    · cases h
  | merge =>
    simp only [distributedStep] at h
    split at h
    · rename_i hcond
      obtain ⟨⟨pairs, fs⟩, hmerge, h⟩ := Option.map_eq_some_iff.mp h
      cases h
      exact .merge hcond.1 hcond.2 hmerge
    · cases h

/-! ### Executions

A phase ends when the counter of the scheduler says so. Here this is related to executions: each
task was counted because a call for it returned `true`, and this call has a finished execution. -/

/-- An execution of the task is finished. -/
def Done (P : Program τ) (d : Distributed ω τ) (phase : JobPhase) (task : ℕ) : Prop :=
  ∃ x ∈ d.execs, x.phase = phase ∧ x.call.task = task ∧ P.finished x.state = true

/-- Finished executions stay. -/
theorem Done.step {phase : JobPhase} {task : ℕ} (hdone : Done P d phase task)
    (h : DistributedStep job P d a d' reads) : Done P d' phase task := by
  obtain ⟨x, hx, hphase, htask, hfin⟩ := hdone
  cases h with
  | sched => exact ⟨x, List.mem_append_left _ hx, hphase, htask, hfin⟩
  | nextPhase | merge => exact ⟨x, hx, hphase, htask, hfin⟩
  | @exec j y state fs reads hy hstep =>
    obtain ⟨i, hi⟩ := List.mem_iff_getElem?.mp hx
    refine ⟨x, List.mem_iff_getElem?.mpr ⟨i, ?_⟩, hphase, htask, hfin⟩
    rw [List.getElem?_set_ne]
    · exact hi
    · rintro rfl
      cases hy.symm.trans hi
      rw [P.step_of_finished hfin] at hstep
      cases hstep

/-- The master and the executions. -/
structure Progress (job : Job) (P : Program τ) (d : Distributed ω τ) : Prop where
  /-- The scheduler is in a reachable state. -/
  sched : ∀ phase, d.stage = .scheduling phase →
    ∃ workers, (Scheduler.system (job.ntasks phase) workers).Reachable (fun _ _ => True) d.sched
  /-- A call that has returned `true` was executed. -/
  succeeded : ∀ phase, d.stage = .scheduling phase →
    ∀ task ∈ Scheduler.succeededTasks d.sched.trace, Done P d phase task
  /-- Behind the barrier all map tasks are. -/
  mapped : d.stage ≠ .scheduling .mapPhase → ∀ m < job.ntasks .mapPhase, Done P d .mapPhase m
  reduced : d.stage = .merged → ∀ r < job.ntasks .reducePhase, Done P d .reducePhase r
  task_lt : ∀ x ∈ d.execs, x.call.task < job.ntasks x.phase
  /-- There are no reduce tasks before the barrier. -/
  phase : ∀ x ∈ d.execs, x.phase = .reducePhase → d.stage ≠ .scheduling .mapPhase

omit [DecidableEq ω] in
/-- An execution that is new is of the phase. -/
theorem phase_of_begin {phase : JobPhase} {calls : List (Call ω)} {execs : List (Exec ω τ)}
    (h : calls.mapM (job.begin P phase) = some execs) {x : Exec ω τ} (hx : x ∈ execs) :
    x.phase = phase ∧ x.call ∈ calls ∧
      ∃ args, job.taskArgs phase x.call.task = some args ∧ x.state = P.start args := by
  obtain ⟨call, hcall, hbegin⟩ := exists_of_mem_mapM h hx
  obtain ⟨args, hargs, rfl⟩ := Option.map_eq_some_iff.mp hbegin
  exact ⟨rfl, hcall, args, hargs, rfl⟩

/-- A call that returns `true` has a finished execution. -/
theorem done_of_succeeded {phase : JobPhase} {a : SchedulerAction ω} {state : Scheduler ω}
    {es : List (SchedulerEvent ω)} (hpermits : d.permits P phase a = true)
    (hstep : d.sched.state.step a = some (state, es)) {task : ℕ}
    (h : task ∈ Scheduler.succeededTasks es) : Done P d phase task := by
  have hs := Scheduler.step_of_eq_some hstep
  cases hs with
  | succeed hk =>
    simp only [Distributed.permits, hk, Option.any_some, List.any_eq_true, Bool.and_eq_true,
      decide_eq_true_eq] at hpermits
    obtain ⟨x, hx, ⟨hphase, hcall⟩, hfin⟩ := hpermits
    obtain rfl : task = _ := List.mem_singleton.mp h
    exact ⟨x, hx, hphase, by rw [hcall], hfin⟩
  | _ => cases h

omit [DecidableEq ω] in
/-- When the scheduler has returned, every task is done. -/
theorem Progress.done_of_returned (hI : Progress job P d) {phase : JobPhase}
    (hstage : d.stage = .scheduling phase) (hret : d.sched.state.main = .returned) {task : ℕ}
    (ht : task < job.ntasks phase) : Done P d phase task := by
  obtain ⟨workers, hsched⟩ := hI.sched phase hstage
  refine hI.succeeded phase hstage task (List.count_pos_iff.mp ?_)
  rw [Scheduler.succeeded_of_returned hsched hret ht]
  exact Nat.one_pos

omit [DecidableEq ω] in
/-- An execution that is new is of a task of the phase. -/
theorem task_lt_of_begin {phase : JobPhase} {workers : List ω} {a : SchedulerAction ω}
    {state : Scheduler ω} {es : List (SchedulerEvent ω)} {tr : List (SchedulerEvent ω)}
    (hreach : (Scheduler.system (job.ntasks phase) workers).Reachable (fun _ _ => True) ⟨state, tr⟩)
    (hsched : d.sched.state.step a = some (state, es)) {execs : List (Exec ω τ)}
    (hexecs : (es.filterMap SchedulerEvent.called?).mapM (job.begin P phase) = some execs)
    {x : Exec ω τ} (hx : x ∈ execs) : x.call.task < job.ntasks x.phase := by
  obtain ⟨hphase, hcall, _⟩ := phase_of_begin hexecs hx
  obtain ⟨e, he, hec⟩ := List.mem_filterMap.mp hcall
  rw [hphase]
  refine Scheduler.lt_of_mem_tasksAt hreach .inFlight (List.mem_map_of_mem ?_)
  cases e with
  | called call =>
    cases hec
    exact Scheduler.mem_calls_of_called (Scheduler.step_of_eq_some hsched) he
  | _ => cases hec

/-- The step lemma. -/
theorem Progress.step (hI : Progress job P d) (h : DistributedStep job P d a d' reads) :
    Progress job P d' := by
  have hdone : ∀ {phase task}, Done P d phase task → Done P d' phase task := fun hd => hd.step h
  cases h with
  | @sched phase₀ a state es execs hstage hpermits hsched hexecs =>
    have hreach : ∀ phase, d.stage = .scheduling phase → ∃ workers,
        (Scheduler.system (job.ntasks phase) workers).Reachable (fun _ _ => True)
          ⟨state, d.sched.trace ++ es⟩ := by
      intro phase hphase
      obtain ⟨workers, hreach⟩ := hI.sched phase hphase
      exact ⟨workers, hreach.tail trivial (System.next_eq_some_iff.mpr ⟨_, hsched, rfl⟩)⟩
    refine ⟨hreach, fun phase hphase task htask => hdone ?_,
      fun hm m hlt => hdone (hI.mapped hm m hlt), fun hm r hlt => hdone (hI.reduced hm r hlt),
      fun x hx => ?_, fun x hx hred => ?_⟩
    · rw [Scheduler.succeededTasks, List.filterMap_append] at htask
      rcases List.mem_append.mp htask with htask | htask
      · exact hI.succeeded phase hphase task htask
      · cases hstage.symm.trans hphase
        exact done_of_succeeded hpermits hsched htask
    · rcases List.mem_append.mp hx with hx | hx
      · exact hI.task_lt x hx
      · obtain ⟨workers, hreach⟩ := hreach phase₀ hstage
        exact task_lt_of_begin hreach hsched hexecs hx
    · rcases List.mem_append.mp hx with hx | hx
      · exact hI.phase x hx hred
      · rw [(phase_of_begin hexecs hx).1] at hred
        rw [hred] at hstage
        exact fun hmap => by cases hstage.symm.trans hmap
  | exec hx h =>
    refine ⟨hI.sched, fun phase hphase task htask => hdone (hI.succeeded phase hphase task htask),
      fun hm m hlt => hdone (hI.mapped hm m hlt), fun hm r hlt => hdone (hI.reduced hm r hlt),
      fun y hy => ?_, fun y hy hred => ?_⟩
    · rcases List.mem_or_eq_of_mem_set hy with hy | rfl
      · exact hI.task_lt y hy
      · exact (hI.task_lt _ (List.mem_of_getElem? hx) :)
    · rcases List.mem_or_eq_of_mem_set hy with hy | rfl
      · exact hI.phase y hy hred
      · exact hI.phase _ (List.mem_of_getElem? hx) hred
  | nextPhase hstage hret =>
    refine ⟨fun phase hphase => ?_, fun phase hphase task htask => (by cases htask),
      fun _ m hlt => hdone (hI.done_of_returned hstage hret hlt), fun hm => (by cases hm),
      hI.task_lt, fun x hx hred hmap => (by cases hmap)⟩
    cases hphase
    exact ⟨_, System.Reaches.refl _⟩
  | merge hstage hret hmerge =>
    refine ⟨fun phase hphase => (by cases hphase), fun phase hphase => (by cases hphase),
      fun _ m hlt => hdone (hI.mapped ?_ m hlt),
      fun _ r hlt => hdone (hI.done_of_returned hstage hret hlt), hI.task_lt,
      fun x hx hred hmap => (by cases hmap)⟩
    exact fun hmap => by cases hstage.symm.trans hmap

variable {fs₀ : FileSystem} {c c' : System.Config (Distributed ω τ) ReadEvent}
  {ok : System.Config (Distributed ω τ) ReadEvent → DistributedAction ω → Prop}

theorem distributedStep_of_next (h : (job.distributed P fs₀).next c a = some c') :
    ∃ reads, DistributedStep job P c.state a c'.state reads ∧ c'.trace = c.trace ++ reads := by
  obtain ⟨reads, hs, ht⟩ := System.next_eq_some_iff.mp h
  exact ⟨reads, distributedStep_of_eq_some hs, ht⟩

theorem progress_of_reachable (hc : (job.distributed P fs₀).Reachable ok c) :
    Progress job P c.state := by
  refine System.Reachable.invariant (M := job.distributed P fs₀)
    (P := fun c => Progress job P c.state) ?_ ?_ hc
  · refine ⟨fun phase hphase => ?_, fun _ _ _ htask => (nomatch htask), fun hm => absurd rfl hm,
      fun hm => (nomatch hm), nofun, nofun⟩
    cases hphase
    exact ⟨[], System.Reaches.refl _⟩
  · intro c a c' _ hI _ hn
    obtain ⟨reads, hs, _⟩ := distributedStep_of_next hn
    exact hI.step hs

end Job

end MapReduce

end Distsys
